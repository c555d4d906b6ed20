import Credman.Https

/-! What an accepted destination names. The scans of origin and path are read as a grammar of their
own, and that as a part of the generic one. -/
namespace Credman

open Library

/-! The string functions the scans are written with. -/

theorem stripPrefix_eq_some {start text rest : Text} : stripPrefix start text = some rest ↔
    text = start ++ rest := by
  induction start generalizing text with
  | nil => simp [stripPrefix, eq_comm]
  | cons c start ih =>
    cases text with
    | nil => simp [stripPrefix]
    | cons d text =>
      rw [stripPrefix]
      split_ifs with hcd
      · rw [ih, hcd, List.cons_append, List.cons.injEq]
        simp
      · simp [Ne.symm hcd]

theorem splitOnce_append {sep : Char} {a b : Text} (h : sep ∉ a) :
    splitOnce sep (a ++ sep :: b) = (a, some b) := by
  have hall : ∀ c ∈ a, (c != sep) = true := fun c hc => bne_iff_ne.mpr fun heq => h (heq ▸ hc)
  have hstop : (sep != sep) = false := bne_self_eq_false sep
  unfold splitOnce
  rw [List.dropWhile_append_of_pos hall, List.takeWhile_append_of_pos hall, List.dropWhile_cons,
    List.takeWhile_cons, hstop]
  simp

theorem splitOnce_of_not_mem {sep : Char} {a : Text} (h : sep ∉ a) : splitOnce sep a = (a, none) := by
  have hall : ∀ c ∈ a, (c != sep) = true := fun c hc => bne_iff_ne.mpr fun heq => h (heq ▸ hc)
  have hdrop : a.dropWhile (· != sep) = [] := List.dropWhile_eq_nil_iff.mpr hall
  unfold splitOnce
  rw [hdrop]

theorem splitOnce_cases (sep : Char) (text : Text) :
    (sep ∉ text ∧ splitOnce sep text = (text, none))
      ∨ ∃ a b, text = a ++ sep :: b ∧ sep ∉ a ∧ splitOnce sep text = (a, some b) := by
  by_cases hin : sep ∈ text
  · obtain ⟨a, b, rfl, ha⟩ := List.eq_append_cons_of_mem hin
    exact .inr ⟨a, b, rfl, ha, splitOnce_append ha⟩
  · exact .inl ⟨hin, splitOnce_of_not_mem hin⟩

/-! The parts of an origin. -/

structure PortNumber (port : Text) : Prop where
  nonempty : port ≠ []
  short : port.length ≤ 5
  digits : ∀ c ∈ port, isDigit 10 c = true
  positive : 1 ≤ numberValue 10 port
  bounded : numberValue 10 port ≤ 65535

theorem validPort_iff {port : Text} : validPort port = true ↔ PortNumber port := by
  unfold validPort
  simp only [Bool.and_eq_true, Bool.not_eq_true', List.isEmpty_eq_false_iff, decide_eq_true_eq,
    List.all_eq_true]
  constructor
  · rintro ⟨⟨⟨⟨hne, hshort⟩, hdigits⟩, hbound⟩, hpos⟩
    exact ⟨hne, hshort, hdigits, by omega, by omega⟩
  · intro h
    have hpos := h.positive
    have hbound := h.bounded
    exact ⟨⟨⟨⟨h.nonempty, h.short⟩, h.digits⟩, by omega⟩, by omega⟩

/-- Letters, digits and inner hyphens. -/
structure DnsLabel (label : Text) : Prop where
  nonempty : label ≠ []
  short : label.length ≤ 63
  first : label.head? ≠ some '-'
  last : label.getLast? ≠ some '-'
  chars : ∀ c ∈ label, c.isAlphanum = true ∨ c = '-'

theorem dnsLabel_iff {label : Text} : dnsLabel label = true ↔ DnsLabel label := by
  unfold dnsLabel
  simp only [Bool.and_eq_true, Bool.not_eq_true', List.isEmpty_eq_false_iff, decide_eq_true_eq,
    List.all_eq_true, bne_iff_ne, Bool.or_eq_true, beq_iff_eq]
  exact ⟨fun ⟨⟨⟨⟨h1, h2⟩, h3⟩, h4⟩, h5⟩ => ⟨h1, h2, h3, h4, h5⟩,
    fun h => ⟨⟨⟨⟨h.nonempty, h.short⟩, h.first⟩, h.last⟩, h.chars⟩⟩

/-- A decimal, octal or hexadecimal number, as the older address syntaxes write one. -/
def Numeric (label : Text) : Prop :=
  (label ≠ [] ∧ ∀ c ∈ label, isDigit 10 c = true)
    ∨ ∃ x digits, (x = 'x' ∨ x = 'X') ∧ digits ≠ [] ∧ (∀ c ∈ digits, isDigit 16 c = true)
      ∧ label = '0' :: x :: digits

theorem numericLabel_iff {label : Text} : numericLabel label = true ↔ Numeric label := by
  unfold numericLabel Numeric
  rw [Bool.or_eq_true, Option.any_eq_true]
  apply or_congr
  · simp
  · constructor
    · rintro ⟨digits, hprefix, hdigits⟩
      simp only [Bool.and_eq_true, Bool.not_eq_true', List.isEmpty_eq_false_iff, List.all_eq_true] at hdigits
      rw [Option.or_eq_some_iff] at hprefix
      rcases hprefix with hlower | ⟨-, hupper⟩
      · exact ⟨'x', digits, .inl rfl, hdigits.1, hdigits.2, stripPrefix_eq_some.mp hlower⟩
      · exact ⟨'X', digits, .inr rfl, hdigits.1, hdigits.2, stripPrefix_eq_some.mp hupper⟩
    · rintro ⟨x, digits, hx, hne, hdigits, rfl⟩
      refine ⟨digits, ?_, by simpa using ⟨hne, hdigits⟩⟩
      rcases hx with rfl | rfl
      · rfl
      · rfl

/-- Labels with dots between them. -/
def dotted (labels : List Text) : Text := List.intercalate ['.'] labels

/-- The hosts that stand without brackets: a printed IPv4 address, or labels of which one is not a
number. -/
inductive PlainHost : Text → Prop
  | ipv4 (ip : Ipv4Addr) : PlainHost ip.toText
  | dns {labels : List Text} (hne : labels ≠ []) (hlabels : ∀ l ∈ labels, DnsLabel l)
      (hshort : (dotted labels).length ≤ 253) (hname : ∃ l ∈ labels, ¬ Numeric l) :
    PlainHost (dotted labels)

/-- The hosts an origin may have. -/
inductive OriginHost : Text → Prop
  | plain {host : Text} (h : PlainHost host) : OriginHost host
  | ipv6 (ip : Ipv6Addr) : OriginHost ('[' :: (ip.toText ++ [']']))

theorem DnsLabel.no_dot {label : Text} (h : DnsLabel label) : '.' ∉ label := by
  intro hin
  rcases h.chars '.' hin with halnum | heq
  · cases halnum
  · cases heq

theorem splitOn_dotted {labels : List Text} (hne : labels ≠ []) (h : ∀ l ∈ labels, '.' ∉ l) :
    (dotted labels).splitOn '.' = labels :=
  List.splitOn_intercalate '.' h hne

theorem dotted_splitOn (host : Text) : dotted (host.splitOn '.') = host :=
  List.intercalate_splitOn '.'

/-- What the standard library parses as an IPv4 address has only numeric labels. -/
theorem numeric_of_parse {host : Text} {ip : Ipv4Addr} (h : Ipv4Addr.parse host = some ip) :
    ∀ l ∈ host.splitOn '.', Numeric l := by
  obtain ⟨a, b, c, d, ha, hb, hc, hd, rfl⟩ := Ipv4Addr.parse_shape h
  have hdotted : a ++ '.' :: (b ++ '.' :: (c ++ '.' :: d)) = dotted [a, b, c, d] := by
    simp [dotted, List.intercalate]
  have hdigits : ∀ l ∈ [a, b, c, d], Ipv4Addr.Digits l := by
    intro l hl
    simp only [List.mem_cons, List.not_mem_nil, or_false] at hl
    rcases hl with rfl | rfl | rfl | rfl
    · exact ha
    · exact hb
    · exact hc
    · exact hd
  have hdots : ∀ l ∈ [a, b, c, d], '.' ∉ l := by
    intro l hl hin
    have hdot := (hdigits l hl).2 '.' hin
    cases hdot
  rw [hdotted, splitOn_dotted (by simp) hdots]
  exact fun l hl => .inl (hdigits l hl)

/-! The host. -/

theorem length_toText_le (ip : Ipv4Addr) : ip.toText.length ≤ 15 := by
  have hone := Ipv4Addr.length_octetText_le ip.one
  have htwo := Ipv4Addr.length_octetText_le ip.two
  have hthree := Ipv4Addr.length_octetText_le ip.three
  have hfour := Ipv4Addr.length_octetText_le ip.four
  simp only [Ipv4Addr.toText, List.length_append, List.length_cons]
  omega

theorem dotted_ne_nil {labels : List Text} (hlabels : ∀ l ∈ labels, DnsLabel l) (hne : labels ≠ []) :
    dotted labels ≠ [] := by
  intro hnil
  have hsplit := splitOn_dotted hne fun l hl => (hlabels l hl).no_dot
  rw [hnil] at hsplit
  have hempty : ([] : Text) ∈ labels := by
    rw [← hsplit]
    exact List.mem_singleton_self _
  exact (hlabels [] hempty).nonempty rfl

theorem validHost_iff {host : Text} : validHost host = true ↔ PlainHost host := by
  constructor
  · intro h
    unfold validHost at h
    by_cases hsize : (host.isEmpty || decide (253 < host.length)) = true
    · rw [if_pos hsize] at h
      cases h
    rw [if_neg hsize] at h
    simp only [Bool.or_eq_true, List.isEmpty_iff, decide_eq_true_eq, not_or, not_lt] at hsize
    cases hparse : Ipv4Addr.parse host with
    | some ip =>
      rw [hparse] at h
      rw [beq_iff_eq.mp h]
      exact .ipv4 ip
    | none =>
      rw [hparse] at h
      dsimp only at h
      split_ifs at h with hnumeric
      have hname : ∃ l ∈ host.splitOn '.', ¬ Numeric l := by
        simp only [List.all_eq_true, not_forall] at hnumeric
        obtain ⟨l, hl, hnot⟩ := hnumeric
        exact ⟨l, hl, fun hnum => hnot (numericLabel_iff.mpr hnum)⟩
      have hlabels : ∀ l ∈ host.splitOn '.', DnsLabel l :=
        fun l hl => dnsLabel_iff.mp (List.all_eq_true.mp h l hl)
      have hplain := PlainHost.dns (List.splitOn_ne_nil '.' host) hlabels
        (by rw [dotted_splitOn]; exact hsize.2) hname
      rwa [dotted_splitOn] at hplain
  · intro h
    unfold validHost
    cases h with
    | ipv4 ip =>
      have hne : ip.toText.isEmpty = false := by simp [Ipv4Addr.toText]
      have hshort : ¬ 253 < ip.toText.length := by
        have hle := length_toText_le ip
        omega
      rw [hne, Ipv4Addr.parse_toText]
      simp [hshort]
    | @dns labels hne hlabels hshort hname =>
      have hsplit := splitOn_dotted hne fun l hl => (hlabels l hl).no_dot
      have hempty : (dotted labels).isEmpty = false := by simpa using dotted_ne_nil hlabels hne
      have hparse : Ipv4Addr.parse (dotted labels) = none := by
        cases hparse : Ipv4Addr.parse (dotted labels) with
        | none => rfl
        | some ip =>
          obtain ⟨l, hl, hnot⟩ := hname
          have hnumeric := numeric_of_parse hparse
          rw [hsplit] at hnumeric
          exact absurd (hnumeric l hl) hnot
      have hnumeric : labels.all numericLabel = false := by
        obtain ⟨l, hl, hnot⟩ := hname
        rw [List.all_eq_false]
        exact ⟨l, hl, fun hnum => hnot (numericLabel_iff.mp hnum)⟩
      have hall : labels.all dnsLabel = true :=
        List.all_eq_true.mpr fun l hl => dnsLabel_iff.mpr (hlabels l hl)
      rw [hempty, hparse, hsplit, hnumeric, hall]
      simp [not_lt.mpr hshort]

theorem validIpv6Authority_iff {authority : Text} : validIpv6Authority authority = true ↔
    ∃ (ip : Ipv6Addr) (port : Option Text), (∀ p ∈ port, PortNumber p)
      ∧ authority = '[' :: (ip.toText ++ ']' :: port.elim [] (':' :: ·)) := by
  have hclose : ∀ ip : Ipv6Addr, ']' ∉ ip.toText ∧ '%' ∉ ip.toText ∧ ip.toText ≠ [] := by
    intro ip
    have hchars := (ipv6address_toText ip).chars
    refine ⟨fun hin => ?_, fun hin => ?_, fun hnil => ?_⟩
    · cases hchars _ hin
    · cases hchars _ hin
    · have hparse := ip.parse_toText
      rw [hnil] at hparse
      cases hparse
  constructor
  · intro h
    unfold validIpv6Authority at h
    cases hopen : stripPrefix ['['] authority with
    | none => rw [hopen] at h; cases h
    | some rest =>
      have hauthority := stripPrefix_eq_some.mp hopen
      rw [hopen] at h
      dsimp only at h
      rcases splitOnce_cases ']' rest with ⟨-, hsplit⟩ | ⟨addr, after, hrest, -, hsplit⟩
      · rw [hsplit] at h
        cases h
      · rw [hsplit] at h
        dsimp only at h
        by_cases hzone : (addr.isEmpty || decide ('%' ∈ addr)) = true
        · rw [if_pos hzone] at h
          cases h
        rw [if_neg hzone] at h
        cases hparse : Ipv6Addr.parse addr with
        | none => rw [hparse] at h; cases h
        | some ip =>
          rw [hparse] at h
          dsimp only at h
          split_ifs at h with hcanonical hafter
          · rw [List.isEmpty_iff] at hafter
            rw [ne_eq, not_not] at hcanonical
            exact ⟨ip, none, by simp, by simp [hauthority, hrest, hcanonical, hafter]⟩
          · rw [ne_eq, not_not] at hcanonical
            cases hport : stripPrefix [':'] after with
            | none => rw [hport] at h; cases h
            | some port =>
              rw [hport] at h
              refine ⟨ip, some port, ?_, ?_⟩
              · rintro p ⟨⟩
                exact validPort_iff.mp h
              · have hport := stripPrefix_eq_some.mp hport
                simp [hauthority, hrest, hcanonical, hport]
  · rintro ⟨ip, port, hport, rfl⟩
    obtain ⟨hbracket, hpercent, hne⟩ := hclose ip
    have hopen : ∀ rest, stripPrefix ['['] ('[' :: rest) = some rest := fun _ => rfl
    unfold validIpv6Authority
    rw [hopen]
    dsimp only
    rw [splitOnce_append hbracket]
    dsimp only
    rw [Ipv6Addr.parse_toText]
    cases port with
    | none => simp [hne, hpercent]
    | some port =>
      have hvalid := validPort_iff.mpr (hport port rfl)
      have hcolon : stripPrefix [':'] (':' :: port) = some port := rfl
      simp [hne, hpercent, hcolon, hvalid]

/-! The characters of a host. -/

theorem mem_dotted {labels : List Text} {c : Char} (h : c ∈ dotted labels) :
    c = '.' ∨ ∃ l ∈ labels, c ∈ l := by
  induction labels with
  | nil => exact absurd h (by simp [dotted])
  | cons label labels ih =>
    by_cases hnil : labels = []
    · rw [hnil, dotted, List.intercalate_singleton] at h
      exact .inr ⟨label, List.mem_cons_self, h⟩
    · rw [dotted, List.intercalate_cons_of_ne_nil hnil, List.mem_append, List.mem_append,
        List.mem_singleton] at h
      rcases h with (hin | hdot) | hin
      · exact .inr ⟨label, List.mem_cons_self, hin⟩
      · exact .inl hdot
      · exact (ih hin).imp_right fun ⟨l, hl, hin⟩ => ⟨l, List.mem_cons_of_mem _ hl, hin⟩

theorem PlainHost.chars {host : Text} (h : PlainHost host) :
    ∀ c ∈ host, c.isAlphanum = true ∨ c = '-' ∨ c = '.' := by
  cases h with
  | ipv4 ip =>
    intro c hin
    rcases (ipv4address_toText ip).chars c hin with hdigit | hdot
    · exact .inl (isAlphanum_of_isDigit hdigit)
    · exact .inr (.inr hdot)
  | @dns labels hne hlabels =>
    intro c hin
    rcases mem_dotted hin with heq | ⟨l, hl, hin⟩
    · exact .inr (.inr heq)
    · rcases (hlabels l hl).chars c hin with halnum | hhyphen
      · exact .inl halnum
      · exact .inr (.inl hhyphen)

theorem PlainHost.not_mem {host : Text} (h : PlainHost host) {c : Char} (halnum : c.isAlphanum = false)
    (hhyphen : c ≠ '-') (hdot : c ≠ '.') : c ∉ host := by
  intro hin
  rcases h.chars c hin with hc | hc | hc
  · rw [halnum] at hc
    cases hc
  · exact hhyphen hc
  · exact hdot hc

theorem ascii_of_isAlphanum {c : Char} (h : c.isAlphanum = true) : c.toNat < 128 := by
  unfold Char.isAlphanum Char.isAlpha Char.isUpper Char.isLower Char.isDigit at h
  simp only [Bool.or_eq_true, Bool.and_eq_true, decide_eq_true_eq, UInt32.le_iff_toNat_le] at h
  change c.val.toNat < 128
  rcases h with (⟨-, hz⟩ | ⟨-, hz⟩) | ⟨-, hz⟩
  · exact lt_of_le_of_lt hz (by decide)
  · exact lt_of_le_of_lt hz (by decide)
  · exact lt_of_le_of_lt hz (by decide)

theorem ascii_of_addressChar {c : Char} (h : addressChar c = true) : c.toNat < 128 := by
  unfold addressChar at h
  simp only [Bool.or_eq_true, beq_iff_eq] at h
  rcases h with (hhex | rfl) | rfl
  · exact ascii_of_isAlphanum (isAlphanum_of_isDigit hhex)
  · decide
  · decide

theorem OriginHost.ascii {host : Text} (h : OriginHost host) : ∀ c ∈ host, c.toNat < 128 := by
  cases h with
  | plain h =>
    intro c hin
    rcases h.chars c hin with halnum | rfl | rfl
    · exact ascii_of_isAlphanum halnum
    · decide
    · decide
  | ipv6 ip =>
    intro c hin
    simp only [List.mem_cons, List.mem_append, List.not_mem_nil, or_false] at hin
    rcases hin with rfl | hin | rfl
    · decide
    · exact ascii_of_addressChar ((ipv6address_toText ip).chars c hin)
    · decide

/-! The origin. -/

/-- A host, and a port behind it where there is one. -/
def authorityText (host : Text) (port : Option Text) : Text := host ++ port.elim [] (':' :: ·)

def originText (host : Text) (port : Option Text) : Text :=
  "https://".toList ++ authorityText host port

theorem https_toList : "https://".toList = ['h', 't', 't', 'p', 's', ':', '/', '/'] := by simp

/-- The origin is written with this host and this port. -/
structure NamesOrigin (origin host : Text) (port : Option Text) : Prop where
  text : origin = originText host port
  host : OriginHost host
  port : ∀ p ∈ port, PortNumber p

theorem NamesOrigin.ascii {origin host : Text} {port : Option Text} (h : NamesOrigin origin host port) :
    ∀ c ∈ origin, c.toNat < 128 := by
  have hscheme : ∀ c ∈ "https://".toList, c.toNat < 128 := by simp
  intro c hin
  rw [h.text] at hin
  unfold originText authorityText at hin
  simp only [List.mem_append] at hin
  rcases hin with hin | hin | hin
  · exact hscheme c hin
  · exact h.host.ascii c hin
  · cases port with
    | none => exact absurd hin List.not_mem_nil
    | some p =>
      rcases List.mem_cons.mp hin with rfl | hin
      · decide
      · exact ascii_of_isAlphanum (isAlphanum_of_isDigit ((h.port p rfl).digits c hin))

/-- The check of what stands behind the scheme. -/
def validAuthority (authority : Text) : Bool :=
  if authority.head? == some '[' then validIpv6Authority authority
  else
    let (host, port) := splitOnce ':' authority
    if port.any fun port => !validPort port then false else validHost host

theorem validAuthority_iff {authority : Text} : validAuthority authority = true ↔
    ∃ host port, OriginHost host ∧ (∀ p ∈ port, PortNumber p) ∧ authority = authorityText host port := by
  constructor
  · intro h
    unfold validAuthority at h
    split_ifs at h with hbracket
    · obtain ⟨ip, port, hport, rfl⟩ := validIpv6Authority_iff.mp h
      exact ⟨_, port, .ipv6 ip, hport, by simp [authorityText]⟩
    · rcases splitOnce_cases ':' authority with ⟨-, hsplit⟩ | ⟨host, port, rfl, -, hsplit⟩
      · rw [hsplit] at h
        exact ⟨authority, none, .plain (validHost_iff.mp h), by simp, by simp [authorityText]⟩
      · rw [hsplit] at h
        simp only [Option.any_some, Bool.not_eq_true', Bool.if_false_left, Bool.and_eq_true,
          decide_eq_false_iff_not, Bool.not_eq_false] at h
        refine ⟨host, some port, .plain (validHost_iff.mp h.2), ?_, rfl⟩
        rintro p ⟨⟩
        exact validPort_iff.mp h.1
  · rintro ⟨host, port, hhost, hport, rfl⟩
    unfold validAuthority
    cases hhost with
    | ipv6 ip =>
      have hvalid := validIpv6Authority_iff.mpr ⟨ip, port, hport, rfl⟩
      simpa [authorityText] using hvalid
    | plain hplain =>
      have hcolon : ':' ∉ host := hplain.not_mem rfl (by decide) (by decide)
      have hbracket : '[' ∉ host := hplain.not_mem rfl (by decide) (by decide)
      have hhead : (authorityText host port).head? ≠ some '[' := by
        cases host with
        | nil => cases port <;> simp [authorityText]
        | cons c host =>
          intro heq
          rw [← Option.some.inj heq] at hbracket
          exact hbracket List.mem_cons_self
      have hvalid := validHost_iff.mpr hplain
      rw [if_neg (by simpa using hhead)]
      cases port with
      | none =>
        have hsplit := splitOnce_of_not_mem hcolon
        simp [authorityText, hsplit, hvalid]
      | some p =>
        have hsplit : splitOnce ':' (host ++ ':' :: p) = (host, some p) := splitOnce_append hcolon
        have hp := validPort_iff.mpr (hport p rfl)
        simp [authorityText, hsplit, hvalid, hp]

theorem validOrigin_iff {origin : String} : validOrigin origin = true ↔
    (∃ host port, NamesOrigin origin.toList host port) ∧ origin.utf8ByteSize ≤ 512 := by
  have hunfold : validOrigin origin = if decide (512 < origin.utf8ByteSize)
      || !origin.toList.all (fun c => decide (c.toNat < 128)) then false
    else (stripPrefix "https://".toList origin.toList).elim false validAuthority := by
    unfold validOrigin
    cases stripPrefix "https://".toList origin.toList <;> rfl
  rw [hunfold]
  constructor
  · intro h
    split_ifs at h with hsize
    simp only [Bool.or_eq_true, decide_eq_true_eq, not_or, not_lt] at hsize
    cases hstrip : stripPrefix "https://".toList origin.toList with
    | none =>
      rw [hstrip] at h
      cases h
    | some authority =>
      rw [hstrip] at h
      obtain ⟨host, port, hhost, hport, rfl⟩ := validAuthority_iff.mp h
      exact ⟨⟨host, port, stripPrefix_eq_some.mp hstrip, hhost, hport⟩, hsize.1⟩
  · rintro ⟨⟨host, port, hnames⟩, hsize⟩
    have hascii : origin.toList.all (fun c => decide (c.toNat < 128)) = true :=
      List.all_eq_true.mpr fun c hin => decide_eq_true (hnames.ascii c hin)
    have hstrip : stripPrefix "https://".toList origin.toList = some (authorityText host port) :=
      stripPrefix_eq_some.mpr hnames.text
    have hvalid := validAuthority_iff.mpr ⟨host, port, hnames.host, hnames.port, rfl⟩
    rw [hascii, hstrip]
    simp [not_lt.mpr hsize, hvalid]

/-! The path. -/

theorem pathChar_eq (c : Char) : pathChar c = (pchar c || c == '/') := by
  have hspecial : decide (c ∈ "/-._~!$&'()*+,;=:@".toList)
      = (decide (c ∈ ['-', '.', '_', '~']) || subDelim c || c == ':' || c == '@' || c == '/') := by
    unfold subDelim
    rw [Bool.eq_iff_iff]
    simp only [Bool.or_eq_true, decide_eq_true_eq, beq_iff_eq]
    simp
    tauto
  unfold pathChar pchar unreserved
  rw [hspecial]
  simp only [Bool.or_assoc]

theorem scanPath_char {c : Char} {rest : Text} (hne : c ≠ '%') :
    scanPath (c :: rest) = (pathChar c && scanPath rest) := by
  conv_lhs => unfold scanPath
  rw [if_neg hne]

theorem scanPath_iff {path : Text} : scanPath path = true ↔ Encoded pathChar path := by
  constructor
  · intro h
    induction path using scanPath.induct with
    | case1 => exact .nil
    | case2 a b rest ih =>
      simp only [scanPath, if_true, Bool.and_eq_true] at h
      exact .octet h.1.1 h.1.2 (ih h.2)
    | case3 rest hshort =>
      unfold scanPath at h
      rw [if_pos rfl] at h
      split at h
      · next a b rest => exact absurd rfl (hshort a b rest)
      · cases h
    | case4 c rest hne ih =>
      rw [scanPath_char hne, Bool.and_eq_true] at h
      exact .char h.1 (ih h.2)
  · intro h
    induction h with
    | nil => rfl
    | @char c rest hc _ ih =>
      have hne : c ≠ '%' := by
        rintro rfl
        cases hc
      rw [scanPath_char hne, hc, ih]
      rfl
    | octet ha hb _ ih =>
      unfold hexDigit at ha hb
      simp [scanPath, ha, hb, ih]

/-- The segments between the slashes. -/
theorem encoded_pathChar_iff {path : Text} :
    Encoded pathChar path ↔ ∃ first rest, Encoded pchar first ∧ PathAbempty rest ∧ path = first ++ rest := by
  constructor
  · intro h
    induction h with
    | nil => exact ⟨[], [], .nil, ⟨[], by simp, rfl⟩, rfl⟩
    | @char c path hc _ ih =>
      obtain ⟨first, rest, hfirst, hrest, rfl⟩ := ih
      rw [pathChar_eq, Bool.or_eq_true, beq_iff_eq] at hc
      rcases hc with hc | rfl
      · exact ⟨c :: first, rest, .char hc hfirst, hrest, rfl⟩
      · obtain ⟨segments, hsegments, rfl⟩ := hrest
        refine ⟨[], '/' :: first ++ segments.flatMap ('/' :: ·), .nil, ⟨first :: segments, ?_, rfl⟩, rfl⟩
        exact List.forall_mem_cons.mpr ⟨hfirst, hsegments⟩
    | @octet a b path ha hb _ ih =>
      obtain ⟨first, rest, hfirst, hrest, rfl⟩ := ih
      exact ⟨'%' :: a :: b :: first, rest, .octet ha hb hfirst, hrest, rfl⟩
  · rintro ⟨first, rest, hfirst, ⟨segments, hsegments, rfl⟩, rfl⟩
    have happend : ∀ {segment tail : Text}, Encoded pchar segment → Encoded pathChar tail →
        Encoded pathChar (segment ++ tail) := by
      intro segment tail hsegment htail
      induction hsegment with
      | nil => exact htail
      | char hc _ ih => exact .char (by rw [pathChar_eq, hc]; rfl) ih
      | octet ha hb _ ih => exact .octet ha hb ih
    apply happend hfirst
    clear hfirst
    induction segments with
    | nil => exact .nil
    | cons segment segments ih =>
      rw [List.forall_mem_cons] at hsegments
      exact .char (by decide) (happend hsegments.1 (ih hsegments.2))

/-- A path that starts with exactly one slash. -/
structure NamesPath (path : Text) : Prop where
  grammar : PathAbempty path
  slash : path.head? = some '/'
  one : ∀ rest, path ≠ '/' :: '/' :: rest

theorem NamesPath.encoded {path : Text} (h : NamesPath path) : Encoded pathChar path :=
  encoded_pathChar_iff.mpr ⟨[], _, .nil, h.grammar, rfl⟩

theorem validPath_iff {path : String} : validPath path = true ↔
    NamesPath path.toList ∧ path.utf8ByteSize ≤ 2048 := by
  have htwo : (stripPrefix ['/', '/'] path.toList).isSome = true ↔ ∃ rest, path.toList = '/' :: '/' :: rest := by
    rw [Option.isSome_iff_exists]
    exact exists_congr fun rest => stripPrefix_eq_some
  have hgrammar : path.toList.head? = some '/' → (Encoded pathChar path.toList ↔ PathAbempty path.toList) := by
    intro hslash
    rw [encoded_pathChar_iff]
    constructor
    · rintro ⟨first, rest, hfirst, hrest, heq⟩
      cases first with
      | nil => rwa [heq]
      | cons c first =>
        rw [heq] at hslash
        have hc : c = '/' := Option.some.inj hslash
        exact absurd (hc ▸ List.mem_cons_self) (hfirst.not_mem (c := '/') (by decide))
    · exact fun h => ⟨[], _, .nil, h, rfl⟩
  unfold validPath
  constructor
  · intro h
    split_ifs at h with hrefused
    simp only [Bool.or_eq_true, not_or, beq_iff_eq, decide_eq_true_eq, not_lt, bne_iff_ne, ne_eq, not_not,
      htwo, not_exists] at hrefused
    obtain ⟨⟨⟨-, hsize⟩, hslash⟩, hone⟩ := hrefused
    exact ⟨⟨(hgrammar hslash).mp (scanPath_iff.mp h), hslash, hone⟩, hsize⟩
  · rintro ⟨hnames, hsize⟩
    have hne : path ≠ "" := by
      rintro rfl
      cases hnames.slash
    have hone : ¬ (stripPrefix ['/', '/'] path.toList).isSome = true := by
      rw [htwo]
      exact fun ⟨rest, heq⟩ => hnames.one rest heq
    rw [if_neg (by simpa [hne, hnames.slash, not_lt.mpr hsize] using hone)]
    exact scanPath_iff.mpr ((hgrammar hnames.slash).mpr hnames.grammar)

/-! The URL. -/

theorem regName_of_alphanum {t : Text} (h : ∀ c ∈ t, c.isAlphanum = true ∨ c = '-' ∨ c = '.') :
    Encoded regNameChar t := by
  induction t with
  | nil => exact .nil
  | cons c t ih =>
    rw [List.forall_mem_cons] at h
    refine .char ?_ (ih h.2)
    unfold regNameChar unreserved
    rcases h.1 with halnum | rfl | rfl
    · rw [halnum]
      rfl
    · rfl
    · rfl

theorem OriginHost.host {host : Text} (h : OriginHost host) : Host host := by
  cases h with
  | plain h => exact .regName (regName_of_alphanum h.chars)
  | ipv6 ip => exact .ipv6 (ipv6address_toText ip)

/-- The URL that a host, a port and a path make. -/
def urlOf (host : Text) (port : Option Text) (path : Text) : Uri where
  scheme := ['h', 't', 't', 'p', 's']
  authority := some { userinfo := none, host, port }
  path := path
  query := none
  fragment := none

theorem urlOf_wellFormed {origin host path : Text} {port : Option Text} (h : NamesOrigin origin host port)
    (hpath : PathAbempty path) : (urlOf host port path).WellFormed where
  scheme := ⟨'h', ['t', 't', 'p', 's'], rfl, rfl, List.all_eq_true.mp rfl⟩
  authority := by
    rintro a ⟨⟩
    exact ⟨{
      userinfo := fun t ht => by cases ht
      host := h.host.host
      port := fun t ht => (h.port t ht).digits }, hpath⟩
  path := fun hnone => by cases hnone
  query := fun t ht => by cases ht
  fragment := fun t ht => by cases ht

theorem urlOf_text (host : Text) (port : Option Text) (path : Text) :
    (urlOf host port path).text = originText host port ++ path := by
  have hscheme : originText host port = ['h', 't', 't', 'p', 's', ':', '/', '/'] ++ authorityText host port :=
    congrArg (· ++ authorityText host port) https_toList
  unfold urlOf Uri.text Authority.text
  rw [hscheme]
  simp [authorityText]

theorem Numeric.chars {label : Text} (h : Numeric label) :
    ∀ c ∈ label, isDigit 16 c = true ∨ c = 'x' ∨ c = 'X' := by
  rcases h with ⟨-, hdigits⟩ | ⟨x, digits, hx, -, hdigits, rfl⟩
  · intro c hin
    have hchar := addressChar_of_decimal (hdigits c hin)
    unfold addressChar hexDigit at hchar
    simp only [Bool.or_eq_true, beq_iff_eq] at hchar
    rcases hchar with (hhex | rfl) | rfl
    · exact .inl hhex
    · cases hdigits _ hin
    · cases hdigits _ hin
  · intro c hin
    rcases List.mem_cons.mp hin with rfl | hin
    · exact .inl rfl
    · rcases List.mem_cons.mp hin with rfl | hin
      · exact .inr hx
      · exact .inl (hdigits c hin)

/-- A host that could be taken for an IPv4 address is one, in its only printed form. -/
theorem OriginHost.ipv4_of_numeric {host : Text} (h : OriginHost host)
    (hnumeric : ∀ l ∈ host.splitOn '.', Numeric l) : ∃ ip : Ipv4Addr, host = ip.toText := by
  cases h with
  | ipv6 ip =>
    have hin : '[' ∈ dotted (List.splitOn '.' ('[' :: (ip.toText ++ [']']))) := by
      rw [dotted_splitOn]
      exact List.mem_cons_self
    rcases mem_dotted hin with heq | ⟨l, hl, hin⟩
    · cases heq
    · rcases (hnumeric l hl).chars _ hin with heq | heq | heq <;> cases heq
  | plain h =>
    cases h with
    | ipv4 ip => exact ⟨ip, rfl⟩
    | dns hne hlabels hshort hname =>
      obtain ⟨l, hl, hnot⟩ := hname
      rw [splitOn_dotted hne fun l hl => (hlabels l hl).no_dot] at hnumeric
      exact absurd (hnumeric l hl) hnot

/-- Neither a letter nor a digit nor one of the marks of an authority. -/
def Foreign (c : Char) : Prop := c.isAlphanum = false ∧ c ∉ ['-', '.', ':', '/', '[', ']']

instance (c : Char) : Decidable (Foreign c) := inferInstanceAs (Decidable (_ ∧ _))

theorem OriginHost.not_mem {host : Text} (h : OriginHost host) {c : Char} (hc : Foreign c) : c ∉ host := by
  obtain ⟨halnum, hmark⟩ := hc
  simp only [List.mem_cons, List.not_mem_nil, or_false, not_or] at hmark
  obtain ⟨hhyphen, hdot, hcolon, -, hopen, hclose⟩ := hmark
  cases h with
  | plain h => exact h.not_mem halnum hhyphen hdot
  | ipv6 ip =>
    simp only [List.mem_cons, List.mem_append, List.not_mem_nil, or_false, not_or]
    refine ⟨hopen, fun hin => ?_, hclose⟩
    have hchar := (ipv6address_toText ip).chars c hin
    unfold addressChar at hchar
    simp only [Bool.or_eq_true, beq_iff_eq] at hchar
    rcases hchar with (hhex | heq) | heq
    · rw [isAlphanum_of_isDigit hhex] at halnum
      cases halnum
    · exact hcolon heq
    · exact hdot heq

theorem NamesOrigin.not_mem {origin host : Text} {port : Option Text} (h : NamesOrigin origin host port)
    {c : Char} (hc : Foreign c) : c ∉ origin := by
  have hport : c ∉ port.elim [] (':' :: ·) := by
    cases port with
    | none => exact List.not_mem_nil
    | some p =>
      intro hin
      rcases List.mem_cons.mp hin with rfl | hin
      · exact absurd hc (by decide)
      · have halnum := isAlphanum_of_isDigit ((h.port p rfl).digits c hin)
        rw [hc.1] at halnum
        cases halnum
  have hscheme : c ∉ "https://".toList := by
    rw [https_toList]
    intro hin
    have hall : ['h', 't', 't', 'p', 's', ':', '/', '/'].all (fun d => decide (¬ Foreign d)) = true := by
      decide
    exact of_decide_eq_true (List.all_eq_true.mp hall c hin) hc
  rw [h.text]
  unfold originText authorityText
  simp only [List.mem_append, not_or]
  exact ⟨hscheme, h.host.not_mem hc, hport⟩

/-- An accepted origin and path are one text with one reading, and everything that has such a reading
is accepted. -/
theorem destination_names_one_url (origin path : String) :
    (validOrigin origin = true ↔
      origin.utf8ByteSize ≤ 512 ∧ ∃ host port, NamesOrigin origin.toList host port)
    ∧ (validPath path = true ↔ path.utf8ByteSize ≤ 2048 ∧ NamesPath path.toList)
    ∧ (validOrigin origin = true → validPath path = true →
      ∃ host port, NamesOrigin origin.toList host port
        ∧ (∀ url : Uri, url.WellFormed ∧ url.text = origin.toList ↔ url = urlOf host port [])
        ∧ (∀ url : Uri, url.WellFormed ∧ url.text = (origin ++ path).toList ↔
          url = urlOf host port path.toList)
        ∧ ((∀ l ∈ host.splitOn '.', Numeric l) → ∃ ip : Ipv4Addr, host = ip.toText)
        ∧ ∀ before after, (origin ++ path).toList = before ++ '%' :: after →
          ∃ a b rest, after = a :: b :: rest ∧ hexDigit a = true ∧ hexDigit b = true) := by
  refine ⟨validOrigin_iff.trans and_comm, validPath_iff.trans and_comm, fun horigin hpath => ?_⟩
  obtain ⟨⟨host, port, hnames⟩, -⟩ := validOrigin_iff.mp horigin
  obtain ⟨hnamesPath, -⟩ := validPath_iff.mp hpath
  have hone : ∀ {tail : Text}, PathAbempty tail → ∀ url : Uri,
      url.WellFormed ∧ url.text = origin.toList ++ tail ↔ url = urlOf host port tail := by
    intro tail htail url
    have htext : (urlOf host port tail).text = origin.toList ++ tail := by
      rw [urlOf_text, hnames.text]
    constructor
    · rintro ⟨hwf, heq⟩
      exact Uri.text_injective hwf (urlOf_wellFormed hnames htail) (heq.trans htext.symm)
    · rintro rfl
      exact ⟨urlOf_wellFormed hnames htail, htext⟩
  refine ⟨host, port, hnames, ?_, ?_, hnames.host.ipv4_of_numeric, ?_⟩
  · have hempty := @hone [] ⟨[], by simp, rfl⟩
    rwa [List.append_nil] at hempty
  · rw [String.toList_append]
    exact hone hnamesPath.grammar
  · intro before after heq
    have hencoded := hnamesPath.encoded
    rw [String.toList_append, List.append_eq_append_iff] at heq
    rcases heq with ⟨middle, -, hsplit⟩ | ⟨middle, hsplit, hrest⟩
    · exact hencoded.percent rfl hsplit
    · cases middle with
      | nil => exact hencoded.percent rfl (show path.toList = [] ++ '%' :: after from hrest.symm)
      | cons c middle =>
        -- the percent sign would stand in the origin
        rw [← (List.cons.inj hrest).1] at hsplit
        have hin : '%' ∈ before ++ '%' :: middle := List.mem_append_right _ List.mem_cons_self
        rw [← hsplit] at hin
        exact absurd hin (hnames.not_mem (by decide))

theorem destination_names_one_url_api :
    ∃ host port, NamesOrigin "https://api.example.com:8443".toList host port
      ∧ ∀ url : Uri, url.WellFormed ∧ url.text = ("https://api.example.com:8443" ++ "/v1/a%20b").toList ↔
        url = urlOf host port "/v1/a%20b".toList := by
  obtain ⟨host, port, hnames, -, hone, -⟩ :=
    (destination_names_one_url "https://api.example.com:8443" "/v1/a%20b").2.2 (by decide +kernel)
      (by decide +kernel)
  exact ⟨host, port, hnames, hone⟩

end Credman
