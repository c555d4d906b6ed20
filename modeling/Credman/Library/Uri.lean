import Credman.Library.Inet

/-! The generic syntax of URIs (RFC 3986, appendix A), and that a text has only one reading in
it. -/
namespace Credman.Library

/-! Characters. -/

def hexDigit (c : Char) : Bool := isDigit 16 c
def unreserved (c : Char) : Bool := c.isAlphanum || c ∈ ['-', '.', '_', '~']
def subDelim (c : Char) : Bool := c ∈ ['!', '$', '&', '\'', '(', ')', '*', '+', ',', ';', '=']
def pchar (c : Char) : Bool := unreserved c || subDelim c || c == ':' || c == '@'

/-- Characters of one kind, and percent-encoded octets. -/
inductive Encoded (allowed : Char → Bool) : Text → Prop
  | nil : Encoded allowed []
  | char {c : Char} {rest : Text} (hc : allowed c = true) (hrest : Encoded allowed rest) :
    Encoded allowed (c :: rest)
  | octet {a b : Char} {rest : Text} (ha : hexDigit a = true) (hb : hexDigit b = true)
      (hrest : Encoded allowed rest) : Encoded allowed ('%' :: a :: b :: rest)

/-! Hosts. -/

/-- `dec-octet` -/
def decOctet : Text → Bool
  | [a] => isDigit 10 a
  | [a, b] => decide ('1' ≤ a ∧ a ≤ '9') && isDigit 10 b
  | [a, b, c] =>
    (a == '1' && isDigit 10 b && isDigit 10 c)
      || (a == '2' && decide ('0' ≤ b ∧ b ≤ '4') && isDigit 10 c)
      || (a == '2' && b == '5' && decide ('0' ≤ c ∧ c ≤ '5'))
  | _ => false

inductive IPv4address : Text → Prop
  | octets {a b c d : Text} (ha : decOctet a = true) (hb : decOctet b = true) (hc : decOctet c = true)
      (hd : decOctet d = true) : IPv4address (a ++ '.' :: (b ++ '.' :: (c ++ '.' :: d)))

structure H16 (group : Text) : Prop where
  nonempty : group ≠ []
  short : group.length ≤ 4
  digits : ∀ c ∈ group, hexDigit c = true

inductive Ls32 : Text → Prop
  | groups {a b : Text} (ha : H16 a) (hb : H16 b) : Ls32 (a ++ ':' :: b)
  | ipv4 {a : Text} (ha : IPv4address a) : Ls32 a

/-- `n( h16 ":" )` -/
def colonEnded (groups : List Text) : Text := groups.flatMap (· ++ [':'])

/-- `[ *n( h16 ":" ) h16 ]` -/
def colonJoined (groups : List Text) : Text := List.intercalate [':'] groups

/-- The nine rules of the grammar differ in how many groups stand on each side of `::`. -/
inductive IPv6address : Text → Prop
  | full {groups : List Text} {last : Text} (hcount : groups.length = 6) (hgroups : ∀ g ∈ groups, H16 g)
      (hlast : Ls32 last) : IPv6address (colonEnded groups ++ last)
  | elided {left right : List Text} {last : Text} (hcount : left.length + right.length ≤ 5)
      (hleft : ∀ g ∈ left, H16 g) (hright : ∀ g ∈ right, H16 g) (hlast : Ls32 last) :
    IPv6address (colonJoined left ++ ':' :: ':' :: (colonEnded right ++ last))
  | elidedOne {left : List Text} {last : Text} (hcount : left.length ≤ 6) (hleft : ∀ g ∈ left, H16 g)
      (hlast : H16 last) : IPv6address (colonJoined left ++ ':' :: ':' :: last)
  | elidedEnd {left : List Text} (hcount : left.length ≤ 7) (hleft : ∀ g ∈ left, H16 g) :
    IPv6address (colonJoined left ++ [':', ':'])

inductive IPvFuture : Text → Prop
  | version {digits rest : Text} (hdigits : digits ≠ [] ∧ ∀ c ∈ digits, hexDigit c = true)
      (hrest : rest ≠ [] ∧ ∀ c ∈ rest, (unreserved c || subDelim c || c == ':') = true) :
    IPvFuture ('v' :: digits ++ '.' :: rest)

def regNameChar (c : Char) : Bool := unreserved c || subDelim c

inductive Host : Text → Prop
  | ipv6 {a : Text} (h : IPv6address a) : Host ('[' :: (a ++ [']']))
  | future {a : Text} (h : IPvFuture a) : Host ('[' :: (a ++ [']']))
  | ipv4 {a : Text} (h : IPv4address a) : Host a
  | regName {a : Text} (h : Encoded regNameChar a) : Host a

/-! Paths. -/

/-- `*( "/" segment )` -/
def PathAbempty (path : Text) : Prop :=
  ∃ segments : List Text, (∀ s ∈ segments, Encoded pchar s) ∧ path = segments.flatMap ('/' :: ·)

/-- `segment-nz *( "/" segment )` -/
def PathRootless (path : Text) : Prop :=
  ∃ first rest, first ≠ [] ∧ Encoded pchar first ∧ PathAbempty rest ∧ path = first ++ rest

def PathAbsolute (path : Text) : Prop := path = ['/'] ∨ ∃ rest, PathRootless rest ∧ path = '/' :: rest

/-! The whole. -/

structure Authority where
  userinfo : Option Text
  host : Text
  port : Option Text

structure Uri where
  scheme : Text
  authority : Option Authority
  path : Text
  query : Option Text
  fragment : Option Text

def Authority.text (a : Authority) : Text :=
  (a.userinfo.elim [] (· ++ ['@'])) ++ (a.host ++ a.port.elim [] (':' :: ·))

def Uri.text (u : Uri) : Text :=
  u.scheme ++ ':' :: ((u.authority.elim [] fun a => '/' :: '/' :: a.text) ++ u.path
    ++ (u.query.elim [] ('?' :: ·) ++ u.fragment.elim [] ('#' :: ·)))

structure Authority.WellFormed (a : Authority) : Prop where
  userinfo : ∀ t, a.userinfo = some t → Encoded (fun c => unreserved c || subDelim c || c == ':') t
  host : Host a.host
  port : ∀ t, a.port = some t → ∀ c ∈ t, isDigit 10 c = true

def queryChar (c : Char) : Bool := pchar c || c == '/' || c == '?'

structure Uri.WellFormed (u : Uri) : Prop where
  scheme : ∃ c rest, u.scheme = c :: rest ∧ c.isAlpha = true
    ∧ ∀ c ∈ rest, (c.isAlphanum || c ∈ ['+', '-', '.']) = true
  authority : ∀ a, u.authority = some a → a.WellFormed ∧ PathAbempty u.path
  path : u.authority = none → u.path = [] ∨ PathAbsolute u.path ∨ PathRootless u.path
  query : ∀ t, u.query = some t → Encoded queryChar t
  fragment : ∀ t, u.fragment = some t → Encoded queryChar t

/-! A text is split in one way at the first character of a kind. -/

theorem split_unique (stop : Char → Bool) {a b x y : Text} (ha : ∀ c ∈ a, stop c = false)
    (hb : ∀ c ∈ b, stop c = false) (hx : x.head?.all stop = true) (hy : y.head?.all stop = true)
    (h : a ++ x = b ++ y) : a = b ∧ x = y := by
  have htake : ∀ {a x : Text}, (∀ c ∈ a, stop c = false) → x.head?.all stop = true →
      (a ++ x).takeWhile (fun c => !stop c) = a := by
    intro a x ha hx
    rw [List.takeWhile_append_of_pos fun c hc => by rw [ha c hc]; rfl]
    cases x with
    | nil => simp
    | cons c x =>
      have hc : stop c = true := by simpa using hx
      simp [hc]
  have heq : a = b := by rw [← htake ha hx, ← htake hb hy, h]
  subst heq
  exact ⟨rfl, List.append_cancel_left h⟩

theorem Encoded.chars {allowed : Char → Bool} {t : Text} (h : Encoded allowed t) :
    ∀ c ∈ t, allowed c = true ∨ c = '%' ∨ hexDigit c = true := by
  induction h with
  | nil => exact fun _ hin => absurd hin List.not_mem_nil
  | char hc _ ih =>
    intro d hd
    rcases List.mem_cons.mp hd with rfl | hd
    · exact .inl hc
    · exact ih d hd
  | octet ha hb _ ih =>
    intro d hd
    simp only [List.mem_cons] at hd
    rcases hd with rfl | rfl | rfl | hd
    · exact .inr (.inl rfl)
    · exact .inr (.inr ha)
    · exact .inr (.inr hb)
    · exact ih d hd

/-- Two hexadecimal digits follow every percent sign. -/
theorem Encoded.percent {allowed : Char → Bool} {t : Text} (hpercent : allowed '%' = false)
    (h : Encoded allowed t) {before after : Text} (heq : t = before ++ '%' :: after) :
    ∃ a b rest, after = a :: b :: rest ∧ hexDigit a = true ∧ hexDigit b = true := by
  induction h generalizing before with
  | nil => simp at heq
  | @char c t hc _ ih =>
    cases before with
    | nil =>
      cases heq
      rw [hpercent] at hc
      cases hc
    | cons d before => exact ih (List.cons.inj heq).2
  | @octet a b t ha hb _ ih =>
    cases before with
    | nil =>
      cases heq
      exact ⟨a, b, t, rfl, ha, hb⟩
    | cons d before =>
      have hnot : ∀ {e : Char}, hexDigit e = true → e ≠ '%' := by
        rintro e he rfl
        cases he
      cases before with
      | nil => exact absurd (List.cons.inj (List.cons.inj heq).2).1 (hnot ha)
      | cons e before =>
        cases before with
        | nil => exact absurd (List.cons.inj (List.cons.inj (List.cons.inj heq).2).2).1 (hnot hb)
        | cons f before => exact ih (List.cons.inj (List.cons.inj (List.cons.inj heq).2).2).2

/-- A character that none of the kinds has does not stand in the text. -/
theorem Encoded.not_mem {allowed : Char → Bool} {t : Text} (h : Encoded allowed t) {c : Char}
    (hc : (allowed c || c == '%' || hexDigit c) = false) : c ∉ t := by
  intro hin
  have hkind := h.chars c hin
  simp only [Bool.or_eq_false_iff, beq_eq_false_iff_ne, ne_eq] at hc
  rcases hkind with hallowed | hpercent | hhex
  · rw [hc.1.1] at hallowed
    cases hallowed
  · exact hc.1.2 hpercent
  · rw [hc.2] at hhex
    cases hhex

theorem PathAbempty.not_mem {path : Text} (h : PathAbempty path) {c : Char} (hne : c ≠ '/')
    (hc : (pchar c || c == '%' || hexDigit c) = false) : c ∉ path := by
  obtain ⟨segments, hsegments, rfl⟩ := h
  intro hin
  obtain ⟨s, hs, hin⟩ := List.mem_flatMap.mp hin
  rcases List.mem_cons.mp hin with heq | hin
  · exact hne heq
  · exact (hsegments s hs).not_mem hc hin

theorem PathRootless.not_mem {path : Text} (h : PathRootless path) {c : Char} (hne : c ≠ '/')
    (hc : (pchar c || c == '%' || hexDigit c) = false) : c ∉ path := by
  obtain ⟨first, rest, -, hfirst, hrest, rfl⟩ := h
  rw [List.mem_append, not_or]
  exact ⟨hfirst.not_mem hc, hrest.not_mem hne hc⟩

theorem PathAbempty.head {path : Text} (h : PathAbempty path) : path.head?.all (· == '/') = true := by
  obtain ⟨segments, -, rfl⟩ := h
  cases segments <;> rfl

theorem PathRootless.head {path : Text} (h : PathRootless path) : path.head? ≠ some '/' := by
  obtain ⟨first, rest, hne, hfirst, -, rfl⟩ := h
  obtain ⟨c, first, rfl⟩ := List.exists_cons_of_ne_nil hne
  have hslash := hfirst.not_mem (c := '/') (by decide)
  rintro heq
  have hc : c = '/' := Option.some.inj heq
  exact hslash (hc ▸ List.mem_cons_self)

/-! Which characters a host is made of. -/

theorem isAlphanum_of_isDigit {radix : Nat} {c : Char} (h : isDigit radix c = true) :
    c.isAlphanum = true := by
  unfold isDigit digitValue at h
  rw [Option.isSome_iff_exists] at h
  obtain ⟨n, hn⟩ := h
  rw [Option.filter_eq_some_iff] at hn
  have hrange := hn.1
  unfold Char.isAlphanum Char.isAlpha Char.isUpper Char.isLower Char.isDigit
  simp only [Char.le_def] at hrange
  split_ifs at hrange with hdigit hlower hupper
  · simp only [Bool.or_eq_true, Bool.and_eq_true, decide_eq_true_eq]
    exact .inr hdigit
  · simp only [Bool.or_eq_true, Bool.and_eq_true, decide_eq_true_eq]
    exact .inl (.inr hlower)
  · simp only [Bool.or_eq_true, Bool.and_eq_true, decide_eq_true_eq]
    exact .inl (.inl hupper)

theorem regNameChar_of_isDigit {radix : Nat} {c : Char} (h : isDigit radix c = true) :
    regNameChar c = true := by
  unfold regNameChar unreserved
  rw [isAlphanum_of_isDigit h]
  rfl

theorem decOctet_digits {t : Text} (h : decOctet t = true) : ∀ c ∈ t, isDigit 10 c = true := by
  have hrange : ∀ c : Char, '0' ≤ c → c ≤ '9' → isDigit 10 c = true := by
    intro c hlo hhi
    have hle : c.toNat ≤ 57 := by
      rw [Char.le_def, UInt32.le_iff_toNat_le] at hhi
      exact hhi
    unfold isDigit digitValue
    rw [if_pos ⟨hlo, hhi⟩, Option.isSome_filter, Option.any_some, decide_eq_true_eq]
    omega
  have hone : isDigit 10 '1' = true ∧ isDigit 10 '2' = true ∧ isDigit 10 '5' = true := by decide
  unfold decOctet at h
  split at h
  · simpa using h
  · simp only [Bool.and_eq_true, decide_eq_true_eq] at h
    simpa using ⟨hrange _ (Char.le_trans (show '0' ≤ '1' by decide) h.1.1) h.1.2, h.2⟩
  · simp only [Bool.or_eq_true, Bool.and_eq_true, beq_iff_eq, decide_eq_true_eq] at h
    rcases h with (⟨⟨rfl, hb⟩, hc⟩ | ⟨⟨rfl, hb⟩, hc⟩) | ⟨⟨rfl, rfl⟩, hc⟩
    · simpa [hone] using ⟨hb, hc⟩
    · simpa [hone] using ⟨hrange _ hb.1 (Char.le_trans hb.2 (show '4' ≤ '9' by decide)), hc⟩
    · simpa [hone] using hrange _ hc.1 (Char.le_trans hc.2 (show '5' ≤ '9' by decide))
  · cases h

theorem IPv4address.chars {t : Text} (h : IPv4address t) : ∀ c ∈ t, isDigit 10 c = true ∨ c = '.' := by
  cases h with
  | octets ha hb hc hd =>
    have ha := decOctet_digits ha
    have hb := decOctet_digits hb
    have hc := decOctet_digits hc
    have hd := decOctet_digits hd
    intro c hin
    simp only [List.mem_append, List.mem_cons] at hin
    rcases hin with hin | rfl | hin | rfl | hin | rfl | hin
    · exact .inl (ha c hin)
    · exact .inr rfl
    · exact .inl (hb c hin)
    · exact .inr rfl
    · exact .inl (hc c hin)
    · exact .inr rfl
    · exact .inl (hd c hin)

/-- Hexadecimal digits and the punctuation of addresses. -/
def addressChar (c : Char) : Bool := hexDigit c || c == ':' || c == '.'

theorem H16.chars {t : Text} (h : H16 t) : ∀ c ∈ t, addressChar c = true := by
  intro c hin
  unfold addressChar
  rw [h.digits c hin]
  rfl

theorem addressChar_of_decimal {c : Char} (h : isDigit 10 c = true) : addressChar c = true := by
  unfold isDigit digitValue at h
  unfold addressChar hexDigit isDigit digitValue
  rw [Option.isSome_filter] at h
  rw [Option.isSome_filter]
  have hwider : ∀ value : Option Nat, value.any (fun n => decide (n < 10)) = true →
      value.any (fun n => decide (n < 16)) = true := by
    intro value
    cases value with
    | none => exact id
    | some n =>
      simp only [Option.any_some, decide_eq_true_eq]
      omega
  rw [hwider _ h]
  rfl

theorem Ls32.chars {t : Text} (h : Ls32 t) : ∀ c ∈ t, addressChar c = true := by
  intro c hin
  cases h with
  | groups ha hb =>
    rcases List.mem_append.mp hin with hin | hin
    · exact ha.chars c hin
    · rcases List.mem_cons.mp hin with rfl | hin
      · rfl
      · exact hb.chars c hin
  | ipv4 ha =>
    rcases ha.chars c hin with hdigit | rfl
    · exact addressChar_of_decimal hdigit
    · rfl

theorem colonEnded_chars {groups : List Text} (h : ∀ g ∈ groups, H16 g) :
    ∀ c ∈ colonEnded groups, addressChar c = true := by
  intro c hin
  obtain ⟨g, hg, hin⟩ := List.mem_flatMap.mp hin
  rcases List.mem_append.mp hin with hin | hin
  · exact (h g hg).chars c hin
  · rw [List.mem_singleton.mp hin]
    rfl

theorem colonJoined_cons (group : Text) (groups : List Text) :
    colonJoined (group :: groups) = group ++ groups.flatMap (':' :: ·) := by
  induction groups generalizing group with
  | nil => simp [colonJoined, List.intercalate]
  | cons next rest ih =>
    have hstep : colonJoined (group :: next :: rest) = group ++ ':' :: colonJoined (next :: rest) := by
      simp [colonJoined, List.intercalate]
    rw [hstep, ih next]
    rfl

theorem colonJoined_chars {groups : List Text} (h : ∀ g ∈ groups, H16 g) :
    ∀ c ∈ colonJoined groups, addressChar c = true := by
  cases groups with
  | nil => exact fun c hin => absurd hin (by simp [colonJoined, List.intercalate])
  | cons group groups =>
    intro c hin
    rw [colonJoined_cons] at hin
    rcases List.mem_append.mp hin with hin | hin
    · exact (h group List.mem_cons_self).chars c hin
    · obtain ⟨g, hg, hin⟩ := List.mem_flatMap.mp hin
      rcases List.mem_cons.mp hin with rfl | hin
      · rfl
      · exact (h g (List.mem_cons_of_mem _ hg)).chars c hin

theorem IPv6address.chars {t : Text} (h : IPv6address t) : ∀ c ∈ t, addressChar c = true := by
  intro c hin
  have hcolon : addressChar ':' = true := rfl
  cases h with
  | full hcount hgroups hlast =>
    exact (List.mem_append.mp hin).elim (colonEnded_chars hgroups c) (hlast.chars c)
  | elided hcount hleft hright hlast =>
    simp only [List.mem_append, List.mem_cons] at hin
    rcases hin with hin | rfl | rfl | hin | hin
    · exact colonJoined_chars hleft c hin
    · exact hcolon
    · exact hcolon
    · exact colonEnded_chars hright c hin
    · exact hlast.chars c hin
  | elidedOne hcount hleft hlast =>
    simp only [List.mem_append, List.mem_cons] at hin
    rcases hin with hin | rfl | rfl | hin
    · exact colonJoined_chars hleft c hin
    · exact hcolon
    · exact hcolon
    · exact hlast.chars c hin
  | elidedEnd hcount hleft =>
    simp only [List.mem_append, List.mem_cons, List.not_mem_nil, or_false] at hin
    rcases hin with hin | rfl | rfl
    · exact colonJoined_chars hleft c hin
    · exact hcolon
    · exact hcolon

def literalChar (c : Char) : Bool := regNameChar c || c == ':'

theorem literalChar_of_addressChar {c : Char} (h : addressChar c = true) : literalChar c = true := by
  unfold addressChar at h
  simp only [Bool.or_eq_true, beq_iff_eq] at h
  unfold literalChar
  rcases h with (hhex | rfl) | rfl
  · rw [regNameChar_of_isDigit hhex]
    rfl
  · rfl
  · rfl

theorem IPvFuture.chars {t : Text} (h : IPvFuture t) : ∀ c ∈ t, literalChar c = true := by
  cases h with
  | version hdigits hrest =>
    intro c hin
    simp only [List.cons_append, List.mem_cons, List.mem_append] at hin
    rcases hin with rfl | hin | rfl | hin
    · rfl
    · unfold literalChar
      rw [regNameChar_of_isDigit (hdigits.2 c hin)]
      rfl
    · rfl
    · exact hrest.2 c hin

/-- A host stands in brackets, or holds neither a colon nor a bracket. -/
theorem Host.shape {t : Text} (h : Host t) :
    (∃ a, t = '[' :: (a ++ [']']) ∧ ∀ c ∈ a, literalChar c = true)
      ∨ ∀ c ∈ t, (regNameChar c || c == '%') = true := by
  cases h with
  | ipv6 h => exact .inl ⟨_, rfl, fun c hin => literalChar_of_addressChar (h.chars c hin)⟩
  | future h => exact .inl ⟨_, rfl, h.chars⟩
  | ipv4 h =>
    refine .inr fun c hin => ?_
    rcases h.chars c hin with hdigit | rfl
    · rw [regNameChar_of_isDigit hdigit]
      rfl
    · rfl
  | regName h =>
    refine .inr fun c hin => ?_
    rcases h.chars c hin with hallowed | rfl | hhex
    · rw [hallowed]
      rfl
    · rfl
    · rw [regNameChar_of_isDigit hhex]
      rfl

/-! One reading. -/

/-- Optional parts, each behind its own mark. -/
theorem behind_unique {mark : Char} {a b : Option Text} (h : (a.elim [] (mark :: ·)) = b.elim [] (mark :: ·)) :
    a = b := by
  cases a with
  | none =>
    cases b with
    | none => rfl
    | some b => cases h
  | some a =>
    cases b with
    | none => cases h
    | some b =>
      cases h
      rfl

theorem literalChar_not_bracket {a : Text} (h : ∀ c ∈ a, literalChar c = true) :
    ∀ c ∈ a, (c == ']') = false := by
  intro c hin
  have hliteral := h c hin
  rw [beq_eq_false_iff_ne]
  rintro rfl
  cases hliteral

/-- The host ends where the port begins. -/
theorem host_port_unique {host host' : Text} {port port' : Option Text} (hhost : Host host)
    (hhost' : Host host')
    (h : host ++ port.elim [] (':' :: ·) = host' ++ port'.elim [] (':' :: ·)) :
    host = host' ∧ port = port' := by
  have hmark : ∀ port : Option Text, ((port.elim [] (':' :: ·)).head?.all (· == ':')) = true := by
    intro port
    cases port <;> rfl
  have hbracket : ∀ port : Option Text, (((']' :: port.elim [] (':' :: ·))).head?.all (· == ']')) = true :=
    fun _ => rfl
  have hname : ∀ {host : Text}, (∀ c ∈ host, (regNameChar c || c == '%') = true) →
      ∀ c ∈ host, (c == ':') = false := by
    intro host hall c hin
    have hc := hall c hin
    rw [beq_eq_false_iff_ne]
    rintro rfl
    cases hc
  -- a name and its port do not start with a bracket
  have hopen : ∀ {host tail : Text} {port : Option Text}, (∀ c ∈ host, (regNameChar c || c == '%') = true) →
      '[' :: tail ≠ host ++ port.elim [] (':' :: ·) := by
    intro host tail port hall heq
    cases host with
    | nil =>
      cases port with
      | none => cases heq
      | some port => cases heq
    | cons c host =>
      have hc := hall c List.mem_cons_self
      rw [← (List.cons.inj heq).1] at hc
      cases hc
  rcases hhost.shape with ⟨a, rfl, ha⟩ | ha
  · rcases hhost'.shape with ⟨b, rfl, hb⟩ | hb
    · rw [List.cons_append, List.cons_append, List.append_assoc, List.append_assoc] at h
      have htails := (List.cons.inj h).2
      obtain ⟨rfl, hports⟩ := split_unique (· == ']') (literalChar_not_bracket ha)
        (literalChar_not_bracket hb) (hbracket port) (hbracket port') htails
      exact ⟨rfl, behind_unique (List.cons.inj hports).2⟩
    · exact absurd h (hopen hb)
  · rcases hhost'.shape with ⟨b, rfl, hb⟩ | hb
    · exact absurd h.symm (hopen ha)
    · obtain ⟨rfl, hports⟩ := split_unique (· == ':') (hname ha) (hname hb) (hmark port) (hmark port') h
      exact ⟨rfl, behind_unique hports⟩

def authorityChar (c : Char) : Bool :=
  regNameChar c || c == ':' || c == '%' || c == '[' || c == ']'

theorem Host.chars {t : Text} (h : Host t) : ∀ c ∈ t, authorityChar c = true := by
  intro c hin
  unfold authorityChar
  rcases h.shape with ⟨a, rfl, ha⟩ | ha
  · simp only [List.mem_cons, List.mem_append, List.not_mem_nil, or_false] at hin
    rcases hin with rfl | hin | rfl
    · rfl
    · have hc := ha c hin
      unfold literalChar at hc
      rw [hc]
      rfl
    · rfl
  · have hc := ha c hin
    rw [Bool.or_eq_true] at hc
    rcases hc with hc | hc
    · rw [hc]
      rfl
    · rw [hc]
      simp

theorem Authority.WellFormed.port_chars {a : Authority} (h : a.WellFormed) :
    ∀ c ∈ a.port.elim [] (':' :: ·), authorityChar c = true := by
  intro c hin
  unfold authorityChar
  cases hport : a.port with
  | none =>
    rw [hport] at hin
    exact absurd hin List.not_mem_nil
  | some port =>
    rw [hport] at hin
    rcases List.mem_cons.mp hin with rfl | hin
    · rfl
    · rw [regNameChar_of_isDigit (h.port port hport c hin)]
      rfl

theorem Authority.WellFormed.userinfo_chars {a : Authority} (h : a.WellFormed) {t : Text}
    (ht : a.userinfo = some t) : ∀ c ∈ t, authorityChar c = true := by
  intro c hin
  unfold authorityChar
  rcases (h.userinfo t ht).chars c hin with hallowed | rfl | hhex
  · unfold regNameChar
    rw [hallowed]
    rfl
  · rfl
  · rw [regNameChar_of_isDigit hhex]
    rfl

/-- Behind the userinfo there is no `@`. -/
theorem Authority.text_injective {a b : Authority} (ha : a.WellFormed) (hb : b.WellFormed)
    (h : a.text = b.text) : a = b := by
  have hno : ∀ {t : Text}, (∀ c ∈ t, authorityChar c = true) → '@' ∉ t := by
    intro t hall hin
    cases hall '@' hin
  have hrest : ∀ {a : Authority}, a.WellFormed → '@' ∉ a.host ++ a.port.elim [] (':' :: ·) := by
    intro a ha
    rw [List.mem_append, not_or]
    exact ⟨hno ha.host.chars, hno ha.port_chars⟩
  obtain ⟨userinfo, host, port⟩ := a
  obtain ⟨userinfo', host', port'⟩ := b
  unfold text at h
  cases userinfo with
  | none =>
    cases userinfo' with
    | none =>
      obtain ⟨rfl, rfl⟩ := host_port_unique ha.host hb.host h
      rfl
    | some t =>
      refine absurd ?_ (hrest ha)
      change host ++ port.elim [] (':' :: ·) = _ at h
      dsimp only
      rw [h]
      simp
  | some t =>
    cases userinfo' with
    | none =>
      refine absurd ?_ (hrest hb)
      change _ = host' ++ port'.elim [] (':' :: ·) at h
      dsimp only
      rw [← h]
      simp
    | some t' =>
      have hstop : ∀ {t : Text}, (∀ c ∈ t, authorityChar c = true) → ∀ c ∈ t, (c == '@') = false := by
        intro t hall c hin
        rw [beq_eq_false_iff_ne]
        rintro rfl
        exact hno hall hin
      simp only [Option.elim_some, List.append_assoc, List.cons_append, List.nil_append] at h
      obtain ⟨rfl, hrests⟩ := split_unique (· == '@') (hstop (ha.userinfo_chars rfl))
        (hstop (hb.userinfo_chars rfl)) rfl rfl h
      obtain ⟨rfl, rfl⟩ := host_port_unique ha.host hb.host (List.cons.inj hrests).2
      rfl

theorem Authority.WellFormed.text_chars {a : Authority} (h : a.WellFormed) :
    ∀ c ∈ a.text, authorityChar c = true ∨ c = '@' := by
  intro c hin
  unfold Authority.text at hin
  rw [List.mem_append, List.mem_append] at hin
  rcases hin with hin | hin | hin
  · cases hinfo : a.userinfo with
    | none =>
      rw [hinfo] at hin
      exact absurd hin List.not_mem_nil
    | some t =>
      rw [hinfo] at hin
      rcases List.mem_append.mp hin with hin | hin
      · exact .inl (h.userinfo_chars hinfo c hin)
      · exact .inr (List.mem_singleton.mp hin)
  · exact .inl (h.host.chars c hin)
  · exact .inl (h.port_chars c hin)

/-- The part between the scheme and the query. -/
def Uri.hier (u : Uri) : Text := (u.authority.elim [] fun a => '/' :: '/' :: a.text) ++ u.path

def tailMark (c : Char) : Bool := c == '?' || c == '#'

namespace Uri.WellFormed

variable {u v : Uri}

theorem no_mark_in_path (h : u.WellFormed) {c : Char} (hc : tailMark c = true) : c ∉ u.path := by
  have hkinds : c ≠ '/' ∧ (pchar c || c == '%' || hexDigit c) = false := by
    unfold tailMark at hc
    rw [Bool.or_eq_true, beq_iff_eq, beq_iff_eq] at hc
    rcases hc with rfl | rfl
    · decide
    · decide
  cases ha : u.authority with
  | some a => exact (h.authority a ha).2.not_mem hkinds.1 hkinds.2
  | none =>
    rcases h.path ha with hpath | hpath | hpath
    · rw [hpath]
      exact List.not_mem_nil
    · rcases hpath with hpath | ⟨rest, hrest, hpath⟩
      · rw [hpath]
        simpa using hkinds.1
      · rw [hpath, List.mem_cons, not_or]
        exact ⟨hkinds.1, hrest.not_mem hkinds.1 hkinds.2⟩
    · exact hpath.not_mem hkinds.1 hkinds.2

theorem no_mark_in_hier (h : u.WellFormed) : ∀ c ∈ u.hier, tailMark c = false := by
  intro c hin
  by_contra hmark
  rw [Bool.not_eq_false] at hmark
  rcases List.mem_append.mp hin with hin | hin
  · cases ha : u.authority with
    | none =>
      rw [ha] at hin
      exact absurd hin List.not_mem_nil
    | some a =>
      rw [ha] at hin
      unfold tailMark at hmark
      rw [Bool.or_eq_true, beq_iff_eq, beq_iff_eq] at hmark
      simp only [Option.elim_some, List.mem_cons] at hin
      rcases hmark with rfl | rfl <;> rcases hin with hin | hin | hin
      · cases hin
      · cases hin
      · rcases (h.authority a ha).1.text_chars _ hin with hin | hin <;> cases hin
      · cases hin
      · cases hin
      · rcases (h.authority a ha).1.text_chars _ hin with hin | hin <;> cases hin
  · exact h.no_mark_in_path hmark hin

/-- Without an authority a path does not begin with two slashes. -/
theorem one_slash (h : u.WellFormed) (hnone : u.authority = none) (rest : Text) :
    u.path ≠ '/' :: '/' :: rest := by
  intro heq
  rcases h.path hnone with hpath | hpath | hpath
  · rw [hpath] at heq
    cases heq
  · rcases hpath with hpath | ⟨tail, htail, hpath⟩
    · rw [hpath] at heq
      cases heq
    · rw [hpath] at heq
      have hhead := htail.head
      rw [(List.cons.inj heq).2] at hhead
      exact hhead rfl
  · have hhead := hpath.head
    rw [heq] at hhead
    exact hhead rfl

theorem hier_injective (hu : u.WellFormed) (hv : v.WellFormed) (h : u.hier = v.hier) :
    u.authority = v.authority ∧ u.path = v.path := by
  unfold hier at h
  cases ha : u.authority with
  | none =>
    cases hb : v.authority with
    | none =>
      rw [ha, hb] at h
      exact ⟨rfl, h⟩
    | some b =>
      rw [ha, hb] at h
      exact absurd h (hu.one_slash ha _)
  | some a =>
    cases hb : v.authority with
    | none =>
      rw [ha, hb] at h
      exact absurd h.symm (hv.one_slash hb _)
    | some b =>
      rw [ha, hb] at h
      obtain ⟨hawf, hapath⟩ := hu.authority a ha
      obtain ⟨hbwf, hbpath⟩ := hv.authority b hb
      have hstop : ∀ {a : Authority}, a.WellFormed → ∀ c ∈ a.text, (c == '/') = false := by
        intro a hwf c hin
        rw [beq_eq_false_iff_ne]
        rintro rfl
        rcases hwf.text_chars _ hin with hin | hin <;> cases hin
      simp only [Option.elim_some, List.cons_append] at h
      obtain ⟨htext, hpath⟩ := split_unique (· == '/') (hstop hawf) (hstop hbwf) hapath.head
        hbpath.head (List.cons.inj (List.cons.inj h).2).2
      exact ⟨congrArg some (Authority.text_injective hawf hbwf htext), hpath⟩

theorem scheme_no_colon (h : u.WellFormed) : ∀ c ∈ u.scheme, (c == ':') = false := by
  obtain ⟨c, rest, hscheme, hc, hrest⟩ := h.scheme
  intro d hin
  rw [beq_eq_false_iff_ne]
  rintro rfl
  rw [hscheme] at hin
  rcases List.mem_cons.mp hin with rfl | hin
  · cases hc
  · cases hrest _ hin

theorem query_no_hash (h : u.WellFormed) {t : Text} (ht : u.query = some t) : ∀ c ∈ t, (c == '#') = false := by
  intro c hin
  rw [beq_eq_false_iff_ne]
  rintro rfl
  exact (h.query t ht).not_mem (by decide) hin

theorem tail_injective (hu : u.WellFormed) (hv : v.WellFormed)
    (h : u.query.elim [] ('?' :: ·) ++ u.fragment.elim [] ('#' :: ·)
      = v.query.elim [] ('?' :: ·) ++ v.fragment.elim [] ('#' :: ·)) :
    u.query = v.query ∧ u.fragment = v.fragment := by
  have hmark : ∀ fragment : Option Text, (fragment.elim [] ('#' :: ·)).head?.all (· == '#') = true := by
    intro fragment
    cases fragment <;> rfl
  have hmixed : ∀ (fragment : Option Text) (t : Text), fragment.elim [] ('#' :: ·) ≠ '?' :: t := by
    intro fragment t heq
    cases fragment <;> cases heq
  cases ha : u.query with
  | none =>
    cases hb : v.query with
    | none =>
      rw [ha, hb] at h
      exact ⟨rfl, behind_unique h⟩
    | some b =>
      rw [ha, hb] at h
      exact absurd h (hmixed _ _)
  | some a =>
    cases hb : v.query with
    | none =>
      rw [ha, hb] at h
      exact absurd h.symm (hmixed _ _)
    | some b =>
      rw [ha, hb] at h
      obtain ⟨rfl, hfragment⟩ := split_unique (· == '#') (hu.query_no_hash ha) (hv.query_no_hash hb)
        (hmark u.fragment) (hmark v.fragment) (List.cons.inj h).2
      exact ⟨rfl, behind_unique hfragment⟩

end Uri.WellFormed

/-- A text is the text of at most one URI. -/
theorem Uri.text_injective {u v : Uri} (hu : u.WellFormed) (hv : v.WellFormed) (h : u.text = v.text) :
    u = v := by
  have hmark : ∀ u : Uri, (u.query.elim [] ('?' :: ·) ++ u.fragment.elim [] ('#' :: ·)).head?.all tailMark
      = true := by
    intro u
    cases u.query <;> cases u.fragment <;> rfl
  obtain ⟨hscheme, hrest⟩ := split_unique (· == ':') hu.scheme_no_colon hv.scheme_no_colon rfl rfl h
  obtain ⟨hhier, htail⟩ := split_unique tailMark hu.no_mark_in_hier hv.no_mark_in_hier (hmark u) (hmark v)
    (List.cons.inj hrest).2
  obtain ⟨hauthority, hpath⟩ := hu.hier_injective hv hhier
  obtain ⟨hquery, hfragment⟩ := hu.tail_injective hv htail
  cases u
  cases v
  simp_all

/-! What the printers write is in the grammar. -/

theorem decOctet_octetText (octet : UInt8) : decOctet (Ipv4Addr.octetText octet) = true := by
  have hall : ∀ n < 256, decOctet (Nat.toDigits 10 n) = true := by decide +kernel
  exact hall octet.toNat octet.toNat_lt

theorem ipv4address_toText (ip : Ipv4Addr) : IPv4address ip.toText :=
  .octets (decOctet_octetText ip.one) (decOctet_octetText ip.two) (decOctet_octetText ip.three)
    (decOctet_octetText ip.four)

theorem h16_segmentText (segment : UInt16) : H16 (Ipv6Addr.segmentText segment) where
  nonempty := Nat.toDigits_ne_nil
  short := (Nat.length_toDigits_le_iff (by decide) (by decide)).mpr segment.toNat_lt
  digits := isDigit_of_mem_toDigits (by decide) (by decide) segment.toNat

theorem h16_segments (segments : List UInt16) : ∀ g ∈ segments.map Ipv6Addr.segmentText, H16 g := by
  intro g hg
  obtain ⟨segment, -, rfl⟩ := List.mem_map.mp hg
  exact h16_segmentText segment

/-- The last two groups are the `ls32` of the grammar. -/
theorem colonJoined_last (groups : List Text) (a b : Text) :
    colonJoined (groups ++ [a, b]) = colonEnded groups ++ (a ++ ':' :: b) := by
  induction groups with
  | nil => simp [colonJoined, colonEnded, List.intercalate]
  | cons group groups ih =>
    obtain ⟨next, rest, hrest⟩ := List.exists_cons_of_ne_nil (show groups ++ [a, b] ≠ [] by simp)
    have hstep : colonJoined (group :: next :: rest) = group ++ ':' :: colonJoined (next :: rest) := by
      simp [colonJoined, List.intercalate]
    rw [List.cons_append, hrest, hstep, ← hrest, ih]
    simp [colonEnded]

theorem exists_last_two {α : Type} {l : List α} (h : 2 ≤ l.length) :
    ∃ init a b, l = init ++ [a, b] ∧ init.length + 2 = l.length := by
  have hlast : (l.drop (l.length - 2)).length = 2 := by
    rw [List.length_drop]
    omega
  obtain ⟨a, b, hab⟩ := List.length_eq_two.mp hlast
  refine ⟨l.take (l.length - 2), a, b, ?_, ?_⟩
  · rw [← hab, List.take_append_drop]
  · rw [List.length_take]
    omega

theorem ipv6address_elided {left right : List UInt16} (hcount : left.length + right.length ≤ 6) :
    IPv6address (Ipv6Addr.joined left ++ ':' :: ':' :: Ipv6Addr.joined right) := by
  have hleft := h16_segments left
  have hright := h16_segments right
  have hlength : (left.map Ipv6Addr.segmentText).length = left.length := List.length_map _
  by_cases htwo : 2 ≤ (right.map Ipv6Addr.segmentText).length
  · obtain ⟨init, a, b, heq, hinit⟩ := exists_last_two htwo
    rw [List.length_map] at hinit
    change IPv6address (colonJoined (left.map Ipv6Addr.segmentText)
      ++ ':' :: ':' :: colonJoined (right.map Ipv6Addr.segmentText))
    rw [heq] at hright
    rw [heq, colonJoined_last]
    refine .elided (by omega) hleft (fun g hg => hright g (List.mem_append_left _ hg)) ?_
    exact .groups (hright a (by simp)) (hright b (by simp))
  · cases right with
    | nil => exact .elidedEnd (by simp only [List.length_nil] at hcount; omega) hleft
    | cons segment rest =>
      have hnil : rest = [] := by
        rw [List.length_map, List.length_cons] at htwo
        exact List.length_eq_zero_iff.mp (by omega)
      subst hnil
      have hone : Ipv6Addr.joined [segment] = Ipv6Addr.segmentText segment := by
        simp [Ipv6Addr.joined, List.intercalate]
      rw [hone]
      exact .elidedOne (by simp only [List.length_cons] at hcount; omega) hleft (h16_segmentText segment)

theorem ipv6address_full {segments : List UInt16} (hcount : segments.length = 8) :
    IPv6address (Ipv6Addr.joined segments) := by
  have hgroups := h16_segments segments
  obtain ⟨init, a, b, heq, hinit⟩ := exists_last_two
    (show 2 ≤ (segments.map Ipv6Addr.segmentText).length by rw [List.length_map]; omega)
  rw [List.length_map] at hinit
  change IPv6address (colonJoined (segments.map Ipv6Addr.segmentText))
  rw [heq] at hgroups
  rw [heq, colonJoined_last]
  refine .full (by omega) (fun g hg => hgroups g (List.mem_append_left _ hg)) ?_
  exact .groups (hgroups a (by simp)) (hgroups b (by simp))

theorem ipv6address_toText (ip : Ipv6Addr) : IPv6address ip.toText := by
  unfold Ipv6Addr.toText
  cases hmapped : ip.toIpv4Mapped with
  | some ipv4 =>
    have hffff : H16 ['f', 'f', 'f', 'f'] := h16_segmentText 0xffff
    exact @IPv6address.elided [] [['f', 'f', 'f', 'f']] _ (by decide)
      (fun _ hin => absurd hin List.not_mem_nil) (fun g hg => by rwa [List.mem_singleton.mp hg])
      (.ipv4 (ipv4address_toText ipv4))
  | none =>
    dsimp only
    have hrun := (Ipv6Addr.scanned ip.segments).longest
    split_ifs with hlen
    · apply ipv6address_elided
      rw [List.length_take, List.length_drop, ip.length_eq]
      have hle := hrun.1
      rw [ip.length_eq] at hle
      change (Ipv6Addr.zeroes ip.segments).start + (Ipv6Addr.zeroes ip.segments).len ≤ 8 at hle
      omega
    · exact ipv6address_full ip.length_eq

end Credman.Library
