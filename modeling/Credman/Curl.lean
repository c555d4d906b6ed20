import Credman.Library.ConfigFile
import Credman.Origin
import Credman.Policy

/-! What the child reads in its configuration text. -/
namespace Credman

open Library ConfigFile Checked

def setting (name : String) (argument : Text) : Setting := { name := name.toList, argument := some argument }

/-- The options a destination asks for, without its credentials. -/
def Destination.settings (d : Destination) : List Setting :=
  setting "url" (d.origin.toList ++ d.path.toList)
    :: setting "connect-timeout" (timeoutSeconds d.timeouts.connectMs).toList
    :: setting "max-time" (timeoutSeconds d.timeouts.totalMs).toList
    :: d.caFile.toList.map fun path => setting "cacert" path.toList

/-- The credentials that a kind of authentication takes, and the options that carry them. -/
inductive Auth.Carries : Auth → SecretInput → List Setting → Prop
  | basic {values : SecretInput} {username password : String}
      (hfields : values.fields = {.username, .password}) (husername : values.get? .username = some username)
      (hpassword : values.get? .password = some password) (hvalidUsername : validBasic username = true)
      (hcolon : ':' ∉ username.toList) (hvalidPassword : validBasic password = true) :
    Carries .basic values [setting "user" (username.toList ++ ':' :: password.toList)]
  | bearer {values : SecretInput} {token : String} (hfields : values.fields = {.apiKey})
      (htoken : values.get? .apiKey = some token) (hvalid : validBearer token = true) :
    Carries .bearer values [setting "header" ("Authorization: Bearer ".toList ++ token.toList)]
  | header {name : String} {values : SecretInput} {token : String} (hfields : values.fields = {.apiKey})
      (htoken : values.get? .apiKey = some token) (hvalid : validPrivateAscii token = true) :
    Carries (.header name) values [setting "header" (name.toList ++ ':' :: ' ' :: token.toList)]
  | query {param : String} {values : SecretInput} {token : String} (hfields : values.fields = {.apiKey})
      (htoken : values.get? .apiKey = some token) (hvalid : validPrivateAscii token = true) :
    Carries (.query param) values [setting "data-urlencode" (param.toList ++ '=' :: token.toList),
      { name := "get".toList, argument := none }]

/-! The text, as a list of options. -/

@[simp] theorem toList_pushEscaped (output value : String) :
    (pushEscaped output value).toList = output.toList ++ escaped value.toList := by
  unfold pushEscaped
  generalize value.toList = chars
  induction chars generalizing output with
  | nil => simp [escaped]
  | cons c chars ih =>
    rw [List.foldl_cons, ih, escaped_cons]
    split_ifs with hspecial
    · simp
    · simp

theorem render_cons (s : Setting) (settings : List Setting) :
    render (s :: settings) = s.line ++ '\n' :: render settings := by
  simp [render]

theorem toList_appendUrl (output origin path : String) : (appendUrl output origin path).toList
    = output.toList ++ render [setting "url" (origin.toList ++ path.toList)] := by
  simp [appendUrl, render, Setting.line, setting, optionLine, escaped_append]

/-! Milliseconds as decimal seconds. -/

/-- The number of milliseconds that a decimal number of seconds with at most three places stands for. -/
def decimalMillis (text : Text) : Nat :=
  let (whole, frac) := splitOnce '.' text
  let places := frac.getD []
  numberValue 10 whole * 1000 + numberValue 10 (places ++ List.replicate (3 - places.length) '0')

theorem rdropWhile_append_cons {p : Char → Bool} {a b : Text} {c : Char} (hc : p c = false) :
    (a ++ c :: b).rdropWhile p = a ++ c :: b.rdropWhile p := by
  have hdrop : ((a ++ c :: b).reverse).dropWhile p = (b.reverse).dropWhile p ++ c :: a.reverse := by
    rw [List.reverse_append, List.reverse_cons, List.append_assoc, List.dropWhile_append]
    split_ifs with hempty
    · rw [List.isEmpty_iff.mp hempty]
      simp [hc]
    · simp
  unfold List.rdropWhile
  rw [hdrop]
  simp

/-- The places behind the point, for a fraction that is not zero. -/
def places (frac : Nat) : Text :=
  (List.replicate (3 - (Nat.toDigits 10 frac).length) '0' ++ Nat.toDigits 10 frac).rdropWhile (· == '0')

theorem toList_timeoutSeconds (ms : UInt64) : (timeoutSeconds ms).toList =
    Nat.toDigits 10 (ms.toNat / 1000)
      ++ if ms.toNat % 1000 = 0 then [] else '.' :: places (ms.toNat % 1000) := by
  unfold timeoutSeconds
  split_ifs with hzero
  · simp [hzero]
  · rw [if_neg hzero, String.toList_ofList, rdropWhile_append_cons rfl]
    rfl

theorem places_value : ∀ frac < 1000, frac ≠ 0 →
    (numberValue 10 (places frac ++ List.replicate (3 - (places frac).length) '0') = frac
      ∧ (places frac).all (isDigit 10) = true ∧ (places frac).length ≤ 3) := by
  decide +kernel

theorem timeoutSeconds_chars (ms : UInt64) :
    ∀ c ∈ (timeoutSeconds ms).toList, isDigit 10 c = true ∨ c = '.' := by
  have hwhole := isDigit_of_mem_toDigits (show 1 < 10 by decide) (by decide) (ms.toNat / 1000)
  intro c hin
  rw [toList_timeoutSeconds, List.mem_append] at hin
  rcases hin with hin | hin
  · exact .inl (hwhole c hin)
  · split_ifs at hin with hzero
    · exact absurd hin List.not_mem_nil
    · rcases List.mem_cons.mp hin with rfl | hin
      · exact .inr rfl
      · have hplaces := (places_value _ (Nat.mod_lt _ (by decide)) hzero).2.1
        exact .inl (List.all_eq_true.mp hplaces c hin)

/-- The child waits as long as the destination says. -/
theorem decimalMillis_timeoutSeconds (ms : UInt64) :
    decimalMillis (timeoutSeconds ms).toList = ms.toNat := by
  have hwhole := numberValue_toDigits (show 1 < 10 by decide) (by decide) (ms.toNat / 1000)
  have hpoint : '.' ∉ Nat.toDigits 10 (ms.toNat / 1000) := by
    intro hin
    cases isDigit_of_mem_toDigits (show 1 < 10 by decide) (by decide) _ _ hin
  have hdiv := Nat.div_add_mod' ms.toNat 1000
  unfold decimalMillis
  rw [toList_timeoutSeconds]
  split_ifs with hzero
  · rw [List.append_nil, splitOnce_of_not_mem hpoint]
    have hnone : numberValue 10 (List.replicate 3 '0') = 0 := by decide
    rw [hzero] at hdiv
    simp only [Option.getD_none, List.nil_append, List.length_nil, Nat.sub_zero, hwhole, hnone]
    exact hdiv
  · rw [splitOnce_append hpoint]
    have hplaces := (places_value _ (Nat.mod_lt _ (by decide)) hzero).1
    simp only [Option.getD_some, hwhole, hplaces]
    exact hdiv

/-! The text before the credentials. -/

theorem plain_timeoutSeconds (ms : UInt64) :
    ∀ c ∈ (timeoutSeconds ms).toList, c ≠ '\\' ∧ c ≠ '"' ∧ c ≠ '\n' := by
  intro c hin
  rcases timeoutSeconds_chars ms c hin with hdigit | rfl
  · refine ⟨?_, ?_, ?_⟩
    · rintro rfl
      cases hdigit
    · rintro rfl
      cases hdigit
    · rintro rfl
      cases hdigit
  · decide

theorem toList_appendTimeouts (output : String) (timeouts : Timeouts) :
    (appendTimeouts output timeouts).toList
      = output.toList ++ render [setting "connect-timeout" (timeoutSeconds timeouts.connectMs).toList,
        setting "max-time" (timeoutSeconds timeouts.totalMs).toList] := by
  have hplain : ∀ ms, escaped (timeoutSeconds ms).toList = (timeoutSeconds ms).toList :=
    fun ms => escaped_of_plain fun c hin => ⟨(plain_timeoutSeconds ms c hin).1, (plain_timeoutSeconds ms c hin).2.1⟩
  simp [appendTimeouts, render, Setting.line, setting, optionLine, hplain]

theorem toList_configPrefix (d : Destination) : d.configPrefix.toList = render d.settings := by
  unfold Destination.configPrefix Destination.settings
  cases d.caFile with
  | none => simp [toList_appendTimeouts, toList_appendUrl, render]
  | some path =>
    simp [toList_appendTimeouts, toList_appendUrl, render, Setting.line, setting, optionLine]

/-! The credentials. -/

theorem fields_of_size_two {values : SecretInput} {username password : String} (hsize : values.size = 2)
    (husername : values.get? .username = some username) (hpassword : values.get? .password = some password) :
    values.fields = {.username, .password} := by
  have hsub : ({.username, .password} : Fields) ⊆ values.fields := by
    intro field hfield
    rw [Finset.mem_insert, Finset.mem_singleton] at hfield
    rcases hfield with rfl | rfl
    · exact OrdMap.mem_keySet.mpr ⟨username, husername⟩
    · exact OrdMap.mem_keySet.mpr ⟨password, hpassword⟩
  refine (Finset.eq_of_subset_of_card_le hsub ?_).symm
  rw [SecretInput.fields, ← OrdMap.size_eq_card, hsize]
  decide

theorem fields_of_size_one {values : SecretInput} {token : String} (hsize : values.size = 1)
    (htoken : values.get? .apiKey = some token) : values.fields = {.apiKey} := by
  have hsub : ({.apiKey} : Fields) ⊆ values.fields := by
    intro field hfield
    rw [Finset.mem_singleton.mp hfield]
    exact OrdMap.mem_keySet.mpr ⟨token, htoken⟩
  refine (Finset.eq_of_subset_of_card_le hsub ?_).symm
  rw [SecretInput.fields, ← OrdMap.size_eq_card, hsize]
  decide

theorem size_of_fields {values : SecretInput} {fields : Fields} (h : values.fields = fields) :
    values.size = fields.card := by
  rw [OrdMap.size_eq_card, ← h]
  rfl

theorem line_eq_iff {output line text : String} {settings : List Setting}
    (h : line.toList = output.toList ++ render settings) :
    line = text ↔ text.toList = output.toList ++ render settings := by
  rw [← h, eq_comm, ← String.toList_inj]

section Lines

variable (output : String)

theorem toList_basicLine (username password : String) :
    (pushEscaped ((pushEscaped (output ++ "user = \"") username).push ':') password ++ "\"\n").toList
      = output.toList ++ render [setting "user" (username.toList ++ ':' :: password.toList)] := by
  simp [render, Setting.line, setting, optionLine, escaped_append, escaped_cons]

theorem toList_bearerLine (token : String) :
    (pushEscaped (output ++ "header = \"Authorization: Bearer ") token ++ "\"\n").toList
      = output.toList ++ render [setting "header" ("Authorization: Bearer ".toList ++ token.toList)] := by
  have hplain : escaped "Authorization: Bearer ".toList = "Authorization: Bearer ".toList :=
    escaped_of_plain (by simp)
  have hline : escaped ("Authorization: Bearer ".toList ++ token.toList)
      = "Authorization: Bearer ".toList ++ escaped token.toList := by
    rw [escaped_append, hplain]
  simp only [render, Setting.line, setting, optionLine, List.flatMap_cons, List.flatMap_nil]
  rw [hline]
  simp

theorem toList_headerLine (name token : String) :
    (pushEscaped (pushEscaped (output ++ "header = \"") name ++ ": ") token ++ "\"\n").toList
      = output.toList ++ render [setting "header" (name.toList ++ ':' :: ' ' :: token.toList)] := by
  simp [render, Setting.line, setting, optionLine, escaped_append, escaped_cons]

theorem toList_queryLine (param token : String) :
    (pushEscaped ((pushEscaped (output ++ "data-urlencode = \"") param).push '=') token
        ++ "\"\nget\n").toList
      = output.toList ++ render [setting "data-urlencode" (param.toList ++ '=' :: token.toList),
        { name := "get".toList, argument := none }] := by
  simp [render, Setting.line, setting, optionLine, escaped_append, escaped_cons]

end Lines

/-- What `append_auth` adds, if the text stays within the limit. -/
theorem appendAuth_eq_ok {output text : String} {auth : Auth} {values : SecretInput}
    (hauth : auth.validate = .ok ()) : appendAuth output auth values = .ok text ↔
      (∃ settings, auth.Carries values settings ∧ text.toList = output.toList ++ render settings)
        ∧ text.utf8ByteSize ≤ maxConfig := by
  cases auth with
  | basic =>
    simp only [appendAuth, bind_eq_ok, failIf_eq_ok, credential, orElse_eq_ok, pure_eq_ok, exists_const,
      not_or, ne_eq, not_not, Bool.not_eq_false, not_lt]
    constructor
    · rintro ⟨hsize, username, husername, password, hpassword, ⟨hvalid, hcolon, hvalid'⟩, line, hline, hroom,
        rfl⟩
      have hfields := fields_of_size_two hsize husername hpassword
      exact ⟨⟨_, .basic hfields husername hpassword hvalid hcolon hvalid',
        (line_eq_iff (toList_basicLine output username password)).mp hline⟩, hroom⟩
    · rintro ⟨⟨settings, hcarries, htext⟩, hroom⟩
      cases hcarries with
      | @basic _ username password hfields husername hpassword hvalid hcolon hvalid' =>
        exact ⟨size_of_fields hfields, username, husername, password, hpassword, ⟨hvalid, hcolon, hvalid'⟩,
          text, (line_eq_iff (toList_basicLine output username password)).mpr htext, hroom, rfl⟩
  | bearer =>
    simp only [appendAuth, bind_eq_ok, failIf_eq_ok, credential, orElse_eq_ok, pure_eq_ok, exists_const,
      ne_eq, not_not, Bool.not_eq_false, not_lt]
    constructor
    · rintro ⟨hsize, token, htoken, hvalid, line, hline, hroom, rfl⟩
      exact ⟨⟨_, .bearer (fields_of_size_one hsize htoken) htoken hvalid,
        (line_eq_iff (toList_bearerLine output token)).mp hline⟩, hroom⟩
    · rintro ⟨⟨settings, hcarries, htext⟩, hroom⟩
      cases hcarries with
      | @bearer _ token hfields htoken hvalid =>
        exact ⟨size_of_fields hfields, token, htoken, hvalid, text,
          (line_eq_iff (toList_bearerLine output token)).mpr htext, hroom, rfl⟩
  | header name =>
    have hname : validHeaderName name = true := by
      by_contra hnot
      simp [Auth.validate, hnot] at hauth
    simp only [appendAuth, bind_eq_ok, failIf_eq_ok, credential, orElse_eq_ok, pure_eq_ok, exists_const,
      not_or, ne_eq, not_not, Bool.not_eq_false, not_lt]
    constructor
    · rintro ⟨hsize, token, htoken, ⟨-, hvalid⟩, line, hline, hroom, rfl⟩
      exact ⟨⟨_, .header (fields_of_size_one hsize htoken) htoken hvalid,
        (line_eq_iff (toList_headerLine output name token)).mp hline⟩, hroom⟩
    · rintro ⟨⟨settings, hcarries, htext⟩, hroom⟩
      cases hcarries with
      | @header _ _ token hfields htoken hvalid =>
        exact ⟨size_of_fields hfields, token, htoken, ⟨hname, hvalid⟩, text,
          (line_eq_iff (toList_headerLine output name token)).mpr htext, hroom, rfl⟩
  | query param =>
    have hparam : validQueryParam param = true := by
      by_contra hnot
      simp [Auth.validate, hnot] at hauth
    simp only [appendAuth, bind_eq_ok, failIf_eq_ok, credential, orElse_eq_ok, pure_eq_ok, exists_const,
      not_or, ne_eq, not_not, Bool.not_eq_false, not_lt]
    constructor
    · rintro ⟨hsize, token, htoken, ⟨-, hvalid⟩, line, hline, hroom, rfl⟩
      exact ⟨⟨_, .query (fields_of_size_one hsize htoken) htoken hvalid,
        (line_eq_iff (toList_queryLine output param token)).mp hline⟩, hroom⟩
    · rintro ⟨⟨settings, hcarries, htext⟩, hroom⟩
      cases hcarries with
      | @query _ _ token hfields htoken hvalid =>
        exact ⟨size_of_fields hfields, token, htoken, ⟨hparam, hvalid⟩, text,
          (line_eq_iff (toList_queryLine output param token)).mpr htext, hroom, rfl⟩

/-! No value ends its line. -/

theorem Destination.of_validate {fs : FileSystem} {d : Destination} (h : d.validate fs = .ok ()) :
    validOrigin d.origin = true ∧ validPath d.path = true ∧ d.auth.validate = .ok ()
      ∧ ∀ path ∈ d.caFile, validateCa fs path = .ok () := by
  simp only [Destination.validate, bind_eq_ok, failIf_eq_ok, exists_const, not_or, Bool.not_eq_false] at h
  obtain ⟨⟨-, -, -, -, -, -, horigin, hpath⟩, ⟨⟩, -, ⟨⟩, hauth, hca⟩ := h
  refine ⟨horigin, hpath, hauth, ?_⟩
  rintro path hpath
  rw [hpath] at hca
  exact hca

theorem setting_oneLine {name : String} {argument : Text} (hne : name.toList ≠ [])
    (hname : ∀ c ∈ name.toList, isBlank c = false ∧ c ≠ '\n') (hargument : '\n' ∉ argument) :
    (setting name argument).OneLine where
  nonempty := hne
  name := hname
  argument := by
    rintro a ⟨⟩
    exact hargument

theorem validateCa_oneLine {fs : FileSystem} {path : String} (h : validateCa fs path = .ok ()) :
    '\n' ∉ path.toList := by
  intro hin
  have hcontrol : path.toList.any isControl = true := List.any_eq_true.mpr ⟨'\n', hin, by decide⟩
  unfold validateCa at h
  rw [hcontrol] at h
  simp at h

theorem Destination.settings_oneLine {fs : FileSystem} {d : Destination} (h : d.validate fs = .ok ()) :
    ∀ s ∈ d.settings, s.OneLine := by
  obtain ⟨horigin, hpath, -, hca⟩ := Destination.of_validate h
  obtain ⟨⟨host, port, hnames⟩, -⟩ := validOrigin_iff.mp horigin
  obtain ⟨hnamesPath, -⟩ := validPath_iff.mp hpath
  have hurl : '\n' ∉ d.origin.toList ++ d.path.toList := by
    rw [List.mem_append, not_or]
    exact ⟨hnames.not_mem (by decide), hnamesPath.encoded.not_mem rfl⟩
  have htimeout : ∀ ms, '\n' ∉ (timeoutSeconds ms).toList :=
    fun ms hin => (plain_timeoutSeconds ms _ hin).2.2 rfl
  intro s hs
  simp only [Destination.settings, List.mem_cons, List.mem_map, Option.mem_toList] at hs
  rcases hs with rfl | rfl | rfl | ⟨path, hpath, rfl⟩
  · exact setting_oneLine (by simp) (by simp [isBlank]) hurl
  · exact setting_oneLine (by simp) (by simp [isBlank]) (htimeout _)
  · exact setting_oneLine (by simp) (by simp [isBlank]) (htimeout _)
  · exact setting_oneLine (by simp) (by simp [isBlank]) (validateCa_oneLine (hca path hpath))

theorem validBasic_oneLine {value : String} (h : validBasic value = true) : '\n' ∉ value.toList := by
  intro hin
  have hcontrol : value.toList.any isControl = true := List.any_eq_true.mpr ⟨'\n', hin, by decide⟩
  unfold validBasic at h
  rw [hcontrol] at h
  simp at h

theorem validPrivateAscii_oneLine {value : String} (h : validPrivateAscii value = true) :
    '\n' ∉ value.toList := by
  intro hin
  unfold validPrivateAscii at h
  rw [Bool.and_eq_true, List.all_eq_true] at h
  exact absurd (h.2 _ hin) (by decide)

theorem mem_of_rdropWhile {p : Char → Bool} {l : Text} {c : Char} (h : c ∈ l) :
    c ∈ l.rdropWhile p ∨ p c = true := by
  have hin : c ∈ l.reverse.takeWhile p ++ l.reverse.dropWhile p := by
    rw [List.takeWhile_append_dropWhile]
    exact List.mem_reverse.mpr h
  rcases List.mem_append.mp hin with htake | hdrop
  · exact .inr (List.mem_takeWhile_imp htake)
  · exact .inl (List.mem_reverse.mpr hdrop)

theorem validBearer_oneLine {value : String} (h : validBearer value = true) : '\n' ∉ value.toList := by
  intro hin
  unfold validBearer at h
  split_ifs at h
  rw [Bool.and_eq_true, List.all_eq_true] at h
  rcases @mem_of_rdropWhile (· == '=') _ _ hin with hin | heq
  · exact absurd (h.2 _ hin) (by simp)
  · cases heq

theorem validHeaderName_oneLine {name : String} (h : validHeaderName name = true) : '\n' ∉ name.toList := by
  intro hin
  unfold validHeaderName at h
  simp only [Bool.and_eq_true, List.all_eq_true] at h
  exact absurd (h.1.2 _ hin) (by simp [isTchar])

theorem validQueryParam_oneLine {param : String} (h : validQueryParam param = true) :
    '\n' ∉ param.toList := by
  intro hin
  unfold validQueryParam at h
  simp only [Bool.and_eq_true, List.all_eq_true] at h
  exact absurd (h.2 _ hin) (by decide)

theorem Auth.Carries.oneLine {auth : Auth} {values : SecretInput} {settings : List Setting}
    (h : auth.Carries values settings) (hauth : auth.validate = .ok ()) : ∀ s ∈ settings, s.OneLine := by
  cases h with
  | @basic _ username password _ _ _ husername _ hpassword =>
    intro s hs
    rw [List.mem_singleton.mp hs]
    refine setting_oneLine (by simp) (by simp [isBlank]) ?_
    simp [validBasic_oneLine husername, validBasic_oneLine hpassword]
  | bearer _ _ htoken =>
    intro s hs
    rw [List.mem_singleton.mp hs]
    refine setting_oneLine (by simp) (by simp [isBlank]) ?_
    rw [List.mem_append, not_or]
    exact ⟨by simp, validBearer_oneLine htoken⟩
  | @header name _ token _ _ htoken =>
    have hname : validHeaderName name = true := by
      by_contra hnot
      simp [Auth.validate, hnot] at hauth
    intro s hs
    rw [List.mem_singleton.mp hs]
    refine setting_oneLine (by simp) (by simp [isBlank]) ?_
    simp [validHeaderName_oneLine hname, validPrivateAscii_oneLine htoken]
  | @query param _ token _ _ htoken =>
    have hparam : validQueryParam param = true := by
      by_contra hnot
      simp [Auth.validate, hnot] at hauth
    intro s hs
    rw [List.mem_cons, List.mem_singleton] at hs
    rcases hs with rfl | rfl
    · refine setting_oneLine (by simp) (by simp [isBlank]) ?_
      simp [validQueryParam_oneLine hparam, validPrivateAscii_oneLine htoken]
    · exact { nonempty := by simp, name := by simp [isBlank], argument := by simp }

/-! The limit is never met. -/

theorem pushEscaped_size (output value : String) :
    (pushEscaped output value).utf8ByteSize ≤ output.utf8ByteSize + 2 * value.utf8ByteSize := by
  have hfold : ∀ (chars : Text) (output : String),
      (chars.foldl (fun output c =>
        if c = '\\' ∨ c = '"' then (output.push '\\').push c else output.push c) output).utf8ByteSize
        ≤ output.utf8ByteSize + 2 * String.utf8Len chars := by
    intro chars
    induction chars with
    | nil => simp
    | cons c chars ih =>
      intro output
      have hpos := c.utf8Size_pos
      rw [List.foldl_cons, String.utf8Len_cons]
      split_ifs
      · have hrest := ih ((output.push '\\').push c)
        have hback : Char.utf8Size '\\' = 1 := rfl
        rw [String.utf8ByteSize_push, String.utf8ByteSize_push, hback] at hrest
        omega
      · have hrest := ih (output.push c)
        rw [String.utf8ByteSize_push] at hrest
        omega
  have hsize := hfold value.toList output
  rwa [← String.utf8ByteSize_ofList, String.ofList_toList] at hsize

theorem utf8Len_le (chars : Text) : String.utf8Len chars ≤ 4 * chars.length := by
  induction chars with
  | nil => exact le_refl _
  | cons c chars ih =>
    have hle := c.utf8Size_le_four
    rw [String.utf8Len_cons, List.length_cons]
    omega

theorem timeoutSeconds_size (ms : UInt64) : (timeoutSeconds ms).utf8ByteSize ≤ 84 := by
  have hlt := ms.toNat_lt
  have hwhole : (Nat.toDigits 10 (ms.toNat / 1000)).length ≤ 17 :=
    (Nat.length_toDigits_le_iff (by decide) (by decide)).mpr (by omega)
  have hlength : (timeoutSeconds ms).toList.length ≤ 21 := by
    rw [toList_timeoutSeconds, List.length_append]
    split_ifs with hzero
    · rw [List.length_nil]
      omega
    · have hplaces := (places_value _ (Nat.mod_lt _ (by decide)) hzero).2.2
      rw [List.length_cons]
      omega
  have hle := utf8Len_le (timeoutSeconds ms).toList
  rw [← String.utf8ByteSize_ofList, String.ofList_toList] at hle
  omega

theorem validateCa_size {fs : FileSystem} {path : String} (h : validateCa fs path = .ok ()) :
    path.utf8ByteSize ≤ 4096 := by
  unfold validateCa at h
  split_ifs at h with hrefused
  simp only [Bool.or_eq_true, decide_eq_true_eq, not_or, not_lt] at hrefused
  exact hrefused.1.2

theorem configPrefix_size {fs : FileSystem} {d : Destination} (h : d.validate fs = .ok ()) :
    d.configPrefix.utf8ByteSize ≤ 14000 := by
  obtain ⟨horigin, hpath, -, hca⟩ := Destination.of_validate h
  have horiginSize := (validOrigin_iff.mp horigin).2
  have hpathSize := (validPath_iff.mp hpath).2
  have hurl : (appendUrl "" d.origin d.path).utf8ByteSize ≤ 5200 := by
    have hfirst := pushEscaped_size ("" ++ "url = \"") d.origin
    have hsecond := pushEscaped_size (pushEscaped ("" ++ "url = \"") d.origin) d.path
    have hopen : ("" ++ "url = \"").utf8ByteSize = 7 := by decide
    have hclose : "\"\n".utf8ByteSize = 2 := by decide
    unfold appendUrl
    rw [String.utf8ByteSize_append]
    omega
  have htimeouts : (appendTimeouts (appendUrl "" d.origin d.path) d.timeouts).utf8ByteSize ≤ 5500 := by
    have hconnect := timeoutSeconds_size d.timeouts.connectMs
    have htotal := timeoutSeconds_size d.timeouts.totalMs
    have hfirst : "connect-timeout = \"".utf8ByteSize = 19 := by decide
    have hsecond : "\"\nmax-time = \"".utf8ByteSize = 14 := by decide
    have hclose : "\"\n".utf8ByteSize = 2 := by decide
    unfold appendTimeouts
    simp only [String.utf8ByteSize_append]
    omega
  unfold Destination.configPrefix
  cases hfile : d.caFile with
  | none => exact htimeouts.trans (by decide)
  | some path =>
    have hsize := validateCa_size (hca path hfile)
    have hescaped := pushEscaped_size
      (appendTimeouts (appendUrl "" d.origin d.path) d.timeouts ++ "cacert = \"") path
    have hopen : "cacert = \"".utf8ByteSize = 10 := by decide
    have hclose : "\"\n".utf8ByteSize = 2 := by decide
    rw [String.utf8ByteSize_append] at hescaped
    dsimp only
    rw [String.utf8ByteSize_append]
    omega

theorem validBasic_size {value : String} (h : validBasic value = true) : value.utf8ByteSize ≤ 8192 := by
  unfold validBasic at h
  simp only [Bool.and_eq_true, decide_eq_true_eq] at h
  exact h.1.2

theorem validPrivateAscii_size {value : String} (h : validPrivateAscii value = true) :
    value.utf8ByteSize ≤ 8192 := by
  unfold validPrivateAscii at h
  simp only [Bool.and_eq_true, decide_eq_true_eq] at h
  exact h.1.2

theorem validBearer_size {value : String} (h : validBearer value = true) : value.utf8ByteSize ≤ 8192 := by
  unfold validBearer at h
  split_ifs at h with hrefused
  simp only [Bool.or_eq_true, decide_eq_true_eq, not_or, not_lt] at hrefused
  exact hrefused.2

theorem Auth.Carries.size {auth : Auth} {values : SecretInput} {settings : List Setting}
    {output text : String} (h : auth.Carries values settings) (hauth : auth.validate = .ok ())
    (htext : text.toList = output.toList ++ render settings) :
    text.utf8ByteSize ≤ output.utf8ByteSize + 33000 := by
  have hclose : "\"\n".utf8ByteSize = 2 := by decide
  cases h with
  | @basic _ username password _ _ _ husername _ hpassword =>
    have hsize := validBasic_size husername
    have hsize' := validBasic_size hpassword
    have hfirst := pushEscaped_size (output ++ "user = \"") username
    have hsecond := pushEscaped_size ((pushEscaped (output ++ "user = \"") username).push ':') password
    have hopen : "user = \"".utf8ByteSize = 8 := by decide
    have hcolon : Char.utf8Size ':' = 1 := rfl
    rw [← (line_eq_iff (toList_basicLine output username password)).mpr htext]
    simp only [String.utf8ByteSize_append, String.utf8ByteSize_push] at hfirst hsecond ⊢
    omega
  | @bearer _ token _ _ htoken =>
    have hsize := validBearer_size htoken
    have hfirst := pushEscaped_size (output ++ "header = \"Authorization: Bearer ") token
    have hopen : "header = \"Authorization: Bearer ".utf8ByteSize = 32 := by decide
    rw [← (line_eq_iff (toList_bearerLine output token)).mpr htext]
    simp only [String.utf8ByteSize_append] at hfirst ⊢
    omega
  | @header name _ token _ _ htoken =>
    have hname : name.utf8ByteSize ≤ 128 := by
      by_contra hnot
      simp [Auth.validate, validHeaderName, hnot] at hauth
    have hsize := validPrivateAscii_size htoken
    have hfirst := pushEscaped_size (output ++ "header = \"") name
    have hsecond := pushEscaped_size (pushEscaped (output ++ "header = \"") name ++ ": ") token
    have hopen : "header = \"".utf8ByteSize = 10 := by decide
    have hcolon : ": ".utf8ByteSize = 2 := by decide
    rw [← (line_eq_iff (toList_headerLine output name token)).mpr htext]
    simp only [String.utf8ByteSize_append] at hfirst hsecond ⊢
    omega
  | @query param _ token _ _ htoken =>
    have hparam : param.utf8ByteSize ≤ 64 := by
      by_contra hnot
      simp [Auth.validate, validQueryParam, hnot] at hauth
    have hsize := validPrivateAscii_size htoken
    have hfirst := pushEscaped_size (output ++ "data-urlencode = \"") param
    have hsecond := pushEscaped_size ((pushEscaped (output ++ "data-urlencode = \"") param).push '=') token
    have hopen : "data-urlencode = \"".utf8ByteSize = 18 := by decide
    have hget : "\"\nget\n".utf8ByteSize = 6 := by decide
    have heq : Char.utf8Size '=' = 1 := rfl
    rw [← (line_eq_iff (toList_queryLine output param token)).mpr htext]
    simp only [String.utf8ByteSize_append, String.utf8ByteSize_push] at hfirst hsecond ⊢
    omega

/-! The whole text. -/

theorem failsWith_failIf {c : Prop} [Decidable c] {e : Error} :
    FailsWith e (failIf (m := Except Error) c e) :=
  fun _ h => (failIf_eq_error.mp h).2.symm

theorem failsWith_credential (values : SecretInput) (field : Field) :
    FailsWith .invalid (credential values field) := by
  intro e h
  unfold credential orElse at h
  split at h
  · cases h
  · exact (Except.error.inj h).symm

theorem failsWith_appendAuth (output : String) (auth : Auth) (values : SecretInput) :
    FailsWith .invalid (appendAuth output auth values) := by
  have hlast : ∀ text : String, FailsWith Error.invalid
      (failIf (maxConfig < text.utf8ByteSize) Error.invalid >>= fun _ => pure text) :=
    fun text => failsWith_failIf.bind fun _ => failsWith_pure text
  cases auth with
  | basic =>
    apply failsWith_failIf.bind
    intro _
    apply (failsWith_credential values .username).bind
    intro username
    apply (failsWith_credential values .password).bind
    intro password
    exact failsWith_failIf.bind fun _ => hlast _
  | _ =>
    apply failsWith_failIf.bind
    intro _
    apply (failsWith_credential values .apiKey).bind
    intro token
    exact failsWith_failIf.bind fun _ => hlast _

section Accepted

variable {fs : FileSystem} {d : Destination} (h : d.validate fs = .ok ())
include h

theorem configuration_eq (values : SecretInput) :
    d.configuration fs values = appendAuth d.configPrefix d.auth values := by
  unfold Destination.configuration
  rw [h]
  rfl

/-- The text holds the destination's options and then the ones that carry the credentials, and any
credentials that fit are taken. -/
theorem configuration_eq_ok {values : SecretInput} {text : String} :
    d.configuration fs values = .ok text ↔
      ∃ settings, d.auth.Carries values settings ∧ text.toList = render (d.settings ++ settings) := by
  obtain ⟨-, -, hauth, -⟩ := Destination.of_validate h
  have hrender : ∀ settings, render (d.settings ++ settings) = d.configPrefix.toList ++ render settings := by
    intro settings
    rw [toList_configPrefix]
    exact List.flatMap_append
  rw [configuration_eq h, appendAuth_eq_ok hauth]
  simp only [hrender]
  refine and_iff_left_of_imp ?_
  rintro ⟨settings, hcarries, htext⟩
  have hprefix := configPrefix_size h
  have hsize := hcarries.size hauth htext
  unfold maxConfig
  omega

/-- The child reads exactly the options that were meant, whatever the credentials hold; and
credentials that do not fit the destination give no text. -/
theorem configuration_read_back (values : SecretInput) :
    (∀ text, d.configuration fs values = .ok text →
      ∃ settings, d.auth.Carries values settings ∧ readConfig text.toList = some (d.settings ++ settings))
    ∧ ((∃ settings, d.auth.Carries values settings) → ∃ text, d.configuration fs values = .ok text)
    ∧ ((¬ ∃ settings, d.auth.Carries values settings) → d.configuration fs values = .error .invalid)
    ∧ (∀ settings, d.auth.Carries values settings → d.auth = .basic →
      ∃ username password argument, values.get? .username = some username
        ∧ values.get? .password = some password ∧ settings = [setting "user" argument]
        ∧ splitOnce ':' argument = (username.toList, some password.toList))
    ∧ decimalMillis (timeoutSeconds d.timeouts.connectMs).toList = d.timeouts.connectMs.toNat
    ∧ decimalMillis (timeoutSeconds d.timeouts.totalMs).toList = d.timeouts.totalMs.toNat := by
  obtain ⟨-, -, hauth, -⟩ := Destination.of_validate h
  refine ⟨fun text htext => ?_, ?_, fun hnot => ?_, fun settings hcarries hbasic => ?_,
    decimalMillis_timeoutSeconds _, decimalMillis_timeoutSeconds _⟩
  · obtain ⟨settings, hcarries, htext⟩ := (configuration_eq_ok h).mp htext
    refine ⟨settings, hcarries, ?_⟩
    rw [htext]
    apply readConfig_render
    intro s hs
    rcases List.mem_append.mp hs with hs | hs
    · exact d.settings_oneLine h s hs
    · exact hcarries.oneLine hauth s hs
  · rintro ⟨settings, hcarries⟩
    exact ⟨String.ofList (render (d.settings ++ settings)), (configuration_eq_ok h).mpr
      ⟨settings, hcarries, String.toList_ofList⟩⟩
  · cases hresult : d.configuration fs values with
    | ok text =>
      obtain ⟨settings, hcarries, -⟩ := (configuration_eq_ok h).mp hresult
      exact absurd ⟨settings, hcarries⟩ hnot
    | error e =>
      rw [configuration_eq h] at hresult
      rw [failsWith_appendAuth _ _ _ e hresult]
  · rw [hbasic] at hcarries
    cases hcarries with
    | basic hfields husername hpassword hvalid hcolon hvalid' =>
      exact ⟨_, _, _, husername, hpassword, rfl, splitOnce_append hcolon⟩

end Accepted

def reviews : Destination where
  id := "reviews"
  service := "reviews"
  origin := "https://api.example.com"
  path := "/v1"
  auth := .basic
  caFile := none
  timeouts := {}

/-- A password that tries to add an option of its own. -/
def quoting : SecretInput :=
  ((∅ : SecretInput).insert .username "agent").insert .password "p\"\\"

theorem configuration_read_back_quoting :
    ∃ text, reviews.configuration { euid := 0, metadata := fun _ => none } quoting = .ok text
      ∧ readConfig text.toList
        = some (reviews.settings ++ [setting "user" ("agent".toList ++ ':' :: "p\"\\".toList)]) := by
  have hvalid : reviews.validate { euid := 0, metadata := fun _ => none } = .ok () := rfl
  have hfields : ∃ settings, reviews.auth.Carries quoting settings :=
    ⟨_, .basic (by decide +kernel) rfl rfl (by decide +kernel) (by decide +kernel) (by decide +kernel)⟩
  obtain ⟨hread, haccepted, -⟩ := configuration_read_back hvalid quoting
  obtain ⟨text, htext⟩ := haccepted hfields
  obtain ⟨settings, hcarries, hsettings⟩ := hread text htext
  refine ⟨text, htext, ?_⟩
  cases hcarries with
  | basic _ husername hpassword =>
    cases husername
    cases hpassword
    exact hsettings

end Credman
