import Credman.Curl
import Credman.Library.Buffer

/-! The configuration text as it grows in its buffer, which is made large enough before it holds a
credential. -/
namespace Credman

open Library Checked ConfigFile

/-! The code that writes the text, on a buffer. -/

def Buffer.pushEscaped (b : Buffer) (value : String) : Buffer :=
  value.toList.foldl (fun b c =>
    if c = '\\' ∨ c = '"' then (b.push '\\').push c else b.push c) b

def Buffer.appendUrl (b : Buffer) (origin path : String) : Buffer :=
  (pushEscaped (pushEscaped (b.pushStr "url = \"") origin) path).pushStr "\"\n"

def Buffer.appendTimeouts (b : Buffer) (timeouts : Timeouts) : Buffer :=
  ((((b.pushStr "connect-timeout = \"").pushStr (timeoutSeconds timeouts.connectMs)).pushStr
    "\"\nmax-time = \"").pushStr (timeoutSeconds timeouts.totalMs)).pushStr "\"\n"

/-- The part that `prepare` writes. -/
def Destination.prefixBuffer (d : Destination) : Buffer :=
  let b := Buffer.appendTimeouts (Buffer.appendUrl (.withCapacity maxConfig) d.origin d.path) d.timeouts
  match d.caFile with
  | some path => (Buffer.pushEscaped (b.pushStr "cacert = \"") path).pushStr "\"\n"
  | none => b

def Buffer.appendAuth (b : Buffer) (auth : Auth) (values : SecretInput) : Except Error Buffer := do
  let b ← match auth with
    | .basic => do
      failIf (values.size ≠ 2) .invalid
      let username ← credential values .username
      let password ← credential values .password
      failIf (validBasic username = false ∨ ':' ∈ username.toList ∨ validBasic password = false) .invalid
      pure ((pushEscaped ((pushEscaped (b.pushStr "user = \"") username).push ':') password).pushStr "\"\n")
    | .bearer => do
      failIf (values.size ≠ 1) .invalid
      let token ← credential values .apiKey
      failIf (validBearer token = false) .invalid
      pure ((pushEscaped (b.pushStr "header = \"Authorization: Bearer ") token).pushStr "\"\n")
    | .header name => do
      failIf (values.size ≠ 1) .invalid
      let token ← credential values .apiKey
      failIf (validHeaderName name = false ∨ validPrivateAscii token = false) .invalid
      pure ((pushEscaped ((pushEscaped (b.pushStr "header = \"") name).pushStr ": ") token).pushStr "\"\n")
    | .query param => do
      failIf (values.size ≠ 1) .invalid
      let token ← credential values .apiKey
      failIf (validQueryParam param = false ∨ validPrivateAscii token = false) .invalid
      pure ((pushEscaped ((pushEscaped (b.pushStr "data-urlencode = \"") param).push '=') token).pushStr
        "\"\nget\n")
  failIf (maxConfig < b.text.utf8ByteSize) .invalid
  pure b

/-- `prepare` and then the first step of `deliver`. -/
def Destination.configurationBuffer (fs : FileSystem) (d : Destination) (values : SecretInput) :
    Except Error Buffer := do
  d.validate fs
  Buffer.appendAuth d.prefixBuffer d.auth values

/-! Each step writes the text that it stands for, and only pushes. -/

namespace Buffer

open Library.Buffer

variable (b : Buffer)

@[simp] theorem pushEscaped_text (value : String) :
    (pushEscaped b value).text = Credman.pushEscaped b.text value := by
  unfold pushEscaped Credman.pushEscaped
  generalize value.toList = chars
  induction chars generalizing b with
  | nil => rfl
  | cons c chars ih =>
    rw [List.foldl_cons, List.foldl_cons, ih]
    split_ifs
    · rw [push_text, push_text]
    · rw [push_text]

theorem grows_pushEscaped (value : String) : b.Grows (pushEscaped b value) := by
  apply Grows.foldl
  intro b c
  split_ifs
  · exact (Grows.push b '\\').trans (Grows.push _ c)
  · exact Grows.push b c

theorem appendUrl_text (origin path : String) :
    (appendUrl b origin path).text = Credman.appendUrl b.text origin path := by
  simp [appendUrl, Credman.appendUrl]

theorem grows_appendUrl (origin path : String) : b.Grows (appendUrl b origin path) :=
  (((Grows.pushStr b _).trans (grows_pushEscaped _ origin)).trans (grows_pushEscaped _ path)).trans
    (Grows.pushStr _ _)

theorem appendTimeouts_text (timeouts : Timeouts) :
    (appendTimeouts b timeouts).text = Credman.appendTimeouts b.text timeouts := by
  simp [appendTimeouts, Credman.appendTimeouts]

theorem grows_appendTimeouts (timeouts : Timeouts) : b.Grows (appendTimeouts b timeouts) :=
  ((((Grows.pushStr b _).trans (Grows.pushStr _ _)).trans (Grows.pushStr _ _)).trans
    (Grows.pushStr _ _)).trans (Grows.pushStr _ _)

theorem prefixBuffer_text (d : Destination) : d.prefixBuffer.text = d.configPrefix := by
  unfold Destination.prefixBuffer Destination.configPrefix
  cases d.caFile with
  | none => simp [appendTimeouts_text, appendUrl_text, withCapacity]
  | some path => simp [appendTimeouts_text, appendUrl_text, withCapacity]

theorem grows_prefixBuffer (d : Destination) : (withCapacity maxConfig).Grows d.prefixBuffer := by
  have hurl := grows_appendUrl (withCapacity maxConfig) d.origin d.path
  have htimeouts := hurl.trans (grows_appendTimeouts _ d.timeouts)
  unfold Destination.prefixBuffer
  cases d.caFile with
  | none => exact htimeouts
  | some path =>
    exact ((htimeouts.trans (Grows.pushStr _ _)).trans (grows_pushEscaped _ path)).trans (Grows.pushStr _ _)

theorem appendAuth_carries {auth : Auth} {values : SecretInput} {settings : List Setting}
    (hauth : auth.validate = .ok ()) (h : auth.Carries values settings)
    (hroom : b.text.utf8ByteSize + 33000 ≤ maxConfig) : ∃ b', appendAuth b auth values = .ok b'
      ∧ b.Grows b' ∧ b'.text.toList = b.text.toList ++ render settings := by
  have hsize : ∀ b' : Buffer, b'.text.toList = b.text.toList ++ render settings →
      b'.text.utf8ByteSize ≤ maxConfig := fun b' htext => (h.size hauth htext).trans hroom
  cases h with
  | @basic _ username password hfields husername hpassword hvalid hcolon hvalid' =>
    obtain ⟨b', hb'⟩ : ∃ b', (pushEscaped ((pushEscaped (b.pushStr "user = \"") username).push ':')
      password).pushStr "\"\n" = b' := ⟨_, rfl⟩
    have htext : b'.text.toList = b.text.toList
        ++ render [setting "user" (username.toList ++ ':' :: password.toList)] := by
      rw [← hb', ← toList_basicLine]
      simp
    refine ⟨b', ?_, ?_, htext⟩
    · simp only [appendAuth, bind_eq_ok, failIf_eq_ok, credential, orElse_eq_ok, pure_eq_ok, exists_const,
        not_or, ne_eq, not_not, Bool.not_eq_false, not_lt]
      exact ⟨size_of_fields hfields, username, husername, password, hpassword, ⟨hvalid, hcolon, hvalid'⟩,
        b', hb', hsize b' htext, rfl⟩
    · rw [← hb']
      exact ((((Grows.pushStr b _).trans (grows_pushEscaped _ username)).trans (Grows.push _ ':')).trans
        (grows_pushEscaped _ password)).trans (Grows.pushStr _ _)
  | @bearer _ token hfields htoken hvalid =>
    obtain ⟨b', hb'⟩ : ∃ b', (pushEscaped (b.pushStr "header = \"Authorization: Bearer ") token).pushStr
      "\"\n" = b' := ⟨_, rfl⟩
    have htext : b'.text.toList = b.text.toList
        ++ render [setting "header" ("Authorization: Bearer ".toList ++ token.toList)] := by
      rw [← hb', ← toList_bearerLine]
      simp
    refine ⟨b', ?_, ?_, htext⟩
    · simp only [appendAuth, bind_eq_ok, failIf_eq_ok, credential, orElse_eq_ok, pure_eq_ok, exists_const,
        ne_eq, not_not, Bool.not_eq_false, not_lt]
      exact ⟨size_of_fields hfields, token, htoken, hvalid, b', hb', hsize b' htext, rfl⟩
    · rw [← hb']
      exact ((Grows.pushStr b _).trans (grows_pushEscaped _ token)).trans (Grows.pushStr _ _)
  | @header name _ token hfields htoken hvalid =>
    have hname : validHeaderName name = true := by
      by_contra hnot
      simp [Auth.validate, hnot] at hauth
    obtain ⟨b', hb'⟩ : ∃ b', (pushEscaped ((pushEscaped (b.pushStr "header = \"") name).pushStr ": ")
      token).pushStr "\"\n" = b' := ⟨_, rfl⟩
    have htext : b'.text.toList = b.text.toList
        ++ render [setting "header" (name.toList ++ ':' :: ' ' :: token.toList)] := by
      rw [← hb', ← toList_headerLine]
      simp
    refine ⟨b', ?_, ?_, htext⟩
    · simp only [appendAuth, bind_eq_ok, failIf_eq_ok, credential, orElse_eq_ok, pure_eq_ok, exists_const,
        not_or, ne_eq, not_not, Bool.not_eq_false, not_lt]
      exact ⟨size_of_fields hfields, token, htoken, ⟨hname, hvalid⟩, b', hb', hsize b' htext, rfl⟩
    · rw [← hb']
      exact ((((Grows.pushStr b _).trans (grows_pushEscaped _ name)).trans (Grows.pushStr _ _)).trans
        (grows_pushEscaped _ token)).trans (Grows.pushStr _ _)
  | @query param _ token hfields htoken hvalid =>
    have hparam : validQueryParam param = true := by
      by_contra hnot
      simp [Auth.validate, hnot] at hauth
    obtain ⟨b', hb'⟩ : ∃ b', (pushEscaped ((pushEscaped (b.pushStr "data-urlencode = \"") param).push '=')
      token).pushStr "\"\nget\n" = b' := ⟨_, rfl⟩
    have htext : b'.text.toList = b.text.toList
        ++ render [setting "data-urlencode" (param.toList ++ '=' :: token.toList),
          { name := "get".toList, argument := none }] := by
      rw [← hb', ← toList_queryLine]
      simp
    refine ⟨b', ?_, ?_, htext⟩
    · simp only [appendAuth, bind_eq_ok, failIf_eq_ok, credential, orElse_eq_ok, pure_eq_ok, exists_const,
        not_or, ne_eq, not_not, Bool.not_eq_false, not_lt]
      exact ⟨size_of_fields hfields, token, htoken, ⟨hparam, hvalid⟩, b', hb', hsize b' htext, rfl⟩
    · rw [← hb']
      exact ((((Grows.pushStr b _).trans (grows_pushEscaped _ param)).trans (Grows.push _ '=')).trans
        (grows_pushEscaped _ token)).trans (Grows.pushStr _ _)

end Buffer

section Fits

variable {fs : FileSystem} {d : Destination} (h : d.validate fs = .ok ())
include h

/-- The text never outgrows its buffer: neither what is written before the credentials nor what any
credentials make of it that the destination takes. So it is never moved while it holds plaintext, and
no such credentials are refused for their length. -/
theorem configuration_fits :
    (d.prefixBuffer.text = d.configPrefix ∧ d.prefixBuffer.longest ≤ maxConfig
      ∧ d.prefixBuffer.capacity = maxConfig ∧ d.prefixBuffer.moves = 0)
    ∧ ∀ values settings, d.auth.Carries values settings → ∃ b, d.configurationBuffer fs values = .ok b
      ∧ d.configuration fs values = .ok b.text ∧ b.longest ≤ maxConfig ∧ b.capacity = maxConfig
      ∧ b.moves = 0 := by
  obtain ⟨-, -, hauth, -⟩ := Destination.of_validate h
  have hlead := Buffer.prefixBuffer_text d
  have hgrows := Buffer.grows_prefixBuffer d
  have hsize : d.prefixBuffer.text.utf8ByteSize ≤ 14000 := by
    rw [hlead]
    exact configPrefix_size h
  have hroom : d.prefixBuffer.text.utf8ByteSize + 33000 ≤ maxConfig := by
    unfold maxConfig
    omega
  refine ⟨⟨hlead, ?_⟩, fun values settings hcarries => ?_⟩
  · obtain ⟨hcapacity, hmoves, hlongest⟩ := hgrows.of_withCapacity (by omega)
    exact ⟨hlongest, hcapacity, hmoves⟩
  · obtain ⟨b, hb, hgrows', htext⟩ := Buffer.appendAuth_carries d.prefixBuffer hauth hcarries hroom
    have hfits := (hcarries.size hauth htext).trans hroom
    obtain ⟨hcapacity, hmoves, hlongest⟩ := (hgrows.trans hgrows').of_withCapacity hfits
    refine ⟨b, ?_, ?_, hlongest, hcapacity, hmoves⟩
    · unfold Destination.configurationBuffer
      rw [h]
      exact hb
    · rw [configuration_eq_ok h]
      refine ⟨settings, hcarries, ?_⟩
      rw [htext, hlead, toList_configPrefix]
      exact List.flatMap_append.symm

end Fits

/-- A password of nothing but quotes, as long as it may be. -/
def quotedPassword : SecretInput :=
  ((∅ : SecretInput).insert .username "agent").insert .password (String.ofList (List.replicate 8192 '"'))

theorem configuration_fits_longest :
    ∃ b, reviews.configurationBuffer { euid := 0, metadata := fun _ => none } quotedPassword = .ok b
      ∧ b.longest ≤ maxConfig ∧ b.moves = 0 := by
  have hvalid : reviews.validate { euid := 0, metadata := fun _ => none } = .ok () := rfl
  have hsize : ∀ n, String.utf8Len (List.replicate n '"') = n := by
    intro n
    induction n with
    | zero => rfl
    | succ n ih =>
      rw [List.replicate_succ, String.utf8Len_cons, ih]
      rfl
  have hcontrol : isControl '"' = false := by decide
  have hquotes : ∀ n, n + 1 ≤ 8192 → validBasic (String.ofList (List.replicate (n + 1) '"')) = true := by
    intro n hn
    unfold validBasic maxCredential
    rw [String.utf8ByteSize_ofList, hsize, String.toList_ofList, List.any_replicate, hcontrol]
    simp [hn, List.replicate_succ]
  have hpassword := hquotes 8191 (le_refl _)
  obtain ⟨-, hfits⟩ := configuration_fits hvalid
  obtain ⟨b, hb, -, hlongest, -, hmoves⟩ := hfits quotedPassword _
    (.basic (by decide +kernel) rfl rfl (by decide +kernel) (by decide +kernel) hpassword)
  exact ⟨b, hb, hlongest, hmoves⟩

end Credman
