import Credman.Sessions
import Credman.Reference
import Credman.Library.Runs

/-! Issue, attachment and revocation in any order: what a session may still do
is read off the history of calls. -/
namespace Credman

open Library

inductive SessionCall where
  | issue (principal : String) (tasks : List Uuid) (expiresAt now : Time)
      (tasksValid : List Uuid → String → Except Error Unit) (random : Option (Vector UInt8 32))
      (id : Uuid)
  | attach (token : String) (now : Time)
  | revoke (id : Uuid)
  | live (id : Uuid) (now : Time)
  | permits (id task : Uuid) (now : Time)

inductive SessionReply where
  | issued (grant : SessionGrant)
  | attached (id : Uuid) (context : AuthenticatedContext)
  | revoked
  | answered (yes : Bool)
  | refused (e : Error)
  deriving DecidableEq

namespace Sessions

variable (P : Platform)

def serve : SessionCall → Sessions → SessionReply × Sessions
  | .issue principal tasks expiresAt now tasksValid random id, s =>
    match issue P principal tasks expiresAt now tasksValid random id s with
    | .ok grant s' => (.issued grant, s')
    | .error e s' => (.refused e, s')
  | .attach token now, s =>
    match attach P token now s with
    | .ok (id, context) s' => (.attached id context, s')
    | .error e s' => (.refused e, s')
  | .revoke id, s =>
    match revoke id s with
    | .ok _ s' => (.revoked, s')
    | .error e s' => (.refused e, s')
  | .live id now, s => (.answered (s.live id now), s)
  | .permits id task now, s => (.answered (s.permits id task now), s)

end Sessions

abbrev SessionEvent := SessionCall × SessionReply

/-- A session as it was issued. -/
structure Issuance where
  id : Uuid
  token : String
  principal : String
  tasks : List Uuid
  expiresAt : Time
  deriving DecidableEq, Repr

namespace SessionEvent

def issuance : SessionEvent → Option Issuance
  | (.issue principal tasks expiresAt _ _ _ _, .issued grant) =>
    some { id := grant.id, token := grant.token, principal, tasks, expiresAt }
  | _ => none

/-- The session and the token of a successful attachment. -/
def attachment : SessionEvent → Option (Uuid × String)
  | (.attach token _, .attached id _) => some (id, token)
  | _ => none

def revocation : SessionEvent → Option Uuid
  | (.revoke id, _) => some id
  | _ => none

def token (e : SessionEvent) : Option String := (issuance e).map (·.token)

end SessionEvent

open SessionEvent

variable {P : Platform} {history before : List SessionEvent} {e : SessionEvent} {i : Issuance}
  {s start : Sessions} {id : Uuid} {session : Sessions.Session}

/-- Issued, and since then neither revoked nor issued again under its identifier. -/
def Standing (history : List SessionEvent) (i : Issuance) : Prop :=
  ∃ before e since, history = before ++ e :: since ∧ issuance e = some i
    ∧ ∀ e' ∈ since, revocation e' ≠ some i.id ∧ ∀ i', issuance e' = some i' → i'.id ≠ i.id

def Attached (history : List SessionEvent) (i : Issuance) : Prop :=
  ∃ e ∈ history, attachment e = some (i.id, i.token)

/-- No session was attached with the token. -/
def Unused (history : List SessionEvent) (token : String) : Prop :=
  ∀ e ∈ history, ∀ id, attachment e ≠ some (id, token)

theorem Standing.mem (h : Standing history i) : ∃ e ∈ history, issuance e = some i := by
  obtain ⟨before, e, since, rfl, hissue, -⟩ := h
  exact ⟨e, by simp, hissue⟩

theorem Standing.last (h : issuance e = some i) : Standing (history ++ [e]) i :=
  ⟨history, e, [], rfl, h, by simp⟩

theorem Standing.later (h : Standing history i) (hrevoke : revocation e ≠ some i.id)
    (hissue : ∀ i', issuance e = some i' → i'.id ≠ i.id) : Standing (history ++ [e]) i := by
  obtain ⟨before, e', since, rfl, hissued, hsince⟩ := h
  refine ⟨before, e', since ++ [e], by simp, hissued, ?_⟩
  intro e'' he''
  rcases List.mem_append.mp he'' with hin | hlast
  · exact hsince e'' hin
  · rw [List.mem_singleton.mp hlast]
    exact ⟨hrevoke, hissue⟩

/-- An entry of the table is one standing session, waiting for its token or attached with it. -/
def Traced (P : Platform) (history : List SessionEvent) (id : Uuid) (session : Sessions.Session) :
    Prop :=
  ∃ i, Standing history i ∧ i.id = id ∧ session.principal = i.principal
    ∧ session.tasks = i.tasks.toFinset ∧ session.expiresAt = i.expiresAt
    ∧ (session.digest = some (P.sha256 i.token.toUTF8.toList) ∧ Unused history i.token
      ∨ session.digest = none ∧ Attached history i)

theorem Traced.later (h : Traced P history id session) (hrevoke : revocation e ≠ some id)
    (hissue : ∀ i, issuance e = some i → i.id ≠ id)
    (hattach : ∀ id' token, attachment e = some (id', token) →
      session.digest ≠ some (P.sha256 token.toUTF8.toList)) : Traced P (history ++ [e]) id session := by
  obtain ⟨i, hstanding, rfl, hprincipal, htasks, hexpires, hstate⟩ := h
  refine ⟨i, hstanding.later hrevoke hissue, rfl, hprincipal, htasks, hexpires, ?_⟩
  rcases hstate with ⟨hdigest, hunused⟩ | ⟨hdigest, e', he', hattached⟩
  · refine .inl ⟨hdigest, ?_⟩
    intro e' he' id' hattached
    rcases List.mem_append.mp he' with hin | hlast
    · exact hunused e' hin id' hattached
    · rw [List.mem_singleton.mp hlast] at hattached
      exact hattach id' i.token hattached hdigest
  · exact .inr ⟨hdigest, e', List.mem_append_left _ he', hattached⟩

/-- The table of an owner process agrees with the calls made to it. -/
structure Consistent (P : Platform) (start : Sessions) (history : List SessionEvent) (s : Sessions) :
    Prop where
  frame : s = { start with entries := s.entries }
  traced : ∀ id session, s.entries.get? id = some session → Traced P history id session
  attached : ∀ e ∈ history, ∀ id token, attachment e = some (id, token) →
    ∃ e' ∈ history, SessionEvent.token e' = some token
  proper : ∀ e ∈ history, ∀ i, issuance e = some i →
    i.principal ≠ start.admin ∧ i.tasks.Nodup ∧ 0 ∉ i.tasks ∧ i.expiresAt ≤ start.deadline
  room : s.entries.size ≤ Sessions.capacity

theorem nodup_before {since : List SessionEvent}
    (h : ((history ++ since).filterMap SessionEvent.token).Nodup) :
    (history.filterMap SessionEvent.token).Nodup := by
  rw [List.filterMap_append] at h
  exact (List.nodup_append.mp h).1

namespace Consistent

variable {s' : Sessions}

theorem new {owner workspace admin : String} {socket : Option String} {deadline : Time} :
    Consistent P (.new owner workspace admin socket deadline) []
      (.new owner workspace admin socket deadline) where
  frame := rfl
  traced _ _ h := by cases h
  attached := by simp
  proper := by simp
  room := Nat.zero_le _

/-- A call that issues and attaches nothing keeps the agreement, whatever it removes. -/
theorem kept (h : Consistent P start history s) (hissue : issuance e = none)
    (hattach : attachment e = none) (hframe : s' = { s with entries := s'.entries })
    (hsub : ∀ id session, s'.entries.get? id = some session →
      s.entries.get? id = some session ∧ revocation e ≠ some id) :
    Consistent P start (history ++ [e]) s' where
  frame := by rw [hframe, h.frame]
  traced id session hs' := by
    obtain ⟨hs, hrevoke⟩ := hsub id session hs'
    exact (h.traced id session hs).later hrevoke (by simp [hissue]) (by simp [hattach])
  attached e' he' id token hattached := by
    rcases List.mem_append.mp he' with hin | hlast
    · obtain ⟨e'', hin', htoken⟩ := h.attached e' hin id token hattached
      exact ⟨e'', List.mem_append_left _ hin', htoken⟩
    · rw [List.mem_singleton.mp hlast, hattach] at hattached
      cases hattached
  proper e' he' i hi := by
    rcases List.mem_append.mp he' with hin | hlast
    · exact h.proper e' hin i hi
    · rw [List.mem_singleton.mp hlast, hissue] at hi
      cases hi
  room := by
    apply le_trans _ h.room
    exact OrdMap.size_le_of_keys fun id session hs' => ⟨session, (hsub id session hs').1⟩

/-- Forgetting what expired is nothing the history shows. -/
theorem purged (h : Consistent P start history s) (now : Time) :
    Consistent P start history (s.purged now) where
  frame := by rw [Sessions.purged, h.frame]
  traced id session hs' := by
    rw [Sessions.purged_get?, Option.filter_eq_some_iff] at hs'
    exact h.traced id session hs'.1
  attached := h.attached
  proper := h.proper
  room := le_trans (OrdMap.size_filter_le _ _) h.room

theorem issued (h : Consistent P start history s)
    (htokens : ((history ++ [e]).filterMap SessionEvent.token).Nodup) (hissue : issuance e = some i)
    (hattach : attachment e = none) (hrevoke : revocation e = none)
    (hproper : i.principal ≠ start.admin ∧ i.tasks.Nodup ∧ 0 ∉ i.tasks ∧ i.expiresAt ≤ start.deadline)
    (hroom : s.entries.size < Sessions.capacity) :
    Consistent P start (history ++ [e]) { s with entries := s.entries.insert i.id {
      digest := some (P.sha256 i.token.toUTF8.toList), principal := i.principal
      tasks := i.tasks.toFinset, expiresAt := i.expiresAt } } where
  frame := by rw [h.frame]
  traced id session hs' := by
    have htoken : SessionEvent.token e = some i.token := by simp [SessionEvent.token, hissue]
    rw [OrdMap.get?_insert] at hs'
    split at hs'
    case isTrue hid =>
      cases hs'
      refine ⟨i, .last hissue, hid, rfl, rfl, rfl, .inl ⟨rfl, ?_⟩⟩
      -- an earlier attachment with this token would follow an earlier issue of it
      intro e' he' id' hattached
      rcases List.mem_append.mp he' with hin | hlast
      · obtain ⟨e'', hin', htoken'⟩ := h.attached e' hin id' i.token hattached
        rw [List.filterMap_append, List.nodup_append] at htokens
        have hlater : i.token ∈ [e].filterMap SessionEvent.token := by simp [htoken]
        exact htokens.2.2 i.token (List.mem_filterMap.mpr ⟨e'', hin', htoken'⟩) i.token hlater rfl
      · rw [List.mem_singleton.mp hlast, hattach] at hattached
        cases hattached
    case isFalse hid =>
      apply (h.traced id session hs').later
      · simp [hrevoke]
      · intro i' hi'
        rw [hissue] at hi'
        cases hi'
        exact hid
      · simp [hattach]
  attached e' he' id token hattached := by
    rcases List.mem_append.mp he' with hin | hlast
    · obtain ⟨e'', hin', htoken⟩ := h.attached e' hin id token hattached
      exact ⟨e'', List.mem_append_left _ hin', htoken⟩
    · rw [List.mem_singleton.mp hlast, hattach] at hattached
      cases hattached
  proper e' he' i' hi' := by
    rcases List.mem_append.mp he' with hin | hlast
    · exact h.proper e' hin i' hi'
    · rw [List.mem_singleton.mp hlast, hissue] at hi'
      cases hi'
      exact hproper
  room := le_trans (OrdMap.size_insert_le _ _ _) hroom

theorem attachedBy (h : Consistent P start history s) (hsha : Function.Injective P.sha256)
    (htokens : (history.filterMap SessionEvent.token).Nodup) {token : String}
    (hsession : s.entries.get? id = some session)
    (hdigest : session.digest = some (P.sha256 token.toUTF8.toList))
    (hattach : attachment e = some (id, token)) (hissue : issuance e = none)
    (hrevoke : revocation e = none) :
    Consistent P start (history ++ [e])
      { s with entries := s.entries.insert id { session with digest := none } } := by
  have heq : ∀ other : String, P.sha256 token.toUTF8.toList = P.sha256 other.toUTF8.toList →
      token = other := fun _ hsame => Word.toUTF8_injective (hsha hsame)
  obtain ⟨i, hstanding, rfl, hprincipal, htasks, hexpires, ⟨hwaits, hunused⟩ | ⟨hnone, -⟩⟩ :=
    h.traced id session hsession
  case inr => simp [hnone] at hdigest
  obtain rfl : token = i.token := heq _ (Option.some.inj (hdigest.symm.trans hwaits))
  obtain ⟨eᵢ, hin, hissued⟩ := hstanding.mem
  have htoken : SessionEvent.token eᵢ = some i.token := by simp [SessionEvent.token, hissued]
  exact {
    frame := by rw [h.frame]
    traced := by
      intro id session' hs'
      rw [OrdMap.get?_insert] at hs'
      split at hs'
      case isTrue hid =>
        cases hs'
        refine ⟨i, hstanding.later (by simp [hrevoke]) (by simp [hissue]), hid, hprincipal, htasks,
          hexpires, .inr ⟨rfl, e, by simp, hattach⟩⟩
      case isFalse hid =>
        have htraced := h.traced id session' hs'
        apply htraced.later (by simp [hrevoke]) (by simp [hissue])
        intro id' token' hattach' hdigest'
        rw [hattach] at hattach'
        cases hattach'
        -- an entry waiting for the same token comes from the same issue
        obtain ⟨i', hstanding', hid', -, -, -, ⟨hwaits', -⟩ | ⟨hnone, -⟩⟩ := htraced
        · have hsame := heq _ (Option.some.inj (hdigest'.symm.trans hwaits'))
          obtain ⟨e', hin', hissued'⟩ := hstanding'.mem
          have htoken' : SessionEvent.token e' = some i.token := by
            simp [SessionEvent.token, hissued', hsame]
          have hevent := eq_of_nodup_filterMap htokens hin hin' htoken htoken'
          rw [hevent, hissued'] at hissued
          exact hid ((congrArg Issuance.id (Option.some.inj hissued)).symm.trans hid')
        · simp [hnone] at hdigest'
    attached := by
      intro e' he' id' token' hattached
      rcases List.mem_append.mp he' with hin' | hlast
      · obtain ⟨e'', hin'', htoken'⟩ := h.attached e' hin' id' token' hattached
        exact ⟨e'', List.mem_append_left _ hin'', htoken'⟩
      · rw [List.mem_singleton.mp hlast, hattach] at hattached
        cases hattached
        exact ⟨eᵢ, List.mem_append_left _ hin, htoken⟩
    proper := by
      intro e' he' i' hi'
      rcases List.mem_append.mp he' with hin' | hlast
      · exact h.proper e' hin' i' hi'
      · rw [List.mem_singleton.mp hlast, hissue] at hi'
        cases hi'
    room := by
      change (s.entries.insert i.id _).size ≤ _
      rw [OrdMap.size_insert_of_some hsession]
      exact h.room }

/-- The token an entry waits for was never used. -/
theorem unused (h : Consistent P start history s) (hsha : Function.Injective P.sha256) {token : String}
    (hsession : s.entries.get? id = some session)
    (hdigest : session.digest = some (P.sha256 token.toUTF8.toList)) : Unused history token := by
  obtain ⟨i, -, -, -, -, -, ⟨hwaits, hunused⟩ | ⟨hnone, -⟩⟩ := h.traced id session hsession
  · have hsame : token = i.token :=
      Word.toUTF8_injective (hsha (Option.some.inj (hdigest.symm.trans hwaits)))
    rw [hsame]
    exact hunused
  · simp [hnone] at hdigest

/-- One call keeps the agreement, and attaches with an unused token only. -/
theorem served (h : Consistent P start history s) (hsha : Function.Injective P.sha256) {c : SessionCall}
    (htokens : ((history ++ [(c, (Sessions.serve P c s).1)]).filterMap SessionEvent.token).Nodup) :
    Consistent P start (history ++ [(c, (Sessions.serve P c s).1)]) (Sessions.serve P c s).2
      ∧ ∀ id token, attachment (c, (Sessions.serve P c s).1) = some (id, token) →
        Unused history token := by
  have hadmin : s.admin = start.admin := by rw [h.frame]
  have hdeadline : s.deadline = start.deadline := by rw [h.frame]
  have hbefore := nodup_before htokens
  cases c with
  | issue principal tasks expiresAt now tasksValid random id =>
    have hspec := Sessions.wp_issue (P := P) (s := s) principal tasks expiresAt now tasksValid random id
    simp only [Sessions.serve] at htokens ⊢
    cases hres : Sessions.issue P principal tasks expiresAt now tasksValid random id s with
    | error e s' =>
      obtain rfl := wp_error hspec hres
      exact ⟨(h.purged now).kept rfl rfl rfl fun _ _ hs => ⟨hs, by simp [revocation]⟩,
        by simp [attachment]⟩
    | ok grant s' =>
      obtain ⟨hadmitted, -, bytes, socket, -, -, rfl, rfl⟩ := wp_ok hspec hres
      rw [hres] at htokens
      refine ⟨?_, by simp [attachment]⟩
      exact (h.purged now).issued htokens
        (i := { id, token := hexToken bytes, principal, tasks, expiresAt }) rfl rfl rfl
        ⟨hadmin ▸ hadmitted.worker, hadmitted.distinct, hadmitted.noNil, hdeadline ▸ hadmitted.within⟩
        hadmitted.room
  | attach token now =>
    have hspec := Sessions.wp_attach (P := P) (s := s) token now
    simp only [Sessions.serve] at htokens ⊢
    cases hres : Sessions.attach P token now s with
    | error e s' =>
      obtain rfl := wp_error hspec hres
      exact ⟨h.kept rfl rfl rfl fun _ _ hs => ⟨hs, by simp [revocation]⟩, by simp [attachment]⟩
    | ok out s' =>
      obtain ⟨session, hsession, -, hdigest, -, rfl⟩ := wp_ok hspec hres
      refine ⟨h.attachedBy hsha hbefore hsession hdigest rfl rfl rfl, ?_⟩
      intro id token' hattached
      cases hattached
      exact h.unused hsha hsession hdigest
  | revoke id =>
    refine ⟨h.kept rfl rfl rfl ?_, by simp [attachment]⟩
    intro id' session hs'
    change (s.entries.erase id).get? id' = some session at hs'
    rw [OrdMap.get?_erase] at hs'
    split at hs'
    case isTrue => cases hs'
    case isFalse hid => exact ⟨hs', by simpa [revocation] using hid⟩
  | live id now =>
    exact ⟨h.kept rfl rfl rfl fun _ _ hs => ⟨hs, by simp [revocation]⟩,
      by simp [attachment]⟩
  | permits id task now =>
    exact ⟨h.kept rfl rfl rfl fun _ _ hs => ⟨hs, by simp [revocation]⟩,
      by simp [attachment]⟩

end Consistent

section Runs

variable {owner workspace admin : String} {socket : Option String} {deadline : Time}

theorem Consistent.of_ran (hsha : Function.Injective P.sha256)
    (h : Ran (Sessions.serve P) (.new owner workspace admin socket deadline) history s)
    (htokens : (history.filterMap SessionEvent.token).Nodup) :
    Consistent P (.new owner workspace admin socket deadline) history s := by
  refine h.invariant (I := fun history s => (history.filterMap SessionEvent.token).Nodup →
    Consistent P (.new owner workspace admin socket deadline) history s) ?_ ?_ htokens
  · exact fun _ => .new
  · exact fun history s _ ih c htokens => ((ih (nodup_before htokens)).served hsha htokens).1

/-- How often a token was used. -/
def uses (history : List SessionEvent) (token : String) : Nat :=
  history.countP fun e => decide ((attachment e).map Prod.snd = some token)

theorem uses_of_unused {token : String} (h : Unused history token) : uses history token = 0 := by
  unfold uses
  rw [List.countP_eq_zero]
  intro e he
  rw [decide_eq_true_eq, Option.map_eq_some_iff]
  rintro ⟨⟨id, _⟩, hattached, rfl⟩
  exact h e he id hattached

theorem uses_le_one (hsha : Function.Injective P.sha256)
    (h : Ran (Sessions.serve P) (.new owner workspace admin socket deadline) history s)
    (htokens : (history.filterMap SessionEvent.token).Nodup) (token : String) :
    uses history token ≤ 1 := by
  refine h.invariant (I := fun history _ => (history.filterMap SessionEvent.token).Nodup →
    uses history token ≤ 1) ?_ ?_ htokens
  · exact fun _ => Nat.zero_le 1
  · intro history s hran ih c htokens
    have hbefore := nodup_before htokens
    have hserved := (Consistent.of_ran hsha hran hbefore).served hsha htokens
    have hsplit : uses (history ++ [(c, (Sessions.serve P c s).1)]) token
        = uses history token + uses [(c, (Sessions.serve P c s).1)] token := List.countP_append
    have hlast : uses [(c, (Sessions.serve P c s).1)] token ≤ 1 := List.countP_le_length
    by_cases hused : (attachment (c, (Sessions.serve P c s).1)).map Prod.snd = some token
    · obtain ⟨⟨id, _⟩, hattached, rfl⟩ := Option.map_eq_some_iff.mp hused
      rw [hsplit, uses_of_unused (hserved.2 id _ hattached)]
      omega
    · have hnone : uses [(c, (Sessions.serve P c s).1)] token = 0 := by simp [uses, hused]
      rw [hsplit, hnone]
      exact ih hbefore

/-- What any history of calls on a fresh table amounts to. -/
structure OneUse (P : Platform) (owner workspace admin : String) (deadline : Time)
    (history : List SessionEvent) (s : Sessions) : Prop where
  once : ∀ token, uses history token ≤ 1
  attached : ∀ before since token now id context,
    history = before ++ (.attach token now, .attached id context) :: since →
    ∃ i, Standing before i ∧ i.id = id ∧ i.token = token ∧ now < i.expiresAt
      ∧ context = .fromAuthenticatedSession owner i.principal workspace i.expiresAt
  live : ∀ before since id now,
    history = before ++ (.live id now, .answered true) :: since →
    ∃ i, Standing before i ∧ i.id = id ∧ Attached before i ∧ now < i.expiresAt
  permitted : ∀ before since id task now,
    history = before ++ (.permits id task now, .answered true) :: since →
    ∃ i, Standing before i ∧ i.id = id ∧ Attached before i ∧ now < i.expiresAt ∧ task ∈ i.tasks
  issued : ∀ e ∈ history, ∀ i, issuance e = some i →
    i.principal ≠ admin ∧ i.tasks.Nodup ∧ 0 ∉ i.tasks ∧ i.expiresAt ≤ deadline
  bounded : ∀ id session, s.entries.get? id = some session →
    session.principal ≠ admin ∧ 0 ∉ session.tasks ∧ session.expiresAt ≤ deadline
      ∧ ∃ i, Standing history i ∧ i.id = id ∧ session.tasks = i.tasks.toFinset
  room : s.entries.size ≤ 32
  refusedIssue : ∀ principal tasks expiresAt now tasksValid random id e s',
    Sessions.issue P principal tasks expiresAt now tasksValid random id s = .error e s' →
    s' = { s with entries := s.entries.filter fun _ session => decide (now < session.expiresAt) }
  refusedAttach : ∀ token now e s', Sessions.attach P token now s = .error e s' → s' = s

/-- A token attaches one session once, within what it was issued for. -/
theorem attachment_oneUse (hsha : Function.Injective P.sha256)
    (h : Ran (Sessions.serve P) (.new owner workspace admin socket deadline) history s)
    (htokens : (history.filterMap SessionEvent.token).Nodup) :
    OneUse P owner workspace admin deadline history s := by
  have hall := Consistent.of_ran hsha h htokens
  have hmid : ∀ before e since, history = before ++ e :: since → ∃ mid,
      e.2 = (Sessions.serve P e.1 mid).1
        ∧ Consistent P (.new owner workspace admin socket deadline) before mid := by
    intro before e since hhistory
    subst hhistory
    obtain ⟨mid, hran, hreply⟩ := h.answered
    exact ⟨mid, hreply, .of_ran hsha hran (nodup_before htokens)⟩
  exact {
    once := uses_le_one hsha h htokens
    attached := by
      intro before since token now id context hhistory
      obtain ⟨mid, hreply, hbefore⟩ := hmid _ _ _ hhistory
      have hspec := Sessions.wp_attach (P := P) (s := mid) token now
      simp only [Sessions.serve] at hreply
      cases hres : Sessions.attach P token now mid with
      | error e s' => simp [hres] at hreply
      | ok out s' =>
        obtain ⟨session, hsession, hlive, hdigest, hcontext, -⟩ := wp_ok hspec hres
        rw [hres] at hreply
        cases hreply
        obtain ⟨i, hstanding, hid, hprincipal, -, hexpires, ⟨hwaits, -⟩ | ⟨hnone, -⟩⟩ :=
          hbefore.traced _ _ hsession
        case inr => simp [hnone] at hdigest
        refine ⟨i, hstanding, hid, ?_, hexpires ▸ hlive, ?_⟩
        · exact Word.toUTF8_injective (hsha (Option.some.inj (hwaits.symm.trans hdigest)))
        · rw [hcontext, hbefore.frame, hprincipal, hexpires]
          rfl
    live := by
      intro before since id now hhistory
      obtain ⟨mid, hreply, hbefore⟩ := hmid _ _ _ hhistory
      simp only [Sessions.serve, SessionReply.answered.injEq] at hreply
      obtain ⟨session, hsession, hlive, hdigest⟩ := Sessions.live_iff.mp hreply.symm
      obtain ⟨i, hstanding, hid, -, -, hexpires, ⟨hwaits, -⟩ | ⟨-, hattached⟩⟩ :=
        hbefore.traced _ _ hsession
      · simp [hdigest] at hwaits
      · exact ⟨i, hstanding, hid, hattached, hexpires ▸ hlive⟩
    permitted := by
      intro before since id task now hhistory
      obtain ⟨mid, hreply, hbefore⟩ := hmid _ _ _ hhistory
      simp only [Sessions.serve, SessionReply.answered.injEq] at hreply
      obtain ⟨session, hsession, hlive, hdigest, htask⟩ := Sessions.permits_iff.mp hreply.symm
      obtain ⟨i, hstanding, hid, -, htasks, hexpires, ⟨hwaits, -⟩ | ⟨-, hattached⟩⟩ :=
        hbefore.traced _ _ hsession
      · simp [hdigest] at hwaits
      · rw [htasks, List.mem_toFinset] at htask
        exact ⟨i, hstanding, hid, hattached, hexpires ▸ hlive, htask⟩
    issued := hall.proper
    bounded := by
      intro id session hsession
      obtain ⟨i, hstanding, hid, hprincipal, htasks, hexpires, -⟩ := hall.traced id session hsession
      obtain ⟨e, he, hissue⟩ := hstanding.mem
      obtain ⟨hworker, -, hnil, hwithin⟩ := hall.proper e he i hissue
      refine ⟨hprincipal ▸ hworker, ?_, hexpires ▸ hwithin, i, hstanding, hid, htasks⟩
      rw [htasks, List.mem_toFinset]
      exact hnil
    room := hall.room
    refusedIssue := by
      intro principal tasks expiresAt now tasksValid random id e s' hres
      have hspec := Sessions.wp_issue (P := P) (s := s) principal tasks expiresAt now tasksValid random id
      have hpurged := wp_error hspec hres
      exact hpurged
    refusedAttach := by
      intro token now e s' hres
      have hspec := Sessions.wp_attach (P := P) (s := s) token now
      have hsame := wp_error hspec hres
      exact hsame }

def aliceToken : String := hexToken (Vector.replicate 32 0xa7)

/-- Alice's supervisor attaches, tries its token again, and is revoked. -/
def aliceCalls : List SessionCall :=
  [.issue "alice" [1, 2] 200 100 (fun _ _ => .ok ()) (some (.replicate 32 0xa7)) 7,
    .issue "human" [1] 200 100 (fun _ _ => .ok ()) (some (.replicate 32 0xb8)) 8,
    .attach aliceToken 120, .attach aliceToken 121, .permits 7 2 130, .permits 7 3 130,
    .revoke 7, .live 7 131]

def aliceHistory : List SessionEvent :=
  (Ran.play (Sessions.serve .reference) (.new "owner" "home" "human" (some "/bridge.sock") 400)
    aliceCalls).1

def aliceSessions : Sessions :=
  (Ran.play (Sessions.serve .reference) (.new "owner" "home" "human" (some "/bridge.sock") 400)
    aliceCalls).2

theorem attachment_oneUse_alice :
    OneUse .reference "owner" "home" "human" 400 aliceHistory aliceSessions
      ∧ aliceHistory.map Prod.snd = [
        .issued { id := 7, socket := "/bridge.sock", token := aliceToken, expiresAt := 200 },
        .refused .invalid, .attached 7 (.fromAuthenticatedSession "owner" "alice" "home" 200),
        .refused .denied, .answered true, .answered false, .revoked, .answered false] := by
  have hsha : Function.Injective Platform.reference.sha256 := fun _ _ h => h
  have htokens : (aliceHistory.filterMap SessionEvent.token).Nodup := by decide +kernel
  exact ⟨attachment_oneUse hsha (Ran.of_play aliceCalls) htokens, by decide +kernel⟩

end Runs

end Credman
