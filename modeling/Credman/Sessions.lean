import Credman.Policy
import Credman.Storage

/-! Private, bounded admission: a session is a revocable attachment, not authority. -/
namespace Credman

open Library

structure Sessions.Session where
  /-- The digest of the token, until the token is used. -/
  digest : Option Digest
  principal : String
  tasks : Finset Uuid
  expiresAt : Time
  deriving DecidableEq

structure Sessions where
  entries : OrdMap Uuid Sessions.Session
  owner : String
  workspace : String
  admin : String
  socket : Option String
  deadline : Time

abbrev SessionM := EStateM Error Sessions

/-- What the administrator hands to the agent. -/
structure SessionGrant where
  id : Uuid
  socket : String
  token : String
  expiresAt : Time
  deriving DecidableEq, Repr

def hexByte (b : UInt8) : List Char :=
  [Nat.digitChar (b.toNat / 16), Nat.digitChar (b.toNat % 16)]

def hexToken (random : Vector UInt8 32) : String := String.ofList (random.toList.flatMap hexByte)

/-- `is_ascii_hexdigit() && !is_ascii_uppercase()`. -/
def isLowerHex (b : UInt8) : Bool :=
  ((48 ≤ b && b ≤ 57) || (65 ≤ b && b ≤ 70) || (97 ≤ b && b ≤ 102)) && !(65 ≤ b && b ≤ 90)

/-- The fold over every byte; the source's arrays have one length by type. -/
def sameDigest (expected digest : Digest) : Bool :=
  expected.length == digest.length
    && (expected.zip digest).foldl (fun difference e => difference ||| (e.1 ^^^ e.2)) 0 == 0

/-- Comparing without stopping at the first difference is comparing. -/
theorem sameDigest_iff {expected digest : Digest} :
    sameDigest expected digest = true ↔ expected = digest := by
  have hfold : ∀ (l : List (UInt8 × UInt8)) (start : UInt8),
      l.foldl (fun difference e => difference ||| (e.1 ^^^ e.2)) start = 0
        ↔ start = 0 ∧ ∀ e ∈ l, e.1 = e.2 := by
    intro l
    induction l with
    | nil => simp
    | cons e l ih =>
      intro start
      rw [List.foldl_cons, ih, UInt8.or_eq_zero_iff, UInt8.xor_eq_zero_iff, List.forall_mem_cons,
        and_assoc]
  unfold sameDigest
  rw [Bool.and_eq_true, beq_iff_eq, beq_iff_eq, hfold]
  constructor
  · rintro ⟨hlength, -, hsame⟩
    apply List.ext_getElem hlength
    intro i h h'
    apply hsame (expected[i], digest[i])
    rw [List.mem_iff_getElem]
    exact ⟨i, by simpa using ⟨h, h'⟩, by simp⟩
  · intro h
    subst h
    refine ⟨rfl, rfl, fun e he => ?_⟩
    obtain ⟨i, hi, rfl⟩ := List.mem_iff_getElem.mp he
    simp

namespace Sessions

def capacity : Nat := 32
def maxTasks : Nat := 64

/-- The table an owner process starts with. -/
def new (owner workspace admin : String) (socket : Option String) (deadline : Time) : Sessions :=
  { entries := ∅, owner, workspace, admin, socket, deadline }

/-- `entries.retain(|_, s| s.expires_at > now)`. -/
def purged (s : Sessions) (now : Time) : Sessions :=
  { s with entries := s.entries.filter fun _ session => decide (now < session.expiresAt) }

def issue (P : Platform) (principal : String) (tasks : List Uuid) (expiresAt now : Time)
    (tasksValid : List Uuid → String → Except Error Unit) (random : Option (Vector UInt8 32))
    (id : Uuid) : SessionM SessionGrant := do
  modify fun s => s.purged now
  let s ← get
  let allowed := tasks.toFinset
  failIf (principal.toList.all isWhitespace = true ∨ tooLong principal = true
    ∨ principal = s.admin ∨ tasks = [] ∨ maxTasks < tasks.length
    ∨ allowed.card ≠ tasks.length ∨ 0 ∈ allowed ∨ expiresAt ≤ now ∨ s.deadline < expiresAt) .invalid
  MonadExcept.ofExcept (tasksValid tasks principal)
  let socket ← MonadExcept.ofExcept (orElse s.socket .interactionRequired)
  failIf (capacity ≤ s.entries.size) .capacity
  let bytes ← MonadExcept.ofExcept (orElse random .interactionRequired)
  let token := hexToken bytes
  let digest := P.sha256 token.toUTF8.toList
  modify fun s =>
    { s with entries :=
        s.entries.insert id { digest := some digest, principal, tasks := allowed, expiresAt } }
  pure { id, socket, token, expiresAt }

def revoke (id : Uuid) : SessionM Unit :=
  modify fun s => { s with entries := s.entries.erase id }

def live (s : Sessions) (id : Uuid) (now : Time) : Bool :=
  match s.entries.get? id with
  | some session => decide (now < session.expiresAt) && session.digest.isNone
  | none => false

def permits (s : Sessions) (id task : Uuid) (now : Time) : Bool :=
  s.live id now &&
    match s.entries.get? id with
    | some session => decide (task ∈ session.tasks)
    | none => false

/-- The first live entry, in key order, that waits for a token with this digest. -/
def awaiting (s : Sessions) (digest : Digest) (now : Time) : Option (Uuid × Session) :=
  s.entries.entries.find? fun e =>
    decide (now < e.2.expiresAt) && e.2.digest.any fun expected => sameDigest expected digest

def attach (P : Platform) (token : String) (now : Time) : SessionM (Uuid × AuthenticatedContext) := do
  failIf (token.utf8ByteSize ≠ 64 ∨ token.toUTF8.toList.all isLowerHex = false) .denied
  let s ← get
  let digest := P.sha256 token.toUTF8.toList
  let found ← MonadExcept.ofExcept (orElse (s.awaiting digest now) .denied)
  modify fun s =>
    { s with entries := s.entries.insert found.1 { found.2 with digest := none } }
  pure (found.1, .fromAuthenticatedSession s.owner found.2.principal s.workspace found.2.expiresAt)

section Rules

variable {σ α : Type} {e : Error} {fail : Error → σ → Prop} {s : σ}

theorem wp_refuse {c : Prop} [Decidable c] {post : Unit → σ → Prop} :
    wp (failIf (m := EStateM Error σ) c e) post fail s ↔ (c → fail e s) ∧ (¬ c → post () s) := by
  by_cases h : c <;> simp [failIf, h]

theorem wp_ofExcept {result : Except Error α} {post : α → σ → Prop} :
    wp (MonadExcept.ofExcept result : EStateM Error σ α) post fail s ↔
      (∀ a, result = .ok a → post a s) ∧ ∀ e, result = .error e → fail e s := by
  cases result <;> simp [MonadExcept.ofExcept]

end Rules

@[simp] theorem purged_get? (s : Sessions) (now : Time) (id : Uuid) :
    (s.purged now).entries.get? id = (s.entries.get? id).filter fun session => decide (now < session.expiresAt) :=
  OrdMap.get?_filter ..

/-- What an issued session was checked for. -/
structure Admitted (s : Sessions) (principal : String) (tasks : List Uuid) (expiresAt now : Time) :
    Prop where
  named : principal.toList.all isWhitespace = false
  short : tooLong principal = false
  worker : principal ≠ s.admin
  some : tasks ≠ []
  few : tasks.length ≤ maxTasks
  distinct : tasks.Nodup
  noNil : 0 ∉ tasks
  future : now < expiresAt
  within : expiresAt ≤ s.deadline
  room : (s.purged now).entries.size < capacity

section Specs

variable {P : Platform} {s : Sessions}

/-- An issue stores one fresh entry; a refused one only forgets what expired. -/
theorem wp_issue (principal : String) (tasks : List Uuid) (expiresAt now : Time)
    (tasksValid : List Uuid → String → Except Error Unit) (random : Option (Vector UInt8 32))
    (id : Uuid) :
    wp (issue P principal tasks expiresAt now tasksValid random id)
      (fun grant s' => Admitted s principal tasks expiresAt now
        ∧ tasksValid tasks principal = .ok ()
        ∧ ∃ bytes socket, random = some bytes ∧ s.socket = some socket
          ∧ grant = { id, socket, token := hexToken bytes, expiresAt }
          ∧ s' = { s with entries := (s.purged now).entries.insert id {
              digest := some (P.sha256 (hexToken bytes).toUTF8.toList), principal
              tasks := tasks.toFinset, expiresAt } })
      (fun _ s' => s' = s.purged now) s := by
  simp only [issue, wp_bind, wp_modify, wp_get, wp_refuse, wp_ofExcept, wp_pure, implies_true,
    and_true, true_and, orElse_eq_ok, not_or, not_le, not_lt]
  rintro ⟨hnamed, hshort, hworker, hsome, hfew, hdistinct, hnil, hfuture, hwithin⟩ ⟨⟩ hvalid socket
    hsocket hroom bytes hrandom
  refine ⟨⟨by simpa using hnamed, by simpa using hshort, hworker, hsome, hfew, ?_, ?_, hfuture,
    hwithin, hroom⟩, hvalid, bytes, socket, hrandom, hsocket, rfl, rfl⟩
  · have hcard : tasks.toFinset.card = tasks.length := Decidable.not_not.mp hdistinct
    exact Multiset.coe_nodup.mp (Multiset.toFinset_card_eq_card_iff_nodup.mp hcard)
  · simpa using hnil

theorem awaiting_some {digest : Digest} {now : Time} {id : Uuid} {session : Session}
    (h : s.awaiting digest now = some (id, session)) :
    s.entries.get? id = some session ∧ now < session.expiresAt ∧ session.digest = some digest := by
  have hmem := List.mem_of_find?_eq_some h
  have hfound := List.find?_some h
  rw [Bool.and_eq_true, decide_eq_true_eq, Option.any_eq_true] at hfound
  obtain ⟨hlive, expected, hexpected, hsame⟩ := hfound
  rw [sameDigest_iff] at hsame
  subst hsame
  exact ⟨OrdMap.mem_entries.mp hmem, hlive, hexpected⟩

/-- An attachment consumes the token of one live entry; a refused one changes nothing. -/
theorem wp_attach (token : String) (now : Time) :
    wp (attach P token now)
      (fun out s' => ∃ session, s.entries.get? out.1 = some session ∧ now < session.expiresAt
        ∧ session.digest = some (P.sha256 token.toUTF8.toList)
        ∧ out.2 = .fromAuthenticatedSession s.owner session.principal s.workspace session.expiresAt
        ∧ s' = { s with entries := s.entries.insert out.1 { session with digest := none } })
      (fun _ s' => s' = s) s := by
  simp only [attach, wp_bind, wp_refuse, wp_get, wp_ofExcept, wp_modify, wp_pure, implies_true,
    and_true, true_and, orElse_eq_ok]
  rintro _ ⟨id, session⟩ hawaiting
  obtain ⟨hsession, hlive, hdigest⟩ := awaiting_some hawaiting
  exact ⟨session, hsession, hlive, hdigest, rfl, rfl⟩

theorem live_iff {id : Uuid} {now : Time} :
    s.live id now = true ↔ ∃ session, s.entries.get? id = some session ∧ now < session.expiresAt
      ∧ session.digest = none := by
  unfold live
  cases s.entries.get? id <;> simp

theorem permits_iff {id task : Uuid} {now : Time} :
    s.permits id task now = true ↔ ∃ session, s.entries.get? id = some session
      ∧ now < session.expiresAt ∧ session.digest = none ∧ task ∈ session.tasks := by
  unfold permits
  rw [Bool.and_eq_true, live_iff]
  cases s.entries.get? id <;> simp [and_assoc]

end Specs

end Sessions

end Credman
