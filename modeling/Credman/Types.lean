import Credman.Library.OrdMap
import Mathlib.Algebra.Group.Int.Defs
import Mathlib.Data.Finset.Basic
import Mathlib.Data.Prod.Lex
import Mathlib.Data.String.Basic

/-! The data model of the agent vault: approvals, records, grants, receipts,
deliveries and the staging application that holds them. -/
namespace Credman

open Library

/-- Identifiers are only compared, ordered and tested for nil. -/
abbrev Uuid := Nat

def Uuid.isNil (id : Uuid) : Bool := id == 0

/-- Seconds, an `i64` in the source. -/
abbrev Time := Int

def Time.min : Time := -(2 ^ 63)
def Time.max : Time := 2 ^ 63 - 1

/-- `i64::saturating_sub`. -/
def Time.saturatingSub (a b : Time) : Time := Max.max Time.min (Min.min (a - b) Time.max)

/-- Backward steps at or below this many seconds do not freeze the vault. -/
def clockSkewTolerance : Time := 5

/-- Byte strings stand for `[u8; 32]` digests, so an injective hash exists. -/
abbrev Digest := List UInt8

/-- `u64::MAX`. -/
abbrev maxU64 : UInt64 := 18446744073709551615

inductive Field where
  | label | username | password | apiKey | notes
  deriving DecidableEq, Repr

instance : LinearOrder Field :=
  LinearOrder.lift' Field.ctorIdx (by intro a b h; cases a <;> cases b <;> first | rfl | cases h)

inductive Permission where
  | metadataRead | secretUse | secretRead | secretWrite | accessGrant | entryDelete
  deriving DecidableEq, Repr

abbrev Fields := Finset Field
abbrev Permissions := Finset Permission

def Field.secret : Field → Bool
  | .password | .apiKey => true
  | _ => false

/-- The fields of a set in `BTreeSet` iteration order. -/
def Fields.ordered (fields : Fields) : List Field :=
  [Field.label, .username, .password, .apiKey, .notes].filter (· ∈ fields)

theorem Fields.mem_ordered {fields : Fields} {field : Field} :
    field ∈ fields.ordered ↔ field ∈ fields := by
  cases field <;> simp [Fields.ordered]

/-- Never built from an agent request: identity comes from the transport. -/
structure AuthenticatedContext where
  owner : String
  principal : String
  workspace : String
  admin : Bool
  sessionDeadline : Option Time
  deriving DecidableEq, Repr

namespace AuthenticatedContext

def fromAuthenticatedPeer (owner principal workspace : String) : AuthenticatedContext :=
  { owner, principal, workspace, admin := false, sessionDeadline := none }

def fromAuthenticatedSession (owner principal workspace : String) (deadline : Time) :
    AuthenticatedContext :=
  { owner, principal, workspace, admin := false, sessionDeadline := some deadline }

def fromAuthenticatedAdmin (owner principal workspace : String) : AuthenticatedContext :=
  { owner, principal, workspace, admin := true, sessionDeadline := none }

end AuthenticatedContext

structure ShareBounds where
  recipients : Finset String
  fields : Fields
  permissions : Permissions
  destinations : Finset String
  expiresAt : Time
  allowFollowActive : Bool
  deriving DecidableEq

structure TaskApproval where
  id : Uuid
  owner : String
  principal : String
  workspace : String
  service : String
  origin : String
  fields : Fields
  permissions : Permissions
  destinations : Finset String
  expiresAt : Time
  share : Option ShareBounds
  deriving DecidableEq

abbrev SecretInput := OrdMap Field String

namespace SecretInput

def metadataOnly (values : SecretInput) : Bool := values.all fun field _ => !field.secret

def changesCredential (values : SecretInput) : Bool :=
  values.any fun field _ => field.secret || field == .username

def fields (values : SecretInput) : Fields := values.keySet

def valid (values : SecretInput) : Bool :=
  !values.isEmpty && decide (values.size ≤ 5)
    && values.all fun field value =>
      decide (value.utf8ByteSize ≤ 8192) && (!field.secret || value != "")

/-- `BTreeMap::extend`: later values replace earlier ones. -/
def extend (values extra : SecretInput) : SecretInput :=
  extra.entries.foldl (fun acc entry => acc.insert entry.1 entry.2) values

end SecretInput

inductive CredentialKind where
  | login | apiKey
  deriving DecidableEq, Repr

inductive SignupState where
  | pending | submitted | reportedSuccess | verifiedLogin | rejected | humanRequired | unknown
  deriving DecidableEq, Repr

structure Record where
  id : Uuid
  owner : String
  workspace : String
  createdBy : String
  task : Uuid
  service : String
  origin : String
  kind : CredentialKind
  revision : UInt64
  secretVersion : UInt64
  values : SecretInput
  signup : SignupState
  deleted : Bool
  restored : Bool
  deriving DecidableEq

structure GrantSpec where
  recipient : String
  fields : Fields
  permissions : Permissions
  destinations : Finset String
  expiresAt : Time
  /-- Later secret versions stay authorized; a pinned grant matches one version. -/
  followActive : Bool
  deriving DecidableEq

structure Grant where
  record : Uuid
  spec : GrantSpec
  revoked : Bool
  version : UInt64
  issuerTask : Uuid
  adminIssued : Bool
  deriving DecidableEq

structure GenerationPolicy where
  length : UInt8
  symbols : Bool
  requireClasses : Bool
  deriving DecidableEq, Repr

def GenerationPolicy.valid (policy : GenerationPolicy) : Bool :=
  decide (16 ≤ policy.length.toNat) && decide (policy.length.toNat ≤ 128)

inductive Mutation where
  | create (kind : CredentialKind) (values : SecretInput)
  | generate (kind : CredentialKind) (username : Option String) (policy : Option GenerationPolicy)
  | patch (record : Uuid) (expected : UInt64) (values : SecretInput)
  | delete (record : Uuid) (expected : UInt64)
  | share (record : Uuid) (expected : UInt64) (grant : GrantSpec)
  | revoke (record : Uuid) (expected : UInt64) (grant : Uuid)
  | reportOutcome (record : Uuid) (expected : UInt64) (state : SignupState)
  deriving DecidableEq

structure Receipt where
  record : Uuid
  revision : UInt64
  grant : Option Uuid
  deriving DecidableEq, Repr

structure MetadataView where
  revision : UInt64
  signup : SignupState
  fields : OrdMap Field String
  deriving DecidableEq

inductive Error where
  | denied | invalid | conflict | replayConflict | clockRecoveryRequired | capacity
  | interactionRequired | generationUnavailable | notPublished | recoveryRequired
  | invalidStorage | inUse
  deriving DecidableEq, Repr

inductive DeliveryStatus where
  | accepted | rejected | humanRequired | unknown
  deriving DecidableEq, Repr

inductive PrivateAction where
  | use | register | login
  deriving DecidableEq, Repr

structure PrivateUse where
  request : Uuid
  record : Uuid
  fields : Fields
  destination : String
  action : PrivateAction
  deriving DecidableEq

structure DeliveryReceipt where
  attempt : Uuid
  status : DeliveryStatus
  deriving DecidableEq, Repr

structure RequestKey where
  owner : String
  principal : String
  task : Uuid
  id : Uuid
  deriving DecidableEq, Repr

/-- The derived order compares the fields in turn. -/
instance : LinearOrder RequestKey :=
  LinearOrder.lift' (β := String ×ₗ String ×ₗ Uuid ×ₗ Uuid)
    (fun key => toLex (key.owner, toLex (key.principal, toLex (key.task, key.id)))) (by
      rintro ⟨o, p, t, i⟩ ⟨o', p', t', i'⟩ h
      simp only [EmbeddingLike.apply_eq_iff_eq, Prod.mk.injEq] at h
      obtain ⟨rfl, rfl, rfl, rfl⟩ := h
      rfl)

inductive CachedKind where
  | create | patch | metadataPatch | delete | share | revoke | reportOutcome
  deriving DecidableEq, Repr

structure Remembered where
  fingerprint : Digest
  result : Receipt
  kind : CachedKind
  /-- `at`: the vault clock when the receipt was stored. -/
  storedAt : Option Time
  deriving DecidableEq, Repr

/-- Revisions `1..=through` have no cached receipt; `secretVersion` is the
value version after that prefix. -/
structure RecordBaseline where
  through : UInt64 := 0
  secretVersion : UInt64 := 0
  deletePruned : Bool := false
  prunedGrants : List Uuid := []
  registrationDispatched : Bool := false
  verifiedLogin : Bool := false
  deriving DecidableEq, Repr

structure DeliveryAttempt where
  task : Uuid
  record : Uuid
  version : UInt64
  destination : String
  fields : Fields
  status : Option DeliveryStatus
  key : RequestKey
  fingerprint : Digest
  action : PrivateAction
  dispatched : Bool
  /-- `at`: the vault clock when the attempt was stored. -/
  storedAt : Option Time
  deriving DecidableEq

inductive AuditAction where
  | mutation | metadataRead | secretRead | secretUse
  deriving DecidableEq, Repr

structure AuditEvent where
  task : Uuid
  record : Uuid
  request : Option Uuid
  action : AuditAction
  loggedAt : Time
  principal : String
  deriving DecidableEq, Repr

/-- Private staging state; only the durable owner reaches it. -/
structure Application where
  tasks : OrdMap Uuid TaskApproval := ∅
  records : OrdMap Uuid Record := ∅
  grants : OrdMap Uuid Grant := ∅
  requests : OrdMap RequestKey Remembered := ∅
  audit : List AuditEvent := []
  lastTime : Option Time := none
  clockFrozen : Bool := false
  generation : UInt64 := 0
  revokedTasks : Finset Uuid := ∅
  deliveries : OrdMap Uuid DeliveryAttempt := ∅
  baselines : OrdMap Uuid RecordBaseline := ∅
  /-- Digest of the image this snapshot replaced when it was re-keyed. -/
  predecessor : Option Digest := none
  deriving DecidableEq

/-- The serialized form of an application: maps as pair lists, in key order. -/
structure SnapshotOf (R : Type) where
  schema : UInt32
  generation : UInt64
  tasks : List TaskApproval
  records : List R
  grants : List (Uuid × Grant)
  requests : List (RequestKey × Remembered)
  revokedTasks : List Uuid
  deliveries : List (Uuid × DeliveryAttempt)
  audit : List AuditEvent
  lastTime : Option Time
  clockFrozen : Bool
  baselines : List (Uuid × RecordBaseline)
  predecessor : Option Digest
  deriving DecidableEq

abbrev Snapshot := SnapshotOf Record

/-! Credential fields are the one part whose deserialization is written by hand, so
a document keeps them as it lists them. -/

structure RecordDocument where
  id : Uuid
  owner : String
  workspace : String
  createdBy : String
  task : Uuid
  service : String
  origin : String
  kind : CredentialKind
  revision : UInt64
  secretVersion : UInt64
  values : List (Field × String)
  signup : SignupState
  deleted : Bool
  restored : Bool
  deriving DecidableEq

abbrev SnapshotDocument := SnapshotOf RecordDocument

/-- `UniqueFields::visit_map`: a repeated field is an error. -/
def SecretInput.visitMap (entries : List (Field × String)) : Option SecretInput :=
  entries.foldlM (fun fields entry =>
    if fields.contains entry.1 then none else some (fields.insert entry.1 entry.2)) (∅ : SecretInput)

def Record.document (r : Record) : RecordDocument :=
  { r with values := r.values.entries }

def RecordDocument.record (d : RecordDocument) : Option Record := do
  let values ← SecretInput.visitMap d.values
  pure { d with values }

def SnapshotOf.document (s : Snapshot) : SnapshotDocument :=
  { s with records := s.records.map Record.document }

def SnapshotOf.snapshot (d : SnapshotDocument) : Option Snapshot := do
  let records ← d.records.mapM RecordDocument.record
  pure { d with records }

end Credman
