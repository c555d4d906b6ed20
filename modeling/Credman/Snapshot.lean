import Credman.Application
import Credman.Library.Word
import Mathlib.Data.List.Sort
import Mathlib.Data.List.Destutter

/-! The encrypted-payload codec: validation of a snapshot, its list form, and
the compaction of history outside the retry window. -/
namespace Credman

open Library

def maxPlaintext : Nat := 16 * 1024 * 1024
def limit : Nat := 10000
def compactAt : Nat := 8000

/-- Receipts and completed deliveries stay idempotent for this long. -/
def retryWindow : Time := 24 * 60 * 60

def ensure (ok : Bool) : Except Error Unit := if ok then .ok () else .error .invalidStorage

def required {α : Type} (value : Option α) : Except Error α := orElse value .invalidStorage

def sameScope (task : TaskApproval) (record : Record) : Bool :=
  task.owner == record.owner && task.workspace == record.workspace
    && task.origin == record.origin && task.service == record.service

def privateUseFingerprint (P : Platform) (request : PrivateUse) : Digest :=
  P.sha256 (P.privateUseJson request)

namespace Application

def through (app : Application) (id : Uuid) : UInt64 :=
  ((app.baselines.get? id).map (·.through)).getD 0

/-- Task-bound validation is the one `approve_task` performs, on a checker
whose clock stands at the minimum. -/
def checkTask (checker : Application) (entry : Uuid × TaskApproval) :
    Except Error Application := do
  let (id, task) := entry
  ensure (!id.isNil && id == task.id && task.workspace != "")
  let admin := AuthenticatedContext.fromAuthenticatedAdmin task.owner "snapshot-validation"
    task.workspace
  match (approveTask admin task Time.min).run checker with
  | .ok _ checker => .ok checker
  | .error _ _ => .error .invalidStorage

def checkRecord (app : Application) (entry : Uuid × Record) : Except Error Unit := do
  let (id, r) := entry
  let t ← required (app.tasks.get? r.task)
  ensure (!id.isNil && id == r.id && sameScope t r && t.principal == r.createdBy
    && decide (0 < r.revision) && decide (0 < r.secretVersion)
    && decide (r.secretVersion ≤ r.revision) && decide (Permission.secretWrite ∈ t.permissions))
  if r.deleted then ensure r.values.isEmpty
  else
    ensure (r.values.valid && decide (r.values.fields ⊆ t.fields))
    ensure ((r.kind == .login && r.values.contains .password && !r.values.contains .apiKey)
      || (r.kind == .apiKey && r.values.contains .apiKey && !r.values.contains .password))

def checkGrant (app : Application) (entry : Uuid × Grant) : Except Error Unit := do
  let (id, g) := entry
  let r ← required (app.records.get? g.record)
  let t ← required (app.tasks.get? g.issuerTask)
  let spec := g.spec
  ensure (!id.isNil && sameScope t r && decide (0 < g.version)
    && decide (g.version ≤ r.secretVersion) && (!r.deleted || g.revoked)
    && !decide (spec.fields = ∅) && !decide (spec.permissions = ∅)
    && !decide (Permission.accessGrant ∈ spec.permissions)
    && spec.recipient != "" && !tooLong spec.recipient
    && decide (spec.fields ⊆ t.fields) && decide (spec.permissions ⊆ t.permissions)
    && decide (spec.destinations ⊆ t.destinations) && decide (Time.min < spec.expiresAt)
    && decide (spec.expiresAt ≤ t.expiresAt)
    && (!decide (Permission.secretUse ∈ spec.permissions) || !decide (spec.destinations = ∅))
    && (r.deleted || decide (spec.fields ⊆ r.values.fields)))
  if !g.adminIssued then
    let bounds ← required t.share
    ensure (t.principal == r.createdBy && t.id == r.task
      && decide (Permission.accessGrant ∈ t.permissions)
      && (!spec.followActive || bounds.allowFollowActive)
      && decide (spec.recipient ∈ bounds.recipients) && decide (spec.fields ⊆ bounds.fields)
      && decide (spec.permissions ⊆ bounds.permissions)
      && decide (spec.destinations ⊆ bounds.destinations)
      && decide (spec.expiresAt ≤ bounds.expiresAt))

end Application

/-- The sets `validate` collects while it walks the receipts. -/
structure Ledger where
  revisions : OrdMap Uuid (OrdMap UInt64 Unit) := ∅
  creates : Finset Uuid := ∅
  shares : Finset Uuid := ∅
  deletes : Finset Uuid := ∅
  patches : OrdMap Uuid (OrdMap UInt64 Unit) := ∅

/-- `entry(id).or_default().insert(revision)`. -/
def addRevision (sets : OrdMap Uuid (OrdMap UInt64 Unit)) (id : Uuid) (revision : UInt64) :
    OrdMap Uuid (OrdMap UInt64 Unit) :=
  sets.insert id (((sets.get? id).getD ∅).insert revision ())

namespace Ledger

def enterKind (app : Application) (ledger : Ledger) (key : RequestKey) (cached : Remembered)
    (r : Record) : Except Error Ledger :=
  match cached.kind with
  | .create => do
    ensure (r.task == key.task && r.createdBy == key.principal && cached.result.revision == 1
      && cached.result.grant.isNone && !decide (r.id ∈ ledger.creates))
    pure { ledger with creates := insert r.id ledger.creates }
  | .share => do
    let id ← required cached.result.grant
    let g ← required (app.grants.get? id)
    ensure (g.record == r.id)
    ensure (g.issuerTask == key.task && !decide (id ∈ ledger.shares))
    pure { ledger with shares := insert id ledger.shares }
  | .revoke => do
    let id ← required cached.result.grant
    let g ← required (app.grants.get? id)
    ensure (g.record == r.id)
    ensure g.revoked
    pure ledger
  | .delete => do
    ensure (r.deleted && cached.result.grant.isNone)
    pure { ledger with deletes := insert r.id ledger.deletes }
  | .patch => do
    ensure cached.result.grant.isNone
    pure { ledger with patches := addRevision ledger.patches r.id cached.result.revision }
  | .metadataPatch | .reportOutcome => do
    ensure cached.result.grant.isNone
    pure ledger

def enter (app : Application) (ledger : Ledger) (entry : RequestKey × Remembered) :
    Except Error Ledger := do
  let (key, cached) := entry
  let t ← required (app.tasks.get? key.task)
  let r ← required (app.records.get? cached.result.record)
  ensure (!key.id.isNil && key.owner == t.owner && key.principal == t.principal && sameScope t r
    && decide (app.through r.id < cached.result.revision)
    && decide (cached.result.revision ≤ r.revision))
  ensure (!((ledger.revisions.get? r.id).getD ∅).contains cached.result.revision)
  enterKind app { ledger with
    revisions := addRevision ledger.revisions r.id cached.result.revision } key cached r

def collect (app : Application) : Except Error Ledger :=
  app.requests.entries.foldlM (enter app) {}

end Ledger

namespace Application

def checkPruned (app : Application) (id : Uuid) (accounted : Finset Uuid) (gid : Uuid) :
    Except Error (Finset Uuid) := do
  let grant ← required (app.grants.get? gid)
  ensure (grant.record == id && !decide (gid ∈ accounted))
  ensure (!app.requests.any fun _ cached =>
    cached.kind == .share && cached.result.grant == some gid)
  pure (insert gid accounted)

def checkBaseline (app : Application) (accounted : Finset Uuid)
    (entry : Uuid × RecordBaseline) : Except Error (Finset Uuid) := do
  let (id, base) := entry
  let r ← required (app.records.get? id)
  ensure (decide (base.through ≤ r.revision))
  ensure (decide (0 < base.through)
    || (base.secretVersion == 0 && !base.deletePruned && base.prunedGrants.isEmpty))
  ensure (base.through == 0 || decide (1 ≤ base.secretVersion))
  ensure (decide (base.prunedGrants.IsChain (· < ·)))
  if base.verifiedLogin then ensure (r.signup == .verifiedLogin)
  base.prunedGrants.foldlM (app.checkPruned id) accounted

/-- A deletion is recorded once: in the baseline or by a cached receipt. -/
def checkDeleted (app : Application) (ledger : Ledger) (id : Uuid) (r : Record) :
    Except Error Unit :=
  let pruned := (app.baselines.get? id).any (·.deletePruned)
  if r.deleted then
    if app.through id == 0 then ensure (decide (id ∈ ledger.deletes))
    else ensure (pruned ^^ decide (id ∈ ledger.deletes))
  else ensure (!decide (id ∈ ledger.deletes) && !pruned)

/-- Revisions above the baseline are exactly the receipts, and the credential
version counts their patches. Additions wrap, as in a release build. -/
def checkRevisions (app : Application) (ledger : Ledger) (id : Uuid) (r : Record) :
    Except Error Unit := do
  let base := app.baselines.get? id
  let through := app.through id
  let versions := ledger.revisions.get? id
  let patchCount : UInt64 := ((ledger.patches.get? id).map fun items =>
    UInt64.ofNat items.size).getD 0
  if through == r.revision then
    ensure (decide (0 < through) && versions.isNone && !decide (id ∈ ledger.creates)
      && base.any fun item => item.secretVersion == r.secretVersion)
  else
    let versions ← required versions
    let start := through + 1
    ensure (UInt64.ofNat versions.size == r.revision - through
      && versions.keys.head? == some start && versions.keys.getLast? == some r.revision
      && versions.keys == Word.rangeInclusive start r.revision)
    if through == 0 then
      ensure (decide (id ∈ ledger.creates) && r.secretVersion == 1 + patchCount)
    else
      ensure (!decide (id ∈ ledger.creates)
        && base.any fun item => r.secretVersion == item.secretVersion + patchCount)

def checkChain (app : Application) (ledger : Ledger) (entry : Uuid × Record) :
    Except Error Unit := do
  let (id, r) := entry
  app.checkDeleted ledger id r
  app.checkRevisions ledger id r

def checkDelivery (P : Platform) (app : Application)
    (seen : Finset RequestKey × Finset Uuid) (entry : Uuid × DeliveryAttempt) :
    Except Error (Finset RequestKey × Finset Uuid) := do
  let (id, d) := entry
  let t ← required (app.tasks.get? d.task)
  let r ← required (app.records.get? d.record)
  ensure (!id.isNil && sameScope t r && decide (0 < d.version)
    && decide (d.version ≤ r.secretVersion)
    && !decide (d.fields = ∅) && decide (d.fields ⊆ t.fields)
    && decide (Permission.secretUse ∈ t.permissions) && decide (d.destination ∈ t.destinations)
    && d.key.task == d.task && d.key.owner == t.owner && d.key.principal == t.principal
    && !d.key.id.isNil && !app.requests.contains d.key && !decide (d.key ∈ seen.1)
    && (d.dispatched || d.status == some .rejected))
  ensure (d.fingerprint == privateUseFingerprint P {
    request := d.key.id, record := d.record, fields := d.fields
    destination := d.destination, action := d.action })
  if d.action != .use then
    ensure (r.kind == .login && decide (Field.username ∈ d.fields)
      && decide (Field.password ∈ d.fields))
  if d.action == .register && d.dispatched then
    ensure (!decide (d.record ∈ seen.2))
    pure (insert d.key seen.1, insert d.record seen.2)
  else pure (insert d.key seen.1, seen.2)

def checkVerified (app : Application) (r : Record) : Except Error Unit :=
  ensure (((app.baselines.get? r.id).any (·.verifiedLogin))
    || app.deliveries.any fun _ d => d.record == r.id && d.version == r.secretVersion
      && d.action == .login && d.dispatched && d.status == some .accepted)

def checkAudit (app : Application) (event : AuditEvent) : Except Error Unit := do
  let t ← required (app.tasks.get? event.task)
  let r ← required (app.records.get? event.record)
  ensure (sameScope t r)
  let legacy := event.loggedAt == 0 && event.principal == ""
  if !legacy then
    ensure (event.principal == t.principal)
    ensure (app.lastTime.any fun last =>
      decide (0 ≤ event.loggedAt) && decide (event.loggedAt ≤ last))
  match event.request with
  | none => pure ()
  | some request =>
    let key : RequestKey := { owner := t.owner, principal := t.principal, task := t.id, id := request }
    ensure ((app.requests.get? key).any fun entry => entry.result.record == event.record)

def validate (P : Platform) (app : Application) : Except Error Unit := do
  ensure (decide (0 < app.generation) && (!app.clockFrozen || app.lastTime.isSome))
  ensure ([app.tasks.size, app.records.size, app.grants.size, app.requests.size,
    app.revokedTasks.card, app.deliveries.size, app.audit.length, app.baselines.size].all
      fun n => decide (n ≤ limit))
  let _ ← app.tasks.entries.foldlM checkTask {}
  ensure (decide (∀ id ∈ app.revokedTasks, app.tasks.contains id = true))
  app.records.entries.forM app.checkRecord
  app.grants.entries.forM app.checkGrant
  let ledger ← Ledger.collect app
  let accounted ← app.baselines.entries.foldlM app.checkBaseline ∅
  app.records.entries.forM (app.checkChain ledger)
  ensure (ledger.shares.card + accounted.card == app.grants.size
    && decide (Disjoint ledger.shares accounted))
  let _ ← app.deliveries.entries.foldlM (app.checkDelivery P) (∅, ∅)
  (app.records.values.filter (·.signup == .verifiedLogin)).forM app.checkVerified
  app.audit.forM app.checkAudit

/-! The codec between an application and its list form. -/

def toSnapshot (app : Application) : Snapshot where
  schema := 3
  generation := app.generation
  tasks := app.tasks.values
  records := app.records.values
  grants := app.grants.entries
  requests := app.requests.entries
  revokedTasks := sortedElements app.revokedTasks
  deliveries := app.deliveries.entries
  audit := app.audit
  lastTime := app.lastTime
  clockFrozen := app.clockFrozen
  baselines := app.baselines.entries
  predecessor := app.predecessor

def encode (P : Platform) (app : Application) : Except Error Bytes := do
  app.validate P
  let bytes := P.snapshotJson app.toSnapshot
  failIf (maxPlaintext < bytes.length) .capacity
  pure bytes

/-- `insert(key, value).is_some()` refuses a repeated key. -/
def insertNew {K V : Type} [LinearOrder K] (m : OrdMap K V) (entry : K × V) :
    Except Error (OrdMap K V) :=
  if m.contains entry.1 then .error .invalidStorage else .ok (m.insert entry.1 entry.2)

def insertNewId (ids : Finset Uuid) (id : Uuid) : Except Error (Finset Uuid) :=
  if id ∈ ids then .error .invalidStorage else .ok (insert id ids)

def ofSnapshot (s : Snapshot) : Except Error Application := do
  let tasks ← (s.tasks.map fun t => (t.id, t)).foldlM insertNew ∅
  let records ← (s.records.map fun r => (r.id, r)).foldlM insertNew ∅
  let grants ← s.grants.foldlM insertNew ∅
  let requests ← (s.requests.map fun (key, r) =>
    (key, { r with storedAt := r.storedAt <|> s.lastTime })).foldlM insertNew ∅
  let revokedTasks ← s.revokedTasks.foldlM insertNewId ∅
  let deliveries ← (s.deliveries.map fun (id, d) =>
    (id, { d with storedAt := d.storedAt <|> s.lastTime })).foldlM insertNew ∅
  let baselines ← s.baselines.foldlM insertNew ∅
  pure { tasks, records, grants, requests, revokedTasks, deliveries, baselines
         audit := s.audit, generation := s.generation, lastTime := s.lastTime
         clockFrozen := s.clockFrozen, predecessor := s.predecessor }

def decode (P : Platform) (bytes : Bytes) : Except Error Application := do
  failIf (maxPlaintext < bytes.length) .invalidStorage
  let s ← required (P.parseSnapshot bytes)
  failIf ((s.schema != 2 && s.schema != 3) || s.generation == 0
    || [s.tasks.length, s.records.length, s.grants.length, s.requests.length,
      s.revokedTasks.length, s.deliveries.length, s.audit.length, s.baselines.length].any
        fun n => decide (limit < n)) .invalidStorage
  let app ← ofSnapshot s
  app.validate P
  pure app

end Application

def stale (storedAt now : Option Time) : Bool :=
  match storedAt with
  | none => false
  | some stored => now.any fun now => decide (retryWindow ≤ now.saturatingSub stored)

namespace Application

def shouldCompact (app : Application) : Bool :=
  let hot := [app.tasks.size, app.records.size, app.grants.size, app.requests.size,
    app.revokedTasks.card, app.deliveries.size].any fun len => decide (compactAt ≤ len)
  let periodic := decide (32 ≤ app.generation) && app.generation % 32 == 0
  hot || periodic || app.requests.any (fun _ cached => stale cached.storedAt app.lastTime)
    || app.deliveries.any fun _ delivery =>
      delivery.status.isSome && stale delivery.storedAt app.lastTime

/-- The loop that collects the receipts to fold: the stale run right above the
baseline. -/
def foldableFrom (app : Application) (through next : UInt64) :
    List (UInt64 × RequestKey) → List (RequestKey × Remembered)
  | [] => []
  | (revision, key) :: rest =>
    if revision ≤ through then app.foldableFrom through next rest
    else
      match app.requests.get? key with
      | none => [] -- unreachable: the keys were read from the map
      | some cached =>
        if !stale cached.storedAt app.lastTime || revision != next then []
        else (key, cached) :: app.foldableFrom through (next + 1) rest

/-- `sort_by_key` on the revision; the sort is stable. -/
def receiptsOf (app : Application) (id : Uuid) : List (UInt64 × RequestKey) :=
  ((app.requests.entries.filter fun entry => entry.2.result.record == id).map
    fun entry => (entry.2.result.revision, entry.1)).insertionSort fun a b => a.1 ≤ b.1

end Application

namespace RecordBaseline

/-- `u64::saturating_add(1)`. -/
def saturatingSucc (n : UInt64) : UInt64 := if n == maxU64 then n else n + 1

def absorb (base : RecordBaseline) (cached : Remembered) : RecordBaseline :=
  let base := { base with through := cached.result.revision }
  match cached.kind with
  | .create => { base with secretVersion := 1 }
  | .patch => { base with secretVersion := saturatingSucc base.secretVersion }
  | .delete => { base with deletePruned := true }
  | .share =>
    match cached.result.grant with
    | some grant =>
      if base.prunedGrants.contains grant then base
      else { base with prunedGrants := base.prunedGrants ++ [grant] }
    | none => base
  | .metadataPatch | .revoke | .reportOutcome => base

def sortPruned (base : RecordBaseline) : RecordBaseline :=
  { base with prunedGrants := base.prunedGrants.insertionSort (· ≤ ·) }

end RecordBaseline

namespace Application

def foldReceipts (app : Application) (id : Uuid) : Application :=
  let through := app.through id
  let folded := app.foldableFrom through (through + 1) (app.receiptsOf id)
  if folded.isEmpty then app
  else
    let base := folded.foldl (fun base entry => base.absorb entry.2)
      ((app.baselines.get? id).getD {})
    { app with
      requests := folded.foldl (fun requests entry => requests.erase entry.1) app.requests
      baselines := app.baselines.insert id base.sortPruned }

def dropGrant (app : Application) (gid : Uuid) : Application :=
  match app.grants.get? gid with
  | none => app
  | some grant =>
    let expired := app.lastTime.any fun now => decide (grant.spec.expiresAt ≤ now)
    if !grant.revoked && !expired then app
    else if app.requests.any fun _ cached => cached.result.grant == some gid then app
    else { app with
      grants := app.grants.erase gid
      baselines := app.baselines.modify grant.record fun base =>
        { base with prunedGrants := base.prunedGrants.filter (· != gid) } }

def sealsRegister (app : Application) (d : DeliveryAttempt) : Bool :=
  d.action == .register && d.dispatched && app.records.contains d.record

def sealsLogin (app : Application) (d : DeliveryAttempt) : Bool :=
  (app.records.get? d.record).any fun record =>
    d.action == .login && d.dispatched && d.status == some .accepted
      && record.signup == .verifiedLogin && d.version == record.secretVersion

def dropDelivery (app : Application) (id : Uuid) : Application :=
  match app.deliveries.get? id with
  | none => app
  | some d =>
    if d.status.isNone || !stale d.storedAt app.lastTime then app
    else
      let register := app.sealsRegister d
      let login := app.sealsLogin d
      let baselines :=
        if register || login then
          let base := (app.baselines.get? d.record).getD {}
          app.baselines.insert d.record { base with
            registrationDispatched := base.registrationDispatched || register
            verifiedLogin := base.verifiedLogin || login }
        else app.baselines
      { app with baselines, deliveries := app.deliveries.erase id }

/-- A deleted record that no grant, delivery or receipt refers to. -/
def forgettable (app : Application) (id : Uuid) (record : Record) : Bool :=
  record.deleted && app.grants.all (fun _ grant => grant.record != id)
    && app.deliveries.all (fun _ delivery => delivery.record != id)
    && app.requests.all (fun _ cached => cached.result.record != id)

def dropRecords (app : Application) : Application :=
  let dropped := (app.records.filter app.forgettable).keys
  dropped.foldl (fun app id =>
    { app with records := app.records.erase id, baselines := app.baselines.erase id }) app

def referencedTask (app : Application) (id : Uuid) : Bool :=
  app.records.any (fun _ record => record.task == id)
    || app.grants.any (fun _ grant => grant.issuerTask == id)
    || app.deliveries.any (fun _ delivery => delivery.task == id || delivery.key.task == id)
    || app.requests.any fun key _ => key.task == id

/-- `max_by_key` keeps the last maximum; the keys here are distinct. -/
def longestTask : List TaskApproval → Option TaskApproval
  | [] => none
  | task :: rest =>
    match longestTask rest with
    | none => some task
    | some other =>
      if toLex (other.expiresAt, other.id) < toLex (task.expiresAt, task.id) then some task
      else some other

def removableTasks (app : Application) : List Uuid :=
  (app.tasks.filter fun id task => !app.referencedTask id
    && (decide (id ∈ app.revokedTasks)
      || app.lastTime.any fun now => decide (task.expiresAt ≤ now))).keys

def dropTasks (app : Application) : Application :=
  let remove := app.removableTasks
  let remove :=
    if !app.tasks.isEmpty && remove.length == app.tasks.size then
      match longestTask app.tasks.values with
      | some keep => remove.filter (· != keep.id)
      | none => remove
    else remove
  let app := remove.foldl (fun app id =>
    { app with tasks := app.tasks.erase id, revokedTasks := app.revokedTasks.erase id }) app
  { app with revokedTasks := app.revokedTasks.filter fun id => app.tasks.contains id = true }

def keepsEvent (app : Application) (event : AuditEvent) : Bool :=
  match app.tasks.get? event.task with
  | none => false
  | some task =>
    if !app.records.contains event.record then false
    else
      match event.request with
      | none => true
      | some request =>
        let key : RequestKey :=
          { owner := task.owner, principal := task.principal, task := task.id, id := request }
        (app.requests.get? key).any fun entry => entry.result.record == event.record

def retainAudit (app : Application) : Application :=
  { app with audit := app.audit.filter app.keepsEvent }

def pruneBaseline (app : Application) (id : Uuid) (base : RecordBaseline) : RecordBaseline :=
  let base :=
    if (app.records.get? id).any (fun record => record.signup != .verifiedLogin) then
      { base with verifiedLogin := false }
    else base
  { base with
    prunedGrants := (base.prunedGrants.insertionSort (· ≤ ·)).destutter (· ≠ ·) }

def pruneBaselines (app : Application) : Application :=
  { app with baselines := (app.baselines.mapVals app.pruneBaseline).filter fun id base =>
      app.records.contains id && (decide (0 < base.through) || base.deletePruned
        || base.registrationDispatched || base.verifiedLogin || !base.prunedGrants.isEmpty) }

/-- Drop history that the retry window no longer needs. -/
def compact (app : Application) : Application :=
  let app := app.records.keys.foldl foldReceipts app
  let app := app.grants.keys.foldl dropGrant app
  let app := app.deliveries.keys.foldl dropDelivery app
  app.dropRecords.dropTasks.retainAudit.pruneBaselines

/-- `Option::max`, where `None` is least. -/
def laterTime : Option Time → Option Time → Option Time
  | none, right => right
  | left, none => left
  | some left, some right => some (Max.max left right)

def clockOnlyDifference (P : Platform) (current candidate : Application) :
    Except Error Bool := do
  let high := laterTime current.lastTime candidate.lastTime
  let left ← encode P { current with lastTime := high, generation := 1 }
  let right ← encode P { candidate with lastTime := high, generation := 1 }
  pure (left == right)

end Application

end Credman
