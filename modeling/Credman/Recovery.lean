import Credman.Storage

/-! Explicit reconciliation by a trusted human. Neither seed possession nor an
agent request grants this authority. -/
namespace Credman

open Library

def gateLimit : Nat := maxImage * 2 + 24

/-- The two images of a gate file. -/
def parseGate (bytes : Bytes) : Except Error (Bytes × Bytes) :=
  let oldLen := Word.ofBeBytes ((bytes.drop 8).take 8)
  let newLen := Word.ofBeBytes ((bytes.drop 16).take 8)
  if bytes.length < 24 ∨ gateLimit < bytes.length ∨ bytes.take 8 ≠ intentMagic then
    .error .recoveryRequired
  else if maxImage < oldLen ∨ maxImage < newLen ∨ newLen = 0 ∨ oldLen + newLen + 24 ≠ bytes.length
  then .error .recoveryRequired
  else .ok ((bytes.drop 24).take oldLen, (bytes.drop 24).drop oldLen)

def readGate (name : FileName) : VaultIo (Except Error (Bytes × Bytes)) := do
  match ← FileM.read name with
  | some (some bytes) => pure (parseGate bytes)
  | _ => pure (.error .recoveryRequired)

/-! One publication against the one before it. `equal` compares serializations,
which decide equality here. -/

namespace Application

def keepsRevocations (old next : Application) : Bool :=
  decide (∀ id ∈ old.revokedTasks, next.tasks.contains id = true → id ∈ next.revokedTasks)

/-- The clock an absence is judged by. -/
def judgedAt (old next : Application) : Option Time := next.lastTime <|> old.lastTime

def keepsTasks (old next : Application) : Bool :=
  old.tasks.all fun id task =>
    match next.tasks.get? id with
    | some retained => decide (task = retained)
    | none =>
      ((judgedAt old next).any (fun now => decide (task.expiresAt ≤ now))
        || decide (id ∈ old.revokedTasks)) && !next.referencedTask id

def keepsRecord (next : Application) (id : Uuid) (r : Record) : Bool :=
  match next.records.get? id with
  | some n =>
    r.owner == n.owner && r.workspace == n.workspace && r.createdBy == n.createdBy
      && r.task == n.task && r.service == n.service && r.origin == n.origin && r.kind == n.kind
      && decide (r.revision ≤ n.revision) && decide (r.secretVersion ≤ n.secretVersion)
      && (!r.deleted || n.deleted) && r.restored == n.restored
      && (r.revision != n.revision || (r.secretVersion == n.secretVersion
        && r.deleted == n.deleted && decide (r.values = n.values)))
  | none =>
    r.deleted && next.grants.all (fun _ grant => grant.record != id)
      && next.deliveries.all (fun _ delivery => delivery.record != id)
      && next.requests.all (fun _ cached => cached.result.record != id)

def keepsRecords (old next : Application) : Bool := old.records.all (keepsRecord next)

def keepsGrants (old next : Application) : Bool :=
  old.grants.all fun id g =>
    match next.grants.get? id with
    | some n =>
      g.record == n.record && g.version == n.version && g.issuerTask == n.issuerTask
        && g.adminIssued == n.adminIssued && (!g.revoked || n.revoked) && decide (g.spec = n.spec)
    | none =>
      (g.revoked || (judgedAt old next).any fun now => decide (g.spec.expiresAt ≤ now))
        && next.requests.all fun _ cached => cached.result.grant != some id

def keepsRequests (old next : Application) : Bool :=
  old.requests.all fun key cached =>
    match next.requests.get? key with
    | some retained => decide (cached = retained)
    | none =>
      let through := next.through cached.result.record
      let oldRevision := ((old.records.get? cached.result.record).map (·.revision)).getD 0
      (decide (cached.result.revision ≤ through) && decide (through ≤ oldRevision))
        || (!next.records.contains cached.result.record
          && (old.records.get? cached.result.record).any (·.deleted))

/-- An accepted login that is gone must have left its evidence. -/
def keepsLogin (next : Application) (d : DeliveryAttempt) : Bool :=
  match next.records.get? d.record with
  | none => true
  | some r =>
    let still := r.signup == .verifiedLogin && r.secretVersion == d.version
    let sealed := (next.baselines.get? d.record).any (·.verifiedLogin)
    let retained := next.deliveries.any fun _ other => other.record == d.record
      && other.action == .login && other.dispatched && other.status == some .accepted
      && other.version == r.secretVersion
    !still || sealed || retained

def keepsDeliveries (old next : Application) : Bool :=
  old.deliveries.all fun id d =>
    match next.deliveries.get? id with
    | some n =>
      let expected :=
        if d.status.isNone then { d with status := n.status, dispatched := n.dispatched } else d
      decide (expected = n)
    | none =>
      if d.status.isNone || (d.action == .register && d.dispatched
          && next.records.contains d.record
          && !(next.baselines.get? d.record).any (·.registrationDispatched)) then false
      else if d.action == .login && d.dispatched && d.status == some .accepted then
        keepsLogin next d
      else true

/-- `checked_add(1)`. -/
def nextGeneration (generation : UInt64) : Option UInt64 :=
  if generation = maxU64 then none else some (generation + 1)

def transition (old next : Application) : Except Error Unit :=
  if nextGeneration old.generation = some next.generation
      ∧ ¬ (old.tasks.isEmpty ≠ next.tasks.isEmpty ∧ next.tasks.isEmpty = true)
      ∧ keepsRevocations old next = true ∧ keepsTasks old next = true
      ∧ keepsRecords old next = true ∧ keepsGrants old next = true
      ∧ keepsRequests old next = true ∧ keepsDeliveries old next = true then .ok ()
  else .error .recoveryRequired

/-- The outcome of an unfinished delivery is unknown, and so is its signup. -/
def settle (e : Error) (app : Application) (entry : Uuid × DeliveryAttempt) :
    Except Error Application :=
  let (id, d) := entry
  if d.status.isSome then .ok app
  else
    let app := { app with
      deliveries := app.deliveries.insert id { d with status := some .unknown } }
    if d.action = .use then .ok app
    else
      match app.records.get? d.record with
      | none => .error e
      | some r =>
        .ok { app with records := app.records.insert d.record { r with signup := .unknown } }

/-- What recovery and restoring share: all authority is revoked, and nothing is left open. -/
def revokeAll (app : Application) : Application :=
  { app with
    revokedTasks := app.revokedTasks ∪ app.tasks.keySet
    grants := app.grants.mapVals fun _ grant => { grant with revoked := true } }

def sanitize (P : Platform) (app : Application) (now : Time) : Except Error Application := do
  let generation ← orElse (nextGeneration app.generation) .recoveryRequired
  let app := { app with generation }.revokeAll
  let app ← app.deliveries.entries.foldlM (settle .recoveryRequired) app
  let app := { app with clockFrozen := false, lastTime := some now, predecessor := none }
  match app.validate P with
  | .ok () => pure app
  | .error _ => throw .recoveryRequired

def emptyInitial (app : Application) : Bool :=
  app.generation == 1 && app.tasks.isEmpty && app.records.isEmpty && app.grants.isEmpty
    && app.requests.isEmpty && decide (app.revokedTasks = ∅) && app.deliveries.isEmpty
    && app.audit.isEmpty && app.lastTime.isNone && !app.clockFrozen

/-- Initial copies must already carry revoked authority and registration-blocked records. -/
def safeInitialPublication (app : Application) : Bool :=
  app.emptyInitial || (app.records.all (fun _ record => record.restored)
    && decide (∀ id ∈ app.tasks.keySet, id ∈ app.revokedTasks)
    && app.grants.all (fun _ grant => grant.revoked)
    && app.deliveries.all fun _ attempt => attempt.status.isSome)

end Application

/-- `map_err(|_| Error::RecoveryRequired)`. -/
def orRecovery {α : Type} : Except Error α → Except Error α
  | .ok a => .ok a
  | .error _ => .error .recoveryRequired

/-- What a pending intent without a state file may publish. -/
def absentInitial (P : Platform) (mnemonic : String) (gate : Bytes × Bytes) :
    Except Error Bytes := do
  failIf (gate.1 ≠ []) .recoveryRequired
  let u ← orRecovery (unsealImage P gate.2 mnemonic)
  failIf (u.app.safeInitialPublication = false) .recoveryRequired
  pure gate.2

/-- The pending intent against the file the store shows. -/
def checkPending (P : Platform) (mnemonic : String) (visible : Bytes) (gate : Bytes × Bytes) :
    Except Error Unit := do
  let (old, next) := gate
  let candidate ← orRecovery (unsealImage P next mnemonic)
  if old = [] then failIf (candidate.app.safeInitialPublication = false) .recoveryRequired
  else
    match unsealImage P old mnemonic with
    | .ok previous =>
      if candidate.salt ≠ previous.salt ∨ candidate.kdf ≠ previous.kdf then
        failIf (candidate.app.predecessor ≠ some (P.sha256 old)) .recoveryRequired
      previous.app.transition candidate.app
    | .error _ =>
      -- The previous image is bound by the hash inside the new seed's ciphertext.
      failIf (candidate.app.predecessor ≠ some (P.sha256 old)) .recoveryRequired
  failIf (visible ≠ next ∧ visible ≠ old) .recoveryRequired

/-- The checks of `adopt_rekeyed`; `none` if the file is already the new one. -/
def checkAdoption (P : Platform) (mnemonic : String) (admin : AuthenticatedContext)
    (visible : Bytes) (gate : Bytes × Bytes) : Except Error (Option Bytes) := do
  let (old, next) := gate
  failIf (visible ≠ old ∧ visible ≠ next) .recoveryRequired
  let u ← orRecovery (unsealImage P next mnemonic)
  adminScope u.app admin
  failIf (u.app.predecessor ≠ some (P.sha256 old)) .recoveryRequired
  pure (if visible = next then none else some next)

/-- A file operation whose failure ends the recovery. -/
def demand (x : VaultIo Bool) : VaultM Unit := do
  let ok ← ExceptT.lift x
  failIf (ok = false) .recoveryRequired

def lift {α : Type} (x : Except Error α) : VaultM α := ExceptT.mk (pure x)

/-- Install a re-keyed image when the visible file still decrypts only with the previous seed. -/
def adoptRekeyed (P : Platform) (mnemonic : String) (admin : AuthenticatedContext)
    (visible : Bytes) : VaultM Unit := do
  failIf (!(← ExceptT.mk (gateExists .pending))) .recoveryRequired
  let gate ← ExceptT.mk (readGate .pending)
  match ← lift (checkAdoption P mnemonic admin visible gate) with
  | none => pure ()
  | some next => do
    let temp := FileName.rekeyAdopt (P.uuid (← drawIndex))
    demand (writeNew temp next)
    demand (FileM.rename temp .state false)
    demand FileM.sync

/-- The recovery plan is written whole under another name first. -/
def writePair (P : Platform) (target : FileName) (old next : Bytes) : VaultM Unit := do
  let temp := FileName.recoveryPlan (P.uuid (← drawIndex))
  demand (writeNew temp (gateBytes old next))
  demand (FileM.rename temp target true)
  demand FileM.sync

/-- The plan of an earlier attempt, checked against what the store shows. -/
def checkPlan (P : Platform) (mnemonic : String) (admin : AuthenticatedContext) (visible : Bytes)
    (u : Unsealed) (plan : Bytes × Bytes) : Except Error Application := do
  let (base, planned) := plan
  let previous ← orRecovery (unsealImage P base mnemonic)
  let target ← orRecovery (unsealImage P planned mnemonic)
  adminScope previous.app admin
  adminScope target.app admin
  failIf (u.salt ≠ previous.salt ∨ u.salt ≠ target.salt ∨ u.kdf ≠ previous.kdf
    ∨ u.kdf ≠ target.kdf ∨ (visible ≠ base ∧ visible ≠ planned)) .recoveryRequired
  let last ← orElse target.app.lastTime .recoveryRequired
  let expected ← previous.app.sanitize P last
  let left ← expected.encode P
  let right ← target.app.encode P
  failIf (left ≠ right) .recoveryRequired
  pure target.app

/-- Without a gate there must be something to reconcile. -/
def needsRecovery (app : Application) (pending : Bool) : Bool :=
  pending || app.clockFrozen || app.deliveries.any fun _ d => d.status.isNone

/-- The file the store shows, after a re-keyed image has been adopted. -/
def visibleState (P : Platform) (mnemonic : String) (admin : AuthenticatedContext) :
    VaultM (Option Bytes) := do
  match ← ExceptT.mk (readImage .state) with
  | none => pure none
  | some image =>
    match unsealImage P image mnemonic with
    | .ok _ => pure (some image)
    | .error _ => do
      adoptRekeyed P mnemonic admin image
      ExceptT.mk (readImage .state)

/-- The image to recover from: the visible file, or an intent that never had one. -/
def recoveryBase (P : Platform) (mnemonic : String) : Option Bytes → VaultM Bytes
  | some image => pure image
  | none => do
    let gate ← ExceptT.mk (readGate .pending)
    lift (absentInitial P mnemonic gate)

/-- What the recovered store holds, with its image: planned before, or planned now. -/
def recoveryTarget (P : Platform) (mnemonic : String) (admin : AuthenticatedContext) (now : Time)
    (visible : Bytes) (u : Unsealed) (planned pending : Bool) :
    VaultM (Application × Bytes) := do
  if planned then
    let plan ← ExceptT.mk (readGate .recovery)
    let target ← lift (checkPlan P mnemonic admin visible u plan)
    if pending then
      let gate ← ExceptT.mk (readGate .pending)
      lift (checkPending P mnemonic plan.1 gate)
    pure (target, plan.2)
  else
    failIf (!needsRecovery u.app pending) .invalid
    if pending then
      let gate ← ExceptT.mk (readGate .pending)
      lift (checkPending P mnemonic visible gate)
    let app ← lift (u.app.sanitize P now)
    let nonce := P.nonce (← drawIndex)
    let image ← lift (sealImage P app u.key u.salt u.kdf nonce)
    -- Publish the recovery gate durably before replacing state or clearing the original gate.
    writePair P .recovery visible image
    pure (app, image)

/-- The recovered image replaces the state, then both gates go. -/
def installRecovered (P : Platform) (image : Bytes) (missing pending : Bool) : VaultM Unit := do
  let temp := FileName.recovered (P.uuid (← drawIndex))
  demand (writeNew temp image)
  demand (FileM.rename temp .state missing)
  demand FileM.sync
  if pending then
    demand (FileM.unlink .pending)
    demand FileM.sync
  demand (FileM.unlink .recovery)
  demand FileM.sync

namespace DurableVault

/-- `recover_at`; the clock is sampled once, when a new plan is made. -/
def recover (P : Platform) (mnemonic : String) (admin : AuthenticatedContext) (now : Time) :
    VaultM DurableVault := do
  failIf (!admin.admin) .denied
  let onDisk ← visibleState P mnemonic admin
  let visible ← recoveryBase P mnemonic onDisk
  let u ← lift (orRecovery (unsealImage P visible mnemonic))
  lift (adminScope u.app admin)
  let planned ← ExceptT.mk (gateExists .recovery)
  let pending ← ExceptT.mk (gateExists .pending)
  let (app, image) ← recoveryTarget P mnemonic admin now visible u planned pending
  installRecovered P image onDisk.isNone pending
  pure { app, frozen := false, store := {
    key := u.key, salt := u.salt, kdf := u.kdf, currentImage := some image, blocked := false
    persistedLastTime := app.lastTime, persistedFrozen := app.clockFrozen } }

end DurableVault

end Credman
