import Credman.Storage

/-! Private delivery of a secret: a journaled attempt, a second authorization at
the instant of handoff, and the outcome. -/
namespace Credman

open Library

namespace Application

/-- The first entry of `deliveries` under this key, in key order. -/
def deliveryOf (app : Application) (key : RequestKey) : Option (Uuid × DeliveryAttempt) :=
  app.deliveries.entries.find? fun entry => entry.2.key == key

/-- `records.get_mut(&record).ok_or(e)?.signup = state`. -/
def setSignup (record : Uuid) (state : SignupState) (e : Error) : AppM Unit := do
  let r ← liftExcept (orElse ((← get).records.get? record) e)
  modify fun app => { app with records := app.records.insert record { r with signup := state } }

/-- The retry of a delivery that is already journaled. -/
def replayDelivery (id : Uuid) (previous : DeliveryAttempt) (version : UInt64)
    (fingerprint : Digest) : Except Error DeliveryReceipt := do
  failIf (previous.version ≠ version) .denied
  failIf (previous.fingerprint ≠ fingerprint) .replayConflict
  failIf (previous.dispatched = false) .denied
  let status ← orElse previous.status .recoveryRequired
  pure { attempt := id, status }

/-- The attempt as it is first stored: marked dispatched before anything leaves. -/
def newAttempt (ctx : AuthenticatedContext) (task : Uuid) (request : PrivateUse)
    (fingerprint : Digest) (version : UInt64) (preparedAt : Time) : DeliveryAttempt where
  task := task
  record := request.record
  version := version
  destination := request.destination
  fields := request.fields
  status := none
  key := { owner := ctx.owner, principal := ctx.principal, task, id := request.request }
  fingerprint := fingerprint
  action := request.action
  dispatched := true
  storedAt := some preparedAt

def setDelivery (app : Application) (id : Uuid) (d : DeliveryAttempt) : Application :=
  { app with deliveries := app.deliveries.insert id d }

/-- The journal entry of a new attempt. -/
def journal (ctx : AuthenticatedContext) (task : Uuid) (request : PrivateUse)
    (fingerprint : Digest) (attempt : Uuid) (version : UInt64) (preparedAt : Time) :
    AppM (Option DeliveryReceipt) := do
  -- Once a registration might have dispatched, neither a new ID nor a model report may replay it.
  failIf (request.action = .register ∧ (← get).registrationSealed request.record = true) .conflict
  failIf (10000 ≤ (← get).deliveries.size) .capacity
  modify fun app => app.setDelivery attempt
    (newAttempt ctx task request fingerprint version preparedAt)
  if request.action = .register then setSignup request.record .submitted .denied
  pure none

/-- The closure of the first `apply`: the attempt is journaled before anything leaves. -/
def usePrepare (P : Platform) (ctx : AuthenticatedContext) (task : Uuid) (request : PrivateUse)
    (attempt : Uuid) (preparedAt : Time) : AppM (Option DeliveryReceipt) := do
  let preparedAt ← clock preparedAt
  failIf request.request.isNil .invalid
  let _ ← liftExcept ((← get).select ctx task request.record request.fields .secretUse
    (some request.destination) preparedAt)
  let r ← liftExcept ((← get).record ctx request.record)
  failIf (request.action ≠ .use ∧ (r.kind ≠ .login ∨ Field.username ∉ request.fields
    ∨ Field.password ∉ request.fields)) .invalid
  failIf (request.action = .register ∧ r.restored = true) .conflict
  let key : RequestKey :=
    { owner := ctx.owner, principal := ctx.principal, task, id := request.request }
  failIf ((← get).requests.contains key) .replayConflict
  let fingerprint := privateUseFingerprint P request
  match (← get).deliveryOf key with
  | some (id, previous) => do
    let receipt ← liftExcept (replayDelivery id previous r.secretVersion fingerprint)
    pure (some receipt)
  | none => journal ctx task request fingerprint attempt r.secretVersion preparedAt

/-- The closure that withdraws an attempt whose second check failed. -/
def useCancel (request : PrivateUse) (attempt : Uuid) : AppM Unit := do
  let d ← liftExcept (orElse ((← get).deliveries.get? attempt) .recoveryRequired)
  modify fun app => app.setDelivery attempt { d with dispatched := false, status := some .rejected }
  if request.action = .register then setSignup request.record .pending .recoveryRequired

end Application

/-- What an outcome does to the signup state of the record. -/
def signupAfter (action : PrivateAction) (status : DeliveryStatus) (old : SignupState) :
    SignupState :=
  match action, status with
  | .register, .accepted => .reportedSuccess
  | .register, .rejected => .rejected
  | .register, .humanRequired => .humanRequired
  | .register, .unknown => .unknown
  | .login, .accepted => .verifiedLogin
  | _, _ => old

namespace Application

/-- The closure that records the outcome of a handoff. -/
def useFinish (ctx : AuthenticatedContext) (task : Uuid) (request : PrivateUse) (attempt : Uuid)
    (status : DeliveryStatus) (handoffAt : Time) : AppM Unit := do
  let d ← liftExcept (orElse ((← get).deliveries.get? attempt) .recoveryRequired)
  modify fun app => app.setDelivery attempt { d with status := some status }
  let r ← liftExcept (orElse ((← get).records.get? request.record) .recoveryRequired)
  setSignup request.record (signupAfter request.action status r.signup) .recoveryRequired
  modify fun app => app.pushAudit {
    task, record := request.record, request := none, action := .secretUse
    loggedAt := handoffAt, principal := ctx.principal }

/-- The check right before the handoff: clock, then selection. -/
def useAuthorize (ctx : AuthenticatedContext) (task : Uuid) (request : PrivateUse)
    (handoffAt : Time) : AppM (SecretInput × Time) := do
  let effective ← clock handoffAt
  let values ← liftExcept ((← get).select ctx task request.record request.fields .secretUse
    (some request.destination) effective)
  pure (values, effective)

end Application

/-- How the delivery callback ends; `failed` is an adapter error. -/
inductive Delivered where
  | returned (status : DeliveryStatus)
  | failed
  | panicked
  deriving DecidableEq, Repr

def Delivered.status : Delivered → DeliveryStatus
  | .returned status => status
  | .failed | .panicked => .unknown

/-- How `use_secret` ends: with its result, or unwinding from the callback. -/
inductive UseOutcome where
  | result (result : Except Error DeliveryReceipt)
  | panicked

namespace DurableVault

def logHandoff (h : Handoff) : VaultIo Unit :=
  modify fun m => { m with rest := { m.rest with handoffs := m.rest.handoffs ++ [h] } }

/-- After the callback: its outcome is published, then reported. -/
def concludeUse (P : Platform) (owner : DurableVault) (ctx : AuthenticatedContext) (task : Uuid)
    (request : PrivateUse) (attempt : Uuid) (handoffAt : Time) (delivered : Delivered) :
    VaultIo (DurableVault × UseOutcome) := do
  match delivered with
  | .panicked => pure ({ owner with frozen := true }, .panicked)
  | delivered =>
    match ← owner.apply P
      (Application.useFinish ctx task request attempt delivered.status handoffAt) with
    | (owner, .error _) => pure ({ owner with frozen := true }, .result (.error .recoveryRequired))
    | (owner, .ok ()) =>
      match delivered with
      | .returned status => pure (owner, .result (.ok { attempt, status }))
      | _ => pure (owner, .result (.error .interactionRequired))

/-- From the second clock sample to the handoff. -/
def handOff (P : Platform) (owner : DurableVault) (ctx : AuthenticatedContext) (task : Uuid)
    (request : PrivateUse) (attempt : Uuid) (handoffAt : Time) (deliver : SecretInput → Delivered) :
    VaultIo (DurableVault × UseOutcome) := do
  match (Application.useAuthorize ctx task request handoffAt).run owner.app with
  | .error e app =>
    match ← ({ owner with app } : DurableVault).apply P (Application.useCancel request attempt) with
    | (owner, .error _) => pure ({ owner with frozen := true }, .result (.error .recoveryRequired))
    | (owner, .ok ()) => pure (owner, .result (.error e))
  | .ok (values, effective) app =>
    let owner := { owner with app }
    logHandoff { ctx, task, request, attempt, values, sampled := handoffAt, effective, app
                 image := (← get).dir .state }
    owner.concludeUse P ctx task request attempt effective (deliver values)

def useSecret (P : Platform) (owner : DurableVault) (ctx : AuthenticatedContext) (task : Uuid)
    (request : PrivateUse) (preparedAt handoffAt : Time) (deliver : SecretInput → Delivered) :
    VaultIo (DurableVault × UseOutcome) := do
  let attempt := P.uuid (← drawIndex)
  match ← owner.apply P (Application.usePrepare P ctx task request attempt preparedAt) with
  | (owner, .error e) => pure (owner, .result (.error e))
  | (owner, .ok (some receipt)) => pure (owner, .result (.ok receipt))
  | (owner, .ok none) =>
    match owner.ready with
    | .error e => pure (owner, .result (.error e))
    | .ok () => owner.handOff P ctx task request attempt handoffAt deliver

end DurableVault

end Credman
