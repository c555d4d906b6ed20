import Credman.Generation

/-! The policy core: clock, approvals, authorization, mutation and selection.
A failed operation keeps what it had already changed, as `&mut self` does. -/
namespace Credman

open Library

abbrev AppM := EStateM Error Application

/-- `?` on a result that does not touch the state. -/
def liftExcept {α : Type} : Except Error α → AppM α
  | .ok value => pure value
  | .error e => throw e

/-- `if condition { return Err(e); }`. -/
def failIf {m : Type → Type} [Monad m] [MonadExceptOf Error m] (condition : Prop)
    [Decidable condition] (e : Error) : m Unit :=
  if condition then throw e else pure ()

def orElse {α : Type} (value : Option α) (e : Error) : Except Error α :=
  match value with
  | some v => .ok v
  | none => .error e

namespace Application

def pushAudit (app : Application) (event : AuditEvent) : Application :=
  { app with audit := (if app.audit.length = 10000 then app.audit.tail else app.audit) ++ [event] }

def registrationSealed (app : Application) (record : Uuid) : Bool :=
  ((app.baselines.get? record).any (·.registrationDispatched))
    || app.deliveries.any fun _ d => d.record == record && d.action == .register && d.dispatched

def effectiveTime (app : Application) (now : Time) : Except Error Time :=
  if app.clockFrozen then .error .clockRecoveryRequired
  else
    match app.lastTime with
    | some last =>
      if now < last then
        if last.saturatingSub now ≤ clockSkewTolerance then .ok last
        else .error .clockRecoveryRequired
      else .ok now
    | none => .ok now

/-- Within-tolerance rollback does not move the high-water mark. -/
def clock (now : Time) : AppM Time := do
  match (← get).effectiveTime now with
  | .error e =>
    modify fun app => { app with clockFrozen := true }
    throw e
  | .ok effective =>
    modify fun app =>
      if app.lastTime.all (fun high => decide (high < now)) then { app with lastTime := some now }
      else app
    pure effective

end Application

def tooLong (s : String) : Bool := decide (2048 < s.utf8ByteSize)

/-- The bounds `approve_task` puts on an approval, apart from its identifier. -/
def TaskApproval.malformed (task : TaskApproval) (now : Time) : Bool :=
  task.id.isNil || decide (task.expiresAt ≤ now) || decide (task.fields = ∅)
    || decide (task.permissions = ∅)
    || task.owner == "" || task.principal == "" || task.workspace == "" || task.service == ""
    || task.origin == ""
    || [task.owner, task.principal, task.workspace, task.service, task.origin].any tooLong
    || decide (32 < task.destinations.card)
    || decide (∃ s ∈ task.destinations, s = "" ∨ tooLong s)

def ShareBounds.malformed (bounds : ShareBounds) (task : TaskApproval) (now : Time) : Bool :=
  decide (bounds.recipients = ∅) || decide (32 < bounds.recipients.card)
    || decide (∃ s ∈ bounds.recipients, s = "" ∨ tooLong s)
    || !decide (bounds.fields ⊆ task.fields) || !decide (bounds.permissions ⊆ task.permissions)
    || !decide (bounds.destinations ⊆ task.destinations)
    || decide (task.expiresAt < bounds.expiresAt) || decide (bounds.expiresAt ≤ now)
    || decide (Permission.accessGrant ∈ bounds.permissions)

namespace Application

def approveTask (admin : AuthenticatedContext) (task : TaskApproval) (now : Time) : AppM Unit := do
  let now ← clock now
  failIf (!admin.admin || admin.owner != task.owner || admin.workspace != task.workspace) .denied
  -- Retained tasks bind the vault to one owner even after revocation.
  failIf ((← get).tasks.any fun _ retained =>
      retained.owner != task.owner || retained.workspace != task.workspace) .denied
  failIf (task.malformed now) .invalid
  failIf (task.share.any (·.malformed task now)) .invalid
  failIf ((← get).tasks.contains task.id) .conflict
  failIf (10000 ≤ (← get).tasks.size) .capacity
  modify fun app => { app with tasks := app.tasks.insert task.id task }

def revokeTask (admin : AuthenticatedContext) (id : Uuid) (now : Time) : AppM Unit := do
  let _ ← clock now
  let task ← liftExcept (orElse ((← get).tasks.get? id) .denied)
  failIf (!admin.admin || admin.owner != task.owner || admin.workspace != task.workspace) .denied
  modify fun app => { app with revokedTasks := insert id app.revokedTasks }

def task (app : Application) (ctx : AuthenticatedContext) (id : Uuid) (now : Time) :
    Except Error TaskApproval :=
  match app.tasks.get? id with
  | none => .error .denied
  | some t =>
    if t.owner != ctx.owner || t.workspace != ctx.workspace || t.principal != ctx.principal
        || decide (t.expiresAt ≤ now) || decide (id ∈ app.revokedTasks)
        || ctx.sessionDeadline.any (fun deadline => decide (deadline ≤ now)) then
      .error .denied
    else .ok t

def trustedTaskContext (app : Application) (admin : AuthenticatedContext) (id : Uuid)
    (now : Time) : Except Error AuthenticatedContext :=
  if !admin.admin then .error .denied
  else
    match app.tasks.get? id with
    | none => .error .denied
    | some t =>
      if t.owner != admin.owner || t.workspace != admin.workspace then .error .denied
      else
        let ctx := AuthenticatedContext.fromAuthenticatedPeer t.owner t.principal t.workspace
        match app.task ctx id now with
        | .error e => .error e
        | .ok _ => .ok ctx

def record (app : Application) (ctx : AuthenticatedContext) (id : Uuid) : Except Error Record :=
  match app.records.get? id with
  | none => .error .denied
  | some r =>
    if r.owner != ctx.owner || r.workspace != ctx.workspace || r.deleted then .error .denied
    else .ok r

/-- The closure `can` runs over the grants. -/
def grantCovers (app : Application) (ctx : AuthenticatedContext) (r : Record)
    (permission : Permission) (fields : Fields) (destination : Option String) (now : Time)
    (g : Grant) : Bool :=
  g.record == r.id && !g.revoked && decide (now < g.spec.expiresAt)
    && (if g.spec.followActive then decide (g.version ≤ r.secretVersion)
        else g.version == r.secretVersion)
    && !decide (g.issuerTask ∈ app.revokedTasks)
    && (app.tasks.get? g.issuerTask).any (fun issuer => decide (now < issuer.expiresAt))
    && g.spec.recipient == ctx.principal && decide (permission ∈ g.spec.permissions)
    && decide (fields ⊆ g.spec.fields)
    && destination.all (fun d => decide (d ∈ g.spec.destinations))

def can (app : Application) (ctx : AuthenticatedContext) (t : TaskApproval) (r : Record)
    (permission : Permission) (fields : Fields) (destination : Option String) (now : Time) :
    Bool :=
  if r.service != t.service || r.origin != t.origin || !decide (permission ∈ t.permissions)
      || !decide (fields ⊆ t.fields)
      || destination.any (fun d => !decide (d ∈ t.destinations)) then
    false
  else if r.createdBy == ctx.principal && r.task == t.id then true
  else app.grants.any fun _ g => app.grantCovers ctx r permission fields destination now g

end Application

def Mutation.isDelete : Mutation → Bool
  | .delete .. => true
  | _ => false

def GrantSpec.malformed (grant : GrantSpec) (r : Record) (now : Time) : Bool :=
  decide (grant.fields = ∅) || decide (grant.permissions = ∅) || decide (grant.expiresAt ≤ now)
    || grant.recipient == "" || tooLong grant.recipient
    || decide (Permission.accessGrant ∈ grant.permissions)
    || !decide (grant.fields ⊆ r.values.fields)
    || decide (32 < grant.destinations.card)
    || decide (∃ s ∈ grant.destinations, s = "" ∨ tooLong s)
    || (decide (Permission.secretUse ∈ grant.permissions) && decide (grant.destinations = ∅))

namespace Application

def authorizeGenerate (t : TaskApproval) (kind : CredentialKind) (username : Option String)
    (policy : Option GenerationPolicy) : Except Error Unit :=
  if policy.any (fun policy => !policy.valid) then .error .invalid
  else
    match generationFields kind username with
    | .error e => .error e
    | .ok fields =>
      if !decide (Permission.secretWrite ∈ t.permissions) || !decide (fields ⊆ t.fields) then
        .error .denied
      else .ok ()

def authorizeCreate (t : TaskApproval) (kind : CredentialKind) (values : SecretInput) :
    Except Error Unit :=
  if !values.valid then .error .invalid
  else if !decide (Permission.secretWrite ∈ t.permissions) || !decide (values.fields ⊆ t.fields)
  then .error .denied
  else if (kind == .login && (!values.contains .password || values.contains .apiKey))
      || (kind == .apiKey && (!values.contains .apiKey || values.contains .password)) then
    .error .invalid
  else .ok ()

def authorizePatch (app : Application) (ctx : AuthenticatedContext) (t : TaskApproval)
    (r : Record) (values : SecretInput) (now : Time) : Except Error Unit :=
  if !values.valid then .error .invalid
  else if !app.can ctx t r .secretWrite values.fields none now then .error .denied
  else if (r.kind == .login && values.contains .apiKey)
      || (r.kind == .apiKey && values.contains .password) then
    .error .invalid
  else .ok ()

def authorizeShare (app : Application) (ctx : AuthenticatedContext) (t : TaskApproval)
    (r : Record) (grant : GrantSpec) (now : Time) : Except Error Unit :=
  if grant.malformed r now then .error .invalid
  else if !ctx.admin then
    match t.share with
    | none => .error .denied
    | some bounds =>
      if !app.can ctx t r .accessGrant grant.fields none now
          || (grant.followActive && !bounds.allowFollowActive)
          || !decide (grant.recipient ∈ bounds.recipients)
          || !decide (grant.fields ⊆ bounds.fields)
          || !decide (grant.permissions ⊆ bounds.permissions)
          || !decide (grant.destinations ⊆ bounds.destinations)
          || decide (bounds.expiresAt < grant.expiresAt) then
        .error .denied
      else if ∃ permission ∈ grant.permissions,
          app.can ctx t r permission grant.fields none now = false then
        .error .denied
      else .ok ()
  else if r.service != t.service || r.origin != t.origin || !decide (grant.fields ⊆ t.fields)
      || !decide (grant.permissions ⊆ t.permissions)
      || !decide (grant.destinations ⊆ t.destinations)
      || decide (t.expiresAt < grant.expiresAt) then
    .error .denied
  else .ok ()

/-- The per-mutation part of `authorize` on an existing record. -/
def authorizeTarget (app : Application) (ctx : AuthenticatedContext) (t : TaskApproval)
    (op : Mutation) (id : Uuid) (r : Record) (now : Time) : Except Error Unit :=
  match op with
  | .patch _ _ values => app.authorizePatch ctx t r values now
  | .delete _ _ =>
    if !ctx.admin && !app.can ctx t r .entryDelete r.values.fields none now then .error .denied
    else .ok ()
  | .share _ _ grant => app.authorizeShare ctx t r grant now
  | .revoke _ _ grant =>
    match app.grants.get? grant with
    | none => .error .denied
    | some g =>
      if g.record != id || (!ctx.admin && !app.can ctx t r .accessGrant g.spec.fields none now)
      then .error .denied
      else .ok ()
  | .reportOutcome _ _ state =>
    -- Agent reports cannot promote themselves to verified adapter evidence.
    if state == .verifiedLogin || !app.can ctx t r .secretWrite ∅ none now then .error .denied
    else .ok ()
  | .create .. | .generate .. => .ok ()

def authorize (app : Application) (ctx : AuthenticatedContext) (t : TaskApproval)
    (op : Mutation) (now : Time) (retry : Bool) : Except Error Unit :=
  match op with
  | .generate kind username policy => authorizeGenerate t kind username policy
  | .create kind values => authorizeCreate t kind values
  | .patch id expected _ | .delete id expected | .share id expected _
  | .revoke id expected _ | .reportOutcome id expected _ =>
    -- Deleted records still permit only an authorized identical deletion receipt retry.
    match app.records.get? id with
    | none => .error .denied
    | some r =>
      if r.owner != ctx.owner || r.workspace != ctx.workspace
          || (r.deleted && !(retry && op.isDelete)) then
        .error .denied
      else
        match app.authorizeTarget ctx t op id r now with
        | .error e => .error e
        | .ok () =>
          if !retry && r.revision != expected then .error .conflict
          else if !retry && r.revision == maxU64 then .error .capacity
          else .ok ()

end Application

/-- `Uuid::new_v4` and `OsRng` as one call of `mutate` draws them. -/
structure Draw where
  id : Uuid
  entropy : Entropy

def Mutation.cachedKind : Mutation → CachedKind
  | .create .. | .generate .. => .create
  | .patch _ _ values => if values.changesCredential then .patch else .metadataPatch
  | .delete .. => .delete
  | .share .. => .share
  | .revoke .. => .revoke
  | .reportOutcome .. => .reportOutcome

def Mutation.creates : Mutation → Bool
  | .create .. | .generate .. => true
  | _ => false

namespace Application

/-- Fingerprint and cache checks use the nonsecret `Generate` specification;
this replaces it by the creation it stands for. -/
def resolve (app : Application) (op : Mutation) (draw : Draw) : Except Error Mutation :=
  match op with
  | .generate kind username policy =>
    if 10000 ≤ app.records.size then .error .capacity
    else
      match generateValues kind username policy draw.entropy with
      | .error e => .error e
      | .ok values => .ok (.create kind values)
  | other => .ok other

def performCreate (ctx : AuthenticatedContext) (t : TaskApproval) (task : Uuid)
    (kind : CredentialKind) (values : SecretInput) (draw : Draw) : AppM Receipt := do
  failIf (10000 ≤ (← get).records.size) .capacity
  modify fun app => { app with records := app.records.insert draw.id {
    id := draw.id, owner := ctx.owner, workspace := ctx.workspace, createdBy := ctx.principal
    task, service := t.service, origin := t.origin, kind, revision := 1, secretVersion := 1
    values, signup := .pending, deleted := false, restored := false } }
  pure { record := draw.id, revision := 1, grant := none }

/-- `records.get_mut(&record).ok_or(Error::Denied)?` followed by an update. -/
def updateRecord (record : Uuid) (f : Record → Except Error Record) : AppM Record := do
  let r ← liftExcept (orElse ((← get).records.get? record) .denied)
  let r ← liftExcept (f r)
  modify fun app => { app with records := app.records.insert record r }
  pure r

def patched (values : SecretInput) (r : Record) : Except Error Record :=
  if values.changesCredential then
    if r.secretVersion == maxU64 then .error .capacity
    else .ok { r with
      secretVersion := r.secretVersion + 1, signup := .pending
      values := r.values.extend values, revision := r.revision + 1 }
  else .ok { r with values := r.values.extend values, revision := r.revision + 1 }

def perform (ctx : AuthenticatedContext) (t : TaskApproval) (task : Uuid) (op : Mutation)
    (draw : Draw) : AppM Receipt :=
  match op with
  | .generate .. => throw .invalid -- unreachable: `resolve` has replaced it
  | .create kind values => performCreate ctx t task kind values draw
  | .patch record _ values => do
    let r ← updateRecord record (patched values)
    pure { record, revision := r.revision, grant := none }
  | .share record _ spec => do
    failIf (10000 ≤ (← get).grants.size) .capacity
    let version := (← liftExcept (orElse ((← get).records.get? record) .denied)).secretVersion
    modify fun app => { app with grants := app.grants.insert draw.id {
      record, spec, revoked := false, version, issuerTask := task, adminIssued := ctx.admin } }
    let r ← updateRecord record fun r => .ok { r with revision := r.revision + 1 }
    pure { record, revision := r.revision, grant := some draw.id }
  | .revoke record _ grant => do
    let g ← liftExcept (orElse ((← get).grants.get? grant) .denied)
    modify fun app => { app with grants := app.grants.insert grant { g with revoked := true } }
    let r ← updateRecord record fun r => .ok { r with revision := r.revision + 1 }
    pure { record, revision := r.revision, grant := some grant }
  | .delete record _ => do
    let r ← updateRecord record fun r =>
      .ok { r with deleted := true, values := ∅, revision := r.revision + 1 }
    modify fun app => { app with grants := app.grants.mapVals fun _ g =>
      if g.record == record then { g with revoked := true } else g }
    pure { record, revision := r.revision, grant := none }
  | .reportOutcome record _ state => do
    let r ← updateRecord record fun r =>
      .ok { r with signup := state, revision := r.revision + 1 }
    pure { record, revision := r.revision, grant := none }

def mutate (P : Platform) (ctx : AuthenticatedContext) (task request : Uuid) (op : Mutation)
    (now : Time) (draw : Draw) : AppM Receipt := do
  let now ← clock now
  failIf request.isNil .invalid
  let t ← liftExcept ((← get).task ctx task now)
  liftExcept ((← get).authorize ctx t op now true)
  let key : RequestKey := { owner := ctx.owner, principal := ctx.principal, task, id := request }
  failIf ((← get).deliveries.any fun _ delivery => delivery.key == key) .replayConflict
  let bytes := P.mutationJson op
  failIf (65536 < bytes.length) .invalid
  let fingerprint := P.sha256 bytes
  match (← get).requests.get? key with
  | some previous =>
    -- No cached result is a capability, even if request ID and input match.
    failIf (previous.fingerprint != fingerprint) .replayConflict
    if op.creates then
      let _ ← liftExcept ((← get).record ctx previous.result.record)
    pure previous.result
  | none =>
    liftExcept ((← get).authorize ctx t op now false)
    failIf (10000 ≤ (← get).requests.size) .capacity
    let kind := op.cachedKind
    let op ← liftExcept ((← get).resolve op draw)
    let receipt ← perform ctx t task op draw
    modify fun app => { app with requests := app.requests.insert key {
      fingerprint, result := receipt, kind, storedAt := some now } }
    modify fun app => app.pushAudit {
      task, record := receipt.record, request := some request, action := .mutation
      loggedAt := now, principal := ctx.principal }
    pure receipt

/-- The loop of `select` over the requested fields. -/
def gather (r : Record) : List Field → SecretInput → Except Error SecretInput
  | [], values => .ok values
  | field :: rest, values =>
    match r.values.get? field with
    | none => .error .denied
    | some value => gather r rest (values.insert field value)

def select (app : Application) (ctx : AuthenticatedContext) (task record : Uuid) (fields : Fields)
    (permission : Permission) (destination : Option String) (now : Time) :
    Except Error SecretInput := do
  failIf (fields = ∅) .invalid
  failIf (permission = .metadataRead ∧ ∃ f ∈ fields, f.secret = true) .denied
  let t ← app.task ctx task now
  let r ← app.record ctx record
  failIf (!app.can ctx t r permission fields destination now) .denied
  gather r fields.ordered ∅

def readSecret (ctx : AuthenticatedContext) (task record : Uuid) (fields : Fields) (now : Time) :
    AppM SecretInput := do
  let now ← clock now
  let result ← liftExcept ((← get).select ctx task record fields .secretRead none now)
  modify fun app => app.pushAudit {
    task, record, request := none, action := .secretRead, loggedAt := now
    principal := ctx.principal }
  pure result

def metadata (ctx : AuthenticatedContext) (task record : Uuid) (fields : Fields) (now : Time) :
    AppM MetadataView := do
  let now ← clock now
  let values ← liftExcept ((← get).select ctx task record fields .metadataRead none now)
  let r ← liftExcept ((← get).record ctx record)
  modify fun app => app.pushAudit {
    task, record, request := none, action := .metadataRead, loggedAt := now
    principal := ctx.principal }
  pure { revision := r.revision, signup := r.signup, fields := values }

end Application

end Credman
