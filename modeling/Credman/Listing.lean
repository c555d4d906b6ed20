import Credman.Attachment
import Credman.AuditPages
import Mathlib.Data.Finset.Sort

/-! What the administrator is shown of a vault and of its sessions: counts, and pages of tasks,
records, grants and sessions. Metadata and secret values stay on the task-scoped path. -/
namespace Credman

open Library

def Permission.text : Permission → String
  | .metadataRead => "MetadataRead"
  | .secretUse => "SecretUse"
  | .secretRead => "SecretRead"
  | .secretWrite => "SecretWrite"
  | .accessGrant => "AccessGrant"
  | .entryDelete => "EntryDelete"

def CredentialKind.text : CredentialKind → String
  | .login => "Login"
  | .apiKey => "ApiKey"

/-- The permissions of a set in `BTreeSet` iteration order. -/
def Permissions.ordered (permissions : Permissions) : List Permission :=
  [Permission.metadataRead, .secretUse, .secretRead, .secretWrite, .accessGrant, .entryDelete].filter
    (· ∈ permissions)

def natJson (n : Nat) : Json := .number (.posInt (UInt64.ofNat n))

def idJson (id : Uuid) : Json := .string id.text

def textsJson (texts : Finset String) : Json := .array ((texts.sort (· ≤ ·)).map .string)

def Fields.json (fields : Fields) : Json := .array (fields.ordered.map fun f => .string f.text)

def Permissions.json (permissions : Permissions) : Json :=
  .array (permissions.ordered.map fun p => .string p.text)

def ShareBounds.json (bounds : ShareBounds) : Json :=
  .obj ([("recipients", textsJson bounds.recipients), ("fields", Fields.json bounds.fields),
    ("permissions", Permissions.json bounds.permissions), ("destinations", textsJson bounds.destinations),
    ("expires_at", bounds.expiresAt.json)]
    ++ if bounds.allowFollowActive then [("allow_follow_active", .bool true)] else [])

def taskView (task : TaskApproval) (revoked : Bool) : Json :=
  .obj [("id", idJson task.id), ("owner", .string task.owner), ("principal", .string task.principal),
    ("workspace", .string task.workspace), ("service", .string task.service),
    ("origin", .string task.origin), ("fields", Fields.json task.fields),
    ("permissions", Permissions.json task.permissions), ("destinations", textsJson task.destinations),
    ("expires_at", task.expiresAt.json),
    ("share", match task.share with
      | some bounds => bounds.json
      | none => .null),
    ("revoked", .bool revoked)]

/-- Record values, including metadata, are intentionally absent. -/
def recordView (r : Record) : Json :=
  .obj [("id", idJson r.id), ("service", .string r.service), ("origin", .string r.origin),
    ("kind", .string r.kind.text), ("revision", .number (.posInt r.revision)),
    ("secret_version", .number (.posInt r.secretVersion)), ("deleted", .bool r.deleted),
    ("signup", .string r.signup.text), ("created_by", .string r.createdBy), ("task", idJson r.task)]

def grantView (id : Uuid) (g : Grant) : Json :=
  .obj [("id", idJson id), ("record", idJson g.record), ("recipient", .string g.spec.recipient),
    ("fields", Fields.json g.spec.fields), ("permissions", Permissions.json g.spec.permissions),
    ("destinations", textsJson g.spec.destinations), ("expires_at", g.spec.expiresAt.json),
    ("revoked", .bool g.revoked), ("version", .number (.posInt g.version)),
    ("issuer_task", idJson g.issuerTask)]

def countOf (count : Nat) : Json := .obj [("count", natJson count), ("capacity", natJson 10000)]

namespace Application

def readable (ctx : AuthenticatedContext) (frozen : Bool) : Except Error Unit := do
  failIf (ctx.admin = false) .denied
  failIf (frozen = true) .recoveryRequired

def taskInScope (app : Application) (id : Uuid) (owner workspace : String) : Bool :=
  (app.tasks.get? id).any fun task => task.owner == owner && task.workspace == workspace

/-- The live and the deleted records of a scope. -/
def recordCounts (app : Application) (owner workspace : String) : Nat × Nat :=
  (app.records.entries.filter fun e => e.2.owner == owner && e.2.workspace == workspace).foldl
    (fun counts e => if e.2.deleted then (counts.1, counts.2 + 1) else (counts.1 + 1, counts.2)) (0, 0)

def scopedGrants (app : Application) (owner workspace : String) : List (Uuid × Grant) :=
  app.grants.entries.filter fun e => (app.records.get? e.2.record).any fun r =>
    r.owner == owner && r.workspace == workspace

def statusValue (app : Application) (ctx : AuthenticatedContext) (frozen : Bool) : Except Error Json := do
  failIf (ctx.admin = false) .denied
  let (live, deleted) := app.recordCounts ctx.owner ctx.workspace
  pure (.obj [
    ("tasks", countOf (app.tasks.entries.filter fun e =>
      e.2.owner == ctx.owner && e.2.workspace == ctx.workspace).length),
    ("records", .obj [("live", natJson live), ("deleted", natJson deleted), ("capacity", natJson 10000)]),
    ("grants", countOf (app.scopedGrants ctx.owner ctx.workspace).length),
    ("requests", countOf (app.requests.entries.filter fun e =>
      e.1.owner == ctx.owner && app.taskInScope e.1.task ctx.owner ctx.workspace).length),
    ("deliveries", countOf (app.deliveries.entries.filter fun e =>
      e.2.key.owner == ctx.owner && app.taskInScope e.2.task ctx.owner ctx.workspace).length),
    ("audit", countOf (app.audit.filter fun e => app.taskInScope e.task ctx.owner ctx.workspace).length),
    ("frozen", .bool frozen), ("clock_frozen", .bool app.clockFrozen)])

def tasksPage (S : SerdeJson) (app : Application) (ctx : AuthenticatedContext) (offset : Nat)
    (frozen : Bool) : Except Error Json := do
  readable ctx frozen
  boundedPage S "tasks" ((app.tasks.entries.filter fun e =>
      e.2.owner == ctx.owner && e.2.workspace == ctx.workspace).map fun e =>
    taskView e.2 (decide (e.2.id ∈ app.revokedTasks))) offset

def recordsPage (S : SerdeJson) (app : Application) (ctx : AuthenticatedContext) (offset : Nat)
    (frozen : Bool) : Except Error Json := do
  readable ctx frozen
  boundedPage S "records" ((app.records.entries.filter fun e =>
    e.2.owner == ctx.owner && e.2.workspace == ctx.workspace).map fun e => recordView e.2) offset

def grantsPage (S : SerdeJson) (app : Application) (ctx : AuthenticatedContext) (offset : Nat)
    (record : Option Uuid) (frozen : Bool) : Except Error Json := do
  readable ctx frozen
  boundedPage S "grants" (((app.scopedGrants ctx.owner ctx.workspace).filter fun e =>
    record.all fun id => e.2.record == id).map fun e => grantView e.1 e.2) offset

end Application

namespace DurableVault

def adminFrozen (owner : DurableVault) : Bool := owner.frozen || owner.store.blocked

def operationalStatus (owner : DurableVault) (ctx : AuthenticatedContext) : Except Error Json :=
  owner.app.statusValue ctx owner.adminFrozen

def listTasks (S : SerdeJson) (owner : DurableVault) (ctx : AuthenticatedContext) (offset : Nat) :
    Except Error Json := owner.app.tasksPage S ctx offset owner.adminFrozen

def listRecords (S : SerdeJson) (owner : DurableVault) (ctx : AuthenticatedContext) (offset : Nat) :
    Except Error Json := owner.app.recordsPage S ctx offset owner.adminFrozen

def listGrants (S : SerdeJson) (owner : DurableVault) (ctx : AuthenticatedContext) (offset : Nat)
    (record : Option Uuid) : Except Error Json := owner.app.grantsPage S ctx offset record owner.adminFrozen

def validateSessionTasks (owner : DurableVault) (ctx : AuthenticatedContext) (principal : String)
    (tasks : List Uuid) (now : Time) : Except Error Unit :=
  owner.app.validateSessionTasks ctx principal tasks now owner.adminFrozen

end DurableVault

namespace Sessions

/-- The sessions that are attached, and those that wait for their token. -/
def census (s : Sessions) (now : Time) : Nat × Nat :=
  s.entries.entries.foldl (fun counts e =>
    if e.2.expiresAt ≤ now then counts
    else if e.2.digest.isNone then (counts.1 + 1, counts.2) else (counts.1, counts.2 + 1)) (0, 0)

def sessionView (id : Uuid) (session : Session) : Json :=
  .obj [("id", idJson id), ("principal", .string session.principal),
    ("tasks", .array ((session.tasks.sort (· ≤ ·)).map idJson)), ("expires_at", session.expiresAt.json),
    ("attached", .bool session.digest.isNone)]

def list (S : SerdeJson) (s : Sessions) (owner workspace : String) (offset : Nat) : Except Error Json := do
  failIf (owner ≠ s.owner ∨ workspace ≠ s.workspace) .denied
  boundedPage S "sessions" (s.entries.entries.map fun e => sessionView e.1 e.2) offset

end Sessions

def SessionGrant.json (grant : SessionGrant) : Json :=
  .obj [("ok", .bool true), ("session", .obj [("id", idJson grant.id), ("socket", .string grant.socket),
    ("token", .string grant.token), ("expires_at", grant.expiresAt.json)])]

/-- What the broker adds to the status of the vault. -/
def attachRuntime (status : Json) (sessions : Sessions) (now : Time) (deadlineSecs : Nat) : Json :=
  match status with
  | .object members =>
    let (live, pending) := sessions.census now
    .object (OrdMap.insertEntry "deadline_secs" (natJson deadlineSecs)
      (OrdMap.insertEntry "sessions" (.obj [("live", natJson live), ("pending", natJson pending),
          ("capacity", natJson Sessions.capacity)])
        (OrdMap.insertEntry "ok" (.bool true) members)))
  | status => status

end Credman
