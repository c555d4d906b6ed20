import Credman.Listing
import Credman.Workload

/-! The owner process of a store: what it is configured with, who speaks on its channels, and
what one turn of its run loop does. -/
namespace Credman

open Library

def identifier (value : String) : Bool := value != "" && decide (value.utf8ByteSize ≤ 2048)

def minLifetimeSecs : UInt64 := 60
def maxLifetimeSecs : UInt64 := 86400

def boundedLifetime (secs : UInt64) : Except Error UInt64 :=
  if minLifetimeSecs ≤ secs ∧ secs ≤ maxLifetimeSecs then .ok secs else .error .invalid

structure SupervisorConfig where
  owner : String
  workspace : String
  adminPrincipal : String
  /-- The principal of each transferred channel. -/
  peers : List String
  destinations : List Destination := []
  maxLifetimeSecs : UInt64 := 300
  idleTimeoutSecs : Option UInt64 := none

namespace SupervisorConfig

def lifetimes (config : SupervisorConfig) : Except Error (UInt64 × Option UInt64) := do
  let lifetime ← boundedLifetime config.maxLifetimeSecs
  let idle ← match config.idleTimeoutSecs with
    | none => pure none
    | some secs => do pure (some (← boundedLifetime secs))
  failIf (idle.any fun idle => decide (lifetime < idle)) .invalid
  pure (lifetime, idle)

/-- Every destination is one that may be dialed, and has an id of its own. -/
def checkDestinations (files : FileSystem) (ids : List String) : List Destination → Except Error Unit
  | [] => .ok ()
  | d :: rest => do
    d.validate files
    failIf (d.id ∈ ids) .invalid
    checkDestinations files (d.id :: ids) rest

def checkPeers (principals : List String) : List String → Except Error Unit
  | [] => .ok ()
  | p :: rest => do
    failIf (identifier p = false ∨ p ∈ principals) .invalid
    checkPeers (p :: principals) rest

/-- What a process checks before it touches its store. -/
def check (files : FileSystem) (bridge : Option String) (config : SupervisorConfig) :
    Except Error (UInt64 × Option UInt64) := do
  failIf (identifier config.owner = false ∨ identifier config.workspace = false
    ∨ identifier config.adminPrincipal = false ∨ (config.peers = [] ∧ bridge = none)
    ∨ 16 < config.peers.length) .invalid
  let lifetimes ← config.lifetimes
  failIf (16 < config.destinations.length) .invalid
  checkDestinations files [] config.destinations
  checkPeers [config.adminPrincipal] config.peers
  pure lifetimes

end SupervisorConfig

/-- A channel, and who speaks on it. -/
structure Peer where
  context : AuthenticatedContext
  session : Option Uuid
  admin : Bool
  active : Bool

inductive AdminControl where
  | importSecret (task request : Uuid) (kind : CredentialKind) (values : SecretInput)
  | readSecret (task record : Uuid) (fields : Fields)
  | status
  | approve (approval : TaskApproval)
  | revokeTask (task : Uuid)
  | issueSession (principal : String) (tasks : List Uuid) (expiresAt : Time)
  | revokeSession (session : Uuid)
  | audit (offset : Nat)
  | listTasks (offset : Nat)
  | listRecords (offset : Nat)
  | listGrants (offset : Nat) (record : Option Uuid)
  | listSessions (offset : Nat)
  | shutdown

inductive AdminRequest where
  | control (control : AdminControl)
  | work (request : WorkRequest)

/-- The decoders serde derives for both kinds of request. -/
structure AdminSerde extends Serde where
  adminControl : Json → Option AdminControl

def AdminRequest.parse (S : AdminSerde) (value : Json) : Except Error AdminRequest :=
  match value.get? "op" with
  | some (.string op) =>
    if op ∈ ["generate", "mutate", "metadata", "use"] then
      orElse ((S.workRequest value).map .work) .invalid
    else orElse ((S.adminControl value).map .control) .invalid
  | _ => orElse ((S.adminControl value).map .control) .invalid

/-- What one message is handled with. -/
structure Turn extends Surroundings where
  random : Option (Vector UInt8 32)
  sessionId : Uuid
  deadlineSecs : Nat

/-- The samples that are left once the run loop has taken its own. -/
def Turn.rest (turn : Turn) : Surroundings := { turn.toSurroundings with now := fun n => turn.now (n + 2) }

/-- A response, and whether the process ends with it. -/
abbrev Served := Except Error (Json × Bool)

def okJson : Json := .obj [("ok", .bool true)]

def Handled.served : Handled WorkReply → Handled (Json × Bool)
  | .result r => .result (r.map fun reply => (reply.json, false))
  | .panicked => .panicked

def disclosureJson (values : SecretInput) : Json :=
  .obj [("ok", .bool true), ("permission", .string "secret.read"),
    ("fields", .obj (values.entries.map fun e => (e.1.text, .string e.2)))]

namespace DurableVault

/-- The requests that leave the vault as it is, and may change the table of sessions. -/
def look (P : Platform) (S : SerdeJson) (owner : DurableVault) (turn : Turn) (ctx : AuthenticatedContext)
    (sessions : Sessions) : AdminControl → Sessions × Served
  | .status => (sessions, (owner.operationalStatus ctx).map fun status =>
      (attachRuntime status sessions (turn.rest.now 0) turn.deadlineSecs, false))
  | .issueSession principal tasks expiresAt =>
    match sessions.issue P principal tasks expiresAt (turn.rest.now 0)
        (fun ids who => owner.validateSessionTasks ctx who ids (turn.rest.now 0)) turn.random turn.sessionId with
    | .ok grant sessions => (sessions, .ok (grant.json, false))
    | .error e sessions => (sessions, .error e)
  | .revokeSession session =>
    ({ sessions with entries := sessions.entries.erase session }, .ok (okJson, false))
  | .audit offset => (sessions, (owner.audit ctx offset).map fun page => (page, false))
  | .listTasks offset => (sessions, (owner.listTasks S ctx offset).map fun page => (page, false))
  | .listRecords offset => (sessions, (owner.listRecords S ctx offset).map fun page => (page, false))
  | .listGrants offset record =>
    (sessions, (owner.listGrants S ctx offset record).map fun page => (page, false))
  | .listSessions offset =>
    (sessions, (sessions.list S ctx.owner ctx.workspace offset).map fun page => (page, false))
  | .shutdown => (sessions, .ok (okJson, true))
  | .importSecret .. | .readSecret .. | .approve .. | .revokeTask .. => (sessions, .error .invalid)

/-- `admin`. Human-issued grants may include `SecretRead`: a share does not go through `work`. -/
def admin (P : Platform) (S : SerdeJson) (owner : DurableVault) (turn : Turn)
    (destinations : List Destination) (ctx : AuthenticatedContext) (sessions : Sessions) :
    AdminRequest → VaultIo (DurableVault × Sessions × Handled (Json × Bool))
  | .work (.mutate task request (.share record expected grant)) => do
    let (owner, result) ← owner.mutate P ctx task request (.share record expected grant) (turn.rest.now 0)
    pure (owner, sessions, .result (result.map fun r => ((WorkReply.receipt r).json, false)))
  | .work request => do
    let (owner, handled) ← owner.work P turn.rest destinations ctx request
    pure (owner, sessions, handled.served)
  | .control (.importSecret task request kind values) => do
    let (owner, result) ← owner.importForTask P ctx task request kind values (turn.rest.now 0)
    pure (owner, sessions, .result (result.map fun r => ((WorkReply.receipt r).json, false)))
  | .control (.readSecret task record fields) => do
    let (owner, result) ← owner.readForTask P ctx task record fields (turn.rest.now 0)
    pure (owner, sessions, .result (result.map fun values => (disclosureJson values, false)))
  | .control (.approve approval) => do
    let (owner, result) ← owner.approveTask P ctx approval (turn.rest.now 0)
    pure (owner, sessions, .result (result.map fun _ => (okJson, false)))
  | .control (.revokeTask task) => do
    let (owner, result) ← owner.revokeTask P ctx task (turn.rest.now 0)
    pure (owner, sessions, .result (result.map fun _ => (okJson, false)))
  | .control control =>
    let (sessions, served) := owner.look P S turn ctx sessions control
    pure (owner, sessions, .result served)

end DurableVault

/-- An owner process, apart from its vault. -/
structure Broker where
  config : SupervisorConfig
  sessions : Sessions
  peers : List Peer

namespace Broker

/-- The process once its configuration has been checked and its store opened. -/
def new (config : SupervisorConfig) (bridge : Option String) (sessionDeadline : Time) : Broker where
  config := config
  sessions := Sessions.new config.owner config.workspace config.adminPrincipal bridge sessionDeadline
  peers :=
    { context := .fromAuthenticatedAdmin config.owner config.adminPrincipal config.workspace
      session := none, admin := true, active := true }
    :: config.peers.map fun principal =>
      { context := .fromAuthenticatedPeer config.owner principal config.workspace
        session := none, admin := false, active := true }

def setActive (b : Broker) (n : Nat) (p : Peer) (active : Bool) : Broker :=
  { b with peers := b.peers.set n { p with active } }

/-- Peers whose session is over, or whose channel has failed, are let go with their sessions. -/
def sweep (b : Broker) (now : Time) : Broker :=
  let lapsed (p : Peer) : Bool := !p.active || p.session.any fun id => !b.sessions.live id now
  let gone := (b.peers.filter lapsed).filterMap (·.session)
  { b with
    peers := b.peers.filter fun p => !lapsed p
    sessions := { b.sessions with entries := b.sessions.entries.filter fun id _ => id ∉ gone } }

/-- `admit`, once the channel has delivered a token: the answer may not get through. -/
def admitPeer (P : Platform) (b : Broker) (token : String) (now : Time) (sent : Bool) : Broker :=
  match b.sessions.attach P token now with
  | .ok (id, context) sessions =>
    if sent then
      { b with sessions, peers := b.peers ++ [{ context, session := some id, admin := false, active := true }] }
    else { b with sessions := { sessions with entries := sessions.entries.erase id } }
  | .error _ sessions => { b with sessions }

variable (P : Platform) (S : AdminSerde)

/-- What the owner of a store does with a message of one peer. -/
def serve (owner : DurableVault) (b : Broker) (p : Peer) (value : Json) (turn : Turn) :
    VaultIo (DurableVault × Sessions × Handled (Json × Bool)) :=
  if p.admin then
    match AdminRequest.parse S value with
    | .error e => pure (owner, b.sessions, .result (.error e))
    | .ok request =>
      owner.admin P S.toSerdeJson turn b.config.destinations p.context b.sessions request
  else
    match S.workRequest value with
    | none => pure (owner, b.sessions, .result (.error .invalid))
    | some request =>
      if p.session.any fun id => !b.sessions.permits id request.task (turn.now 1) then
        pure (owner, b.sessions, .result (.error .denied))
      else do
        let (owner, handled) ← owner.work P turn.rest b.config.destinations p.context request
        pure (owner, b.sessions, handled.served)

/-- What is left of the process after a message: it ends at a shutdown, or when the administrator
cannot be answered. -/
def conclude (b : Broker) (n : Nat) (p : Peer) (served : Served) (sent : Bool) : Option Broker :=
  let stop := match served with
    | .ok (_, stop) => stop
    | .error _ => false
  if stop then none
  else if sent then some b
  else if p.admin then none
  else some (b.setActive n p false)

end Broker

/-- The stores of one human, and the process that runs on each. -/
structure Deployment where
  fleet : Fleet
  brokers : Nat → Option Broker

/-- The offline commands of the administrator. -/
inductive Operation where
  | backup (secret : BackupSecret)
  | restore (secret : BackupSecret) (backup : Nat) (now : Time)
  | recover (now : Time)
  | rekey (newSeed : String)

/-- Who runs an offline command. -/
structure Identity where
  owner : String
  principal : String
  workspace : String

def Identity.valid (identity : Identity) : Bool :=
  [identity.owner, identity.principal, identity.workspace].all fun s =>
    !s.toList.all isWhitespace && !tooLong s

/-- What happens at one store. -/
inductive Happening where
  | launched (config : SupervisorConfig) (bridge : Option String) (seed : String) (create : Bool)
      (files : FileSystem) (sessionDeadline : Time)
  /-- A peer has sent a value; its answer may not get through. -/
  | message (n : Nat) (value : Json) (turn : Turn) (sent : Bool)
  /-- The channel of a peer fails. -/
  | hungUp (n : Nat)
  | swept (now : Time)
  | admitted (token : String) (now : Time) (sent : Bool)
  /-- The deadline or the idle limit has passed, or the process was stopped. -/
  | exited
  | maintained (identity : Identity) (seed : String) (operation : Operation)

/-- The call that opens the store for an offline command, and what is asked of its owner. -/
def Operation.calls (admin : AuthenticatedContext) (seed : String) : Operation → Call × Option Call
  | .backup secret => (.open seed, some (.exportBackup admin secret))
  | .restore secret number now => (.restore seed admin number secret now, none)
  | .recover now => (.recover seed admin now, none)
  | .rekey newSeed => (.open seed, some (.rekey admin newSeed))

/-- An offline command: a process of its own, which holds the store while it lasts. -/
def Fleet.maintain (P : Platform) (fleet : Fleet) (i : Nat) (calls : Call × Option Call)
    (faults : List (List Fault)) : Fleet :=
  let entered := fleet.step P i calls.1 (faults.headD [])
  match entered.2 with
  | .opened (.ok ()) =>
    let asked := match calls.2 with
      | some call => (entered.1.step P i call (faults.tail.headD [])).1
      | none => entered.1
    (asked.step P i .close []).1
  | _ => entered.1

namespace Deployment

def start : Deployment := { fleet := Fleet.start, brokers := fun _ => none }

def put (d : Deployment) (i : Nat) (fleet : Fleet) (broker : Option Broker) : Deployment :=
  { fleet, brokers := Function.update d.brokers i broker }

@[simp] theorem put_fleet (d : Deployment) (i : Nat) (fleet : Fleet) (broker : Option Broker) :
    (d.put i fleet broker).fleet = fleet := rfl

@[simp] theorem put_self (d : Deployment) (i : Nat) (fleet : Fleet) (broker : Option Broker) :
    (d.put i fleet broker).brokers i = broker := Function.update_self ..

theorem put_ne {i j : Nat} (hj : j ≠ i) (d : Deployment) (fleet : Fleet) (broker : Option Broker) :
    (d.put i fleet broker).brokers j = d.brokers j := Function.update_of_ne hj ..

/-- The process at a store is gone, and with it the owner. -/
def exit (P : Platform) (d : Deployment) (i : Nat) : Deployment :=
  d.put i (d.fleet.step P i .close []).1 none

/-- One message, up to the answer. -/
def message (P : Platform) (S : AdminSerde) (d : Deployment) (i : Nat) (b : Broker) (n : Nat) (p : Peer)
    (value : Json) (turn : Turn) (sent : Bool) (faults : List Fault) : Deployment :=
  match d.fleet.host i faults (fun owner => b.serve P S owner p value turn) with
  | (fleet, none) => d.put i fleet none
  | (fleet, some (_, .panicked)) => ({ d with fleet } : Deployment).exit P i
  | (fleet, some (sessions, .result served)) =>
    match Broker.conclude { b with sessions } n p served sent with
    | some b => d.put i fleet (some b)
    | none => ({ d with fleet } : Deployment).exit P i

/-- What the peer is sent for a message, if the process is still there. -/
def response (P : Platform) (S : AdminSerde) (d : Deployment) (i : Nat) (b : Broker) (p : Peer)
    (value : Json) (turn : Turn) (faults : List Fault) : Option Json :=
  match (d.fleet.host i faults (fun owner => b.serve P S owner p value turn)).2 with
  | some (_, .result served) => some (respond S.toSerde (served.map Prod.fst))
  | _ => none

def launch (P : Platform) (d : Deployment) (i : Nat) (config : SupervisorConfig) (bridge : Option String)
    (seed : String) (create : Bool) (files : FileSystem) (sessionDeadline : Time) (faults : List Fault) :
    Deployment :=
  match config.check files bridge with
  | .error _ => d
  | .ok _ =>
    match d.fleet.step P i (if create then .create seed else .open seed) faults with
    | (fleet, .opened (.ok ())) => d.put i fleet (some (Broker.new config bridge sessionDeadline))
    | (fleet, _) => { d with fleet }

def step (P : Platform) (S : AdminSerde) (d : Deployment) (i : Nat) (happening : Happening)
    (faults : List (List Fault)) : Deployment :=
  match happening, d.brokers i with
  | .launched config bridge seed create files sessionDeadline, _ =>
    d.launch P i config bridge seed create files sessionDeadline (faults.headD [])
  | .maintained identity seed operation, _ =>
    if identity.valid then
      let admin := .fromAuthenticatedAdmin identity.owner identity.principal identity.workspace
      { d with fleet := d.fleet.maintain P i (operation.calls admin seed) faults }
    else d
  | _, none => d
  | .message n value turn sent, some b =>
    match b.peers[n]? with
    | none => d
    | some p =>
      if !p.active then d
      else if p.session.any fun id => !b.sessions.live id (turn.now 0) then
        d.put i d.fleet (some (b.setActive n p false))
      else d.message P S i b n p value turn sent (faults.headD [])
  | .hungUp n, some b =>
    match b.peers[n]? with
    | none => d
    | some p => if p.admin then d.exit P i else d.put i d.fleet (some (b.setActive n p false))
  | .swept now, some b => d.put i d.fleet (some (b.sweep now))
  | .admitted token now sent, some b => d.put i d.fleet (some (b.admitPeer P token now sent))
  | .exited, some _ => d.exit P i

/-- One happening, with any faults, among those that are allowed. -/
def Goes (P : Platform) (S : AdminSerde) (allows : Deployment → Nat → Happening → Prop)
    (d d' : Deployment) : Prop :=
  ∃ i happening faults, allows d i happening ∧ d' = d.step P S i happening faults

/-- A run of the deployment: any happenings at any stores, in any order. -/
def Runs (P : Platform) (S : AdminSerde) (allows : Deployment → Nat → Happening → Prop) :
    Deployment → Deployment → Prop :=
  Relation.ReflTransGen (Goes P S allows)

/-- The deployments there can be. -/
def Reachable (P : Platform) (S : AdminSerde) (d : Deployment) : Prop :=
  Runs P S (fun _ _ _ => True) start d

end Deployment

end Credman
