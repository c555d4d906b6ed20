import Credman.Https
import Credman.System
import Credman.Work

/-! The broker's work for an agent: what it refuses by the shape of the request, and the one
call of the vault that anything else comes to. -/
namespace Credman

open Library

/-- How the handling of a request ends: with its result, or unwinding from the callback. -/
inductive Handled (α : Type) where
  | result (result : Except Error α)
  | panicked

def UseOutcome.reply : UseOutcome → Handled WorkReply
  | .result r => .result (r.map .delivered)
  | .panicked => .panicked

namespace WorkRequest

def task : WorkRequest → Uuid
  | .generate task .. | .mutate task .. | .metadata task .. | .use task _ => task

def validateAgent : WorkRequest → Except Error Unit
  | .mutate _ _ mutation =>
    match mutation with
    | .create .. | .generate .. => .error .denied
    | .patch _ _ values => if values.metadataOnly = false then .error .denied else .ok ()
    | .share _ _ grant => if Permission.secretRead ∈ grant.permissions then .error .denied else .ok ()
    | _ => .ok ()
  | .metadata _ _ fields =>
    if Field.password ∈ fields ∨ Field.apiKey ∈ fields then .error .denied else .ok ()
  | .generate _ _ kind username policy =>
    if policy.any (fun policy => !policy.valid) then .error .invalid
    else
      match kind, username with
      | .login, some name => if name ≠ "" ∧ name.utf8ByteSize ≤ 2048 then .ok () else .error .invalid
      | .apiKey, none => .ok ()
      | _, _ => .error .invalid
  | .use _ usage => if usage.action ≠ .use then .error .interactionRequired else .ok ()

end WorkRequest

/-- What a process finds around it while it handles one request: the clock, sample by sample,
the files a destination is checked against, and the child that would deliver. -/
structure Surroundings where
  now : Nat → Time
  files : FileSystem
  /-- The child starts, and its pipes are set up. -/
  spawns : Bool
  /-- How the exchange ends once the child has been handed this text. -/
  exchange : String → DeliveryStatus

/-- A child that waits for its configuration. -/
structure PreparedHttps where
  text : String
  auth : Auth

namespace PreparedHttps

def prepare (around : Surroundings) (d : Destination) : Except Error PreparedHttps := do
  d.validate around.files
  failIf (around.spawns = false) .interactionRequired
  pure { text := d.configPrefix, auth := d.auth }

/-- Nothing is written to the child before its whole configuration stands. -/
def deliver (around : Surroundings) (prepared : PreparedHttps) (values : SecretInput) : Delivered :=
  match appendAuth prepared.text prepared.auth values with
  | .error _ => .failed
  | .ok text => .returned (around.exchange text)

end PreparedHttps

namespace DurableVault

/-- Trusted consumer configuration preflight only. -/
def validateConsumer (owner : DurableVault) (ctx : AuthenticatedContext) (task : Uuid)
    (service origin : String) (now : Time) : Except Error Unit := do
  owner.ready
  let now ← owner.app.effectiveTime now
  let approved ← owner.app.task ctx task now
  failIf (approved.service ≠ service ∨ approved.origin ≠ origin) .denied

/-- The checks before a use: its destination, what that asks for, its consumer, its child. -/
def preflight (owner : DurableVault) (around : Surroundings) (destinations : List Destination)
    (ctx : AuthenticatedContext) (task : Uuid) (usage : PrivateUse) : Except Error PreparedHttps := do
  let destination ← orElse (destinations.find? fun d => d.id == usage.destination) .denied
  failIf (usage.fields ≠ destination.fields) .denied
  owner.validateConsumer ctx task destination.service destination.origin (around.now 0)
  PreparedHttps.prepare around destination

/-- `work`, past `validate_agent`. -/
def dispatch (P : Platform) (owner : DurableVault) (around : Surroundings)
    (destinations : List Destination) (ctx : AuthenticatedContext) :
    WorkRequest → VaultIo (DurableVault × Handled WorkReply)
  | .generate task request kind username policy => do
    let (owner, result) ← owner.mutate P ctx task request (.generate kind username policy) (around.now 0)
    pure (owner, .result (result.map .receipt))
  | .mutate task request mutation => do
    let (owner, result) ← owner.mutate P ctx task request mutation (around.now 0)
    pure (owner, .result (result.map .receipt))
  | .metadata task record fields => do
    let (owner, result) ← owner.metadata P ctx task record fields (around.now 0)
    pure (owner, .result (result.map .metadata))
  | .use task usage =>
    match owner.preflight around destinations ctx task usage with
    | .error e => pure (owner, .result (.error e))
    | .ok prepared => do
      let (owner, outcome) ← owner.useSecret P ctx task usage (around.now 1) (around.now 2)
        (prepared.deliver around)
      pure (owner, outcome.reply)

def work (P : Platform) (owner : DurableVault) (around : Surroundings)
    (destinations : List Destination) (ctx : AuthenticatedContext) (request : WorkRequest) :
    VaultIo (DurableVault × Handled WorkReply) :=
  match request.validateAgent with
  | .error e => pure (owner, .result (.error e))
  | .ok () => owner.dispatch P around destinations ctx request

end DurableVault

/-- The one call of the vault a request comes to, or why it is refused before that. -/
def WorkRequest.call (owner : DurableVault) (around : Surroundings) (destinations : List Destination)
    (ctx : AuthenticatedContext) (request : WorkRequest) : Except Error Call := do
  request.validateAgent
  match request with
  | .generate task request kind username policy =>
    pure (.mutate ctx task request (.generate kind username policy) (around.now 0))
  | .mutate task request mutation => pure (.mutate ctx task request mutation (around.now 0))
  | .metadata task record fields => pure (.metadata ctx task record fields (around.now 0))
  | .use task usage =>
    let prepared ← owner.preflight around destinations ctx task usage
    pure (.useSecret ctx task usage (around.now 1) (around.now 2) (prepared.deliver around))

/-- What the broker makes of an answer of the vault. -/
def Answer.reply : Answer → Option (Handled WorkReply)
  | .receipt result => some (.result (result.map .receipt))
  | .view result => some (.result (result.map .metadata))
  | .delivery outcome => some outcome.reply
  | _ => none

/-- Runs a program of the process that owns a store; `none` where there is none, or it dies. -/
def Fleet.host {α : Type} (fleet : Fleet) (i : Nat) (faults : List Fault)
    (program : DurableVault → VaultIo (DurableVault × α)) : Fleet × Option α :=
  match (fleet.stores i).owner with
  | none => (fleet, none)
  | some owner =>
    match (program owner).run { dir := (fleet.stores i).dir, faults, rest := fleet.session } with
    | .ok out m => (fleet.put i { dir := m.dir, owner := some out.1 } m.rest, some out.2)
    | .error _ m => (fleet.put i { dir := m.dir, owner := none } m.rest, none)

namespace Fleet

section Host

variable {α β : Type} {fleet : Fleet} {i : Nat} {faults : List Fault} {owner : DurableVault}

/-- The machine a process of this store runs on. -/
def machine (fleet : Fleet) (i : Nat) (faults : List Fault) : VaultMachine :=
  { dir := (fleet.stores i).dir, faults, rest := fleet.session }

theorem host_eq (howner : (fleet.stores i).owner = some owner)
    (program : DurableVault → VaultIo (DurableVault × α)) : fleet.host i faults program =
      match program owner (fleet.machine i faults) with
      | .ok out m => (fleet.put i { dir := m.dir, owner := some out.1 } m.rest, some out.2)
      | .error _ m => (fleet.put i { dir := m.dir, owner := none } m.rest, none) := by
  unfold host
  rw [howner]
  rfl

theorem ask_eq (howner : (fleet.stores i).owner = some owner)
    (program : DurableVault → VaultIo (DurableVault × α)) (answer : α → Answer) :
    fleet.ask i faults program answer =
      match program owner (fleet.machine i faults) with
      | .ok out m => (fleet.put i { dir := m.dir, owner := some out.1 } m.rest, answer out.2)
      | .error _ m => (fleet.put i { dir := m.dir, owner := none } m.rest, .halted) := by
  unfold ask run
  rw [howner]
  cases hrun : program owner (fleet.machine i faults) with
  | ok out m =>
    have hrun' : (program owner).run (fleet.machine i faults) = .ok out m := hrun
    unfold machine at hrun'
    simp only [hrun']
  | error e m =>
    have hrun' : (program owner).run (fleet.machine i faults) = .error e m := hrun
    unfold machine at hrun'
    simp only [hrun']

theorem mapped_eq (program : VaultIo (DurableVault × α)) (f : α → β) (m : VaultMachine) : (do
    let out ← program
    pure (out.1, f out.2) : VaultIo (DurableVault × β)) m = match program m with
    | .ok out m => .ok (out.1, f out.2) m
    | .error e m => .error e m := by
  change EStateM.bind program _ m = _
  unfold EStateM.bind
  cases program m with
  | ok out m => rfl
  | error e m => rfl

/-- Hosting a program is asking for what it answers. -/
theorem host_map (program : DurableVault → VaultIo (DurableVault × α)) (answer : α → Answer)
    (back : Answer → Option β) (f : α → β) (hanswer : ∀ a, back (answer a) = some (f a))
    (hhalted : back .halted = none) (hnone : back .noOwner = none) :
    fleet.host i faults (fun owner => do
        let out ← program owner
        pure (out.1, f out.2))
      = ((fleet.ask i faults program answer).1, back (fleet.ask i faults program answer).2) := by
  cases howner : (fleet.stores i).owner with
  | none =>
    unfold host ask
    rw [howner]
    exact Prod.ext rfl hnone.symm
  | some owner =>
    rw [host_eq howner, ask_eq howner]
    rw [mapped_eq]
    cases program owner (fleet.machine i faults) with
    | ok out m => exact Prod.ext rfl (hanswer out.2).symm
    | error e m => exact Prod.ext rfl hhalted.symm

theorem host_congr (howner : (fleet.stores i).owner = some owner)
    {program program' : DurableVault → VaultIo (DurableVault × α)}
    (h : program owner = program' owner) : fleet.host i faults program = fleet.host i faults program' := by
  rw [host_eq howner, host_eq howner, h]

/-- A program that only looks at the owner. -/
theorem host_pure (howner : (fleet.stores i).owner = some owner) (out : α)
    {program : DurableVault → VaultIo (DurableVault × α)} (hprogram : program owner = pure (owner, out)) :
    fleet.host i faults program = (fleet, some out) := by
  have hsame : fleet.put i { dir := (fleet.stores i).dir, owner := some owner } fleet.session = fleet := by
    rw [← howner]
    unfold put
    rw [Function.update_eq_self]
  rw [host_eq howner, hprogram]
  exact Prod.ext hsame rfl

/-- The broker's work on a request is the call it comes to. -/
theorem host_work (P : Platform) (howner : (fleet.stores i).owner = some owner) (around : Surroundings)
    (destinations : List Destination) (ctx : AuthenticatedContext) (request : WorkRequest) :
    fleet.host i faults (fun owner => owner.work P around destinations ctx request) =
      match request.call owner around destinations ctx with
      | .error e => (fleet, some (.result (.error e)))
      | .ok call => ((fleet.step P i call faults).1, (fleet.step P i call faults).2.reply) := by
  unfold DurableVault.work WorkRequest.call
  cases hshape : request.validateAgent with
  | error e => exact host_pure howner _ rfl
  | ok u =>
    cases request with
    | generate task request kind username policy =>
      exact host_map (fun owner => owner.mutate P ctx task request (.generate kind username policy)
        (around.now 0)) Answer.receipt Answer.reply (fun r => .result (r.map .receipt)) (fun _ => rfl) rfl rfl
    | mutate task request mutation =>
      exact host_map (fun owner => owner.mutate P ctx task request mutation (around.now 0))
        Answer.receipt Answer.reply (fun r => .result (r.map .receipt)) (fun _ => rfl) rfl rfl
    | metadata task record fields =>
      exact host_map (fun owner => owner.metadata P ctx task record fields (around.now 0))
        Answer.view Answer.reply (fun r => .result (r.map .metadata)) (fun _ => rfl) rfl rfl
    | «use» task usage =>
      cases hpreflight : owner.preflight around destinations ctx task usage with
      | error e =>
        simp only [bind, Except.bind, hpreflight]
        refine host_pure howner _ ?_
        unfold DurableVault.dispatch
        simp only [hpreflight]
      | ok prepared =>
        simp only [bind, Except.bind, hpreflight]
        refine (host_congr howner ?_).trans (host_map (fun owner => owner.useSecret P ctx task usage
          (around.now 1) (around.now 2) (prepared.deliver around)) Answer.delivery Answer.reply
          UseOutcome.reply (fun _ => rfl) rfl rfl)
        unfold DurableVault.dispatch
        simp only [hpreflight]

end Host

end Fleet

end Credman
