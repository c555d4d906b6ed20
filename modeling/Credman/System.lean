import Credman.Backup
import Credman.Workflow

/-! A fleet of stores under one human: each has its directory and at most one
owner. A call may meet any I/O faults, and may be cut off at any file operation. -/
namespace Credman

open Library

/-- What can be asked of one store. -/
inductive Call where
  | create (mnemonic : String)
  | «open» (mnemonic : String)
  | recover (mnemonic : String) (admin : AuthenticatedContext) (now : Time)
  /-- Restores the exported backup of this number. -/
  | restore (mnemonic : String) (admin : AuthenticatedContext) (backup : Nat)
    (secret : BackupSecret) (now : Time)
  /-- The owner is dropped and its lock released. -/
  | close
  | approveTask (admin : AuthenticatedContext) (task : TaskApproval) (now : Time)
  | revokeTask (admin : AuthenticatedContext) (task : Uuid) (now : Time)
  | mutate (ctx : AuthenticatedContext) (task request : Uuid) (op : Mutation) (now : Time)
  | metadata (ctx : AuthenticatedContext) (task record : Uuid) (fields : Fields) (now : Time)
  | importForTask (admin : AuthenticatedContext) (task request : Uuid) (kind : CredentialKind)
    (values : SecretInput) (now : Time)
  | readForTask (admin : AuthenticatedContext) (task record : Uuid) (fields : Fields) (now : Time)
  | useSecret (ctx : AuthenticatedContext) (task : Uuid) (request : PrivateUse)
    (preparedAt handoffAt : Time) (deliver : SecretInput → Delivered)
  | rekey (admin : AuthenticatedContext) (mnemonic : String)
  | exportBackup (admin : AuthenticatedContext) (secret : BackupSecret)

inductive Answer where
  | opened (result : Except Error Unit)
  | done (result : Except Error Unit)
  | receipt (result : Except Error Receipt)
  | view (result : Except Error MetadataView)
  | values (result : Except Error SecretInput)
  | delivery (outcome : UseOutcome)
  | backup (result : Except Error Bytes)
  | closed
  /-- The process died during the call. -/
  | halted
  /-- There is no owner to ask. -/
  | noOwner

/-- The receipt of a mutation that was answered. -/
def Answer.issued : Answer → Option Receipt
  | .receipt (.ok r) => some r
  | _ => none

/-- Whether a call that returns nothing was carried out. -/
def Answer.carried : Answer → Bool
  | .done (.ok ()) => true
  | _ => false

theorem Answer.issued_eq_some {answer : Answer} {receipt : Receipt}
    (h : answer.issued = some receipt) : answer = .receipt (.ok receipt) := by
  unfold Answer.issued at h
  split at h
  · cases h
    rfl
  · cases h

theorem Answer.carried_eq_true {answer : Answer} (h : answer.carried = true) : answer = .done (.ok ()) := by
  unfold Answer.carried at h
  split at h
  · rfl
  · cases h

structure StoreState where
  dir : Dir FileName
  owner : Option DurableVault

structure Fleet where
  stores : Nat → StoreState
  session : Session
  backups : List Bytes

namespace Fleet

def start : Fleet where
  stores _ := { dir := fun _ => none, owner := none }
  session := { drawn := 0, handoffs := [] }
  backups := []

def put (fleet : Fleet) (i : Nat) (store : StoreState) (session : Session) : Fleet :=
  { fleet with stores := Function.update fleet.stores i store, session }

/-- Runs a program on the directory of one store. If it is cut off, its process is gone. -/
def run {α : Type} (fleet : Fleet) (i : Nat) (faults : List Fault) (program : VaultIo α)
    (finish : α → Option DurableVault × Answer) : Fleet × Answer :=
  match program.run { dir := (fleet.stores i).dir, faults, rest := fleet.session } with
  | .ok a m =>
    let (owner, answer) := finish a
    (fleet.put i { dir := m.dir, owner } m.rest, answer)
  | .error _ m => (fleet.put i { dir := m.dir, owner := none } m.rest, .halted)

/-- A call that makes an owner; another one may not hold the lock. -/
def enter (fleet : Fleet) (i : Nat) (faults : List Fault) (program : VaultM DurableVault) :
    Fleet × Answer :=
  match (fleet.stores i).owner with
  | some _ => (fleet, .opened (.error .inUse))
  | none => fleet.run i faults program.run fun result =>
    match result with
    | .ok owner => (some owner, .opened (.ok ()))
    | .error e => (none, .opened (.error e))

/-- A call on the owner of one store. -/
def ask {α : Type} (fleet : Fleet) (i : Nat) (faults : List Fault)
    (program : DurableVault → VaultIo (DurableVault × α)) (answer : α → Answer) :
    Fleet × Answer :=
  match (fleet.stores i).owner with
  | none => (fleet, .noOwner)
  | some owner => fleet.run i faults (program owner) fun result =>
    (some result.1, answer result.2)

section Rules

variable {α : Type} {fleet : Fleet} {i : Nat} {faults : List Fault} {p : Fleet × Answer → Prop}

/-- What holds however a program ends holds after it has run. -/
theorem run_spec {program : VaultIo α} {finish : α → Option DurableVault × Answer}
    (h : wp program
      (fun a m => p (fleet.put i { dir := m.dir, owner := (finish a).1 } m.rest, (finish a).2))
      (fun _ m => p (fleet.put i { dir := m.dir, owner := none } m.rest, .halted))
      { dir := (fleet.stores i).dir, faults, rest := fleet.session }) :
    p (fleet.run i faults program finish) := by
  unfold run
  change p (match program { dir := (fleet.stores i).dir, faults, rest := fleet.session } with
    | .ok a m => _
    | .error _ m => _)
  unfold wp at h
  cases hrun : program { dir := (fleet.stores i).dir, faults, rest := fleet.session } with
  | ok a m =>
    rw [hrun] at h
    exact h
  | error e m =>
    rw [hrun] at h
    exact h

theorem enter_spec {program : VaultM DurableVault}
    (hheld : ∀ owner, (fleet.stores i).owner = some owner → p (fleet, .opened (.error .inUse)))
    (hfree : (fleet.stores i).owner = none → wp program.run
      (fun result m => p (match result with
        | .ok owner => (fleet.put i { dir := m.dir, owner := some owner } m.rest, .opened (.ok ()))
        | .error e => (fleet.put i { dir := m.dir, owner := none } m.rest, .opened (.error e))))
      (fun _ m => p (fleet.put i { dir := m.dir, owner := none } m.rest, .halted))
      { dir := (fleet.stores i).dir, faults, rest := fleet.session }) :
    p (fleet.enter i faults program) := by
  unfold enter
  cases howner : (fleet.stores i).owner with
  | some owner => exact hheld owner howner
  | none =>
    apply run_spec
    apply wp_mono (hfree howner)
    · rintro (e | owner) m hp
      · exact hp
      · exact hp
    · exact fun _ m hp => hp

theorem ask_spec {program : DurableVault → VaultIo (DurableVault × α)} {answer : α → Answer}
    (hnone : (fleet.stores i).owner = none → p (fleet, .noOwner))
    (hsome : ∀ owner, (fleet.stores i).owner = some owner → wp (program owner)
      (fun out m =>
        p (fleet.put i { dir := m.dir, owner := some out.1 } m.rest, answer out.2))
      (fun _ m => p (fleet.put i { dir := m.dir, owner := none } m.rest, .halted))
      { dir := (fleet.stores i).dir, faults, rest := fleet.session }) :
    p (fleet.ask i faults program answer) := by
  unfold ask
  cases howner : (fleet.stores i).owner with
  | none => exact hnone howner
  | some owner => exact run_spec (hsome owner howner)

@[simp] theorem put_self (store : StoreState) (session : Session) :
    (fleet.put i store session).stores i = store := Function.update_self ..

@[simp] theorem put_session (store : StoreState) (session : Session) :
    (fleet.put i store session).session = session := rfl

theorem put_ne {j : Nat} (hj : j ≠ i) (store : StoreState) (session : Session) :
    (fleet.put i store session).stores j = fleet.stores j := Function.update_of_ne hj ..

end Rules

/-- An export does not change the owner; what it returns is kept as a backup. -/
def exportFrom (P : Platform) (fleet : Fleet) (i : Nat) (faults : List Fault)
    (admin : AuthenticatedContext) (secret : BackupSecret) : Fleet × Answer :=
  let asked := fleet.ask i faults
    (fun owner => do
      let result ← (owner.exportBackup P admin secret).run
      pure (owner, result)) Answer.backup
  match asked with
  | (fleet, .backup (.ok bytes)) =>
    ({ fleet with backups := fleet.backups ++ [bytes] }, .backup (.ok bytes))
  | other => other

def step (P : Platform) (fleet : Fleet) (i : Nat) (call : Call) (faults : List Fault) :
    Fleet × Answer :=
  match call with
  | .create mnemonic => fleet.enter i faults (DurableVault.create P mnemonic)
  | .open mnemonic => fleet.enter i faults (DurableVault.open P mnemonic)
  | .recover mnemonic admin now => fleet.enter i faults (DurableVault.recover P mnemonic admin now)
  | .restore mnemonic admin backup secret now =>
    match fleet.backups[backup]? with
    | none => (fleet, .opened (.error .invalidStorage))
    | some bytes =>
      fleet.enter i faults (DurableVault.restoreBackup P mnemonic admin bytes secret now)
  | .close => (fleet.put i { fleet.stores i with owner := none } fleet.session, .closed)
  | .approveTask admin task now =>
    fleet.ask i faults (fun owner => owner.approveTask P admin task now) Answer.done
  | .revokeTask admin task now =>
    fleet.ask i faults (fun owner => owner.revokeTask P admin task now) Answer.done
  | .mutate ctx task request op now =>
    fleet.ask i faults (fun owner => owner.mutate P ctx task request op now) Answer.receipt
  | .metadata ctx task record fields now =>
    fleet.ask i faults (fun owner => owner.metadata P ctx task record fields now) Answer.view
  | .importForTask admin task request kind values now =>
    fleet.ask i faults (fun owner => owner.importForTask P admin task request kind values now)
      Answer.receipt
  | .readForTask admin task record fields now =>
    fleet.ask i faults (fun owner => owner.readForTask P admin task record fields now) Answer.values
  | .useSecret ctx task request preparedAt handoffAt deliver =>
    fleet.ask i faults (fun owner => owner.useSecret P ctx task request preparedAt handoffAt deliver)
      Answer.delivery
  | .rekey admin mnemonic =>
    fleet.ask i faults (fun owner => owner.rekey P admin mnemonic) Answer.done
  | .exportBackup admin secret => fleet.exportFrom P i faults admin secret

end Fleet

end Credman
