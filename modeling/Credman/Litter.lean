import Credman.Library.Preserves
import Credman.Events
import Credman.Undisturbed

/-! Temporary files are never mistaken for one another: whatever a crash has left behind was named from an
earlier draw, and is in nobody's way. -/
namespace Credman

open Library Library.Checked Library.FileM Relation DurableVault

variable {P : Platform}

/-- The name of a gate, or of a temporary file of an earlier draw. -/
def FileName.Named (P : Platform) (n : Nat) (name : FileName) : Prop :=
  ∀ id, name.ticket = some id → ∃ k, k < n ∧ id = P.uuid k

theorem FileName.Named.of_gate {name : FileName} {n : Nat} (h : name.ticket = none) : name.Named P n := by
  intro id hid
  rw [h] at hid
  cases hid

/-- At least so much is drawn, and every temporary file was named from an earlier draw. -/
def Tidy (P : Platform) (n : Nat) (m : VaultMachine) : Prop := n ≤ m.rest.drawn ∧ Littered P m.rest.drawn m.dir

theorem Littered.later {d : Dir FileName} {n n' : Nat} (h : Littered P n d) (hle : n ≤ n') : Littered P n' d := by
  intro name id hticket hthere
  obtain ⟨k, hk, hid⟩ := h name id hticket hthere
  exact ⟨k, hk.trans_le hle, hid⟩

/-- A file named from an earlier draw comes, others go. -/
theorem Tidy.step {n : Nat} {m : VaultMachine} {faults : List Fault} {dir : Dir FileName} {temp : FileName}
    (h : Tidy P n m) (hnamed : temp.Named P n)
    (hframe : ∀ name, name ≠ temp → dir name ≠ none → m.dir name ≠ none) :
    Tidy P n { m with faults, dir } := by
  refine ⟨h.1, fun name id hticket hthere => ?_⟩
  by_cases heq : name = temp
  · rw [heq] at hticket
    obtain ⟨k, hk, hid⟩ := hnamed id hticket
    exact ⟨k, hk.trans_le h.1, hid⟩
  · exact h.2 name id hticket (hframe name heq hthere)

namespace Library.Preserves

variable {n : Nat} {α : Type}

theorem reading {name : FileName} : Preserves (Tidy P n) (FileM.read name) := .read fun _ _ h => h

theorem syncing : Preserves (Tidy P n) (FileM.sync : VaultIo Bool) := by
  refine .does .sync fun _ _ _ h hsame => ?_
  rw [hsame]
  exact h

/-- The names that a program gives after a draw may be named from it. -/
theorem drawing {f : Nat → VaultIo α} (h : ∀ k, Preserves (Tidy P (k + 1)) (f k)) :
    Preserves (Tidy P n) (drawIndex >>= f) := by
  intro m hm
  rw [wp_bind, wp_drawIndex]
  have hle : n ≤ m.rest.drawn + 1 := hm.1.trans (Nat.le_succ _)
  exact wp_mono (h m.rest.drawn _ ⟨le_refl _, hm.2.later (Nat.le_succ _)⟩)
    (fun _ _ h' => ⟨hle.trans h'.1, h'.2⟩) fun _ _ h' => ⟨hle.trans h'.1, h'.2⟩

theorem drawIndex : Preserves (Tidy P n) Credman.drawIndex := .drawing (f := fun k => Pure.pure k) fun _ => .pure _

theorem writeNew {name : FileName} {bytes : Bytes} (hnamed : name.Named P n) :
    Preserves (Tidy P n) (Credman.writeNew name bytes) := by
  refine .does (does_writeNew name bytes) fun _ _ _ h hpartly => h.step hnamed fun other hne hthere => ?_
  rcases hpartly with rfl | ⟨-, k, rfl⟩
  · exact hthere
  · rwa [Function.update_of_ne hne] at hthere

theorem writeIntent {previous image : Bytes} : Preserves (Tidy P n) (Credman.writeIntent previous image) := by
  refine .does (does_writeIntent previous image) fun _ _ _ h hpartly =>
    h.step (.of_gate (rfl : FileName.pending.ticket = none)) fun other hne hthere => ?_
  rcases hpartly with rfl | ⟨-, k, rfl⟩
  · exact hthere
  · rwa [Function.update_of_ne hne] at hthere

theorem moving {source target : FileName} {createOnly : Bool} (hnamed : target.Named P n) :
    Preserves (Tidy P n) (FileM.rename source target createOnly : VaultIo Bool) := by
  refine .does .rename fun _ _ _ h hpartly => h.step hnamed fun other hne hthere => ?_
  rcases hpartly with rfl | hrenamed
  · exact hthere
  · unfold renamed at hrenamed
    split_ifs at hrenamed
    cases hrenamed
    by_cases heq : other = source
    · rw [heq, Function.update_self] at hthere
      exact absurd rfl hthere
    · rwa [Function.update_of_ne heq, Function.update_of_ne hne] at hthere

theorem unlinking {name : FileName} : Preserves (Tidy P n) (FileM.unlink name : VaultIo Bool) := by
  refine .does .unlink fun _ _ _ h hpartly =>
    h.step (.of_gate (rfl : FileName.state.ticket = none)) fun other _ hthere => ?_
  rcases hpartly with rfl | hunlinked
  · exact hthere
  · unfold unlinked at hunlinked
    split_ifs at hunlinked
    cases hunlinked
    by_cases heq : other = name
    · rw [heq, Function.update_self] at hthere
      exact absurd rfl hthere
    · rwa [Function.update_of_ne heq] at hthere

theorem gateExists {name : FileName} : Preserves (Tidy P n) (Credman.gateExists name) := by
  refine .bind .reading fun found => ?_
  cases found with
  | none | some found => exact .pure _

theorem pendingExists : Preserves (Tidy P n) Credman.pendingExists := by
  refine .bind .gateExists fun found => ?_
  rcases found with e | _ | _
  · exact .pure _
  · exact .gateExists
  · exact .pure _

theorem readImage {name : FileName} : Preserves (Tidy P n) (Credman.readImage name) := by
  refine .bind .reading fun found => ?_
  rcases found with _ | _ | bytes
  · exact .pure _
  · exact .pure _
  · exact .ite (.pure _) (.pure _)

theorem publishWith {store : Store} {app : Application} {key : VaultKey} {salt : Salt} {kdf : KdfParams} :
    Preserves (Tidy P n) (store.publishWith P app key salt kdf) := by
  unfold Store.publishWith
  refine .ite (.pure _) (.bind .pendingExists fun found => ?_)
  rcases found with e | _ | _
  · exact .pure _
  · refine .drawing fun k => ?_
    simp only
    cases sealImage P app key salt kdf (P.nonce k) with
    | error e => exact .pure _
    | ok image =>
      refine .drawing fun k => ?_
      have hnamed : (FileName.candidate (P.uuid k)).Named P (k + 1) := by
        rintro id ⟨⟩
        exact ⟨k, Nat.lt_succ_self k, rfl⟩
      refine .bind (.writeNew hnamed) fun ok => .ite (.bind .unlinking fun _ => .pure _) ?_
      refine .bind .writeIntent fun ok => .ite (.pure _) ?_
      refine .bind (.moving (.of_gate rfl)) fun ok => .ite (.pure _) ?_
      refine .bind .syncing fun ok => .ite (.pure _) ?_
      refine .bind .unlinking fun ok => .ite (.pure _) ?_
      exact .bind .syncing fun ok => .ite (.pure _) (.pure _)
  · exact .pure _

theorem publish {store : Store} {app : Application} : Preserves (Tidy P n) (store.publish P app) := .publishWith

theorem commit {owner : DurableVault} {candidate : Application} :
    Preserves (Tidy P n) (owner.commit P candidate) := by
  unfold DurableVault.commit
  rcases owner.stage P candidate with e | _ | next
  · exact .pure _
  · exact .pure _
  · refine .bind .publishWith fun out => ?_
    rcases out with ⟨store, _ | _ | _⟩ <;> exact .pure _

theorem apply {owner : DurableVault} {operation : AppM α} : Preserves (Tidy P n) (owner.apply P operation) := by
  unfold DurableVault.apply
  cases owner.ready with
  | error e => exact .pure _
  | ok u =>
    cases operation.run owner.staged with
    | ok a next | error e next =>
      refine .bind .commit fun out => ?_
      rcases out with ⟨owner', e | u⟩ <;> exact .pure _

/-- A call that draws an identifier and runs one operation with it. -/
theorem drawMutation {owner : DurableVault} {operation : Draw → AppM α} :
    Preserves (Tidy P n) (DurableVault.drawMutation P >>= fun draw => owner.apply P (operation draw)) :=
  .bind (.drawing fun _ => .pure _) fun _ => .apply

theorem concludeUse {owner : DurableVault} {ctx : AuthenticatedContext} {task attempt : Uuid} {use : PrivateUse}
    {handoffAt : Time} {delivered : Delivered} :
    Preserves (Tidy P n) (owner.concludeUse P ctx task use attempt handoffAt delivered) := by
  unfold DurableVault.concludeUse
  cases delivered with
  | panicked => exact .pure _
  | returned | failed =>
    refine .bind .apply fun out => ?_
    rcases out with ⟨owner', e | u⟩ <;> exact .pure _

theorem handOff {owner : DurableVault} {ctx : AuthenticatedContext} {task attempt : Uuid} {use : PrivateUse}
    {handoffAt : Time} {deliver : SecretInput → Delivered} :
    Preserves (Tidy P n) (owner.handOff P ctx task use attempt handoffAt deliver) := by
  unfold DurableVault.handOff
  cases (Application.useAuthorize ctx task use handoffAt).run owner.app with
  | error e app =>
    refine .bind .apply fun out => ?_
    rcases out with ⟨owner', e | u⟩ <;> exact .pure _
  | ok out app => exact .bind .get fun m => .bind (.modify fun _ h => h) fun _ => .concludeUse

theorem useSecret {owner : DurableVault} {ctx : AuthenticatedContext} {task : Uuid} {use : PrivateUse}
    {preparedAt handoffAt : Time} {deliver : SecretInput → Delivered} :
    Preserves (Tidy P n) (owner.useSecret P ctx task use preparedAt handoffAt deliver) := by
  refine .drawing fun k => .bind .apply fun out => ?_
  rcases out with ⟨owner', e | _ | receipt⟩
  · exact .pure _
  · simp only
    cases owner'.ready with
    | error e => exact .pure _
    | ok u => exact .handOff
  · exact .pure _

theorem rekey {owner : DurableVault} {admin : AuthenticatedContext} {mnemonic : String} :
    Preserves (Tidy P n) (owner.rekey P admin mnemonic) := by
  refine .drawing fun k => ?_
  simp only
  cases owner.rekeyCandidate P admin mnemonic (P.salt k) with
  | error e => exact .pure _
  | ok out =>
    refine .bind .publishWith fun out => ?_
    rcases out with ⟨store, _ | _ | _⟩ <;> exact .pure _

theorem failing {c : Prop} [Decidable c] {e : Error} : Preserves (Tidy P n) (failIf c e : VaultM Unit).run := by
  unfold failIf
  split_ifs
  · exact .pure _
  · exact .pure _

theorem createFromApp {mnemonic : String} {app : Application} :
    Preserves (Tidy P n) (DurableVault.createFromApp P mnemonic app).run := by
  unfold DurableVault.createFromApp
  refine .run_bind (.pure _) fun _ => .run_bind (.run_bind .pendingExists fun _ => .failing) fun _ => ?_
  refine .run_bind .readImage fun found => .run_bind .failing fun _ => ?_
  refine .run_bind (.run_lift .drawIndex) fun k => .run_bind (.pure _) fun key => ?_
  refine .run_bind (.run_lift .publish) fun out => ?_
  rcases out with ⟨store, _ | _ | _⟩ <;> exact .pure _

theorem restoreBackup {mnemonic : String} {admin : AuthenticatedContext} {bytes : Bytes} {secret : BackupSecret}
    {now : Time} : Preserves (Tidy P n) (DurableVault.restoreBackup P mnemonic admin bytes secret now).run := by
  refine .run_bind .failing fun _ => .run_bind (.pure _) fun copy => ?_
  exact .run_bind (.pure _) fun app => .createFromApp

theorem exportBackup {owner : DurableVault} {admin : AuthenticatedContext} {secret : BackupSecret} :
    Preserves (Tidy P n) (owner.exportBackup P admin secret).run := by
  intro m hm
  refine wp_mono (wp_export admin secret) ?_ fun _ _ hno => hno.elim
  rintro result m' ⟨hlater, hdir, -⟩
  refine ⟨hm.1.trans hlater.drawn, ?_⟩
  rw [hdir]
  exact hm.2.later hlater.drawn

theorem «open» {mnemonic : String} : Preserves (Tidy P n) (DurableVault.open P mnemonic).run := by
  have hsame : ∀ {m m' : VaultMachine}, Tidy P n m → m'.rest = m.rest → m'.dir = m.dir → Tidy P n m' := by
    intro m m' hm hrest hdir
    unfold Tidy
    rw [hrest, hdir]
    exact hm
  intro m hm
  refine wp_mono (wp_open P mnemonic m) ?_ ?_
  · rintro result m' ⟨hrest, hdir, -⟩
    exact hsame hm hrest hdir
  · rintro e m' ⟨hrest, hdir⟩
    exact hsame hm hrest hdir

theorem recover (hseals : P.Seals) {mnemonic : String} {admin : AuthenticatedContext} {now : Time} :
    Preserves (Tidy P n) (DurableVault.recover P mnemonic admin now).run := by
  intro m hm
  refine wp_mono (wp_recover hseals m) ?_ ?_
  · rintro result m' ⟨hattempted, -⟩
    exact ⟨hm.1.trans hattempted.later.drawn, hattempted.littered hm.2⟩
  · intro e m' hattempted
    exact ⟨hm.1.trans hattempted.later.drawn, hattempted.littered hm.2⟩

end Library.Preserves

namespace Fleet

variable {fleet : Fleet} {i : Nat} {call : Call} {faults : List Fault}

/-- Every temporary file of every store was named from an earlier draw. -/
def Tidied (P : Platform) (fleet : Fleet) : Prop := ∀ i, Littered P fleet.session.drawn (fleet.stores i).dir

theorem Tidied.put (h : fleet.Tidied P) {m : VaultMachine} (hm : Tidy P fleet.session.drawn m)
    (owner : Option DurableVault) : (fleet.put i ⟨m.dir, owner⟩ m.rest).Tidied P := by
  intro j
  by_cases hj : j = i
  · rw [hj, put_self]
    exact hm.2
  · rw [put_ne hj]
    exact (h j).later hm.1

theorem Tidied.ask (h : fleet.Tidied P) {α : Type} {program : DurableVault → VaultIo (DurableVault × α)}
    {answer : α → Answer} (hprogram : ∀ owner, Preserves (Tidy P fleet.session.drawn) (program owner)) :
    (fleet.ask i faults program answer).1.Tidied P := by
  refine Fleet.ask_spec (p := fun out => out.1.Tidied P) (fun _ => h) fun owner _ => ?_
  exact wp_mono (hprogram owner _ ⟨le_refl _, h i⟩) (fun _ _ hm => h.put hm _) fun _ _ hm => h.put hm _

theorem Tidied.enter (h : fleet.Tidied P) {program : VaultM DurableVault}
    (hprogram : Preserves (Tidy P fleet.session.drawn) program.run) : (fleet.enter i faults program).1.Tidied P := by
  refine Fleet.enter_spec (p := fun out => out.1.Tidied P) (fun _ _ => h) fun _ => ?_
  refine wp_mono (hprogram _ ⟨le_refl _, h i⟩) ?_ fun _ _ hm => h.put hm _
  rintro (e | owner) m hm
  · exact h.put hm _
  · exact h.put hm _

theorem Tidied.exportFrom (h : fleet.Tidied P) {admin : AuthenticatedContext} {secret : BackupSecret} :
    (fleet.exportFrom P i faults admin secret).1.Tidied P := by
  have hasked : (fleet.ask i faults (fun owner => do
      let result ← (owner.exportBackup P admin secret).run
      pure (owner, result)) Answer.backup).1.Tidied P :=
    h.ask fun owner => .bind .exportBackup fun _ => .pure _
  unfold Fleet.exportFrom
  revert hasked
  generalize fleet.ask i faults (fun owner => do
    let result ← (owner.exportBackup P admin secret).run
    pure (owner, result)) Answer.backup = out
  intro hasked
  obtain ⟨next, answer⟩ := out
  cases answer with
  | backup result => cases result <;> exact hasked
  | opened | done | receipt | view | values | delivery | closed | halted | noOwner => exact hasked

theorem Tidied.step (hseals : P.Seals) (h : fleet.Tidied P) : (fleet.step P i call faults).1.Tidied P := by
  unfold Fleet.step
  cases call with
  | create mnemonic => exact h.enter .createFromApp
  | «open» mnemonic => exact h.enter .open
  | recover mnemonic admin now => exact h.enter (.recover hseals)
  | restore mnemonic admin backup secret now =>
    simp only
    cases fleet.backups[backup]? with
    | none => exact h
    | some bytes => exact h.enter .restoreBackup
  | close => exact h.put (m := ⟨(fleet.stores i).dir, [], fleet.session⟩) ⟨le_refl _, h i⟩ none
  | approveTask | revokeTask | metadata | readForTask => exact h.ask fun owner => .apply
  | mutate | importForTask => exact h.ask fun owner => .drawMutation
  | useSecret => exact h.ask fun owner => .useSecret
  | rekey => exact h.ask fun owner => .rekey
  | exportBackup => exact h.exportFrom

theorem Reachable.tidied (hseals : P.Seals) (h : Fleet.Reachable P fleet) : fleet.Tidied P := by
  induction h with
  | refl => exact fun i name id _ hthere => absurd rfl hthere
  | tail _ hgoes ih =>
    obtain ⟨i, call, faults, -, rfl⟩ := hgoes
    exact ih.step hseals

end Fleet

end Credman
