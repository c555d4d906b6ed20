import Credman.Resumption

/-! A publication that was interrupted, and what the same seed can still do with the store. The
intent is written in place, so its file may be torn. -/
namespace Credman

open Library Library.Checked Library.FileM Relation Application DurableVault

variable {P : Platform} {mnemonic : String} {admin : AuthenticatedContext} {now : Time} {s s' : Shown}
  {m : VaultMachine}

/-- A pending intent that cannot be read, and no plan beside it. -/
structure Torn (s : Shown) : Prop where
  pending : ∃ bytes, s.pending = some bytes ∧ ∀ gate, parseGate bytes ≠ .ok gate
  no_plan : s.recovery = none

namespace Torn

theorem not_agrees (h : Torn s) {base : Bytes} : ¬ s.Agrees P mnemonic base := by
  intro hagrees
  obtain ⟨bytes, hpending, htorn⟩ := h.pending
  obtain ⟨gate, hgate, -⟩ := hagrees bytes hpending
  exact htorn gate hgate

/-- No attempt can change anything. -/
theorem not_reconcile (h : Torn s) : ¬ Reconcile P mnemonic admin now s s' := by
  intro hstep
  cases hstep with
  | adopt _ _ hpending hgate =>
    obtain ⟨bytes, hpending', htorn⟩ := h.pending
    obtain rfl := Option.some.inj (hpending.symm.trans hpending')
    exact htorn _ hgate
  | plan n _ _ _ _ _ hagrees => exact h.not_agrees hagrees
  | install hplan | settle hplan | clear hplan =>
    rw [h.no_plan] at hplan
    cases hplan

theorem steps (h : Torn s) (hsteps : ReflTransGen (Reconcile P mnemonic admin now) s s') : s' = s := by
  induction hsteps with
  | refl => rfl
  | tail _ hstep ih =>
    subst ih
    exact absurd hstep h.not_reconcile

theorem not_recovered {d d' : Dir FileName} {owner : DurableVault} (h : Torn (shown d)) :
    ¬ Recovered P mnemonic admin now d d' owner := by
  intro hrecovered
  obtain ⟨s, base, u, image, hsteps, -, -, -, htarget, -, -⟩ := hrecovered.exact
  obtain rfl := h.steps hsteps
  cases htarget with
  | planned n _ _ hagrees => exact h.not_agrees hagrees
  | resumed hplan =>
    rw [h.no_plan] at hplan
    cases hplan

/-- Whoever comes next gets no owner and leaves the store as it was. -/
theorem enter (hseals : P.Seals) (entry : Entry) (faults : List Fault) (h : Torn (shown m.dir)) :
    (entry.enter P m faults).2 = none ∧ shown (entry.enter P m faults).1.dir = shown m.dir := by
  refine Entry.enter_spec entry (p := fun m' o => o = none ∧ shown m'.dir = shown m.dir) ?_
  cases entry with
  | «open» phrase =>
    apply wp_mono (wp_open P phrase { m with faults })
    · rintro result m' ⟨-, hdir, hopened⟩
      refine ⟨?_, congrArg shown hdir⟩
      cases result with
      | error e => rfl
      | ok owner =>
        obtain ⟨bytes, hpending, -⟩ := h.pending
        have hnone : (shown m.dir).pending = none := (hopened owner rfl).no_pending
        rw [hnone] at hpending
        cases hpending
    · rintro _ m' ⟨-, hdir⟩
      exact ⟨rfl, congrArg shown hdir⟩
  | recover phrase admin now =>
    apply wp_mono (wp_recover hseals { m with faults })
    · rintro result m' ⟨hattempted, hrecovered⟩
      refine ⟨?_, h.steps hattempted.steps⟩
      cases result with
      | error e => rfl
      | ok owner => exact absurd (hrecovered owner rfl) h.not_recovered
    · intro _ m' hattempted
      exact ⟨rfl, h.steps hattempted.steps⟩

theorem entered (hseals : P.Seals) (entries : List (Entry × List Fault)) (h : Torn (shown m.dir)) :
    shown (entered P m entries).dir = shown m.dir := by
  induction entries generalizing m with
  | nil => rfl
  | cons e rest ih =>
    have hsame := (h.enter hseals e.1 e.2).2
    have hnext : Torn (shown (e.1.enter P m e.2).1.dir) := by
      rw [hsame]
      exact h
    exact (ih hnext).trans hsame

end Torn

/-! What is left to work with otherwise. -/

/-- What the image of a mirrored owner opens to. -/
def DurableVault.persisted (owner : DurableVault) : Application :=
  { owner.app with lastTime := owner.store.persistedLastTime }

/-- What a publication under the owner's own key leaves, wherever it stops. -/
def DurableVault.leave (P : Platform) (owner : DurableVault) (next : Application) (m : VaultMachine) :
    VaultMachine :=
  (owner.store.leave P next owner.store.key owner.store.salt owner.store.kdf m).1

section Publication

variable {owner : DurableVault} {next : Application}

/-- Only the image of a mirrored owner matters. -/
theorem Mirrored.of_state (h : Mirrored P m.dir owner) {d : Dir FileName} (hstate : d .state = m.dir .state)
    (hpending : d .pending = none) (hnone : d .recovery = none) : Mirrored P d owner where
  no_pending := hpending
  no_recovery := hnone
  current := hstate.trans h.current
  phrase := h.phrase
  opens := by
    rw [hstate]
    exact h.opens
  lag := h.lag

end Publication

end Credman
