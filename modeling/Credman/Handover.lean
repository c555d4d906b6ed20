import Credman.Publication

/-! How one call of `use_secret` goes: which of its three publications it reaches,
and what it holds between them. -/
namespace Credman

open Library

variable {P : Platform} {α : Type}

namespace DurableVault

/-- How one `apply` ends. -/
inductive Applied (P : Platform) (owner : DurableVault) (operation : AppM α) (m : VaultMachine) :
    DurableVault × Except Error α → VaultMachine → Prop
  | refused (h : owner.ready = .error .recoveryRequired) :
    Applied P owner operation m (owner, .error .recoveryRequired) m
  | ran {owner' : DurableVault} {committed : Except Error Unit} {m' : VaultMachine}
      (hready : owner.ready = .ok ()) (hlater : m.rest.Later m'.rest)
      (hcommitted : Committed P owner (owner.proposal operation).2 m.rest.drawn m.dir
        (owner', committed) m'.dir) :
    Applied P owner operation m (owner', answered committed (owner.proposal operation).1) m'

/-- What an `apply` leaves when its process dies. -/
structure ApplyCut (P : Platform) (owner : DurableVault) (operation : AppM α) (m m' : VaultMachine) :
    Prop where
  ready : owner.ready = .ok ()
  later : m.rest.Later m'.rest
  cut : CommitCut P owner (owner.proposal operation).2 m.rest.drawn m.dir m'.dir

theorem wp_applied (P : Platform) (owner : DurableVault) (operation : AppM α) (m : VaultMachine) :
    wp (owner.apply P operation) (Applied P owner operation m)
      (fun _ m' => ApplyCut P owner operation m m') m := by
  apply wp_mono (wp_apply P owner operation m)
  · rintro ⟨owner', result⟩ m' (⟨hready, heq, rfl⟩ | ⟨hready, committed, hlater, hcommitted, heq⟩)
    · rw [heq]
      exact .refused hready
    · change result = _ at heq
      rw [heq]
      exact .ran hready hlater hcommitted
  · exact fun _ m' ⟨hready, hlater, hcut⟩ => ⟨hready, hlater, hcut⟩

theorem Applied.later {owner : DurableVault} {operation : AppM α} {m m' : VaultMachine}
    {out : DurableVault × Except Error α} (h : Applied P owner operation m out m') :
    m.rest.Later m'.rest := by
  cases h with
  | refused => exact ⟨le_refl _, rfl⟩
  | ran _ hlater _ => exact hlater

/-- An answer other than an error comes from an operation that ran and was committed. -/
theorem Applied.ok {owner owner' : DurableVault} {operation : AppM α} {m m' : VaultMachine} {a : α}
    (h : Applied P owner operation m (owner', .ok a) m') : owner.ready = .ok ()
      ∧ (owner.proposal operation).1 = .ok a
      ∧ Committed P owner (owner.proposal operation).2 m.rest.drawn m.dir (owner', .ok ()) m'.dir := by
  generalize hout : ((owner', .ok a) : DurableVault × Except Error α) = out at h
  cases h with
  | refused => cases hout
  | @ran owner'' committed m' hready _ hcommitted =>
    rw [Prod.mk.injEq] at hout
    obtain ⟨rfl, heq⟩ := hout
    cases committed with
    | error e => cases heq
    | ok u => exact ⟨hready, heq.symm, hcommitted⟩

section Use

variable (P : Platform) (owner : DurableVault) (ctx : AuthenticatedContext) (task : Uuid)
  (request : PrivateUse) (preparedAt handoffAt : Time) (deliver : SecretInput → Delivered)
  (m : VaultMachine)

/-- The machine once the attempt has its identifier. -/
def numbered : VaultMachine := { m with rest := { m.rest with drawn := m.rest.drawn + 1 } }

/-- The attempt is journaled and the owner still ready: what the handoff starts from. -/
structure Journaled (journaled : DurableVault) (m' : VaultMachine) : Prop where
  prepared : Applied P owner
    (Application.usePrepare P ctx task request (P.uuid m.rest.drawn) preparedAt) (numbered m)
    (journaled, .ok none) m'
  ready : journaled.ready = .ok ()

/-- What is logged when the callback runs. -/
def handoffOf (values : SecretInput) (effective : Time) (app : Application) (m' : VaultMachine) :
    Handoff where
  ctx := ctx
  task := task
  request := request
  attempt := P.uuid m.rest.drawn
  values := values
  sampled := handoffAt
  effective := effective
  app := app
  image := m'.dir .state

def logged (h : Handoff) (m' : VaultMachine) : VaultMachine :=
  { m' with rest := { m'.rest with handoffs := m'.rest.handoffs ++ [h] } }

/-- The second check passed, and the callback ran in a machine that ends as the last one. -/
structure Handed (journaled : DurableVault) (values : SecretInput) (effective : Time)
    (app : Application) (m' m'' : VaultMachine) : Prop where
  journal : Journaled P owner ctx task request preparedAt m journaled m'
  check : (Application.useAuthorize ctx task request handoffAt).run journaled.app
    = .ok (values, effective) app
  log : m'' = logged (handoffOf P ctx task request handoffAt m values effective app m') m'

/-- How a `use_secret` ends. -/
inductive Used : DurableVault × UseOutcome → VaultMachine → Prop
  | refused {owner' : DurableVault} {e : Error} {m' : VaultMachine}
      (h : Applied P owner (Application.usePrepare P ctx task request (P.uuid m.rest.drawn) preparedAt)
        (numbered m) (owner', .error e) m') : Used (owner', .result (.error e)) m'
  | replayed {owner' : DurableVault} {receipt : DeliveryReceipt} {m' : VaultMachine}
      (h : Applied P owner (Application.usePrepare P ctx task request (P.uuid m.rest.drawn) preparedAt)
        (numbered m) (owner', .ok (some receipt)) m') : Used (owner', .result (.ok receipt)) m'
  | gated {owner' : DurableVault} {e : Error} {m' : VaultMachine}
      (h : Applied P owner (Application.usePrepare P ctx task request (P.uuid m.rest.drawn) preparedAt)
        (numbered m) (owner', .ok none) m') (hready : owner'.ready = .error e) :
    Used (owner', .result (.error e)) m'
  | withdrawn {journaled owner' : DurableVault} {e : Error} {app : Application} {m' m'' : VaultMachine}
      (h : Journaled P owner ctx task request preparedAt m journaled m')
      (hcheck : (Application.useAuthorize ctx task request handoffAt).run journaled.app = .error e app)
      (hcancel : Applied P { journaled with app }
        (Application.useCancel request (P.uuid m.rest.drawn)) m' (owner', .ok ()) m'') :
    Used (owner', .result (.error e)) m''
  | stuck {journaled owner' : DurableVault} {e e' : Error} {app : Application} {m' m'' : VaultMachine}
      (h : Journaled P owner ctx task request preparedAt m journaled m')
      (hcheck : (Application.useAuthorize ctx task request handoffAt).run journaled.app = .error e app)
      (hcancel : Applied P { journaled with app }
        (Application.useCancel request (P.uuid m.rest.drawn)) m' (owner', .error e') m'') :
    Used ({ owner' with frozen := true }, .result (.error .recoveryRequired)) m''
  | panicked {journaled : DurableVault} {values : SecretInput} {effective : Time} {app : Application}
      {m' m'' : VaultMachine}
      (h : Handed P owner ctx task request preparedAt handoffAt m journaled values effective app m' m'')
      (hdeliver : deliver values = .panicked) :
    Used ({ journaled with app, frozen := true }, .panicked) m''
  | unrecorded {journaled owner' : DurableVault} {values : SecretInput} {effective : Time}
      {app : Application} {m' m'' m₃ : VaultMachine} {e : Error}
      (h : Handed P owner ctx task request preparedAt handoffAt m journaled values effective app m' m'')
      (hdeliver : deliver values ≠ .panicked)
      (hfinish : Applied P { journaled with app } (Application.useFinish ctx task request
        (P.uuid m.rest.drawn) (deliver values).status effective) m'' (owner', .error e) m₃) :
    Used ({ owner' with frozen := true }, .result (.error .recoveryRequired)) m₃
  | finished {journaled owner' : DurableVault} {values : SecretInput} {effective : Time}
      {app : Application} {m' m'' m₃ : VaultMachine}
      (h : Handed P owner ctx task request preparedAt handoffAt m journaled values effective app m' m'')
      (hfinish : Applied P { journaled with app } (Application.useFinish ctx task request
        (P.uuid m.rest.drawn) (deliver values).status effective) m'' (owner', .ok ()) m₃)
      (result : Except Error DeliveryReceipt)
      (hresult : result = match deliver values with
        | .returned status => .ok { attempt := P.uuid m.rest.drawn, status }
        | _ => .error .interactionRequired) :
    Used (owner', .result result) m₃

/-- Where a `use_secret` is cut off. -/
inductive UseCut : VaultMachine → Prop
  | prepare {m' : VaultMachine} (h : ApplyCut P owner
      (Application.usePrepare P ctx task request (P.uuid m.rest.drawn) preparedAt) (numbered m) m') :
    UseCut m'
  | cancel {journaled : DurableVault} {e : Error} {app : Application} {m' m'' : VaultMachine}
      (h : Journaled P owner ctx task request preparedAt m journaled m')
      (hcheck : (Application.useAuthorize ctx task request handoffAt).run journaled.app = .error e app)
      (hcancel : ApplyCut P { journaled with app }
        (Application.useCancel request (P.uuid m.rest.drawn)) m' m'') : UseCut m''
  | finish {journaled : DurableVault} {values : SecretInput} {effective : Time} {app : Application}
      {m' m'' m₃ : VaultMachine}
      (h : Handed P owner ctx task request preparedAt handoffAt m journaled values effective app m' m'')
      (hfinish : ApplyCut P { journaled with app } (Application.useFinish ctx task request
        (P.uuid m.rest.drawn) (deliver values).status effective) m'' m₃) : UseCut m₃

variable {P owner ctx task request preparedAt handoffAt deliver m}

theorem wp_handOff {journaled : DurableVault} {m' : VaultMachine}
    (h : Journaled P owner ctx task request preparedAt m journaled m') :
    wp (journaled.handOff P ctx task request (P.uuid m.rest.drawn) handoffAt deliver)
      (Used P owner ctx task request preparedAt handoffAt deliver m)
      (fun _ => UseCut P owner ctx task request preparedAt handoffAt deliver m) m' := by
  unfold handOff
  cases hcheck : (Application.useAuthorize ctx task request handoffAt).run journaled.app with
  | error e app =>
    simp only
    rw [wp_bind]
    apply wp_mono (wp_applied P { journaled with app } _ m')
    · rintro ⟨owner', result⟩ m'' hcancel
      cases result with
      | error e' => exact .stuck h hcheck hcancel
      | ok u => exact .withdrawn h hcheck hcancel
    · exact fun _ m'' hcancel => .cancel h hcheck hcancel
  | ok out app =>
    obtain ⟨values, effective⟩ := out
    simp only [logHandoff, wp_bind, wp_get, wp_modify]
    have hhanded := Handed.mk h hcheck rfl
    have hfinish := wp_applied P { journaled with app } (Application.useFinish ctx task request
      (P.uuid m.rest.drawn) (deliver values).status effective)
      (logged (handoffOf P ctx task request handoffAt m values effective app m') m')
    unfold concludeUse
    cases hdeliver : deliver values with
    | panicked =>
      have hpanicked := Used.panicked hhanded hdeliver
      exact hpanicked
    | returned status | failed =>
      simp only [wp_bind]
      rw [hdeliver] at hfinish
      apply wp_mono hfinish
      · rintro ⟨owner', result⟩ m₃ hfinished
        rw [← hdeliver] at hfinished
        cases result with
        | error e =>
          refine .unrecorded hhanded (fun h => ?_) hfinished
          rw [hdeliver] at h
          cases h
        | ok u => exact .finished hhanded hfinished _ (by rw [hdeliver])
      · intro _ m₃ hcut
        rw [← hdeliver] at hcut
        exact .finish hhanded hcut

theorem wp_useSecret (P : Platform) (owner : DurableVault) (ctx : AuthenticatedContext) (task : Uuid)
    (request : PrivateUse) (preparedAt handoffAt : Time) (deliver : SecretInput → Delivered)
    (m : VaultMachine) :
    wp (owner.useSecret P ctx task request preparedAt handoffAt deliver)
      (Used P owner ctx task request preparedAt handoffAt deliver m)
      (fun _ => UseCut P owner ctx task request preparedAt handoffAt deliver m) m := by
  unfold useSecret
  rw [wp_bind, wp_drawIndex, wp_bind]
  apply wp_mono (wp_applied P owner
    (Application.usePrepare P ctx task request (P.uuid m.rest.drawn) preparedAt) (numbered m))
  · rintro ⟨owner', result⟩ m' happlied
    match result, happlied with
    | .error e, happlied => exact .refused happlied
    | .ok (some receipt), happlied => exact .replayed happlied
    | .ok none, happlied =>
      simp only
      cases hready : owner'.ready with
      | error e => exact .gated happlied hready
      | ok u => exact wp_handOff ⟨happlied, hready⟩
  · exact fun _ m' hcut => .prepare hcut

end Use

end DurableVault

end Credman
