import Credman.Lineage

/-! Clock samples, and what keeps the clock they move: the owner's memory while it lives, and
whatever its store can be opened or recovered to. -/
namespace Credman

open Library Library.Checked Relation Application DurableVault

variable {P : Platform}

/-- How many identifiers a call draws before its operation is applied. -/
def Call.draws : Call → Nat
  | .mutate .. | .importForTask .. | .useSecret .. => 1
  | _ => 0

/-- The operation a call applies, with the clock sample it starts with. -/
inductive Call.Samples (P : Platform) (n : Nat) : Call → {α : Type} → AppM α → Time → Prop
  | approveTask (admin : AuthenticatedContext) (task : TaskApproval) (now : Time) :
    Samples P n (.approveTask admin task now) (Application.approveTask admin task now) now
  | revokeTask (admin : AuthenticatedContext) (task : Uuid) (now : Time) :
    Samples P n (.revokeTask admin task now) (Application.revokeTask admin task now) now
  | mutate (ctx : AuthenticatedContext) (task request : Uuid) (op : Mutation) (now : Time) :
    Samples P n (.mutate ctx task request op now)
      (Application.mutate P ctx task request op now { id := P.uuid n, entropy := P.osRng n }) now
  | metadata (ctx : AuthenticatedContext) (task record : Uuid) (fields : Fields) (now : Time) :
    Samples P n (.metadata ctx task record fields now)
      (Application.metadata ctx task record fields now) now
  | importForTask (admin : AuthenticatedContext) (task request : Uuid) (kind : CredentialKind)
      (values : SecretInput) (now : Time) :
    Samples P n (.importForTask admin task request kind values now)
      (importClosure P admin task request kind values now { id := P.uuid n, entropy := P.osRng n }) now
  | readForTask (admin : AuthenticatedContext) (task record : Uuid) (fields : Fields) (now : Time) :
    Samples P n (.readForTask admin task record fields now) (readClosure admin task record fields now) now
  | usePrepare (ctx : AuthenticatedContext) (task : Uuid) (request : PrivateUse)
      (preparedAt handoffAt : Time) (deliver : SecretInput → Delivered) :
    Samples P n (.useSecret ctx task request preparedAt handoffAt deliver)
      (Application.usePrepare P ctx task request (P.uuid n) preparedAt) preparedAt

/-- The calls that take a clock sample of the owner's application. -/
def Call.timed : Call → Bool
  | .approveTask .. | .revokeTask .. | .mutate .. | .metadata .. | .importForTask ..
  | .readForTask .. | .useSecret .. => true
  | _ => false

/-- The machine in which a call of the owner applies its operation. -/
def Fleet.begun (fleet : Fleet) (i : Nat) (call : Call) (faults : List Fault) : VaultMachine :=
  { dir := (fleet.stores i).dir, faults
    rest := { fleet.session with drawn := fleet.session.drawn + call.draws } }

/-- A clock sample that a call takes of an application, where the commit it goes into
succeeds. Place 0 is the sample of `apply`; place 1 is the one a private use takes right
before its handoff, which goes into the commit of its outcome. -/
inductive Sampled (P : Platform) (fleet : Fleet) (i : Nat) (faults : List Fault) :
    Nat → Call → Application → Time → Prop
  | applied {call : Call} {α : Type} {operation : AppM α} {now : Time} {owner owner' : DurableVault}
      {m : VaultMachine} (howner : (fleet.stores i).owner = some owner) (hready : owner.ready = .ok ())
      (hsamples : call.Samples P fleet.session.drawn operation now)
      (hcommit : owner.commit P (owner.proposal operation).2 (fleet.begun i call faults)
        = .ok (owner', .ok ()) m) :
    Sampled P fleet i faults 0 call owner.staged now
  | handed {ctx : AuthenticatedContext} {task : Uuid} {request : PrivateUse} {preparedAt handoffAt : Time}
      {deliver : SecretInput → Delivered} {owner journaled owner' : DurableVault} {values : SecretInput}
      {effective : Time} {app : Application} {m m' : VaultMachine}
      (howner : (fleet.stores i).owner = some owner)
      (hprepare : owner.apply P (usePrepare P ctx task request (P.uuid fleet.session.drawn) preparedAt)
        (fleet.begun i (.useSecret ctx task request preparedAt handoffAt deliver) faults)
        = .ok (journaled, .ok none) m)
      (hready : journaled.ready = .ok ())
      (hcheck : (useAuthorize ctx task request handoffAt).run journaled.app = .ok (values, effective) app)
      (hdeliver : deliver values ≠ .panicked)
      (hfinish : ({ journaled with app } : DurableVault).apply P
        (useFinish ctx task request (P.uuid fleet.session.drawn) (deliver values).status effective)
        (logged { ctx, task, request, attempt := P.uuid fleet.session.drawn, values, sampled := handoffAt
                  effective, app, image := m.dir .state } m) = .ok (owner', .ok ()) m') :
    Sampled P fleet i faults 1 (.useSecret ctx task request preparedAt handoffAt deliver) journaled.app
      handoffAt
  | withdrawn {ctx : AuthenticatedContext} {task : Uuid} {request : PrivateUse}
      {preparedAt handoffAt : Time} {deliver : SecretInput → Delivered}
      {owner journaled owner' : DurableVault} {e : Error} {app : Application} {m m' : VaultMachine}
      (howner : (fleet.stores i).owner = some owner)
      (hprepare : owner.apply P (usePrepare P ctx task request (P.uuid fleet.session.drawn) preparedAt)
        (fleet.begun i (.useSecret ctx task request preparedAt handoffAt deliver) faults)
        = .ok (journaled, .ok none) m)
      (hready : journaled.ready = .ok ())
      (hcheck : (useAuthorize ctx task request handoffAt).run journaled.app = .error e app)
      (hcancel : ({ journaled with app } : DurableVault).apply P
        (useCancel request (P.uuid fleet.session.drawn)) m = .ok (owner', .ok ()) m') :
    Sampled P fleet i faults 1 (.useSecret ctx task request preparedAt handoffAt deliver) journaled.app
      handoffAt

/-! What the operations make of the clock. -/

section Operations

variable {n : Nat} {call : Call} {α : Type} {operation : AppM α} {now : Time}

theorem Application.clock_error {app : Application} {e : Error} (h : app.effectiveTime now = .error e) :
    Application.clock now app = .error e app.freezeClock := by
  have hget : (get : AppM Application) app = .ok app app := rfl
  unfold Application.clock
  simp only [bind, EStateM.bind, hget, h]
  rfl

theorem Application.clock_error_bind {β : Type} (rest : Time → AppM β) {app : Application} {e : Error}
    (h : app.effectiveTime now = .error e) :
    (Application.clock now >>= rest) app = .error e app.freezeClock := by
  simp only [bind, EStateM.bind, clock_error h]

/-- A sample the clock refuses is all the operation looks at. -/
theorem Call.Samples.refused (h : call.Samples P n operation now) {app : Application} {e : Error}
    (herror : app.effectiveTime now = .error e) :
    operation.run app = .error e app.freezeClock := by
  cases h <;> exact clock_error_bind _ herror

/-- The effective time is where the operation leaves the clock, whether it succeeds or not. -/
theorem Call.Samples.advanced (h : call.Samples P n operation now) {app next : Application}
    {effective : Time} (heff : app.effectiveTime now = .ok effective)
    (hleaves : Leaves operation app next) : next.lastTime = some effective := by
  obtain ⟨hticked, -⟩ := lastTime_ticked heff
  obtain ⟨hagain, hsame⟩ := effectiveTime_ticked heff
  have hclock : ∀ {next : Application}, app.ClockOnly now next → next.lastTime = some effective := by
    intro next hclock
    cases hclock with
    | ticked => exact hticked
    | frozen herror => exact absurd (heff.symm.trans herror) nofun
  have hlast : ∀ {ctx : AuthenticatedContext} {task request : Uuid} {op : Mutation} {draw : Draw}
      {effective : Time} {receipt : Receipt} {base next : Application},
      Executed P ctx task request op draw effective base receipt next →
      next.lastTime = base.lastTime := by
    intro ctx task request op draw effective receipt base next hexec
    obtain ⟨t, mid, op', -, -, -, -, hperformed, rfl⟩ := hexec.change
    cases hperformed <;> rfl
  cases h with
  | approveTask admin task =>
    rcases hleaves with ⟨u, hrun⟩ | ⟨e, hrun⟩
    · obtain ⟨effective', -, happroved⟩ := approveTask_eq_ok.mp hrun
      rw [happroved.result]
      exact hticked
    · exact hclock (approveTask_error hrun)
  | revokeTask admin task =>
    refine hleaves.of_wp (wp_mono (wp_revokeTask admin task now app) ?_ fun _ _ => hclock)
    rintro - next ⟨effective', -, hrevoked⟩
    rw [hrevoked.result]
    exact hticked
  | mutate ctx task request op =>
    refine hleaves.of_wp (wp_mono (wp_mutate P ctx task request op now _ app) ?_ fun _ _ => hclock)
    rintro receipt next ⟨effective', -, hexec | ⟨-, rfl⟩⟩
    · exact (hlast hexec).trans hticked
    · exact hticked
  | metadata ctx task record fields =>
    refine hleaves.of_wp (wp_mono (wp_metadata ctx task record fields now app) ?_ fun _ _ => hclock)
    rintro - next ⟨effective', -, values, t, r, -, -, rfl⟩
    exact hticked
  | importForTask admin task request kind values =>
    refine hleaves.of_wp (p := fun next => next.lastTime = some effective) ?_
    simp only [importClosure, wp_bind, wp_clock, wp_get, wp_liftExcept]
    refine ⟨fun effective' heff' => ⟨fun ctx _ => ?_, fun _ _ => hticked⟩, fun e herror =>
      absurd (heff.symm.trans herror) nofun⟩
    cases Except.ok.inj (heff.symm.trans heff')
    refine wp_mono (wp_mutate P ctx task request (.create kind values) effective _ (app.ticked now)) ?_
      fun e next hagain => (clockOnly_ticked heff hagain).symm ▸ hticked
    rintro receipt next ⟨effective'', -, hexec | ⟨-, rfl⟩⟩
    · rw [hlast hexec, hsame]
      exact hticked
    · rw [hsame]
      exact hticked
  | readForTask admin task record fields =>
    refine hleaves.of_wp (p := fun next => next.lastTime = some effective) ?_
    simp only [readClosure, wp_bind, wp_clock, wp_get, wp_liftExcept]
    refine ⟨fun effective' heff' => ⟨fun ctx _ => ?_, fun _ _ => hticked⟩, fun e herror =>
      absurd (heff.symm.trans herror) nofun⟩
    cases Except.ok.inj (heff.symm.trans heff')
    refine wp_mono (wp_readSecret ctx task record fields effective (app.ticked now)) ?_
      fun e next hagain => (clockOnly_ticked heff hagain).symm ▸ hticked
    rintro - next ⟨effective'', -, t, r, -, rfl⟩
    rw [hsame]
    exact hticked
  | usePrepare ctx task request =>
    refine hleaves.of_wp (wp_mono (wp_usePrepare P ctx task request _ now app) ?_ fun _ _ => hclock)
    rintro out next ⟨effective', -, ⟨-, hprepared⟩ | ⟨receipt, -, -, rfl⟩⟩
    · obtain ⟨values, t, r, -, rfl⟩ := hprepared.usable
      unfold Application.prepared
      split_ifs <;> exact hticked
    · exact hticked

end Operations

/-! In memory, over one life of the owner. -/

/-- What has an owner had it before, with a clock that was no later. -/
def Onward (store store' : StoreState) : Prop :=
  ∀ owner', store'.owner = some owner' → ∃ owner, store.owner = some owner
    ∧ ∀ t, owner.app.lastTime = some t → ∃ t', owner'.app.lastTime = some t' ∧ t ≤ t'

namespace Onward

variable {store mid store' : StoreState} {d d' : Dir FileName} {owner owner' : DurableVault}

theorem refl (store : StoreState) : Onward store store :=
  fun owner howner => ⟨owner, howner, fun t ht => ⟨t, ht, le_refl t⟩⟩

theorem trans (h : Onward store mid) (h' : Onward mid store') : Onward store store' := by
  intro owner' howner'
  obtain ⟨between, hbetween, hlater'⟩ := h' owner' howner'
  obtain ⟨owner, howner, hlater⟩ := h between hbetween
  refine ⟨owner, howner, fun t ht => ?_⟩
  obtain ⟨t₁, ht₁, hle⟩ := hlater t ht
  obtain ⟨t₂, ht₂, hle'⟩ := hlater' t₁ ht₁
  exact ⟨t₂, ht₂, hle.trans hle'⟩

theorem gone : Onward store ⟨d, none⟩ := nofun

theorem owned (h : ∀ t, owner.app.lastTime = some t → ∃ t', owner'.app.lastTime = some t' ∧ t ≤ t') :
    Onward ⟨d, some owner⟩ ⟨d', some owner'⟩ := by
  intro owner'' howner
  cases howner
  exact ⟨owner, rfl, h⟩

end Onward

/-- The calls that make an owner. -/
def Call.enters : Call → Bool
  | .create _ | .open _ | .recover .. | .restore .. => true
  | _ => false

section Memory

variable {backups : List Bytes} {b : Nat} {call : Call} {store store' : StoreState} {s s' : Session}

theorem Event.onward (hcall : call.enters = false) (hkept : Kept P (fun _ => True) s.drawn store)
    (h : Event P backups b call (store, s) (store', s')) : Onward store store' := by
  have hsame : ∀ {app : Application} (t : Time), app.lastTime = some t →
      ∃ t', app.lastTime = some t' ∧ t ≤ t' := fun t ht => ⟨t, ht, le_refl t⟩
  cases h with
  | drawn => exact .refl store
  | handed => exact .refl _
  | dropped => exact .gone
  | cutOff => exact .gone
  | creationCut => exact .gone
  | attempted => exact .gone
  | frozen => exact .owned hsame
  | @memory d owner candidate s s' hlater hready hran hstage =>
    obtain ⟨-, -, hlast⟩ := staged_lasting (hkept.valid owner rfl) (hkept.lasting owner rfl)
    exact .owned fun t ht => hran.run.operated.lastTime t (hlast.trans ht)
  | @published d d' owner next key salt kdf s s' n out hlater hready hpublishes hpublished =>
    obtain ⟨-, -, hlast⟩ := staged_lasting (hkept.valid owner rfl) (hkept.lasting owner rfl)
    have hnext : ∀ t, owner.app.lastTime = some t → ∃ t', next.lastTime = some t' ∧ t ≤ t' := by
      cases hpublishes with
      | commit hran hstage =>
        obtain ⟨rfl, -⟩ := stage_some hstage
        exact fun t ht => hran.run.operated.lastTime t (hlast.trans ht)
      | rekey k hcandidate =>
        obtain ⟨-, -, -, -, -, previous, -, rfl⟩ := rekeyCandidate_eq_ok.mp hcandidate
        exact hsame
    obtain ⟨store, outcome⟩ := out
    cases outcome with
    | notPublished | unknown => exact .owned hsame
    | durable => exact .owned hnext
  | @authorized d owner app s hdelivers hready hruns now hclock =>
    exact .owned fun t ht => (hruns 0).operated.lastTime t ht
  | created hlater harises => cases harises <;> cases hcall
  | opened hopen =>
    rw [hopen] at hcall
    cases hcall
  | recovered hrecover =>
    rw [hrecover] at hcall
    cases hcall

theorem onward_events (hids : P.FreshIds) (hseals : P.Seals) (hcall : call.enters = false)
    (hkept : Kept P (fun _ => True) s.drawn store) (hcopies : Copies P (fun _ => True) s.drawn backups)
    (h : ReflTransGen (Event P backups b call) (store, s) (store', s')) : Onward store store' := by
  have hall : ∀ {y : StoreState × Session}, ReflTransGen (Event P backups b call) (store, s) y →
      Onward store y.1 := by
    intro y hevents
    induction hevents with
    | refl => exact .refl store
    | tail hevents hevent ih =>
      obtain ⟨hmid, -⟩ := hkept.events hids hseals (keeps_true call) (Nat.zero_le _) (Nat.zero_le _)
        (.inr fun _ => trivial) hcopies hevents
      exact ih.trans (hevent.onward hcall hmid)
  exact hall h

end Memory

/-- The store has an owner when the call is made. -/
def Held (i : Nat) (fleet : Fleet) (_ : Nat) (_ : Call) : Prop := (fleet.stores i).owner ≠ none

section Runs

variable {fleet later : Fleet} {i : Nat} {call : Call} {faults : List Fault}

/-- Nothing is made of a store that is held. -/
theorem enters_held (hcall : call.enters = true) (hheld : (fleet.stores i).owner ≠ none) :
    (fleet.step P i call faults).1 = fleet := by
  obtain ⟨owner, howner⟩ := Option.ne_none_iff_exists'.mp hheld
  cases call with
  | create | «open» | recover =>
    unfold Fleet.step Fleet.enter
    simp only [howner]
  | restore _ _ backup =>
    unfold Fleet.step Fleet.enter
    simp only [howner]
    cases fleet.backups[backup]? <;> rfl
  | _ => cases hcall

theorem onward_step (hids : P.FreshIds) (hseals : P.Seals) (hsound : Sound P fleet)
    (hheld : (fleet.stores i).owner ≠ none) :
    Onward (fleet.stores i) ((fleet.step P i call faults).1.stores i) := by
  cases hcall : call.enters with
  | true =>
    rw [enters_held hcall hheld]
    exact .refl _
  | false =>
    exact onward_events hids hseals hcall (hsound.stores i) hsound.backups
      (stepped hseals fleet i call faults).events

/-- While a store is held, its owner's clock does not fall. -/
theorem onward_runs (hids : P.FreshIds) (hseals : P.Seals) (hsound : Sound P fleet)
    (hruns : Fleet.Runs P (Held i) fleet later) : Onward (fleet.stores i) (later.stores i) := by
  induction hruns with
  | refl => exact .refl _
  | @tail mid _ hruns hgoes ih =>
    obtain ⟨j, call, faults, hheld, rfl⟩ := hgoes
    have hmid := hsound.runs hids hseals hruns
    by_cases hj : i = j
    · subst hj
      exact ih.trans (onward_step hids hseals hmid hheld)
    · rw [(stepped hseals mid j call faults).frame i hj]
      exact ih

end Runs

/-! On disk, over every restart. -/

/-- A commit that succeeded leaves the clock of its candidate: in memory, and in everything that
could be taken up from disk, though there it may be behind by less than a minute. -/
theorem DurableVault.Committed.followed {owner owner' : DurableVault} {candidate : Application} {n k : Nat}
    {d d' : Dir FileName} (hseals : P.Seals) (hvalid : owner.app.Valid P) (hlasting : Lasting P n owner.app)
    (hfits : ∀ image, owner.store.currentImage = some image → image.length ≤ maxImage)
    (hdated : candidate.Timestamped) (hmono : ∀ t, owner.app.lastTime = some t →
      ∃ t', candidate.lastTime = some t' ∧ t ≤ t')
    (hmemory : owner.stage P candidate = .ok none → Mirrored P d owner)
    (h : Committed P owner candidate k d (owner', .ok ()) d') :
    owner'.app.lastTime = candidate.lastTime ∧ owner'.app.clockFrozen = candidate.clockFrozen
      ∧ (shown d').Carries P fun app =>
        app.clockFrozen = candidate.clockFrozen ∧ Lags app.lastTime candidate.lastTime := by
  cases h with
  | memory hstage =>
    have hkept := stage_none hseals.toJson hvalid hlasting.dated hdated hmono hstage
    have hfrozen := congrArg Application.clockFrozen hkept.same
    change owner.app.clockFrozen = candidate.clockFrozen at hfrozen
    have hmirrored := (hmemory hstage).memory hkept hmono
    obtain ⟨image, hstate, happ, hopens⟩ := hmirrored.opens
    obtain ⟨phrase, hkey⟩ := hmirrored.phrase
    refine ⟨rfl, hfrozen, (Shown.Carries.of_state hseals hmirrored.no_pending hmirrored.no_recovery
      hstate (hopens phrase hkey)).mono ?_⟩
    rintro app rfl
    exact ⟨hfrozen, hmirrored.lag⟩
  | durable hstage hpublished =>
    obtain ⟨rfl, -⟩ := stage_some hstage
    have hnext : Application.Timestamped { candidate with generation := owner.app.generation + 1 } :=
      ⟨hdated.requests, hdated.deliveries⟩
    refine ⟨rfl, rfl, (Published.exact hseals hnext hfits hpublished).mono ?_⟩
    rintro app rfl
    exact ⟨rfl, Lags.refl _⟩

/-- A gate file is left. -/
def Gated (d : Dir FileName) : Prop := d .pending ≠ none ∨ d .recovery ≠ none

def Call.recovers : Call → Bool
  | .recover .. => true
  | _ => false

/-- A recovery has done its work once it has returned an owner, or once it has changed what the
directory shows and left no gate: then it may still fail, or die, in its last sync. -/
def Recovers (P : Platform) (i : Nat) (fleet : Fleet) (j : Nat) (call : Call) (faults : List Fault) :
    Prop :=
  j = i ∧ call.recovers = true
    ∧ ((fleet.step P j call faults).2 = .opened (.ok ())
      ∨ shown ((fleet.step P j call faults).1.stores i).dir ≠ shown (fleet.stores i).dir
        ∧ ¬ Gated ((fleet.step P j call faults).1.stores i).dir)

/-- A run in which no recovery of this store has done its work. -/
def Unrecovered (P : Platform) (i : Nat) : Fleet → Fleet → Prop :=
  ReflTransGen fun fleet next => ∃ j call faults, ¬ Recovers P i fleet j call faults
    ∧ next = (fleet.step P j call faults).1

section Gates

variable {backups : List Bytes} {b : Nat} {call : Call} {store store' : StoreState} {s s' : Session}

/-- Behind a gate nothing but a recovery does anything. -/
theorem Event.gated (hcall : call.recovers = false) (howner : store.owner = none) (hgated : Gated store.dir)
    (h : Event P backups b call (store, s) (store', s')) : store'.owner = none ∧ Gated store'.dir := by
  cases h with
  | drawn => exact ⟨howner, hgated⟩
  | dropped => exact ⟨rfl, hgated⟩
  | memory => cases howner
  | published => cases howner
  | cutOff => cases howner
  | authorized => cases howner
  | frozen => cases howner
  | handed => cases howner
  | created hlater harises hcreated =>
    cases hcreated with
    | refused => exact ⟨rfl, hgated⟩
    | published _ _ _ hpending hrecovery => exact absurd hgated (by simp [Gated, hpending, hrecovery])
  | creationCut hlater harises hcut =>
    cases hcut with
    | early => exact ⟨rfl, hgated⟩
    | cut _ _ _ hpending hrecovery => exact absurd hgated (by simp [Gated, hpending, hrecovery])
  | opened _ hopened => exact absurd hgated (by simp [Gated, hopened.no_pending, hopened.no_recovery])
  | attempted hrecover =>
    rw [hrecover] at hcall
    cases hcall
  | recovered hrecover =>
    rw [hrecover] at hcall
    cases hcall

theorem gated_events (hcall : call.recovers = false) (howner : store.owner = none)
    (hgated : Gated store.dir)
    (h : ReflTransGen (Event P backups b call) (store, s) (store', s')) :
    store'.owner = none ∧ Gated store'.dir := by
  have hall : ∀ {y : StoreState × Session}, ReflTransGen (Event P backups b call) (store, s) y →
      y.1.owner = none ∧ Gated y.1.dir := by
    intro y hevents
    induction hevents with
    | refl => exact ⟨howner, hgated⟩
    | tail _ hevent ih => exact hevent.gated hcall ih.1 ih.2
  exact hall h

end Gates

section Recoveries

variable {fleet later : Fleet} {i : Nat} {call : Call} {faults : List Fault} {φ : Application → Prop}

/-- A recovery that did not return an owner leaves none. -/
theorem recover_unowned (hseals : P.Seals) (hcall : call.recovers = true) (howner : (fleet.stores i).owner = none)
    (hanswer : (fleet.step P i call faults).2 ≠ .opened (.ok ())) :
    ((fleet.step P i call faults).1.stores i).owner = none := by
  cases call with
  | recover mnemonic admin now =>
    revert hanswer
    change (fleet.enter i faults (DurableVault.recover P mnemonic admin now)).2 ≠ _ →
      ((fleet.enter i faults (DurableVault.recover P mnemonic admin now)).1.stores i).owner = none
    refine Fleet.enter_spec (p := fun out => out.2 ≠ .opened (.ok ()) → (out.1.stores i).owner = none)
      (fun owner hheld => absurd (howner.symm.trans hheld) nofun) fun _ => ?_
    refine wp_mono (wp_recover hseals _) ?_ fun _ m _ _ => by rw [Fleet.put_self]
    rintro (e | owner) m - hanswer
    · simp only [Fleet.put_self]
    · exact absurd rfl hanswer
  | _ => cases hcall

/-- What all calls but a recovery keep of a store is kept until a recovery has done its
work: by the owner and what could be taken up, or else behind a gate. -/
structure Kept.Until (P : Platform) (φ : Application → Prop) (i : Nat) (fleet : Fleet) : Prop where
  sound : Sound P fleet
  founded : (fleet.stores i).dir .state ≠ none
  kept : Kept P φ fleet.session.drawn (fleet.stores i)
    ∨ (fleet.stores i).owner = none ∧ Gated (fleet.stores i).dir

theorem Kept.Until.step (hids : P.FreshIds) (hseals : P.Seals)
    (hkeeps : ∀ call : Call, call.recovers = false → Keeps P φ 0 call) {j : Nat}
    (hnot : ¬ Recovers P i fleet j call faults) (h : Kept.Until P φ i fleet) :
    Kept.Until P φ i (fleet.step P j call faults).1 := by
  have hstepped := stepped hseals fleet j call faults
  refine ⟨hstepped.sound hids hseals h.sound, hstepped.founded h.founded, ?_⟩
  by_cases hj : i = j
  · subst hj
    cases hcall : call.recovers with
    | false =>
      rcases h.kept with hkept | ⟨howner, hgated⟩
      · exact .inl (hstepped.kept hids hseals h.sound (hkeeps call hcall) (Nat.zero_le _)
          (.inl h.founded) hkept)
      · exact .inr (gated_events hcall howner hgated hstepped.events)
    | true =>
      cases howner : (fleet.stores i).owner with
      | some owner =>
        rw [enters_held (by cases call <;> first | rfl | cases hcall) (by rw [howner]; nofun)]
        exact h.kept
      | none =>
        -- it returned no owner, and it left a gate or showed no change
        have hanswer := fun heq => hnot ⟨rfl, hcall, .inl heq⟩
        have hunowned := recover_unowned hseals hcall howner hanswer
        by_cases hgated : Gated ((fleet.step P i call faults).1.stores i).dir
        · exact .inr ⟨hunowned, hgated⟩
        · have hsame : shown ((fleet.step P i call faults).1.stores i).dir
              = shown (fleet.stores i).dir := by
            by_contra hchanged
            exact hnot ⟨rfl, hcall, .inr ⟨hchanged, hgated⟩⟩
          rcases h.kept with hkept | ⟨-, hold⟩
          · refine .inl ?_
            have hcarries := (hkept.later hstepped.later).carries
            rw [← hsame] at hcarries
            generalize (fleet.step P i call faults).1.stores i = store at hunowned hcarries
            obtain ⟨d, o⟩ := store
            cases hunowned
            exact .unowned hcarries
          · have hpending := congrArg Shown.pending hsame
            have hrecovery := congrArg Shown.recovery hsame
            refine absurd ?_ hgated
            unfold Gated at hold ⊢
            change _ = (fleet.stores i).dir .pending at hpending
            change _ = (fleet.stores i).dir .recovery at hrecovery
            rw [← hpending, ← hrecovery] at hold
            exact hold
  · rw [hstepped.frame i hj]
    exact h.kept.imp_left fun hkept => hkept.later hstepped.later

theorem Kept.Until.runs (hids : P.FreshIds) (hseals : P.Seals)
    (hkeeps : ∀ call : Call, call.recovers = false → Keeps P φ 0 call) (h : Kept.Until P φ i fleet)
    (hruns : Unrecovered P i fleet later) : Kept.Until P φ i later := by
  induction hruns with
  | refl => exact h
  | tail _ hstep ih =>
    obtain ⟨j, call, faults, hnot, rfl⟩ := hstep
    exact ih.step hids hseals hkeeps hnot

/-- Nothing but a recovery sets the clock back. -/
theorem keeps_reached (time : Time) (hcall : call.recovers = false) :
    Keeps P (fun app => ∃ t, app.lastTime = some t ∧ time < t) 0 call where
  ran _ _ _ _ h hruns := by
    obtain ⟨t, ht, hlt⟩ := h
    obtain ⟨t', ht', hle⟩ := hruns.operated.lastTime t ht
    exact ⟨t', ht', lt_of_lt_of_le hlt hle⟩
  compacted hvalid hlasting h := by
    rw [(hlasting.compact hvalid).2.2.lastTime]
    exact h
  renumbered _ _ h := h
  recovered hrecover := by
    rw [hrecover] at hcall
    cases hcall

theorem Application.Operated.frozen {app next : Application} {id : Uuid} (h : Operated P id app next)
    (hfrozen : app.clockFrozen = true) : next.clockFrozen = true := by
  have hnot : ∀ {now effective : Time}, app.effectiveTime now ≠ .ok effective := by
    intro now effective heff
    rw [(lastTime_ticked heff).2.2.2] at hfrozen
    cases hfrozen
  cases h with
  | clockOnly h =>
    cases h with
    | ticked heff => exact absurd heff hnot
    | frozen => rfl
  | approved heff | revoked heff | executed _ heff | logged heff | prepared heff => exact absurd heff hnot
  | withdrawn h | finished h => cases h <;> exact hfrozen
  | reported h event => cases h <;> exact hfrozen

/-- Nothing but a recovery thaws it. -/
theorem keeps_frozen (hcall : call.recovers = false) :
    Keeps P (fun app => app.clockFrozen = true) 0 call where
  ran _ _ _ _ h hruns := hruns.operated.frozen h
  compacted hvalid hlasting h := (hlasting.compact hvalid).2.2.clockFrozen.trans h
  renumbered _ _ h := h
  recovered hrecover := by
    rw [hrecover] at hcall
    cases hcall

end Recoveries

end Credman
