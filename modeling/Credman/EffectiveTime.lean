import Credman.Timekeeping
import Credman.Cancellation
import Credman.AdminView

/-! The effective times an owner decides by: in one life of the owner they never fall, across
restarts they fall by less than a minute, and a clock that was set back too far stays
refused until a recovery. -/
namespace Credman

open Library Library.Checked Relation Application DurableVault

variable {P : Platform}

/-! Answers. -/

def Answer.error : Answer → Option Error
  | .opened (.error e) | .done (.error e) | .receipt (.error e) | .view (.error e) | .values (.error e)
  | .delivery (.result (.error e)) | .backup (.error e) => some e
  | _ => none

/-- The errors a commit can end with. -/
def Error.ofStorage : Error → Bool
  | .notPublished | .recoveryRequired | .invalidStorage | .capacity => true
  | _ => false

/-- Nobody answers, or the clock refuses, or the store does. -/
inductive Refused : Answer → Prop
  | noOwner : Refused .noOwner
  | halted : Refused .halted
  | error {answer : Answer} {e : Error} (h : answer.error = some e)
      (he : e = .clockRecoveryRequired ∨ e.ofStorage = true) : Refused answer

theorem DurableVault.stage_error {owner : DurableVault} {candidate : Application} {e : Error}
    (h : owner.stage P candidate = .error e) : e.ofStorage = true := by
  have hencode : ∀ {app : Application}, app.encode P = .error e → e.ofStorage = true := by
    intro app h
    simp only [encode, bind_eq_error, failIf_eq_error, pure_eq_error, and_false, exists_false, or_false] at h
    obtain h | ⟨_, -, -, rfl⟩ := h
    · rw [app.failsWith_validate e h]
      rfl
    · rfl
  simp only [stage, clockOnlyDifference, bind_eq_error, pure_eq_error, and_false, exists_false,
    or_false] at h
  obtain h | ⟨_, -, (h | ⟨_, -, h⟩) | ⟨clockOnly, -, h⟩⟩ := h
  · unfold ready at h
    split_ifs at h
    cases h
    rfl
  · exact hencode h
  · exact hencode h
  · split_ifs at h
    · cases h
    · simp only [bind_eq_error, failIf_eq_error, pure_eq_error, and_false, exists_false, or_false] at h
      obtain ⟨-, rfl⟩ | ⟨_, -, h⟩ := h
      · rfl
      · rw [Application.failsWith_validate _ e h]
        rfl

theorem DurableVault.Committed.error {owner owner' : DurableVault} {candidate : Application} {n : Nat}
    {d d' : Dir FileName} {e : Error} (h : Committed P owner candidate n d (owner', .error e) d') :
    e.ofStorage = true := by
  cases h with
  | rejected hstage => exact stage_error hstage
  | notPublished => rfl
  | unknown => rfl

theorem Application.effectiveTime_error {app : Application} {now : Time} {e : Error}
    (h : app.effectiveTime now = .error e) : e = .clockRecoveryRequired := by
  unfold effectiveTime at h
  split_ifs at h
  · exact (Except.error.inj h).symm
  · cases hlast : app.lastTime with
    | none =>
      rw [hlast] at h
      cases h
    | some last =>
      simp only [hlast] at h
      split_ifs at h
      exact (Except.error.inj h).symm

section Denied

variable {fleet : Fleet} {i : Nat} {call : Call} {faults : List Fault} {owner owner' : DurableVault}
  {α : Type} {operation : AppM α} {now : Time} {n : Nat} {m m' : VaultMachine} {e : Error}

theorem proposal_refused (hsamples : call.Samples P n operation now)
    (herror : owner.staged.effectiveTime now = .error e) :
    owner.proposal operation = (.error e, owner.staged.freezeClock) := by
  unfold proposal
  rw [hsamples.refused herror]

/-- Where the clock refuses, no operation answers anything else but a storage error. -/
theorem Call.Samples.denied {out : DurableVault × Except Error α}
    (hsamples : call.Samples P n operation now)
    (hrefuses : owner.staged.effectiveTime now = .error e)
    (happlied : Applied P owner operation m out m') :
    ∃ e, out.2 = .error e ∧ (e = .clockRecoveryRequired ∨ e.ofStorage = true) := by
  cases happlied with
  | refused => exact ⟨_, rfl, .inr rfl⟩
  | @ran owner' committed m' hready hlater hcommitted =>
    cases committed with
    | error e' => exact ⟨e', rfl, .inr hcommitted.error⟩
    | ok u =>
      refine ⟨e, ?_, .inl (effectiveTime_error hrefuses)⟩
      rw [proposal_refused hsamples hrefuses]
      rfl

/-- A frozen clock refuses every call that looks at it. -/
theorem refused_frozen (hcall : call.timed = true)
    (hfrozen : ∀ owner, (fleet.stores i).owner = some owner → owner.staged.clockFrozen = true) :
    Refused (fleet.step P i call faults).2 := by
  have hrefuses : ∀ {owner : DurableVault}, (fleet.stores i).owner = some owner → ∀ now,
      owner.staged.effectiveTime now = .error .clockRecoveryRequired := by
    intro owner howner now
    unfold effectiveTime
    rw [if_pos (hfrozen owner howner)]
  have hask : ∀ {α : Type} {operation : AppM α} {now : Time} {answer : Except Error α → Answer},
      call.Samples P fleet.session.drawn operation now → (∀ e, (answer (.error e)).error = some e) →
      Refused (fleet.ask i faults (fun owner => owner.apply P operation) answer).2 := by
    intro α operation now answer hsamples hanswer
    refine Fleet.ask_spec (p := fun out => Refused out.2) (fun _ => .noOwner) fun owner howner => ?_
    refine wp_mono (wp_applied P owner operation _) ?_ fun _ _ _ => .halted
    rintro ⟨owner', result⟩ m happlied
    obtain ⟨e, rfl, he⟩ := hsamples.denied (hrefuses howner now) happlied
    exact .error (hanswer e) he
  have hdraw : ∀ {α : Type} {operation : Draw → AppM α} {now : Time} {answer : Except Error α → Answer},
      call.Samples P fleet.session.drawn
        (operation { id := P.uuid fleet.session.drawn, entropy := P.osRng fleet.session.drawn }) now →
      (∀ e, (answer (.error e)).error = some e) →
      Refused (fleet.ask i faults (fun owner => do
        let draw ← drawMutation P
        owner.apply P (operation draw)) answer).2 := by
    intro α operation now answer hsamples hanswer
    refine Fleet.ask_spec (p := fun out => Refused out.2) (fun _ => .noOwner) fun owner howner => ?_
    rw [wp_bind, drawMutation, wp_bind, wp_drawIndex, wp_pure]
    refine wp_mono (wp_applied P owner _ _) ?_ fun _ _ _ => .halted
    rintro ⟨owner', result⟩ m happlied
    obtain ⟨e, rfl, he⟩ := hsamples.denied (hrefuses howner now) happlied
    exact .error (hanswer e) he
  cases call with
  | approveTask admin task now => exact hask (.approveTask admin task now) fun _ => rfl
  | revokeTask admin task now => exact hask (.revokeTask admin task now) fun _ => rfl
  | metadata ctx task record fields now => exact hask (.metadata ctx task record fields now) fun _ => rfl
  | readForTask admin task record fields now =>
    exact hask (.readForTask admin task record fields now) fun _ => rfl
  | mutate ctx task request op now => exact hdraw (.mutate ctx task request op now) fun _ => rfl
  | importForTask admin task request kind values now =>
    exact hdraw (.importForTask admin task request kind values now) fun _ => rfl
  | useSecret ctx task request preparedAt handoffAt deliver =>
    have hsamples := Call.Samples.usePrepare (P := P) (n := fleet.session.drawn) ctx task request
      preparedAt handoffAt deliver
    refine Fleet.ask_spec (p := fun out => Refused out.2) (fun _ => .noOwner) fun owner howner => ?_
    refine wp_mono (wp_useSecret P owner ctx task request preparedAt handoffAt deliver _) ?_
      fun _ _ _ => .halted
    have hdenied := fun {out : DurableVault × Except Error (Option DeliveryReceipt)} {m m' : VaultMachine}
      (happlied : Applied P owner (Application.usePrepare P ctx task request
        (P.uuid fleet.session.drawn) preparedAt) m out m') =>
      hsamples.denied (hrefuses howner preparedAt) happlied
    have hnever : ∀ {owner' : DurableVault} {result : Option DeliveryReceipt} {m m' : VaultMachine},
        ¬ Applied P owner (Application.usePrepare P ctx task request (P.uuid fleet.session.drawn)
          preparedAt) m (owner', .ok result) m' := by
      intro owner' result m m' happlied
      obtain ⟨e, he, -⟩ := hdenied happlied
      cases he
    rintro out m hused
    cases hused with
    | refused h =>
      obtain ⟨e, he, hkind⟩ := hdenied h
      cases he
      exact .error rfl hkind
    | replayed h => exact (hnever h).elim
    | gated h => exact (hnever h).elim
    | withdrawn h => exact (hnever h.prepared).elim
    | stuck h => exact (hnever h.prepared).elim
    | panicked h => exact (hnever h.journal.prepared).elim
    | unrecorded h => exact (hnever h.journal.prepared).elim
    | finished h => exact (hnever h.journal.prepared).elim
  | _ => cases hcall

end Denied

/-! What a sample leaves at its store. -/

/-- A sample has been committed to this owner in this directory; the rest of the call follows. -/
structure Recorded (P : Platform) (fleet : Fleet) (i : Nat) (call : Call) (faults : List Fault)
    (app : Application) (now : Time) (d : Dir FileName) (owner : DurableVault) (s : Session) : Prop where
  before : ∃ first, (fleet.stores i).owner = some first
    ∧ ∀ t, first.app.lastTime = some t → ∃ t', app.lastTime = some t' ∧ t ≤ t'
  kept : Kept P (fun _ => True) s.drawn ⟨d, some owner⟩
  later : fleet.session.drawn ≤ s.drawn
  effective : ∀ e, app.effectiveTime now = .ok e → owner.app.lastTime = some e
    ∧ (shown d).Carries P fun app => Lags app.lastTime (some e)
  refused : ∀ e, app.effectiveTime now = .error e → owner.app.clockFrozen = true
    ∧ (shown d).Carries P fun app => app.clockFrozen = true
  rest : ReflTransGen (Event P fleet.backups fleet.session.drawn call) (⟨d, some owner⟩, s)
    ((fleet.step P i call faults).1.stores i, (fleet.step P i call faults).1.session)

section Recorded

variable {fleet : Fleet} {i : Nat} {call : Call} {faults : List Fault} {owner owner' : DurableVault}
  {α : Type} {operation : AppM α} {now : Time} {n : Nat} {m m' : VaultMachine} {e : Error}

theorem apply_of_commit (hready : owner.ready = .ok ())
    (h : owner.commit P (owner.proposal operation).2 m = .ok (owner', .ok ()) m') :
    owner.apply P operation m = .ok (owner', (owner.proposal operation).1) m' := by
  rw [eq_ok_iff_wp] at h ⊢
  unfold apply
  rw [hready]
  unfold proposal at h ⊢
  cases hrun : operation.run owner.staged with
  | ok a next | error e next =>
    simp only [hrun] at h ⊢
    rw [wp_bind]
    refine wp_mono h ?_ fun _ _ hfalse => hfalse
    rintro _ _ ⟨rfl, rfl⟩
    exact ⟨rfl, rfl⟩

theorem Call.Samples.ran (h : call.Samples P n operation now) {app next : Application}
    (hleaves : Leaves operation app next) : call.Ran P n n (n + call.draws) app next := by
  cases h with
  | approveTask => exact .inr fun _ => .approveTask hleaves
  | revokeTask => exact .inr fun _ => .revokeTask hleaves
  | mutate => exact .inl ⟨Nat.lt_succ_self n, .mutate hleaves⟩
  | metadata => exact .inr fun _ => .metadata hleaves
  | importForTask => exact .inl ⟨Nat.lt_succ_self n, .importForTask hleaves⟩
  | readForTask => exact .inr fun _ => .readForTask hleaves
  | usePrepare => exact .inl ⟨Nat.lt_succ_self n, .usePrepare hleaves⟩

theorem ask_of_ok {β : Type} {program : DurableVault → VaultIo (DurableVault × β)} {answer : β → Answer}
    {b : β} (howner : (fleet.stores i).owner = some owner)
    (hrun : program owner ⟨(fleet.stores i).dir, faults, fleet.session⟩ = .ok (owner', b) m) :
    fleet.ask i faults program answer = (fleet.put i ⟨m.dir, some owner'⟩ m.rest, answer b) := by
  unfold Fleet.ask Fleet.run
  simp only [howner, EStateM.run, hrun]

/-- The answer of a call that does nothing but its one operation. -/
theorem Call.Samples.answers (h : call.Samples P fleet.session.drawn operation now)
    (hcall : call.delivers = false) (howner : (fleet.stores i).owner = some owner)
    {result : Except Error α}
    (happly : owner.apply P operation (fleet.begun i call faults) = .ok (owner', result) m) :
    ∃ answer : Except Error α → Answer, (∀ e, (answer (.error e)).error = some e)
      ∧ fleet.step P i call faults = (fleet.put i ⟨m.dir, some owner'⟩ m.rest, answer result) := by
  cases h with
  | approveTask | revokeTask => exact ⟨Answer.done, fun _ => rfl, ask_of_ok howner happly⟩
  | mutate | importForTask => exact ⟨Answer.receipt, fun _ => rfl, ask_of_ok howner happly⟩
  | metadata => exact ⟨Answer.view, fun _ => rfl, ask_of_ok howner happly⟩
  | readForTask => exact ⟨Answer.values, fun _ => rfl, ask_of_ok howner happly⟩
  | usePrepare => cases hcall

section Use

variable {ctx : AuthenticatedContext} {task : Uuid} {request : PrivateUse} {preparedAt handoffAt : Time}
  {deliver : SecretInput → Delivered} {journaled : DurableVault} {backups : List Bytes}

/-- What a private use still does once its intent is journaled. -/
theorem wp_handOff_events (hready : journaled.ready = .ok ()) :
    wp (journaled.handOff P ctx task request (P.uuid n) handoffAt deliver)
      (fun out m' => ReflTransGen
        (Event P backups n (.useSecret ctx task request preparedAt handoffAt deliver))
        (⟨m.dir, some journaled⟩, m.rest) (⟨m'.dir, some out.1⟩, m'.rest))
      (fun _ m' => ReflTransGen
        (Event P backups n (.useSecret ctx task request preparedAt handoffAt deliver))
        (⟨m.dir, some journaled⟩, m.rest) (⟨m'.dir, none⟩, m'.rest)) m := by
  have hsame : ∀ s : Session, s.Later s := fun _ => ⟨le_refl _, rfl⟩
  have hchecked : ∀ {app : Application},
      Leaves (useAuthorize ctx task request handoffAt) journaled.app app →
      Event P backups n (.useSecret ctx task request preparedAt handoffAt deliver)
        (⟨m.dir, some journaled⟩, m.rest) (⟨m.dir, some { journaled with app }⟩, m.rest) := by
    intro app hleaves
    have hclock : journaled.app.ClockOnly handoffAt app :=
      hleaves.of_wp (wp_mono (wp_useAuthorize ctx task request handoffAt journaled.app)
        (fun _ next ⟨heff, _, hnext⟩ => hnext ▸ .ticked heff) fun _ _ hclock => hclock)
    exact .authorized rfl hready (fun _ => .useAuthorize hleaves) hclock
  unfold handOff
  cases hcheck : (useAuthorize ctx task request handoffAt).run journaled.app with
  | error e app =>
    have hfirst := hchecked (.inr ⟨e, hcheck⟩)
    simp only
    rw [wp_bind]
    refine wp_mono (wp_apply_events (hsame _) fun _ hleaves => .inr fun _ => .useCancel hleaves) ?_
      fun _ _ hcut => .head hfirst hcut
    rintro ⟨owner', result⟩ m' hevents
    cases result with
    | error e' => exact (ReflTransGen.head hfirst hevents).tail .frozen
    | ok u => exact .head hfirst hevents
  | ok out app =>
    obtain ⟨values, effective⟩ := out
    simp only [logHandoff, wp_bind, wp_get, wp_modify]
    have hfirst : ReflTransGen
        (Event P backups n (.useSecret ctx task request preparedAt handoffAt deliver))
        (⟨m.dir, some journaled⟩, m.rest) (⟨m.dir, some { journaled with app }⟩,
          { m.rest with handoffs := m.rest.handoffs ++ [{
            ctx, task, request, attempt := P.uuid n, values, sampled := handoffAt, effective, app
            image := m.dir .state }] }) :=
      (ReflTransGen.single (hchecked (.inl ⟨_, hcheck⟩))).tail (.handed hready rfl rfl)
    unfold concludeUse
    cases hdeliver : deliver values with
    | panicked => exact hfirst.tail .frozen
    | returned status | failed =>
      simp only [wp_bind]
      refine wp_mono (wp_apply_events (hsame _) fun _ hleaves => .inr fun _ => .useFinish hleaves) ?_
        fun _ _ hcut => hfirst.trans hcut
      rintro ⟨owner', result⟩ m' hevents
      cases result with
      | error e => exact (hfirst.trans hevents).tail .frozen
      | ok u => exact hfirst.trans hevents

/-- What a private use still does once its first commit has succeeded. -/
theorem use_rest {result : Except Error (Option DeliveryReceipt)}
    (howner : (fleet.stores i).owner = some owner)
    (happly : owner.apply P (usePrepare P ctx task request (P.uuid fleet.session.drawn) preparedAt)
      (fleet.begun i (.useSecret ctx task request preparedAt handoffAt deliver) faults)
      = .ok (owner', result) m) :
    ReflTransGen (Event P fleet.backups fleet.session.drawn
      (.useSecret ctx task request preparedAt handoffAt deliver)) (⟨m.dir, some owner'⟩, m.rest)
      ((fleet.step P i (.useSecret ctx task request preparedAt handoffAt deliver) faults).1.stores i,
        (fleet.step P i (.useSecret ctx task request preparedAt handoffAt deliver) faults).1.session)
    ∧ ∀ e, result = .error e →
      (fleet.step P i (.useSecret ctx task request preparedAt handoffAt deliver) faults).2
        = .delivery (.result (.error e)) := by
  refine Fleet.ask_spec (p := fun out => ReflTransGen (Event P fleet.backups fleet.session.drawn
      (.useSecret ctx task request preparedAt handoffAt deliver)) (⟨m.dir, some owner'⟩, m.rest)
      (out.1.stores i, out.1.session) ∧ ∀ e, result = .error e → out.2 = .delivery (.result (.error e)))
    (fun hnone => absurd (howner.symm.trans hnone) nofun) fun found hfound => ?_
  cases Option.some.inj (howner.symm.trans hfound)
  simp only [Fleet.put_self, Fleet.put_session]
  unfold useSecret
  rw [wp_bind, wp_drawIndex, wp_bind]
  refine wp_mono (eq_ok_iff_wp.mp happly) ?_ fun _ _ hfalse => hfalse.elim
  rintro _ _ ⟨rfl, rfl⟩
  match result with
  | .error e =>
    refine ⟨.refl, fun e' he => ?_⟩
    rw [Except.error.inj he]
  | .ok (some receipt) => exact ⟨.refl, nofun⟩
  | .ok none =>
    simp only
    cases hready : owner'.ready with
    | error e => exact ⟨.refl, nofun⟩
    | ok u =>
      exact wp_mono (wp_handOff_events hready) (fun _ _ hevents => ⟨hevents, nofun⟩)
        fun _ _ hevents => ⟨hevents, nofun⟩

end Use

theorem Call.Samples.recorded (hids : P.FreshIds) (hseals : P.Seals) (hreach : Fleet.Reachable P fleet)
    (howner : (fleet.stores i).owner = some owner) (hready : owner.ready = .ok ())
    (hsamples : call.Samples P fleet.session.drawn operation now)
    (hcommit : owner.commit P (owner.proposal operation).2 (fleet.begun i call faults)
      = .ok (owner', .ok ()) m) :
    Recorded P fleet i call faults owner.staged now m.dir owner' m.rest
      ∧ ∀ e, owner.staged.effectiveTime now = .error e → (fleet.step P i call faults).2.error = some e := by
  obtain ⟨hsound, hfaithful⟩ := Faithful.runs hids hseals hreach
  have hkept := hsound.stores i
  have hvalid := hkept.valid owner howner
  have hlasting := hkept.lasting owner howner
  obtain ⟨hstaged, hstagedLasting, hlast⟩ := staged_lasting hvalid hlasting
  have hleaves : Leaves operation owner.staged (owner.proposal operation).2 := proposal_leaves operation
  have hran := hsamples.ran hleaves
  have hle : fleet.session.drawn ≤ fleet.session.drawn + call.draws := Nat.le_add_right _ _
  have hcandidate := hstagedLasting.ran hids hstaged hle hran
  have happly := apply_of_commit hready hcommit
  obtain ⟨hlater, hcommitted⟩ := wp_ok (wp_commit P owner _ (fleet.begun i call faults)) hcommit
  obtain ⟨hclock, hfrozen, hcarries⟩ := hcommitted.followed hseals hvalid hlasting (hkept.fits owner · howner)
    hcandidate.dated (fun t ht => hran.run.operated.lastTime t (hlast.trans ht))
    fun _ => (hfaithful i owner howner hready).1
  have hbegun : fleet.session.Later (fleet.begun i call faults).rest := ⟨hle, rfl⟩
  have hstore : fleet.stores i = ⟨(fleet.stores i).dir, some owner⟩ := by
    rw [← howner]
  have hevent : Event P fleet.backups fleet.session.drawn call (fleet.stores i, fleet.session)
      (⟨m.dir, some owner'⟩, m.rest) := by
    rw [hstore]
    exact (wp_ok (wp_applied P owner operation (fleet.begun i call faults)) happly).event hbegun
      fun _ hleaves => hsamples.ran hleaves
  have hmid := hkept.event hids hseals (keeps_true call) (Nat.zero_le _) (Nat.zero_le _)
    (fun _ _ _ => trivial) hsound.backups hevent
  have hrest : ReflTransGen (Event P fleet.backups fleet.session.drawn call) (⟨m.dir, some owner'⟩, m.rest)
      ((fleet.step P i call faults).1.stores i, (fleet.step P i call faults).1.session)
      ∧ ∀ e, (owner.proposal operation).1 = .error e → (fleet.step P i call faults).2.error = some e := by
    cases hcall : call.delivers with
    | false =>
      obtain ⟨answer, hanswer, hstep⟩ := hsamples.answers hcall howner happly
      rw [hstep, Fleet.put_self, Fleet.put_session]
      exact ⟨.refl, fun e he => he ▸ hanswer e⟩
    | true =>
      cases hsamples with
      | usePrepare ctx task request preparedAt handoffAt deliver =>
        obtain ⟨hevents, herror⟩ := use_rest howner happly
        refine ⟨hevents, fun e he => ?_⟩
        rw [herror e he]
        rfl
      | _ => cases hcall
  refine ⟨⟨⟨owner, howner, fun t ht => ⟨t, hlast.trans ht, le_refl t⟩⟩, hmid,
    hle.trans hlater.drawn, fun e he => ?_, fun e he => ?_, hrest.1⟩, fun e he => ?_⟩
  · have hadvanced := hsamples.advanced he hleaves
    rw [hadvanced] at hclock hcarries
    exact ⟨hclock, hcarries.mono fun _ h => h.2⟩
  · rw [proposal_refused hsamples he] at hfrozen hcarries
    exact ⟨hfrozen, hcarries.mono fun _ h => h.1⟩
  · exact hrest.2 e (by rw [proposal_refused hsamples he])

section Handoff

variable {ctx : AuthenticatedContext} {task : Uuid} {request : PrivateUse} {preparedAt handoffAt : Time}
  {deliver : SecretInput → Delivered} {journaled : DurableVault} {app : Application}

/-- The operations of the second commit leave the clock alone. -/
def KeepsClock (operation : AppM Unit) : Prop := ∀ app next, Leaves operation app next →
  next.lastTime = app.lastTime ∧ next.clockFrozen = app.clockFrozen

theorem keepsClock_useCancel (request : PrivateUse) (attempt : Uuid) :
    KeepsClock (useCancel request attempt) := by
  have hsettled : ∀ {app next : Application} {change : DeliveryAttempt → DeliveryAttempt}
      {signup : SignupState → SignupState}, Settled request attempt change signup app next →
      next.lastTime = app.lastTime ∧ next.clockFrozen = app.clockFrozen := by
    intro app next change signup h
    cases h <;> exact ⟨rfl, rfl⟩
  exact fun app next hleaves => hleaves.of_wp
    (wp_mono (wp_useCancel request attempt app) (fun _ _ h => hsettled h.1) fun _ _ h => hsettled h)

theorem keepsClock_useFinish (ctx : AuthenticatedContext) (task : Uuid) (request : PrivateUse)
    (attempt : Uuid) (status : DeliveryStatus) (effective : Time) :
    KeepsClock (useFinish ctx task request attempt status effective) := by
  refine fun app next hleaves => hleaves.of_wp
    (p := fun next => next.lastTime = app.lastTime ∧ next.clockFrozen = app.clockFrozen)
    (wp_mono (wp_useFinish ctx task request attempt status effective app) ?_ ?_)
  · rintro - next ⟨d, r, -, -, rfl⟩
    exact ⟨rfl, rfl⟩
  · rintro e next (⟨rfl, -⟩ | ⟨d, -, -, rfl⟩) <;> exact ⟨rfl, rfl⟩

/-- The second sample of a private use, once the outcome it decided is recorded. -/
theorem recorded_handoff {answer : Answer} {m₁ m₂ : VaultMachine} {operation : AppM Unit}
    (hids : P.FreshIds) (hseals : P.Seals) (hreach : Fleet.Reachable P fleet)
    (howner : (fleet.stores i).owner = some owner)
    (hprepare : owner.apply P (usePrepare P ctx task request (P.uuid fleet.session.drawn) preparedAt)
      (fleet.begun i (.useSecret ctx task request preparedAt handoffAt deliver) faults)
      = .ok (journaled, .ok none) m)
    (hready : journaled.ready = .ok ())
    (hleaves : Leaves (useAuthorize ctx task request handoffAt) journaled.app app)
    (hran : ∀ n app next, Leaves operation app next →
      (Call.useSecret ctx task request preparedAt handoffAt deliver).Ran P fleet.session.drawn n n app next)
    (hsettles : ({ journaled with app } : DurableVault).Settles (P.uuid fleet.session.drawn) operation)
    (hclock : KeepsClock operation)
    (happly : ({ journaled with app } : DurableVault).apply P operation m₁ = .ok (owner', .ok ()) m₂)
    (hstep : fleet.step P i (.useSecret ctx task request preparedAt handoffAt deliver) faults
      = (fleet.put i ⟨m₂.dir, some owner'⟩ m₂.rest, answer)) :
    Recorded P fleet i (.useSecret ctx task request preparedAt handoffAt deliver) faults journaled.app
      handoffAt m₂.dir owner' m₂.rest := by
  obtain ⟨hsound, hfaithful⟩ := Faithful.runs hids hseals hreach
  have hstore : fleet.stores i = ⟨(fleet.stores i).dir, some owner⟩ := by
    rw [← howner]
  have hkept := hsound.stores i
  have hholds := hfaithful i
  rw [hstore] at hkept hholds
  -- the first commit, as the machine of the call saw it
  have hjournal : Journaled P owner ctx task request preparedAt
      ⟨(fleet.stores i).dir, faults, fleet.session⟩ journaled m :=
    ⟨wp_ok (wp_applied P owner _ (fleet.begun i _ faults)) hprepare, hready⟩
  obtain ⟨hmid, hresumed⟩ := hjournal.resumed hids hseals hkept hholds hleaves
  have hevent : Event P fleet.backups fleet.session.drawn
      (.useSecret ctx task request preparedAt handoffAt deliver)
      (⟨(fleet.stores i).dir, some owner⟩, fleet.session) (⟨m.dir, some journaled⟩, m.rest) := hjournal.event
  obtain ⟨first, hfirst, hlater⟩ := hevent.onward rfl hkept journaled rfl
  cases hfirst
  -- the second one
  obtain ⟨-, hok, hcommitted⟩ := (wp_ok (wp_applied P _ operation m₁) happly).ok
  obtain ⟨hstaged, hstagedLasting, hlast⟩ := staged_lasting hresumed.valid hresumed.lasting
  have hfrozen := (staged_shrinks hresumed.valid hresumed.lasting.once).clockFrozen
  have hproposal : Leaves operation (staged { journaled with app })
      (proposal { journaled with app } operation).2 := proposal_leaves operation
  have hran' := hran m.rest.drawn _ _ hproposal
  obtain ⟨hlastTime, hclockFrozen⟩ := hclock _ _ hproposal
  rw [hlast] at hlastTime
  rw [hfrozen] at hclockFrozen
  obtain ⟨hsame, hsame', hcarries⟩ := hcommitted.followed hseals hresumed.valid hresumed.lasting
    (hmid.fits journaled · rfl) (hstagedLasting.ran hids hstaged (le_refl _) hran').dated
    (fun t ht => ⟨t, hlastTime.trans ht, le_refl t⟩)
    fun hstage => absurd hstage (hresumed.staged _ hids hseals (le_refl _) hran' hsettles hok)
  rw [hlastTime] at hsame hcarries
  rw [hclockFrozen] at hsame' hcarries
  have hchecked : journaled.app.ClockOnly handoffAt app :=
    hleaves.of_wp (wp_mono (wp_useAuthorize ctx task request handoffAt journaled.app)
      (fun _ next ⟨heff, _, hnext⟩ => hnext ▸ .ticked heff) fun _ _ hclock => hclock)
  have hafter := (hreach.step i (.useSecret ctx task request preparedAt handoffAt deliver) faults).sound hids
    hseals
  have hend := hafter.stores i
  rw [hstep, Fleet.put_self, Fleet.put_session] at hend
  have hlaterDrawn := (stepped hseals fleet i
    (.useSecret ctx task request preparedAt handoffAt deliver) faults).later
  rw [hstep, Fleet.put_session] at hlaterDrawn
  refine ⟨⟨owner, howner, hlater⟩, hend, hlaterDrawn, fun e he => ?_, fun e he => ?_, ?_⟩
  · have hticked : app.lastTime = some e := by
      cases hchecked with
      | ticked => exact (lastTime_ticked he).1
      | frozen herror => exact absurd (he.symm.trans herror) nofun
    change _ = app.lastTime at hsame
    rw [hticked] at hsame hcarries
    exact ⟨hsame, hcarries.mono fun _ h => h.2⟩
  · have hfreezes : app.clockFrozen = true := by
      cases hchecked with
      | ticked heff => exact absurd (heff.symm.trans he) nofun
      | frozen => rfl
    exact ⟨hsame'.trans hfreezes, hcarries.mono fun _ h => h.1.trans hfreezes⟩
  · rw [hstep, Fleet.put_self, Fleet.put_session]

theorem withdrawn_step (howner : (fleet.stores i).owner = some owner)
    (hprepare : owner.apply P (usePrepare P ctx task request (P.uuid fleet.session.drawn) preparedAt)
      (fleet.begun i (.useSecret ctx task request preparedAt handoffAt deliver) faults)
      = .ok (journaled, .ok none) m)
    (hready : journaled.ready = .ok ())
    (hcheck : (useAuthorize ctx task request handoffAt).run journaled.app = .error e app)
    (hcancel : ({ journaled with app } : DurableVault).apply P
      (useCancel request (P.uuid fleet.session.drawn)) m = .ok (owner', .ok ()) m') :
    fleet.step P i (.useSecret ctx task request preparedAt handoffAt deliver) faults
      = (fleet.put i ⟨m'.dir, some owner'⟩ m'.rest, .delivery (.result (.error e))) := by
  have hwithdrawal : Withdrawal P owner ctx task request preparedAt handoffAt
      ⟨(fleet.stores i).dir, faults, fleet.session⟩ owner' e m' :=
    ⟨journaled, app, m, hprepare, hready, hcheck, hcancel⟩
  exact ask_of_ok howner (hwithdrawal.answer deliver)

theorem handed_step {values : SecretInput} {effective : Time}
    (howner : (fleet.stores i).owner = some owner)
    (hprepare : owner.apply P (usePrepare P ctx task request (P.uuid fleet.session.drawn) preparedAt)
      (fleet.begun i (.useSecret ctx task request preparedAt handoffAt deliver) faults)
      = .ok (journaled, .ok none) m)
    (hready : journaled.ready = .ok ())
    (hcheck : (useAuthorize ctx task request handoffAt).run journaled.app = .ok (values, effective) app)
    (hdeliver : deliver values ≠ .panicked)
    (hfinish : ({ journaled with app } : DurableVault).apply P
      (useFinish ctx task request (P.uuid fleet.session.drawn) (deliver values).status effective)
      (logged { ctx, task, request, attempt := P.uuid fleet.session.drawn, values, sampled := handoffAt
                effective, app, image := m.dir .state } m) = .ok (owner', .ok ()) m') :
    ∃ outcome, fleet.step P i (.useSecret ctx task request preparedAt handoffAt deliver) faults
      = (fleet.put i ⟨m'.dir, some owner'⟩ m'.rest, .delivery outcome) := by
  obtain ⟨outcome, hconclude⟩ : ∃ outcome : UseOutcome,
      wp (({ journaled with app } : DurableVault).concludeUse P ctx task request
          (P.uuid fleet.session.drawn) effective (deliver values))
        (fun out machine => out = (owner', outcome) ∧ machine = m') (fun _ _ => False)
        (logged { ctx, task, request, attempt := P.uuid fleet.session.drawn, values, sampled := handoffAt
                  effective, app, image := m.dir .state } m) := by
    unfold concludeUse
    cases hdelivered : deliver values with
    | panicked => exact absurd hdelivered hdeliver
    | returned status =>
      rw [hdelivered] at hfinish
      refine ⟨.result (.ok { attempt := P.uuid fleet.session.drawn, status }), ?_⟩
      rw [wp_bind]
      refine wp_mono (eq_ok_iff_wp.mp hfinish) ?_ fun _ _ hfalse => hfalse
      rintro _ _ ⟨rfl, rfl⟩
      exact ⟨rfl, rfl⟩
    | failed =>
      rw [hdelivered] at hfinish
      refine ⟨.result (.error .interactionRequired), ?_⟩
      rw [wp_bind]
      refine wp_mono (eq_ok_iff_wp.mp hfinish) ?_ fun _ _ hfalse => hfalse
      rintro _ _ ⟨rfl, rfl⟩
      exact ⟨rfl, rfl⟩
  have hrun : owner.useSecret P ctx task request preparedAt handoffAt deliver
      ⟨(fleet.stores i).dir, faults, fleet.session⟩ = .ok (owner', outcome) m' := by
    rw [eq_ok_iff_wp]
    unfold useSecret
    rw [wp_bind, wp_drawIndex, wp_bind]
    refine wp_mono (eq_ok_iff_wp.mp hprepare) ?_ fun _ _ hfalse => hfalse.elim
    rintro _ _ ⟨rfl, rfl⟩
    simp only [hready, handOff, hcheck]
    simp only [logHandoff, wp_bind, wp_get, wp_modify]
    exact hconclude
  exact ⟨outcome, ask_of_ok howner hrun⟩

end Handoff

end Recorded

section Readings

variable {fleet later : Fleet} {i k k' : Nat} {call call' : Call} {faults faults' : List Fault}
  {app app' : Application} {now now' e e' : Time}

theorem Sampled.recorded (hids : P.FreshIds) (hseals : P.Seals) (hreach : Fleet.Reachable P fleet)
    (h : Sampled P fleet i faults k call app now) :
    (∃ d owner s, Recorded P fleet i call faults app now d owner s)
      ∧ ∀ e, app.effectiveTime now = .error e → (fleet.step P i call faults).2.error = some e := by
  cases h with
  | applied howner hready hsamples hcommit =>
    obtain ⟨hrecorded, hanswer⟩ := hsamples.recorded hids hseals hreach howner hready hcommit
    exact ⟨⟨_, _, _, hrecorded⟩, hanswer⟩
  | handed howner hprepare hready hcheck hdeliver hfinish =>
    obtain ⟨outcome, hstep⟩ := handed_step howner hprepare hready hcheck hdeliver hfinish
    refine ⟨⟨_, _, _, recorded_handoff hids hseals hreach howner hprepare hready (.inl ⟨_, hcheck⟩)
      (fun _ _ _ hleaves => .inr fun _ => .useFinish hleaves) (settles_useFinish _ _ _ _ _ _ _)
      (keepsClock_useFinish _ _ _ _ _ _) hfinish hstep⟩, fun e he => ?_⟩
    obtain ⟨heff, -⟩ := wp_ok (wp_useAuthorize _ _ _ _ _) hcheck
    exact absurd (heff.symm.trans he) nofun
  | @withdrawn ctx task request _ _ _ _ journaled _ e app _ _ howner hprepare hready hcheck hcancel =>
    have hstep := withdrawn_step howner hprepare hready hcheck hcancel
    refine ⟨⟨_, _, _, recorded_handoff hids hseals hreach howner hprepare hready (.inr ⟨_, hcheck⟩)
      (fun _ _ _ hleaves => .inr fun _ => .useCancel hleaves) (settles_useCancel _ _ _)
      (keepsClock_useCancel _ _) hcancel hstep⟩, fun e' he' => ?_⟩
    have hrun : (useAuthorize ctx task request now).run journaled.app
        = .error e' journaled.app.freezeClock := clock_error_bind _ he'
    rw [hrun, EStateM.Result.error.injEq] at hcheck
    rw [hstep, hcheck.1]
    rfl

theorem Sampled.enters (h : Sampled P fleet i faults k call app now) : call.enters = false := by
  cases h with
  | applied _ _ hsamples => cases hsamples <;> rfl
  | handed => rfl
  | withdrawn => rfl

theorem Sampled.ready (h : Sampled P fleet i faults k call app now) :
    ∃ owner, (fleet.stores i).owner = some owner ∧ owner.ready = .ok () := by
  cases h with
  | applied howner hready => exact ⟨_, howner, hready⟩
  | handed howner hprepare | withdrawn howner hprepare =>
    exact ⟨_, howner, (wp_ok (wp_applied P _ _ _) hprepare).ok.1⟩

/-- The second sample of a private use is judged by the clock the first one left. -/
theorem Sampled.second (hids : P.FreshIds) (hseals : P.Seals) (hreach : Fleet.Reachable P fleet)
    (h : Sampled P fleet i faults k call app now)
    (h' : Sampled P fleet i faults k' call app' now') (hlt : k < k')
    (he : app.effectiveTime now = .ok e) : app'.lastTime = some e := by
  have hsame : ∀ {ctx : AuthenticatedContext} {task : Uuid} {request : PrivateUse}
      {preparedAt handoffAt : Time} {deliver : SecretInput → Delivered} {owner journaled : DurableVault}
      {m : VaultMachine}, Sampled P fleet i faults 0 (.useSecret ctx task request preparedAt handoffAt deliver)
        app now →
      (fleet.stores i).owner = some owner →
      owner.apply P (usePrepare P ctx task request (P.uuid fleet.session.drawn) preparedAt)
        (fleet.begun i (.useSecret ctx task request preparedAt handoffAt deliver) faults)
        = .ok (journaled, .ok none) m → journaled.app.lastTime = some e := by
    intro ctx task request preparedAt handoffAt deliver owner journaled m h howner hprepare
    cases h with
    | applied hfound hready hsamples hcommit =>
      obtain ⟨hrecorded, -⟩ := hsamples.recorded hids hseals hreach hfound hready hcommit
      cases Option.some.inj (howner.symm.trans hfound)
      cases hsamples
      have happly := apply_of_commit hready hcommit
      rw [hprepare, EStateM.Result.ok.injEq, Prod.mk.injEq] at happly
      rw [happly.1.1]
      exact (hrecorded.effective e he).1
  cases h' with
  | applied => exact absurd hlt (Nat.not_lt_zero k)
  | handed howner hprepare =>
    obtain rfl : k = 0 := Nat.lt_one_iff.mp hlt
    exact hsame h howner hprepare
  | withdrawn howner hprepare =>
    obtain rfl : k = 0 := Nat.lt_one_iff.mp hlt
    exact hsame h howner hprepare

/-- The clock refuses a sample when it is frozen, and when the sample lies more than five seconds
below the last time. -/
theorem Application.refuses_iff : app.effectiveTime now = .error .clockRecoveryRequired
    ↔ app.clockFrozen = true ∨ ∃ last, app.lastTime = some last ∧ now + 5 < last := by
  have hbehind : ∀ a b : Int, ¬ b ≤ a ∧ ¬ b - a ≤ 5 ↔ a + 5 < b := by omega
  cases hfrozen : app.clockFrozen with
  | true => simp [effectiveTime, hfrozen]
  | false =>
    rw [effectiveTime_eq hfrozen]
    cases app.lastTime with
    | none => simp
    | some last =>
      simp only [Bool.false_eq_true, false_or, Option.some.injEq, exists_eq_left']
      rw [← hbehind now last]
      split_ifs with hahead hnear
      · simp [hahead]
      · exact ⟨(fun h => by cases h), fun h => absurd hnear h.2⟩
      · exact ⟨fun _ => ⟨hahead, hnear⟩, fun _ => rfl⟩

/-- The time a sample was judged by holds from its commit to the end of the call. -/
theorem Recorded.onward {d : Dir FileName} {owner : DurableVault} {s : Session} (hids : P.FreshIds)
    (hseals : P.Seals) (hreach : Fleet.Reachable P fleet) (hcall : call.enters = false)
    (h : Recorded P fleet i call faults app now d owner s) :
    Onward ⟨d, some owner⟩ ((fleet.step P i call faults).1.stores i) :=
  onward_events hids hseals hcall h.kept ((hreach.sound hids hseals).backups.later h.later) h.rest

/-- What a sample leaves in memory and on disk is kept until a recovery. -/
theorem Recorded.kept_until {φ : Application → Prop} {d : Dir FileName} {owner : DurableVault} {s : Session}
    (hids : P.FreshIds) (hseals : P.Seals) (hreach : Fleet.Reachable P fleet)
    (hsampled : Sampled P fleet i faults k call app now)
    (hkeeps : ∀ call : Call, call.recovers = false → Keeps P φ 0 call) (howner : φ owner.app)
    (hcarries : (shown d).Carries P φ) (h : Recorded P fleet i call faults app now d owner s)
    (hruns : Unrecovered P i (fleet.step P i call faults).1 later) : Kept.Until P φ i later := by
  obtain ⟨hsound, hfaithful⟩ := Faithful.runs hids hseals hreach
  have hstepped := stepped hseals fleet i call faults
  have hrecovers : call.recovers = false := by
    have henters := hsampled.enters
    cases call <;> first | rfl | cases henters
  have hmid : Kept P φ s.drawn ⟨d, some owner⟩ :=
    .owned (h.kept.valid owner rfl) (h.kept.lasting owner rfl) howner (h.kept.fits owner · rfl)
      ((h.kept.carries.mono fun _ hold => hold.1).and hcarries)
  have hfounded : (fleet.stores i).dir .state ≠ none := by
    obtain ⟨first, hfirst, hready⟩ := hsampled.ready
    obtain ⟨image, hstate, -⟩ := (hfaithful i first hfirst hready).1.opens
    rw [hstate]
    nofun
  have hend := (hmid.events hids hseals (hkeeps call hrecovers) (Nat.zero_le _) (Nat.zero_le _)
    (.inr fun harises => by cases harises <;> exact absurd hsampled.enters nofun)
    (hsound.backups.later h.later) h.rest).1
  have hstart : Kept.Until P φ i (fleet.step P i call faults).1 :=
    ⟨hstepped.sound hids hseals hsound, hstepped.founded hfounded, .inl hend⟩
  exact hstart.runs hids hseals hkeeps hruns

/-- A later sample is judged by a clock no earlier than the owner's. -/
theorem Sampled.judged {owner : DurableVault} (hids : P.FreshIds) (hseals : P.Seals)
    (hreach : Fleet.Reachable P fleet) (h : Sampled P fleet i faults k call app now)
    (howner : (fleet.stores i).owner = some owner) {t : Time} (ht : owner.app.lastTime = some t)
    (he : app.effectiveTime now = .ok e) : t ≤ e := by
  obtain ⟨⟨d, last, s, hrecorded⟩, -⟩ := h.recorded hids hseals hreach
  obtain ⟨first, hfirst, hlater⟩ := hrecorded.before
  cases Option.some.inj (howner.symm.trans hfirst)
  obtain ⟨t', ht', hle⟩ := hlater t ht
  exact hle.trans ((lastTime_ticked he).2.2.1 t' ht')

theorem Unrecovered.reachable (hreach : Fleet.Reachable P fleet) (h : Unrecovered P i fleet later) :
    Fleet.Reachable P later := by
  induction h with
  | refl => exact hreach
  | tail _ hstep ih =>
    obtain ⟨j, call, faults, -, rfl⟩ := hstep
    exact ih.step j call faults

theorem held_reachable (hreach : Fleet.Reachable P fleet) (h : Fleet.Runs P (Held i) fleet later) :
    Fleet.Reachable P later := by
  induction h with
  | refl => exact hreach
  | tail _ hgoes ih =>
    obtain ⟨j, call, faults, -, rfl⟩ := hgoes
    exact ih.step j call faults

/-- What a sample was judged by stays the measure of every later one: while the owner lives
the effective time does not fall, until a recovery it falls by less than a minute, and a
sample that was refused is the last one that is judged at all. -/
theorem authorization_time (hids : P.FreshIds) (hseals : P.Seals) (hreach : Fleet.Reachable P fleet)
    (h : Sampled P fleet i faults k call app now) :
    (∀ e, app.effectiveTime now = .ok e →
      (∀ k' app' now' e', k < k' → Sampled P fleet i faults k' call app' now' →
        app'.effectiveTime now' = .ok e' → e ≤ e')
      ∧ (∀ later, Fleet.Runs P (Held i) (fleet.step P i call faults).1 later →
        ∀ faults' k' call' app' now' e', Sampled P later i faults' k' call' app' now' →
          app'.effectiveTime now' = .ok e' → e ≤ e')
      ∧ ∀ later, Unrecovered P i (fleet.step P i call faults).1 later →
        ∀ faults' k' call' app' now' e', Sampled P later i faults' k' call' app' now' →
          app'.effectiveTime now' = .ok e' → e - 60 < e')
    ∧ (app.clockFrozen = true ∨ (∃ last, app.lastTime = some last ∧ now + 5 < last) →
      (fleet.step P i call faults).2.error = some .clockRecoveryRequired
      ∧ ∀ later, Unrecovered P i (fleet.step P i call faults).1 later →
        ∀ call' faults', call'.timed = true → Refused (later.step P i call' faults').2) := by
  obtain ⟨⟨d, owner, s, hrecorded⟩, hanswer⟩ := h.recorded hids hseals hreach
  have hnext := hreach.step i call faults
  refine ⟨fun e he => ?_, fun hrefuses => ?_⟩
  · obtain ⟨hlast, hcarries⟩ := hrecorded.effective e he
    refine ⟨fun k' app' now' e' hlt h' he' => ?_, fun later hruns faults' k' call' app' now' e' h' he' => ?_,
      fun later hruns faults' k' call' app' now' e' h' he' => ?_⟩
    · exact (lastTime_ticked he').2.2.1 e (h.second hids hseals hreach h' hlt he)
    · have honward := (hrecorded.onward hids hseals hreach h.enters).trans
        (onward_runs hids hseals (hnext.sound hids hseals) hruns)
      obtain ⟨last, hlater, -⟩ := h'.ready
      obtain ⟨_, hfirst, hmono⟩ := honward last hlater
      cases hfirst
      obtain ⟨t, ht, hle⟩ := hmono e hlast
      exact hle.trans (h'.judged hids hseals (held_reachable hnext hruns) hlater ht he')
    · have hminute : e - (60 : Int) < e := Int.sub_lt_self e (by decide)
      have huntil := hrecorded.kept_until hids hseals hreach h (fun call => keeps_reached (e - 60))
        ⟨e, hlast, hminute⟩ (hcarries.mono fun app hlags => ?_) hruns
      · obtain ⟨last, hlater, -⟩ := h'.ready
        rcases huntil.kept with hkept | ⟨hnone, -⟩
        · obtain ⟨t, ht, hlt⟩ := hkept.holds last hlater
          exact lt_of_lt_of_le hlt (h'.judged hids hseals (hruns.reachable hnext) hlater ht he')
        · exact absurd (hlater.symm.trans hnone) nofun
      · cases hold : app.lastTime with
        | none =>
          rw [hold] at hlags
          exact hlags.elim
        | some t =>
          rw [hold] at hlags
          have hlag : ∀ a b : Int, a - b < 60 → a - 60 < b := by omega
          exact ⟨t, rfl, hlag e t hlags.2⟩
  · have herror := refuses_iff.mpr hrefuses
    obtain ⟨hfrozen, hcarries⟩ := hrecorded.refused _ herror
    refine ⟨hanswer _ herror, fun later hruns call' faults' htimed => ?_⟩
    have huntil := hrecorded.kept_until hids hseals hreach h (fun call => keeps_frozen) hfrozen hcarries hruns
    refine refused_frozen htimed fun last hlater => ?_
    rcases huntil.kept with hkept | ⟨hnone, -⟩
    · rw [(staged_shrinks (hkept.valid last hlater) (hkept.lasting last hlater).once).clockFrozen]
      exact hkept.holds last hlater
    · exact absurd (hlater.symm.trans hnone) nofun

end Readings

/-- Whether an operation of the owner is committed, on an application with this property. -/
def commits {α : Type} (P : Platform) (fleet : Fleet) (i : Nat) (call : Call) (faults : List Fault)
    (operation : AppM α) (p : Application → Bool) : Bool :=
  match (fleet.stores i).owner with
  | none => false
  | some owner =>
    match owner.ready, owner.commit P (owner.proposal operation).2 (fleet.begun i call faults) with
    | .ok (), .ok (_, .ok ()) _ => p owner.staged
    | _, _ => false

theorem sampled_of_commits {fleet : Fleet} {i : Nat} {call : Call} {faults : List Fault} {α : Type}
    {operation : AppM α} {now : Time} {p : Application → Bool}
    (hsamples : call.Samples P fleet.session.drawn operation now)
    (h : commits P fleet i call faults operation p = true) :
    ∃ app, Sampled P fleet i faults 0 call app now ∧ p app = true := by
  unfold commits at h
  split at h
  · cases h
  · rename_i owner howner
    split at h
    · rename_i owner' m hready hcommit
      exact ⟨owner.staged, .applied howner hready hsamples hcommit, h⟩
    · cases h

/-- A task is approved at 100; the next sample is 50. -/
def clockedVault : Fleet :=
  (referenceVault.step .reference 0
    (.approveTask (.fromAuthenticatedAdmin "owner" "human" "home") aliceTask 100) []).1

def rolledBack : Call := .revokeTask (.fromAuthenticatedAdmin "owner" "human" "home") 99 50

theorem clockedVault_reachable : Fleet.Reachable .reference clockedVault :=
  (Fleet.Reachable.start.step 0 _ []).step 0 _ []

theorem rolledBack_sampled : ∃ app, Sampled .reference clockedVault 0 [] 0 rolledBack app 50
    ∧ app.lastTime = some 100 := by
  have hcommits : commits .reference clockedVault 0 rolledBack []
      (Application.revokeTask (.fromAuthenticatedAdmin "owner" "human" "home") 99 50)
      (fun app => app.lastTime == some 100) = true := by
    decide +kernel
  obtain ⟨app, hsampled, hlast⟩ := sampled_of_commits (.revokeTask _ _ _) hcommits
  exact ⟨app, hsampled, beq_iff_eq.mp hlast⟩

theorem authorization_time_rolledBack : (clockedVault.step .reference 0 rolledBack []).2.error
      = some .clockRecoveryRequired
    ∧ ∀ later, Unrecovered .reference 0 (clockedVault.step .reference 0 rolledBack []).1 later →
      ∀ call faults, call.timed = true → Refused (later.step .reference 0 call faults).2 := by
  obtain ⟨app, hsampled, hlast⟩ := rolledBack_sampled
  exact (authorization_time Platform.reference_freshIds Platform.reference_seals clockedVault_reachable
    hsampled).2 (.inr ⟨100, hlast, by decide⟩)

/-- A run in which no recovery of this store has returned an owner. -/
def Unreturned (P : Platform) (i : Nat) : Fleet → Fleet → Prop :=
  ReflTransGen fun fleet next => ∃ j call faults,
    ¬ (j = i ∧ call.recovers = true ∧ (fleet.step P j call faults).2 = .opened (.ok ()))
    ∧ next = (fleet.step P j call faults).1

/-- The recovery of that store, all of whose file operations succeed but the last sync. -/
def failedRecovery (fleet : Fleet) : Fleet × Answer :=
  fleet.step .reference 0 (.recover (Platform.referencePhrases.headD "")
    (.fromAuthenticatedAdmin "owner" "human" "home") 60) (List.replicate 14 .none ++ [.fail 1])

def thawedVault : Fleet :=
  ((failedRecovery ((clockedVault.step .reference 0 rolledBack []).1.step .reference 0 .close []).1).1.step
    .reference 0 (.open (Platform.referencePhrases.headD "")) []).1

/-- A recovery that has answered with an error may yet have thawed the clock. -/
theorem thawed_unreturned : (∃ app, Sampled .reference clockedVault 0 [] 0 rolledBack app 50
      ∧ app.lastTime = some 100)
    ∧ Unreturned .reference 0 (clockedVault.step .reference 0 rolledBack []).1 thawedVault
    ∧ ¬ Refused (thawedVault.step .reference 0 (.approveTask (.fromAuthenticatedAdmin "owner" "human" "home")
      { aliceTask with id := 2 } 61) []).2 := by
  have hfailed : (failedRecovery ((clockedVault.step .reference 0 rolledBack []).1.step .reference 0
      .close []).1).2.error = some .recoveryRequired := by
    decide +kernel
  have happroved : (thawedVault.step .reference 0
      (.approveTask (.fromAuthenticatedAdmin "owner" "human" "home") { aliceTask with id := 2 } 61) []).2.carried
        = true := by
    decide +kernel
  refine ⟨rolledBack_sampled, ?_, ?_⟩
  · refine ((ReflTransGen.single ⟨0, .close, [], (fun h => by cases h.2.1), rfl⟩).tail
      ⟨0, _, _, fun h => ?_, rfl⟩).tail ⟨0, .open _, [], (fun h => by cases h.2.1), rfl⟩
    have hanswer := h.2.2
    change (failedRecovery _).2 = _ at hanswer
    rw [hanswer] at hfailed
    cases hfailed
  · rw [Answer.carried_eq_true happroved]
    intro h
    cases h with
    | error he => cases he

end Credman
