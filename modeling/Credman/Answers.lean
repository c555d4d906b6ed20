import Credman.Growth

/-! What an answer of a store says: on which application it was given, and what the
store carries from then on. -/
namespace Credman

open Library Library.Checked Relation Application DurableVault

variable {P : Platform} {fleet fleet' : Fleet} {i : Nat} {faults : List Fault}

/-- An operation was answered with `a` by the owner there was, and committed. -/
structure Answered {α : Type} (P : Platform) (fleet : Fleet) (i : Nat) (operation : AppM α) (a : α)
    (owner owner' : DurableVault) (fleet' : Fleet) : Prop where
  held : (fleet.stores i).owner = some owner
  ready : owner.ready = .ok ()
  proposal : (owner.proposal operation).1 = .ok a
  operated : Operated P (P.uuid fleet.session.drawn) owner.staged (owner.proposal operation).2
  kept : (fleet'.stores i).owner = some owner'
  committed : ∃ n, Committed P owner (owner.proposal operation).2 n (fleet.stores i).dir
    (owner', .ok ()) (fleet'.stores i).dir
  handoffs : fleet'.session.handoffs = fleet.session.handoffs

/-- What a successful operation guarantees of its candidate. -/
theorem proposal_ok {α : Type} {operation : AppM α} {a : α} {owner : DurableVault}
    {post : α → Application → Prop} {fail : Error → Application → Prop}
    (h : wp operation post fail owner.staged) (hok : (owner.proposal operation).1 = .ok a) :
    post a (owner.proposal operation).2 := by
  revert hok
  exact proposal_spec (p := fun result next => result = .ok a → post a next)
    (wp_mono h (fun _ _ hnext heq => Except.ok.inj heq ▸ hnext) fun _ _ _ => nofun)

section Ask

variable {α : Type} {answer : Except Error α → Answer} {a : α}

theorem answered_of {operation : AppM α} {owner owner' : DurableVault} {m m' : VaultMachine}
    (howner : (fleet.stores i).owner = some owner) (hdir : m.dir = (fleet.stores i).dir)
    (hhandoffs : m.rest.handoffs = fleet.session.handoffs)
    (hoperates : Operates P (P.uuid fleet.session.drawn) operation)
    (h : Applied P owner operation m (owner', .ok a) m') :
    Answered P fleet i operation a owner owner' (fleet.put i ⟨m'.dir, some owner'⟩ m'.rest) := by
  obtain ⟨hready, hok, hcommitted⟩ := h.ok
  rw [hdir] at hcommitted
  refine ⟨howner, hready, hok, (proposal_leaves operation).of_wp (hoperates _), ?_,
    ⟨m.rest.drawn, ?_⟩, h.later.handoffs.trans hhandoffs⟩
  · rw [Fleet.put_self]
  · rw [Fleet.put_self]
    exact hcommitted

theorem answered_apply {operation : AppM α}
    (hoperates : Operates P (P.uuid fleet.session.drawn) operation)
    (hinjective : ∀ x, answer x = answer (.ok a) → x = .ok a)
    (hno : answer (.ok a) ≠ .noOwner ∧ answer (.ok a) ≠ .halted)
    (h : (fleet.ask i faults (fun owner => owner.apply P operation) answer).2 = answer (.ok a)) :
    ∃ owner owner', Answered P fleet i operation a owner owner'
      (fleet.ask i faults (fun owner => owner.apply P operation) answer).1 := by
  revert h
  refine Fleet.ask_spec (p := fun out => out.2 = answer (.ok a) →
    ∃ owner owner', Answered P fleet i operation a owner owner' out.1)
    (fun _ h => absurd h.symm hno.1) fun owner howner => ?_
  refine wp_mono (wp_applied P owner operation _) ?_ fun _ _ _ h => absurd h.symm hno.2
  rintro ⟨owner', result⟩ m' happlied h
  cases hinjective result h
  exact ⟨owner, owner', answered_of howner rfl rfl hoperates happlied⟩

theorem answered_drawing {operation : Draw → AppM α}
    (hoperates : ∀ draw, draw.id = P.uuid fleet.session.drawn →
      Operates P (P.uuid fleet.session.drawn) (operation draw))
    (hinjective : ∀ x, answer x = answer (.ok a) → x = .ok a)
    (hno : answer (.ok a) ≠ .noOwner ∧ answer (.ok a) ≠ .halted)
    (h : (fleet.ask i faults (fun owner => do
      let draw ← drawMutation P
      owner.apply P (operation draw)) answer).2 = answer (.ok a)) :
    ∃ owner owner', Answered P fleet i
      (operation { id := P.uuid fleet.session.drawn, entropy := P.osRng fleet.session.drawn }) a owner owner'
      (fleet.ask i faults (fun owner => do
        let draw ← drawMutation P
        owner.apply P (operation draw)) answer).1 := by
  revert h
  refine Fleet.ask_spec (p := fun out => out.2 = answer (.ok a) → ∃ owner owner', Answered P fleet i
    (operation { id := P.uuid fleet.session.drawn, entropy := P.osRng fleet.session.drawn }) a owner owner'
    out.1) (fun _ h => absurd h.symm hno.1) fun owner howner => ?_
  rw [wp_bind, drawMutation, wp_bind, wp_drawIndex, wp_pure]
  refine wp_mono (wp_applied P owner _ _) ?_ fun _ _ _ h => absurd h.symm hno.2
  rintro ⟨owner', result⟩ m' happlied h
  cases hinjective result h
  exact ⟨owner, owner', answered_of howner (by rfl) (by rfl) (hoperates _ rfl) happlied⟩

end Ask

namespace Answered

variable {α : Type} {operation : AppM α} {a : α} {owner owner' : DurableVault}

/-- After an answer the owner has what the operation left, and the store carries that, at
most with an older clock. -/
theorem after (hids : P.FreshIds) (hseals : P.Seals) (hreach : Fleet.Reachable P fleet)
    (h : Answered P fleet i operation a owner owner' fleet') :
    (∃ g, owner'.app = { (owner.proposal operation).2 with generation := g })
    ∧ (shown (fleet'.stores i).dir).Carries P fun app => ∃ last, app = { owner'.app with lastTime := last } := by
  obtain ⟨hsound, hfaithful⟩ := Faithful.runs hids hseals hreach
  obtain ⟨hmirrored, -⟩ := hfaithful i owner h.held h.ready
  have hkept := hsound.stores i
  have hvalid := hkept.valid owner h.held
  have hlasting := hkept.lasting owner h.held
  obtain ⟨hstaged, hstagedLasting, hlast⟩ := staged_lasting hvalid hlasting
  have hcandidate := hstagedLasting.operated hids hstaged (le_refl _) h.operated
  obtain ⟨n, hcommitted⟩ := h.committed
  generalize (fleet'.stores i).dir = d' at hcommitted ⊢
  cases hcommitted with
  | memory hstage =>
    have hclock := stage_none hseals.toJson hvalid hlasting.dated hcandidate.dated
      (fun t ht => h.operated.lastTime t (hlast.trans ht)) hstage
    obtain ⟨image, hstate, -, hopens⟩ := hmirrored.opens
    obtain ⟨phrase, hkey⟩ := hmirrored.phrase
    refine ⟨⟨_, hclock.same⟩, ?_⟩
    exact (Shown.Carries.of_state hseals hmirrored.no_pending hmirrored.no_recovery hstate
      (hopens phrase hkey)).mono fun app happ => ⟨_, happ⟩
  | durable hstage hpublished =>
    obtain ⟨rfl, -⟩ := stage_some hstage
    have hdated : Application.Timestamped { (owner.proposal operation).2 with
        generation := owner.app.generation + 1 } := ⟨hcandidate.dated.requests, hcandidate.dated.deliveries⟩
    exact ⟨⟨_, rfl⟩, (hpublished.exact hseals hdated (hkept.fits owner · h.held)).mono
      fun app happ => ⟨_, happ⟩⟩

/-- A law that an answered operation establishes, whatever the clock. -/
theorem lawful {φ : Application → Prop} {since : Nat} (hids : P.FreshIds) (hseals : P.Seals)
    (hreach : Fleet.Reachable P fleet) (hreach' : Fleet.Reachable P fleet')
    (hsince : since ≤ fleet'.session.drawn)
    (htimeless : ∀ app last g, φ app → φ { app with lastTime := last, generation := g })
    (hφ : φ (owner.proposal operation).2) (h : Answered P fleet i operation a owner owner' fleet') :
    Lawful P φ since i fleet' := by
  obtain ⟨⟨g, happ⟩, hcarries⟩ := h.after hids hseals hreach
  have howner : φ owner'.app := by
    rw [happ]
    exact htimeless _ _ g hφ
  refine hreach'.lawful hids hseals h.kept hsince howner (hcarries.mono fun app hlast => ?_)
  obtain ⟨last, rfl⟩ := hlast
  exact htimeless _ last _ howner

end Answered

/-! The two closures that act for the principal of a task. -/

namespace Application

/-- The context a human act under a task is carried out in. -/
def taskContext (t : TaskApproval) : AuthenticatedContext :=
  .fromAuthenticatedPeer t.owner t.principal t.workspace

theorem trustedTaskContext_eq_ok {app : Application} {admin ctx : AuthenticatedContext} {task : Uuid}
    {now : Time} (h : app.trustedTaskContext admin task now = .ok ctx) : ∃ t,
      app.tasks.get? task = some t ∧ admin.admin = true ∧ t.owner = admin.owner
        ∧ t.workspace = admin.workspace ∧ ctx = taskContext t ∧ TaskHeld app ctx task now t := by
  unfold trustedTaskContext at h
  split_ifs at h with hadmin
  cases ht : app.tasks.get? task with
  | none => simp [ht] at h
  | some t =>
    simp only [ht] at h
    split_ifs at h with hscope
    cases hheld : app.task (taskContext t) task now with
    | error e =>
      unfold taskContext at hheld
      simp [hheld] at h
    | ok t' =>
      have hheld' := hheld
      unfold taskContext at hheld'
      simp only [hheld', Except.ok.injEq] at h
      have htask := task_eq_ok.mp hheld
      have hsame : t' = t := Option.some.inj (htask.found.symm.trans ht)
      simp only [Bool.not_eq_true, Bool.or_eq_false_iff, bne_eq_false_iff_eq] at hscope
      refine ⟨t, rfl, by simpa using hadmin, hscope.1, hscope.2, h.symm, ?_⟩
      rw [← h]
      exact hsame ▸ htask

variable {app : Application} {admin : AuthenticatedContext} {task request record : Uuid} {now : Time}
  {draw : Draw}

theorem wp_importClosure (kind : CredentialKind) (values : SecretInput) :
    wp (importClosure P admin task request kind values now draw)
      (fun receipt next => ∃ t effective, app.tasks.get? task = some t
        ∧ app.effectiveTime now = .ok effective
        ∧ (Executed P (taskContext t) task request (.create kind values) draw effective (app.ticked now)
            receipt next
          ∨ Replayed P (taskContext t) task request (.create kind values) effective (app.ticked now) receipt
            ∧ next = app.ticked now))
      (fun _ next => app.ClockOnly now next) app := by
  simp only [importClosure, wp_bind, wp_clock, wp_get, wp_liftExcept]
  refine ⟨fun effective heff => ⟨fun ctx hctx => ?_, fun _ _ => .ticked heff⟩, fun e he => .frozen he⟩
  obtain ⟨hagain, hsame⟩ := effectiveTime_ticked heff
  obtain ⟨t, ht, -, -, -, rfl, -⟩ := trustedTaskContext_eq_ok hctx
  rw [ticked_tasks] at ht
  apply wp_mono (wp_mutate P (taskContext t) task request (.create kind values) effective draw
    (app.ticked now))
  · rintro receipt next ⟨effective', heff', hexec⟩
    rw [hagain, Except.ok.injEq] at heff'
    rw [hsame, ← heff'] at hexec
    exact ⟨t, effective, ht, heff, hexec⟩
  · intro e next hclock
    rw [clockOnly_ticked heff hclock]
    exact .ticked heff

theorem wp_readClosure (fields : Fields) :
    wp (readClosure admin task record fields now)
      (fun values next => ∃ t r effective, app.effectiveTime now = .ok effective
        ∧ Selected (app.ticked now) (taskContext t) task record fields .secretRead none effective values t r
        ∧ next = (app.ticked now).pushAudit { task, record, request := none, action := .secretRead
                                              loggedAt := effective, principal := t.principal })
      (fun _ next => app.ClockOnly now next) app := by
  simp only [readClosure, wp_bind, wp_clock, wp_get, wp_liftExcept]
  refine ⟨fun effective heff => ⟨fun ctx hctx => ?_, fun _ _ => .ticked heff⟩, fun e he => .frozen he⟩
  obtain ⟨hagain, hsame⟩ := effectiveTime_ticked heff
  obtain ⟨t, ht, -, -, -, rfl, -⟩ := trustedTaskContext_eq_ok hctx
  apply wp_mono (wp_readSecret (taskContext t) task record fields effective (app.ticked now))
  · rintro values next ⟨effective', heff', t', r, hselected, rfl⟩
    rw [hagain, Except.ok.injEq] at heff'
    rw [hsame, ← heff'] at hselected ⊢
    have heq : t' = t := Option.some.inj (hselected.task.found.symm.trans ht)
    exact ⟨t, r, effective, heff, heq ▸ hselected, rfl⟩
  · intro e next hclock
    rw [clockOnly_ticked heff hclock]
    exact .ticked heff

end Application

/-! What can be got from a store. -/

/-- The task a call is made under. -/
def Call.task : Call → Option Uuid
  | .mutate _ task _ _ _ | .metadata _ task _ _ _ | .importForTask _ task _ _ _ _
  | .readForTask _ task _ _ _ | .useSecret _ task _ _ _ _ => some task
  | _ => none

/-- The record a call is to disclose something of. -/
def Call.discloses : Call → Option Uuid
  | .metadata _ _ record _ _ | .readForTask _ _ record _ _ => some record
  | .useSecret _ _ use _ _ _ => some use.record
  | _ => none

/-- A receipt, values, or the outcome of a delivery. -/
def Answer.granted : Answer → Bool
  | .receipt (.ok _) | .view (.ok _) | .values (.ok _) | .delivery (.result (.ok _)) => true
  | _ => false

/-! Mutations. -/

/-- The mutation a call asks for; an import is a creation for the principal of its task. -/
inductive Call.Asks (app : Application) :
    Call → AuthenticatedContext → Uuid → Uuid → Mutation → Time → Prop
  | mutate (ctx : AuthenticatedContext) (task request : Uuid) (op : Mutation) (now : Time) :
    Asks app (.mutate ctx task request op now) ctx task request op now
  | importForTask (admin : AuthenticatedContext) {task : Uuid} (request : Uuid) (kind : CredentialKind)
      (values : SecretInput) (now : Time) {t : TaskApproval} (ht : app.tasks.get? task = some t) :
    Asks app (.importForTask admin task request kind values now) (taskContext t) task request
      (.create kind values) now

/-- A mutation that was answered: on the staged copy it ran, or it was answered from the cache. -/
structure Mutated (P : Platform) (fleet : Fleet) (i : Nat) (ctx : AuthenticatedContext)
    (task request : Uuid) (op : Mutation) (now : Time) (receipt : Receipt) (owner owner' : DurableVault)
    (candidate : Application) (effective : Time) (fleet' : Fleet) : Prop where
  answered : ∃ operation : AppM Receipt, Answered P fleet i operation receipt owner owner' fleet'
    ∧ candidate = (owner.proposal operation).2
  sampled : owner.staged.effectiveTime now = .ok effective
  ran : Executed P ctx task request op
      { id := P.uuid fleet.session.drawn, entropy := P.osRng fleet.session.drawn } effective
      (owner.staged.ticked now) receipt candidate
    ∨ Replayed P ctx task request op effective (owner.staged.ticked now) receipt
      ∧ candidate = owner.staged.ticked now

section Calls

variable {ctx admin : AuthenticatedContext} {task request record : Uuid} {op : Mutation} {now : Time}
  {receipt : Receipt} {fields : Fields}

/-- What a receipt says. -/
theorem mutated {call : Call} {owner : DurableVault} (howner : (fleet.stores i).owner = some owner)
    (hasks : call.Asks owner.staged ctx task request op now)
    (h : (fleet.step P i call faults).2 = .receipt (.ok receipt)) : ∃ owner' candidate effective,
      Mutated P fleet i ctx task request op now receipt owner owner' candidate effective
        (fleet.step P i call faults).1 := by
  cases hasks with
  | mutate ctx task request op now =>
    obtain ⟨owner₁, owner', hanswered⟩ := answered_drawing (P := P) (i := i)
      (fun draw hid => operates_mutate ctx task request op now hid) (by simp) (by simp) h
    obtain rfl : owner₁ = owner := Option.some.inj (hanswered.held.symm.trans howner)
    obtain ⟨effective, heff, hexec⟩ :=
      proposal_ok (wp_mutate P ctx task request op now _ owner₁.staged) hanswered.proposal
    exact ⟨owner', _, effective, ⟨_, hanswered, rfl⟩, heff, hexec⟩
  | importForTask admin request kind values now ht =>
    obtain ⟨owner₁, owner', hanswered⟩ := answered_drawing (P := P) (i := i)
      (fun draw hid => operates_importClosure admin task request kind values now hid) (by simp)
      (by simp) h
    obtain rfl : owner₁ = owner := Option.some.inj (hanswered.held.symm.trans howner)
    obtain ⟨t', effective, ht', heff, hexec⟩ :=
      proposal_ok (wp_importClosure kind values) hanswered.proposal
    rw [ht, Option.some.injEq] at ht'
    exact ⟨owner', _, effective, ⟨_, hanswered, rfl⟩, heff, ht' ▸ hexec⟩

/-- What is needed for a call under a task to have any effect outside: its task held, and
its record too where it discloses one. -/
structure Admitted (fleet : Fleet) (i : Nat) (call : Call) (task : Uuid) (owner : DurableVault)
    (ctx : AuthenticatedContext) (now effective : Time) : Prop where
  held : (fleet.stores i).owner = some owner
  ready : owner.ready = .ok ()
  sampled : owner.staged.effectiveTime now = .ok effective
  task : ∃ t, TaskHeld (owner.staged.ticked now) ctx task effective t
  record : ∀ record, call.discloses = some record →
    ∃ r, RecordHeld (owner.staged.ticked now) ctx record r

section Granted

variable {α : Type} {answer : Except Error α → Answer}

theorem granted_apply {program : DurableVault → VaultIo (DurableVault × Except Error α)}
    (hprogram : ∀ owner m, wp (program owner) (fun _ m' => m.rest.Later m'.rest)
      (fun _ m' => m.rest.Later m'.rest) m)
    (herror : ∀ e, (answer (.error e)).granted = false)
    (h : (fleet.ask i faults program answer).2.granted = true
      ∨ (fleet.ask i faults program answer).1.session.handoffs ≠ fleet.session.handoffs) :
    ∃ a, (fleet.ask i faults program answer).2 = answer (.ok a) := by
  revert h
  refine Fleet.ask_spec (p := fun out => (out.2.granted = true
    ∨ out.1.session.handoffs ≠ fleet.session.handoffs) → ∃ a, out.2 = answer (.ok a)) ?_ ?_
  · rintro - (h | h)
    · cases h
    · exact absurd rfl h
  · intro owner howner
    refine wp_mono (hprogram owner _) ?_ ?_
    · rintro ⟨owner', result⟩ m' hlater (h | h)
      · cases result with
        | error e =>
          rw [herror e] at h
          cases h
        | ok a => exact ⟨a, rfl⟩
      · exact absurd hlater.handoffs h
    · rintro _ m' hlater (h | h)
      · cases h
      · exact absurd hlater.handoffs h

theorem wp_apply_later (owner : DurableVault) (operation : AppM α) (m : VaultMachine) :
    wp (owner.apply P operation) (fun _ m' => m.rest.Later m'.rest) (fun _ m' => m.rest.Later m'.rest) m :=
  wp_mono (wp_applied P owner operation m) (fun _ _ h => h.later) fun _ _ h => h.later

theorem wp_drawing_later (owner : DurableVault) (operation : Draw → AppM α) (m : VaultMachine) :
    wp (do
      let draw ← drawMutation P
      owner.apply P (operation draw)) (fun _ m' => m.rest.Later m'.rest)
      (fun _ m' => m.rest.Later m'.rest) m := by
  have hnumbered : m.rest.Later (numbered m).rest := ⟨Nat.le_succ _, rfl⟩
  rw [wp_bind, drawMutation, wp_bind, wp_drawIndex, wp_pure]
  exact wp_mono (wp_apply_later owner _ (numbered m)) (fun _ _ h => hnumbered.trans h)
    fun _ _ h => hnumbered.trans h

end Granted

/-- A use that got past its first check. -/
theorem used_of_granted {use : PrivateUse} {preparedAt handoffAt : Time} {deliver : SecretInput → Delivered}
    (h : (fleet.step P i (.useSecret ctx task use preparedAt handoffAt deliver) faults).2.granted = true
      ∨ (fleet.step P i (.useSecret ctx task use preparedAt handoffAt deliver) faults).1.session.handoffs
        ≠ fleet.session.handoffs) :
    ∃ owner effective values t r, (fleet.stores i).owner = some owner ∧ owner.ready = .ok ()
      ∧ owner.staged.effectiveTime preparedAt = .ok effective
      ∧ Usable (owner.staged.ticked preparedAt) ctx task use effective values t r := by
  revert h
  refine Fleet.ask_spec (p := fun out => (out.2.granted = true
    ∨ out.1.session.handoffs ≠ fleet.session.handoffs) → _) ?_ fun owner howner => ?_
  · rintro - (h | h)
    · cases h
    · exact absurd rfl h
  -- whatever comes after the first commit, it was passed
  have hprepared : ∀ {m m' : VaultMachine} {owner' : DurableVault} {out : Option DeliveryReceipt},
      Applied P owner (Application.usePrepare P ctx task use (P.uuid m.rest.drawn) preparedAt) (numbered m)
        (owner', .ok out) m' → ∃ owner effective values t r,
      (fleet.stores i).owner = some owner ∧ owner.ready = .ok ()
        ∧ owner.staged.effectiveTime preparedAt = .ok effective
        ∧ Usable (owner.staged.ticked preparedAt) ctx task use effective values t r := by
    intro m m' owner' out happlied
    obtain ⟨hready, hok, -⟩ := happlied.ok
    obtain ⟨effective, heff, hout⟩ :=
      proposal_ok (wp_usePrepare P ctx task use (P.uuid m.rest.drawn) preparedAt owner.staged) hok
    rcases hout with ⟨-, hprepared⟩ | ⟨receipt, -, hreported, -⟩
    · obtain ⟨values, t, r, husable, -⟩ := hprepared.usable
      exact ⟨owner, effective, values, t, r, howner, hready, heff, husable⟩
    · obtain ⟨values, t, r, d, husable, -⟩ := hreported.usable
      exact ⟨owner, effective, values, t, r, howner, hready, heff, husable⟩
  refine wp_mono (wp_useSecret P owner ctx task use preparedAt handoffAt deliver _) ?_ ?_
  · intro out m' hused h
    cases hused with
    | refused hrefused =>
      rcases h with h | h
      · cases h
      · exact absurd hrefused.later.handoffs h
    | replayed hreplayed => exact hprepared hreplayed
    | gated hgated => exact hprepared hgated
    | withdrawn hjournaled | stuck hjournaled => exact hprepared hjournaled.prepared
    | panicked hhanded | unrecorded hhanded | finished hhanded => exact hprepared hhanded.journal.prepared
  · intro _ m' hcut h
    cases hcut with
    | prepare hcut =>
      rcases h with h | h
      · cases h
      · exact absurd hcut.later.handoffs h
    | cancel hjournaled => exact hprepared hjournaled.prepared
    | finish hhanded => exact hprepared hhanded.journal.prepared

/-- No call under a task gets anything unless the task is held. -/
theorem admitted {call : Call} (hcall : call.task = some task)
    (h : (fleet.step P i call faults).2.granted = true
      ∨ (fleet.step P i call faults).1.session.handoffs ≠ fleet.session.handoffs) :
    ∃ owner ctx now effective, Admitted fleet i call task owner ctx now effective := by
  cases call with
  | mutate ctx t request op now =>
    cases hcall
    obtain ⟨receipt, hanswer⟩ := granted_apply
      (fun owner m => wp_drawing_later owner (Application.mutate P ctx task request op now) m) (fun _ => rfl) h
    obtain ⟨owner, owner', hanswered⟩ := answered_drawing (P := P) (i := i)
      (fun draw hid => operates_mutate ctx task request op now hid) (by simp) (by simp) hanswer
    obtain ⟨effective, heff, hexec⟩ :=
      proposal_ok (wp_mutate P ctx task request op now _ owner.staged) hanswered.proposal
    refine ⟨owner, ctx, now, effective, hanswered.held, hanswered.ready, heff, ?_, nofun⟩
    rcases hexec with hexec | ⟨hreplayed, -⟩
    · obtain ⟨t, -, -, ht, -⟩ := hexec.change
      exact ⟨t, task_eq_ok.mp ht⟩
    · obtain ⟨t, ht, -⟩ := hreplayed.authority
      exact ⟨t, task_eq_ok.mp ht⟩
  | importForTask admin t request kind values now =>
    cases hcall
    obtain ⟨receipt, hanswer⟩ := granted_apply
      (fun owner m => wp_drawing_later owner (importClosure P admin task request kind values now) m)
      (fun _ => rfl) h
    obtain ⟨owner, owner', hanswered⟩ := answered_drawing (P := P) (i := i)
      (fun draw hid => operates_importClosure admin task request kind values now hid) (by simp)
      (by simp) hanswer
    obtain ⟨t', effective, -, heff, hexec⟩ :=
      proposal_ok (wp_importClosure kind values) hanswered.proposal
    refine ⟨owner, taskContext t', now, effective, hanswered.held, hanswered.ready, heff, ?_, nofun⟩
    rcases hexec with hexec | ⟨hreplayed, -⟩
    · obtain ⟨t, -, -, ht, -⟩ := hexec.change
      exact ⟨t, task_eq_ok.mp ht⟩
    · obtain ⟨t, ht, -⟩ := hreplayed.authority
      exact ⟨t, task_eq_ok.mp ht⟩
  | metadata ctx t record fields now =>
    cases hcall
    obtain ⟨view, hanswer⟩ := granted_apply
      (fun owner m => wp_apply_later owner (Application.metadata ctx task record fields now) m)
      (fun _ => rfl) h
    obtain ⟨owner, owner', hanswered⟩ := answered_apply (P := P) (i := i)
      (operates_metadata ctx task record fields now) (by simp) (by simp) hanswer
    obtain ⟨effective, heff, values, t, r, hselected, -⟩ :=
      proposal_ok (wp_metadata ctx task record fields now owner.staged) hanswered.proposal
    exact ⟨owner, ctx, now, effective, hanswered.held, hanswered.ready, heff, ⟨t, hselected.task⟩,
      fun _ heq => Option.some.inj heq ▸ ⟨r, hselected.record⟩⟩
  | readForTask admin t record fields now =>
    cases hcall
    obtain ⟨values, hanswer⟩ := granted_apply
      (fun owner m => wp_apply_later owner (readClosure admin task record fields now) m)
      (fun _ => rfl) h
    obtain ⟨owner, owner', hanswered⟩ := answered_apply (P := P) (i := i)
      (operates_readClosure admin task record fields now) (by simp) (by simp) hanswer
    obtain ⟨t, r, effective, heff, hselected, -⟩ :=
      proposal_ok (wp_readClosure fields) hanswered.proposal
    exact ⟨owner, taskContext t, now, effective, hanswered.held, hanswered.ready, heff,
      ⟨t, hselected.task⟩, fun _ heq => Option.some.inj heq ▸ ⟨r, hselected.record⟩⟩
  | useSecret ctx t use preparedAt handoffAt deliver =>
    cases hcall
    obtain ⟨owner, effective, values, t, r, howner, hready, heff, husable⟩ := used_of_granted h
    exact ⟨owner, ctx, preparedAt, effective, howner, hready, heff, ⟨t, husable.selected.task⟩,
      fun _ heq => Option.some.inj heq ▸ ⟨r, husable.selected.record⟩⟩
  | _ => cases hcall

end Calls

/-! The applications on which a call is decided. -/

/-- The staged copy at the time of the call, and for a private use the application at the
instant of a handoff. -/
inductive Fleet.Consults (P : Platform) (fleet : Fleet) (i : Nat) (call : Call) (faults : List Fault) :
    Application → Prop
  | staged {owner : DurableVault} {now effective : Time} (howner : (fleet.stores i).owner = some owner)
      (heff : owner.staged.effectiveTime now = .ok effective) :
    Consults P fleet i call faults (owner.staged.ticked now)
  | handoff {h : Handoff} (hnew : h ∈ (fleet.step P i call faults).1.session.handoffs)
      (hold : h ∉ fleet.session.handoffs) : Consults P fleet i call faults h.app

theorem Kept.handed {φ : Application → Prop} {since b : Nat} {backups : List Bytes} {call : Call}
    {x y : StoreState × Session} (hids : P.FreshIds) (hseals : P.Seals) (hkeeps : Keeps P φ since call)
    (hstart : since ≤ b) (hsince : since ≤ x.2.drawn)
    (harises : x.1.dir .state ≠ none ∨ ∀ {app}, call.Arises P backups app → φ app)
    (hcopies : Copies P (fun _ => True) x.2.drawn backups) (hkept : Kept P φ x.2.drawn x.1)
    (hevents : ReflTransGen (Event P backups b call) x y) :
    ∀ h ∈ y.2.handoffs, h ∈ x.2.handoffs ∨ h.app.Valid P ∧ φ h.app := by
  induction hevents with
  | refl => exact fun h hmem => .inl hmem
  | @tail y z hbefore hevent ih =>
    intro h hmem
    by_cases hy : h ∈ y.2.handoffs
    · exact ih h hy
    obtain ⟨hmid, -, -⟩ := hkept.events hids hseals hkeeps hstart hsince harises hcopies hbefore
    -- only a handoff adds to the log, and it takes the owner's application
    cases hevent with
    | drawn hlater | memory hlater | published hlater | cutOff hlater | created hlater
    | creationCut hlater =>
      rw [hlater.handoffs] at hmem
      exact absurd hmem hy
    | dropped | authorized | frozen | opened => exact absurd hmem hy
    | attempted _ hattempted | recovered _ hattempted =>
      rw [hattempted.later.handoffs] at hmem
      exact absurd hmem hy
    | @handed d owner s h' hready happ himage =>
      rcases List.mem_append.mp hmem with hmem | hmem
      · exact absurd hmem hy
      · rw [List.mem_singleton] at hmem
        rw [hmem, happ]
        exact .inr ⟨hmid.valid owner rfl, hmid.holds owner rfl⟩

/-- A law holds wherever a call is decided. -/
theorem Lawful.consults {φ : Application → Prop} {since : Nat} {call : Call} {app : Application}
    (hids : P.FreshIds) (hseals : P.Seals) (hkeeps : Keeps P φ since call)
    (htimeless : ∀ app last g, φ app → φ { app with lastTime := last, generation := g })
    (h : Lawful P φ since i fleet) (hconsults : fleet.Consults P i call faults app) :
    app.Valid P ∧ φ app := by
  cases hconsults with
  | @staged owner now effective howner heff =>
    have hvalid := h.kept.valid owner howner
    have hlasting := h.kept.lasting owner howner
    obtain ⟨hstaged, -, -⟩ := staged_lasting hvalid hlasting
    have hφ : φ owner.staged := by
      unfold DurableVault.staged
      split_ifs
      · exact hkeeps.compacted hvalid hlasting (h.kept.holds owner howner)
      · exact h.kept.holds owner howner
    refine ⟨hstaged.ticked heff, ?_⟩
    unfold ticked
    split_ifs
    · exact htimeless _ (some now) owner.staged.generation hφ
    · exact hφ
  | handoff hnew hold =>
    exact (h.kept.handed hids hseals hkeeps h.since_le h.since_le (.inl h.founded) h.sound.backups
      (stepped hseals fleet i call faults).events _ hnew).resolve_left hold

/-- Wherever a later call is decided, the application goes on from `base`. -/
theorem Lawful.evolves {base app : Application} {since : Nat} {allows : Fleet → Nat → Call → Prop} {call : Call}
    (hids : P.FreshIds) (hseals : P.Seals) (h : Lawful P (base.Evolves P since) since i fleet)
    (hruns : Fleet.Runs P allows fleet fleet') (hconsults : fleet'.Consults P i call faults app) :
    app.Valid P ∧ base.Evolves P since app := by
  have hafter := h.runs hids hseals
    (fun mid call faults hmid _ => hmid.keeps hids hseals (keeps_evolves base since call) faults) hruns
  exact hafter.consults hids hseals (keeps_evolves base since call)
    (fun app last g h => (h.clocked last app.clockFrozen).renumbered g app.predecessor) hconsults

end Credman
