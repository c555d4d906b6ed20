import Credman.Pinned

/-! Revocation lasts: nothing is done under a revoked task, through a revoked grant
or with a deleted record, whatever happens to the store. -/
namespace Credman

open Library Library.Checked Relation Application DurableVault

variable {P : Platform}

namespace Application

variable {app next : Application}

/-! Approvals and their revocations. -/

/-- The approvals are as they were, and what was revoked still is. -/
structure TasksKept (app next : Application) : Prop where
  tasks : next.tasks = app.tasks
  revoked : app.revokedTasks ⊆ next.revokedTasks

theorem TasksKept.of_eq (htasks : next.tasks = app.tasks) (hrevoked : next.revokedTasks = app.revokedTasks) :
    app.TasksKept next := ⟨htasks, hrevoked ▸ Finset.Subset.refl _⟩

theorem TasksKept.ticked (app : Application) (now : Time) : app.TasksKept (app.ticked now) :=
  .of_eq (by simp) (by simp)

theorem ClockOnly.tasksKept {now : Time} (h : app.ClockOnly now next) : app.TasksKept next := by
  cases h with
  | ticked => exact .ticked app now
  | frozen => exact .of_eq rfl rfl

theorem Executed.tasksKept {ctx : AuthenticatedContext} {task request : Uuid} {op : Mutation} {draw : Draw}
    {effective now : Time} {receipt : Receipt}
    (h : Executed P ctx task request op draw effective (app.ticked now) receipt next) :
    app.TasksKept next := by
  obtain ⟨t, mid, op', -, -, -, -, hperformed, rfl⟩ := h.change
  cases hperformed <;> exact .of_eq (ticked_tasks ..) (ticked_revokedTasks ..)

theorem Settled.tasksKept {use : PrivateUse} {attempt : Uuid} {change : DeliveryAttempt → DeliveryAttempt}
    {signup : SignupState → SignupState} (h : Settled use attempt change signup app next) :
    app.TasksKept next := by
  cases h <;> exact .of_eq rfl rfl

theorem wp_mutate_tasks (ctx : AuthenticatedContext) (task request : Uuid) (op : Mutation) (now : Time)
    (draw : Draw) (app : Application) : wp (mutate P ctx task request op now draw)
      (fun _ next => app.TasksKept next) (fun _ next => app.TasksKept next) app := by
  refine wp_mono (wp_mutate P ctx task request op now draw app) ?_ fun _ _ hclock => hclock.tasksKept
  rintro receipt next ⟨effective, heff, hexec | ⟨-, rfl⟩⟩
  · exact hexec.tasksKept
  · exact .ticked app now

end Application

/-- No call but an approval changes the approvals. -/
theorem Call.Runs.tasksKept {b n : Nat} {call : Call} {app next : Application}
    (h : call.Runs P b n app next) (hcall : ∀ admin t now, call ≠ .approveTask admin t now) :
    app.TasksKept next := by
  cases h with
  | @approveTask admin t now => exact absurd rfl (hcall admin t now)
  | revokeTask h =>
    refine h.of_wp (wp_mono (wp_revokeTask _ _ _ app) ?_ fun _ _ hclock => hclock.tasksKept)
    rintro - next ⟨effective, -, hrevoked⟩
    rw [hrevoked.result]
    exact ⟨ticked_tasks .., fun i hi => Finset.mem_insert_of_mem (by rwa [ticked_revokedTasks])⟩
  | mutate h => exact h.of_wp (wp_mutate_tasks ..)
  | metadata h =>
    refine h.of_wp (wp_mono (wp_metadata _ _ _ _ _ app) ?_ fun _ _ hclock => hclock.tasksKept)
    rintro - next ⟨effective, -, values, t, r, -, -, rfl⟩
    exact .of_eq (ticked_tasks ..) (ticked_revokedTasks ..)
  | @importForTask _ _ _ _ _ now _ _ h =>
    refine h.of_wp (wp_mono (wp_importClosure _ _) ?_ fun _ _ hclock => hclock.tasksKept)
    rintro receipt next ⟨t, effective, -, -, hexec | ⟨-, rfl⟩⟩
    · exact hexec.tasksKept
    · exact .ticked app now
  | readForTask h =>
    refine h.of_wp (wp_mono (wp_readClosure _) ?_ fun _ _ hclock => hclock.tasksKept)
    rintro values next ⟨t, r, effective, -, -, rfl⟩
    exact .of_eq (ticked_tasks ..) (ticked_revokedTasks ..)
  | @usePrepare _ _ _ preparedAt _ _ _ _ h =>
    refine h.of_wp (wp_mono (wp_usePrepare P _ _ _ _ _ app) ?_ fun _ _ hclock => hclock.tasksKept)
    rintro out next ⟨effective, -, ⟨-, hprepared⟩ | ⟨receipt, -, -, rfl⟩⟩
    · obtain ⟨values, t, r, -, rfl⟩ := hprepared.usable
      unfold Application.prepared
      split_ifs <;> exact .of_eq (ticked_tasks ..) (ticked_revokedTasks ..)
    · exact .ticked app preparedAt
  | useAuthorize h =>
    refine h.of_wp (wp_mono (wp_useAuthorize _ _ _ _ app) ?_ fun _ _ hclock => hclock.tasksKept)
    rintro values next ⟨-, -, rfl⟩
    exact .ticked app _
  | useCancel h =>
    exact h.of_wp (wp_mono (wp_useCancel _ _ app) (fun _ _ h => h.1.tasksKept) fun _ _ h => h.tasksKept)
  | useFinish h =>
    refine h.of_wp (wp_mono (wp_useFinish _ _ _ _ _ _ app) ?_ ?_)
    · rintro - next ⟨d, r, -, -, rfl⟩
      exact .of_eq rfl rfl
    · rintro e next (⟨rfl, -⟩ | ⟨d, -, -, rfl⟩)
      · exact .of_eq rfl rfl
      · exact .of_eq rfl rfl

/-! Revoked tasks. -/

namespace Application

variable {app next : Application} {T : Uuid}

/-- If the task is there, it is revoked. -/
def TaskDead (T : Uuid) (app : Application) : Prop := ∀ t, app.tasks.get? T = some t → T ∈ app.revokedTasks

theorem TaskDead.kept (h : app.TaskDead T) (hkept : app.TasksKept next) : next.TaskDead T := by
  intro t ht
  rw [hkept.tasks] at ht
  exact hkept.revoked (h t ht)

theorem TaskDead.compact {n : Nat} (hvalid : app.Valid P) (hlasting : Lasting P n app)
    (h : app.TaskDead T) : app.compact.TaskDead T := by
  intro t ht
  obtain ⟨-, -, hshrinks⟩ := hlasting.compact hvalid
  exact (hshrinks.revoked T t ht).mpr (h t (hshrinks.tasks T t ht))

theorem TaskDead.not_held {ctx : AuthenticatedContext} {now : Time} {t : TaskApproval}
    (h : app.TaskDead T) : ¬ TaskHeld app ctx T now t :=
  fun hheld => hheld.unrevoked (h t hheld.found)

/-- A grant through which nothing can be accessed. -/
def Dead (app : Application) (g : Grant) : Prop :=
  ∀ ctx r permission fields destination now,
    app.grantCovers ctx r permission fields destination now g = false

theorem TaskDead.grant {g : Grant} (h : app.TaskDead T) (hissuer : g.issuerTask = T) : app.Dead g := by
  intro ctx r permission fields destination now
  rw [← Bool.not_eq_true]
  intro hcovers
  obtain ⟨-, -, -, -, hunrevoked, ⟨t, ht, -⟩, -⟩ := grantCovers_iff.mp hcovers
  rw [hissuer] at hunrevoked ht
  exact hunrevoked (h t ht)

theorem dead_of_revoked {g : Grant} (h : g.revoked = true) : app.Dead g := by
  intro ctx r permission fields destination now
  rw [← Bool.not_eq_true]
  intro hcovers
  obtain ⟨-, hunrevoked, -⟩ := grantCovers_iff.mp hcovers
  rw [h] at hunrevoked
  cases hunrevoked

end Application

section Tasks

variable {T : Uuid} {fleet fleet' : Fleet} {i : Nat} {faults : List Fault}

/-- A call that is not an approval of the task. -/
def Call.Approves (T : Uuid) (call : Call) : Prop :=
  ∃ admin t now, call = .approveTask admin t now ∧ t.id = T

theorem keeps_taskDead {call : Call} (hcall : ¬ call.Approves T) : Keeps P (TaskDead T) 0 call where
  ran := by
    intro b n app next _ _ _ _ h hruns
    by_cases happroves : ∃ admin t now, call = .approveTask admin t now
    · obtain ⟨admin, t, now, rfl⟩ := happroves
      have hother : t.id ≠ T := fun hsame => hcall ⟨admin, t, now, rfl, hsame⟩
      cases hruns with
      | approveTask hleaves =>
        rcases hleaves with ⟨_, hrun⟩ | ⟨e, hrun⟩
        · obtain ⟨effective, -, happroved⟩ := approveTask_eq_ok.mp hrun
          rw [happroved.result]
          intro t' ht'
          change ((app.ticked now).tasks.insert t.id t).get? T = some t' at ht'
          rw [OrdMap.get?_insert_ne _ _ hother, ticked_tasks] at ht'
          change T ∈ (app.ticked now).revokedTasks
          rw [ticked_revokedTasks]
          exact h t' ht'
        · exact h.kept (approveTask_error hrun).tasksKept
    · have hno : ∀ admin t now, call ≠ .approveTask admin t now :=
        fun admin t now heq => happroves ⟨admin, t, now, heq⟩
      exact h.kept (hruns.tasksKept hno)
  compacted hvalid hlasting h := h.compact hvalid hlasting
  renumbered _ _ h := h
  recovered := by
    intro mnemonic admin now app next _ _ hclosed h t ht
    rw [hclosed.tasks] at ht
    rw [hclosed.revoked, Finset.mem_union, OrdMap.mem_keySet]
    exact .inr ⟨t, ht⟩

/-- A human approves the task again, and the owner accepts it. -/
def Reapproved (fleet : Fleet) (i : Nat) (T : Uuid) (call : Call) : Prop :=
  ∃ admin t now owner, call = .approveTask admin t now ∧ t.id = T
    ∧ (fleet.stores i).owner = some owner ∧ (owner.proposal (Application.approveTask admin t now)).1 = .ok ()

/-- What only moves the clock is also what asking for no fields does. -/
theorem runs_clockOnly {b n : Nat} {app next : Application} {now : Time} (h : app.ClockOnly now next) :
    (Call.metadata (.fromAuthenticatedPeer "" "" "") 0 0 ∅ now).Runs P b n app next := by
  have hspec := wp_metadata (.fromAuthenticatedPeer "" "" "") 0 0 ∅ now app
  cases hrun : Application.metadata (.fromAuthenticatedPeer "" "" "") 0 0 ∅ now app with
  | ok view next' =>
    obtain ⟨effective, -, values, t, r, hselected, -⟩ := wp_ok hspec hrun
    exact absurd rfl hselected.fields_ne
  | error e next' =>
    have hclock := wp_error hspec hrun
    have hsame : next' = next := by
      cases hclock with
      | ticked heff =>
        cases h with
        | ticked => rfl
        | frozen herr =>
          rw [heff] at herr
          cases herr
      | frozen herr =>
        cases h with
        | ticked heff =>
          rw [heff] at herr
          cases herr
        | frozen => rfl
    exact .metadata (.inr ⟨e, hsame ▸ hrun⟩)

/-- An approval that the owner refuses leaves the task dead. -/
theorem kept_refused (hids : P.FreshIds) (hseals : P.Seals) {admin : AuthenticatedContext}
    {t : TaskApproval} {now : Time} {since : Nat} (h : Lawful P (TaskDead T) since i fleet)
    (hrefused : ∀ owner, (fleet.stores i).owner = some owner →
      (owner.proposal (Application.approveTask admin t now)).1 ≠ .ok ()) :
    Kept P (TaskDead T) (fleet.step P i (.approveTask admin t now) faults).1.session.drawn
      ((fleet.step P i (.approveTask admin t now) faults).1.stores i) := by
  have hstepped : Stepped P fleet i (.metadata (.fromAuthenticatedPeer "" "" "") 0 0 ∅ now)
      (fleet.step P i (.approveTask admin t now) faults).1 := by
    refine stepped_ask fun owner howner m _ => wp_apply_events ⟨le_refl _, rfl⟩ ?_
    rintro next (⟨_, hrun⟩ | ⟨e, hrun⟩)
    · refine absurd ?_ (hrefused owner howner)
      unfold DurableVault.proposal
      rw [hrun]
    · exact .inr fun _ => runs_clockOnly (approveTask_error hrun)
  refine hstepped.kept hids hseals h.sound (keeps_taskDead ?_) (Nat.zero_le _) (.inl h.founded) h.kept
  rintro ⟨_, _, _, ⟨⟩, -⟩

/-- The task stays dead until it is approved again. -/
theorem Lawful.taskDead {since : Nat} (hids : P.FreshIds) (hseals : P.Seals)
    (h : Lawful P (TaskDead T) since i fleet)
    (hruns : Fleet.Runs P (fun mid j call => j = i → ¬ Reapproved mid i T call) fleet fleet') :
    Lawful P (TaskDead T) since i fleet' := by
  refine h.runs hids hseals (fun mid call faults hmid hallows => ?_) hruns
  by_cases hcall : call.Approves T
  · obtain ⟨admin, t, now, rfl, hid⟩ := hcall
    exact kept_refused hids hseals hmid fun owner howner hok =>
      hallows rfl ⟨admin, t, now, owner, rfl, hid, howner, hok⟩
  · exact (stepped hseals mid i call faults).kept hids hseals hmid.sound (keeps_taskDead hcall)
      (Nat.zero_le _) (.inl hmid.founded) hmid.kept

end Tasks

/-! What a cached receipt says about the mutation it answers. -/

namespace Application

variable {app next : Application}

/-- The record and the revoked grant of a mutation are those of its receipt. -/
structure Reports (op : Mutation) (receipt : Receipt) : Prop where
  record : ∀ i, op.target = some i → receipt.record = i
  grant : ∀ i expected gid, op = .revoke i expected gid → receipt.grant = some gid

theorem Performed.reports {ctx : AuthenticatedContext} {t : TaskApproval} {task : Uuid} {draw : Draw}
    {op : Mutation} {receipt : Receipt} (h : Performed ctx t task draw app op receipt next) :
    Reports op receipt := by
  cases h with
  | create => exact ⟨nofun, nofun⟩
  | patch | share | delete | reportOutcome => exact ⟨fun _ hi => Option.some.inj hi, nofun⟩
  | revoke =>
    refine ⟨fun _ hi => Option.some.inj hi, ?_⟩
    rintro _ _ _ ⟨⟩
    rfl

theorem Executed.reports {ctx : AuthenticatedContext} {task request : Uuid} {op : Mutation} {draw : Draw}
    {effective : Time} {receipt : Receipt}
    (h : Executed P ctx task request op draw effective app receipt next) : Reports op receipt := by
  obtain ⟨t, mid, op', -, -, -, hresolve, hperformed, -⟩ := h.change
  obtain ⟨hrecord, hgrant⟩ := hperformed.reports
  refine ⟨fun i hi => hrecord i ((resolve_target hresolve).1.trans hi), fun i expected gid hop => ?_⟩
  subst hop
  cases hresolve
  exact hgrant i expected gid rfl

/-! An executed revocation or deletion. -/

theorem Executed.revoked {ctx : AuthenticatedContext} {task request record gid : Uuid} {expected : UInt64}
    {effective : Time} {draw : Draw} {receipt : Receipt}
    (h : Executed P ctx task request (.revoke record expected gid) draw effective app receipt next) :
    ∃ g, next.grants.get? gid = some g ∧ g.revoked = true := by
  obtain ⟨t, mid, op', -, -, -, hresolve, hperformed, rfl⟩ := h.change
  cases hresolve
  cases hperformed with
  | revoke hr hg => exact ⟨_, OrdMap.get?_insert_self .., rfl⟩

theorem Executed.deleted {ctx : AuthenticatedContext} {task request record : Uuid} {expected : UInt64}
    {effective : Time} {draw : Draw} {receipt : Receipt}
    (h : Executed P ctx task request (.delete record expected) draw effective app receipt next) :
    ∃ r, next.records.get? record = some r ∧ r.deleted = true := by
  obtain ⟨t, mid, op', -, -, -, hresolve, hperformed, rfl⟩ := h.change
  cases hresolve
  cases hperformed with
  | delete hr => exact ⟨_, OrdMap.get?_insert_self .., rfl⟩

/-- Every receipt was made for some mutation, and says what it did. -/
def Minted (P : Platform) (app : Application) : Prop :=
  ∀ key c, app.requests.get? key = some c →
    ∃ op receipt effective, c = remembered P op receipt effective ∧ Reports op receipt

theorem keeps_minted (hids : P.FreshIds) (call : Call) : Keeps P (Minted P) 0 call where
  ran := by
    intro b n app next _ _ _ hlasting h hruns key c hc
    rcases hruns.operated.requests_some (hlasting.fresh hids (le_refl n)) hc with hold
      | ⟨ctx, task, request, op, draw, now, effective, receipt, -, -, hexec, -, rfl⟩
    · exact h key c hold
    · exact ⟨op, receipt, effective, rfl, hexec.reports⟩
  compacted := by
    intro n app hvalid hlasting h key c hc
    obtain ⟨-, -, hshrinks⟩ := hlasting.compact hvalid
    exact h key c (hshrinks.requests key c hc)
  renumbered _ _ h := h
  recovered := by
    intro mnemonic admin now app next _ _ hclosed h key c hc
    rw [hclosed.requests] at hc
    exact h key c hc

theorem minted_of_closed {copy : Bool} (h : app.Minted P) (hclosed : Closed copy app next) : next.Minted P := by
  intro key c hc
  rw [hclosed.requests] at hc
  exact h key c hc

/-- What a replayed revocation answers for is done. -/
theorem Replayed.revoked {ctx : AuthenticatedContext} {task request record gid : Uuid} {expected : UInt64}
    {effective : Time} {receipt : Receipt} (hfingerprints : P.Fingerprints) (hvalid : app.Valid P)
    (hminted : app.Minted P)
    (h : Replayed P ctx task request (.revoke record expected gid) effective app receipt) :
    ∃ g, app.grants.get? gid = some g ∧ g.revoked = true := by
  obtain ⟨previous, hcached, hfingerprint, -⟩ := h.cached
  obtain ⟨op, receipt', effective', rfl, hreports⟩ := hminted _ _ hcached
  obtain rfl := hfingerprints.mutation_injective hfingerprint
  obtain ⟨t, r, -, -, -, hkind⟩ := hvalid.receipts _ _ hcached
  obtain ⟨gid', g, hgrant, hg, -, hrevoked⟩ := hkind
  change receipt'.grant = some gid' at hgrant
  rw [hreports.grant _ _ _ rfl, Option.some.injEq] at hgrant
  exact ⟨g, hgrant ▸ hg, hrevoked⟩

theorem Replayed.deleted {ctx : AuthenticatedContext} {task request record : Uuid} {expected : UInt64}
    {effective : Time} {receipt : Receipt} (hfingerprints : P.Fingerprints) (hvalid : app.Valid P)
    (hminted : app.Minted P)
    (h : Replayed P ctx task request (.delete record expected) effective app receipt) :
    ∃ r, app.records.get? record = some r ∧ r.deleted = true := by
  obtain ⟨previous, hcached, hfingerprint, -⟩ := h.cached
  obtain ⟨op, receipt', effective', rfl, hreports⟩ := hminted _ _ hcached
  obtain rfl := hfingerprints.mutation_injective hfingerprint
  obtain ⟨t, r, -, hr, -, hdeleted, -⟩ := hvalid.receipts _ _ hcached
  change app.records.get? receipt'.record = some r at hr
  rw [hreports.record _ rfl] at hr
  exact ⟨r, hr, hdeleted⟩

end Application

theorem Fleet.Reachable.minted {fleet : Fleet} (hids : P.FreshIds) (hseals : P.Seals)
    (h : Fleet.Reachable P fleet) : Spread P (Minted P) fleet :=
  h.spread hids hseals (keeps_minted hids) nofun fun hcopy hprepare =>
    minted_of_closed hcopy (prepareRestored_eq_ok hprepare).2.1

/-! What is over after an answer. -/

/-- No call under the task gets anything, and nothing is accessed through a grant issued under
it. -/
structure TaskEnded (P : Platform) (fleet : Fleet) (i : Nat) (T : Uuid) : Prop where
  calls : ∀ call faults, call.task = some T → (fleet.step P i call faults).2.granted = false
    ∧ (fleet.step P i call faults).1.session.handoffs = fleet.session.handoffs
  grants : ∀ call task faults app, call.task = some task → fleet.Consults P i call faults app →
    ∀ gid g, app.grants.get? gid = some g → g.issuerTask = T → app.Dead g

/-- Nothing is accessed through the grant. -/
def GrantEnded (P : Platform) (fleet : Fleet) (i : Nat) (gid : Uuid) : Prop :=
  ∀ call faults app, fleet.Consults P i call faults app → ∀ g, app.grants.get? gid = some g → app.Dead g

/-- Nothing of the record is disclosed, it is held for no call, and nothing is accessed through
its grants. -/
structure RecordEnded (P : Platform) (fleet : Fleet) (i : Nat) (record : Uuid) : Prop where
  calls : ∀ call faults, call.discloses = some record → (fleet.step P i call faults).2.granted = false
    ∧ (fleet.step P i call faults).1.session.handoffs = fleet.session.handoffs
  held : ∀ call faults app, fleet.Consults P i call faults app → ∀ ctx r, ¬ RecordHeld app ctx record r
  grants : ∀ call faults app, fleet.Consults P i call faults app →
    ∀ gid g, app.grants.get? gid = some g → g.record = record → app.Dead g

section Ended

variable {fleet fleet' : Fleet} {i : Nat} {faults : List Fault} {T : Uuid} {ctx : AuthenticatedContext}
  {task request record gid : Uuid} {expected : UInt64} {now : Time} {receipt : Receipt}

/-- A call that gets nothing. -/
theorem nothing_of_not {call : Call}
    (h : ¬ ((fleet.step P i call faults).2.granted = true
      ∨ (fleet.step P i call faults).1.session.handoffs ≠ fleet.session.handoffs)) :
    (fleet.step P i call faults).2.granted = false
      ∧ (fleet.step P i call faults).1.session.handoffs = fleet.session.handoffs := by
  rw [not_or, Bool.not_eq_true, not_not] at h
  exact h

theorem Call.not_approves {call : Call} (h : call.task = some task) : ¬ call.Approves T := by
  rintro ⟨admin, t, now, rfl, -⟩
  cases h

theorem task_ended {admin : AuthenticatedContext} (hids : P.FreshIds) (hseals : P.Seals)
    (hreach : Fleet.Reachable P fleet)
    (h : (fleet.step P i (.revokeTask admin T now) faults).2 = .done (.ok ()))
    (hruns : Fleet.Runs P (fun mid j call => j = i → ¬ Reapproved mid i T call)
      (fleet.step P i (.revokeTask admin T now) faults).1 fleet') : TaskEnded P fleet' i T := by
  obtain ⟨owner, owner', hanswered⟩ := answered_apply (P := P) (i := i)
    (operates_revokeTask admin T now) (by simp) (by simp) h
  obtain ⟨effective, -, hrevoked⟩ := proposal_ok (wp_revokeTask admin T now owner.staged) hanswered.proposal
  have hdead : (owner.proposal (Application.revokeTask admin T now)).2.TaskDead T := by
    intro t _
    rw [hrevoked.result]
    exact Finset.mem_insert_self _ _
  have hlawful := (hanswered.lawful hids hseals hreach (hreach.step i _ faults) (Nat.zero_le _)
    (fun _ _ _ h => h) hdead).taskDead hids hseals hruns
  have hconsults : ∀ {call : Call} {task faults' app}, call.task = some task →
      fleet'.Consults P i call faults' app → app.TaskDead T := fun hcall hconsults =>
    (hlawful.consults hids hseals (keeps_taskDead (Call.not_approves hcall)) (fun _ _ _ h => h) hconsults).2
  refine ⟨fun call faults' hcall => nothing_of_not fun hgranted => ?_,
    fun call task faults' app hcall happ gid g _ hissuer => (hconsults hcall happ).grant hissuer⟩
  obtain ⟨owner, ctx, now, effective, hadmitted⟩ := admitted hcall hgranted
  obtain ⟨t, ht⟩ := hadmitted.task
  have hstaged : fleet'.Consults P i call faults' (owner.staged.ticked now) :=
    .staged hadmitted.held hadmitted.sampled
  exact (hconsults hcall hstaged).not_held ht

/-- The application a call is staged on is valid, and its receipts are honest. -/
theorem staged_minted (hids : P.FreshIds) (hseals : P.Seals) (hreach : Fleet.Reachable P fleet)
    {owner : DurableVault} {effective : Time} (howner : (fleet.stores i).owner = some owner)
    (heff : owner.staged.effectiveTime now = .ok effective) :
    (owner.staged.ticked now).Valid P ∧ (owner.staged.ticked now).Minted P := by
  have hkept := (hreach.minted hids hseals).stores i
  have hvalid := hkept.valid owner howner
  have hlasting := hkept.lasting owner howner
  refine ⟨(staged_lasting hvalid hlasting).1.ticked heff, fun key c hc => ?_⟩
  rw [ticked_requests] at hc
  have hminted : owner.staged.Minted P := by
    unfold DurableVault.staged
    split_ifs
    · exact (keeps_minted hids .close).compacted hvalid hlasting (hkept.holds owner howner)
    · exact hkept.holds owner howner
  exact hminted key c hc

theorem grant_ended (hids : P.FreshIds) (hseals : P.Seals) (hfingerprints : P.Fingerprints)
    (hreach : Fleet.Reachable P fleet)
    (h : (fleet.step P i (.mutate ctx task request (.revoke record expected gid) now) faults).2
      = .receipt (.ok receipt))
    (hruns : Fleet.Runs P (fun _ _ _ => True)
      (fleet.step P i (.mutate ctx task request (.revoke record expected gid) now) faults).1 fleet') :
    GrantEnded P fleet' i gid := by
  obtain ⟨owner, candidate, effective, since, base, howner, heff, hran, ⟨generation, rfl⟩, hlasting,
    hlawful⟩ := mutated_lawful hids hseals hreach h
  have hgone : ∃ g, candidate.grants.get? gid = some g ∧ g.revoked = true := by
    rcases hran with hexec | ⟨hreplayed, rfl⟩
    · exact hexec.revoked
    · obtain ⟨hvalid, hminted⟩ := staged_minted hids hseals hreach howner heff
      exact hreplayed.revoked hfingerprints hvalid hminted
  obtain ⟨g₀, hg₀, hrevoked⟩ := hgone
  intro call faults' app hconsults g hg
  obtain ⟨-, hevolves⟩ := hlawful.evolves hids hseals hruns hconsults
  exact dead_of_revoked ((hevolves.follows hids hlasting hg₀ hg).2 hrevoked)

theorem record_ended (hids : P.FreshIds) (hseals : P.Seals) (hfingerprints : P.Fingerprints)
    (hreach : Fleet.Reachable P fleet)
    (h : (fleet.step P i (.mutate ctx task request (.delete record expected) now) faults).2
      = .receipt (.ok receipt))
    (hruns : Fleet.Runs P (fun _ _ _ => True)
      (fleet.step P i (.mutate ctx task request (.delete record expected) now) faults).1 fleet') :
    RecordEnded P fleet' i record := by
  obtain ⟨owner, candidate, effective, since, base, howner, heff, hran, ⟨generation, rfl⟩, hlasting,
    hlawful⟩ := mutated_lawful hids hseals hreach h
  have hgone : ∃ r, candidate.records.get? record = some r ∧ r.deleted = true := by
    rcases hran with hexec | ⟨hreplayed, rfl⟩
    · exact hexec.deleted
    · obtain ⟨hvalid, hminted⟩ := staged_minted hids hseals hreach howner heff
      exact hreplayed.deleted hfingerprints hvalid hminted
  obtain ⟨r₀, hr₀, hdeleted⟩ := hgone
  have hlater : ∀ {call faults' app}, fleet'.Consults P i call faults' app → app.Valid P
      ∧ ∀ r, app.records.get? record = some r → r.deleted = true := by
    intro call faults' app hconsults
    obtain ⟨hvalid, hevolves⟩ := hlawful.evolves hids hseals hruns hconsults
    exact ⟨hvalid, fun r hr => (hevolves.grows hids hlasting hr₀ hr).deleted hdeleted⟩
  have hheld : ∀ {call faults' app}, fleet'.Consults P i call faults' app →
      ∀ ctx r, ¬ RecordHeld app ctx record r := by
    intro call faults' app hconsults ctx r hheld
    have hlive := hheld.live
    rw [(hlater hconsults).2 r hheld.found] at hlive
    cases hlive
  refine ⟨fun call faults' hcall => nothing_of_not fun hgranted => ?_, fun _ _ _ => hheld, ?_⟩
  · obtain ⟨task, htask⟩ : ∃ task, call.task = some task := by
      cases call <;> first | exact ⟨_, rfl⟩ | cases hcall
    obtain ⟨owner, ctx, now, effective, hadmitted⟩ := admitted htask hgranted
    obtain ⟨r, hr⟩ := hadmitted.record record hcall
    have hstaged : fleet'.Consults P i call faults' (owner.staged.ticked now) :=
      .staged hadmitted.held hadmitted.sampled
    exact hheld hstaged ctx r hr
  · intro call faults' app hconsults gid g hg hsame
    obtain ⟨hvalid, hgone⟩ := hlater hconsults
    obtain ⟨r, t, hr, -, hsound⟩ := hvalid.grants gid g hg
    rw [hsame] at hr
    exact dead_of_revoked (hsound.dead (hgone r hr))

end Ended

/-- Only a human re-approves, and only a task the vault has dropped. -/
theorem Reapproved.dropped {fleet : Fleet} {i : Nat} {T : Uuid} {call : Call} (h : Reapproved fleet i T call) :
    ∃ admin t now owner, call = .approveTask admin t now ∧ t.id = T ∧ admin.admin = true
      ∧ (fleet.stores i).owner = some owner ∧ owner.staged.tasks.get? T = none := by
  obtain ⟨admin, t, now, owner, hcall, rfl, howner, hok⟩ := h
  unfold DurableVault.proposal at hok
  split at hok
  · rename_i next hrun
    obtain ⟨effective, -, happroved⟩ := approveTask_eq_ok.mp hrun
    have hfresh := happroved.fresh
    rw [ticked_tasks] at hfresh
    exact ⟨admin, t, now, owner, hcall, rfl, happroved.is_admin, howner, hfresh⟩
  · cases hok

/-- Revocation is permanent, through every compaction, crash, restart, rekey, backup and recovery:
a revoked task ends everything under it and every grant issued under it until a human approves
a task of that id again, which takes a vault that has dropped it, and a revoked grant
and a deleted record are over for good. -/
theorem revocation_permanent (hids : P.FreshIds) (hseals : P.Seals) (hfingerprints : P.Fingerprints)
    {fleet : Fleet} (hreach : Fleet.Reachable P fleet) (i : Nat) :
    (∀ admin T now faults fleet',
      (fleet.step P i (.revokeTask admin T now) faults).2 = .done (.ok ()) →
      Fleet.Runs P (fun mid j call => j = i → ¬ Reapproved mid i T call)
        (fleet.step P i (.revokeTask admin T now) faults).1 fleet' → TaskEnded P fleet' i T)
    ∧ (∀ ctx task request record expected gid now faults receipt fleet',
      (fleet.step P i (.mutate ctx task request (.revoke record expected gid) now) faults).2
        = .receipt (.ok receipt) →
      Fleet.Runs P (fun _ _ _ => True)
        (fleet.step P i (.mutate ctx task request (.revoke record expected gid) now) faults).1 fleet' →
      GrantEnded P fleet' i gid)
    ∧ (∀ ctx task request record expected now faults receipt fleet',
      (fleet.step P i (.mutate ctx task request (.delete record expected) now) faults).2
        = .receipt (.ok receipt) →
      Fleet.Runs P (fun _ _ _ => True)
        (fleet.step P i (.mutate ctx task request (.delete record expected) now) faults).1 fleet' →
      RecordEnded P fleet' i record)
    ∧ ∀ mid T call, Reapproved mid i T call → ∃ admin t now owner, call = .approveTask admin t now
      ∧ t.id = T ∧ admin.admin = true ∧ (mid.stores i).owner = some owner
      ∧ owner.staged.tasks.get? T = none :=
  ⟨fun _ _ _ _ _ h hruns => task_ended hids hseals hreach h hruns,
    fun _ _ _ _ _ _ _ _ _ _ h hruns => grant_ended hids hseals hfingerprints hreach h hruns,
    fun _ _ _ _ _ _ _ _ _ h hruns => record_ended hids hseals hfingerprints hreach h hruns,
    fun _ _ _ h => h.dropped⟩

/-- The vault in which Alice has also shared the password with Bob. -/
def sharingVault : Fleet :=
  (importedVault.step .reference 0
    (.mutate (.fromAuthenticatedPeer "owner" "alice" "home") 1 6 (.share 6 1 pinnedSpec) 5) []).1

theorem sharingVault_reachable : Fleet.Reachable .reference sharingVault := importedVault_reachable.step 0 _ []

theorem revocation_permanent_sharingVault :
    (∀ fleet', Fleet.Runs .reference (fun mid j call => j = 0 → ¬ Reapproved mid 0 1 call)
      (sharingVault.step .reference 0
        (.revokeTask (.fromAuthenticatedAdmin "owner" "human" "home") 1 6) []).1 fleet' →
      TaskEnded .reference fleet' 0 1)
    ∧ (∀ fleet', Fleet.Runs .reference (fun _ _ _ => True)
      (sharingVault.step .reference 0
        (.mutate (.fromAuthenticatedPeer "owner" "alice" "home") 1 7 (.revoke 6 2 9) 6) []).1 fleet' →
      GrantEnded .reference fleet' 0 9)
    ∧ ∀ fleet', Fleet.Runs .reference (fun _ _ _ => True)
      (sharingVault.step .reference 0
        (.mutate (.fromAuthenticatedAdmin "owner" "alice" "home") 1 8 (.delete 6 2) 6) []).1 fleet' →
      RecordEnded .reference fleet' 0 6 := by
  have hrevoked : (sharingVault.step .reference 0
      (.revokeTask (.fromAuthenticatedAdmin "owner" "human" "home") 1 6) []).2.carried = true := by decide +kernel
  have hgrant : (sharingVault.step .reference 0
      (.mutate (.fromAuthenticatedPeer "owner" "alice" "home") 1 7 (.revoke 6 2 9) 6) []).2.issued.isSome
        = true := by decide +kernel
  have hdeleted : (sharingVault.step .reference 0
      (.mutate (.fromAuthenticatedAdmin "owner" "alice" "home") 1 8 (.delete 6 2) 6) []).2.issued.isSome
        = true := by decide +kernel
  obtain ⟨grantReceipt, hgrant⟩ := Option.isSome_iff_exists.mp hgrant
  obtain ⟨deleteReceipt, hdeleted⟩ := Option.isSome_iff_exists.mp hdeleted
  obtain ⟨htask, hgrants, hrecords, -⟩ := revocation_permanent Platform.reference_freshIds
    Platform.reference_seals Platform.reference_fingerprints sharingVault_reachable 0
  refine ⟨fun fleet' => ?_, fun fleet' => ?_, fun fleet' => ?_⟩
  · exact htask _ _ _ _ fleet' (Answer.carried_eq_true hrevoked)
  · exact hgrants _ _ _ _ _ _ _ _ _ fleet' (Answer.issued_eq_some hgrant)
  · exact hrecords _ _ _ _ _ _ _ _ fleet' (Answer.issued_eq_some hdeleted)

end Credman
