import Credman.Advance
import Credman.Delivery

/-! Every change an operation of the owner can make to an application, in one
relation: each fact about runs is one case analysis of it. -/
namespace Credman

open Library Library.Checked

namespace Application

variable {P : Platform} {app next : Application} {id : Uuid}

/-- The application after one operation, which may have used the fresh identifier `id`. -/
inductive Operated (P : Platform) (id : Uuid) (app : Application) : Application → Prop
  | clockOnly {now : Time} {next : Application} (h : app.ClockOnly now next) :
    Operated P id app next
  | approved {admin : AuthenticatedContext} {t : TaskApproval} {now effective : Time}
      {next : Application} (heff : app.effectiveTime now = .ok effective)
      (h : Approved admin t effective (app.ticked now) next) : Operated P id app next
  | revoked {admin : AuthenticatedContext} {task : Uuid} {now effective : Time}
      {next : Application} (heff : app.effectiveTime now = .ok effective)
      (h : TaskRevoked admin task (app.ticked now) next) : Operated P id app next
  | executed {ctx : AuthenticatedContext} {task request : Uuid} {op : Mutation} {draw : Draw}
      {now effective : Time} {receipt : Receipt} {next : Application} (hid : draw.id = id)
      (heff : app.effectiveTime now = .ok effective)
      (h : Executed P ctx task request op draw effective (app.ticked now) receipt next) :
    Operated P id app next
  | logged {now effective : Time} (heff : app.effectiveTime now = .ok effective)
      (event : AuditEvent) : Operated P id app ((app.ticked now).pushAudit event)
  | prepared {ctx : AuthenticatedContext} {task : Uuid} {use : PrivateUse} {now effective : Time}
      {next : Application} (heff : app.effectiveTime now = .ok effective)
      (h : Prepared P ctx task use id effective (app.ticked now) next) : Operated P id app next
  | withdrawn {use : PrivateUse} {attempt : Uuid} {next : Application}
      (h : Settled use attempt withdrawn (signupWithdrawn use.action) app next) :
    Operated P id app next
  | finished {use : PrivateUse} {attempt : Uuid} {status : DeliveryStatus} {next : Application}
      (h : Settled use attempt (fun d => { d with status := some status })
        (signupAfter use.action status) app next) : Operated P id app next
  | reported {use : PrivateUse} {attempt : Uuid} {status : DeliveryStatus} {next : Application}
      (h : Settled use attempt (fun d => { d with status := some status })
        (signupAfter use.action status) app next) (event : AuditEvent) :
    Operated P id app (next.pushAudit event)

section Operations

variable {ctx admin : AuthenticatedContext} {task request record attempt : Uuid} {now : Time}
  {fields : Fields}

/-- An operation as a state transformer: whatever it returns, it has made one such change. -/
def Operates {α : Type} (P : Platform) (id : Uuid) (operation : AppM α) : Prop :=
  ∀ app, wp operation (fun _ next => Operated P id app next) (fun _ next => Operated P id app next) app

theorem operates_approveTask (admin : AuthenticatedContext) (t : TaskApproval) (now : Time) :
    Operates P id (approveTask admin t now) := by
  intro app
  cases hrun : approveTask admin t now app with
  | ok u next =>
    obtain ⟨effective, heff, happroved⟩ := approveTask_eq_ok.mp hrun
    unfold wp
    rw [hrun]
    exact .approved heff happroved
  | error e next =>
    unfold wp
    rw [hrun]
    exact .clockOnly (approveTask_error hrun)

theorem operates_revokeTask (admin : AuthenticatedContext) (task : Uuid) (now : Time) :
    Operates P id (revokeTask admin task now) := fun app =>
  wp_mono (wp_revokeTask admin task now app)
    (fun _ _ ⟨_, heff, hrevoked⟩ => .revoked heff hrevoked) fun _ _ hclock => .clockOnly hclock

theorem operates_mutate (ctx : AuthenticatedContext) (task request : Uuid) (op : Mutation)
    (now : Time) {draw : Draw} (hid : draw.id = id) :
    Operates P id (mutate P ctx task request op now draw) := by
  intro app
  apply wp_mono (wp_mutate P ctx task request op now draw app)
  · rintro receipt next ⟨effective, heff, hexec | ⟨-, rfl⟩⟩
    · exact .executed hid heff hexec
    · exact .clockOnly (.ticked heff)
  · exact fun _ next hclock => .clockOnly hclock

theorem operates_metadata (ctx : AuthenticatedContext) (task record : Uuid) (fields : Fields)
    (now : Time) : Operates P id (metadata ctx task record fields now) := by
  intro app
  apply wp_mono (wp_metadata ctx task record fields now app)
  · rintro view next ⟨effective, heff, values, t, r, -, -, rfl⟩
    exact .logged heff _
  · exact fun _ next hclock => .clockOnly hclock

theorem operates_readSecret (ctx : AuthenticatedContext) (task record : Uuid) (fields : Fields)
    (now : Time) : Operates P id (readSecret ctx task record fields now) := by
  intro app
  apply wp_mono (wp_readSecret ctx task record fields now app)
  · rintro view next ⟨effective, heff, t, r, -, rfl⟩
    exact .logged heff _
  · exact fun _ next hclock => .clockOnly hclock

/-- A second look at the clock, at the effective time of the first, changes nothing. -/
theorem clockOnly_ticked {effective : Time} (heff : app.effectiveTime now = .ok effective)
    (h : (app.ticked now).ClockOnly effective next) : next = app.ticked now := by
  obtain ⟨hagain, hsame⟩ := effectiveTime_ticked heff
  cases h with
  | ticked => exact hsame
  | frozen herr =>
    rw [hagain] at herr
    cases herr

theorem operates_importClosure (admin : AuthenticatedContext) (task request : Uuid)
    (kind : CredentialKind) (values : SecretInput) (now : Time) {draw : Draw} (hid : draw.id = id) :
    Operates P id (DurableVault.importClosure P admin task request kind values now draw) := by
  intro app
  simp only [DurableVault.importClosure, wp_bind, wp_clock, wp_get, wp_liftExcept]
  refine ⟨fun effective heff => ⟨fun ctx _ => ?_, fun _ _ => .clockOnly (.ticked heff)⟩,
    fun e he => .clockOnly (.frozen he)⟩
  obtain ⟨hagain, hsame⟩ := effectiveTime_ticked heff
  apply wp_mono (wp_mutate P ctx task request (.create kind values) effective draw (app.ticked now))
  · rintro receipt next ⟨effective', heff', hexec⟩
    rw [hagain, Except.ok.injEq] at heff'
    subst heff'
    rw [hsame] at hexec
    rcases hexec with hexec | ⟨-, rfl⟩
    · exact .executed hid heff hexec
    · exact .clockOnly (.ticked heff)
  · intro e next hclock
    rw [clockOnly_ticked heff hclock]
    exact .clockOnly (.ticked heff)

theorem operates_readClosure (admin : AuthenticatedContext) (task record : Uuid)
    (fields : Fields) (now : Time) :
    Operates P id (DurableVault.readClosure admin task record fields now) := by
  intro app
  simp only [DurableVault.readClosure, wp_bind, wp_clock, wp_get, wp_liftExcept]
  refine ⟨fun effective heff => ⟨fun ctx _ => ?_, fun _ _ => .clockOnly (.ticked heff)⟩,
    fun e he => .clockOnly (.frozen he)⟩
  obtain ⟨hagain, hsame⟩ := effectiveTime_ticked heff
  apply wp_mono (wp_readSecret ctx task record fields effective (app.ticked now))
  · rintro view next ⟨effective', -, t, r, -, rfl⟩
    rw [hsame]
    exact .logged heff _
  · intro e next hclock
    rw [clockOnly_ticked heff hclock]
    exact .clockOnly (.ticked heff)

theorem operates_usePrepare (ctx : AuthenticatedContext) (task : Uuid) (use : PrivateUse)
    (now : Time) : Operates P id (usePrepare P ctx task use id now) := by
  intro app
  apply wp_mono (wp_usePrepare P ctx task use id now app)
  · rintro out next ⟨effective, heff, ⟨-, hprepared⟩ | ⟨receipt, -, -, rfl⟩⟩
    · exact .prepared heff hprepared
    · exact .clockOnly (.ticked heff)
  · exact fun _ next hclock => .clockOnly hclock

theorem operates_useCancel (use : PrivateUse) (attempt : Uuid) :
    Operates P id (useCancel use attempt) := fun app =>
  wp_mono (wp_useCancel use attempt app) (fun _ _ h => .withdrawn h.1) fun _ _ h => .withdrawn h

theorem operates_useFinish (ctx : AuthenticatedContext) (task : Uuid) (use : PrivateUse)
    (attempt : Uuid) (status : DeliveryStatus) (effective : Time) :
    Operates P id (useFinish ctx task use attempt status effective) := by
  intro app
  apply wp_mono (wp_useFinish ctx task use attempt status effective app)
  · rintro - next ⟨d, r, hd, hr, rfl⟩
    exact .reported (.done hd hr) _
  · rintro e next (⟨rfl, hd⟩ | ⟨d, hd, hr, rfl⟩)
    · have hmissing : Settled use attempt (fun d => { d with status := some status })
          (signupAfter use.action status) next next := .missing hd
      exact .finished hmissing
    · exact .finished (.orphan hd hr)

end Operations

/-! The identifiers an application names are among those drawn. -/

/-- Some record, grant or delivery has this identifier. -/
def Names (app : Application) (id : Uuid) : Prop :=
  (∃ r, app.records.get? id = some r) ∨ (∃ g, app.grants.get? id = some g)
    ∨ ∃ d, app.deliveries.get? id = some d

theorem Names.of_eq (hrecords : next.records = app.records) (hgrants : next.grants = app.grants)
    (hdeliveries : next.deliveries = app.deliveries) {other : Uuid} :
    next.Names other ↔ app.Names other := by
  unfold Names
  rw [hrecords, hgrants, hdeliveries]

@[simp] theorem names_ticked {now : Time} {other : Uuid} :
    (app.ticked now).Names other ↔ app.Names other :=
  Names.of_eq (by simp) (by simp) (by simp)

theorem ClockOnly.names {now : Time} (h : app.ClockOnly now next) {other : Uuid} :
    next.Names other ↔ app.Names other := by
  cases h with
  | ticked => exact names_ticked
  | frozen => exact Names.of_eq rfl rfl rfl

theorem some_of_insert {V : Type} {m : OrdMap Uuid V} {key other : Uuid} {v : V}
    (h : ∃ w, (m.insert key v).get? other = some w) :
    (∃ w, m.get? other = some w) ∨ other = key := by
  obtain ⟨w, hw⟩ := h
  rw [OrdMap.get?_insert] at hw
  split_ifs at hw with heq
  · exact .inr heq.symm
  · exact .inl ⟨w, hw⟩

/-- A change of something that is already named names nothing new. -/
theorem some_of_insert_some {V : Type} {m : OrdMap Uuid V} {key other : Uuid} {v old : V}
    (hold : m.get? key = some old) (h : ∃ w, (m.insert key v).get? other = some w) :
    ∃ w, m.get? other = some w := by
  rcases some_of_insert h with h | rfl
  · exact h
  · exact ⟨old, hold⟩

theorem Performed.names {ctx : AuthenticatedContext} {t : TaskApproval} {task : Uuid}
    {draw : Draw} {op : Mutation} {receipt : Receipt}
    (h : Performed ctx t task draw app op receipt next) {other : Uuid} (hnames : next.Names other) :
    app.Names other ∨ other = draw.id := by
  cases h with
  | create room => exact hnames.elim (fun hr => (some_of_insert hr).imp_left .inl) fun h => .inl (.inr h)
  | patch hr _ =>
    exact .inl (hnames.imp_left (some_of_insert_some hr))
  | reportOutcome hr => exact .inl (hnames.imp_left (some_of_insert_some hr))
  | share hr _ =>
    rcases hnames with hrec | hgrant | hdel
    · exact .inl (.inl (some_of_insert_some hr hrec))
    · exact (some_of_insert hgrant).imp_left fun h => .inr (.inl h)
    · exact .inl (.inr (.inr hdel))
  | revoke hr hg =>
    exact .inl (hnames.imp (some_of_insert_some hr) fun h => h.imp_left (some_of_insert_some hg))
  | delete hr =>
    refine .inl (hnames.imp (some_of_insert_some hr) fun h => h.imp_left ?_)
    rintro ⟨g, hg⟩
    change (app.grants.mapVals _).get? other = some g at hg
    rw [OrdMap.get?_mapVals, Option.map_eq_some_iff] at hg
    exact ⟨hg.choose, hg.choose_spec.1⟩

theorem Settled.names {use : PrivateUse} {attempt : Uuid}
    {change : DeliveryAttempt → DeliveryAttempt} {signup : SignupState → SignupState}
    (h : Settled use attempt change signup app next) {other : Uuid} (hnames : next.Names other) :
    app.Names other := by
  cases h with
  | missing => exact hnames
  | orphan hd _ => exact hnames.imp_right fun h => h.imp_right (some_of_insert_some hd)
  | done hd hr =>
    exact hnames.imp (some_of_insert_some hr) fun h => h.imp_right (some_of_insert_some hd)

/-- An operation names nothing new but the identifier it drew. -/
theorem Operated.names (h : Operated P id app next) {other : Uuid} (hnames : next.Names other) :
    app.Names other ∨ other = id := by
  cases h with
  | clockOnly h => exact .inl (h.names.mp hnames)
  | approved heff h =>
    rw [h.result] at hnames
    exact .inl (names_ticked.mp hnames)
  | revoked heff h =>
    rw [h.result] at hnames
    exact .inl (names_ticked.mp hnames)
  | @executed ctx task request op draw now effective receipt next hid heff h =>
    obtain ⟨t, mid, op', -, -, -, -, hperformed, rfl⟩ := h.change
    rw [← hid]
    exact (hperformed.names hnames).imp_left names_ticked.mp
  | logged heff event => exact .inl (names_ticked.mp hnames)
  | prepared heff h =>
    obtain ⟨values, t, r, husable, rfl⟩ := h.usable
    have hr := husable.selected.record.found
    unfold Application.prepared at hnames
    split_ifs at hnames with hregister
    · rcases hnames with hrec | hgrant | hdel
      · exact .inl (names_ticked.mp (.inl (some_of_insert_some hr hrec)))
      · exact .inl (names_ticked.mp (.inr (.inl hgrant)))
      · exact (some_of_insert hdel).imp_left fun h => names_ticked.mp (.inr (.inr h))
    · rcases hnames with hrec | hgrant | hdel
      · exact .inl (names_ticked.mp (.inl hrec))
      · exact .inl (names_ticked.mp (.inr (.inl hgrant)))
      · exact (some_of_insert hdel).imp_left fun h => names_ticked.mp (.inr (.inr h))
  | withdrawn h => exact .inl (h.names hnames)
  | finished h => exact .inl (h.names hnames)
  | reported h event => exact .inl (h.names hnames)

/-- An operation never sets the clock back. -/
theorem Operated.lastTime (h : Operated P id app next) : ∀ last, app.lastTime = some last →
    ∃ later, next.lastTime = some later ∧ last ≤ later := by
  have hticked : ∀ {now effective : Time}, app.effectiveTime now = .ok effective →
      ∀ last, app.lastTime = some last →
        ∃ later, (app.ticked now).lastTime = some later ∧ last ≤ later := by
    intro now effective heff last hlast
    obtain ⟨hnext, -, hmono, -⟩ := lastTime_ticked heff
    exact ⟨effective, hnext, hmono last hlast⟩
  have hsame : ∀ {next : Application}, next.lastTime = app.lastTime →
      ∀ last, app.lastTime = some last → ∃ later, next.lastTime = some later ∧ last ≤ later := by
    intro next heq last hlast
    exact ⟨last, heq.trans hlast, le_refl _⟩
  cases h with
  | clockOnly h =>
    cases h with
    | ticked heff => exact hticked heff
    | frozen => exact hsame rfl
  | approved heff h | revoked heff h =>
    rw [h.result]
    exact hticked heff
  | @executed _ _ _ _ _ now _ _ _ hid heff h =>
    obtain ⟨t, mid, op, -, -, -, -, hperformed, rfl⟩ := h.change
    have hmid : mid.lastTime = (app.ticked now).lastTime := by cases hperformed <;> rfl
    intro last hlast
    obtain ⟨later, hlater, hle⟩ := hticked heff last hlast
    exact ⟨later, hmid.trans hlater, hle⟩
  | logged heff event => exact hticked heff
  | prepared heff h =>
    obtain ⟨values, t, r, -, rfl⟩ := h.usable
    unfold Application.prepared
    split_ifs
    · exact hticked heff
    · exact hticked heff
  | withdrawn h | finished h => exact hsame (by cases h <;> rfl)
  | reported h event => exact hsame (by cases h <;> rfl)

end Application

end Credman
