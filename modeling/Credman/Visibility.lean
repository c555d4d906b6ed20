import Credman.Retention
import Credman.Workflow
import Credman.Access

/-! What compaction drops no check at a later time could have used. -/
namespace Credman

open Library

namespace Application

variable {app next last : Application}

/-- What is gone from `next` is of no use to a check at any later time. -/
structure Unseen (app next : Application) : Prop where
  lastTime : next.lastTime = app.lastTime
  clockFrozen : next.clockFrozen = app.clockFrozen
  tasks : ∀ id t, next.tasks.get? id = some t → app.tasks.get? id = some t
  task_dropped : ∀ id t, app.tasks.get? id = some t → next.tasks.get? id = none → app.taskOver id t
  revoked : ∀ id t, next.tasks.get? id = some t → (id ∈ next.revokedTasks ↔ id ∈ app.revokedTasks)
  records : ∀ id r, next.records.get? id = some r → app.records.get? id = some r
  record_dropped : ∀ id r, app.records.get? id = some r → next.records.get? id = none → r.deleted = true
  grants : ∀ id g, next.grants.get? id = some g → app.grants.get? id = some g
  grant_dropped : ∀ id g, app.grants.get? id = some g → next.grants.get? id = none → app.grantOver g
  registered : ∀ id r, next.records.get? id = some r →
    next.registrationSealed id = app.registrationSealed id

namespace Unseen

theorem refl (app : Application) : app.Unseen app where
  lastTime := rfl
  clockFrozen := rfl
  tasks _ _ h := h
  task_dropped id t h h' := by
    rw [h] at h'
    cases h'
  revoked _ _ _ := Iff.rfl
  records _ _ h := h
  record_dropped id r h h' := by
    rw [h] at h'
    cases h'
  grants _ _ h := h
  grant_dropped id g h h' := by
    rw [h] at h'
    cases h'
  registered _ _ _ := rfl

theorem grantOver (h : app.Unseen next) {g : Grant} : next.grantOver g ↔ app.grantOver g := by
  unfold Application.grantOver
  rw [h.lastTime]

theorem trans (h : app.Unseen next) (h' : next.Unseen last) : app.Unseen last where
  lastTime := h'.lastTime.trans h.lastTime
  clockFrozen := h'.clockFrozen.trans h.clockFrozen
  tasks id t ht := h.tasks id t (h'.tasks id t ht)
  task_dropped id t ht hnone := by
    cases hnext : next.tasks.get? id with
    | none => exact h.task_dropped id t ht hnext
    | some t' =>
      have hsame := h.tasks id t' hnext
      rw [ht, Option.some.injEq] at hsame
      subst hsame
      have hover := h'.task_dropped id t hnext hnone
      unfold taskOver at hover ⊢
      rwa [h.revoked id t hnext, h.lastTime] at hover
  revoked id t ht := (h'.revoked id t ht).trans (h.revoked id t (h'.tasks id t ht))
  records id r hr := h.records id r (h'.records id r hr)
  record_dropped id r hr hnone := by
    cases hnext : next.records.get? id with
    | none => exact h.record_dropped id r hr hnext
    | some r' =>
      have hsame := h.records id r' hnext
      rw [hr, Option.some.injEq] at hsame
      exact hsame ▸ h'.record_dropped id r' hnext hnone
  grants id g hg := h.grants id g (h'.grants id g hg)
  grant_dropped id g hg hnone := by
    cases hnext : next.grants.get? id with
    | none => exact h.grant_dropped id g hg hnext
    | some g' =>
      have hsame := h.grants id g' hnext
      rw [hg, Option.some.injEq] at hsame
      exact hsame ▸ h.grantOver.mp (h'.grant_dropped id g' hnext hnone)
  registered id r hr := (h'.registered id r hr).trans (h.registered id r (h'.records id r hr))

/-- A pass over the bookkeeping leaves everything a check looks at. -/
theorem of_eq (hlast : next.lastTime = app.lastTime) (hfrozen : next.clockFrozen = app.clockFrozen)
    (htasks : next.tasks = app.tasks)
    (hrevoked : next.revokedTasks = app.revokedTasks) (hrecords : next.records = app.records)
    (hgrants : next.grants = app.grants)
    (hregistered : ∀ id r, app.records.get? id = some r →
      next.registrationSealed id = app.registrationSealed id) : app.Unseen next where
  lastTime := hlast
  clockFrozen := hfrozen
  tasks _ _ h := htasks ▸ h
  task_dropped id t h h' := by
    rw [htasks, h] at h'
    cases h'
  revoked _ _ _ := by rw [hrevoked]
  records _ _ h := hrecords ▸ h
  record_dropped id r h h' := by
    rw [hrecords, h] at h'
    cases h'
  grants _ _ h := hgrants ▸ h
  grant_dropped id g h h' := by
    rw [hgrants, h] at h'
    cases h'
  registered id r hr := hregistered id r (hrecords ▸ hr)

end Unseen

theorem absorbAll_registrationDispatched (base : RecordBaseline) (folded : List (RequestKey × Remembered)) :
    (folded.foldl (fun base entry => base.absorb entry.2) base).registrationDispatched
      = base.registrationDispatched := by
  induction folded generalizing base with
  | nil => rfl
  | cons entry rest ih =>
    rw [List.foldl_cons, ih]
    unfold RecordBaseline.absorb
    cases entry.2.kind with
    | share =>
      cases entry.2.result.grant with
      | none => rfl
      | some grant =>
        dsimp only
        split_ifs <;> rfl
    | create | patch | delete | metadataPatch | revoke | reportOutcome => rfl

/-- Folding receipts changes no flag of a baseline. -/
theorem foldReceipts_unseen (app : Application) (id : Uuid) : app.Unseen (app.foldReceipts id) := by
  unfold foldReceipts
  dsimp only
  split_ifs with hempty
  · exact .refl app
  · refine .of_eq rfl rfl rfl rfl rfl rfl fun j r _ => ?_
    rw [Bool.eq_iff_iff, registrationSealed_iff, registrationSealed_iff]
    apply or_congr_left
    by_cases hj : id = j
    · subst hj
      simp [baseline, RecordBaseline.sortPruned, absorbAll_registrationDispatched]
    · simp [baseline, OrdMap.get?_insert_ne _ _ hj]

theorem GrantDropped.unseen {gid : Uuid} {g : Grant} (h : app.GrantDropped gid g next) : app.Unseen next := by
  have hgrants : ∀ id g', next.grants.get? id = some g' ↔ id ≠ gid ∧ app.grants.get? id = some g' :=
    fun _ _ => h.grants_some
  have hbaseline := h.baseline_eq
  rw [h.result] at hgrants hbaseline ⊢
  refine ⟨rfl, rfl, fun _ _ ht => ht, fun _ _ ht hnone => ?_, fun _ _ _ => Iff.rfl, fun _ _ hr => hr,
    fun _ _ hr hnone => ?_, fun id g' hg => ((hgrants id g').mp hg).2, fun id g' hg hnone => ?_,
    fun id r _ => ?_⟩
  · exact absurd (ht.symm.trans hnone) nofun
  · exact absurd (hr.symm.trans hnone) nofun
  · by_cases hid : id = gid
    · subst hid
      rw [h.found, Option.some.injEq] at hg
      exact hg ▸ h.lapsed
    · have hkept := (hgrants id g').mpr ⟨hid, hg⟩
      exact absurd (hkept.symm.trans hnone) nofun
  · rw [Bool.eq_iff_iff, registrationSealed_iff, registrationSealed_iff]
    apply or_congr_left
    rw [hbaseline id]

theorem dropGrant_unseen (app : Application) (gid : Uuid) : app.Unseen (app.dropGrant gid) := by
  rcases app.dropGrant_cases gid with ⟨heq, -⟩ | ⟨g, h⟩
  · rw [heq]
    exact .refl app
  · exact h.unseen

/-- A registration that is forgotten is sealed in the baseline of its record. -/
theorem DeliveryDropped.unseen {i : Uuid} {d : DeliveryAttempt} (h : app.DeliveryDropped i d next) :
    app.Unseen next := by
  have hdeliveries : ∀ j e, next.deliveries.get? j = some e ↔ j ≠ i ∧ app.deliveries.get? j = some e :=
    fun _ _ => h.deliveries_some
  have hbaseline := h.baseline_eq
  rw [h.result] at hdeliveries hbaseline ⊢
  refine .of_eq rfl rfl rfl rfl rfl rfl fun id r hr => ?_
  rw [Bool.eq_iff_iff, registrationSealed_iff, registrationSealed_iff, hbaseline id]
  simp only [Bool.or_eq_true, Bool.and_eq_true, beq_iff_eq]
  have hseals : app.sealsRegister d = true ↔ registers d = true ∧ app.records.contains d.record = true := by
    unfold sealsRegister registers
    rw [Bool.and_eq_true]
  constructor
  · rintro ((hflag | ⟨rfl, hsealed⟩) | ⟨j, e, he, hregisters, hrecord⟩)
    · exact .inl hflag
    · exact .inr ⟨i, d, h.found, (hseals.mp hsealed).1, rfl⟩
    · exact .inr ⟨j, e, ((hdeliveries j e).mp he).2, hregisters, hrecord⟩
  · rintro (hflag | ⟨j, e, he, hregisters, hrecord⟩)
    · exact .inl (.inl hflag)
    · by_cases hj : j = i
      · subst hj
        rw [h.found, Option.some.injEq] at he
        subst he
        exact .inl (.inr ⟨hrecord.symm, hseals.mpr ⟨hregisters,
          OrdMap.contains_iff.mpr ⟨r, hrecord ▸ hr⟩⟩⟩)
      · exact .inr ⟨j, e, (hdeliveries j e).mpr ⟨hj, he⟩, hregisters, hrecord⟩

theorem dropDelivery_unseen (app : Application) (i : Uuid) : app.Unseen (app.dropDelivery i) := by
  rcases app.dropDelivery_cases i with ⟨heq, -⟩ | ⟨d, h⟩
  · rw [heq]
    exact .refl app
  · exact h.unseen

theorem dropRecords_unseen (app : Application) : app.Unseen app.dropRecords := by
  have hdeleted : ∀ id ∈ (app.records.filter app.forgettable).keys, ∀ r,
      app.records.get? id = some r → r.deleted = true := by
    intro id hid r hr
    obtain ⟨r', hr'⟩ := OrdMap.mem_keys.mp hid
    rw [OrdMap.get?_filter, Option.filter_eq_some_iff, hr, Option.some.injEq] at hr'
    obtain ⟨rfl, hforgettable⟩ := hr'
    exact (forgettable_iff.mp hforgettable).1
  unfold dropRecords
  apply foldl_invariant fun _ next => app.Unseen next
  · exact .refl app
  · intro done id rest next heq hdone
    have hmem : id ∈ (app.records.filter app.forgettable).keys := by
      rw [heq]
      simp
    refine hdone.trans ⟨rfl, rfl, fun _ _ ht => ht, fun _ _ ht hnone => ?_, fun _ _ _ => Iff.rfl,
      fun j s hs => ?_, fun j s hs hnone => ?_, fun _ _ hg => hg, fun _ _ hg hnone => ?_, fun j s hs => ?_⟩
    · exact absurd (ht.symm.trans hnone) nofun
    · dsimp only at hs
      rw [OrdMap.get?_erase] at hs
      split_ifs at hs
      exact hs
    · dsimp only at hnone
      rw [OrdMap.get?_erase] at hnone
      split_ifs at hnone with hj
      · subst hj
        exact hdeleted id hmem s (hdone.records id s hs)
      · exact absurd (hs.symm.trans hnone) nofun
    · exact absurd (hg.symm.trans hnone) nofun
    · dsimp only at hs
      rw [OrdMap.get?_erase] at hs
      split_ifs at hs with hj
      unfold registrationSealed
      rw [OrdMap.get?_erase_ne _ hj]

theorem TasksDropped.unseen (h : app.TasksDropped next) : app.Unseen next := by
  have htasks := h.tasks
  have hrevoked := h.revoked
  rw [h.result] at htasks hrevoked ⊢
  have hsub : ∀ id t, next.tasks.get? id = some t → id ∉ app.removedTasks ∧ app.tasks.get? id = some t := by
    intro id t ht
    rw [htasks] at ht
    split_ifs at ht with hremoved
    exact ⟨hremoved, ht⟩
  refine ⟨rfl, rfl, fun id t ht => (hsub id t ht).2, fun id t ht hnone => ?_, fun id t ht => ?_, fun _ _ hr => hr,
    fun _ _ hr hnone => absurd (hr.symm.trans hnone) nofun, fun _ _ hg => hg,
    fun _ _ hg hnone => absurd (hg.symm.trans hnone) nofun, fun _ _ _ => rfl⟩
  · dsimp only at hnone
    rw [htasks] at hnone
    split_ifs at hnone with hremoved
    · obtain ⟨t', ht', -, hover⟩ := mem_removableTasks.mp (removedTasks_sub hremoved)
      rw [ht, Option.some.injEq] at ht'
      exact ht' ▸ hover
    · exact absurd (ht.symm.trans hnone) nofun
  · exact (hrevoked id).trans (and_iff_left ⟨t, ht⟩)

theorem retainAudit_unseen (app : Application) : app.Unseen app.retainAudit :=
  .of_eq rfl rfl rfl rfl rfl rfl fun _ _ _ => rfl

theorem pruneBaselines_unseen (app : Application) : app.Unseen app.pruneBaselines := by
  refine .of_eq rfl rfl rfl rfl rfl rfl fun id r hr => ?_
  have hcontains : app.records.contains id = true := OrdMap.contains_iff.mpr ⟨r, hr⟩
  have hflag : ∀ base : RecordBaseline,
      (app.pruneBaseline id base).registrationDispatched = base.registrationDispatched := by
    intro base
    unfold pruneBaseline
    dsimp only
    split_ifs <;> rfl
  unfold registrationSealed
  congr 1
  change ((((app.baselines.mapVals app.pruneBaseline).filter _).get? id).any _) = _
  rw [OrdMap.get?_filter, OrdMap.get?_mapVals, hcontains]
  cases app.baselines.get? id with
  | none => rfl
  | some base =>
    rw [Option.map_some, Option.any_some, ← hflag base]
    cases hregistered : (app.pruneBaseline id base).registrationDispatched with
    | true => simp [Option.filter, hregistered]
    | false =>
      simp only [Option.filter]
      split_ifs
      · exact hregistered
      · rfl

/-- Whatever the application, valid or not. -/
theorem compact_unseen (app : Application) : app.Unseen app.compact := by
  have hfold : ∀ {step : Application → Uuid → Application},
      (∀ (app : Application) (id : Uuid), app.Unseen (step app id)) →
      ∀ (ids : List Uuid) (app : Application), app.Unseen (ids.foldl step app) := by
    intro step hstep ids
    induction ids with
    | nil => exact .refl
    | cons id rest ih => exact fun app => (hstep app id).trans (ih _)
  unfold compact
  have hfolded := hfold foldReceipts_unseen app.records.keys app
  generalize app.records.keys.foldl foldReceipts app = folded at hfolded
  have hgranted := hfold dropGrant_unseen folded.grants.keys folded
  dsimp only
  generalize folded.grants.keys.foldl dropGrant folded = granted at hgranted
  have hdelivered := hfold dropDelivery_unseen granted.deliveries.keys granted
  generalize granted.deliveries.keys.foldl dropDelivery granted = delivered at hdelivered
  have hbefore := (((hfolded.trans hgranted).trans hdelivered).trans delivered.dropRecords_unseen).trans
    (tasksDropped delivered.dropRecords).unseen
  exact (hbefore.trans (retainAudit_unseen _)).trans (pruneBaselines_unseen _)

namespace Unseen

variable {ctx : AuthenticatedContext} {now : Time}

/-- What is over at the clock is over at any later time. -/
theorem expired_of_over (hlater : ∀ high, app.lastTime = some high → high ≤ now) {id : Uuid}
    {t : TaskApproval} (hover : app.taskOver id t) : id ∈ app.revokedTasks ∨ t.expiresAt ≤ now :=
  hover.imp_right fun ⟨high, hhigh, hle⟩ => hle.trans (hlater high hhigh)

theorem task_eq (h : app.Unseen next) (hlater : ∀ high, app.lastTime = some high → high ≤ now) (id : Uuid) :
    next.task ctx id now = app.task ctx id now := by
  unfold task
  cases hnext : next.tasks.get? id with
  | some t => simp only [h.tasks id t hnext, h.revoked id t hnext]
  | none =>
    cases happ : app.tasks.get? id with
    | none => rfl
    | some t =>
      have hover := expired_of_over hlater (h.task_dropped id t happ hnext)
      dsimp only
      rw [if_pos]
      rcases hover with hover | hover <;> simp [hover]

theorem record_eq (h : app.Unseen next) (id : Uuid) : next.record ctx id = app.record ctx id := by
  unfold record
  cases hnext : next.records.get? id with
  | some r => rw [h.records id r hnext]
  | none =>
    cases happ : app.records.get? id with
    | none => rfl
    | some r => simp [h.record_dropped id r happ hnext]

variable {r : Record} {t : TaskApproval} {permission : Permission} {fields : Fields}
  {destination : Option String}

/-- A grant that covers something now covers it before and after. -/
theorem covers_iff (h : app.Unseen next) (hlater : ∀ high, app.lastTime = some high → high ≤ now) :
    (∃ id g, next.grants.get? id = some g ∧ next.grantCovers ctx r permission fields destination now g = true)
    ↔ ∃ id g, app.grants.get? id = some g
      ∧ app.grantCovers ctx r permission fields destination now g = true := by
  simp only [grantCovers_iff]
  constructor
  · rintro ⟨id, g, hg, hrecord, hrevoked, hexpires, hversion, hissuer, ⟨issuer, hfound, hunexpired⟩, hrest⟩
    exact ⟨id, g, h.grants id g hg, hrecord, hrevoked, hexpires, hversion,
      fun hin => hissuer ((h.revoked _ issuer hfound).mpr hin),
      ⟨issuer, h.tasks _ issuer hfound, hunexpired⟩, hrest⟩
  · rintro ⟨id, g, hg, hrecord, hrevoked, hexpires, hversion, hissuer, ⟨issuer, hfound, hunexpired⟩, hrest⟩
    have hkept : next.grants.get? id = some g := by
      cases hnext : next.grants.get? id with
      | some g' =>
        rw [← hg, h.grants id g' hnext]
      | none =>
        rcases h.grant_dropped id g hg hnext with hdead | ⟨high, hhigh, hover⟩
        · rw [hrevoked] at hdead
          cases hdead
        · exact absurd hexpires (not_lt_of_ge (hover.trans (hlater high hhigh)))
    have hheld : next.tasks.get? g.issuerTask = some issuer := by
      cases hnext : next.tasks.get? g.issuerTask with
      | some t' => rw [← hfound, h.tasks _ t' hnext]
      | none =>
        rcases expired_of_over hlater (h.task_dropped _ issuer hfound hnext) with hdead | hover
        · exact absurd hdead hissuer
        · exact absurd hunexpired (not_lt_of_ge hover)
    exact ⟨id, g, hkept, hrecord, hrevoked, hexpires, hversion,
      fun hin => hissuer ((h.revoked _ issuer hheld).mp hin), ⟨issuer, hheld, hunexpired⟩, hrest⟩

theorem can_eq (h : app.Unseen next) (hlater : ∀ high, app.lastTime = some high → high ≤ now) :
    next.can ctx t r permission fields destination now = app.can ctx t r permission fields destination now := by
  rw [Bool.eq_iff_iff, can_iff, can_iff, h.covers_iff hlater]

theorem select_eq (h : app.Unseen next) (hlater : ∀ high, app.lastTime = some high → high ≤ now)
    {task record : Uuid} : next.select ctx task record fields permission destination now
      = app.select ctx task record fields permission destination now := by
  unfold select
  simp only [h.task_eq hlater, h.record_eq, h.can_eq hlater]

/-- A mutation is decided the same way, revocations apart: they name a grant. -/
theorem authorize_eq (h : app.Unseen next) (hlater : ∀ high, app.lastTime = some high → high ≤ now)
    {op : Mutation} (hop : op.cachedKind ≠ .revoke) :
    next.authorize ctx t op now false = app.authorize ctx t op now false := by
  have htarget : ∀ id r, next.authorizeTarget ctx t op id r now = app.authorizeTarget ctx t op id r now := by
    intro id r
    cases op with
    | revoke => exact absurd rfl hop
    | create | generate => rfl
    | patch | delete | reportOutcome => simp only [authorizeTarget, authorizePatch, h.can_eq hlater]
    | share => simp only [authorizeTarget, authorizeShare, h.can_eq hlater]
  -- a record that is gone was deleted
  have hrecords : ∀ id, next.records.get? id = app.records.get? id ∨ next.records.get? id = none
      ∧ ∃ r, app.records.get? id = some r ∧ r.deleted = true := by
    intro id
    cases hnext : next.records.get? id with
    | some r => exact .inl (h.records id r hnext).symm
    | none =>
      cases happ : app.records.get? id with
      | none => exact .inl rfl
      | some r => exact .inr ⟨rfl, r, rfl, h.record_dropped id r happ hnext⟩
  cases op with
  | revoke => exact absurd rfl hop
  | create | generate => rfl
  | patch id | delete id | share id | reportOutcome id =>
    rcases hrecords id with heq | ⟨hnone, r, hr, hdeleted⟩
    · simp only [authorize, heq, htarget]
    · simp [authorize, hnone, hr, hdeleted]

theorem effectiveTime_eq (h : app.Unseen next) (now : Time) : next.effectiveTime now = app.effectiveTime now := by
  unfold effectiveTime
  rw [h.lastTime, h.clockFrozen]

end Unseen

/-- What an operation answers. -/
def answers {α : Type} (operation : AppM α) (app : Application) : Except Error α :=
  match operation.run app with
  | .ok a _ => .ok a
  | .error e _ => .error e

theorem answers_of_wp {α : Type} {operation : AppM α} {result : Except Error α}
    (h : wp operation (fun a _ => result = .ok a) (fun e _ => result = .error e) app) :
    answers operation app = result := by
  unfold answers
  cases hrun : operation.run app with
  | ok a next => exact (wp_ok h hrun).symm
  | error e next => exact (wp_error h hrun).symm

section Disclosures

theorem ok_bind {α β : Type} (a : α) (f : α → Except Error β) : (Except.ok a >>= f) = f a := rfl

theorem error_bind {α β : Type} (e : Error) (f : α → Except Error β) :
    (Except.error e >>= f) = Except.error e := rfl

variable {ctx : AuthenticatedContext} {task record : Uuid} {fields : Fields} {permission : Permission}
  {destination : Option String} {now later : Time}

theorem select_ticked : (app.ticked now).select ctx task record fields permission destination later
    = app.select ctx task record fields permission destination later := by
  unfold ticked
  split_ifs <;> rfl

theorem record_ticked : (app.ticked now).record ctx record = app.record ctx record := by
  unfold Application.record
  rw [ticked_records]

theorem answers_metadata : answers (metadata ctx task record fields now) app = (do
    let effective ← app.effectiveTime now
    let values ← app.select ctx task record fields .metadataRead none effective
    let r ← app.record ctx record
    pure { revision := r.revision, signup := r.signup, fields := values }) := by
  apply answers_of_wp
  simp only [metadata, wp_bind, wp_clock, wp_get, wp_liftExcept, wp_modify, wp_pure, select_ticked, record_ticked]
  refine ⟨fun effective heff => ⟨fun values hvalues => ⟨fun r hr => ?_, fun e he => ?_⟩, fun e he => ?_⟩,
    fun e he => ?_⟩
  · simp only [heff, hvalues, hr, ok_bind, pure, Except.pure]
  · simp only [heff, hvalues, he, ok_bind, error_bind]
  · simp only [heff, he, ok_bind, error_bind]
  · simp only [he, error_bind]

theorem answers_readSecret : answers (readSecret ctx task record fields now) app = (do
    let effective ← app.effectiveTime now
    app.select ctx task record fields .secretRead none effective) := by
  apply answers_of_wp
  simp only [readSecret, wp_bind, wp_clock, wp_get, wp_liftExcept, wp_modify, wp_pure, select_ticked]
  refine ⟨fun effective heff => ⟨fun values hvalues => ?_, fun e he => ?_⟩, fun e he => ?_⟩
  · simp only [heff, hvalues, ok_bind]
  · simp only [heff, he, ok_bind]
  · simp only [he, error_bind]

theorem answers_useAuthorize {use : PrivateUse} : answers (useAuthorize ctx task use now) app = (do
    let effective ← app.effectiveTime now
    let values ← app.select ctx task use.record use.fields .secretUse (some use.destination) effective
    pure (values, effective)) := by
  apply answers_of_wp
  simp only [useAuthorize, wp_bind, wp_clock, wp_get, wp_liftExcept, wp_pure, select_ticked]
  refine ⟨fun effective heff => ⟨fun values hvalues => ?_, fun e he => ?_⟩, fun e he => ?_⟩
  · simp only [heff, hvalues, ok_bind, pure, Except.pure]
  · simp only [heff, he, ok_bind, error_bind]
  · simp only [he, error_bind]

end Disclosures

/-- Whatever checks access at a time the clock has not passed sees no difference between an
application and its compacted copy. -/
theorem compact_invisible (app : Application) {now : Time}
    (hlater : ∀ high, app.lastTime = some high → high ≤ now) :
    (∀ ctx id, app.compact.task ctx id now = app.task ctx id now)
    ∧ (∀ ctx id, app.compact.record ctx id = app.record ctx id)
    ∧ (∀ ctx task record fields permission destination,
        app.compact.select ctx task record fields permission destination now
          = app.select ctx task record fields permission destination now)
    ∧ (∀ ctx task record fields sample, answers (metadata ctx task record fields sample) app.compact
        = answers (metadata ctx task record fields sample) app)
    ∧ (∀ ctx task record fields sample, answers (readSecret ctx task record fields sample) app.compact
        = answers (readSecret ctx task record fields sample) app)
    ∧ (∀ ctx task use sample, answers (useAuthorize ctx task use sample) app.compact
        = answers (useAuthorize ctx task use sample) app)
    ∧ (∀ id r, app.compact.records.get? id = some r →
        app.compact.registrationSealed id = app.registrationSealed id)
    ∧ ∀ ctx t op, op.cachedKind ≠ .revoke →
        app.compact.authorize ctx t op now false = app.authorize ctx t op now false := by
  have h := app.compact_unseen
  generalize app.compact = next at h ⊢
  have hsampled : ∀ {sample effective : Time}, app.effectiveTime sample = .ok effective →
      ∀ high, app.lastTime = some high → high ≤ effective := by
    intro sample effective heff
    exact (lastTime_ticked heff).2.2.1
  refine ⟨fun ctx id => h.task_eq hlater id, fun ctx id => h.record_eq id,
    fun _ _ _ _ _ _ => h.select_eq hlater, ?_, ?_, ?_, h.registered,
    fun _ _ _ hop => h.authorize_eq hlater hop⟩
  · intro ctx task record fields sample
    rw [answers_metadata, answers_metadata, h.effectiveTime_eq]
    cases heff : app.effectiveTime sample with
    | error e => rfl
    | ok effective => simp only [ok_bind, h.select_eq (hsampled heff), h.record_eq]
  · intro ctx task record fields sample
    rw [answers_readSecret, answers_readSecret, h.effectiveTime_eq]
    cases heff : app.effectiveTime sample with
    | error e => rfl
    | ok effective => simp only [ok_bind, h.select_eq (hsampled heff)]
  · intro ctx task use sample
    rw [answers_useAuthorize, answers_useAuthorize, h.effectiveTime_eq]
    cases heff : app.effectiveTime sample with
    | error e => rfl
    | ok effective => simp only [ok_bind, h.select_eq (hsampled heff)]

theorem compact_invisible_sharedVault : sharedVault.compact.select
    (.fromAuthenticatedPeer "owner" "bob" "home") 2 10 {.password} .secretRead none 9
      = .ok ((∅ : SecretInput).insert .password "hunter2") := by
  have hlater : ∀ high, sharedVault.lastTime = some high → high ≤ (9 : Time) := by
    intro high hhigh
    cases hhigh
    decide
  obtain ⟨-, -, hselect, -⟩ := compact_invisible sharedVault hlater
  rw [hselect]
  decide +kernel

end Application

end Credman
