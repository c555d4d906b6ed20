import Credman.Folding

/-! What the passes of compaction keep, and why each thing they drop may go. -/
namespace Credman

open Library

/-- An invariant of a left fold, stated for the elements done so far. -/
theorem foldl_invariant {α β : Type} {step : β → α → β} (I : List α → β → Prop) {l : List α} {b : β}
    (h : I [] b) (hstep : ∀ done a rest s, l = done ++ a :: rest → I done s →
      I (done ++ [a]) (step s a)) : I l (l.foldl step b) := by
  have hrun : ∀ rest done s, done ++ rest = l → I done s → I l (rest.foldl step s) := by
    intro rest
    induction rest with
    | nil =>
      intro done s heq hI
      rw [List.append_nil] at heq
      rw [← heq]
      exact hI
    | cons a rest ih =>
      intro done s heq hI
      apply ih (done ++ [a]) (step s a)
      · rw [List.append_assoc, List.singleton_append, heq]
      · exact hstep done a rest s heq.symm hI
  exact hrun l [] b rfl h

namespace Application

variable {P : Platform} {app : Application}

/-- Revoked, or past its expiry at the vault clock. -/
def grantOver (app : Application) (g : Grant) : Prop :=
  g.revoked = true ∨ ∃ now, app.lastTime = some now ∧ g.spec.expiresAt ≤ now

def taskOver (app : Application) (id : Uuid) (t : TaskApproval) : Prop :=
  id ∈ app.revokedTasks ∨ ∃ now, app.lastTime = some now ∧ t.expiresAt ≤ now

/-- Nothing of the vault refers to this record. -/
structure Unmentioned (app : Application) (id : Uuid) : Prop where
  grants : ∀ gid g, app.grants.get? gid = some g → g.record ≠ id
  deliveries : ∀ i d, app.deliveries.get? i = some d → d.record ≠ id
  requests : ∀ key cached, app.requests.get? key = some cached → cached.result.record ≠ id

/-- `next` is `app` without some of its history, each part dropped for a reason. -/
structure Shrinks (app next : Application) : Prop where
  lastTime : next.lastTime = app.lastTime
  clockFrozen : next.clockFrozen = app.clockFrozen
  generation : next.generation = app.generation
  predecessor : next.predecessor = app.predecessor
  audit : next.audit.Sublist app.audit
  tasks : ∀ id t, next.tasks.get? id = some t → app.tasks.get? id = some t
  records : ∀ id r, next.records.get? id = some r → app.records.get? id = some r
  grants : ∀ id g, next.grants.get? id = some g → app.grants.get? id = some g
  requests : ∀ key c, next.requests.get? key = some c → app.requests.get? key = some c
  deliveries : ∀ id d, next.deliveries.get? id = some d → app.deliveries.get? id = some d
  revoked : ∀ id t, next.tasks.get? id = some t → (id ∈ next.revokedTasks ↔ id ∈ app.revokedTasks)
  revoked_sub : next.revokedTasks ⊆ app.revokedTasks
  task_dropped : ∀ id t, app.tasks.get? id = some t → next.tasks.get? id = none →
    app.taskOver id t ∧ next.referencedTask id = false
  record_dropped : ∀ id r, app.records.get? id = some r → next.records.get? id = none →
    r.deleted = true ∧ next.Unmentioned id
  grant_dropped : ∀ id g, app.grants.get? id = some g → next.grants.get? id = none →
    app.grantOver g ∧ ∀ key c, next.requests.get? key = some c → c.result.grant ≠ some id
  request_dropped : ∀ key c, app.requests.get? key = some c → next.requests.get? key = none →
    stale c.storedAt app.lastTime = true ∧ ((∃ r, next.records.get? c.result.record = some r) →
      c.result.revision ≤ next.through c.result.record)
  delivery_dropped : ∀ id d, app.deliveries.get? id = some d → next.deliveries.get? id = none →
    d.status.isSome = true ∧ stale d.storedAt app.lastTime = true
      ∧ (registers d = true → (∃ r, next.records.get? d.record = some r) →
        (next.baseline d.record).registrationDispatched = true)
  through_le : ∀ id r, next.records.get? id = some r → app.through id ≤ next.through id
  registered : ∀ id r, next.records.get? id = some r →
    (app.baseline id).registrationDispatched = true →
      (next.baseline id).registrationDispatched = true

theorem referencedTask_eq_false {id : Uuid} : app.referencedTask id = false ↔
    (∀ i r, app.records.get? i = some r → r.task ≠ id)
      ∧ (∀ i g, app.grants.get? i = some g → g.issuerTask ≠ id)
      ∧ (∀ i d, app.deliveries.get? i = some d → d.task ≠ id ∧ d.key.task ≠ id)
      ∧ ∀ key c, app.requests.get? key = some c → key.task ≠ id := by
  unfold referencedTask
  simp only [Bool.or_eq_false_iff, OrdMap.any_false, beq_eq_false_iff_ne, ne_eq, and_assoc]

namespace Shrinks

variable {next last : Application}

theorem refl (app : Application) : app.Shrinks app where
  lastTime := rfl
  clockFrozen := rfl
  generation := rfl
  predecessor := rfl
  audit := .refl _
  tasks _ _ h := h
  records _ _ h := h
  grants _ _ h := h
  requests _ _ h := h
  deliveries _ _ h := h
  revoked _ _ _ := Iff.rfl
  revoked_sub := Finset.Subset.refl _
  task_dropped _ _ h hnone := absurd (h.symm.trans hnone) nofun
  record_dropped _ _ h hnone := absurd (h.symm.trans hnone) nofun
  grant_dropped _ _ h hnone := absurd (h.symm.trans hnone) nofun
  request_dropped _ _ h hnone := absurd (h.symm.trans hnone) nofun
  delivery_dropped _ _ h hnone := absurd (h.symm.trans hnone) nofun
  through_le _ _ _ := le_refl _
  registered _ _ _ h := h

theorem referencedTask (h : app.Shrinks next) {id : Uuid} (hfree : app.referencedTask id = false) :
    next.referencedTask id = false := by
  obtain ⟨hrecords, hgrants, hdeliveries, hrequests⟩ := referencedTask_eq_false.mp hfree
  exact referencedTask_eq_false.mpr ⟨fun i r hr => hrecords i r (h.records i r hr),
    fun i g hg => hgrants i g (h.grants i g hg),
    fun i d hd => hdeliveries i d (h.deliveries i d hd),
    fun key c hc => hrequests key c (h.requests key c hc)⟩

theorem unmentioned (h : app.Shrinks next) {id : Uuid} (hfree : app.Unmentioned id) :
    next.Unmentioned id where
  grants i g hg := hfree.grants i g (h.grants i g hg)
  deliveries i d hd := hfree.deliveries i d (h.deliveries i d hd)
  requests key c hc := hfree.requests key c (h.requests key c hc)

theorem grantOver (h : app.Shrinks next) {g : Grant} : next.grantOver g ↔ app.grantOver g := by
  unfold Application.grantOver
  rw [h.lastTime]

theorem taskOver (h : app.Shrinks next) {id : Uuid} {t : TaskApproval}
    (hover : next.taskOver id t) : app.taskOver id t := by
  unfold Application.taskOver at hover ⊢
  rw [h.lastTime] at hover
  exact hover.imp_left fun hrevoked => h.revoked_sub hrevoked

theorem trans (h : app.Shrinks next) (h' : next.Shrinks last) : app.Shrinks last where
  lastTime := h'.lastTime.trans h.lastTime
  clockFrozen := h'.clockFrozen.trans h.clockFrozen
  generation := h'.generation.trans h.generation
  predecessor := h'.predecessor.trans h.predecessor
  audit := h'.audit.trans h.audit
  tasks id t hid := h.tasks id t (h'.tasks id t hid)
  records id r hid := h.records id r (h'.records id r hid)
  grants id g hid := h.grants id g (h'.grants id g hid)
  requests key c hid := h.requests key c (h'.requests key c hid)
  deliveries id d hid := h.deliveries id d (h'.deliveries id d hid)
  revoked id t hid := (h'.revoked id t hid).trans (h.revoked id t (h'.tasks id t hid))
  revoked_sub := h'.revoked_sub.trans h.revoked_sub
  task_dropped := by
    intro id t hid hnone
    cases hmid : next.tasks.get? id with
    | none =>
      obtain ⟨hover, hfree⟩ := h.task_dropped id t hid hmid
      exact ⟨hover, h'.referencedTask hfree⟩
    | some t' =>
      have heq := Option.some.inj (hid.symm.trans (h.tasks id t' hmid))
      obtain ⟨hover, hfree⟩ := h'.task_dropped id t' hmid hnone
      rw [heq]
      exact ⟨h.taskOver hover, hfree⟩
  record_dropped := by
    intro id r hid hnone
    cases hmid : next.records.get? id with
    | none =>
      obtain ⟨hdeleted, hfree⟩ := h.record_dropped id r hid hmid
      exact ⟨hdeleted, h'.unmentioned hfree⟩
    | some r' =>
      have heq := Option.some.inj (hid.symm.trans (h.records id r' hmid))
      rw [heq]
      exact h'.record_dropped id r' hmid hnone
  grant_dropped := by
    intro id g hid hnone
    cases hmid : next.grants.get? id with
    | none =>
      obtain ⟨hover, hfree⟩ := h.grant_dropped id g hid hmid
      exact ⟨hover, fun key c hc => hfree key c (h'.requests key c hc)⟩
    | some g' =>
      have heq := Option.some.inj (hid.symm.trans (h.grants id g' hmid))
      obtain ⟨hover, hfree⟩ := h'.grant_dropped id g' hmid hnone
      rw [heq]
      exact ⟨h.grantOver.mp hover, hfree⟩
  request_dropped := by
    intro key c hid hnone
    cases hmid : next.requests.get? key with
    | none =>
      obtain ⟨hstale, hcovered⟩ := h.request_dropped key c hid hmid
      refine ⟨hstale, fun ⟨r, hr⟩ => ?_⟩
      exact (hcovered ⟨r, h'.records _ r hr⟩).trans (h'.through_le _ r hr)
    | some c' =>
      have heq := Option.some.inj (hid.symm.trans (h.requests key c' hmid))
      obtain ⟨hstale, hcovered⟩ := h'.request_dropped key c' hmid hnone
      rw [h.lastTime] at hstale
      rw [heq]
      exact ⟨hstale, hcovered⟩
  delivery_dropped := by
    intro id d hid hnone
    cases hmid : next.deliveries.get? id with
    | none =>
      obtain ⟨hdone, hstale, hsealed⟩ := h.delivery_dropped id d hid hmid
      refine ⟨hdone, hstale, fun hregisters ⟨r, hr⟩ => ?_⟩
      exact h'.registered _ r hr (hsealed hregisters ⟨r, h'.records _ r hr⟩)
    | some d' =>
      have heq := Option.some.inj (hid.symm.trans (h.deliveries id d' hmid))
      obtain ⟨hdone, hstale, hsealed⟩ := h'.delivery_dropped id d' hmid hnone
      rw [h.lastTime] at hstale
      rw [heq]
      exact ⟨hdone, hstale, hsealed⟩
  through_le id r hr := (h.through_le id r (h'.records id r hr)).trans (h'.through_le id r hr)
  registered id r hr hflag := h'.registered id r hr (h.registered id r (h'.records id r hr) hflag)

end Shrinks

/-! Folding the receipts of every record. -/

theorem Folded.shrinks {id : Uuid} {r : Record} {next : Application} (h : app.Sound P)
    (hf : app.Folded id r next) : app.Shrinks next where
  lastTime := by rw [hf.result]
  clockFrozen := by rw [hf.result]
  generation := by rw [hf.result]
  predecessor := by rw [hf.result]
  audit := by rw [hf.result]
  tasks := by
    rw [hf.tasks_eq]
    exact fun _ _ h => h
  records := by
    rw [hf.records_eq]
    exact fun _ _ h => h
  grants := by
    rw [hf.grants_eq]
    exact fun _ _ h => h
  requests _ _ := hf.requests_sub
  deliveries := by
    rw [hf.deliveries_eq]
    exact fun _ _ h => h
  revoked := by
    rw [hf.result]
    exact fun _ _ _ => Iff.rfl
  revoked_sub := by rw [hf.result]
  task_dropped := by
    rw [hf.tasks_eq]
    exact fun _ _ h hnone => absurd (h.symm.trans hnone) nofun
  record_dropped := by
    rw [hf.records_eq]
    exact fun _ _ h hnone => absurd (h.symm.trans hnone) nofun
  grant_dropped := by
    rw [hf.grants_eq]
    exact fun _ _ h hnone => absurd (h.symm.trans hnone) nofun
  request_dropped := by
    intro key c hget hnone
    by_cases hin : (key, c) ∈ app.foldable id
    · obtain ⟨-, hrecord, hstale⟩ := mem_foldable hin
      refine ⟨hstale, fun _ => ?_⟩
      have hle := (h.mem_foldable_iff hf.found hget hrecord).mp hin
      rw [hrecord, UInt64.le_iff_toNat_le, hf.through_self h]
      exact hle
    · exact absurd ((hf.requests_some.mpr ⟨hget, hin⟩).symm.trans hnone) nofun
  delivery_dropped := by
    rw [hf.deliveries_eq]
    exact fun _ _ h hnone => absurd (h.symm.trans hnone) nofun
  through_le := by
    intro j s _
    by_cases hj : j = id
    · rw [hj, UInt64.le_iff_toNat_le, hf.through_self h]
      omega
    · rw [hf.through_others hj]
  registered := by
    intro j s _ hflag
    by_cases hj : j = id
    · rw [hj] at hflag ⊢
      rw [baseline, hf.absorbed, Option.getD_some, RecordBaseline.sortPruned,
        RecordBaseline.absorbAll_registrationDispatched]
      exact hflag
    · rwa [baseline, hf.others j hj]

/-- What the first pass has done once it has visited the records in `done`. -/
structure FoldedAll (P : Platform) (app : Application) (done : List Uuid) (next : Application) :
    Prop where
  sound : next.Sound P
  once : next.OneDelete
  shrinks : app.Shrinks next
  tasks : next.tasks = app.tasks
  records : next.records = app.records
  grants : next.grants = app.grants
  deliveries : next.deliveries = app.deliveries
  waiting : ∀ id, id ∉ done → next.chainOf id = app.chainOf id
    ∧ next.baselines.get? id = app.baselines.get? id
  versions : ∀ id r, app.records.get? id = some r →
    (next.VersionSound id r ↔ (id ∈ done → app.Fits id))
  rise : ∀ id r, app.records.get? id = some r →
    (app.baseline id).secretVersion ≤ r.secretVersion →
      (next.baseline id).secretVersion ≤ r.secretVersion
  cleared : ∀ id ∈ done, (∀ key c, app.requests.get? key = some c → c.result.record = id →
    stale c.storedAt app.lastTime = true) → ∀ key c, next.requests.get? key = some c →
      c.result.record ≠ id

theorem foldable_congr {next : Application} {id : Uuid} (hchain : next.chainOf id = app.chainOf id)
    (hlast : next.lastTime = app.lastTime) : next.foldable id = app.foldable id := by
  unfold foldable
  rw [hchain, hlast]

theorem FoldedAll.step (hsize : app.requests.size ≤ limit) {done : List Uuid}
    {id : Uuid} {r : Record} {next : Application} (hr : app.records.get? id = some r)
    (hnew : id ∉ done) (h : FoldedAll P app done next) :
    FoldedAll P app (done ++ [id]) (next.foldReceipts id) := by
  have hr' : next.records.get? id = some r := by rw [h.records]; exact hr
  obtain ⟨hchain, hbase⟩ := h.waiting id hnew
  have hfoldable : next.foldable id = app.foldable id := foldable_congr hchain h.shrinks.lastTime
  have hfits : next.Fits id ↔ app.Fits id := by
    unfold Fits foldedPatches baseline
    rw [hfoldable, hbase]
  have hall : ∀ j, j ∈ done ++ [id] ↔ j ∈ done ∨ j = id := by
    intro j
    rw [List.mem_append, List.mem_singleton]
  have hlatest : next.VersionSound id r := (h.versions id r hr).mpr fun hin => absurd hin hnew
  -- a record whose receipts are all stale has nothing left once they are folded
  have hclear : (∀ key c, app.requests.get? key = some c → c.result.record = id →
      stale c.storedAt app.lastTime = true) → ∀ e ∈ next.chainOf id, e ∈ next.foldable id := by
    intro hstale e he
    rw [hfoldable]
    rw [hchain] at he
    have htake : app.foldable id = app.chainOf id := by
      apply List.takeWhile_eq_self_iff.mpr
      intro e he
      exact hstale e.1 e.2 (mem_chainOf.mp he).1 (mem_chainOf.mp he).2
    rwa [htake]
  rcases (h.sound.chained hr').foldReceipts_cases with ⟨hempty, heq⟩ | hf
  · rw [heq]
    refine { h with waiting := ?_, versions := ?_, cleared := ?_ }
    · intro j hj
      exact h.waiting j fun hin => hj ((hall j).mpr (.inl hin))
    · intro j s hs
      by_cases hj : j = id
      · subst hj
        rw [hr, Option.some.injEq] at hs
        rw [← hs]
        refine ⟨fun _ _ => ?_, fun _ => hlatest⟩
        have hlt := (app.baseline j).secretVersion.toNat_lt
        have hmax : maxU64.toNat = 2 ^ 64 - 1 := rfl
        unfold Fits foldedPatches
        rw [← hfoldable, hempty, List.countP_nil]
        omega
      · rw [h.versions j s hs, hall]
        simp only [hj, or_false]
    · intro j hj hstale key c hc hrecord
      rcases (hall j).mp hj with hin | rfl
      · exact h.cleared j hin hstale key c hc hrecord
      · have hmem := hclear hstale (key, c) (mem_chainOf.mpr ⟨hc, hrecord⟩)
        rw [hempty] at hmem
        exact absurd hmem List.not_mem_nil
  · have hshrinks := hf.shrinks h.sound
    have hsize' : next.requests.size ≤ limit :=
      (OrdMap.size_le_of_keys fun key c hc => ⟨c, h.shrinks.requests key c hc⟩).trans hsize
    refine ⟨hf.sound h.sound h.once, hf.oneDelete h.once, h.shrinks.trans hshrinks,
      hf.tasks_eq.trans h.tasks, hf.records_eq.trans h.records, hf.grants_eq.trans h.grants,
      hf.deliveries_eq.trans h.deliveries, ?_, ?_, ?_, ?_⟩
    · intro j hj
      rw [hall, not_or] at hj
      obtain ⟨hchain', hbase'⟩ := h.waiting j hj.1
      exact ⟨(hf.chainOf_others hj.2).trans hchain', (hf.others j hj.2).trans hbase'⟩
    · intro j s hs
      by_cases hj : j = id
      · subst hj
        rw [hr, Option.some.injEq] at hs
        rw [← hs, hf.versionSound_iff h.sound hsize' hlatest, hfits]
        simp
      · rw [hf.versionSound_others hj, h.versions j s hs, hall]
        simp only [hj, or_false]
    · intro j s hs hrise
      by_cases hj : j = id
      · subst hj
        rw [hr, Option.some.injEq] at hs
        rw [← hs] at hrise ⊢
        exact hf.rise h.sound hsize' hlatest (h.rise j r hr hrise)
      · rw [baseline, hf.others j hj]
        exact h.rise j s hs hrise
    · intro j hj hstale key c hc hrecord
      obtain ⟨hold, hnot⟩ := hf.requests_some.mp hc
      rcases (hall j).mp hj with hin | rfl
      · exact h.cleared j hin hstale key c hold hrecord
      · exact hnot (hclear hstale (key, c) (mem_chainOf.mpr ⟨hold, hrecord⟩))

theorem foldedAll (h : app.Valid P) (once : app.OneDelete) :
    FoldedAll P app app.records.keys (app.records.keys.foldl foldReceipts app) := by
  apply foldl_invariant (FoldedAll P app)
  · exact ⟨h.toSound, once, .refl app, rfl, rfl, rfl, rfl, fun _ _ => ⟨rfl, rfl⟩,
      fun id r hr => ⟨fun _ hin => absurd hin List.not_mem_nil, fun _ => h.versions id r hr⟩,
      fun _ _ _ hrise => hrise,
      fun _ hin => absurd hin List.not_mem_nil⟩
  · intro done id rest next heq hdone
    have hnodup := app.records.nodup_keys
    rw [heq] at hnodup
    obtain ⟨r, hr⟩ := OrdMap.mem_keys.mp (show id ∈ app.records.keys by rw [heq]; simp)
    apply hdone.step h.sizes.requests hr
    intro hin
    exact List.disjoint_of_nodup_append hnodup hin (by simp)

/-- The receipts are the same, and so is what the baseline counts for one record. -/
structure SameChain (app next : Application) (id : Uuid) : Prop where
  requests : next.requests = app.requests
  through : (next.baseline id).through = (app.baseline id).through
  secretVersion : (next.baseline id).secretVersion = (app.baseline id).secretVersion
  deletePruned : (next.baseline id).deletePruned = (app.baseline id).deletePruned

namespace SameChain

variable {next : Application} {id : Uuid} {r : Record}

theorem through_eq (h : app.SameChain next id) : next.through id = app.through id := by
  rw [← baseline_through, ← baseline_through, h.through]

theorem versionSound (h : app.SameChain next id) :
    next.VersionSound id r ↔ app.VersionSound id r := by
  have hbase : next.baseVersion id = app.baseVersion id := by
    by_cases hzero : app.through id = 0
    · rw [baseVersion, baseVersion, if_pos hzero, if_pos (h.through_eq.trans hzero)]
    · rw [Folded.baseVersion_pos hzero, Folded.baseVersion_pos (h.through_eq ▸ hzero),
        h.secretVersion]
  unfold VersionSound patchCount
  rw [hbase, h.requests]

theorem chainSound (h : app.SameChain next id) (hchain : app.ChainSound id r) :
    next.ChainSound id r := by
  have hpruned : next.deletePruned id = app.deletePruned id := by
    rw [← Folded.baseline_deletePruned, ← Folded.baseline_deletePruned, h.deletePruned]
  obtain ⟨hcovered, hcreated, hdeleted, honce⟩ := hchain
  unfold hasReceipt at hcreated hdeleted honce
  rw [← h.requests] at hcovered hcreated hdeleted honce
  rw [← h.through_eq] at hcovered hcreated
  rw [← hpruned] at hdeleted honce
  exact ⟨hcovered, hcreated, hdeleted, honce⟩

end SameChain

/-! Dropping the grants that are over. -/

structure GrantDropped (app : Application) (gid : Uuid) (g : Grant) (next : Application) : Prop where
  found : app.grants.get? gid = some g
  lapsed : app.grantOver g
  unnamed : ∀ key c, app.requests.get? key = some c → c.result.grant ≠ some gid
  result : next = { app with
    grants := app.grants.erase gid
    baselines := app.baselines.modify g.record fun base =>
      { base with prunedGrants := base.prunedGrants.filter (· != gid) } }

theorem dropGrant_cases (app : Application) (gid : Uuid) :
    (app.dropGrant gid = app ∧ ∀ g, app.grants.get? gid = some g → app.grantOver g →
      ∃ key c, app.requests.get? key = some c ∧ c.result.grant = some gid)
    ∨ ∃ g, app.GrantDropped gid g (app.dropGrant gid) := by
  unfold dropGrant
  cases hg : app.grants.get? gid with
  | none => exact .inl ⟨rfl, nofun⟩
  | some g =>
    have hover : (!g.revoked && !app.lastTime.any fun now => decide (g.spec.expiresAt ≤ now)) = true
        ↔ ¬ app.grantOver g := by
      unfold grantOver
      cases g.revoked <;> cases app.lastTime <;> simp
    dsimp only
    split_ifs with hlive hnamed
    · refine .inl ⟨rfl, fun g' hg' hdone => ?_⟩
      rw [Option.some.injEq] at hg'
      exact absurd (hg' ▸ hdone) (hover.mp hlive)
    · obtain ⟨key, c, hc, hname⟩ := OrdMap.any_iff.mp hnamed
      exact .inl ⟨rfl, fun _ _ _ => ⟨key, c, hc, beq_iff_eq.mp hname⟩⟩
    · rw [Bool.not_eq_true, OrdMap.any_false] at hnamed
      refine .inr ⟨g, hg, not_not.mp fun h => hlive (hover.mpr h), ?_, rfl⟩
      exact fun key c hc => beq_eq_false_iff_ne.mp (hnamed key c hc)

namespace GrantDropped

variable {next : Application} {gid : Uuid} {g : Grant}

theorem grants_some (hd : app.GrantDropped gid g next) {id : Uuid} {g' : Grant} :
    next.grants.get? id = some g' ↔ id ≠ gid ∧ app.grants.get? id = some g' := by
  rw [hd.result, OrdMap.get?_erase]
  split_ifs with heq
  · simp [heq]
  · exact ⟨fun h => ⟨fun hid => heq hid.symm, h⟩, fun h => h.2⟩

theorem baselines_some (hd : app.GrantDropped gid g next) {id : Uuid} {base : RecordBaseline}
    (hb : next.baselines.get? id = some base) : ∃ old, app.baselines.get? id = some old
      ∧ base = { old with prunedGrants :=
          if g.record = id then old.prunedGrants.filter (· != gid) else old.prunedGrants } := by
  rw [hd.result, OrdMap.get?_modify] at hb
  split_ifs at hb ⊢ with heq
  · obtain ⟨old, hold, rfl⟩ := Option.map_eq_some_iff.mp hb
    exact ⟨old, hold, rfl⟩
  · exact ⟨base, hb, rfl⟩

theorem baselines_of (hd : app.GrantDropped gid g next) {id : Uuid} {old : RecordBaseline}
    (hold : app.baselines.get? id = some old) : next.baselines.get? id = some { old with
      prunedGrants :=
        if g.record = id then old.prunedGrants.filter (· != gid) else old.prunedGrants } := by
  rw [hd.result, OrdMap.get?_modify, hold]
  split_ifs with heq
  · rfl
  · rfl

/-- Only the accounted grants of a baseline change. -/
theorem baseline_eq (hd : app.GrantDropped gid g next) (id : Uuid) :
    next.baseline id = { app.baseline id with prunedGrants := (next.baseline id).prunedGrants } := by
  unfold baseline
  cases hold : app.baselines.get? id with
  | some old => rw [hd.baselines_of hold]; rfl
  | none =>
    cases hnew : next.baselines.get? id with
    | none => rfl
    | some base =>
      obtain ⟨old, hsome, -⟩ := hd.baselines_some hnew
      exact absurd (hold.symm.trans hsome) nofun

theorem sameChain (hd : app.GrantDropped gid g next) (id : Uuid) : app.SameChain next id where
  requests := by rw [hd.result]
  through := by rw [hd.baseline_eq]
  secretVersion := by rw [hd.baseline_eq]
  deletePruned := by rw [hd.baseline_eq]

theorem sound (h : app.Sound P) (hd : app.GrantDropped gid g next) : next.Sound P where
  generation := by rw [hd.result]; exact h.generation
  clock := by rw [hd.result]; exact h.clock
  tasks := by rw [hd.result]; exact h.tasks
  one_owner := by rw [hd.result]; exact h.one_owner
  revoked := by rw [hd.result]; exact h.revoked
  records := by rw [hd.result]; exact h.records
  grants := by
    intro id g' hg'
    have hold := h.grants id g' (hd.grants_some.mp hg').2
    rw [hd.result]
    exact hold
  receipts := by
    intro key c hc
    have hsame := (hd.sameChain c.result.record).through_eq
    rw [(hd.sameChain key.id).requests] at hc
    obtain ⟨t, r, ht, hr, hreceipt, hkind⟩ := h.receipts key c hc
    have hunnamed := hd.unnamed key c hc
    have hkept : ∀ id g', c.result.grant = some id → app.grants.get? id = some g' →
        next.grants.get? id = some g' := by
      intro id g' hname hg'
      exact hd.grants_some.mpr ⟨fun heq => hunnamed (heq ▸ hname), hg'⟩
    refine ⟨t, r, by rw [hd.result]; exact ht, by rw [hd.result]; exact hr,
      by rw [hsame]; exact hreceipt, ?_⟩
    unfold KindSound at hkind ⊢
    cases hk : c.kind <;> rw [hk] at hkind <;> try exact hkind
    · obtain ⟨id, g', hname, hg', hrest⟩ := hkind
      exact ⟨id, g', hname, hkept id g' hname hg', hrest⟩
    · obtain ⟨id, g', hname, hg', hrest⟩ := hkind
      exact ⟨id, g', hname, hkept id g' hname hg', hrest⟩
  one_receipt := by rw [hd.result]; exact h.one_receipt
  one_share := by rw [hd.result]; exact h.one_share
  baselines := by
    intro id base hb
    obtain ⟨old, hold, rfl⟩ := hd.baselines_some hb
    obtain ⟨r, hr, hle, hfresh, hpos, hsorted, hverified⟩ := h.baselines id old hold
    refine ⟨r, by rw [hd.result]; exact hr, hle, fun hzero => ?_, hpos, ?_, hverified⟩
    · obtain ⟨hversion, hpruned, hnone⟩ := hfresh hzero
      refine ⟨hversion, hpruned, ?_⟩
      simp [hnone]
    · dsimp only
      split_ifs
      · exact hsorted.filter _
      · exact hsorted
  pruned := by
    intro id base other hb hmem
    obtain ⟨old, hold, rfl⟩ := hd.baselines_some hb
    have hmem' : other ∈ old.prunedGrants ∧ (g.record = id → other ≠ gid) := by
      dsimp only at hmem
      split_ifs at hmem with heq
      · rw [List.mem_filter, bne_iff_ne] at hmem
        exact ⟨hmem.1, fun _ => hmem.2⟩
      · exact ⟨hmem, fun h => absurd h heq⟩
    obtain ⟨⟨g', hg', hrecord⟩, hnone⟩ := h.pruned id old other hold hmem'.1
    refine ⟨⟨g', hd.grants_some.mpr ⟨fun heq => ?_, hg'⟩, hrecord⟩, ?_⟩
    · subst heq
      rw [hd.found, Option.some.injEq] at hg'
      exact hmem'.2 (by rw [hg', hrecord]) rfl
    · rw [(hd.sameChain id).requests]
      exact hnone
  chain := by
    intro id r hr
    rw [hd.result] at hr
    exact (hd.sameChain id).chainSound (h.chain id r hr)
  accounted := by
    intro id g' hg'
    obtain ⟨hne, hold⟩ := hd.grants_some.mp hg'
    rcases h.accounted id g' hold with ⟨key, c, hc, hrest⟩ | ⟨j, base, hb, hmem⟩
    · exact .inl ⟨key, c, by rw [(hd.sameChain id).requests]; exact hc, hrest⟩
    · refine .inr ⟨j, _, hd.baselines_of hb, ?_⟩
      dsimp only
      split_ifs
      · exact List.mem_filter.mpr ⟨hmem, bne_iff_ne.mpr hne⟩
      · exact hmem
  deliveries := by rw [hd.result]; exact h.deliveries
  no_receipt := by rw [hd.result]; exact h.no_receipt
  one_delivery := by rw [hd.result]; exact h.one_delivery
  one_register := by rw [hd.result]; exact h.one_register
  verified := by
    intro id r hr hsignup
    rw [hd.result] at hr
    rcases h.verified id r hr hsignup with ⟨base, hb, hflag⟩ | hevidence
    · exact .inl ⟨_, hd.baselines_of hb, hflag⟩
    · right
      rw [hd.result]
      exact hevidence

theorem shrinks (hd : app.GrantDropped gid g next) : app.Shrinks next where
  lastTime := by rw [hd.result]
  clockFrozen := by rw [hd.result]
  generation := by rw [hd.result]
  predecessor := by rw [hd.result]
  audit := by rw [hd.result]
  tasks := by rw [hd.result]; exact fun _ _ h => h
  records := by rw [hd.result]; exact fun _ _ h => h
  grants id g' hg' := (hd.grants_some.mp hg').2
  requests := by rw [hd.result]; exact fun _ _ h => h
  deliveries := by rw [hd.result]; exact fun _ _ h => h
  revoked := by rw [hd.result]; exact fun _ _ _ => Iff.rfl
  revoked_sub := by rw [hd.result]
  task_dropped := by rw [hd.result]; exact fun _ _ h hnone => absurd (h.symm.trans hnone) nofun
  record_dropped := by rw [hd.result]; exact fun _ _ h hnone => absurd (h.symm.trans hnone) nofun
  grant_dropped := by
    intro id g' hg' hnone
    by_cases heq : id = gid
    · subst heq
      rw [hd.found, Option.some.injEq] at hg'
      rw [← hg', (hd.sameChain id).requests]
      exact ⟨hd.lapsed, hd.unnamed⟩
    · exact absurd ((hd.grants_some.mpr ⟨heq, hg'⟩).symm.trans hnone) nofun
  request_dropped := by rw [hd.result]; exact fun _ _ h hnone => absurd (h.symm.trans hnone) nofun
  delivery_dropped := by rw [hd.result]; exact fun _ _ h hnone => absurd (h.symm.trans hnone) nofun
  through_le id r _ := by rw [(hd.sameChain id).through_eq]
  registered id r _ hflag := by
    rw [hd.baseline_eq]
    exact hflag

end GrantDropped

structure GrantsDropped (P : Platform) (app : Application) (done : List Uuid) (next : Application) :
    Prop where
  sound : next.Sound P
  shrinks : app.Shrinks next
  tasks : next.tasks = app.tasks
  records : next.records = app.records
  deliveries : next.deliveries = app.deliveries
  same : ∀ id, app.SameChain next id
  named : ∀ gid ∈ done, ∀ g, next.grants.get? gid = some g → app.grantOver g →
    ∃ key c, app.requests.get? key = some c ∧ c.result.grant = some gid

theorem SameChain.trans {next last : Application} {id : Uuid} (h : app.SameChain next id)
    (h' : next.SameChain last id) : app.SameChain last id :=
  ⟨h'.requests.trans h.requests, h'.through.trans h.through,
    h'.secretVersion.trans h.secretVersion, h'.deletePruned.trans h.deletePruned⟩

theorem grantsDropped (h : app.Sound P) :
    GrantsDropped P app app.grants.keys (app.grants.keys.foldl dropGrant app) := by
  apply foldl_invariant (GrantsDropped P app)
  · exact ⟨h, .refl app, rfl, rfl, rfl, fun _ => ⟨rfl, rfl, rfl, rfl⟩,
      fun _ hin => absurd hin List.not_mem_nil⟩
  · intro done gid rest next _ hdone
    have hrequests := (hdone.same gid).requests
    rcases next.dropGrant_cases gid with ⟨heq, hkept⟩ | ⟨g, hdropped⟩
    · rw [heq]
      refine { hdone with named := fun other hother g hg hover => ?_ }
      rcases List.mem_append.mp hother with hin | hin
      · exact hdone.named other hin g hg hover
      · rw [List.mem_singleton] at hin
        rw [← hrequests, hin]
        exact hkept g (hin ▸ hg) (hdone.shrinks.grantOver.mpr hover)
    · refine ⟨hdropped.sound hdone.sound, hdone.shrinks.trans hdropped.shrinks, ?_, ?_, ?_,
        fun id => (hdone.same id).trans (hdropped.sameChain id), ?_⟩
      · rw [hdropped.result]
        exact hdone.tasks
      · rw [hdropped.result]
        exact hdone.records
      · rw [hdropped.result]
        exact hdone.deliveries
      · intro other hother g' hg' hover
        obtain ⟨hne, hold⟩ := hdropped.grants_some.mp hg'
        rcases List.mem_append.mp hother with hin | hin
        · exact hdone.named other hin g' hold hover
        · exact absurd (List.mem_singleton.mp hin) hne

/-! Dropping the deliveries outside the retry window. -/

theorem baseline_verifiedLogin {id : Uuid} : (app.baseline id).verifiedLogin = true ↔
    ∃ base, app.baselines.get? id = some base ∧ base.verifiedLogin = true := by
  unfold baseline
  cases app.baselines.get? id <;> simp

theorem registrationSealed_iff {id : Uuid} : app.registrationSealed id = true ↔
    (app.baseline id).registrationDispatched = true
      ∨ ∃ i d, app.deliveries.get? i = some d ∧ registers d = true ∧ d.record = id := by
  unfold registrationSealed registers
  rw [Bool.or_eq_true, OrdMap.any_iff]
  apply or_congr
  · unfold baseline
    cases app.baselines.get? id <;> simp
  · refine exists_congr fun i => exists_congr fun d => and_congr_right fun _ => ?_
    simp only [Bool.and_eq_true, beq_iff_eq]
    tauto

theorem Sound.baselineSound (h : app.Sound P) {id : Uuid} {r : Record}
    (hr : app.records.get? id = some r) : BaselineSound (app.baseline id) r := by
  unfold baseline
  cases hb : app.baselines.get? id with
  | some base =>
    obtain ⟨r', hr', hsound⟩ := h.baselines id base hb
    rw [hr, Option.some.injEq] at hr'
    rw [hr']
    exact hsound
  | none => exact ⟨UInt64.zero_le, fun _ => ⟨rfl, rfl, rfl⟩, nofun, .nil, nofun⟩

structure DeliveryDropped (app : Application) (id : Uuid) (d : DeliveryAttempt)
    (next : Application) : Prop where
  found : app.deliveries.get? id = some d
  settled : d.status.isSome = true
  old : stale d.storedAt app.lastTime = true
  result : next = { app with
    deliveries := app.deliveries.erase id
    baselines := if app.sealsRegister d || app.sealsLogin d then
      app.baselines.insert d.record { app.baseline d.record with
        registrationDispatched := (app.baseline d.record).registrationDispatched
          || app.sealsRegister d
        verifiedLogin := (app.baseline d.record).verifiedLogin || app.sealsLogin d }
      else app.baselines }

theorem dropDelivery_cases (app : Application) (id : Uuid) :
    (app.dropDelivery id = app ∧ ∀ d, app.deliveries.get? id = some d →
      ¬ (d.status.isSome = true ∧ stale d.storedAt app.lastTime = true))
    ∨ ∃ d, app.DeliveryDropped id d (app.dropDelivery id) := by
  unfold dropDelivery
  cases hd : app.deliveries.get? id with
  | none => exact .inl ⟨rfl, nofun⟩
  | some d =>
    dsimp only
    by_cases hkeep : (d.status.isNone || !stale d.storedAt app.lastTime) = true
    · rw [if_pos hkeep]
      refine .inl ⟨rfl, fun d' hd' hgo => ?_⟩
      rw [Option.some.injEq] at hd'
      rw [← hd'] at hgo
      rw [Bool.or_eq_true, Bool.not_eq_true', hgo.2] at hkeep
      rcases hkeep with hnone | hfalse
      · rw [Option.isNone_iff_eq_none] at hnone
        simp [hnone] at hgo
      · cases hfalse
    · rw [if_neg hkeep]
      rw [Bool.or_eq_true, not_or, Bool.not_eq_true, Bool.not_eq_true', Bool.not_eq_false] at hkeep
      refine .inr ⟨d, hd, ?_, hkeep.2, rfl⟩
      rw [← Option.not_isNone, hkeep.1]
      rfl

/-- A delivery that seals something is about a record the vault still has. -/
theorem seals_record {d : DeliveryAttempt} (h : (app.sealsRegister d || app.sealsLogin d) = true) :
    ∃ r, app.records.get? d.record = some r
      ∧ (app.sealsLogin d = true → r.signup = .verifiedLogin) := by
  rw [Bool.or_eq_true] at h
  cases hr : app.records.get? d.record with
  | none =>
    rcases h with h | h
    · simp [sealsRegister, OrdMap.contains, hr] at h
    · simp [sealsLogin, hr] at h
  | some r =>
    refine ⟨r, rfl, fun hlogin => ?_⟩
    simp only [sealsLogin, hr, Option.any_some, Bool.and_eq_true, beq_iff_eq] at hlogin
    exact hlogin.1.2

namespace DeliveryDropped

variable {next : Application} {id : Uuid} {d : DeliveryAttempt}

theorem deliveries_some (hd : app.DeliveryDropped id d next) {i : Uuid} {e : DeliveryAttempt} :
    next.deliveries.get? i = some e ↔ i ≠ id ∧ app.deliveries.get? i = some e := by
  rw [hd.result, OrdMap.get?_erase]
  split_ifs with heq
  · simp [heq]
  · exact ⟨fun h => ⟨fun hid => heq hid.symm, h⟩, fun h => h.2⟩

/-- Only the two flags of the delivery's record can change. -/
theorem baseline_eq (hd : app.DeliveryDropped id d next) (j : Uuid) :
    next.baseline j = { app.baseline j with
      registrationDispatched := (app.baseline j).registrationDispatched
        || (j == d.record && app.sealsRegister d)
      verifiedLogin := (app.baseline j).verifiedLogin
        || (j == d.record && app.sealsLogin d) } := by
  rw [hd.result]
  by_cases hseals : (app.sealsRegister d || app.sealsLogin d) = true
  · by_cases hj : j = d.record
    · subst hj
      simp [baseline, hseals]
    · have hne : d.record ≠ j := fun h => hj h.symm
      have hbeq : (j == d.record) = false := beq_eq_false_iff_ne.mpr hj
      simp [baseline, hseals, OrdMap.get?_insert_ne _ _ hne, hbeq]
  · have hnone := hseals
    rw [Bool.not_eq_true, Bool.or_eq_false_iff] at hnone
    simp [baseline, hnone.1, hnone.2]

theorem baselines_some (hd : app.DeliveryDropped id d next) {j : Uuid} {base : RecordBaseline}
    (hb : next.baselines.get? j = some base) : base = next.baseline j
      ∧ ((∃ old, app.baselines.get? j = some old) ∨ ∃ r, app.records.get? j = some r) := by
  refine ⟨by rw [baseline, hb]; rfl, ?_⟩
  rw [hd.result] at hb
  dsimp only at hb
  split_ifs at hb with hseals
  · rw [OrdMap.get?_insert] at hb
    split_ifs at hb with hj
    · obtain ⟨r, hr, -⟩ := seals_record hseals
      exact .inr ⟨r, by rw [← hj]; exact hr⟩
    · exact .inl ⟨base, hb⟩
  · exact .inl ⟨base, hb⟩

theorem sameChain (hd : app.DeliveryDropped id d next) (j : Uuid) : app.SameChain next j where
  requests := by rw [hd.result]
  through := by rw [hd.baseline_eq]
  secretVersion := by rw [hd.baseline_eq]
  deletePruned := by rw [hd.baseline_eq]

theorem prunedGrants_iff (hd : app.DeliveryDropped id d next) {j gid : Uuid} :
    (∃ base, next.baselines.get? j = some base ∧ gid ∈ base.prunedGrants) ↔
      ∃ base, app.baselines.get? j = some base ∧ gid ∈ base.prunedGrants := by
  rw [← Folded.mem_baseline_prunedGrants, ← Folded.mem_baseline_prunedGrants, hd.baseline_eq]

theorem sound (h : app.Sound P) (hd : app.DeliveryDropped id d next) : next.Sound P where
  generation := by rw [hd.result]; exact h.generation
  clock := by rw [hd.result]; exact h.clock
  tasks := by rw [hd.result]; exact h.tasks
  one_owner := by rw [hd.result]; exact h.one_owner
  revoked := by rw [hd.result]; exact h.revoked
  records := by rw [hd.result]; exact h.records
  grants := by rw [hd.result]; exact h.grants
  receipts := by
    intro key c hc
    rw [(hd.sameChain id).requests] at hc
    obtain ⟨t, r, ht, hr, hreceipt, hkind⟩ := h.receipts key c hc
    rw [(hd.sameChain c.result.record).through_eq, hd.result]
    exact ⟨t, r, ht, hr, hreceipt, hkind⟩
  one_receipt := by rw [hd.result]; exact h.one_receipt
  one_share := by rw [hd.result]; exact h.one_share
  baselines := by
    intro j base hb
    obtain ⟨heq, hsome⟩ := hd.baselines_some hb
    obtain ⟨r, hr⟩ : ∃ r, app.records.get? j = some r := by
      rcases hsome with ⟨old, hold⟩ | hr
      · obtain ⟨r, hr, -⟩ := h.baselines j old hold
        exact ⟨r, hr⟩
      · exact hr
    refine ⟨r, by rw [hd.result]; exact hr, ?_⟩
    obtain ⟨hle, hfresh, hpos, hsorted, hverified⟩ := h.baselineSound hr
    rw [heq, hd.baseline_eq]
    refine ⟨hle, hfresh, hpos, hsorted, fun hflag => ?_⟩
    rw [Bool.or_eq_true, Bool.and_eq_true, beq_iff_eq] at hflag
    rcases hflag with hold | ⟨hj, hlogin⟩
    · exact hverified hold
    · obtain ⟨r', hr', hsignup⟩ := seals_record (by rw [hlogin, Bool.or_true])
      rw [← hj, hr, Option.some.injEq] at hr'
      rw [hr']
      exact hsignup hlogin
  pruned := by
    intro j base gid hb hmem
    obtain ⟨old, hold, hmem'⟩ := hd.prunedGrants_iff.mp ⟨base, hb, hmem⟩
    rw [(hd.sameChain j).requests, hd.result]
    exact h.pruned j old gid hold hmem'
  chain := by
    intro j r hr
    rw [hd.result] at hr
    exact (hd.sameChain j).chainSound (h.chain j r hr)
  accounted := by
    intro gid g hg
    rw [hd.result] at hg
    rcases h.accounted gid g hg with hshare | ⟨j, base, hb, hmem⟩
    · left
      rw [(hd.sameChain gid).requests]
      exact hshare
    · exact .inr ⟨j, hd.prunedGrants_iff.mpr ⟨base, hb, hmem⟩⟩
  deliveries := by
    intro i e he
    have hold := h.deliveries i e (hd.deliveries_some.mp he).2
    rw [hd.result]
    exact hold
  no_receipt := by
    intro i e he
    rw [(hd.sameChain i).requests]
    exact h.no_receipt i e (hd.deliveries_some.mp he).2
  one_delivery i e j f he hf :=
    h.one_delivery i e j f (hd.deliveries_some.mp he).2 (hd.deliveries_some.mp hf).2
  one_register i e j f he hf :=
    h.one_register i e j f (hd.deliveries_some.mp he).2 (hd.deliveries_some.mp hf).2
  verified := by
    intro j r hr hsignup
    rw [hd.result] at hr
    have hflag : (app.baseline j).verifiedLogin = true ∨ (j == d.record && app.sealsLogin d) = true
        → ∃ base, next.baselines.get? j = some base ∧ base.verifiedLogin = true := by
      intro hflag
      rw [← baseline_verifiedLogin, hd.baseline_eq, Bool.or_eq_true]
      exact hflag
    rcases h.verified j r hr hsignup with hbase | ⟨i, e, he, hevidence⟩
    · exact .inl (hflag (.inl (baseline_verifiedLogin.mpr hbase)))
    · by_cases hi : i = id
      · left
        apply hflag
        right
        rw [hi, hd.found, Option.some.injEq] at he
        rw [← he] at hevidence
        simp only [evidence, Bool.and_eq_true, beq_iff_eq] at hevidence
        obtain ⟨⟨⟨⟨hrecord, hversion⟩, haction⟩, hdispatched⟩, hstatus⟩ := hevidence
        simp [sealsLogin, hrecord, hr, hversion, haction, hdispatched, hstatus, hsignup]
      · exact .inr ⟨i, e, hd.deliveries_some.mpr ⟨hi, he⟩, hevidence⟩

theorem shrinks (hd : app.DeliveryDropped id d next) : app.Shrinks next where
  lastTime := by rw [hd.result]
  clockFrozen := by rw [hd.result]
  generation := by rw [hd.result]
  predecessor := by rw [hd.result]
  audit := by rw [hd.result]
  tasks := by rw [hd.result]; exact fun _ _ h => h
  records := by rw [hd.result]; exact fun _ _ h => h
  grants := by rw [hd.result]; exact fun _ _ h => h
  requests := by rw [hd.result]; exact fun _ _ h => h
  deliveries i e he := (hd.deliveries_some.mp he).2
  revoked := by rw [hd.result]; exact fun _ _ _ => Iff.rfl
  revoked_sub := by rw [hd.result]
  task_dropped := by rw [hd.result]; exact fun _ _ h hnone => absurd (h.symm.trans hnone) nofun
  record_dropped := by rw [hd.result]; exact fun _ _ h hnone => absurd (h.symm.trans hnone) nofun
  grant_dropped := by rw [hd.result]; exact fun _ _ h hnone => absurd (h.symm.trans hnone) nofun
  request_dropped := by rw [hd.result]; exact fun _ _ h hnone => absurd (h.symm.trans hnone) nofun
  delivery_dropped := by
    intro i e he hnone
    by_cases hi : i = id
    · rw [hi, hd.found, Option.some.injEq] at he
      rw [← he]
      refine ⟨hd.settled, hd.old, fun hregisters ⟨r, hr⟩ => ?_⟩
      rw [hd.result] at hr
      have hseals : app.sealsRegister d = true := by
        unfold sealsRegister
        rw [show (d.action == .register && d.dispatched) = true from hregisters,
          OrdMap.contains_iff.mpr ⟨r, hr⟩]
        rfl
      rw [hd.baseline_eq, hseals]
      simp
    · exact absurd ((hd.deliveries_some.mpr ⟨hi, he⟩).symm.trans hnone) nofun
  through_le j r _ := by rw [(hd.sameChain j).through_eq]
  registered j r _ hflag := by
    rw [hd.baseline_eq, hflag]
    rfl

end DeliveryDropped

structure DeliveriesDropped (P : Platform) (app : Application) (done : List Uuid)
    (next : Application) : Prop where
  sound : next.Sound P
  shrinks : app.Shrinks next
  tasks : next.tasks = app.tasks
  records : next.records = app.records
  grants : next.grants = app.grants
  same : ∀ id, app.SameChain next id
  waiting : ∀ id ∈ done, ∀ d, next.deliveries.get? id = some d →
    ¬ (d.status.isSome = true ∧ stale d.storedAt app.lastTime = true)

theorem deliveriesDropped (h : app.Sound P) :
    DeliveriesDropped P app app.deliveries.keys (app.deliveries.keys.foldl dropDelivery app) := by
  apply foldl_invariant (DeliveriesDropped P app)
  · exact ⟨h, .refl app, rfl, rfl, rfl, fun _ => ⟨rfl, rfl, rfl, rfl⟩,
      fun _ hin => absurd hin List.not_mem_nil⟩
  · intro done id rest next _ hdone
    rcases next.dropDelivery_cases id with ⟨heq, hkept⟩ | ⟨d, hdropped⟩
    · rw [heq]
      refine { hdone with waiting := fun other hother d hd => ?_ }
      rcases List.mem_append.mp hother with hin | hin
      · exact hdone.waiting other hin d hd
      · rw [List.mem_singleton] at hin
        rw [← hdone.shrinks.lastTime]
        exact hkept d (hin ▸ hd)
    · refine ⟨hdropped.sound hdone.sound, hdone.shrinks.trans hdropped.shrinks, ?_, ?_, ?_,
        fun j => (hdone.same j).trans (hdropped.sameChain j), ?_⟩
      · rw [hdropped.result]
        exact hdone.tasks
      · rw [hdropped.result]
        exact hdone.records
      · rw [hdropped.result]
        exact hdone.grants
      · intro other hother e he
        obtain ⟨hne, hold⟩ := hdropped.deliveries_some.mp he
        rcases List.mem_append.mp hother with hin | hin
        · exact hdone.waiting other hin e hold
        · exact absurd (List.mem_singleton.mp hin) hne

end Application

end Credman
