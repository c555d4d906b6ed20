import Credman.Compaction
import Credman.Access

/-! The last passes of compaction, which drop what nothing refers to any more,
and compaction as a whole. -/
namespace Credman

open Library Library.Checked

namespace Application

variable {P : Platform} {app : Application}

/-! Forgetting deleted records. -/

structure RecordDropped (app : Application) (id : Uuid) (r : Record) (next : Application) :
    Prop where
  found : app.records.get? id = some r
  deleted : r.deleted = true
  free : app.Unmentioned id
  result : next = { app with
    records := app.records.erase id, baselines := app.baselines.erase id }

theorem forgettable_iff {id : Uuid} {r : Record} :
    app.forgettable id r = true ↔ r.deleted = true ∧ app.Unmentioned id := by
  unfold forgettable
  simp only [Bool.and_eq_true, OrdMap.all_iff, bne_iff_ne]
  exact ⟨fun ⟨⟨⟨hdeleted, hgrants⟩, hdeliveries⟩, hrequests⟩ =>
    ⟨hdeleted, hgrants, hdeliveries, hrequests⟩,
    fun ⟨hdeleted, hfree⟩ => ⟨⟨⟨hdeleted, hfree.grants⟩, hfree.deliveries⟩, hfree.requests⟩⟩

namespace RecordDropped

variable {next : Application} {id : Uuid} {r : Record}

theorem records_some (hd : app.RecordDropped id r next) {j : Uuid} {s : Record} :
    next.records.get? j = some s ↔ j ≠ id ∧ app.records.get? j = some s := by
  rw [hd.result, OrdMap.get?_erase]
  split_ifs with heq
  · simp [heq]
  · exact ⟨fun h => ⟨fun hid => heq hid.symm, h⟩, fun h => h.2⟩

theorem baselines_some (hd : app.RecordDropped id r next) {j : Uuid} {base : RecordBaseline} :
    next.baselines.get? j = some base ↔ j ≠ id ∧ app.baselines.get? j = some base := by
  rw [hd.result, OrdMap.get?_erase]
  split_ifs with heq
  · simp [heq]
  · exact ⟨fun h => ⟨fun hid => heq hid.symm, h⟩, fun h => h.2⟩

theorem baseline_eq (hd : app.RecordDropped id r next) {j : Uuid} (hj : j ≠ id) :
    next.baseline j = app.baseline j := by
  unfold baseline
  rw [hd.result, OrdMap.get?_erase, if_neg fun heq => hj heq.symm]

theorem sameChain (hd : app.RecordDropped id r next) {j : Uuid} (hj : j ≠ id) :
    app.SameChain next j where
  requests := by rw [hd.result]
  through := by rw [hd.baseline_eq hj]
  secretVersion := by rw [hd.baseline_eq hj]
  deletePruned := by rw [hd.baseline_eq hj]

theorem unmentioned (hd : app.RecordDropped id r next) {j : Uuid} (h : app.Unmentioned j) :
    next.Unmentioned j := by
  rw [hd.result]
  exact ⟨h.grants, h.deliveries, h.requests⟩

theorem sound (h : app.Sound P) (hd : app.RecordDropped id r next) : next.Sound P where
  generation := by rw [hd.result]; exact h.generation
  clock := by rw [hd.result]; exact h.clock
  tasks := by rw [hd.result]; exact h.tasks
  one_owner := by rw [hd.result]; exact h.one_owner
  revoked := by rw [hd.result]; exact h.revoked
  records := by
    intro j s hs
    have hold := h.records j s (hd.records_some.mp hs).2
    rw [hd.result]
    exact hold
  grants := by
    intro gid g hg
    rw [hd.result] at hg
    obtain ⟨s, t, hs, ht, hsound⟩ := h.grants gid g hg
    exact ⟨s, t, hd.records_some.mpr ⟨hd.free.grants gid g hg, hs⟩, by rw [hd.result]; exact ht,
      hsound⟩
  receipts := by
    intro key c hc
    rw [hd.result] at hc
    obtain ⟨t, s, ht, hs, hreceipt, hkind⟩ := h.receipts key c hc
    have hne := hd.free.requests key c hc
    rw [(hd.sameChain hne).through_eq]
    refine ⟨t, s, by rw [hd.result]; exact ht, hd.records_some.mpr ⟨hne, hs⟩, hreceipt, ?_⟩
    rw [hd.result]
    exact hkind
  one_receipt := by rw [hd.result]; exact h.one_receipt
  one_share := by rw [hd.result]; exact h.one_share
  baselines := by
    intro j base hb
    obtain ⟨hj, hold⟩ := hd.baselines_some.mp hb
    obtain ⟨s, hs, hsound⟩ := h.baselines j base hold
    exact ⟨s, hd.records_some.mpr ⟨hj, hs⟩, hsound⟩
  pruned := by
    intro j base gid hb hmem
    have hold := h.pruned j base gid (hd.baselines_some.mp hb).2 hmem
    rw [hd.result]
    exact hold
  chain := by
    intro j s hs
    obtain ⟨hj, hold⟩ := hd.records_some.mp hs
    exact (hd.sameChain hj).chainSound (h.chain j s hold)
  accounted := by
    intro gid g hg
    rw [hd.result] at hg
    rcases h.accounted gid g hg with hshare | ⟨j, base, hb, hmem⟩
    · left
      rw [hd.result]
      exact hshare
    · refine .inr ⟨j, base, hd.baselines_some.mpr ⟨fun hj => ?_, hb⟩, hmem⟩
      obtain ⟨⟨g', hg', hrecord⟩, -⟩ := h.pruned j base gid hb hmem
      exact hd.free.grants gid g' hg' (hrecord.trans hj)
  deliveries := by
    intro i e he
    rw [hd.result] at he
    obtain ⟨t, s, ht, hs, hsound⟩ := h.deliveries i e he
    exact ⟨t, s, by rw [hd.result]; exact ht,
      hd.records_some.mpr ⟨hd.free.deliveries i e he, hs⟩, hsound⟩
  no_receipt := by rw [hd.result]; exact h.no_receipt
  one_delivery := by rw [hd.result]; exact h.one_delivery
  one_register := by rw [hd.result]; exact h.one_register
  verified := by
    intro j s hs hsignup
    obtain ⟨hj, hold⟩ := hd.records_some.mp hs
    rcases h.verified j s hold hsignup with ⟨base, hb, hflag⟩ | hevidence
    · exact .inl ⟨base, hd.baselines_some.mpr ⟨hj, hb⟩, hflag⟩
    · right
      rw [hd.result]
      exact hevidence

theorem shrinks (hd : app.RecordDropped id r next) : app.Shrinks next where
  lastTime := by rw [hd.result]
  clockFrozen := by rw [hd.result]
  generation := by rw [hd.result]
  predecessor := by rw [hd.result]
  audit := by rw [hd.result]
  tasks := by rw [hd.result]; exact fun _ _ h => h
  records j s hs := (hd.records_some.mp hs).2
  grants := by rw [hd.result]; exact fun _ _ h => h
  requests := by rw [hd.result]; exact fun _ _ h => h
  deliveries := by rw [hd.result]; exact fun _ _ h => h
  revoked := by rw [hd.result]; exact fun _ _ _ => Iff.rfl
  revoked_sub := by rw [hd.result]
  task_dropped := by rw [hd.result]; exact fun _ _ h hnone => absurd (h.symm.trans hnone) nofun
  record_dropped := by
    intro j s hs hnone
    by_cases hj : j = id
    · subst hj
      rw [hd.found, Option.some.injEq] at hs
      exact ⟨hs ▸ hd.deleted, hd.unmentioned hd.free⟩
    · exact absurd ((hd.records_some.mpr ⟨hj, hs⟩).symm.trans hnone) nofun
  grant_dropped := by rw [hd.result]; exact fun _ _ h hnone => absurd (h.symm.trans hnone) nofun
  request_dropped := by rw [hd.result]; exact fun _ _ h hnone => absurd (h.symm.trans hnone) nofun
  delivery_dropped := by rw [hd.result]; exact fun _ _ h hnone => absurd (h.symm.trans hnone) nofun
  through_le j s hs := by rw [(hd.sameChain (hd.records_some.mp hs).1).through_eq]
  registered j s hs hflag := by
    rw [hd.baseline_eq (hd.records_some.mp hs).1]
    exact hflag

end RecordDropped

structure RecordsDropped (P : Platform) (app : Application) (done : List Uuid)
    (next : Application) : Prop where
  sound : next.Sound P
  shrinks : app.Shrinks next
  records : ∀ id, next.records.get? id = if id ∈ done then none else app.records.get? id
  rest : next = { app with records := next.records, baselines := next.baselines }
  same : ∀ id r, next.records.get? id = some r → app.SameChain next id

theorem recordsDropped (h : app.Sound P) :
    RecordsDropped P app (app.records.filter app.forgettable).keys app.dropRecords := by
  unfold dropRecords
  apply foldl_invariant (RecordsDropped P app)
  · exact ⟨h, .refl app, fun id => by simp, rfl, fun _ _ _ => ⟨rfl, rfl, rfl, rfl⟩⟩
  · intro done id rest next heq hdone
    have hnodup := (app.records.filter app.forgettable).nodup_keys
    obtain ⟨r, hr⟩ := OrdMap.mem_keys.mp
      (show id ∈ (app.records.filter app.forgettable).keys by rw [heq]; simp)
    rw [OrdMap.get?_filter, Option.filter_eq_some_iff] at hr
    obtain ⟨hdeleted, hfree⟩ := forgettable_iff.mp hr.2
    have hnew : id ∉ done := by
      rw [heq] at hnodup
      exact fun hin => List.disjoint_of_nodup_append hnodup hin (by simp)
    have hdropped : next.RecordDropped id r { next with
        records := next.records.erase id, baselines := next.baselines.erase id } := by
      refine ⟨?_, hdeleted, hdone.shrinks.unmentioned hfree, rfl⟩
      rw [hdone.records, if_neg hnew]
      exact hr.1
    refine ⟨hdropped.sound hdone.sound, hdone.shrinks.trans hdropped.shrinks, ?_, ?_, ?_⟩
    · intro j
      dsimp only
      rw [OrdMap.get?_erase, hdone.records]
      by_cases hj : id = j
      · simp [hj]
      · have hne : j ≠ id := fun heq => hj heq.symm
        simp [hj, hne]
    · rw [hdone.rest]
    · intro j s hs
      obtain ⟨hj, hold⟩ := hdropped.records_some.mp hs
      exact (hdone.same j s hold).trans (hdropped.sameChain hj)

/-! Forgetting tasks that are over and that nothing refers to. -/

theorem mem_removableTasks {id : Uuid} : id ∈ app.removableTasks ↔
    ∃ t, app.tasks.get? id = some t ∧ app.referencedTask id = false ∧ app.taskOver id t := by
  unfold removableTasks taskOver
  rw [OrdMap.mem_keys]
  apply exists_congr
  intro t
  rw [OrdMap.get?_filter, Option.filter_eq_some_iff, Bool.and_eq_true, Bool.not_eq_true',
    Bool.or_eq_true, decide_eq_true_eq, Option.any_eq_true]
  simp only [decide_eq_true_eq]

theorem longestTask_mem {l : List TaskApproval} (h : l ≠ []) :
    ∃ t ∈ l, longestTask l = some t := by
  induction l with
  | nil => exact absurd rfl h
  | cons head rest ih =>
    unfold longestTask
    cases hlongest : longestTask rest with
    | none => exact ⟨head, by simp, rfl⟩
    | some other =>
      have hne : rest ≠ [] := by
        intro hnil
        rw [hnil] at hlongest
        cases hlongest
      obtain ⟨t, ht, hsome⟩ := ih hne
      rw [hlongest, Option.some.injEq] at hsome
      dsimp only
      split_ifs
      · exact ⟨head, by simp, rfl⟩
      · exact ⟨other, by simp [hsome, ht], rfl⟩

/-- The tasks to remove, after one has been spared if all were to go. -/
def removedTasks (app : Application) : List Uuid :=
  if !app.tasks.isEmpty && app.removableTasks.length == app.tasks.size then
    match longestTask app.tasks.values with
    | some keep => app.removableTasks.filter (· != keep.id)
    | none => app.removableTasks
  else app.removableTasks

theorem removedTasks_sub {id : Uuid} (h : id ∈ app.removedTasks) : id ∈ app.removableTasks := by
  unfold removedTasks at h
  split_ifs at h
  · split at h
    · exact (List.mem_filter.mp h).1
    · exact h
  · exact h

theorem removableTasks_nodup (app : Application) : app.removableTasks.Nodup :=
  OrdMap.nodup_keys _

/-- Some task is always spared. -/
theorem removedTasks_spare (h : app.Sound P) (hsome : app.tasks.isEmpty = false) :
    ∃ id t, app.tasks.get? id = some t ∧ id ∉ app.removedTasks := by
  unfold removedTasks
  rw [hsome]
  by_cases hall : app.removableTasks.length = app.tasks.size
  · have hcond : (!false && app.removableTasks.length == app.tasks.size) = true := by simp [hall]
    rw [if_pos hcond]
    obtain ⟨key, value, hget⟩ := OrdMap.isEmpty_false.mp hsome
    have hne : app.tasks.values ≠ [] := List.ne_nil_of_mem (OrdMap.mem_values.mpr ⟨key, hget⟩)
    obtain ⟨keep, hkeep, hlongest⟩ := longestTask_mem hne
    obtain ⟨id, hid⟩ := OrdMap.mem_values.mp hkeep
    rw [hlongest]
    refine ⟨id, keep, hid, fun hin => ?_⟩
    have hneid := (List.mem_filter.mp hin).2
    rw [bne_iff_ne] at hneid
    exact hneid (h.tasks id keep hid).id_eq
  · have hcond : ¬ (!false && app.removableTasks.length == app.tasks.size) = true := by simp [hall]
    rw [if_neg hcond]
    by_contra hnone
    push Not at hnone
    apply hall
    have hperm : app.removableTasks.Perm app.tasks.keys := by
      apply (List.perm_ext_iff_of_nodup app.removableTasks_nodup app.tasks.nodup_keys).mpr
      intro id
      rw [OrdMap.mem_keys]
      constructor
      · intro hin
        obtain ⟨t, ht, -⟩ := mem_removableTasks.mp hin
        exact ⟨t, ht⟩
      · rintro ⟨t, ht⟩
        exact hnone id t ht
    rw [hperm.length_eq, OrdMap.keys, List.length_map, OrdMap.size]

structure TasksDropped (app next : Application) : Prop where
  result : next = { app with tasks := next.tasks, revokedTasks := next.revokedTasks }
  tasks : ∀ id, next.tasks.get? id = if id ∈ app.removedTasks then none else app.tasks.get? id
  revoked : ∀ id, id ∈ next.revokedTasks ↔
    id ∈ app.revokedTasks ∧ ∃ t, next.tasks.get? id = some t

/-- The loop that removes tasks. -/
def eraseTasks (app : Application) (remove : List Uuid) : Application :=
  remove.foldl (fun app id =>
    { app with tasks := app.tasks.erase id, revokedTasks := app.revokedTasks.erase id }) app

theorem eraseTasks_spec (app : Application) (remove : List Uuid) :
    app.eraseTasks remove = { app with
        tasks := (app.eraseTasks remove).tasks
        revokedTasks := (app.eraseTasks remove).revokedTasks }
      ∧ (∀ id, (app.eraseTasks remove).tasks.get? id =
          if id ∈ remove then none else app.tasks.get? id)
      ∧ ∀ id, id ∈ (app.eraseTasks remove).revokedTasks ↔ id ∈ app.revokedTasks ∧ id ∉ remove := by
  induction remove generalizing app with
  | nil => exact ⟨rfl, fun id => by simp [eraseTasks], fun id => by simp [eraseTasks]⟩
  | cons a rest ih =>
    obtain ⟨hresult, htasks, hrevoked⟩ := ih { app with
      tasks := app.tasks.erase a, revokedTasks := app.revokedTasks.erase a }
    have heq : app.eraseTasks (a :: rest) = { app with
        tasks := app.tasks.erase a, revokedTasks := app.revokedTasks.erase a
      }.eraseTasks rest := rfl
    rw [heq]
    refine ⟨hresult, fun id => ?_, fun id => ?_⟩
    · rw [htasks, OrdMap.get?_erase]
      by_cases hid : a = id
      · simp [hid]
      · have hne : id ≠ a := fun heq => hid heq.symm
        simp [hid, hne]
    · rw [hrevoked, Finset.mem_erase, List.mem_cons, not_or]
      tauto

theorem tasksDropped (app : Application) : app.TasksDropped app.dropTasks := by
  obtain ⟨hresult, htasks, hrevoked⟩ := app.eraseTasks_spec app.removedTasks
  have heq : app.dropTasks = { app.eraseTasks app.removedTasks with
      revokedTasks := (app.eraseTasks app.removedTasks).revokedTasks.filter fun id =>
        (app.eraseTasks app.removedTasks).tasks.contains id = true } := rfl
  rw [heq]
  refine ⟨?_, htasks, fun id => ?_⟩
  · dsimp only
    rw [hresult]
  · dsimp only
    rw [Finset.mem_filter, hrevoked, OrdMap.contains_iff]
    constructor
    · exact fun h => ⟨h.1.1, h.2⟩
    · rintro ⟨hin, t, ht⟩
      refine ⟨⟨hin, fun hgone => ?_⟩, t, ht⟩
      rw [htasks, if_pos hgone] at ht
      cases ht

namespace TasksDropped

variable {next : Application} {id : Uuid}

theorem tasks_sub (hd : app.TasksDropped next) {t : TaskApproval}
    (h : next.tasks.get? id = some t) : app.tasks.get? id = some t := by
  rw [hd.tasks] at h
  split_ifs at h
  exact h

/-- A task something refers to stays. -/
theorem tasks_kept (hd : app.TasksDropped next) {t : TaskApproval}
    (h : app.tasks.get? id = some t) (href : app.referencedTask id = true) :
    next.tasks.get? id = some t := by
  rw [hd.tasks, if_neg, h]
  intro hin
  obtain ⟨-, -, hfree, -⟩ := mem_removableTasks.mp (removedTasks_sub hin)
  rw [href] at hfree
  cases hfree

theorem of_record (hr : ∃ i r, app.records.get? i = some r ∧ r.task = id) :
    app.referencedTask id = true := by
  rw [← Bool.not_eq_false, referencedTask_eq_false]
  obtain ⟨i, r, hr, htask⟩ := hr
  exact fun h => h.1 i r hr htask

theorem of_grant (hg : ∃ i g, app.grants.get? i = some g ∧ g.issuerTask = id) :
    app.referencedTask id = true := by
  rw [← Bool.not_eq_false, referencedTask_eq_false]
  obtain ⟨i, g, hg, htask⟩ := hg
  exact fun h => h.2.1 i g hg htask

theorem of_delivery (hd : ∃ i d, app.deliveries.get? i = some d ∧ d.task = id) :
    app.referencedTask id = true := by
  rw [← Bool.not_eq_false, referencedTask_eq_false]
  obtain ⟨i, d, hd, htask⟩ := hd
  exact fun h => (h.2.2.1 i d hd).1 htask

theorem of_request (hc : ∃ key c, app.requests.get? key = some c ∧ key.task = id) :
    app.referencedTask id = true := by
  rw [← Bool.not_eq_false, referencedTask_eq_false]
  obtain ⟨key, c, hc, htask⟩ := hc
  exact fun h => h.2.2.2 key c hc htask

theorem sound (h : app.Sound P) (hd : app.TasksDropped next) : next.Sound P where
  generation := by rw [hd.result]; exact h.generation
  clock := by rw [hd.result]; exact h.clock
  tasks id t ht := h.tasks id t (hd.tasks_sub ht)
  one_owner i s j t hs ht := h.one_owner i s j t (hd.tasks_sub hs) (hd.tasks_sub ht)
  revoked id hid := ((hd.revoked id).mp hid).2
  records := by
    intro id r hr
    rw [hd.result] at hr
    obtain ⟨t, ht, hsound⟩ := h.records id r hr
    exact ⟨t, hd.tasks_kept ht (of_record ⟨id, r, hr, rfl⟩), hsound⟩
  grants := by
    intro id g hg
    rw [hd.result] at hg
    obtain ⟨r, t, hr, ht, hsound⟩ := h.grants id g hg
    refine ⟨r, t, ?_, hd.tasks_kept ht (of_grant ⟨id, g, hg, rfl⟩), hsound⟩
    rw [hd.result]
    exact hr
  receipts := by
    intro key c hc
    rw [hd.result] at hc
    obtain ⟨t, r, ht, hr, hsound⟩ := h.receipts key c hc
    refine ⟨t, r, hd.tasks_kept ht (of_request ⟨key, c, hc, rfl⟩), ?_⟩
    rw [hd.result]
    exact ⟨hr, hsound⟩
  one_receipt := by rw [hd.result]; exact h.one_receipt
  one_share := by rw [hd.result]; exact h.one_share
  baselines := by rw [hd.result]; exact h.baselines
  pruned := by rw [hd.result]; exact h.pruned
  chain := by
    intro id r hr
    rw [hd.result] at hr
    have hchain := h.chain id r hr
    rw [hd.result]
    exact ⟨hchain.covered, hchain.created, hchain.deleted, hchain.deleted_once⟩
  accounted := by rw [hd.result]; exact h.accounted
  deliveries := by
    intro i d hdel
    rw [hd.result] at hdel
    obtain ⟨t, r, ht, hr, hsound⟩ := h.deliveries i d hdel
    refine ⟨t, r, hd.tasks_kept ht (of_delivery ⟨i, d, hdel, rfl⟩), ?_⟩
    rw [hd.result]
    exact ⟨hr, hsound⟩
  no_receipt := by rw [hd.result]; exact h.no_receipt
  one_delivery := by rw [hd.result]; exact h.one_delivery
  one_register := by rw [hd.result]; exact h.one_register
  verified := by rw [hd.result]; exact h.verified

theorem sameChain (hd : app.TasksDropped next) (id : Uuid) : app.SameChain next id := by
  rw [hd.result]
  exact ⟨rfl, rfl, rfl, rfl⟩

theorem shrinks (hd : app.TasksDropped next) : app.Shrinks next where
  lastTime := by rw [hd.result]
  clockFrozen := by rw [hd.result]
  generation := by rw [hd.result]
  predecessor := by rw [hd.result]
  audit := by rw [hd.result]
  tasks _ _ := hd.tasks_sub
  records := by rw [hd.result]; exact fun _ _ h => h
  grants := by rw [hd.result]; exact fun _ _ h => h
  requests := by rw [hd.result]; exact fun _ _ h => h
  deliveries := by rw [hd.result]; exact fun _ _ h => h
  revoked id t ht := (hd.revoked id).trans ⟨fun h => h.1, fun h => ⟨h, t, ht⟩⟩
  revoked_sub id hid := ((hd.revoked id).mp hid).1
  task_dropped := by
    intro id t ht hnone
    rw [hd.tasks] at hnone
    split_ifs at hnone with hin
    · obtain ⟨t', ht', hfree, hover⟩ := mem_removableTasks.mp (removedTasks_sub hin)
      rw [ht, Option.some.injEq] at ht'
      rw [ht', hd.result]
      exact ⟨hover, hfree⟩
    · exact absurd (ht.symm.trans hnone) nofun
  record_dropped := by rw [hd.result]; exact fun _ _ h hnone => absurd (h.symm.trans hnone) nofun
  grant_dropped := by rw [hd.result]; exact fun _ _ h hnone => absurd (h.symm.trans hnone) nofun
  request_dropped := by rw [hd.result]; exact fun _ _ h hnone => absurd (h.symm.trans hnone) nofun
  delivery_dropped := by rw [hd.result]; exact fun _ _ h hnone => absurd (h.symm.trans hnone) nofun
  through_le id r _ := by rw [(hd.sameChain id).through_eq]
  registered id r _ hflag := by
    rw [hd.result]
    exact hflag

end TasksDropped

/-! Pruning the baselines. -/

theorem pruneBaseline_eq (h : app.Sound P) {id : Uuid} {base : RecordBaseline}
    (hb : app.baselines.get? id = some base) : app.pruneBaseline id base = base := by
  obtain ⟨r, hr, -, -, -, hsorted, hverified⟩ := h.baselines id base hb
  have hpruned : (base.prunedGrants.insertionSort (· ≤ ·)).destutter (· ≠ ·) =
      base.prunedGrants := by
    rw [(hsorted.imp fun hlt => le_of_lt hlt).insertionSort_eq]
    exact List.destutter_of_isChain _ _ ((hsorted.imp fun hlt => ne_of_lt hlt).isChain)
  unfold pruneBaseline
  dsimp only
  split_ifs with hclear
  · have hflag : base.verifiedLogin = false := by
      rw [← Bool.not_eq_true]
      intro hflag
      simp [hr, hverified hflag] at hclear
    dsimp only
    rw [hpruned, ← hflag]
  · rw [hpruned]

structure BaselinesPruned (app next : Application) : Prop where
  result : next = { app with baselines := next.baselines }
  sub : ∀ id base, next.baselines.get? id = some base → app.baselines.get? id = some base
  baseline : ∀ id, next.baseline id = app.baseline id

/-- The baselines that go say nothing. -/
theorem baselinesPruned (h : app.Sound P) : app.BaselinesPruned app.pruneBaselines := by
  have hget : ∀ id base, app.pruneBaselines.baselines.get? id = some base ↔
      app.baselines.get? id = some base ∧ (app.records.contains id
        && (decide (0 < base.through) || base.deletePruned || base.registrationDispatched
          || base.verifiedLogin || !base.prunedGrants.isEmpty)) = true := by
    intro id base
    unfold pruneBaselines
    rw [OrdMap.get?_filter, Option.filter_eq_some_iff, OrdMap.get?_mapVals]
    apply and_congr_left
    intro _
    cases hb : app.baselines.get? id with
    | none => simp
    | some old => rw [Option.map_some, pruneBaseline_eq h hb]
  refine ⟨rfl, fun id base hb => ((hget id base).mp hb).1, fun id => ?_⟩
  cases hb : app.baselines.get? id with
  | none =>
    cases hb' : app.pruneBaselines.baselines.get? id with
    | none => rw [baseline, baseline, hb, hb']
    | some base => cases hb.symm.trans ((hget id base).mp hb').1
  | some base =>
    obtain ⟨r, hr, -, hfresh, -⟩ := h.baselines id base hb
    have hcontains : app.records.contains id = true := OrdMap.contains_iff.mpr ⟨r, hr⟩
    by_cases hsays : (decide (0 < base.through) || base.deletePruned || base.registrationDispatched
        || base.verifiedLogin || !base.prunedGrants.isEmpty) = true
    · rw [baseline, baseline, hb, (hget id base).mpr ⟨hb, by rw [hcontains, hsays]; rfl⟩]
    · have hnone : app.pruneBaselines.baselines.get? id = none := by
        rw [Option.eq_none_iff_forall_ne_some]
        intro other hother
        obtain ⟨hsame, hcond⟩ := (hget id other).mp hother
        rw [hb, Option.some.injEq] at hsame
        rw [← hsame, hcontains, Bool.true_and] at hcond
        exact hsays hcond
      simp only [Bool.or_eq_true, decide_eq_true_eq, not_or, Bool.not_eq_true, Bool.not_eq_false',
        List.isEmpty_iff] at hsays
      obtain ⟨⟨⟨⟨hthrough, hpruned⟩, hregistered⟩, hverified⟩, hgrants⟩ := hsays
      have hzero : base.through = 0 := by
        by_contra hne
        exact hthrough (UInt64.pos_iff_ne_zero.mpr hne)
      have hversion := (hfresh hzero).1
      rw [baseline, baseline, hb, hnone]
      cases base
      simp_all

namespace BaselinesPruned

variable {next : Application}

theorem sameChain (hd : app.BaselinesPruned next) (id : Uuid) : app.SameChain next id where
  requests := by rw [hd.result]
  through := by rw [hd.baseline]
  secretVersion := by rw [hd.baseline]
  deletePruned := by rw [hd.baseline]

theorem sound (h : app.Sound P) (hd : app.BaselinesPruned next) : next.Sound P where
  generation := by rw [hd.result]; exact h.generation
  clock := by rw [hd.result]; exact h.clock
  tasks := by rw [hd.result]; exact h.tasks
  one_owner := by rw [hd.result]; exact h.one_owner
  revoked := by rw [hd.result]; exact h.revoked
  records := by rw [hd.result]; exact h.records
  grants := by rw [hd.result]; exact h.grants
  receipts := by
    intro key c hc
    rw [(hd.sameChain key.id).requests] at hc
    rw [(hd.sameChain c.result.record).through_eq, hd.result]
    exact h.receipts key c hc
  one_receipt := by rw [hd.result]; exact h.one_receipt
  one_share := by rw [hd.result]; exact h.one_share
  baselines := by
    intro id base hb
    have hold := h.baselines id base (hd.sub id base hb)
    rw [hd.result]
    exact hold
  pruned := by
    intro id base gid hb hmem
    have hold := h.pruned id base gid (hd.sub id base hb) hmem
    rw [hd.result]
    exact hold
  chain := by
    intro id r hr
    rw [hd.result] at hr
    exact (hd.sameChain id).chainSound (h.chain id r hr)
  accounted := by
    intro gid g hg
    rw [hd.result] at hg
    rcases h.accounted gid g hg with hshare | ⟨id, base, hb, hmem⟩
    · left
      rw [hd.result]
      exact hshare
    · refine .inr ⟨id, ?_⟩
      rw [← Folded.mem_baseline_prunedGrants, hd.baseline, Folded.mem_baseline_prunedGrants]
      exact ⟨base, hb, hmem⟩
  deliveries := by rw [hd.result]; exact h.deliveries
  no_receipt := by rw [hd.result]; exact h.no_receipt
  one_delivery := by rw [hd.result]; exact h.one_delivery
  one_register := by rw [hd.result]; exact h.one_register
  verified := by
    intro id r hr hsignup
    rw [hd.result] at hr
    rcases h.verified id r hr hsignup with hbase | hevidence
    · left
      rw [← baseline_verifiedLogin, hd.baseline, baseline_verifiedLogin]
      exact hbase
    · right
      rw [hd.result]
      exact hevidence

theorem shrinks (hd : app.BaselinesPruned next) : app.Shrinks next where
  lastTime := by rw [hd.result]
  clockFrozen := by rw [hd.result]
  generation := by rw [hd.result]
  predecessor := by rw [hd.result]
  audit := by rw [hd.result]
  tasks := by rw [hd.result]; exact fun _ _ h => h
  records := by rw [hd.result]; exact fun _ _ h => h
  grants := by rw [hd.result]; exact fun _ _ h => h
  requests := by rw [hd.result]; exact fun _ _ h => h
  deliveries := by rw [hd.result]; exact fun _ _ h => h
  revoked := by rw [hd.result]; exact fun _ _ _ => Iff.rfl
  revoked_sub := by rw [hd.result]
  task_dropped := by rw [hd.result]; exact fun _ _ h hnone => absurd (h.symm.trans hnone) nofun
  record_dropped := by rw [hd.result]; exact fun _ _ h hnone => absurd (h.symm.trans hnone) nofun
  grant_dropped := by rw [hd.result]; exact fun _ _ h hnone => absurd (h.symm.trans hnone) nofun
  request_dropped := by rw [hd.result]; exact fun _ _ h hnone => absurd (h.symm.trans hnone) nofun
  delivery_dropped := by rw [hd.result]; exact fun _ _ h hnone => absurd (h.symm.trans hnone) nofun
  through_le id r _ := by rw [(hd.sameChain id).through_eq]
  registered id r _ hflag := by
    rw [hd.baseline]
    exact hflag

end BaselinesPruned

/-! The audit log. -/

theorem retainAudit_sound (h : app.Sound P) : app.retainAudit.Sound P where
  generation := h.generation
  clock := h.clock
  tasks := h.tasks
  one_owner := h.one_owner
  revoked := h.revoked
  records := h.records
  grants := h.grants
  receipts := h.receipts
  one_receipt := h.one_receipt
  one_share := h.one_share
  baselines := h.baselines
  pruned := h.pruned
  chain id r hr :=
    ⟨(h.chain id r hr).covered, (h.chain id r hr).created, (h.chain id r hr).deleted,
      (h.chain id r hr).deleted_once⟩
  accounted := h.accounted
  deliveries := h.deliveries
  no_receipt := h.no_receipt
  one_delivery := h.one_delivery
  one_register := h.one_register
  verified := h.verified

theorem retainAudit_shrinks (app : Application) : app.Shrinks app.retainAudit :=
  { Shrinks.refl app with
    audit := List.filter_sublist
    record_dropped := fun _ _ h hnone => absurd (h.symm.trans hnone) nofun }

theorem retainAudit_sameChain (app : Application) (id : Uuid) :
    app.SameChain app.retainAudit id :=
  ⟨rfl, rfl, rfl, rfl⟩

/-- An event of a valid log that is kept still has what it refers to. -/
theorem Shrinks.audit_kept {next : Application} (hvalid : app.Valid P) (h : app.Shrinks next)
    {event : AuditEvent} (hmem : event ∈ app.audit) (hkeeps : next.keepsEvent event = true) :
    ∃ t r, next.tasks.get? event.task = some t ∧ next.records.get? event.record = some r
      ∧ next.AuditSound event t r := by
  unfold keepsEvent at hkeeps
  obtain ⟨t, r, ht, hr, hsound⟩ := hvalid.audit event hmem
  cases ht' : next.tasks.get? event.task with
  | none => simp [ht'] at hkeeps
  | some t' =>
    rw [ht'] at hkeeps
    have hteq := Option.some.inj (ht.symm.trans (h.tasks _ _ ht'))
    dsimp only at hkeeps
    split_ifs at hkeeps with hcontains
    rw [Bool.not_eq_true', Bool.not_eq_false, OrdMap.contains_iff] at hcontains
    obtain ⟨r', hr'⟩ := hcontains
    have hreq := Option.some.inj (hr.symm.trans (h.records _ _ hr'))
    refine ⟨t', r', rfl, hr', hteq ▸ hreq ▸ hsound.scope, fun hnew => ?_, fun request hrequest => ?_⟩
    · rw [h.lastTime, ← hteq]
      exact hsound.logged hnew
    · rw [hrequest] at hkeeps
      obtain ⟨cached, hcached, hrecord⟩ := (Option.any_eq_true _ _).mp hkeeps
      exact ⟨cached, hcached, beq_iff_eq.mp hrecord⟩

/-! Compaction as a whole. -/

/-- A deleted record of which nothing is young enough to be kept. -/
structure Forgotten (app : Application) (id : Uuid) (r : Record) : Prop where
  deleted : r.deleted = true
  requests : ∀ key c, app.requests.get? key = some c → c.result.record = id →
    stale c.storedAt app.lastTime = true
  deliveries : ∀ i d, app.deliveries.get? i = some d → d.record = id →
    d.status.isSome = true ∧ stale d.storedAt app.lastTime = true

/-- What compaction leaves of a valid application. -/
structure Compacted (P : Platform) (app next : Application) : Prop where
  sound : next.Sound P
  shrinks : app.Shrinks next
  sizes : next.SizesSound
  audit : ∀ event ∈ next.audit, ∃ t r, next.tasks.get? event.task = some t
    ∧ next.records.get? event.record = some r ∧ next.AuditSound event t r
  versions : ∀ id r, next.records.get? id = some r → (next.VersionSound id r ↔ app.Fits id)
  forgotten : ∀ id r, app.records.get? id = some r →
    (next.records.get? id = none ↔ app.Forgotten id r)
  some_task : app.tasks.isEmpty = false → next.tasks.isEmpty = false
  once : next.OneDelete
  rise : ∀ id r, next.records.get? id = some r →
    (app.baseline id).secretVersion ≤ r.secretVersion →
      (next.baseline id).secretVersion ≤ r.secretVersion

theorem Shrinks.sizesSound {next : Application} (hsizes : app.SizesSound) (h : app.Shrinks next)
    (hsound : next.Sound P) : next.SizesSound := by
  have hrecords : next.records.size ≤ limit :=
    (OrdMap.size_le_of_keys fun id r hr => ⟨r, h.records id r hr⟩).trans hsizes.records
  refine ⟨?_, hrecords, ?_, ?_, ?_, ?_, ?_, ?_⟩
  · exact (OrdMap.size_le_of_keys fun id t ht => ⟨t, h.tasks id t ht⟩).trans hsizes.tasks
  · exact (OrdMap.size_le_of_keys fun id g hg => ⟨g, h.grants id g hg⟩).trans hsizes.grants
  · exact (OrdMap.size_le_of_keys fun key c hc => ⟨c, h.requests key c hc⟩).trans hsizes.requests
  · exact (Finset.card_le_card h.revoked_sub).trans hsizes.revokedTasks
  · exact (OrdMap.size_le_of_keys fun id d hd => ⟨d, h.deliveries id d hd⟩).trans hsizes.deliveries
  · exact h.audit.length_le.trans hsizes.audit
  · refine le_trans (OrdMap.size_le_of_keys fun id base hb => ?_) hrecords
    obtain ⟨r, hr, -⟩ := hsound.baselines id base hb
    exact ⟨r, hr⟩

/-- Once the grants, deliveries and receipts have been dropped, a record can be
forgotten exactly when it could be to begin with. -/
theorem forgettable_of_forgotten {folded granted delivered : Application} {id : Uuid} {r : Record}
    (hfolded : FoldedAll P app app.records.keys folded)
    (hgranted : GrantsDropped P folded folded.grants.keys granted)
    (hdelivered : DeliveriesDropped P granted granted.deliveries.keys delivered)
    (hr : app.records.get? id = some r) (h : app.Forgotten id r) :
    delivered.forgettable id r = true := by
  have hin : id ∈ app.records.keys := OrdMap.mem_keys.mpr ⟨r, hr⟩
  have hcleared := hfolded.cleared id hin h.requests
  refine forgettable_iff.mpr ⟨h.deleted, ?_, ?_, ?_⟩
  · intro gid g hg hrecord
    rw [hdelivered.grants] at hg
    have hold := hgranted.shrinks.grants gid g hg
    obtain ⟨s, t, hs, -, hsound⟩ := hfolded.sound.grants gid g hold
    rw [hrecord, hfolded.records, hr, Option.some.injEq] at hs
    have hover : folded.grantOver g := .inl (hsound.dead (hs ▸ h.deleted))
    obtain ⟨key, c, hc, hname⟩ :=
      hgranted.named gid (OrdMap.mem_keys.mpr ⟨g, hold⟩) g hg hover
    -- the receipt that still names the grant would be one of this record
    obtain ⟨t', s', -, -, -, hkind⟩ := hfolded.sound.receipts key c hc
    have hsame : c.result.record = id := by
      unfold KindSound at hkind
      cases hk : c.kind <;> rw [hk] at hkind
      case share | revoke =>
        obtain ⟨other, g', hother, hg', hgrecord, -⟩ := hkind
        rw [hname, Option.some.injEq] at hother
        rw [← hother, hold, Option.some.injEq] at hg'
        rw [← hgrecord, ← hg', hrecord]
      case create => rw [hname] at hkind; exact absurd hkind.2.2.2 nofun
      case delete => rw [hname] at hkind; exact absurd hkind.2 nofun
      case patch | metadataPatch | reportOutcome => rw [hname] at hkind; cases hkind
    exact hcleared key c hc hsame
  · intro i d hd hrecord
    have hold := hdelivered.shrinks.deliveries i d hd
    have hfirst : app.deliveries.get? i = some d := by
      rw [← hfolded.deliveries, ← hgranted.deliveries]
      exact hold
    apply hdelivered.waiting i (OrdMap.mem_keys.mpr ⟨d, hold⟩) d hd
    rw [hgranted.shrinks.lastTime, hfolded.shrinks.lastTime]
    exact h.deliveries i d hfirst hrecord
  · intro key c hc
    have hold := hgranted.shrinks.requests key c (hdelivered.shrinks.requests key c hc)
    exact hcleared key c hold

theorem compacted (h : app.Valid P) (once : app.OneDelete) : app.Compacted P app.compact := by
  have hfolded := foldedAll h once
  generalize hA : app.records.keys.foldl foldReceipts app = folded at hfolded
  have hgranted := grantsDropped hfolded.sound
  generalize hB : folded.grants.keys.foldl dropGrant folded = granted at hgranted
  have hdelivered := deliveriesDropped hgranted.sound
  generalize hC : granted.deliveries.keys.foldl dropDelivery granted = delivered at hdelivered
  have hrecords := recordsDropped hdelivered.sound
  have htasks := tasksDropped delivered.dropRecords
  have hbefore := (((hfolded.shrinks.trans hgranted.shrinks).trans hdelivered.shrinks).trans
    hrecords.shrinks).trans htasks.shrinks
  have hretained := retainAudit_sound (htasks.sound hrecords.sound)
  have hpruned := baselinesPruned hretained
  have hsound := hpruned.sound hretained
  have hcompact : app.compact = delivered.dropRecords.dropTasks.retainAudit.pruneBaselines := by
    rw [compact, hA]
    simp only [hB, hC]
  rw [← hcompact] at hpruned hsound
  have hshrinks : app.Shrinks app.compact := by
    exact (hbefore.trans (retainAudit_shrinks _)).trans hpruned.shrinks
  -- what the last three passes leave of the records
  have hkept : ∀ id, app.compact.records.get? id = delivered.dropRecords.records.get? id := by
    intro id
    rw [hpruned.result]
    change delivered.dropRecords.dropTasks.records.get? id = _
    rw [htasks.result]
  have hstart : delivered.records = app.records :=
    hdelivered.records.trans (hgranted.records.trans hfolded.records)
  have hchain : ∀ id r, delivered.dropRecords.records.get? id = some r →
      folded.SameChain app.compact id := fun id r hr =>
    ((((hgranted.same id).trans (hdelivered.same id)).trans (hrecords.same id r hr)).trans
      (htasks.sameChain id)).trans ((retainAudit_sameChain _ id).trans (hpruned.sameChain id))
  refine ⟨hsound, hshrinks, hshrinks.sizesSound h.sizes hsound, ?_, ?_, ?_, ?_, ?_, ?_⟩
  · intro event hevent
    rw [hpruned.result] at hevent ⊢
    obtain ⟨hmem, hkeeps⟩ := List.mem_filter.mp hevent
    obtain ⟨t, r, ht, hr, haudit⟩ := hbefore.audit_kept h (hbefore.audit.subset hmem) hkeeps
    exact ⟨t, r, ht, hr, haudit.scope, haudit.logged, haudit.receipt⟩
  · intro id r hr
    rw [hkept] at hr
    have hold := hrecords.shrinks.records id r hr
    rw [hstart] at hold
    rw [(hchain id r hr).versionSound, hfolded.versions id r hold]
    exact ⟨fun hfits => hfits (OrdMap.mem_keys.mpr ⟨r, hold⟩), fun hfits _ => hfits⟩
  · intro id r hr
    constructor
    · intro hnone
      obtain ⟨hdeleted, hfree⟩ := hshrinks.record_dropped id r hr hnone
      refine ⟨hdeleted, fun key c hc hrecord => ?_, fun i d hd hrecord => ?_⟩
      · cases hc' : app.compact.requests.get? key with
        | none => exact (hshrinks.request_dropped key c hc hc').1
        | some c' =>
          have heq := Option.some.inj (hc.symm.trans (hshrinks.requests key c' hc'))
          exact absurd (heq ▸ hrecord) (hfree.requests key c' hc')
      · cases hd' : app.compact.deliveries.get? i with
        | none =>
          obtain ⟨hdone, hstale, -⟩ := hshrinks.delivery_dropped i d hd hd'
          exact ⟨hdone, hstale⟩
        | some d' =>
          have heq := Option.some.inj (hd.symm.trans (hshrinks.deliveries i d' hd'))
          exact absurd (heq ▸ hrecord) (hfree.deliveries i d' hd')
    · intro hforgotten
      have hforget := forgettable_of_forgotten hfolded hgranted hdelivered hr hforgotten
      rw [hkept, hrecords.records, if_pos]
      refine OrdMap.mem_keys.mpr ⟨r, ?_⟩
      rw [OrdMap.get?_filter, Option.filter_eq_some_iff, hstart]
      exact ⟨hr, hforget⟩
  · intro hsome
    have hsame : delivered.dropRecords.tasks = app.tasks := by
      rw [hrecords.rest]
      exact hdelivered.tasks.trans (hgranted.tasks.trans hfolded.tasks)
    obtain ⟨id, t, ht, hspared⟩ := removedTasks_spare hrecords.sound (hsame ▸ hsome)
    rw [hpruned.result]
    refine OrdMap.isEmpty_false.mpr ⟨id, t, ?_⟩
    change delivered.dropRecords.dropTasks.tasks.get? id = some t
    rw [htasks.tasks, if_neg hspared]
    exact ht
  · intro k c k' c' hk hk'
    exact once k c k' c' (hshrinks.requests k c hk) (hshrinks.requests k' c' hk')
  · intro id r hr hrise
    rw [hkept] at hr
    have hold := hrecords.shrinks.records id r hr
    rw [hstart] at hold
    rw [(hchain id r hr).secretVersion]
    exact hfolded.rise id r hold hrise

/-- Younger than the retry window at the vault clock. -/
def young (storedAt now : Option Time) : Prop :=
  ∀ stored last, storedAt = some stored → now = some last → last - stored < retryWindow

theorem stale_eq_false {storedAt now : Option Time} : stale storedAt now = false ↔
    young storedAt now := by
  unfold stale young
  cases storedAt with
  | none => simp
  | some stored =>
    cases now with
    | none => simp
    | some last =>
      simp only [Option.any_some, decide_eq_false_iff_not, not_le, Option.some.injEq]
      unfold Time.saturatingSub Time.min Time.max retryWindow
      lia

/-- What a compaction promises of the application it leaves. -/
structure CompactionSound (P : Platform) (app next : Application) : Prop where
  valid : next.validate P = .ok ()
  records : ∀ id r, app.records.get? id = some r → r.deleted = false →
    next.records.get? id = some r
  grants : ∀ id g, app.grants.get? id = some g → g.revoked = false →
    (∀ now, app.lastTime = some now → now < g.spec.expiresAt) → next.grants.get? id = some g
  requests : ∀ key c, app.requests.get? key = some c → young c.storedAt app.lastTime →
    next.requests.get? key = some c
  deliveries : ∀ id d, app.deliveries.get? id = some d →
    d.status = none ∨ young d.storedAt app.lastTime → next.deliveries.get? id = some d
  tasks : ∀ id t, app.tasks.get? id = some t →
    (id ∉ app.revokedTasks ∧ ∀ now, app.lastTime = some now → now < t.expiresAt)
      ∨ next.referencedTask id = true → next.tasks.get? id = some t
  some_task : app.tasks.isEmpty = false → next.tasks.isEmpty = false
  revoked : ∀ id, id ∈ next.revokedTasks ↔
    id ∈ app.revokedTasks ∧ ∃ t, next.tasks.get? id = some t
  lastTime : next.lastTime = app.lastTime
  generation : next.generation = app.generation
  clockFrozen : next.clockFrozen = app.clockFrozen
  predecessor : next.predecessor = app.predecessor

/-- Every part of an application that shrinks is either dropped for its reason or kept as it was. -/
theorem kept_or_dropped {K V : Type} [LinearOrder K] {m n : OrdMap K V} {key : K} {value : V}
    (hsub : ∀ v, n.get? key = some v → m.get? key = some v) (hget : m.get? key = some value)
    (hkept : n.get? key ≠ none) : n.get? key = some value := by
  obtain ⟨v, hv⟩ := Option.ne_none_iff_exists'.mp hkept
  rw [hv, ← hsub v hv, hget]

theorem Compacted.keeps {next : Application} (h : app.Compacted P next)
    (hvalid : next.validate P = .ok ()) : app.CompactionSound P next where
  valid := hvalid
  records := by
    intro id r hr hlive
    apply kept_or_dropped (h.shrinks.records id) hr
    intro hnone
    have hdeleted := (h.shrinks.record_dropped id r hr hnone).1
    rw [hlive] at hdeleted
    cases hdeleted
  grants := by
    intro id g hg hrevoked hunexpired
    apply kept_or_dropped (h.shrinks.grants id) hg
    intro hnone
    rcases (h.shrinks.grant_dropped id g hg hnone).1 with hover | ⟨now, hnow, hexpired⟩
    · rw [hrevoked] at hover
      cases hover
    · have hlt := hunexpired now hnow
      lia
  requests := by
    intro key c hc hyoung
    apply kept_or_dropped (h.shrinks.requests key) hc
    intro hnone
    have hstale := (h.shrinks.request_dropped key c hc hnone).1
    rw [stale_eq_false.mpr hyoung] at hstale
    cases hstale
  deliveries := by
    intro id d hd hkeep
    apply kept_or_dropped (h.shrinks.deliveries id) hd
    intro hnone
    obtain ⟨hsettled, hstale, -⟩ := h.shrinks.delivery_dropped id d hd hnone
    rcases hkeep with hopen | hyoung
    · rw [hopen] at hsettled
      cases hsettled
    · rw [stale_eq_false.mpr hyoung] at hstale
      cases hstale
  tasks := by
    intro id t ht hkeep
    apply kept_or_dropped (h.shrinks.tasks id) ht
    intro hnone
    obtain ⟨hover, hfree⟩ := h.shrinks.task_dropped id t ht hnone
    rcases hkeep with ⟨hrevoked, hunexpired⟩ | href
    · rcases hover with hin | ⟨now, hnow, hexpired⟩
      · exact hrevoked hin
      · have hlt := hunexpired now hnow
        lia
    · rw [href] at hfree
      cases hfree
  some_task := h.some_task
  revoked id := by
    constructor
    · exact fun hin => ⟨h.shrinks.revoked_sub hin, h.sound.revoked id hin⟩
    · exact fun ⟨hin, t, ht⟩ => (h.shrinks.revoked id t ht).mpr hin
  lastTime := h.shrinks.lastTime
  generation := h.shrinks.generation
  clockFrozen := h.shrinks.clockFrozen
  predecessor := h.shrinks.predecessor

theorem Compacted.valid_iff {next : Application} (h : app.Compacted P next) :
    next.validate P = .ok () ↔
      ∀ id r, app.records.get? id = some r → ¬ app.Forgotten id r → app.Fits id := by
  rw [validate_eq_ok]
  constructor
  · intro hvalid id r hr hremembered
    have hkept : next.records.get? id = some r :=
      kept_or_dropped (h.shrinks.records id) hr fun hnone =>
        hremembered ((h.forgotten id r hr).mp hnone)
    exact (h.versions id r hkept).mp (hvalid.versions id r hkept)
  · intro hfits
    refine { h.sound with sizes := h.sizes, audit := h.audit, versions := fun id r hr => ?_ }
    have hold := h.shrinks.records id r hr
    refine (h.versions id r hr).mpr (hfits id r hold fun hforgotten => ?_)
    rw [(h.forgotten id r hold).mpr hforgotten] at hr
    cases hr

/-- Compaction keeps all it should, and its result is valid exactly when no record it
keeps has more patches to fold than its baseline's version has room for. -/
theorem compact_sound_iff (hvalid : app.validate P = .ok ()) (once : app.OneDelete) :
    app.CompactionSound P app.compact ↔
      ∀ id r, app.records.get? id = some r → ¬ app.Forgotten id r → app.Fits id := by
  have hcompacted := compacted (validate_eq_ok.mp hvalid) once
  rw [← hcompacted.valid_iff]
  exact ⟨fun h => h.valid, hcompacted.keeps⟩

end Application

/-! A valid application that compaction spoils: the version of the record has wrapped. -/

def wrappedRecord : Record := { sharedLogin with revision := 3, secretVersion := 1 }

def wrappedReceipt (revision : UInt64) : Remembered where
  fingerprint := []
  result := { record := 10, revision, grant := none }
  kind := .patch
  storedAt := some 0

def wrappedVault : Application where
  tasks := (∅ : OrdMap Uuid TaskApproval).insert 1 aliceTask
  records := (∅ : OrdMap Uuid Record).insert 10 wrappedRecord
  requests := ((∅ : OrdMap RequestKey Remembered).insert
      { owner := "owner", principal := "alice", task := 1, id := 5 } (wrappedReceipt 2)).insert
      { owner := "owner", principal := "alice", task := 1, id := 6 } (wrappedReceipt 3)
  baselines := (∅ : OrdMap Uuid RecordBaseline).insert 10 { through := 1, secretVersion := maxU64 }
  lastTime := some 90000
  generation := 5

theorem wrappedVault_oneDelete : wrappedVault.OneDelete := by
  intro k c k' c' hk _ hdelete
  have hnone : wrappedVault.requests.all (fun _ c => c.kind != .delete) = true := by
    decide +kernel
  exact absurd hdelete (bne_iff_ne.mp (OrdMap.all_iff.mp hnone k c hk))

/-- Folding the two stale patches saturates where validation counts with wrapping. -/
theorem compact_spoils :
    wrappedVault.validate .reference = .ok ()
      ∧ (∀ id r, wrappedVault.records.get? id = some r → r.revision < maxU64)
      ∧ wrappedVault.OneDelete
      ∧ ¬ wrappedVault.CompactionSound .reference wrappedVault.compact := by
  refine ⟨by decide +kernel, ?_, wrappedVault_oneDelete, fun h => ?_⟩
  · intro id r hr
    have hbelow : wrappedVault.records.all (fun _ r => decide (r.revision < maxU64)) = true := by
      decide +kernel
    exact of_decide_eq_true (OrdMap.all_iff.mp hbelow id r hr)
  · have hspoiled : wrappedVault.compact.validate .reference ≠ .ok () := by decide +kernel
    exact hspoiled h.valid

/-- A compaction that meets its promise. -/
theorem compact_sound_iff_sharedVault :
    sharedVault.CompactionSound .reference sharedVault.compact ↔
      ∀ id r, sharedVault.records.get? id = some r → ¬ sharedVault.Forgotten id r →
        sharedVault.Fits id := by
  apply Application.compact_sound_iff
  · decide +kernel
  · intro k c k' c' hk _ hdelete
    have hnone : sharedVault.requests.all (fun _ c => c.kind != .delete) = true := by
      decide +kernel
    exact absurd hdelete (bne_iff_ne.mp (OrdMap.all_iff.mp hnone k c hk))

end Credman
