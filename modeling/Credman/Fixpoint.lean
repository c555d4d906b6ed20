import Credman.Retention
import Credman.Staging
import Credman.Reference

/-! Compaction takes everything it can in one pass: no pass exposes work for an earlier one. -/
namespace Credman

open Library Library.Checked

namespace Application

variable {P : Platform} {app next : Application}

/-- No pass of compaction finds anything to take. -/
structure Exhausted (app : Application) : Prop where
  receipts : ∀ key c, app.requests.get? key = some c → app.through c.result.record < c.result.revision →
    c.result.revision = app.through c.result.record + 1 → stale c.storedAt app.lastTime = false
  grants : ∀ gid g, app.grants.get? gid = some g → app.grantOver g →
    ∃ key c, app.requests.get? key = some c ∧ c.result.grant = some gid
  deliveries : ∀ id d, app.deliveries.get? id = some d →
    ¬ (d.status.isSome = true ∧ stale d.storedAt app.lastTime = true)
  records : ∀ id r, app.records.get? id = some r → app.forgettable id r = false
  tasks : app.removedTasks = []
  revoked : ∀ id ∈ app.revokedTasks, app.tasks.contains id = true
  audit : ∀ event ∈ app.audit, app.keepsEvent event = true
  baselines : app.pruneBaselines.baselines = app.baselines

/-! Where nothing is found, each pass changes nothing. -/

theorem foldableFrom_eq_nil {through next : UInt64} {l : List (UInt64 × RequestKey)}
    (h : ∀ e ∈ l, through < e.1 → ∀ c, app.requests.get? e.2 = some c → e.1 = next →
      stale c.storedAt app.lastTime = false) : app.foldableFrom through next l = [] := by
  induction l with
  | nil => rfl
  | cons e rest ih =>
    obtain ⟨revision, key⟩ := e
    unfold foldableFrom
    by_cases hbelow : revision ≤ through
    · rw [if_pos hbelow]
      exact ih fun e he => h e (List.mem_cons_of_mem _ he)
    · rw [if_neg hbelow]
      cases hget : app.requests.get? key with
      | none => rfl
      | some c =>
        dsimp only
        apply if_pos
        by_cases heq : revision = next
        · rw [h (revision, key) List.mem_cons_self (not_le.mp hbelow) c hget heq]
          rfl
        · simp [heq]

namespace Exhausted

theorem foldReceipts_eq (h : app.Exhausted) (id : Uuid) : app.foldReceipts id = app := by
  have hnone : app.foldableFrom (app.through id) (app.through id + 1) (app.receiptsOf id) = [] := by
    apply foldableFrom_eq_nil
    rw [receiptsOf_eq]
    intro e he habove c hget hnext
    obtain ⟨⟨key, cached⟩, hmem, rfl⟩ := List.mem_map.mp he
    obtain ⟨hfound, hrecord⟩ := mem_chainOf.mp hmem
    dsimp only at hfound hrecord habove hget hnext
    rw [hfound, Option.some.injEq] at hget
    subst hget hrecord
    exact h.receipts key cached hfound habove hnext
  unfold foldReceipts
  dsimp only
  rw [hnone]
  rfl

theorem dropGrant_eq (h : app.Exhausted) (gid : Uuid) : app.dropGrant gid = app := by
  rcases app.dropGrant_cases gid with ⟨heq, -⟩ | ⟨g, hdropped⟩
  · exact heq
  · obtain ⟨key, c, hc, hname⟩ := h.grants gid g hdropped.found hdropped.lapsed
    exact absurd hname (hdropped.unnamed key c hc)

theorem dropDelivery_eq (h : app.Exhausted) (id : Uuid) : app.dropDelivery id = app := by
  rcases app.dropDelivery_cases id with ⟨heq, -⟩ | ⟨d, hdropped⟩
  · exact heq
  · exact absurd ⟨hdropped.settled, hdropped.old⟩ (h.deliveries id d hdropped.found)

theorem dropRecords_eq (h : app.Exhausted) : app.dropRecords = app := by
  have hnone : (app.records.filter app.forgettable).keys = [] := by
    rw [List.eq_nil_iff_forall_not_mem]
    intro id hin
    obtain ⟨r, hr⟩ := OrdMap.mem_keys.mp hin
    rw [OrdMap.get?_filter, Option.filter_eq_some_iff] at hr
    rw [h.records id r hr.1] at hr
    exact Bool.false_ne_true hr.2
  unfold dropRecords
  rw [hnone]
  rfl

theorem dropTasks_eq (h : app.Exhausted) : app.dropTasks = app := by
  have hrevoked : app.revokedTasks.filter (fun id => app.tasks.contains id = true) = app.revokedTasks :=
    Finset.filter_true_of_mem h.revoked
  have heq : app.dropTasks = { app.eraseTasks app.removedTasks with
      revokedTasks := (app.eraseTasks app.removedTasks).revokedTasks.filter fun id =>
        (app.eraseTasks app.removedTasks).tasks.contains id = true } := rfl
  rw [heq, h.tasks]
  unfold eraseTasks
  rw [List.foldl_nil, hrevoked]

theorem retainAudit_eq (h : app.Exhausted) : app.retainAudit = app := by
  unfold retainAudit
  rw [List.filter_eq_self.mpr h.audit]

theorem pruneBaselines_eq (h : app.Exhausted) : app.pruneBaselines = app := by
  calc app.pruneBaselines = { app with baselines := app.pruneBaselines.baselines } := rfl
    _ = app := by rw [h.baselines]

/-- So compaction changes nothing. -/
theorem compact_eq (h : app.Exhausted) : app.compact = app := by
  unfold compact
  dsimp only
  rw [List.foldl_fixed' h.foldReceipts_eq, List.foldl_fixed' h.dropGrant_eq,
    List.foldl_fixed' h.dropDelivery_eq, h.dropRecords_eq, h.dropTasks_eq, h.retainAudit_eq,
    h.pruneBaselines_eq]

/-- The passes look neither at the generation nor at the freeze. -/
theorem of_published (h : app.Exhausted) (generation : UInt64) (frozen : Bool) :
    Exhausted { app with clockFrozen := frozen, generation } where
  receipts := h.receipts
  grants := h.grants
  deliveries := h.deliveries
  records := h.records
  tasks := h.tasks
  revoked := h.revoked
  audit := h.audit
  baselines := h.baselines

end Exhausted

/-! What each pass leaves. -/

/-- The first pass once it has visited the records in `done`. -/
structure Unloaded (app : Application) (done : List Uuid) (next : Application) : Prop where
  result : next = { app with requests := next.requests, baselines := next.baselines }
  requests : ∀ key c, next.requests.get? key = some c ↔ app.requests.get? key = some c
    ∧ ¬ (c.result.record ∈ done ∧ (key, c) ∈ app.foldable c.result.record)
  waiting : ∀ id, id ∉ done → next.through id = app.through id
  reached : ∀ id ∈ done, (next.through id).toNat = (app.through id).toNat + (app.foldable id).length

theorem Chained.foldable_consecutive {id : Uuid} {r : Record} (h : app.Chained id r) :
    Consecutive ((app.through id).toNat + 1) (app.foldable id) := by
  have hconsecutive := h.consecutive
  have hsplit : app.foldable id ++ (app.chainOf id).dropWhile
      (fun entry => stale entry.2.storedAt app.lastTime) = app.chainOf id :=
    List.takeWhile_append_dropWhile
  rw [← hsplit] at hconsecutive
  exact hconsecutive.of_append

theorem Folded.through_reached {id : Uuid} {r : Record} (h : app.Chained id r)
    (hf : app.Folded id r next) :
    (next.through id).toNat = (app.through id).toNat + (app.foldable id).length := by
  have hconsecutive := h.foldable_consecutive
  rw [← app.baseline_through] at hconsecutive ⊢
  rw [through_eq hf.absorbed]
  exact RecordBaseline.absorbAll_through hconsecutive

theorem unloaded (h : app.Sound P) :
    Unloaded app app.records.keys (app.records.keys.foldl foldReceipts app) := by
  apply foldl_invariant (Unloaded app)
  · exact ⟨rfl, fun key c => by simp, fun _ _ => rfl, fun _ hin => absurd hin List.not_mem_nil⟩
  · intro done id rest next heq hdone
    have hnodup := app.records.nodup_keys
    rw [heq] at hnodup
    have hnew : id ∉ done := fun hin =>
      (List.disjoint_of_nodup_append hnodup) hin List.mem_cons_self
    obtain ⟨r, hr⟩ := OrdMap.mem_keys.mp (heq ▸ List.mem_append_right done List.mem_cons_self :
      id ∈ app.records.keys)
    have hold := h.chained hr
    have hrecords : next.records = app.records := by rw [hdone.result]
    have hlast : next.lastTime = app.lastTime := by rw [hdone.result]
    have hchain : next.chainOf id = app.chainOf id := by
      apply Folded.chainOf_congr
      intro key c hrecord
      rw [hdone.requests]
      exact and_iff_left fun hin => hnew (hrecord ▸ hin.1)
    have hchained : next.Chained id r := by
      refine ⟨hrecords ▸ hr, ?_, ?_, ?_⟩
      · rw [hdone.waiting id hnew]
        exact hold.through_le
      · rw [hdone.waiting id hnew, hchain]
        exact hold.consecutive
      · rw [hdone.waiting id hnew, hchain]
        exact hold.length
    have hfoldable : next.foldable id = app.foldable id := foldable_congr hchain hlast
    have hdone' : ∀ {j}, j ∈ done ++ [id] ↔ j ∈ done ∨ j = id := by simp
    rcases hchained.foldReceipts_cases with ⟨hnone, hsame⟩ | hfolded
    · rw [hsame]
      refine ⟨hdone.result, fun key c => ?_, fun j hj => hdone.waiting j fun hin => hj ?_, fun j hj => ?_⟩
      · rw [hdone.requests, hdone']
        refine and_congr_right fun _ => not_congr ⟨fun hin => ⟨.inl hin.1, hin.2⟩, ?_⟩
        rintro ⟨hin | rfl, hmem⟩
        · exact ⟨hin, hmem⟩
        · rw [← hfoldable, hnone] at hmem
          exact absurd hmem List.not_mem_nil
      · exact hdone'.mpr (.inl hin)
      · rcases hdone'.mp hj with hin | rfl
        · exact hdone.reached j hin
        · rw [← hfoldable, hnone, hdone.waiting j hnew]
          rfl
    · refine ⟨?_, fun key c => ?_, fun j hj => ?_, fun j hj => ?_⟩
      · rw [hfolded.result, hdone.result]
      · rw [hfolded.requests_some, hdone.requests, hfoldable, hdone', and_assoc]
        refine and_congr_right fun hget => ?_
        constructor
        · rintro ⟨hearlier, hnow⟩ ⟨hin | rfl, hmem⟩
          · exact hearlier ⟨hin, hmem⟩
          · exact hnow hmem
        · intro hnot
          refine ⟨fun hin => hnot ⟨.inl hin.1, hin.2⟩, fun hmem => hnot ?_⟩
          have hrecord := (mem_foldable hmem).2.1
          rw [hrecord]
          exact ⟨.inr rfl, hmem⟩
      · rw [hdone', not_or] at hj
        rw [hfolded.through_others hj.2]
        exact hdone.waiting j hj.1
      · by_cases hsame : j = id
        · subst hsame
          rw [hfolded.through_reached hchained, hdone.waiting j hnew, hfoldable]
        · rw [hfolded.through_others hsame]
          exact hdone.reached j ((hdone'.mp hj).resolve_right hsame)

/-- The receipt right above what the first pass has reached stopped it. -/
theorem Sound.next_young (h : app.Sound P) {key : RequestKey} {c : Remembered}
    (hget : app.requests.get? key = some c) (hnext : c.result.revision.toNat
      = (app.through c.result.record).toNat + (app.foldable c.result.record).length + 1) :
    stale c.storedAt app.lastTime = false := by
  obtain ⟨-, r, -, hr, -⟩ := h.receipts key c hget
  have hmem : (key, c) ∈ app.chainOf c.result.record := mem_chainOf.mpr ⟨hget, rfl⟩
  have hconsecutive := (h.chained hr).consecutive
  have hsplit : app.foldable c.result.record ++ (app.chainOf c.result.record).dropWhile
      (fun entry => stale entry.2.storedAt app.lastTime) = app.chainOf c.result.record :=
    List.takeWhile_append_dropWhile
  rw [← hsplit] at hmem hconsecutive
  rcases List.mem_append.mp hmem with hin | hin
  · have hle := (h.mem_foldable_iff hr hget rfl).mp hin
    omega
  · have hlater := hconsecutive.to_append
    cases hrest : (app.chainOf c.result.record).dropWhile
        fun entry => stale entry.2.storedAt app.lastTime with
    | nil =>
      rw [hrest] at hin
      exact absurd hin List.not_mem_nil
    | cons e rest =>
      have hyoung : stale e.2.storedAt app.lastTime = false := by
        have hhead := List.head_dropWhile_not (fun entry : RequestKey × Remembered =>
          stale entry.2.storedAt app.lastTime) (l := app.chainOf c.result.record) (by rw [hrest]; simp)
        simpa [hrest] using hhead
      rw [hrest] at hin hlater
      rcases List.mem_cons.mp hin with rfl | hin
      · exact hyoung
      · -- a later receipt has a later revision
        have hrange := List.mem_map_of_mem (f := fun e : RequestKey × Remembered =>
          e.2.result.revision.toNat) hin
        rw [(consecutive_cons.mp hlater).2, List.mem_range'_1] at hrange
        dsimp only at hrange
        omega

/-- The second pass takes every grant that it may. -/
structure GrantsTaken (app : Application) (done : List Uuid) (next : Application) : Prop where
  result : next = { app with grants := next.grants, baselines := next.baselines }
  through : ∀ id, next.through id = app.through id
  sub : ∀ gid g, next.grants.get? gid = some g → app.grants.get? gid = some g
  named : ∀ gid ∈ done, ∀ g, next.grants.get? gid = some g → app.grantOver g →
    ∃ key c, app.requests.get? key = some c ∧ c.result.grant = some gid

theorem grantsTaken (app : Application) :
    app.GrantsTaken app.grants.keys (app.grants.keys.foldl dropGrant app) := by
  apply foldl_invariant app.GrantsTaken
  · exact ⟨rfl, fun _ => rfl, fun _ _ hg => hg, fun _ hin => absurd hin List.not_mem_nil⟩
  · intro done gid rest next _ hdone
    have hrequests : next.requests = app.requests := by rw [hdone.result]
    have hover : ∀ g, next.grantOver g ↔ app.grantOver g := by
      intro g
      rw [hdone.result]
      exact Iff.rfl
    rcases next.dropGrant_cases gid with ⟨heq, hkept⟩ | ⟨g, hdropped⟩
    · rw [heq]
      refine { hdone with named := fun other hother g hg hlapsed => ?_ }
      rcases List.mem_append.mp hother with hin | hin
      · exact hdone.named other hin g hg hlapsed
      · rw [List.mem_singleton] at hin
        rw [← hrequests, hin]
        exact hkept g (hin ▸ hg) ((hover g).mpr hlapsed)
    · refine ⟨?_, fun id => ?_, fun other g' hg' => ?_, fun other hother g' hg' hlapsed => ?_⟩
      · rw [hdropped.result, hdone.result]
      · rw [(hdropped.sameChain id).through_eq, hdone.through]
      · exact hdone.sub other g' (hdropped.grants_some.mp hg').2
      · obtain ⟨hne, hold⟩ := hdropped.grants_some.mp hg'
        rcases List.mem_append.mp hother with hin | hin
        · exact hdone.named other hin g' hold hlapsed
        · exact absurd (List.mem_singleton.mp hin) hne

/-- The third pass takes every delivery that it may. -/
structure DeliveriesTaken (app : Application) (done : List Uuid) (next : Application) : Prop where
  result : next = { app with deliveries := next.deliveries, baselines := next.baselines }
  through : ∀ id, next.through id = app.through id
  sub : ∀ id d, next.deliveries.get? id = some d → app.deliveries.get? id = some d
  waiting : ∀ id ∈ done, ∀ d, next.deliveries.get? id = some d →
    ¬ (d.status.isSome = true ∧ stale d.storedAt app.lastTime = true)

theorem deliveriesTaken (app : Application) :
    app.DeliveriesTaken app.deliveries.keys (app.deliveries.keys.foldl dropDelivery app) := by
  apply foldl_invariant app.DeliveriesTaken
  · exact ⟨rfl, fun _ => rfl, fun _ _ hd => hd, fun _ hin => absurd hin List.not_mem_nil⟩
  · intro done id rest next _ hdone
    have hlast : next.lastTime = app.lastTime := by rw [hdone.result]
    rcases next.dropDelivery_cases id with ⟨heq, hkept⟩ | ⟨d, hdropped⟩
    · rw [heq]
      refine { hdone with waiting := fun other hother d hd => ?_ }
      rcases List.mem_append.mp hother with hin | hin
      · exact hdone.waiting other hin d hd
      · rw [List.mem_singleton] at hin
        rw [← hlast]
        exact hkept d (hin ▸ hd)
    · refine ⟨?_, fun j => ?_, fun other e he => ?_, fun other hother e he => ?_⟩
      · rw [hdropped.result, hdone.result]
      · rw [(hdropped.sameChain j).through_eq, hdone.through]
      · exact hdone.sub other e (hdropped.deliveries_some.mp he).2
      · obtain ⟨hne, hold⟩ := hdropped.deliveries_some.mp he
        rcases List.mem_append.mp hother with hin | hin
        · exact hdone.waiting other hin e hold
        · exact absurd (List.mem_singleton.mp hin) hne

/-- The fourth pass takes the forgettable records. -/
structure RecordsTaken (app : Application) (done : List Uuid) (next : Application) : Prop where
  result : next = { app with records := next.records, baselines := next.baselines }
  records : ∀ id, next.records.get? id = if id ∈ done then none else app.records.get? id
  through : ∀ id r, next.records.get? id = some r → next.through id = app.through id

theorem recordsTaken (app : Application) :
    app.RecordsTaken (app.records.filter app.forgettable).keys app.dropRecords := by
  unfold dropRecords
  apply foldl_invariant app.RecordsTaken
  · exact ⟨rfl, fun id => by simp, fun _ _ _ => rfl⟩
  · intro done id rest next _ hdone
    have hrecords : ∀ j, (next.records.erase id).get? j
        = if j ∈ done ++ [id] then none else app.records.get? j := by
      intro j
      rw [OrdMap.get?_erase, hdone.records]
      by_cases hj : id = j
      · simp [hj]
      · have hne : j ≠ id := fun heq => hj heq.symm
        simp [hj, hne]
    refine ⟨?_, hrecords, fun j r hr => ?_⟩
    · rw [hdone.result]
    · dsimp only at hr
      have hne : id ≠ j := by
        rintro rfl
        rw [OrdMap.get?_erase_self] at hr
        cases hr
      rw [OrdMap.get?_erase_ne _ hne] at hr
      rw [← hdone.through j r hr]
      unfold through
      dsimp only
      rw [OrdMap.get?_erase_ne _ hne]

/-- Of the tasks that are left, the next pass takes none: if all were to go, one was spared, and it is
now the only one. -/
theorem TasksDropped.removedTasks_eq (hids : ∀ id t, app.tasks.get? id = some t → t.id = id)
    (hd : app.TasksDropped next) : next.removedTasks = [] := by
  have hreferenced : ∀ id, next.referencedTask id = app.referencedTask id := by
    intro id
    rw [hd.result]
    rfl
  have hsub : ∀ id t, next.tasks.get? id = some t → app.tasks.get? id = some t ∧ id ∉ app.removedTasks := by
    intro id t ht
    rw [hd.tasks] at ht
    split_ifs at ht with hin
    exact ⟨ht, hin⟩
  have hover : ∀ id t, next.tasks.get? id = some t → next.taskOver id t → app.taskOver id t := by
    rintro id t - (hin | ⟨now, hlast, hle⟩)
    · exact .inl ((hd.revoked id).mp hin).1
    · rw [hd.result] at hlast
      exact .inr ⟨now, hlast, hle⟩
  have hremovable : ∀ id ∈ next.removableTasks, id ∈ app.removableTasks ∧ id ∉ app.removedTasks := by
    intro id hin
    obtain ⟨t, ht, hfree, hdone⟩ := mem_removableTasks.mp hin
    obtain ⟨hold, hkept⟩ := hsub id t ht
    exact ⟨mem_removableTasks.mpr ⟨t, hold, hreferenced id ▸ hfree, hover id t ht hdone⟩, hkept⟩
  rw [List.eq_nil_iff_forall_not_mem]
  intro id hin
  obtain ⟨hold, hkept⟩ := hremovable id (removedTasks_sub hin)
  -- the spared one is kept although it may go
  unfold removedTasks at hkept
  split_ifs at hkept with hall
  · rw [Bool.and_eq_true, beq_iff_eq] at hall
    have hperm : app.removableTasks.Perm app.tasks.keys := by
      apply (List.subperm_of_subset app.removableTasks_nodup _).perm_of_length_le
      · rw [hall.2, OrdMap.keys, List.length_map, OrdMap.size]
      · intro j hj
        obtain ⟨t, ht, -⟩ := mem_removableTasks.mp hj
        exact OrdMap.mem_keys.mpr ⟨t, ht⟩
    cases hlongest : longestTask app.tasks.values with
    | none =>
      rw [hlongest] at hkept
      exact hkept hold
    | some keep =>
      rw [hlongest] at hkept
      have honly : ∀ j, j ∈ app.removableTasks → j ∉ app.removedTasks → j = keep.id := by
        intro j hj hspared
        unfold removedTasks at hspared
        rw [if_pos (by rw [Bool.and_eq_true, beq_iff_eq]; exact hall), hlongest, List.mem_filter, bne_iff_ne] at hspared
        by_contra hne
        exact hspared ⟨hj, hne⟩
      have hsame : ∀ j, (∃ t, next.tasks.get? j = some t) → j = keep.id := by
        rintro j ⟨t, ht⟩
        obtain ⟨hheld, hspared⟩ := hsub j t ht
        exact honly j (hperm.mem_iff.mpr (OrdMap.mem_keys.mpr ⟨t, hheld⟩)) hspared
      obtain ⟨t, ht, -, -⟩ := mem_removableTasks.mp (removedTasks_sub hin)
      have hid := hsame id ⟨t, ht⟩
      have hkeys : next.tasks.keys = [id] := by
        apply List.perm_singleton.mp
        apply (List.perm_ext_iff_of_nodup next.tasks.nodup_keys (List.nodup_singleton id)).mpr
        intro j
        rw [List.mem_singleton, OrdMap.mem_keys]
        constructor
        · exact fun hj => (hsame j hj).trans hid.symm
        · rintro rfl
          exact ⟨t, ht⟩
      obtain ⟨entry, hentries, hentry⟩ := List.map_eq_singleton_iff.mp hkeys
      have hmem : (id, t) ∈ next.tasks.entries := OrdMap.mem_entries.mpr ht
      rw [hentries, List.mem_singleton] at hmem
      have hvalues : next.tasks.values = [t] := by
        rw [OrdMap.values, hentries, ← hmem]
        rfl
      have hsize : next.removableTasks.length = next.tasks.size := by
        have hone : next.removableTasks = [id] := by
          apply List.perm_singleton.mp
          apply (List.perm_ext_iff_of_nodup next.removableTasks_nodup (List.nodup_singleton id)).mpr
          intro j
          rw [List.mem_singleton]
          constructor
          · intro hj
            obtain ⟨t', ht', -⟩ := mem_removableTasks.mp hj
            exact (hsame j ⟨t', ht'⟩).trans hid.symm
          · rintro rfl
            exact removedTasks_sub hin
        rw [hone, OrdMap.size, hentries]
        rfl
      have hsome : next.tasks.isEmpty = false := OrdMap.isEmpty_false.mpr ⟨id, t, ht⟩
      unfold removedTasks at hin
      rw [if_pos (by simp [hsome, hsize]), hvalues] at hin
      have hspared := (List.mem_filter.mp hin).2
      rw [bne_iff_ne] at hspared
      exact hspared (hids id t (hsub id t ht).1).symm
  · exact hkept hold

/-! Pruning the baselines. -/

theorem pruneBaseline_idem (id : Uuid) (base : RecordBaseline) :
    app.pruneBaseline id (app.pruneBaseline id base) = app.pruneBaseline id base := by
  have hsorted : ∀ l : List Uuid,
      (((l.insertionSort (· ≤ ·)).destutter (· ≠ ·)).insertionSort (· ≤ ·)).destutter (· ≠ ·)
        = (l.insertionSort (· ≤ ·)).destutter (· ≠ ·) := by
    intro l
    have hpairwise : ((l.insertionSort (· ≤ ·)).destutter (· ≠ ·)).Pairwise (· ≤ ·) :=
      (List.pairwise_insertionSort (· ≤ ·) l).sublist (List.destutter_sublist _ _)
    rw [hpairwise.insertionSort_eq, List.destutter_idem]
  unfold pruneBaseline
  dsimp only
  split_ifs with hclear
  · rw [hsorted]
  · rw [hsorted]

theorem filter_map_fixed {α : Type} {p : α → Bool} {f : α → α} {a : α} (h : f a = a) :
    (((some a).filter p).map f).filter p = (some a).filter p := by
  cases hp : p a with
  | true => simp [Option.filter, hp, h]
  | false => simp [Option.filter, hp]

theorem pruneBaselines_idem (app : Application) :
    app.pruneBaselines.pruneBaselines.baselines = app.pruneBaselines.baselines := by
  apply OrdMap.ext
  intro id
  have hprune : app.pruneBaselines.pruneBaseline id = app.pruneBaseline id := rfl
  cases hb : app.baselines.get? id with
  | none => simp [pruneBaselines, OrdMap.get?_filter, OrdMap.get?_mapVals, hb]
  | some base =>
    have hidem := app.pruneBaseline_idem id base
    unfold pruneBaselines at hprune ⊢
    dsimp only
    rw [OrdMap.get?_filter, OrdMap.get?_mapVals, hprune, OrdMap.get?_filter, OrdMap.get?_mapVals, hb,
      Option.map_some]
    exact filter_map_fixed hidem

theorem pruneBaselines_through {id : Uuid} (h : app.records.contains id = true) :
    app.pruneBaselines.through id = app.through id := by
  unfold through pruneBaselines
  dsimp only
  rw [OrdMap.get?_filter, OrdMap.get?_mapVals]
  cases hb : app.baselines.get? id with
  | none => rfl
  | some base =>
    have hthrough : (app.pruneBaseline id base).through = base.through := by
      unfold pruneBaseline
      dsimp only
      split_ifs
      · rfl
      · rfl
    rw [Option.map_some]
    by_cases hpos : 0 < base.through
    · rw [Option.filter_some_pos (by simp [h, hthrough, hpos])]
      simp [hthrough]
    · have hzero : base.through = 0 := by
        by_contra hne
        exact hpos (UInt64.pos_iff_ne_zero.mpr hne)
      cases hkept : (some (app.pruneBaseline id base)).filter fun base => app.records.contains id
          && (decide (0 < base.through) || base.deletePruned || base.registrationDispatched
            || base.verifiedLogin || !base.prunedGrants.isEmpty) with
      | none => simp [hzero]
      | some other =>
        obtain ⟨hsame, -⟩ := Option.filter_eq_some_iff.mp hkept
        rw [← Option.some.inj hsame]
        simp [hthrough]

/-! The passes together. -/

/-- One run of compaction leaves nothing for the next. -/
theorem compact_exhausted (h : app.Sound P) : app.compact.Exhausted := by
  have hfolded := unloaded h
  unfold compact
  dsimp only
  generalize app.records.keys.foldl foldReceipts app = folded at hfolded ⊢
  have hgranted := folded.grantsTaken
  generalize folded.grants.keys.foldl dropGrant folded = granted at hgranted ⊢
  have hdelivered := granted.deliveriesTaken
  generalize granted.deliveries.keys.foldl dropDelivery granted = delivered at hdelivered ⊢
  have hrecorded := delivered.recordsTaken
  generalize delivered.dropRecords = recorded at hrecorded ⊢
  have htasked := recorded.tasksDropped
  generalize recorded.dropTasks = tasked at htasked ⊢
  have hkept : tasked.requests = folded.requests ∧ tasked.grants = granted.grants
      ∧ tasked.deliveries = delivered.deliveries ∧ tasked.records = recorded.records
      ∧ tasked.lastTime = app.lastTime ∧ tasked.baselines = recorded.baselines := by
    rw [htasked.result, hrecorded.result, hdelivered.result, hgranted.result, hfolded.result]
    exact ⟨rfl, rfl, rfl, rfl, rfl, rfl⟩
  obtain ⟨hrequests, hgrants, hdeliveries, hrecords, hlast, hbaselines⟩ := hkept
  have hbefore : delivered.requests = folded.requests ∧ delivered.grants = granted.grants
      ∧ delivered.records = app.records := by
    rw [hdelivered.result, hgranted.result, hfolded.result]
    exact ⟨rfl, rfl, rfl⟩
  obtain ⟨hrequests', hgrants', hrecords'⟩ := hbefore
  have hlastFolded : folded.lastTime = app.lastTime := by rw [hfolded.result]
  have hlastGranted : granted.lastTime = app.lastTime := by rw [hgranted.result, hlastFolded]
  have hforgettable : ∀ id r, tasked.forgettable id r = delivered.forgettable id r := by
    intro id r
    unfold forgettable
    rw [hrequests, hgrants, hdeliveries, hrequests', hgrants']
  refine ⟨fun key c hget habove hnext => ?_, fun gid g hg hover => ?_, fun id d hd => ?_, fun id r hr => ?_,
    ?_, fun id hin => ?_, fun event hin => ?_, tasked.retainAudit.pruneBaselines_idem⟩
  · change tasked.requests.get? key = some c at hget
    rw [hrequests] at hget
    obtain ⟨hold, hnot⟩ := (hfolded.requests key c).mp hget
    obtain ⟨-, r, -, hr, -⟩ := h.receipts key c hold
    have hdone : c.result.record ∈ app.records.keys := OrdMap.mem_keys.mpr ⟨r, hr⟩
    -- a record with a receipt is not forgotten
    have hrecord : recorded.records.get? c.result.record = some r := by
      rw [hrecorded.records, hrecords', if_neg ?_]
      · exact hr
      · intro hin
        obtain ⟨s, hs⟩ := OrdMap.mem_keys.mp hin
        rw [OrdMap.get?_filter, Option.filter_eq_some_iff] at hs
        rw [← hrequests'] at hget
        exact (forgettable_iff.mp hs.2).2.requests key c hget rfl
    have hcontains : tasked.records.contains c.result.record = true := by
      rw [hrecords]
      exact OrdMap.contains_iff.mpr ⟨r, hrecord⟩
    have hthrough : tasked.retainAudit.pruneBaselines.through c.result.record
        = folded.through c.result.record := by
      calc tasked.retainAudit.pruneBaselines.through c.result.record
          = tasked.through c.result.record := pruneBaselines_through hcontains
        _ = recorded.through c.result.record := by rw [through, through, hbaselines]
        _ = delivered.through c.result.record := hrecorded.through _ r hrecord
        _ = granted.through c.result.record := hdelivered.through _
        _ = folded.through c.result.record := hgranted.through _
    rw [hthrough] at habove hnext
    have hreached := hfolded.reached _ hdone
    change stale c.storedAt tasked.lastTime = false
    rw [hlast]
    apply h.next_young hold
    rw [hnext, Word.toNat_succ habove, hreached]
  · change tasked.grants.get? gid = some g at hg
    rw [hgrants] at hg
    have hover' : folded.grantOver g := by
      unfold grantOver at hover ⊢
      change g.revoked = true ∨ ∃ now, tasked.lastTime = some now ∧ g.spec.expiresAt ≤ now at hover
      rwa [hlast, ← hlastFolded] at hover
    obtain ⟨key, c, hc, hname⟩ := hgranted.named gid (OrdMap.mem_keys.mpr ⟨g, hgranted.sub gid g hg⟩) g hg hover'
    refine ⟨key, c, ?_, hname⟩
    change tasked.requests.get? key = some c
    rw [hrequests]
    exact hc
  · change tasked.deliveries.get? id = some d at hd
    rw [hdeliveries] at hd
    change ¬ (d.status.isSome = true ∧ stale d.storedAt tasked.lastTime = true)
    rw [hlast, ← hlastGranted]
    exact hdelivered.waiting id (OrdMap.mem_keys.mpr ⟨d, hdelivered.sub id d hd⟩) d hd
  · change tasked.records.get? id = some r at hr
    change tasked.forgettable id r = false
    rw [hrecords, hrecorded.records] at hr
    split_ifs at hr with hin
    rw [hforgettable, ← Bool.not_eq_true]
    intro hgone
    apply hin
    rw [OrdMap.mem_keys]
    exact ⟨r, by rw [OrdMap.get?_filter, Option.filter_eq_some_iff]; exact ⟨hr, hgone⟩⟩
  · have htasks : recorded.tasks = app.tasks := by
      rw [hrecorded.result, hdelivered.result, hgranted.result, hfolded.result]
    change tasked.removedTasks = []
    apply htasked.removedTasks_eq
    intro id t ht
    rw [htasks] at ht
    exact (h.tasks id t ht).id_eq.symm
  · change id ∈ tasked.revokedTasks at hin
    change tasked.tasks.contains id = true
    exact OrdMap.contains_iff.mpr ((htasked.revoked id).mp hin).2
  · exact (List.mem_filter.mp hin).2

/-- Compaction reaches its fixpoint in one pass. -/
theorem compact_compact (h : app.Sound P) : app.compact.compact = app.compact :=
  (compact_exhausted h).compact_eq

/-- Compaction does not touch the clock. -/
theorem compact_clock (h : app.Sound P) :
    app.compact.lastTime = app.lastTime ∧ app.compact.clockFrozen = app.clockFrozen := by
  have hfolded := unloaded h
  unfold compact
  dsimp only
  generalize app.records.keys.foldl foldReceipts app = folded at hfolded ⊢
  have hgranted := folded.grantsTaken
  generalize folded.grants.keys.foldl dropGrant folded = granted at hgranted ⊢
  have hdelivered := granted.deliveriesTaken
  generalize granted.deliveries.keys.foldl dropDelivery granted = delivered at hdelivered ⊢
  change delivered.dropRecords.dropTasks.lastTime = app.lastTime
    ∧ delivered.dropRecords.dropTasks.clockFrozen = app.clockFrozen
  rw [(tasksDropped _).result, delivered.recordsTaken.result, hdelivered.result, hgranted.result,
    hfolded.result]
  exact ⟨rfl, rfl⟩

end Application

namespace DurableVault

open Application

variable {P : Platform} {owner : DurableVault}

/-- A call that fails or moves only the clock, while the last time stays, leaves the staged copy as it
is. It is answered, and nothing is written. -/
def Quiet (P : Platform) (owner : DurableVault) : Prop :=
  ∀ (α : Type) (operation : AppM α) (m : VaultMachine), (owner.proposal operation).2 = owner.staged →
    owner.apply P operation m = .ok (owner, owner.ready >>= fun _ => (owner.proposal operation).1) m

/-- A commit that keeps the staged copy in memory changes nothing at an unchanged last time. -/
theorem quiet_of_stage (hstage : owner.ready = .ok () → owner.stage P owner.staged = .ok none)
    (hlast : owner.staged.lastTime = owner.app.lastTime) : owner.Quiet P := by
  intro α operation m hidle
  cases hready : owner.ready with
  | error e =>
    unfold apply
    rw [hready]
    rfl
  | ok u =>
    have hkept : ({ owner with app := { owner.app with lastTime := owner.staged.lastTime } } : DurableVault)
        = owner := by rw [hlast]
    have hcommit : owner.commit P (owner.proposal operation).2 m = .ok (owner, .ok ()) m := by
      unfold commit
      rw [hidle, hstage hready, hkept]
      rfl
    unfold apply
    rw [hready]
    change (owner.commit P (owner.proposal operation).2 >>= _) m = _
    simp only [bind, EStateM.bind, hcommit]
    rfl

/-- The difference between an application and itself is none. -/
theorem stage_self {left : Bytes} (hready : owner.ready = .ok ())
    (hencode : encode P { owner.app with generation := 1 } = .ok left)
    (hpersisted : owner.store.persistedLastTime = owner.app.lastTime)
    (hfrozen : owner.store.persistedFrozen = owner.app.clockFrozen) :
    owner.stage P owner.app = .ok none := by
  have hlater : laterTime owner.app.lastTime owner.app.lastTime = owner.app.lastTime := by
    cases owner.app.lastTime with
    | none => rfl
    | some t => exact congrArg some (max_self t)
  have hdue : due owner.app.lastTime owner.app.lastTime = false := by
    cases owner.app.lastTime with
    | none => rfl
    | some t =>
      unfold due Time.saturatingSub
      have hzero : t - t = 0 := Int.sub_self t
      dsimp only
      rw [hzero]
      decide
  have hdifference : clockOnlyDifference P owner.app owner.app = .ok true := by
    unfold clockOnlyDifference
    dsimp only at hencode ⊢
    rw [hlater, hencode]
    simp [bind, Except.bind, pure, Except.pure]
  unfold stage
  rw [hready, hdifference, hpersisted, hdue, hfrozen]
  simp [bind, Except.bind, pure, Except.pure]

/-- A candidate is kept in memory only where it is encoded as the application itself is, and so is as
frozen. -/
theorem frozen_of_stage (hjson : P.Json) {candidate : Application}
    (h : owner.stage P candidate = .ok none) : candidate.clockFrozen = owner.app.clockFrozen := by
  simp only [stage, bind_eq_ok, clockOnlyDifference, pure_eq_ok] at h
  obtain ⟨-, -, clockOnly, ⟨left, hleft, right, hright, rfl⟩, h⟩ := h
  split_ifs at h with hskip
  · simp only [Bool.and_eq_true, beq_iff_eq] at hskip
    obtain ⟨-, hleft', -⟩ := encode_eq_ok.mp hleft
    obtain ⟨-, hright', -⟩ := encode_eq_ok.mp hright
    rw [hskip.1.1, hright'] at hleft'
    exact congrArg SnapshotOf.clockFrozen (hjson.json_injective hleft')
  · simp only [bind_eq_ok, pure_eq_ok, reduceCtorEq, and_false, exists_false] at h

/-- What a candidate has to pass before it is published. -/
theorem encode_of_stage {candidate next : Application} (h : owner.stage P candidate = .ok (some next))
    (hlast : candidate.lastTime = owner.app.lastTime) :
    ∃ bytes, encode P { next with generation := 1 } = .ok bytes := by
  have hlater : laterTime owner.app.lastTime candidate.lastTime = candidate.lastTime := by
    rw [hlast]
    cases owner.app.lastTime with
    | none => rfl
    | some t => exact congrArg some (max_self t)
  obtain ⟨rfl, -⟩ := stage_some h
  simp only [stage, bind_eq_ok, clockOnlyDifference, hlater, pure_eq_ok] at h
  obtain ⟨-, -, clockOnly, ⟨left, -, right, hright, -⟩, -⟩ := h
  exact ⟨right, hright⟩

theorem Published.persisted {store store' : Store} {app : Application} {key : VaultKey} {salt : Salt}
    {kdf : KdfParams} {drawn : Nat} {d d' : Dir FileName}
    (h : Published P store app key salt kdf drawn d (store', .durable) d') :
    store'.persistedLastTime = app.lastTime ∧ store'.persistedFrozen = app.clockFrozen := by
  cases h with
  | gating => exact ⟨rfl, rfl⟩
  | durable => exact ⟨rfl, rfl⟩

/-- Once a candidate is published in which compaction finds nothing, the next copy is the application
itself. -/
theorem quiet_of_published {candidate next : Application} {store : Store} {drawn : Nat}
    {d d' : Dir FileName} (hexhausted : candidate.Exhausted)
    (hlast : candidate.lastTime = owner.app.lastTime) (h : owner.stage P candidate = .ok (some next))
    (hpublished : Published P owner.store next owner.store.key owner.store.salt owner.store.kdf drawn d
      (store, .durable) d') :
    Quiet P { app := next, store, frozen := store.blocked } := by
  obtain ⟨bytes, hencode⟩ := encode_of_stage h hlast
  obtain ⟨hpersisted, hfrozen⟩ := Published.persisted hpublished
  have hnext : next.Exhausted := by
    rw [(stage_some h).1]
    exact hexhausted.of_published _ candidate.clockFrozen
  have hsame : DurableVault.staged { app := next, store, frozen := store.blocked } = next := by
    unfold staged
    split_ifs
    · exact hnext.compact_eq
    · rfl
  refine quiet_of_stage (fun hready => ?_) ?_
  · rw [hsame]
    exact stage_self hready hencode hpersisted hfrozen
  · rw [hsame]

/-- Compaction reaches its fixpoint in one pass. So once a call has committed the compacted copy, no later
call at the same time finds a difference to write. -/
theorem compaction_settles (hjson : P.Json) :
    (∀ app : Application, app.validate P = .ok () → app.compact.compact = app.compact)
    ∧ ∀ (owner owner' : DurableVault) (frozen : Bool) (m m' : VaultMachine),
      owner.app.validate P = .ok () → owner.app.shouldCompact = true →
      owner.commit P { owner.staged with clockFrozen := frozen } m = .ok (owner', .ok ()) m' →
        owner'.Quiet P := by
  refine ⟨fun app hvalid => compact_compact (validate_eq_ok.mp hvalid).toSound,
    fun owner owner' frozen m m' hvalid hcompact hcommit => ?_⟩
  have hsound := (validate_eq_ok.mp hvalid).toSound
  have hstaged : owner.staged = owner.app.compact := if_pos hcompact
  have hexhausted : owner.staged.Exhausted := by
    rw [hstaged]
    exact compact_exhausted hsound
  obtain ⟨hlast, hfrozen⟩ := compact_clock hsound
  rw [← hstaged] at hlast hfrozen
  obtain ⟨-, hcommitted⟩ := wp_ok (wp_commit P owner _ m) hcommit
  generalize m.dir = d, m'.dir = d', m.rest.drawn = drawn at hcommitted
  cases hcommitted with
  | memory h =>
    -- nothing differs, and the next copy is the same
    have hsame : ({ owner.staged with clockFrozen := frozen } : Application) = owner.staged := by
      have hstill := frozen_of_stage hjson h
      dsimp only at hstill
      rw [hstill, ← hfrozen]
    rw [hsame] at h
    have hkept : ({ owner with app := { owner.app with lastTime := owner.staged.lastTime } } : DurableVault)
        = owner := by rw [hlast]
    dsimp only
    rw [hkept]
    exact quiet_of_stage (fun _ => h) hlast
  | durable h hpublished =>
    exact quiet_of_published (hexhausted.of_published owner.staged.generation frozen) hlast h hpublished

/-- The vault at a generation where every call compacts its copy. -/
def periodicOwner : DurableVault where
  app := { sharedVault with generation := 32 }
  store := {
    key := Vector.replicate 32 0, salt := Vector.replicate 16 0, kdf := .current, currentImage := none
    blocked := false, persistedLastTime := some 4, persistedFrozen := false }
  frozen := false

def periodicMachine : VaultMachine := { dir := fun _ => none, faults := [], rest := { drawn := 0, handoffs := [] } }

theorem compaction_settles_periodic : periodicOwner.app.compact.compact = periodicOwner.app.compact
    ∧ periodicOwner.Quiet .reference := by
  have hvalid : periodicOwner.app.validate .reference = .ok () := by decide +kernel
  have hcompact : periodicOwner.app.shouldCompact = true := by decide +kernel
  have hstage : periodicOwner.stage .reference { periodicOwner.staged with clockFrozen := false } = .ok none := by
    have hnone : (periodicOwner.stage .reference { periodicOwner.staged with clockFrozen := false }).toOption.map
        Option.isNone = some true := by decide +kernel
    generalize periodicOwner.stage .reference _ = staged at hnone ⊢
    rcases staged with e | (_ | next)
    case error => cases hnone
    case ok.none => rfl
    case ok.some => cases hnone
  have hlast : periodicOwner.staged.lastTime = periodicOwner.app.lastTime := by
    unfold staged
    rw [hcompact, if_pos rfl]
    exact (compact_clock (validate_eq_ok.mp hvalid).toSound).1
  have hcommit : periodicOwner.commit .reference { periodicOwner.staged with clockFrozen := false }
      periodicMachine = .ok (periodicOwner, .ok ()) periodicMachine := by
    unfold commit
    rw [hstage]
    dsimp only
    rw [hlast]
    rfl
  obtain ⟨hfixed, hquiet⟩ := compaction_settles Platform.reference_seals.toJson
  exact ⟨hfixed _ hvalid, hquiet _ _ _ _ _ hvalid hcompact hcommit⟩

end DurableVault

end Credman
