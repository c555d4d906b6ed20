import Credman.Pinned

/-! Updates of one record: each is made against the last, and none is lost. -/
namespace Credman

open Library Library.Checked Relation Application DurableVault

variable {P : Platform}

/-- What can have become of a record: at the same revision it is the same but for what the vault itself
marks. -/
structure Record.Counts (r r' : Record) : Prop where
  revision : r.revision ≤ r'.revision
  same : r'.revision = r.revision → r' = { r with signup := r'.signup, restored := r'.restored }

namespace Record.Counts

theorem refl (r : Record) : r.Counts r := ⟨le_refl _, fun _ => rfl⟩

theorem trans {r r' r'' : Record} (h : r.Counts r') (h' : r'.Counts r'') : r.Counts r'' where
  revision := h.revision.trans h'.revision
  same hsame := by
    have hmid : r'.revision = r.revision := le_antisymm (hsame ▸ h'.revision) h.revision
    rw [h'.same (hsame.trans hmid.symm), h.same hmid]

theorem marked (r : Record) (state : SignupState) (copy : Bool) :
    r.Counts { r with signup := state, restored := copy } := ⟨le_refl _, fun _ => rfl⟩

theorem moved {r r' : Record} (hroom : r.revision ≠ maxU64) (h : r'.revision = r.revision + 1) :
    r.Counts r' := by
  have hlt : r.revision < r'.revision := h ▸ (lt_succ_iff hroom).mpr (le_refl _)
  exact ⟨le_of_lt hlt, fun hsame => absurd hsame hlt.ne'⟩

end Record.Counts

namespace Application

variable {app mid next : Application} {ctx : AuthenticatedContext} {t : TaskApproval}
  {task request i : Uuid} {op : Mutation} {draw : Draw} {effective : Time} {receipt : Receipt}
  {r r' : Record}

theorem Operated.record_counts {id : Uuid} (hfresh : app.Fresh id) (h : Operated P id app next)
    (hr' : next.records.get? i = some r') : (∃ r, app.records.get? i = some r ∧ r.Counts r') ∨ i = id := by
  cases h.records_from hfresh hr' with
  | @same r hr state heq => exact .inl ⟨r, hr, heq ▸ .marked r state r.restored⟩
  | changed htarget hr _ _ hroom _ hchanged => exact .inl ⟨_, hr, .moved hroom hchanged.revision_eq⟩
  | created hi => exact .inr hi

theorem Evolves.record_counts {since : Nat} (hids : P.FreshIds) (h : app.Evolves P since next)
    (hr' : next.records.get? i = some r') :
    (∃ r, app.records.get? i = some r ∧ r.Counts r') ∨ ∃ k, since ≤ k ∧ i = P.uuid k := by
  induction h generalizing r' with
  | refl => exact .inl ⟨r', hr', .refl r'⟩
  | @ran b n call mid next _ hvalid hlasting hsince hruns ih =>
    rcases hruns.operated.record_counts (hlasting.fresh hids (le_refl n)) hr' with ⟨r₁, hr₁, hcounts⟩ | hi
    · refine (ih hr₁).imp_left ?_
      rintro ⟨r, hr, hold⟩
      exact ⟨r, hr, hold.trans hcounts⟩
    · exact .inr ⟨n, hsince, hi⟩
  | compacted _ hvalid hlasting ih => exact ih ((hlasting.compact hvalid).2.2.records i r' hr')
  | recovered _ hvalid hclosed ih =>
    obtain ⟨r₁, hr₁, heq⟩ := hclosed.record hr'
    have hcounts : r₁.Counts r' := heq ▸ .marked r₁ r'.signup _
    refine (ih hr₁).imp_left ?_
    rintro ⟨r, hr, hold⟩
    exact ⟨r, hr, hold.trans hcounts⟩
  | renumbered _ _ _ ih => exact ih hr'
  | clocked _ _ _ ih => exact ih hr'

theorem Evolves.counts {since : Nat} (hids : P.FreshIds) (hlasting : Lasting P since app)
    (h : app.Evolves P since next) (hr : app.records.get? i = some r) (hr' : next.records.get? i = some r') :
    r.Counts r' := by
  rcases h.record_counts hids hr' with ⟨s, hs, hcounts⟩ | hnew
  · rw [hr, Option.some.injEq] at hs
    exact hs ▸ hcounts
  · exact absurd hnew (Evolves.not_new hids hlasting (.inl ⟨r, hr⟩))

/-! What an update leaves alone. -/

/-- All but one record, its grants and one remembered request is as it was. -/
structure Elsewhere (app : Application) (i : Uuid) (key : RequestKey) (next : Application) : Prop where
  tasks : next.tasks = app.tasks
  revokedTasks : next.revokedTasks = app.revokedTasks
  deliveries : next.deliveries = app.deliveries
  baselines : next.baselines = app.baselines
  records : ∀ j, j ≠ i → next.records.get? j = app.records.get? j
  grants : ∀ gid g, g.record ≠ i → (next.grants.get? gid = some g ↔ app.grants.get? gid = some g)
  requests : ∀ k, k ≠ key → next.requests.get? k = app.requests.get? k

theorem Elsewhere.of_ticked {now : Time} {key : RequestKey} {g : UInt64}
    (h : (app.ticked now).Elsewhere i key next) : app.Elsewhere i key { next with generation := g } where
  tasks := h.tasks.trans (ticked_tasks app now)
  revokedTasks := h.revokedTasks.trans (ticked_revokedTasks app now)
  deliveries := h.deliveries.trans (ticked_deliveries app now)
  baselines := h.baselines.trans (ticked_baselines app now)
  records j hj := by rw [← ticked_records app now]; exact h.records j hj
  grants gid g hg := by rw [← ticked_grants app now]; exact h.grants gid g hg
  requests k hk := by rw [← ticked_requests app now]; exact h.requests k hk

end Application

/-! Updates in a fleet. -/

section Runs

variable {fleet fleet' : Fleet} {i : Nat} {owner : DurableVault} {record : Uuid}
  {ctx : AuthenticatedContext} {task request : Uuid} {op : Mutation} {now : Time} {faults : List Fault}
  {receipt : Receipt}

end Runs

end Credman
