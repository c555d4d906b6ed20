import Credman.Retention

/-! What an executed mutation changes: one record moves on by one revision, or
one record appears. -/
namespace Credman

open Library Library.Checked

theorem toNat_succ {n : UInt64} (h : n ≠ maxU64) : (n + 1).toNat = n.toNat + 1 := by
  have hmax : maxU64.toNat = 2 ^ 64 - 1 := rfl
  have hlt := n.toNat_lt
  rw [Ne, ← UInt64.toNat_inj, hmax] at h
  rw [UInt64.toNat_add, UInt64.toNat_one]
  omega

theorem lt_succ_iff {m n : UInt64} (h : n ≠ maxU64) : m < n + 1 ↔ m ≤ n := by
  rw [UInt64.lt_iff_toNat_lt, UInt64.le_iff_toNat_le, toNat_succ h]
  omega

theorem le_succ_iff {m n : UInt64} (h : n ≠ maxU64) : m ≤ n + 1 ↔ m ≤ n ∨ m = n + 1 := by
  rw [UInt64.le_iff_toNat_le, UInt64.le_iff_toNat_le, ← UInt64.toNat_inj, toNat_succ h]
  omega

/-- A grant is only ever changed by being revoked. -/
def Grant.Follows (g g' : Grant) : Prop :=
  g' = { g with revoked := g'.revoked } ∧ (g.revoked = true → g'.revoked = true)

theorem Grant.Follows.refl (g : Grant) : g.Follows g := ⟨rfl, id⟩

theorem Grant.Follows.trans {g g' g'' : Grant} (h : g.Follows g') (h' : g'.Follows g'') : g.Follows g'' := by
  refine ⟨?_, fun hrevoked => h'.2 (h.2 hrevoked)⟩
  rw [h'.1, h.1]

theorem Grant.follows_revoked (g : Grant) : g.Follows { g with revoked := true } :=
  ⟨rfl, fun _ => rfl⟩

namespace Application

variable {P : Platform} {app : Application}

/-- An existing record moved on by one revision. -/
structure Changed (app : Application) (op : Mutation) (receipt : Receipt) (id : Uuid)
    (r r' : Record) (next : Application) : Prop where
  found : app.records.get? id = some r
  target : receipt.record = id
  revision : receipt.revision = r.revision + 1
  identity : r' = { r with
    revision := r.revision + 1, secretVersion := r'.secretVersion, values := r'.values
    signup := r'.signup, deleted := r'.deleted }
  version : r'.secretVersion =
    if op.cachedKind = .patch then r.secretVersion + 1 else r.secretVersion
  version_room : op.cachedKind = .patch → r.secretVersion ≠ maxU64
  deleted : r'.deleted = (op.isDelete || r.deleted)
  signup : r'.signup = r.signup ∨ r'.signup = .pending
    ∨ ∃ expected, op = .reportOutcome id expected r'.signup
  kept : ∀ gid g, app.grants.get? gid = some g → ∃ g', next.grants.get? gid = some g' ∧ g.Follows g'
  granted : ∀ gid g', next.grants.get? gid = some g' →
    (∃ g, app.grants.get? gid = some g ∧ g.Follows g')
      ∨ op.cachedKind = .share ∧ receipt.grant = some gid
  new_grant : op.cachedKind = .share → ∀ gid, receipt.grant = some gid → app.grants.get? gid = none
  result : next = { app with records := app.records.insert id r', grants := next.grants }

theorem follows_mapVals {m : OrdMap Uuid Grant} {f : Uuid → Grant → Grant}
    (hf : ∀ (gid : Uuid) (g : Grant), g.Follows (f gid g)) :
    (∀ gid g, m.get? gid = some g →
      ∃ g', (m.mapVals f).get? gid = some g' ∧ g.Follows g')
    ∧ ∀ gid g', (m.mapVals f).get? gid = some g' →
      ∃ g, m.get? gid = some g ∧ g.Follows g' := by
  constructor
  · intro gid g hg
    exact ⟨f gid g, by rw [OrdMap.get?_mapVals, hg]; rfl, hf gid g⟩
  · intro gid g' hg'
    rw [OrdMap.get?_mapVals, Option.map_eq_some_iff] at hg'
    obtain ⟨g, hg, rfl⟩ := hg'
    exact ⟨g, hg, hf gid g⟩

theorem follows_insert {grants : OrdMap Uuid Grant} {gid : Uuid} {g g' : Grant}
    (hg : grants.get? gid = some g) (hf : g.Follows g') :
    (∀ i h, grants.get? i = some h → ∃ h', (grants.insert gid g').get? i = some h' ∧ h.Follows h')
    ∧ ∀ i h', (grants.insert gid g').get? i = some h' →
      ∃ h, grants.get? i = some h ∧ h.Follows h' := by
  constructor
  · intro i h hi
    rw [OrdMap.get?_insert]
    split_ifs with heq
    · subst heq
      rw [hg, Option.some.injEq] at hi
      exact ⟨g', rfl, hi ▸ hf⟩
    · exact ⟨h, hi, .refl h⟩
  · intro i h' hi
    rw [OrdMap.get?_insert] at hi
    split_ifs at hi with heq
    · subst heq
      rw [Option.some.injEq] at hi
      exact ⟨g, hg, hi ▸ hf⟩
    · exact ⟨h', hi, .refl h'⟩

/-- A mutation of an existing record moves it on. -/
theorem Performed.changed {ctx : AuthenticatedContext} {t : TaskApproval} {task : Uuid}
    {draw : Draw} {op : Mutation} {receipt : Receipt} {next : Application} {id : Uuid}
    (h : Performed ctx t task draw app op receipt next) (htarget : op.target = some id)
    (hfresh : op.cachedKind = .share → app.grants.get? draw.id = none) :
    ∃ r r', app.Changed op receipt id r r' next := by
  cases h with
  | create room => cases htarget
  | @patch _ expected values r r' hr hpatched =>
    cases htarget
    unfold patched at hpatched
    refine ⟨r, r', ?_⟩
    by_cases hcredential : values.changesCredential = true
    · rw [if_pos hcredential] at hpatched
      split_ifs at hpatched with hroom
      cases hpatched
      have hkind : (Mutation.patch id expected values).cachedKind = .patch := if_pos hcredential
      refine ⟨hr, rfl, rfl, rfl, (if_pos hkind).symm, fun _ => by simpa using hroom, rfl,
        .inr (.inl rfl), fun gid g hg => ⟨g, hg, .refl g⟩, fun gid g hg => .inl ⟨g, hg, .refl g⟩,
        ?_, rfl⟩
      rw [hkind]
      nofun
    · rw [if_neg hcredential] at hpatched
      cases hpatched
      have hkind : (Mutation.patch id expected values).cachedKind = .metadataPatch :=
        if_neg hcredential
      refine ⟨hr, rfl, rfl, rfl, ?_, ?_, rfl, .inl rfl, fun gid g hg => ⟨g, hg, .refl g⟩,
        fun gid g hg => .inl ⟨g, hg, .refl g⟩, ?_, rfl⟩
      · rw [hkind, if_neg nofun]
      · rw [hkind]
        nofun
      · rw [hkind]
        nofun
  | @share _ expected spec r hr room =>
    cases htarget
    refine ⟨r, { r with revision := r.revision + 1 }, hr, rfl, rfl, rfl, rfl, nofun, rfl, .inl rfl,
      ?_, ?_, ?_, rfl⟩
    · intro gid g hg
      refine ⟨g, ?_, .refl g⟩
      have hne : draw.id ≠ gid := fun heq => absurd (heq ▸ hfresh rfl) (by rw [hg]; nofun)
      exact (OrdMap.get?_insert_ne _ _ hne).trans hg
    · intro gid g' hg'
      change (app.grants.insert draw.id _).get? gid = some g' at hg'
      rw [OrdMap.get?_insert] at hg'
      split_ifs at hg' with heq
      · exact .inr ⟨rfl, congrArg some heq⟩
      · exact .inl ⟨g', hg', .refl g'⟩
    · rintro - gid ⟨⟩
      exact hfresh rfl
  | @revoke _ expected grant r g hr hg =>
    cases htarget
    obtain ⟨hkept, hgranted⟩ := follows_insert hg g.follows_revoked
    exact ⟨r, { r with revision := r.revision + 1 }, hr, rfl, rfl, rfl, rfl, nofun, rfl, .inl rfl,
      hkept, fun gid g' hg' => .inl (hgranted gid g' hg'), nofun, rfl⟩
  | @delete _ expected r hr =>
    cases htarget
    have hfollows : ∀ (gid : Uuid) (g : Grant),
        g.Follows (if g.record == id then { g with revoked := true } else g) := by
      intro gid g
      split_ifs
      · exact g.follows_revoked
      · exact .refl g
    obtain ⟨hkept, hgranted⟩ := follows_mapVals (m := app.grants) hfollows
    exact ⟨r, { r with deleted := true, values := ∅, revision := r.revision + 1 }, hr, rfl, rfl, rfl,
      rfl, nofun, rfl, .inl rfl, hkept, fun gid g' hg' => .inl (hgranted gid g' hg'), nofun, rfl⟩
  | @reportOutcome _ expected state r hr =>
    cases htarget
    exact ⟨r, { r with signup := state, revision := r.revision + 1 }, hr, rfl, rfl, rfl, rfl, nofun,
      rfl, .inr (.inr ⟨expected, rfl⟩), fun gid g hg => ⟨g, hg, .refl g⟩, fun gid g hg => .inl ⟨g, hg, .refl g⟩, nofun, rfl⟩

namespace Changed

variable {op : Mutation} {receipt : Receipt} {id : Uuid} {r r' : Record} {next : Application}

theorem revision_eq (h : app.Changed op receipt id r r' next) : r'.revision = r.revision + 1 := by
  rw [h.identity]

theorem task_eq (h : app.Changed op receipt id r r' next) : r'.task = r.task := by rw [h.identity]

theorem createdBy_eq (h : app.Changed op receipt id r r' next) : r'.createdBy = r.createdBy := by
  rw [h.identity]

theorem kind_eq (h : app.Changed op receipt id r r' next) : r'.kind = r.kind := by rw [h.identity]

theorem sameScope_eq (h : app.Changed op receipt id r r' next) (t : TaskApproval) :
    sameScope t r' = sameScope t r := by
  rw [h.identity]
  rfl

theorem version_le (h : app.Changed op receipt id r r' next) :
    r.secretVersion ≤ r'.secretVersion := by
  rw [h.version]
  split_ifs with hpatch
  · exact le_of_lt ((lt_succ_iff (h.version_room hpatch)).mpr (le_refl _))
  · exact le_refl _

theorem records_eq (h : app.Changed op receipt id r r' next) :
    next.records = app.records.insert id r' := by rw [h.result]

theorem tasks_eq (h : app.Changed op receipt id r r' next) : next.tasks = app.tasks := by
  rw [h.result]

theorem record_self (h : app.Changed op receipt id r r' next) : next.records.get? id = some r' := by
  rw [h.records_eq, OrdMap.get?_insert_self]

/-- Each record is as before, or is the one that moved on. -/
theorem records_some (h : app.Changed op receipt id r r' next) {j : Uuid} {s : Record} :
    next.records.get? j = some s ↔ (j = id ∧ s = r') ∨ (j ≠ id ∧ app.records.get? j = some s) := by
  rw [h.records_eq, OrdMap.get?_insert]
  by_cases hj : id = j
  · subst hj
    simp [eq_comm]
  · simp [hj, Ne.symm hj]

end Changed

end Application

end Credman
