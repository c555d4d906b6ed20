import Credman.Validation
import Mathlib.Data.List.TakeWhile

/-! The first pass of compaction: the stale receipts right above a baseline are
folded into it. -/
namespace Credman

open Library

namespace Application

/-- The receipts of one record, by revision. -/
def chainOf (app : Application) (id : Uuid) : List (RequestKey × Remembered) :=
  (app.requests.entries.filter fun entry => entry.2.result.record == id).insertionSort
    fun a b => a.2.result.revision ≤ b.2.result.revision

theorem receiptsOf_eq (app : Application) (id : Uuid) :
    app.receiptsOf id = (app.chainOf id).map fun entry => (entry.2.result.revision, entry.1) := by
  rw [receiptsOf, chainOf]
  refine (List.map_insertionSort (r := fun a b : RequestKey × Remembered =>
    a.2.result.revision ≤ b.2.result.revision) (s := fun a b : UInt64 × RequestKey => a.1 ≤ b.1)
    _ _ fun _ _ _ _ => Iff.rfl).symm

theorem mem_chainOf {app : Application} {id : Uuid} {entry : RequestKey × Remembered} :
    entry ∈ app.chainOf id ↔
      app.requests.get? entry.1 = some entry.2 ∧ entry.2.result.record = id := by
  rw [chainOf, (List.perm_insertionSort _ _).mem_iff, List.mem_filter, beq_iff_eq]
  obtain ⟨key, cached⟩ := entry
  rw [OrdMap.mem_entries]

theorem nodup_chainOf (app : Application) (id : Uuid) : ((app.chainOf id).map Prod.fst).Nodup := by
  have hsorted := app.requests.sorted.filter fun entry => entry.2.result.record == id
  have hkeys : ((app.requests.entries.filter fun entry =>
      entry.2.result.record == id).map Prod.fst).Nodup := by
    rw [List.Nodup, List.pairwise_map]
    exact hsorted.imp fun h => ne_of_lt h
  exact ((List.perm_insertionSort _ _).map Prod.fst).nodup_iff.mpr hkeys

theorem sorted_chainOf (app : Application) (id : Uuid) :
    (app.chainOf id).Pairwise fun a b => a.2.result.revision ≤ b.2.result.revision := by
  have : Std.Total fun a b : RequestKey × Remembered =>
      a.2.result.revision ≤ b.2.result.revision := ⟨fun _ _ => le_total _ _⟩
  have : IsTrans (RequestKey × Remembered) fun a b =>
      a.2.result.revision ≤ b.2.result.revision := ⟨fun _ _ _ => le_trans⟩
  exact List.pairwise_insertionSort _ _

/-- The stale receipts at the start of a chain. -/
def foldable (app : Application) (id : Uuid) : List (RequestKey × Remembered) :=
  (app.chainOf id).takeWhile fun entry => stale entry.2.storedAt app.lastTime

end Application

/-- The revisions above the baseline are `start`, `start + 1` and so on. -/
def Consecutive (start : Nat) (entries : List (RequestKey × Remembered)) : Prop :=
  entries.map (fun entry => entry.2.result.revision.toNat) = List.range' start entries.length

theorem consecutive_cons {start : Nat} {e : RequestKey × Remembered}
    {rest : List (RequestKey × Remembered)} :
    Consecutive start (e :: rest) ↔
      e.2.result.revision.toNat = start ∧ Consecutive (start + 1) rest := by
  simp [Consecutive, List.range'_succ]

theorem Consecutive.of_append {start : Nat} {left right : List (RequestKey × Remembered)}
    (h : Consecutive start (left ++ right)) : Consecutive start left := by
  induction left generalizing start with
  | nil => rfl
  | cons e rest ih =>
    obtain ⟨hrevision, hrest⟩ := consecutive_cons.mp h
    exact consecutive_cons.mpr ⟨hrevision, ih hrest⟩

theorem Consecutive.to_append {start : Nat} {left right : List (RequestKey × Remembered)}
    (h : Consecutive start (left ++ right)) : Consecutive (start + left.length) right := by
  induction left generalizing start with
  | nil => exact h
  | cons e rest ih =>
    have hrest := ih (consecutive_cons.mp h).2
    rw [List.length_cons]
    rwa [Nat.add_right_comm, Nat.add_assoc] at hrest

namespace Application

variable {P : Platform} {app : Application}

theorem Sound.through_le (h : app.Sound P) {id : Uuid} {r : Record}
    (hr : app.records.get? id = some r) : app.through id ≤ r.revision := by
  cases hb : app.baselines.get? id with
  | none =>
    rw [through_none hb]
    exact UInt64.zero_le
  | some base =>
    obtain ⟨r', hr', hsound⟩ := h.baselines id base hb
    rw [hr, Option.some.injEq] at hr'
    rw [through_eq hb, hr']
    exact hsound.through_le

theorem Sound.consecutive (h : app.Sound P) {id : Uuid} {r : Record}
    (hr : app.records.get? id = some r) :
    Consecutive ((app.through id).toNat + 1) (app.chainOf id)
      ∧ (app.chainOf id).length = r.revision.toNat - (app.through id).toNat := by
  have hinj : ∀ a ∈ app.chainOf id, ∀ b ∈ app.chainOf id,
      a.2.result.revision = b.2.result.revision → a = b := by
    rintro ⟨k, c⟩ ha ⟨k', c'⟩ hb heq
    obtain ⟨hk, hkrecord⟩ := mem_chainOf.mp ha
    obtain ⟨hk', hkrecord'⟩ := mem_chainOf.mp hb
    have hkey := h.one_receipt k c k' c' hk hk' (hkrecord.trans hkrecord'.symm) heq
    subst hkey
    exact congrArg (Prod.mk k) (Option.some.inj (hk.symm.trans hk'))
  have hnodup : (app.chainOf id).Nodup := (nodup_chainOf app id).of_map _
  have hstrict : ((app.chainOf id).map fun e => e.2.result.revision.toNat).Pairwise (· < ·) := by
    rw [List.pairwise_map]
    refine ((sorted_chainOf app id).and hnodup).imp_of_mem ?_
    rintro a b ha hb ⟨hle, hne⟩
    refine UInt64.lt_iff_toNat_lt.mp (lt_of_le_of_ne hle ?_)
    exact fun heq => hne (hinj a ha b hb heq)
  have hmem : ∀ n, n ∈ (app.chainOf id).map (fun e => e.2.result.revision.toNat) ↔
      n ∈ List.range' ((app.through id).toNat + 1)
        (r.revision.toNat - (app.through id).toNat) := by
    intro n
    rw [List.mem_map, List.mem_range'_1]
    constructor
    · rintro ⟨⟨key, cached⟩, he, rfl⟩
      obtain ⟨hget, hrecord⟩ := mem_chainOf.mp he
      dsimp only at hget hrecord ⊢
      subst hrecord
      obtain ⟨t, r', -, hr', hsound, -⟩ := h.receipts key cached hget
      rw [hr, Option.some.injEq] at hr'
      have habove := UInt64.lt_iff_toNat_lt.mp hsound.above
      have hbelow := UInt64.le_iff_toNat_le.mp hsound.below
      rw [← hr'] at hbelow
      omega
    · rintro ⟨hlo, hhi⟩
      have hbound := r.revision.toNat_lt
      have hn : (UInt64.ofNat n).toNat = n := by
        rw [UInt64.toNat_ofNat']
        omega
      obtain ⟨key, cached, hget, hrecord, hrevision⟩ := (h.chain id r hr).covered (UInt64.ofNat n)
        (by rw [UInt64.lt_iff_toNat_lt, hn]; omega) (by rw [UInt64.le_iff_toNat_le, hn]; omega)
      exact ⟨(key, cached), mem_chainOf.mpr ⟨hget, hrecord⟩, by rw [hrevision, hn]⟩
  have hperm : ((app.chainOf id).map fun e => e.2.result.revision.toNat).Perm
      (List.range' ((app.through id).toNat + 1) (r.revision.toNat - (app.through id).toNat)) := by
    apply (List.perm_ext_iff_of_nodup _ List.nodup_range').mpr hmem
    exact hstrict.imp fun h => ne_of_lt h
  have heq := hperm.eq_of_pairwise
    (fun a b _ _ hab hba => absurd hab (not_lt.mpr (le_of_lt hba))) hstrict
    List.pairwise_lt_range'
  have hlength : (app.chainOf id).length = r.revision.toNat - (app.through id).toNat := by
    simpa using congrArg List.length heq
  exact ⟨by rw [Consecutive, heq, hlength], hlength⟩

/-- The cached receipts of a record are the consecutive run from its baseline to its revision. -/
structure Chained (app : Application) (id : Uuid) (r : Record) : Prop where
  found : app.records.get? id = some r
  through_le : app.through id ≤ r.revision
  consecutive : Consecutive ((app.through id).toNat + 1) (app.chainOf id)
  length : (app.chainOf id).length = r.revision.toNat - (app.through id).toNat

theorem Sound.chained (h : app.Sound P) {id : Uuid} {r : Record} (hr : app.records.get? id = some r) :
    app.Chained id r :=
  ⟨hr, h.through_le hr, (h.consecutive hr).1, (h.consecutive hr).2⟩

theorem foldableFrom_eq {through next : UInt64} {start : Nat}
    {entries : List (RequestKey × Remembered)}
    (hget : ∀ e ∈ entries, app.requests.get? e.1 = some e.2)
    (hconsecutive : Consecutive start entries) (habove : through.toNat < start)
    (hnext : entries ≠ [] → next.toNat = start) :
    app.foldableFrom through next (entries.map fun e => (e.2.result.revision, e.1)) =
      entries.takeWhile fun e => stale e.2.storedAt app.lastTime := by
  induction entries generalizing next start with
  | nil => rfl
  | cons e rest ih =>
    obtain ⟨hrevision, hrest⟩ := consecutive_cons.mp hconsecutive
    have hhead : next.toNat = start := hnext (by simp)
    have heq : e.2.result.revision = next := UInt64.toNat_inj.mp (hrevision.trans hhead.symm)
    have hnot : ¬ e.2.result.revision ≤ through := by
      rw [UInt64.le_iff_toNat_le, hrevision]
      omega
    rw [List.map_cons, foldableFrom, if_neg hnot, hget e (by simp)]
    simp only [heq, bne_self_eq_false, Bool.or_false, List.takeWhile_cons]
    cases hstale : stale e.2.storedAt app.lastTime with
    | false => simp
    | true =>
      simp only [Bool.not_true, Bool.false_eq_true, ↓reduceIte, List.cons.injEq, true_and]
      refine ih (fun e he => hget e (List.mem_cons_of_mem _ he)) hrest (by omega) ?_
      intro hne
      obtain ⟨e', rest', rfl⟩ := List.exists_cons_of_ne_nil hne
      have hbound := e'.2.result.revision.toNat_lt
      rw [(consecutive_cons.mp hrest).1] at hbound
      rw [UInt64.toNat_add, hhead, UInt64.toNat_one]
      omega

end Application

namespace RecordBaseline

/-- Absorbing a run of receipts, in their order. -/
def absorbAll (base : RecordBaseline) (folded : List (RequestKey × Remembered)) :
    RecordBaseline :=
  folded.foldl (fun base entry => base.absorb entry.2) base

@[simp] theorem absorbAll_nil (base : RecordBaseline) : base.absorbAll [] = base := rfl

@[simp] theorem absorbAll_cons (base : RecordBaseline) (e : RequestKey × Remembered)
    (rest : List (RequestKey × Remembered)) :
    base.absorbAll (e :: rest) = (base.absorb e.2).absorbAll rest := rfl

@[simp] theorem absorb_through (base : RecordBaseline) (cached : Remembered) :
    (base.absorb cached).through = cached.result.revision := by
  unfold absorb
  cases cached.kind <;> simp only
  split
  · split <;> rfl
  · rfl

@[simp] theorem absorb_registrationDispatched (base : RecordBaseline) (cached : Remembered) :
    (base.absorb cached).registrationDispatched = base.registrationDispatched := by
  unfold absorb
  cases cached.kind <;> simp only
  split
  · split <;> rfl
  · rfl

@[simp] theorem absorb_verifiedLogin (base : RecordBaseline) (cached : Remembered) :
    (base.absorb cached).verifiedLogin = base.verifiedLogin := by
  unfold absorb
  cases cached.kind <;> simp only
  split
  · split <;> rfl
  · rfl

theorem absorb_deletePruned (base : RecordBaseline) (cached : Remembered) :
    (base.absorb cached).deletePruned = (base.deletePruned || cached.kind == .delete) := by
  unfold absorb
  cases cached.kind <;> simp only <;> try simp
  split
  · split <;> simp
  · simp

theorem absorb_secretVersion (base : RecordBaseline) (cached : Remembered) :
    (base.absorb cached).secretVersion = match cached.kind with
      | .create => 1
      | .patch => saturatingSucc base.secretVersion
      | _ => base.secretVersion := by
  unfold absorb
  cases cached.kind <;> simp only
  split
  · split <;> rfl
  · rfl

theorem mem_absorb_prunedGrants {base : RecordBaseline} {cached : Remembered} {gid : Uuid} :
    gid ∈ (base.absorb cached).prunedGrants ↔ gid ∈ base.prunedGrants
      ∨ cached.kind = .share ∧ cached.result.grant = some gid := by
  unfold absorb
  cases cached.kind <;> simp only [reduceCtorEq, false_and, or_false, true_and]
  cases cached.result.grant with
  | none => simp
  | some grant =>
    by_cases hmem : grant ∈ base.prunedGrants
    · simp [hmem]
      rintro rfl
      exact hmem
    · simp [hmem, eq_comm]

theorem nodup_absorb {base : RecordBaseline} {cached : Remembered}
    (h : base.prunedGrants.Nodup) : (base.absorb cached).prunedGrants.Nodup := by
  unfold absorb
  cases cached.kind <;> simp only <;> try exact h
  cases cached.result.grant with
  | none => exact h
  | some grant =>
    by_cases hmem : grant ∈ base.prunedGrants
    · simpa [hmem] using h
    · simpa [hmem, List.nodup_append] using ⟨h, fun a ha heq => hmem (heq ▸ ha)⟩

theorem toNat_saturatingSucc (n : UInt64) :
    (saturatingSucc n).toNat = min (2 ^ 64 - 1) (n.toNat + 1) := by
  have hn := n.toNat_lt
  unfold saturatingSucc
  split_ifs with hmax
  · rw [beq_iff_eq] at hmax
    rw [hmax]
    decide
  · have hne : n.toNat ≠ 2 ^ 64 - 1 := by
      intro heq
      exact hmax (beq_iff_eq.mpr (UInt64.toNat_inj.mp (by rw [heq]; decide)))
    rw [UInt64.toNat_add, UInt64.toNat_one]
    omega

section All

variable {base : RecordBaseline} {folded : List (RequestKey × Remembered)}

@[simp] theorem absorbAll_registrationDispatched :
    (base.absorbAll folded).registrationDispatched = base.registrationDispatched := by
  induction folded generalizing base with
  | nil => rfl
  | cons e rest ih => rw [absorbAll_cons, ih, absorb_registrationDispatched]

@[simp] theorem absorbAll_verifiedLogin :
    (base.absorbAll folded).verifiedLogin = base.verifiedLogin := by
  induction folded generalizing base with
  | nil => rfl
  | cons e rest ih => rw [absorbAll_cons, ih, absorb_verifiedLogin]

theorem absorbAll_deletePruned : (base.absorbAll folded).deletePruned =
    (base.deletePruned || folded.any fun e => e.2.kind == .delete) := by
  induction folded generalizing base with
  | nil => simp
  | cons e rest ih => rw [absorbAll_cons, ih, absorb_deletePruned, List.any_cons, Bool.or_assoc]

theorem mem_absorbAll_prunedGrants {gid : Uuid} : gid ∈ (base.absorbAll folded).prunedGrants ↔
    gid ∈ base.prunedGrants
      ∨ ∃ e ∈ folded, e.2.kind = .share ∧ e.2.result.grant = some gid := by
  induction folded generalizing base with
  | nil => simp
  | cons e rest ih =>
    rw [absorbAll_cons, ih, mem_absorb_prunedGrants]
    simp [or_assoc]

theorem nodup_absorbAll (h : base.prunedGrants.Nodup) :
    (base.absorbAll folded).prunedGrants.Nodup := by
  induction folded generalizing base with
  | nil => exact h
  | cons e rest ih => exact ih (nodup_absorb h)

theorem absorbAll_through (h : Consecutive (base.through.toNat + 1) folded) :
    (base.absorbAll folded).through.toNat = base.through.toNat + folded.length := by
  induction folded generalizing base with
  | nil => rfl
  | cons e rest ih =>
    obtain ⟨hrevision, hrest⟩ := consecutive_cons.mp h
    rw [absorbAll_cons, ih, absorb_through, hrevision, List.length_cons]
    · omega
    · rwa [absorb_through, hrevision]

/-- Patches raise the version up to the largest word. -/
theorem absorbAll_secretVersion (h : ∀ e ∈ folded, e.2.kind ≠ .create) :
    (base.absorbAll folded).secretVersion.toNat = min (2 ^ 64 - 1)
      (base.secretVersion.toNat + folded.countP fun e => e.2.kind == .patch) := by
  induction folded generalizing base with
  | nil =>
    have := base.secretVersion.toNat_lt
    simp only [absorbAll_nil, List.countP_nil, Nat.add_zero]
    omega
  | cons e rest ih =>
    rw [absorbAll_cons, ih fun e he => h e (List.mem_cons_of_mem _ he), absorb_secretVersion,
      List.countP_cons]
    have hne := h e (by simp)
    cases hk : e.2.kind <;> simp_all [toNat_saturatingSucc]
    omega

end All

end RecordBaseline

namespace Application

variable {P : Platform} {app : Application}

theorem get?_eraseAll {K V : Type} [LinearOrder K] (folded : List (K × V)) (m : OrdMap K V)
    (key : K) : (folded.foldl (fun m entry => m.erase entry.1) m).get? key =
      if key ∈ folded.map Prod.fst then none else m.get? key := by
  induction folded generalizing m with
  | nil => simp
  | cons e rest ih =>
    rw [List.foldl_cons, ih, OrdMap.get?_erase]
    rw [List.map_cons]
    by_cases heq : e.1 = key
    · simp [heq]
    · have hne : key ≠ e.1 := fun h => heq h.symm
      simp only [heq, ↓reduceIte, List.mem_cons, hne, false_or]

theorem mem_foldable {id : Uuid} {e : RequestKey × Remembered} (he : e ∈ app.foldable id) :
    app.requests.get? e.1 = some e.2 ∧ e.2.result.record = id
      ∧ stale e.2.storedAt app.lastTime = true := by
  obtain ⟨hget, hrecord⟩ := mem_chainOf.mp ((List.takeWhile_sublist _).subset he)
  exact ⟨hget, hrecord, List.mem_takeWhile_imp (p := fun e : RequestKey × Remembered =>
    stale e.2.storedAt app.lastTime) he⟩

theorem Sound.foldable_consecutive (h : app.Sound P) {id : Uuid} {r : Record}
    (hr : app.records.get? id = some r) :
    Consecutive ((app.through id).toNat + 1) (app.foldable id)
      ∧ (app.through id).toNat + (app.foldable id).length ≤ r.revision.toNat := by
  obtain ⟨hconsecutive, hlength⟩ := h.consecutive hr
  have hsplit : app.foldable id ++ (app.chainOf id).dropWhile
      (fun entry => stale entry.2.storedAt app.lastTime) = app.chainOf id :=
    List.takeWhile_append_dropWhile
  rw [← hsplit] at hconsecutive hlength
  rw [List.length_append] at hlength
  have hle := UInt64.le_iff_toNat_le.mp (h.through_le hr)
  exact ⟨hconsecutive.of_append, by omega⟩

def baseline (app : Application) (id : Uuid) : RecordBaseline := (app.baselines.get? id).getD {}

theorem baseline_through (app : Application) (id : Uuid) :
    (app.baseline id).through = app.through id := by
  rw [baseline, through]
  cases app.baselines.get? id <;> rfl

theorem Chained.foldableFrom_eq {id : Uuid} {r : Record} (h : app.Chained id r) :
    app.foldableFrom (app.through id) (app.through id + 1) (app.receiptsOf id) = app.foldable id := by
  have hlength := h.length
  rw [receiptsOf_eq]
  refine Application.foldableFrom_eq (fun e he => (mem_chainOf.mp he).1) h.consecutive (by omega) ?_
  intro hne
  have hpos : 0 < (app.chainOf id).length := List.length_pos_of_ne_nil hne
  have hbound := r.revision.toNat_lt
  rw [UInt64.toNat_add, UInt64.toNat_one]
  omega

theorem Chained.foldReceipts_eq {id : Uuid} {r : Record} (h : app.Chained id r) :
    app.foldReceipts id = if (app.foldable id).isEmpty then app else { app with
      requests := (app.foldable id).foldl (fun requests entry => requests.erase entry.1)
        app.requests
      baselines := app.baselines.insert id
        ((app.baseline id).absorbAll (app.foldable id)).sortPruned } := by
  rw [foldReceipts]
  simp only [h.foldableFrom_eq]
  rfl

/-- A receipt is folded exactly when it is no later than the last one folded. -/
theorem Sound.mem_foldable_iff (h : app.Sound P) {id : Uuid} {r : Record}
    (hr : app.records.get? id = some r) {key : RequestKey} {cached : Remembered}
    (hget : app.requests.get? key = some cached) (hrecord : cached.result.record = id) :
    (key, cached) ∈ app.foldable id ↔
      cached.result.revision.toNat ≤ (app.through id).toNat + (app.foldable id).length := by
  obtain ⟨hconsecutive, -⟩ := h.consecutive hr
  have hsplit : app.foldable id ++ (app.chainOf id).dropWhile
      (fun entry => stale entry.2.storedAt app.lastTime) = app.chainOf id :=
    List.takeWhile_append_dropWhile
  have hmem : (key, cached) ∈ app.chainOf id := mem_chainOf.mpr ⟨hget, hrecord⟩
  rw [← hsplit] at hconsecutive hmem
  have hrevision : ∀ e ∈ app.foldable id, e.2.result.revision.toNat ≤
      (app.through id).toNat + (app.foldable id).length := by
    intro e he
    have hrange := List.mem_map_of_mem (f := fun e : RequestKey × Remembered =>
      e.2.result.revision.toNat) he
    rw [hconsecutive.of_append, List.mem_range'_1] at hrange
    omega
  constructor
  · exact hrevision _
  · intro hle
    rcases List.mem_append.mp hmem with hin | hin
    · exact hin
    · exfalso
      have hlater := hconsecutive.to_append
      have hrange := List.mem_map_of_mem (f := fun e : RequestKey × Remembered =>
        e.2.result.revision.toNat) hin
      rw [hlater, List.mem_range'_1] at hrange
      dsimp only at hrange
      omega

/-- The patches among the receipts that folding takes. -/
def foldedPatches (app : Application) (id : Uuid) : Nat :=
  (app.foldable id).countP fun e => e.2.kind == .patch

/-- Folding the patches does not run the version past the largest word. -/
def Fits (app : Application) (id : Uuid) : Prop :=
  (app.baseline id).secretVersion.toNat + app.foldedPatches id ≤ maxU64.toNat

/-- The application after the stale receipts of one record have been folded. -/
structure Folded (app : Application) (id : Uuid) (r : Record) (next : Application) : Prop where
  found : app.records.get? id = some r
  some_stale : app.foldable id ≠ []
  result : next = { app with requests := next.requests, baselines := next.baselines }
  requests_some : ∀ {key cached}, next.requests.get? key = some cached ↔
    app.requests.get? key = some cached ∧ (key, cached) ∉ app.foldable id
  absorbed : next.baselines.get? id =
    some ((app.baseline id).absorbAll (app.foldable id)).sortPruned
  others : ∀ j, j ≠ id → next.baselines.get? j = app.baselines.get? j

theorem Chained.foldReceipts_cases {id : Uuid} {r : Record} (h : app.Chained id r) :
    (app.foldable id = [] ∧ app.foldReceipts id = app) ∨ app.Folded id r (app.foldReceipts id) := by
  rw [h.foldReceipts_eq]
  by_cases hempty : app.foldable id = []
  · left
    exact ⟨hempty, by rw [if_pos (by rw [hempty]; rfl)]⟩
  · right
    rw [if_neg (by simpa using hempty)]
    refine ⟨h.found, hempty, rfl, ?_, OrdMap.get?_insert_self _ _ _, ?_⟩
    · intro key cached
      dsimp only
      rw [get?_eraseAll]
      split_ifs with hin
      · obtain ⟨⟨key', cached'⟩, hmem, rfl⟩ := List.mem_map.mp hin
        refine ⟨nofun, fun ⟨hget, hnot⟩ => absurd ?_ hnot⟩
        have hsome := (mem_foldable hmem).1.symm.trans hget
        rwa [← Option.some.inj hsome]
      · exact ⟨fun hget => ⟨hget, fun hmem => hin (List.mem_map_of_mem hmem)⟩, fun h => h.1⟩
    · intro j hj
      exact OrdMap.get?_insert_ne _ _ fun heq => hj heq.symm

/-- At most one deletion of each record is still cached; a deleted record takes no more changes. -/
def OneDelete (app : Application) : Prop :=
  ∀ k c k' c', app.requests.get? k = some c → app.requests.get? k' = some c' →
    c.kind = .delete → c'.kind = .delete → c.result.record = c'.result.record → k = k'

namespace Folded

variable {next : Application} {id : Uuid} {r : Record}

theorem tasks_eq (hf : app.Folded id r next) : next.tasks = app.tasks := by rw [hf.result]
theorem records_eq (hf : app.Folded id r next) : next.records = app.records := by rw [hf.result]
theorem grants_eq (hf : app.Folded id r next) : next.grants = app.grants := by rw [hf.result]
theorem deliveries_eq (hf : app.Folded id r next) : next.deliveries = app.deliveries := by
  rw [hf.result]

theorem requests_sub (hf : app.Folded id r next) {key : RequestKey} {cached : Remembered}
    (h : next.requests.get? key = some cached) : app.requests.get? key = some cached :=
  (hf.requests_some.mp h).1

theorem through_others (hf : app.Folded id r next) {j : Uuid} (hj : j ≠ id) :
    next.through j = app.through j := by
  rw [through, through, hf.others j hj]

theorem through_self (h : app.Sound P) (hf : app.Folded id r next) :
    (next.through id).toNat = (app.through id).toNat + (app.foldable id).length := by
  have hconsecutive := (h.foldable_consecutive hf.found).1
  rw [← app.baseline_through] at hconsecutive ⊢
  rw [through_eq hf.absorbed]
  exact RecordBaseline.absorbAll_through hconsecutive

theorem through_pos (h : app.Sound P) (hf : app.Folded id r next) : next.through id ≠ 0 := by
  have hlength := List.length_pos_of_ne_nil hf.some_stale
  have hthrough := hf.through_self h
  intro hzero
  rw [hzero, UInt64.toNat_zero] at hthrough
  omega

/-- What is left of the record's receipts lies above the new baseline. -/
theorem above (h : app.Sound P) (hf : app.Folded id r next) {key : RequestKey}
    {cached : Remembered} (hget : next.requests.get? key = some cached)
    (hrecord : cached.result.record = id) : next.through id < cached.result.revision := by
  obtain ⟨hold, hnot⟩ := hf.requests_some.mp hget
  rw [h.mem_foldable_iff hf.found hold hrecord, not_le] at hnot
  rw [UInt64.lt_iff_toNat_lt, hf.through_self h]
  exact hnot

theorem kept_of_above (h : app.Sound P) (hf : app.Folded id r next) {key : RequestKey}
    {cached : Remembered} (hget : app.requests.get? key = some cached)
    (habove : cached.result.record = id → next.through id < cached.result.revision) :
    next.requests.get? key = some cached := by
  refine hf.requests_some.mpr ⟨hget, fun hmem => ?_⟩
  have hrecord := (mem_foldable hmem).2.1
  have hlt := UInt64.lt_iff_toNat_lt.mp (habove hrecord)
  rw [hf.through_self h] at hlt
  have hle := (h.mem_foldable_iff hf.found hget hrecord).mp hmem
  omega

/-- The first receipt folded into an empty baseline is the creation. -/
theorem head_creates (h : app.Sound P) (hf : app.Folded id r next) (hzero : app.through id = 0) :
    ∃ e rest, app.foldable id = e :: rest ∧ e.2.kind = .create
      ∧ ∀ later ∈ rest, later.2.kind ≠ .create := by
  obtain ⟨e, rest, hcons⟩ := List.exists_cons_of_ne_nil hf.some_stale
  have hconsecutive := (h.foldable_consecutive hf.found).1
  rw [hcons, hzero, UInt64.toNat_zero, consecutive_cons] at hconsecutive
  obtain ⟨hfirst, hrest⟩ := hconsecutive
  have hmem : ∀ later ∈ e :: rest, app.requests.get? later.1 = some later.2
      ∧ later.2.result.record = id := by
    intro later hlater
    rw [← hcons] at hlater
    exact ⟨(mem_foldable hlater).1, (mem_foldable hlater).2.1⟩
  obtain ⟨key, cached, hget, hrecord, hkind⟩ := (h.chain id r hf.found).created hzero
  have hrevision : ∀ k c, app.requests.get? k = some c → c.kind = .create →
      c.result.revision = 1 := by
    intro k c hget hkind
    obtain ⟨t, r', -, -, -, hsound⟩ := h.receipts k c hget
    rw [KindSound, hkind] at hsound
    exact hsound.2.2.1
  refine ⟨e, rest, hcons, ?_, ?_⟩
  · have heq : e.1 = key := by
      apply h.one_receipt _ _ _ _ (hmem e (by simp)).1 hget ((hmem e (by simp)).2.trans hrecord.symm)
      rw [hrevision key cached hget hkind]
      exact UInt64.toNat_inj.mp hfirst
    have hsome := (hmem e (by simp)).1
    rw [heq, hget, Option.some.injEq] at hsome
    rw [← hsome, hkind]
  · intro later hlater hcreate
    have hone := hrevision later.1 later.2 (hmem later (by simp [hlater])).1 hcreate
    have hrange := List.mem_map_of_mem (f := fun e : RequestKey × Remembered =>
      e.2.result.revision.toNat) hlater
    rw [hrest, List.mem_range'_1, hone, UInt64.toNat_one] at hrange
    omega

/-- A creation is never folded onto a baseline that already covers revisions. -/
theorem no_create (h : app.Sound P) (hpos : app.through id ≠ 0) :
    ∀ e ∈ app.foldable id, e.2.kind ≠ .create := by
  intro e he hcreate
  obtain ⟨hget, hrecord, -⟩ := mem_foldable he
  obtain ⟨t, r', -, -, hreceipt, hsound⟩ := h.receipts e.1 e.2 hget
  rw [KindSound, hcreate] at hsound
  have habove := UInt64.lt_iff_toNat_lt.mp hreceipt.above
  rw [hsound.2.2.1, hrecord, UInt64.toNat_one] at habove
  exact hpos (UInt64.toNat_inj.mp (by rw [UInt64.toNat_zero]; omega))

theorem prunedGrants_nodup (h : app.Sound P) (id : Uuid) :
    (app.baseline id).prunedGrants.Nodup := by
  unfold baseline
  cases hb : app.baselines.get? id with
  | none => exact List.nodup_nil
  | some base =>
    obtain ⟨r, -, hsound⟩ := h.baselines id base hb
    exact hsound.sorted.imp fun hlt => ne_of_lt hlt

theorem mem_baseline_prunedGrants {id gid : Uuid} : gid ∈ (app.baseline id).prunedGrants ↔
    ∃ base, app.baselines.get? id = some base ∧ gid ∈ base.prunedGrants := by
  unfold baseline
  cases app.baselines.get? id <;> simp

theorem baseline_deletePruned (app : Application) (id : Uuid) :
    (app.baseline id).deletePruned = app.deletePruned id := by
  unfold baseline deletePruned
  cases app.baselines.get? id <;> rfl

/-- The grants a folded baseline accounts for: those it had, and those of folded shares. -/
theorem mem_prunedGrants (hf : app.Folded id r next) {base : RecordBaseline} {gid : Uuid}
    (hb : next.baselines.get? id = some base) : gid ∈ base.prunedGrants ↔
      (∃ old, app.baselines.get? id = some old ∧ gid ∈ old.prunedGrants)
        ∨ ∃ e ∈ app.foldable id, e.2.kind = .share ∧ e.2.result.grant = some gid := by
  rw [hf.absorbed, Option.some.injEq] at hb
  rw [← hb, RecordBaseline.sortPruned, (List.perm_insertionSort _ _).mem_iff,
    RecordBaseline.mem_absorbAll_prunedGrants, mem_baseline_prunedGrants]

theorem deletePruned_self (hf : app.Folded id r next) : next.deletePruned id = true ↔
    app.deletePruned id = true ∨ ∃ e ∈ app.foldable id, e.2.kind = .delete := by
  unfold deletePruned
  rw [hf.absorbed, Option.any_some, RecordBaseline.sortPruned,
    RecordBaseline.absorbAll_deletePruned, baseline_deletePruned]
  simp [deletePruned]

theorem hasReceipt_split (hf : app.Folded id r next) {kind : CachedKind} {j : Uuid} :
    app.hasReceipt kind j ↔ next.hasReceipt kind j
      ∨ j = id ∧ ∃ e ∈ app.foldable id, e.2.kind = kind := by
  constructor
  · rintro ⟨key, cached, hget, hrecord, hkind⟩
    by_cases hin : (key, cached) ∈ app.foldable id
    · exact .inr ⟨hrecord.symm.trans (mem_foldable hin).2.1, _, hin, hkind⟩
    · exact .inl ⟨key, cached, hf.requests_some.mpr ⟨hget, hin⟩, hrecord, hkind⟩
  · rintro (⟨key, cached, hget, hrecord, hkind⟩ | ⟨rfl, e, he, hkind⟩)
    · exact ⟨key, cached, hf.requests_sub hget, hrecord, hkind⟩
    · exact ⟨e.1, e.2, (mem_foldable he).1, (mem_foldable he).2.1, hkind⟩

theorem baselineSound (h : app.Sound P) (hf : app.Folded id r next) {base : RecordBaseline}
    (hb : next.baselines.get? id = some base) : BaselineSound base r := by
  have hpos := hf.through_pos h
  have hle := (h.foldable_consecutive hf.found).2
  rw [through_eq hb] at hpos
  refine ⟨?_, fun hzero => absurd hzero hpos, fun _ => ?_, ?_, ?_⟩
  · rw [UInt64.le_iff_toNat_le, ← through_eq hb, hf.through_self h]
    exact hle
  · rw [hf.absorbed, Option.some.injEq] at hb
    have hversion : base.secretVersion =
        ((app.baseline id).absorbAll (app.foldable id)).secretVersion := by rw [← hb]; rfl
    rw [UInt64.le_iff_toNat_le, hversion, UInt64.toNat_one]
    by_cases hzero : app.through id = 0
    · obtain ⟨e, rest, hcons, hcreate, hrest⟩ := hf.head_creates h hzero
      rw [hcons, RecordBaseline.absorbAll_cons, RecordBaseline.absorbAll_secretVersion hrest,
        RecordBaseline.absorb_secretVersion, hcreate, UInt64.toNat_one]
      omega
    · rw [RecordBaseline.absorbAll_secretVersion (no_create h hzero)]
      obtain ⟨old, hold⟩ : ∃ old, app.baselines.get? id = some old := by
        cases hold : app.baselines.get? id with
        | none => exact absurd (through_none hold) hzero
        | some old => exact ⟨old, rfl⟩
      obtain ⟨r', -, hsound⟩ := h.baselines id old hold
      rw [through_eq hold] at hzero
      have hone := UInt64.le_iff_toNat_le.mp (hsound.version_pos (UInt64.pos_iff_ne_zero.mpr hzero))
      rw [UInt64.toNat_one] at hone
      rw [baseline, hold, Option.getD_some]
      omega
  · rw [hf.absorbed, Option.some.injEq] at hb
    rw [← hb, RecordBaseline.sortPruned]
    have hnodup : ((app.baseline id).absorbAll (app.foldable id)).prunedGrants.Nodup :=
      RecordBaseline.nodup_absorbAll (prunedGrants_nodup h id)
    have hsorted := List.pairwise_insertionSort (· ≤ ·)
      ((app.baseline id).absorbAll (app.foldable id)).prunedGrants
    exact (hsorted.and ((List.perm_insertionSort _ _).nodup_iff.mpr hnodup)).imp
      fun hle => lt_of_le_of_ne hle.1 hle.2
  · intro hverified
    rw [hf.absorbed, Option.some.injEq] at hb
    rw [← hb, RecordBaseline.sortPruned, RecordBaseline.absorbAll_verifiedLogin, baseline]
      at hverified
    cases hold : app.baselines.get? id with
    | none => simp [hold] at hverified
    | some old =>
      rw [hold, Option.getD_some] at hverified
      obtain ⟨r', hr', hsound⟩ := h.baselines id old hold
      rw [hf.found, Option.some.injEq] at hr'
      rw [hr']
      exact hsound.verified hverified

/-- Folding keeps the chain of revisions of the record it folds. -/
theorem chain_self (h : app.Sound P) (once : app.OneDelete) (hf : app.Folded id r next) :
    next.ChainSound id r := by
  have hchain := h.chain id r hf.found
  refine ⟨?_, fun hzero => absurd hzero (hf.through_pos h), ?_, ?_⟩
  · intro revision habove hle
    have hthrough : app.through id < revision := by
      rw [UInt64.lt_iff_toNat_lt, hf.through_self h] at habove
      rw [UInt64.lt_iff_toNat_lt]
      omega
    obtain ⟨key, cached, hget, hrecord, rfl⟩ := hchain.covered revision hthrough hle
    exact ⟨key, cached, hf.kept_of_above h hget fun _ => habove, hrecord, rfl⟩
  · rw [hchain.deleted, hf.deletePruned_self, hf.hasReceipt_split]
    simp only [true_and]
    rw [or_assoc]
    exact or_congr_right or_comm
  · rintro ⟨hpruned, hreceipt⟩
    rcases hf.deletePruned_self.mp hpruned with hold | ⟨e, he, hdelete⟩
    · exact hchain.deleted_once ⟨hold, hf.hasReceipt_split.mpr (.inl hreceipt)⟩
    · obtain ⟨key, cached, hget, hrecord, hkind⟩ := hreceipt
      obtain ⟨hold, hnot⟩ := hf.requests_some.mp hget
      obtain ⟨heget, herecord, -⟩ := mem_foldable he
      have hkey := once e.1 e.2 key cached heget hold hdelete hkind (herecord.trans hrecord.symm)
      rw [hkey, hold, Option.some.injEq] at heget
      apply hnot
      rw [← hkey, heget]
      exact he

theorem chain_others (hf : app.Folded id r next) {j : Uuid} {s : Record} (hj : j ≠ id)
    (hchain : app.ChainSound j s) : next.ChainSound j s := by
  have hsplit : ∀ kind, next.hasReceipt kind j ↔ app.hasReceipt kind j := by
    intro kind
    rw [hf.hasReceipt_split]
    tauto
  have hpruned : next.deletePruned j = app.deletePruned j := by
    unfold deletePruned
    rw [hf.others j hj]
  refine ⟨?_, ?_, ?_, ?_⟩
  · intro revision habove hle
    rw [hf.through_others hj] at habove
    obtain ⟨key, cached, hget, hrecord, hrevision⟩ := hchain.covered revision habove hle
    refine ⟨key, cached, hf.requests_some.mpr ⟨hget, fun hmem => ?_⟩, hrecord, hrevision⟩
    exact hj (hrecord.symm.trans (mem_foldable hmem).2.1)
  · rw [hf.through_others hj, hsplit]
    exact hchain.created
  · rw [hsplit, hpruned]
    exact hchain.deleted
  · rw [hsplit, hpruned]
    exact hchain.deleted_once

theorem oneDelete (once : app.OneDelete) (hf : app.Folded id r next) : next.OneDelete :=
  fun k c k' c' hk hk' => once k c k' c' (hf.requests_sub hk) (hf.requests_sub hk')

theorem sound (h : app.Sound P) (once : app.OneDelete) (hf : app.Folded id r next) :
    next.Sound P where
  generation := by rw [hf.result]; exact h.generation
  clock := by rw [hf.result]; exact h.clock
  tasks := by rw [hf.tasks_eq]; exact h.tasks
  one_owner := by rw [hf.tasks_eq]; exact h.one_owner
  revoked := by rw [hf.result]; exact h.revoked
  records := by rw [hf.tasks_eq, hf.records_eq]; exact h.records
  grants := by rw [hf.tasks_eq, hf.records_eq, hf.grants_eq]; exact h.grants
  receipts := by
    intro key cached hget
    obtain ⟨t, s, ht, hs, hreceipt, hkind⟩ := h.receipts key cached (hf.requests_sub hget)
    rw [hf.tasks_eq, hf.records_eq, hf.grants_eq]
    refine ⟨t, s, ht, hs, { hreceipt with above := ?_ }, hkind⟩
    by_cases hrecord : cached.result.record = id
    · rw [hrecord]
      exact hf.above h hget hrecord
    · rw [hf.through_others hrecord]
      exact hreceipt.above
  one_receipt := fun k c k' c' hk hk' =>
    h.one_receipt k c k' c' (hf.requests_sub hk) (hf.requests_sub hk')
  one_share := fun k c k' c' gid hk hk' =>
    h.one_share k c k' c' gid (hf.requests_sub hk) (hf.requests_sub hk')
  baselines := by
    intro j base hb
    rw [hf.records_eq]
    by_cases hj : j = id
    · subst hj
      exact ⟨r, hf.found, hf.baselineSound h hb⟩
    · rw [hf.others j hj] at hb
      exact h.baselines j base hb
  pruned := by
    intro j base gid hb hgid
    rw [hf.grants_eq]
    have hsub : (∃ old, app.baselines.get? j = some old ∧ gid ∈ old.prunedGrants) →
        (∃ g, app.grants.get? gid = some g ∧ g.record = j)
          ∧ ∀ key cached, next.requests.get? key = some cached → cached.kind = .share →
              cached.result.grant ≠ some gid := by
      rintro ⟨old, hold, hmem⟩
      obtain ⟨hgrant, hnone⟩ := h.pruned j old gid hold hmem
      exact ⟨hgrant, fun key cached hget => hnone key cached (hf.requests_sub hget)⟩
    by_cases hj : j = id
    · subst hj
      rcases (hf.mem_prunedGrants hb).mp hgid with hold | ⟨e, he, hshare, hgrant⟩
      · exact hsub hold
      · obtain ⟨heget, herecord, -⟩ := mem_foldable he
        obtain ⟨t, s, -, -, -, hkind⟩ := h.receipts e.1 e.2 heget
        rw [KindSound, hshare] at hkind
        obtain ⟨other, g, hother, hg, hgrecord, -⟩ := hkind
        rw [hgrant, Option.some.injEq] at hother
        rw [← hother] at hg
        refine ⟨⟨g, hg, hgrecord.trans herecord⟩, fun key cached hget hkind hsame => ?_⟩
        obtain ⟨hold, hnot⟩ := hf.requests_some.mp hget
        have hkey := h.one_share _ _ _ _ gid heget hold hshare hkind hgrant hsame
        rw [hkey, hold, Option.some.injEq] at heget
        apply hnot
        rw [← hkey, heget]
        exact he
    · rw [hf.others j hj] at hb
      exact hsub ⟨base, hb, hgid⟩
  chain := by
    intro j s hs
    rw [hf.records_eq] at hs
    by_cases hj : j = id
    · subst hj
      rw [hf.found, Option.some.injEq] at hs
      rw [← hs]
      exact hf.chain_self h once
    · exact hf.chain_others hj (h.chain j s hs)
  accounted := by
    intro gid g hg
    rw [hf.grants_eq] at hg
    rcases h.accounted gid g hg with ⟨key, cached, hget, hshare, hgrant⟩ | ⟨j, base, hb, hmem⟩
    · by_cases hin : (key, cached) ∈ app.foldable id
      · exact .inr ⟨id, _, hf.absorbed,
          (hf.mem_prunedGrants hf.absorbed).mpr (.inr ⟨_, hin, hshare, hgrant⟩)⟩
      · exact .inl ⟨key, cached, hf.requests_some.mpr ⟨hget, hin⟩, hshare, hgrant⟩
    · right
      by_cases hj : j = id
      · subst hj
        exact ⟨j, _, hf.absorbed, (hf.mem_prunedGrants hf.absorbed).mpr (.inl ⟨base, hb, hmem⟩)⟩
      · exact ⟨j, base, (hf.others j hj).trans hb, hmem⟩
  deliveries := by rw [hf.tasks_eq, hf.records_eq, hf.deliveries_eq]; exact h.deliveries
  no_receipt := by
    intro i d hd
    rw [hf.deliveries_eq] at hd
    have hnone := h.no_receipt i d hd
    cases hget : next.requests.get? d.key with
    | none => rfl
    | some cached => simp [hf.requests_sub hget] at hnone
  one_delivery := by rw [hf.deliveries_eq]; exact h.one_delivery
  one_register := by rw [hf.deliveries_eq]; exact h.one_register
  verified := by
    intro j s hs hsignup
    rw [hf.records_eq] at hs
    rw [hf.deliveries_eq]
    rcases h.verified j s hs hsignup with ⟨base, hb, hverified⟩ | hevidence
    · left
      by_cases hj : j = id
      · subst hj
        refine ⟨_, hf.absorbed, ?_⟩
        rw [RecordBaseline.sortPruned, RecordBaseline.absorbAll_verifiedLogin, baseline, hb]
        exact hverified
      · exact ⟨base, (hf.others j hj).trans hb, hverified⟩
    · exact .inr hevidence

/-- A record whose receipts are the same has the same chain. -/
theorem chainOf_congr {j : Uuid} (h : ∀ key cached, cached.result.record = j →
      (next.requests.get? key = some cached ↔ app.requests.get? key = some cached)) :
    next.chainOf j = app.chainOf j := by
  have hfilter : next.requests.filter (fun _ cached => cached.result.record == j) =
      app.requests.filter fun _ cached => cached.result.record == j := by
    apply OrdMap.ext
    intro key
    rw [OrdMap.get?_filter, OrdMap.get?_filter]
    apply Option.ext
    intro cached
    rw [Option.filter_eq_some_iff, Option.filter_eq_some_iff, beq_iff_eq]
    constructor
    · exact fun ⟨hget, hrecord⟩ => ⟨(h key cached hrecord).mp hget, hrecord⟩
    · exact fun ⟨hget, hrecord⟩ => ⟨(h key cached hrecord).mpr hget, hrecord⟩
  exact congrArg (fun m : OrdMap RequestKey Remembered =>
    m.entries.insertionSort fun a b => a.2.result.revision ≤ b.2.result.revision) hfilter

theorem chainOf_others (hf : app.Folded id r next) {j : Uuid} (hj : j ≠ id) :
    next.chainOf j = app.chainOf j := by
  apply chainOf_congr
  intro key cached hrecord
  rw [hf.requests_some]
  refine ⟨fun h => h.1, fun hget => ⟨hget, fun hmem => hj ?_⟩⟩
  exact hrecord.symm.trans (mem_foldable hmem).2.1

theorem patchCount_eq (app : Application) (id : Uuid) :
    app.patchCount id = (app.chainOf id).countP fun e => e.2.kind == .patch := by
  unfold patchCount chainOf
  rw [(List.perm_insertionSort _ _).countP_eq, List.countP_filter]
  rfl

theorem patchCount_self (hf : app.Folded id r next) :
    app.patchCount id = app.foldedPatches id + next.patchCount id := by
  have hsplit : app.foldable id ++ (app.chainOf id).dropWhile
      (fun entry => stale entry.2.storedAt app.lastTime) = app.chainOf id :=
    List.takeWhile_append_dropWhile
  have hnodup := (nodup_chainOf app id).of_map
  rw [← hsplit] at hnodup
  have hperm : (next.chainOf id).Perm ((app.chainOf id).dropWhile fun entry =>
      stale entry.2.storedAt app.lastTime) := by
    apply (List.perm_ext_iff_of_nodup (nodup_chainOf next id).of_map hnodup.of_append_right).mpr
    rintro ⟨key, cached⟩
    rw [mem_chainOf, hf.requests_some]
    constructor
    · rintro ⟨⟨hget, hnot⟩, hrecord⟩
      have hmem : (key, cached) ∈ app.chainOf id := mem_chainOf.mpr ⟨hget, hrecord⟩
      rw [← hsplit] at hmem
      exact (List.mem_append.mp hmem).resolve_left hnot
    · intro hin
      have hmem : (key, cached) ∈ app.chainOf id := by
        rw [← hsplit]
        exact List.mem_append_right _ hin
      obtain ⟨hget, hrecord⟩ := mem_chainOf.mp hmem
      refine ⟨⟨hget, fun hfolded => ?_⟩, hrecord⟩
      exact List.disjoint_of_nodup_append hnodup hfolded hin
  rw [patchCount_eq, patchCount_eq, hperm.countP_eq, ← hsplit, List.countP_append]
  simp only [hsplit]
  rfl

theorem secretVersion_fresh (h : app.Sound P) (hzero : app.through id = 0) :
    (app.baseline id).secretVersion = 0 := by
  unfold baseline
  cases hb : app.baselines.get? id with
  | none => rfl
  | some base =>
    obtain ⟨r, -, hsound⟩ := h.baselines id base hb
    rw [through_eq hb] at hzero
    exact (hsound.fresh hzero).1

theorem baseVersion_pos {app : Application} {id : Uuid} (hpos : app.through id ≠ 0) :
    app.baseVersion id = (app.baseline id).secretVersion := by
  unfold baseVersion baseline
  rw [if_neg hpos]
  cases app.baselines.get? id <;> rfl

/-- Folding keeps the count of credential versions exactly when it does not overflow:
the baseline saturates where the count wraps. -/
theorem versionSound_iff (h : app.Sound P) (hsize : app.requests.size ≤ limit)
    (hf : app.Folded id r next) (hversion : app.VersionSound id r) :
    next.VersionSound id r ↔ app.Fits id := by
  have hcount := hf.patchCount_self
  have hbound : app.patchCount id ≤ limit := (OrdMap.count_le_size _ _).trans hsize
  have hlimit : limit = 10000 := rfl
  have hmax : maxU64.toNat = 2 ^ 64 - 1 := rfl
  have hbase : next.baseVersion id =
      ((app.baseline id).absorbAll (app.foldable id)).secretVersion := by
    rw [baseVersion_pos (hf.through_pos h), baseline, hf.absorbed]
    rfl
  unfold VersionSound at hversion ⊢
  unfold Fits
  rw [hversion, hbase, hcount, UInt64.ofNat_add, ← UInt64.add_assoc, UInt64.add_left_inj,
    ← UInt64.toNat_inj, UInt64.toNat_add, UInt64.toNat_ofNat']
  by_cases hzero : app.through id = 0
  · obtain ⟨e, rest, hcons, hcreate, hrest⟩ := hf.head_creates h hzero
    have hpatches : app.foldedPatches id = rest.countP fun e => e.2.kind == .patch := by
      unfold foldedPatches
      rw [hcons, List.countP_cons, hcreate]
      rfl
    rw [secretVersion_fresh h hzero, hcons, RecordBaseline.absorbAll_cons,
      RecordBaseline.absorbAll_secretVersion hrest, RecordBaseline.absorb_secretVersion, hcreate,
      ← hpatches, baseVersion, if_pos hzero]
    simp only [UInt64.toNat_one, UInt64.toNat_zero]
    omega
  · rw [RecordBaseline.absorbAll_secretVersion (no_create h hzero), baseVersion_pos hzero]
    have hlt := (app.baseline id).secretVersion.toNat_lt
    change _ = min (2 ^ 64 - 1) (_ + app.foldedPatches id) ↔ _
    omega

/-- A version that has not wrapped below its record's stays below it. -/
theorem rise (h : app.Sound P) (hsize : app.requests.size ≤ limit) (hf : app.Folded id r next)
    (hversion : app.VersionSound id r)
    (hrise : (app.baseline id).secretVersion ≤ r.secretVersion) :
    (next.baseline id).secretVersion ≤ r.secretVersion := by
  have hcount := hf.patchCount_self
  have hbound : app.patchCount id ≤ limit := (OrdMap.count_le_size _ _).trans hsize
  have hlimit : limit = 10000 := rfl
  have hbase : (next.baseline id).secretVersion =
      ((app.baseline id).absorbAll (app.foldable id)).secretVersion := by
    rw [baseline, hf.absorbed]
    rfl
  have hsum := congrArg UInt64.toNat hversion
  rw [UInt64.toNat_add, UInt64.toNat_ofNat'] at hsum
  rw [UInt64.le_iff_toNat_le] at hrise ⊢
  rw [hbase]
  by_cases hzero : app.through id = 0
  · obtain ⟨e, rest, hcons, hcreate, hrest⟩ := hf.head_creates h hzero
    have hpatches : app.foldedPatches id = rest.countP fun e => e.2.kind == .patch := by
      unfold foldedPatches
      rw [hcons, List.countP_cons, hcreate]
      rfl
    rw [baseVersion, if_pos hzero, UInt64.toNat_one] at hsum
    rw [hcons, RecordBaseline.absorbAll_cons, RecordBaseline.absorbAll_secretVersion hrest,
      RecordBaseline.absorb_secretVersion, hcreate, ← hpatches, UInt64.toNat_one]
    omega
  · rw [baseVersion_pos hzero] at hsum
    rw [RecordBaseline.absorbAll_secretVersion (no_create h hzero)]
    have hlt := (app.baseline id).secretVersion.toNat_lt
    change min (2 ^ 64 - 1) (_ + app.foldedPatches id) ≤ _
    omega

theorem versionSound_others (hf : app.Folded id r next) {j : Uuid} {s : Record} (hj : j ≠ id) :
    next.VersionSound j s ↔ app.VersionSound j s := by
  unfold VersionSound
  rw [patchCount_eq, patchCount_eq, hf.chainOf_others hj, baseVersion, baseVersion,
    hf.through_others hj, hf.others j hj]

end Folded

end Application

end Credman
