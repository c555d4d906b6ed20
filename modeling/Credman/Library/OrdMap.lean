import Mathlib.Data.Finset.Card
import Mathlib.Data.Finset.Image
import Mathlib.Data.List.Pairwise
import Mathlib.Data.List.Sort
import Mathlib.Order.Defs.LinearOrder
import Mathlib.Tactic.Common

/-! Finite maps kept as a list with strictly increasing keys. Equality is
equality of lookups, so a map built in two orders is one value. -/
namespace Credman.Library

universe u v w

structure OrdMap (K : Type u) (V : Type v) [LinearOrder K] where
  entries : List (K × V)
  sorted : entries.Pairwise fun a b => a.1 < b.1

namespace OrdMap

variable {K : Type u} {V : Type v} {W : Type w} [LinearOrder K]

instance [DecidableEq V] : DecidableEq (OrdMap K V) := fun left right =>
  if h : left.entries = right.entries then
    isTrue (by cases left; cases right; cases h; rfl)
  else isFalse (by rintro rfl; exact h rfl)

def empty : OrdMap K V := ⟨[], .nil⟩

instance : EmptyCollection (OrdMap K V) := ⟨empty⟩
instance : Inhabited (OrdMap K V) := ⟨empty⟩

def lookup (key : K) : List (K × V) → Option V
  | [] => none
  | (k, v) :: tail => if k = key then some v else lookup key tail

def get? (m : OrdMap K V) (key : K) : Option V := lookup key m.entries

def contains (m : OrdMap K V) (key : K) : Bool := (m.get? key).isSome

def size (m : OrdMap K V) : Nat := m.entries.length

def isEmpty (m : OrdMap K V) : Bool := m.entries.isEmpty

def keys (m : OrdMap K V) : List K := m.entries.map Prod.fst

def values (m : OrdMap K V) : List V := m.entries.map Prod.snd

def keySet (m : OrdMap K V) : Finset K := m.keys.toFinset

def all (m : OrdMap K V) (p : K → V → Bool) : Bool := m.entries.all fun e => p e.1 e.2

def any (m : OrdMap K V) (p : K → V → Bool) : Bool := m.entries.any fun e => p e.1 e.2

def count (m : OrdMap K V) (p : K → V → Bool) : Nat := m.entries.countP fun e => p e.1 e.2

theorem mem_of_lookup {key : K} {value : V} {l : List (K × V)}
    (h : lookup key l = some value) : (key, value) ∈ l := by
  induction l with
  | nil => cases h
  | cons head tail ih =>
    obtain ⟨k, v⟩ := head
    by_cases hk : k = key
    · simp only [lookup, hk, ↓reduceIte, Option.some.injEq] at h
      simp [hk, h]
    · simp only [lookup, hk, ↓reduceIte] at h
      exact List.mem_cons_of_mem _ (ih h)

theorem lookup_of_mem {key : K} {value : V} {l : List (K × V)}
    (hs : l.Pairwise fun a b => a.1 < b.1) (h : (key, value) ∈ l) :
    lookup key l = some value := by
  induction l with
  | nil => cases h
  | cons head tail ih =>
    obtain ⟨k, v⟩ := head
    rw [List.pairwise_cons] at hs
    rcases List.mem_cons.mp h with heq | hmem
    · cases heq
      simp [lookup]
    · have hne : k ≠ key := ne_of_lt (hs.1 _ hmem)
      simp only [lookup, hne, ↓reduceIte]
      exact ih hs.2 hmem

theorem mem_entries {m : OrdMap K V} {key : K} {value : V} :
    (key, value) ∈ m.entries ↔ m.get? key = some value :=
  ⟨lookup_of_mem m.sorted, mem_of_lookup⟩

theorem mem_keys {m : OrdMap K V} {key : K} : key ∈ m.keys ↔ ∃ value, m.get? key = some value := by
  simp only [keys, List.mem_map, Prod.exists, exists_and_right, exists_eq_right, mem_entries]

@[simp] theorem mem_keySet {m : OrdMap K V} {key : K} :
    key ∈ m.keySet ↔ ∃ value, m.get? key = some value := by
  simp only [keySet, List.mem_toFinset, mem_keys]

theorem mem_values {m : OrdMap K V} {value : V} :
    value ∈ m.values ↔ ∃ key, m.get? key = some value := by
  simp only [values, List.mem_map, Prod.exists, exists_eq_right, mem_entries]

theorem nodup_keys (m : OrdMap K V) : m.keys.Nodup := by
  rw [keys, List.Nodup, List.pairwise_map]
  exact m.sorted.imp fun h => ne_of_lt h

theorem ext {left right : OrdMap K V} (h : ∀ key, left.get? key = right.get? key) :
    left = right := by
  have hperm : left.entries.Perm right.entries := by
    apply (List.perm_ext_iff_of_nodup _ _).mpr
    · rintro ⟨key, value⟩
      rw [mem_entries, mem_entries, h key]
    · exact left.sorted.imp fun h heq => absurd (congrArg Prod.fst heq) (ne_of_lt h)
    · exact right.sorted.imp fun h heq => absurd (congrArg Prod.fst heq) (ne_of_lt h)
  have heq := hperm.eq_of_pairwise
    (fun a b _ _ hab hba => absurd hab (not_lt.mpr (le_of_lt hba))) left.sorted right.sorted
  cases left
  cases right
  cases heq
  rfl

/-- A symmetric relation between entries, read off the lookups. -/
theorem pairwise_entries {m : OrdMap K V} {R : K × V → K × V → Prop}
    (hsymm : ∀ a b, R a b → R b a) :
    m.entries.Pairwise R ↔ ∀ k v k' v', m.get? k = some v → m.get? k' = some v' → k ≠ k' →
      R (k, v) (k', v') := by
  constructor
  · intro h k v k' v' hv hv' hne
    have : Std.Symm R := ⟨fun {a b} => hsymm a b⟩
    exact h.forall (mem_entries.mpr hv) (mem_entries.mpr hv')
      fun heq => hne (congrArg Prod.fst heq)
  · intro h
    refine m.sorted.imp_of_mem ?_
    rintro ⟨k, v⟩ ⟨k', v'⟩ hmem hmem' hlt
    exact h k v k' v' (mem_entries.mp hmem) (mem_entries.mp hmem') (ne_of_lt hlt)

theorem forall_entries {m : OrdMap K V} {p : K × V → Prop} :
    (∀ e ∈ m.entries, p e) ↔ ∀ key value, m.get? key = some value → p (key, value) := by
  simp only [Prod.forall, mem_entries]

theorem exists_entries {m : OrdMap K V} {p : K × V → Prop} :
    (∃ e ∈ m.entries, p e) ↔ ∃ key value, m.get? key = some value ∧ p (key, value) := by
  simp only [Prod.exists, mem_entries]

/-- The entries before one of them have other keys. -/
theorem ne_of_split {m : OrdMap K V} {pre post : List (K × V)} {e : K × V}
    (h : m.entries = pre ++ e :: post) : ∀ b ∈ pre, b.1 ≠ e.1 := by
  have hs := m.sorted
  rw [h, List.pairwise_append] at hs
  exact fun b hb => ne_of_lt (hs.2.2 b hb e (by simp))

theorem mem_of_split {m : OrdMap K V} {pre post : List (K × V)} {e : K × V}
    (h : m.entries = pre ++ e :: post) : m.get? e.1 = some e.2 := by
  rw [← mem_entries, h]
  simp

theorem contains_iff {m : OrdMap K V} {key : K} :
    m.contains key = true ↔ ∃ value, m.get? key = some value := by
  simp only [contains, Option.isSome_iff_exists]

theorem contains_false {m : OrdMap K V} {key : K} :
    m.contains key = false ↔ m.get? key = none := by
  simp [contains]

theorem all_iff {m : OrdMap K V} {p : K → V → Bool} :
    m.all p = true ↔ ∀ key value, m.get? key = some value → p key value = true := by
  simp only [all, List.all_eq_true, Prod.forall, mem_entries]

theorem any_iff {m : OrdMap K V} {p : K → V → Bool} :
    m.any p = true ↔ ∃ key value, m.get? key = some value ∧ p key value = true := by
  simp only [any, List.any_eq_true, Prod.exists, mem_entries]

theorem any_false {m : OrdMap K V} {p : K → V → Bool} :
    m.any p = false ↔ ∀ key value, m.get? key = some value → p key value = false := by
  simp only [any, List.any_eq_false, Prod.forall, mem_entries, Bool.not_eq_true]

theorem isEmpty_iff {m : OrdMap K V} : m.isEmpty = true ↔ ∀ key, m.get? key = none := by
  rw [isEmpty, List.isEmpty_iff]
  constructor
  · intro h key
    rw [get?, h]
    rfl
  · intro h
    rw [List.eq_nil_iff_forall_not_mem]
    rintro ⟨key, value⟩ hmem
    rw [mem_entries, h key] at hmem
    cases hmem

theorem isEmpty_false {m : OrdMap K V} :
    m.isEmpty = false ↔ ∃ key value, m.get? key = some value := by
  rw [← Bool.not_eq_true, isEmpty_iff]
  push Not
  simp only [Option.ne_none_iff_exists', ne_eq]

@[simp] theorem get?_empty (key : K) : (∅ : OrdMap K V).get? key = none := rfl

/-! Insertion and removal. -/

def insertEntry (key : K) (value : V) : List (K × V) → List (K × V)
  | [] => [(key, value)]
  | (k, v) :: tail =>
    if key < k then (key, value) :: (k, v) :: tail
    else if key = k then (key, value) :: tail
    else (k, v) :: insertEntry key value tail

theorem mem_insertEntry {key : K} {value : V} {l : List (K × V)} {e : K × V}
    (h : e ∈ insertEntry key value l) : e = (key, value) ∨ e ∈ l := by
  induction l with
  | nil => simpa [insertEntry] using h
  | cons head tail ih =>
    obtain ⟨k, v⟩ := head
    simp only [insertEntry] at h
    split_ifs at h
    · simpa using h
    · rcases List.mem_cons.mp h with h | h
      · exact .inl h
      · exact .inr (List.mem_cons_of_mem _ h)
    · rcases List.mem_cons.mp h with h | h
      · exact .inr (by simp [h])
      · exact (ih h).imp_right (List.mem_cons_of_mem _)

/-- Inserting related values at one key into related lists. -/
theorem forall₂_insertEntry {W : Type} {R : V → W → Prop} (key : K) {value : V} {value' : W}
    {l : List (K × V)} {l' : List (K × W)} (hvalue : R value value')
    (h : List.Forall₂ (fun e e' => e.1 = e'.1 ∧ R e.2 e'.2) l l') :
    List.Forall₂ (fun e e' => e.1 = e'.1 ∧ R e.2 e'.2) (insertEntry key value l)
      (insertEntry key value' l') := by
  induction h with
  | nil => exact .cons ⟨rfl, hvalue⟩ .nil
  | @cons e e' tail tail' he htail ih =>
    obtain ⟨k, v⟩ := e
    obtain ⟨k', v'⟩ := e'
    obtain ⟨rfl, hv⟩ := he
    simp only [insertEntry]
    split_ifs
    · exact .cons ⟨rfl, hvalue⟩ (.cons ⟨rfl, hv⟩ htail)
    · exact .cons ⟨rfl, hvalue⟩ htail
    · exact .cons ⟨rfl, hv⟩ ih

theorem pairwise_insertEntry (key : K) (value : V) {l : List (K × V)}
    (hs : l.Pairwise fun a b => a.1 < b.1) :
    (insertEntry key value l).Pairwise fun a b => a.1 < b.1 := by
  induction l with
  | nil => simp [insertEntry]
  | cons head tail ih =>
    obtain ⟨k, v⟩ := head
    have hs' := List.pairwise_cons.mp hs
    simp only [insertEntry]
    split_ifs with hlt heq
    · refine List.pairwise_cons.mpr ⟨?_, hs⟩
      intro e he
      rcases List.mem_cons.mp he with rfl | he
      · exact hlt
      · exact hlt.trans (hs'.1 e he)
    · subst heq
      exact List.pairwise_cons.mpr ⟨hs'.1, hs'.2⟩
    · refine List.pairwise_cons.mpr ⟨?_, ih hs'.2⟩
      intro e he
      rcases mem_insertEntry he with rfl | he
      · exact lt_of_le_of_ne (not_lt.mp hlt) (Ne.symm heq)
      · exact hs'.1 e he

def insert (m : OrdMap K V) (key : K) (value : V) : OrdMap K V :=
  ⟨insertEntry key value m.entries, pairwise_insertEntry key value m.sorted⟩

theorem lookup_insertEntry (key other : K) (value : V) (l : List (K × V)) :
    lookup other (insertEntry key value l) =
      if key = other then some value else lookup other l := by
  induction l with
  | nil => simp [insertEntry, lookup]
  | cons head tail ih =>
    obtain ⟨k, v⟩ := head
    rw [insertEntry]
    rcases lt_trichotomy key k with hlt | heq | hgt
    · simp [hlt, lookup]
    · subst heq
      by_cases hother : key = other <;> simp [lookup, hother]
    · have hne : ¬ key = k := ne_of_gt hgt
      simp only [not_lt_of_gt hgt, hne, ↓reduceIte, lookup, ih]
      by_cases hk : k = other
      · subst hk
        simp [hne]
      · simp [hk]

theorem get?_insert (m : OrdMap K V) (key other : K) (value : V) :
    (m.insert key value).get? other = if key = other then some value else m.get? other :=
  lookup_insertEntry key other value m.entries

@[simp] theorem get?_insert_self (m : OrdMap K V) (key : K) (value : V) :
    (m.insert key value).get? key = some value := by
  simp [get?_insert]

theorem get?_insert_ne (m : OrdMap K V) {key other : K} (value : V) (h : key ≠ other) :
    (m.insert key value).get? other = m.get? other := by
  simp [get?_insert, h]

def filter (m : OrdMap K V) (p : K → V → Bool) : OrdMap K V :=
  ⟨m.entries.filter fun e => p e.1 e.2, m.sorted.filter _⟩

theorem get?_filter (m : OrdMap K V) (p : K → V → Bool) (key : K) :
    (m.filter p).get? key = (m.get? key).filter (p key) := by
  apply Option.ext
  intro value
  rw [← mem_entries, filter, List.mem_filter, mem_entries]
  cases hget : m.get? key <;> simp [Option.filter]
  grind

def erase (m : OrdMap K V) (key : K) : OrdMap K V := m.filter fun k _ => decide (k ≠ key)

theorem get?_erase (m : OrdMap K V) (key other : K) :
    (m.erase key).get? other = if key = other then none else m.get? other := by
  rw [erase, get?_filter]
  by_cases h : key = other
  · subst h
    cases m.get? key <;> simp [Option.filter]
  · have hne : ¬ other = key := fun heq => h heq.symm
    cases m.get? other <;> simp [Option.filter, h, hne]

@[simp] theorem get?_erase_self (m : OrdMap K V) (key : K) : (m.erase key).get? key = none := by
  simp [get?_erase]

theorem get?_erase_ne (m : OrdMap K V) {key other : K} (h : key ≠ other) :
    (m.erase key).get? other = m.get? other := by
  simp [get?_erase, h]

/-! Rewriting every value, and one value in place. -/

def mapVals (m : OrdMap K V) (f : K → V → W) : OrdMap K W :=
  ⟨m.entries.map fun e => (e.1, f e.1 e.2), by
    rw [List.pairwise_map]
    exact m.sorted⟩

theorem get?_mapVals (m : OrdMap K V) (f : K → V → W) (key : K) :
    (m.mapVals f).get? key = (m.get? key).map (f key) := by
  obtain ⟨entries, sorted⟩ := m
  simp only [get?, mapVals]
  clear sorted
  induction entries with
  | nil => rfl
  | cons head tail ih =>
    obtain ⟨k, v⟩ := head
    by_cases h : k = key
    · subst h
      simp [lookup]
    · simp [lookup, h, ih]

def modify (m : OrdMap K V) (key : K) (f : V → V) : OrdMap K V :=
  m.mapVals fun k value => if k = key then f value else value

theorem get?_modify (m : OrdMap K V) (key other : K) (f : V → V) :
    (m.modify key f).get? other =
      if key = other then (m.get? other).map f else m.get? other := by
  rw [modify, get?_mapVals]
  by_cases h : other = key
  · simp [h]
  · cases m.get? other <;> simp [h, Ne.symm h]

/-! Sizes. -/

theorem size_eq_card (m : OrdMap K V) : m.size = m.keySet.card := by
  rw [keySet, List.toFinset_card_of_nodup m.nodup_keys, keys, List.length_map, size]

theorem size_le_of_keys {left : OrdMap K V} {right : OrdMap K W}
    (h : ∀ key value, left.get? key = some value → ∃ other, right.get? key = some other) :
    left.size ≤ right.size := by
  rw [size_eq_card, size_eq_card]
  apply Finset.card_le_card
  intro key hkey
  obtain ⟨value, hvalue⟩ := mem_keySet.mp hkey
  exact mem_keySet.mpr (h key value hvalue)

theorem size_filter_le (m : OrdMap K V) (p : K → V → Bool) : (m.filter p).size ≤ m.size :=
  List.length_filter_le _ _

@[simp] theorem size_mapVals (m : OrdMap K V) (f : K → V → W) : (m.mapVals f).size = m.size := by
  simp [size, mapVals]

@[simp] theorem size_modify (m : OrdMap K V) (key : K) (f : V → V) :
    (m.modify key f).size = m.size :=
  size_mapVals m _

theorem keySet_insert (m : OrdMap K V) (key : K) (value : V) :
    (m.insert key value).keySet = Insert.insert key m.keySet := by
  ext other
  simp only [mem_keySet, get?_insert, Finset.mem_insert]
  by_cases h : key = other <;> simp [h, eq_comm]

theorem size_insert_of_none {m : OrdMap K V} {key : K} {value : V} (h : m.get? key = none) :
    (m.insert key value).size = m.size + 1 := by
  rw [size_eq_card, size_eq_card, keySet_insert, Finset.card_insert_of_notMem]
  simp [h]

theorem size_insert_of_some {m : OrdMap K V} {key : K} {value old : V}
    (h : m.get? key = some old) : (m.insert key value).size = m.size := by
  rw [size_eq_card, size_eq_card, keySet_insert, Finset.insert_eq_of_mem]
  exact mem_keySet.mpr ⟨old, h⟩

theorem size_insert_le (m : OrdMap K V) (key : K) (value : V) :
    (m.insert key value).size ≤ m.size + 1 := by
  cases h : m.get? key with
  | none => exact le_of_eq (size_insert_of_none h)
  | some old => rw [size_insert_of_some h]; omega

/-- Inserting every entry of a sorted list: its keys are looked up there first. -/
theorem get?_foldl_insert {l : List (K × V)} (hsorted : l.Pairwise fun a b => a.1 < b.1)
    (m : OrdMap K V) (key : K) :
    (l.foldl (fun acc e => acc.insert e.1 e.2) m).get? key = (lookup key l).or (m.get? key) := by
  induction l generalizing m with
  | nil => rfl
  | cons e rest ih =>
    obtain ⟨hhead, hrest⟩ := List.pairwise_cons.mp hsorted
    rw [List.foldl_cons, ih hrest, get?_insert]
    obtain ⟨k, v⟩ := e
    by_cases hk : k = key
    · subst hk
      have hnone : lookup k rest = none := by
        cases hl : lookup k rest with
        | none => rfl
        | some w => exact absurd (hhead _ (mem_of_lookup hl)) (lt_irrefl _)
      simp [hnone, lookup]
    · simp [hk, lookup]

/-! Collecting a list of entries. -/

/-- The map of these entries; of a repeated key the last value counts. -/
def ofList (l : List (K × V)) : OrdMap K V := l.foldl (fun acc e => acc.insert e.1 e.2) ∅

/-- Maps of lists that agree in their keys and are related in their values. -/
theorem forall₂_ofList {W : Type} {R : V → W → Prop} {l : List (K × V)} {l' : List (K × W)}
    (h : List.Forall₂ (fun e e' => e.1 = e'.1 ∧ R e.2 e'.2) l l') :
    List.Forall₂ (fun e e' => e.1 = e'.1 ∧ R e.2 e'.2) (ofList l).entries (ofList l').entries := by
  have hfold : ∀ (m : OrdMap K V) (m' : OrdMap K W),
      List.Forall₂ (fun e e' => e.1 = e'.1 ∧ R e.2 e'.2) m.entries m'.entries →
      List.Forall₂ (fun e e' => e.1 = e'.1 ∧ R e.2 e'.2)
        (l.foldl (fun acc e => acc.insert e.1 e.2) m).entries
        (l'.foldl (fun acc e => acc.insert e.1 e.2) m').entries := by
    induction h with
    | nil => exact fun _ _ h => h
    | cons he _ ih =>
      intro m m' h
      refine ih _ _ ?_
      dsimp only
      rw [← he.1]
      exact forall₂_insertEntry _ he.2 h
  exact hfold ∅ ∅ .nil

/-- Every entry of the map was in the list. -/
theorem mem_of_mem_ofList {l : List (K × V)} {e : K × V} (h : e ∈ (ofList l).entries) : e ∈ l := by
  have hfold : ∀ m : OrdMap K V, e ∈ (l.foldl (fun acc e => acc.insert e.1 e.2) m).entries →
      e ∈ m.entries ∨ e ∈ l := by
    clear h
    induction l with
    | nil => exact fun m h => .inl h
    | cons head tail ih =>
      intro m h
      rcases ih (m.insert head.1 head.2) h with hin | hin
      · rcases mem_insertEntry hin with rfl | hold
        · exact .inr List.mem_cons_self
        · exact .inl hold
      · exact .inr (List.mem_cons_of_mem _ hin)
  exact (hfold ∅ h).resolve_left List.not_mem_nil

theorem get?_foldl_insert_of_nodup {l : List (K × V)} (hnodup : (l.map Prod.fst).Nodup)
    (m : OrdMap K V) (key : K) (value : V) :
    (l.foldl (fun acc e => acc.insert e.1 e.2) m).get? key = some value ↔
      (key, value) ∈ l ∨ key ∉ l.map Prod.fst ∧ m.get? key = some value := by
  induction l generalizing m with
  | nil => simp
  | cons e rest ih =>
    obtain ⟨k, v⟩ := e
    rw [List.map_cons, List.nodup_cons] at hnodup
    rw [List.foldl_cons, ih hnodup.2, get?_insert]
    by_cases hk : k = key
    · subst hk
      have hrest : (k, value) ∉ rest := fun hmem => hnodup.1 (List.mem_map.mpr ⟨_, hmem, rfl⟩)
      simp [hrest, hnodup.1, eq_comm]
    · have hk' : ¬ key = k := fun heq => hk heq.symm
      simp [hk, hk']

theorem get?_ofList {l : List (K × V)} (hnodup : (l.map Prod.fst).Nodup) {key : K} {value : V} :
    (ofList l).get? key = some value ↔ (key, value) ∈ l := by
  rw [ofList, get?_foldl_insert_of_nodup hnodup]
  simp

/-- A map is the map of its entries. -/
@[simp] theorem ofList_entries (m : OrdMap K V) : ofList m.entries = m := by
  apply ext
  intro key
  apply Option.ext
  intro value
  exact (get?_ofList m.nodup_keys).trans mem_entries

/-- A map whose values carry their keys is the map of its values. -/
theorem ofList_values {m : OrdMap K V} {key : V → K}
    (h : ∀ k v, m.get? k = some v → k = key v) : ofList (m.values.map fun v => (key v, v)) = m := by
  have hentries : (m.values.map fun v => (key v, v)) = m.entries := by
    rw [values, List.map_map]
    calc m.entries.map ((fun v => (key v, v)) ∘ Prod.snd) = m.entries.map id :=
          List.map_congr_left fun e he => by
            rw [Function.comp_apply, ← h e.1 e.2 (mem_entries.mp he), id]
      _ = m.entries := List.map_id _
  rw [hentries, ofList_entries]

theorem keys_values {m : OrdMap K V} {key : V → K} (h : ∀ k v, m.get? k = some v → k = key v) :
    m.values.map key = m.keys := by
  rw [values, keys, List.map_map]
  exact List.map_congr_left fun e he => (h e.1 e.2 (mem_entries.mp he)).symm

/-- Collecting entries one by one, where a key that is already there is refused. -/
theorem foldlM_insertNew {l : List (K × V)} {m n : OrdMap K V} :
    l.foldlM (fun acc e => if acc.contains e.1 then none else some (acc.insert e.1 e.2)) m = some n ↔
      (l.map Prod.fst).Nodup ∧ (∀ key ∈ l.map Prod.fst, m.get? key = none)
        ∧ n = l.foldl (fun acc e => acc.insert e.1 e.2) m := by
  induction l generalizing m with
  | nil =>
    rw [List.foldlM_nil, List.foldl_nil]
    change some m = some n ↔ _
    rw [Option.some.injEq]
    exact ⟨fun h => ⟨.nil, nofun, h.symm⟩, fun h => h.2.2.symm⟩
  | cons e rest ih =>
    obtain ⟨k, v⟩ := e
    rw [List.foldlM_cons, List.foldl_cons, List.map_cons, List.nodup_cons]
    by_cases hk : m.contains k = true
    · have hsome : ¬ m.get? k = none := by
        rw [contains_iff] at hk
        obtain ⟨w, hw⟩ := hk
        simp [hw]
      simp [hk, hsome]
    · rw [if_neg hk]
      rw [Bool.not_eq_true, contains_false] at hk
      change rest.foldlM _ (m.insert k v) = some n ↔ _
      rw [ih]
      constructor
      · rintro ⟨hnodup, hnone, rfl⟩
        have hfresh : ∀ key ∈ rest.map Prod.fst, k ≠ key ∧ m.get? key = none := by
          intro key hmem
          have h := hnone key hmem
          rw [get?_insert] at h
          split_ifs at h with heq
          exact ⟨heq, h⟩
        refine ⟨⟨fun hmem => (hfresh k hmem).1 rfl, hnodup⟩, ?_, rfl⟩
        intro key hmem
        rcases List.mem_cons.mp hmem with rfl | hmem
        · exact hk
        · exact (hfresh key hmem).2
      · rintro ⟨⟨hhead, hnodup⟩, hnone, rfl⟩
        refine ⟨hnodup, fun key hmem => ?_, rfl⟩
        have hne : k ≠ key := by
          rintro rfl
          exact hhead hmem
        rw [get?_insert_ne _ _ hne]
        exact hnone key (List.mem_cons_of_mem _ hmem)

/-! Counting the entries with a property. -/

theorem countP_insertEntry {key : K} {value : V} {l : List (K × V)} (p : K × V → Bool)
    (h : lookup key l = none) :
    (insertEntry key value l).countP p = l.countP p + if p (key, value) then 1 else 0 := by
  induction l with
  | nil => simp [insertEntry, List.countP_cons]
  | cons head tail ih =>
    obtain ⟨k, v⟩ := head
    have hne : k ≠ key := by
      rintro rfl
      simp [lookup] at h
    simp only [lookup, hne, ↓reduceIte] at h
    rw [insertEntry]
    by_cases hlt : key < k
    · simp only [hlt, ↓reduceIte, List.countP_cons]
    · have hkey : ¬ key = k := fun heq => hne heq.symm
      simp only [hlt, hkey, ↓reduceIte, List.countP_cons, ih h]
      omega

theorem count_insert_of_none {m : OrdMap K V} {key : K} {value : V} (p : K → V → Bool)
    (h : m.get? key = none) :
    (m.insert key value).count p = m.count p + if p key value then 1 else 0 :=
  countP_insertEntry (fun e => p e.1 e.2) h

theorem insert_erase_of_some {m : OrdMap K V} {key : K} {value : V}
    (h : m.get? key = some value) : (m.erase key).insert key value = m := by
  apply ext
  intro other
  rw [get?_insert, get?_erase]
  split_ifs with heq
  · rw [← heq, h]
  · rfl

/-- Removing an entry takes away exactly what it contributed to the count. -/
theorem count_erase_of_some {m : OrdMap K V} {key : K} {value : V} (p : K → V → Bool)
    (h : m.get? key = some value) :
    (m.erase key).count p + (if p key value then 1 else 0) = m.count p := by
  rw [← count_insert_of_none p (get?_erase_self m key), insert_erase_of_some h]

theorem count_congr {m : OrdMap K V} {p q : K → V → Bool}
    (h : ∀ key value, m.get? key = some value → p key value = q key value) :
    m.count p = m.count q := by
  apply List.countP_congr
  rintro ⟨key, value⟩ hmem
  rw [h key value (mem_entries.mp hmem)]

theorem count_eq_zero {m : OrdMap K V} {p : K → V → Bool} :
    m.count p = 0 ↔ ∀ key value, m.get? key = some value → p key value = false := by
  simp only [count, List.countP_eq_zero, Prod.forall, mem_entries, Bool.not_eq_true]

theorem count_le_size (m : OrdMap K V) (p : K → V → Bool) : m.count p ≤ m.size :=
  List.countP_le_length

end OrdMap

/-- The elements of a finite set in increasing order, by insertion. -/
def sortedElements {K : Type u} [LinearOrder K] (s : Finset K) : List K :=
  Quot.liftOn s.1 (List.insertionSort (· ≤ ·)) fun _ _ h =>
    ((List.perm_insertionSort _ _).trans (h.trans (List.perm_insertionSort _ _).symm)).eq_of_pairwise
      (fun _ _ _ _ => le_antisymm) (List.pairwise_insertionSort _ _) (List.pairwise_insertionSort _ _)

@[simp] theorem mem_sortedElements {K : Type u} [LinearOrder K] {s : Finset K} {a : K} :
    a ∈ sortedElements s ↔ a ∈ s := by
  obtain ⟨⟨l⟩, hl⟩ := s
  exact (List.perm_insertionSort _ l).mem_iff

theorem nodup_sortedElements {K : Type u} [LinearOrder K] (s : Finset K) :
    (sortedElements s).Nodup := by
  obtain ⟨⟨l⟩, hl⟩ := s
  exact (List.perm_insertionSort _ l).nodup_iff.mpr hl

end Credman.Library
