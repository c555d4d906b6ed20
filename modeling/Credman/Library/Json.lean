import Credman.Library.OrdMap
import Mathlib.Algebra.GroupWithZero.Nat
import Mathlib.Data.String.Basic

/-! JSON documents, their tokens, and the values they denote: objects of a
document list members in any order, those of a value are sorted by key. -/
namespace Credman.Library

/-- The bits of a finite `f64`. -/
def finiteBits (bits : UInt64) : Bool := (bits >>> 52) &&& 0x7ff != 0x7ff

inductive Number where
  | posInt (n : UInt64)
  | negInt (n : Int64) (h : n < 0)
  | float (bits : UInt64) (h : finiteBits bits = true)
  deriving DecidableEq

inductive Json where
  | null
  | bool (b : Bool)
  | number (n : Number)
  | string (s : String)
  | array (values : List Json)
  | object (members : List (String × Json))

inductive Token where
  | null
  | bool (b : Bool)
  | u64 (n : UInt64)
  | i64 (n : Int64)
  | f64 (bits : UInt64)
  | string (s : String)
  | leftBracket | rightBracket | leftBrace | rightBrace | comma | colon
  deriving DecidableEq

def Number.token : Number → Token
  | .posInt n => .u64 n
  | .negInt n _ => .i64 n
  | .float bits _ => .f64 bits

namespace Json

mutual

/-- The tokens of a document. -/
def tokens : Json → List Token
  | .null => [.null]
  | .bool b => [.bool b]
  | .number n => [n.token]
  | .string s => [.string s]
  | .array values => .leftBracket :: elements true values
  | .object members => .leftBrace :: memberTokens true members

def elements : Bool → List Json → List Token
  | _, [] => [.rightBracket]
  | first, v :: vs => (if first then [] else [.comma]) ++ (v.tokens ++ elements false vs)

def memberTokens : Bool → List (String × Json) → List Token
  | _, [] => [.rightBrace]
  | first, (key, v) :: ms =>
    (if first then [] else [.comma]) ++ (.string key :: .colon :: (v.tokens ++ memberTokens false ms))

end

mutual

/-- How many containers are nested. -/
def depth : Json → Nat
  | .array values => depthElements values + 1
  | .object members => depthMembers members + 1
  | _ => 0

def depthElements : List Json → Nat
  | [] => 0
  | v :: vs => max v.depth (depthElements vs)

def depthMembers : List (String × Json) → Nat
  | [] => 0
  | m :: ms => max m.2.depth (depthMembers ms)

end

mutual

/-- `p` holds of a document and of every document in it. -/
def Everywhere (p : Json → Prop) : Json → Prop
  | .array values => p (.array values) ∧ EverywhereElements p values
  | .object members => p (.object members) ∧ EverywhereMembers p members
  | v => p v

def EverywhereElements (p : Json → Prop) : List Json → Prop
  | [] => True
  | v :: vs => v.Everywhere p ∧ EverywhereElements p vs

def EverywhereMembers (p : Json → Prop) : List (String × Json) → Prop
  | [] => True
  | m :: ms => m.2.Everywhere p ∧ EverywhereMembers p ms

end

mutual

/-- The value a document denotes. -/
def value : Json → Json
  | .array values => .array (valueElements values)
  | .object members => .object (OrdMap.ofList (valueMembers members)).entries
  | v => v

def valueElements : List Json → List Json
  | [] => []
  | v :: vs => v.value :: valueElements vs

def valueMembers : List (String × Json) → List (String × Json)
  | [] => []
  | (key, v) :: ms => (key, v.value) :: valueMembers ms

end

/-- Induction over a document: what its elements and members have, it has. -/
@[elab_as_elim, induction_eliminator]
theorem induct {motive : Json → Prop} (null : motive .null) (bool : ∀ b, motive (.bool b))
    (number : ∀ n, motive (.number n)) (string : ∀ s, motive (.string s))
    (array : ∀ values, (∀ v ∈ values, motive v) → motive (.array values))
    (object : ∀ members, (∀ m ∈ members, motive m.2) → motive (.object members)) (v : Json) :
    motive v :=
  @Json.rec motive (fun values => ∀ v ∈ values, motive v) (fun members => ∀ m ∈ members, motive m.2)
    (fun m => motive m.2) null bool number string array object (fun _ h => nomatch h)
    (fun _ _ hv hvs => List.forall_mem_cons.mpr ⟨hv, hvs⟩) (fun _ h => nomatch h)
    (fun _ _ hm hms => List.forall_mem_cons.mpr ⟨hm, hms⟩) (fun _ _ hv => hv) v

section Lemmas

variable {p : Json → Prop} {n : Nat}

theorem depthElements_le {values : List Json} :
    depthElements values ≤ n ↔ ∀ v ∈ values, v.depth ≤ n := by
  induction values with
  | nil => simp [depthElements]
  | cons v vs ih => rw [depthElements, max_le_iff, ih, List.forall_mem_cons]

theorem depthMembers_le {members : List (String × Json)} :
    depthMembers members ≤ n ↔ ∀ m ∈ members, m.2.depth ≤ n := by
  induction members with
  | nil => simp [depthMembers]
  | cons m ms ih => rw [depthMembers, max_le_iff, ih, List.forall_mem_cons]

theorem everywhere_array {values : List Json} :
    (Json.array values).Everywhere p ↔ p (.array values) ∧ ∀ v ∈ values, v.Everywhere p := by
  have helements : EverywhereElements p values ↔ ∀ v ∈ values, v.Everywhere p := by
    induction values with
    | nil => simp [EverywhereElements]
    | cons v vs ih => rw [EverywhereElements, ih, List.forall_mem_cons]
  rw [Everywhere, helements]

theorem everywhere_object {members : List (String × Json)} :
    (Json.object members).Everywhere p ↔ p (.object members) ∧ ∀ m ∈ members, m.2.Everywhere p := by
  have hmembers : EverywhereMembers p members ↔ ∀ m ∈ members, m.2.Everywhere p := by
    induction members with
    | nil => simp [EverywhereMembers]
    | cons m ms ih => rw [EverywhereMembers, ih, List.forall_mem_cons]
  rw [Everywhere, hmembers]

theorem valueElements_eq (values : List Json) : valueElements values = values.map value := by
  induction values with
  | nil => rfl
  | cons v vs ih => rw [valueElements, ih, List.map_cons]

theorem valueMembers_eq (members : List (String × Json)) :
    valueMembers members = members.map fun m => (m.1, m.2.value) := by
  induction members with
  | nil => rfl
  | cons m ms ih => rw [valueMembers, ih, List.map_cons]

@[simp] theorem map_fst_valueMembers (members : List (String × Json)) :
    (valueMembers members).map Prod.fst = members.map Prod.fst := by
  rw [valueMembers_eq, List.map_map]
  rfl

end Lemmas

/-- No object repeats a key. -/
def DistinctMembers : Json → Prop
  | .object members => (members.map Prod.fst).Nodup
  | _ => True

def SortedMembers : Json → Prop
  | .object members => members.Pairwise fun a b => a.1 < b.1
  | _ => True

def NotFloat : Json → Prop
  | .number (.float ..) => False
  | _ => True

def UniqueKeys : Json → Prop := Everywhere DistinctMembers

/-- The members of every object are in the order of their keys, each key once. -/
def Canonical : Json → Prop := Everywhere SortedMembers

/-- Every number is an integer. -/
def Integral : Json → Prop := Everywhere NotFloat

end Json

namespace Json

theorem mem_elements {t : Token} {v : Json} {values : List Json} {first : Bool} (hv : v ∈ values)
    (ht : t ∈ v.tokens) : t ∈ elements first values := by
  induction values generalizing first with
  | nil => cases hv
  | cons w values ih =>
    rw [elements, List.mem_append, List.mem_append]
    rcases List.mem_cons.mp hv with rfl | hin
    · exact .inr (.inl ht)
    · exact .inr (.inr (ih hin))

theorem mem_memberTokens {t : Token} {m : String × Json} {members : List (String × Json)} {first : Bool}
    (hm : m ∈ members) (ht : t ∈ m.2.tokens) : t ∈ memberTokens first members := by
  induction members generalizing first with
  | nil => cases hm
  | cons m' members ih =>
    rw [memberTokens, List.mem_append, List.mem_cons, List.mem_cons, List.mem_append]
    rcases List.mem_cons.mp hm with rfl | hin
    · exact .inr (.inr (.inr (.inl ht)))
    · exact .inr (.inr (.inr (.inr (ih hin))))

theorem key_mem_memberTokens {m : String × Json} {members : List (String × Json)} {first : Bool}
    (hm : m ∈ members) : .string m.1 ∈ memberTokens first members := by
  induction members generalizing first with
  | nil => cases hm
  | cons m' members ih =>
    rw [memberTokens, List.mem_append, List.mem_cons, List.mem_cons, List.mem_append]
    rcases List.mem_cons.mp hm with rfl | hin
    · exact .inr (.inl rfl)
    · exact .inr (.inr (.inr (.inr (ih hin))))

theorem integral_of_tokens {v : Json} (h : ∀ bits, .f64 bits ∉ v.tokens) : v.Integral := by
  induction v with
  | null | bool | string => trivial
  | number n =>
    cases n with
    | posInt | negInt => trivial
    | float bits hbits => exact absurd List.mem_cons_self (h bits)
  | array values ih =>
    refine everywhere_array.mpr ⟨trivial, fun v hv => ih v hv fun bits hin => h bits ?_⟩
    exact List.mem_cons_of_mem _ (mem_elements hv hin)
  | object members ih =>
    refine everywhere_object.mpr ⟨trivial, fun m hm => ih m hm fun bits hin => h bits ?_⟩
    exact List.mem_cons_of_mem _ (mem_memberTokens hm hin)

end Json

/-- A value whose objects are maps. -/
abbrev Value := { v : Json // v.Canonical }

namespace Json

theorem Canonical.uniqueKeys {v : Json} (h : v.Canonical) : v.UniqueKeys := by
  induction v with
  | null | bool | number | string => trivial
  | array values ih =>
    obtain ⟨-, hvalues⟩ := everywhere_array.mp h
    exact everywhere_array.mpr ⟨trivial, fun v hv => ih v hv (hvalues v hv)⟩
  | object members ih =>
    obtain ⟨hsorted, hmembers⟩ := everywhere_object.mp h
    refine everywhere_object.mpr ⟨?_, fun m hm => ih m hm (hmembers m hm)⟩
    exact List.pairwise_map.mpr (List.Pairwise.imp (fun hlt => ne_of_lt hlt) hsorted)

/-- A value is what it denotes. -/
theorem Canonical.value_eq {v : Json} (h : v.Canonical) : v.value = v := by
  induction v with
  | null | bool | number | string => rfl
  | array values ih =>
    obtain ⟨-, hvalues⟩ := everywhere_array.mp h
    rw [value, valueElements_eq]
    have hsame : values.map value = values.map id :=
      List.map_congr_left fun v hv => ih v hv (hvalues v hv)
    rw [hsame, List.map_id]
  | object members ih =>
    obtain ⟨hsorted, hmembers⟩ := everywhere_object.mp h
    have hsame : members.map (fun m => (m.1, m.2.value)) = members.map id :=
      List.map_congr_left fun m hm => Prod.ext rfl (ih m hm (hmembers m hm))
    have hmap : OrdMap.ofList members = ⟨members, hsorted⟩ :=
      OrdMap.ofList_entries (⟨members, hsorted⟩ : OrdMap String Json)
    rw [value, valueMembers_eq, hsame, List.map_id, hmap]

theorem UniqueKeys.canonical_value {v : Json} (h : v.UniqueKeys) : v.value.Canonical := by
  induction v with
  | null | bool | number | string => trivial
  | array values ih =>
    obtain ⟨-, hvalues⟩ := everywhere_array.mp h
    rw [value, valueElements_eq]
    exact everywhere_array.mpr
      ⟨trivial, List.forall_mem_map.mpr fun v hv => ih v hv (hvalues v hv)⟩
  | object members ih =>
    obtain ⟨hdistinct, hmembers⟩ := everywhere_object.mp h
    rw [value]
    refine everywhere_object.mpr ⟨(OrdMap.ofList _).sorted, ?_⟩
    intro m hm
    have hnodup : ((valueMembers members).map Prod.fst).Nodup := by
      rw [map_fst_valueMembers]
      exact hdistinct
    have hin := (OrdMap.get?_ofList hnodup).mp (OrdMap.mem_entries.mp hm)
    rw [valueMembers_eq] at hin
    obtain ⟨m', hm', hsame⟩ := List.mem_map.mp hin
    rw [← (Prod.mk.inj hsame).2]
    exact ih m' hm' (hmembers m' hm')

/-! Building and reading objects. -/

/-- The object with these members, as a map keeps them. -/
def obj (members : List (String × Json)) : Json := .object (OrdMap.ofList members).entries

/-- The value of a key of an object. -/
def get? (v : Json) (key : String) : Option Json :=
  match v with
  | .object members => OrdMap.lookup key members
  | _ => none

theorem everywhere_obj {p : Json → Prop} {members : List (String × Json)} (h : p (obj members))
    (hmembers : ∀ m ∈ members, m.2.Everywhere p) : (obj members).Everywhere p :=
  everywhere_object.mpr ⟨h, fun m hm => hmembers m (OrdMap.mem_of_mem_ofList hm)⟩

theorem canonical_obj {members : List (String × Json)} (h : ∀ m ∈ members, m.2.Canonical) :
    (obj members).Canonical :=
  everywhere_obj (OrdMap.ofList members).sorted h

/-- A value that is sent: objects are maps and numbers are integers. -/
def Plain (v : Json) : Prop := v.Canonical ∧ v.Integral

theorem plain_obj {members : List (String × Json)} (h : ∀ m ∈ members, m.2.Plain) :
    (obj members).Plain :=
  ⟨canonical_obj fun m hm => (h m hm).1, everywhere_obj trivial fun m hm => (h m hm).2⟩

@[simp] theorem plain_bool (b : Bool) : (Json.bool b).Plain := ⟨trivial, trivial⟩

@[simp] theorem plain_string (s : String) : (Json.string s).Plain := ⟨trivial, trivial⟩

@[simp] theorem plain_null : Json.null.Plain := ⟨trivial, trivial⟩

@[simp] theorem plain_posInt (n : UInt64) : (Json.number (.posInt n)).Plain := ⟨trivial, trivial⟩

theorem get?_obj (members : List (String × Json)) (key : String) :
    (obj members).get? key = (OrdMap.ofList members).get? key := rfl

/-! The size of a document, when each token has its own. -/

section Weight

variable (w : Token → Nat)

def weight (v : Json) : Nat := (v.tokens.map w).sum

/-- One document is no longer and no deeper than another. -/
structure Within (v v' : Json) : Prop where
  weight : weight w v ≤ weight w v'
  depth : v.depth ≤ v'.depth

def elementsWeight (first : Bool) (values : List Json) : Nat := ((elements first values).map w).sum

def membersWeight (first : Bool) (members : List (String × Json)) : Nat :=
  ((memberTokens first members).map w).sum

variable {w}

theorem elementsWeight_cons (first : Bool) (v : Json) (vs : List Json) :
    elementsWeight w first (v :: vs)
      = (if first then 0 else w .comma) + (weight w v + elementsWeight w false vs) := by
  unfold elementsWeight weight
  cases first <;> simp [elements]

theorem membersWeight_cons (first : Bool) (key : String) (v : Json) (ms : List (String × Json)) :
    membersWeight w first ((key, v) :: ms) = (if first then 0 else w .comma)
      + (w (.string key) + (w .colon + (weight w v + membersWeight w false ms))) := by
  unfold membersWeight weight
  cases first <;> simp [memberTokens]

theorem weight_array (values : List Json) :
    weight w (.array values) = w .leftBracket + elementsWeight w true values := rfl

theorem weight_object (members : List (String × Json)) :
    weight w (.object members) = w .leftBrace + membersWeight w true members := rfl

/-- The first element needs no comma. -/
theorem elementsWeight_first (values : List Json) :
    elementsWeight w true values ≤ elementsWeight w false values := by
  cases values with
  | nil => exact le_refl _
  | cons v vs =>
    rw [elementsWeight_cons, elementsWeight_cons]
    exact Nat.add_le_add_right (Nat.zero_le _) _

theorem elementsWeight_sublist {values values' : List Json} (h : values.Sublist values') (first : Bool) :
    elementsWeight w first values ≤ elementsWeight w first values' := by
  induction h generalizing first with
  | slnil => exact le_refl _
  | @cons values values' v _ ih =>
    have hfirst : elementsWeight w first values ≤ elementsWeight w false values := by
      cases first with
      | true => exact elementsWeight_first values
      | false => exact le_refl _
    have htail := ih false
    rw [elementsWeight_cons]
    omega
  | cons_cons v _ ih =>
    have htail := ih false
    rw [elementsWeight_cons, elementsWeight_cons]
    omega

theorem Within.refl (v : Json) : Within w v v := ⟨le_refl _, le_refl _⟩

theorem within_array {values values' : List Json} (h : values.Sublist values') :
    Within w (.array values) (.array values') where
  weight := Nat.add_le_add_left (elementsWeight_sublist h true) _
  depth := by
    rw [depth, depth]
    refine Nat.succ_le_succ (depthElements_le.mpr fun v hv => ?_)
    exact depthElements_le.mp (le_refl _) v (h.subset hv)

theorem within_object {members members' : List (String × Json)}
    (h : List.Forall₂ (fun m m' => m.1 = m'.1 ∧ Within w m.2 m'.2) members members') :
    Within w (.object members) (.object members') := by
  have hmembers : ∀ first, membersWeight w first members ≤ membersWeight w first members'
      ∧ depthMembers members ≤ depthMembers members' := by
    induction h with
    | nil => exact fun first => ⟨le_refl _, le_refl _⟩
    | @cons m m' tail tail' hm _ ih =>
      intro first
      obtain ⟨key, v⟩ := m
      obtain ⟨key', v'⟩ := m'
      obtain ⟨rfl, hweight, hdepth⟩ := hm
      obtain ⟨htail, hdeep⟩ := ih false
      rw [membersWeight_cons, membersWeight_cons, depthMembers, depthMembers]
      exact ⟨Nat.add_le_add_left (Nat.add_le_add_left (Nat.add_le_add_left
        (Nat.add_le_add hweight htail) _) _) _, max_le_max hdepth hdeep⟩
  refine ⟨Nat.add_le_add_left (hmembers true).1 _, ?_⟩
  rw [depth, depth]
  exact Nat.succ_le_succ (hmembers true).2

theorem within_obj {members members' : List (String × Json)}
    (h : List.Forall₂ (fun m m' => m.1 = m'.1 ∧ Within w m.2 m'.2) members members') :
    Within w (obj members) (obj members') :=
  within_object (OrdMap.forall₂_ofList h)

end Weight

end Json

end Credman.Library
