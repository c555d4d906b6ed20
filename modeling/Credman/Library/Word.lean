import Credman.Library.OrdMap
import Mathlib.Algebra.Group.Nat.Defs

/-! The order of 64-bit words, their inclusive ranges, and fixed-width
big-endian byte strings. -/
namespace Credman.Library

instance linearOrderUInt64 : LinearOrder UInt64 :=
  { (inferInstance : LE UInt64), (inferInstance : LT UInt64) with
    le_refl := fun _ => UInt64.le_refl _
    le_trans := fun _ _ _ => UInt64.le_trans
    le_antisymm := fun _ _ => UInt64.le_antisymm
    le_total := fun _ _ => UInt64.le_total _ _
    lt_iff_le_not_ge := by intro a b; grind
    toDecidableLE := inferInstance
    toDecidableLT := inferInstance
    toDecidableEq := inferInstance
    min := fun a b => if a ≤ b then a else b
    max := fun a b => if a ≤ b then b else a
    min_def := fun _ _ => rfl
    max_def := fun _ _ => rfl
    compare_eq_compareOfLessAndEq := by
      intro a b
      rfl }

namespace Word

theorem toNat_succ {a b : UInt64} (h : a < b) : (a + 1).toNat = a.toNat + 1 := by
  rw [UInt64.lt_iff_toNat_lt] at h
  have hb := b.toNat_lt
  rw [UInt64.toNat_add]
  simp only [UInt64.toNat_one]
  omega

/-- `start..=last`. -/
def rangeInclusive (start last : UInt64) : List UInt64 :=
  (List.range (last.toNat + 1 - start.toNat)).map fun n => start + UInt64.ofNat n

theorem toNat_add_ofNat {start last : UInt64} {n : Nat}
    (h : n < last.toNat + 1 - start.toNat) :
    (start + UInt64.ofNat n).toNat = start.toNat + n := by
  have hl := last.toNat_lt
  rw [UInt64.toNat_add, UInt64.toNat_ofNat']
  omega

theorem mem_rangeInclusive {start last value : UInt64} :
    value ∈ rangeInclusive start last ↔ start ≤ value ∧ value ≤ last := by
  simp only [rangeInclusive, List.mem_map, List.mem_range]
  constructor
  · rintro ⟨n, hn, rfl⟩
    rw [UInt64.le_iff_toNat_le, UInt64.le_iff_toNat_le, toNat_add_ofNat hn]
    omega
  · rintro ⟨hlo, hhi⟩
    rw [UInt64.le_iff_toNat_le] at hlo hhi
    have hn : value.toNat - start.toNat < last.toNat + 1 - start.toNat := by omega
    refine ⟨value.toNat - start.toNat, hn, ?_⟩
    apply UInt64.toNat_inj.mp
    rw [toNat_add_ofNat hn]
    omega

theorem pairwise_rangeInclusive (start last : UInt64) :
    (rangeInclusive start last).Pairwise (· < ·) := by
  rw [rangeInclusive, List.pairwise_map]
  refine (List.pairwise_lt_range).imp_of_mem ?_
  intro a b ha hb hab
  rw [List.mem_range] at ha hb
  rw [UInt64.lt_iff_toNat_lt, toNat_add_ofNat ha, toNat_add_ofNat hb]
  omega

theorem length_rangeInclusive (start last : UInt64) :
    (rangeInclusive start last).length = last.toNat + 1 - start.toNat := by
  simp [rangeInclusive]

theorem head?_rangeInclusive {start last : UInt64} (h : start ≤ last) :
    (rangeInclusive start last).head? = some start := by
  rw [UInt64.le_iff_toNat_le] at h
  have hpos : last.toNat + 1 - start.toNat ≠ 0 := by omega
  rw [rangeInclusive, List.head?_map, List.head?_range, if_neg hpos]
  simp

theorem getLast?_rangeInclusive {start last : UInt64} (h : start ≤ last) :
    (rangeInclusive start last).getLast? = some last := by
  rw [UInt64.le_iff_toNat_le] at h
  have hpos : last.toNat + 1 - start.toNat ≠ 0 := by omega
  rw [rangeInclusive, List.getLast?_map, List.getLast?_range, if_neg hpos, Option.map_some]
  apply congrArg some
  apply UInt64.toNat_inj.mp
  have hlast : last.toNat + 1 - start.toNat - 1 < last.toNat + 1 - start.toNat := by omega
  rw [toNat_add_ofNat hlast]
  omega

/-- A strictly increasing list is the range that has its elements. -/
theorem eq_rangeInclusive {start last : UInt64} {l : List UInt64} (hsorted : l.Pairwise (· < ·))
    (hmem : ∀ n, n ∈ l ↔ start ≤ n ∧ n ≤ last) : l = rangeInclusive start last := by
  have hperm : l.Perm (rangeInclusive start last) := by
    apply (List.perm_ext_iff_of_nodup _ _).mpr
    · intro n
      rw [hmem, mem_rangeInclusive]
    · exact hsorted.imp fun h => ne_of_lt h
    · exact (pairwise_rangeInclusive start last).imp fun h => ne_of_lt h
  exact hperm.eq_of_pairwise (fun a b _ _ hab hba => absurd hab (not_lt.mpr (le_of_lt hba)))
    hsorted (pairwise_rangeInclusive start last)

/-- `to_be_bytes` on `width` bytes. -/
def beBytes : Nat → Nat → List UInt8
  | 0, _ => []
  | width + 1, n => beBytes width (n / 256) ++ [UInt8.ofNat n]

/-- `from_be_bytes`. -/
def ofBeBytes (bytes : List UInt8) : Nat :=
  bytes.foldl (fun acc byte => acc * 256 + byte.toNat) 0

@[simp] theorem length_beBytes (width n : Nat) : (beBytes width n).length = width := by
  induction width generalizing n with
  | zero => rfl
  | succ width ih => simp [beBytes, ih]

theorem ofBeBytes_beBytes (width n : Nat) : ofBeBytes (beBytes width n) = n % 256 ^ width := by
  induction width generalizing n with
  | zero => simp [beBytes, ofBeBytes, Nat.mod_one]
  | succ width ih =>
    rw [beBytes, ofBeBytes, List.foldl_append]
    change ofBeBytes (beBytes width (n / 256)) * 256 + (UInt8.ofNat n).toNat = _
    have hsplit : n % 256 ^ (width + 1) = n % 256 + 256 * (n / 256 % 256 ^ width) := by
      rw [Nat.pow_succ, Nat.mul_comm, Nat.mod_mul]
    have hbyte : (UInt8.ofNat n).toNat = n % 256 := UInt8.toNat_ofNat'
    rw [ih, hbyte, hsplit]
    omega

theorem ofBeBytes_beBytes_of_lt {width n : Nat} (h : n < 256 ^ width) :
    ofBeBytes (beBytes width n) = n := by
  rw [ofBeBytes_beBytes, Nat.mod_eq_of_lt h]

theorem beBytes_ofBeBytes (bytes : List UInt8) : beBytes bytes.length (ofBeBytes bytes) = bytes := by
  induction bytes using List.reverseRecOn with
  | nil => rfl
  | append_singleton bytes byte ih =>
    have hlast : ofBeBytes (bytes ++ [byte]) = ofBeBytes bytes * 256 + byte.toNat := by
      simp [ofBeBytes]
    have hlt := byte.toNat_lt
    rw [List.length_append, List.length_singleton, beBytes, hlast]
    have hdiv : (ofBeBytes bytes * 256 + byte.toNat) / 256 = ofBeBytes bytes := by omega
    have hbyte : UInt8.ofNat (ofBeBytes bytes * 256 + byte.toNat) = byte := by
      apply UInt8.toNat_inj.mp
      rw [UInt8.toNat_ofNat']
      omega
    rw [hdiv, ih, hbyte]

theorem ofBeBytes_lt (bytes : List UInt8) : ofBeBytes bytes < 256 ^ bytes.length := by
  rw [← beBytes_ofBeBytes bytes, length_beBytes, ofBeBytes_beBytes]
  exact Nat.mod_lt _ (Nat.pow_pos (by decide))

/-- Four bytes are the word they spell. -/
theorem beBytes_ofNat32 {bytes : List UInt8} (h : bytes.length = 4) :
    beBytes 4 (UInt32.ofNat (ofBeBytes bytes)).toNat = bytes := by
  have hlt := ofBeBytes_lt bytes
  rw [h] at hlt
  rw [UInt32.toNat_ofNat', Nat.mod_eq_of_lt (by omega), ← h, beBytes_ofBeBytes]

theorem ofNat32_beBytes (word : UInt32) : UInt32.ofNat (ofBeBytes (beBytes 4 word.toNat)) = word := by
  have hlt := word.toNat_lt
  rw [ofBeBytes_beBytes_of_lt (by omega), UInt32.ofNat_toNat]

theorem toList_loop_eq (b : ByteArray) (i : Nat) (r : List UInt8) :
    ByteArray.toList.loop b i r = r.reverse ++ b.data.toList.drop i := by
  induction h : b.size - i generalizing i r with
  | zero =>
    rw [ByteArray.toList.loop, if_neg (by omega), List.drop_of_length_le, List.append_nil]
    have hsize : b.data.toList.length = b.size := by simp
    omega
  | succ n ih =>
    have hi : i < b.data.size := by
      have hsize : b.data.size = b.size := rfl
      omega
    have hget : b.get! i = b.data[i] := getElem!_pos b.data i hi
    have hdrop : b.data.toList.drop i = b.data[i] :: b.data.toList.drop (i + 1) := by
      rw [List.drop_eq_getElem_cons (by rw [Array.length_toList]; exact hi), Array.getElem_toList]
    rw [ByteArray.toList.loop, if_pos (by omega), ih (i + 1) _ (by omega), hget, hdrop]
    simp

/-- The bytes of a string determine it. -/
theorem toUTF8_injective {a b : String} (h : a.toUTF8.toList = b.toUTF8.toList) : a = b := by
  have hdata : ∀ bytes : ByteArray, bytes.toList = bytes.data.toList := by
    intro bytes
    rw [ByteArray.toList, toList_loop_eq]
    simp
  rw [hdata, hdata] at h
  exact String.toByteArray_inj.mp (ByteArray.ext (Array.toList_inj.mp h))

end Word

end Credman.Library
