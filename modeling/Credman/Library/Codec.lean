import Credman.Library.OrdMap
import Mathlib.Data.String.Basic
import Mathlib.Data.Nat.Log
import Mathlib.Logic.Equiv.Nat

/-! Self-delimiting codecs: what was written reads back, whatever follows it. -/
namespace Credman.Library

universe u

structure Codec (α : Type u) where
  enc : α → List UInt8
  dec : List UInt8 → Option (α × List UInt8)
  dec_enc : ∀ a rest, dec (enc a ++ rest) = some (a, rest)

namespace Codec

variable {α β : Type}

/-- Reading a whole message: nothing may be left over. -/
def read (c : Codec α) (bytes : List UInt8) : Option α :=
  match c.dec bytes with
  | some (a, []) => some a
  | _ => none

@[simp] theorem read_enc (c : Codec α) (a : α) : c.read (c.enc a) = some a := by
  have h := c.dec_enc a []
  rw [List.append_nil] at h
  rw [read, h]

theorem enc_injective (c : Codec α) : Function.Injective c.enc := by
  intro a b h
  have ha := c.read_enc a
  rw [h, c.read_enc b] at ha
  exact (Option.some.inj ha).symm

/-! Numbers go out seven bits at a time, the lowest first. -/

def natDigits : Nat → Nat → List UInt8
  | 0, n => [UInt8.ofNat n]
  | fuel + 1, n =>
    if n < 128 then [UInt8.ofNat n]
    else UInt8.ofNat (n % 128 + 128) :: natDigits fuel (n / 128)

def readDigits : List UInt8 → Option (Nat × List UInt8)
  | [] => none
  | digit :: rest =>
    if digit.toNat < 128 then some (digit.toNat, rest)
    else (readDigits rest).map fun high => (high.1 * 128 + (digit.toNat - 128), high.2)

theorem readDigits_natDigits {fuel n : Nat} (h : n < 128 ^ (fuel + 1)) (rest : List UInt8) :
    readDigits (natDigits fuel n ++ rest) = some (n, rest) := by
  induction fuel generalizing n with
  | zero =>
    have hn : (UInt8.ofNat n).toNat = n := by
      rw [UInt8.toNat_ofNat']
      omega
    rw [natDigits, List.singleton_append, readDigits, hn, if_pos (by omega)]
  | succ fuel ih =>
    rw [natDigits]
    split_ifs with hsmall
    · have hn : (UInt8.ofNat n).toNat = n := by
        rw [UInt8.toNat_ofNat']
        omega
      rw [List.singleton_append, readDigits, hn, if_pos hsmall]
    · have hdigit : (UInt8.ofNat (n % 128 + 128)).toNat = n % 128 + 128 := by
        rw [UInt8.toNat_ofNat']
        omega
      have hhigh : n / 128 < 128 ^ (fuel + 1) := by
        rw [pow_succ] at h
        exact Nat.div_lt_of_lt_mul (by omega)
      rw [List.cons_append, readDigits, hdigit, if_neg (by omega), ih hhigh]
      simp only [Option.map_some, Option.some.injEq, Prod.mk.injEq, and_true]
      omega

def nat : Codec Nat where
  enc n := natDigits n.log2 n
  dec := readDigits
  dec_enc n rest := by
    refine readDigits_natDigits ?_ rest
    calc n < 2 ^ (n.log2 + 1) := Nat.lt_log2_self
      _ ≤ 128 ^ (n.log2 + 1) := Nat.pow_le_pow_left (by omega) _

/-- A type that embeds in one with a codec. -/
def embed (c : Codec β) (f : α → β) (g : β → Option α) (h : ∀ a, g (f a) = some a) : Codec α where
  enc a := c.enc (f a)
  dec bytes := (c.dec bytes).bind fun r => (g r.1).map (·, r.2)
  dec_enc a rest := by rw [c.dec_enc]; simp [h]

def via (c : Codec β) (f : α → β) (g : β → α) (h : ∀ a, g (f a) = a) : Codec α :=
  c.embed f (fun b => some (g b)) fun a => congrArg some (h a)

def pair (c : Codec α) (d : Codec β) : Codec (α × β) where
  enc p := c.enc p.1 ++ d.enc p.2
  dec bytes := (c.dec bytes).bind fun a => (d.dec a.2).map fun b => ((a.1, b.1), b.2)
  dec_enc p rest := by rw [List.append_assoc, c.dec_enc]; simp [d.dec_enc]

def readList (c : Codec α) : Nat → List UInt8 → Option (List α × List UInt8)
  | 0, bytes => some ([], bytes)
  | n + 1, bytes => (c.dec bytes).bind fun a =>
      (readList c n a.2).map fun l => (a.1 :: l.1, l.2)

theorem readList_flatMap (c : Codec α) (l : List α) (rest : List UInt8) :
    readList c l.length (l.flatMap c.enc ++ rest) = some (l, rest) := by
  induction l with
  | nil => rfl
  | cons a l ih =>
    rw [List.flatMap_cons, List.append_assoc, List.length_cons, readList, c.dec_enc]
    simp [ih]

def list (c : Codec α) : Codec (List α) where
  enc l := nat.enc l.length ++ l.flatMap c.enc
  dec bytes := (nat.dec bytes).bind fun n => readList c n.1 n.2
  dec_enc l rest := by
    rw [List.append_assoc, nat.dec_enc]
    exact readList_flatMap c l rest

def option (c : Codec α) : Codec (Option α) :=
  c.list.embed (fun value => value.toList) (fun l => match l with
    | [] => some none
    | [a] => some (some a)
    | _ => none) (by intro a; cases a <;> rfl)

def bool : Codec Bool := nat.via (fun b => b.toNat) (· == 1) (by decide)

def word32 : Codec UInt32 := nat.via UInt32.toNat UInt32.ofNat fun _ => UInt32.ofNat_toNat

def word64 : Codec UInt64 := nat.via UInt64.toNat UInt64.ofNat fun _ => UInt64.ofNat_toNat

def byte : Codec UInt8 := nat.via UInt8.toNat UInt8.ofNat fun _ => UInt8.ofNat_toNat

def int : Codec Int := nat.via Equiv.intEquivNat Equiv.intEquivNat.symm fun n =>
  Equiv.symm_apply_apply _ n

def char : Codec Char := nat.via Char.toNat Char.ofNat Char.ofNat_toNat

def string : Codec String := char.list.via String.toList String.ofList fun s => by simp

def finset [LinearOrder α] (c : Codec α) : Codec (Finset α) :=
  c.list.via sortedElements List.toFinset fun s => by
    ext a
    rw [List.mem_toFinset, mem_sortedElements]

def ordMap [LinearOrder α] (c : Codec α) (d : Codec β) : Codec (OrdMap α β) :=
  (c.pair d).list.embed OrdMap.entries
    (fun l => if h : l.Pairwise (fun a b => a.1 < b.1) then some ⟨l, h⟩ else none)
    fun m => dif_pos m.sorted

end Codec

end Credman.Library
