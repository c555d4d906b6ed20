import Mathlib.Algebra.Order.Group.Nat

/-! A growable string with its allocation: pushing to it moves its bytes where they do not fit. -/
namespace Credman.Library

/-- `longest` is the most bytes it has held, and `moves` how often they went to a larger allocation. -/
structure Buffer where
  text : String
  capacity : Nat
  longest : Nat
  moves : Nat
  deriving DecidableEq, Repr

namespace Buffer

def withCapacity (capacity : Nat) : Buffer := { text := "", capacity, longest := 0, moves := 0 }

/-- The allocation at least doubles. -/
def pushStr (b : Buffer) (s : String) : Buffer :=
  let text := b.text ++ s
  let longest := max b.longest text.utf8ByteSize
  if text.utf8ByteSize ≤ b.capacity then { b with text, longest }
  else { text, capacity := max 8 (max (2 * b.capacity) text.utf8ByteSize), longest, moves := b.moves + 1 }

def push (b : Buffer) (c : Char) : Buffer := b.pushStr (String.singleton c)

@[simp] theorem pushStr_text (b : Buffer) (s : String) : (b.pushStr s).text = b.text ++ s := by
  unfold pushStr
  dsimp only
  split_ifs
  · rfl
  · rfl

@[simp] theorem push_text (b : Buffer) (c : Char) : (b.push c).text = b.text.push c := by
  unfold push
  rw [pushStr_text, String.append_singleton]

/-- `next` is `b` after some pushes: the text has only grown, and if it still fits it was never moved. -/
structure Grows (b next : Buffer) : Prop where
  size_le : b.text.utf8ByteSize ≤ next.text.utf8ByteSize
  fits : next.text.utf8ByteSize ≤ b.capacity → next.capacity = b.capacity ∧ next.moves = b.moves
    ∧ next.longest ≤ max b.longest next.text.utf8ByteSize

namespace Grows

variable {a b c : Buffer}

theorem refl (b : Buffer) : b.Grows b := ⟨le_refl _, fun _ => ⟨rfl, rfl, le_max_left _ _⟩⟩

theorem trans (h : a.Grows b) (h' : b.Grows c) : a.Grows c where
  size_le := h.size_le.trans h'.size_le
  fits hfits := by
    obtain ⟨hcapacity, hmoves, hlongest⟩ := h.fits (h'.size_le.trans hfits)
    obtain ⟨hcapacity', hmoves', hlongest'⟩ := h'.fits (hcapacity ▸ hfits)
    have hle := h'.size_le
    exact ⟨hcapacity'.trans hcapacity, hmoves'.trans hmoves, by omega⟩

theorem pushStr (b : Buffer) (s : String) : b.Grows (b.pushStr s) where
  size_le := by
    rw [pushStr_text, String.utf8ByteSize_append]
    omega
  fits hfits := by
    rw [pushStr_text] at hfits
    unfold Buffer.pushStr
    dsimp only
    rw [if_pos hfits]
    exact ⟨rfl, rfl, le_refl _⟩

theorem push (b : Buffer) (c : Char) : b.Grows (b.push c) := pushStr b (String.singleton c)

theorem foldl {α : Type} {step : Buffer → α → Buffer} (hstep : ∀ (b : Buffer) (a : α), b.Grows (step b a)) (l : List α)
    (b : Buffer) : b.Grows (l.foldl step b) := by
  induction l generalizing b with
  | nil => exact .refl b
  | cons a l ih => exact (hstep b a).trans (ih (step b a))

end Grows

/-- A text that fits from the start is never moved, and no text on the way to it is longer. -/
theorem Grows.of_withCapacity {capacity : Nat} {b : Buffer} (h : (withCapacity capacity).Grows b)
    (hfits : b.text.utf8ByteSize ≤ capacity) :
    b.capacity = capacity ∧ b.moves = 0 ∧ b.longest ≤ capacity := by
  obtain ⟨hcapacity, hmoves, hlongest⟩ := h.fits hfits
  refine ⟨hcapacity, hmoves, hlongest.trans ?_⟩
  exact max_le (Nat.zero_le _) hfits

end Buffer

end Credman.Library
