import Credman.Library.Checked
import Mathlib.Data.UInt

/-! A program beside its build with checked arithmetic: where a sum does not fit its word, the
one wraps and the other panics. -/
namespace Credman.Library

universe u

inductive Stop (ε : Type u) where
  | error (e : ε)
  | panic
  deriving DecidableEq

/-- What a build with checked arithmetic does. -/
abbrev Guarded (ε : Type u) (α : Type) := Except (Stop ε) α

namespace Guarded

open Checked

variable {ε : Type u} {α β : Type}

/-- Code without arithmetic is the same in both builds. -/
def of (x : Except ε α) : Guarded ε α :=
  match x with
  | .ok a => .ok a
  | .error e => .error (.error e)

def add (a b : UInt64) : Guarded ε UInt64 :=
  if a.toNat + b.toNat < 2 ^ 64 then .ok (a + b) else .error .panic

@[simp] theorem of_eq_ok {x : Except ε α} {a : α} : (of x : Guarded ε α) = .ok a ↔ x = .ok a := by
  cases x <;> simp [of]

@[simp] theorem of_ne_panic {x : Except ε α} : (of x : Guarded ε α) = .error .panic ↔ False := by
  cases x <;> simp [of]

theorem ok_bind (a : α) (f : α → Guarded ε β) : (Except.ok a >>= f) = f a := rfl

theorem add_of_fits {a b : UInt64} (h : a.toNat + b.toNat < 2 ^ 64) :
    (add a b : Guarded ε UInt64) = .ok (a + b) := if_pos h

@[simp] theorem add_eq_panic {a b : UInt64} :
    (add a b : Guarded ε UInt64) = .error .panic ↔ 2 ^ 64 ≤ a.toNat + b.toNat := by
  unfold add
  split_ifs with hfits
  · exact ⟨nofun, fun h => absurd hfits (not_lt.mpr h)⟩
  · exact ⟨fun _ => not_lt.mp hfits, fun _ => rfl⟩

theorem toNat_add_of_fits {a b : UInt64} (h : a.toNat + b.toNat < 2 ^ 64) :
    (a + b).toNat = a.toNat + b.toNat := by
  rw [UInt64.toNat_add, Nat.mod_eq_of_lt h]

/-- The two builds do the same, unless the checked one panics. -/
def Agrees (x' : Guarded ε α) (x : Except ε α) : Prop := x' = .error .panic ∨ x' = of x

theorem Agrees.refl (x : Except ε α) : Agrees (of x) x := .inr rfl

theorem agrees_add (a b : UInt64) : Agrees (add a b : Guarded ε UInt64) (.ok (a + b)) := by
  by_cases hfits : a.toNat + b.toNat < 2 ^ 64
  · exact .inr (add_of_fits hfits)
  · exact .inl (if_neg hfits)

theorem Agrees.bind {x' : Guarded ε α} {x : Except ε α} {f' : α → Guarded ε β} {f : α → Except ε β}
    (hx : Agrees x' x) (hf : ∀ a, x = .ok a → Agrees (f' a) (f a)) : Agrees (x' >>= f') (x >>= f) := by
  rcases hx with rfl | rfl
  · exact .inl rfl
  · cases x with
    | error e => exact .inr rfl
    | ok a => exact hf a rfl

theorem Agrees.eq_of {x' : Guarded ε α} {x : Except ε α} (h : Agrees x' x) (hx : x' ≠ .error .panic) :
    x' = of x := h.resolve_left hx

theorem Agrees.ok {x' : Guarded ε α} {x : Except ε α} {a : α} (h : Agrees x' x) (hok : x' = .ok a) :
    x = .ok a := by
  rcases h with hpanic | hsame
  · rw [hok] at hpanic
    cases hpanic
  · rwa [hsame, of_eq_ok] at hok

/-- A loop panics at the first entry whose sum does not fit, once the entries before it have
passed. -/
theorem forM_eq_panic {f' : α → Guarded ε PUnit} {f : α → Except ε PUnit} {l : List α}
    (h : ∀ a ∈ l, Agrees (f' a) (f a)) :
    l.forM f' = .error .panic ↔
      ∃ pre a post, l = pre ++ a :: post ∧ (∀ b ∈ pre, f b = .ok ⟨⟩) ∧ f' a = .error .panic := by
  rw [List.forM_eq_forM]
  induction l with
  | nil =>
    constructor
    · intro hnil
      cases hnil
    · rintro ⟨pre, a, post, heq, -⟩
      cases pre <;> cases heq
  | cons a l ih =>
    rw [List.forM_cons, bind_eq_error, ih fun b hb => h b (List.mem_cons_of_mem _ hb)]
    constructor
    · rintro (hpanic | ⟨⟨⟩, hok, pre, b, post, rfl, hpre, hb⟩)
      · exact ⟨[], a, l, rfl, fun _ hin => absurd hin List.not_mem_nil, hpanic⟩
      · refine ⟨a :: pre, b, post, rfl, ?_, hb⟩
        intro c hc
        rcases List.mem_cons.mp hc with rfl | hc
        · exact (h c List.mem_cons_self).ok hok
        · exact hpre c hc
    · rintro ⟨pre, b, post, heq, hpre, hb⟩
      cases pre with
      | nil =>
        cases heq
        exact .inl hb
      | cons c pre =>
        cases heq
        by_cases hpanic : f' a = .error .panic
        · exact .inl hpanic
        · refine .inr ⟨⟨⟩, ?_, pre, b, post, rfl, fun d hd => hpre d (List.mem_cons_of_mem _ hd), hb⟩
          rw [(h a List.mem_cons_self).eq_of hpanic, of_eq_ok]
          exact hpre a List.mem_cons_self

end Guarded

end Credman.Library
