import Mathlib.Logic.Function.Basic
import Mathlib.Tactic.Common

/-! Weakest preconditions of stateful programs that may stop with an error and
keep the state they had reached. -/
namespace Credman.Library

universe u v

/-- `wp x post fail s`: run from `s`, `x` returns with `post` or stops with `fail`. -/
def wp {ε σ : Type u} {α : Type u} (x : EStateM ε σ α) (post : α → σ → Prop)
    (fail : ε → σ → Prop) (s : σ) : Prop :=
  match x s with
  | .ok a s' => post a s'
  | .error e s' => fail e s'

section Rules

variable {ε σ α β : Type u} {post : α → σ → Prop} {fail : ε → σ → Prop} {s : σ}

@[simp] theorem wp_pure (a : α) : wp (ε := ε) (pure a) post fail s ↔ post a s := Iff.rfl

@[simp] theorem wp_throw (e : ε) : wp (α := α) (throw e) post fail s ↔ fail e s := Iff.rfl

@[simp] theorem wp_get {post : σ → σ → Prop} : wp (ε := ε) get post fail s ↔ post s s := Iff.rfl

@[simp] theorem wp_modify {post : PUnit → σ → Prop} (f : σ → σ) :
    wp (ε := ε) (modify f) post fail s ↔ post ⟨⟩ (f s) := Iff.rfl

@[simp] theorem wp_bind (x : EStateM ε σ β) (f : β → EStateM ε σ α) :
    wp (x >>= f) post fail s ↔ wp x (fun b => wp (f b) post fail) fail s := by
  change wp (EStateM.bind x f) post fail s ↔ _
  simp only [wp, EStateM.bind]
  cases x s <;> rfl

@[simp] theorem wp_map (f : β → α) (x : EStateM ε σ β) :
    wp (f <$> x) post fail s ↔ wp x (fun b => post (f b)) fail s := by
  change wp (EStateM.map f x) post fail s ↔ _
  simp only [wp, EStateM.map]
  cases x s <;> rfl

theorem wp_ite (c : Prop) [Decidable c] (x y : EStateM ε σ α) :
    wp (if c then x else y) post fail s ↔
      (c → wp x post fail s) ∧ (¬ c → wp y post fail s) := by
  by_cases h : c <;> simp [h]

theorem wp_mono {post' : α → σ → Prop} {fail' : ε → σ → Prop} {x : EStateM ε σ α}
    (h : wp x post fail s) (hpost : ∀ a s', post a s' → post' a s')
    (hfail : ∀ e s', fail e s' → fail' e s') : wp x post' fail' s := by
  unfold wp at *
  cases hx : x s with
  | ok a s' => simp only [hx] at h ⊢; exact hpost a s' h
  | error e s' => simp only [hx] at h ⊢; exact hfail e s' h

/-- A result that was returned satisfies the postcondition. -/
theorem wp_ok {x : EStateM ε σ α} {a : α} {s' : σ} (h : wp x post fail s)
    (hx : x s = .ok a s') : post a s' := by
  simpa only [wp, hx] using h

theorem wp_error {x : EStateM ε σ α} {e : ε} {s' : σ} (h : wp x post fail s)
    (hx : x s = .error e s') : fail e s' := by
  simpa only [wp, hx] using h

/-- Returning one value in one state, as a precondition. -/
theorem eq_ok_iff_wp {x : EStateM ε σ α} {a : α} {s' : σ} :
    x s = .ok a s' ↔ wp x (fun b t => b = a ∧ t = s') (fun _ _ => False) s := by
  unfold wp
  cases x s <;> simp

theorem wp_and {post' : α → σ → Prop} {fail' : ε → σ → Prop} {x : EStateM ε σ α}
    (h : wp x post fail s) (h' : wp x post' fail' s) :
    wp x (fun a s' => post a s' ∧ post' a s') (fun e s' => fail e s' ∧ fail' e s') s := by
  unfold wp at *
  cases hx : x s with
  | ok a s' => simp only [hx] at h h' ⊢; exact ⟨h, h'⟩
  | error e s' => simp only [hx] at h h' ⊢; exact ⟨h, h'⟩

/-- Whether the run returns, with what `p` asks for. -/
def returns (x : EStateM ε σ α) (p : α → σ → Bool) (s : σ) : Bool :=
  match x s with
  | .ok a s' => p a s'
  | .error _ _ => false

theorem exists_of_returns {x : EStateM ε σ α} {p : α → σ → Bool} (h : returns x p s = true) :
    ∃ a s', x s = .ok a s' ∧ p a s' = true := by
  unfold returns at h
  cases hx : x s with
  | ok a s' => exact ⟨a, s', rfl, by rw [hx] at h; exact h⟩
  | error e s' =>
    rw [hx] at h
    cases h

/-! Programs whose results may be errors of their own, next to the errors that stop them. -/

variable {δ : Type u} {post : Except δ α → σ → Prop}

/-- The rule of `?`: an error ends the program, with the state it was met in. -/
theorem wp_run_bind {x : ExceptT δ (EStateM ε σ) β} {f : β → ExceptT δ (EStateM ε σ) α} :
    wp (x >>= f).run post fail s ↔
      wp x.run (fun result s' => match result with
        | .ok b => wp (f b).run post fail s'
        | .error e => post (.error e) s') fail s := by
  rw [ExceptT.run_bind, wp_bind]
  constructor <;> intro h <;> apply wp_mono h
  · rintro (e | b) s' hs
    · exact hs
    · exact hs
  · exact fun _ _ hs => hs
  · rintro (e | b) s' hs
    · exact hs
    · exact hs
  · exact fun _ _ hs => hs

theorem wp_run_pure {a : α} : wp (pure a : ExceptT δ (EStateM ε σ) α).run post fail s ↔
    post (.ok a) s := Iff.rfl

theorem wp_run_throw {e : δ} : wp (throw e : ExceptT δ (EStateM ε σ) α).run post fail s ↔
    post (.error e) s := Iff.rfl

theorem wp_run_mk {x : EStateM ε σ (Except δ α)} :
    wp (ExceptT.mk x).run post fail s ↔ wp x post fail s := Iff.rfl

theorem wp_run_lift {x : EStateM ε σ α} : wp (ExceptT.lift x : ExceptT δ (EStateM ε σ) α).run post fail s ↔
    wp x (fun a => post (.ok a)) fail s := by
  rw [ExceptT.run_lift, wp_map]

end Rules

end Credman.Library
