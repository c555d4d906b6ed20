import Credman.Library.Crash

/-! Programs that keep an invariant of their state, whether they return or stop. -/
namespace Credman.Library

universe u

variable {ε σ α β : Type u}

def Preserves (I : σ → Prop) (x : EStateM ε σ α) : Prop := ∀ s, I s → wp x (fun _ => I) (fun _ => I) s

namespace Preserves

variable {I : σ → Prop}

theorem pure (a : α) : Preserves I (Pure.pure a : EStateM ε σ α) := fun _ h => h

theorem bind {x : EStateM ε σ α} {f : α → EStateM ε σ β} (hx : Preserves I x)
    (hf : ∀ a, Preserves I (f a)) : Preserves I (x >>= f) := by
  intro s h
  rw [wp_bind]
  exact wp_mono (hx s h) (fun a s' h' => hf a s' h') fun _ _ h' => h'

theorem modify {f : σ → σ} (h : ∀ s, I s → I (f s)) : Preserves I (modify f : EStateM ε σ PUnit) := h

theorem get : Preserves I (MonadState.get : EStateM ε σ σ) := fun _ h => h

theorem ite {c : Prop} [Decidable c] {x y : EStateM ε σ α} (hx : Preserves I x) (hy : Preserves I y) :
    Preserves I (if c then x else y) := by
  split_ifs
  · exact hx
  · exact hy

/-! Programs whose results may be errors of their own. -/

section Run

variable {δ : Type u}

theorem run_bind {x : ExceptT δ (EStateM ε σ) α} {f : α → ExceptT δ (EStateM ε σ) β}
    (hx : Preserves I x.run) (hf : ∀ a, Preserves I (f a).run) : Preserves I (x >>= f).run := by
  rw [ExceptT.run_bind]
  refine hx.bind fun result => ?_
  cases result with
  | error e => exact pure _
  | ok a => exact hf a

theorem run_lift {x : EStateM ε σ α} (hx : Preserves I x) :
    Preserves I (ExceptT.lift x : ExceptT δ (EStateM ε σ) α).run := by
  rw [ExceptT.run_lift, map_eq_pure_bind]
  exact hx.bind fun a => pure _

end Run

/-! Programs over a directory. -/

section Files

variable {Name γ : Type} {I : Machine Name γ → Prop}

theorem read {name : Name} (h : ∀ m faults, I m → I { m with faults }) : Preserves I (FileM.read name) :=
  fun m hm => FileM.wp_read (fun faults => h m faults hm) (fun faults => h m faults hm) fun faults => h m faults hm

theorem does {x : FileM Name γ Bool} {partly wholly : Dir Name → Dir Name → Prop}
    (hx : FileM.Does x partly wholly)
    (h : ∀ m faults dir, I m → partly m.dir dir → I { m with faults, dir }) : Preserves I x := by
  have hleft : ∀ m m' : Machine Name γ, I m → m'.rest = m.rest → partly m.dir m'.dir → I m' := by
    rintro m ⟨dir, faults, rest⟩ hm rfl hpartly
    exact h m faults dir hm hpartly
  intro m hm
  refine wp_mono (hx m) ?_ ?_
  · rintro ok m' ⟨hrest, hpartly, -⟩
    exact hleft m m' hm hrest hpartly
  · rintro e m' ⟨hrest, hpartly⟩
    exact hleft m m' hm hrest hpartly

end Files

end Preserves

end Credman.Library
