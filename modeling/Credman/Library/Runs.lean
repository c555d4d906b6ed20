import Mathlib.Data.List.Basic
import Mathlib.Tactic.Common

/-! Histories of a server that answers one call after another. -/
namespace Credman.Library

universe u v w

variable {σ : Type u} {C : Type v} {R : Type w} {serve : C → σ → R × σ} {start s : σ}
  {history : List (C × R)}

/-- The calls made since `start`, each with its answer, and the state they led to. -/
inductive Ran (serve : C → σ → R × σ) (start : σ) : List (C × R) → σ → Prop
  | start : Ran serve start [] start
  | call {history : List (C × R)} {s : σ} (h : Ran serve start history s) (c : C) :
    Ran serve start (history ++ [(c, (serve c s).1)]) (serve c s).2

namespace Ran

/-- What holds at the start and is kept by every answer holds after every history. -/
theorem invariant {I : List (C × R) → σ → Prop} (hstart : I [] start)
    (hcall : ∀ history s, Ran serve start history s → I history s →
      ∀ c, I (history ++ [(c, (serve c s).1)]) (serve c s).2)
    (h : Ran serve start history s) : I history s := by
  induction h with
  | start => exact hstart
  | call h c ih => exact hcall _ _ h ih c

/-- Every call of a history was answered in the state the calls before it led to. -/
theorem answered {before since : List (C × R)} {e : C × R}
    (h : Ran serve start (before ++ e :: since) s) :
    ∃ mid, Ran serve start before mid ∧ e.2 = (serve e.1 mid).1 := by
  generalize hhistory : before ++ e :: since = history at h
  induction h generalizing since with
  | start =>
    cases before <;> cases hhistory
  | @call earlier mid h c ih =>
    rcases List.eq_nil_or_concat since with rfl | ⟨since', last, rfl⟩
    · obtain ⟨rfl, hlast⟩ := List.append_inj' hhistory rfl
      obtain rfl := List.singleton_inj.mp hlast
      exact ⟨mid, h, rfl⟩
    · rw [List.concat_eq_append, ← List.cons_append, ← List.append_assoc] at hhistory
      exact ih (List.append_inj' hhistory rfl).1

/-- The history of given calls. -/
def play (serve : C → σ → R × σ) (start : σ) (calls : List C) : List (C × R) × σ :=
  calls.foldl (fun past c => (past.1 ++ [(c, (serve c past.2).1)], (serve c past.2).2)) ([], start)

theorem of_play (calls : List C) :
    Ran serve start (play serve start calls).1 (play serve start calls).2 := by
  have hfold : ∀ (past : List (C × R) × σ), Ran serve start past.1 past.2 →
      Ran serve start
        (calls.foldl (fun past c => (past.1 ++ [(c, (serve c past.2).1)], (serve c past.2).2)) past).1
        (calls.foldl (fun past c => (past.1 ++ [(c, (serve c past.2).1)], (serve c past.2).2)) past).2 := by
    induction calls with
    | nil => exact fun _ h => h
    | cons c calls ih => exact fun past h => ih _ (h.call c)
  exact hfold ([], start) .start

end Ran

/-- Entries that `f` reads as the same value are one entry, when no value is read twice. -/
theorem eq_of_nodup_filterMap {A : Type u} {B : Type v} {f : A → Option B} {l : List A}
    (h : (l.filterMap f).Nodup) {a a' : A} {b : B} (ha : a ∈ l) (ha' : a' ∈ l)
    (hb : f a = some b) (hb' : f a' = some b) : a = a' := by
  induction l with
  | nil => cases ha
  | cons x l ih =>
    rw [List.filterMap_cons] at h
    rcases List.mem_cons.mp ha with rfl | hin
    · rw [hb] at h
      rcases List.mem_cons.mp ha' with rfl | hin'
      · rfl
      · exact absurd (List.mem_filterMap.mpr ⟨a', hin', hb'⟩) (List.nodup_cons.mp h).1
    · rcases List.mem_cons.mp ha' with rfl | hin'
      · rw [hb'] at h
        exact absurd (List.mem_filterMap.mpr ⟨a, hin, hb⟩) (List.nodup_cons.mp h).1
      · apply ih _ hin hin'
        cases hx : f x with
        | none => rwa [hx] at h
        | some y =>
          rw [hx] at h
          exact (List.nodup_cons.mp h).2

end Credman.Library
