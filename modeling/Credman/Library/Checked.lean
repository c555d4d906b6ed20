import Mathlib.Data.List.Basic
import Mathlib.Data.List.Pairwise
import Mathlib.Tactic.Common

/-! Validation code in `Except`: when a chain of checks succeeds, and when a fold
that checks each entry against what it has collected so far does. -/
namespace Credman.Library.Checked

universe u v w

variable {ε : Type u} {α β σ : Type v}

@[simp] theorem bind_eq_ok {x : Except ε α} {f : α → Except ε β} {b : β} :
    x >>= f = .ok b ↔ ∃ a, x = .ok a ∧ f a = .ok b := by
  cases x <;> simp [bind, Except.bind]

/-- A check returns nothing but its success. -/
theorem bind_eq_error {x : Except ε α} {f : α → Except ε β} {e : ε} :
    x >>= f = .error e ↔ x = .error e ∨ ∃ a, x = .ok a ∧ f a = .error e := by
  cases x <;> simp [bind, Except.bind]

@[simp] theorem exists_unit_eq_ok {x : Except ε PUnit} {p : Prop} :
    (∃ u, x = .ok u ∧ p) ↔ x = .ok ⟨⟩ ∧ p :=
  ⟨fun ⟨_, h⟩ => h, fun h => ⟨_, h⟩⟩

@[simp] theorem map_eq_ok {x : Except ε α} {f : α → β} {b : β} :
    f <$> x = .ok b ↔ ∃ a, x = .ok a ∧ f a = b := by
  cases x <;> simp [Functor.map, Except.map]

@[simp] theorem pure_eq_ok {a b : α} : (pure a : Except ε α) = .ok b ↔ a = b := by
  simp [pure, Except.pure]

theorem pure_eq_error {a : α} {e : ε} : (pure a : Except ε α) = .error e ↔ False := by
  simp [pure, Except.pure]

@[simp] theorem throw_eq_ok {e : ε} {b : α} : (throw e : Except ε α) = .ok b ↔ False := by
  simp [throw, throwThe, MonadExceptOf.throw]

/-- A guard that fails before the rest runs. -/
@[simp] theorem guard_eq_ok {c : Prop} [Decidable c] {e : ε} {rest : Except ε β} {b : β} :
    (if c then .error e else rest) = .ok b ↔ ¬ c ∧ rest = .ok b := by
  by_cases h : c <;> simp [h]

theorem forM_eq_ok {f : α → Except ε PUnit} {l : List α} :
    l.forM f = .ok ⟨⟩ ↔ ∀ a ∈ l, f a = .ok ⟨⟩ := by
  rw [List.forM_eq_forM]
  induction l with
  | nil => simp
  | cons a l ih =>
    rw [List.forM_cons, bind_eq_ok]
    simp only [List.mem_cons, forall_eq_or_imp, ← ih]
    exact ⟨fun ⟨_, ha, hl⟩ => ⟨ha, hl⟩, fun ⟨ha, hl⟩ => ⟨_, ha, hl⟩⟩

/-- The computation can fail in one way only. -/
def FailsWith (e : ε) (x : Except ε α) : Prop := ∀ e', x = .error e' → e' = e

theorem FailsWith.bind {e : ε} {x : Except ε α} {f : α → Except ε β} (hx : FailsWith e x)
    (hf : ∀ a, FailsWith e (f a)) : FailsWith e (x >>= f) := by
  intro e' h
  rcases bind_eq_error.mp h with h | ⟨a, -, h⟩
  · exact hx e' h
  · exact hf a e' h

theorem failsWith_pure {e : ε} (a : α) : FailsWith e (pure a : Except ε α) :=
  fun _ h => absurd h (by rw [pure_eq_error]; exact id)

theorem FailsWith.ite {e : ε} {c : Prop} [Decidable c] {x y : Except ε α} (hx : FailsWith e x)
    (hy : FailsWith e y) : FailsWith e (if c then x else y) := by
  split_ifs
  · exact hx
  · exact hy

theorem failsWith_foldlM {e : ε} {f : σ → α → Except ε σ} (h : ∀ s a, FailsWith e (f s a)) :
    ∀ (l : List α) (s : σ), FailsWith e (l.foldlM f s) := by
  intro l
  induction l with
  | nil => exact fun s => failsWith_pure s
  | cons a l ih =>
    intro s
    rw [List.foldlM_cons]
    exact (h s a).bind ih

theorem failsWith_forM {e : ε} {f : α → Except ε PUnit} (h : ∀ a, FailsWith e (f a)) (l : List α) :
    FailsWith e (l.forM f) := by
  induction l with
  | nil => exact failsWith_pure _
  | cons a l ih => exact (h a).bind fun _ => ih

/-! A fold over `whole`, where `D pre s` says what the state `s` records of the
entries `pre` already passed. -/

section Scan

variable {f : σ → α → Except ε σ} (D : List α → σ → Prop) {whole : List α}

theorem foldlM_describes
    (hD : ∀ pre a post s s', whole = pre ++ a :: post → D pre s → f s a = .ok s' →
      D (pre ++ [a]) s') :
    ∀ post pre s s', whole = pre ++ post → D pre s → post.foldlM f s = .ok s' → D whole s' := by
  intro post
  induction post with
  | nil =>
    rintro pre s s' hwhole hs hfold
    rw [List.foldlM_nil, pure_eq_ok] at hfold
    rw [← hfold, hwhole, List.append_nil]
    exact hs
  | cons a post ih =>
    rintro pre s s' hwhole hs hfold
    rw [List.foldlM_cons, bind_eq_ok] at hfold
    obtain ⟨mid, hstep, hrest⟩ := hfold
    exact ih (pre ++ [a]) mid s' (by simp [hwhole]) (hD pre a post s mid hwhole hs hstep) hrest

variable {valid : α → Prop} {compat : α → α → Prop}

/-- The fold succeeds exactly when every entry is valid and compatible with all
the entries before it. -/
theorem foldlM_ok_iff
    (hf : ∀ pre a post s, whole = pre ++ a :: post → D pre s →
      ((∃ s', f s a = .ok s') ↔ valid a ∧ ∀ b ∈ pre, compat b a))
    (hD : ∀ pre a post s s', whole = pre ++ a :: post → D pre s → f s a = .ok s' →
      D (pre ++ [a]) s') :
    ∀ post pre s, whole = pre ++ post → D pre s →
      ((∃ s', post.foldlM f s = .ok s') ↔
        (∀ a ∈ post, valid a ∧ ∀ b ∈ pre, compat b a) ∧ post.Pairwise compat) := by
  intro post
  induction post with
  | nil =>
    intro pre s _ _
    simp
  | cons a post ih =>
    intro pre s hwhole hs
    have hnext : whole = (pre ++ [a]) ++ post := by simp [hwhole]
    have ha := hf pre a post s hwhole hs
    simp only [List.foldlM_cons, bind_eq_ok, List.mem_cons, forall_eq_or_imp,
      List.pairwise_cons]
    constructor
    · rintro ⟨s', mid, hstep, hrest⟩
      have hmid := hD pre a post s mid hwhole hs hstep
      obtain ⟨hall, hpair⟩ := (ih _ mid hnext hmid).mp ⟨s', hrest⟩
      refine ⟨⟨ha.mp ⟨mid, hstep⟩, ?_⟩, ?_, hpair⟩
      · intro c hc
        exact ⟨(hall c hc).1, fun b hb => (hall c hc).2 b (List.mem_append_left _ hb)⟩
      · intro c hc
        exact (hall c hc).2 a (by simp)
    · rintro ⟨⟨hvalid, hall⟩, hcompat, hpair⟩
      obtain ⟨mid, hstep⟩ := ha.mpr hvalid
      have hmid := hD pre a post s mid hwhole hs hstep
      obtain ⟨s', hrest⟩ := (ih _ mid hnext hmid).mpr ⟨fun c hc => ⟨(hall c hc).1, by
        intro b hb
        rcases List.mem_append.mp hb with hb | hb
        · exact (hall c hc).2 b hb
        · rw [List.mem_singleton.mp hb]
          exact hcompat c hc⟩, hpair⟩
      exact ⟨s', mid, hstep, hrest⟩

end Scan

end Credman.Library.Checked
