import Credman.Lasting
import Credman.Publication

/-! What `commit` is given: the staged copy, the candidate an operation made of it, and
the two ways to keep a candidate. -/
namespace Credman

open Library Library.Checked

variable {P : Platform}

namespace DurableVault

variable {owner : DurableVault} {candidate : Application} {n : Nat}

open Application

theorem staged_shrinks (hvalid : owner.app.Valid P) (honce : owner.app.OneDelete) :
    owner.app.Shrinks owner.staged := by
  unfold staged
  split_ifs
  · exact (compacted hvalid honce).shrinks
  · exact .refl _

theorem staged_lasting (hvalid : owner.app.Valid P) (h : Lasting P n owner.app) :
    owner.staged.Valid P ∧ Lasting P n owner.staged ∧ owner.staged.lastTime = owner.app.lastTime := by
  unfold staged
  split_ifs
  · obtain ⟨hlasting, hcompact, hshrinks⟩ := h.compact hvalid
    exact ⟨hcompact, hlasting, hshrinks.lastTime⟩
  · exact ⟨hvalid, h, rfl⟩

/-- Staging publishes the candidate itself, one generation on. -/
theorem stage_some {next : Application} (h : owner.stage P candidate = .ok (some next)) :
    next = { candidate with generation := owner.app.generation + 1 } ∧ next.Valid P := by
  simp only [stage, bind_eq_ok] at h
  obtain ⟨-, -, clockOnly, -, h⟩ := h
  split_ifs at h
  · cases h
  · simp only [bind_eq_ok, pure_eq_ok, Option.some.injEq] at h
    obtain ⟨_, -, _, hvalid, rfl⟩ := h
    exact ⟨rfl, validate_eq_ok.mp hvalid⟩

/-- What a write is skipped for: the candidate is the current application at a later time. -/
structure ClockKept (P : Platform) (owner : DurableVault) (candidate : Application) : Prop where
  same : ({ owner.app with lastTime := candidate.lastTime } : Application)
    = { candidate with generation := owner.app.generation }
  valid : Application.Valid P { owner.app with lastTime := candidate.lastTime }
  not_due : due owner.store.persistedLastTime candidate.lastTime = false
  frozen : candidate.clockFrozen = owner.store.persistedFrozen

theorem stage_none (hjson : P.Json) (hvalid : owner.app.Valid P) (hdated : owner.app.Timestamped)
    (hdated' : candidate.Timestamped) (hlater : ∀ last, owner.app.lastTime = some last →
      ∃ later, candidate.lastTime = some later ∧ last ≤ later)
    (h : owner.stage P candidate = .ok none) : ClockKept P owner candidate := by
  have hhigh : laterTime owner.app.lastTime candidate.lastTime = candidate.lastTime := by
    cases hlast : owner.app.lastTime with
    | none => cases candidate.lastTime <;> rfl
    | some last =>
      obtain ⟨later, hnext, hle⟩ := hlater last hlast
      rw [hnext]
      exact congrArg some (max_eq_right hle)
  simp only [stage, bind_eq_ok, clockOnlyDifference, hhigh, pure_eq_ok] at h
  obtain ⟨_, -, clockOnly, ⟨left, hleft, right, hright, rfl⟩, h⟩ := h
  split_ifs at h with hskip
  · simp only [Bool.and_eq_true, Bool.not_eq_true', beq_iff_eq] at hskip
    obtain ⟨⟨hsame, hdue⟩, hfrozen⟩ := hskip
    subst hsame
    have hdecode := decode_encode hjson hleft
      (Timestamped.stamped ⟨hdated.requests, hdated.deliveries⟩)
    have hdecode' := decode_encode hjson hright
      (Timestamped.stamped ⟨hdated'.requests, hdated'.deliveries⟩)
    rw [hdecode, Except.ok.injEq] at hdecode'
    refine ⟨?_, ?_, hdue, hfrozen⟩
    · calc ({ owner.app with lastTime := candidate.lastTime } : Application)
          = { ({ owner.app with lastTime := candidate.lastTime, generation := 1 } : Application) with
              generation := owner.app.generation } := rfl
        _ = { candidate with generation := owner.app.generation } := by rw [hdecode']
    · refine hvalid.of_clock hvalid.generation (fun hfrozen => ?_) hlater rfl
      obtain ⟨last, hlast⟩ := Option.isSome_iff_exists.mp (hvalid.clock hfrozen)
      obtain ⟨later, hnext, -⟩ := hlater last hlast
      exact Option.isSome_iff_exists.mpr ⟨later, hnext⟩
  · simp only [bind_eq_ok, pure_eq_ok, reduceCtorEq, and_false, exists_false] at h

theorem rekeyCandidate_eq_ok {admin : AuthenticatedContext} {mnemonic : String} {salt : Salt}
    {next : Application} {key : VaultKey} :
    owner.rekeyCandidate P admin mnemonic salt = .ok (next, key) ↔ owner.ready = .ok ()
      ∧ adminScope owner.app admin = .ok () ∧ owner.app.generation ≠ maxU64 ∧ next.Valid P
      ∧ deriveKey P mnemonic salt KdfParams.current = .ok key
      ∧ ∃ previous, owner.store.currentImage = some previous ∧ next = { owner.app with
          generation := owner.app.generation + 1, predecessor := some (P.sha256 previous) } := by
  simp only [rekeyCandidate, bind_eq_ok, failIf_eq_ok, required_eq_ok, pure_eq_ok, Prod.mk.injEq,
    exists_const, beq_iff_eq]
  constructor
  · rintro ⟨_, hready, _, hscope, -, previous, hprevious, hgeneration, _, hvalid, key, hkey, rfl, rfl⟩
    exact ⟨hready, hscope, hgeneration, validate_eq_ok.mp hvalid, hkey, previous, hprevious, rfl⟩
  · rintro ⟨hready, hscope, hgeneration, hvalid, hkey, previous, hprevious, rfl⟩
    have hphrase : ¬ (!P.validMnemonic mnemonic) = true := by
      unfold deriveKey at hkey
      split_ifs at hkey with hm
      simp [hm]
    exact ⟨(), hready, (), hscope, hphrase, previous, hprevious, hgeneration, (),
      validate_eq_ok.mpr hvalid, key, hkey, rfl, rfl⟩

end DurableVault

end Credman
