import Credman.Reconciliation
import Credman.Library.Guarded

/-! The format of a gate file, between its two writers and its reader. Here the reader is taken with
its machine integers: a sum that does not fit a `usize`, or a slice past the end, panics. -/
namespace Credman

open Library Library.Checked Library.Guarded Library.FileM

/-- The widths of `usize` for which the limits of the source are constants of it. -/
inductive PointerWidth where
  | bits32 | bits64
  deriving DecidableEq, Repr

namespace PointerWidth

def usizeMax : PointerWidth → Nat
  | bits32 => 2 ^ 32 - 1
  | bits64 => 2 ^ 64 - 1

variable (width : PointerWidth)

def fits (n : Nat) : Option Nat := if n ≤ width.usizeMax then some n else none

/-- `checked_add` and `checked_mul`. -/
def checkedAdd (a b : Nat) : Option Nat := width.fits (a + b)
def checkedMul (a b : Nat) : Option Nat := width.fits (a * b)

/-- An addition that nothing checks. -/
def add (a b : Nat) : Guarded Error Nat :=
  match width.fits (a + b) with
  | some n => .ok n
  | none => .error .panic

end PointerWidth

/-- `&bytes[start..stop]` -/
def slice (bytes : Bytes) (start stop : Nat) : Guarded Error Bytes :=
  if start ≤ stop ∧ stop ≤ bytes.length then .ok ((bytes.drop start).take (stop - start))
  else .error .panic

section Reader

variable (width : PointerWidth)

/-- A big-endian `u64` as a `usize`. -/
def sizeField (bytes : Bytes) (start : Nat) : Guarded Error Nat := do
  let field ← slice bytes start (start + 8)
  of (orElse (width.fits (Word.ofBeBytes field)) .recoveryRequired)

/-- `read_gate` on what the file holds. -/
def readGateGuarded (file : Bytes) : Guarded Error (Bytes × Bytes) := do
  let limit ← of (orElse ((width.checkedMul maxImage 2).bind fun n => width.checkedAdd n 24) .recoveryRequired)
  let bound ← width.add limit 1
  let bytes := file.take bound
  of (failIf (bytes.length < 24 ∨ limit < bytes.length) .recoveryRequired)
  let found ← slice bytes 0 8
  of (failIf (found ≠ intentMagic) .recoveryRequired)
  let oldLen ← sizeField width bytes 8
  let newLen ← sizeField width bytes 16
  of (failIf (maxImage < oldLen ∨ maxImage < newLen ∨ newLen = 0
    ∨ ((width.checkedAdd oldLen newLen).bind fun n => width.checkedAdd n 24) ≠ some bytes.length)
    .recoveryRequired)
  let middle ← width.add 24 oldLen
  let previous ← slice bytes 24 middle
  let middle ← width.add 24 oldLen
  let next ← slice bytes middle bytes.length
  pure (previous, next)

/-! The reader never panics. -/

theorem PointerWidth.fits_eq {n : Nat} (h : n ≤ gateLimit + 1) : width.fits n = some n := by
  have hmax : gateLimit + 1 ≤ width.usizeMax := by
    cases width
    · decide
    · decide
  exact if_pos (h.trans hmax)

theorem PointerWidth.fits_cases (n : Nat) : width.fits n = some n ∨ width.fits n = none ∧ maxImage < n := by
  have hmax : maxImage ≤ width.usizeMax := by
    cases width
    · decide
    · decide
  unfold fits
  split_ifs with hfits
  · exact .inl rfl
  · exact .inr ⟨rfl, by omega⟩

variable {α : Type} {bytes : Bytes} {start stop : Nat}

theorem of_failIf_bind {c : Prop} [Decidable c] {e : Error} (f : Unit → Guarded Error α) :
    (of (failIf c e) >>= f) = if c then .error (.error e) else f () := by
  unfold failIf
  split_ifs
  · rfl
  · rfl

theorem slice_bind (h : start ≤ stop ∧ stop ≤ bytes.length) (f : Bytes → Guarded Error α) :
    (slice bytes start stop >>= f) = f ((bytes.drop start).take (stop - start)) := by
  unfold slice
  rw [if_pos h]
  rfl

theorem sizeField_bind (h : start + 8 ≤ bytes.length) (f : Nat → Guarded Error α) :
    (sizeField width bytes start >>= f)
      = match width.fits (Word.ofBeBytes ((bytes.drop start).take 8)) with
        | some n => f n
        | none => .error (.error .recoveryRequired) := by
  unfold sizeField
  rw [slice_bind ⟨Nat.le_add_right _ _, h⟩, Nat.add_sub_cancel_left]
  cases width.fits (Word.ofBeBytes ((bytes.drop start).take 8)) with
  | none => rfl
  | some n => rfl

theorem add_bind {a b : Nat} (h : a + b ≤ gateLimit + 1) (f : Nat → Guarded Error α) :
    (width.add a b >>= f) = f (a + b) := by
  unfold PointerWidth.add
  rw [width.fits_eq h]
  rfl

/-- The checked sum does not overflow where both parts are as small as they have to be. -/
theorem lengths_iff (oldLen newLen len : Nat) :
    (maxImage < oldLen ∨ maxImage < newLen ∨ newLen = 0
      ∨ ((width.checkedAdd oldLen newLen).bind fun n => width.checkedAdd n 24) ≠ some len)
    ↔ maxImage < oldLen ∨ maxImage < newLen ∨ newLen = 0 ∨ oldLen + newLen + 24 ≠ len := by
  by_cases hsmall : maxImage < oldLen ∨ maxImage < newLen
  · tauto
  · rw [not_or, not_lt, not_lt] at hsmall
    have hsum : ((width.checkedAdd oldLen newLen).bind fun n => width.checkedAdd n 24)
        = some (oldLen + newLen + 24) := by
      unfold PointerWidth.checkedAdd
      rw [width.fits_eq (by unfold gateLimit; omega), Option.bind_some,
        width.fits_eq (by unfold gateLimit; omega)]
    rw [hsum, ne_eq, Option.some.injEq]

/-- It reads what it would read with unbounded integers. -/
theorem readGateGuarded_eq (file : Bytes) : readGateGuarded width file = of (parseGate file) := by
  have hlimit : of (orElse ((width.checkedMul maxImage 2).bind fun n => width.checkedAdd n 24)
      Error.recoveryRequired) = .ok gateLimit := by
    unfold PointerWidth.checkedMul PointerWidth.checkedAdd
    rw [width.fits_eq (by decide), Option.bind_some, width.fits_eq (by decide)]
    rfl
  unfold readGateGuarded
  rw [hlimit, ok_bind, add_bind width (le_refl _)]
  dsimp only
  rw [of_failIf_bind]
  unfold parseGate
  dsimp only
  by_cases hsize : file.length < 24 ∨ gateLimit < file.length
  · have htaken : (file.take (gateLimit + 1)).length < 24
        ∨ gateLimit < (file.take (gateLimit + 1)).length := by
      rw [List.length_take]
      omega
    rw [if_pos htaken, if_pos (by tauto)]
    rfl
  · have hwhole : file.take (gateLimit + 1) = file := List.take_of_length_le (by omega)
    rw [hwhole, if_neg hsize, slice_bind ⟨by omega, by omega⟩, of_failIf_bind, List.drop_zero]
    by_cases hmagic : file.take 8 = intentMagic
    · rw [if_neg (not_not.mpr hmagic), sizeField_bind width (by omega), if_neg (by tauto)]
      generalize Word.ofBeBytes ((file.drop 8).take 8) = oldLen
      rcases width.fits_cases oldLen with hold | ⟨hold, hlong⟩
      · rw [hold]
        dsimp only
        rw [sizeField_bind width (by omega)]
        generalize Word.ofBeBytes ((file.drop 16).take 8) = newLen
        rcases width.fits_cases newLen with hnew | ⟨hnew, hlong⟩
        · rw [hnew]
          dsimp only
          rw [of_failIf_bind]
          have hlengths := lengths_iff width oldLen newLen file.length
          by_cases hcount : maxImage < oldLen ∨ maxImage < newLen ∨ newLen = 0
              ∨ oldLen + newLen + 24 ≠ file.length
          · rw [if_pos (hlengths.mpr hcount), if_pos hcount]
            rfl
          · rw [if_neg (mt hlengths.mp hcount), if_neg hcount]
            push Not at hcount
            obtain ⟨hold', hnew', -, htotal⟩ := hcount
            rw [add_bind width (by unfold gateLimit; omega), slice_bind ⟨by omega, by omega⟩,
              add_bind width (by unfold gateLimit; omega), slice_bind ⟨by omega, le_refl _⟩]
            have hprevious : 24 + oldLen - 24 = oldLen := by omega
            have hnext : ((file.drop (24 + oldLen)).take (file.length - (24 + oldLen)))
                = (file.drop 24).drop oldLen := by
              rw [List.drop_drop, List.take_of_length_le (by rw [List.length_drop])]
            rw [hprevious, hnext]
            rfl
        · rw [hnew, if_pos (.inr (.inl hlong))]
          rfl
      · rw [hold, if_pos (.inl hlong)]
        rfl
    · rw [if_pos hmagic, if_pos (.inr (.inr hmagic))]
      rfl

theorem readGateGuarded_eq_ok {file previous next : Bytes} :
    readGateGuarded width file = .ok (previous, next) ↔ file = gateBytes previous next
      ∧ previous.length ≤ maxImage ∧ next.length ≤ maxImage ∧ next ≠ [] := by
  rw [readGateGuarded_eq, of_eq_ok, parseGate_eq_ok]

/-- What is not read is refused, always in the same way. -/
theorem readGateGuarded_refused {file : Bytes}
    (h : ∀ previous next, readGateGuarded width file ≠ .ok (previous, next)) :
    readGateGuarded width file = .error (.error .recoveryRequired) := by
  simp only [readGateGuarded_eq, ne_eq, of_eq_ok] at h ⊢
  unfold parseGate at h ⊢
  dsimp only at h ⊢
  split_ifs at h ⊢
  · rfl
  · rfl
  · exact absurd rfl (h _ _)

end Reader

/-! What the writers leave. -/

theorem writeIntent_leaves {previous image : Bytes} {m m' : VaultMachine}
    (h : writeIntent previous image m = .ok true m') :
    m'.dir .pending = some (gateBytes previous image) := by
  obtain ⟨-, -, hwhole⟩ := wp_ok (does_writeIntent previous image m) h
  rw [(hwhole rfl).2, Function.update_self]

theorem writePair_leaves {P : Platform} {target : FileName} {old next : Bytes} {m m' : VaultMachine}
    (h : (writePair P target old next).run m = .ok (.ok ()) m') :
    m'.dir target = some (gateBytes old next) := by
  have hwp : wp (writePair P target old next).run
      (fun result m' => result = .ok () → m'.dir target = some (gateBytes old next)) (fun _ _ => True) m := by
    rw [writePair, wp_run_bind, wp_run_drawIndex]
    dsimp only
    generalize FileName.recoveryPlan (P.uuid m.rest.drawn) = temp
    rw [wp_run_bind]
    apply wp_run_demand (does_writeNew temp (gateBytes old next))
    · exact fun _ _ _ h => by cases h
    · rintro faults dir ⟨hnone, rfl⟩
      dsimp only
      rw [wp_run_bind]
      apply wp_run_demand Does.rename
      · exact fun _ _ _ h => by cases h
      · intro faults dir hrenamed
        unfold renamed at hrenamed
        split_ifs at hrenamed with hfree
        cases hrenamed
        dsimp only
        apply wp_run_demand Does.sync
        · exact fun _ _ _ h => by cases h
        · rintro faults _ rfl -
          have hne : target ≠ temp := by
            rintro rfl
            simp at hfree
          dsimp only
          rw [Function.update_of_ne hne, Function.update_self, Function.update_self]
        · exact fun _ _ _ => trivial
      · exact fun _ _ _ => trivial
    · exact fun _ _ _ => trivial
  exact wp_ok hwp h rfl

/-! The format. -/

/-- Two lengths that do not add up to what follows them are refused, however large they are. -/
theorem gateBytes_lengths {a b : UInt64} {rest previous next : Bytes}
    (hprevious : previous.length ≤ maxImage) (hnext : next.length ≤ maxImage)
    (h : intentMagic ++ Word.beBytes 8 a.toNat ++ Word.beBytes 8 b.toNat ++ rest = gateBytes previous next) :
    a.toNat = previous.length ∧ b.toNat = next.length ∧ rest = previous ++ next := by
  have hword : ∀ n : UInt64, Word.ofBeBytes (Word.beBytes 8 n.toNat) = n.toNat := by
    intro n
    apply Word.ofBeBytes_beBytes_of_lt
    have hlt := n.toNat_lt
    omega
  unfold gateBytes at h
  rw [List.append_assoc (intentMagic ++ _ ++ _) previous] at h
  obtain ⟨hheader, hrest⟩ := List.append_inj h (by simp [Word.length_beBytes])
  obtain ⟨hfirst, hsecond⟩ := List.append_inj hheader (by simp [Word.length_beBytes])
  have hlen := congrArg Word.ofBeBytes ((List.append_inj hfirst rfl).2)
  have hlen' := congrArg Word.ofBeBytes hsecond
  rw [hword, ofBeBytes_length hprevious] at hlen
  rw [hword, ofBeBytes_length hnext] at hlen'
  exact ⟨hlen, hlen', hrest⟩

/-- The images that a gate can hold. -/
structure Imaged (previous next : Bytes) : Prop where
  previous_le : previous.length ≤ maxImage
  next_le : next.length ≤ maxImage
  next_ne : next ≠ []

/-- Both writers leave a file that is read back as their pair; and nothing is read that is not, to the
last byte, the encoding of one pair. -/
theorem gate_format_exact (width : PointerWidth) :
    (∀ (previous : Option Bytes) (image : Bytes) (m m' : VaultMachine), Imaged (previous.getD []) image →
      writeIntent (previous.getD []) image m = .ok true m' → ∃ file, m'.dir .pending = some file
        ∧ readGateGuarded width file = .ok (previous.getD [], image))
    ∧ (∀ (P : Platform) (target : FileName) (old next : Bytes) (m m' : VaultMachine), Imaged old next →
      (writePair P target old next).run m = .ok (.ok ()) m' → ∃ file, m'.dir target = some file
        ∧ readGateGuarded width file = .ok (old, next))
    ∧ (∀ file old next, readGateGuarded width file = .ok (old, next) →
      file = gateBytes old next ∧ Imaged old next)
    ∧ (∀ old next, Imaged old next →
      (∀ n < (gateBytes old next).length,
        readGateGuarded width ((gateBytes old next).take n) = .error (.error .recoveryRequired))
      ∧ ∀ extra ≠ [], readGateGuarded width (gateBytes old next ++ extra) = .error (.error .recoveryRequired))
    ∧ (∀ (a b : UInt64) (rest : Bytes), a.toNat + b.toNat ≠ rest.length →
      readGateGuarded width (intentMagic ++ Word.beBytes 8 a.toNat ++ Word.beBytes 8 b.toNat ++ rest)
        = .error (.error .recoveryRequired))
    ∧ ∀ file, readGateGuarded width file ≠ .error .panic := by
  have hread : ∀ old next, Imaged old next → readGateGuarded width (gateBytes old next) = .ok (old, next) :=
    fun old next h => (readGateGuarded_eq_ok width).mpr ⟨rfl, h.previous_le, h.next_le, h.next_ne⟩
  refine ⟨fun previous image m m' h hwrite => ?_, fun P target old next m m' h hwrite => ?_,
    fun file old next h => ?_, fun old next h => ⟨fun n hn => ?_, fun extra hextra => ?_⟩,
    fun a b rest hlengths => ?_, fun file hpanic => ?_⟩
  · exact ⟨_, writeIntent_leaves hwrite, hread _ _ h⟩
  · exact ⟨_, writePair_leaves hwrite, hread _ _ h⟩
  · obtain ⟨heq, hold, hnext, hne⟩ := (readGateGuarded_eq_ok width).mp h
    exact ⟨heq, hold, hnext, hne⟩
  · apply readGateGuarded_refused
    intro previous' next' hok
    rw [readGateGuarded_eq, of_eq_ok] at hok
    have hwhole := congrArg List.length (parseGate_take h.previous_le h.next_le hok).1
    rw [List.length_take] at hwhole
    omega
  · apply readGateGuarded_refused
    intro previous' next' hok
    obtain ⟨heq, hprevious', hnext', -⟩ := (readGateGuarded_eq_ok width).mp hok
    have hcut : (gateBytes previous' next').take (gateBytes old next).length = gateBytes old next := by
      rw [← heq, List.take_left]
    have hparsed := hread old next h
    rw [readGateGuarded_eq, of_eq_ok, ← hcut] at hparsed
    have hwhole := (parseGate_take hprevious' hnext' hparsed).1
    rw [hcut, ← heq, List.self_eq_append_right] at hwhole
    exact hextra hwhole
  · apply readGateGuarded_refused
    intro previous' next' hok
    obtain ⟨heq, hprevious', hnext', -⟩ := (readGateGuarded_eq_ok width).mp hok
    obtain ⟨ha, hb, hrest⟩ := gateBytes_lengths hprevious' hnext' heq
    rw [ha, hb, hrest, List.length_append] at hlengths
    exact hlengths rfl
  · rw [readGateGuarded_eq, of_ne_panic] at hpanic
    exact hpanic

/-- The smallest gate, one byte short and one byte long. -/
theorem gate_format_exact_smallest :
    readGateGuarded .bits64 ((gateBytes [] [7]).take 24) = .error (.error .recoveryRequired)
      ∧ readGateGuarded .bits64 (gateBytes [] [7] ++ [0]) = .error (.error .recoveryRequired) := by
  have himaged : Imaged [] [7] := ⟨by decide, by decide, by decide⟩
  obtain ⟨-, -, -, hrefused, -⟩ := gate_format_exact .bits64
  exact ⟨(hrefused _ _ himaged).1 24 (by rw [length_gateBytes]; decide), (hrefused _ _ himaged).2 [0] (by decide)⟩

end Credman
