import Credman.Sealing
import Credman.Publication

/-! Gate files: what one holds, and that a torn one is never read. -/
namespace Credman

open Library Library.Checked Library.FileM

theorem length_intentMagic : intentMagic.length = 8 := by decide +kernel

theorem length_gateBytes (previous next : Bytes) :
    (gateBytes previous next).length = previous.length + next.length + 24 := by
  simp [gateBytes, length_intentMagic]
  omega

/-- The parts of a gate are found where they were put. -/
theorem gateBytes_parts (previous next : Bytes) :
    (gateBytes previous next).take 8 = intentMagic
    ∧ ((gateBytes previous next).drop 8).take 8 = Word.beBytes 8 previous.length
    ∧ ((gateBytes previous next).drop 16).take 8 = Word.beBytes 8 next.length
    ∧ (gateBytes previous next).drop 24 = previous ++ next := by
  have hmagic : ∀ k, 8 ≤ k → intentMagic.drop k = [] := fun k hk =>
    List.drop_eq_nil_of_le (by rw [length_intentMagic]; omega)
  have hword : ∀ n k, 8 ≤ k → (Word.beBytes 8 n).drop k = [] := fun n k hk =>
    List.drop_eq_nil_of_le (by rw [Word.length_beBytes]; omega)
  refine ⟨?_, ?_, ?_, ?_⟩
  · simp [gateBytes, length_intentMagic]
  · simp [gateBytes, length_intentMagic]
  · simp [gateBytes, length_intentMagic, List.drop_append, hmagic]
  · simp [gateBytes, length_intentMagic, List.drop_append, hmagic, hword]

theorem ofBeBytes_length {bytes : Bytes} (h : bytes.length ≤ maxImage) :
    Word.ofBeBytes (Word.beBytes 8 bytes.length) = bytes.length := by
  apply Word.ofBeBytes_beBytes_of_lt
  unfold maxImage at h
  omega

/-- A gate is read exactly when it is whole. -/
theorem parseGate_eq_ok {bytes previous next : Bytes} :
    parseGate bytes = .ok (previous, next) ↔ bytes = gateBytes previous next
      ∧ previous.length ≤ maxImage ∧ next.length ≤ maxImage ∧ next ≠ [] := by
  constructor
  · intro h
    unfold parseGate at h
    simp only [guard_eq_ok, Except.ok.injEq, Prod.mk.injEq] at h
    obtain ⟨hsize, hcount, hprevious, hnext⟩ := h
    push Not at hsize hcount
    obtain ⟨hmin, -, hmagic⟩ := hsize
    obtain ⟨hold, hnew, hpos, htotal⟩ := hcount
    have hrest : (bytes.drop 24).length = bytes.length - 24 := List.length_drop
    have hlp : previous.length = Word.ofBeBytes ((bytes.drop 8).take 8) := by
      rw [← hprevious, List.length_take]
      omega
    have hln : next.length = Word.ofBeBytes ((bytes.drop 16).take 8) := by
      rw [← hnext, List.length_drop]
      omega
    have hword : ∀ k, k + 8 ≤ bytes.length →
        Word.beBytes 8 (Word.ofBeBytes ((bytes.drop k).take 8)) = (bytes.drop k).take 8 := by
      intro k hk
      have hlen : ((bytes.drop k).take 8).length = 8 := by
        rw [List.length_take, List.length_drop]
        omega
      have hback := Word.beBytes_ofBeBytes ((bytes.drop k).take 8)
      rwa [hlen] at hback
    refine ⟨?_, by omega, by omega, ?_⟩
    · rw [gateBytes, hlp, hln, hword 8 (by omega), hword 16 (by omega), ← hmagic, List.append_assoc,
        ← hprevious, ← hnext, List.take_append_drop, ← List.take_add, ← List.take_add,
        List.take_append_drop]
    · intro hempty
      rw [hempty] at hln
      exact hpos hln.symm
  · rintro ⟨rfl, hprevious, hnext, hne⟩
    obtain ⟨hmagic, hold, hnew, hrest⟩ := gateBytes_parts previous next
    have hlength := length_gateBytes previous next
    have hpos := List.length_pos_of_ne_nil hne
    unfold parseGate
    rw [hmagic, hold, hnew, hrest, ofBeBytes_length hprevious, ofBeBytes_length hnext]
    unfold gateLimit
    rw [if_neg (by simp; omega), if_neg (by omega), List.take_left, List.drop_left]

/-- A torn gate is not read, unless it is whole. -/
theorem parseGate_take {previous next previous' next' : Bytes} {n : Nat}
    (hprevious : previous.length ≤ maxImage) (hnext : next.length ≤ maxImage)
    (h : parseGate ((gateBytes previous next).take n) = .ok (previous', next')) :
    (gateBytes previous next).take n = gateBytes previous next
      ∧ previous' = previous ∧ next' = next := by
  obtain ⟨heq, hprevious', hnext', -⟩ := parseGate_eq_ok.mp h
  have hwhole : gateBytes previous next
      = gateBytes previous' next' ++ (gateBytes previous next).drop n := by
    rw [← heq, List.take_append_drop]
  obtain ⟨-, hold, hnew, hrest⟩ := gateBytes_parts previous next
  obtain ⟨-, hold', hnew', hrest'⟩ := gateBytes_parts previous' next'
  have hlong := length_gateBytes previous' next'
  rw [hwhole, List.drop_append_of_le_length (by omega), List.take_append_of_le_length (by simp; omega),
    hold'] at hold
  rw [hwhole, List.drop_append_of_le_length (by omega), List.take_append_of_le_length (by simp; omega),
    hnew'] at hnew
  rw [hwhole, List.drop_append_of_le_length (by omega), hrest', List.append_assoc] at hrest
  have hsame := congrArg Word.ofBeBytes hold
  rw [ofBeBytes_length hprevious, ofBeBytes_length hprevious'] at hsame
  have hsame' := congrArg Word.ofBeBytes hnew
  rw [ofBeBytes_length hnext, ofBeBytes_length hnext'] at hsame'
  obtain ⟨rfl, htail⟩ := List.append_inj hrest hsame
  have hnil := congrArg List.length htail
  rw [List.length_append] at hnil
  have hdrop : (gateBytes previous' next).drop n = [] := List.eq_nil_of_length_eq_zero (by omega)
  rw [hdrop, List.append_nil] at htail
  refine ⟨?_, rfl, htail⟩
  rw [heq, htail]

end Credman
