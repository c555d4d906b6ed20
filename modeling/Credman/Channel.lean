import Credman.Framing
import Credman.Library.Wp

/-! A framed channel over a stream that may stop at any byte: whole frames go
through, and anything less ends its use. -/
namespace Credman

open Library

/-- What sending a value puts on the stream, if nothing stops it. -/
def wire (S : SerdeJson) (v : Json) : Bytes :=
  if fitsFrame S v = true then frame (S.text v) else []

theorem wire_prefix_frame (S : SerdeJson) (v : Json) : wire S v <+: frame (S.text v) := by
  unfold wire
  split
  · exact List.prefix_refl _
  · exact List.nil_prefix

namespace FramedChannel

variable {S : SerdeJson} {α : Type} {io : Io} {c : FramedChannel}
  {fail : ChannelError → FramedChannel → Prop}

theorem wp_guarded {attempt : ChannelM α} {post : α → FramedChannel → Prop} :
    wp (guarded attempt) post fail c ↔ (c.poisoned = true → fail .poisoned c)
      ∧ (c.poisoned = false →
        wp attempt post (fun e c' => fail e { c' with poisoned := true }) c) := by
  unfold wp guarded
  cases c.poisoned with
  | true => simp
  | false => cases attempt c <;> simp

theorem wp_ofResult {result : Except ChannelError α} {post : α → FramedChannel → Prop} :
    wp (MonadExcept.ofExcept result : ChannelM α) post fail c ↔
      (∀ a, result = .ok a → post a c) ∧ ∀ e, result = .error e → fail e c := by
  cases result <;> simp [MonadExcept.ofExcept]

theorem wp_writeUntil (bytes : Bytes) :
    wp (writeUntil bytes io) (fun _ c' => c' = { c with outgoing := c.outgoing ++ bytes })
      (fun _ c' => ∃ k, k < bytes.length
        ∧ c' = { c with outgoing := c.outgoing ++ bytes.take k }) c := by
  cases io with
  | clear => rfl
  | fault progress e =>
    unfold wp writeUntil
    by_cases h : bytes.length ≤ progress
    · simp only [h, if_true]
    · simp only [h, if_false]
      exact ⟨progress, not_le.mp h, rfl⟩

theorem wp_readUntil (n : Nat) :
    wp (readUntil n io)
      (fun out c' => out.1.length = n ∧ c.incoming = out.1 ++ c'.incoming
        ∧ c' = { c with incoming := c'.incoming })
      (fun _ c' => c'.incoming <:+ c.incoming ∧ c' = { c with incoming := c'.incoming }) c := by
  cases io with
  | clear =>
    unfold wp readUntil
    by_cases h : n ≤ c.incoming.length
    · simp only [h, if_true, List.take_append_drop, and_true]
      exact List.length_take_of_le h
    · simp only [h, if_false]
      exact ⟨List.nil_suffix, trivial⟩
  | fault progress e =>
    unfold wp readUntil
    by_cases h : n ≤ progress ∧ n ≤ c.incoming.length
    · simp only [h, and_self, if_true, List.take_append_drop, and_true]
      exact List.length_take_of_le h.2
    · simp only [h, if_false]
      exact ⟨List.drop_suffix _ _, trivial⟩

/-- What a send leaves when it fails: a poisoned channel and less than a frame sent, nothing at
all if it was poisoned before. -/
def Cut (S : SerdeJson) (v : Json) (c c' : FramedChannel) : Prop :=
  ∃ sent, sent <+: wire S v ∧ sent.length < (frame (S.text v)).length
    ∧ (c.poisoned = true → sent = [])
    ∧ c' = { c with poisoned := true, outgoing := c.outgoing ++ sent }

theorem Cut.nothing {v : Json} : Cut S v c { c with poisoned := true } :=
  ⟨[], List.nil_prefix, by simp [frame], fun _ => rfl, by rw [List.append_nil]⟩

theorem wp_send (v : Json) :
    wp (send S io v)
      (fun _ c' => c.poisoned = false ∧ fitsFrame S v = true
        ∧ c' = { c with outgoing := c.outgoing ++ frame (S.text v) })
      (fun _ c' => Cut S v c c') c := by
  have hwrites : (S.writes v).foldlM frameWrite []
      = if (S.text v).length ≤ maxFrameBytes then some (S.text v) else none :=
    foldlM_frameWrite (Nat.zero_le _)
  unfold send
  rw [wp_guarded]
  refine ⟨fun hpoisoned => ?_, fun hopen => ?_⟩
  · obtain ⟨poisoned, incoming, outgoing⟩ := c
    obtain rfl : poisoned = true := hpoisoned
    exact .nothing
  rw [hwrites, wp_ite]
  refine ⟨fun _ => .nothing, fun hnested => ?_⟩
  split
  case h_1 => exact .nothing
  case h_2 bytes hbytes =>
    obtain ⟨hlength, hsame⟩ := Option.ite_none_right_eq_some.mp hbytes
    obtain rfl : S.text v = bytes := Option.some.inj hsame
    have hfits : fitsFrame S v = true := by
      rw [Bool.not_eq_false, validateDepth_iff (Nat.zero_le _), Nat.zero_add] at hnested
      exact fitsFrame_iff.mpr ⟨hnested, hlength⟩
    have hwire : wire S v = frame (S.text v) := if_pos hfits
    rw [wp_ite]
    refine ⟨fun _ => .nothing, fun _ => ?_⟩
    rw [wp_bind]
    apply wp_mono (wp_writeUntil _)
    · intro _ c₁ hc₁
      subst hc₁
      rw [wp_bind]
      apply wp_mono (wp_writeUntil _)
      · intro _ c₂ hc₂
        subst hc₂
        exact ⟨hopen, hfits, by rw [List.append_assoc]; rfl⟩
      · rintro _ c₂ ⟨k, hk, rfl⟩
        refine ⟨Word.beBytes 4 (S.text v).length ++ (S.text v).take k, ?_, ?_, by simp [hopen], ?_⟩
        · rw [hwire]
          exact (List.prefix_append_right_inj _).mpr (List.take_prefix _ _)
        · simp only [frame, List.length_append, List.length_take]
          omega
        · rw [List.append_assoc]
    · rintro _ c₁ ⟨k, hk, rfl⟩
      refine ⟨(Word.beBytes 4 (S.text v).length).take k, ?_, ?_, by simp [hopen], rfl⟩
      · rw [hwire]
        exact (List.take_prefix _ _).trans (List.prefix_append _ _)
      · simp only [frame, List.length_append, List.length_take]
        omega

/-- A receive takes one whole frame off the stream, or poisons the channel. -/
theorem wp_receive :
    wp (receive S io)
      (fun v c' => c.poisoned = false ∧ ∃ bytes rest, c.incoming = frame bytes ++ rest
        ∧ bytes.length ≤ maxFrameBytes ∧ strictJson S bytes = .ok v
        ∧ c' = { c with incoming := rest })
      (fun _ c' => ∃ rest, rest <:+ c.incoming
        ∧ c' = { c with poisoned := true, incoming := rest }) c := by
  unfold receive
  rw [wp_guarded]
  refine ⟨fun hpoisoned => ⟨c.incoming, List.suffix_refl _, by rw [← hpoisoned]⟩, fun hopen => ?_⟩
  rw [wp_bind]
  apply wp_mono (wp_readUntil 4)
  · rintro ⟨header, io⟩ c₁ ⟨hheader, hincoming, hc₁⟩
    simp only at hheader hincoming ⊢
    have hsuffix : c₁.incoming <:+ c.incoming := ⟨header, hincoming.symm⟩
    rw [wp_ite]
    refine ⟨fun _ => ⟨c₁.incoming, hsuffix, by rw [hc₁]⟩, fun hsize => ?_⟩
    rw [not_or, not_lt, not_lt] at hsize
    rw [wp_bind]
    apply wp_mono (wp_readUntil _)
    · rintro ⟨bytes, io⟩ c₂ ⟨hbytes, hrest, hc₂⟩
      rw [wp_ofResult]
      refine ⟨fun v hv => ⟨hopen, bytes, c₂.incoming, ?_, ?_, hv, by rw [hc₂, hc₁]⟩,
        fun e _ => ⟨c₂.incoming, .trans ⟨bytes, hrest.symm⟩ hsuffix, by rw [hc₂, hc₁]⟩⟩
      · rw [hincoming, hrest, frame, hbytes, ← hheader, Word.beBytes_ofBeBytes, List.append_assoc]
      · rw [hbytes]
        exact hsize.2
    · exact fun _ c₂ hc₂ => ⟨c₂.incoming, hc₂.1.trans hsuffix, by rw [hc₂.2, hc₁]⟩
  · exact fun _ c₁ hc₁ => ⟨c₁.incoming, hc₁.1, by rw [hc₁.2]⟩

end FramedChannel

/-- A frame is read off a frame in one way. -/
theorem frame_prefix {a b rest : Bytes} (ha : a.length ≤ maxFrameBytes) (hb : b.length ≤ maxFrameBytes)
    (h : frame a ++ rest <+: frame b) : a = b ∧ rest = [] := by
  have hsmall : maxFrameBytes < 256 ^ 4 := by decide
  obtain ⟨tail, htail⟩ := h
  rw [frame, frame, List.append_assoc, List.append_assoc] at htail
  obtain ⟨hheader, hbody⟩ := List.append_inj htail (by simp)
  have hlength : a.length = b.length := by
    rw [← Word.ofBeBytes_beBytes_of_lt (lt_of_le_of_lt ha hsmall), hheader,
      Word.ofBeBytes_beBytes_of_lt (lt_of_le_of_lt hb hsmall)]
  have hnone : (rest ++ tail).length = 0 := by
    have htotal := congrArg List.length hbody
    rw [List.length_append, hlength] at htotal
    omega
  rw [List.length_eq_zero_iff] at hnone
  rw [hnone, List.append_nil] at hbody
  exact ⟨hbody, (List.append_eq_nil_iff.mp hnone).1⟩

/-- On a stream that carries one value, a whole frame is that value. -/
theorem read_wire {S : SerdeJson} (hS : S.Implements) {v v' : Json} {bytes rest : Bytes} (hv : v.Plain)
    (hlength : bytes.length ≤ maxFrameBytes) (h : frame bytes ++ rest <+: wire S v)
    (hread : strictJson S bytes = .ok v') : v' = v ∧ rest = [] := by
  unfold wire at h
  split at h
  case isTrue hfits =>
    obtain ⟨rfl, hrest⟩ := frame_prefix hlength (fitsFrame_iff.mp hfits).2 h
    rw [strictJson_text hS hv hfits] at hread
    cases hread
    exact ⟨rfl, hrest⟩
  case isFalse =>
    rw [List.prefix_nil, frame, List.append_assoc] at h
    have hheader := congrArg List.length (List.append_eq_nil_iff.mp h).1
    rw [Word.length_beBytes] at hheader
    cases hheader

end Credman
