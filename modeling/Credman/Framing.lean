import Credman.JsonText
import Credman.Library.Word

/-! Framing only: a value is sent as its length and its text, and what one side
may send is what the other accepts. -/
namespace Credman

open Library

def maxFrameBytes : Nat := 65536

/-- `FrameBuffer::write`, all or nothing. -/
def frameWrite (buffer bytes : Bytes) : Option Bytes :=
  if maxFrameBytes - buffer.length < bytes.length then none else some (buffer ++ bytes)

/-- The counting writer of `fits_frame`. -/
def sizeWrite (size : Nat) (bytes : Bytes) : Option Nat :=
  if maxFrameBytes - size < bytes.length then none else some (size + bytes.length)

mutual

def validateDepth : Json → Nat → Bool
  | .array values, depth => decide (depth < maxNesting) && validateElements values (depth + 1)
  | .object members, depth => decide (depth < maxNesting) && validateMembers members (depth + 1)
  | _, _ => true

def validateElements : List Json → Nat → Bool
  | [], _ => true
  | v :: vs, depth => validateDepth v depth && validateElements vs depth

def validateMembers : List (String × Json) → Nat → Bool
  | [], _ => true
  | (_, v) :: ms, depth => validateDepth v depth && validateMembers ms depth

end

/-- What the next reads or writes of a stream meet: nothing, or an error after so many bytes. -/
inductive Io where
  | clear
  | fault (progress : Nat) (e : ChannelError)
  deriving DecidableEq, Repr

structure FramedChannel where
  poisoned : Bool
  /-- Bytes of the peer that have arrived and were not read. -/
  incoming : Bytes
  /-- Bytes written that have not arrived at the peer. -/
  outgoing : Bytes
  deriving DecidableEq, Repr

abbrev ChannelM := EStateM ChannelError FramedChannel

namespace FramedChannel

/-- An error of `attempt` poisons the channel; a poisoned channel is not used. -/
def guarded {α : Type} (attempt : ChannelM α) : ChannelM α := fun channel =>
  if channel.poisoned then .error .poisoned channel
  else
    match attempt channel with
    | .ok a channel' => .ok a channel'
    | .error e channel' => .error e { channel' with poisoned := true }

/-- The next `n` bytes, however many reads they take, and what later reads meet. -/
def readUntil (n : Nat) : Io → ChannelM (Bytes × Io)
  | .clear => fun channel =>
    if n ≤ channel.incoming.length then
      .ok (channel.incoming.take n, .clear) { channel with incoming := channel.incoming.drop n }
    else .error .io { channel with incoming := [] }
  | .fault progress e => fun channel =>
    if n ≤ progress ∧ n ≤ channel.incoming.length then
      .ok (channel.incoming.take n, .fault (progress - n) e)
        { channel with incoming := channel.incoming.drop n }
    else .error e { channel with incoming := channel.incoming.drop progress }

def writeUntil (bytes : Bytes) : Io → ChannelM Io
  | .clear => fun channel => .ok .clear { channel with outgoing := channel.outgoing ++ bytes }
  | .fault progress e => fun channel =>
    if bytes.length ≤ progress then
      .ok (.fault (progress - bytes.length) e) { channel with outgoing := channel.outgoing ++ bytes }
    else .error e { channel with outgoing := channel.outgoing ++ bytes.take progress }

def receive (S : SerdeJson) (io : Io) : ChannelM Json := guarded do
  let (header, io) ← readUntil 4 io
  if Word.ofBeBytes header < 1 ∨ maxFrameBytes < Word.ofBeBytes header then throw .invalidFrame
  else
    let (bytes, _) ← readUntil (Word.ofBeBytes header) io
    MonadExcept.ofExcept (strictJson S bytes)

def send (S : SerdeJson) (io : Io) (v : Json) : ChannelM Unit := guarded (
  if validateDepth v 0 = false then throw .invalidFrame
  else
    match (S.writes v).foldlM frameWrite [] with
    | none => throw .invalidFrame
    | some bytes =>
      if bytes = [] then throw .invalidFrame
      else do
        let io ← writeUntil (Word.beBytes 4 bytes.length) io
        let _ ← writeUntil bytes io
        pure ())

end FramedChannel

/-- Whether a value could be sent, without touching a channel. -/
def fitsFrame (S : SerdeJson) (v : Json) : Bool :=
  validateDepth v 0 && ((S.writes v).foldlM sizeWrite 0).isSome

variable {S : SerdeJson} {v : Json} {depth : Nat} {channel : FramedChannel} {bytes rest : Bytes}

theorem validateElements_iff {values : List Json} :
    validateElements values depth = true ↔ ∀ v ∈ values, validateDepth v depth = true := by
  induction values with
  | nil => simp [validateElements]
  | cons v vs ih => rw [validateElements, Bool.and_eq_true, ih, List.forall_mem_cons]

theorem validateMembers_iff {members : List (String × Json)} :
    validateMembers members depth = true ↔ ∀ m ∈ members, validateDepth m.2 depth = true := by
  induction members with
  | nil => simp [validateMembers]
  | cons m ms ih => rw [validateMembers, Bool.and_eq_true, ih, List.forall_mem_cons]

/-- The sender counts nesting as the receiver does. -/
theorem validateDepth_iff (h : depth ≤ maxNesting) :
    validateDepth v depth = true ↔ depth + v.depth ≤ maxNesting := by
  induction v generalizing depth with
  | null | bool | number | string => simpa [validateDepth, Json.depth] using h
  | array values ih =>
    rw [validateDepth, Bool.and_eq_true, decide_eq_true_eq, validateElements_iff, Json.depth,
      nested_le, Json.depthElements_le]
    apply and_congr_right
    intro hlt
    refine forall₂_congr fun v hv => ?_
    rw [ih v hv hlt]
    omega
  | object members ih =>
    rw [validateDepth, Bool.and_eq_true, decide_eq_true_eq, validateMembers_iff, Json.depth,
      nested_le, Json.depthMembers_le]
    apply and_congr_right
    intro hlt
    refine forall₂_congr fun m hm => ?_
    rw [ih m hm hlt]
    omega

/-- However the printer splits its text, the frame buffer takes all of it or none. -/
theorem foldlM_frameWrite {writes : List Bytes} {buffer : Bytes} (h : buffer.length ≤ maxFrameBytes) :
    writes.foldlM frameWrite buffer
      = if (buffer ++ writes.flatten).length ≤ maxFrameBytes then some (buffer ++ writes.flatten)
        else none := by
  induction writes generalizing buffer with
  | nil => simp [h]
  | cons w ws ih =>
    rw [List.foldlM_cons, frameWrite, List.flatten_cons, ← List.append_assoc]
    split
    case isTrue hlong =>
      rw [if_neg]
      · rfl
      · simp only [List.length_append]
        omega
    case isFalse hshort =>
      have hw : (buffer ++ w).length ≤ maxFrameBytes := by
        rw [List.length_append]
        omega
      exact ih hw

theorem foldlM_sizeWrite {writes : List Bytes} {size : Nat} (h : size ≤ maxFrameBytes) :
    (writes.foldlM sizeWrite size).isSome = decide (size + writes.flatten.length ≤ maxFrameBytes) := by
  induction writes generalizing size with
  | nil => simp [h]
  | cons w ws ih =>
    rw [List.foldlM_cons, sizeWrite, List.flatten_cons, List.length_append, ← Nat.add_assoc]
    split
    case isTrue hlong =>
      rw [decide_eq_false]
      · rfl
      · omega
    case isFalse hshort => exact ih (by omega)

/-- The text `to_writer` prints. -/
def SerdeJson.text (S : SerdeJson) (v : Json) : Bytes := (S.writes v).flatten

theorem fitsFrame_iff :
    fitsFrame S v = true ↔ v.depth ≤ maxNesting ∧ (S.text v).length ≤ maxFrameBytes := by
  rw [fitsFrame, Bool.and_eq_true, validateDepth_iff (Nat.zero_le _), Nat.zero_add,
    foldlM_sizeWrite (Nat.zero_le _), Nat.zero_add, decide_eq_true_eq, SerdeJson.text]

/-- Printed text has a token, so it is not empty. -/
theorem text_ne_nil (hS : S.Implements) (hv : v.Integral) : S.text v ≠ [] := by
  intro hnil
  have htokens := hS.tokenize_writes v hv
  rw [SerdeJson.text] at hnil
  rw [hnil, hS.tokenize_nil, Option.some.injEq] at htokens
  have hpos := length_tokens_pos v
  rw [← htokens] at hpos
  cases hpos

/-- The receiver reads what the printer printed. -/
theorem strictJson_text (hS : S.Implements) (hv : v.Plain) (hfits : fitsFrame S v = true) :
    strictJson S (S.text v) = .ok v :=
  (strictJson_eq_ok hS).mpr ⟨v, hS.tokenize_writes v hv.2, (fitsFrame_iff.mp hfits).1,
    hv.1.uniqueKeys, hv.1.value_eq.symm⟩

def frame (bytes : Bytes) : Bytes := Word.beBytes 4 bytes.length ++ bytes

namespace FramedChannel

theorem send_clear (hopen : channel.poisoned = false) (hne : S.text v ≠ []) :
    send S .clear v channel
      = if fitsFrame S v = true then
          .ok () { channel with outgoing := channel.outgoing ++ frame (S.text v) }
        else .error .invalidFrame { channel with poisoned := true } := by
  have hwrites : (S.writes v).foldlM frameWrite []
      = if (S.text v).length ≤ maxFrameBytes then some (S.text v) else none :=
    foldlM_frameWrite (Nat.zero_le _)
  have hdepth : validateDepth v 0 = true ↔ v.depth ≤ maxNesting := by
    rw [validateDepth_iff (Nat.zero_le _), Nat.zero_add]
  obtain ⟨poisoned, incoming, outgoing⟩ := channel
  obtain rfl : poisoned = false := hopen
  unfold send guarded
  rw [hwrites]
  by_cases hfits : fitsFrame S v = true
  · obtain ⟨hnested, hlength⟩ := fitsFrame_iff.mp hfits
    rw [if_pos hfits, if_pos hlength, hdepth.mpr hnested]
    simp only [hne, if_false, Bool.true_eq_false, Bool.false_eq_true]
    rw [frame, ← List.append_assoc]
    rfl
  · rw [if_neg hfits]
    rw [fitsFrame_iff, not_and_or] at hfits
    rcases hfits with hdeep | hlong
    · rw [Bool.eq_false_iff.mpr (mt hdepth.mp hdeep)]
      rfl
    · rw [if_neg hlong]
      cases validateDepth v 0 <;> rfl

theorem receive_clear (hopen : channel.poisoned = false)
    (hsize : 1 ≤ bytes.length ∧ bytes.length ≤ maxFrameBytes)
    (hincoming : channel.incoming = frame bytes ++ rest) :
    receive S .clear channel = match strictJson S bytes with
      | .ok v => .ok v { channel with incoming := rest }
      | .error e => .error e { channel with poisoned := true, incoming := rest } := by
  obtain ⟨poisoned, incoming, outgoing⟩ := channel
  obtain rfl : poisoned = false := hopen
  obtain rfl : incoming = frame bytes ++ rest := hincoming
  have hheader : readUntil 4 .clear { poisoned := false, incoming := frame bytes ++ rest, outgoing }
      = .ok (Word.beBytes 4 bytes.length, .clear)
        { poisoned := false, incoming := bytes ++ rest, outgoing } := by
    simp [readUntil, frame]
  have hpayload : readUntil bytes.length .clear
        { poisoned := false, incoming := bytes ++ rest, outgoing }
      = .ok (bytes, .clear) { poisoned := false, incoming := rest, outgoing } := by
    simp [readUntil]
  have hlength : Word.ofBeBytes (Word.beBytes 4 bytes.length) = bytes.length := by
    apply Word.ofBeBytes_beBytes_of_lt
    exact lt_of_le_of_lt hsize.2 (by decide)
  have hbounds : ¬ (bytes.length < 1 ∨ maxFrameBytes < bytes.length) := by omega
  unfold receive guarded
  simp only [bind, EStateM.bind, hheader, hlength, hbounds, if_false, hpayload, Bool.false_eq_true]
  cases strictJson S bytes <;> rfl

end FramedChannel

/-- What one side may send is what the other accepts; and what it accepts is one bounded document. -/
theorem framing_agrees (hS : S.Implements) :
    (∀ v : Value, v.1.Integral → ∀ sender : FramedChannel, sender.poisoned = false →
      (fitsFrame S v = true ↔ ∃ sent, FramedChannel.send S .clear v sender = .ok () sent)
      ∧ (fitsFrame S v = false →
        ∃ sent, FramedChannel.send S .clear v sender = .error .invalidFrame sent)
      ∧ (fitsFrame S v = true → ∃ bytes, FramedChannel.send S .clear v sender
          = .ok () { sender with outgoing := sender.outgoing ++ bytes }
        ∧ ∀ (peer : FramedChannel) rest, peer.poisoned = false → peer.incoming = bytes ++ rest →
          FramedChannel.receive S .clear peer = .ok v.1 { peer with incoming := rest }))
    ∧ ∀ bytes v, strictJson S bytes = .ok v ↔ ∃ doc : Json, S.tokenize bytes = some doc.tokens
      ∧ doc.depth ≤ 32 ∧ doc.UniqueKeys ∧ v = doc.value := by
  refine ⟨fun v hv sender hopen => ?_, fun bytes v => strictJson_eq_ok hS⟩
  have hne := text_ne_nil hS hv
  have hsend := FramedChannel.send_clear hopen hne
  refine ⟨?_, ?_, ?_⟩
  · rw [hsend]
    split <;> simp_all
  · intro hfits
    rw [hsend, hfits]
    exact ⟨_, rfl⟩
  · intro hfits
    refine ⟨frame (S.text v), by rw [hsend, if_pos hfits], ?_⟩
    intro peer rest hpeer hincoming
    obtain ⟨-, hlength⟩ := fitsFrame_iff.mp hfits
    have hpos : 1 ≤ (S.text v).length := List.length_pos_of_ne_nil hne
    rw [FramedChannel.receive_clear hpeer ⟨hpos, hlength⟩ hincoming,
      strictJson_text hS ⟨v.2, hv⟩ hfits]

/-- `{"ok":[true]}`. -/
def okTrue : Value := ⟨.object [("ok", .array [.bool true])], by
  simp [Json.Canonical, Json.Everywhere, Json.EverywhereMembers, Json.EverywhereElements,
    Json.SortedMembers]⟩

def freshChannel : FramedChannel := { poisoned := false, incoming := [], outgoing := [] }

theorem framing_agrees_okTrue :
    fitsFrame .reference okTrue = true
      ∧ (∃ bytes, FramedChannel.send .reference .clear okTrue freshChannel
          = .ok () { freshChannel with outgoing := freshChannel.outgoing ++ bytes }
        ∧ ∀ (peer : FramedChannel) rest, peer.poisoned = false → peer.incoming = bytes ++ rest →
          FramedChannel.receive .reference .clear peer = .ok okTrue.1 { peer with incoming := rest })
      ∧ ∀ v, strictJson .reference "\x7b\"ok\":[true]\x7d".toByteArray.data.toList = .ok v ↔
        ∃ doc : Json, SerdeJson.reference.tokenize "\x7b\"ok\":[true]\x7d".toByteArray.data.toList
          = some doc.tokens ∧ doc.depth ≤ 32 ∧ doc.UniqueKeys ∧ v = doc.value := by
  have hfits : fitsFrame .reference okTrue = true := by decide +kernel
  have hintegral : okTrue.1.Integral := by
    simp [okTrue, Json.Integral, Json.Everywhere, Json.EverywhereMembers, Json.EverywhereElements,
      Json.NotFloat]
  have hagrees := framing_agrees SerdeJson.reference_implements
  exact ⟨hfits, ((hagrees.1 okTrue hintegral freshChannel rfl).2.2 hfits), hagrees.2 _⟩

example : SerdeJson.reference.text okTrue = "\x7b\"ok\":[true]\x7d".toByteArray.data.toList := by
  decide +kernel

end Credman
