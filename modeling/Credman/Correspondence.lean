import Credman.Work
import Credman.Frontend

/-! One frontend and the owner over a stream that may stop at any byte: which
answer belongs to which call. -/
namespace Credman

open Library

/-- serde_json is JSON, and no type of a request holds a float. -/
structure Serde.Implements (S : Serde) : Prop extends SerdeJson.Implements S.toSerdeJson where
  integral : ∀ v request, S.workRequest v = some request → v.Integral

/-- The stream between a frontend and the owner, and what was done over it. -/
structure Link (O : Type) where
  front : FramedChannel
  back : FramedChannel
  owner : O
  /-- The requests the frontend began to send. -/
  forwarded : List Json
  /-- The requests the owner worked on, each with its answer. -/
  answered : List (Json × Json)

def Link.fresh {O : Type} (owner : O) : Link O :=
  { front := freshChannel, back := freshChannel, owner, forwarded := [], answered := [] }

/-- What may happen at any time. -/
inductive Move (O : Type) where
  | toOwner (n : Nat)
  | toFrontend (n : Nat)
  /-- The owner's loop takes a request of this peer. -/
  | turn (receiving sending : Io)
  /-- The owner drops the peer: its session ended, or the owner did. -/
  | drop
  /-- Requests of other peers. -/
  | elsewhere (owner : O)

/-- What the stream meets while one request is exchanged. -/
structure Timing (O : Type) where
  sending : Io
  moves : List (Move O)
  receiving : Io

def FramedChannel.after {α : Type} (attempt : ChannelM α) (channel : FramedChannel) : FramedChannel :=
  match attempt channel with
  | .ok _ channel' => channel'
  | .error _ channel' => channel'

namespace Link

variable {O : Type} {S : Serde} {work : WorkRequest → O → Except Error WorkReply × O}
  {base : List (Json × Json)} {pending : Option Json} {request : Json} {l l' : Link O}

section Steps

variable (S : Serde) (work : WorkRequest → O → Except Error WorkReply × O)

/-- The owner receives, works and answers; an owner that stops in between has received nothing
or sent nothing. -/
def turn (receiving sending : Io) (l : Link O) : Link O :=
  match FramedChannel.receive S.toSerdeJson receiving l.back with
  | .error _ back => { l with back }
  | .ok value back =>
    let (response, owner) := answer S work value l.owner
    { l with
      back := FramedChannel.after (FramedChannel.send S.toSerdeJson sending response) back
      owner
      answered := l.answered ++ [(value, response)] }

def step (l : Link O) : Move O → Link O
  | .toOwner n =>
    { l with
      front := { l.front with outgoing := l.front.outgoing.drop n }
      back := { l.back with incoming := l.back.incoming ++ l.front.outgoing.take n } }
  | .toFrontend n =>
    { l with
      back := { l.back with outgoing := l.back.outgoing.drop n }
      front := { l.front with incoming := l.front.incoming ++ l.back.outgoing.take n } }
  | .turn receiving sending => turn S work receiving sending l
  | .drop => { l with back := { l.back with poisoned := true } }
  | .elsewhere owner => { l with owner }

def onFront {α : Type} (attempt : ChannelM α) : EStateM ChannelError (Link O) α := fun l =>
  match attempt l.front with
  | .ok a front => .ok a { l with front }
  | .error e front => .error e { l with front }

/-- A request is forwarded when the frontend begins to send it. -/
def begin (request : Json) (l : Link O) : Link O :=
  if l.front.poisoned then l else { l with forwarded := l.forwarded ++ [request] }

def exchange (timing : Timing O) (request : Json) : EStateM ChannelError (Link O) Json := do
  modify (begin request)
  onFront (FramedChannel.send S.toSerdeJson timing.sending request)
  modify (timing.moves.foldl (step S work))
  onFront (FramedChannel.receive S.toSerdeJson timing.receiving)

end Steps

/-- The bytes under way to the owner. -/
def up (l : Link O) : Bytes := l.back.incoming ++ l.front.outgoing

/-- The bytes under way to the frontend. -/
def down (l : Link O) : Bytes := l.front.incoming ++ l.back.outgoing

/-- How far the last call got. `base` is what the owner had answered before it; `pending` is its
request, until the frontend has the answer. -/
inductive Held (S : Serde) (base : List (Json × Json)) (pending : Option Json) (l : Link O) : Prop
  | waiting (hanswered : l.answered = base)
    (hforwarded : l.forwarded = base.map Prod.fst ++ pending.toList)
    (hup : l.back.poisoned = false → l.up <+: pending.elim [] (wire S.toSerdeJson))
    (hdown : l.front.poisoned = false → l.down = [])
  | answered (request response : Json) (hpending : pending = some request) (hresponse : response.Plain)
    (hanswered : l.answered = base ++ [(request, response)])
    (hforwarded : l.forwarded = base.map Prod.fst ++ [request])
    (hup : l.back.poisoned = false → l.up = [])
    (hdown : l.front.poisoned = false → l.down <+: wire S.toSerdeJson response)

namespace Held

theorem forwarded_eq (h : Held S base pending l) :
    l.forwarded = base.map Prod.fst ++ pending.toList := by
  cases h with
  | waiting _ hforwarded => exact hforwarded
  | answered request response hpending _ _ hforwarded =>
    rw [hforwarded, hpending]
    rfl

/-- The owner worked on what was forwarded, in order, each request once. -/
theorem answered_prefix (h : Held S base pending l) : l.answered.map Prod.fst <+: l.forwarded := by
  cases h with
  | waiting hanswered hforwarded =>
    rw [hanswered, hforwarded]
    exact List.prefix_append _ _
  | answered request response _ _ hanswered hforwarded =>
    rw [hanswered, hforwarded, List.map_append]
    exact List.prefix_refl _

/-- A poisoned channel may lose bytes, an open one may not. -/
theorem carry (h : Held S base pending l) (hanswered : l'.answered = l.answered)
    (hforwarded : l'.forwarded = l.forwarded)
    (hup : l'.back.poisoned = false → l.back.poisoned = false ∧ l'.up = l.up)
    (hdown : l'.front.poisoned = false → l.front.poisoned = false ∧ l'.down = l.down) :
    Held S base pending l' := by
  cases h with
  | waiting ha hf hu hd =>
    refine .waiting (hanswered.trans ha) (hforwarded.trans hf) (fun hopen => ?_) (fun hopen => ?_)
    · rw [(hup hopen).2]
      exact hu (hup hopen).1
    · rw [(hdown hopen).2]
      exact hd (hdown hopen).1
  | answered request response hpending hresponse ha hf hu hd =>
    refine .answered request response hpending hresponse (hanswered.trans ha) (hforwarded.trans hf)
      (fun hopen => ?_) (fun hopen => ?_)
    · rw [(hup hopen).2]
      exact hu (hup hopen).1
    · rw [(hdown hopen).2]
      exact hd (hdown hopen).1

end Held

/-- What a turn of the owner's loop may do. -/
theorem turn_cases (S : Serde) (work : WorkRequest → O → Except Error WorkReply × O)
    (receiving sending : Io) (l : Link O) :
    (∃ rest, rest <:+ l.back.incoming ∧ turn S work receiving sending l
        = { l with back := { l.back with poisoned := true, incoming := rest } })
      ∨ ∃ bytes rest value sent poisoned, l.back.poisoned = false
        ∧ l.back.incoming = frame bytes ++ rest ∧ bytes.length ≤ maxFrameBytes
        ∧ strictJson S.toSerdeJson bytes = .ok value
        ∧ sent <+: wire S.toSerdeJson (answer S work value l.owner).1
        ∧ turn S work receiving sending l = { l with
            back := { poisoned, incoming := rest, outgoing := l.back.outgoing ++ sent }
            owner := (answer S work value l.owner).2
            answered := l.answered ++ [(value, (answer S work value l.owner).1)] } := by
  have hreceive := @FramedChannel.wp_receive S.toSerdeJson receiving l.back
  cases hres : FramedChannel.receive S.toSerdeJson receiving l.back with
  | error e back =>
    obtain ⟨rest, hrest, rfl⟩ := wp_error hreceive hres
    exact .inl ⟨rest, hrest, by simp only [turn, hres]⟩
  | ok value back =>
    obtain ⟨hopen, bytes, rest, hincoming, hlength, hread, rfl⟩ := wp_ok hreceive hres
    have hsend := @FramedChannel.wp_send S.toSerdeJson sending { l.back with incoming := rest }
      (answer S work value l.owner).1
    have hafter : ∃ poisoned sent, sent <+: wire S.toSerdeJson (answer S work value l.owner).1
        ∧ FramedChannel.after (FramedChannel.send S.toSerdeJson sending (answer S work value l.owner).1)
            { l.back with incoming := rest }
          = { poisoned, incoming := rest, outgoing := l.back.outgoing ++ sent } := by
      unfold FramedChannel.after
      cases hsent : FramedChannel.send S.toSerdeJson sending (answer S work value l.owner).1
          { l.back with incoming := rest } with
      | ok u back' =>
        obtain ⟨-, hfits, rfl⟩ := wp_ok hsend hsent
        exact ⟨l.back.poisoned, _, List.prefix_refl _, by rw [wire, if_pos hfits]⟩
      | error e back' =>
        obtain ⟨sent, hprefix, -, -, rfl⟩ := wp_error hsend hsent
        exact ⟨true, sent, hprefix, rfl⟩
    obtain ⟨poisoned, sent, hsent, hafter⟩ := hafter
    refine .inr ⟨bytes, rest, value, sent, poisoned, hopen, hincoming, hlength, hread, hsent, ?_⟩
    simp only [turn, hres, hafter]

/-- A turn answers the request that is under way, if it answers one. -/
theorem Held.turn (hS : S.Implements) (h : Held S base pending l)
    (hplain : ∀ r, pending = some r → r.Plain) (receiving sending : Io) :
    Held S base pending (l.turn S work receiving sending) := by
  rcases turn_cases S work receiving sending l with ⟨rest, hrest, heq⟩
    | ⟨bytes, rest, value, sent, poisoned, hopen, hincoming, hlength, hread, hsent, heq⟩
  · rw [heq]
    exact h.carry rfl rfl (fun hback => Bool.noConfusion hback) (fun hfront => ⟨hfront, rfl⟩)
  · have hup : l.up = frame bytes ++ (rest ++ l.front.outgoing) := by
      rw [up, hincoming, List.append_assoc]
    rw [heq]
    cases h with
    | answered request response hpending hresponse hanswered hforwarded hnone hdown =>
      have hlost := hnone hopen
      rw [hup, frame, List.append_assoc] at hlost
      have hheader := congrArg List.length (List.append_eq_nil_iff.mp hlost).1
      rw [Word.length_beBytes] at hheader
      cases hheader
    | waiting hanswered hforwarded hrequest hdown =>
      have hprefix := hrequest hopen
      rw [hup] at hprefix
      cases pending with
      | none =>
        have hheader := hprefix.length_le
        rw [frame, List.length_append, List.length_append, Word.length_beBytes, Option.elim_none] at hheader
        simp at hheader
      | some request =>
        obtain ⟨rfl, hrest⟩ := read_wire hS.toImplements (hplain request rfl) hlength hprefix hread
        refine .answered value _ rfl (plain_answer S work value l.owner) (by rw [hanswered]) hforwarded
          (fun _ => hrest) (fun hfront => ?_)
        have hnothing := hdown hfront
        rw [down, List.append_eq_nil_iff] at hnothing
        rw [down, hnothing.1, hnothing.2]
        exact hsent

theorem Held.step (hS : S.Implements) (h : Held S base pending l)
    (hplain : ∀ r, pending = some r → r.Plain) (m : Move O) : Held S base pending (l.step S work m) := by
  cases m with
  | toOwner n =>
    refine h.carry rfl rfl (fun hback => ⟨hback, ?_⟩) (fun hfront => ⟨hfront, rfl⟩)
    rw [up, up, Link.step, List.append_assoc, List.take_append_drop]
  | toFrontend n =>
    refine h.carry rfl rfl (fun hback => ⟨hback, rfl⟩) (fun hfront => ⟨hfront, ?_⟩)
    rw [down, down, Link.step, List.append_assoc, List.take_append_drop]
  | turn receiving sending => exact h.turn hS hplain receiving sending
  | drop => exact h.carry rfl rfl (fun hback => Bool.noConfusion hback) (fun hfront => ⟨hfront, rfl⟩)
  | elsewhere owner => exact h.carry rfl rfl (fun hback => ⟨hback, rfl⟩) (fun hfront => ⟨hfront, rfl⟩)

theorem poisoned_step (m : Move O) : (l.step S work m).front.poisoned = l.front.poisoned := by
  cases m with
  | turn receiving sending =>
    rcases turn_cases S work receiving sending l with ⟨_, -, heq⟩ | ⟨_, _, _, _, _, -, -, -, -, -, heq⟩
    · rw [Link.step, heq]
    · rw [Link.step, heq]
  | toOwner | toFrontend | drop | elsewhere => rfl

variable (work) in
theorem Held.moves (hS : S.Implements) (h : Held S base pending l)
    (hplain : ∀ r, pending = some r → r.Plain) (moves : List (Move O)) :
    Held S base pending (moves.foldl (Link.step S work) l)
      ∧ (moves.foldl (Link.step S work) l).front.poisoned = l.front.poisoned := by
  induction moves generalizing l with
  | nil => exact ⟨h, rfl⟩
  | cons m moves ih =>
    obtain ⟨hheld, hfront⟩ := ih (h.step hS hplain m)
    exact ⟨hheld, hfront.trans (poisoned_step m)⟩

theorem wp_onFront {α : Type} {attempt : ChannelM α} {post : α → Link O → Prop}
    {fail : ChannelError → Link O → Prop} :
    wp (onFront attempt) post fail l ↔ wp attempt (fun a front => post a { l with front })
      (fun e front => fail e { l with front }) l.front := by
  unfold wp onFront
  cases attempt l.front <;> rfl

/-- A frontend that is poisoned sends nothing. -/
theorem exchange_poisoned (h : l.front.poisoned = true) (timing : Timing O) :
    exchange S work timing request l = .error .poisoned l := by
  obtain ⟨⟨poisoned, incoming, outgoing⟩, back, owner, forwarded, answered⟩ := l
  obtain rfl : poisoned = true := h
  rfl

/-- What the frontend receives is what the owner answered to the request that is pending. -/
theorem Held.received (hS : S.Implements) (h : Held S base (some request) l) {bytes rest : Bytes}
    {response : Json} (hopen : l.front.poisoned = false) (hincoming : l.front.incoming = frame bytes ++ rest)
    (hlength : bytes.length ≤ maxFrameBytes) (hread : strictJson S.toSerdeJson bytes = .ok response) :
    l.answered = base ++ [(request, response)] ∧ Held S (base ++ [(request, response)]) none
      { l with front := { l.front with incoming := rest } } := by
  have hstream : l.down = frame bytes ++ (rest ++ l.back.outgoing) := by
    rw [down, hincoming, List.append_assoc]
  cases h with
  | waiting _ _ _ hdown =>
    have hnothing := congrArg List.length (hstream.symm.trans (hdown hopen))
    rw [frame, List.length_append, List.length_append, Word.length_beBytes, List.length_nil] at hnothing
    omega
  | answered _ response' hpending hresponse hanswered hforwarded hup hdown =>
    cases hpending
    have hprefix := hdown hopen
    rw [hstream] at hprefix
    obtain ⟨rfl, hrest⟩ := read_wire hS.toImplements hresponse hlength hprefix hread
    refine ⟨hanswered, .waiting hanswered (by simp [hforwarded]) (fun hback => ?_) (fun _ => hrest)⟩
    · rw [Option.elim_none, List.prefix_nil]
      exact hup hback

variable (work) in
/-- An exchange that returns gives what the owner answered to its request; one that fails ends
the use of the channel. -/
theorem wp_exchange (hS : S.Implements) (hplain : request.Plain) (hopen : l.front.poisoned = false)
    (h : Held S base none l) (timing : Timing O) :
    wp (exchange S work timing request)
      (fun response l' => l'.front.poisoned = false ∧ l'.answered = base ++ [(request, response)]
        ∧ Held S (base ++ [(request, response)]) none l')
      (fun _ l' => l'.front.poisoned = true ∧ Held S base (some request) l') l := by
  have hplains : ∀ r, some request = some r → r.Plain := by
    rintro r ⟨⟩
    exact hplain
  have hforwarded := h.forwarded_eq
  cases h with
  | answered _ _ hpending => cases hpending
  | waiting hanswered _ hup hdown =>
  have hbegin : begin request l = { l with forwarded := l.forwarded ++ [request] } := by simp [begin, hopen]
  have hsent : ∀ poisoned sent, sent <+: wire S.toSerdeJson request → Held S base (some request)
      { l with
        front := { l.front with poisoned, outgoing := l.front.outgoing ++ sent }
        forwarded := l.forwarded ++ [request] } := by
    intro poisoned sent hprefix
    refine .waiting hanswered (by simp [hforwarded]) (fun hback => ?_) (fun _ => hdown hopen)
    have hnothing := List.append_eq_nil_iff.mp (List.prefix_nil.mp (hup hback))
    rw [up, hnothing.1, hnothing.2]
    exact hprefix
  simp only [exchange, wp_bind, wp_modify, wp_onFront, hbegin]
  apply wp_mono (FramedChannel.wp_send request)
  · rintro _ front ⟨-, hfits, rfl⟩
    have hframe : frame (S.text request) = wire S.toSerdeJson request := (if_pos hfits).symm
    rw [hframe]
    obtain ⟨hmoved, hsame⟩ := (hsent l.front.poisoned _ (List.prefix_refl _)).moves work
      hS hplains timing.moves
    apply wp_mono FramedChannel.wp_receive
    · rintro response front ⟨hfront, bytes, rest, hincoming, hlength, hread, rfl⟩
      exact ⟨hfront, hmoved.received hS hfront hincoming hlength hread⟩
    · rintro _ front ⟨rest, -, rfl⟩
      exact ⟨rfl, hmoved.carry rfl rfl (fun hback => ⟨hback, rfl⟩) (fun hfront => Bool.noConfusion hfront)⟩
  · rintro _ front ⟨sent, hprefix, -, -, rfl⟩
    exact ⟨rfl, hsent true sent hprefix⟩

/-- Between two events: while the frontend may still send, no call is pending. -/
def Standing (S : Serde) (l : Link O) : Prop :=
  ∃ base pending, Held S base pending l ∧ (∀ r, pending = some r → r.Plain)
    ∧ (l.front.poisoned = false → pending = none)

theorem standing_fresh (S : Serde) (owner : O) : Standing S (fresh owner) :=
  ⟨[], none, .waiting rfl rfl (fun _ => List.nil_prefix) (fun _ => rfl), nofun, fun _ => rfl⟩

variable (work) in
theorem Standing.moves (hS : S.Implements) (h : Standing S l) (moves : List (Move O)) :
    Standing S (moves.foldl (Link.step S work) l)
      ∧ (moves.foldl (Link.step S work) l).front.poisoned = l.front.poisoned
      ∧ (moves.foldl (Link.step S work) l).forwarded = l.forwarded := by
  obtain ⟨base, pending, hheld, hplain, hopen⟩ := h
  obtain ⟨hmoved, hsame⟩ := hheld.moves work hS hplain moves
  exact ⟨⟨base, pending, hmoved, hplain, fun hfront => hopen (hsame ▸ hfront)⟩, hsame,
    hmoved.forwarded_eq.trans hheld.forwarded_eq.symm⟩

end Link

namespace Mcp

variable {O : Type} {S : Serde} {work : WorkRequest → O → Except Error WorkReply × O} {l : Link O}
  {request : Json}

/-- What may come back for a request: nothing was forwarded, or nobody knows, or the owner
answered it. -/
inductive Outcome (S : Serde) (request : Json) (l l' : Link O) : Json → Prop
  | refused (hfits : fitsFrame S.toSerdeJson request = false) (hsame : l' = l) :
    Outcome S request l l' tooLarge
  | unknown (hpoisoned : l'.front.poisoned = true)
    (hforwarded : l'.forwarded = l.forwarded ++ if l.front.poisoned = true then [] else [request]) :
    Outcome S request l l' unavailable
  | answered {response : Json} (hopen : l.front.poisoned = false)
    (hforwarded : l'.forwarded = l.forwarded ++ [request])
    (hanswered : l'.answered = l.answered ++ [(request, response)]) : Outcome S request l l' response

/-- Nothing more is forwarded over a poisoned channel. -/
theorem Outcome.poisoned {l' : Link O} {response : Json} (h : Outcome S request l l' response)
    (hpoisoned : l.front.poisoned = true) :
    l'.front.poisoned = true ∧ l'.forwarded = l.forwarded := by
  cases h with
  | refused _ hsame =>
    rw [hsame]
    exact ⟨hpoisoned, rfl⟩
  | unknown hpoisoned' hforwarded =>
    refine ⟨hpoisoned', ?_⟩
    rw [hforwarded, if_pos hpoisoned, List.append_nil]
  | answered hopen =>
    rw [hpoisoned] at hopen
    cases hopen

variable (work) in
theorem forward_outcome (hS : S.Implements) (hplain : request.Plain) (h : l.Standing S)
    (timing : Timing O) :
    Outcome S request l (forward S (Link.exchange S work timing) request l).2
        (forward S (Link.exchange S work timing) request l).1
      ∧ (forward S (Link.exchange S work timing) request l).2.Standing S := by
  unfold forward
  split
  case isTrue hfits => exact ⟨.refused hfits rfl, h⟩
  case isFalse =>
  cases hfront : l.front.poisoned with
  | true =>
    rw [Link.exchange_poisoned hfront]
    exact ⟨.unknown hfront (by simp [hfront]), h⟩
  | false =>
    obtain ⟨base, pending, hheld, -, hnone⟩ := h
    rw [hnone hfront] at hheld
    have hexchange := Link.wp_exchange work hS hplain hfront hheld timing
    have hbase : l.answered = base := by
      cases hheld with
      | waiting hanswered => exact hanswered
      | answered _ _ hpending => cases hpending
    have hforwarded : l.forwarded = base.map Prod.fst := by
      rw [hheld.forwarded_eq, Option.toList_none, List.append_nil]
    cases hres : Link.exchange S work timing request l with
    | ok response l' =>
      obtain ⟨hopen, hanswered, hheld'⟩ := wp_ok hexchange hres
      refine ⟨.answered hfront ?_ ?_, _, none, hheld', nofun, fun _ => rfl⟩
      · rw [hheld'.forwarded_eq, hforwarded]
        simp
      · rw [hanswered, hbase]
    | error e l' =>
      have hfailed := wp_error hexchange hres
      obtain ⟨hpoisoned, hheld'⟩ := hfailed
      refine ⟨.unknown hpoisoned ?_, base, some request, hheld', ?_, fun hopen => ?_⟩
      · rw [hheld'.forwarded_eq, hforwarded, hfront]
        rfl
      · rintro r ⟨⟩
        exact hplain
      · rw [hpoisoned] at hopen
        cases hopen

theorem canonical_get? {object : Members} {key : String} {v : Json} (h : (Json.object object).Canonical)
    (hv : get? object key = some v) : v.Canonical :=
  (Json.everywhere_object.mp h).2 _ (OrdMap.mem_of_lookup hv)

/-- A request made of a client's value can be sent. -/
theorem ToolCall.plain (hS : S.Implements) {value : Value} (h : ToolCall S value request) :
    request.Plain := by
  obtain ⟨object, params, call, op, henvelope, -, hcall, -, -, rfl, hsome⟩ := h
  obtain ⟨w, hw⟩ := Option.isSome_iff_exists.mp hsome
  refine ⟨?_, hS.integral _ _ hw⟩
  have hobject : (Json.object object).Canonical := henvelope.isObject ▸ value.2
  obtain ⟨v, rfl, hdecode⟩ := Option.bind_eq_some_iff.mp hcall
  have hv : v.Canonical := by
    have hparams := henvelope.params
    unfold takeMeta at hparams
    split at hparams
    case h_1 members hmembers =>
      cases hparams
      have hall := Json.everywhere_object.mp (canonical_get? hobject hmembers)
      exact Json.everywhere_object.mpr ⟨hall.1.filter _, fun m hm => hall.2 m (List.mem_filter.mp hm).1⟩
    case h_2 => exact canonical_get? hobject hparams.symm
  have harguments : (Json.object call.arguments).Canonical := by
    unfold Call.decode at hdecode
    split at hdecode
    case h_1 members =>
      split at hdecode
      case isTrue =>
        split at hdecode
        case h_1 harguments =>
          cases hdecode
          exact canonical_get? hv harguments
        case h_2 => cases hdecode
      case isFalse => cases hdecode
    case h_2 name arguments =>
      cases hdecode
      exact (Json.everywhere_array.mp hv).2 _ (by simp)
    case h_3 => cases hdecode
  obtain ⟨hsorted, hmembers⟩ := Json.everywhere_object.mp harguments
  refine Json.everywhere_object.mpr ⟨OrdMap.pairwise_insertEntry _ _ hsorted, fun m hm => ?_⟩
  rcases OrdMap.mem_insertEntry hm with rfl | hin
  · trivial
  · exact hmembers m hin

/-- A frontend on its stream. -/
structure Conversation (O : Type) where
  state : State
  link : Link O

inductive Event (O : Type) where
  | message (value : Value) (timing : Timing O)
  | idle (moves : List (Move O))

section Runs

variable (S : Serde) (work : WorkRequest → O → Except Error WorkReply × O)

def converse (event : Event O) (s : Conversation O) : Option Json × Conversation O :=
  match event with
  | .message value timing =>
    let (reply, state, link) := dispatch S (Link.exchange S work timing) value s.state s.link
    (reply, { state, link })
  | .idle moves => (none, { s with link := moves.foldl (Link.step S work) s.link })

/-- What an event does to the calls. -/
def Accounted (event : Event O) (reply : Option Json) (s s' : Conversation O) : Prop :=
  match event with
  | .message value _ =>
    (∀ request, s.state = .ready → ToolCall S value request → ∃ response,
      reply = some (result (replyId value) (callResult S response))
        ∧ Outcome S request s.link s'.link response)
    ∧ ((∀ request, s.state = .ready → ¬ ToolCall S value request) → s'.link = s.link)
  | .idle _ => reply = none ∧ s'.link.forwarded = s.link.forwarded

/-- Every answer belongs to its call, whatever the stream met. -/
structure Corresponds (start : Conversation O) (history : List (Event O × Option Json))
    (s : Conversation O) : Prop where
  inOrder : s.link.answered.map Prod.fst <+: s.link.forwarded
  accounted : ∀ before event reply since, history = before ++ (event, reply) :: since → ∃ mid next,
    Ran (converse S work) start before mid
      ∧ Ran (converse S work) start (before ++ [(event, reply)]) next
      ∧ Accounted S event reply mid next
  ended : s.link.front.poisoned = true → ∀ later s', Ran (converse S work) s later s' →
    s'.link.front.poisoned = true ∧ s'.link.forwarded = s.link.forwarded
      ∧ ∀ (value : Value) timing request, s'.state = .ready → ToolCall S value request →
        (converse S work (.message value timing) s').1 = some (result (replyId value)
          (callResult S (if fitsFrame S.toSerdeJson request = true then unavailable else tooLarge)))

end Runs

variable {s : Conversation O} {event : Event O}

variable (work event) in
/-- One event accounts for its calls, and the frontend does not get its channel back. -/
theorem converse_accounted (hS : S.Implements) (h : s.link.Standing S) :
    Accounted S event (converse S work event s).1 s (converse S work event s).2
      ∧ (converse S work event s).2.link.Standing S
      ∧ (s.link.front.poisoned = true → (converse S work event s).2.link.front.poisoned = true
        ∧ (converse S work event s).2.link.forwarded = s.link.forwarded) := by
  cases event with
  | idle moves =>
    obtain ⟨hstanding, hsame, hforwarded⟩ := h.moves work hS moves
    exact ⟨⟨rfl, hforwarded⟩, hstanding, fun hpoisoned => ⟨hsame.trans hpoisoned, hforwarded⟩⟩
  | message value timing =>
    have hcalled : ∀ request, s.state = .ready → ToolCall S value request →
        (converse S work (.message value timing) s).1
            = some (result (replyId value)
              (callResult S (forward S (Link.exchange S work timing) request s.link).1))
          ∧ (converse S work (.message value timing) s).2.link
            = (forward S (Link.exchange S work timing) request s.link).2 := by
      intro request hready hcall
      simp only [converse, hready, dispatch_toolCall hcall, and_self]
    by_cases hcall : ∃ request, s.state = .ready ∧ ToolCall S value request
    · obtain ⟨request, hready, hcall⟩ := hcall
      have hlink := (hcalled request hready hcall).2
      obtain ⟨houtcome, hstanding⟩ := forward_outcome work hS (hcall.plain hS) h timing
      refine ⟨⟨fun request' _ hcall' => ?_, fun hnone => absurd hcall (hnone request hready)⟩,
        hlink ▸ hstanding, fun hpoisoned => ?_⟩
      · obtain ⟨hreply, hlink'⟩ := hcalled request' hready hcall'
        refine ⟨_, hreply, ?_⟩
        rw [hlink']
        exact (forward_outcome work hS (hcall'.plain hS) h timing).1
      · rw [hlink]
        exact houtcome.poisoned hpoisoned
    · have hsame : (converse S work (.message value timing) s).2.link = s.link := by
        rcases (dispatched S (Link.exchange S work timing) value s.state s.link).forwarded
          with hsame | ⟨request, hready, hcall', -⟩
        · exact hsame
        · exact absurd ⟨request, hready, hcall'⟩ hcall
      refine ⟨⟨fun request hready hcall' => absurd ⟨request, hready, hcall'⟩ hcall, fun _ => hsame⟩,
        hsame ▸ h, fun hpoisoned => ?_⟩
      rw [hsame]
      exact ⟨hpoisoned, rfl⟩

/-- Once the channel is poisoned a call has one answer. -/
theorem converse_poisoned {value : Value} {timing : Timing O} (hready : s.state = .ready)
    (hcall : ToolCall S value request) (hpoisoned : s.link.front.poisoned = true) :
    (converse S work (.message value timing) s).1 = some (result (replyId value)
      (callResult S (if fitsFrame S.toSerdeJson request = true then unavailable else tooLarge))) := by
  simp only [converse, hready, dispatch_toolCall hcall]
  unfold forward
  cases fitsFrame S.toSerdeJson request with
  | true =>
    rw [Link.exchange_poisoned hpoisoned]
    rfl
  | false => rfl

theorem replies_correspond (hS : S.Implements) {owner : O} {history : List (Event O × Option Json)}
    (h : Ran (converse S work) { state := .initializing, link := .fresh owner } history s) :
    Corresponds S work { state := .initializing, link := .fresh owner } history s := by
  have hstanding : ∀ {history s},
      Ran (converse S work) { state := .initializing, link := .fresh owner } history s →
        s.link.Standing S := by
    intro history s h
    refine h.invariant (I := fun _ s => s.link.Standing S) (Link.standing_fresh S owner) ?_
    exact fun _ s _ hs event => (converse_accounted work event hS hs).2.1
  refine ⟨?_, ?_, ?_⟩
  · obtain ⟨_, _, hheld, -⟩ := hstanding h
    exact hheld.answered_prefix
  · rintro before event reply since rfl
    obtain ⟨mid, hmid, hreply⟩ := h.answered
    change reply = (converse S work event mid).1 at hreply
    subst hreply
    exact ⟨mid, _, hmid, hmid.call event, (converse_accounted work event hS (hstanding hmid)).1⟩
  · intro hpoisoned later s' hlater
    have hkept : s'.link.Standing S ∧ s'.link.front.poisoned = true
        ∧ s'.link.forwarded = s.link.forwarded := by
      refine hlater.invariant (I := fun _ s' => s'.link.Standing S ∧ s'.link.front.poisoned = true
        ∧ s'.link.forwarded = s.link.forwarded) ⟨hstanding h, hpoisoned, rfl⟩ ?_
      rintro _ mid _ ⟨hmid, hpoisoned', hforwarded⟩ event
      obtain ⟨-, hnext, hended⟩ := converse_accounted work event hS hmid
      obtain ⟨hpoisoned'', hforwarded'⟩ := hended hpoisoned'
      exact ⟨hnext, hpoisoned'', hforwarded'.trans hforwarded⟩
    exact ⟨hkept.2.1, hkept.2.2, fun _ _ _ hready hcall => converse_poisoned hready hcall hkept.2.1⟩

section Alice

/-- Its only request has no number. -/
theorem aliceSerde_implements : aliceSerde.Implements where
  toImplements := SerdeJson.reference_implements
  integral v request h := by
    have hwhole : (metadataRequest.tokens.all fun t => match t with
        | .f64 _ => false
        | _ => true) = true := by decide +kernel
    have htokens : v.tokens = metadataRequest.tokens := (Option.ite_none_right_eq_some.mp h).1
    apply Json.integral_of_tokens
    intro bits hin
    rw [htokens] at hin
    exact absurd (List.all_eq_true.mp hwhole _ hin) Bool.false_ne_true

theorem canonical_message {id : Option UInt64} {method : String} {params : List (String × Json)}
    (h : ∀ m ∈ params, m.2.Canonical) : (message id method params).Canonical := by
  have hparams := Json.canonical_obj h
  apply Json.canonical_obj
  cases id with
  | none => simpa using ⟨trivial, trivial, hparams⟩
  | some n => simpa using ⟨trivial, trivial, hparams, trivial⟩

def say (id : Option UInt64) (method : String) (params : List (String × Json))
    (h : ∀ m ∈ params, m.2.Canonical) (timing : Timing Unit) : Event Unit :=
  .message ⟨message id method params, canonical_message h⟩ timing

def callParams (arguments : Members) : List (String × Json) :=
  [("name", .string "credman_metadata"), ("arguments", .object arguments)]

def quiet : Timing Unit := { sending := .clear, moves := [], receiving := .clear }

/-- The owner answers at once. -/
def prompt : Timing Unit :=
  { quiet with moves := [.toOwner 4096, .turn .clear .clear, .toFrontend 4096] }

/-- The request arrives, and the frontend's patience ends before the owner's turn. -/
def late : Timing Unit :=
  { quiet with moves := [.toOwner 4096], receiving := .fault 0 .timeout }

def deny (_ : WorkRequest) (_ : Unit) : Except Error WorkReply × Unit := (.error .denied, ())

theorem canonical_call {arguments : Members} (h : (Json.object arguments).Canonical) :
    ∀ m ∈ callParams arguments, m.2.Canonical := by
  simpa [callParams] using ⟨trivial, h⟩

theorem canonical_metadata : (Json.object metadataArguments).Canonical := by
  refine Json.everywhere_object.mpr ⟨?_, ?_⟩
  · change metadataArguments.Pairwise fun a b => a.1 < b.1
    decide +kernel
  · simp [metadataArguments, Json.Everywhere, Json.EverywhereElements, Json.SortedMembers]

def greeting : List (Event Unit) :=
  [say (some 1) "initialize" [("protocolVersion", .string "2025-11-25"),
      ("capabilities", .obj []), ("clientInfo", .obj [("name", .string "sdk"),
        ("version", .string "1")])] (by
      simpa using ⟨trivial, Json.canonical_obj (by simp), Json.canonical_obj (by simpa using ⟨trivial, trivial⟩)⟩)
      quiet,
    say none "notifications/initialized" [] (by simp) quiet]

/-- One answer in time, one too late, and a call after it. -/
def aliceCalls : List (Event Unit) :=
  greeting ++ [say (some 2) "tools/call" (callParams metadataArguments) (canonical_call canonical_metadata) prompt,
    say (some 3) "tools/call" (callParams metadataArguments) (canonical_call canonical_metadata) late,
    .idle [.turn .clear .clear, .toFrontend 4096],
    say (some 4) "tools/call" (callParams metadataArguments) (canonical_call canonical_metadata) prompt]

def aliceStart : Conversation Unit := { state := .initializing, link := .fresh () }

def aliceConversation : List (Event Unit × Option Json) × Conversation Unit :=
  Ran.play (converse aliceSerde deny) aliceStart aliceCalls

/-- A late answer is not given to the call after it. -/
theorem replies_correspond_alice :
    (aliceConversation.1.map fun e => e.2.map Json.tokens).drop 2
        = [some (result (num 2) (callResult aliceSerde denied)).tokens,
          some (result (num 3) (callResult aliceSerde unavailable)).tokens, none,
          some (result (num 4) (callResult aliceSerde unavailable)).tokens]
      ∧ aliceConversation.2.link.answered.length = 2
      ∧ Corresponds aliceSerde deny aliceStart aliceConversation.1 aliceConversation.2 :=
  ⟨by decide +kernel, by decide +kernel,
    replies_correspond aliceSerde_implements (Ran.of_play aliceCalls)⟩

/-- The answer says that nobody knows, or it is the owner's to the call it answers. -/
def Attributed (S : Serde) (reply : Option Json) (l l' : Link O) : Prop :=
  ∃ id response request, reply = some (result id (callResult S response))
    ∧ (response = unavailable ∨ l'.answered = l.answered ++ [(request, response)])

/-- A call without arguments. -/
def bareCall : Event Unit :=
  say (some 2) "tools/call" (callParams [])
    (canonical_call (Json.everywhere_object.mpr ⟨.nil, by simp⟩)) prompt

def ready : List (Event Unit × Option Json) × Conversation Unit :=
  Ran.play (converse aliceSerde deny) aliceStart greeting

theorem get?_result (id value : Json) : (result id value).get? "result" = some value := by
  rw [result, Json.get?_obj]
  exact (OrdMap.get?_ofList (by simp)).mpr (by simp)

/-- Some calls are answered by the frontend itself. -/
theorem replies_correspond_refused :
    Ran (converse aliceSerde deny) aliceStart ready.1 ready.2 ∧ ready.2.state = .ready
      ∧ (converse aliceSerde deny bareCall ready.2).1.map Json.tokens
        = some (invalidParams (num 2)).tokens
      ∧ ¬ Attributed aliceSerde (converse aliceSerde deny bareCall ready.2).1 ready.2.link
        (converse aliceSerde deny bareCall ready.2).2.link := by
  refine ⟨Ran.of_play greeting, by decide +kernel, by decide +kernel, ?_⟩
  rintro ⟨id, response, request, hreply, -⟩
  have herror : ((converse aliceSerde deny bareCall ready.2).1.bind (·.get? "result")).isNone = true := by
    decide +kernel
  rw [hreply, Option.bind_some, get?_result] at herror
  cases herror

end Alice

end Mcp

end Credman
