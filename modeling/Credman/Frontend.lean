import Credman.Dispatch
import Credman.Channel
import Credman.Library.Runs

/-! The frontend over whole runs: how its state advances, what it sends to the
owner, and what it replies. -/
namespace Credman.Mcp

open Library

/-- What the stream meets while one request is exchanged, and what the owner sends meanwhile. -/
structure Exchange where
  sending : Io
  arriving : Bytes
  receiving : Io

def exchange (S : Serde) (x : Exchange) (request : Json) : ChannelM Json := do
  FramedChannel.send S.toSerdeJson x.sending request
  modify fun channel => { channel with incoming := channel.incoming ++ x.arriving }
  FramedChannel.receive S.toSerdeJson x.receiving

structure Frontend where
  state : State
  channel : FramedChannel

def serve (S : Serde) (call : Json × Exchange) (f : Frontend) : Option Json × Frontend :=
  let (reply, state, channel) := dispatch S (exchange S call.2) call.1 f.state f.channel
  (reply, { state, channel })

/-- A valid envelope with well-formed metadata: its object, its method and its parameters. -/
structure Envelope (value : Json) (object : Members) (method : String) (params : Option Json) :
    Prop where
  isObject : value = .object object
  valid : validEnvelope object = true
  method : methodOf object = some method
  params : params = (takeMeta (get? object "params")).1
  metadata : ∀ m, (takeMeta (get? object "params")).2 = some m → validMeta m = true

def InitializeRequest (value : Json) : Prop :=
  ∃ object params p, Envelope value object "initialize" params ∧ containsKey object "id" = true
    ∧ params.bind Initialize.decode = some p ∧ wellFormed p = true

def InitializedNotification (value : Json) : Prop :=
  ∃ object params, Envelope value object "notifications/initialized" params
    ∧ containsKey object "id" = false ∧ empty params = true

/-- A call of one of the four tools whose arguments are a request of the broker; the request
is the arguments with the operation of the tool. -/
def ToolCall (S : Serde) (value request : Json) : Prop :=
  ∃ object params call op, Envelope value object "tools/call" params
    ∧ containsKey object "id" = true ∧ params.bind Call.decode = some call
    ∧ operation call.name = some op ∧ containsKey call.arguments "op" = false
    ∧ request = .object (OrdMap.insertEntry "op" (.string op) call.arguments)
    ∧ (S.workRequest request).isSome

inductive Advances (value : Json) : State → State → Prop
  | kept (state : State) : Advances value state state
  | initialized (h : InitializeRequest value) : Advances value .initializing .initialized
  | ready (h : InitializedNotification value) : Advances value .initialized .ready

def fixedErrors : List (Int64 × String) :=
  [(-32600, "Invalid Request"), (-32602, "Invalid params"), (-32601, "Method not found")]

/-- A result, or an error made of the identifier, a code and a fixed message. -/
def Replies (id reply : Json) : Prop :=
  (∃ value, reply = result id value) ∨ ∃ e ∈ fixedErrors, reply = error id e.1 e.2

def Notification (value : Json) : Prop := ∃ object, value = .object object ∧ containsKey object "id" = false

/-- The identifier of a valid envelope, and null for everything else. -/
def replyId : Json → Json
  | .object object => if validEnvelope object = true then (get? object "id").getD .null else .null
  | _ => .null

section Dispatch

variable {σ : Type} {S : Serde} {exchange : Json → EStateM ChannelError σ Json} {value : Json}
  {state : State} {channel : σ}

/-- The channel is left alone, or it carried the request of a tool call. -/
def Forwarded (S : Serde) (exchange : Json → EStateM ChannelError σ Json) (value : Json)
    (state : State) (channel channel' : σ) : Prop :=
  channel' = channel ∨ ∃ request, state = .ready ∧ ToolCall S value request
    ∧ channel' = (forward S exchange request channel).2

/-- What one message does to the frontend, whatever carries its requests. -/
structure Dispatched (S : Serde) (exchange : Json → EStateM ChannelError σ Json) (value : Json)
    (state : State) (channel : σ) (out : Option Json × State × σ) : Prop where
  advances : Advances value state out.2.1
  forwarded : Forwarded S exchange value state channel out.2.2
  silent : Notification value → out.1 = none
  replied : ¬ Notification value → ∃ reply, out.1 = some reply ∧ Replies (replyId value) reply

theorem Replies.error {id : Json} {code : Int64} {message : String} (h : (code, message) ∈ fixedErrors) :
    Replies id (error id code message) :=
  .inr ⟨(code, message), h, rfl⟩

theorem Replies.invalidParams (id : Json) : Replies id (invalidParams id) := .error (by decide)

theorem Replies.result (id value : Json) : Replies id (result id value) := .inl ⟨value, rfl⟩

variable (S exchange state channel) in
/-- A request of a valid envelope is answered with its identifier. -/
theorem requested {object : Members} {method : String} {params : Option Json} (id : Json)
    (henvelope : Envelope value object method params) (hid : containsKey object "id" = true) :
    Replies id (request S exchange method id params state channel).1
      ∧ Advances value state (request S exchange method id params state channel).2.1
      ∧ Forwarded S exchange value state channel
        (request S exchange method id params state channel).2.2 := by
  unfold request
  split
  case isTrue => exact ⟨.result _ _, .kept _, .inl rfl⟩
  case isFalse =>
  split
  case isTrue hmethod =>
    obtain ⟨rfl, rfl⟩ := hmethod
    split
    case h_1 p hp =>
      split
      case isTrue hformed =>
        exact ⟨.result _ _, .initialized ⟨object, params, p, henvelope, hid, hp, hformed⟩, .inl rfl⟩
      case isFalse => exact ⟨.invalidParams _, .kept _, .inl rfl⟩
    case h_2 => exact ⟨.invalidParams _, .kept _, .inl rfl⟩
  case isFalse =>
  split
  case isTrue => exact ⟨.result _ _, .kept _, .inl rfl⟩
  case isFalse =>
  split
  case isTrue hmethod =>
    obtain ⟨rfl, hready⟩ := hmethod
    split
    case h_1 r hr =>
      obtain ⟨call, hcall, hwork⟩ := Option.bind_eq_some_iff.mp hr
      refine ⟨.result _ _, .kept _, .inr ⟨r, hready, ?_, rfl⟩⟩
      unfold workRequest at hwork
      split at hwork
      case h_1 => cases hwork
      case h_2 op hop =>
        split at hwork
        case isTrue => cases hwork
        case isFalse hfree =>
          obtain ⟨w, hw, rfl⟩ := Option.map_eq_some_iff.mp hwork
          exact ⟨object, params, call, op, henvelope, hid, hcall, hop, by simpa using hfree, rfl,
            Option.isSome_of_eq_some hw⟩
    case h_2 => exact ⟨.invalidParams _, .kept _, .inl rfl⟩
  case isFalse =>
  split
  case isTrue => exact ⟨.invalidParams _, .kept _, .inl rfl⟩
  case isFalse => exact ⟨.error (by decide), .kept _, .inl rfl⟩

theorem notification_iff {object : Members} :
    Notification (.object object) ↔ containsKey object "id" = false := by
  unfold Notification
  constructor
  · rintro ⟨_, ⟨⟩, h⟩
    exact h
  · exact fun h => ⟨object, rfl, h⟩

/-- An envelope that is refused changes nothing; it is answered unless it is a notification. -/
theorem Dispatched.refused {object : Members} {reply : Json} (hreply : Replies (replyId (.object object)) reply) :
    Dispatched S exchange (.object object) state channel
      (if (!containsKey object "id") = true then none else some reply, state, channel) where
  advances := .kept _
  forwarded := .inl rfl
  silent h := by simp [notification_iff.mp h]
  replied h := by
    rw [notification_iff, Bool.not_eq_false] at h
    exact ⟨reply, by simp [h], hreply⟩

theorem dispatch_invalid {object : Members} (h : validEnvelope object = false) :
    dispatch S exchange (.object object) state channel
      = (if (!containsKey object "id") = true then none else some (invalidRequest .null), state,
        channel) := by
  simp [dispatch, h]

theorem dispatch_valid {object : Members} {method : String} {params taken : Option Json}
    (hvalid : validEnvelope object = true) (hmethod : methodOf object = some method)
    (htaken : takeMeta (get? object "params") = (params, taken)) :
    dispatch S exchange (.object object) state channel
      = if taken.any (fun m => !validMeta m) = true then
          (if (!containsKey object "id") = true then none
            else some (invalidParams ((get? object "id").getD .null)), state, channel)
        else if (!containsKey object "id") = true then
          (none, if method = "notifications/initialized" ∧ state = .initialized ∧ empty params = true then
              .ready else state, channel)
        else
          let out := request S exchange method ((get? object "id").getD .null) params state channel
          (some out.1, out.2.1, out.2.2) := by
  simp only [dispatch, hvalid, hmethod, htaken]

variable (S exchange value state channel) in
/-- One message advances the state at most, reaches the owner through a tool call only, and is
answered once unless it is a notification. -/
theorem dispatched : Dispatched S exchange value state channel
    (dispatch S exchange value state channel) := by
  have hother : ∀ v : Json, (∀ object, v ≠ .object object) → replyId v = .null →
      Dispatched S exchange v state channel (some (invalidRequest .null), state, channel) := by
    intro v hv hid
    exact {
      advances := .kept _
      forwarded := .inl rfl
      silent := fun ⟨object, hobject, _⟩ => absurd hobject (hv object)
      replied := fun _ => ⟨_, rfl, hid ▸ .error (by decide)⟩ }
  cases value with
  | null => exact hother _ (by simp) rfl
  | bool b => exact hother _ (by simp) rfl
  | number n => exact hother _ (by simp) rfl
  | string s => exact hother _ (by simp) rfl
  | array values => exact hother _ (by simp) rfl
  | object object =>
    cases hvalid : validEnvelope object with
    | false =>
      have hreply : Replies (replyId (.object object)) (invalidRequest .null) := by
        simp only [replyId, hvalid]
        exact .error (by decide)
      rw [dispatch_invalid hvalid]
      exact .refused hreply
    | true =>
      have hid : replyId (.object object) = (get? object "id").getD .null := by simp [replyId, hvalid]
      obtain ⟨method, hmethod⟩ : ∃ method, methodOf object = some method := by
        cases hmethod : methodOf object with
        | none => simp [validEnvelope, hmethod] at hvalid
        | some method => exact ⟨method, rfl⟩
      obtain ⟨params, taken, htaken⟩ : ∃ params taken,
          takeMeta (get? object "params") = (params, taken) := ⟨_, _, rfl⟩
      rw [dispatch_valid hvalid hmethod htaken]
      split
      case isTrue => exact .refused (hid ▸ .invalidParams _)
      case isFalse hmeta =>
        have henvelope : Envelope (.object object) object method params := by
          refine ⟨rfl, hvalid, hmethod, by rw [htaken], ?_⟩
          intro m hm
          rw [htaken] at hm
          obtain rfl : taken = some m := hm
          simpa using hmeta
        split
        case isTrue hnotified =>
          rw [Bool.not_eq_true'] at hnotified
          refine ⟨?_, .inl rfl, fun _ => rfl, fun h => absurd (notification_iff.mpr hnotified) h⟩
          simp only
          split
          case isTrue hready =>
            obtain ⟨rfl, rfl, hempty⟩ := hready
            exact .ready ⟨object, _, henvelope, hnotified, hempty⟩
          case isFalse => exact .kept _
        case isFalse hrequest =>
          rw [Bool.not_eq_true', Bool.not_eq_false] at hrequest
          have hall := requested S exchange state channel ((get? object "id").getD .null) henvelope
            hrequest
          refine ⟨hall.2.1, hall.2.2, fun h => ?_, fun _ => ⟨_, rfl, hid ▸ hall.1⟩⟩
          rw [notification_iff, hrequest] at h
          cases h

/-- A call is answered with what comes back for its request. -/
theorem dispatch_toolCall {call : Json} (h : ToolCall S value call) :
    dispatch S exchange value .ready channel
      = (some (result (replyId value) (callResult S (forward S exchange call channel).1)), .ready,
        (forward S exchange call channel).2) := by
  obtain ⟨object, params, parsed, op, henvelope, hid, hparsed, hop, hfree, rfl, hsome⟩ := h
  obtain ⟨w, hw⟩ := Option.isSome_iff_exists.mp hsome
  have hwork : workRequest S parsed = some (.object (OrdMap.insertEntry "op" (.string op) parsed.arguments)) := by
    simp [workRequest, hop, hfree, hw]
  have htaken : takeMeta (get? object "params") = (params, (takeMeta (get? object "params")).2) := by
    rw [henvelope.params]
  have hmeta : ¬ (takeMeta (get? object "params")).2.any (fun m => !validMeta m) = true := by
    cases hm : (takeMeta (get? object "params")).2 with
    | none => simp
    | some m => simp [henvelope.metadata m hm]
  rw [henvelope.isObject, dispatch_valid henvelope.valid henvelope.method htaken, if_neg hmeta, if_neg]
  · simp [request, hparsed, hwork, replyId, henvelope.valid]
  · simp [hid]

end Dispatch

section Runs

variable {S : Serde} {x : Exchange} {channel : FramedChannel} {f : Frontend}
  {history : List ((Json × Exchange) × Option Json)}

/-- Whatever the stream meets, no more goes out than one frame of the request. -/
theorem forward_outgoing (S : Serde) (x : Exchange) (request : Json) (channel : FramedChannel) :
    ∃ sent, sent <+: frame (S.text request)
      ∧ (forward S (exchange S x) request channel).2.outgoing = channel.outgoing ++ sent := by
  have hexchange : wp (exchange S x request)
      (fun _ c' => c'.outgoing = channel.outgoing ++ frame (S.text request))
      (fun _ c' => ∃ sent, sent <+: frame (S.text request)
        ∧ c'.outgoing = channel.outgoing ++ sent) channel := by
    simp only [exchange, wp_bind]
    apply wp_mono (FramedChannel.wp_send request)
    · rintro _ c₁ ⟨-, -, rfl⟩
      apply wp_mono FramedChannel.wp_receive
      · rintro _ c₂ ⟨-, _, _, -, -, -, rfl⟩
        rfl
      · rintro _ c₂ ⟨_, -, rfl⟩
        exact ⟨_, List.prefix_refl _, rfl⟩
    · rintro _ c₁ ⟨sent, hsent, -, -, rfl⟩
      exact ⟨sent, hsent.trans (wire_prefix_frame _ _), rfl⟩
  unfold forward
  split
  case isTrue => exact ⟨[], List.nil_prefix, (List.append_nil _).symm⟩
  case isFalse =>
    cases hres : exchange S x request channel with
    | ok response c' =>
      have houtgoing := wp_ok hexchange hres
      exact ⟨_, List.prefix_refl _, houtgoing⟩
    | error e c' =>
      have houtgoing := wp_error hexchange hres
      exact houtgoing

/-- What the frontend does with one message. -/
structure Conforms (S : Serde) (value : Json) (reply : Option Json) (f f' : Frontend) : Prop where
  advances : Advances value f.state f'.state
  sent : f'.channel.outgoing = f.channel.outgoing ∨ ∃ request sent, f.state = .ready
    ∧ ToolCall S value request ∧ sent <+: frame (S.text request)
    ∧ f'.channel.outgoing = f.channel.outgoing ++ sent
  silent : Notification value → reply = none
  replied : ¬ Notification value → ∃ r, reply = some r ∧ Replies (replyId value) r

theorem conforms (S : Serde) (call : Json × Exchange) (f : Frontend) :
    Conforms S call.1 (serve S call f).1 f (serve S call f).2 := by
  have hdispatched := dispatched S (exchange S call.2) call.1 f.state f.channel
  refine ⟨hdispatched.advances, ?_, hdispatched.silent, hdispatched.replied⟩
  rcases hdispatched.forwarded with hsame | ⟨request, hready, hcall, hforward⟩
  · exact .inl (congrArg _ hsame)
  · obtain ⟨sent, hsent, houtgoing⟩ := forward_outgoing S call.2 request f.channel
    refine .inr ⟨request, sent, hready, hcall, hsent, ?_⟩
    rw [← houtgoing, ← hforward]
    rfl

def State.rank : State → Nat
  | .initializing => 0
  | .initialized => 1
  | .ready => 2

theorem Advances.rank_le {value : Json} {state state' : State} (h : Advances value state state') :
    state.rank ≤ state'.rank := by
  cases h with
  | kept => exact Nat.le_refl _
  | initialized => decide
  | ready => decide

/-- On every sequence of messages the frontend follows its protocol. -/
theorem frontend_conforms
    (h : Ran (serve S) { state := .initializing, channel } history f) :
    (∀ before call reply since, history = before ++ (call, reply) :: since → ∃ mid next,
      Ran (serve S) { state := .initializing, channel } before mid
        ∧ Ran (serve S) { state := .initializing, channel } (before ++ [(call, reply)]) next
        ∧ Conforms S call.1 reply mid next)
    ∧ ∀ later f', Ran (serve S) f later f' → f.state.rank ≤ f'.state.rank := by
  constructor
  · rintro before call reply since rfl
    obtain ⟨mid, hmid, hreply⟩ := h.answered
    change reply = (serve S call mid).1 at hreply
    subst hreply
    exact ⟨mid, (serve S call mid).2, hmid, hmid.call call, conforms S call mid⟩
  · intro later f' hlater
    refine hlater.invariant (I := fun _ f' => f.state.rank ≤ f'.state.rank) (Nat.le_refl _) ?_
    intro _ g _ hrank call
    exact le_trans hrank (conforms S call g).advances.rank_le

def metadataArguments : Members :=
  [("fields", .array [.string "Label"]), ("record", .string "00000000-0000-0000-0000-000000000002"),
    ("task", .string "00000000-0000-0000-0000-000000000001")]

def metadataRequest : Json :=
  .object (OrdMap.insertEntry "op" (.string "metadata") metadataArguments)

/-- It knows one request. -/
def aliceSerde : Serde where
  toSerdeJson := .reference
  workRequest v :=
    if v.tokens = metadataRequest.tokens then some (.metadata 1 2 {.label}) else none

def denied : Json := .obj [("ok", .bool false), ("error", .string "access denied")]

def message (id : Option UInt64) (method : String) (params : List (String × Json)) : Json :=
  .obj ([("jsonrpc", .string "2.0"), ("method", .string method), ("params", .obj params)]
    ++ (id.map fun n => ("id", num n)).toList)

def silence : Exchange := { sending := .clear, arriving := [], receiving := .clear }

/-- A client initializes, calls a tool before it is ready, is ready, and calls it again. -/
def aliceMessages : List (Json × Exchange) :=
  [(message (some 1) "initialize" [("protocolVersion", .string "2025-11-25"),
      ("capabilities", .obj []), ("clientInfo", .obj [("name", .string "sdk"),
        ("version", .string "1")])], silence),
    (message (some 2) "tools/call" [("name", .string "credman_metadata"),
      ("arguments", .object metadataArguments)], silence),
    (message none "notifications/initialized" [], silence),
    (message (some 3) "tools/call" [("name", .string "credman_metadata"),
      ("arguments", .object metadataArguments)],
      { silence with arriving := frame (aliceSerde.text denied) })]

def aliceFrontend : List ((Json × Exchange) × Option Json) × Frontend :=
  Ran.play (serve aliceSerde) { state := .initializing, channel := freshChannel } aliceMessages

theorem frontend_conforms_alice :
    aliceFrontend.2.state = .ready
      ∧ aliceFrontend.2.channel.outgoing = frame (aliceSerde.text metadataRequest)
      ∧ (∀ before call reply since, aliceFrontend.1 = before ++ (call, reply) :: since →
        ∃ mid next, Ran (serve aliceSerde) { state := .initializing, channel := freshChannel } before mid
          ∧ Ran (serve aliceSerde) { state := .initializing, channel := freshChannel }
            (before ++ [(call, reply)]) next
          ∧ Conforms aliceSerde call.1 reply mid next)
      ∧ ∀ later f', Ran (serve aliceSerde) aliceFrontend.2 later f' →
        aliceFrontend.2.state.rank ≤ f'.state.rank :=
  ⟨by decide +kernel, by decide +kernel, frontend_conforms (Ran.of_play aliceMessages)⟩

end Runs

end Credman.Mcp
