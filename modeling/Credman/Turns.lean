import Credman.Answers
import Credman.Supervisor

/-! What happens at a store, as calls of its vault: every message comes to one call at most, and
whatever else happens opens, closes or maintains. -/
namespace Credman

open Library Library.Checked Relation DurableVault

variable {P : Platform} {S : AdminSerde} {fleet : Fleet} {d : Deployment} {i : Nat}
  {owner : DurableVault} {faults : List Fault}

/-! The call of a message. -/

/-- The call a request of the administrator comes to; the others only look. -/
def AdminRequest.call (owner : DurableVault) (turn : Turn) (destinations : List Destination)
    (ctx : AuthenticatedContext) : AdminRequest → Option Call
  | .work (.mutate task request (.share record expected grant)) =>
    some (.mutate ctx task request (.share record expected grant) (turn.rest.now 0))
  | .work request => (request.call owner turn.rest destinations ctx).toOption
  | .control (.importSecret task request kind values) =>
    some (.importForTask ctx task request kind values (turn.rest.now 0))
  | .control (.readSecret task record fields) => some (.readForTask ctx task record fields (turn.rest.now 0))
  | .control (.approve approval) => some (.approveTask ctx approval (turn.rest.now 0))
  | .control (.revokeTask task) => some (.revokeTask ctx task (turn.rest.now 0))
  | .control _ => none

/-- The call a message comes to. -/
def Broker.call (S : AdminSerde) (owner : DurableVault) (b : Broker) (p : Peer) (value : Json) (turn : Turn) :
    Option Call :=
  if p.admin then
    (AdminRequest.parse S value).toOption.bind fun request =>
      request.call owner turn b.config.destinations p.context
  else
    (S.workRequest value).bind fun request =>
      if p.session.any fun id => !b.sessions.permits id request.task (turn.now 1) then none
      else (request.call owner turn.rest b.config.destinations p.context).toOption

/-- The fleet once the call, if there is one, has been made. -/
def Fleet.after (P : Platform) (fleet : Fleet) (i : Nat) (call : Option Call) (faults : List Fault) : Fleet :=
  match call with
  | none => fleet
  | some call => (fleet.step P i call faults).1

theorem Fleet.after_toOption (P : Platform) (fleet : Fleet) (i : Nat) (call : Except Error Call)
    (faults : List Fault) : fleet.after P i call.toOption faults = match call with
      | .error _ => fleet
      | .ok call => (fleet.step P i call faults).1 := by
  cases call <;> rfl

section Host

variable {α β : Type}

theorem Fleet.host_mapped (f : α → β) (program : DurableVault → VaultIo (DurableVault × α)) :
    fleet.host i faults (fun owner => do
      let out ← program owner
      pure (out.1, f out.2))
    = ((fleet.host i faults program).1, (fleet.host i faults program).2.map f) := by
  cases howner : (fleet.stores i).owner with
  | none =>
    unfold Fleet.host
    rw [howner]
    rfl
  | some owner =>
    rw [Fleet.host_eq howner, Fleet.host_eq howner, Fleet.mapped_eq]
    cases program owner (fleet.machine i faults) with
    | ok out m => rfl
    | error e m => rfl

theorem Fleet.host_asked (program : DurableVault → VaultIo (DurableVault × α)) (answer : α → Answer) :
    (fleet.host i faults program).1 = (fleet.ask i faults program answer).1 := by
  cases howner : (fleet.stores i).owner with
  | none =>
    unfold Fleet.host Fleet.ask
    rw [howner]
  | some owner =>
    rw [Fleet.host_eq howner, Fleet.ask_eq howner]
    cases program owner (fleet.machine i faults) with
    | ok out m => rfl
    | error e m => rfl

theorem host_work_fst (howner : (fleet.stores i).owner = some owner) (around : Surroundings)
    (destinations : List Destination) (ctx : AuthenticatedContext) (request : WorkRequest) :
    (fleet.host i faults (fun owner => owner.work P around destinations ctx request)).1
      = fleet.after P i (request.call owner around destinations ctx).toOption faults := by
  rw [Fleet.host_work P howner, Fleet.after_toOption]
  cases request.call owner around destinations ctx <;> rfl

end Host

section Serve

variable {turn : Turn} {destinations : List Destination} {ctx : AuthenticatedContext}
  {sessions sessions' : Sessions} {handled : Handled (Json × Bool)}

/-- What a request of the administrator does to the vault and to the table of sessions. -/
theorem host_admin (howner : (fleet.stores i).owner = some owner) (turn : Turn)
    (destinations : List Destination) (ctx : AuthenticatedContext) (sessions : Sessions)
    (request : AdminRequest) :
    (fleet.host i faults
        (fun owner => owner.admin P S.toSerdeJson turn destinations ctx sessions request)).1
      = fleet.after P i (request.call owner turn destinations ctx) faults
    ∧ ∀ sessions' handled, (fleet.host i faults
        (fun owner => owner.admin P S.toSerdeJson turn destinations ctx sessions request)).2
      = some (sessions', handled) → sessions' = sessions
        ∨ ∃ control, sessions' = (owner.look P S.toSerdeJson turn ctx sessions control).1 := by
  -- a program that hands the table of sessions on
  have hkeeps : ∀ {α : Type} (program : DurableVault → VaultIo (DurableVault × α))
      (f : α → Handled (Json × Bool)) (fleet' : Fleet), (fleet.host i faults program).1 = fleet' →
      (fleet.host i faults (fun owner => do
        let out ← program owner
        pure (out.1, sessions, f out.2))).1 = fleet'
      ∧ ∀ sessions' handled, (fleet.host i faults (fun owner => do
        let out ← program owner
        pure (out.1, sessions, f out.2))).2 = some (sessions', handled) → sessions' = sessions
          ∨ ∃ control, sessions' = (owner.look P S.toSerdeJson turn ctx sessions control).1 := by
    intro α program f fleet' hfleet
    rw [Fleet.host_mapped (fun a => (sessions, f a))]
    refine ⟨hfleet, fun sessions' handled h => .inl ?_⟩
    obtain ⟨a, -, heq⟩ := Option.map_eq_some_iff.mp h
    exact (congrArg Prod.fst heq).symm
  have hlook : ∀ (control : AdminControl)
      {program : DurableVault → VaultIo (DurableVault × Sessions × Handled (Json × Bool))},
      program owner = pure (owner, (owner.look P S.toSerdeJson turn ctx sessions control).1,
        .result (owner.look P S.toSerdeJson turn ctx sessions control).2) →
      (fleet.host i faults program).1 = fleet ∧ ∀ sessions' handled, (fleet.host i faults program).2
        = some (sessions', handled) → sessions' = sessions
          ∨ ∃ control, sessions' = (owner.look P S.toSerdeJson turn ctx sessions control).1 := by
    intro control program h
    rw [Fleet.host_pure howner _ h]
    refine ⟨rfl, fun sessions' handled h => .inr ⟨control, ?_⟩⟩
    exact (congrArg Prod.fst (Option.some.inj h)).symm
  cases request with
  | work request =>
    cases request with
    | generate | metadata | «use» => exact hkeeps _ _ _ (host_work_fst howner _ _ _ _)
    | mutate task request mutation =>
      cases mutation with
      | create | generate | patch | delete | revoke | reportOutcome =>
        exact hkeeps _ _ _ (host_work_fst howner _ _ _ _)
      | share record expected grant =>
        exact hkeeps (fun owner => owner.mutate P ctx task request (.share record expected grant)
          (turn.rest.now 0)) (fun r => .result (r.map fun r => ((WorkReply.receipt r).json, false))) _
          (Fleet.host_asked _ Answer.receipt)
  | control control =>
    cases control with
    | importSecret task request kind values =>
      exact hkeeps (fun owner => owner.importForTask P ctx task request kind values (turn.rest.now 0))
        (fun r => .result (r.map fun r => ((WorkReply.receipt r).json, false))) _
        (Fleet.host_asked _ Answer.receipt)
    | readSecret task record fields =>
      exact hkeeps (fun owner => owner.readForTask P ctx task record fields (turn.rest.now 0))
        (fun r => .result (r.map fun values => (disclosureJson values, false))) _
        (Fleet.host_asked _ Answer.values)
    | approve approval =>
      exact hkeeps (fun owner => owner.approveTask P ctx approval (turn.rest.now 0))
        (fun r => .result (r.map fun _ => (okJson, false))) _ (Fleet.host_asked _ Answer.done)
    | revokeTask task =>
      exact hkeeps (fun owner => owner.revokeTask P ctx task (turn.rest.now 0))
        (fun r => .result (r.map fun _ => (okJson, false))) _ (Fleet.host_asked _ Answer.done)
    | status => exact hlook .status rfl
    | issueSession principal tasks expiresAt => exact hlook (.issueSession principal tasks expiresAt) rfl
    | revokeSession session => exact hlook (.revokeSession session) rfl
    | audit offset => exact hlook (.audit offset) rfl
    | listTasks offset => exact hlook (.listTasks offset) rfl
    | listRecords offset => exact hlook (.listRecords offset) rfl
    | listGrants offset record => exact hlook (.listGrants offset record) rfl
    | listSessions offset => exact hlook (.listSessions offset) rfl
    | shutdown => exact hlook .shutdown rfl

/-- A message is one call of the vault at most, and only the administrator's reach the sessions. -/
theorem host_serve (howner : (fleet.stores i).owner = some owner) (b : Broker) (p : Peer) (value : Json)
    (turn : Turn) :
    (fleet.host i faults (fun owner => b.serve P S owner p value turn)).1
      = fleet.after P i (b.call S owner p value turn) faults
    ∧ ∀ sessions handled, (fleet.host i faults (fun owner => b.serve P S owner p value turn)).2
      = some (sessions, handled) → sessions = b.sessions ∨ p.admin = true
        ∧ ∃ control, sessions = (owner.look P S.toSerdeJson turn p.context b.sessions control).1 := by
  have hrefused : ∀ {e : Error}
      {program : DurableVault → VaultIo (DurableVault × Sessions × Handled (Json × Bool))},
      program owner = pure (owner, b.sessions, .result (.error e)) →
      (fleet.host i faults program).1 = fleet ∧ ∀ sessions handled,
        (fleet.host i faults program).2 = some (sessions, handled) → sessions = b.sessions ∨ p.admin = true
        ∧ ∃ control, sessions = (owner.look P S.toSerdeJson turn p.context b.sessions control).1 := by
    intro e program h
    rw [Fleet.host_pure howner _ h]
    exact ⟨rfl, fun sessions handled h => .inl (congrArg Prod.fst (Option.some.inj h)).symm⟩
  unfold Broker.serve Broker.call
  by_cases hadmin : p.admin = true
  · simp only [if_pos hadmin]
    cases AdminRequest.parse S value with
    | error e => exact hrefused rfl
    | ok request =>
      obtain ⟨hfleet, hsessions⟩ :=
        host_admin howner turn b.config.destinations p.context b.sessions request
      exact ⟨hfleet, fun sessions handled h => (hsessions sessions handled h).imp id fun h => ⟨hadmin, h⟩⟩
  · simp only [if_neg hadmin]
    cases S.workRequest value with
    | none => exact hrefused rfl
    | some request =>
      simp only [Option.bind_some]
      split_ifs with hsession
      · exact hrefused rfl
      · rw [Fleet.host_mapped (fun handled => (b.sessions, Handled.served handled))]
        refine ⟨host_work_fst howner _ _ _ _, fun sessions handled h => .inl ?_⟩
        obtain ⟨a, -, heq⟩ := Option.map_eq_some_iff.mp h
        exact (congrArg Prod.fst heq).symm

end Serve

/-! The fleet after a happening. -/

/-- A call that hands nothing over and makes no request of a vault. -/
def Call.housekeeping : Call → Bool
  | .create _ | .open _ | .recover .. | .restore .. | .close | .rekey .. | .exportBackup .. => true
  | _ => false

/-- Calls at one store that only open, close and maintain it. -/
abbrev Fleet.Tended (P : Platform) (i : Nat) : Fleet → Fleet → Prop :=
  Fleet.Runs P fun _ j call => j = i ∧ call.housekeeping = true

theorem Fleet.Tended.call {call : Call} (hcall : call.housekeeping = true) (faults : List Fault) :
    Fleet.Tended P i fleet (fleet.step P i call faults).1 :=
  .single ⟨i, call, faults, ⟨rfl, hcall⟩, rfl⟩

theorem Operation.housekeeping (admin : AuthenticatedContext) (seed : String) (operation : Operation) :
    (operation.calls admin seed).1.housekeeping = true
      ∧ ∀ call, (operation.calls admin seed).2 = some call → call.housekeeping = true := by
  cases operation with
  | backup | rekey =>
    refine ⟨rfl, fun call hcall => ?_⟩
    cases hcall
    rfl
  | restore | recover => exact ⟨rfl, fun call hcall => by cases hcall⟩

theorem tended_maintain {calls : Call × Option Call} (hfirst : calls.1.housekeeping = true)
    (hthen : ∀ call, calls.2 = some call → call.housekeeping = true) (faults : List (List Fault)) :
    Fleet.Tended P i fleet (fleet.maintain P i calls faults) := by
  have hentered : Fleet.Tended P i fleet (fleet.step P i calls.1 (faults.headD [])).1 := .call hfirst _
  unfold Fleet.maintain
  simp only
  split
  · cases hcall : calls.2 with
    | none => exact hentered.tail ⟨i, .close, [], ⟨rfl, rfl⟩, rfl⟩
    | some call =>
      have hasked := hentered.trans (Fleet.Tended.call (hthen call hcall) (faults.tail.headD []))
      exact hasked.tail ⟨i, .close, [], ⟨rfl, rfl⟩, rfl⟩
  · exact hentered

/-- A message that a peer of a running process sends, and that is handled. -/
structure Deployment.Heard (d : Deployment) (i n : Nat) (b : Broker) (p : Peer) (turn : Turn) : Prop where
  running : d.brokers i = some b
  peer : b.peers[n]? = some p
  active : p.active = true
  live : p.session.any (fun id => !b.sessions.live id (turn.now 0)) = false

/-- The fleet a message leaves, and what its handling came to. -/
abbrev Deployment.handled (P : Platform) (S : AdminSerde) (d : Deployment) (i : Nat) (b : Broker) (p : Peer)
    (value : Json) (turn : Turn) (faults : List Fault) : Fleet × Option (Sessions × Handled (Json × Bool)) :=
  d.fleet.host i faults (fun owner => b.serve P S owner p value turn)

/-- Everything a happening can do. -/
inductive Turned (P : Platform) (S : AdminSerde) (d : Deployment) (i : Nat) (faults : List (List Fault)) :
    Happening → Deployment → Prop
  | idle (happening : Happening) : Turned P S d i faults happening d
  | refused {config : SupervisorConfig} {bridge : Option String} {seed : String} {create : Bool}
      {files : FileSystem} {sessionDeadline : Time} :
    Turned P S d i faults (.launched config bridge seed create files sessionDeadline)
      { d with fleet := (d.fleet.step P i (if create then .create seed else .open seed) (faults.headD [])).1 }
  | launched {config : SupervisorConfig} {bridge : Option String} {seed : String} {create : Bool}
      {files : FileSystem} {sessionDeadline : Time} {lifetimes : UInt64 × Option UInt64}
      (hcheck : config.check files bridge = .ok lifetimes) :
    Turned P S d i faults (.launched config bridge seed create files sessionDeadline)
      (d.put i (d.fleet.step P i (if create then .create seed else .open seed) (faults.headD [])).1
        (some (Broker.new config bridge sessionDeadline)))
  | maintained {identity : Identity} {seed : String} {operation : Operation} (hvalid : identity.valid = true) :
    Turned P S d i faults (.maintained identity seed operation)
      { d with fleet := d.fleet.maintain P i (operation.calls (.fromAuthenticatedAdmin identity.owner
          identity.principal identity.workspace) seed) faults }
  | ignored {happening : Happening} {b : Broker} {n : Nat} {p : Peer} (hrunning : d.brokers i = some b)
      (hpeer : b.peers[n]? = some p) :
    Turned P S d i faults happening (d.put i d.fleet (some (b.setActive n p false)))
  | died {n : Nat} {value : Json} {turn : Turn} {sent : Bool} {b : Broker} {p : Peer}
      (hheard : d.Heard i n b p turn) :
    Turned P S d i faults (.message n value turn sent)
      (d.put i (d.handled P S i b p value turn (faults.headD [])).1 none)
  | ended {n : Nat} {value : Json} {turn : Turn} {sent : Bool} {b : Broker} {p : Peer}
      (hheard : d.Heard i n b p turn) :
    Turned P S d i faults (.message n value turn sent)
      (({ d with fleet := (d.handled P S i b p value turn (faults.headD [])).1 } : Deployment).exit P i)
  | answered {n : Nat} {value : Json} {turn : Turn} {sent : Bool} {b b' : Broker} {p : Peer}
      {sessions : Sessions} {served : Served} (hheard : d.Heard i n b p turn)
      (hserved : (d.handled P S i b p value turn (faults.headD [])).2 = some (sessions, .result served))
      (hafter : Broker.conclude { b with sessions } n p served sent = some b') :
    Turned P S d i faults (.message n value turn sent)
      (d.put i (d.handled P S i b p value turn (faults.headD [])).1 (some b'))
  | swept {now : Time} {b : Broker} (hrunning : d.brokers i = some b) :
    Turned P S d i faults (.swept now) (d.put i d.fleet (some (b.sweep now)))
  | admitted {token : String} {now : Time} {sent : Bool} {b : Broker} (hrunning : d.brokers i = some b) :
    Turned P S d i faults (.admitted token now sent) (d.put i d.fleet (some (b.admitPeer P token now sent)))
  | exited {happening : Happening} {b : Broker} (hrunning : d.brokers i = some b) :
    Turned P S d i faults happening (d.exit P i)

theorem turned_message {n : Nat} {value : Json} {turn : Turn} {sent : Bool} {b : Broker} {p : Peer}
    {faults : List (List Fault)} (hheard : d.Heard i n b p turn) :
    Turned P S d i faults (.message n value turn sent)
      (d.message P S i b n p value turn sent (faults.headD [])) := by
  unfold Deployment.message
  cases hhost : d.handled P S i b p value turn (faults.headD []) with
  | mk fleet' out =>
    have hdied : Turned P S d i faults (.message n value turn sent)
      (d.put i (d.handled P S i b p value turn (faults.headD [])).1 none) := .died hheard
    have hended : Turned P S d i faults (.message n value turn sent)
      (({ d with fleet := (d.handled P S i b p value turn (faults.headD [])).1 } : Deployment).exit P i) :=
        .ended hheard
    have hfleet : d.fleet.host i (faults.headD []) (fun owner => b.serve P S owner p value turn) = (fleet', out) :=
      hhost
    rw [hhost] at hdied hended
    rw [hfleet]
    cases out with
    | none => exact hdied
    | some out =>
      obtain ⟨sessions, handled⟩ := out
      cases handled with
      | panicked => exact hended
      | result served =>
        simp only
        cases hafter : Broker.conclude { b with sessions } n p served sent with
        | none => exact hended
        | some b' =>
          have hanswered : Turned P S d i faults (.message n value turn sent)
            (d.put i (d.handled P S i b p value turn (faults.headD [])).1 (some b')) :=
              .answered hheard (congrArg Prod.snd hhost) hafter
          rw [hhost] at hanswered
          exact hanswered

theorem turned (d : Deployment) (i : Nat) (happening : Happening) (faults : List (List Fault)) :
    Turned P S d i faults happening (d.step P S i happening faults) := by
  unfold Deployment.step
  cases happening with
  | launched config bridge seed create files sessionDeadline =>
    simp only
    unfold Deployment.launch
    cases hcheck : config.check files bridge with
    | error e => exact .idle _
    | ok lifetimes =>
      simp only
      split
      · rename_i fleet' heq
        have hlaunched : Turned P S d i faults (.launched config bridge seed create files sessionDeadline)
          (d.put i (d.fleet.step P i (if create then .create seed else .open seed) (faults.headD [])).1
            (some (Broker.new config bridge sessionDeadline))) := .launched hcheck
        rw [heq] at hlaunched
        exact hlaunched
      · rename_i fleet' answer hother heq
        have hrefused : Turned P S d i faults (.launched config bridge seed create files sessionDeadline)
          { d with fleet := (d.fleet.step P i (if create then .create seed else .open seed)
              (faults.headD [])).1 } := .refused
        rw [heq] at hrefused
        exact hrefused
  | maintained identity seed operation =>
    simp only
    split_ifs with hvalid
    · exact .maintained hvalid
    · exact .idle _
  | message n value turn sent =>
    cases hbroker : d.brokers i with
    | none => exact .idle _
    | some b =>
      simp only
      cases hpeer : b.peers[n]? with
      | none => exact .idle _
      | some p =>
        simp only
        split_ifs with hactive hlive
        · exact .idle _
        · exact .ignored hbroker hpeer
        · exact turned_message ⟨hbroker, hpeer, by simpa using hactive, by simpa using hlive⟩
  | hungUp n =>
    cases hbroker : d.brokers i with
    | none => exact .idle _
    | some b =>
      simp only
      cases hpeer : b.peers[n]? with
      | none => exact .idle _
      | some p =>
        simp only
        split_ifs
        · exact .exited hbroker
        · exact .ignored hbroker hpeer
  | swept now =>
    cases hbroker : d.brokers i with
    | none => exact .idle _
    | some b => exact .swept hbroker
  | admitted token now sent =>
    cases hbroker : d.brokers i with
    | none => exact .idle _
    | some b => exact .admitted hbroker
  | exited =>
    cases hbroker : d.brokers i with
    | none => exact .idle _
    | some b => exact .exited hbroker

/-- What a happening does to the fleet: a message its one call, and anything else housekeeping. -/
theorem step_fleet (d : Deployment) (i : Nat) (happening : Happening) (faults : List (List Fault)) :
    Fleet.Tended P i d.fleet (d.step P S i happening faults).fleet
    ∨ ∃ n value turn sent b p owner, happening = .message n value turn sent ∧ d.Heard i n b p turn
      ∧ (d.fleet.stores i).owner = some owner
      ∧ Fleet.Tended P i (d.fleet.after P i (b.call S owner p value turn) (faults.headD []))
          (d.step P S i happening faults).fleet := by
  have hexit : ∀ d' : Deployment, Fleet.Tended P i d'.fleet (d'.exit P i).fleet := fun d' =>
    Fleet.Tended.call rfl []
  have hopen : ∀ {seed : String} {create : Bool}, Fleet.Tended P i d.fleet
      (d.fleet.step P i (if create then .create seed else .open seed) (faults.headD [])).1 := by
    intro seed create
    apply Fleet.Tended.call
    cases create <;> rfl
  have hmessage : ∀ {n : Nat} {value : Json} {turn : Turn} {sent : Bool} {b : Broker} {p : Peer}
      {fleet : Fleet}, d.Heard i n b p turn →
      Fleet.Tended P i (d.handled P S i b p value turn (faults.headD [])).1 fleet →
      Fleet.Tended P i d.fleet fleet
      ∨ ∃ n' value' turn' sent' b' p' owner, Happening.message n value turn sent
          = .message n' value' turn' sent' ∧ d.Heard i n' b' p' turn'
        ∧ (d.fleet.stores i).owner = some owner
        ∧ Fleet.Tended P i (d.fleet.after P i (b'.call S owner p' value' turn') (faults.headD [])) fleet := by
    intro n value turn sent b p fleet hheard hafter
    cases howner : (d.fleet.stores i).owner with
    | none =>
      unfold Deployment.handled Fleet.host at hafter
      rw [howner] at hafter
      exact .inl hafter
    | some owner =>
      rw [(host_serve howner b p value turn).1] at hafter
      exact .inr ⟨n, value, turn, sent, b, p, owner, rfl, hheard, rfl, hafter⟩
  have hturned := turned (P := P) (S := S) d i happening faults
  generalize d.step P S i happening faults = d' at hturned ⊢
  cases hturned with
  | idle | ignored | swept | admitted => exact .inl .refl
  | refused | launched => exact .inl hopen
  | maintained =>
    exact .inl (tended_maintain (Operation.housekeeping _ _ _).1 (Operation.housekeeping _ _ _).2 faults)
  | exited => exact .inl (hexit d)
  | died hheard => exact hmessage hheard .refl
  | ended hheard => exact hmessage hheard (hexit { d with fleet := _ })
  | answered hheard => exact hmessage hheard .refl

end Credman
