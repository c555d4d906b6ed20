import Credman.Attachment
import Credman.Plaintext

/-! What an attached agent can reach: the principal and the tasks its session was issued for, until the
session is over. -/
namespace Credman

open Library Library.Checked Relation DurableVault

variable {P : Platform} {S : AdminSerde} {d : Deployment} {b : Broker} {p : Peer} {i n : Nat}

/-- Each attached channel speaks for the entry of its session, and no session is the administrator's. -/
structure Broker.Sessioned (b : Broker) : Prop where
  peers : ∀ p ∈ b.peers, ∀ id session, p.session = some id → b.sessions.entries.get? id = some session →
    session.digest = none ∧ p.context
      = .fromAuthenticatedSession b.config.owner session.principal b.config.workspace session.expiresAt
  workers : ∀ id session, b.sessions.entries.get? id = some session → session.principal ≠ b.config.adminPrincipal

/-- An entry that the administrator leaves was there, or is the one issued. -/
theorem look_entries (owner : DurableVault) (turn : Turn) (ctx : AuthenticatedContext) (sessions : Sessions)
    (control : AdminControl) {id : Uuid} {session : Sessions.Session}
    (h : (owner.look P S.toSerdeJson turn ctx sessions control).1.entries.get? id = some session) :
    sessions.entries.get? id = some session ∨ id = turn.sessionId ∧ session.principal ≠ sessions.admin := by
  have hpurged : ∀ {now : Time}, (sessions.purged now).entries.get? id = some session →
      sessions.entries.get? id = some session := by
    intro now h
    rw [Sessions.purged_get?, Option.filter_eq_some_iff] at h
    exact h.1
  cases control with
  | issueSession principal tasks expiresAt =>
    have hissue := Sessions.wp_issue (P := P) (s := sessions) principal tasks expiresAt (turn.rest.now 0)
      (fun ids who => owner.validateSessionTasks ctx who ids (turn.rest.now 0)) turn.random turn.sessionId
    unfold look at h
    simp only at h
    split at h
    · rename_i grant s' hrun
      obtain ⟨hchecked, -, bytes, socket, -, -, -, rfl⟩ := wp_ok hissue hrun
      change ((sessions.purged _).entries.insert _ _).get? id = some session at h
      rw [OrdMap.get?_insert] at h
      split_ifs at h with hid
      · obtain rfl := Option.some.inj h
        exact .inr ⟨hid.symm, hchecked.worker⟩
      · exact .inl (hpurged h)
    · rename_i e s' hrun
      have hframe := wp_error hissue hrun
      rw [hframe] at h
      exact .inl (hpurged h)
  | revokeSession revoked =>
    change (sessions.entries.erase revoked).get? id = some session at h
    rw [OrdMap.get?_erase] at h
    split_ifs at h
    exact .inl h
  | status | audit | listTasks | listRecords | listGrants | listSessions | shutdown | importSecret
  | readSecret | approve | revokeTask => exact .inl h

namespace Broker.Sessioned

theorem new (config : SupervisorConfig) (bridge : Option String) (sessionDeadline : Time) :
    (Broker.new config bridge sessionDeadline).Sessioned where
  peers p hp id session hsession hentry := by cases hentry
  workers id session hentry := by cases hentry

/-- Peers that stay, and entries that stay. -/
theorem of_sub (h : b.Sessioned) {b' : Broker} (hconfig : b'.config = b.config)
    (hpeers : ∀ p' ∈ b'.peers, ∃ p ∈ b.peers, p'.session = p.session ∧ p'.context = p.context)
    (hentries : ∀ id session, b'.sessions.entries.get? id = some session →
      b.sessions.entries.get? id = some session) : b'.Sessioned where
  peers p' hp' id session hsession hentry := by
    obtain ⟨p, hp, hsame, hcontext⟩ := hpeers p' hp'
    rw [hcontext, hconfig]
    exact h.peers p hp id session (hsame ▸ hsession) (hentries id session hentry)
  workers id session hentry := by
    rw [hconfig]
    exact h.workers id session (hentries id session hentry)

theorem setActive (h : b.Sessioned) (hp : b.peers[n]? = some p) (active : Bool) :
    (b.setActive n p active).Sessioned := by
  refine h.of_sub rfl (fun q hq => ?_) fun _ _ => id
  rcases List.mem_or_eq_of_mem_set hq with hq | rfl
  · exact ⟨q, hq, rfl, rfl⟩
  · exact ⟨p, List.mem_of_getElem? hp, rfl, rfl⟩

theorem sweep (h : b.Sessioned) (now : Time) : (b.sweep now).Sessioned := by
  refine h.of_sub rfl (fun q hq => ⟨q, List.mem_of_mem_filter hq, rfl, rfl⟩) fun id session hentry => ?_
  change (b.sessions.entries.filter _).get? id = some session at hentry
  rw [OrdMap.get?_filter, Option.filter_eq_some_iff] at hentry
  exact hentry.1

theorem admitPeer (h : b.Sessioned) (hsane : b.Sane) (token : String) (now : Time) (sent : Bool) :
    (b.admitPeer P token now sent).Sessioned := by
  have hattach := Sessions.wp_attach (P := P) (s := b.sessions) token now
  unfold Broker.admitPeer
  split
  · rename_i id context sessions hrun
    obtain ⟨session, hentry, -, hdigest, hcontext, rfl⟩ := wp_ok hattach hrun
    change context = _ at hcontext
    change b.sessions.entries.get? id = some session at hentry
    split_ifs
    · constructor
      · intro q hq id' session' hsession hentry'
        change (b.sessions.entries.insert id _).get? id' = some session' at hentry'
        rw [OrdMap.get?_insert] at hentry'
        rcases List.mem_append.mp hq with hq | hq
        · split_ifs at hentry' with hid
          -- the entry still waited for its token, so nobody was attached to it
          · have hwaited := (h.peers q hq id session (hid ▸ hsession) hentry).1
            rw [hdigest] at hwaited
            cases hwaited
          · exact h.peers q hq id' session' hsession hentry'
        · obtain rfl := List.mem_singleton.mp hq
          obtain rfl := Option.some.inj hsession
          rw [if_pos rfl] at hentry'
          obtain rfl := Option.some.inj hentry'
          refine ⟨rfl, ?_⟩
          change context = _
          rw [hcontext, hsane.owner, hsane.workspace]
      · intro id' session' hentry'
        change (b.sessions.entries.insert id _).get? id' = some session' at hentry'
        rw [OrdMap.get?_insert] at hentry'
        split_ifs at hentry'
        · obtain rfl := Option.some.inj hentry'
          exact h.workers id session hentry
        · exact h.workers id' session' hentry'
    · refine h.of_sub rfl (fun q hq => ⟨q, hq, rfl, rfl⟩) fun id' session' hentry' => ?_
      change ((b.sessions.entries.insert id _).erase id).get? id' = some session' at hentry'
      rw [OrdMap.get?_erase, OrdMap.get?_insert] at hentry'
      split_ifs at hentry'
      exact hentry'
  · rename_i e sessions hrun
    have hsame := wp_error hattach hrun
    rw [hsame]
    exact h

theorem conclude (h : b.Sessioned) {b' : Broker} {served : Served} {sent : Bool} (hp : b.peers[n]? = some p)
    (hafter : Broker.conclude b n p served sent = some b') : b'.Sessioned := by
  unfold Broker.conclude at hafter
  simp only at hafter
  split_ifs at hafter
  · exact Option.some.inj hafter ▸ h
  · exact Option.some.inj hafter ▸ h.setActive hp false

/-- What the administrator issues is under an identifier of its own. -/
theorem looked (h : b.Sessioned) (hsane : b.Sane) (owner : DurableVault) (turn : Turn)
    (ctx : AuthenticatedContext) (control : AdminControl)
    (hfresh : ∀ p ∈ b.peers, p.session ≠ some turn.sessionId) :
    Broker.Sessioned { b with sessions := (owner.look P S.toSerdeJson turn ctx b.sessions control).1 } where
  peers p hp id session hsession hentry := by
    rcases look_entries owner turn ctx b.sessions control hentry with hold | ⟨rfl, -⟩
    · exact h.peers p hp id session hsession hold
    · exact absurd hsession (hfresh p hp)
  workers id session hentry := by
    rcases look_entries owner turn ctx b.sessions control hentry with hold | ⟨-, hworker⟩
    · exact h.workers id session hold
    · exact hsane.admin ▸ hworker

end Broker.Sessioned

namespace Deployment

/-- The identifier drawn for a session is not that of a channel. -/
def Fresh (d : Deployment) (i : Nat) (happening : Happening) : Prop :=
  ∀ n value turn sent b, happening = .message n value turn sent → d.brokers i = some b →
    ∀ p ∈ b.peers, p.session ≠ some turn.sessionId

/-- All channels of all processes speak for their sessions. -/
def Sessioned (d : Deployment) : Prop := ∀ i b, d.brokers i = some b → b.Sessioned

theorem Sessioned.put (h : d.Sessioned) (fleet : Fleet) (broker : Option Broker)
    (hbroker : ∀ b, broker = some b → b.Sessioned) : (d.put i fleet broker).Sessioned := by
  intro j b hb
  by_cases hj : j = i
  · subst hj
    rw [put_self] at hb
    exact hbroker b hb
  · rw [put_ne hj] at hb
    exact h j b hb

theorem Sessioned.step (h : d.Sessioned) (hsane : d.Sane) (i : Nat) {happening : Happening}
    (hfresh : d.Fresh i happening) (faults : List (List Fault)) :
    (d.step P S i happening faults).Sessioned := by
  have hturned := turned (P := P) (S := S) d i happening faults
  generalize d.step P S i happening faults = d' at hturned ⊢
  cases hturned with
  | idle | refused | maintained => exact h
  | launched hcheck => exact h.put _ _ fun b hb => Option.some.inj hb ▸ .new _ _ _
  | ignored hrunning hpeer =>
    exact h.put _ _ fun b hb => Option.some.inj hb ▸ (h i _ hrunning).setActive hpeer false
  | died hheard => exact h.put _ _ fun b hb => by cases hb
  | ended hheard | exited hrunning =>
    have hsame : ∀ fleet, ({ d with fleet } : Deployment).Sessioned := fun fleet => h
    exact (hsame _).put _ _ fun b hb => by cases hb
  | @answered n value turn sent b b' p sessions served hheard hserved hafter =>
    refine h.put _ _ fun b'' hb => ?_
    obtain rfl := Option.some.inj hb
    have hold := h i b hheard.running
    suffices hlooked : Broker.Sessioned { b with sessions } from hlooked.conclude hheard.peer hafter
    cases howner : (d.fleet.stores i).owner with
    | none =>
      unfold Deployment.handled Fleet.host at hserved
      rw [howner] at hserved
      cases hserved
    | some owner =>
      rcases (host_serve howner b p value turn).2 _ _ hserved with hsame | ⟨-, control, hlook⟩
      · rw [hsame]
        exact hold
      · rw [hlook]
        exact hold.looked (hsane i b hheard.running) owner turn p.context control
          (hfresh n value turn sent b rfl hheard.running)
  | swept hrunning => exact h.put _ _ fun b hb => Option.some.inj hb ▸ (h i _ hrunning).sweep _
  | admitted hrunning =>
    exact h.put _ _ fun b hb => Option.some.inj hb ▸ (h i _ hrunning).admitPeer (hsane i _ hrunning) _ _ _

theorem Runs.sessioned (h : Deployment.Runs P S Fresh start d) : d.Sessioned := by
  have hall : ∀ {d'}, Deployment.Runs P S Fresh start d' → Deployment.Reachable P S d' := Runs.reachable
  induction h with
  | refl => exact fun _ _ hb => by cases hb
  | tail hmid hgoes ih =>
    obtain ⟨i, happening, faults, hfresh, rfl⟩ := hgoes
    exact ih.step (hall hmid).sane i hfresh faults

end Deployment

/-! What a message of an attached channel comes to. -/

/-- A call that an attached channel has made. -/
structure Confined (S : AdminSerde) (b : Broker) (p : Peer) (id : Uuid) (value : Json) (turn : Turn)
    (owner : DurableVault) (session : Sessions.Session) (request : WorkRequest) (call : Call) : Prop where
  entry : b.sessions.entries.get? id = some session
  attached : session.digest = none
  live : turn.now 0 < session.expiresAt ∧ turn.now 1 < session.expiresAt
  speaks : p.context
    = .fromAuthenticatedSession b.config.owner session.principal b.config.workspace session.expiresAt
  worker : session.principal ≠ b.config.adminPrincipal
  decoded : S.workRequest value = some request
  task : request.task ∈ session.tasks
  made : request.call owner turn.rest b.config.destinations p.context = .ok call

theorem Broker.Sessioned.confined {owner : DurableVault} {turn : Turn} {id : Uuid} {value : Json} {call : Call}
    (h : b.Sessioned) (hsane : d.Sane) (hheard : d.Heard i n b p turn) (hsession : p.session = some id)
    (hcall : b.call S owner p value turn = some call) :
    ∃ session request, Confined S b p id value turn owner session request call := by
  have hgenuine := hsane.genuine hheard
  have hlive := hheard.live
  rw [hsession] at hlive
  have hlive' : b.sessions.live id (turn.now 0) = true := by simpa using hlive
  obtain ⟨session, hentry, hbefore, hdigest⟩ := Sessions.live_iff.mp hlive'
  cases Broker.call_eq_some hcall with
  | admin hadmin =>
    -- the administrator has no session
    cases hgenuine with
    | administrator => cases hsession
    | transferred | attached => cases hadmin
  | @agent request hagent hparse hpermits hmade =>
    obtain ⟨session', hentry', hbefore', -, htask⟩ := Sessions.permits_iff.mp (hpermits id hsession)
    rw [hentry, Option.some.injEq] at hentry'
    subst hentry'
    exact ⟨session, request, hentry, hdigest, ⟨hbefore, hbefore'⟩,
      (h.peers p (List.mem_of_getElem? hheard.peer) id session hsession hentry).2, h.workers id session hentry,
      hparse, htask, hmade⟩

/-- Whatever an attached agent sends, its store is left as it is, but for one call made by the principal of
its session, under a task of the session, while the session lasts; the process may end with it. -/
theorem session_confined (h : Deployment.Runs P S Deployment.Fresh Deployment.start d)
    (hrunning : d.brokers i = some b) (hpeer : b.peers[n]? = some p) {id : Uuid} (hsession : p.session = some id)
    (value : Json) (turn : Turn) (sent : Bool) (faults : List (List Fault)) :
    ∃ call : Option Call, (∀ c, call = some c → ∃ owner session request, (d.fleet.stores i).owner = some owner
        ∧ Confined S b p id value turn owner session request c)
      ∧ ((d.step P S i (.message n value turn sent) faults).fleet = d.fleet.after P i call (faults.headD [])
        ∨ (d.step P S i (.message n value turn sent) faults).fleet
          = ((d.fleet.after P i call (faults.headD [])).step P i .close []).1) := by
  have hsane := h.reachable.sane
  have hnothing : ∀ c : Call, none = some c → ∃ owner session request, (d.fleet.stores i).owner = some owner
      ∧ Confined S b p id value turn owner session request c := fun c h => by cases h
  -- the handling of a message that is heard
  have hhandled : ∀ {b' : Broker} {p' : Peer}, d.Heard i n b' p' turn → ∃ call : Option Call,
      (∀ c, call = some c → ∃ owner session request, (d.fleet.stores i).owner = some owner
        ∧ Confined S b p id value turn owner session request c)
      ∧ (d.handled P S i b' p' value turn (faults.headD [])).1 = d.fleet.after P i call (faults.headD []) := by
    intro b' p' hheard
    obtain rfl := Option.some.inj (hrunning.symm.trans hheard.running)
    obtain rfl := Option.some.inj (hpeer.symm.trans hheard.peer)
    cases howner : (d.fleet.stores i).owner with
    | none =>
      refine ⟨none, (fun c h => by cases h), ?_⟩
      unfold Deployment.handled Fleet.host
      rw [howner]
      rfl
    | some owner =>
      refine ⟨b.call S owner p value turn, fun c hcall => ?_, (host_serve howner b p value turn).1⟩
      obtain ⟨session, request, hconfined⟩ := (h.sessioned i b hrunning).confined hsane hheard hsession hcall
      exact ⟨owner, session, request, rfl, hconfined⟩
  have hturned := turned (P := P) (S := S) d i (.message n value turn sent) faults
  generalize d.step P S i (.message n value turn sent) faults = d' at hturned ⊢
  cases hturned with
  | idle | ignored => exact ⟨none, hnothing, .inl rfl⟩
  | exited => exact ⟨none, hnothing, .inr rfl⟩
  | died hheard | answered hheard =>
    obtain ⟨call, hconfined, hfleet⟩ := hhandled hheard
    exact ⟨call, hconfined, .inl hfleet⟩
  | ended hheard =>
    obtain ⟨call, hconfined, hfleet⟩ := hhandled hheard
    refine ⟨call, hconfined, .inr ?_⟩
    rw [← hfleet]
    rfl

def issueJson : Json :=
  .obj [("op", .string "issue_session"), ("principal", .string "alice"), ("tasks", .array [idJson 1]),
    ("expires_at", natJson 300)]

/-- The household once an agent of Alice is attached for her task. -/
def attachedHousehold : Deployment :=
  (household.step .reference householdSerde 0 (.message 0 issueJson (householdTurn 8) true) []).step
    .reference householdSerde 0 (.admitted aliceToken 11 true) []

theorem attachedHousehold_runs :
    Deployment.Runs .reference householdSerde Deployment.Fresh Deployment.start attachedHousehold := by
  have hmessage : ∀ {d : Deployment} {n : Nat} {value : Json} {now : Time},
      ((d.brokers 0).all fun b => b.peers.all fun p => p.session != some 21) = true →
      d.Fresh 0 (.message n value (householdTurn now) true) := by
    rintro d n value now hpeers _ _ _ _ b ⟨⟩ hrunning p hp hsession
    rw [hrunning] at hpeers
    have hother := List.all_eq_true.mp hpeers p hp
    rw [hsession] at hother
    cases hother
  refine ((((ReflTransGen.single ⟨0, _, [], ?launched, rfl⟩).tail ⟨0, _, [], hmessage ?approve, rfl⟩).tail
    ⟨0, _, [], hmessage ?importing, rfl⟩).tail ⟨0, _, [], hmessage ?issue, rfl⟩).tail
    ⟨0, _, [], ?attach, rfl⟩
  case launched | attach => exact fun _ _ _ _ _ h => by cases h
  case approve | importing | issue => decide +kernel

theorem session_confined_household : ∃ b p call owner session request,
    attachedHousehold.brokers 0 = some b ∧ b.peers[2]? = some p
      ∧ Confined householdSerde b p 21 useJson (householdTurn 12) owner session request call := by
  have hpeers : ((attachedHousehold.brokers 0).any fun b => b.peers[2]?.any fun p =>
      p.session == some 21) = true := by decide +kernel
  have hbefore : attachedHousehold.fleet.session.handoffs.length = 0 := by decide +kernel
  have hafter : (attachedHousehold.step .reference householdSerde 0
      (.message 2 useJson (householdTurn 12) true) []).fleet.session.handoffs.length = 1 := by decide +kernel
  obtain ⟨b, hrunning, hpeer⟩ := (Option.any_eq_true _ _).mp hpeers
  obtain ⟨p, hpeer, hsession⟩ := (Option.any_eq_true _ _).mp hpeer
  obtain ⟨call, hconfined, hfleet⟩ := session_confined attachedHousehold_runs hrunning hpeer
    (beq_iff_eq.mp hsession) useJson (householdTurn 12) true []
  cases call with
  | none =>
    -- the mailbox was used, so there was a call
    have hsame : ∀ (fleet : Fleet) (faults : List Fault),
        (fleet.after .reference 0 none faults).session = fleet.session
          ∧ ((fleet.after .reference 0 none faults).step .reference 0 .close []).1.session = fleet.session :=
      fun _ _ => ⟨rfl, rfl⟩
    rcases hfleet with hfleet | hfleet
    · rw [hfleet, (hsame _ _).1, hbefore] at hafter
      cases hafter
    · rw [hfleet, (hsame _ _).2, hbefore] at hafter
      cases hafter
  | some call =>
    obtain ⟨owner, session, request, -, hconfined⟩ := hconfined call rfl
    exact ⟨b, p, call, owner, session, request, hrunning, hpeer, hconfined⟩

end Credman
