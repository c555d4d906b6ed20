import Credman.Turns

/-! Who speaks to a process: every peer is the administrator, a transferred channel of the
configuration, or an agent attached to a session, and its context says so. -/
namespace Credman

open Library Library.Checked Relation DurableVault

variable {P : Platform} {S : AdminSerde} {d : Deployment} {b : Broker} {p : Peer} {i n : Nat}

/-- How a channel came to be, and what its context is for it. -/
inductive Peer.Genuine (config : SupervisorConfig) : Peer → Prop
  | administrator (active : Bool) : Genuine config {
      context := .fromAuthenticatedAdmin config.owner config.adminPrincipal config.workspace
      session := none, admin := true, active }
  | transferred {principal : String} (h : principal ∈ config.peers) (active : Bool) : Genuine config {
      context := .fromAuthenticatedPeer config.owner principal config.workspace
      session := none, admin := false, active }
  | attached (id : Uuid) (principal : String) (deadline : Time) (active : Bool) : Genuine config {
      context := .fromAuthenticatedSession config.owner principal config.workspace deadline
      session := some id, admin := false, active }

namespace Peer.Genuine

variable {config : SupervisorConfig}

theorem setActive (h : p.Genuine config) (active : Bool) : Peer.Genuine config { p with active } := by
  cases h with
  | administrator => exact .administrator active
  | transferred hmem => exact .transferred hmem active
  | attached id principal deadline => exact .attached id principal deadline active

theorem admin_eq (h : p.Genuine config) : p.context.admin = p.admin := by
  cases h <;> rfl

end Peer.Genuine

/-- What every process has from its start on. -/
structure Broker.Sane (b : Broker) : Prop where
  checked : ∃ files bridge lifetimes, b.config.check files bridge = .ok lifetimes
  peers : ∀ p ∈ b.peers, Peer.Genuine b.config p
  owner : b.sessions.owner = b.config.owner
  workspace : b.sessions.workspace = b.config.workspace
  admin : b.sessions.admin = b.config.adminPrincipal

/-- Whatever the administrator looks at, only entries of the table come and go. -/
theorem look_frame (owner : DurableVault) (turn : Turn) (ctx : AuthenticatedContext) (sessions : Sessions)
    (control : AdminControl) : ∃ entries,
      (owner.look P S.toSerdeJson turn ctx sessions control).1 = { sessions with entries } := by
  have hsame : ∃ entries, sessions = { sessions with entries } := ⟨sessions.entries, rfl⟩
  cases control with
  | issueSession principal tasks expiresAt =>
    have hissue := Sessions.wp_issue (P := P) (s := sessions) principal tasks expiresAt (turn.rest.now 0)
      (fun ids who => owner.validateSessionTasks ctx who ids (turn.rest.now 0)) turn.random turn.sessionId
    unfold look
    simp only
    split
    · rename_i grant s' hrun
      obtain ⟨-, -, _, _, -, -, -, hframe⟩ := wp_ok hissue hrun
      exact ⟨_, hframe⟩
    · rename_i e s' hrun
      have hframe := wp_error hissue hrun
      exact ⟨_, hframe⟩
  | revokeSession session => exact ⟨_, rfl⟩
  | status | audit | listTasks | listRecords | listGrants | listSessions | shutdown | importSecret
  | readSecret | approve | revokeTask => exact hsame

namespace Broker.Sane

theorem new {config : SupervisorConfig} {files : FileSystem} {bridge : Option String}
    {lifetimes : UInt64 × Option UInt64} (h : config.check files bridge = .ok lifetimes)
    (sessionDeadline : Time) : (Broker.new config bridge sessionDeadline).Sane where
  checked := ⟨files, bridge, lifetimes, h⟩
  peers p hp := by
    rcases List.mem_cons.mp hp with rfl | hp
    · exact .administrator true
    · obtain ⟨principal, hmem, rfl⟩ := List.mem_map.mp hp
      exact .transferred hmem true
  owner := rfl
  workspace := rfl
  admin := rfl

theorem withSessions (h : b.Sane) {sessions : Sessions} (hframe : ∃ entries, sessions = { b.sessions with entries }) :
    Broker.Sane { b with sessions } := by
  obtain ⟨entries, rfl⟩ := hframe
  exact ⟨h.checked, h.peers, h.owner, h.workspace, h.admin⟩

theorem setActive (h : b.Sane) (hp : b.peers[n]? = some p) (active : Bool) : (b.setActive n p active).Sane where
  checked := h.checked
  peers q hq := by
    rcases List.mem_or_eq_of_mem_set hq with hq | rfl
    · exact h.peers q hq
    · exact (h.peers p (List.mem_of_getElem? hp)).setActive active
  owner := h.owner
  workspace := h.workspace
  admin := h.admin

theorem sweep (h : b.Sane) (now : Time) : (b.sweep now).Sane where
  checked := h.checked
  peers q hq := h.peers q (List.mem_of_mem_filter hq)
  owner := h.owner
  workspace := h.workspace
  admin := h.admin

theorem admitPeer (h : b.Sane) (token : String) (now : Time) (sent : Bool) : (b.admitPeer P token now sent).Sane := by
  have hattach := Sessions.wp_attach (P := P) (s := b.sessions) token now
  unfold Broker.admitPeer
  split
  · rename_i id context sessions hrun
    obtain ⟨session, -, -, -, hcontext, hframe⟩ := wp_ok hattach hrun
    have hsane := h.withSessions ⟨_, hframe⟩
    change context = _ at hcontext
    split_ifs
    · refine ⟨h.checked, fun q hq => ?_, hsane.owner, hsane.workspace, hsane.admin⟩
      rcases List.mem_append.mp hq with hq | hq
      · exact h.peers q hq
      · rw [List.mem_singleton.mp hq, hcontext, h.owner, h.workspace]
        exact .attached id session.principal session.expiresAt true
    · exact ⟨h.checked, h.peers, hsane.owner, hsane.workspace, hsane.admin⟩
  · rename_i e sessions hrun
    have hsame := wp_error hattach hrun
    exact h.withSessions ⟨_, hsame⟩

theorem conclude (h : b.Sane) {b' : Broker} {served : Served} {sent : Bool} (hp : b.peers[n]? = some p)
    (hafter : Broker.conclude b n p served sent = some b') : b'.Sane := by
  unfold Broker.conclude at hafter
  simp only at hafter
  split_ifs at hafter
  · exact Option.some.inj hafter ▸ h
  · exact Option.some.inj hafter ▸ h.setActive hp false

end Broker.Sane

namespace Deployment

/-- What is known of every process there is. -/
def Sane (d : Deployment) : Prop := ∀ i b, d.brokers i = some b → b.Sane

theorem Sane.put (h : d.Sane) (fleet : Fleet) (broker : Option Broker)
    (hbroker : ∀ b, broker = some b → b.Sane) : (d.put i fleet broker).Sane := by
  intro j b hb
  by_cases hj : j = i
  · subst hj
    rw [put_self] at hb
    exact hbroker b hb
  · rw [put_ne hj] at hb
    exact h j b hb

theorem Sane.step (h : d.Sane) (i : Nat) (happening : Happening) (faults : List (List Fault)) :
    (d.step P S i happening faults).Sane := by
  have hturned := turned (P := P) (S := S) d i happening faults
  generalize d.step P S i happening faults = d' at hturned ⊢
  cases hturned with
  | idle | refused | maintained => exact h
  | launched hcheck => exact h.put _ _ fun b hb => Option.some.inj hb ▸ Broker.Sane.new hcheck _
  | ignored hrunning hpeer =>
    exact h.put _ _ fun b hb => Option.some.inj hb ▸ (h i _ hrunning).setActive hpeer false
  | died hheard => exact h.put _ _ fun b hb => by cases hb
  | ended hheard | exited hrunning =>
    have hsame : ∀ fleet, ({ d with fleet } : Deployment).Sane := fun fleet => h
    exact (hsame _).put _ _ fun b hb => by cases hb
  | @answered n value turn sent b b' p sessions served hheard hserved hafter =>
    refine h.put _ _ fun b'' hb => ?_
    obtain rfl := Option.some.inj hb
    have hsane := h i b hheard.running
    suffices hframe : ∃ entries, sessions = { b.sessions with entries } from
      (hsane.withSessions hframe).conclude hheard.peer hafter
    cases howner : (d.fleet.stores i).owner with
    | none =>
      unfold Deployment.handled Fleet.host at hserved
      rw [howner] at hserved
      cases hserved
    | some owner =>
      rcases (host_serve howner b p value turn).2 _ _ hserved with hsame | ⟨-, control, hlook⟩
      · exact ⟨b.sessions.entries, hsame⟩
      · rw [hlook]
        exact look_frame owner turn p.context b.sessions control
  | swept hrunning => exact h.put _ _ fun b hb => Option.some.inj hb ▸ (h i _ hrunning).sweep _
  | admitted hrunning => exact h.put _ _ fun b hb => Option.some.inj hb ▸ (h i _ hrunning).admitPeer _ _ _

theorem Runs.reachable {allows : Deployment → Nat → Happening → Prop}
    (h : Deployment.Runs P S allows start d) :    Deployment.Reachable P S d := by
  refine ReflTransGen.mono ?_ _ _ h
  rintro d d' ⟨i, happening, faults, -, heq⟩
  exact ⟨i, happening, faults, trivial, heq⟩

theorem Reachable.sane (h : Deployment.Reachable P S d) : d.Sane := by
  induction h with
  | refl => exact fun _ _ hb => by cases hb
  | tail _ hgoes ih =>
    obtain ⟨i, happening, faults, -, rfl⟩ := hgoes
    exact ih.step i happening faults

theorem Sane.genuine {turn : Turn} (h : d.Sane) (hheard : d.Heard i n b p turn) : p.Genuine b.config :=
  (h i b hheard.running).peers p (List.mem_of_getElem? hheard.peer)

/-- A happening is some calls of the vaults. -/
theorem step_runs (allows : Fleet → Nat → Call → Prop) {happening : Happening}
    (htended : ∀ fleet call, call.housekeeping = true → allows fleet i call)
    (hheard : ∀ n value turn sent b p owner call, happening = .message n value turn sent →
      d.Heard i n b p turn → (d.fleet.stores i).owner = some owner →
      b.call S owner p value turn = some call → allows d.fleet i call) (faults : List (List Fault)) :
    Fleet.Runs P allows d.fleet (d.step P S i happening faults).fleet := by
  have hmono : ∀ {fleet fleet' : Fleet}, Fleet.Tended P i fleet fleet' → Fleet.Runs P allows fleet fleet' := by
    intro fleet fleet' htend
    refine ReflTransGen.mono (fun fleet fleet' hgoes => ?_) _ _ htend
    obtain ⟨j, call, faults, ⟨rfl, hcall⟩, rfl⟩ := hgoes
    exact ⟨j, call, faults, htended fleet call hcall, rfl⟩
  rcases step_fleet (P := P) (S := S) d i happening faults with htend
    | ⟨n, value, turn, sent, b, p, owner, hhappening, hmessage, howner, htend⟩
  · exact hmono htend
  · refine ReflTransGen.trans ?_ (hmono htend)
    unfold Fleet.after
    cases hcall : b.call S owner p value turn with
    | none => exact .refl
    | some call =>
      exact .single ⟨i, call, faults.headD [],
        hheard n value turn sent b p owner call hhappening hmessage howner hcall, rfl⟩

/-- Every fleet of a deployment is one that its vaults can reach by themselves. -/
theorem Reachable.fleet (h : Deployment.Reachable P S d) : d.fleet.Reachable P := by
  induction h with
  | refl => exact .refl
  | tail _ hgoes ih =>
    obtain ⟨i, happening, faults, -, rfl⟩ := hgoes
    exact ReflTransGen.trans ih (step_runs (fun _ _ _ => True) (fun _ _ _ => trivial)
      (fun _ _ _ _ _ _ _ _ _ _ _ _ => trivial) faults)

end Deployment

end Credman
