import Credman.Access
import Credman.Cancellation
import Credman.Curl
import Credman.Plaintext
import Credman.Revocation

/-! Where secrets go: every callback that runs with them belongs to the one configured consumer that
the request, the task and the record name. -/
namespace Credman

open Library Library.Checked Relation Application DurableVault

variable {P : Platform} {S : AdminSerde}

/-! The calls that run no callback. -/

section Later

variable {fleet : Fleet} {i : Nat} {faults : List Fault} {call : Call}

theorem Session.Later.refl (s : Session) : s.Later s := ⟨le_refl _, rfl⟩

theorem ask_later {α : Type} {program : DurableVault → VaultIo (DurableVault × α)} {answer : α → Answer}
    (h : ∀ owner m, wp (program owner) (fun _ m' => m.rest.Later m'.rest) (fun _ m' => m.rest.Later m'.rest) m) :
    fleet.session.Later (fleet.ask i faults program answer).1.session :=
  Fleet.ask_spec (p := fun out => fleet.session.Later out.1.session) (fun _ => .refl _)
    fun owner _ => h owner _

theorem enter_later {program : VaultM DurableVault}
    (h : ∀ m, wp program.run (fun _ m' => m.rest.Later m'.rest) (fun _ m' => m.rest.Later m'.rest) m) :
    fleet.session.Later (fleet.enter i faults program).1.session := by
  refine Fleet.enter_spec (p := fun out => fleet.session.Later out.1.session) (fun _ _ => .refl _) fun _ => ?_
  refine wp_mono (h _) ?_ fun _ _ hlater => hlater
  rintro (e | owner) m' hlater <;> exact hlater

theorem wp_create_later (mnemonic : String) (app : Application) (m : VaultMachine) :
    wp (createFromApp P mnemonic app).run (fun _ m' => m.rest.Later m'.rest)
      (fun _ m' => m.rest.Later m'.rest) m :=
  wp_mono (wp_createFromApp P mnemonic app m) (fun _ _ h => h.1) fun _ _ h => h.1

theorem wp_restore_later (mnemonic : String) (admin : AuthenticatedContext) (bytes : Bytes)
    (secret : BackupSecret) (now : Time) (m : VaultMachine) :
    wp (restoreBackup P mnemonic admin bytes secret now).run (fun _ m' => m.rest.Later m'.rest)
      (fun _ m' => m.rest.Later m'.rest) m := by
  unfold restoreBackup
  rw [wp_run_bind, wp_run_failIf]
  refine ⟨fun _ => .refl _, fun _ => ?_⟩
  simp only
  rw [wp_run_bind, wp_run_pure_lift]
  cases decryptBackup P bytes secret with
  | error e => exact .refl _
  | ok copy =>
    simp only
    rw [wp_run_bind, wp_run_pure_lift]
    cases copy.prepareRestored P admin now with
    | error e => exact .refl _
    | ok app => exact wp_create_later mnemonic app m

theorem wp_rekey_later (owner : DurableVault) (admin : AuthenticatedContext) (mnemonic : String)
    (m : VaultMachine) : wp (owner.rekey P admin mnemonic) (fun _ m' => m.rest.Later m'.rest)
      (fun _ m' => m.rest.Later m'.rest) m := by
  have hone : m.rest.Later (numbered m).rest := ⟨Nat.le_succ _, rfl⟩
  unfold rekey
  rw [wp_bind, wp_drawIndex]
  cases hcandidate : owner.rekeyCandidate P admin mnemonic (P.salt m.rest.drawn) with
  | error e =>
    simp only [hcandidate, wp_pure]
    exact hone
  | ok out =>
    simp only [hcandidate, wp_bind]
    refine wp_mono (wp_publishWith P owner.store out.1 out.2 (P.salt m.rest.drawn) KdfParams.current (numbered m))
      ?_ fun _ _ h => hone.trans h.1
    rintro ⟨store, publication⟩ m' ⟨hlater, -⟩
    cases publication <;> exact hone.trans hlater

/-- Only a private use runs a callback. -/
theorem step_later (hseals : P.Seals) (hcall : call.delivers = false) (fleet : Fleet) (i : Nat)
    (faults : List Fault) : fleet.session.Later (fleet.step P i call faults).1.session := by
  unfold Fleet.step
  cases call with
  | create mnemonic => exact enter_later fun m => wp_create_later mnemonic _ m
  | «open» mnemonic =>
    refine enter_later fun m => wp_mono (wp_open P mnemonic m) ?_ ?_
    · rintro result m' ⟨hrest, -⟩
      rw [hrest]
      exact .refl _
    · rintro _ m' ⟨hrest, -⟩
      rw [hrest]
      exact .refl _
  | recover mnemonic admin now =>
    exact enter_later fun m => wp_mono (wp_recover hseals m) (fun _ _ h => h.1.later) fun _ _ h => h.later
  | restore mnemonic admin backup secret now =>
    simp only
    cases fleet.backups[backup]? with
    | none => exact .refl _
    | some bytes => exact enter_later fun m => wp_restore_later mnemonic admin bytes secret now m
  | close => exact .refl _
  | approveTask | revokeTask | metadata | readForTask =>
    exact ask_later fun owner m => wp_apply_later owner _ m
  | mutate | importForTask => exact ask_later fun owner m => wp_drawing_later owner _ m
  | useSecret => cases hcall
  | rekey admin mnemonic => exact ask_later fun owner m => wp_rekey_later owner admin mnemonic m
  | exportBackup admin secret =>
    simp only
    have hasked : fleet.session.Later (fleet.ask i faults
        (fun owner => do
          let result ← (owner.exportBackup P admin secret).run
          pure (owner, result)) Answer.backup).1.session := by
      refine ask_later fun owner m => ?_
      rw [wp_bind]
      exact wp_mono (wp_export admin secret) (fun _ _ h => h.1) fun _ _ => False.elim
    unfold Fleet.exportFrom
    revert hasked
    generalize fleet.ask i faults (fun owner => do
      let result ← (owner.exportBackup P admin secret).run
      pure (owner, result)) Answer.backup = out
    intro hasked
    obtain ⟨next, answer⟩ := out
    cases answer with
    | backup result => cases result <;> exact hasked
    | opened | done | receipt | view | values | delivery | closed | halted | noOwner => exact hasked

end Later

/-! The callback of a private use. -/

/-- The task, the record and the grant a callback rests on, and the values it gets. -/
structure Handoff.Backed (h : Handoff) (t : TaskApproval) (r : Record) : Prop where
  task : TaskHeld h.app h.ctx h.task h.effective t
  record : RecordHeld h.app h.ctx h.request.record r
  permits : Permits t r .secretUse h.request.fields (some h.request.destination)
  authority : (r.createdBy = h.ctx.principal ∧ r.task = h.task) ∨ ∃ id g issuer,
    GrantChain h.app h.ctx h.request.record r .secretUse h.request.fields (some h.request.destination)
      h.effective id g issuer
  values : ∀ f, h.values.get? f = if f ∈ h.request.fields then r.values.get? f else none
  held : h.values.fields = h.request.fields

/-- A selection is of the fields that were asked for. -/
theorem Application.Selected.fields_eq {app : Application} {ctx : AuthenticatedContext} {task record : Uuid}
    {fields : Fields} {permission : Permission} {destination : Option String} {now : Time}
    {values : SecretInput} {t : TaskApproval} {r : Record}
    (h : Selected app ctx task record fields permission destination now values t r) :
    values.fields = fields := by
  ext f
  rw [SecretInput.mem_fields, h.values f]
  constructor
  · rintro ⟨value, hvalue⟩
    by_contra hf
    rw [if_neg hf] at hvalue
    cases hvalue
  · intro hf
    rw [if_pos hf]
    exact h.held f hf

namespace DurableVault

section Use

variable {owner : DurableVault} {ctx : AuthenticatedContext} {task : Uuid} {request : PrivateUse}
  {preparedAt handoffAt : Time} {deliver : SecretInput → Delivered} {m m' : VaultMachine}

/-- The callback ran once, after the second check. -/
structure HandedOff (P : Platform) (owner : DurableVault) (ctx : AuthenticatedContext) (task : Uuid)
    (request : PrivateUse) (preparedAt handoffAt : Time) (m : VaultMachine) (h : Handoff) : Prop where
  course : ∃ journaled values effective app m₁ m₂,
    Handed P owner ctx task request preparedAt handoffAt m journaled values effective app m₁ m₂
      ∧ h = handoffOf P ctx task request handoffAt m values effective app m₁

/-- What a use may add to the log. -/
def Logged (P : Platform) (owner : DurableVault) (ctx : AuthenticatedContext) (task : Uuid)
    (request : PrivateUse) (preparedAt handoffAt : Time) (m m' : VaultMachine) : Prop :=
  m'.rest.handoffs = m.rest.handoffs ∨ ∃ h, m'.rest.handoffs = m.rest.handoffs ++ [h]
    ∧ HandedOff P owner ctx task request preparedAt handoffAt m h

theorem Logged.of_later (h : (numbered m).rest.Later m'.rest) :
    Logged P owner ctx task request preparedAt handoffAt m m' := .inl h.handoffs

theorem Handed.logged {journaled : DurableVault} {values : SecretInput} {effective : Time} {app : Application}
    {m₁ m₂ : VaultMachine}
    (h : Handed P owner ctx task request preparedAt handoffAt m journaled values effective app m₁ m₂)
    (hlater : m₂.rest.Later m'.rest) : Logged P owner ctx task request preparedAt handoffAt m m' := by
  have hfirst : m₁.rest.handoffs = m.rest.handoffs := h.journal.prepared.later.handoffs
  have hsecond : m₂.rest.handoffs = m₁.rest.handoffs
      ++ [handoffOf P ctx task request handoffAt m values effective app m₁] := by
    rw [h.log]
    rfl
  refine .inr ⟨_, ?_, journaled, values, effective, app, m₁, m₂, h, rfl⟩
  rw [hlater.handoffs, hsecond, hfirst]

theorem wp_use_logged : wp (owner.useSecret P ctx task request preparedAt handoffAt deliver)
    (fun _ => Logged P owner ctx task request preparedAt handoffAt m)
    (fun _ => Logged P owner ctx task request preparedAt handoffAt m) m := by
  refine wp_mono (wp_useSecret P owner ctx task request preparedAt handoffAt deliver m) ?_ ?_
  · intro out m' hused
    cases hused with
    | refused h | replayed h | gated h => exact .of_later h.later
    | withdrawn h _ hcancel | stuck h _ hcancel => exact .of_later (h.prepared.later.trans hcancel.later)
    | panicked h => exact h.logged (.refl _)
    | unrecorded h _ hfinish => exact h.logged hfinish.later
    | finished h hfinish => exact h.logged hfinish.later
  · intro _ m' hcut
    cases hcut with
    | prepare h => exact .of_later h.later
    | cancel h _ hcancel => exact .of_later (h.prepared.later.trans hcancel.later)
    | finish h hfinish => exact h.logged hfinish.later

/-- A private use adds at most one callback to the log of its fleet. -/
theorem use_logged {fleet : Fleet} {i : Nat} {faults : List Fault} {h : Handoff}
    (hmem : h ∈ (fleet.step P i (.useSecret ctx task request preparedAt handoffAt deliver)
      faults).1.session.handoffs) :
    h ∈ fleet.session.handoffs ∨ ∃ owner, (fleet.stores i).owner = some owner
      ∧ HandedOff P owner ctx task request preparedAt handoffAt (fleet.machine i faults) h := by
  revert hmem
  refine Fleet.ask_spec (p := fun out => h ∈ out.1.session.handoffs → _) (fun _ hmem => .inl hmem) ?_
  intro owner howner
  have hlogged : ∀ m', Logged P owner ctx task request preparedAt handoffAt (fleet.machine i faults) m' →
      h ∈ m'.rest.handoffs → h ∈ fleet.session.handoffs ∨ ∃ owner, (fleet.stores i).owner = some owner
        ∧ HandedOff P owner ctx task request preparedAt handoffAt (fleet.machine i faults) h := by
    rintro m' (heq | ⟨h', heq, hhanded⟩) hmem
    · rw [heq] at hmem
      exact .inl hmem
    · rw [heq] at hmem
      rcases List.mem_append.mp hmem with hmem | hmem
      · exact .inl hmem
      · rw [List.mem_singleton.mp hmem]
        exact .inr ⟨owner, howner, hhanded⟩
  exact wp_mono wp_use_logged (fun _ m' => hlogged m') fun _ m' => hlogged m'

/-- What a callback runs with is backed, by the task that the owner had when the call came. -/
theorem HandedOff.backed {h : Handoff} (hids : P.FreshIds) (hseals : P.Seals) (hvalid : owner.app.Valid P)
    (hlasting : Lasting P m.rest.drawn owner.app)
    (hhanded : HandedOff P owner ctx task request preparedAt handoffAt m h) :
    h.ctx = ctx ∧ h.task = task ∧ h.request = request
      ∧ ∃ t r, h.Backed t r ∧ owner.app.tasks.get? task = some t := by
  obtain ⟨journaled, values, effective, app, m₁, m₂, hcourse, rfl⟩ := hhanded.course
  refine ⟨rfl, rfl, rfl, ?_⟩
  obtain ⟨-, hok, hcommitted⟩ := hcourse.journal.prepared.ok
  have hleaves : Leaves (usePrepare P ctx task request (P.uuid m.rest.drawn) preparedAt) owner.staged
      (owner.proposal (usePrepare P ctx task request (P.uuid m.rest.drawn) preparedAt)).2 := proposal_leaves _
  have hoperated := hleaves.of_wp (operates_usePrepare ctx task request preparedAt _)
  obtain ⟨hjournaled, -, g, happ⟩ := hcommitted.kept hids hseals hvalid hlasting (le_refl _) hoperated
  obtain ⟨heff, ⟨t, r, hselected⟩, rfl⟩ := wp_ok (wp_useAuthorize ctx task request handoffAt _) hcourse.check
  have hchecked : (journaled.app.ticked handoffAt).Valid P := hjournaled.ticked heff
  obtain ⟨hpermits, hauthority⟩ := can_iff.mp hselected.allowed
  have hid : task = t.id := (hchecked.tasks task t hselected.task.found).id_eq
  refine ⟨t, r, ⟨hselected.task, hselected.record, hpermits, ?_, hselected.values, ?_⟩, ?_⟩
  · rcases hauthority with ⟨hcreator, htask⟩ | ⟨id, g, hg, hcovers⟩
    · exact .inl ⟨hcreator, htask.trans hid.symm⟩
    · obtain ⟨issuer, hchain⟩ := hchecked.grantChain hselected.record.found hg hcovers
      exact .inr ⟨id, g, issuer, hchain⟩
  · exact hselected.fields_eq
  · have hfound := hselected.task.found
    have hruns : (Call.useSecret ctx task request preparedAt handoffAt fun _ => .failed).Runs P 0
      m.rest.drawn owner.staged _ := .usePrepare hleaves
    have hkept := hruns.tasksKept fun _ _ _ h => by cases h
    rw [ticked_tasks, happ] at hfound
    exact (staged_shrinks hvalid hlasting.once).tasks task t (hkept.tasks ▸ hfound)

end Use

end DurableVault

/-! The consumer of a message. -/

section Message

variable {owner : DurableVault} {around : Surroundings} {destinations : List Destination}
  {ctx : AuthenticatedContext} {task : Uuid} {usage : PrivateUse} {prepared : PreparedHttps}

/-- What has been checked once the child of a destination waits for its configuration. -/
structure Ready (owner : DurableVault) (around : Surroundings) (ctx : AuthenticatedContext) (task : Uuid)
    (usage : PrivateUse) (prepared : PreparedHttps) (D : Destination) : Prop where
  requested : usage.destination = D.id
  fields : usage.fields = D.fields
  consumer : ∃ t, owner.app.tasks.get? task = some t ∧ t.service = D.service ∧ t.origin = D.origin
  valid : D.validate around.files = .ok ()
  prepared : prepared = { text := D.configPrefix, auth := D.auth }

theorem preflight_eq_ok (h : owner.preflight around destinations ctx task usage = .ok prepared) :
    ∃ D ∈ destinations, Ready owner around ctx task usage prepared D := by
  simp only [preflight, validateConsumer, PreparedHttps.prepare, bind_eq_ok, orElse_eq_ok, failIf_eq_ok,
    exists_const, pure_eq_ok, task_eq_ok, not_or, not_not, ne_eq] at h
  obtain ⟨D, hfind, hfields, ⟨u, -, now, -, t, ht, hservice, horigin⟩, u', hvalid, -, rfl⟩ := h
  have hid := List.find?_some hfind
  exact ⟨D, List.mem_of_find?_eq_some hfind, (beq_iff_eq.mp hid).symm, hfields,
    ⟨t, ht.found, hservice, horigin⟩, hvalid, rfl⟩

/-- The text the child of a destination is handed, if the values make one. -/
theorem deliver_eq {D : Destination} (h : D.validate around.files = .ok ()) (values : SecretInput) :
    PreparedHttps.deliver around { text := D.configPrefix, auth := D.auth } values
      = match D.configuration around.files values with
        | .ok text => .returned (around.exchange text)
        | .error _ => .failed := by
  rw [configuration_eq h]
  unfold PreparedHttps.deliver
  cases appendAuth D.configPrefix D.auth values <;> rfl

end Message

/-! The destinations of a configuration. -/

theorem SupervisorConfig.checkDestinations_eq_ok {files : FileSystem} {destinations : List Destination} :
    ∀ {ids : List String}, checkDestinations files ids destinations = .ok () →
      (∀ D ∈ destinations, D.id ∉ ids) ∧ (destinations.map (·.id)).Nodup := by
  induction destinations with
  | nil => exact fun _ => ⟨(fun _ h => by cases h), List.nodup_nil⟩
  | cons D rest ih =>
    intro ids h
    simp only [checkDestinations, bind_eq_ok, failIf_eq_ok, exists_const] at h
    obtain ⟨-, -, hfresh, hrest⟩ := h
    obtain ⟨hids, hnodup⟩ := ih hrest
    refine ⟨fun E hE => ?_, ?_⟩
    · rcases List.mem_cons.mp hE with rfl | hE
      · exact hfresh
      · exact fun hin => hids E hE (List.mem_cons_of_mem _ hin)
    · rw [List.map_cons, List.nodup_cons]
      refine ⟨fun hin => ?_, hnodup⟩
      obtain ⟨E, hE, hsame⟩ := List.mem_map.mp hin
      apply hids E hE
      rw [show E.id = D.id from hsame]
      exact List.mem_cons_self

/-- A process has no two destinations with one id. -/
theorem Broker.Sane.destination_unique {b : Broker} (h : b.Sane) {D E : Destination}
    (hD : D ∈ b.config.destinations) (hE : E ∈ b.config.destinations) (hid : E.id = D.id) : E = D := by
  obtain ⟨files, bridge, lifetimes, hcheck⟩ := h.checked
  simp only [SupervisorConfig.check, bind_eq_ok] at hcheck
  obtain ⟨-, -, -, -, -, -, _, hdestinations, -⟩ := hcheck
  exact List.inj_on_of_nodup_map (SupervisorConfig.checkDestinations_eq_ok hdestinations).2 hE hD hid

section Deployment

variable {d : Deployment} {i : Nat}

theorem Call.housekeeping_delivers {call : Call} (h : call.housekeeping = true) : call.delivers = false := by
  cases call with
  | useSecret => cases h
  | _ => rfl

theorem tended_later {fleet fleet' : Fleet} (hseals : P.Seals) (h : Fleet.Tended P i fleet fleet') :
    fleet.session.Later fleet'.session := by
  induction h with
  | refl => exact .refl _
  | tail _ hgoes ih =>
    obtain ⟨j, call, faults, ⟨-, hcall⟩, rfl⟩ := hgoes
    exact ih.trans (step_later hseals (Call.housekeeping_delivers hcall) _ j faults)

/-- The message asks for a private use. -/
def Asks (S : AdminSerde) (p : Peer) (value : Json) (request : WorkRequest) : Prop :=
  (p.admin = false ∧ S.workRequest value = some request)
    ∨ (p.admin = true ∧ AdminRequest.parse S value = .ok (.work request))

/-- A private use of a process has been asked for, and its child is ready. -/
theorem Broker.call_delivers {b : Broker} {p : Peer} {value : Json} {turn : Turn} {owner : DurableVault}
    {call : Call} (h : b.call S owner p value turn = some call) (hcall : call.delivers = true) :
    ∃ task usage prepared, Asks S p value (.use task usage) ∧ usage.action = .use
      ∧ owner.preflight turn.rest b.config.destinations p.context task usage = .ok prepared
      ∧ call = .useSecret p.context task usage (turn.rest.now 1) (turn.rest.now 2)
          (prepared.deliver turn.rest) := by
  have hwork : ∀ {request : WorkRequest}, Asks S p value request →
      request.call owner turn.rest b.config.destinations p.context = .ok call →
      ∃ task usage prepared, Asks S p value (.use task usage) ∧ usage.action = .use
        ∧ owner.preflight turn.rest b.config.destinations p.context task usage = .ok prepared
        ∧ call = .useSecret p.context task usage (turn.rest.now 1) (turn.rest.now 2)
            (prepared.deliver turn.rest) := by
    intro request hasks hmade
    have haction := WorkRequest.guarded hmade
    cases (WorkRequest.call_eq_ok hmade).2 with
    | generate | mutate | metadata => cases hcall
    | «use» hprepared => exact ⟨_, _, _, hasks, haction, hprepared, rfl⟩
  cases Broker.call_eq_some h with
  | agent hagent hparse _ hmade => exact hwork (.inl ⟨hagent, hparse⟩) hmade
  | admin hadmin hparse hmade =>
    cases hmade with
    | work hmade => exact hwork (.inr ⟨hadmin, hparse⟩) hmade
    | share | importSecret | readSecret | approve | revokeTask => cases hcall

/-- Where the values of a callback went, and all that stands behind it. -/
structure Consumed (S : AdminSerde) (d : Deployment) (i : Nat) (b : Broker) (p : Peer) (value : Json)
    (turn : Turn) (handoff : Handoff) (D : Destination) : Prop where
  configured : D ∈ b.config.destinations
  only : ∀ E ∈ b.config.destinations, E.id = D.id → E = D
  valid : D.validate turn.files = .ok ()
  asked : Asks S p value (.use handoff.task handoff.request)
  context : handoff.ctx = p.context
  action : handoff.request.action = .use
  requested : handoff.request.destination = D.id
  fields : handoff.request.fields = D.fields
  backed : ∃ t r, handoff.Backed t r ∧ t.service = D.service ∧ t.origin = D.origin
    ∧ r.service = D.service ∧ r.origin = D.origin
  /-- The callback hands the child the configuration of this destination, and nothing else. -/
  text : ∃ owner deliver, (d.fleet.stores i).owner = some owner
    ∧ b.call S owner p value turn = some (.useSecret handoff.ctx handoff.task handoff.request
      (turn.rest.now 1) (turn.rest.now 2) deliver)
    ∧ ∀ values, deliver values = match D.configuration turn.files values with
      | .ok text => .returned (turn.exchange text)
      | .error _ => .failed

/-- A secret goes to one consumer: the destination of the configuration that the request names, whose
service and origin are those of the task and of the record, and which the task approves, as does the
grant where there is one. -/
theorem handoff_consumer (hids : P.FreshIds) (hseals : P.Seals) (h : Deployment.Reachable P S d)
    (i : Nat) (happening : Happening) (faults : List (List Fault)) {handoff : Handoff}
    (hmem : handoff ∈ (d.step P S i happening faults).fleet.session.handoffs) :
    handoff ∈ d.fleet.session.handoffs ∨ ∃ n value turn sent b p D, happening = .message n value turn sent
      ∧ d.Heard i n b p turn ∧ Consumed S d i b p value turn handoff D := by
  rcases step_fleet (P := P) (S := S) d i happening faults with htend
    | ⟨n, value, turn, sent, b, p, owner, hhappening, hheard, howner, htend⟩
  · rw [(tended_later hseals htend).handoffs] at hmem
    exact .inl hmem
  rw [(tended_later hseals htend).handoffs] at hmem
  cases hcall : b.call S owner p value turn with
  | none =>
    rw [hcall] at hmem
    exact .inl hmem
  | some call =>
    rw [hcall] at hmem
    change handoff ∈ (d.fleet.step P i call _).1.session.handoffs at hmem
    cases hdelivers : call.delivers with
    | false =>
      rw [(step_later hseals hdelivers _ i _).handoffs] at hmem
      exact .inl hmem
    | true =>
      obtain ⟨task, usage, prepared, hasks, haction, hprepared, rfl⟩ := Broker.call_delivers hcall hdelivers
      obtain ⟨D, hD, hready⟩ := preflight_eq_ok hprepared
      have hsound := h.fleet.sound hids hseals
      refine (use_logged hmem).imp id ?_
      rintro ⟨owner', howner', hhanded⟩
      rw [howner, Option.some.injEq] at howner'
      subst howner'
      have hstore := hsound.stores i
      obtain ⟨hctx, htask, hrequest, t, r, hbacked, ht⟩ :=
        hhanded.backed hids hseals (hstore.valid owner howner) (hstore.lasting owner howner)
      obtain ⟨t', ht', hservice, horigin⟩ := hready.consumer
      rw [ht, Option.some.injEq] at ht'
      subst ht'
      have hprepared := hready.prepared
      subst hprepared
      have hsane := h.sane i b hheard.running
      refine ⟨n, value, turn, sent, b, p, D, hhappening, hheard, hD,
        fun E hE => hsane.destination_unique hD hE, hready.valid, ?_, hctx, ?_, ?_, ?_,
        ⟨t, r, hbacked, hservice, horigin, hbacked.permits.service.trans hservice,
          hbacked.permits.origin.trans horigin⟩, owner, _, howner, ?_, deliver_eq hready.valid⟩
      · rw [htask, hrequest]
        exact hasks
      · rw [hrequest]
        exact haction
      · rw [hrequest]
        exact hready.requested
      · rw [hrequest]
        exact hready.fields
      · rw [hctx, htask, hrequest]
        exact hcall

end Deployment

/-- Alice's agent uses her mailbox. -/
theorem handoff_consumer_household : ∃ handoff,
    handoff ∈ (household.step .reference householdSerde 0
      (.message 1 useJson (householdTurn 10) true) []).fleet.session.handoffs
    ∧ ∃ b p D, Consumed householdSerde household 0 b p useJson (householdTurn 10) handoff D := by
  have hbefore : household.fleet.session.handoffs.length = 0 := by decide +kernel
  have hafter : (household.step .reference householdSerde 0
      (.message 1 useJson (householdTurn 10) true) []).fleet.session.handoffs.length = 1 := by decide +kernel
  obtain ⟨handoff, hsame⟩ := List.length_eq_one_iff.mp hafter
  have hmem := hsame ▸ List.mem_singleton_self handoff
  refine ⟨handoff, hmem, ?_⟩
  rcases handoff_consumer Platform.reference_freshIds Platform.reference_seals
      (household_runs fun _ _ _ => trivial) 0 _ [] hmem with hold
    | ⟨n, value, turn, sent, b, p, D, hmessage, -, hconsumed⟩
  · rw [List.length_eq_zero_iff.mp hbefore] at hold
    cases hold
  · cases hmessage
    exact ⟨b, p, D, hconsumed⟩

end Credman
