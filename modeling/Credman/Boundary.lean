import Credman.Peers
import Credman.Secrets

/-! The plaintext boundary: what the broker lets through to a vault, by its form, and what no
application has then. -/
namespace Credman

open Library Library.Checked Relation DurableVault

variable {P : Platform}

/-- A mutation the broker passes on: no caller's secret in it, and no grant to read one unless a
human issues it. -/
def Mutation.Guarded (trusted : Bool) : Mutation → Prop
  | .create .. => False
  | .patch _ _ values => values.metadataOnly = true
  | .share _ _ spec => Permission.secretRead ∈ spec.permissions → trusted = true
  | .generate .. | .delete .. | .revoke .. | .reportOutcome .. => True

def Call.Guarded : Call → Prop
  | .mutate ctx _ _ op _ => op.Guarded ctx.admin
  | .useSecret _ _ use _ _ _ => use.action = .use
  | _ => True

theorem Call.Guarded.of_housekeeping {call : Call} (h : call.housekeeping = true) : call.Guarded := by
  cases call with
  | mutate | useSecret => cases h
  | _ => trivial

section Requests

variable {S : AdminSerde} {owner : DurableVault} {around : Surroundings} {turn : Turn}
  {destinations : List Destination} {ctx : AuthenticatedContext} {call : Call}

/-- The call that each kind of work comes to. -/
inductive WorkRequest.Made (owner : DurableVault) (around : Surroundings) (destinations : List Destination)
    (ctx : AuthenticatedContext) : WorkRequest → Call → Prop
  | generate (task request : Uuid) (kind : CredentialKind) (username : Option String)
      (policy : Option GenerationPolicy) :
    Made owner around destinations ctx (.generate task request kind username policy)
      (.mutate ctx task request (.generate kind username policy) (around.now 0))
  | mutate (task request : Uuid) (mutation : Mutation) :
    Made owner around destinations ctx (.mutate task request mutation)
      (.mutate ctx task request mutation (around.now 0))
  | metadata (task record : Uuid) (fields : Fields) :
    Made owner around destinations ctx (.metadata task record fields)
      (.metadata ctx task record fields (around.now 0))
  | «use» {task : Uuid} {usage : PrivateUse} {prepared : PreparedHttps}
      (hprepared : owner.preflight around destinations ctx task usage = .ok prepared) :
    Made owner around destinations ctx (.use task usage)
      (.useSecret ctx task usage (around.now 1) (around.now 2) (prepared.deliver around))

theorem WorkRequest.call_eq_ok {request : WorkRequest}
    (h : request.call owner around destinations ctx = .ok call) :
    request.validateAgent = .ok () ∧ request.Made owner around destinations ctx call := by
  unfold WorkRequest.call at h
  rw [bind_eq_ok] at h
  obtain ⟨u, hvalid, hcall⟩ := h
  refine ⟨hvalid, ?_⟩
  cases request with
  | generate =>
    cases hcall
    exact .generate ..
  | mutate =>
    cases hcall
    exact .mutate ..
  | metadata =>
    cases hcall
    exact .metadata ..
  | «use» task usage =>
    simp only [bind_eq_ok] at hcall
    obtain ⟨prepared, hprepared, hcall⟩ := hcall
    cases hcall
    exact .use hprepared

/-- The call that a request of the administrator comes to, where it comes to one. -/
inductive AdminRequest.Made (owner : DurableVault) (turn : Turn) (destinations : List Destination)
    (ctx : AuthenticatedContext) : AdminRequest → Call → Prop
  | work {request : WorkRequest} {call : Call}
      (h : request.call owner turn.rest destinations ctx = .ok call) :
    Made owner turn destinations ctx (.work request) call
  | share (task request record : Uuid) (expected : UInt64) (grant : GrantSpec) :
    Made owner turn destinations ctx (.work (.mutate task request (.share record expected grant)))
      (.mutate ctx task request (.share record expected grant) (turn.rest.now 0))
  | importSecret (task request : Uuid) (kind : CredentialKind) (values : SecretInput) :
    Made owner turn destinations ctx (.control (.importSecret task request kind values))
      (.importForTask ctx task request kind values (turn.rest.now 0))
  | readSecret (task record : Uuid) (fields : Fields) :
    Made owner turn destinations ctx (.control (.readSecret task record fields))
      (.readForTask ctx task record fields (turn.rest.now 0))
  | approve (approval : TaskApproval) :
    Made owner turn destinations ctx (.control (.approve approval))
      (.approveTask ctx approval (turn.rest.now 0))
  | revokeTask (task : Uuid) :
    Made owner turn destinations ctx (.control (.revokeTask task))
      (.revokeTask ctx task (turn.rest.now 0))

theorem AdminRequest.call_eq_some {request : AdminRequest}
    (h : request.call owner turn destinations ctx = some call) :
    request.Made owner turn destinations ctx call := by
  have hwork : ∀ request : WorkRequest,
      (request.call owner turn.rest destinations ctx).toOption = some call →
      AdminRequest.Made owner turn destinations ctx (.work request) call := by
    intro request h
    cases hcall : request.call owner turn.rest destinations ctx with
    | error e =>
      rw [hcall] at h
      cases h
    | ok call' =>
      rw [hcall] at h
      cases h
      exact .work hcall
  cases request with
  | work request =>
    cases request with
    | generate | metadata | «use» => exact hwork _ h
    | mutate task request mutation =>
      cases mutation with
      | create kind values => exact hwork (.mutate task request (.create kind values)) h
      | generate kind username policy =>
        exact hwork (.mutate task request (.generate kind username policy)) h
      | patch record expected values =>
        exact hwork (.mutate task request (.patch record expected values)) h
      | delete record expected => exact hwork (.mutate task request (.delete record expected)) h
      | revoke record expected grant =>
        exact hwork (.mutate task request (.revoke record expected grant)) h
      | reportOutcome record expected state =>
        exact hwork (.mutate task request (.reportOutcome record expected state)) h
      | share record expected grant =>
        cases h
        exact .share ..
  | control control =>
    cases control with
    | importSecret =>
      cases h
      exact .importSecret ..
    | readSecret =>
      cases h
      exact .readSecret ..
    | approve =>
      cases h
      exact .approve _
    | revokeTask =>
      cases h
      exact .revokeTask _
    | status | issueSession | revokeSession | audit | listTasks | listRecords | listGrants
    | listSessions | shutdown => cases h

/-- How a message comes to a call. -/
inductive Broker.Calls (S : AdminSerde) (owner : DurableVault) (b : Broker) (p : Peer) (value : Json)
    (turn : Turn) (call : Call) : Prop
  | admin {request : AdminRequest} (hadmin : p.admin = true) (hparse : AdminRequest.parse S value = .ok request)
      (hmade : request.Made owner turn b.config.destinations p.context call)
  | agent {request : WorkRequest} (hagent : p.admin = false) (hparse : S.workRequest value = some request)
      (hpermits : ∀ id, p.session = some id → b.sessions.permits id request.task (turn.now 1) = true)
      (hcall : request.call owner turn.rest b.config.destinations p.context = .ok call)

theorem Broker.call_eq_some {b : Broker} {p : Peer} {value : Json}
    (h : b.call S owner p value turn = some call) : Broker.Calls S owner b p value turn call := by
  unfold Broker.call at h
  split_ifs at h with hadmin
  · obtain ⟨request, hparse, hcall⟩ := Option.bind_eq_some_iff.mp h
    cases hok : AdminRequest.parse S value with
    | error e =>
      rw [hok] at hparse
      cases hparse
    | ok request' =>
      rw [hok] at hparse
      cases hparse
      exact .admin hadmin hok (AdminRequest.call_eq_some hcall)
  · obtain ⟨request, hparse, hcall⟩ := Option.bind_eq_some_iff.mp h
    split_ifs at hcall with hpermits
    have hmade : request.call owner turn.rest b.config.destinations p.context = .ok call := by
      cases hwork : request.call owner turn.rest b.config.destinations p.context with
      | error e =>
        rw [hwork] at hcall
        cases hcall
      | ok call' =>
        rw [hwork] at hcall
        cases hcall
        rfl
    refine .agent (Bool.eq_false_of_not_eq_true hadmin) hparse (fun id hid => ?_) hmade
    rw [hid] at hpermits
    simpa using hpermits

/-- What `validate_agent` lets through is guarded, whoever asks. -/
theorem WorkRequest.guarded {request : WorkRequest}
    (h : request.call owner around destinations ctx = .ok call) : call.Guarded := by
  obtain ⟨hvalid, hmade⟩ := WorkRequest.call_eq_ok h
  unfold WorkRequest.validateAgent at hvalid
  cases hmade with
  | generate | metadata => trivial
  | mutate task request mutation =>
    cases mutation with
    | create | generate => cases hvalid
    | patch record expected values =>
      simp only at hvalid
      split_ifs at hvalid with hmeta
      exact Bool.eq_true_of_not_eq_false hmeta
    | share record expected spec =>
      simp only at hvalid
      split_ifs at hvalid with hread
      exact fun h => absurd h hread
    | delete | revoke | reportOutcome => trivial
  | @«use» task usage prepared hprepared =>
    simp only at hvalid
    split_ifs at hvalid with haction
    change usage.action = .use
    exact not_not.mp haction

/-- Whatever a peer sends comes to a guarded call. -/
theorem Broker.guarded {b : Broker} {p : Peer} {value : Json} (hp : p.Genuine b.config)
    (h : b.call S owner p value turn = some call) : call.Guarded := by
  cases Broker.call_eq_some h with
  | agent _ _ _ hcall => exact WorkRequest.guarded hcall
  | admin hadmin hparse hmade =>
    cases hmade with
    | work hcall => exact WorkRequest.guarded hcall
    | share => exact fun _ => hp.admin_eq.trans hadmin
    | importSecret | readSecret | approve | revokeTask => trivial

end Requests

/-! One guarded operation. -/

namespace Application

/-- Where the secrets of a record come from, over one operation. -/
inductive Sourced (draw : Draw) (imports : SecretInput → Prop) (app : Application) (i : Uuid)
    (r' : Record) : Prop
  | kept {r : Record} (hr : app.records.get? i = some r)
      (hsame : ∀ f, f.secret = true → r'.values.get? f = r.values.get? f)
  | erased {r : Record} (hr : app.records.get? i = some r) (hdeleted : r'.deleted = true)
      (hempty : r'.values = ∅)
  | generated {kind : CredentialKind} {username : Option String} {policy : Option GenerationPolicy}
      (hid : i = draw.id) (hvalues : generateValues kind username policy draw.entropy = .ok r'.values)
  | imported (hid : i = draw.id) (hvalues : imports r'.values)

/-- What a guarded operation can do to grants, deliveries, signups and secrets. -/
structure Enclosed (draw : Draw) (imports : SecretInput → Prop) (app next : Application) : Prop where
  grants : ∀ gid g', next.grants.get? gid = some g' →
    (∃ g, app.grants.get? gid = some g ∧ g'.spec = g.spec ∧ g'.adminIssued = g.adminIssued)
      ∨ (Permission.secretRead ∈ g'.spec.permissions → g'.adminIssued = true)
  deliveries : ∀ i d', next.deliveries.get? i = some d' →
    (∃ d, app.deliveries.get? i = some d ∧ d'.action = d.action) ∨ d'.action = .use
  signups : ∀ i r', next.records.get? i = some r' →
    (∃ r, app.records.get? i = some r ∧ r'.signup = r.signup) ∨ r'.signup ≠ .verifiedLogin
  secrets : ∀ i r', next.records.get? i = some r' → Sourced draw imports app i r'

variable {app next : Application} {draw : Draw} {imports : SecretInput → Prop}

/-- A record that an operation made or changed. -/
def Touched (draw : Draw) (imports : SecretInput → Prop) (app : Application) (i : Uuid) (r' : Record) : Prop :=
  ((∃ r, app.records.get? i = some r ∧ r'.signup = r.signup) ∨ r'.signup ≠ .verifiedLogin)
    ∧ Sourced draw imports app i r'

theorem touched_self {i : Uuid} {r r' : Record} (hr : app.records.get? i = some r)
    (hsignup : r'.signup = r.signup) (hvalues : r'.values = r.values) : Touched draw imports app i r' :=
  ⟨.inl ⟨r, hr, hsignup⟩, .kept hr fun _ _ => by rw [hvalues]⟩

/-- A record at one place, and every other as it was. -/
theorem touched_insert {i : Uuid} {r₁ : Record} (hhere : Touched draw imports app i r₁) (j : Uuid)
    (r' : Record) (hr : (app.records.insert i r₁).get? j = some r') : Touched draw imports app j r' := by
  rw [OrdMap.get?_insert] at hr
  split_ifs at hr with heq
  · obtain rfl := Option.some.inj hr
    rw [← heq]
    exact hhere
  · exact touched_self hr rfl rfl

namespace Enclosed

theorem of_records (hgrants : next.grants = app.grants) (hdeliveries : next.deliveries = app.deliveries)
    (hrecords : ∀ i r', next.records.get? i = some r' → Touched draw imports app i r') :
    Enclosed draw imports app next where
  grants _ g' hg := .inl ⟨g', hgrants ▸ hg, rfl, rfl⟩
  deliveries _ d' hd := .inl ⟨d', hdeliveries ▸ hd, rfl⟩
  signups i r' hr := (hrecords i r' hr).1
  secrets i r' hr := (hrecords i r' hr).2

theorem of_eq (hgrants : next.grants = app.grants) (hdeliveries : next.deliveries = app.deliveries)
    (hrecords : next.records = app.records) : Enclosed draw imports app next :=
  .of_records hgrants hdeliveries fun _ _ hr => touched_self (hrecords ▸ hr) rfl rfl

theorem clockOnly {now : Time} (h : app.ClockOnly now next) : Enclosed draw imports app next := by
  cases h with
  | ticked => exact .of_eq (ticked_grants _ _) (ticked_deliveries _ _) (ticked_records _ _)
  | frozen => exact .of_eq rfl rfl rfl

/-- The same after the clock has moved. -/
theorem of_ticked {now : Time} (h : Enclosed draw imports (app.ticked now) next) :
    Enclosed draw imports app next where
  grants gid g' hg := by
    have hgrants := h.grants gid g' hg
    rwa [ticked_grants] at hgrants
  deliveries i d' hd := by
    have hdeliveries := h.deliveries i d' hd
    rwa [ticked_deliveries] at hdeliveries
  signups i r' hr := by
    have hsignups := h.signups i r' hr
    rwa [ticked_records] at hsignups
  secrets i r' hr := by
    cases h.secrets i r' hr with
    | kept hold hsame => exact .kept (ticked_records app now ▸ hold) hsame
    | erased hold hdeleted hempty => exact .erased (ticked_records app now ▸ hold) hdeleted hempty
    | generated hid hvalues => exact .generated hid hvalues
    | imported hid hvalues => exact .imported hid hvalues

/-- A delivery is new or settled, and nothing else of the record. -/
theorem setDelivery {i : Uuid} {d' : DeliveryAttempt}
    (hd : (∃ d, app.deliveries.get? i = some d ∧ d'.action = d.action) ∨ d'.action = .use) :
    Enclosed draw imports app (app.setDelivery i d') where
  grants gid g' hg := .inl ⟨g', hg, rfl, rfl⟩
  deliveries j e he := by
    change (app.deliveries.insert i d').get? j = some e at he
    rw [OrdMap.get?_insert] at he
    split_ifs at he with heq
    · obtain rfl := Option.some.inj he
      rw [← heq]
      exact hd
    · exact .inl ⟨e, he, rfl⟩
  signups i r' hr := .inl ⟨r', hr, rfl⟩
  secrets i r' hr := .kept hr fun _ _ => rfl

end Enclosed

theorem patched_secrets {values : SecretInput} {r r' : Record} (hmeta : values.metadataOnly = true)
    (h : patched values r = .ok r') : (r'.signup = r.signup ∨ r'.signup = .pending)
      ∧ ∀ f, f.secret = true → r'.values.get? f = r.values.get? f := by
  have hextend : ∀ f, f.secret = true → (r.values.extend values).get? f = r.values.get? f := by
    intro f hf
    rw [SecretInput.get?_extend]
    cases hv : values.get? f with
    | none => rfl
    | some v =>
      unfold SecretInput.metadataOnly at hmeta
      have hplain := OrdMap.all_iff.mp hmeta f v hv
      rw [hf] at hplain
      cases hplain
  unfold patched at h
  split_ifs at h
  · cases h
    exact ⟨.inr rfl, hextend⟩
  · cases h
    exact ⟨.inl rfl, hextend⟩

theorem Performed.enclosed {ctx : AuthenticatedContext} {t : TaskApproval} {task : Uuid}
    {op : Mutation} {receipt : Receipt} (h : Performed ctx t task draw app op receipt next)
    (hcreate : ∀ kind values, op = .create kind values → imports values
      ∨ ∃ username policy, generateValues kind username policy draw.entropy = .ok values)
    (hpatch : ∀ i expected values, op = .patch i expected values → values.metadataOnly = true)
    (hshare : ∀ i expected spec, op = .share i expected spec → Permission.secretRead ∈ spec.permissions →
      ctx.admin = true)
    (hreport : ∀ i expected, op ≠ .reportOutcome i expected .verifiedLogin) :
    Enclosed draw imports app next := by
  cases h with
  | @create kind values room =>
    refine .of_records rfl rfl (touched_insert ⟨.inr SignupState.noConfusion, ?_⟩)
    rcases hcreate kind values rfl with himports | ⟨username, policy, hgenerated⟩
    · exact .imported rfl himports
    · exact .generated rfl hgenerated
  | @patch i expected values r r' hr hpatched =>
    obtain ⟨hsignup, hsame⟩ := patched_secrets (hpatch i expected values rfl) hpatched
    refine .of_records rfl rfl (touched_insert ⟨?_, .kept hr hsame⟩)
    exact hsignup.imp (fun h => ⟨r, hr, h⟩) fun h => by rw [h]; exact SignupState.noConfusion
  | @share i expected spec r hr room =>
    have hrecords : ∀ j r', (app.records.insert i { r with revision := r.revision + 1 }).get? j = some r' →
        Touched draw imports app j r' := touched_insert (touched_self hr rfl rfl)
    refine ⟨fun gid g' hg => ?_, fun j d' hd => .inl ⟨d', hd, rfl⟩, fun j r' hr => (hrecords j r' hr).1,
      fun j r' hr => (hrecords j r' hr).2⟩
    change (app.grants.insert draw.id _).get? gid = some g' at hg
    rw [OrdMap.get?_insert] at hg
    split_ifs at hg
    · obtain rfl := Option.some.inj hg
      exact .inr fun hread => hshare i expected spec rfl hread
    · exact .inl ⟨g', hg, rfl, rfl⟩
  | @revoke i expected gid r g hr hgrant =>
    have hrecords : ∀ j r', (app.records.insert i { r with revision := r.revision + 1 }).get? j = some r' →
        Touched draw imports app j r' := touched_insert (touched_self hr rfl rfl)
    refine ⟨fun gid' g' hg => ?_, fun j d' hd => .inl ⟨d', hd, rfl⟩, fun j r' hr => (hrecords j r' hr).1,
      fun j r' hr => (hrecords j r' hr).2⟩
    change (app.grants.insert gid _).get? gid' = some g' at hg
    rw [OrdMap.get?_insert] at hg
    split_ifs at hg with heq
    · obtain rfl := Option.some.inj hg
      exact .inl ⟨g, heq ▸ hgrant, rfl, rfl⟩
    · exact .inl ⟨g', hg, rfl, rfl⟩
  | @delete i expected r hr =>
    have hrecords : ∀ j r', (app.records.insert i { r with
          deleted := true, values := ∅, revision := r.revision + 1 }).get? j = some r' →
        Touched draw imports app j r' := touched_insert ⟨.inl ⟨r, hr, rfl⟩, .erased hr rfl rfl⟩
    refine ⟨fun gid g' hg => .inl ?_, fun j d' hd => .inl ⟨d', hd, rfl⟩,
      fun j r' hr => (hrecords j r' hr).1, fun j r' hr => (hrecords j r' hr).2⟩
    change (app.grants.mapVals _).get? gid = some g' at hg
    rw [OrdMap.get?_mapVals, Option.map_eq_some_iff] at hg
    obtain ⟨g, hg, rfl⟩ := hg
    refine ⟨g, hg, ?_⟩
    split_ifs <;> exact ⟨rfl, rfl⟩
  | @reportOutcome i expected state r hr =>
    refine .of_records rfl rfl (touched_insert ⟨.inr fun hstate => ?_, .kept hr fun _ _ => rfl⟩)
    change state = _ at hstate
    exact hreport i expected (hstate ▸ rfl)

/-- What a mutation is carried out as. -/
theorem resolve_cases {op op' : Mutation} (h : app.resolve op draw = .ok op') :
    op' = op ∨ ∃ kind username policy values, op = .generate kind username policy
      ∧ generateValues kind username policy draw.entropy = .ok values ∧ op' = .create kind values := by
  cases op with
  | generate kind username policy =>
    unfold resolve at h
    simp only at h
    split_ifs at h
    cases hvalues : generateValues kind username policy draw.entropy with
    | error e =>
      rw [hvalues] at h
      cases h
    | ok values =>
      rw [hvalues] at h
      cases h
      exact .inr ⟨kind, username, policy, values, rfl, hvalues, rfl⟩
  | create | patch | delete | share | revoke | reportOutcome =>
    cases h
    exact .inl rfl

/-- No agent reports a verified login. -/
theorem authorize_report {ctx : AuthenticatedContext} {t : TaskApproval} {i : Uuid} {expected : UInt64}
    {now : Time} {retry : Bool} :
    app.authorize ctx t (.reportOutcome i expected .verifiedLogin) now retry ≠ .ok () := by
  intro h
  unfold authorize at h
  simp only at h
  cases hr : app.records.get? i with
  | none =>
    rw [hr] at h
    cases h
  | some r =>
    have hdenied : app.authorizeTarget ctx t (.reportOutcome i expected .verifiedLogin) i r now
        = .error .denied := rfl
    rw [hr] at h
    simp only [hdenied] at h
    split_ifs at h

theorem Executed.enclosed {ctx : AuthenticatedContext} {task request : Uuid} {op : Mutation}
    {now effective : Time} {receipt : Receipt}
    (h : Executed P ctx task request op draw effective (app.ticked now) receipt next)
    (hop : op.Guarded ctx.admin ∨ ∃ kind values, op = .create kind values ∧ imports values) :
    Enclosed draw imports app next := by
  obtain ⟨t, mid, op', -, -, hauthorized, hresolve, hperformed, rfl⟩ := h.change
  have hmid : Enclosed draw imports (app.ticked now) mid := by
    rcases resolve_cases hresolve with rfl | ⟨kind, username, policy, values, rfl, hvalues, rfl⟩
    · refine hperformed.enclosed ?_ ?_ ?_ ?_
      · rintro kind values rfl
        rcases hop with hop | ⟨kind', values', heq, himports⟩
        · cases hop
        · cases heq
          exact .inl himports
      · rintro i expected values rfl
        rcases hop with hop | ⟨_, _, heq, -⟩
        · exact hop
        · cases heq
      · rintro i expected spec rfl
        rcases hop with hop | ⟨_, _, heq, -⟩
        · exact hop
        · cases heq
      · rintro i expected rfl
        exact authorize_report hauthorized
    · refine hperformed.enclosed ?_ ?_ ?_ ?_
      · intro kind' values' heq
        cases heq
        exact .inr ⟨username, policy, hvalues⟩
      · intro _ _ _ heq
        cases heq
      · intro _ _ _ heq
        cases heq
      · intro _ _ heq
        cases heq
  exact .of_ticked ⟨hmid.grants, hmid.deliveries, hmid.signups, hmid.secrets⟩

/-- An attempt is settled, and its record stays as it was but for its signup. -/
theorem Settled.enclosed {use : PrivateUse} {attempt : Uuid} {change : DeliveryAttempt → DeliveryAttempt}
    {signup : SignupState → SignupState} (h : Settled use attempt change signup app next)
    (hchange : ∀ d, (change d).action = d.action) (hsignup : ∀ old, signup old = old) :
    Enclosed draw imports app next := by
  have hset : ∀ {d}, app.deliveries.get? attempt = some d →
      Enclosed draw imports app (app.setDelivery attempt (change d)) :=
    fun hd => .setDelivery (.inl ⟨_, hd, hchange _⟩)
  cases h with
  | missing => exact .of_eq rfl rfl rfl
  | orphan hd hr => exact hset hd
  | @done d r hd hr =>
    rw [hsignup, setRecord_self]
    · exact hset hd
    · exact hr

end Application

open Application DurableVault in
/-- Every operation of a guarded call. -/
theorem Call.Runs.enclosed {b n : Nat} {call : Call} {app next : Application}
    {imports : SecretInput → Prop} (h : call.Runs P b n app next) (hguarded : call.Guarded)
    (himports : ∀ admin task request kind values now,
      call = .importForTask admin task request kind values now → imports values) :
    Enclosed { id := P.uuid n, entropy := P.osRng n } imports app next := by
  have hticked : ∀ {base next : Application} {now : Time}, next.grants = (base.ticked now).grants →
      next.deliveries = (base.ticked now).deliveries → next.records = (base.ticked now).records →
      Enclosed { id := P.uuid n, entropy := P.osRng n } imports base next :=
    fun hgrants hdeliveries hrecords => .of_ticked (.of_eq hgrants hdeliveries hrecords)
  cases h with
  | approveTask h =>
    rcases h with ⟨u, hrun⟩ | ⟨e, hrun⟩
    · obtain ⟨effective, -, happroved⟩ := approveTask_eq_ok.mp hrun
      rw [happroved.result]
      exact hticked rfl rfl rfl
    · exact .clockOnly (approveTask_error hrun)
  | revokeTask h =>
    refine h.of_wp (wp_mono (wp_revokeTask _ _ _ app) ?_ fun _ _ => .clockOnly)
    rintro - next ⟨effective, -, hrevoked⟩
    rw [hrevoked.result]
    exact hticked rfl rfl rfl
  | mutate h =>
    refine h.of_wp (wp_mono (wp_mutate _ _ _ _ _ _ _ app) ?_ fun _ _ => .clockOnly)
    rintro receipt next ⟨effective, heff, hexec | ⟨-, rfl⟩⟩
    · exact hexec.enclosed (.inl hguarded)
    · exact .clockOnly (.ticked heff)
  | metadata h =>
    refine h.of_wp (wp_mono (wp_metadata _ _ _ _ _ app) ?_ fun _ _ => .clockOnly)
    rintro - next ⟨effective, -, values, t, r, -, -, rfl⟩
    exact hticked rfl rfl rfl
  | importForTask h =>
    refine h.of_wp (wp_mono (wp_importClosure _ _) ?_ fun _ _ => .clockOnly)
    rintro receipt next ⟨t, effective, -, heff, hexec | ⟨-, rfl⟩⟩
    · exact hexec.enclosed (.inr ⟨_, _, rfl, himports _ _ _ _ _ _ rfl⟩)
    · exact .clockOnly (.ticked heff)
  | readForTask h =>
    refine h.of_wp (wp_mono (wp_readClosure _) ?_ fun _ _ => .clockOnly)
    rintro values next ⟨t, r, effective, -, -, rfl⟩
    exact hticked rfl rfl rfl
  | @usePrepare ctx task use preparedAt _ _ _ _ h =>
    refine h.of_wp (wp_mono (wp_usePrepare P _ _ _ _ _ app) ?_ fun _ _ => .clockOnly)
    rintro out next ⟨effective, heff, ⟨-, hprepared⟩ | ⟨receipt, -, -, rfl⟩⟩
    · obtain ⟨values, t, r, -, rfl⟩ := hprepared.usable
      change use.action = .use at hguarded
      unfold Application.prepared
      rw [if_neg (by rw [hguarded]; exact PrivateAction.noConfusion)]
      exact .of_ticked (.setDelivery (.inr hguarded))
    · exact .clockOnly (.ticked heff)
  | useAuthorize h =>
    refine h.of_wp (wp_mono (wp_useAuthorize _ _ _ _ app) ?_ fun _ _ => .clockOnly)
    rintro values next ⟨heff, -, rfl⟩
    exact .clockOnly (.ticked heff)
  | @useCancel _ _ use _ _ _ _ _ h =>
    change use.action = .use at hguarded
    have hsignup : ∀ old, signupWithdrawn use.action old = old := fun old => by rw [hguarded]; rfl
    exact h.of_wp (wp_mono (wp_useCancel _ _ app) (fun _ _ h => h.1.enclosed (fun _ => rfl) hsignup)
      fun _ _ h => h.enclosed (fun _ => rfl) hsignup)
  | @useFinish _ _ use _ _ _ _ status _ _ h =>
    change use.action = .use at hguarded
    have hsignup : ∀ old, signupAfter use.action status old = old := fun old => by rw [hguarded]; rfl
    refine h.of_wp (wp_mono (wp_useFinish _ _ _ _ _ _ app) ?_ ?_)
    · rintro - next ⟨d, r, hd, hr, rfl⟩
      have hsettled : Settled use (P.uuid b) (fun d => { d with status := some status })
        (signupAfter use.action status) app _ := .done hd hr
      have hdone : Enclosed { id := P.uuid n, entropy := P.osRng n } imports app _ :=
        hsettled.enclosed (fun _ => rfl) hsignup
      exact ⟨hdone.grants, hdone.deliveries, hdone.signups, hdone.secrets⟩
    · rintro e next (⟨rfl, -⟩ | ⟨d, hd, -, rfl⟩)
      · exact .of_eq rfl rfl rfl
      · exact .setDelivery (.inl ⟨d, hd, rfl⟩)

end Credman
