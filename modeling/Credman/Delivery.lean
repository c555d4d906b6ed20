import Credman.Policy
import Credman.Workflow

/-! What the three closures of a private use can do. -/
namespace Credman

open Library Library.Checked

namespace Application

theorem deliveryOf_eq_none {app : Application} {key : RequestKey} :
    app.deliveryOf key = none ↔ ∀ id d, app.deliveries.get? id = some d → d.key ≠ key := by
  unfold deliveryOf
  rw [List.find?_eq_none]
  constructor
  · intro h id d hd heq
    exact h (id, d) (OrdMap.mem_entries.mpr hd) (beq_iff_eq.mpr heq)
  · rintro h ⟨id, d⟩ hmem heq
    exact h id d (OrdMap.mem_entries.mp hmem) (beq_iff_eq.mp heq)

theorem deliveryOf_eq_some {app : Application} {key : RequestKey} {id : Uuid}
    {d : DeliveryAttempt} (h : app.deliveryOf key = some (id, d)) :
    app.deliveries.get? id = some d ∧ d.key = key := by
  have hmem := List.mem_of_find?_eq_some h
  have hkey := List.find?_some h
  exact ⟨OrdMap.mem_entries.mp hmem, beq_iff_eq.mp hkey⟩

theorem wp_setSignup {record : Uuid} {state : SignupState} {e : Error}
    {post : Unit → Application → Prop} {fail : Error → Application → Prop} {app : Application} :
    wp (setSignup record state e) post fail app ↔
      (∀ r, app.records.get? record = some r →
        post () (app.setRecord record { r with signup := state }))
      ∧ (app.records.get? record = none → fail e app) := by
  simp only [setSignup, wp_bind, wp_get, wp_liftExcept, wp_modify]
  cases app.records.get? record <;> simp [orElse, setRecord]

/-- The application right after an attempt has been journaled. -/
def prepared (app : Application) (P : Platform) (ctx : AuthenticatedContext) (task : Uuid)
    (request : PrivateUse) (attempt : Uuid) (effective : Time) (r : Record) : Application :=
  let journaled := app.setDelivery attempt (newAttempt ctx task request
    (privateUseFingerprint P request) r.secretVersion effective)
  if request.action = .register then
    journaled.setRecord request.record { r with signup := .submitted }
  else journaled

/-- What the first check of a private use has let through. -/
structure Usable (app : Application) (ctx : AuthenticatedContext) (task : Uuid)
    (request : PrivateUse) (effective : Time) (values : SecretInput) (t : TaskApproval)
    (r : Record) : Prop where
  request_ne : request.request ≠ 0
  selected : Selected app ctx task request.record request.fields .secretUse
    (some request.destination) effective values t r
  login : request.action ≠ .use →
    r.kind = .login ∧ Field.username ∈ request.fields ∧ Field.password ∈ request.fields
  original : request.action = .register → r.restored = false
  no_receipt : app.requests.get? (requestKey ctx task request.request) = none

/-- A new attempt: nothing under its key, and no registration of the record before it. -/
structure Prepared (P : Platform) (ctx : AuthenticatedContext) (task : Uuid)
    (request : PrivateUse) (attempt : Uuid) (effective : Time) (app app' : Application) : Prop where
  usable : ∃ values t r, Usable app ctx task request effective values t r
    ∧ app' = app.prepared P ctx task request attempt effective r
  no_delivery : ∀ id d, app.deliveries.get? id = some d →
    d.key ≠ requestKey ctx task request.request
  unsealed : request.action = .register → app.registrationSealed request.record = false
  room : app.deliveries.size < 10000

/-- An attempt under this key exists, and this is its outcome. -/
structure Reported (P : Platform) (ctx : AuthenticatedContext) (task : Uuid)
    (request : PrivateUse) (effective : Time) (app : Application) (receipt : DeliveryReceipt) :
    Prop where
  usable : ∃ values t r d, Usable app ctx task request effective values t r
    ∧ app.deliveries.get? receipt.attempt = some d ∧ d.key = requestKey ctx task request.request
    ∧ d.version = r.secretVersion ∧ d.fingerprint = privateUseFingerprint P request
    ∧ d.dispatched = true ∧ d.status = some receipt.status

theorem replayDelivery_eq_ok {id : Uuid} {previous : DeliveryAttempt} {version : UInt64}
    {fingerprint : Digest} {receipt : DeliveryReceipt} :
    replayDelivery id previous version fingerprint = .ok receipt ↔
      previous.version = version ∧ previous.fingerprint = fingerprint
        ∧ previous.dispatched = true
        ∧ previous.status = some receipt.status ∧ receipt.attempt = id := by
  simp only [replayDelivery, bind_eq_ok, failIf_eq_ok, exists_const, orElse_eq_ok, pure_eq_ok,
    ne_eq, not_not, Bool.not_eq_false]
  constructor
  · rintro ⟨hversion, hprint, hdispatched, status, hstatus, rfl⟩
    exact ⟨hversion, hprint, hdispatched, hstatus, rfl⟩
  · rintro ⟨hversion, hprint, hdispatched, hstatus, rfl⟩
    exact ⟨hversion, hprint, hdispatched, receipt.status, hstatus, rfl⟩

theorem wp_journal (P : Platform) (ctx : AuthenticatedContext) (task : Uuid)
    (request : PrivateUse) (attempt : Uuid) (effective : Time) (r : Record) (app : Application)
    (hr : app.records.get? request.record = some r) :
    wp (journal ctx task request (privateUseFingerprint P request) attempt r.secretVersion effective)
      (fun out app' => out = none
        ∧ (request.action = .register → app.registrationSealed request.record = false)
        ∧ app.deliveries.size < 10000
        ∧ app' = app.prepared P ctx task request attempt effective r)
      (fun _ app' => app' = app) app := by
  simp only [journal, wp_bind, wp_get, wp_failIf, wp_modify, implies_true, true_and, not_le,
    not_and, Bool.not_eq_true]
  intro hsealed hroom
  rw [wp_ite]
  refine ⟨fun hregister => ?_, fun hother => ?_⟩
  · rw [wp_bind, wp_setSignup]
    have hsame : (app.setDelivery attempt (newAttempt ctx task request
        (privateUseFingerprint P request) r.secretVersion effective)).records = app.records := rfl
    rw [hsame, hr]
    refine ⟨fun r' hr' => ?_, fun hnone => by cases hnone⟩
    rw [Option.some.injEq] at hr'
    rw [wp_pure, prepared, if_pos hregister, hr']
    exact ⟨rfl, hsealed, hroom, rfl⟩
  · rw [wp_pure, prepared, if_neg hother]
    exact ⟨rfl, hsealed, hroom, rfl⟩

theorem wp_usePrepare (P : Platform) (ctx : AuthenticatedContext) (task : Uuid)
    (request : PrivateUse) (attempt : Uuid) (now : Time) (app : Application) :
    wp (usePrepare P ctx task request attempt now)
      (fun out app' => ∃ effective, app.effectiveTime now = .ok effective
        ∧ (out = none ∧ Prepared P ctx task request attempt effective (app.ticked now) app'
          ∨ ∃ receipt, out = some receipt
            ∧ Reported P ctx task request effective (app.ticked now) receipt
            ∧ app' = app.ticked now))
      (fun _ app' => app.ClockOnly now app') app := by
  simp only [usePrepare, wp_bind, wp_clock]
  refine ⟨fun effective heff => ?_, fun e he => .frozen he⟩
  have hclock : app.ClockOnly now (app.ticked now) := .ticked heff
  generalize app.ticked now = base at hclock ⊢
  simp only [wp_failIf, wp_get, wp_bind, wp_liftExcept]
  refine ⟨fun _ => hclock, fun hne => ⟨fun values hselect => ⟨fun r hr => ⟨fun _ => hclock,
    fun hlogin => ⟨fun _ => hclock, fun horiginal => ⟨fun _ => hclock, fun hnone => ?_⟩⟩⟩,
    fun _ _ => hclock⟩, fun _ _ => hclock⟩⟩
  obtain ⟨t, r', hselected⟩ := select_eq_ok hselect
  have hsame : r' = r := by
    have hfound := (record_eq_ok.mp hr).found
    rw [hselected.record.found] at hfound
    exact Option.some.inj hfound
  subst hsame
  have hrequest : request.request ≠ 0 := by simpa [Uuid.isNil] using hne
  have husable : Usable base ctx task request effective values t r' := by
    refine ⟨hrequest, hselected, fun haction => ?_, fun hregister => ?_, ?_⟩
    · by_contra hnot
      apply hlogin
      refine ⟨haction, ?_⟩
      by_contra hkind
      push Not at hkind
      exact hnot hkind
    · rw [← Bool.not_eq_true]
      exact fun hrestored => horiginal ⟨hregister, hrestored⟩
    · rw [Bool.not_eq_true, OrdMap.contains_false] at hnone
      exact hnone
  cases hfound : base.deliveryOf
      { owner := ctx.owner, principal := ctx.principal, task, id := request.request } with
  | some entry =>
    obtain ⟨id, previous⟩ := entry
    obtain ⟨hget, hkey⟩ := deliveryOf_eq_some hfound
    simp only [wp_bind, wp_liftExcept, wp_pure]
    refine ⟨fun receipt hreceipt => ?_, fun _ _ => hclock⟩
    obtain ⟨hversion, hprint, hdispatched, hstatus, rfl⟩ := replayDelivery_eq_ok.mp hreceipt
    exact ⟨effective, heff, .inr ⟨receipt, rfl, ⟨values, t, r', previous, husable, hget, hkey,
      hversion, hprint, hdispatched, hstatus⟩, trivial⟩⟩
  | none =>
    apply wp_mono (wp_journal P ctx task request attempt effective r' base hselected.record.found)
    · rintro out app' ⟨rfl, hsealed, hroom, rfl⟩
      exact ⟨effective, heff, .inl ⟨rfl, ⟨values, t, r', husable, rfl⟩,
        deliveryOf_eq_none.mp hfound, hsealed, hroom⟩⟩
    · rintro e app' rfl
      exact hclock

theorem wp_useAuthorize (ctx : AuthenticatedContext) (task : Uuid) (request : PrivateUse)
    (now : Time) (app : Application) :
    wp (useAuthorize ctx task request now)
      (fun out app' => app.effectiveTime now = .ok out.2
        ∧ (∃ t r, Selected (app.ticked now) ctx task request.record request.fields .secretUse
            (some request.destination) out.2 out.1 t r)
        ∧ app' = app.ticked now)
      (fun _ app' => app.ClockOnly now app') app := by
  simp only [useAuthorize, wp_bind, wp_clock, wp_get, wp_liftExcept, wp_pure]
  refine ⟨fun effective heff => ⟨fun values hvalues => ⟨heff, select_eq_ok hvalues, trivial⟩,
    fun _ _ => .ticked heff⟩, fun e he => .frozen he⟩

/-- The attempt of a private use is settled, and its record's signup with it. -/
inductive Settled (request : PrivateUse) (attempt : Uuid) (change : DeliveryAttempt → DeliveryAttempt)
    (signup : SignupState → SignupState) (app : Application) : Application → Prop
  | missing (h : app.deliveries.get? attempt = none) : Settled request attempt change signup app app
  | orphan {d : DeliveryAttempt} (h : app.deliveries.get? attempt = some d)
      (hr : app.records.get? request.record = none) :
    Settled request attempt change signup app (app.setDelivery attempt (change d))
  | done {d : DeliveryAttempt} {r : Record} (h : app.deliveries.get? attempt = some d)
      (hr : app.records.get? request.record = some r) :
    Settled request attempt change signup app
      ((app.setDelivery attempt (change d)).setRecord request.record
        { r with signup := signup r.signup })

theorem setRecord_self {app : Application} {id : Uuid} {r : Record}
    (hr : app.records.get? id = some r) : app.setRecord id r = app := by
  have hsame : app.records.insert id r = app.records := by
    apply OrdMap.ext
    intro key
    rw [OrdMap.get?_insert]
    split_ifs with heq
    · rw [← heq, hr]
    · rfl
  rw [setRecord, hsame]

/-- The withdrawn attempt is marked not dispatched and rejected. -/
def withdrawn (d : DeliveryAttempt) : DeliveryAttempt :=
  { d with dispatched := false, status := some .rejected }

def signupWithdrawn (action : PrivateAction) (old : SignupState) : SignupState :=
  if action = .register then .pending else old

theorem wp_useCancel (request : PrivateUse) (attempt : Uuid) (app : Application) :
    wp (useCancel request attempt)
      (fun _ app' => Settled request attempt withdrawn (signupWithdrawn request.action) app app'
        ∧ ∃ d, app.deliveries.get? attempt = some d)
      (fun _ app' => Settled request attempt withdrawn (signupWithdrawn request.action) app app')
      app := by
  simp only [useCancel, wp_bind, wp_get, wp_liftExcept, wp_modify, orElse_eq_ok]
  refine ⟨fun d hd => ?_, fun e he => ?_⟩
  · rw [wp_ite]
    refine ⟨fun hregister => ?_, fun hother => ?_⟩
    · rw [wp_setSignup]
      refine ⟨fun r hr => ⟨?_, d, hd⟩, fun hnone => .orphan hd hnone⟩
      have hdone : Settled request attempt withdrawn (signupWithdrawn request.action) app _ :=
        .done hd hr
      rw [signupWithdrawn, if_pos hregister] at hdone
      exact hdone
    · rw [wp_pure]
      refine ⟨?_, d, hd⟩
      cases hr : app.records.get? request.record with
      | none => exact .orphan hd hr
      | some r =>
        have hdone : Settled request attempt withdrawn (signupWithdrawn request.action) app _ :=
          .done hd hr
        rw [signupWithdrawn, if_neg hother, setRecord_self (by exact hr)] at hdone
        exact hdone
  · cases hd : app.deliveries.get? attempt with
    | none => exact .missing hd
    | some d => rw [hd] at he; cases he

theorem wp_useFinish (ctx : AuthenticatedContext) (task : Uuid) (request : PrivateUse)
    (attempt : Uuid) (status : DeliveryStatus) (handoffAt : Time) (app : Application) :
    wp (useFinish ctx task request attempt status handoffAt)
      (fun _ app' => ∃ d r, app.deliveries.get? attempt = some d
        ∧ app.records.get? request.record = some r
        ∧ app' = ((app.setDelivery attempt { d with status := some status }).setRecord
            request.record { r with signup := signupAfter request.action status r.signup }).pushAudit
          { task, record := request.record, request := none, action := .secretUse
            loggedAt := handoffAt, principal := ctx.principal })
      (fun _ app' => (app' = app ∧ app.deliveries.get? attempt = none)
        ∨ ∃ d, app.deliveries.get? attempt = some d
          ∧ app.records.get? request.record = none
          ∧ app' = app.setDelivery attempt { d with status := some status }) app := by
  simp only [useFinish, wp_bind, wp_get, wp_liftExcept, wp_modify, orElse_eq_ok, wp_setSignup]
  refine ⟨fun d hd => ⟨fun r hr => ⟨fun r' hr' => ?_, fun hnone => ?_⟩, fun e he => ?_⟩,
    fun e he => ?_⟩
  · have hsame : r' = r := Option.some.inj (hr'.symm.trans hr)
    rw [hsame]
    exact ⟨d, r, hd, hr, rfl⟩
  · cases hr.symm.trans hnone
  · cases hr : app.records.get? request.record with
    | none => exact .inr ⟨d, hd, rfl, rfl⟩
    | some r =>
      have hsome : (app.setDelivery attempt { d with status := some status }).records.get?
        request.record = some r := hr
      rw [hsome] at he
      cases he
  · cases hd : app.deliveries.get? attempt with
    | none => exact .inl ⟨trivial, rfl⟩
    | some d => rw [hd] at he; cases he

end Application

end Credman
