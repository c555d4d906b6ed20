import Credman.Application
import Credman.Library.Checked
import Credman.Library.Wp

/-! What each operation of the policy core can do: the state it leaves when it
succeeds, with the checks that passed, and the state a failure leaves. -/
namespace Credman

open Library Library.Checked

@[simp] theorem orElse_eq_ok {α : Type} {value : Option α} {e : Error} {a : α} :
    orElse value e = .ok a ↔ value = some a := by
  cases value <;> simp [orElse]

@[simp] theorem wp_liftExcept {α : Type} {x : Except Error α}
    {post : α → Application → Prop} {fail : Error → Application → Prop} {app : Application} :
    wp (liftExcept x) post fail app ↔
      (∀ a, x = .ok a → post a app) ∧ ∀ e, x = .error e → fail e app := by
  cases x <;> simp [liftExcept]

@[simp] theorem wp_failIf {c : Prop} [Decidable c] {e : Error}
    {post : Unit → Application → Prop} {fail : Error → Application → Prop} {app : Application} :
    wp (failIf (m := AppM) c e) post fail app ↔ (c → fail e app) ∧ (¬ c → post () app) := by
  by_cases h : c <;> simp [failIf, h]

@[simp] theorem failIf_eq_ok {c : Prop} [Decidable c] {e : Error} {u : Unit} :
    failIf (m := Except Error) c e = .ok u ↔ ¬ c := by
  by_cases h : c <;> simp [failIf, h, pure, Except.pure, throw, throwThe, MonadExceptOf.throw]

theorem failIf_eq_error {c : Prop} [Decidable c] {e e' : Error} :
    failIf (m := Except Error) c e = .error e' ↔ c ∧ e = e' := by
  by_cases h : c <;> simp [failIf, h, pure, Except.pure, throw, throwThe, MonadExceptOf.throw]

def SameOwner (a b : TaskApproval) : Prop := a.owner = b.owner ∧ a.workspace = b.workspace

namespace Application

/-- The clock high-water after an accepted sample. -/
def ticked (app : Application) (now : Time) : Application :=
  if app.lastTime.all (fun high => decide (high < now)) then { app with lastTime := some now }
  else app

def freezeClock (app : Application) : Application := { app with clockFrozen := true }

/-- Only the clock moved: the state a refused operation leaves. -/
inductive ClockOnly (app : Application) (now : Time) : Application → Prop
  | ticked {effective : Time} (h : app.effectiveTime now = .ok effective) :
      ClockOnly app now (app.ticked now)
  | frozen {e : Error} (h : app.effectiveTime now = .error e) : ClockOnly app now app.freezeClock

@[simp] theorem wp_clock {now : Time} {post : Time → Application → Prop}
    {fail : Error → Application → Prop} {app : Application} :
    wp (clock now) post fail app ↔
      (∀ effective, app.effectiveTime now = .ok effective → post effective (app.ticked now))
        ∧ ∀ e, app.effectiveTime now = .error e → fail e app.freezeClock := by
  simp only [clock, wp_bind, wp_get]
  cases app.effectiveTime now with
  | error e => simp [freezeClock]
  | ok effective => simp [ticked]

/-- Everything but the clock high-water is as before. -/
theorem ticked_eq (app : Application) (now : Time) :
    app.ticked now = { app with lastTime := (app.ticked now).lastTime } := by
  unfold ticked
  split <;> rfl

section Ticked

variable (app : Application) (now : Time)

@[simp] theorem ticked_tasks : (app.ticked now).tasks = app.tasks := by
  rw [ticked_eq]
@[simp] theorem ticked_records : (app.ticked now).records = app.records := by
  rw [ticked_eq]
@[simp] theorem ticked_grants : (app.ticked now).grants = app.grants := by
  rw [ticked_eq]
@[simp] theorem ticked_requests : (app.ticked now).requests = app.requests := by
  rw [ticked_eq]
@[simp] theorem ticked_audit : (app.ticked now).audit = app.audit := by
  rw [ticked_eq]
@[simp] theorem ticked_clockFrozen : (app.ticked now).clockFrozen = app.clockFrozen := by
  rw [ticked_eq]
@[simp] theorem ticked_generation : (app.ticked now).generation = app.generation := by
  rw [ticked_eq]
@[simp] theorem ticked_revokedTasks : (app.ticked now).revokedTasks = app.revokedTasks := by
  rw [ticked_eq]
@[simp] theorem ticked_deliveries : (app.ticked now).deliveries = app.deliveries := by
  rw [ticked_eq]
@[simp] theorem ticked_baselines : (app.ticked now).baselines = app.baselines := by
  rw [ticked_eq]
@[simp] theorem ticked_predecessor : (app.ticked now).predecessor = app.predecessor := by
  rw [ticked_eq]

end Ticked

/-- An accepted sample leaves the high-water at the later of the two readings, and
that is the effective time of the operation. -/
theorem lastTime_ticked {app : Application} {now effective : Time}
    (h : app.effectiveTime now = .ok effective) :
    (app.ticked now).lastTime = some effective ∧ now ≤ effective
      ∧ (∀ last, app.lastTime = some last → last ≤ effective)
      ∧ app.clockFrozen = false := by
  unfold effectiveTime at h
  unfold ticked
  cases hf : app.clockFrozen with
  | true => simp [hf] at h
  | false =>
    cases hl : app.lastTime with
    | none => simp_all
    | some last =>
      simp only [hf, hl, Bool.false_eq_true, ↓reduceIte] at h
      simp only [Option.all_some, decide_eq_true_eq, Option.some.injEq, forall_eq', and_true]
      split_ifs at h with hback htol
      · cases h
        rw [if_neg (by lia)]
        exact ⟨hl, by lia, le_refl _⟩
      · cases h
        split_ifs with hlt
        · exact ⟨rfl, le_refl _, by lia⟩
        · have : last = now := by lia
          exact ⟨this ▸ hl, le_refl _, by lia⟩


/-! Approval and revocation of tasks. -/

structure Approved (admin : AuthenticatedContext) (task : TaskApproval) (effective : Time)
    (app app' : Application) : Prop where
  is_admin : admin.admin = true
  owner : admin.owner = task.owner
  workspace : admin.workspace = task.workspace
  one_owner : ∀ id t, app.tasks.get? id = some t → SameOwner t task
  wellFormed : task.malformed effective = false
  bounded : task.share.any (·.malformed task effective) = false
  fresh : app.tasks.get? task.id = none
  room : app.tasks.size < 10000
  result : app' = { app with tasks := app.tasks.insert task.id task }

/-- A chain of guards of which none may fire. -/
theorem guard_iff {c p : Prop} : ((c → False) ∧ (¬ c → p)) ↔ ¬ c ∧ p := by tauto

theorem approveTask_eq_ok {admin : AuthenticatedContext} {task : TaskApproval} {now : Time}
    {app app' : Application} :
    approveTask admin task now app = .ok () app' ↔
      ∃ effective, app.effectiveTime now = .ok effective
        ∧ Approved admin task effective (app.ticked now) app' := by
  rw [eq_ok_iff_wp]
  simp only [approveTask, wp_bind, wp_clock, wp_get, wp_failIf, wp_modify, guard_iff]
  generalize app.ticked now = base
  cases heff : app.effectiveTime now with
  | error e => simp
  | ok effective =>
    simp [OrdMap.any_false, OrdMap.contains_false, and_assoc]
    constructor
    · rintro ⟨h1, h2, h3, h4, h5, h6, h7, h8, h9⟩
      exact ⟨h1, h2, h3, h4, h5, h6, h7, h8, h9.symm⟩
    · rintro ⟨h1, h2, h3, h4, h5, h6, h7, h8, h9⟩
      exact ⟨h1, h2, h3, h4, h5, h6, h7, h8, h9.symm⟩

theorem approveTask_error {admin : AuthenticatedContext} {task : TaskApproval} {now : Time}
    {app app' : Application} {e : Error} (h : approveTask admin task now app = .error e app') :
    app.ClockOnly now app' := by
  have hwp : wp (approveTask admin task now) (fun _ _ => True)
      (fun _ app' => app.ClockOnly now app') app := by
    simp only [approveTask, wp_bind, wp_clock, wp_get, wp_failIf, wp_modify, implies_true, and_true]
    exact ⟨fun effective heff => by simp [ClockOnly.ticked heff], fun e he => .frozen he⟩
  have herror := wp_error hwp h
  exact herror

structure TaskRevoked (admin : AuthenticatedContext) (id : Uuid) (app app' : Application) :
    Prop where
  is_admin : admin.admin = true
  scope : ∃ t, app.tasks.get? id = some t ∧ admin.owner = t.owner ∧ admin.workspace = t.workspace
  result : app' = { app with revokedTasks := insert id app.revokedTasks }

theorem wp_revokeTask (admin : AuthenticatedContext) (id : Uuid) (now : Time)
    (app : Application) :
    wp (revokeTask admin id now)
      (fun _ app' => ∃ effective, app.effectiveTime now = .ok effective
        ∧ TaskRevoked admin id (app.ticked now) app')
      (fun _ app' => app.ClockOnly now app') app := by
  simp only [revokeTask, wp_bind, wp_clock, wp_get, wp_failIf, wp_modify, wp_liftExcept,
    orElse_eq_ok]
  refine ⟨fun effective heff => ⟨fun t ht => ⟨fun _ => .ticked heff, fun hok => ?_⟩,
    fun _ _ => .ticked heff⟩, fun e he => .frozen he⟩
  simp only [Bool.or_eq_true, Bool.not_eq_true', bne_iff_ne, not_or, Decidable.not_not,
    Bool.not_eq_false] at hok
  exact ⟨effective, heff, hok.1.1, ⟨t, ht, hok.1.2, hok.2⟩, rfl⟩

/-! What a mutation does once it is authorized. -/

def createdRecord (ctx : AuthenticatedContext) (t : TaskApproval) (task : Uuid)
    (kind : CredentialKind) (values : SecretInput) (id : Uuid) : Record where
  id := id
  owner := ctx.owner
  workspace := ctx.workspace
  createdBy := ctx.principal
  task := task
  service := t.service
  origin := t.origin
  kind := kind
  revision := 1
  secretVersion := 1
  values := values
  signup := .pending
  deleted := false
  restored := false

def setRecord (app : Application) (id : Uuid) (r : Record) : Application :=
  { app with records := app.records.insert id r }

def setGrant (app : Application) (id : Uuid) (g : Grant) : Application :=
  { app with grants := app.grants.insert id g }

def revokeGrantsOf (app : Application) (record : Uuid) : Application :=
  { app with grants := app.grants.mapVals fun _ g =>
      if g.record == record then { g with revoked := true } else g }

/-- The change each mutation makes, before its receipt and audit event are stored. -/
inductive Performed (ctx : AuthenticatedContext) (t : TaskApproval) (task : Uuid) (draw : Draw)
    (app : Application) : Mutation → Receipt → Application → Prop
  | create {kind : CredentialKind} {values : SecretInput} (room : app.records.size < 10000) :
    Performed ctx t task draw app (.create kind values)
      { record := draw.id, revision := 1, grant := none }
      (app.setRecord draw.id (createdRecord ctx t task kind values draw.id))
  | patch {id : Uuid} {expected : UInt64} {values : SecretInput} {r r' : Record}
      (hr : app.records.get? id = some r) (hpatched : patched values r = .ok r') :
    Performed ctx t task draw app (.patch id expected values)
      { record := id, revision := r'.revision, grant := none } (app.setRecord id r')
  | share {id : Uuid} {expected : UInt64} {spec : GrantSpec} {r : Record}
      (hr : app.records.get? id = some r) (room : app.grants.size < 10000) :
    Performed ctx t task draw app (.share id expected spec)
      { record := id, revision := r.revision + 1, grant := some draw.id }
      ((app.setGrant draw.id {
        record := id, spec, revoked := false, version := r.secretVersion, issuerTask := task
        adminIssued := ctx.admin }).setRecord id { r with revision := r.revision + 1 })
  | revoke {id : Uuid} {expected : UInt64} {grant : Uuid} {r : Record} {g : Grant}
      (hr : app.records.get? id = some r) (hg : app.grants.get? grant = some g) :
    Performed ctx t task draw app (.revoke id expected grant)
      { record := id, revision := r.revision + 1, grant := some grant }
      ((app.setGrant grant { g with revoked := true }).setRecord id
        { r with revision := r.revision + 1 })
  | delete {id : Uuid} {expected : UInt64} {r : Record} (hr : app.records.get? id = some r) :
    Performed ctx t task draw app (.delete id expected)
      { record := id, revision := r.revision + 1, grant := none }
      ((app.setRecord id { r with deleted := true, values := ∅, revision := r.revision + 1
        }).revokeGrantsOf id)
  | reportOutcome {id : Uuid} {expected : UInt64} {state : SignupState} {r : Record}
      (hr : app.records.get? id = some r) :
    Performed ctx t task draw app (.reportOutcome id expected state)
      { record := id, revision := r.revision + 1, grant := none }
      (app.setRecord id { r with signup := state, revision := r.revision + 1 })

end Application

/-- The revision a mutation of an existing record was prepared against. -/
def Mutation.expected : Mutation → Option UInt64
  | .create .. | .generate .. => none
  | .patch _ expected _ | .delete _ expected | .share _ expected _ | .revoke _ expected _
  | .reportOutcome _ expected _ => some expected

/-- The existing record a mutation is about. -/
def Mutation.target : Mutation → Option Uuid
  | .create .. | .generate .. => none
  | .patch id .. | .delete id .. | .share id .. | .revoke id .. | .reportOutcome id .. => some id

namespace Application

theorem wp_updateRecord {id : Uuid} {f : Record → Except Error Record}
    {post : Record → Application → Prop} {fail : Error → Application → Prop} {app : Application}
    (r : Record) (hr : app.records.get? id = some r) :
    wp (updateRecord id f) post fail app ↔
      (∀ r', f r = .ok r' → post r' { app with records := app.records.insert id r' })
        ∧ ∀ e, f r = .error e → fail e app := by
  simp [updateRecord, hr, orElse]

/-- A mutation whose targets exist either performs its change or leaves all as it was. -/
theorem wp_perform (ctx : AuthenticatedContext) (t : TaskApproval) (task : Uuid) (op : Mutation)
    (draw : Draw) (app : Application)
    (htarget : ∀ id, op.target = some id → ∃ r, app.records.get? id = some r)
    (hgrant : ∀ id expected grant, op = .revoke id expected grant →
      ∃ g, app.grants.get? grant = some g) :
    wp (perform ctx t task op draw)
      (fun receipt app' => Performed ctx t task draw app op receipt app')
      (fun _ app' => app' = app) app := by
  cases op with
  | create kind values =>
    simp only [perform, performCreate, wp_bind, wp_get, wp_failIf, wp_modify, wp_pure,
      implies_true, not_le, true_and]
    exact fun room => .create room
  | generate kind username policy => simp [perform]
  | patch id expected values =>
    obtain ⟨r, hr⟩ := htarget id rfl
    simp only [perform, wp_bind, wp_pure, wp_updateRecord r hr, implies_true, and_true]
    exact fun r' hpatched => .patch hr hpatched
  | delete id expected =>
    obtain ⟨r, hr⟩ := htarget id rfl
    simp only [perform, wp_bind, wp_pure, wp_modify, wp_updateRecord r hr, Except.ok.injEq, forall_eq',
      reduceCtorEq, implies_true, and_true]
    exact .delete hr
  | share id expected spec =>
    obtain ⟨r, hr⟩ := htarget id rfl
    simp only [perform, wp_bind, wp_get, wp_failIf, wp_liftExcept, wp_modify, hr,
      orElse_eq_ok, Option.some.injEq, forall_eq', implies_true, not_le, true_and]
    refine fun room => ⟨?_, by simp⟩
    refine (wp_updateRecord r ?_).mpr ⟨?_, by simp⟩
    · exact hr
    · rintro r' ⟨⟩
      exact .share hr room
  | revoke id expected grant =>
    obtain ⟨r, hr⟩ := htarget id rfl
    obtain ⟨g, hg⟩ := hgrant id expected grant rfl
    simp only [perform, wp_bind, wp_get, wp_liftExcept, wp_modify, hg, orElse_eq_ok,
      Option.some.injEq, forall_eq']
    refine ⟨?_, by simp [orElse]⟩
    refine (wp_updateRecord r ?_).mpr ⟨?_, by simp⟩
    · exact hr
    · rintro r' ⟨⟩
      exact .revoke hr hg
  | reportOutcome id expected state =>
    obtain ⟨r, hr⟩ := htarget id rfl
    simp only [perform, wp_bind, wp_pure, wp_updateRecord r hr, Except.ok.injEq, forall_eq',
      reduceCtorEq, implies_true, and_true]
    exact .reportOutcome hr

/-- The key a request of this caller is remembered under. -/
def requestKey (ctx : AuthenticatedContext) (task request : Uuid) : RequestKey :=
  { owner := ctx.owner, principal := ctx.principal, task, id := request }

def remember (app : Application) (ctx : AuthenticatedContext) (task request : Uuid)
    (cached : Remembered) (effective : Time) : Application :=
  { app with requests := app.requests.insert (requestKey ctx task request) cached }.pushAudit {
    task, record := cached.result.record, request := some request, action := .mutation
    loggedAt := effective, principal := ctx.principal }

/-! The authorization of a mutation, and the whole call. -/

structure Targeted (app : Application) (ctx : AuthenticatedContext) (t : TaskApproval)
    (op : Mutation) (now : Time) (retry : Bool) (id : Uuid) (r : Record) : Prop where
  found : app.records.get? id = some r
  owner : r.owner = ctx.owner
  workspace : r.workspace = ctx.workspace
  live : r.deleted = true → retry = true ∧ op.isDelete = true
  allowed : app.authorizeTarget ctx t op id r now = .ok ()
  expected : retry = false → op.expected = some r.revision
  room : retry = false → r.revision ≠ maxU64

/-- The checks that every mutation of an existing record passes. -/
theorem authorized_of_found {app : Application} {ctx : AuthenticatedContext} {t : TaskApproval}
    {op : Mutation} {now : Time} {retry : Bool} {id : Uuid} {expected : UInt64}
    (hexpected : op.expected = some expected) (h : (match app.records.get? id with
      | none => .error .denied
      | some r =>
        if r.owner != ctx.owner || r.workspace != ctx.workspace
            || (r.deleted && !(retry && op.isDelete)) then
          .error .denied
        else
          match app.authorizeTarget ctx t op id r now with
          | .error e => .error e
          | .ok () =>
            if !retry && r.revision != expected then .error .conflict
            else if !retry && r.revision == maxU64 then .error .capacity
            else .ok ()) = Except.ok ()) : ∃ r, app.Targeted ctx t op now retry id r := by
  cases hr : app.records.get? id with
  | none => simp [hr] at h
  | some r =>
    simp only [hr] at h
    by_cases hscope : (r.owner != ctx.owner || r.workspace != ctx.workspace
        || (r.deleted && !(retry && op.isDelete))) = true
    · rw [if_pos hscope] at h
      cases h
    · rw [if_neg hscope] at h
      cases hallowed : app.authorizeTarget ctx t op id r now with
      | error e => simp [hallowed] at h
      | ok u =>
        simp only [hallowed] at h
        split_ifs at h with hrevision hroom
        exact ⟨r, hr, by grind, by grind, by grind, hallowed, by grind, by grind⟩

theorem authorize_target {app : Application} {ctx : AuthenticatedContext} {t : TaskApproval}
    {op : Mutation} {now : Time} {retry : Bool} {id : Uuid}
    (h : app.authorize ctx t op now retry = .ok ()) (htarget : op.target = some id) :
    ∃ r, app.Targeted ctx t op now retry id r := by
  cases op <;> cases htarget <;> exact authorized_of_found rfl h

/-- A mutation that ran, and was not answered from the cache. -/
structure Executed (P : Platform) (ctx : AuthenticatedContext) (task request : Uuid)
    (op : Mutation) (draw : Draw) (effective : Time) (app : Application) (receipt : Receipt)
    (app' : Application) : Prop where
  request_ne : request ≠ 0
  change : ∃ t mid op', app.task ctx task effective = .ok t
    ∧ app.authorize ctx t op effective true = .ok ()
    ∧ app.authorize ctx t op effective false = .ok ()
    ∧ app.resolve op draw = .ok op'
    ∧ Performed ctx t task draw app op' receipt mid
    ∧ app' = mid.remember ctx task request
        { fingerprint := P.sha256 (P.mutationJson op), result := receipt, kind := op.cachedKind
          storedAt := some effective } effective
  no_delivery : ∀ id d, app.deliveries.get? id = some d → d.key ≠ requestKey ctx task request
  fits : (P.mutationJson op).length ≤ 65536
  fresh : app.requests.get? (requestKey ctx task request) = none
  room : app.requests.size < 10000

/-- A mutation answered from the cache. -/
structure Replayed (P : Platform) (ctx : AuthenticatedContext) (task request : Uuid)
    (op : Mutation) (effective : Time) (app : Application) (receipt : Receipt) : Prop where
  request_ne : request ≠ 0
  authority : ∃ t, app.task ctx task effective = .ok t
    ∧ app.authorize ctx t op effective true = .ok ()
  no_delivery : ∀ id d, app.deliveries.get? id = some d → d.key ≠ requestKey ctx task request
  cached : ∃ previous, app.requests.get? (requestKey ctx task request) = some previous
    ∧ previous.fingerprint = P.sha256 (P.mutationJson op) ∧ previous.result = receipt
  creates : op.creates = true → ∃ r, app.record ctx receipt.record = .ok r

theorem resolve_target {app : Application} {op op' : Mutation} {draw : Draw}
    (h : app.resolve op draw = .ok op') : op'.target = op.target ∧
      ∀ id expected grant, op' = .revoke id expected grant → op = op' := by
  cases op with
  | generate kind username policy =>
    simp only [resolve] at h
    split_ifs at h
    split at h
    · cases h
    · cases h
      exact ⟨rfl, by simp⟩
  | _ => cases h; exact ⟨rfl, fun _ _ _ _ => rfl⟩

theorem wp_mutate (P : Platform) (ctx : AuthenticatedContext) (task request : Uuid)
    (op : Mutation) (now : Time) (draw : Draw) (app : Application) :
    wp (mutate P ctx task request op now draw)
      (fun receipt app' => ∃ effective, app.effectiveTime now = .ok effective
        ∧ (Executed P ctx task request op draw effective (app.ticked now) receipt app'
          ∨ Replayed P ctx task request op effective (app.ticked now) receipt
            ∧ app' = app.ticked now))
      (fun _ app' => app.ClockOnly now app') app := by
  simp only [mutate, wp_bind, wp_clock]
  refine ⟨fun effective heff => ?_, fun e he => .frozen he⟩
  have hclock : app.ClockOnly now (app.ticked now) := .ticked heff
  generalize app.ticked now = base at hclock ⊢
  simp only [wp_failIf, wp_get, wp_bind, wp_liftExcept]
  refine ⟨fun _ => hclock, fun hne => ⟨fun t ht => ⟨fun _ hretry => ⟨fun _ => hclock, fun hdel =>
    ⟨fun _ => hclock, fun hfits => ?_⟩⟩, fun _ _ => hclock⟩, fun _ _ => hclock⟩⟩
  have hrequest : request ≠ 0 := by simpa [Uuid.isNil] using hne
  have hno : ∀ id d, base.deliveries.get? id = some d → d.key ≠ requestKey ctx task request := by
    rw [Bool.not_eq_true, OrdMap.any_false] at hdel
    simpa [requestKey] using hdel
  cases hcached : base.requests.get? (requestKey ctx task request) with
  | some previous =>
    rw [requestKey] at hcached
    simp only [hcached, wp_bind, wp_failIf]
    refine ⟨fun _ => hclock, fun hfp => ?_⟩
    simp only [bne_iff_ne, Decidable.not_not] at hfp
    have hreplay (hcreates : op.creates = true → ∃ r, base.record ctx previous.result.record = .ok r) :
        Replayed P ctx task request op effective base previous.result :=
      ⟨hrequest, ⟨t, ht, hretry⟩, hno, ⟨previous, hcached, hfp, rfl⟩, hcreates⟩
    rw [wp_ite]
    refine ⟨fun hc => ?_, fun hc => ?_⟩
    · rw [wp_bind, wp_get, wp_bind, wp_liftExcept]
      exact ⟨fun r hr => ⟨effective, heff, .inr ⟨hreplay fun _ => ⟨r, hr⟩, rfl⟩⟩, fun _ _ => hclock⟩
    · exact ⟨effective, heff, .inr ⟨hreplay fun h => absurd h hc, rfl⟩⟩
  | none =>
    rw [requestKey] at hcached
    simp only [hcached, wp_bind, wp_failIf, wp_liftExcept, wp_get]
    refine ⟨fun _ hauth => ⟨fun _ => hclock, fun hroom => ⟨fun op' hop => ?_, fun _ _ => hclock⟩⟩,
      fun _ _ => hclock⟩
    obtain ⟨htarget, hrevoke⟩ := resolve_target hop
    refine wp_mono (wp_perform ctx t task op' draw base ?_ ?_) ?_ ?_
    · intro id hid
      obtain ⟨r, hr⟩ := authorize_target hauth (htarget ▸ hid)
      exact ⟨r, hr.found⟩
    · rintro id expected grant rfl
      obtain rfl := hrevoke id expected grant rfl
      obtain ⟨r, hr⟩ := authorize_target hauth rfl
      have hallowed := hr.allowed
      simp only [authorizeTarget] at hallowed
      cases hg : base.grants.get? grant with
      | none => simp [hg] at hallowed
      | some g => exact ⟨g, rfl⟩
    · intro receipt mid hperformed
      exact ⟨effective, heff, .inl ⟨hrequest, ⟨t, mid, op', ht, hretry, hauth, hop, hperformed, rfl⟩,
        hno, by simpa using hfits, hcached, by simpa using hroom⟩⟩
    · rintro e mid rfl
      exact hclock

/-! Selection of values, and the reads built on it. -/

/-- The task's own limits on one access to one record. -/
structure Permits (t : TaskApproval) (r : Record) (permission : Permission) (fields : Fields)
    (destination : Option String) : Prop where
  service : r.service = t.service
  origin : r.origin = t.origin
  permission : permission ∈ t.permissions
  fields : fields ⊆ t.fields
  destination : ∀ d, destination = some d → d ∈ t.destinations

theorem can_iff {app : Application} {ctx : AuthenticatedContext} {t : TaskApproval} {r : Record}
    {permission : Permission} {fields : Fields} {destination : Option String} {now : Time} :
    app.can ctx t r permission fields destination now = true ↔
      Permits t r permission fields destination
        ∧ ((r.createdBy = ctx.principal ∧ r.task = t.id)
          ∨ ∃ id g, app.grants.get? id = some g
            ∧ app.grantCovers ctx r permission fields destination now g = true) := by
  have hpermits : (r.service != t.service || r.origin != t.origin
      || !decide (permission ∈ t.permissions) || !decide (fields ⊆ t.fields)
      || destination.any fun d => !decide (d ∈ t.destinations)) = true ↔
      ¬ Permits t r permission fields destination := by
    rw [← not_iff_not, not_not, Bool.not_eq_true]
    simp [Option.any_eq_false, and_assoc]
    exact ⟨fun ⟨h1, h2, h3, h4, h5⟩ => ⟨h1, h2, h3, h4, h5⟩,
      fun ⟨h1, h2, h3, h4, h5⟩ => ⟨h1, h2, h3, h4, h5⟩⟩
  unfold can
  split_ifs with hno howner
  · simpa using fun h => absurd h (hpermits.mp hno)
  · simp only [Bool.and_eq_true, beq_iff_eq] at howner
    simp only [true_iff]
    exact ⟨not_not.mp fun h => hno (hpermits.mpr h), .inl howner⟩
  · simp only [Bool.and_eq_true, beq_iff_eq] at howner
    rw [OrdMap.any_iff]
    exact ⟨fun h => ⟨not_not.mp fun h => hno (hpermits.mpr h), .inr h⟩,
      fun ⟨_, h⟩ => h.resolve_left howner⟩

/-- What the task check lets through. -/
structure TaskHeld (app : Application) (ctx : AuthenticatedContext) (id : Uuid) (now : Time)
    (t : TaskApproval) : Prop where
  found : app.tasks.get? id = some t
  owner : t.owner = ctx.owner
  workspace : t.workspace = ctx.workspace
  principal : t.principal = ctx.principal
  unexpired : now < t.expiresAt
  unrevoked : id ∉ app.revokedTasks
  session : ∀ deadline, ctx.sessionDeadline = some deadline → now < deadline

theorem task_eq_ok {app : Application} {ctx : AuthenticatedContext} {id : Uuid} {now : Time}
    {t : TaskApproval} : app.task ctx id now = .ok t ↔ TaskHeld app ctx id now t := by
  unfold task
  cases ht : app.tasks.get? id with
  | none =>
    refine ⟨nofun, fun h => ?_⟩
    have := h.found
    simp [ht] at this
  | some found =>
    have hkey : (if found.owner != ctx.owner || found.workspace != ctx.workspace
        || found.principal != ctx.principal || decide (found.expiresAt ≤ now)
        || decide (id ∈ app.revokedTasks)
        || ctx.sessionDeadline.any fun deadline => decide (deadline ≤ now) then
          .error .denied else .ok found) = Except.ok (ε := Error) t ↔
        t = found ∧ t.owner = ctx.owner ∧ t.workspace = ctx.workspace
          ∧ t.principal = ctx.principal ∧ now < t.expiresAt ∧ id ∉ app.revokedTasks
          ∧ ∀ deadline, ctx.sessionDeadline = some deadline → now < deadline := by
      rw [guard_eq_ok, Bool.not_eq_true]
      simp [Option.any_eq_false, and_assoc]
      grind
    refine hkey.trans ⟨?_, ?_⟩
    · rintro ⟨rfl, h1, h2, h3, h4, h5, h6⟩
      exact ⟨ht, h1, h2, h3, h4, h5, h6⟩
    · rintro ⟨h0, h1, h2, h3, h4, h5, h6⟩
      exact ⟨Option.some.inj (h0.symm.trans ht), h1, h2, h3, h4, h5, h6⟩

/-- What the record lookup lets through. -/
structure RecordHeld (app : Application) (ctx : AuthenticatedContext) (id : Uuid) (r : Record) :
    Prop where
  found : app.records.get? id = some r
  owner : r.owner = ctx.owner
  workspace : r.workspace = ctx.workspace
  live : r.deleted = false

theorem record_eq_ok {app : Application} {ctx : AuthenticatedContext} {id : Uuid} {r : Record} :
    app.record ctx id = .ok r ↔ RecordHeld app ctx id r := by
  unfold record
  cases hr : app.records.get? id with
  | none =>
    refine ⟨nofun, fun h => ?_⟩
    have := h.found
    simp [hr] at this
  | some found =>
    have hkey : (if found.owner != ctx.owner || found.workspace != ctx.workspace || found.deleted
        then .error .denied else .ok found) = Except.ok (ε := Error) r ↔
        r = found ∧ r.owner = ctx.owner ∧ r.workspace = ctx.workspace ∧ r.deleted = false := by
      rw [guard_eq_ok, Bool.not_eq_true]
      simp [and_assoc]
      grind
    refine hkey.trans ⟨?_, ?_⟩
    · rintro ⟨rfl, h1, h2, h3⟩
      exact ⟨hr, h1, h2, h3⟩
    · rintro ⟨h0, h1, h2, h3⟩
      exact ⟨Option.some.inj (h0.symm.trans hr), h1, h2, h3⟩

theorem get?_gather {r : Record} {fields : List Field} {values result : SecretInput}
    (h : gather r fields values = .ok result) (field : Field) :
    result.get? field = (if field ∈ fields then r.values.get? field else values.get? field)
      ∧ (field ∈ fields → ∃ value, r.values.get? field = some value) := by
  induction fields generalizing values with
  | nil => 
    cases h
    simp
  | cons head rest ih =>
    simp only [gather] at h
    cases hv : r.values.get? head with
    | none => simp [hv] at h
    | some value =>
      simp only [hv] at h
      obtain ⟨hget, hsome⟩ := ih h
      rw [hget, OrdMap.get?_insert]
      grind

/-- What a successful selection has checked, and what it returns. -/
structure Selected (app : Application) (ctx : AuthenticatedContext) (task record : Uuid)
    (fields : Fields) (permission : Permission) (destination : Option String) (now : Time)
    (values : SecretInput) (t : TaskApproval) (r : Record) : Prop where
  fields_ne : fields ≠ ∅
  metadata : permission = .metadataRead → ∀ field ∈ fields, field.secret = false
  task : TaskHeld app ctx task now t
  record : RecordHeld app ctx record r
  allowed : app.can ctx t r permission fields destination now = true
  values : ∀ field, values.get? field = if field ∈ fields then r.values.get? field else none
  held : ∀ field ∈ fields, ∃ value, r.values.get? field = some value

theorem select_eq_ok {app : Application} {ctx : AuthenticatedContext} {task record : Uuid}
    {fields : Fields} {permission : Permission} {destination : Option String} {now : Time}
    {values : SecretInput}
    (h : app.select ctx task record fields permission destination now = .ok values) :
    ∃ t r, Selected app ctx task record fields permission destination now values t r := by
  simp only [select, bind_eq_ok, failIf_eq_ok, exists_const, task_eq_ok, record_eq_ok] at h
  obtain ⟨hne, hmeta, t, ht, r, hr, hcan, hgather⟩ := h
  refine ⟨t, r, hne, ?_, ht, hr, by simpa using hcan, ?_, ?_⟩
  · intro hperm field hfield
    by_contra hsecret
    exact hmeta ⟨hperm, field, hfield, by simpa using hsecret⟩
  · intro field
    simpa [Fields.mem_ordered] using (get?_gather hgather field).1
  · intro field hfield
    exact (get?_gather hgather field).2 (Fields.mem_ordered.mpr hfield)

theorem wp_metadata (ctx : AuthenticatedContext) (task record : Uuid) (fields : Fields)
    (now : Time) (app : Application) :
    wp (metadata ctx task record fields now)
      (fun view app' => ∃ effective, app.effectiveTime now = .ok effective ∧ ∃ values t r,
        Selected (app.ticked now) ctx task record fields .metadataRead none effective values t r
          ∧ view = { revision := r.revision, signup := r.signup, fields := values }
          ∧ app' = (app.ticked now).pushAudit {
              task, record, request := none, action := .metadataRead, loggedAt := effective
              principal := ctx.principal })
      (fun _ app' => app.ClockOnly now app') app := by
  simp only [metadata, wp_bind, wp_clock, wp_get, wp_liftExcept, wp_modify, wp_pure]
  refine ⟨fun effective heff => ⟨fun values hvalues => ⟨fun r hr => ?_, fun _ _ => .ticked heff⟩,
    fun _ _ => .ticked heff⟩, fun e he => .frozen he⟩
  obtain ⟨t, r', h⟩ := select_eq_ok hvalues
  have heq : r = r' := by
    have := (record_eq_ok.mp hr).found
    rw [h.record.found] at this
    exact (Option.some.inj this).symm
  exact ⟨effective, heff, values, t, r', h, by rw [heq], rfl⟩

theorem wp_readSecret (ctx : AuthenticatedContext) (task record : Uuid) (fields : Fields)
    (now : Time) (app : Application) :
    wp (readSecret ctx task record fields now)
      (fun values app' => ∃ effective, app.effectiveTime now = .ok effective ∧ ∃ t r,
        Selected (app.ticked now) ctx task record fields .secretRead none effective values t r
          ∧ app' = (app.ticked now).pushAudit {
              task, record, request := none, action := .secretRead, loggedAt := effective
              principal := ctx.principal })
      (fun _ app' => app.ClockOnly now app') app := by
  simp only [readSecret, wp_bind, wp_clock, wp_get, wp_liftExcept, wp_modify, wp_pure]
  refine ⟨fun effective heff => ⟨fun values hvalues => ?_, fun _ _ => .ticked heff⟩,
    fun e he => .frozen he⟩
  obtain ⟨t, r, h⟩ := select_eq_ok hvalues
  exact ⟨effective, heff, t, r, h, rfl⟩

/-- Reading the clock again at the effective time changes nothing. -/
theorem effectiveTime_ticked {app : Application} {now effective : Time}
    (h : app.effectiveTime now = .ok effective) :
    (app.ticked now).effectiveTime effective = .ok effective
      ∧ (app.ticked now).ticked effective = app.ticked now := by
  obtain ⟨hlast, -, -, hfrozen⟩ := lastTime_ticked h
  constructor
  · simp [effectiveTime, hlast, hfrozen]
  · rw [ticked, if_neg (by simp [hlast])]

end Application

end Credman
