import Credman.Snapshot
import Credman.Policy

/-! What `validate` accepts, as a structure with one named field per clause. -/
namespace Credman

open Library Library.Checked

@[simp] theorem ensure_eq_ok {ok : Bool} {u : Unit} : ensure ok = .ok u ↔ ok = true := by
  cases ok <;> simp [ensure]

@[simp] theorem required_eq_ok {α : Type} {value : Option α} {a : α} :
    required value = .ok a ↔ value = some a := by
  cases value <;> simp [required, orElse]

@[simp] theorem Uuid.isNil_eq_false {id : Uuid} : id.isNil = false ↔ id ≠ 0 := by
  simp [Uuid.isNil]

theorem sameScope_iff {t : TaskApproval} {r : Record} :
    sameScope t r = true ↔
      t.owner = r.owner ∧ t.workspace = r.workspace ∧ t.origin = r.origin
        ∧ t.service = r.service := by
  simp [sameScope, and_assoc]

/-- The kind of a live record fits the secret fields it holds. -/
def CredentialKind.fits (kind : CredentialKind) (values : SecretInput) : Bool :=
  (kind == .login && values.contains .password && !values.contains .apiKey)
    || (kind == .apiKey && values.contains .apiKey && !values.contains .password)

structure TaskSound (id : Uuid) (t : TaskApproval) : Prop where
  id_eq : id = t.id
  wellFormed : t.malformed Time.min = false
  bounded : t.share.any (·.malformed t Time.min) = false

structure RecordSound (id : Uuid) (r : Record) (t : TaskApproval) : Prop where
  id_ne : id ≠ 0
  id_eq : id = r.id
  scope : sameScope t r = true
  creator : t.principal = r.createdBy
  revision_pos : 0 < r.revision
  version_pos : 0 < r.secretVersion
  version_le : r.secretVersion ≤ r.revision
  writable : Permission.secretWrite ∈ t.permissions
  erased : r.deleted = true → r.values.isEmpty = true
  values : r.deleted = false → r.values.valid = true
  fields : r.deleted = false → r.values.fields ⊆ t.fields
  kind : r.deleted = false → r.kind.fits r.values = true

structure GrantSound (id : Uuid) (g : Grant) (r : Record) (t : TaskApproval) : Prop where
  id_ne : id ≠ 0
  scope : sameScope t r = true
  version_pos : 0 < g.version
  version_le : g.version ≤ r.secretVersion
  dead : r.deleted = true → g.revoked = true
  fields_ne : g.spec.fields ≠ ∅
  permissions_ne : g.spec.permissions ≠ ∅
  no_access : Permission.accessGrant ∉ g.spec.permissions
  recipient_ne : g.spec.recipient ≠ ""
  recipient_short : tooLong g.spec.recipient = false
  fields : g.spec.fields ⊆ t.fields
  permissions : g.spec.permissions ⊆ t.permissions
  destinations : g.spec.destinations ⊆ t.destinations
  expires_gt : Time.min < g.spec.expiresAt
  expires_le : g.spec.expiresAt ≤ t.expiresAt
  usable : Permission.secretUse ∈ g.spec.permissions → g.spec.destinations ≠ ∅
  held : r.deleted = false → g.spec.fields ⊆ r.values.fields
  /-- A grant an agent issued stays within what its task let it share. -/
  shared : g.adminIssued = false → ∃ bounds, t.share = some bounds
    ∧ t.principal = r.createdBy ∧ t.id = r.task ∧ Permission.accessGrant ∈ t.permissions
    ∧ (g.spec.followActive = true → bounds.allowFollowActive = true)
    ∧ g.spec.recipient ∈ bounds.recipients ∧ g.spec.fields ⊆ bounds.fields
    ∧ g.spec.permissions ⊆ bounds.permissions ∧ g.spec.destinations ⊆ bounds.destinations
    ∧ g.spec.expiresAt ≤ bounds.expiresAt

/-- What one receipt says about the grants, by its kind. -/
def KindSound (grants : OrdMap Uuid Grant) (key : RequestKey) (cached : Remembered)
    (r : Record) : Prop :=
  match cached.kind with
  | .create => r.task = key.task ∧ r.createdBy = key.principal ∧ cached.result.revision = 1
      ∧ cached.result.grant = none
  | .share => ∃ id g, cached.result.grant = some id ∧ grants.get? id = some g
      ∧ g.record = cached.result.record ∧ g.issuerTask = key.task
  | .revoke => ∃ id g, cached.result.grant = some id ∧ grants.get? id = some g
      ∧ g.record = cached.result.record ∧ g.revoked = true
  | .delete => r.deleted = true ∧ cached.result.grant = none
  | .patch | .metadataPatch | .reportOutcome => cached.result.grant = none

structure ReceiptSound (key : RequestKey) (cached : Remembered) (t : TaskApproval) (r : Record)
    (through : UInt64) : Prop where
  id_ne : key.id ≠ 0
  owner : key.owner = t.owner
  principal : key.principal = t.principal
  scope : sameScope t r = true
  above : through < cached.result.revision
  below : cached.result.revision ≤ r.revision

structure BaselineSound (base : RecordBaseline) (r : Record) : Prop where
  through_le : base.through ≤ r.revision
  fresh : base.through = 0 →
    base.secretVersion = 0 ∧ base.deletePruned = false ∧ base.prunedGrants = []
  version_pos : 0 < base.through → 1 ≤ base.secretVersion
  sorted : base.prunedGrants.Pairwise (· < ·)
  verified : base.verifiedLogin = true → r.signup = .verifiedLogin

structure DeliverySound (P : Platform) (id : Uuid) (d : DeliveryAttempt) (t : TaskApproval)
    (r : Record) : Prop where
  id_ne : id ≠ 0
  scope : sameScope t r = true
  version_pos : 0 < d.version
  version_le : d.version ≤ r.secretVersion
  fields_ne : d.fields ≠ ∅
  fields : d.fields ⊆ t.fields
  permission : Permission.secretUse ∈ t.permissions
  destination : d.destination ∈ t.destinations
  key_task : d.key.task = d.task
  key_owner : d.key.owner = t.owner
  key_principal : d.key.principal = t.principal
  key_ne : d.key.id ≠ 0
  journaled : d.dispatched = true ∨ d.status = some .rejected
  fingerprint : d.fingerprint = privateUseFingerprint P {
    request := d.key.id, record := d.record, fields := d.fields
    destination := d.destination, action := d.action }
  login : d.action ≠ .use →
    r.kind = .login ∧ Field.username ∈ d.fields ∧ Field.password ∈ d.fields

namespace Application

/-- Receipts of one kind on one record. -/
def hasReceipt (app : Application) (kind : CachedKind) (id : Uuid) : Prop :=
  ∃ key cached, app.requests.get? key = some cached ∧ cached.result.record = id
    ∧ cached.kind = kind

def patchCount (app : Application) (id : Uuid) : Nat :=
  app.requests.count fun _ cached => cached.kind == .patch && cached.result.record == id

def deletePruned (app : Application) (id : Uuid) : Bool :=
  (app.baselines.get? id).any (·.deletePruned)

/-- The credential version below the receipts that are still cached. -/
def baseVersion (app : Application) (id : Uuid) : UInt64 :=
  if app.through id = 0 then 1 else ((app.baselines.get? id).map (·.secretVersion)).getD 0

structure ChainSound (app : Application) (id : Uuid) (r : Record) : Prop where
  covered : ∀ revision, app.through id < revision → revision ≤ r.revision →
    ∃ key cached, app.requests.get? key = some cached ∧ cached.result.record = id
      ∧ cached.result.revision = revision
  created : app.through id = 0 → app.hasReceipt .create id
  deleted : r.deleted = true ↔ app.deletePruned id = true ∨ app.hasReceipt .delete id
  deleted_once : ¬ (app.deletePruned id = true ∧ app.hasReceipt .delete id)

/-- The credential version counts the patches above the baseline; the sum wraps. -/
def VersionSound (app : Application) (id : Uuid) (r : Record) : Prop :=
  r.secretVersion = app.baseVersion id + UInt64.ofNat (app.patchCount id)

def registers (d : DeliveryAttempt) : Bool := d.action == .register && d.dispatched

/-- A delivery that shows the login of this record's present version was accepted. -/
def evidence (r : Record) (id : Uuid) (d : DeliveryAttempt) : Bool :=
  d.record == id && d.version == r.secretVersion && d.action == .login && d.dispatched
    && d.status == some .accepted

structure AuditSound (app : Application) (event : AuditEvent) (t : TaskApproval) (r : Record) :
    Prop where
  scope : sameScope t r = true
  logged : ¬ (event.loggedAt = 0 ∧ event.principal = "") →
    event.principal = t.principal ∧ ∃ last, app.lastTime = some last
      ∧ 0 ≤ event.loggedAt ∧ event.loggedAt ≤ last
  receipt : ∀ request, event.request = some request → ∃ cached,
    app.requests.get? { owner := t.owner, principal := t.principal, task := t.id, id := request }
        = some cached
      ∧ cached.result.record = event.record

structure SizesSound (app : Application) : Prop where
  tasks : app.tasks.size ≤ limit
  records : app.records.size ≤ limit
  grants : app.grants.size ≤ limit
  requests : app.requests.size ≤ limit
  revokedTasks : app.revokedTasks.card ≤ limit
  deliveries : app.deliveries.size ≤ limit
  audit : app.audit.length ≤ limit
  baselines : app.baselines.size ≤ limit

/-- Everything `validate` requires but for sizes, version counts and the audit
log, which compaction repairs only at its end. -/
structure Sound (P : Platform) (app : Application) : Prop where
  generation : 0 < app.generation
  clock : app.clockFrozen = true → app.lastTime.isSome = true
  tasks : ∀ id t, app.tasks.get? id = some t → TaskSound id t
  one_owner : ∀ i s j t, app.tasks.get? i = some s → app.tasks.get? j = some t → SameOwner s t
  revoked : ∀ id ∈ app.revokedTasks, ∃ t, app.tasks.get? id = some t
  records : ∀ id r, app.records.get? id = some r →
    ∃ t, app.tasks.get? r.task = some t ∧ RecordSound id r t
  grants : ∀ id g, app.grants.get? id = some g → ∃ r t, app.records.get? g.record = some r
    ∧ app.tasks.get? g.issuerTask = some t ∧ GrantSound id g r t
  receipts : ∀ key cached, app.requests.get? key = some cached → ∃ t r,
    app.tasks.get? key.task = some t ∧ app.records.get? cached.result.record = some r
      ∧ ReceiptSound key cached t r (app.through cached.result.record)
      ∧ KindSound app.grants key cached r
  one_receipt : ∀ k c k' c', app.requests.get? k = some c → app.requests.get? k' = some c' →
    c.result.record = c'.result.record → c.result.revision = c'.result.revision → k = k'
  one_share : ∀ k c k' c' gid, app.requests.get? k = some c → app.requests.get? k' = some c' →
    c.kind = .share → c'.kind = .share → c.result.grant = some gid → c'.result.grant = some gid →
      k = k'
  baselines : ∀ id base, app.baselines.get? id = some base →
    ∃ r, app.records.get? id = some r ∧ BaselineSound base r
  pruned : ∀ id base gid, app.baselines.get? id = some base → gid ∈ base.prunedGrants →
    (∃ g, app.grants.get? gid = some g ∧ g.record = id)
      ∧ ∀ key cached, app.requests.get? key = some cached → cached.kind = .share →
          cached.result.grant ≠ some gid
  chain : ∀ id r, app.records.get? id = some r → app.ChainSound id r
  accounted : ∀ gid g, app.grants.get? gid = some g →
    (∃ key cached, app.requests.get? key = some cached ∧ cached.kind = .share
      ∧ cached.result.grant = some gid)
    ∨ ∃ id base, app.baselines.get? id = some base ∧ gid ∈ base.prunedGrants
  deliveries : ∀ id d, app.deliveries.get? id = some d → ∃ t r,
    app.tasks.get? d.task = some t ∧ app.records.get? d.record = some r
      ∧ DeliverySound P id d t r
  no_receipt : ∀ id d, app.deliveries.get? id = some d → app.requests.get? d.key = none
  one_delivery : ∀ i d j e, app.deliveries.get? i = some d → app.deliveries.get? j = some e →
    d.key = e.key → i = j
  one_register : ∀ i d j e, app.deliveries.get? i = some d → app.deliveries.get? j = some e →
    registers d = true → registers e = true → d.record = e.record → i = j
  verified : ∀ id r, app.records.get? id = some r → r.signup = .verifiedLogin →
    (∃ base, app.baselines.get? id = some base ∧ base.verifiedLogin = true)
      ∨ ∃ i d, app.deliveries.get? i = some d ∧ evidence r id d = true

structure Valid (P : Platform) (app : Application) : Prop extends Sound P app where
  sizes : app.SizesSound
  versions : ∀ id r, app.records.get? id = some r → app.VersionSound id r
  audit : ∀ event ∈ app.audit, ∃ t r, app.tasks.get? event.task = some t
    ∧ app.records.get? event.record = some r ∧ app.AuditSound event t r

end Application

/-! Each check of `validate` against its clause. -/

namespace Application

theorem checkRecord_eq_ok {app : Application} {id : Uuid} {r : Record} :
    app.checkRecord (id, r) = .ok () ↔
      ∃ t, app.tasks.get? r.task = some t ∧ RecordSound id r t := by
  simp only [checkRecord, bind_eq_ok, required_eq_ok, ensure_eq_ok, exists_const]
  apply exists_congr
  intro t
  apply and_congr_right
  intro _
  cases hdel : r.deleted with
  | true =>
    simp [and_assoc]
    constructor
    · rintro ⟨hne, heq, hscope, hcreator, hrev, hpos, hle, hwrite, herased⟩
      constructor <;> simp_all
    · rintro ⟨hne, heq, hscope, hcreator, hrev, hpos, hle, hwrite, herased, -, -, -⟩
      simp_all
  | false =>
    simp [-Bool.or_eq_true, and_assoc]
    constructor
    · rintro ⟨hne, heq, hscope, hcreator, hrev, hpos, hle, hwrite, hvalues, hfields, hkind⟩
      constructor <;> simp_all [CredentialKind.fits]
    · rintro ⟨hne, heq, hscope, hcreator, hrev, hpos, hle, hwrite, -, hvalues, hfields, hkind⟩
      simp_all [CredentialKind.fits]

theorem checkGrant_eq_ok {app : Application} {id : Uuid} {g : Grant} :
    app.checkGrant (id, g) = .ok () ↔ ∃ r t, app.records.get? g.record = some r
      ∧ app.tasks.get? g.issuerTask = some t ∧ GrantSound id g r t := by
  simp only [checkGrant, bind_eq_ok, required_eq_ok, ensure_eq_ok, exists_const]
  apply exists_congr
  intro r
  rw [← exists_and_left]
  apply exists_congr
  intro t
  apply and_congr_right
  intro _
  apply and_congr_right
  intro _
  cases hadmin : g.adminIssued with
  | true =>
    simp [and_assoc]
    constructor
    · rintro ⟨h1, h2, h3, h4, h5, h6, h7, h8, h9, h10, h11, h12, h13, h14, h15, h16, h17⟩
      exact ⟨h1, h2, h3, h4, by grind, h6, h7, h8, h9, h10, h11, h12, h13, h14, h15, by grind,
        by grind, by simp [hadmin]⟩
    · rintro ⟨h1, h2, h3, h4, h5, h6, h7, h8, h9, h10, h11, h12, h13, h14, h15, h16, h17, -⟩
      exact ⟨h1, h2, h3, h4, by grind, h6, h7, h8, h9, h10, h11, h12, h13, h14, h15, by grind,
        by grind⟩
  | false =>
    simp [and_assoc]
    constructor
    · rintro ⟨h1, h2, h3, h4, h5, h6, h7, h8, h9, h10, h11, h12, h13, h14, h15, h16, h17,
        bounds, hbounds, hshare⟩
      exact ⟨h1, h2, h3, h4, by grind, h6, h7, h8, h9, h10, h11, h12, h13, h14, h15, by grind,
        by grind, fun _ => ⟨bounds, by grind⟩⟩
    · rintro ⟨h1, h2, h3, h4, h5, h6, h7, h8, h9, h10, h11, h12, h13, h14, h15, h16, h17, hshare⟩
      obtain ⟨bounds, hshare⟩ := hshare hadmin
      exact ⟨h1, h2, h3, h4, by grind, h6, h7, h8, h9, h10, h11, h12, h13, h14, h15, by grind,
        by grind, bounds, by grind⟩

/-- The delivery keys and registered records met so far, after one more delivery. -/
def noteDelivery (seen : Finset RequestKey × Finset Uuid) (d : DeliveryAttempt) :
    Finset RequestKey × Finset Uuid :=
  (insert d.key seen.1, if registers d = true then insert d.record seen.2 else seen.2)

theorem checkDelivery_eq_ok {P : Platform} {app : Application}
    {seen seen' : Finset RequestKey × Finset Uuid} {id : Uuid} {d : DeliveryAttempt} :
    app.checkDelivery P seen (id, d) = .ok seen' ↔
      (∃ t r, app.tasks.get? d.task = some t ∧ app.records.get? d.record = some r
        ∧ DeliverySound P id d t r ∧ app.requests.get? d.key = none)
      ∧ d.key ∉ seen.1 ∧ (registers d = true → d.record ∉ seen.2)
      ∧ seen' = noteDelivery seen d := by
  simp only [checkDelivery, bind_eq_ok, required_eq_ok, ensure_eq_ok, exists_const]
  rw [← exists_and_right]
  apply exists_congr
  intro t
  rw [← exists_and_left, ← exists_and_right]
  apply exists_congr
  intro r
  simp [and_assoc, OrdMap.contains_false]
  intro ht hr
  constructor
  · rintro ⟨h1, h2, h3, h4, h5, h6, h7, h8, h9, h10, h11, h12, hnone, hkey, h13, h14, haction⟩
    refine ⟨⟨h1, h2, h3, h4, h5, h6, h7, h8, h9, h10, h11, h12, h13, h14, ?_⟩, hnone, hkey, ?_⟩ <;>
    cases ha : d.action <;> cases hd : d.dispatched <;>
      simp_all [registers, noteDelivery]
  · rintro ⟨⟨h1, h2, h3, h4, h5, h6, h7, h8, h9, h10, h11, h12, h13, h14, hlogin⟩, hnone, hkey,
      hregister, rfl⟩
    refine ⟨h1, h2, h3, h4, h5, h6, h7, h8, h9, h10, h11, h12, hnone, hkey, h13, h14, ?_⟩
    cases ha : d.action <;> cases hd : d.dispatched <;>
      simp_all [registers, noteDelivery]

theorem checkVerified_eq_ok {app : Application} {r : Record} :
    app.checkVerified r = .ok () ↔
      (∃ base, app.baselines.get? r.id = some base ∧ base.verifiedLogin = true)
        ∨ ∃ i d, app.deliveries.get? i = some d ∧ evidence r r.id d = true := by
  simp only [checkVerified, ensure_eq_ok, Bool.or_eq_true, Option.any_eq_true, OrdMap.any_iff,
    evidence]

theorem checkAudit_eq_ok {app : Application} {event : AuditEvent} :
    app.checkAudit event = .ok () ↔ ∃ t r, app.tasks.get? event.task = some t
      ∧ app.records.get? event.record = some r ∧ app.AuditSound event t r := by
  simp only [checkAudit, bind_eq_ok, required_eq_ok, ensure_eq_ok, exists_const]
  apply exists_congr
  intro t
  rw [← exists_and_left]
  apply exists_congr
  intro r
  apply and_congr_right
  intro ht
  apply and_congr_right
  intro hr
  have hlegacy : (!(event.loggedAt == 0 && event.principal == "")) = true ↔
      ¬ (event.loggedAt = 0 ∧ event.principal = "") := by
    rw [Bool.not_eq_true', ← Bool.not_eq_true, Bool.and_eq_true, beq_iff_eq, beq_iff_eq]
  cases hreq : event.request with
  | none =>
    split_ifs with hnew
    · simp only [bind_eq_ok, ensure_eq_ok, exists_const, Option.any_eq_true, beq_iff_eq,
        Bool.and_eq_true, decide_eq_true_eq, pure_eq_ok, and_true]
      exact ⟨fun h => ⟨h.1, fun _ => h.2, by simp [hreq]⟩,
        fun h => ⟨h.scope, h.logged (hlegacy.mp hnew)⟩⟩
    · simp only [pure_eq_ok, and_true]
      exact ⟨fun hscope => ⟨hscope, fun h => absurd (hlegacy.mpr h) hnew, by simp [hreq]⟩,
        fun h => h.scope⟩
  | some request =>
    have hreceipt : (Option.any (fun entry => entry.result.record == event.record)
        (app.requests.get? { owner := t.owner, principal := t.principal, task := t.id
                             id := request })) = true ↔
        ∀ other, event.request = some other → ∃ cached, app.requests.get?
            { owner := t.owner, principal := t.principal, task := t.id, id := other } = some cached
          ∧ cached.result.record = event.record := by
      simp only [hreq, Option.some.injEq, forall_eq', Option.any_eq_true, beq_iff_eq]
    split_ifs with hnew
    · simp only [bind_eq_ok, ensure_eq_ok, exists_const, hreceipt, beq_iff_eq]
      simp only [Option.any_eq_true, Bool.and_eq_true, decide_eq_true_eq]
      exact ⟨fun h => ⟨h.1, fun _ => ⟨h.2.1, h.2.2.1⟩, h.2.2.2⟩,
        fun h => ⟨h.scope, (h.logged (hlegacy.mp hnew)).1, (h.logged (hlegacy.mp hnew)).2,
          h.receipt⟩⟩
    · simp only [ensure_eq_ok, hreceipt]
      exact ⟨fun h => ⟨h.1, fun hnot => absurd (hlegacy.mpr hnot) hnew, h.2⟩,
        fun h => ⟨h.scope, h.receipt⟩⟩

end Application

end Credman
