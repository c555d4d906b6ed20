import Credman.Advance
import Credman.Delivery

/-! Every application the broker's operations lead to can be published. -/
namespace Credman

open Library Library.Checked

namespace Application

variable {P : Platform} {app : Application}

/-! The parts of an application that only the clock, the log and the generation touch. -/

theorem Sound.of_eq {next : Application} (h : app.Sound P) (hgeneration : 0 < next.generation)
    (hclock : next.clockFrozen = true → next.lastTime.isSome = true)
    (hrest : next = { app with
      generation := next.generation, clockFrozen := next.clockFrozen, lastTime := next.lastTime
      audit := next.audit, predecessor := next.predecessor }) : next.Sound P where
  generation := hgeneration
  clock := hclock
  tasks := by rw [hrest]; exact h.tasks
  one_owner := by rw [hrest]; exact h.one_owner
  revoked := by rw [hrest]; exact h.revoked
  records := by rw [hrest]; exact h.records
  grants := by rw [hrest]; exact h.grants
  receipts := by rw [hrest]; exact h.receipts
  one_receipt := by rw [hrest]; exact h.one_receipt
  one_share := by rw [hrest]; exact h.one_share
  baselines := by rw [hrest]; exact h.baselines
  pruned := by rw [hrest]; exact h.pruned
  chain := by
    intro id r hr
    rw [hrest] at hr
    obtain ⟨hcovered, hcreated, hdeleted, honce⟩ := h.chain id r hr
    rw [hrest]
    exact ⟨hcovered, hcreated, hdeleted, honce⟩
  accounted := by rw [hrest]; exact h.accounted
  deliveries := by rw [hrest]; exact h.deliveries
  no_receipt := by rw [hrest]; exact h.no_receipt
  one_delivery := by rw [hrest]; exact h.one_delivery
  one_register := by rw [hrest]; exact h.one_register
  verified := by rw [hrest]; exact h.verified

theorem mem_pushAudit {event new : AuditEvent} (h : event ∈ (app.pushAudit new).audit) :
    event ∈ app.audit ∨ event = new := by
  unfold pushAudit at h
  rw [List.mem_append, List.mem_singleton] at h
  refine h.imp_left fun hmem => ?_
  split_ifs at hmem
  · exact List.mem_of_mem_tail hmem
  · exact hmem

theorem length_pushAudit (hsize : app.audit.length ≤ limit) (new : AuditEvent) :
    (app.pushAudit new).audit.length ≤ limit := by
  unfold pushAudit limit at *
  dsimp only
  rw [List.length_append, List.length_singleton]
  split_ifs with hfull
  · rw [List.length_tail]
    omega
  · omega

/-- Logging an event that is in order keeps an application valid. -/
theorem Valid.pushAudit (h : app.Valid P) {event : AuditEvent} {t : TaskApproval} {r : Record}
    (ht : app.tasks.get? event.task = some t) (hr : app.records.get? event.record = some r)
    (hsound : app.AuditSound event t r) : (app.pushAudit event).Valid P :=
  have hbase : (app.pushAudit event).Sound P := h.toSound.of_eq h.generation h.clock rfl
  { hbase with
    sizes := { h.sizes with audit := length_pushAudit h.sizes.audit event }
    versions := h.versions
    audit := by
      intro other hother
      have hsame : ∀ e t r, app.AuditSound e t r → (app.pushAudit event).AuditSound e t r :=
        fun _ _ _ hs => ⟨hs.scope, hs.logged, hs.receipt⟩
      rcases mem_pushAudit hother with hold | rfl
      · obtain ⟨t', r', ht', hr', hs⟩ := h.audit other hold
        exact ⟨t', r', ht', hr', hsame _ _ _ hs⟩
      · exact ⟨t, r, ht, hr, hsame _ _ _ hsound⟩ }

/-- The clock may advance, freeze, or the generation change, in a valid application. -/
theorem Valid.of_clock {next : Application} (h : app.Valid P) (hgeneration : 0 < next.generation)
    (hclock : next.clockFrozen = true → next.lastTime.isSome = true)
    (hlater : ∀ last, app.lastTime = some last → ∃ later, next.lastTime = some later ∧ last ≤ later)
    (hrest : next = { app with
      generation := next.generation, clockFrozen := next.clockFrozen, lastTime := next.lastTime
      predecessor := next.predecessor }) : next.Valid P where
  toSound := h.toSound.of_eq hgeneration hclock (by rw [hrest])
  sizes := by rw [hrest]; exact ⟨h.sizes.tasks, h.sizes.records, h.sizes.grants,
    h.sizes.requests, h.sizes.revokedTasks, h.sizes.deliveries, h.sizes.audit, h.sizes.baselines⟩
  versions := by rw [hrest]; exact h.versions
  audit := by
    intro event hevent
    rw [hrest] at hevent
    obtain ⟨t, r, ht, hr, hscope, hlogged, hreceipt⟩ := h.audit event hevent
    refine ⟨t, r, by rw [hrest]; exact ht, by rw [hrest]; exact hr, hscope, fun hnew => ?_, ?_⟩
    · obtain ⟨hprincipal, last, hlast, hpos, hle⟩ := hlogged hnew
      obtain ⟨later, hlater, hmore⟩ := hlater last hlast
      exact ⟨hprincipal, later, hlater, hpos, le_trans hle hmore⟩
    · rw [hrest]
      exact hreceipt

theorem Valid.withGeneration (h : app.Valid P) {generation : UInt64} (hpos : 0 < generation) :
    Application.Valid P { app with generation } :=
  h.of_clock hpos h.clock (fun last hlast => ⟨last, hlast, le_refl _⟩) rfl

theorem Valid.ticked (h : app.Valid P) {now effective : Time}
    (heff : app.effectiveTime now = .ok effective) : (app.ticked now).Valid P := by
  obtain ⟨hlast, -, hmono, -⟩ := lastTime_ticked heff
  apply h.of_clock
  · rw [ticked_generation]
    exact h.generation
  · rw [hlast]
    exact fun _ => rfl
  · intro last hl
    exact ⟨effective, hlast, hmono last hl⟩
  · rw [ticked_eq]

theorem Valid.clockOnly {now : Time} {next : Application} (h : app.Valid P)
    (hclock : app.ClockOnly now next) : next.Valid P := by
  cases hclock with
  | ticked heff => exact h.ticked heff
  | @frozen e heff =>
    refine h.of_clock (show 0 < app.freezeClock.generation from h.generation) ?_ ?_ ?_
    · intro _
      change app.lastTime.isSome = true
      cases hl : app.lastTime with
      | some last => rfl
      | none =>
        unfold effectiveTime at heff
        rw [hl] at heff
        cases hf : app.clockFrozen with
        | true => simpa [hl] using h.clock hf
        | false => simp [hf] at heff
    · exact fun last hl => ⟨last, hl, le_refl _⟩
    · rfl

/-! What else holds of the applications a broker leads to. -/

/-- Facts validation does not look at, that keep the next compaction and the next
change of a record valid. -/
structure Steady (app : Application) : Prop where
  once : app.OneDelete
  /-- The credential version of a record has not wrapped past its baseline. -/
  rise : ∀ id r, app.records.get? id = some r →
    (app.baseline id).secretVersion ≤ r.secretVersion
  use_only : ∀ i d, app.deliveries.get? i = some d → d.action = .use
  unverified : ∀ id r, app.records.get? id = some r → r.signup ≠ .verifiedLogin

structure Publishable (P : Platform) (app : Application) : Prop where
  valid : app.Valid P
  steady : app.Steady

theorem Steady.of_eq {next : Application} (h : app.Steady) (hrecords : next.records = app.records)
    (hrequests : next.requests = app.requests) (hdeliveries : next.deliveries = app.deliveries)
    (hbaselines : next.baselines = app.baselines) : next.Steady where
  once := by
    unfold OneDelete
    rw [hrequests]
    exact h.once
  rise := by
    unfold baseline
    rw [hrecords, hbaselines]
    exact h.rise
  use_only := by rw [hdeliveries]; exact h.use_only
  unverified := by rw [hrecords]; exact h.unverified

theorem Steady.clockOnly {now : Time} {next : Application} (h : app.Steady)
    (hclock : app.ClockOnly now next) : next.Steady := by
  cases hclock with
  | ticked heff => exact h.of_eq (by simp) (by simp) (by simp) (by simp)
  | frozen heff => exact h.of_eq rfl rfl rfl rfl

theorem Publishable.clockOnly {now : Time} {next : Application} (h : app.Publishable P)
    (hclock : app.ClockOnly now next) : next.Publishable P :=
  ⟨h.valid.clockOnly hclock, h.steady.clockOnly hclock⟩

theorem Publishable.ticked (h : app.Publishable P) {now effective : Time}
    (heff : app.effectiveTime now = .ok effective) : (app.ticked now).Publishable P :=
  h.clockOnly (.ticked heff)

/-- While the version has not wrapped it is the plain sum of what it counts. -/
theorem secretVersion_eq (h : app.Valid P) {id : Uuid} {r : Record}
    (hrise : (app.baseline id).secretVersion ≤ r.secretVersion) (hr : app.records.get? id = some r) (hpos : app.through id ≠ 0) :
    r.secretVersion.toNat = (app.baseline id).secretVersion.toNat + app.patchCount id := by
  have hcount : app.patchCount id ≤ limit := (OrdMap.count_le_size _ _).trans h.sizes.requests
  have hversion := congrArg UInt64.toNat (h.versions id r hr)
  have hle := UInt64.le_iff_toNat_le.mp hrise
  have hlimit : limit = 10000 := rfl
  have hlt := (app.baseline id).secretVersion.toNat_lt
  rw [Folded.baseVersion_pos hpos, UInt64.toNat_add, UInt64.toNat_ofNat'] at hversion
  omega

/-- Compaction has room for every patch it folds, where no version has wrapped. -/
theorem Valid.compact (hvalid : app.Valid P) (once : app.OneDelete)
    (rise : ∀ id r, app.records.get? id = some r →
      (app.baseline id).secretVersion ≤ r.secretVersion) : app.compact.Valid P := by
  have hfits : ∀ id r, app.records.get? id = some r → app.Fits id := by
    intro id r hr
    have hpatches : app.foldedPatches id ≤ app.patchCount id := by
      rw [Folded.patchCount_eq]
      exact (List.takeWhile_sublist _).countP_le
    have hmax : maxU64.toNat = 2 ^ 64 - 1 := rfl
    unfold Fits
    by_cases hzero : app.through id = 0
    · have hcount : app.patchCount id ≤ limit := (OrdMap.count_le_size _ _).trans hvalid.sizes.requests
      have hlimit : limit = 10000 := rfl
      rw [Folded.secretVersion_fresh hvalid.toSound hzero, UInt64.toNat_zero]
      omega
    · have hversion := secretVersion_eq hvalid (rise id r hr) hr hzero
      have hlt := r.secretVersion.toNat_lt
      omega
  exact validate_eq_ok.mp ((compacted hvalid once).valid_iff.mpr fun id r hr _ => hfits id r hr)

/-- Compaction keeps what is steady. -/
theorem Publishable.compact (h : app.Publishable P) : app.compact.Publishable P := by
  have hcompacted := compacted h.valid h.steady.once
  refine ⟨h.valid.compact h.steady.once h.steady.rise, ?_, ?_, ?_, ?_⟩
  · exact hcompacted.once
  · intro id r hr
    exact hcompacted.rise id r hr (h.steady.rise id r (hcompacted.shrinks.records id r hr))
  · exact fun i d hd => h.steady.use_only i d (hcompacted.shrinks.deliveries i d hd)
  · exact fun id r hr => h.steady.unverified id r (hcompacted.shrinks.records id r hr)

/-! A mutation of an existing record. -/

theorem KindSound.follows {grants grants' : OrdMap Uuid Grant} {key : RequestKey} {c : Remembered}
    {s s' : Record} (h : KindSound grants key c s)
    (hkept : ∀ gid g, grants.get? gid = some g → ∃ g', grants'.get? gid = some g' ∧ g.Follows g')
    (htask : s'.task = s.task) (hcreator : s'.createdBy = s.createdBy)
    (hdeleted : s.deleted = true → s'.deleted = true) : KindSound grants' key c s' := by
  unfold KindSound at h ⊢
  cases hkind : c.kind with
  | create =>
    simp only [hkind] at h ⊢
    rw [htask, hcreator]
    exact h
  | share =>
    simp only [hkind] at h ⊢
    obtain ⟨gid, g, hgid, hg, hrecord, hissuer⟩ := h
    obtain ⟨g', hg', hsame, -⟩ := hkept gid g hg
    exact ⟨gid, g', hgid, hg', by rw [hsame]; exact hrecord, by rw [hsame]; exact hissuer⟩
  | revoke =>
    simp only [hkind] at h ⊢
    obtain ⟨gid, g, hgid, hg, hrecord, hrevoked⟩ := h
    obtain ⟨g', hg', hsame, hstill⟩ := hkept gid g hg
    exact ⟨gid, g', hgid, hg', by rw [hsame]; exact hrecord, hstill hrevoked⟩
  | delete =>
    simp only [hkind] at h ⊢
    exact ⟨hdeleted h.1, h.2⟩
  | patch | metadataPatch | reportOutcome =>
    simp only [hkind] at h ⊢
    exact h

namespace Changed

variable {op : Mutation} {receipt : Receipt} {id : Uuid} {r r' : Record} {mid : Application}
  {key : RequestKey} {cached : Remembered}

/-- The changed application, with the receipt of the change. -/
def remembering (mid : Application) (key : RequestKey) (cached : Remembered) : Application :=
  { mid with requests := mid.requests.insert key cached }

theorem requests_eq (hc : app.Changed op receipt id r r' mid) : mid.requests = app.requests := by
  rw [hc.result]

theorem hasReceipt_iff (hc : app.Changed op receipt id r r' mid)
    (hfresh : app.requests.get? key = none) {kind : CachedKind} {j : Uuid} :
    (remembering mid key cached).hasReceipt kind j ↔
      app.hasReceipt kind j ∨ cached.result.record = j ∧ cached.kind = kind := by
  unfold hasReceipt remembering
  dsimp only
  rw [hc.requests_eq]
  constructor
  · rintro ⟨k, c, hk, hrecord, hkind⟩
    rw [OrdMap.get?_insert] at hk
    split_ifs at hk with heq
    · cases hk
      exact .inr ⟨hrecord, hkind⟩
    · exact .inl ⟨k, c, hk, hrecord, hkind⟩
  · rintro (⟨k, c, hk, hrecord, hkind⟩ | ⟨hrecord, hkind⟩)
    · refine ⟨k, c, ?_, hrecord, hkind⟩
      rw [OrdMap.get?_insert_ne _ _ fun heq => by rw [heq, hk] at hfresh; cases hfresh]
      exact hk
    · exact ⟨key, cached, OrdMap.get?_insert_self _ _ _, hrecord, hkind⟩

theorem patchCount_eq (hc : app.Changed op receipt id r r' mid)
    (hfresh : app.requests.get? key = none) (j : Uuid) :
    (remembering mid key cached).patchCount j = app.patchCount j
      + if (cached.kind == .patch && cached.result.record == j) = true then 1 else 0 := by
  unfold patchCount remembering
  dsimp only
  rw [hc.requests_eq, OrdMap.count_insert_of_none _ hfresh]

/-- The revision of a record that takes no more than one more change. -/
theorem chain (h : app.Valid P) (hc : app.Changed op receipt id r r' mid)
    (hlive : r.deleted = false) (hroom : r.revision ≠ maxU64) (hresult : cached.result = receipt)
    (hkind : cached.kind = op.cachedKind) (hfresh : app.requests.get? key = none) {j : Uuid}
    {s : Record} (hs : mid.records.get? j = some s) :
    (remembering mid key cached).ChainSound j s := by
  have hsame : ∀ j, (remembering mid key cached).through j = app.through j := fun j => by
    unfold through remembering
    rw [hc.result]
  have hpruned : ∀ j, (remembering mid key cached).deletePruned j = app.deletePruned j := fun j => by
    unfold deletePruned remembering
    rw [hc.result]
  have hdelete : cached.kind = .delete ↔ op.isDelete = true := by
    rw [hkind]
    cases op <;> simp [Mutation.cachedKind, Mutation.isDelete]
    split_ifs <;> simp
  have hkey : ∀ {k c}, app.requests.get? k = some c →
      (remembering mid key cached).requests.get? k = some c := by
    intro k c hk
    unfold remembering
    dsimp only
    rw [hc.requests_eq, OrdMap.get?_insert_ne _ _ fun heq => by rw [heq, hk] at hfresh; cases hfresh]
    exact hk
  have hnew : (remembering mid key cached).requests.get? key = some cached :=
    OrdMap.get?_insert_self _ _ _
  rcases hc.records_some.mp hs with ⟨rfl, rfl⟩ | ⟨hj, hold⟩
  · obtain ⟨hcovered, hcreated, hdeleted, honce⟩ := h.chain j r hc.found
    rw [hlive] at hdeleted
    have hnone : ¬ (app.deletePruned j = true ∨ app.hasReceipt .delete j) := by
      simpa using hdeleted
    have htarget : cached.result.record = j := by rw [hresult, hc.target]
    refine ⟨?_, ?_, ?_, ?_⟩
    · intro revision habove hbelow
      rw [hsame] at habove
      rw [hc.revision_eq, le_succ_iff hroom] at hbelow
      rcases hbelow with hbelow | rfl
      · obtain ⟨k, c, hk, hrecord, hrevision⟩ := hcovered revision habove hbelow
        exact ⟨k, c, hkey hk, hrecord, hrevision⟩
      · exact ⟨key, cached, hnew, htarget, by rw [hresult, hc.revision]⟩
    · intro hzero
      rw [hsame] at hzero
      exact (hc.hasReceipt_iff hfresh).mpr (.inl (hcreated hzero))
    · rw [hpruned, hc.hasReceipt_iff hfresh, hdelete, hc.deleted, hlive, Bool.or_false]
      constructor
      · exact fun hop => .inr (.inr ⟨htarget, hop⟩)
      · rintro (hpruned | hreceipt | ⟨-, hop⟩)
        · exact absurd (.inl hpruned) hnone
        · exact absurd (.inr hreceipt) hnone
        · exact hop
    · rw [hpruned]
      exact fun ⟨hold, _⟩ => hnone (.inl hold)
  · obtain ⟨hcovered, hcreated, hdeleted, honce⟩ := h.chain j s hold
    have hother : ∀ kind, (remembering mid key cached).hasReceipt kind j ↔ app.hasReceipt kind j := by
      intro kind
      rw [hc.hasReceipt_iff hfresh, hresult, hc.target]
      exact ⟨fun hor => hor.resolve_right fun ⟨heq, _⟩ => hj heq.symm, .inl⟩
    refine ⟨?_, ?_, ?_, ?_⟩
    · intro revision habove hbelow
      rw [hsame] at habove
      obtain ⟨k, c, hk, hrecord, hrevision⟩ := hcovered revision habove hbelow
      exact ⟨k, c, hkey hk, hrecord, hrevision⟩
    · rw [hsame, hother]
      exact hcreated
    · rw [hpruned, hother]
      exact hdeleted
    · rw [hpruned, hother]
      exact honce

theorem versionSound (h : app.Valid P) (hc : app.Changed op receipt id r r' mid)
    (hresult : cached.result = receipt) (hkind : cached.kind = op.cachedKind)
    (hfresh : app.requests.get? key = none) {j : Uuid} {s : Record}
    (hs : mid.records.get? j = some s) : (remembering mid key cached).VersionSound j s := by
  have hbase : (remembering mid key cached).baseVersion j = app.baseVersion j := by
    unfold baseVersion through remembering
    rw [hc.result]
  unfold VersionSound
  rw [hbase, hc.patchCount_eq hfresh, hresult, hc.target, hkind, UInt64.ofNat_add,
    ← UInt64.add_assoc]
  rcases hc.records_some.mp hs with ⟨rfl, rfl⟩ | ⟨hj, hold⟩
  · rw [← h.versions j r hc.found, hc.version]
    by_cases hpatch : op.cachedKind = .patch
    · simp [hpatch]
    · simp [hpatch]
  · rw [← h.versions j s hold]
    simp [Ne.symm hj]

end Changed

open Changed in
/-- A change that keeps its record and the grants in order, with its receipt. -/
structure Noted (P : Platform) (app : Application) (op : Mutation) (receipt : Receipt) (id : Uuid)
    (r r' : Record) (mid : Application) (key : RequestKey) (cached : Remembered) : Prop where
  before : app.Valid P
  changed : app.Changed op receipt id r r' mid
  live : r.deleted = false
  room : r.revision ≠ maxU64
  result : cached.result = receipt
  kind : cached.kind = op.cachedKind
  fresh : app.requests.get? key = none
  no_delivery : ∀ i d, app.deliveries.get? i = some d → d.key ≠ key
  requests : app.requests.size < limit
  grants : mid.grants.size ≤ limit
  signup : r'.signup = .verifiedLogin → r.signup = .verifiedLogin ∧ r'.secretVersion = r.secretVersion
  evidenced : (app.baseline id).verifiedLogin = true → r'.signup = .verifiedLogin
  record : ∀ t, app.tasks.get? r.task = some t → RecordSound id r t → RecordSound id r' t
  grant : ∀ gid g, mid.grants.get? gid = some g → ∃ s t, mid.records.get? g.record = some s
    ∧ app.tasks.get? g.issuerTask = some t ∧ GrantSound gid g s t
  scope : ∃ t, app.tasks.get? key.task = some t ∧ key.id ≠ 0 ∧ key.owner = t.owner
    ∧ key.principal = t.principal ∧ sameScope t r = true
  sound : KindSound mid.grants key cached r'

namespace Noted

open Changed

variable {op : Mutation} {receipt : Receipt} {id : Uuid} {r r' : Record} {mid : Application}
  {key : RequestKey} {cached : Remembered}

theorem requests_some (h : app.Noted P op receipt id r r' mid key cached) {k : RequestKey}
    {c : Remembered} : (remembering mid key cached).requests.get? k = some c ↔
      (k = key ∧ c = cached) ∨ (k ≠ key ∧ app.requests.get? k = some c) := by
  unfold remembering
  dsimp only
  rw [h.changed.requests_eq, OrdMap.get?_insert]
  by_cases hk : key = k
  · subst hk
    simp [eq_comm]
  · simp [hk, Ne.symm hk]

theorem kept (h : app.Noted P op receipt id r r' mid key cached) {k : RequestKey} {c : Remembered}
    (hk : app.requests.get? k = some c) : (remembering mid key cached).requests.get? k = some c := by
  refine h.requests_some.mpr (.inr ⟨?_, hk⟩)
  rintro rfl
  rw [h.fresh] at hk
  cases hk

theorem through_eq (h : app.Noted P op receipt id r r' mid key cached) (j : Uuid) :
    (remembering mid key cached).through j = app.through j := by
  unfold through remembering
  rw [h.changed.result]

/-- The change is above every receipt of its record. -/
theorem revision_ne (h : app.Noted P op receipt id r r' mid key cached) {k : RequestKey}
    {c : Remembered} (hk : app.requests.get? k = some c) (hrecord : c.result.record = id) :
    c.result.revision ≠ receipt.revision := by
  intro heq
  obtain ⟨t, s, -, hs, hreceipt, -⟩ := h.before.receipts k c hk
  rw [hrecord, h.changed.found, Option.some.injEq] at hs
  subst hs
  have hle := hreceipt.below
  rw [heq, h.changed.revision] at hle
  exact absurd hle (not_le.mpr ((lt_succ_iff h.room).mpr (le_refl _)))

/-- A grant that an older receipt created is not the one this change creates. -/
theorem share_ne (h : app.Noted P op receipt id r r' mid key cached) {k : RequestKey}
    {c : Remembered} {gid : Uuid} (hk : app.requests.get? k = some c) (hshare : c.kind = .share)
    (hgid : c.result.grant = some gid) (hnew : cached.kind = .share) :
    cached.result.grant ≠ some gid := by
  rw [h.result]
  intro heq
  have hnone := h.changed.new_grant (h.kind ▸ hnew) gid heq
  obtain ⟨t, s, -, -, -, hks⟩ := h.before.receipts k c hk
  unfold KindSound at hks
  rw [hshare] at hks
  obtain ⟨gid', g, hgid', hg, -⟩ := hks
  rw [hgid, Option.some.injEq] at hgid'
  rw [← hgid', hnone] at hg
  cases hg

theorem receipts (h : app.Noted P op receipt id r r' mid key cached) (k : RequestKey)
    (c : Remembered) (hk : (remembering mid key cached).requests.get? k = some c) :
    ∃ t s, app.tasks.get? k.task = some t ∧ mid.records.get? c.result.record = some s
      ∧ ReceiptSound k c t s (app.through c.result.record) ∧ KindSound mid.grants k c s := by
  rcases h.requests_some.mp hk with ⟨rfl, rfl⟩ | ⟨-, hold⟩
  · obtain ⟨t, ht, hne, howner, hprincipal, hscope⟩ := h.scope
    rw [h.result, h.changed.target]
    refine ⟨t, r', ht, h.changed.record_self, ⟨hne, howner, hprincipal, ?_, ?_, ?_⟩, h.sound⟩
    · rw [h.changed.sameScope_eq]
      exact hscope
    · rw [h.result, h.changed.revision]
      exact (lt_succ_iff h.room).mpr (h.before.through_le h.changed.found)
    · rw [h.result, h.changed.revision, h.changed.revision_eq]
  · obtain ⟨t, s, ht, hs, hreceipt, hks⟩ := h.before.receipts k c hold
    by_cases hrecord : c.result.record = id
    · rw [hrecord, h.changed.found, Option.some.injEq] at hs
      subst hs
      refine ⟨t, r', ht, by rw [hrecord]; exact h.changed.record_self,
        ⟨hreceipt.id_ne, hreceipt.owner, hreceipt.principal, ?_, hreceipt.above, ?_⟩, ?_⟩
      · rw [h.changed.sameScope_eq]
        exact hreceipt.scope
      · rw [h.changed.revision_eq]
        exact (le_succ_iff h.room).mpr (.inl hreceipt.below)
      · exact KindSound.follows hks h.changed.kept h.changed.task_eq h.changed.createdBy_eq
          (by rw [h.live]; nofun)
    · exact ⟨t, s, ht, h.changed.records_some.mpr (.inr ⟨hrecord, hs⟩), hreceipt,
        KindSound.follows hks h.changed.kept rfl rfl fun hd => hd⟩

theorem one_receipt (h : app.Noted P op receipt id r r' mid key cached) {k k' : RequestKey}
    {c c' : Remembered} (hk : (remembering mid key cached).requests.get? k = some c)
    (hk' : (remembering mid key cached).requests.get? k' = some c')
    (hrecord : c.result.record = c'.result.record)
    (hrevision : c.result.revision = c'.result.revision) : k = k' := by
  rcases h.requests_some.mp hk with ⟨rfl, rfl⟩ | ⟨-, hold⟩ <;>
    rcases h.requests_some.mp hk' with ⟨rfl, rfl⟩ | ⟨-, hold'⟩
  · rfl
  · rw [h.result] at hrecord hrevision
    exact absurd hrevision.symm (h.revision_ne hold' (by rw [← hrecord, h.changed.target]))
  · rw [h.result] at hrecord hrevision
    exact absurd hrevision (h.revision_ne hold (by rw [hrecord, h.changed.target]))
  · exact h.before.one_receipt k c k' c' hold hold' hrecord hrevision

theorem one_share (h : app.Noted P op receipt id r r' mid key cached) {k k' : RequestKey}
    {c c' : Remembered} {gid : Uuid} (hk : (remembering mid key cached).requests.get? k = some c)
    (hk' : (remembering mid key cached).requests.get? k' = some c') (hkind : c.kind = .share)
    (hkind' : c'.kind = .share) (hgid : c.result.grant = some gid)
    (hgid' : c'.result.grant = some gid) : k = k' := by
  rcases h.requests_some.mp hk with ⟨rfl, rfl⟩ | ⟨-, hold⟩ <;>
    rcases h.requests_some.mp hk' with ⟨rfl, rfl⟩ | ⟨-, hold'⟩
  · rfl
  · exact absurd hgid (h.share_ne hold' hkind' hgid' hkind)
  · exact absurd hgid' (h.share_ne hold hkind hgid hkind')
  · exact h.before.one_share k c k' c' gid hold hold' hkind hkind' hgid hgid'

theorem baselines (h : app.Noted P op receipt id r r' mid key cached) {j : Uuid}
    {base : RecordBaseline} (hb : app.baselines.get? j = some base) :
    ∃ s, mid.records.get? j = some s ∧ BaselineSound base s := by
  obtain ⟨s, hs, hbase⟩ := h.before.baselines j base hb
  by_cases hj : j = id
  · subst hj
    rw [h.changed.found, Option.some.injEq] at hs
    subst hs
    refine ⟨r', h.changed.record_self,
      ⟨?_, hbase.fresh, hbase.version_pos, hbase.sorted, fun hverified => ?_⟩⟩
    · rw [h.changed.revision_eq]
      exact (le_succ_iff h.room).mpr (.inl hbase.through_le)
    · exact h.evidenced (baseline_verifiedLogin.mpr ⟨base, hb, hverified⟩)
  · exact ⟨s, h.changed.records_some.mpr (.inr ⟨hj, hs⟩), hbase⟩

theorem pruned (h : app.Noted P op receipt id r r' mid key cached) {j gid : Uuid}
    {base : RecordBaseline} (hb : app.baselines.get? j = some base)
    (hmem : gid ∈ base.prunedGrants) : (∃ g, mid.grants.get? gid = some g ∧ g.record = j)
      ∧ ∀ k c, (remembering mid key cached).requests.get? k = some c → c.kind = .share →
        c.result.grant ≠ some gid := by
  obtain ⟨⟨g, hg, hrecord⟩, hnone⟩ := h.before.pruned j base gid hb hmem
  obtain ⟨g', hg', hsame, -⟩ := h.changed.kept gid g hg
  refine ⟨⟨g', hg', by rw [hsame]; exact hrecord⟩, fun k c hk hshare hgid => ?_⟩
  rcases h.requests_some.mp hk with ⟨rfl, rfl⟩ | ⟨-, hold⟩
  · have hnew := h.changed.new_grant (h.kind ▸ hshare) gid (h.result ▸ hgid)
    rw [hg] at hnew
    cases hnew
  · exact hnone k c hold hshare hgid

theorem accounted (h : app.Noted P op receipt id r r' mid key cached) {gid : Uuid} {g' : Grant}
    (hg' : mid.grants.get? gid = some g') :
    (∃ k c, (remembering mid key cached).requests.get? k = some c ∧ c.kind = .share
      ∧ c.result.grant = some gid)
    ∨ ∃ j base, app.baselines.get? j = some base ∧ gid ∈ base.prunedGrants := by
  rcases h.changed.granted gid g' hg' with ⟨g, hg, -⟩ | ⟨hshared, hnew⟩
  · refine (h.before.accounted gid g hg).imp_left ?_
    rintro ⟨k, c, hk, hkind, hgid⟩
    exact ⟨k, c, h.kept hk, hkind, hgid⟩
  · exact .inl ⟨key, cached, h.requests_some.mpr (.inl ⟨rfl, rfl⟩), h.kind.trans hshared,
      by rw [h.result]; exact hnew⟩

theorem deliveries (h : app.Noted P op receipt id r r' mid key cached) {i : Uuid}
    {d : DeliveryAttempt} (hd : app.deliveries.get? i = some d) : ∃ t s,
      app.tasks.get? d.task = some t ∧ mid.records.get? d.record = some s
        ∧ DeliverySound P i d t s := by
  obtain ⟨t, s, ht, hs, hsound⟩ := h.before.deliveries i d hd
  by_cases hrecord : d.record = id
  · rw [hrecord, h.changed.found, Option.some.injEq] at hs
    subst hs
    refine ⟨t, r', ht, by rw [hrecord]; exact h.changed.record_self, { hsound with
      scope := ?_, version_le := hsound.version_le.trans h.changed.version_le, login := ?_ }⟩
    · rw [h.changed.sameScope_eq]
      exact hsound.scope
    · rw [h.changed.kind_eq]
      exact hsound.login
  · exact ⟨t, s, ht, h.changed.records_some.mpr (.inr ⟨hrecord, hs⟩), hsound⟩

theorem sizes (h : app.Noted P op receipt id r r' mid key cached) :
    (remembering mid key cached).SizesSound := by
  have hrest : remembering mid key cached = { app with
      records := app.records.insert id r', grants := mid.grants
      requests := app.requests.insert key cached } := by
    unfold remembering
    rw [h.changed.requests_eq]
    conv_lhs => rw [h.changed.result]
  have hold := h.before.sizes
  rw [hrest]
  refine ⟨hold.tasks, ?_, h.grants, ?_, hold.revokedTasks, hold.deliveries, hold.audit,
    hold.baselines⟩
  · dsimp only
    rw [OrdMap.size_insert_of_some h.changed.found]
    exact hold.records
  · dsimp only
    rw [OrdMap.size_insert_of_none h.fresh]
    exact h.requests

theorem audit (h : app.Noted P op receipt id r r' mid key cached) {event : AuditEvent}
    (hevent : event ∈ app.audit) : ∃ t s, app.tasks.get? event.task = some t
      ∧ mid.records.get? event.record = some s
      ∧ AuditSound (remembering mid key cached) event t s := by
  obtain ⟨t, s, ht, hs, hscope, hlogged, hreceipt⟩ := h.before.audit event hevent
  have hlast : (remembering mid key cached).lastTime = app.lastTime := by
    unfold remembering
    rw [h.changed.result]
  have hsound : ∀ s', sameScope t s' = true → AuditSound (remembering mid key cached) event t s' := by
    refine fun s' hs' => ⟨hs', by rw [hlast]; exact hlogged, fun request hrequest => ?_⟩
    obtain ⟨c, hk, hrecord⟩ := hreceipt request hrequest
    exact ⟨c, h.kept hk, hrecord⟩
  by_cases hrecord : event.record = id
  · rw [hrecord, h.changed.found, Option.some.injEq] at hs
    subst hs
    refine ⟨t, r', ht, by rw [hrecord]; exact h.changed.record_self, hsound r' ?_⟩
    rw [h.changed.sameScope_eq]
    exact hscope
  · exact ⟨t, s, ht, h.changed.records_some.mpr (.inr ⟨hrecord, hs⟩), hsound s hscope⟩

/-- A change that keeps its record and the grants in order keeps the application valid. -/
theorem valid (h : app.Noted P op receipt id r r' mid key cached) :
    (remembering mid key cached).Valid P := by
  have hold := h.before
  have hmid := h.changed.result
  have htasks := h.changed.tasks_eq
  have hbaselines : mid.baselines = app.baselines := by rw [hmid]
  have hdeliveries : mid.deliveries = app.deliveries := by rw [hmid]
  refine { generation := ?generation, clock := ?clock, tasks := ?tasks, one_owner := ?one_owner
           revoked := ?revoked, records := ?records, grants := ?grants, receipts := ?receipts
           one_receipt := fun _ _ _ _ hk hk' => h.one_receipt hk hk'
           one_share := fun _ _ _ _ _ hk hk' => h.one_share hk hk'
           baselines := ?baselines, pruned := ?pruned
           chain := fun _ _ hs => h.changed.chain hold h.live h.room h.result h.kind h.fresh hs
           accounted := ?accounted, deliveries := ?deliveries, no_receipt := ?no_receipt
           one_delivery := ?one_delivery, one_register := ?one_register, verified := ?verified
           sizes := h.sizes
           versions := fun _ _ hs => h.changed.versionSound hold h.result h.kind h.fresh hs
           audit := ?audit } <;> unfold remembering <;> dsimp only
  case generation =>
    rw [hmid]
    exact hold.generation
  case clock =>
    rw [hmid]
    exact hold.clock
  case tasks =>
    rw [htasks]
    exact hold.tasks
  case one_owner =>
    rw [htasks]
    exact hold.one_owner
  case revoked =>
    rw [hmid]
    exact hold.revoked
  case records =>
    intro j s hs
    rw [htasks]
    rcases h.changed.records_some.mp hs with ⟨rfl, rfl⟩ | ⟨-, hother⟩
    · obtain ⟨t, ht, hsound⟩ := hold.records j r h.changed.found
      exact ⟨t, by rw [h.changed.task_eq]; exact ht, h.record t ht hsound⟩
    · exact hold.records j s hother
  case grants =>
    rw [htasks]
    exact h.grant
  case receipts =>
    intro k c hk
    rw [htasks]
    obtain ⟨t, s, ht, hs, hreceipt, hks⟩ := h.receipts k c hk
    rw [← h.through_eq] at hreceipt
    exact ⟨t, s, ht, hs, hreceipt, hks⟩
  case baselines =>
    rw [hbaselines]
    exact fun j base hb => h.baselines hb
  case pruned =>
    rw [hbaselines]
    exact fun j base gid hb hmem => h.pruned hb hmem
  case accounted =>
    rw [hbaselines]
    exact fun gid g' hg' => h.accounted hg'
  case deliveries =>
    rw [hdeliveries, htasks]
    exact fun i d hd => h.deliveries hd
  case no_receipt =>
    rw [hdeliveries, h.changed.requests_eq]
    intro i d hd
    rw [OrdMap.get?_insert_ne _ _ (h.no_delivery i d hd).symm]
    exact hold.no_receipt i d hd
  case one_delivery =>
    rw [hdeliveries]
    exact hold.one_delivery
  case one_register =>
    rw [hdeliveries]
    exact hold.one_register
  case verified =>
    intro j s hs hverified
    rcases h.changed.records_some.mp hs with ⟨rfl, rfl⟩ | ⟨-, hother⟩
    · obtain ⟨hbefore, hversion⟩ := h.signup hverified
      rw [hbaselines, hdeliveries]
      refine (hold.verified j r h.changed.found hbefore).imp_right fun ⟨i, d, hd, hevidence⟩ => ?_
      refine ⟨i, d, hd, ?_⟩
      unfold evidence at hevidence ⊢
      rw [hversion]
      exact hevidence
    · rw [hbaselines, hdeliveries]
      exact hold.verified j s hother hverified
  case audit =>
    have haudit : mid.audit = app.audit := by rw [hmid]
    intro event hevent
    rw [haudit] at hevent
    obtain ⟨t, s, ht, hs, hsound⟩ := h.audit hevent
    exact ⟨t, s, by rw [htasks]; exact ht, hs, hsound⟩

end Noted

end Application

end Credman
