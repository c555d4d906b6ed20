import Credman.Candidates
import Credman.System

/-! The broker: approvals, reads and private uses next to the mutations, and the
runs of one store under them. -/
namespace Credman

open Library Library.Checked

namespace Application

variable {P : Platform} {app : Application}

/-! Approvals and revocations of tasks. -/

/-- More tasks, or more of them revoked, with everything else as it was. -/
theorem Valid.of_tasks {next : Application} (h : app.Valid P)
    (hkept : ∀ id t, app.tasks.get? id = some t → next.tasks.get? id = some t)
    (htasks : ∀ id t, next.tasks.get? id = some t → TaskSound id t)
    (howner : ∀ i s j t, next.tasks.get? i = some s → next.tasks.get? j = some t → SameOwner s t)
    (hrevoked : ∀ id ∈ next.revokedTasks, ∃ t, next.tasks.get? id = some t)
    (hsize : next.tasks.size ≤ limit)
    (hrest : next = { app with tasks := next.tasks, revokedTasks := next.revokedTasks }) :
    next.Valid P where
  generation := by rw [hrest]; exact h.generation
  clock := by rw [hrest]; exact h.clock
  tasks := htasks
  one_owner := howner
  revoked := hrevoked
  records := by
    intro id r hr
    rw [hrest] at hr
    obtain ⟨t, ht, hsound⟩ := h.records id r hr
    exact ⟨t, hkept _ _ ht, hsound⟩
  grants := by
    intro gid g hg
    rw [hrest] at hg
    obtain ⟨r, t, hr, ht, hsound⟩ := h.grants gid g hg
    exact ⟨r, t, by rw [hrest]; exact hr, hkept _ _ ht, hsound⟩
  receipts := by
    intro key c hc
    rw [hrest] at hc
    obtain ⟨t, r, ht, hr, hsound, hkind⟩ := h.receipts key c hc
    refine ⟨t, r, hkept _ _ ht, by rw [hrest]; exact hr, ?_, ?_⟩
    · rw [hrest]
      exact hsound
    · rw [hrest]
      exact hkind
  one_receipt := by rw [hrest]; exact h.one_receipt
  one_share := by rw [hrest]; exact h.one_share
  baselines := by rw [hrest]; exact h.baselines
  pruned := by rw [hrest]; exact h.pruned
  chain := by
    intro id r hr
    rw [hrest] at hr
    obtain ⟨hcovered, hcreated, hdeleted, honce⟩ := h.chain id r hr
    rw [hrest]
    exact ⟨hcovered, hcreated, hdeleted, honce⟩
  accounted := by rw [hrest]; exact h.accounted
  deliveries := by
    intro i d hd
    rw [hrest] at hd
    obtain ⟨t, r, ht, hr, hsound⟩ := h.deliveries i d hd
    exact ⟨t, r, hkept _ _ ht, by rw [hrest]; exact hr, hsound⟩
  no_receipt := by rw [hrest]; exact h.no_receipt
  one_delivery := by rw [hrest]; exact h.one_delivery
  one_register := by rw [hrest]; exact h.one_register
  verified := by rw [hrest]; exact h.verified
  sizes := by
    have hcard : next.revokedTasks.card ≤ limit := by
      rw [OrdMap.size_eq_card] at hsize
      refine le_trans (Finset.card_le_card fun id hid => ?_) hsize
      exact OrdMap.mem_keySet.mpr (hrevoked id hid)
    rw [hrest] at hsize hcard ⊢
    exact { h.sizes with tasks := hsize, revokedTasks := hcard }
  versions := by rw [hrest]; exact h.versions
  audit := by
    intro event hevent
    rw [hrest] at hevent
    obtain ⟨t, r, ht, hr, hscope, hlogged, hreceipt⟩ := h.audit event hevent
    refine ⟨t, r, hkept _ _ ht, by rw [hrest]; exact hr, hscope, ?_, ?_⟩
    · rw [hrest]
      exact hlogged
    · rw [hrest]
      exact hreceipt

theorem malformed_min {t : TaskApproval} {effective : Time} (hmin : Time.min ≤ effective)
    (h : t.malformed effective = false) : t.malformed Time.min = false := by
  unfold TaskApproval.malformed at h ⊢
  simp only [Bool.or_eq_false_iff, decide_eq_false_iff_not, not_le] at h ⊢
  obtain ⟨⟨⟨⟨⟨⟨⟨⟨⟨⟨⟨hid, hexpires⟩, hfields⟩, h4⟩, h5⟩, h6⟩, h7⟩, h8⟩, h9⟩, h10⟩, h11⟩, h12⟩ := h
  exact ⟨⟨⟨⟨⟨⟨⟨⟨⟨⟨⟨hid, lt_of_le_of_lt hmin hexpires⟩, hfields⟩, h4⟩, h5⟩, h6⟩, h7⟩, h8⟩, h9⟩,
    h10⟩, h11⟩, h12⟩

theorem share_malformed_min {t : TaskApproval} {bounds : ShareBounds} {effective : Time}
    (hmin : Time.min ≤ effective) (h : bounds.malformed t effective = false) :
    bounds.malformed t Time.min = false := by
  unfold ShareBounds.malformed at h ⊢
  simp only [Bool.or_eq_false_iff, decide_eq_false_iff_not, not_le] at h ⊢
  obtain ⟨⟨hrest, hexpires⟩, haccess⟩ := h
  exact ⟨⟨hrest, lt_of_le_of_lt hmin hexpires⟩, haccess⟩

theorem taskSound_of_approved {admin : AuthenticatedContext} {t : TaskApproval} {effective : Time}
    {next : Application} (h : Approved admin t effective app next) (hpos : 0 ≤ effective) :
    TaskSound t.id t := by
  have hmin : Time.min ≤ effective := le_trans (by decide) hpos
  refine ⟨rfl, malformed_min hmin h.wellFormed, ?_⟩
  have hbounded := h.bounded
  cases hshare : t.share with
  | none => rfl
  | some bounds =>
    rw [hshare, Option.any_some] at hbounded
    exact share_malformed_min hmin hbounded

theorem Publishable.approved {admin : AuthenticatedContext} {t : TaskApproval} {effective : Time}
    {next : Application} (h : app.Publishable P) (happroved : Approved admin t effective app next)
    (hpos : 0 ≤ effective) : next.Publishable P := by
  have htasks : next.tasks = app.tasks.insert t.id t := by rw [happroved.result]
  have hrevoked : next.revokedTasks = app.revokedTasks := by rw [happroved.result]
  have hkept : ∀ id s, app.tasks.get? id = some s → next.tasks.get? id = some s := by
    intro id s hs
    rw [htasks, OrdMap.get?_insert_ne _ _ fun heq => by rw [← heq, happroved.fresh] at hs; cases hs]
    exact hs
  have hsplit : ∀ {id s}, next.tasks.get? id = some s →
      (id = t.id ∧ s = t) ∨ app.tasks.get? id = some s := by
    intro id s hs
    rw [htasks, OrdMap.get?_insert] at hs
    split_ifs at hs with heq
    · exact .inl ⟨heq.symm, (Option.some.inj hs).symm⟩
    · exact .inr hs
  have hvalid : next.Valid P := by
    refine h.valid.of_tasks hkept ?_ ?_ ?_ ?_ ?_
    · intro id s hs
      rcases hsplit hs with ⟨rfl, rfl⟩ | hold
      · exact taskSound_of_approved happroved hpos
      · exact h.valid.tasks id s hold
    · intro i s j u hs hu
      rcases hsplit hs with ⟨rfl, rfl⟩ | hs <;> rcases hsplit hu with ⟨rfl, rfl⟩ | hu
      · exact ⟨rfl, rfl⟩
      · obtain ⟨howner, hworkspace⟩ := happroved.one_owner j u hu
        exact ⟨howner.symm, hworkspace.symm⟩
      · exact happroved.one_owner i s hs
      · exact h.valid.one_owner i s j u hs hu
    · intro id hid
      rw [hrevoked] at hid
      obtain ⟨s, hs⟩ := h.valid.revoked id hid
      exact ⟨s, hkept id s hs⟩
    · rw [htasks, OrdMap.size_insert_of_none happroved.fresh]
      exact happroved.room
    · rw [happroved.result]
  exact ⟨hvalid, h.steady.of_eq (by rw [happroved.result]) (by rw [happroved.result])
    (by rw [happroved.result]) (by rw [happroved.result])⟩

theorem Publishable.revoked {admin : AuthenticatedContext} {id : Uuid} {next : Application}
    (h : app.Publishable P) (hrevoked : TaskRevoked admin id app next) : next.Publishable P := by
  obtain ⟨t, ht, -⟩ := hrevoked.scope
  have htasks : next.tasks = app.tasks := by rw [hrevoked.result]
  have hvalid : next.Valid P := by
    refine h.valid.of_tasks ?_ ?_ ?_ ?_ ?_ ?_
    · rw [htasks]
      exact fun _ _ hs => hs
    · rw [htasks]
      exact h.valid.tasks
    · rw [htasks]
      exact h.valid.one_owner
    · intro other hother
      rw [hrevoked.result, Finset.mem_insert] at hother
      rw [htasks]
      rcases hother with rfl | hold
      · exact ⟨t, ht⟩
      · exact h.valid.revoked other hold
    · rw [htasks]
      exact h.valid.sizes.tasks
    · rw [hrevoked.result]
  exact ⟨hvalid, h.steady.of_eq (by rw [hrevoked.result]) (by rw [hrevoked.result])
    (by rw [hrevoked.result]) (by rw [hrevoked.result])⟩

/-! Private use, with action `use` only. -/

/-- One delivery is new or changed, and registers nothing. -/
theorem Valid.withDelivery (h : app.Valid P) {id : Uuid} {d : DeliveryAttempt}
    (hsound : ∃ t r, app.tasks.get? d.task = some t ∧ app.records.get? d.record = some r
      ∧ DeliverySound P id d t r)
    (hkey : ∀ j e, app.deliveries.get? j = some e → e.key = d.key → j = id)
    (hno : app.requests.get? d.key = none) (hregister : registers d = false)
    (hunverified : ∀ j r, app.records.get? j = some r → r.signup ≠ .verifiedLogin)
    (hsize : (app.setDelivery id d).deliveries.size ≤ limit) : (app.setDelivery id d).Valid P := by
  have hsplit : ∀ {j e}, (app.setDelivery id d).deliveries.get? j = some e →
      (j = id ∧ e = d) ∨ (j ≠ id ∧ app.deliveries.get? j = some e) := by
    intro j e he
    change (app.deliveries.insert id d).get? j = some e at he
    rw [OrdMap.get?_insert] at he
    split_ifs at he with heq
    · exact .inl ⟨heq.symm, (Option.some.inj he).symm⟩
    · exact .inr ⟨fun heq' => heq heq'.symm, he⟩
  refine { h with deliveries := ?deliveries, no_receipt := ?no_receipt
                  one_delivery := ?one_delivery, one_register := ?one_register
                  verified := fun j r hr hverified => absurd hverified (hunverified j r hr)
                  sizes := { h.sizes with deliveries := hsize }
                  chain := ?chain, versions := h.versions, audit := ?audit }
  case deliveries =>
    intro j e he
    rcases hsplit he with ⟨rfl, rfl⟩ | ⟨-, hold⟩
    · exact hsound
    · exact h.deliveries j e hold
  case no_receipt =>
    intro j e he
    rcases hsplit he with ⟨rfl, rfl⟩ | ⟨-, hold⟩
    · exact hno
    · exact h.no_receipt j e hold
  case one_delivery =>
    intro i e j f he hf hsame
    rcases hsplit he with ⟨rfl, rfl⟩ | ⟨hi, he'⟩ <;> rcases hsplit hf with ⟨rfl, rfl⟩ | ⟨hj, hf'⟩
    · rfl
    · exact absurd (hkey j f hf' hsame.symm) hj
    · exact absurd (hkey i e he' hsame) hi
    · exact h.one_delivery i e j f he' hf' hsame
  case one_register =>
    intro i e j f he hf hreg hreg' hsame
    rcases hsplit he with ⟨rfl, rfl⟩ | ⟨-, he'⟩
    · rw [hregister] at hreg
      cases hreg
    · rcases hsplit hf with ⟨rfl, rfl⟩ | ⟨-, hf'⟩
      · rw [hregister] at hreg'
        cases hreg'
      · exact h.one_register i e j f he' hf' hreg hreg' hsame
  case chain =>
    intro j r hr
    obtain ⟨hcovered, hcreated, hdeleted, honce⟩ := h.chain j r hr
    exact ⟨hcovered, hcreated, hdeleted, honce⟩
  case audit =>
    intro event hevent
    obtain ⟨t, r, ht, hr, hscope, hlogged, hreceipt⟩ := h.audit event hevent
    exact ⟨t, r, ht, hr, hscope, hlogged, hreceipt⟩

theorem Publishable.withDelivery (h : app.Publishable P) {id : Uuid} {d : DeliveryAttempt}
    (hsound : ∃ t r, app.tasks.get? d.task = some t ∧ app.records.get? d.record = some r
      ∧ DeliverySound P id d t r)
    (hkey : ∀ j e, app.deliveries.get? j = some e → e.key = d.key → j = id)
    (hno : app.requests.get? d.key = none) (huse : d.action = .use)
    (hsize : (app.setDelivery id d).deliveries.size ≤ limit) :
    (app.setDelivery id d).Publishable P := by
  have hregister : registers d = false := by
    unfold registers
    rw [huse]
    rfl
  refine ⟨h.valid.withDelivery hsound hkey hno hregister h.steady.unverified hsize,
    h.steady.once, h.steady.rise, ?_, h.steady.unverified⟩
  intro i e he
  change (app.deliveries.insert id d).get? i = some e at he
  rw [OrdMap.get?_insert] at he
  split_ifs at he
  · cases he
    exact huse
  · exact h.steady.use_only i e he

/-- A delivery whose outcome alone changed. -/
theorem Publishable.setDelivery (h : app.Publishable P) {id : Uuid} {d d' : DeliveryAttempt}
    (hd : app.deliveries.get? id = some d)
    (hsame : d' = { d with status := d'.status, dispatched := d'.dispatched })
    (hjournaled : d'.dispatched = true ∨ d'.status = some .rejected) :
    (app.setDelivery id d').Publishable P := by
  obtain ⟨t, r, ht, hr, hsound⟩ := h.valid.deliveries id d hd
  have hkey : d'.key = d.key := by rw [hsame]
  refine h.withDelivery ⟨t, r, by rw [hsame]; exact ht, by rw [hsame]; exact hr, ?_⟩ ?_ ?_ ?_ ?_
  · refine ⟨hsound.id_ne, hsound.scope, ?_, ?_, ?_, ?_, hsound.permission, ?_, ?_, ?_, ?_, ?_,
      hjournaled, ?_, ?_⟩ <;> rw [hsame]
    · exact hsound.version_pos
    · exact hsound.version_le
    · exact hsound.fields_ne
    · exact hsound.fields
    · exact hsound.destination
    · exact hsound.key_task
    · exact hsound.key_owner
    · exact hsound.key_principal
    · exact hsound.key_ne
    · exact hsound.fingerprint
    · exact hsound.login
  · exact fun j e he heq => h.valid.one_delivery j e id d he hd (heq.trans hkey)
  · rw [hkey]
    exact h.valid.no_receipt id d hd
  · rw [hsame]
    exact h.steady.use_only id d hd
  · change (app.deliveries.insert id d').size ≤ limit
    rw [OrdMap.size_insert_of_some hd]
    exact h.valid.sizes.deliveries

/-! Each operation of the policy core, with the clock sample it takes. -/

theorem effective_nonneg {now effective : Time} (hnow : 0 ≤ now)
    (heff : app.effectiveTime now = .ok effective) : 0 ≤ effective :=
  le_trans hnow (lastTime_ticked heff).2.1

theorem Fresh.ticked {id : Uuid} (h : app.Fresh id) (now : Time) : (app.ticked now).Fresh id := by
  refine ⟨h.ne_nil, ?_, ?_, ?_⟩
  · rw [ticked_records]
    exact h.record
  · rw [ticked_grants]
    exact h.grant
  · rw [ticked_deliveries]
    exact h.delivery

section Operations

variable {ctx admin : AuthenticatedContext} {task request : Uuid} {now : Time}

theorem Publishable.approveTask {t : TaskApproval} (h : app.Publishable P) (hnow : 0 ≤ now) :
    wp (approveTask admin t now) (fun _ next => next.Publishable P)
      (fun _ next => next.Publishable P) app := by
  cases hrun : Application.approveTask admin t now app with
  | ok u next =>
    obtain ⟨effective, heff, happroved⟩ := approveTask_eq_ok.mp hrun
    unfold wp
    rw [hrun]
    exact (h.ticked heff).approved happroved (effective_nonneg hnow heff)
  | error e next =>
    unfold wp
    rw [hrun]
    exact h.clockOnly (approveTask_error hrun)

theorem Publishable.revokeTask {id : Uuid} (h : app.Publishable P) :
    wp (revokeTask admin id now) (fun _ next => next.Publishable P)
      (fun _ next => next.Publishable P) app := by
  apply wp_mono (wp_revokeTask admin id now app)
  · rintro - next ⟨effective, heff, hrevoked⟩
    exact (h.ticked heff).revoked hrevoked
  · exact fun _ next hclock => h.clockOnly hclock

/-- Deletions and revocations by an admin may be refused; all else can be published. -/
theorem Publishable.mutate {op : Mutation} {draw : Draw} (h : app.Publishable P) (hnow : 0 ≤ now)
    (hfresh : app.Fresh draw.id) :
    wp (mutate P ctx task request op now draw)
      (fun _ next => next.Steady ∧ ((ctx.admin = true → op.withdraws = false) → next.Valid P))
      (fun _ next => next.Publishable P) app := by
  apply wp_mono (wp_mutate P ctx task request op now draw app)
  · rintro receipt next ⟨effective, heff, hexec | ⟨-, rfl⟩⟩
    · have hpos := effective_nonneg hnow heff
      have hbase := h.ticked heff
      exact ⟨hexec.steady hbase hpos (hfresh.ticked now), fun hadmin =>
        hexec.valid hbase hadmin hpos (lastTime_ticked heff).1 (hfresh.ticked now)⟩
    · exact ⟨(h.ticked heff).steady, fun _ => (h.ticked heff).valid⟩
  · exact fun _ next hclock => h.clockOnly hclock

/-- A selection may be logged. -/
theorem Publishable.logged {record : Uuid} {fields : Fields} {permission : Permission}
    {destination : Option String} {effective : Time} {values : SecretInput} {t : TaskApproval}
    {r : Record} (h : app.Publishable P) (hlast : app.lastTime = some effective)
    (hpos : 0 ≤ effective)
    (hselected : Selected app ctx task record fields permission destination effective values t r)
    (action : AuditAction) : (app.pushAudit {
      task, record, request := none, action, loggedAt := effective
      principal := ctx.principal }).Publishable P := by
  have htask := hselected.task
  have hrecord := hselected.record
  obtain ⟨hpermits, -⟩ := can_iff.mp hselected.allowed
  refine ⟨h.valid.pushAudit htask.found hrecord.found ⟨?_, fun _ => ?_, nofun⟩,
    h.steady.pushAudit _⟩
  · exact sameScope_iff.mpr ⟨htask.owner.trans hrecord.owner.symm,
      htask.workspace.trans hrecord.workspace.symm, hpermits.origin.symm, hpermits.service.symm⟩
  · exact ⟨htask.principal.symm, effective, hlast, hpos, le_refl _⟩

theorem Publishable.metadata {record : Uuid} {fields : Fields} (h : app.Publishable P)
    (hnow : 0 ≤ now) :
    wp (metadata ctx task record fields now) (fun _ next => next.Publishable P)
      (fun _ next => next.Publishable P) app := by
  apply wp_mono (wp_metadata ctx task record fields now app)
  · rintro view next ⟨effective, heff, values, t, r, hselected, -, rfl⟩
    exact (h.ticked heff).logged (lastTime_ticked heff).1 (effective_nonneg hnow heff) hselected _
  · exact fun _ next hclock => h.clockOnly hclock

theorem Publishable.readSecret {record : Uuid} {fields : Fields} (h : app.Publishable P)
    (hnow : 0 ≤ now) :
    wp (readSecret ctx task record fields now) (fun _ next => next.Publishable P)
      (fun _ next => next.Publishable P) app := by
  apply wp_mono (wp_readSecret ctx task record fields now app)
  · rintro values next ⟨effective, heff, t, r, hselected, rfl⟩
    exact (h.ticked heff).logged (lastTime_ticked heff).1 (effective_nonneg hnow heff) hselected _
  · exact fun _ next hclock => h.clockOnly hclock

/-- The context an admin may act for is never an admin's own. -/
theorem trustedTaskContext_agent {id : Uuid}
    (h : app.trustedTaskContext admin id now = .ok ctx) : ctx.admin = false := by
  unfold trustedTaskContext at h
  split_ifs at h
  split at h
  · cases h
  · split_ifs at h
    dsimp only at h
    split at h
    · cases h
    · cases h
      rfl

theorem Publishable.importClosure {kind : CredentialKind} {values : SecretInput} {draw : Draw}
    (h : app.Publishable P) (hnow : 0 ≤ now) (hfresh : app.Fresh draw.id) :
    wp (DurableVault.importClosure P admin task request kind values now draw)
      (fun _ next => next.Publishable P) (fun _ next => next.Publishable P) app := by
  simp only [DurableVault.importClosure, wp_bind, wp_clock, wp_get, wp_liftExcept]
  refine ⟨fun effective heff => ⟨fun ctx hctx => ?_, fun _ _ => h.ticked heff⟩,
    fun e he => h.clockOnly (.frozen he)⟩
  apply wp_mono ((h.ticked heff).mutate (effective_nonneg hnow heff) (hfresh.ticked now))
  · exact fun receipt next hnext => ⟨hnext.2 fun _ => rfl, hnext.1⟩
  · exact fun _ next hnext => hnext

theorem Publishable.readClosure {record : Uuid} {fields : Fields} (h : app.Publishable P)
    (hnow : 0 ≤ now) :
    wp (DurableVault.readClosure admin task record fields now)
      (fun _ next => next.Publishable P) (fun _ next => next.Publishable P) app := by
  simp only [DurableVault.readClosure, wp_bind, wp_clock, wp_get, wp_liftExcept]
  exact ⟨fun effective heff => ⟨fun ctx hctx => (h.ticked heff).readSecret
    (effective_nonneg hnow heff), fun _ _ => h.ticked heff⟩, fun e he => h.clockOnly (.frozen he)⟩

/-- A new attempt is in order. -/
theorem Usable.deliverySound {use : PrivateUse} {attempt : Uuid} {effective : Time} {values : SecretInput}
    {t : TaskApproval} {r : Record} (hvalid : app.Valid P) (hne : attempt ≠ 0)
    (h : Usable app ctx task use effective values t r) : DeliverySound P attempt
      (newAttempt ctx task use (privateUseFingerprint P use) r.secretVersion effective) t r := by
  have hselected := h.selected
  obtain ⟨hpermits, -⟩ := can_iff.mp hselected.allowed
  obtain ⟨o, -, hsound⟩ := hvalid.records use.record r hselected.record.found
  exact {
    id_ne := hne
    scope := sameScope_iff.mpr ⟨hselected.task.owner.trans hselected.record.owner.symm,
      hselected.task.workspace.trans hselected.record.workspace.symm, hpermits.origin.symm,
      hpermits.service.symm⟩
    version_pos := hsound.version_pos
    version_le := le_refl _
    fields_ne := hselected.fields_ne
    fields := hpermits.fields
    permission := hpermits.permission
    destination := hpermits.destination use.destination rfl
    key_task := rfl
    key_owner := hselected.task.owner.symm
    key_principal := hselected.task.principal.symm
    key_ne := h.request_ne
    journaled := .inl rfl
    fingerprint := rfl
    login := h.login }

/-- The journaled attempt of a private use is in order. -/
theorem Publishable.prepared {use : PrivateUse} {attempt : Uuid} {effective : Time}
    {next : Application} (h : app.Publishable P) (hfresh : app.Fresh attempt)
    (huse : use.action = .use)
    (hprepared : Prepared P ctx task use attempt effective app next) : next.Publishable P := by
  obtain ⟨values, t, r, husable, hnext⟩ := hprepared.usable
  have hregister : ¬ use.action = .register := by rw [huse]; nofun
  rw [hnext, Application.prepared, if_neg hregister]
  refine h.withDelivery ⟨t, r, husable.selected.task.found, husable.selected.record.found,
    husable.deliverySound h.valid hfresh.ne_nil⟩ ?_ ?_ huse ?_
  · exact fun j e he heq => absurd heq (hprepared.no_delivery j e he)
  · exact husable.no_receipt
  · change (app.deliveries.insert attempt _).size ≤ limit
    rw [OrdMap.size_insert_of_none hfresh.delivery]
    exact hprepared.room

theorem Publishable.usePrepare {use : PrivateUse} {attempt : Uuid} (h : app.Publishable P)
    (hfresh : app.Fresh attempt) (huse : use.action = .use) :
    wp (usePrepare P ctx task use attempt now) (fun _ next => next.Publishable P)
      (fun _ next => next.Publishable P) app := by
  apply wp_mono (wp_usePrepare P ctx task use attempt now app)
  · rintro out next ⟨effective, heff, ⟨-, hprepared⟩ | ⟨receipt, -, -, rfl⟩⟩
    · exact (h.ticked heff).prepared (hfresh.ticked now) huse hprepared
    · exact h.ticked heff
  · exact fun _ next hclock => h.clockOnly hclock

theorem signupWithdrawn_use (old : SignupState) : signupWithdrawn .use old = old := rfl

theorem signupAfter_use (status : DeliveryStatus) (old : SignupState) :
    signupAfter .use status old = old := by
  cases status <;> rfl

theorem Publishable.useCancel {use : PrivateUse} {attempt : Uuid} (h : app.Publishable P)
    (huse : use.action = .use) :
    wp (useCancel use attempt) (fun _ next => next.Publishable P)
      (fun _ next => next.Publishable P) app := by
  have hsettled : ∀ next, Settled use attempt withdrawn (signupWithdrawn use.action) app next →
      next.Publishable P := by
    intro next hs
    cases hs with
    | missing => exact h
    | orphan hd => exact h.setDelivery hd rfl (.inr rfl)
    | @done d r hd hr =>
      have hnext : (app.setDelivery attempt (withdrawn d)).Publishable P :=
        h.setDelivery hd rfl (.inr rfl)
      rw [huse, signupWithdrawn_use]
      have hself : (app.setDelivery attempt (withdrawn d)).setRecord use.record r
          = app.setDelivery attempt (withdrawn d) := setRecord_self hr
      rw [hself]
      exact hnext
  exact wp_mono (wp_useCancel use attempt app) (fun _ next hs => hsettled next hs.1)
    fun _ next hs => hsettled next hs

/-- The attempt of a use that has been handed off: dispatched, under its own key. -/
structure HandedOff (app : Application) (ctx : AuthenticatedContext) (task : Uuid)
    (use : PrivateUse) (attempt : Uuid) (d : DeliveryAttempt) : Prop where
  found : app.deliveries.get? attempt = some d
  dispatched : d.dispatched = true
  task_eq : d.task = task
  record_eq : d.record = use.record
  key_eq : d.key = requestKey ctx task use.request

theorem Publishable.useFinish {use : PrivateUse} {attempt : Uuid} {status : DeliveryStatus}
    {d : DeliveryAttempt} {effective : Time} (h : app.Publishable P) (huse : use.action = .use)
    (hd : app.HandedOff ctx task use attempt d) (hlast : app.lastTime = some effective)
    (hpos : 0 ≤ effective) :
    wp (useFinish ctx task use attempt status effective) (fun _ next => next.Publishable P)
      (fun _ next => next.Publishable P) app := by
  have hset : ∀ s, (app.setDelivery attempt { d with status := some s }).Publishable P := fun s =>
    h.setDelivery hd.found rfl (.inl hd.dispatched)
  apply wp_mono (wp_useFinish ctx task use attempt status effective app)
  · rintro - next ⟨d', r, hd', hr, rfl⟩
    have hsame : d' = d := Option.some.inj (hd'.symm.trans hd.found)
    subst hsame
    have hself : (app.setDelivery attempt { d' with status := some status }).setRecord use.record r
        = app.setDelivery attempt { d' with status := some status } := setRecord_self hr
    rw [huse, signupAfter_use, hself]
    obtain ⟨t, r', ht, hr', hsound⟩ := h.valid.deliveries attempt d' hd.found
    rw [hd.record_eq, hr, Option.some.injEq] at hr'
    subst hr'
    rw [hd.task_eq] at ht
    have hprincipal : ctx.principal = t.principal := by
      rw [← hsound.key_principal, hd.key_eq]
      rfl
    exact ⟨(hset status).valid.pushAudit ht hr ⟨hsound.scope, fun _ => ⟨hprincipal, effective, hlast,
      hpos, le_refl _⟩, nofun⟩, (hset status).steady.pushAudit _⟩
  · rintro e next (⟨rfl, -⟩ | ⟨d', hd', -, rfl⟩)
    · exact h
    · have hsame : d' = d := Option.some.inj (hd'.symm.trans hd.found)
      subst hsame
      exact hset status

end Operations

end Application

end Credman
