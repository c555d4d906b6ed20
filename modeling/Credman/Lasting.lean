import Credman.Candidates
import Credman.Operation
import Credman.Encoding

/-! What any operation does to each part of an application, and what none of them
undoes, on any history: admin deletions, registrations, recoveries and all. -/
namespace Credman

open Library Library.Checked

namespace Application

open Changed

variable {P : Platform} {app next : Application} {id : Uuid}

/-- What a mutation that ran has changed, before it is remembered: one live record moved on
by one revision, or one record appeared. -/
inductive Moved (app : Application) (ctx : AuthenticatedContext) (task : Uuid) (op : Mutation)
    (draw : Draw) (receipt : Receipt) : Application → Prop
  | changed {t : TaskApproval} {i : Uuid} {r r' : Record} {mid : Application}
      (htarget : op.target = some i) (hlive : r.deleted = false)
      (hexpected : op.expected = some r.revision) (hroom : r.revision ≠ maxU64)
      (hperformed : Performed ctx t task draw app op receipt mid)
      (hchanged : app.Changed op receipt i r r' mid) : Moved app ctx task op draw receipt mid
  | created {t : TaskApproval} {kind : CredentialKind} {values : SecretInput}
      (htarget : op.target = none) (hkind : op.cachedKind = .create)
      (habsent : app.records.get? draw.id = none) (hissued : Issued t kind values)
      (hresolved : app.resolve op draw = .ok (.create kind values))
      (hreceipt : receipt = { record := draw.id, revision := 1, grant := none }) :
    Moved app ctx task op draw receipt
      (app.setRecord draw.id (createdRecord ctx t task kind values draw.id))

section Executed

variable {ctx : AuthenticatedContext} {task request : Uuid} {op : Mutation} {draw : Draw}
  {effective : Time} {receipt : Receipt}

theorem Executed.moved (h : Executed P ctx task request op draw effective app receipt next)
    (hfresh : app.Fresh draw.id) : ∃ mid, Moved app ctx task op draw receipt mid
      ∧ next = (remembering mid (requestKey ctx task request)
          (remembered P op receipt effective)).pushAudit
            (mutationEvent ctx task request receipt.record effective) := by
  cases htarget : op.target with
  | some i =>
    obtain ⟨t, r, mid, ht, hr, hperformed, hnext⟩ := h.targeted htarget
    obtain ⟨s, r', hc⟩ := hperformed.changed htarget fun _ => hfresh.grant
    have hs : s = r := Option.some.inj (hc.found.symm.trans hr.found)
    subst hs
    have hlive : s.deleted = false := by
      rw [← Bool.not_eq_true]
      intro hdeleted
      have hretry := (hr.live hdeleted).1
      cases hretry
    exact ⟨mid, .changed htarget hlive (hr.expected rfl) (hr.room rfl) hperformed hc, hnext⟩
  | none =>
    obtain ⟨t, mid, op', ht, -, hauth, hop, hperformed, hnext⟩ := h.change
    have hkind : op.cachedKind = .create := by cases op <;> first | rfl | cases htarget
    cases hperformed with
    | create room =>
      exact ⟨_, .created htarget hkind hfresh.record (issued hauth hop) hop rfl, hnext⟩
    | patch | share | revoke | delete | reportOutcome =>
      have hsome := (resolve_target hop).1
      rw [htarget] at hsome
      cases hsome

end Executed

/-! Each part of an application after one operation. -/

/-- Where a record of the next application comes from. -/
inductive RecordFrom (P : Platform) (id : Uuid) (app : Application) (i : Uuid) (r' : Record) : Prop
  | same {r : Record} (hr : app.records.get? i = some r) (state : SignupState)
      (h : r' = { r with signup := state })
  | changed {ctx : AuthenticatedContext} {t : TaskApproval} {task : Uuid} {op : Mutation}
      {draw : Draw} {receipt : Receipt} {r : Record} {mid : Application}
      (htarget : op.target = some i) (hr : app.records.get? i = some r) (hlive : r.deleted = false)
      (hexpected : op.expected = some r.revision) (hroom : r.revision ≠ maxU64) {base : Application}
      (hperformed : Performed ctx t task draw base op receipt mid)
      (hchanged : base.Changed op receipt i r r' mid)
  | created {ctx : AuthenticatedContext} {t : TaskApproval} {task : Uuid} {kind : CredentialKind}
      {values : SecretInput} (hi : i = id) (habsent : app.records.get? i = none)
      (h : r' = createdRecord ctx t task kind values i)

/-- The parts an operation that is no mutation leaves alone. -/
structure Quiet (app next : Application) : Prop where
  baselines : next.baselines = app.baselines
  requests : next.requests = app.requests
  grants : next.grants = app.grants
  records : ∀ i r', next.records.get? i = some r' →
    ∃ r state, app.records.get? i = some r ∧ r' = { r with signup := state }
  records_kept : ∀ i r, app.records.get? i = some r → ∃ r', next.records.get? i = some r'

namespace Quiet

theorem of_eq (hbaselines : next.baselines = app.baselines) (hrequests : next.requests = app.requests)
    (hgrants : next.grants = app.grants) (hrecords : next.records = app.records) :
    app.Quiet next where
  baselines := hbaselines
  requests := hrequests
  grants := hgrants
  records _ r' hr' := ⟨r', r'.signup, hrecords ▸ hr', rfl⟩
  records_kept _ r hr := ⟨r, hrecords.symm ▸ hr⟩

theorem trans {mid : Application} (h : app.Quiet mid) (h' : mid.Quiet next) : app.Quiet next where
  baselines := h'.baselines.trans h.baselines
  requests := h'.requests.trans h.requests
  grants := h'.grants.trans h.grants
  records i r' hr' := by
    obtain ⟨r₁, state, hr₁, rfl⟩ := h'.records i r' hr'
    obtain ⟨r, state₁, hr, rfl⟩ := h.records i r₁ hr₁
    exact ⟨r, state, hr, rfl⟩
  records_kept i r hr := by
    obtain ⟨r₁, hr₁⟩ := h.records_kept i r hr
    exact h'.records_kept i r₁ hr₁

theorem ticked (app : Application) (now : Time) : app.Quiet (app.ticked now) :=
  .of_eq (by simp) (by simp) (by simp) (by simp)

/-- A change of one record's signup state. -/
theorem signup {i : Uuid} {r : Record} (hr : app.records.get? i = some r) (state : SignupState) :
    app.Quiet (app.setRecord i { r with signup := state }) where
  baselines := rfl
  requests := rfl
  grants := rfl
  records j s hs := by
    change (app.records.insert i _).get? j = some s at hs
    rw [OrdMap.get?_insert] at hs
    split_ifs at hs with heq
    · rw [Option.some.injEq] at hs
      exact ⟨r, state, heq ▸ hr, hs.symm⟩
    · exact ⟨s, s.signup, hs, rfl⟩
  records_kept j s hs := by
    change ∃ r', (app.records.insert i _).get? j = some r'
    rw [OrdMap.get?_insert]
    split_ifs
    · exact ⟨_, rfl⟩
    · exact ⟨s, hs⟩

theorem settled {use : PrivateUse} {attempt : Uuid} {change : DeliveryAttempt → DeliveryAttempt}
    {signup : SignupState → SignupState} (h : Settled use attempt change signup app next) :
    app.Quiet next := by
  cases h with
  | missing => exact .of_eq rfl rfl rfl rfl
  | orphan => exact .of_eq rfl rfl rfl rfl
  | @done d r hd hr =>
    have hset : app.Quiet (app.setDelivery attempt (change d)) := .of_eq rfl rfl rfl rfl
    have hfound : (app.setDelivery attempt (change d)).records.get? use.record = some r := hr
    exact hset.trans (.signup hfound _)

end Quiet

/-- Every operation either ran a mutation, or is quiet. -/
theorem Operated.cases (h : Operated P id app next) : app.Quiet next
    ∨ ∃ ctx task request op draw now effective receipt, draw.id = id
      ∧ app.effectiveTime now = .ok effective
      ∧ Executed P ctx task request op draw effective (app.ticked now) receipt next := by
  cases h with
  | clockOnly h =>
    cases h with
    | ticked => exact .inl (.ticked app _)
    | frozen => exact .inl (.of_eq rfl rfl rfl rfl)
  | @approved admin t now effective next heff h =>
    rw [h.result]
    exact .inl ((Quiet.ticked app now).trans (.of_eq rfl rfl rfl rfl))
  | @revoked admin t now effective next heff h =>
    rw [h.result]
    exact .inl ((Quiet.ticked app now).trans (.of_eq rfl rfl rfl rfl))
  | executed hid heff h => exact .inr ⟨_, _, _, _, _, _, _, _, hid, heff, h⟩
  | logged heff event => exact .inl ((Quiet.ticked app _).trans (.of_eq rfl rfl rfl rfl))
  | @prepared ctx task use now effective next heff h =>
    obtain ⟨values, t, r, husable, rfl⟩ := h.usable
    refine .inl ((Quiet.ticked app now).trans ?_)
    unfold Application.prepared
    split_ifs
    · have hset : (app.ticked now).Quiet ((app.ticked now).setDelivery id (newAttempt ctx task use
          (privateUseFingerprint P use) r.secretVersion effective)) := .of_eq rfl rfl rfl rfl
      have hfound : ((app.ticked now).setDelivery id (newAttempt ctx task use
          (privateUseFingerprint P use) r.secretVersion effective)).records.get? use.record = some r :=
        husable.selected.record.found
      exact hset.trans (.signup hfound _)
    · exact .of_eq rfl rfl rfl rfl
  | withdrawn h => exact .inl (.settled h)
  | finished h => exact .inl (.settled h)
  | reported h event => exact .inl ((Quiet.settled h).trans (.of_eq rfl rfl rfl rfl))

theorem Fresh.of_ticked {now : Time} (h : app.Fresh id) : (app.ticked now).Fresh id :=
  ⟨h.ne_nil, by simpa using h.record, by simpa using h.grant, by simpa using h.delivery⟩

theorem Moved.baselines_eq {ctx : AuthenticatedContext} {task : Uuid} {op : Mutation} {draw : Draw}
    {receipt : Receipt} (h : Moved app ctx task op draw receipt next) :
    next.baselines = app.baselines ∧ next.requests = app.requests := by
  cases h with
  | changed _ _ _ _ _ hc =>
    rw [hc.result]
    exact ⟨rfl, rfl⟩
  | created => exact ⟨rfl, rfl⟩

theorem Operated.baselines_eq (hfresh : app.Fresh id) (h : Operated P id app next) :
    next.baselines = app.baselines := by
  rcases h.cases with hquiet | ⟨ctx, task, request, op, draw, now, effective, receipt, rfl, -, hexec⟩
  · exact hquiet.baselines
  · obtain ⟨mid, hmoved, rfl⟩ := hexec.moved hfresh.of_ticked
    exact hmoved.baselines_eq.1.trans (by simp)

/-- Receipts change by one that is added. -/
theorem Operated.requests_eq (hfresh : app.Fresh id) (h : Operated P id app next) :
    next.requests = app.requests
      ∨ ∃ ctx task request op draw now effective receipt, draw.id = id
        ∧ app.effectiveTime now = .ok effective
        ∧ Executed P ctx task request op draw effective (app.ticked now) receipt next
        ∧ next.requests = app.requests.insert (requestKey ctx task request)
          (remembered P op receipt effective) := by
  rcases h.cases with hquiet | ⟨ctx, task, request, op, draw, now, effective, receipt, hid, heff, hexec⟩
  · exact .inl hquiet.requests
  · obtain ⟨mid, hmoved, hnext⟩ := hexec.moved (hid ▸ hfresh.of_ticked)
    refine .inr ⟨ctx, task, request, op, draw, now, effective, receipt, hid, heff, hexec, ?_⟩
    rw [hnext]
    change mid.requests.insert _ _ = _
    rw [hmoved.baselines_eq.2, ticked_requests]

theorem Operated.requests_some (hfresh : app.Fresh id) (h : Operated P id app next) {key : RequestKey}
    {c : Remembered} (hc : next.requests.get? key = some c) : app.requests.get? key = some c
      ∨ ∃ ctx task request op draw now effective receipt, draw.id = id
        ∧ app.effectiveTime now = .ok effective
        ∧ Executed P ctx task request op draw effective (app.ticked now) receipt next
        ∧ key = requestKey ctx task request ∧ c = remembered P op receipt effective := by
  rcases h.requests_eq hfresh with hsame | ⟨ctx, task, request, op, draw, now, effective, receipt, hid,
    heff, hexec, hinsert⟩
  · exact .inl (hsame ▸ hc)
  · rw [hinsert, OrdMap.get?_insert] at hc
    split_ifs at hc with heq
    · exact .inr ⟨ctx, task, request, op, draw, now, effective, receipt, hid, heff, hexec, heq.symm,
        (Option.some.inj hc).symm⟩
    · exact .inl hc

theorem Operated.records_from (hfresh : app.Fresh id) (h : Operated P id app next) {i : Uuid}
    {r' : Record} (hr' : next.records.get? i = some r') : RecordFrom P id app i r' := by
  rcases h.cases with hquiet | ⟨ctx, task, request, op, draw, now, effective, receipt, hid, heff, hexec⟩
  · obtain ⟨r, state, hr, rfl⟩ := hquiet.records i r' hr'
    exact .same hr state rfl
  · obtain ⟨mid, hmoved, rfl⟩ := hexec.moved (hid ▸ hfresh.of_ticked)
    change mid.records.get? i = some r' at hr'
    cases hmoved with
    | changed htarget hlive hexpected hroom hperformed hc =>
      rcases hc.records_some.mp hr' with ⟨rfl, rfl⟩ | ⟨-, hold⟩
      · have hfound := hc.found
        rw [ticked_records] at hfound
        exact .changed htarget hfound hlive hexpected hroom hperformed hc
      · rw [ticked_records] at hold
        exact .same hold r'.signup rfl
    | created htarget hkind habsent hissued hresolved hreceipt =>
      change ((app.ticked now).records.insert draw.id _).get? i = some r' at hr'
      rw [OrdMap.get?_insert, ticked_records] at hr'
      split_ifs at hr' with heq
      · subst heq
        rw [ticked_records] at habsent
        exact .created hid habsent (Option.some.inj hr').symm
      · exact .same hr' r'.signup rfl

theorem Settled.deliveries_eq {use : PrivateUse} {attempt : Uuid}
    {change : DeliveryAttempt → DeliveryAttempt} {signup : SignupState → SignupState}
    {d : DeliveryAttempt} (h : Settled use attempt change signup app next)
    (hd : app.deliveries.get? attempt = some d) :
    next.deliveries = app.deliveries.insert attempt (change d) := by
  cases h with
  | missing hnone =>
    rw [hd] at hnone
    cases hnone
  | orphan hold | done hold =>
    rw [hd, Option.some.injEq] at hold
    rw [hold]
    rfl

/-- What is journaled is the new attempt, and nothing else. -/
theorem Prepared.deliveries_eq {ctx : AuthenticatedContext} {task : Uuid} {use : PrivateUse}
    {effective : Time} (h : Prepared P ctx task use id effective app next) :
    ∃ version, next.deliveries = app.deliveries.insert id
      (newAttempt ctx task use (privateUseFingerprint P use) version effective) := by
  obtain ⟨values, t, r, -, rfl⟩ := h.usable
  refine ⟨r.secretVersion, ?_⟩
  unfold Application.prepared
  split_ifs <;> rfl

/-- Where a delivery of the next application comes from: it was there, and at most its outcome
has changed, or it was journaled. -/
theorem Operated.deliveries_from (h : Operated P id app next) {i : Uuid} {d' : DeliveryAttempt}
    (hd' : next.deliveries.get? i = some d') :
    (∃ d, app.deliveries.get? i = some d
      ∧ d' = { d with status := d'.status, dispatched := d'.dispatched })
    ∨ i = id ∧ ∃ ctx task use now effective version,
      app.effectiveTime now = .ok effective ∧ Prepared P ctx task use id effective (app.ticked now) next
      ∧ d' = newAttempt ctx task use (privateUseFingerprint P use) version effective := by
  have hsame : ∀ {base : Application}, base.deliveries = app.deliveries →
      base.deliveries.get? i = some d' → ∃ d, app.deliveries.get? i = some d
        ∧ d' = { d with status := d'.status, dispatched := d'.dispatched } :=
    fun heq hd => ⟨d', heq ▸ hd, rfl⟩
  have hsettled : ∀ {use : PrivateUse} {attempt : Uuid} {change : DeliveryAttempt → DeliveryAttempt}
      {signup : SignupState → SignupState} {base : Application},
      (∀ d, change d = { d with status := (change d).status, dispatched := (change d).dispatched }) →
      Settled use attempt change signup app base → base.deliveries.get? i = some d' →
        ∃ d, app.deliveries.get? i = some d
          ∧ d' = { d with status := d'.status, dispatched := d'.dispatched } := by
    intro use attempt change signup base hchange hs hd
    have hinsert : ∀ {d : DeliveryAttempt}, app.deliveries.get? attempt = some d →
        (app.deliveries.insert attempt (change d)).get? i = some d' →
          ∃ d, app.deliveries.get? i = some d
            ∧ d' = { d with status := d'.status, dispatched := d'.dispatched } := by
      intro d hold hnew
      rw [OrdMap.get?_insert] at hnew
      split_ifs at hnew with heq
      · rw [Option.some.injEq] at hnew
        subst heq
        exact ⟨d, hold, hnew ▸ hchange d⟩
      · exact ⟨d', hnew, rfl⟩
    cases hs with
    | missing => exact ⟨d', hd, rfl⟩
    | orphan hold => exact hinsert hold hd
    | done hold => exact hinsert hold hd
  cases h with
  | clockOnly h =>
    refine .inl (hsame ?_ hd')
    cases h with
    | ticked => simp
    | frozen => rfl
  | approved heff h =>
    rw [h.result] at hd'
    exact .inl (hsame (ticked_deliveries _ _) hd')
  | revoked heff h =>
    rw [h.result] at hd'
    exact .inl (hsame (ticked_deliveries _ _) hd')
  | executed hid heff h =>
    obtain ⟨t, mid, op', -, -, -, -, hperformed, rfl⟩ := h.change
    have hmid : mid.deliveries = app.deliveries := by
      cases hperformed <;> exact ticked_deliveries _ _
    exact .inl (hsame hmid hd')
  | logged heff event => exact .inl (hsame (ticked_deliveries _ _) hd')
  | @prepared ctx task use now effective next heff h =>
    obtain ⟨version, hinsert⟩ := h.deliveries_eq
    have hd := hd'
    rw [hinsert, ticked_deliveries, OrdMap.get?_insert] at hd
    split_ifs at hd with heq
    · exact .inr ⟨heq.symm, ctx, task, use, now, effective, version, heff, h,
        (Option.some.inj hd).symm⟩
    · exact .inl ⟨d', hd, rfl⟩
  | withdrawn h => exact .inl (hsettled (fun d => rfl) h hd')
  | finished h => exact .inl (hsettled (fun d => rfl) h hd')
  | reported h event => exact .inl (hsettled (fun d => rfl) h hd')

/-! What lasts. -/

/-- Facts validation does not look at that hold on every history: a deleted record was deleted
once, no version wrapped, everything is dated, and every identifier was drawn. -/
structure Lasting (P : Platform) (drawn : Nat) (app : Application) : Prop where
  once : app.OneDelete
  rise : ∀ i r, app.records.get? i = some r → (app.baseline i).secretVersion ≤ r.secretVersion
  dated : app.Timestamped
  named : ∀ i, app.Names i → ∃ k, k < drawn ∧ i = P.uuid k

namespace Lasting

variable {n n' k : Nat}

theorem later (h : Lasting P n app) (hle : n ≤ n') : Lasting P n' app where
  once := h.once
  rise := h.rise
  dated := h.dated
  named i hi := by
    obtain ⟨k, hk, rfl⟩ := h.named i hi
    exact ⟨k, by omega, rfl⟩

theorem of_eq (h : Lasting P n app) (hrecords : next.records = app.records)
    (hrequests : next.requests = app.requests) (hgrants : next.grants = app.grants)
    (hdeliveries : next.deliveries = app.deliveries) (hbaselines : next.baselines = app.baselines) :
    Lasting P n next where
  once := by
    unfold OneDelete
    rw [hrequests]
    exact h.once
  rise i r hr := by
    unfold baseline
    rw [hbaselines]
    exact h.rise i r (hrecords ▸ hr)
  dated := ⟨fun key c hc => h.dated.requests key c (hrequests ▸ hc),
    fun i d hd => h.dated.deliveries i d (hdeliveries ▸ hd)⟩
  named i hi := h.named i ((Names.of_eq hrecords hgrants hdeliveries).mp hi)

/-- What is drawn later names nothing yet. -/
theorem fresh (hids : P.FreshIds) (h : Lasting P n app) (hle : n ≤ k) : app.Fresh (P.uuid k) := by
  have hnot : ¬ app.Names (P.uuid k) := by
    intro hnames
    obtain ⟨j, hj, heq⟩ := h.named _ hnames
    have hsame := hids.uuid_injective heq
    omega
  unfold Names at hnot
  push Not at hnot
  obtain ⟨hrecord, hgrant, hdelivery⟩ := hnot
  exact ⟨hids.uuid_ne_nil k, Option.eq_none_iff_forall_ne_some.mpr hrecord,
    Option.eq_none_iff_forall_ne_some.mpr hgrant, Option.eq_none_iff_forall_ne_some.mpr hdelivery⟩

theorem created : Lasting P n Application.created where
  once _ _ _ _ h := nomatch h
  rise _ _ h := nomatch h
  dated := ⟨nofun, nofun⟩
  named _ h := by
    rcases h with ⟨_, h⟩ | ⟨_, h⟩ | ⟨_, h⟩ <;> cases h

theorem operated (hids : P.FreshIds) (hvalid : app.Valid P) (h : Lasting P n app) (hle : n ≤ k)
    (hop : Operated P (P.uuid k) app next) : Lasting P (k + 1) next := by
  have hfresh := h.fresh hids hle
  refine ⟨fun key c key' c' hc hc' hkind hkind' hrecord => ?_, fun i r' hr' => ?_,
    ⟨fun key c hc => ?_, fun i d' hd' => ?_⟩, fun i hi => ?_⟩
  · rcases hop.requests_eq hfresh with hsame | ⟨ctx, task, request, op, draw, now, effective, receipt,
      hid, -, hexec, hinsert⟩
    · rw [hsame] at hc hc'
      exact h.once key c key' c' hc hc' hkind hkind' hrecord
    -- a new deletion is of a live record, so no other one is cached
    have hnew : op.cachedKind = .delete → ∀ {j d}, app.requests.get? j = some d → d.kind = .delete →
        d.result.record ≠ receipt.record := by
      intro hdelete j d hd hold heq
      obtain ⟨mid, hmoved, -⟩ := hexec.moved (hid ▸ hfresh.of_ticked)
      cases hmoved with
      | changed _ hlive _ _ _ hchanged =>
        have hfound := hchanged.found
        rw [ticked_records] at hfound
        have hdeleted := (hvalid.chain _ _ hfound).deleted.mpr
          (.inr ⟨j, d, hd, heq.trans hchanged.target, hold⟩)
        rw [hlive] at hdeleted
        cases hdeleted
      | created _ hcreate =>
        rw [hcreate] at hdelete
        cases hdelete
    rw [hinsert, OrdMap.get?_insert] at hc hc'
    split_ifs at hc with hkey <;> split_ifs at hc' with hkey'
    · exact hkey.symm.trans hkey'
    · cases hc
      exact absurd hrecord.symm (hnew hkind hc' hkind')
    · cases hc'
      exact absurd hrecord (hnew hkind' hc hkind)
    · exact h.once key c key' c' hc hc' hkind hkind' hrecord
  · have hbaseline : next.baseline i = app.baseline i := by
      unfold baseline
      rw [hop.baselines_eq hfresh]
    rw [hbaseline]
    cases hop.records_from hfresh hr' with
    | @same r hr state heq =>
      rw [heq]
      exact h.rise i r hr
    | changed _ hr _ _ _ _ hchanged => exact (h.rise i _ hr).trans hchanged.version_le
    | created _ habsent _ =>
      have hnone : app.baselines.get? i = none := by
        rw [Option.eq_none_iff_forall_ne_some]
        intro base hbase
        obtain ⟨r, hr, -⟩ := hvalid.baselines i base hbase
        rw [habsent] at hr
        cases hr
      unfold baseline
      rw [hnone]
      exact UInt64.le_iff_toNat_le.mpr (Nat.zero_le _)
  · rcases hop.requests_some hfresh hc with hold | ⟨_, _, _, _, _, _, _, _, -, -, -, -, rfl⟩
    · exact h.dated.requests key c hold
    · rfl
  · rcases hop.deliveries_from hd' with ⟨d, hd, heq⟩ | ⟨-, _, _, _, _, _, _, -, -, rfl⟩
    · rw [heq]
      exact h.dated.deliveries i d hd
    · rfl
  · rcases hop.names hi with hold | rfl
    · obtain ⟨j, hj, rfl⟩ := h.named i hold
      exact ⟨j, by omega, rfl⟩
    · exact ⟨k, by omega, rfl⟩

theorem compact (hvalid : app.Valid P) (h : Lasting P n app) :
    Lasting P n app.compact ∧ app.compact.Valid P ∧ app.Shrinks app.compact := by
  have hcompacted := compacted hvalid h.once
  have hshrinks := hcompacted.shrinks
  refine ⟨⟨hcompacted.once, fun i r hr => hcompacted.rise i r hr (h.rise i r (hshrinks.records i r hr)),
    ⟨fun key c hc => h.dated.requests key c (hshrinks.requests key c hc),
      fun i d hd => h.dated.deliveries i d (hshrinks.deliveries i d hd)⟩, fun i hi => h.named i ?_⟩,
    hvalid.compact h.once h.rise, hshrinks⟩
  rcases hi with ⟨r, hr⟩ | ⟨g, hg⟩ | ⟨d, hd⟩
  · exact .inl ⟨r, hshrinks.records i r hr⟩
  · exact .inr (.inl ⟨g, hshrinks.grants i g hg⟩)
  · exact .inr (.inr ⟨d, hshrinks.deliveries i d hd⟩)

end Lasting

end Application

end Credman
