import Credman.Cancellation
import Credman.Fixpoint
import Credman.Visibility

/-! The check of `mutate` on the number of receipts, and which receipts compaction has dropped
before it is made. -/
namespace Credman

open Library Library.Checked

variable {P : Platform}

namespace Application

variable {app next : Application} {ctx : AuthenticatedContext} {task request : Uuid} {op : Mutation}
  {now effective : Time}

/-- A new mutation that passes every check before the one on the number of receipts. -/
structure Admitted (P : Platform) (app : Application) (ctx : AuthenticatedContext) (task request : Uuid)
    (op : Mutation) (now effective : Time) : Prop where
  clock : app.effectiveTime now = .ok effective
  request_ne : request ≠ 0
  authority : ∃ t, app.task ctx task effective = .ok t ∧ app.authorize ctx t op effective false = .ok ()
  no_delivery : ∀ id d, app.deliveries.get? id = some d → d.key ≠ requestKey ctx task request
  fits : (P.mutationJson op).length ≤ 65536
  fresh : app.requests.get? (requestKey ctx task request) = none

theorem Targeted.authorize {t : TaskApproval} {retry : Bool} {id : Uuid} {r : Record}
    (h : app.Targeted ctx t op effective retry id r) (htarget : op.target = some id) :
    app.authorize ctx t op effective retry = .ok () := by
  have hlive : (r.deleted && !(retry && op.isDelete)) = false := by
    cases hdeleted : r.deleted with
    | false => rfl
    | true =>
      obtain ⟨hretry, hdelete⟩ := h.live hdeleted
      rw [hretry, hdelete]
      rfl
  have hroom : (!retry && r.revision == maxU64) = false := by
    cases hretry : retry with
    | true => rfl
    | false => simpa using h.room hretry
  have hexpected : ∀ expected, op.expected = some expected → (!retry && r.revision != expected) = false := by
    intro expected heq
    cases hretry : retry with
    | true => rfl
    | false =>
      have hsame := h.expected hretry
      rw [heq, Option.some.injEq] at hsame
      simp [hsame]
  have hscope : (r.owner != ctx.owner || r.workspace != ctx.workspace
      || (r.deleted && !(retry && op.isDelete))) = false := by
    rw [hlive, h.owner, h.workspace]
    simp
  have hfound := h.found
  have hallowed := h.allowed
  cases op with
  | create | generate => cases htarget
  | patch _ expected | delete _ expected | share _ expected | revoke _ expected
  | reportOutcome _ expected =>
    cases htarget
    simp only [Application.authorize, hfound, hscope, hallowed, hroom, hexpected expected rfl, if_false,
      Bool.false_eq_true]

/-- A first request passes what a retry has to pass. -/
theorem authorize_retry {t : TaskApproval} (h : app.authorize ctx t op effective false = .ok ()) :
    app.authorize ctx t op effective true = .ok () := by
  cases htarget : op.target with
  | none =>
    cases op with
    | create | generate => exact h
    | patch | delete | share | revoke | reportOutcome => cases htarget
  | some id =>
    obtain ⟨r, hr⟩ := authorize_target h htarget
    have hretry : app.Targeted ctx t op effective true id r :=
      { hr with
        live := fun hdeleted => absurd (hr.live hdeleted).1 Bool.false_ne_true
        expected := nofun
        room := nofun }
    exact hretry.authorize htarget

theorem authorize_ticked {t : TaskApproval} {retry : Bool} :
    (app.ticked now).authorize ctx t op effective retry = app.authorize ctx t op effective retry := by
  rw [ticked_eq]
  cases op <;> rfl

/-- With no room for one more receipt the mutation is refused, and only the clock moves. -/
theorem Admitted.refused (h : app.Admitted P ctx task request op now effective)
    (hfull : 10000 ≤ app.requests.size) (draw : Draw) :
    mutate P ctx task request op now draw app = .error .capacity (app.ticked now) := by
  obtain ⟨t, htask, hauth⟩ := h.authority
  have hretry := authorize_retry hauth
  have hticked : ∀ retry, (app.ticked now).authorize ctx t op effective retry
      = app.authorize ctx t op effective retry := fun _ => authorize_ticked
  rw [← hticked] at hauth hretry
  have hheld : (app.ticked now).task ctx task effective = .ok t := by
    rw [← htask]
    unfold Application.task
    rw [ticked_tasks, ticked_revokedTasks]
  have hnil : ¬ Uuid.isNil request = true := by simpa [Uuid.isNil] using h.request_ne
  have hdeliveries : ¬ ((app.ticked now).deliveries.any fun _ delivery =>
      delivery.key == { owner := ctx.owner, principal := ctx.principal, task, id := request }) = true := by
    rw [Bool.not_eq_true, OrdMap.any_false, ticked_deliveries]
    simpa [requestKey] using h.no_delivery
  have hfresh := h.fresh
  rw [requestKey, ← ticked_requests app now] at hfresh
  rw [← ticked_requests app now] at hfull
  have hwp : wp (mutate P ctx task request op now draw) (fun _ _ => False)
      (fun e next => e = .capacity ∧ next = app.ticked now) app := by
    simp only [mutate, wp_bind, wp_clock]
    refine ⟨fun effective' heff => ?_, fun e he => ?_⟩
    · rw [h.clock, Except.ok.injEq] at heff
      subst heff
      simp only [wp_failIf, wp_get, wp_bind, wp_liftExcept]
      refine ⟨fun hne => absurd hne hnil, fun _ => ⟨fun t' ht' => ⟨fun _ _ => ⟨fun hin => absurd hin hdeliveries,
        fun _ => ⟨fun hlong => absurd h.fits (not_le.mpr hlong), fun _ => ?_⟩⟩, fun e he => ?_⟩, fun e he => ?_⟩⟩
      · rw [hheld, Except.ok.injEq] at ht'
        subst ht'
        simp only [hfresh, wp_bind, wp_failIf, wp_liftExcept, wp_get, hauth]
        exact ⟨fun _ _ => ⟨fun _ => ⟨trivial, trivial⟩, fun hroom => absurd hfull hroom⟩, fun _ he => by cases he⟩
      · rw [hheld, Except.ok.injEq] at ht'
        rw [← ht', hretry] at he
        cases he
      · rw [hheld] at he
        cases he
    · rw [h.clock] at he
      cases he
  cases hrun : mutate P ctx task request op now draw app with
  | ok receipt next => exact (wp_ok hwp hrun).elim
  | error e next =>
    obtain ⟨rfl, rfl⟩ := wp_error hwp hrun
    rfl

/-! What compaction leaves of the receipts. -/

theorem foldl_requests {step : Application → Uuid → Application}
    (hstep : ∀ app id, (step app id).requests = app.requests) (ids : List Uuid) (app : Application) :
    (ids.foldl step app).requests = app.requests :=
  foldl_invariant (fun _ next => next.requests = app.requests) rfl
    fun _ id _ next _ hsame => (hstep next id).trans hsame

theorem foldl_grants {step : Application → Uuid → Application}
    (hstep : ∀ app id, (step app id).grants = app.grants) (ids : List Uuid) (app : Application) :
    (ids.foldl step app).grants = app.grants :=
  foldl_invariant (fun _ next => next.grants = app.grants) rfl
    fun _ id _ next _ hsame => (hstep next id).trans hsame

theorem foldl_deliveries {step : Application → Uuid → Application}
    (hstep : ∀ app id, (step app id).deliveries = app.deliveries) (ids : List Uuid) (app : Application) :
    (ids.foldl step app).deliveries = app.deliveries :=
  foldl_invariant (fun _ next => next.deliveries = app.deliveries) rfl
    fun _ id _ next _ hsame => (hstep next id).trans hsame

theorem dropGrant_requests (app : Application) (gid : Uuid) :
    (app.dropGrant gid).requests = app.requests ∧ (app.dropGrant gid).deliveries = app.deliveries := by
  rcases app.dropGrant_cases gid with ⟨heq, -⟩ | ⟨g, hdropped⟩
  · rw [heq]
    exact ⟨rfl, rfl⟩
  · rw [hdropped.result]
    exact ⟨rfl, rfl⟩

theorem dropDelivery_requests (app : Application) (id : Uuid) :
    (app.dropDelivery id).requests = app.requests ∧ (app.dropDelivery id).grants = app.grants := by
  unfold dropDelivery
  split
  · exact ⟨rfl, rfl⟩
  · split_ifs
    · exact ⟨rfl, rfl⟩
    · exact ⟨rfl, rfl⟩

theorem dropRecords_rest (app : Application) : app.dropRecords.requests = app.requests
    ∧ app.dropRecords.grants = app.grants ∧ app.dropRecords.deliveries = app.deliveries := by
  unfold dropRecords
  refine ⟨?_, ?_, ?_⟩
  · apply foldl_requests
    exact fun _ _ => rfl
  · apply foldl_grants
    exact fun _ _ => rfl
  · apply foldl_deliveries
    exact fun _ _ => rfl

/-- Each of the first three passes takes something of one kind, and the later ones nothing of these
kinds. -/
theorem compact_eq (app : Application) : ∃ folded granted delivered,
    folded = app.records.keys.foldl foldReceipts app ∧ granted = folded.grants.keys.foldl dropGrant folded
    ∧ delivered = granted.deliveries.keys.foldl dropDelivery granted
    ∧ app.compact.requests = folded.requests ∧ app.compact.grants = granted.grants
    ∧ app.compact.deliveries = delivered.deliveries := by
  refine ⟨_, _, _, rfl, rfl, rfl, ?_⟩
  unfold compact
  dsimp only
  generalize app.records.keys.foldl foldReceipts app = folded
  have hgranted := foldl_requests (fun app gid => (app.dropGrant_requests gid).1) folded.grants.keys folded
  generalize folded.grants.keys.foldl dropGrant folded = granted at hgranted ⊢
  have hdelivered := foldl_requests (fun app id => (app.dropDelivery_requests id).1) granted.deliveries.keys
    granted
  have hsame := foldl_grants (fun app id => (app.dropDelivery_requests id).2) granted.deliveries.keys granted
  generalize granted.deliveries.keys.foldl dropDelivery granted = delivered at hdelivered hsame ⊢
  obtain ⟨hrequests, hgrants, hdeliveries⟩ := delivered.dropRecords_rest
  change delivered.dropRecords.dropTasks.requests = _ ∧ delivered.dropRecords.dropTasks.grants = _
    ∧ delivered.dropRecords.dropTasks.deliveries = _
  rw [(tasksDropped delivered.dropRecords).result]
  exact ⟨hrequests.trans (hdelivered.trans hgranted), hgrants.trans hsame, hdeliveries⟩

/-- A receipt survives compaction unless its record's fold reaches it. -/
theorem compact_requests (h : app.Sound P) {key : RequestKey} {c : Remembered} :
    app.compact.requests.get? key = some c ↔
      app.requests.get? key = some c ∧ (key, c) ∉ app.foldable c.result.record := by
  obtain ⟨folded, granted, delivered, rfl, -, -, hrequests, -, -⟩ := compact_eq app
  rw [hrequests, (unloaded h).requests]
  refine and_congr_right fun hget => not_congr (and_iff_right ?_)
  obtain ⟨-, r, -, hr, -⟩ := h.receipts key c hget
  exact OrdMap.mem_keys.mpr ⟨r, hr⟩

/-- The receipt right above the baseline is outside the retry window at the vault's clock. -/
def Foldable (app : Application) : Prop :=
  ∃ key c, app.requests.get? key = some c
    ∧ c.result.revision.toNat = (app.through c.result.record).toNat + 1
    ∧ stale c.storedAt app.lastTime = true

theorem foldable_iff (h : app.Sound P) : app.Foldable ↔
    ∃ key c, app.requests.get? key = some c ∧ (key, c) ∈ app.foldable c.result.record := by
  constructor
  · rintro ⟨key, c, hget, hfirst, hstale⟩
    obtain ⟨-, r, -, hr, -⟩ := h.receipts key c hget
    have hconsecutive := (h.chained hr).consecutive
    have hmem : (key, c) ∈ app.chainOf c.result.record := mem_chainOf.mpr ⟨hget, rfl⟩
    refine ⟨key, c, hget, ?_⟩
    unfold foldable
    cases hchain : app.chainOf c.result.record with
    | nil =>
      rw [hchain] at hmem
      exact absurd hmem List.not_mem_nil
    | cons e rest =>
      rw [hchain] at hconsecutive
      have he := mem_chainOf.mp (hchain ▸ List.mem_cons_self : e ∈ app.chainOf c.result.record)
      -- two receipts with the same revision are one
      have hkey : e.1 = key := h.one_receipt e.1 e.2 key c he.1 hget he.2
        (UInt64.toNat_inj.mp ((consecutive_cons.mp hconsecutive).1.trans hfirst.symm))
      have hsame : e = (key, c) := by
        refine Prod.ext hkey (Option.some.inj ?_)
        rw [← he.1, hkey, hget]
      rw [hsame, List.takeWhile_cons, if_pos hstale]
      exact List.mem_cons_self
  · rintro ⟨key, c, hget, hmem⟩
    obtain ⟨-, r, -, hr, -⟩ := h.receipts key c hget
    have hconsecutive := (h.chained hr).consecutive
    unfold foldable at hmem
    cases hchain : app.chainOf c.result.record with
    | nil =>
      rw [hchain] at hmem
      exact absurd hmem List.not_mem_nil
    | cons e rest =>
      rw [hchain] at hconsecutive hmem
      have he := mem_chainOf.mp (hchain ▸ List.mem_cons_self : e ∈ app.chainOf c.result.record)
      have hstale : stale e.2.storedAt app.lastTime = true := by
        by_contra hyoung
        rw [List.takeWhile_cons, if_neg hyoung] at hmem
        exact absurd hmem List.not_mem_nil
      refine ⟨e.1, e.2, he.1, ?_, hstale⟩
      rw [he.2]
      exact (consecutive_cons.mp hconsecutive).1

theorem compact_requests_of_not (h : app.Sound P) (hnot : ¬ app.Foldable) :
    app.compact.requests = app.requests := by
  apply OrdMap.ext
  intro key
  apply Option.ext
  intro c
  rw [compact_requests h]
  exact and_iff_left_of_imp fun hget hmem => hnot ((foldable_iff h).mpr ⟨key, c, hget, hmem⟩)

/-- Compaction adds no delivery. -/
theorem compact_deliveries {i : Uuid} {d : DeliveryAttempt} (h : app.compact.deliveries.get? i = some d) :
    app.deliveries.get? i = some d := by
  obtain ⟨folded, granted, delivered, hfolded, hgranted, hdelivered, -, -, hdeliveries⟩ := compact_eq app
  have hfold : folded.deliveries = app.deliveries := by
    rw [hfolded]
    apply foldl_deliveries
    intro app id
    unfold foldReceipts
    dsimp only
    split_ifs
    · rfl
    · rfl
  have hgrant : granted.deliveries = folded.deliveries := by
    rw [hgranted]
    exact foldl_deliveries (fun app gid => (app.dropGrant_requests gid).2) _ _
  have hsub : delivered.deliveries.get? i = some d → granted.deliveries.get? i = some d := by
    rw [hdelivered]
    apply foldl_invariant fun _ (next : Application) =>
      next.deliveries.get? i = some d → granted.deliveries.get? i = some d
    · exact id
    · intro _ id _ next _ hnext hd
      apply hnext
      unfold dropDelivery at hd
      split at hd
      · exact hd
      · split_ifs at hd
        · exact hd
        · change (next.deliveries.erase id).get? i = some d at hd
          rw [OrdMap.get?_erase] at hd
          split_ifs at hd
          exact hd
  rw [hdeliveries] at h
  rw [← hfold, ← hgrant]
  exact hsub h

theorem cachedKind_ne_revoke (h : ∀ id expected gid, op ≠ .revoke id expected gid) :
    op.cachedKind ≠ .revoke := by
  cases op with
  | revoke id expected gid => exact absurd rfl (h id expected gid)
  | patch id expected values =>
    cases hchanges : values.changesCredential <;> simp [Mutation.cachedKind, hchanges]
  | _ =>
    intro h
    cases h

/-! The mutation on the staged copy. -/

section Staged

variable (hadmitted : app.Admitted P ctx task request op now effective)
include hadmitted

theorem Admitted.later : ∀ high, app.lastTime = some high → high ≤ effective :=
  (lastTime_ticked hadmitted.clock).2.2.1

/-- Compaction takes nothing an admitted mutation needs, unless that is the grant it revokes. -/
theorem Admitted.compacted (h : app.Sound P) (hnot : ¬ app.Foldable)
    (hkept : ∀ id expected gid, op = .revoke id expected gid → ∃ g, app.compact.grants.get? gid = some g) :
    app.compact.Admitted P ctx task request op now effective := by
  have hunseen := compact_unseen app
  obtain ⟨t, htask, hauth⟩ := hadmitted.authority
  refine ⟨(hunseen.effectiveTime_eq now).trans hadmitted.clock, hadmitted.request_ne, ⟨t, ?_, ?_⟩, ?_,
    hadmitted.fits, ?_⟩
  · rw [hunseen.task_eq hadmitted.later]
    exact htask
  · cases hop : op with
    | revoke id expected gid =>
      obtain ⟨r, hr⟩ := authorize_target (hop ▸ hauth) rfl
      obtain ⟨g, hg⟩ := hkept id expected gid hop
      have hold := hunseen.grants gid g hg
      have hlive : r.deleted = false := by
        cases hdeleted : r.deleted with
        | false => rfl
        | true => exact absurd (hr.live hdeleted).1 Bool.false_ne_true
      have hfound : app.compact.records.get? id = some r := by
        cases hnext : app.compact.records.get? id with
        | some s => rw [← hr.found, hunseen.records id s hnext]
        | none =>
          have hdeleted := hunseen.record_dropped id r hr.found hnext
          rw [hlive] at hdeleted
          cases hdeleted
      have hagain : app.compact.authorizeTarget ctx t (.revoke id expected gid) id r effective = .ok () := by
        have hallowed := hr.allowed
        simp only [authorizeTarget, hold, hg, hunseen.can_eq hadmitted.later] at hallowed ⊢
        exact hallowed
      exact Targeted.authorize { hr with found := hfound, allowed := hagain } rfl
    | _ =>
      have hother : ∀ id expected gid, op ≠ .revoke id expected gid := by
        rw [hop]
        intro _ _ _ h
        cases h
      rw [← hop, hunseen.authorize_eq hadmitted.later (cachedKind_ne_revoke hother)]
      exact hauth
  · exact fun i d hd => hadmitted.no_delivery i d (compact_deliveries hd)
  · rw [compact_requests_of_not h hnot]
    exact hadmitted.fresh

end Staged

/-- The mutation gets as far as the check of the number of receipts, and fails it. -/
structure RefusedForReceipts (P : Platform) (app : Application) (ctx : AuthenticatedContext)
    (task request : Uuid) (op : Mutation) (now : Time) : Prop where
  admitted : ∃ effective, app.Admitted P ctx task request op now effective
  full : 10000 ≤ app.requests.size

theorem RefusedForReceipts.mutate {app : Application}
    (h : app.RefusedForReceipts P ctx task request op now) (draw : Draw) :
    Application.mutate P ctx task request op now draw app = .error .capacity (app.ticked now) := by
  obtain ⟨effective', hadmitted⟩ := h.admitted
  exact hadmitted.refused h.full draw

end Application

end Credman
