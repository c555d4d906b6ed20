import Credman.Pinned

/-! A private use that is called off before its handoff: what it leaves behind. -/
namespace Credman

open Library Library.Checked Application DurableVault

variable {P : Platform}

/-- An entry is what it was, or it is gone because it had lapsed. -/
inductive Forgot {V : Type} (lapsed : V → Prop) : Option V → Option V → Prop
  | kept (entry : Option V) : Forgot lapsed entry entry
  | lost {v : V} (h : lapsed v) : Forgot lapsed (some v) none

namespace Forgot

variable {V : Type} {lapsed lapsed' : V → Prop} {a b c : Option V}

theorem of_sub (hsub : ∀ v, b = some v → a = some v) (hlost : ∀ v, a = some v → b = none → lapsed v) :
    Forgot lapsed a b := by
  cases b with
  | some v =>
    rw [hsub v rfl]
    exact .kept _
  | none =>
    cases a with
    | none => exact .kept _
    | some v => exact .lost (hlost v rfl rfl)

theorem of_eq (h : b = a) : Forgot lapsed a b := by
  rw [h]
  exact .kept a

theorem mono (h : Forgot lapsed a b) (himp : ∀ v, a = some v → lapsed v → lapsed' v) :
    Forgot lapsed' a b := by
  cases h with
  | kept => exact .kept a
  | lost hlapsed => exact .lost (himp _ rfl hlapsed)

theorem trans (h : Forgot lapsed a b) (h' : Forgot lapsed b c) : Forgot lapsed a c := by
  cases h with
  | kept => exact h'
  | lost hlapsed =>
    cases h' with
    | kept => exact .lost hlapsed

/-- What is still there was there before. -/
theorem some_of (h : Forgot lapsed a b) {v : V} (hb : b = some v) : a = some v := by
  cases h with
  | kept => exact hb
  | lost => cases hb

end Forgot

theorem saturatingSub_le {a b c : Time} (h : a ≤ b) : a.saturatingSub c ≤ b.saturatingSub c := by
  unfold Time.saturatingSub
  have hsub : a - c ≤ b - c := Int.sub_le_sub_right h c
  exact max_le_max (le_refl _) (min_le_min hsub (le_refl _))

namespace Application

variable {app mid next : Application} {attempt record : Uuid}

/-- The clock has reached this time. -/
def Past (app : Application) (time : Time) : Prop := ∃ now, app.lastTime = some now ∧ time ≤ now

/-- Nothing but the clock has changed, apart from one record and one attempt, and what
compaction may forget by that clock. -/
structure Aged (attempt record : Uuid) (app next : Application) : Prop where
  clock : ∀ time, app.Past time → next.Past time
  tasks : ∀ id, Forgot (fun t => id ∈ app.revokedTasks ∨ next.Past t.expiresAt)
    (app.tasks.get? id) (next.tasks.get? id)
  revoked : ∀ id t, next.tasks.get? id = some t → (id ∈ next.revokedTasks ↔ id ∈ app.revokedTasks)
  records : ∀ id, id ≠ record → Forgot (fun r => r.deleted = true)
    (app.records.get? id) (next.records.get? id)
  grants : ∀ id, Forgot (fun g => g.revoked = true ∨ next.Past g.spec.expiresAt)
    (app.grants.get? id) (next.grants.get? id)
  requests : ∀ key, Forgot (fun c => stale c.storedAt next.lastTime = true)
    (app.requests.get? key) (next.requests.get? key)
  deliveries : ∀ id, id ≠ attempt →
    Forgot (fun d => d.status.isSome = true ∧ stale d.storedAt next.lastTime = true)
      (app.deliveries.get? id) (next.deliveries.get? id)
  audit : next.audit.Sublist app.audit

theorem stale_later {storedAt : Option Time} (hclock : ∀ time, app.Past time → next.Past time)
    (h : stale storedAt app.lastTime = true) : stale storedAt next.lastTime = true := by
  unfold stale at h ⊢
  cases storedAt with
  | none => exact h
  | some stored =>
    cases hlast : app.lastTime with
    | none => rw [hlast] at h; cases h
    | some now =>
      obtain ⟨later, hlater, hle⟩ := hclock now ⟨now, hlast, le_refl _⟩
      rw [hlast] at h
      rw [hlater]
      simp only [Option.any_some, decide_eq_true_eq] at h ⊢
      exact le_trans h (saturatingSub_le hle)

namespace Aged

theorem trans (h : Aged attempt record app mid) (h' : Aged attempt record mid next) :
    Aged attempt record app next where
  clock time ht := h'.clock time (h.clock time ht)
  tasks id := by
    refine .trans ((h.tasks id).mono fun t _ hover => hover.imp_right (h'.clock _))
      ((h'.tasks id).mono fun t ht hover => hover.imp_left fun hrevoked => ?_)
    exact (h.revoked id t ht).mp hrevoked
  revoked id t ht := (h'.revoked id t ht).trans (h.revoked id t ((h'.tasks id).some_of ht))
  records id hne := (h.records id hne).trans (h'.records id hne)
  grants id := .trans ((h.grants id).mono fun g _ hover => hover.imp_right (h'.clock _)) (h'.grants id)
  requests key := .trans ((h.requests key).mono fun c _ hover => stale_later h'.clock hover)
    (h'.requests key)
  deliveries id hne := .trans
    ((h.deliveries id hne).mono fun d _ hover => ⟨hover.1, stale_later h'.clock hover.2⟩)
    (h'.deliveries id hne)
  audit := h'.audit.trans h.audit

/-- Where nothing is forgotten at all. -/
theorem of_eq (hclock : ∀ time, app.Past time → next.Past time) (htasks : next.tasks = app.tasks)
    (hrevoked : next.revokedTasks = app.revokedTasks) (hgrants : next.grants = app.grants)
    (hrequests : next.requests = app.requests) (haudit : next.audit = app.audit)
    (hrecords : ∀ id, id ≠ record → next.records.get? id = app.records.get? id)
    (hdeliveries : ∀ id, id ≠ attempt → next.deliveries.get? id = app.deliveries.get? id) :
    Aged attempt record app next where
  clock := hclock
  tasks id := .of_eq (by rw [htasks])
  revoked id t _ := by rw [hrevoked]
  records id hne := .of_eq (hrecords id hne)
  grants id := .of_eq (by rw [hgrants])
  requests key := .of_eq (by rw [hrequests])
  deliveries id hne := .of_eq (hdeliveries id hne)
  audit := by rw [haudit]

theorem of_shrinks (h : app.Shrinks next) : Aged attempt record app next where
  clock time := by
    unfold Past
    rw [h.lastTime]
    exact id
  tasks id := .of_sub (h.tasks id) fun t ht hnone => by
    unfold Past
    rw [h.lastTime]
    exact (h.task_dropped id t ht hnone).1
  revoked := h.revoked
  records id _ := .of_sub (h.records id) fun r hr hnone => (h.record_dropped id r hr hnone).1
  grants id := .of_sub (h.grants id) fun g hg hnone => by
    unfold Past
    rw [h.lastTime]
    exact (h.grant_dropped id g hg hnone).1
  requests key := .of_sub (h.requests key) fun c hc hnone => by
    rw [h.lastTime]
    exact (h.request_dropped key c hc hnone).1
  deliveries id _ := .of_sub (h.deliveries id) fun d hd hnone => by
    rw [h.lastTime]
    obtain ⟨hsome, hstale, -⟩ := h.delivery_dropped id d hd hnone
    exact ⟨hsome, hstale⟩
  audit := h.audit

theorem of_clockOnly {now : Time} (h : app.ClockOnly now next) : Aged attempt record app next := by
  cases h with
  | frozen => exact .of_eq (fun _ => id) rfl rfl rfl rfl rfl (fun _ _ => rfl) fun _ _ => rfl
  | @ticked effective heff =>
    obtain ⟨hlast, -, hlater, -⟩ := lastTime_ticked heff
    refine .of_eq ?_ (by rw [ticked_tasks]) (by rw [ticked_revokedTasks]) (by rw [ticked_grants])
      (by rw [ticked_requests]) (by rw [ticked_audit]) (fun _ _ => by rw [ticked_records])
      fun _ _ => by rw [ticked_deliveries]
    intro time ⟨last, hold, hle⟩
    exact ⟨effective, hlast, le_trans hle (hlater last hold)⟩

end Aged

/-- The intent of a private use, once it is in the journal. -/
theorem Prepared.aged {ctx : AuthenticatedContext} {task : Uuid} {use : PrivateUse} {effective : Time}
    (h : Prepared P ctx task use attempt effective app next) : Aged attempt use.record app next
      ∧ ∃ r d, app.records.get? use.record = some r ∧ r.deleted = false
        ∧ next.records.get? use.record
          = some { r with signup := if use.action = .register then .submitted else r.signup }
        ∧ next.deliveries.get? attempt = some d ∧ d.status = none
        ∧ d.key = requestKey ctx task use.request := by
  obtain ⟨values, t, r, husable, rfl⟩ := h.usable
  have hr := husable.selected.record.found
  have hlive := husable.selected.record.live
  have hdeliveries : ∀ id, id ≠ attempt → (app.deliveries.insert attempt (newAttempt ctx task use
      (privateUseFingerprint P use) r.secretVersion effective)).get? id = app.deliveries.get? id :=
    fun _ hne => OrdMap.get?_insert_ne _ _ hne.symm
  unfold Application.prepared
  split_ifs with hregister
  · refine ⟨.of_eq (fun _ => id) rfl rfl rfl rfl rfl (fun id hne => ?_) hdeliveries, r, _, hr, hlive, ?_,
      OrdMap.get?_insert_self _ _ _, rfl, rfl⟩
    · exact OrdMap.get?_insert_ne _ _ hne.symm
    · exact OrdMap.get?_insert_self _ _ _
  · exact ⟨.of_eq (fun _ => id) rfl rfl rfl rfl rfl (fun _ _ => rfl) hdeliveries, r, _, hr, hlive, hr,
      OrdMap.get?_insert_self _ _ _, rfl, rfl⟩

/-- Its cancellation. -/
theorem Settled.aged {use : PrivateUse} {change : DeliveryAttempt → DeliveryAttempt}
    {signup : SignupState → SignupState} {r : Record} {d : DeliveryAttempt}
    (hr : app.records.get? use.record = some r) (hd : app.deliveries.get? attempt = some d)
    (h : Settled use attempt change signup app next) : Aged attempt use.record app next
      ∧ next.records.get? use.record = some { r with signup := signup r.signup }
      ∧ next.deliveries.get? attempt = some (change d) := by
  cases h with
  | missing hnone => exact absurd (hd.symm.trans hnone) nofun
  | orphan _ hnone => exact absurd (hr.symm.trans hnone) nofun
  | @done d' r' hd' hr' =>
    obtain rfl : d = d' := Option.some.inj (hd.symm.trans hd')
    obtain rfl : r = r' := Option.some.inj (hr.symm.trans hr')
    refine ⟨.of_eq (fun _ => id) rfl rfl rfl rfl rfl (fun id hne => ?_) (fun id hne => ?_), ?_, ?_⟩
    · exact OrdMap.get?_insert_ne _ _ hne.symm
    · exact OrdMap.get?_insert_ne _ _ hne.symm
    · exact OrdMap.get?_insert_self _ _ _
    · exact OrdMap.get?_insert_self _ _ _

/-- Compaction keeps live records and open attempts. -/
theorem Shrinks.record_kept (h : app.Shrinks next) {r : Record} (hr : app.records.get? record = some r)
    (hlive : r.deleted = false) : next.records.get? record = some r := by
  cases hnext : next.records.get? record with
  | none =>
    obtain ⟨hdeleted, -⟩ := h.record_dropped record r hr hnext
    rw [hlive] at hdeleted
    cases hdeleted
  | some s =>
    have hs := h.records record s hnext
    rw [hr, Option.some.injEq] at hs
    rw [hs]

theorem Shrinks.delivery_kept (h : app.Shrinks next) {d : DeliveryAttempt}
    (hd : app.deliveries.get? attempt = some d) (hopen : d.status = none) :
    next.deliveries.get? attempt = some d := by
  cases hnext : next.deliveries.get? attempt with
  | none =>
    obtain ⟨hsome, -⟩ := h.delivery_dropped attempt d hd hnext
    rw [hopen] at hsome
    cases hsome
  | some e =>
    have he := h.deliveries attempt e hnext
    rw [hd, Option.some.injEq] at he
    rw [he]

/-- All that a call has left is an attempt that was never dispatched, and is rejected. -/
structure CalledOff (attempt : Uuid) (key : RequestKey) (record : Uuid) (before after : Application) :
    Prop where
  aged : Aged attempt record before after
  record : Forgot (fun r => r.deleted = true) (before.records.get? record) (after.records.get? record)
  new : before.deliveries.get? attempt = none
  attempt : ∃ d, after.deliveries.get? attempt = some d ∧ d.key = key ∧ d.dispatched = false
    ∧ d.status = some .rejected

end Application

namespace DurableVault

variable {owner owner' : DurableVault} {candidate : Application} {n k : Nat}

/-- What a committed operation leaves in memory: its candidate, in some generation. -/
theorem Committed.kept {drawn : Nat} {d d' : Dir FileName} (hids : P.FreshIds) (hseals : P.Seals)
    (hvalid : owner.app.Valid P) (hlasting : Lasting P n owner.app) (hle : n ≤ k)
    (hop : Operated P (P.uuid k) owner.staged candidate)
    (h : Committed P owner candidate drawn d (owner', .ok ()) d') :
    owner'.app.Valid P ∧ Lasting P (k + 1) owner'.app
      ∧ ∃ g, owner'.app = { candidate with generation := g } := by
  obtain ⟨hstaged, hstagedLasting, hlast⟩ := staged_lasting hvalid hlasting
  have hcandidate := hstagedLasting.operated hids hstaged hle hop
  cases h with
  | memory hstage =>
    have hclock := stage_none hseals.toJson hvalid hlasting.dated hcandidate.dated
      (fun t ht => hop.lastTime t (hlast.trans ht)) hstage
    refine ⟨hclock.valid, ?_, _, hclock.same⟩
    exact (hlasting.later (by omega)).of_eq rfl rfl rfl rfl rfl
  | durable hstage hpublished =>
    obtain ⟨rfl, hnext⟩ := stage_some hstage
    exact ⟨hnext, hcandidate.of_eq rfl rfl rfl rfl rfl, _, rfl⟩

/-- A call of `use_secret` whose intent is published, whose final check fails, and whose
cancellation is published as well. -/
structure Withdrawal (P : Platform) (owner : DurableVault) (ctx : AuthenticatedContext) (task : Uuid)
    (request : PrivateUse) (preparedAt handoffAt : Time) (m : VaultMachine) (owner' : DurableVault)
    (e : Error) (m'' : VaultMachine) : Prop where
  course : ∃ journaled app m',
    owner.apply P (usePrepare P ctx task request (P.uuid m.rest.drawn) preparedAt) (numbered m)
        = .ok (journaled, .ok none) m'
      ∧ journaled.ready = .ok ()
      ∧ (useAuthorize ctx task request handoffAt).run journaled.app = .error e app
      ∧ ({ journaled with app } : DurableVault).apply P (useCancel request (P.uuid m.rest.drawn)) m'
        = .ok (owner', .ok ()) m''

variable {ctx : AuthenticatedContext} {task : Uuid} {request : PrivateUse} {preparedAt handoffAt : Time}
  {m m'' : VaultMachine} {e : Error}

/-- Such a call answers with the error of its final check. -/
theorem Withdrawal.answer (h : Withdrawal P owner ctx task request preparedAt handoffAt m owner' e m'')
    (deliver : SecretInput → Delivered) :
    owner.useSecret P ctx task request preparedAt handoffAt deliver m
      = .ok (owner', .result (.error e)) m'' := by
  obtain ⟨journaled, app, m', hprepare, hready, hcheck, hcancel⟩ := h.course
  rw [eq_ok_iff_wp]
  unfold useSecret
  rw [wp_bind, wp_drawIndex, wp_bind]
  have hprepare := eq_ok_iff_wp.mp hprepare
  refine wp_mono hprepare ?_ fun _ _ hfalse => hfalse.elim
  rintro _ _ ⟨rfl, rfl⟩
  simp only [hready, handOff, hcheck]
  rw [wp_bind]
  refine wp_mono (eq_ok_iff_wp.mp hcancel) ?_ fun _ _ hfalse => hfalse.elim
  rintro _ _ ⟨rfl, rfl⟩
  exact ⟨rfl, rfl⟩

/-- Once the intent is published, it is in the journal of the application it was made for. -/
theorem Committed.intended {journaled : DurableVault} {drawn : Nat} {d d' : Dir FileName}
    (hids : P.FreshIds) (hseals : P.Seals) (hvalid : owner.app.Valid P) (hlasting : Lasting P n owner.app)
    (hok : (owner.proposal (usePrepare P ctx task request (P.uuid n) preparedAt)).1 = .ok none)
    (h : Committed P owner (owner.proposal (usePrepare P ctx task request (P.uuid n) preparedAt)).2 drawn d
      (journaled, .ok ()) d') :
    journaled.app.Valid P ∧ Lasting P (n + 1) journaled.app
      ∧ Aged (P.uuid n) request.record owner.app journaled.app
      ∧ ∃ r attempt, owner.app.records.get? request.record = some r ∧ r.deleted = false
        ∧ journaled.app.records.get? request.record
          = some { r with signup := if request.action = .register then .submitted else r.signup }
        ∧ journaled.app.deliveries.get? (P.uuid n) = some attempt ∧ attempt.status = none
        ∧ attempt.key = requestKey ctx task request.request := by
  have hleaves : Leaves (usePrepare P ctx task request (P.uuid n) preparedAt) owner.staged
      (owner.proposal (usePrepare P ctx task request (P.uuid n) preparedAt)).2 := proposal_leaves _
  have hoperated := hleaves.of_wp (operates_usePrepare ctx task request preparedAt _)
  obtain ⟨hv, hl, g, happ⟩ := h.kept hids hseals hvalid hlasting (le_refl _) hoperated
  refine ⟨hv, hl, ?_⟩
  have hshrinks := staged_shrinks hvalid hlasting.once
  obtain ⟨effective, heff, ⟨-, hprepared⟩ | ⟨_, hnone, -, -⟩⟩ :=
    proposal_ok (wp_usePrepare P ctx task request (P.uuid n) preparedAt _) hok
  · obtain ⟨haged, r, attempt, hr, hlive, hr', hattempt, hopen, hkey⟩ := hprepared.aged
    rw [happ]
    refine ⟨?_, r, attempt, ?_, hlive, hr', hattempt, hopen, hkey⟩
    · exact (((Aged.of_shrinks hshrinks).trans (.of_clockOnly (.ticked heff))).trans haged).trans
        (.of_eq (fun _ => id) rfl rfl rfl rfl rfl (fun _ _ => rfl) fun _ _ => rfl)
    · rw [ticked_records] at hr
      exact hshrinks.records _ r hr
  · cases hnone

/-- Once its cancellation is published, it is closed. -/
theorem Committed.calledOff {drawn : Nat} {d d' : Dir FileName} {attempt : Uuid} {intent : DeliveryAttempt}
    {r : Record} (hids : P.FreshIds) (hseals : P.Seals) (hvalid : owner.app.Valid P)
    (hlasting : Lasting P n owner.app) (hr : owner.app.records.get? request.record = some r)
    (hlive : r.deleted = false) (hd : owner.app.deliveries.get? attempt = some intent)
    (hopen : intent.status = none)
    (hok : (owner.proposal (useCancel request attempt)).1 = .ok ())
    (h : Committed P owner (owner.proposal (useCancel request attempt)).2 drawn d (owner', .ok ()) d') :
    Aged attempt request.record owner.app owner'.app
      ∧ owner'.app.records.get? request.record
        = some { r with signup := signupWithdrawn request.action r.signup }
      ∧ owner'.app.deliveries.get? attempt = some (withdrawn intent) := by
  have hcancels : Operates P (P.uuid n) (useCancel request attempt) :=
    operates_useCancel request attempt
  have hleaves : Leaves (useCancel request attempt) owner.staged
      (owner.proposal (useCancel request attempt)).2 := proposal_leaves _
  have hoperated := hleaves.of_wp (hcancels _)
  obtain ⟨-, -, g, happ⟩ := h.kept hids hseals hvalid hlasting (le_refl _) hoperated
  have hshrinks := staged_shrinks hvalid hlasting.once
  obtain ⟨hsettled, -⟩ := proposal_ok (wp_useCancel request attempt _) hok
  obtain ⟨haged, hr', hd'⟩ := hsettled.aged (hshrinks.record_kept hr hlive)
    (hshrinks.delivery_kept hd hopen)
  rw [happ]
  refine ⟨?_, hr', hd'⟩
  exact ((Aged.of_shrinks hshrinks).trans haged).trans
    (.of_eq (fun _ => id) rfl rfl rfl rfl rfl (fun _ _ => rfl) fun _ _ => rfl)

/-- What such a call leaves of the record is what it was, but a registration's signup is pending. -/
theorem Withdrawal.leaves (hids : P.FreshIds) (hseals : P.Seals) (hvalid : owner.app.Valid P)
    (hlasting : Lasting P m.rest.drawn owner.app)
    (h : Withdrawal P owner ctx task request preparedAt handoffAt m owner' e m'') :
    Aged (P.uuid m.rest.drawn) request.record owner.app owner'.app
      ∧ (∃ r, owner.app.records.get? request.record = some r
        ∧ owner'.app.records.get? request.record
          = some { r with signup := signupWithdrawn request.action r.signup })
      ∧ ∃ d, owner'.app.deliveries.get? (P.uuid m.rest.drawn) = some d
        ∧ d.key = requestKey ctx task request.request ∧ d.dispatched = false
        ∧ d.status = some .rejected := by
  obtain ⟨journaled, app, m', hprepare, -, hcheck, hcancel⟩ := h.course
  obtain ⟨-, hok, hcommitted⟩ := (wp_ok (wp_applied P owner _ _) hprepare).ok
  obtain ⟨hvalid', hlasting', haged, r, intent, hr, hlive, hr', hd, hopen, hkey⟩ :=
    hcommitted.intended hids hseals hvalid hlasting hok
  -- the final check moves the clock at most
  have hclock : journaled.app.ClockOnly handoffAt app :=
    wp_error (e := e) (wp_useAuthorize ctx task request handoffAt journaled.app) hcheck
  have hlasting'' := hlasting'.operated hids hvalid' (le_refl _) (.clockOnly hclock)
  have hsame : app.records = journaled.app.records ∧ app.deliveries = journaled.app.deliveries := by
    cases hclock with
    | ticked => exact ⟨ticked_records _ _, ticked_deliveries _ _⟩
    | frozen => exact ⟨rfl, rfl⟩
  rw [← hsame.1] at hr'
  rw [← hsame.2] at hd
  obtain ⟨-, hok', hcommitted'⟩ := (wp_ok (wp_applied P { journaled with app } _ _) hcancel).ok
  obtain ⟨haged', hr'', hd'⟩ := hcommitted'.calledOff hids hseals (hvalid'.clockOnly hclock) hlasting''
    hr' (by exact hlive) hd hopen hok'
  refine ⟨(haged.trans (.of_clockOnly hclock)).trans haged', ⟨r, hr, ?_⟩, _, hd', hkey, rfl, rfl⟩
  rw [hr'']
  unfold signupWithdrawn
  split_ifs <;> rfl

/-- Whether a call goes that way, to an owner with this property. -/
def withdraws (P : Platform) (owner : DurableVault) (ctx : AuthenticatedContext) (task : Uuid)
    (request : PrivateUse) (preparedAt handoffAt : Time) (m : VaultMachine) (p : DurableVault → Bool) :
    Bool :=
  match owner.apply P (usePrepare P ctx task request (P.uuid m.rest.drawn) preparedAt) (numbered m) with
  | .ok (journaled, .ok none) m' =>
    match journaled.ready, (useAuthorize ctx task request handoffAt).run journaled.app with
    | .ok (), .error _ app =>
      returns (({ journaled with app } : DurableVault).apply P (useCancel request (P.uuid m.rest.drawn)))
        (fun out _ => match out.2 with
          | .ok () => p out.1
          | .error _ => false) m'
    | _, _ => false
  | _ => false

theorem exists_of_withdraws {p : DurableVault → Bool}
    (h : withdraws P owner ctx task request preparedAt handoffAt m p = true) : ∃ owner' e m'',
      Withdrawal P owner ctx task request preparedAt handoffAt m owner' e m'' ∧ p owner' = true := by
  unfold withdraws at h
  split at h
  · rename_i journaled m' hprepare
    split at h
    · rename_i e app hready hcheck
      obtain ⟨⟨owner', result⟩, m'', hcancel, hp⟩ := exists_of_returns h
      cases result with
      | error e' => cases hp
      | ok u => exact ⟨owner', e, m'', ⟨journaled, app, m', hprepare, hready, hcheck, hcancel⟩, hp⟩
    · cases h
  · cases h

end DurableVault

variable {fleet : Fleet} {i : Nat} {owner owner' : DurableVault} {faults : List Fault}
  {ctx : AuthenticatedContext} {task : Uuid} {request : PrivateUse} {preparedAt handoffAt : Time}
  {e : Error} {m'' : VaultMachine}

/-- In every vault that can be reached, a private use that is withdrawn leaves nothing but its own closed
attempt exactly when it is no registration, or one of a record whose signup was pending. -/
theorem withdrawal_calledOff_iff (hids : P.FreshIds) (hseals : P.Seals) (hreach : Fleet.Reachable P fleet)
    (howner : (fleet.stores i).owner = some owner)
    (h : Withdrawal P owner ctx task request preparedAt handoffAt
      { dir := (fleet.stores i).dir, faults, rest := fleet.session } owner' e m'') :
    CalledOff (P.uuid fleet.session.drawn) (requestKey ctx task request.request) request.record owner.app
        owner'.app ↔
      (request.action = .register → ∀ r, owner.app.records.get? request.record = some r →
        r.signup = .pending) := by
  obtain ⟨hsound, -⟩ := Faithful.runs hids hseals hreach
  have hkept := hsound.stores i
  have hvalid := hkept.valid owner howner
  have hlasting := hkept.lasting owner howner
  obtain ⟨haged, ⟨r, hr, hr'⟩, hattempt⟩ := h.leaves hids hseals hvalid hlasting
  constructor
  · intro hoff hregister s hs
    obtain rfl : r = s := Option.some.inj (hr.symm.trans hs)
    have hsame := hoff.record.some_of hr'
    rw [hr, Option.some.injEq, hregister] at hsame
    rw [hsame]
    rfl
  · intro hpending
    refine ⟨haged, .of_eq ?_, (hlasting.fresh hids (le_refl _)).delivery, hattempt⟩
    rw [hr', hr, Option.some.injEq]
    unfold signupWithdrawn
    split_ifs with hregister
    · rw [← hpending hregister r hr]
    · rfl

/-! Alice's login, reported as rejected; she then tries to register it, and her session ends
between the two samples of the clock. -/

def reportedVault : Fleet :=
  (importedVault.step .reference 0
    (.mutate (.fromAuthenticatedPeer "owner" "alice" "home") 1 6 (.reportOutcome 6 1 .rejected) 5) []).1

theorem reportedVault_reachable : Fleet.Reachable .reference reportedVault :=
  importedVault_reachable.step 0 _ []

def aliceSession : AuthenticatedContext := .fromAuthenticatedSession "owner" "alice" "home" 12

def lateRegister : PrivateUse where
  request := 7
  record := 6
  fields := {.username, .password}
  destination := "browser"
  action := .register

def reportedMachine : VaultMachine where
  dir := (reportedVault.stores 0).dir
  faults := []
  rest := reportedVault.session

/-- The report is lost, though nothing has left the vault. -/
theorem withdrawal_loses_report : ∃ owner owner' e m'',
    (reportedVault.stores 0).owner = some owner
      ∧ Withdrawal .reference owner aliceSession 1 lateRegister 9 13 reportedMachine owner' e m''
      ∧ ¬ CalledOff (Platform.reference.uuid reportedVault.session.drawn)
          (requestKey aliceSession 1 7) 6 owner.app owner'.app := by
  have hrun : ((reportedVault.stores 0).owner.any fun owner =>
      withdraws .reference owner aliceSession 1 lateRegister 9 13 reportedMachine fun owner' =>
        (owner.app.records.get? 6).any (·.signup == .rejected)
          && (owner'.app.records.get? 6).any (·.signup == .pending)) = true := by decide +kernel
  cases howner : (reportedVault.stores 0).owner with
  | none =>
    rw [howner] at hrun
    cases hrun
  | some owner =>
    rw [howner, Option.any_some] at hrun
    obtain ⟨owner', e, m'', hwithdrawal, hsignup⟩ := exists_of_withdraws hrun
    refine ⟨owner, owner', e, m'', rfl, hwithdrawal, fun hoff => ?_⟩
    rw [Bool.and_eq_true] at hsignup
    obtain ⟨hbefore, hafter⟩ := hsignup
    have hrecord := hoff.record
    cases hr' : owner'.app.records.get? 6 with
    | none =>
      rw [hr'] at hafter
      cases hafter
    | some r =>
      have hr := hrecord.some_of hr'
      rw [hr, Option.any_some, beq_iff_eq] at hbefore
      rw [hr', Option.any_some, beq_iff_eq, hbefore] at hafter
      cases hafter

theorem withdrawal_calledOff_iff_reportedVault : ∃ owner owner' e m'',
    (reportedVault.stores 0).owner = some owner
      ∧ Withdrawal .reference owner aliceSession 1 lateRegister 9 13 reportedMachine owner' e m''
      ∧ (CalledOff (Platform.reference.uuid reportedVault.session.drawn) (requestKey aliceSession 1 7) 6
          owner.app owner'.app ↔
        (lateRegister.action = .register → ∀ r, owner.app.records.get? 6 = some r → r.signup = .pending)) := by
  have hrun : ((reportedVault.stores 0).owner.any fun owner =>
      withdraws .reference owner aliceSession 1 lateRegister 9 13 reportedMachine fun _ => true)
        = true := by decide +kernel
  cases howner : (reportedVault.stores 0).owner with
  | none =>
    rw [howner] at hrun
    cases hrun
  | some owner =>
    rw [howner, Option.any_some] at hrun
    obtain ⟨owner', e, m'', hwithdrawal, -⟩ := exists_of_withdraws hrun
    exact ⟨owner, owner', e, m'', rfl, hwithdrawal, withdrawal_calledOff_iff Platform.reference_freshIds
      Platform.reference_seals reportedVault_reachable howner hwithdrawal⟩

end Credman
