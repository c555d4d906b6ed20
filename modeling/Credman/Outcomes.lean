import Credman.Settlement
import Credman.Broker

/-! An application whose deliveries have moved on: which signups may follow, for
what is published to stay valid. -/
namespace Credman

open Library Library.Checked

variable {P : Platform}

/-- An event of before the log had times and principals. -/
def AuditEvent.Legacy (event : AuditEvent) : Prop := event.loggedAt = 0 ∧ event.principal = ""

theorem RecordSound.relabel {id : Uuid} {r : Record} {t : TaskApproval} (h : RecordSound id r t)
    (signup : SignupState) (restored : Bool) : RecordSound id { r with signup, restored } t :=
  { h with }

theorem GrantSound.relabel {id : Uuid} {g g' : Grant} {r : Record} {t : TaskApproval}
    (h : GrantSound id g r t) (hfollows : g.Follows g') (signup : SignupState) (restored : Bool) :
    GrantSound id g' { r with signup, restored } t := by
  obtain ⟨hsame, hrevoked⟩ := hfollows
  generalize g'.revoked = revoked at hsame hrevoked
  subst hsame
  exact { h with dead := fun hdeleted => hrevoked (h.dead hdeleted) }

namespace Application

variable {app next : Application}

/-- What validation requires of the deliveries, against the rest of the application. -/
structure JournalSound (P : Platform) (app : Application) (journal : OrdMap Uuid DeliveryAttempt) :
    Prop where
  size : journal.size ≤ limit
  sound : ∀ id d, journal.get? id = some d → ∃ t r,
    app.tasks.get? d.task = some t ∧ app.records.get? d.record = some r ∧ DeliverySound P id d t r
  no_receipt : ∀ id d, journal.get? id = some d → app.requests.get? d.key = none
  one_delivery : ∀ i d j e, journal.get? i = some d → journal.get? j = some e → d.key = e.key → i = j
  one_register : ∀ i d j e, journal.get? i = some d → journal.get? j = some e →
    registers d = true → registers e = true → d.record = e.record → i = j

theorem Valid.journal (h : app.Valid P) : app.JournalSound P app.deliveries :=
  ⟨h.sizes.deliveries, h.deliveries, h.no_receipt, h.one_delivery, h.one_register⟩

/-- The application after deliveries and signups have changed, and authority may have gone. -/
structure MovedOn (app next : Application) : Prop where
  result : next = { app with
    generation := next.generation, clockFrozen := next.clockFrozen, lastTime := next.lastTime
    predecessor := next.predecessor, revokedTasks := next.revokedTasks, records := next.records
    grants := next.grants, deliveries := next.deliveries }
  revoked : ∀ id ∈ next.revokedTasks, ∃ t, app.tasks.get? id = some t
  record : ∀ i r', next.records.get? i = some r' → ∃ r signup restored,
    app.records.get? i = some r ∧ r' = { r with signup, restored }
  records : ∀ i r, app.records.get? i = some r → ∃ signup restored,
    next.records.get? i = some { r with signup, restored }
  grant : ∀ i g', next.grants.get? i = some g' → ∃ g, app.grants.get? i = some g ∧ g.Follows g'
  grants : ∀ i g, app.grants.get? i = some g → ∃ g', next.grants.get? i = some g' ∧ g.Follows g'

namespace MovedOn

theorem sizes (h : app.MovedOn next) (hsizes : app.SizesSound)
    (hdeliveries : next.deliveries.size ≤ limit) : next.SizesSound := by
  have hrecords : next.records.size ≤ limit := by
    refine le_trans (OrdMap.size_le_of_keys fun i r' hr' => ?_) hsizes.records
    obtain ⟨r, signup, restored, hr, -⟩ := h.record i r' hr'
    exact ⟨r, hr⟩
  have hgrants : next.grants.size ≤ limit := by
    refine le_trans (OrdMap.size_le_of_keys fun i g' hg' => ?_) hsizes.grants
    obtain ⟨g, hg, -⟩ := h.grant i g' hg'
    exact ⟨g, hg⟩
  have hrevoked : next.revokedTasks.card ≤ limit := by
    refine le_trans (Finset.card_le_card fun id hid => ?_) (OrdMap.size_eq_card app.tasks ▸ hsizes.tasks)
    exact OrdMap.mem_keySet.mpr (h.revoked id hid)
  rw [h.result]
  exact { hsizes with
    records := hrecords, grants := hgrants, revokedTasks := hrevoked, deliveries := hdeliveries }

theorem sound (h : app.MovedOn next) (hsound : app.Sound P) (hgeneration : 0 < next.generation)
    (hclock : next.clockFrozen = true → next.lastTime.isSome = true)
    (hjournal : app.JournalSound P next.deliveries)
    (hsealed : ∀ i r', next.records.get? i = some r' → (app.baseline i).verifiedLogin = true →
      r'.signup = .verifiedLogin)
    (hverified : ∀ i r', next.records.get? i = some r' → r'.signup = .verifiedLogin →
      (app.baseline i).verifiedLogin = true
        ∨ ∃ j d, next.deliveries.get? j = some d ∧ evidence r' i d = true) : next.Sound P where
  generation := hgeneration
  clock := hclock
  tasks := by rw [h.result]; exact hsound.tasks
  one_owner := by rw [h.result]; exact hsound.one_owner
  revoked := by
    intro id hid
    rw [h.result]
    exact h.revoked id hid
  records := by
    intro i r' hr'
    obtain ⟨r, signup, restored, hr, rfl⟩ := h.record i r' hr'
    obtain ⟨t, ht, hs⟩ := hsound.records i r hr
    exact ⟨t, by rw [h.result]; exact ht, hs.relabel signup restored⟩
  grants := by
    intro i g' hg'
    obtain ⟨g, hg, hfollows⟩ := h.grant i g' hg'
    obtain ⟨r, t, hr, ht, hs⟩ := hsound.grants i g hg
    obtain ⟨signup, restored, hr'⟩ := h.records _ r hr
    refine ⟨_, t, ?_, ?_, hs.relabel hfollows signup restored⟩
    · rw [hfollows.1]
      exact hr'
    · rw [hfollows.1, h.result]
      exact ht
  receipts := by
    intro key c hc
    rw [h.result] at hc
    obtain ⟨t, r, ht, hr, hreceipt, hkind⟩ := hsound.receipts key c hc
    obtain ⟨signup, restored, hr'⟩ := h.records _ r hr
    refine ⟨t, _, by rw [h.result]; exact ht, hr', ?_, ?_⟩
    · rw [h.result]
      exact { hreceipt with }
    · exact KindSound.follows hkind h.grants rfl rfl id
  one_receipt := by rw [h.result]; exact hsound.one_receipt
  one_share := by rw [h.result]; exact hsound.one_share
  baselines := by
    intro i base hb
    have hb' : app.baselines.get? i = some base := by
      rw [h.result] at hb
      exact hb
    obtain ⟨r, hr, hs⟩ := hsound.baselines i base hb'
    obtain ⟨signup, restored, hr'⟩ := h.records i r hr
    refine ⟨_, hr', { hs with verified := fun hflag => hsealed i _ hr' ?_ }⟩
    exact baseline_verifiedLogin.mpr ⟨base, hb', hflag⟩
  pruned := by
    intro i base gid hb hgid
    rw [h.result] at hb
    obtain ⟨⟨g, hg, hrecord⟩, hnone⟩ := hsound.pruned i base gid hb hgid
    obtain ⟨g', hg', hfollows⟩ := h.grants gid g hg
    refine ⟨⟨g', hg', by rw [hfollows.1]; exact hrecord⟩, ?_⟩
    rw [h.result]
    exact hnone
  chain := by
    intro i r' hr'
    obtain ⟨r, signup, restored, hr, rfl⟩ := h.record i r' hr'
    obtain ⟨hcovered, hcreated, hdeleted, honce⟩ := hsound.chain i r hr
    rw [h.result]
    exact ⟨hcovered, hcreated, hdeleted, honce⟩
  accounted := by
    intro gid g' hg'
    obtain ⟨g, hg, -⟩ := h.grant gid g' hg'
    rw [h.result]
    exact hsound.accounted gid g hg
  deliveries := by
    intro i d hd
    obtain ⟨t, r, ht, hr, hs⟩ := hjournal.sound i d hd
    obtain ⟨signup, restored, hr'⟩ := h.records _ r hr
    exact ⟨t, _, by rw [h.result]; exact ht, hr', { hs with }⟩
  no_receipt := by
    intro i d hd
    rw [h.result]
    exact hjournal.no_receipt i d hd
  one_delivery := hjournal.one_delivery
  one_register := hjournal.one_register
  verified := by
    intro i r' hr' hsignup
    rcases hverified i r' hr' hsignup with hflag | hevidence
    · obtain ⟨base, hb, hflag⟩ := baseline_verifiedLogin.mp hflag
      exact .inl ⟨base, by rw [h.result]; exact hb, hflag⟩
    · exact .inr hevidence

/-- What is left to check once the deliveries are in order: the log against the clock, and the
signups against the logins that baselines and deliveries show. -/
theorem valid_iff (h : app.MovedOn next) (hvalid : app.Valid P) (hgeneration : 0 < next.generation)
    (hclock : next.clockFrozen = true → next.lastTime.isSome = true)
    (hjournal : app.JournalSound P next.deliveries) : next.Valid P ↔
      (∀ event ∈ app.audit, ¬ event.Legacy → ∃ last, next.lastTime = some last ∧ event.loggedAt ≤ last)
      ∧ (∀ i r', next.records.get? i = some r' → (app.baseline i).verifiedLogin = true →
        r'.signup = .verifiedLogin)
      ∧ ∀ i r', next.records.get? i = some r' → r'.signup = .verifiedLogin →
        (app.baseline i).verifiedLogin = true
          ∨ ∃ j d, next.deliveries.get? j = some d ∧ evidence r' i d = true := by
  have haudit : next.audit = app.audit := by rw [h.result]
  have hbaselines : next.baselines = app.baselines := by rw [h.result]
  constructor
  · intro hnext
    refine ⟨fun event hevent hnew => ?_, fun i r' hr' hflag => ?_, fun i r' hr' hsignup => ?_⟩
    · rw [← haudit] at hevent
      obtain ⟨t, r, -, -, hsound⟩ := hnext.audit event hevent
      obtain ⟨-, last, hlast, -, hle⟩ := hsound.logged hnew
      exact ⟨last, hlast, hle⟩
    · obtain ⟨base, hb, hflag⟩ := baseline_verifiedLogin.mp hflag
      rw [← hbaselines] at hb
      obtain ⟨r, hr, hs⟩ := hnext.baselines i base hb
      rw [hr', Option.some.injEq] at hr
      rw [hr]
      exact hs.verified hflag
    · rcases hnext.verified i r' hr' hsignup with ⟨base, hb, hflag⟩ | hevidence
      · rw [hbaselines] at hb
        exact .inl (baseline_verifiedLogin.mpr ⟨base, hb, hflag⟩)
      · exact .inr hevidence
  · intro ⟨hlogged, hsealed, hverified⟩
    refine { h.sound hvalid.toSound hgeneration hclock hjournal hsealed hverified with
      sizes := h.sizes hvalid.sizes hjournal.size, versions := ?_, audit := ?_ }
    · intro i r' hr'
      obtain ⟨r, signup, restored, hr, rfl⟩ := h.record i r' hr'
      rw [h.result]
      exact hvalid.versions i r hr
    · intro event hevent
      rw [haudit] at hevent
      obtain ⟨t, r, ht, hr, hs⟩ := hvalid.audit event hevent
      obtain ⟨signup, restored, hr'⟩ := h.records _ r hr
      refine ⟨t, _, by rw [h.result]; exact ht, hr', hs.scope, fun hnew => ?_, ?_⟩
      · obtain ⟨hprincipal, -, -, hpos, -⟩ := hs.logged hnew
        obtain ⟨last, hlast, hle⟩ := hlogged event hevent hnew
        exact ⟨hprincipal, last, hlast, hpos, hle⟩
      · rw [h.result]
        exact hs.receipt

end MovedOn

/-- Deliveries of which the outcome alone has changed. -/
theorem JournalSound.outcomes {journal journal' : OrdMap Uuid DeliveryAttempt}
    (h : app.JournalSound P journal)
    (hold : ∀ i d', journal'.get? i = some d' → ∃ d, journal.get? i = some d
      ∧ d' = { d with status := d'.status, dispatched := d'.dispatched }
      ∧ (d'.dispatched = true → d.dispatched = true)
      ∧ (d'.dispatched = true ∨ d'.status = some .rejected)) : app.JournalSound P journal' := by
  have hregisters : ∀ {d d' : DeliveryAttempt},
      d' = { d with status := d'.status, dispatched := d'.dispatched } →
      (d'.dispatched = true → d.dispatched = true) → registers d' = true → registers d = true := by
    intro d d' hsame hdispatched hd'
    unfold registers at hd' ⊢
    rw [Bool.and_eq_true] at hd' ⊢
    refine ⟨?_, hdispatched hd'.2⟩
    rw [hsame] at hd'
    exact hd'.1
  refine ⟨?_, fun i d' hd' => ?_, fun i d' hd' => ?_, fun i d' j e' hd' he' hkey => ?_,
    fun i d' j e' hd' he' hreg hreg' hrecord => ?_⟩
  · refine le_trans (OrdMap.size_le_of_keys fun i d' hd' => ?_) h.size
    obtain ⟨d, hd, -⟩ := hold i d' hd'
    exact ⟨d, hd⟩
  · obtain ⟨d, hd, hsame, -, hjournaled⟩ := hold i d' hd'
    obtain ⟨t, r, ht, hr, hs⟩ := h.sound i d hd
    generalize d'.status = status at hsame hjournaled
    generalize d'.dispatched = dispatched at hsame hjournaled
    subst hsame
    exact ⟨t, r, ht, hr, { hs with journaled := hjournaled }⟩
  · obtain ⟨d, hd, hsame, -⟩ := hold i d' hd'
    rw [hsame]
    exact h.no_receipt i d hd
  · obtain ⟨d, hd, hsame, -⟩ := hold i d' hd'
    obtain ⟨e, he, hsame', -⟩ := hold j e' he'
    rw [hsame, hsame'] at hkey
    exact h.one_delivery i d j e hd he hkey
  · obtain ⟨d, hd, hsame, hdispatched, -⟩ := hold i d' hd'
    obtain ⟨e, he, hsame', hdispatched', -⟩ := hold j e' he'
    have hreg := hregisters hsame hdispatched hreg
    have hreg' := hregisters hsame' hdispatched' hreg'
    rw [hsame, hsame'] at hrecord
    exact h.one_register i d j e hd he hreg hreg' hrecord

/-! Recovery and restoration. -/

/-- No login that only a baseline shows stands on a record whose last attempt is open. -/
def Settleable (app : Application) : Prop :=
  ∀ i d, app.deliveries.get? i = some d → d.status = none → d.action ≠ .use →
    (app.baseline d.record).verifiedLogin = false

theorem awaits_iff {i : Uuid} {d : DeliveryAttempt} :
    awaits i d = true ↔ d.status = none ∧ d.action ≠ .use ∧ d.record = i := by
  simp [awaits, and_assoc]

theorem nextGeneration_eq_some {generation generation' : UInt64} :
    nextGeneration generation = some generation' ↔ generation ≠ maxU64 ∧ generation' = generation + 1 := by
  unfold nextGeneration
  split_ifs with hmax
  · simp [hmax]
  · simp [hmax, eq_comm]

theorem succ_pos {generation : UInt64} (h : generation ≠ maxU64) : 0 < generation + 1 := by
  rw [UInt64.lt_iff_toNat_lt, toNat_succ h]
  exact Nat.succ_pos _

namespace Closed

variable {copy : Bool}

theorem movedOn (h : Closed copy app next) (hvalid : app.Valid P) : app.MovedOn next where
  result := by rw [← h.tasks, ← h.requests, ← h.baselines, ← h.audit]
  revoked := by
    intro id hid
    rw [h.revoked, Finset.mem_union] at hid
    rcases hid with hid | hid
    · exact hvalid.revoked id hid
    · exact OrdMap.mem_keySet.mp hid
  record i r' hr' := by
    obtain ⟨r, hr, heq⟩ := h.record hr'
    exact ⟨r, _, _, hr, heq⟩
  records i r hr := by
    have hr' := h.records i
    rw [hr, Option.map_some] at hr'
    unfold unsettled at hr'
    split_ifs at hr'
    · exact ⟨_, _, hr'⟩
    · exact ⟨_, _, hr'⟩
  grant i g' hg' := by
    obtain ⟨g, hg, rfl⟩ := h.grant hg'
    exact ⟨g, hg, g.follows_revoked⟩
  grants i g hg := by
    have hg' := h.grants i
    rw [hg, Option.map_some] at hg'
    exact ⟨_, hg', g.follows_revoked⟩

theorem journal (h : Closed copy app next) (hvalid : app.Valid P) :
    app.JournalSound P next.deliveries := by
  refine hvalid.journal.outcomes fun i d' hd' => ?_
  obtain ⟨d, hd, rfl⟩ := h.delivery hd'
  obtain ⟨_, _, -, -, hs⟩ := hvalid.deliveries i d hd
  refine ⟨d, hd, ?_⟩
  unfold closed
  split_ifs with hsome
  · exact ⟨rfl, id, hs.journaled⟩
  · refine ⟨rfl, id, hs.journaled.imp_right fun hrejected => ?_⟩
    rw [hrejected] at hsome
    exact absurd rfl hsome

/-- A signup is lost exactly where an open registration or login is settled. -/
theorem signup_iff (h : Closed copy app next) (hvalid : app.Valid P) :
    (∀ i r', next.records.get? i = some r' → (app.baseline i).verifiedLogin = true →
      r'.signup = .verifiedLogin) ↔ app.Settleable := by
  constructor
  · intro hsealed j d hd hopen haction
    rw [← Bool.not_eq_true]
    intro hflag
    obtain ⟨-, r, -, hr, -⟩ := hvalid.deliveries j d hd
    have hawaits : (app.deliveries.any fun _ e => awaits d.record e) = true :=
      OrdMap.any_iff.mpr ⟨j, d, hd, awaits_iff.mpr ⟨hopen, haction, rfl⟩⟩
    have hr' := h.records d.record
    rw [hr, Option.map_some, hawaits] at hr'
    cases hsealed _ _ hr' hflag
  · intro hsettle i r' hr' hflag
    obtain ⟨base, hb, hverified⟩ := baseline_verifiedLogin.mp hflag
    obtain ⟨r, hr, hs⟩ := hvalid.baselines i base hb
    have hawaits : (app.deliveries.any fun _ e => awaits i e) = false := by
      rw [← Bool.not_eq_true, OrdMap.any_iff]
      rintro ⟨j, d, hd, hwaits⟩
      obtain ⟨hopen, haction, rfl⟩ := awaits_iff.mp hwaits
      rw [hsettle j d hd hopen haction] at hflag
      cases hflag
    rw [h.records i, hr, Option.map_some, hawaits, Option.some.injEq] at hr'
    rw [← hr']
    exact hs.verified hverified

/-- What stays verified has kept its evidence. -/
theorem evidenced (h : Closed copy app next) (hvalid : app.Valid P) (i : Uuid) (r' : Record)
    (hr' : next.records.get? i = some r') (hsignup : r'.signup = .verifiedLogin) :
    (app.baseline i).verifiedLogin = true
      ∨ ∃ j d, next.deliveries.get? j = some d ∧ evidence r' i d = true := by
  have hkept := h.records i
  obtain ⟨r, hr, -⟩ := h.record hr'
  rw [hr', hr, Option.map_some, Option.some.injEq] at hkept
  have hbefore : r.signup = .verifiedLogin ∧ r'.secretVersion = r.secretVersion := by
    generalize (app.deliveries.any fun _ d => awaits i d) = open' at hkept
    subst hkept
    cases open' with
    | true => cases hsignup
    | false => exact ⟨hsignup, rfl⟩
  rcases hvalid.verified i r hr hbefore.1 with hbase | ⟨j, d, hd, hevidence⟩
  · exact .inl (baseline_verifiedLogin.mpr hbase)
  · have hstatus : d.status = some .accepted := by
      simp only [evidence, Bool.and_eq_true, beq_iff_eq] at hevidence
      exact hevidence.2
    refine .inr ⟨j, d, ?_, ?_⟩
    · rw [h.deliveries j, hd, Option.map_some, closed, if_pos (by rw [hstatus]; rfl)]
    · unfold evidence at hevidence ⊢
      rw [hbefore.2]
      exact hevidence

/-- When the closed application may be published: what was logged is not later than its clock,
and no login that only a baseline shows is lost. -/
theorem valid_iff (h : Closed copy app next) (hvalid : app.Valid P)
    (hclock : next.clockFrozen = true → next.lastTime.isSome = true) : next.Valid P ↔
      (∀ event ∈ app.audit, ¬ event.Legacy → ∃ last, next.lastTime = some last ∧ event.loggedAt ≤ last)
      ∧ app.Settleable := by
  have hgeneration : 0 < next.generation := by
    obtain ⟨hmax, hnext⟩ := nextGeneration_eq_some.mp h.generation
    rw [hnext]
    exact succ_pos hmax
  rw [(h.movedOn hvalid).valid_iff hvalid hgeneration hclock (h.journal hvalid), h.signup_iff hvalid]
  constructor
  · exact fun ⟨hlogged, hsettle, _⟩ => ⟨hlogged, hsettle⟩
  · exact fun ⟨hlogged, hsettle⟩ => ⟨hlogged, hsettle, h.evidenced hvalid⟩

end Closed

/-- Settling fails only on an attempt without its record. -/
theorem settle_total {e : Error} {l : List (Uuid × DeliveryAttempt)}
    (hrecords : ∀ entry ∈ l, ∃ r, app.records.get? entry.2.record = some r) :
    ∃ settled, l.foldlM (settle e) app = .ok settled := by
  induction l generalizing app with
  | nil => exact ⟨app, rfl⟩
  | cons entry rest ih =>
    obtain ⟨id, d⟩ := entry
    obtain ⟨r, hr⟩ := hrecords (id, d) List.mem_cons_self
    have hstep : ∃ mid, settle e app (id, d) = .ok mid
        ∧ ∀ i s, app.records.get? i = some s → ∃ s', mid.records.get? i = some s' := by
      unfold settle
      dsimp only at hr ⊢
      rw [hr]
      split_ifs
      · exact ⟨_, rfl, fun _ s hs => ⟨s, hs⟩⟩
      · exact ⟨_, rfl, fun _ s hs => ⟨s, hs⟩⟩
      · refine ⟨_, rfl, fun i s hs => ?_⟩
        dsimp only
        rw [OrdMap.get?_insert]
        split_ifs
        · exact ⟨_, rfl⟩
        · exact ⟨s, hs⟩
    obtain ⟨mid, hmid, hkept⟩ := hstep
    rw [List.foldlM_cons, hmid]
    refine ih fun entry hentry => ?_
    obtain ⟨s, hs⟩ := hrecords entry (List.mem_cons_of_mem _ hentry)
    exact hkept _ s hs

/-- Every attempt of a valid application can be settled. -/
theorem stripped_settles (hvalid : app.Valid P) (copy : Bool) (e : Error) (generation : UInt64) :
    ∃ settled, (stripped copy generation app).deliveries.entries.foldlM (settle e)
      (stripped copy generation app) = .ok settled := by
  refine settle_total fun entry hentry => ?_
  have hd : app.deliveries.get? entry.1 = some entry.2 := OrdMap.mem_entries.mp hentry
  obtain ⟨-, r, -, hr, -⟩ := hvalid.deliveries _ _ hd
  refine ⟨{ r with restored := r.restored || copy }, ?_⟩
  change (app.records.mapVals _).get? _ = _
  rw [OrdMap.get?_mapVals, hr]
  rfl

/-- When recovery at a moment succeeds. -/
theorem sanitize_iff (hvalid : app.Valid P) {now : Time} : (∃ next, app.sanitize P now = .ok next) ↔
    app.generation ≠ maxU64 ∧ (∀ event ∈ app.audit, ¬ event.Legacy → event.loggedAt ≤ now)
      ∧ app.Settleable := by
  constructor
  · intro ⟨next, hnext⟩
    obtain ⟨hclosed, hfrozen, hlast, hv⟩ := sanitize_eq_ok hnext
    have hclock : next.clockFrozen = true → next.lastTime.isSome = true := fun _ => by rw [hlast]; rfl
    obtain ⟨hlogged, hsettle⟩ := (hclosed.valid_iff hvalid hclock).mp hv
    refine ⟨(nextGeneration_eq_some.mp hclosed.generation).1, fun event hevent hnew => ?_, hsettle⟩
    obtain ⟨last, hlast', hle⟩ := hlogged event hevent hnew
    rw [hlast, Option.some.injEq] at hlast'
    exact hlast' ▸ hle
  · intro ⟨hmax, hlogged, hsettle⟩
    have hgeneration := nextGeneration_eq_some.mpr ⟨hmax, rfl⟩
    obtain ⟨settled, hsettled⟩ := stripped_settles hvalid false .recoveryRequired (app.generation + 1)
    have hclosed := (closed_of_foldlM hgeneration hsettled false (some now)).1
    have hv := (hclosed.valid_iff hvalid nofun).mpr
      ⟨fun event hevent hnew => ⟨now, rfl, hlogged event hevent hnew⟩, hsettle⟩
    rw [stripped_original] at hsettled
    refine ⟨{ settled with clockFrozen := false, lastTime := some now, predecessor := none }, ?_⟩
    simp only [sanitize, bind_eq_ok, orElse_eq_ok]
    refine ⟨_, hgeneration, settled, hsettled, ?_⟩
    rw [validate_eq_ok.mpr hv]
    rfl

/-- When a copy can be prepared. -/
theorem prepareRestored_iff (hvalid : app.Valid P) {admin : AuthenticatedContext} {now : Time} :
    (∃ next, app.prepareRestored P admin now = .ok next) ↔
      adminScope app admin = .ok () ∧ app.generation ≠ maxU64 ∧ app.Settleable := by
  constructor
  · rintro ⟨next, hnext⟩
    obtain ⟨hscope, hclosed, -, hlast, hv⟩ := prepareRestored_eq_ok hnext
    have hclock : next.clockFrozen = true → next.lastTime.isSome = true := fun _ => by rw [hlast]; rfl
    obtain ⟨-, hsettle⟩ := (hclosed.valid_iff hvalid hclock).mp hv
    exact ⟨hscope, (nextGeneration_eq_some.mp hclosed.generation).1, hsettle⟩
  · rintro ⟨hscope, hmax, hsettle⟩
    have hgeneration := nextGeneration_eq_some.mpr ⟨hmax, rfl⟩
    obtain ⟨settled, hsettled⟩ := stripped_settles hvalid true .invalidStorage (app.generation + 1)
    obtain ⟨hclosed, -, hsame⟩ := closed_of_foldlM hgeneration hsettled settled.clockFrozen
      (some (settled.lastTime.elim now (max · now)))
    have hv := (hclosed.valid_iff hvalid fun _ => rfl).mpr ⟨fun event hevent hnew => ?_, hsettle⟩
    · rw [stripped_copy] at hsettled
      refine ⟨{ settled with
        lastTime := some (settled.lastTime.elim now (max · now))
        predecessor := none }, ?_⟩
      rw [← latest_eq] at hv ⊢
      simp only [prepareRestored, bind_eq_ok, orElse_eq_ok, pure_eq_ok]
      exact ⟨(), hscope, _, hgeneration, settled, hsettled, (), validate_eq_ok.mpr hv, rfl⟩
    · obtain ⟨_, _, -, -, hs⟩ := hvalid.audit event hevent
      obtain ⟨-, last, hlast, -, hle⟩ := hs.logged hnew
      refine ⟨_, rfl, ?_⟩
      rw [hsame, hlast]
      exact le_trans hle (le_max_left _ _)

/-! The three closures of a private use. -/

/-- The application with other deliveries and one signup changed. -/
def withOutcome (app : Application) (journal : OrdMap Uuid DeliveryAttempt) (id : Uuid) (r : Record)
    (signup : SignupState) : Application :=
  { app with deliveries := journal, records := app.records.insert id { r with signup } }

section Outcome

variable {id : Uuid} {r : Record} {journal : OrdMap Uuid DeliveryAttempt} {signup : SignupState}

theorem movedOn_withOutcome (hvalid : app.Valid P) (hr : app.records.get? id = some r) :
    app.MovedOn (app.withOutcome journal id r signup) where
  result := rfl
  revoked := hvalid.revoked
  record i r' hr' := by
    change (app.records.insert id _).get? i = some r' at hr'
    rw [OrdMap.get?_insert] at hr'
    split_ifs at hr' with heq
    · subst heq
      rw [Option.some.injEq] at hr'
      exact ⟨r, signup, r.restored, hr, hr'.symm⟩
    · exact ⟨r', r'.signup, r'.restored, hr', rfl⟩
  records i s hs := by
    change ∃ signup' restored, (app.records.insert id _).get? i = some _
    rw [OrdMap.get?_insert]
    split_ifs with heq
    · subst heq
      obtain rfl : r = s := Option.some.inj (hr.symm.trans hs)
      exact ⟨signup, r.restored, rfl⟩
    · exact ⟨s.signup, s.restored, hs⟩
  grant i g hg := ⟨g, hg, .refl g⟩
  grants i g hg := ⟨g, hg, .refl g⟩

/-- Where no accepted delivery is lost, only the changed signup has to fit. -/
theorem withOutcome_valid_iff (hvalid : app.Valid P) (hr : app.records.get? id = some r)
    (hjournal : app.JournalSound P journal)
    (hkept : ∀ j d, app.deliveries.get? j = some d → d.status = some .accepted → journal.get? j = some d) :
    (app.withOutcome journal id r signup).Valid P ↔
      ((app.baseline id).verifiedLogin = true → signup = .verifiedLogin)
      ∧ (signup = .verifiedLogin → (app.baseline id).verifiedLogin = true
        ∨ ∃ j d, journal.get? j = some d ∧ evidence r id d = true) := by
  have hself : (app.withOutcome journal id r signup).records.get? id = some { r with signup } :=
    OrdMap.get?_insert_self _ _ _
  rw [(movedOn_withOutcome hvalid hr).valid_iff hvalid hvalid.generation hvalid.clock hjournal]
  constructor
  · exact fun ⟨_, hsealed, hverified⟩ => ⟨hsealed id _ hself, hverified id _ hself⟩
  · intro ⟨hsealed, hverified⟩
    refine ⟨fun event hevent hnew => ?_, fun i r' hr' hflag => ?_, fun i r' hr' hsignup => ?_⟩
    · obtain ⟨_, _, -, -, hs⟩ := hvalid.audit event hevent
      obtain ⟨-, last, hlast, -, hle⟩ := hs.logged hnew
      exact ⟨last, hlast, hle⟩
    · by_cases heq : id = i
      · subst heq
        rw [hself, Option.some.injEq] at hr'
        subst hr'
        exact hsealed hflag
      · change (app.records.insert id _).get? i = some r' at hr'
        rw [OrdMap.get?_insert_ne _ _ heq] at hr'
        obtain ⟨base, hb, hbase⟩ := baseline_verifiedLogin.mp hflag
        obtain ⟨s, hs, hsound⟩ := hvalid.baselines i base hb
        obtain rfl : r' = s := Option.some.inj (hr'.symm.trans hs)
        exact hsound.verified hbase
    · by_cases heq : id = i
      · subst heq
        rw [hself, Option.some.injEq] at hr'
        subst hr'
        exact hverified hsignup
      · change (app.records.insert id _).get? i = some r' at hr'
        rw [OrdMap.get?_insert_ne _ _ heq] at hr'
        rcases hvalid.verified i r' hr' hsignup with hbase | ⟨j, d, hd, hevidence⟩
        · exact .inl (baseline_verifiedLogin.mpr hbase)
        · have haccepted : d.status = some .accepted := by
            simp only [evidence, Bool.and_eq_true, beq_iff_eq] at hevidence
            exact hevidence.2
          exact .inr ⟨j, d, hkept j d hd haccepted, hevidence⟩

/-- A signup that stays needs nothing new. -/
theorem withOutcome_same (hvalid : app.Valid P) (hr : app.records.get? id = some r)
    (hjournal : app.JournalSound P journal)
    (hkept : ∀ j d, app.deliveries.get? j = some d → d.status = some .accepted → journal.get? j = some d) :
    (app.withOutcome journal id r r.signup).Valid P := by
  refine (withOutcome_valid_iff hvalid hr hjournal hkept).mpr ⟨fun hflag => ?_, fun hsignup => ?_⟩
  · obtain ⟨base, hb, hbase⟩ := baseline_verifiedLogin.mp hflag
    obtain ⟨s, hs, hsound⟩ := hvalid.baselines id base hb
    obtain rfl : r = s := Option.some.inj (hr.symm.trans hs)
    exact hsound.verified hbase
  · rcases hvalid.verified id r hr hsignup with hbase | ⟨j, d, hd, hevidence⟩
    · exact .inl (baseline_verifiedLogin.mpr hbase)
    · have haccepted : d.status = some .accepted := by
        simp only [evidence, Bool.and_eq_true, beq_iff_eq] at hevidence
        exact hevidence.2
      exact .inr ⟨j, d, hkept j d hd haccepted, hevidence⟩

/-- A signup other than a verified login needs a baseline that shows none. -/
theorem withOutcome_unverified (hvalid : app.Valid P) (hr : app.records.get? id = some r)
    (hjournal : app.JournalSound P journal)
    (hkept : ∀ j d, app.deliveries.get? j = some d → d.status = some .accepted → journal.get? j = some d)
    (hsignup : signup ≠ .verifiedLogin) :
    (app.withOutcome journal id r signup).Valid P ↔ (app.baseline id).verifiedLogin = false := by
  rw [withOutcome_valid_iff hvalid hr hjournal hkept, ← Bool.not_eq_true]
  constructor
  · exact fun ⟨hsealed, _⟩ hflag => hsignup (hsealed hflag)
  · exact fun hflag => ⟨fun h => absurd h hflag, fun h => absurd h hsignup⟩

end Outcome

/-- A delivery more, under a key and an identifier of its own. -/
theorem JournalSound.insert {journal : OrdMap Uuid DeliveryAttempt} (h : app.JournalSound P journal)
    {id : Uuid} {d : DeliveryAttempt} (hfresh : journal.get? id = none) (hroom : journal.size < limit)
    (hsound : ∃ t r, app.tasks.get? d.task = some t ∧ app.records.get? d.record = some r
      ∧ DeliverySound P id d t r)
    (hkey : ∀ j e, journal.get? j = some e → e.key ≠ d.key) (hno : app.requests.get? d.key = none)
    (hregister : registers d = true → ∀ j e, journal.get? j = some e → registers e = true →
      e.record ≠ d.record) : app.JournalSound P (journal.insert id d) := by
  have hsplit : ∀ {j e}, (journal.insert id d).get? j = some e →
      (j = id ∧ e = d) ∨ journal.get? j = some e := by
    intro j e he
    rw [OrdMap.get?_insert] at he
    split_ifs at he with heq
    · exact .inl ⟨heq.symm, (Option.some.inj he).symm⟩
    · exact .inr he
  refine ⟨?_, fun j e he => ?_, fun j e he => ?_, fun i e j f he hf hsame => ?_,
    fun i e j f he hf hreg hreg' hsame => ?_⟩
  · rw [OrdMap.size_insert_of_none hfresh]
    exact hroom
  · rcases hsplit he with ⟨rfl, rfl⟩ | hold
    · exact hsound
    · exact h.sound j e hold
  · rcases hsplit he with ⟨rfl, rfl⟩ | hold
    · exact hno
    · exact h.no_receipt j e hold
  · rcases hsplit he with ⟨rfl, rfl⟩ | he' <;> rcases hsplit hf with ⟨rfl, rfl⟩ | hf'
    · rfl
    · exact absurd hsame.symm (hkey j f hf')
    · exact absurd hsame (hkey i e he')
    · exact h.one_delivery i e j f he' hf' hsame
  · rcases hsplit he with ⟨rfl, rfl⟩ | he' <;> rcases hsplit hf with ⟨rfl, rfl⟩ | hf'
    · rfl
    · exact absurd hsame.symm (hregister hreg j f hf' hreg')
    · exact absurd hsame (hregister hreg' i e he' hreg)
    · exact h.one_register i e j f he' hf' hreg hreg' hsame

section Use

variable {ctx : AuthenticatedContext} {task attempt : Uuid} {use : PrivateUse} {d : DeliveryAttempt}
  {r : Record}

/-- The attempt that a private use has journaled can be published unless it is a registration of a
record whose verified login only the baseline shows. -/
theorem Prepared.valid_iff {effective : Time} (hvalid : app.Valid P) (hne : attempt ≠ 0)
    (hfresh : app.deliveries.get? attempt = none)
    (h : Prepared P ctx task use attempt effective app next) : next.Valid P ↔
      (use.action = .register → (app.baseline use.record).verifiedLogin = false) := by
  obtain ⟨values, t, r, husable, rfl⟩ := h.usable
  have hr := husable.selected.record.found
  have hjournal : app.JournalSound P (app.deliveries.insert attempt
      (newAttempt ctx task use (privateUseFingerprint P use) r.secretVersion effective)) := by
    refine hvalid.journal.insert hfresh h.room ⟨t, r, husable.selected.task.found, hr,
      husable.deliverySound hvalid hne⟩ h.no_delivery husable.no_receipt fun hregister j e he hreg => ?_
    intro hsame
    have haction : use.action = .register := by
      unfold registers at hregister
      rw [Bool.and_eq_true, beq_iff_eq] at hregister
      exact hregister.1
    have hsealed := h.unsealed haction
    rw [← Bool.not_eq_true, registrationSealed_iff] at hsealed
    exact hsealed (.inr ⟨j, e, he, hreg, hsame⟩)
  have hkept : ∀ j e, app.deliveries.get? j = some e → e.status = some .accepted →
      (app.deliveries.insert attempt (newAttempt ctx task use (privateUseFingerprint P use)
        r.secretVersion effective)).get? j = some e := by
    intro j e he _
    rw [OrdMap.get?_insert_ne _ _ fun heq => by rw [← heq, hfresh] at he; cases he]
    exact he
  unfold Application.prepared
  split_ifs with hregister
  · have hsubmitted : (app.withOutcome _ use.record r .submitted).Valid P ↔ _ :=
      withOutcome_unverified hvalid hr hjournal hkept nofun
    exact hsubmitted.trans ⟨fun hflag _ => hflag, fun hflag => hflag hregister⟩
  · have hsame := withOutcome_same hvalid hr hjournal hkept
    have hself : app.records.insert use.record { r with signup := r.signup } = app.records :=
      congrArg records (setRecord_self hr)
    unfold withOutcome at hsame
    rw [hself] at hsame
    exact ⟨fun _ h => absurd h hregister, fun _ => hsame⟩

/-- An attempt between its journaling and its outcome. -/
structure InFlight (app : Application) (use : PrivateUse) (attempt : Uuid) (d : DeliveryAttempt)
    (r : Record) : Prop where
  found : app.deliveries.get? attempt = some d
  record : app.records.get? use.record = some r
  record_eq : d.record = use.record
  action_eq : d.action = use.action
  version_eq : d.version = r.secretVersion
  dispatched : d.dispatched = true
  unfinished : d.status = none

/-- An open attempt is closed with this outcome. -/
theorem InFlight.journal (h : app.InFlight use attempt d r) (hvalid : app.Valid P) (d' : DeliveryAttempt)
    (hsame : d' = { d with status := d'.status, dispatched := d'.dispatched })
    (hjournaled : d'.dispatched = true ∨ d'.status = some .rejected) :
    app.JournalSound P (app.deliveries.insert attempt d')
      ∧ ∀ j e, app.deliveries.get? j = some e → e.status = some .accepted →
          (app.deliveries.insert attempt d').get? j = some e := by
  refine ⟨hvalid.journal.outcomes fun i e he => ?_, fun j e he haccepted => ?_⟩
  · rw [OrdMap.get?_insert] at he
    split_ifs at he with heq
    · subst heq
      rw [Option.some.injEq] at he
      subst he
      exact ⟨d, h.found, hsame, fun _ => h.dispatched, hjournaled⟩
    · obtain ⟨_, _, -, -, hs⟩ := hvalid.deliveries i e he
      exact ⟨e, he, rfl, id, hs.journaled⟩
  · rw [OrdMap.get?_insert_ne _ _ fun heq => ?_]
    · exact he
    · rw [← heq, h.found, Option.some.injEq] at he
      rw [← he, h.unfinished] at haccepted
      cases haccepted

end Use

end Application

end Credman
