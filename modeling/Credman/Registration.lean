import Credman.Consumer
import Credman.Pinned

/-! A record is registered once: over all stores of one human, and all copies of the record. -/
namespace Credman

open Library Library.Checked Relation Application DurableVault

variable {P : Platform}

namespace Application

variable {app next : Application} {record attempt : Uuid} {since b n : Nat} {call : Call}

/-- The record, if it is there, has come from a backup. -/
def Copied (record : Uuid) (app : Application) : Prop :=
  ∀ r, app.records.get? record = some r → r.restored = true

/-- An attempt at the registration of the record stands. -/
structure Attempt (attempt record : Uuid) (app : Application) : Prop where
  stands : ∃ d, app.deliveries.get? attempt = some d ∧ d.record = record ∧ registers d = true

/-- The record, if it is there, is not registered any more. -/
def Barred (attempt record : Uuid) (app : Application) : Prop :=
  ∀ r, app.records.get? record = some r → r.restored = true ∨ app.Attempt attempt record
    ∨ (app.baseline record).registrationDispatched = true

theorem Copied.barred (h : app.Copied record) : app.Barred attempt record := fun r hr => .inl (h r hr)

theorem Attempt.barred (h : app.Attempt attempt record) : app.Barred attempt record :=
  fun _ _ => .inr (.inl h)

theorem Attempt.of_eq (h : app.Attempt attempt record)
    (hdeliveries : next.deliveries.get? attempt = app.deliveries.get? attempt) :
    next.Attempt attempt record := by
  obtain ⟨d, hd, hrest⟩ := h.stands
  exact ⟨d, hdeliveries.trans hd, hrest⟩

/-- No registration gets past a record that is barred. -/
theorem Barred.sealed {r : Record} (h : app.Barred attempt record) (hr : app.records.get? record = some r)
    (hrestored : r.restored = false) : app.registrationSealed record = true := by
  rw [registrationSealed_iff]
  rcases h r hr with hcopy | hattempt | hbaseline
  · rw [hrestored] at hcopy
    cases hcopy
  · obtain ⟨d, hd, hrecord, hregisters⟩ := hattempt.stands
    exact .inr ⟨attempt, d, hd, hregisters, hrecord⟩
  · exact .inl hbaseline

/-! What keeps the law. -/

theorem Attempt.clockOnly {now : Time} (h : app.Attempt attempt record) (hclock : app.ClockOnly now next) :
    next.Attempt attempt record := by
  refine h.of_eq ?_
  cases hclock with
  | ticked => rw [ticked_deliveries]
  | frozen => rfl

/-- Settling another attempt, or recording an outcome, leaves the attempt standing. -/
theorem Attempt.settled {use : PrivateUse} {other : Uuid} {change : DeliveryAttempt → DeliveryAttempt}
    {signup : SignupState → SignupState} (h : app.Attempt attempt record)
    (hchange : other = attempt → ∀ d, (change d).record = d.record ∧ registers (change d) = registers d)
    (hsettled : Settled use other change signup app next) : next.Attempt attempt record := by
  cases hd : app.deliveries.get? other with
  | none =>
    cases hsettled with
    | missing => exact h
    | orphan hold | done hold =>
      rw [hd] at hold
      cases hold
  | some d =>
    have hdeliveries := hsettled.deliveries_eq hd
    by_cases hother : other = attempt
    · subst hother
      obtain ⟨d', hd', hrecord, hregisters⟩ := h.stands
      obtain rfl : d' = d := Option.some.inj (hd'.symm.trans hd)
      obtain ⟨hsame, hstill⟩ := hchange rfl d'
      refine ⟨change d', ?_, hsame.trans hrecord, hstill.trans hregisters⟩
      rw [hdeliveries, OrdMap.get?_insert_self]
    · refine h.of_eq ?_
      rw [hdeliveries, OrdMap.get?_insert_ne _ _ hother]

theorem Attempt.finished {ctx : AuthenticatedContext} {task other : Uuid} {use : PrivateUse}
    {status : DeliveryStatus} {handoffAt : Time} (h : app.Attempt attempt record)
    (hleaves : Leaves (useFinish ctx task use other status handoffAt) app next) :
    next.Attempt attempt record := by
  have hchange : ∀ {d : DeliveryAttempt} {mid : Application}, app.deliveries.get? other = some d →
      mid.deliveries = app.deliveries.insert other { d with status := some status } →
      mid.Attempt attempt record := by
    intro d mid hd hdeliveries
    obtain ⟨d', hd', hrecord, hregisters⟩ := h.stands
    by_cases hother : other = attempt
    · subst hother
      obtain rfl : d' = d := Option.some.inj (hd'.symm.trans hd)
      exact ⟨{ d' with status := some status }, by rw [hdeliveries, OrdMap.get?_insert_self], hrecord, hregisters⟩
    · exact h.of_eq (by rw [hdeliveries, OrdMap.get?_insert_ne _ _ hother])
  refine hleaves.of_wp (wp_mono (wp_useFinish ctx task use other status handoffAt app) ?_ ?_)
  · rintro - next ⟨d, r, hd, -, rfl⟩
    exact hchange hd rfl
  · rintro e next (⟨rfl, -⟩ | ⟨d, hd, -, rfl⟩)
    · exact h
    · exact hchange hd rfl

/-- A call leaves an attempt standing that it has not begun itself. -/
theorem Attempt.ran (h : app.Attempt attempt record) (hb : P.uuid b ≠ attempt) (hn : P.uuid n ≠ attempt)
    (hruns : call.Runs P b n app next) : next.Attempt attempt record := by
  cases hdelivers : call.delivers with
  | false => exact h.of_eq (by rw [hruns.deliveries_eq hdelivers])
  | true =>
    cases hruns with
    | approveTask | revokeTask | mutate | metadata | importForTask | readForTask => cases hdelivers
    | usePrepare hleaves =>
      refine hleaves.of_wp (wp_mono (wp_usePrepare P _ _ _ _ _ app) ?_ fun _ _ hclock => h.clockOnly hclock)
      rintro out next ⟨effective, heff, ⟨-, hprepared⟩ | ⟨receipt, -, -, rfl⟩⟩
      · obtain ⟨version, hdeliveries⟩ := hprepared.deliveries_eq
        refine h.of_eq ?_
        rw [hdeliveries, OrdMap.get?_insert_ne _ _ hn, ticked_deliveries]
      · exact h.clockOnly (.ticked heff)
    | useAuthorize hleaves =>
      refine hleaves.of_wp (wp_mono (wp_useAuthorize _ _ _ _ app) ?_ fun _ _ hclock => h.clockOnly hclock)
      rintro values next ⟨heff, -, rfl⟩
      exact h.clockOnly (.ticked heff)
    | useCancel hleaves =>
      refine hleaves.of_wp (wp_mono (wp_useCancel _ _ app) ?_ ?_)
      · exact fun _ _ hdone => h.settled (fun hsame => absurd hsame hb) hdone.1
      · exact fun _ _ hdone => h.settled (fun hsame => absurd hsame hb) hdone
    | useFinish hleaves => exact h.finished hleaves

/-- The record has grown, and what bars it is still there. -/
theorem Barred.moved (h : app.Barred attempt record)
    (hrecords : ∀ r', next.records.get? record = some r' → ∃ r, app.records.get? record = some r ∧ r.Grows r')
    (hattempt : app.Attempt attempt record → next.Attempt attempt record)
    (hbaselines : next.baselines = app.baselines) : next.Barred attempt record := by
  intro r' hr'
  obtain ⟨r, hr, hgrows⟩ := hrecords r' hr'
  have hbaseline : next.baseline record = app.baseline record := by
    unfold baseline
    rw [hbaselines]
  exact (h r hr).imp hgrows.restored (Or.imp hattempt fun hdispatched => hbaseline ▸ hdispatched)

theorem Barred.compact (hvalid : app.Valid P) (hlasting : Lasting P n app) (h : app.Barred attempt record) :
    app.compact.Barred attempt record := by
  intro r hr
  obtain ⟨-, -, hshrinks⟩ := hlasting.compact hvalid
  rcases h r (hshrinks.records record r hr) with hcopy | hattempt | hbaseline
  · exact .inl hcopy
  · obtain ⟨d, hd, hrecord, hregisters⟩ := hattempt.stands
    cases hkept : app.compact.deliveries.get? attempt with
    | some d' =>
      obtain rfl : d = d' := Option.some.inj (hd.symm.trans (hshrinks.deliveries attempt d' hkept))
      exact .inr (.inl ⟨d, hkept, hrecord, hregisters⟩)
    | none =>
      obtain ⟨-, -, hfolded⟩ := hshrinks.delivery_dropped attempt d hd hkept
      rw [hrecord] at hfolded
      exact .inr (.inr (hfolded hregisters ⟨r, hr⟩))
  · exact .inr (.inr (hshrinks.registered record r hr hbaseline))

theorem Barred.closed {copy : Bool} (h : app.Barred attempt record) (hclosed : Closed copy app next) :
    next.Barred attempt record := by
  intro r' hr'
  obtain ⟨r, hr, heq⟩ := hclosed.record hr'
  have hbaselines : next.baseline record = app.baseline record := by
    unfold baseline
    rw [hclosed.baselines]
  rcases h r hr with hcopy | hattempt | hbaseline
  · exact .inl (by rw [heq]; simp [hcopy])
  · obtain ⟨d, hd, hrecord, hregisters⟩ := hattempt.stands
    refine .inr (.inl ⟨Application.closed d, ?_, ?_⟩)
    · rw [hclosed.deliveries, hd]
      rfl
    · unfold Application.closed
      split_ifs <;> exact ⟨hrecord, hregisters⟩
  · exact .inr (.inr (hbaselines ▸ hbaseline))

end Application

open Application

section Keeps

variable {record attempt : Uuid} {since : Nat} {call : Call}

/-- Everything named before this many draws. -/
def Drawn (P : Platform) (n : Nat) (id : Uuid) : Prop := ∃ k, k < n ∧ id = P.uuid k

theorem Drawn.later {n n' : Nat} {id : Uuid} (h : Drawn P n id) (hle : n ≤ n') : Drawn P n' id := by
  obtain ⟨k, hk, heq⟩ := h
  exact ⟨k, hk.trans_le hle, heq⟩

theorem Drawn.ne {n k : Nat} {id : Uuid} (hids : P.FreshIds) (h : Drawn P n id) (hle : n ≤ k) :
    P.uuid k ≠ id := by
  rintro rfl
  obtain ⟨j, hj, heq⟩ := h
  have hsame := hids.uuid_injective heq
  omega

theorem keeps_copied (hids : P.FreshIds) (hrecord : Drawn P since record) :
    Keeps P (Copied record) since call where
  ran := by
    intro b n app next _ hsince _ hlasting h hruns r' hr'
    rcases hruns.operated.record_grows (hlasting.fresh hids (le_refl n)) hr' with ⟨r, hr, hgrows⟩ | hnew
    · exact hgrows.restored (h r hr)
    · exact absurd hnew.symm (hrecord.ne hids hsince)
  compacted := by
    intro n app hvalid hlasting h r hr
    obtain ⟨-, -, hshrinks⟩ := hlasting.compact hvalid
    exact h r (hshrinks.records record r hr)
  renumbered _ _ h := h
  recovered := by
    intro mnemonic admin now app next _ _ hclosed h r' hr'
    obtain ⟨r, hr, heq⟩ := hclosed.record hr'
    rw [heq]
    simp [h r hr]

theorem keeps_barred (hids : P.FreshIds) (hrecord : Drawn P since record) (hattempt : Drawn P since attempt) :
    Keeps P (Barred attempt record) since call where
  ran := by
    intro b n app next hstart hsince _ hlasting h hruns r' hr'
    have hfresh := hlasting.fresh hids (le_refl n)
    refine h.moved (fun r' hr' => ?_) (fun hstands => ?_) (hruns.operated.baselines_eq hfresh) r' hr'
    · exact (hruns.operated.record_grows hfresh hr').resolve_right
        fun hnew => hrecord.ne hids hsince hnew.symm
    · exact hstands.ran (hattempt.ne hids hstart) (hattempt.ne hids hsince) hruns
  compacted hvalid hlasting h := h.compact hvalid hlasting
  renumbered _ _ h := h.moved (fun r hr => ⟨r, hr, .refl r⟩) (fun hstands => hstands.of_eq rfl) rfl
  recovered _ _ hclosed h := h.closed hclosed

/-- A store that is created or restored holds no original of an older record. -/
theorem arises_copied {backups : List Bytes} {app : Application} (h : call.Arises P backups app) :
    app.Copied record := by
  cases h with
  | created => exact fun r hr => by cases hr
  | restored mnemonic hbackup hdecrypt hprepare =>
    obtain ⟨-, hclosed, -⟩ := prepareRestored_eq_ok hprepare
    intro r' hr'
    obtain ⟨r, hr, heq⟩ := hclosed.record hr'
    rw [heq]
    simp

end Keeps

/-! From the journal to the outcome of one registration. -/

section Begun

variable {φ : Application → Prop} {owner owner' journaled : DurableVault} {n drawn : Nat} {d d' : Dir FileName}
  {candidate : Application} {outcome : Except Error Unit} {record : Uuid}

/-- A commit keeps what holds of the owner's application and of its candidate. -/
theorem Kept.committed (hseals : P.Seals) (h : Kept P φ n ⟨d, some owner⟩)
    (hcandidate : Lasting P n candidate) (hφ : ∀ g, φ { candidate with generation := g })
    (hlater : ∀ last, owner.app.lastTime = some last →
      ∃ later, candidate.lastTime = some later ∧ last ≤ later)
    (hcommitted : Committed P owner candidate drawn d (owner', outcome) d') :
    Kept P φ n ⟨d', some owner'⟩ := by
  have hvalid := h.valid owner rfl
  have hlasting := h.lasting owner rfl
  have hfits := (h.fits owner · rfl)
  have hnext : ∀ g, Lasting P n { candidate with generation := g } := fun g =>
    hcandidate.of_eq rfl rfl rfl rfl rfl
  cases hcommitted with
  | rejected => exact h
  | memory hstage =>
    have hkept := stage_none hseals.toJson hvalid hlasting.dated hcandidate.dated hlater hstage
    refine .owned hkept.valid ?_ ?_ hfits h.carries
    · exact hlasting.of_eq rfl rfl rfl rfl rfl
    · change φ { owner.app with lastTime := candidate.lastTime }
      rw [hkept.same]
      exact hφ _
  | notPublished hstage hpublished | unknown hstage hpublished =>
    obtain ⟨rfl, -⟩ := stage_some hstage
    obtain ⟨hfits', hcarries⟩ := Kept.publication hseals (hnext _) (hφ _) hfits h.carries hpublished
    exact .owned hvalid hlasting (h.holds owner rfl) hfits' hcarries
  | durable hstage hpublished =>
    obtain ⟨rfl, hvalid'⟩ := stage_some hstage
    obtain ⟨hfits', hcarries⟩ := Kept.publication hseals (hnext _) (hφ _) hfits h.carries hpublished
    exact .owned hvalid' (hnext _) (hφ _) hfits' hcarries

theorem Kept.commitCut (hseals : P.Seals) (h : Kept P φ n ⟨d, some owner⟩)
    (hcandidate : Lasting P n candidate) (hφ : ∀ g, φ { candidate with generation := g })
    (hcut : CommitCut P owner candidate drawn d d') : Kept P φ n ⟨d', none⟩ := by
  cases hcut with
  | early => exact .unowned h.carries
  | cut hstage hcut =>
    obtain ⟨rfl, -⟩ := stage_some hstage
    have hnext : Lasting P n { candidate with generation := owner.app.generation + 1 } :=
      hcandidate.of_eq rfl rfl rfl rfl rfl
    exact .unowned (Kept.cut hseals hnext (hφ _) (h.fits owner · rfl) h.carries hcut)

variable {ctx : AuthenticatedContext} {task : Uuid} {use : PrivateUse} {preparedAt handoffAt effective : Time}
  {status : DeliveryStatus} {deliver : SecretInput → Delivered} {m m' : VaultMachine} {k : Nat}

/-- The outcome of an attempt leaves its record barred. -/
theorem Barred.recorded (ctx : AuthenticatedContext) (task : Uuid) (use : PrivateUse) (status : DeliveryStatus)
    (effective : Time) (hids : P.FreshIds) (hrecord : Drawn P n record)
    (h : Kept P (Barred (P.uuid k) record) n ⟨d, some owner⟩) :
    Lasting P n (owner.proposal (useFinish ctx task use (P.uuid k) status effective)).2
      ∧ (owner.proposal (useFinish ctx task use (P.uuid k) status effective)).2.Barred (P.uuid k) record
      ∧ ∀ last, owner.app.lastTime = some last → ∃ later,
        (owner.proposal (useFinish ctx task use (P.uuid k) status effective)).2.lastTime = some later
          ∧ last ≤ later := by
  have hvalid := h.valid owner rfl
  have hlasting := h.lasting owner rfl
  obtain ⟨hstaged, hstagedLasting, hlast⟩ := staged_lasting hvalid hlasting
  have hbarred : owner.staged.Barred (P.uuid k) record := by
    unfold staged
    split_ifs
    · exact (h.holds owner rfl).compact hvalid hlasting
    · exact h.holds owner rfl
  have hleaves : Leaves (useFinish ctx task use (P.uuid k) status effective) owner.staged
      (owner.proposal (useFinish ctx task use (P.uuid k) status effective)).2 := proposal_leaves _
  have hruns : ∀ n', (Call.useSecret ctx task use 0 0 fun _ => .failed).Runs P k n' owner.staged
      (owner.proposal (useFinish ctx task use (P.uuid k) status effective)).2 := fun n' => .useFinish hleaves
  have hfresh := hstagedLasting.fresh hids (le_refl n)
  refine ⟨hstagedLasting.ran hids hstaged (le_refl n) (.inr hruns), ?_,
    fun last hlast' => (hruns n).operated.lastTime last (hlast.trans hlast')⟩
  refine hbarred.moved (fun r' hr' => ?_) (fun hstands => hstands.finished hleaves)
    ((hruns n).operated.baselines_eq hfresh)
  exact ((hruns n).operated.record_grows hfresh hr').resolve_right
    fun hnew => hrecord.ne hids (le_refl n) hnew.symm

theorem Kept.finished {result : Except Error Unit} (hids : P.FreshIds) (hseals : P.Seals)
    (hrecord : Drawn P m.rest.drawn record)
    (h : Kept P (Barred (P.uuid k) record) m.rest.drawn ⟨m.dir, some owner⟩)
    (happlied : Applied P owner (useFinish ctx task use (P.uuid k) status effective) m (owner', result) m') :
    Kept P (Barred (P.uuid k) record) m'.rest.drawn ⟨m'.dir, some owner'⟩ := by
  obtain ⟨hlasting, hbarred, hlater⟩ := Barred.recorded ctx task use status effective hids hrecord h
  generalize hout : (owner', result) = out at happlied
  cases happlied with
  | refused =>
    cases hout
    exact h
  | ran hready hdrawn hcommitted =>
    cases hout
    exact (h.committed hseals hlasting (fun g => hbarred.moved (fun r hr => ⟨r, hr, .refl r⟩)
      (fun hstands => hstands.of_eq rfl) rfl) hlater hcommitted).later hdrawn.drawn

theorem Kept.finishCut (hids : P.FreshIds) (hseals : P.Seals) (hrecord : Drawn P m.rest.drawn record)
    (h : Kept P (Barred (P.uuid k) record) m.rest.drawn ⟨m.dir, some owner⟩)
    (hcut : ApplyCut P owner (useFinish ctx task use (P.uuid k) status effective) m m') :
    Kept P (Barred (P.uuid k) record) m'.rest.drawn ⟨m'.dir, none⟩ := by
  obtain ⟨hlasting, hbarred, -⟩ := Barred.recorded ctx task use status effective hids hrecord h
  exact (h.commitCut hseals hlasting (fun g => hbarred.moved (fun r hr => ⟨r, hr, .refl r⟩)
    (fun hstands => hstands.of_eq rfl) rfl) hcut.cut).later hcut.later.drawn

/-- Once a registration is journaled, its record is barred in the memory of the owner and in all that its
store carries. -/
theorem DurableVault.Journaled.barred (hids : P.FreshIds) (hseals : P.Seals) (hregister : use.action = .register)
    (h : Kept P (fun _ => True) m.rest.drawn ⟨m.dir, some owner⟩)
    (hjournal : Journaled P owner ctx task use preparedAt m journaled m') :
    Kept P (Barred (P.uuid m.rest.drawn) use.record) m'.rest.drawn ⟨m'.dir, some journaled⟩
      ∧ Drawn P m.rest.drawn use.record ∧ ∃ r, owner.staged.records.get? use.record = some r
        ∧ r.restored = false ∧ owner.staged.registrationSealed use.record = false := by
  have hvalid := h.valid owner rfl
  have hlasting := h.lasting owner rfl
  obtain ⟨hstaged, hstagedLasting, hlast⟩ := staged_lasting hvalid hlasting
  obtain ⟨-, hok, hcommitted⟩ := hjournal.prepared.ok
  have hlater := hjournal.prepared.later
  have hleaves : Leaves (usePrepare P ctx task use (P.uuid m.rest.drawn) preparedAt) owner.staged
      (owner.proposal (usePrepare P ctx task use (P.uuid m.rest.drawn) preparedAt)).2 := proposal_leaves _
  have hoperated := hleaves.of_wp (operates_usePrepare ctx task use preparedAt _)
  have hcandidate := hstagedLasting.operated hids hstaged (le_refl _) hoperated
  obtain ⟨effective, -, hprepared⟩ := proposal_ok (wp_usePrepare P ctx task use _ preparedAt owner.staged) hok
  have hprepared' := hprepared.resolve_right fun hreport => by
    obtain ⟨receipt, hnone, -⟩ := hreport
    cases hnone
  obtain ⟨-, hnew⟩ := hprepared'
  generalize (owner.proposal (usePrepare P ctx task use (P.uuid m.rest.drawn) preparedAt)).2 = candidate
    at hcommitted hoperated hcandidate hnew
  obtain ⟨version, hdeliveries⟩ := hnew.deliveries_eq
  have hbarred : ∀ g, Barred (P.uuid m.rest.drawn) use.record { candidate with generation := g } := by
    intro g
    refine Attempt.barred ⟨⟨newAttempt ctx task use (privateUseFingerprint P use) version effective, ?_, rfl, ?_⟩⟩
    · change candidate.deliveries.get? _ = _
      rw [hdeliveries, OrdMap.get?_insert_self]
    · unfold registers newAttempt
      rw [hregister]
      rfl
  obtain ⟨values, t, r, husable, -⟩ := hnew.usable
  have hfound := husable.selected.record.found
  have hsealed := hnew.unsealed hregister
  rw [ticked_records] at hfound
  refine ⟨?_, ?_, r, hfound, husable.original hregister, ?_⟩
  · generalize m'.dir = d' at hcommitted ⊢
    cases hcommitted with
    | memory hstage =>
      -- what is not written has no new delivery
      have hkept := stage_none hseals.toJson hvalid hlasting.dated hcandidate.dated
        (fun last hlast' => hoperated.lastTime last (hlast.trans hlast')) hstage
      have hsame := congrArg Application.deliveries hkept.same
      change owner.app.deliveries = candidate.deliveries at hsame
      have hnone := (hlasting.fresh hids (le_refl _)).delivery
      rw [hsame, hdeliveries, OrdMap.get?_insert_self] at hnone
      cases hnone
    | durable hstage hpublished =>
      obtain ⟨rfl, hvalid'⟩ := stage_some hstage
      have hnext : Lasting P m'.rest.drawn { candidate with generation := owner.app.generation + 1 } :=
        (hcandidate.later hlater.drawn).of_eq rfl rfl rfl rfl rfl
      have hall := h.later ((Nat.le_succ _).trans hlater.drawn)
      obtain ⟨hfits, -⟩ := Kept.publication hseals hnext trivial (h.fits owner · rfl) hall.carries hpublished
      refine .owned hvalid' hnext (hbarred _) hfits
        ((hpublished.exact hseals hnext.dated (h.fits owner · rfl)).mono ?_)
      rintro app rfl
      exact ⟨hnext, hbarred _⟩
  · exact hlasting.named use.record (.inl ⟨r, (staged_shrinks hvalid hlasting.once).records _ r hfound⟩)
  · unfold registrationSealed at hsealed ⊢
    rwa [ticked_baselines, ticked_deliveries] at hsealed

/-- What a use may add to the log, and what its store keeps from then on. -/
def Begun (P : Platform) (owner : DurableVault) (ctx : AuthenticatedContext) (task : Uuid) (use : PrivateUse)
    (preparedAt handoffAt : Time) (m m' : VaultMachine) (left : Option DurableVault) : Prop :=
  m'.rest.handoffs = m.rest.handoffs ∨ ∃ h, m'.rest.handoffs = m.rest.handoffs ++ [h]
    ∧ HandedOff P owner ctx task use preparedAt handoffAt m h
    ∧ (use.action = .register → Kept P (Barred h.attempt use.record) m'.rest.drawn ⟨m'.dir, left⟩
      ∧ Drawn P m.rest.drawn use.record ∧ Drawn P m'.rest.drawn h.attempt
      ∧ ∃ r, owner.staged.records.get? use.record = some r ∧ r.restored = false
        ∧ owner.staged.registrationSealed use.record = false)

theorem Begun.of_later {left : Option DurableVault} (h : (numbered m).rest.Later m'.rest) :
    Begun P owner ctx task use preparedAt handoffAt m m' left := .inl h.handoffs

theorem DurableVault.Handed.begun {values : SecretInput} {app : Application} {m₁ m₂ : VaultMachine}
    {left : Option DurableVault} (hids : P.FreshIds) (hseals : P.Seals)
    (hkept : Kept P (fun _ => True) m.rest.drawn ⟨m.dir, some owner⟩)
    (h : Handed P owner ctx task use preparedAt handoffAt m journaled values effective app m₁ m₂)
    (hlater : m₂.rest.Later m'.rest)
    (hends : Drawn P m₂.rest.drawn use.record →
      Kept P (Barred (P.uuid m.rest.drawn) use.record) m₂.rest.drawn ⟨m₂.dir, some { journaled with app }⟩ →
      Kept P (Barred (P.uuid m.rest.drawn) use.record) m'.rest.drawn ⟨m'.dir, left⟩) :
    Begun P owner ctx task use preparedAt handoffAt m m' left := by
  have hfirst : m₁.rest.handoffs = m.rest.handoffs := h.journal.prepared.later.handoffs
  have hsecond : m₂.rest.handoffs = m₁.rest.handoffs
      ++ [handoffOf P ctx task use handoffAt m values effective app m₁] := by
    rw [h.log]
    rfl
  refine .inr ⟨_, ?_, ⟨journaled, values, effective, app, m₁, m₂, h, rfl⟩, fun hregister => ?_⟩
  · rw [hlater.handoffs, hsecond, hfirst]
  obtain ⟨hbarred, hrecord, hrest⟩ := h.journal.barred hids hseals hregister hkept
  have hdrawn : m.rest.drawn + 1 ≤ m₁.rest.drawn := h.journal.prepared.later.drawn
  have hsame : m₂.rest.drawn = m₁.rest.drawn := by
    rw [h.log]
    rfl
  have hlast := hlater.drawn
  refine ⟨hends (hrecord.later (by omega)) ?_, hrecord, ⟨m.rest.drawn, by omega, rfl⟩, hrest⟩
  · rw [h.log]
    obtain ⟨heff, -, rfl⟩ := wp_ok (wp_useAuthorize ctx task use handoffAt _) h.check
    have hticked : (journaled.app.ticked handoffAt).Barred (P.uuid m.rest.drawn) use.record :=
      (hbarred.holds journaled rfl).moved (fun r hr => ⟨r, by rwa [ticked_records] at hr, .refl r⟩)
        (fun hstands => hstands.clockOnly (.ticked heff)) (ticked_baselines ..)
    exact .owned ((hbarred.valid journaled rfl).ticked heff)
      ((hbarred.lasting journaled rfl).of_eq (ticked_records ..) (ticked_requests ..) (ticked_grants ..)
        (ticked_deliveries ..) (ticked_baselines ..)) hticked (hbarred.fits journaled · rfl) hbarred.carries

/-- The owner is frozen; what it holds is the same. -/
theorem Kept.frozen (h : Kept P φ n ⟨d, some owner⟩) : Kept P φ n ⟨d, some { owner with frozen := true }⟩ :=
  .owned (h.valid owner rfl) (h.lasting owner rfl) (h.holds owner rfl) (h.fits owner · rfl) h.carries

theorem wp_use_begun (hids : P.FreshIds) (hseals : P.Seals)
    (hkept : Kept P (fun _ => True) m.rest.drawn ⟨m.dir, some owner⟩) :
    wp (owner.useSecret P ctx task use preparedAt handoffAt deliver)
      (fun out m' => Begun P owner ctx task use preparedAt handoffAt m m' (some out.1))
      (fun _ m' => Begun P owner ctx task use preparedAt handoffAt m m' none) m := by
  refine wp_mono (wp_useSecret P owner ctx task use preparedAt handoffAt deliver m) ?_ ?_
  · intro out m' hused
    cases hused with
    | refused h | replayed h | gated h => exact .of_later h.later
    | withdrawn h _ hcancel | stuck h _ hcancel => exact .of_later (h.prepared.later.trans hcancel.later)
    | panicked h => exact h.begun hids hseals hkept (.refl _) fun _ hbarred => hbarred.frozen
    | unrecorded h _ hfinish =>
      exact h.begun hids hseals hkept hfinish.later
        fun hrecord hbarred => (hbarred.finished hids hseals hrecord hfinish).frozen
    | finished h hfinish =>
      exact h.begun hids hseals hkept hfinish.later
        fun hrecord hbarred => hbarred.finished hids hseals hrecord hfinish
  · intro _ m' hcut
    cases hcut with
    | prepare h => exact .of_later h.later
    | cancel h _ hcancel => exact .of_later (h.prepared.later.trans hcancel.later)
    | finish h hfinish =>
      exact h.begun hids hseals hkept hfinish.later
        fun hrecord hbarred => hbarred.finishCut hids hseals hrecord hfinish

end Begun

/-! Over the fleet. -/

/-- The callback ran to register the record. -/
def Handoff.Registers (h : Handoff) (record : Uuid) : Prop :=
  h.request.action = .register ∧ h.request.record = record

instance Handoff.decidableRegisters (h : Handoff) (record : Uuid) : Decidable (h.Registers record) :=
  inferInstanceAs (Decidable (_ ∧ _))

theorem Kept.mono {φ ψ : Application → Prop} {n : Nat} {store : StoreState} (h : Kept P φ n store)
    (himp : ∀ app, Lasting P n app → φ app → ψ app) : Kept P ψ n store where
  valid := h.valid
  lasting := h.lasting
  holds owner howner := himp _ (h.lasting owner howner) (h.holds owner howner)
  fits := h.fits
  carries := h.carries.mono fun app hold => ⟨hold.1, himp app hold.1 hold.2⟩

section Fleet

variable {fleet : Fleet} {i : Nat} {call : Call} {record : Uuid}

/-- One store at most has the original of the record, and a record that was registered is barred in
every store. -/
structure Once (P : Platform) (fleet : Fleet) (record : Uuid) : Prop where
  home : ∃ home, ∀ j, j ≠ home → Kept P (Copied record) fleet.session.drawn (fleet.stores j)
  barred : ∀ h ∈ fleet.session.handoffs, h.Registers record →
    Drawn P fleet.session.drawn record ∧ Drawn P fleet.session.drawn h.attempt
      ∧ ∀ j, Kept P (Barred h.attempt record) fleet.session.drawn (fleet.stores j)
  once : (fleet.session.handoffs.filter fun h => h.Registers record).length ≤ 1

/-- A record is original in the store in which it was made, if anywhere. -/
theorem Once.home_step {fleet' : Fleet} (hids : P.FreshIds) (hseals : P.Seals) (hsound : Sound P fleet)
    (h : Once P fleet record) (hstepped : Stepped P fleet i call fleet') :
    ∃ home, (Drawn P fleet.session.drawn record → ∀ j, j ≠ home →
        Kept P (Copied record) fleet.session.drawn (fleet.stores j))
      ∧ ∀ j, j ≠ home → Kept P (Copied record) fleet'.session.drawn (fleet'.stores j) := by
  by_cases hdrawn : Drawn P fleet.session.drawn record
  · obtain ⟨home, hhome⟩ := h.home
    refine ⟨home, fun _ => hhome, fun j hj => ?_⟩
    by_cases hi : j = i
    · subst hi
      exact hstepped.kept hids hseals hsound (keeps_copied hids hdrawn) (le_refl _) (.inr arises_copied)
        (hhome j hj)
    · exact hstepped.kept_other hi (hhome j hj)
  · -- the record is not there yet, and could only be made here
    refine ⟨i, fun hno => absurd hno hdrawn, fun j hj => hstepped.kept_other hj ?_⟩
    refine (hsound.stores j).mono fun app hlasting _ r hr => ?_
    exact absurd (hlasting.named record (.inl ⟨r, hr⟩)) hdrawn

theorem Once.barred_step {fleet' : Fleet} {attempt : Uuid} (hids : P.FreshIds) (hseals : P.Seals)
    (hsound : Sound P fleet) (hrecord : Drawn P fleet.session.drawn record)
    (hattempt : Drawn P fleet.session.drawn attempt)
    (hbarred : ∀ j, Kept P (Barred attempt record) fleet.session.drawn (fleet.stores j))
    (hstepped : Stepped P fleet i call fleet') (j : Nat) :
    Kept P (Barred attempt record) fleet'.session.drawn (fleet'.stores j) := by
  by_cases hi : j = i
  · subst hi
    exact hstepped.kept hids hseals hsound (keeps_barred hids hrecord hattempt) (le_refl _)
      (.inr fun harises => (arises_copied harises).barred) (hbarred j)
  · exact hstepped.kept_other hi (hbarred j)

/-- Where the record is barred, no owner begins to register it. -/
theorem Kept.not_registered {attempt : Uuid} {owner : DurableVault} {r : Record} {store : StoreState} {n : Nat}
    (h : Kept P (Barred attempt record) n store) (howner : store.owner = some owner)
    (hr : owner.staged.records.get? record = some r) (hrestored : r.restored = false) :
    owner.staged.registrationSealed record = true := by
  have hbarred : owner.staged.Barred attempt record := by
    unfold staged
    split_ifs
    · exact (h.holds owner howner).compact (h.valid owner howner) (h.lasting owner howner)
    · exact h.holds owner howner
  exact hbarred.sealed hr hrestored

/-- What a private use adds to the log of its fleet, and what its store keeps from then on. -/
def Logs (P : Platform) (fleet : Fleet) (i : Nat) (use : PrivateUse) (fleet' : Fleet) : Prop :=
  fleet'.session.handoffs = fleet.session.handoffs ∨ ∃ owner h, (fleet.stores i).owner = some owner
    ∧ fleet'.session.handoffs = fleet.session.handoffs ++ [h] ∧ h.request = use
    ∧ (use.action = .register → Kept P (Barred h.attempt use.record) fleet'.session.drawn (fleet'.stores i)
      ∧ Drawn P fleet.session.drawn use.record ∧ Drawn P fleet'.session.drawn h.attempt
      ∧ ∃ r, owner.staged.records.get? use.record = some r ∧ r.restored = false
        ∧ owner.staged.registrationSealed use.record = false)

theorem use_logs (ctx : AuthenticatedContext) (task : Uuid) (use : PrivateUse) (preparedAt handoffAt : Time)
    (deliver : SecretInput → Delivered) (hids : P.FreshIds) (hseals : P.Seals) (hsound : Sound P fleet)
    (faults : List Fault) :
    Logs P fleet i use (fleet.step P i (.useSecret ctx task use preparedAt handoffAt deliver) faults).1 := by
  refine Fleet.ask_spec (p := fun out => Logs P fleet i use out.1) (fun _ => .inl rfl) fun owner howner => ?_
  have hkept : Kept P (fun _ => True) fleet.session.drawn ⟨(fleet.stores i).dir, some owner⟩ := by
    rw [← howner]
    exact hsound.stores i
  have hbegun : ∀ (left : Option DurableVault) (m' : VaultMachine),
      Begun P owner ctx task use preparedAt handoffAt (fleet.machine i faults) m' left →
      Logs P fleet i use (fleet.put i { dir := m'.dir, owner := left } m'.rest) := by
    rintro left m' (hsame | ⟨h, hlog, hhanded, hrest⟩)
    · exact .inl hsame
    · obtain ⟨journaled, values, effective, app, m₁, m₂, -, rfl⟩ := hhanded.course
      exact .inr ⟨owner, _, howner, hlog, rfl, by rwa [Fleet.put_self]⟩
  exact wp_mono (wp_use_begun hids hseals hkept) (fun out m' => hbegun (some out.1) m') fun _ m' => hbegun none m'

theorem Once.step (hids : P.FreshIds) (hseals : P.Seals) (hsound : Sound P fleet) (h : Once P fleet record)
    (i : Nat) (call : Call) (faults : List Fault) : Once P (fleet.step P i call faults).1 record := by
  have hstepped := stepped hseals fleet i call faults
  obtain ⟨home, hbefore, hhome⟩ := h.home_step hids hseals hsound hstepped
  have hold : ∀ h₀ ∈ fleet.session.handoffs, h₀.Registers record →
      Drawn P (fleet.step P i call faults).1.session.drawn record
        ∧ Drawn P (fleet.step P i call faults).1.session.drawn h₀.attempt
        ∧ ∀ j, Kept P (Barred h₀.attempt record) (fleet.step P i call faults).1.session.drawn
          ((fleet.step P i call faults).1.stores j) := by
    intro h₀ hmem hregisters
    obtain ⟨hrecord, hattempt, hbarred⟩ := h.barred h₀ hmem hregisters
    exact ⟨hrecord.later hstepped.later, hattempt.later hstepped.later,
      Once.barred_step hids hseals hsound hrecord hattempt hbarred hstepped⟩
  have hlogs : (fleet.step P i call faults).1.session.handoffs = fleet.session.handoffs
      ∨ ∃ use, Logs P fleet i use (fleet.step P i call faults).1 := by
    cases hdelivers : call.delivers with
    | false => exact .inl (step_later hseals hdelivers fleet i faults).handoffs
    | true =>
      cases call with
      | useSecret ctx task use preparedAt handoffAt deliver =>
        exact .inr ⟨use, use_logs ctx task use preparedAt handoffAt deliver hids hseals hsound faults⟩
      | _ => cases hdelivers
  generalize (fleet.step P i call faults).1 = fleet' at hstepped hhome hold hlogs ⊢
  have hquiet : fleet'.session.handoffs = fleet.session.handoffs → Once P fleet' record := fun hsame =>
    ⟨⟨home, hhome⟩, fun h₀ hmem => hold h₀ (hsame ▸ hmem), by rw [hsame]; exact h.once⟩
  rcases hlogs with hsame | ⟨use, hsame | ⟨owner, hnew, howner, hlog, rfl, hrest⟩⟩
  · exact hquiet hsame
  · exact hquiet hsame
  by_cases hregisters : hnew.Registers record
  · obtain ⟨hregister, rfl⟩ := hregisters
    obtain ⟨hbarred, hrecord, hattempt, r, hr, hrestored, hsealed⟩ := hrest hregister
    -- nothing was registered before
    have hnone : ∀ h₀ ∈ fleet.session.handoffs, ¬ h₀.Registers hnew.request.record := by
      intro h₀ hmem hregisters₀
      obtain ⟨-, -, hbarred₀⟩ := h.barred h₀ hmem hregisters₀
      rw [(hbarred₀ i).not_registered howner hr hrestored] at hsealed
      cases hsealed
    -- and this store has the original
    have hi : i = home := by
      by_contra hother
      have hcopied := (hbefore hrecord i hother)
      have hkept := hsound.stores i
      have hshrinks := staged_shrinks (hkept.valid owner howner) (hkept.lasting owner howner).once
      have hcopy := hcopied.holds owner howner r (hshrinks.records _ r hr)
      rw [hrestored] at hcopy
      cases hcopy
    refine ⟨⟨home, hhome⟩, fun h₀ hmem hregisters₀ => ?_, ?_⟩
    · rw [hlog] at hmem
      rcases List.mem_append.mp hmem with hmem | hmem
      · exact absurd hregisters₀ (hnone h₀ hmem)
      · rw [List.mem_singleton] at hmem
        subst hmem
        refine ⟨hrecord.later hstepped.later, hattempt, fun j => ?_⟩
        by_cases hj : j = i
        · exact hj ▸ hbarred
        · exact (hhome j (hi ▸ hj)).mono fun _ _ hcopied => hcopied.barred
    · have hbefore' : (fleet.session.handoffs.filter fun h₀ => h₀.Registers hnew.request.record) = [] :=
        List.filter_eq_nil_iff.mpr fun h₀ hmem => by simpa using hnone h₀ hmem
      rw [hlog, List.filter_append, hbefore', List.nil_append]
      exact List.length_filter_le _ _
  · refine ⟨⟨home, hhome⟩, fun h₀ hmem hregisters₀ => ?_, ?_⟩
    · rw [hlog] at hmem
      rcases List.mem_append.mp hmem with hmem | hmem
      · exact hold h₀ hmem hregisters₀
      · exact absurd (List.mem_singleton.mp hmem ▸ hregisters₀) hregisters
    · rw [hlog, List.filter_append, List.filter_cons_of_neg (by simpa using hregisters), List.filter_nil,
        List.append_nil]
      exact h.once

/-- A record is registered at most once: over its store and every store restored from its backups, whoever
asks, and whatever crashes, recoveries and compactions come in between. -/
theorem registered_once (hids : P.FreshIds) (hseals : P.Seals) (h : Fleet.Reachable P fleet) (record : Uuid) :
    (fleet.session.handoffs.filter fun h => h.Registers record).length ≤ 1 := by
  have honce : Once P fleet record := by
    induction h with
    | refl =>
      exact ⟨⟨0, fun j _ => .unowned ⟨(fun _ h => by cases h), (fun _ _ h => by cases h), (fun _ _ h => by cases h)⟩⟩,
        (fun _ h => by cases h), Nat.zero_le _⟩
    | tail hreach hgoes ih =>
      obtain ⟨i, call, faults, -, rfl⟩ := hgoes
      exact ih.step hids hseals (Fleet.Reachable.sound hids hseals hreach) i call faults
  exact honce.once

end Fleet

/-- Alice has registered her login. -/
def registeredVault : Fleet :=
  (importedVault.step .reference 0 (.useSecret (.fromAuthenticatedPeer "owner" "alice" "home") 1
    { mailUse with action := .register } 5 6 fun _ => .returned .accepted) []).1

theorem registered_once_registeredVault :
    (registeredVault.session.handoffs.filter fun h => h.Registers 6).length = 1
      ∧ ∀ fleet, Fleet.Runs .reference (fun _ _ _ => True) registeredVault fleet →
        (fleet.session.handoffs.filter fun h => h.Registers 6).length ≤ 1 := by
  refine ⟨by decide +kernel, fun fleet hruns => ?_⟩
  exact registered_once Platform.reference_freshIds Platform.reference_seals
    (hruns.reachable (importedVault_reachable.step 0 _ [])) 6

end Credman
