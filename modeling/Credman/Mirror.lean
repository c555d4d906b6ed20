import Credman.Law
import Credman.Brokered

/-! The disk mirrors the memory of a ready owner, up to a bounded lag of the clock. -/
namespace Credman

open Library Library.Checked Relation Application DurableVault

variable {P : Platform}

namespace Application

variable {app next : Application} {id : Uuid}

/-- Every delivery has its outcome. -/
def Finished (app : Application) : Prop := ∀ i d, app.deliveries.get? i = some d → d.status ≠ none

theorem Finished.of_deliveries (h : app.Finished)
    (hsub : ∀ i d, next.deliveries.get? i = some d → app.deliveries.get? i = some d) : next.Finished :=
  fun i d hd => h i d (hsub i d hd)

theorem Closed.finished {copy : Bool} (h : Closed copy app next) : next.Finished := by
  intro i d hd
  obtain ⟨d, -, rfl⟩ := h.delivery hd
  unfold closed
  split_ifs with hsome
  · exact Option.isSome_iff_ne_none.mp hsome
  · nofun

theorem Finished.of_stamped (h : app.Finished) (hsame : app.stamped = next.stamped) : next.Finished := by
  intro i d hd
  have hnext : next.stamped.deliveries.get? i = some { d with storedAt := d.storedAt <|> next.lastTime } := by
    unfold stamped
    rw [OrdMap.get?_mapVals, hd]
    rfl
  rw [← hsame] at hnext
  unfold stamped at hnext
  rw [OrdMap.get?_mapVals, Option.map_eq_some_iff] at hnext
  obtain ⟨e, he, heq⟩ := hnext
  simp only [DeliveryAttempt.mk.injEq] at heq
  obtain ⟨-, -, -, -, -, hstatus, -⟩ := heq
  exact hstatus ▸ h i e he

/-- One encoding is of one application, timestamps filled in. -/
theorem stamped_eq_of_encode (hjson : P.Json) {bytes : Bytes} (h : app.encode P = .ok bytes)
    (h' : next.encode P = .ok bytes) : app.stamped = next.stamped := by
  obtain ⟨hvalid, heq, -⟩ := encode_eq_ok.mp h
  obtain ⟨hvalid', heq', -⟩ := encode_eq_ok.mp h'
  have hsame := hjson.json_injective (heq.symm.trans heq')
  rw [← gathered_toSnapshot hvalid, ← gathered_toSnapshot hvalid', hsame]

/-- An operation never changes the generation. -/
theorem Operated.generation_eq (h : Operated P id app next) : next.generation = app.generation := by
  have hticked : ∀ now, (app.ticked now).generation = app.generation := by
    intro now
    unfold ticked
    split_ifs <;> rfl
  cases h with
  | clockOnly h =>
    cases h with
    | ticked => exact hticked _
    | frozen => rfl
  | approved heff h | revoked heff h =>
    rw [h.result]
    exact hticked _
  | executed hid heff h =>
    obtain ⟨t, mid, op, -, -, -, -, hperformed, rfl⟩ := h.change
    have hmid : mid.generation = app.generation := by cases hperformed <;> exact hticked _
    exact hmid
  | logged heff event => exact hticked _
  | prepared heff h =>
    obtain ⟨values, t, r, -, rfl⟩ := h.usable
    unfold Application.prepared
    split_ifs <;> exact hticked _
  | withdrawn h | finished h => cases h <;> rfl
  | reported h event => cases h <;> rfl

end Application

/-! One image under several phrases. -/

section Unseal

variable {image : Bytes} {phrase phrase' : String} {u u' : Unsealed}

/-- Opening depends on a phrase only through its key. -/
theorem unsealImage_of_key (h : unsealImage P image phrase = .ok u)
    (hkey : deriveKey P phrase' u.salt u.kdf = .ok u.key) : unsealImage P image phrase' = .ok u := by
  obtain ⟨hlength, version, nonce, ciphertext, plaintext, hversion, himage, hkdf, -, hrest⟩ :=
    unsealImage_eq_ok.mp h
  exact unsealImage_eq_ok.mpr ⟨hlength, version, nonce, ciphertext, plaintext, hversion, himage, hkdf,
    hkey, hrest⟩

/-- No two phrases open one image to different applications. -/
theorem unsealImage_unique (hseals : P.Seals) (h : unsealImage P image phrase = .ok u)
    (h' : unsealImage P image phrase' = .ok u') : u'.app = u.app := by
  obtain ⟨-, version, nonce, ciphertext, plaintext, -, himage, -, -, hdecrypt, hdecode⟩ :=
    unsealImage_eq_ok.mp h
  obtain ⟨-, version', nonce', ciphertext', plaintext', -, himage', -, -, hdecrypt', hdecode'⟩ :=
    unsealImage_eq_ok.mp h'
  obtain ⟨rfl, hkdf, hsalt, rfl, rfl⟩ := imageBytes_injective (himage.symm.trans himage')
  rw [← hkdf, ← hsalt] at hdecrypt'
  rw [hseals.decrypt_unique _ _ _ _ _ _ _ hdecrypt' hdecrypt, hdecode, Except.ok.injEq] at hdecode'
  exact hdecode'.symm

end Unseal

/-- The persisted high-water is behind the one in memory by less than the persist interval. -/
def Lags : Option Time → Option Time → Prop
  | none, none => True
  | some persisted, some now => persisted ≤ now ∧ now - persisted < clockPersistInterval
  | _, _ => False

theorem Lags.refl (last : Option Time) : Lags last last := by
  cases last with
  | none => exact trivial
  | some t =>
    have hzero : t - t = 0 := Int.sub_self t
    refine ⟨le_refl t, ?_⟩
    rw [hzero]
    decide

/-- While no write is due, the lag stays below the interval. -/
theorem Lags.of_not_due {persisted last next : Option Time} (h : Lags persisted last)
    (hlater : ∀ t, last = some t → ∃ t', next = some t' ∧ t ≤ t') (hdue : due persisted next = false) :
    Lags persisted next := by
  cases persisted with
  | none =>
    cases next with
    | none => exact trivial
    | some t => cases hdue
  | some base =>
    cases last with
    | none => exact h.elim
    | some t =>
      obtain ⟨t', rfl, hle⟩ := hlater t rfl
      refine ⟨h.1.trans hle, ?_⟩
      have hshort : t'.saturatingSub base < clockPersistInterval := not_le.mp (of_decide_eq_false hdue)
      unfold Time.saturatingSub at hshort
      rw [max_lt_iff, min_lt_iff] at hshort
      exact hshort.2.resolve_right (by decide)

/-- What the directory of a ready owner shows: no gate, and an image that opens to the
owner's application, but for the clock. -/
structure Mirrored (P : Platform) (d : Dir FileName) (owner : DurableVault) : Prop where
  no_pending : d .pending = none
  no_recovery : d .recovery = none
  current : d .state = owner.store.currentImage
  phrase : ∃ phrase, deriveKey P phrase owner.store.salt owner.store.kdf = .ok owner.store.key
  opens : ∃ image, d .state = some image
    ∧ (∀ phrase u, unsealImage P image phrase = .ok u →
        u.app = { owner.app with lastTime := owner.store.persistedLastTime })
    ∧ ∀ phrase, deriveKey P phrase owner.store.salt owner.store.kdf = .ok owner.store.key →
        unsealImage P image phrase = .ok {
          app := { owner.app with lastTime := owner.store.persistedLastTime }
          key := owner.store.key, salt := owner.store.salt, kdf := owner.store.kdf }
  lag : Lags owner.store.persistedLastTime owner.app.lastTime

theorem DurableVault.ready_eq_ok {owner : DurableVault} :
    owner.ready = .ok () ↔ owner.frozen = false ∧ owner.store.blocked = false := by
  simp [ready]

namespace Mirrored

variable {d d' : Dir FileName} {owner owner' : DurableVault} {candidate next : Application}
  {key : VaultKey} {salt : Salt} {kdf : KdfParams} {n : Nat}

theorem kdf_valid (h : Mirrored P d owner) : KdfParams.validated owner.store.kdf.mKib
    owner.store.kdf.tCost owner.store.kdf.pCost = .ok owner.store.kdf := by
  obtain ⟨image, -, -, hopens⟩ := h.opens
  obtain ⟨phrase, hkey⟩ := h.phrase
  obtain ⟨-, _, _, _, _, -, -, hkdf, -⟩ := unsealImage_eq_ok.mp (hopens phrase hkey)
  exact hkdf

/-- A publication that left no gate. -/
theorem of_published (hseals : P.Seals) (hdated : next.Timestamped)
    (hkdf : KdfParams.validated kdf.mKib kdf.tCost kdf.pCost = .ok kdf)
    (hphrase : ∃ phrase, deriveKey P phrase salt kdf = .ok key) {store store' : Store}
    (hpublished : Published P store next key salt kdf n d (store', .durable) d')
    (hopen : store'.blocked = false) {frozen : Bool} :
    Mirrored P d' { app := next, store := store', frozen } := by
  cases hpublished with
  | gating => cases hopen
  | @durable image d' _ hseal hreached =>
    refine ⟨hreached.pending, ?_, hreached.state, hphrase, ⟨image, hreached.state, ?_, ?_⟩,
      Lags.refl next.lastTime⟩
    · rw [hreached.frame .recovery (by simp) (by simp) (by simp)]
      exact hreached.no_recovery
    · exact fun phrase u hu => (unseal_of_seal hseals hdated hseal hu).1
    · exact fun phrase hkey => unseal_sealImage hseals hdated hkdf hkey hseal

/-- A candidate kept in memory only. -/
theorem memory (h : Mirrored P d owner) (hkept : ClockKept P owner candidate)
    (hlater : ∀ t, owner.app.lastTime = some t → ∃ t', candidate.lastTime = some t' ∧ t ≤ t') :
    Mirrored P d { owner with app := { owner.app with lastTime := candidate.lastTime } } where
  no_pending := h.no_pending
  no_recovery := h.no_recovery
  current := h.current
  phrase := h.phrase
  opens := h.opens
  lag := h.lag.of_not_due hlater hkept.not_due

/-- A publication that changed nothing but a temporary file. -/
theorem notPublished (h : Mirrored P d owner) {store : Store}
    (hpublished : Published P owner.store next key salt kdf n d (store, .notPublished) d') :
    Mirrored P d' { owner with store } := by
  cases hpublished with
  | unsealed => exact h
  | unwritten hseal hreached =>
    have hstate : d' .state = d .state := hreached.state
    have hrecovery : d' .recovery = none :=
      (hreached.frame .recovery (by simp) (by simp) (by simp)).trans hreached.no_recovery
    obtain ⟨image, himage, hopens⟩ := h.opens
    exact ⟨hreached.pending, hrecovery, hstate.trans h.current, h.phrase,
      ⟨image, hstate.trans himage, hopens⟩, h.lag⟩

/-- A commit leaves a ready owner mirrored. -/
theorem committed (hseals : P.Seals) (h : Mirrored P d owner) (hvalid : owner.app.Valid P)
    (hdated : owner.app.Timestamped) (hdated' : candidate.Timestamped)
    (hlater : ∀ t, owner.app.lastTime = some t → ∃ t', candidate.lastTime = some t' ∧ t ≤ t')
    {result : Except Error Unit} (hc : Committed P owner candidate n d (owner', result) d')
    (hready : owner'.ready = .ok ()) : Mirrored P d' owner' := by
  cases hc with
  | rejected => exact h
  | memory hstage => exact h.memory (stage_none hseals.toJson hvalid hdated hdated' hlater hstage) hlater
  | notPublished hstage hpublished => exact h.notPublished hpublished
  | unknown => simp [ready] at hready
  | durable hstage hpublished =>
    obtain ⟨rfl, -⟩ := stage_some hstage
    have hnext : Application.Timestamped { candidate with generation := owner.app.generation + 1 } :=
      ⟨hdated'.requests, hdated'.deliveries⟩
    exact of_published hseals hnext h.kdf_valid h.phrase hpublished (ready_eq_ok.mp hready).2

/-- A commit that returned is of its candidate, whole or but for the generation. -/
theorem committed_ok (hseals : P.Seals) (hkdf : KdfParams.validated owner.store.kdf.mKib
      owner.store.kdf.tCost owner.store.kdf.pCost = .ok owner.store.kdf)
    (hphrase : ∃ phrase, deriveKey P phrase owner.store.salt owner.store.kdf = .ok owner.store.key)
    (hdated' : candidate.Timestamped)
    (hc : Committed P owner candidate n d (owner', .ok ()) d') :
    owner.stage P candidate = .ok none
      ∨ owner'.app = { candidate with generation := owner.app.generation + 1 }
        ∧ (owner'.ready = .ok () → Mirrored P d' owner') := by
  cases hc with
  | memory hstage => exact .inl hstage
  | durable hstage hpublished =>
    obtain ⟨rfl, -⟩ := stage_some hstage
    have hnext : Application.Timestamped { candidate with generation := owner.app.generation + 1 } :=
      ⟨hdated'.requests, hdated'.deliveries⟩
    exact .inr ⟨rfl, fun hready => of_published hseals hnext hkdf hphrase hpublished
      (ready_eq_ok.mp hready).2⟩

end Mirrored

/-- What a recovery that succeeded leaves opens to the owner it returned. -/
theorem Recovered.opens (hseals : P.Seals) {mnemonic : String} {admin : AuthenticatedContext} {now : Time}
    {n : Nat} {d d' : Dir FileName} {owner : DurableVault}
    (hcarries : (shown d).Carries P fun app => Lasting P n app)
    (h : Recovered P mnemonic admin now d d' owner) : ∃ (image : Bytes) (u : Unsealed),
      shown d' = { state := some image, pending := none, recovery := none }
      ∧ unsealImage P image mnemonic = .ok { u with app := owner.app } ∧ owner.app.Finished
      ∧ owner = .ofImage image { u with app := owner.app } := by
  obtain ⟨s, base, u, image, hsteps, hbase, hunseal, -, htarget, hshown, howner⟩ := h.exact
  have hmid := hcarries.attempt hseals
    (fun _ hclosed hlasting => ⟨hclosed.lasting hlasting, (hclosed.lasting hlasting).dated⟩) hsteps
  obtain ⟨-, -, -, -, -, -, -, hkdf, hkey, -⟩ := unsealImage_eq_ok.mp hunseal
  have hopens : unsealImage P image mnemonic = .ok { u with app := owner.app } ∧ owner.app.Finished := by
    cases htarget with
    | planned k hnone hneeds hagrees hsane hseal =>
      obtain ⟨hclosed, -, -, -⟩ := sanitize_eq_ok hsane
      have hlasting := hclosed.lasting (hmid.shows hbase mnemonic u hunseal)
      exact ⟨unseal_sealImage hseals hlasting.dated hkdf hkey hseal, hclosed.finished⟩
    | resumed hplan hgate hagrees hcheck =>
      obtain ⟨previous, target, hplanned, happ⟩ := checkPlan_eq_ok.mp hcheck
      obtain ⟨last, expected, bytes, -, hsane, hleft, hright⟩ := hplanned.same
      obtain ⟨hclosed, -, -, -⟩ := sanitize_eq_ok hsane
      obtain ⟨-, -, -, -, -, -, -, -, hkey', -⟩ := unsealImage_eq_ok.mp hplanned.opens_plan
      obtain ⟨hsalt, hkdf'⟩ := hplanned.target_params
      rw [← hsalt, ← hkdf', hkey, Except.ok.injEq] at hkey'
      constructor
      · rw [hplanned.opens_plan, happ, hkey', hsalt, hkdf']
      · rw [happ]
        exact hclosed.finished.of_stamped (stamped_eq_of_encode hseals.toJson hleft hright)
  exact ⟨image, u, hshown, hopens.1, hopens.2, howner⟩

/-- What is asked of every store: a ready owner is mirrored, and nothing of it is open. -/
def Faithful (P : Platform) (store : StoreState) : Prop :=
  ∀ owner, store.owner = some owner → owner.ready = .ok () →
    Mirrored P store.dir owner ∧ owner.app.Finished

namespace Faithful

variable {d d' : Dir FileName} {owner : DurableVault} {store store' : StoreState}
  {call : Call} {backups : List Bytes} {b : Nat} {s s' : Session}

theorem of_unready (h : owner.ready ≠ .ok ()) : Faithful P ⟨d, some owner⟩ := by
  intro owner' howner hready
  cases howner
  exact absurd hready h

theorem owned (hmirrored : owner.ready = .ok () → Mirrored P d owner) (hfinished : owner.app.Finished) :
    Faithful P ⟨d, some owner⟩ := by
  intro owner' howner hready
  cases howner
  exact ⟨hmirrored hready, hfinished⟩

theorem unowned : Faithful P ⟨d, none⟩ := fun _ => nofun

/-- Publications, by what is published. -/
theorem published (hseals : P.Seals) {next : Application} {key : VaultKey} {salt : Salt}
    {kdf : KdfParams} {n : Nat} {out : Store × Publication} (hready : owner.ready = .ok ())
    (h : Faithful P ⟨d, some owner⟩) (hdated : next.Timestamped) (hfinished : next.Finished)
    (hkdf : KdfParams.validated kdf.mKib kdf.tCost kdf.pCost = .ok kdf)
    (hphrase : ∃ phrase, deriveKey P phrase salt kdf = .ok key)
    (hpublished : Published P owner.store next key salt kdf n d out d') :
    Faithful P ⟨d', some (owner.after next out)⟩ := by
  obtain ⟨hmirrored, hold⟩ := h owner rfl hready
  obtain ⟨store, outcome⟩ := out
  cases outcome with
  | notPublished => exact owned (fun _ => hmirrored.notPublished hpublished) hold
  | unknown => exact of_unready fun hready => by simp [after, ready] at hready
  | durable =>
    exact owned (fun hready => .of_published hseals hdated hkdf hphrase hpublished
      (ready_eq_ok.mp hready).2) hfinished

theorem current_valid : KdfParams.validated KdfParams.current.mKib KdfParams.current.tCost
    KdfParams.current.pCost = .ok KdfParams.current := by decide

theorem created (hseals : P.Seals) {mnemonic : String} {app : Application} {n : Nat}
    {result : Except Error DurableVault} (hdated : app.Timestamped) (hfinished : app.Finished)
    (hcreated : CreatedFrom P mnemonic app n d result d') : Faithful P ⟨d', result.toOption⟩ := by
  cases hcreated with
  | refused => exact unowned
  | @published bytes key store outcome d' hencode hderive hstate hpending hrecovery hpublished =>
    cases outcome with
    | notPublished | unknown => exact unowned
    | durable =>
      exact owned (fun hready => .of_published hseals hdated current_valid ⟨mnemonic, hderive⟩ hpublished
        (ready_eq_ok.mp hready).2) hfinished

/-- An image that was opened mirrors the owner made of it. -/
theorem ofImage (hseals : P.Seals) {image : Bytes} {phrase : String} {u : Unsealed}
    (hpending : d .pending = none) (hrecovery : d .recovery = none) (hstate : d .state = some image)
    (hunseal : unsealImage P image phrase = .ok u) (hfinished : u.app.Finished) :
    Faithful P ⟨d, some (.ofImage image u)⟩ := by
  obtain ⟨-, -, -, -, -, -, -, -, hkey, -⟩ := unsealImage_eq_ok.mp hunseal
  refine owned (fun _ => ⟨hpending, hrecovery, hstate, ⟨phrase, hkey⟩, ⟨image, hstate, ?_, ?_⟩,
    Lags.refl u.app.lastTime⟩) hfinished
  · exact fun phrase' u' hu' => unsealImage_unique hseals hunseal hu'
  · exact fun phrase' hkey' => unsealImage_of_key hunseal hkey'

theorem recovered (hseals : P.Seals) {mnemonic : String} {admin : AuthenticatedContext} {now : Time}
    {n : Nat} (hcarries : (shown d).Carries P fun app => Lasting P n app)
    (h : Recovered P mnemonic admin now d d' owner) : Faithful P ⟨d', some owner⟩ := by
  obtain ⟨image, u, hshown, hunseal, hfinished, howner⟩ := h.opens hseals hcarries
  rw [howner]
  exact ofImage hseals (congrArg Shown.pending hshown) (congrArg Shown.recovery hshown)
    (congrArg Shown.state hshown) hunseal hfinished

/-- Every event of a call that delivers nothing leaves a store as faithful as it was. -/
theorem event (hids : P.FreshIds) (hseals : P.Seals) (hcall : call.delivers = false)
    (hkept : Kept P (fun _ => True) s.drawn store) (hcopies : Copies P (fun _ => True) s.drawn backups)
    (hevent : Event P backups b call (store, s) (store', s')) (h : Faithful P store) :
    Faithful P store' := by
  cases hevent with
  | drawn => exact h
  | handed => exact h
  | dropped => exact unowned
  | cutOff => exact unowned
  | creationCut => exact unowned
  | attempted => exact unowned
  | @memory d owner candidate s s' hlater hready hran hstage =>
    obtain ⟨hmirrored, hfinished⟩ := h owner rfl hready
    have hvalid := hkept.valid owner rfl
    have hlasting := hkept.lasting owner rfl
    obtain ⟨hstaged, hstagedLasting, hlast⟩ := staged_lasting hvalid hlasting
    have hmono := fun t ht => hran.run.operated.lastTime t (hlast.trans ht)
    have hclock := stage_none hseals.toJson hvalid hlasting.dated
      (hstagedLasting.ran hids hstaged hlater.drawn hran).dated hmono hstage
    exact owned (fun _ => hmirrored.memory hclock hmono) hfinished
  | @published d d' owner next key salt kdf s s' n out hlater hready hpublishes hpublished =>
    obtain ⟨hmirrored, hfinished⟩ := h owner rfl hready
    have hvalid := hkept.valid owner rfl
    have hlasting := hkept.lasting owner rfl
    cases hpublishes with
    | @commit _ candidate _ hran hstage =>
      obtain ⟨hstaged, hstagedLasting, -⟩ := staged_lasting hvalid hlasting
      have hdated := (hstagedLasting.ran hids hstaged hlater.drawn hran).dated
      obtain ⟨rfl, -⟩ := stage_some hstage
      have hshrinks := staged_shrinks hvalid hlasting.once
      refine published hseals hready h ⟨hdated.requests, hdated.deliveries⟩
        (hfinished.of_deliveries fun i a ha => hshrinks.deliveries i a ?_) hmirrored.kdf_valid
        hmirrored.phrase hpublished
      exact hran.run.deliveries_eq hcall ▸ ha
    | rekey k hcandidate =>
      obtain ⟨-, -, -, -, hkey, previous, -, rfl⟩ := rekeyCandidate_eq_ok.mp hcandidate
      exact published hseals hready h ⟨hlasting.dated.requests, hlasting.dated.deliveries⟩ hfinished
        current_valid ⟨_, hkey⟩ hpublished
  | authorized htrue =>
    rw [hcall] at htrue
    cases htrue
  | frozen => exact of_unready fun hready => by simp [ready] at hready
  | @created d d' mnemonic app s s' n result hlater harises hcreated =>
    obtain ⟨-, hlasting⟩ := harises.sound hcopies
    refine created hseals hlasting.dated ?_ hcreated
    cases harises with
    | created => exact fun _ _ h => nomatch h
    | restored _ _ _ hprepare => exact (prepareRestored_eq_ok hprepare).2.1.finished
  | @opened d mnemonic owner s _ hopened =>
    obtain ⟨image, u, hstate, hunseal, rfl⟩ := hopened.image
    exact ofImage hseals hopened.no_pending hopened.no_recovery hstate hunseal hopened.finished
  | @recovered m m' mnemonic admin now owner _ hattempted hrecovered =>
    exact recovered hseals (hkept.carries.mono fun _ h => h.1) hrecovered

/-- One commit of an operation that leaves nothing open. -/
theorem applied (hids : P.FreshIds) (hseals : P.Seals) {α : Type} {operation : AppM α}
    {m m' : VaultMachine} {out : DurableVault × Except Error α} {n n' : Nat}
    (hvalid : owner.app.Valid P) (hlasting : Lasting P n owner.app) (hle : n ≤ n')
    (hran : call.Ran P b n n' owner.staged (owner.proposal operation).2)
    (hfinished : owner.ready = .ok () → (owner.proposal operation).1 = out.2 →
      (owner.proposal operation).2.Finished)
    (h : Faithful P ⟨m.dir, some owner⟩) (happlied : Applied P owner operation m out m') :
    Faithful P ⟨m'.dir, some out.1⟩ := by
  obtain ⟨hstaged, hstagedLasting, hlast⟩ := staged_lasting hvalid hlasting
  cases happlied with
  | refused => exact h
  | @ran owner' committed m' hready hlater hcommitted =>
    obtain ⟨hmirrored, hold⟩ := h owner rfl hready
    have hcandidate := hstagedLasting.ran hids hstaged hle hran
    have hmono := fun t ht => hran.run.operated.lastTime t (hlast.trans ht)
    have hmirrored' := hmirrored.committed hseals hvalid hlasting.dated hcandidate.dated hmono hcommitted
    refine owned hmirrored' ?_
    generalize m'.dir = d' at hcommitted
    generalize m.dir = d at hcommitted
    cases hcommitted with
    | rejected | memory | notPublished | unknown => exact hold
    | durable hstage =>
      obtain ⟨rfl, -⟩ := stage_some hstage
      exact hfinished hready rfl

end Faithful

/-! Private use, whose attempt is open between its two commits. -/

section Use

variable {owner owner' journaled : DurableVault} {ctx : AuthenticatedContext} {task attempt : Uuid}
  {request : PrivateUse} {preparedAt handoffAt : Time} {deliver : SecretInput → Delivered}
  {m m' m'' : VaultMachine}

/-- The owner of an open attempt: its directory shows the attempt, and nothing else is open. -/
structure Delivering (P : Platform) (attempt : Uuid) (d : Dir FileName) (owner : DurableVault) :
    Prop where
  mirrored : Mirrored P d owner
  attempted : ∃ a, owner.app.deliveries.get? attempt = some a ∧ a.status = none
  others : ∀ i a, i ≠ attempt → owner.app.deliveries.get? i = some a → a.status ≠ none

/-- What a prepared use hands to `commit`. -/
theorem proposal_prepared (hnone : (owner.proposal (Application.usePrepare P ctx task request attempt
      preparedAt)).1 = .ok none) :
    ∃ effective, owner.staged.effectiveTime preparedAt = .ok effective
      ∧ Prepared P ctx task request attempt effective (owner.staged.ticked preparedAt)
        (owner.proposal (Application.usePrepare P ctx task request attempt preparedAt)).2 := by
  revert hnone
  refine proposal_spec (p := fun result next => result = .ok none → ∃ effective,
    owner.staged.effectiveTime preparedAt = .ok effective
      ∧ Prepared P ctx task request attempt effective (owner.staged.ticked preparedAt) next)
    (wp_mono (wp_usePrepare P ctx task request attempt preparedAt owner.staged)
      (fun out next hnext hout => ?_) fun _ _ _ => nofun)
  obtain ⟨effective, heff, ⟨-, hprepared⟩ | ⟨receipt, rfl, -⟩⟩ := hnext
  · exact ⟨effective, heff, hprepared⟩
  · cases hout

/-- A use that does not journal leaves the deliveries alone. -/
theorem proposal_unprepared (hsome : (owner.proposal (Application.usePrepare P ctx task request attempt
      preparedAt)).1 ≠ .ok none) :
    (owner.proposal (Application.usePrepare P ctx task request attempt preparedAt)).2.deliveries
      = owner.staged.deliveries := by
  revert hsome
  refine proposal_spec (p := fun result next => result ≠ .ok none →
    next.deliveries = owner.staged.deliveries)
    (wp_mono (wp_usePrepare P ctx task request attempt preparedAt owner.staged)
      (fun out next hnext hout => ?_) fun _ next hclock _ => ?_)
  · obtain ⟨effective, heff, ⟨rfl, -⟩ | ⟨receipt, rfl, -, rfl⟩⟩ := hnext
    · exact absurd rfl hout
    · exact ticked_deliveries _ _
  · cases hclock with
    | ticked => exact ticked_deliveries _ _
    | frozen => rfl

theorem DurableVault.Journaled.delivering (hids : P.FreshIds) (hseals : P.Seals) (hvalid : owner.app.Valid P)
    (hlasting : Lasting P m.rest.drawn owner.app) (hfaithful : Faithful P ⟨m.dir, some owner⟩)
    (h : Journaled P owner ctx task request preparedAt m journaled m') :
    Delivering P (P.uuid m.rest.drawn) m'.dir journaled := by
  obtain ⟨hready, hnone, hcommitted⟩ := h.prepared.ok
  obtain ⟨hmirrored, hfinished⟩ := hfaithful owner rfl hready
  obtain ⟨hstaged, hstagedLasting, hlast⟩ := staged_lasting hvalid hlasting
  have hfresh := hlasting.fresh hids (le_refl m.rest.drawn)
  obtain ⟨effective, -, hprepared⟩ := proposal_prepared hnone
  obtain ⟨version, hdeliveries⟩ := hprepared.deliveries_eq
  rw [ticked_deliveries] at hdeliveries
  have hran : (Call.useSecret ctx task request preparedAt preparedAt fun _ => .failed).Ran P
      m.rest.drawn m.rest.drawn (m.rest.drawn + 1) owner.staged _ :=
    prepare_ran (m := m) _ _ (proposal_leaves _)
  have hcandidate := hstagedLasting.ran hids hstaged (Nat.le_succ _) hran
  have hmono := fun t ht => hran.run.operated.lastTime t (hlast.trans ht)
  rcases Mirrored.committed_ok hseals hmirrored.kdf_valid hmirrored.phrase hcandidate.dated hcommitted
    with hstage | ⟨happ, hmirror⟩
  · -- a new attempt is more than a new clock
    have hsame := (stage_none hseals.toJson hvalid hlasting.dated hcandidate.dated hmono hstage).same
    have hdel : owner.app.deliveries = _ := (congrArg Application.deliveries hsame).trans hdeliveries
    have hfound := congrArg (fun l : OrdMap Uuid DeliveryAttempt => l.get? (P.uuid m.rest.drawn)) hdel
    simp only [OrdMap.get?_insert_self, hfresh.delivery, reduceCtorEq] at hfound
  · have hshrinks := staged_shrinks hvalid hlasting.once
    have hjournal : journaled.app.deliveries = _ :=
      (congrArg Application.deliveries happ).trans hdeliveries
    refine ⟨hmirror h.ready, ⟨_, by rw [hjournal, OrdMap.get?_insert_self], rfl⟩, fun i a hi ha => ?_⟩
    rw [hjournal, OrdMap.get?_insert_ne _ _ (Ne.symm hi)] at ha
    exact hfinished i a (hshrinks.deliveries i a ha)

/-- The second check moves the clock of the owner at most, which nothing on disk shows yet. -/
structure Resumed (P : Platform) (attempt : Uuid) (d : Dir FileName) (n : Nat)
    (owner : DurableVault) : Prop where
  valid : owner.app.Valid P
  lasting : Lasting P n owner.app
  kdf : KdfParams.validated owner.store.kdf.mKib owner.store.kdf.tCost owner.store.kdf.pCost
    = .ok owner.store.kdf
  phrase : ∃ phrase, deriveKey P phrase owner.store.salt owner.store.kdf = .ok owner.store.key
  attempted : ∃ a, owner.app.deliveries.get? attempt = some a ∧ a.status = none
  others : ∀ i a, i ≠ attempt → owner.app.deliveries.get? i = some a → a.status ≠ none

theorem Delivering.resumed {d : Dir FileName} {n : Nat} {app : Application} {now : Time}
    (h : Delivering P attempt d owner) (hvalid : owner.app.Valid P)
    (hlasting : Lasting P n owner.app) (hclock : owner.app.ClockOnly now app) :
    Resumed P attempt d n { owner with app } := by
  have hsame : app.deliveries = owner.app.deliveries := by
    cases hclock with
    | ticked => exact ticked_deliveries _ _
    | frozen => rfl
  refine ⟨hvalid.clockOnly hclock, ?_, h.mirrored.kdf_valid, h.mirrored.phrase, ?_, ?_⟩
  · cases hclock with
    | ticked => exact hlasting.of_eq (by simp) (by simp) (by simp) (by simp) (by simp)
    | frozen => exact hlasting.of_eq rfl rfl rfl rfl rfl
  · change ∃ a, app.deliveries.get? attempt = some a ∧ a.status = none
    rw [hsame]
    exact h.attempted
  · intro i a hi ha
    change app.deliveries.get? i = some a at ha
    rw [hsame] at ha
    exact h.others i a hi ha

/-- An operation that gives the open attempt its outcome. -/
def DurableVault.Settles (owner : DurableVault) (attempt : Uuid) (operation : AppM Unit) : Prop :=
  (owner.proposal operation).1 = .ok () → ∃ settled : DeliveryAttempt, settled.status ≠ none
    ∧ (owner.proposal operation).2.deliveries = owner.staged.deliveries.insert attempt settled

theorem settles_useCancel (owner : DurableVault) (request : PrivateUse) (attempt : Uuid) :
    owner.Settles attempt (Application.useCancel request attempt) :=
  proposal_spec (p := fun result next => result = .ok () → ∃ settled : DeliveryAttempt,
    settled.status ≠ none ∧ next.deliveries = owner.staged.deliveries.insert attempt settled)
    (wp_mono (wp_useCancel request attempt owner.staged)
      (fun _ _ ⟨hsettled, d, hd⟩ _ => ⟨Application.withdrawn d, by simp [Application.withdrawn],
        hsettled.deliveries_eq hd⟩) fun _ _ _ => nofun)

theorem settles_useFinish (owner : DurableVault) (ctx : AuthenticatedContext) (task : Uuid)
    (request : PrivateUse) (attempt : Uuid) (status : DeliveryStatus) (effective : Time) :
    owner.Settles attempt (Application.useFinish ctx task request attempt status effective) :=
  proposal_spec (p := fun result next => result = .ok () → ∃ settled : DeliveryAttempt,
    settled.status ≠ none ∧ next.deliveries = owner.staged.deliveries.insert attempt settled)
    (wp_mono (wp_useFinish ctx task request attempt status effective owner.staged)
      (fun _ _ ⟨d, _, _, _, hnext⟩ _ => ⟨{ d with status := some status }, by simp, hnext ▸ rfl⟩)
      fun _ _ _ => nofun)

section Concluded

variable {operation : AppM Unit} {b n n' : Nat}

/-- A commit that settles the attempt is never a clock update. -/
theorem Resumed.staged {d : Dir FileName} (call : Call) (hids : P.FreshIds) (hseals : P.Seals)
    (h : Resumed P attempt d n owner) (hle : n ≤ n')
    (hran : call.Ran P b n n' owner.staged (owner.proposal operation).2)
    (hsettles : owner.Settles attempt operation) (hok : (owner.proposal operation).1 = .ok ()) :
    owner.stage P (owner.proposal operation).2 ≠ .ok none := by
  intro hstage
  obtain ⟨hstaged, hstagedLasting, hlast⟩ := staged_lasting h.valid h.lasting
  have hcandidate := hstagedLasting.ran hids hstaged hle hran
  have hmono := fun t ht => hran.run.operated.lastTime t (hlast.trans ht)
  obtain ⟨settled, hsettled, hnew⟩ := hsettles hok
  have hsame := (stage_none hseals.toJson h.valid h.lasting.dated hcandidate.dated hmono hstage).same
  have hdel : owner.app.deliveries = _ := (congrArg Application.deliveries hsame).trans hnew
  obtain ⟨a, ha, hopen⟩ := h.attempted
  rw [hdel, OrdMap.get?_insert_self, Option.some.injEq] at ha
  exact absurd (ha ▸ hopen) hsettled

/-- So it is published. -/
theorem Resumed.concluded (call : Call) (hids : P.FreshIds) (hseals : P.Seals)
    (h : Resumed P attempt m.dir n owner) (hle : n ≤ n')
    (hran : call.Ran P b n n' owner.staged (owner.proposal operation).2)
    (hsettles : owner.Settles attempt operation)
    (happlied : Applied P owner operation m (owner', .ok ()) m') :
    Faithful P ⟨m'.dir, some owner'⟩ := by
  obtain ⟨hready, hok, hcommitted⟩ := happlied.ok
  obtain ⟨hstaged, hstagedLasting, -⟩ := staged_lasting h.valid h.lasting
  have hcandidate := hstagedLasting.ran hids hstaged hle hran
  obtain ⟨settled, hsettled, hnew⟩ := hsettles hok
  obtain hstage | ⟨happ, hmirror⟩ := Mirrored.committed_ok hseals h.kdf h.phrase hcandidate.dated hcommitted
  · exact absurd hstage (h.staged call hids hseals hle hran hsettles hok)
  · have hshrinks := staged_shrinks h.valid h.lasting.once
    refine .owned hmirror fun i a ha => ?_
    have hdel : owner'.app.deliveries = _ := (congrArg Application.deliveries happ).trans hnew
    rw [hdel, OrdMap.get?_insert] at ha
    split_ifs at ha with heq
    · rw [Option.some.injEq] at ha
      exact ha ▸ hsettled
    · exact h.others i a (Ne.symm heq) (hshrinks.deliveries i a ha)

end Concluded

/-- What the second commit of a private use starts from. -/
theorem DurableVault.Journaled.resumed {app : Application} (hids : P.FreshIds) (hseals : P.Seals)
    (hkept : Kept P (fun _ => True) m.rest.drawn ⟨m.dir, some owner⟩)
    (hfaithful : Faithful P ⟨m.dir, some owner⟩)
    (h : Journaled P owner ctx task request preparedAt m journaled m')
    (hleaves : Leaves (Application.useAuthorize ctx task request handoffAt) journaled.app app) :
    Kept P (fun _ => True) m'.rest.drawn ⟨m'.dir, some journaled⟩
      ∧ Resumed P (P.uuid m.rest.drawn) m'.dir m'.rest.drawn { journaled with app } := by
  have hevent : Event P [] m.rest.drawn (.useSecret ctx task request preparedAt handoffAt fun _ => .failed)
    (⟨m.dir, some owner⟩, m.rest) (⟨m'.dir, some journaled⟩, m'.rest) := h.event
  have hnone : Copies P (fun _ => True) m.rest.drawn [] := by
    intro bytes hmem
    cases hmem
  have hafter := hkept.event hids hseals (keeps_true _) (Nat.zero_le _) (Nat.zero_le _)
    (fun _ => fun _ => trivial) hnone hevent
  have hclock : journaled.app.ClockOnly handoffAt app :=
    hleaves.of_wp (wp_mono (wp_useAuthorize ctx task request handoffAt journaled.app)
      (fun _ next ⟨heff, _, hnext⟩ => hnext ▸ .ticked heff) fun _ _ hclock => hclock)
  exact ⟨hafter, (h.delivering hids hseals (hkept.valid owner rfl) (hkept.lasting owner rfl) hfaithful).resumed
    (hafter.valid journaled rfl) (hafter.lasting journaled rfl) hclock⟩

/-- Whatever becomes of a private use, a ready owner is mirrored and nothing of it is open. -/
theorem DurableVault.Used.faithful {out : DurableVault × UseOutcome} (hids : P.FreshIds) (hseals : P.Seals)
    (hkept : Kept P (fun _ => True) m.rest.drawn ⟨m.dir, some owner⟩)
    (hfaithful : Faithful P ⟨m.dir, some owner⟩)
    (h : Used P owner ctx task request preparedAt handoffAt deliver m out m') :
    Faithful P ⟨m'.dir, some out.1⟩ := by
  have hvalid := hkept.valid owner rfl
  have hlasting := hkept.lasting owner rfl
  have hfrozen : ∀ {d : Dir FileName} {app : Application} {store : Store},
      Faithful P ⟨d, some { app, store, frozen := true }⟩ :=
    .of_unready fun hready => by simp [ready] at hready
  have hrefused : ∀ {owner' : DurableVault} {result : Except Error (Option DeliveryReceipt)}
      {m' : VaultMachine}, Applied P owner (Application.usePrepare P ctx task request
        (P.uuid m.rest.drawn) preparedAt) (numbered m) (owner', result) m' → result ≠ .ok none →
      Faithful P ⟨m'.dir, some owner'⟩ := by
    intro owner' result m' happlied hresult
    have hran : (Call.useSecret ctx task request preparedAt handoffAt deliver).Ran P m.rest.drawn
        m.rest.drawn (m.rest.drawn + 1) owner.staged _ :=
      prepare_ran (m := m) _ _ (proposal_leaves _)
    have hnumbered : Faithful P ⟨(numbered m).dir, some owner⟩ := hfaithful
    refine hnumbered.applied hids hseals hvalid hlasting (Nat.le_succ _) hran
      (fun hready heq => ?_) happlied
    -- nothing was journaled
    obtain ⟨-, hfinished⟩ := hfaithful owner rfl hready
    change _ = result at heq
    have hsame := proposal_unprepared (by rw [heq]; exact hresult)
    refine hfinished.of_deliveries fun i a ha => ?_
    exact (staged_shrinks hvalid hlasting.once).deliveries i a (hsame ▸ ha)
  cases h with
  | refused h => exact hrefused h nofun
  | replayed h => exact hrefused h nofun
  | gated _ hready => exact .of_unready (by simp [hready])
  | @withdrawn journaled owner' e app m' m'' h hcheck hcancel =>
    have hstart := (h.resumed hids hseals hkept hfaithful (.inr ⟨_, hcheck⟩)).2
    exact hstart.concluded (.useSecret ctx task request preparedAt handoffAt deliver) hids hseals
      (le_refl _) (.inr fun _ => .useCancel (proposal_leaves _)) (settles_useCancel _ _ _) hcancel
  | stuck | unrecorded | @panicked journaled => exact hfrozen
  | @finished journaled owner' values effective app m' m'' m₃ h hfinish result =>
    have hstart : Resumed P (P.uuid m.rest.drawn) m''.dir m''.rest.drawn { journaled with app } := by
      have hjournal := (h.journal.resumed hids hseals hkept hfaithful (.inl ⟨_, h.check⟩)).2
      rw [h.log]
      exact hjournal
    exact hstart.concluded (.useSecret ctx task request preparedAt handoffAt deliver) hids hseals
      (le_refl _) (.inr fun _ => .useFinish (proposal_leaves _)) (settles_useFinish _ _ _ _ _ _ _) hfinish

end Use

/-! Runs. -/

section Runs

variable {fleet : Fleet} {i : Nat}

/-- What one call leaves at its own store. -/
theorem Faithful.step (hids : P.FreshIds) (hseals : P.Seals) (hsound : Sound P fleet) (call : Call)
    (faults : List Fault) (h : Faithful P (fleet.stores i)) :
    Faithful P ((fleet.step P i call faults).1.stores i) := by
  by_cases hcall : call.delivers = false
  · have hall : ∀ {x y : StoreState × Session}, ReflTransGen (Event P fleet.backups fleet.session.drawn call) x y →
        Kept P (fun _ => True) x.2.drawn x.1 → Copies P (fun _ => True) x.2.drawn fleet.backups →
        Faithful P x.1 → Faithful P y.1 := by
      intro x y hevents hkept hcopies hx
      induction hevents with
      | refl => exact hx
      | tail hevents hevent ih =>
        obtain ⟨hmid, hle, -⟩ := hkept.events hids hseals (keeps_true call) (Nat.zero_le _) (Nat.zero_le _)
          (.inr fun _ => trivial) hcopies hevents
        exact ih.event hids hseals hcall hmid (hcopies.later hle) hevent
    exact hall (stepped hseals fleet i call faults).events (hsound.stores i) hsound.backups h
  · cases call with
    | useSecret ctx task request preparedAt handoffAt deliver =>
      apply Fleet.ask_spec (p := fun out => Faithful P (out.1.stores i))
      · exact fun _ => h
      · intro owner howner
        have hstore : fleet.stores i = ⟨(fleet.stores i).dir, some owner⟩ := by
          rw [← howner]
        have hkept := hsound.stores i
        rw [hstore] at hkept h
        refine wp_mono (wp_useSecret P owner ctx task request preparedAt handoffAt deliver _) ?_ ?_
        · intro out m' hused
          rw [Fleet.put_self]
          exact hused.faithful hids hseals hkept h
        · intro _ m' _
          rw [Fleet.put_self]
          exact .unowned
    | _ => exact absurd rfl hcall

theorem Faithful.runs (hids : P.FreshIds) (hseals : P.Seals) (h : Fleet.Reachable P fleet) :
    Sound P fleet ∧ ∀ i, Faithful P (fleet.stores i) := by
  induction h with
  | refl => exact ⟨sound_start, fun _ => .unowned⟩
  | @tail mid _ _ hstep ih =>
    obtain ⟨hsound, hfaithful⟩ := ih
    obtain ⟨j, call, faults, -, rfl⟩ := hstep
    have hstepped := stepped hseals mid j call faults
    refine ⟨hstepped.sound hids hseals hsound, fun i => ?_⟩
    by_cases hi : i = j
    · subst hi
      exact (hfaithful i).step hids hseals hsound call faults
    · rw [hstepped.frame i hi]
      exact hfaithful i

/-- Whatever a commit does, the owner stays valid, with what lasts. -/
theorem DurableVault.Committed.sound {owner owner' : DurableVault} {candidate : Application} {n n' k : Nat}
    {d d' : Dir FileName} {result : Except Error Unit} (hjson : P.Json) (hvalid : owner.app.Valid P)
    (hlasting : Lasting P n owner.app) (hle : n ≤ n') (hcandidate : Lasting P n' candidate)
    (hmono : ∀ t, owner.app.lastTime = some t → ∃ t', candidate.lastTime = some t' ∧ t ≤ t')
    (hc : Committed P owner candidate k d (owner', result) d') :
    owner'.app.Valid P ∧ Lasting P n' owner'.app := by
  cases hc with
  | rejected | notPublished | unknown => exact ⟨hvalid, hlasting.later hle⟩
  | memory hstage =>
    have hkept := stage_none hjson hvalid hlasting.dated hcandidate.dated hmono hstage
    exact ⟨hkept.valid, (hlasting.later hle).of_eq rfl rfl rfl rfl rfl⟩
  | durable hstage =>
    obtain ⟨rfl, hnext⟩ := stage_some hstage
    exact ⟨hnext, hcandidate.of_eq rfl rfl rfl rfl rfl⟩

/-- Only a new clock keeps a candidate from being published. -/
theorem Call.Runs.skipped {owner : DurableVault} {call : Call} {candidate : Application} {b n : Nat}
    (hids : P.FreshIds) (hjson : P.Json) (hvalid : owner.app.Valid P) (hlasting : Lasting P n owner.app)
    (hruns : call.Runs P b n owner.staged candidate) (hstage : owner.stage P candidate = .ok none) :
    candidate = { owner.app with lastTime := candidate.lastTime } := by
  obtain ⟨hstaged, hstagedLasting, hlast⟩ := staged_lasting hvalid hlasting
  have hoperated := hruns.operated
  have hcandidate := hstagedLasting.operated hids hstaged (le_refl n) hoperated
  have hkept := stage_none hjson hvalid hlasting.dated hcandidate.dated
    (fun t ht => hoperated.lastTime t (hlast.trans ht)) hstage
  have hgeneration : candidate.generation = owner.app.generation :=
    hoperated.generation_eq.trans (staged_shrinks hvalid hlasting.once).generation
  rw [hkept.same, ← hgeneration]

theorem Proposes.skipped {owner owner' : DurableVault} {call : Call} {candidate : Application}
    {n : Nat} (hids : P.FreshIds) (hjson : P.Json) (hvalid : owner.app.Valid P)
    (hlasting : Lasting P n owner.app) (h : Proposes P owner n call owner' candidate)
    (hstage : owner'.stage P candidate = .ok none) :
    candidate = { owner'.app with lastTime := candidate.lastTime } := by
  obtain ⟨hstaged, hstagedLasting, hlast⟩ := staged_lasting hvalid hlasting
  -- the owner of the second commit of a private use
  have hsecond : ∀ {ctx : AuthenticatedContext} {task : Uuid} {use : PrivateUse}
      {preparedAt handoffAt : Time} (deliver : SecretInput → Delivered) {m m' : VaultMachine}
      {journaled : DurableVault} {app : Application} {candidate : Application},
      owner.apply P (Application.usePrepare P ctx task use (P.uuid n) preparedAt) m
        = .ok (journaled, .ok none) m' →
      Leaves (Application.useAuthorize ctx task use handoffAt) journaled.app app →
      (∀ k, (Call.useSecret ctx task use preparedAt handoffAt deliver).Runs P n k
        (staged { journaled with app }) candidate) →
      stage P { journaled with app } candidate = .ok none →
      candidate = { app with lastTime := candidate.lastTime } := by
    intro ctx task use preparedAt handoffAt deliver m m' journaled app candidate hjournaled hleaves
      hruns hstage
    obtain ⟨-, -, hcommitted⟩ := (wp_ok (wp_applied P owner _ m) hjournaled).ok
    have hran : (Call.useSecret ctx task use preparedAt handoffAt deliver).Ran P n n (n + 1)
        owner.staged _ := .inl ⟨Nat.lt_succ_self n, .usePrepare (proposal_leaves _)⟩
    obtain ⟨hv, hl⟩ := hcommitted.sound hjson hvalid hlasting (Nat.le_succ n)
      (hstagedLasting.ran hids hstaged (Nat.le_succ n) hran)
      (fun t ht => hran.run.operated.lastTime t (hlast.trans ht))
    have hclock : journaled.app.ClockOnly handoffAt app :=
      hleaves.of_wp (wp_mono (wp_useAuthorize ctx task use handoffAt journaled.app)
        (fun _ next ⟨heff, _, hnext⟩ => hnext ▸ .ticked heff) fun _ _ hclock => hclock)
    have hlasting' : Lasting P (n + 1) app := by
      cases hclock with
      | ticked => exact hl.of_eq (by simp) (by simp) (by simp) (by simp) (by simp)
      | frozen => exact hl.of_eq rfl rfl rfl rfl rfl
    have hruns' : (Call.useSecret ctx task use preparedAt handoffAt deliver).Runs P n (n + 1)
        (staged { journaled with app }) candidate := hruns (n + 1)
    exact hruns'.skipped hids hjson (hv.clockOnly hclock) hlasting' hstage
  cases h with
  | approveTask =>
    exact (Call.Runs.approveTask (b := n) (proposal_leaves _)).skipped hids hjson hvalid hlasting hstage
  | revokeTask =>
    exact (Call.Runs.revokeTask (b := n) (proposal_leaves _)).skipped hids hjson hvalid hlasting hstage
  | mutate =>
    exact (Call.Runs.mutate (b := n) (proposal_leaves _)).skipped hids hjson hvalid hlasting hstage
  | metadata =>
    exact (Call.Runs.metadata (b := n) (proposal_leaves _)).skipped hids hjson hvalid hlasting hstage
  | importForTask =>
    exact (Call.Runs.importForTask (b := n) (proposal_leaves _)).skipped hids hjson hvalid hlasting hstage
  | readForTask =>
    exact (Call.Runs.readForTask (b := n) (proposal_leaves _)).skipped hids hjson hvalid hlasting hstage
  | usePrepare ctx task use preparedAt handoffAt deliver =>
    have hruns : (Call.useSecret ctx task use preparedAt handoffAt deliver).Runs P n n owner.staged _ :=
      .usePrepare (proposal_leaves _)
    exact hruns.skipped hids hjson hvalid hlasting hstage
  | useCancel _ _ _ _ _ deliver hjournaled hcheck =>
    exact hsecond deliver hjournaled (.inr ⟨_, hcheck⟩) (fun _ => .useCancel (proposal_leaves _))
      hstage
  | useFinish _ _ _ _ _ deliver hjournaled hcheck =>
    exact hsecond deliver hjournaled (.inl ⟨_, hcheck⟩) (fun _ => .useFinish (proposal_leaves _))
      hstage

/-- Closing a mirrored store and opening it again, undisturbed. -/
theorem Mirrored.reopened {owner : DurableVault} {phrase : String}
    (h : Mirrored P (fleet.stores i).dir owner) (hfinished : owner.app.Finished)
    (hkey : deriveKey P phrase owner.store.salt owner.store.kdf = .ok owner.store.key) :
    ∃ reopened, (fleet.step P i .close []).1.step P i (.open phrase) []
        = (fleet.put i ⟨(fleet.stores i).dir, some reopened⟩ fleet.session, .opened (.ok ()))
      ∧ reopened.app = { owner.app with lastTime := owner.store.persistedLastTime }
      ∧ reopened.ready = .ok () := by
  obtain ⟨image, hstate, -, hopens⟩ := h.opens
  have hunseal := hopens phrase hkey
  have hopen : EStateM.run (DurableVault.open P phrase).run
      { dir := (fleet.stores i).dir, faults := [], rest := fleet.session } = _ :=
    open_undisturbed rfl h.no_pending h.no_recovery hstate (unsealImage_eq_ok.mp hunseal).1 hunseal
      hfinished
  refine ⟨ofImage image { app := { owner.app with lastTime := owner.store.persistedLastTime }
                          key := owner.store.key, salt := owner.store.salt, kdf := owner.store.kdf },
    ?_, rfl, by simp [ready, ofImage]⟩
  change (fleet.put i { fleet.stores i with owner := none } fleet.session).enter i []
    (DurableVault.open P phrase) = _
  unfold Fleet.enter Fleet.run
  simp only [Fleet.put_self, Fleet.put_session]
  rw [hopen]
  simp only [Fleet.put, Function.update_idem]

/-- The disk refines the memory of every ready owner: its published image decodes to its
application, but for a clock less than a minute behind; a commit skips publication for
a new clock only; and dropping the owner and opening the store again yields that application. -/
theorem disk_refines_memory {owner : DurableVault} (hids : P.FreshIds) (hseals : P.Seals)
    (h : Fleet.Reachable P fleet) (howner : (fleet.stores i).owner = some owner)
    (hready : owner.ready = .ok ()) :
    (∃ image, (fleet.stores i).dir .state = some image
      ∧ (∃ phrase u, unsealImage P image phrase = .ok u)
      ∧ (∀ phrase u, unsealImage P image phrase = .ok u →
        u.app = { owner.app with lastTime := owner.store.persistedLastTime })
      ∧ Lags owner.store.persistedLastTime owner.app.lastTime)
    ∧ (∀ call owner' candidate, Proposes P owner fleet.session.drawn call owner' candidate →
      owner'.stage P candidate = .ok none → candidate = { owner'.app with lastTime := candidate.lastTime })
    ∧ (∃ phrase, deriveKey P phrase owner.store.salt owner.store.kdf = .ok owner.store.key)
    ∧ ∀ phrase, deriveKey P phrase owner.store.salt owner.store.kdf = .ok owner.store.key →
      ∃ reopened, (fleet.step P i .close []).1.step P i (.open phrase) []
          = (fleet.put i ⟨(fleet.stores i).dir, some reopened⟩ fleet.session, .opened (.ok ()))
        ∧ reopened.app = { owner.app with lastTime := owner.store.persistedLastTime }
        ∧ reopened.ready = .ok () := by
  obtain ⟨hsound, hfaithful⟩ := Faithful.runs hids hseals h
  obtain ⟨hmirrored, hfinished⟩ := hfaithful i owner howner hready
  obtain ⟨image, hstate, happ, hopens⟩ := hmirrored.opens
  obtain ⟨phrase, hkey⟩ := hmirrored.phrase
  refine ⟨⟨image, hstate, ⟨phrase, _, hopens phrase hkey⟩, happ, hmirrored.lag⟩, ?_, ⟨phrase, hkey⟩,
    fun phrase hkey => hmirrored.reopened hfinished hkey⟩
  exact fun call owner' candidate hproposes hstage => hproposes.skipped hids hseals.toJson
    ((hsound.stores i).valid owner howner) ((hsound.stores i).lasting owner howner) hstage

end Runs

/-- A task is approved at 3, and a refused call at 20 moves the clock in memory only. -/
def laggingVault : Fleet :=
  ((referenceVault.step .reference 0
      (.approveTask (.fromAuthenticatedAdmin "owner" "human" "home") aliceTask 3) []).1.step .reference 0
    (.revokeTask (.fromAuthenticatedAdmin "owner" "human" "home") 99 20) []).1

theorem laggingVault_reachable : Fleet.Reachable .reference laggingVault :=
  ((Fleet.Reachable.start.step 0 _ []).step 0 _ []).step 0 _ []

theorem disk_refines_memory_lagging : ∃ owner image, (laggingVault.stores 0).owner = some owner
    ∧ owner.app.lastTime = some 20 ∧ (laggingVault.stores 0).dir .state = some image
    ∧ ∀ phrase u, unsealImage .reference image phrase = .ok u →
      u.app = { owner.app with lastTime := some 3 } := by
  have hlagging : ((laggingVault.stores 0).owner.any fun owner => !owner.frozen && !owner.store.blocked
      && owner.app.lastTime == some 20 && owner.store.persistedLastTime == some 3) = true := by
    decide +kernel
  rw [Option.any_eq_true_iff_get] at hlagging
  obtain ⟨hsome, hlagging⟩ := hlagging
  obtain ⟨owner, howner⟩ := Option.isSome_iff_exists.mp hsome
  simp only [howner, Option.get_some, Bool.and_eq_true, Bool.not_eq_true', beq_iff_eq] at hlagging
  obtain ⟨⟨hready, hnow⟩, hpersisted⟩ := hlagging
  obtain ⟨⟨image, hstate, -, happ, -⟩, -⟩ := disk_refines_memory Platform.reference_freshIds
    Platform.reference_seals laggingVault_reachable howner (ready_eq_ok.mpr hready)
  rw [hpersisted] at happ
  exact ⟨owner, image, howner, hnow, hstate, happ⟩

end Credman
