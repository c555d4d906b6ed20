import Credman.Resumption
import Credman.Outcomes
import Credman.StandDown

/-! A backup restores: what a ready owner has exported is taken up whole by any store that is
empty, however much later, unless the copy is too large for an image. -/
namespace Credman

open Library Library.Checked Library.FileM Relation Application DurableVault

variable {P : Platform}

/-! A publication that nothing disturbs. -/

section Undisturbed

variable {halt : Halted → VaultMachine → Prop} {m : VaultMachine}

theorem wp_pendingExists_undisturbed {post : Except Error Bool → VaultMachine → Prop} (hclean : m.faults = [])
    (hpending : m.dir .pending = none) (hrecovery : m.dir .recovery = none) :
    wp pendingExists post halt m ↔ post (.ok false) m := by
  unfold pendingExists
  rw [wp_bind, wp_gateExists_undisturbed hclean, hpending]
  simp only [Option.isSome_none]
  rw [wp_gateExists_undisturbed hclean, hrecovery]
  exact Iff.rfl

theorem wp_writeIntent_undisturbed {previous image : Bytes} {post : Bool → VaultMachine → Prop}
    (hclean : m.faults = []) (hpending : m.dir .pending = none) : wp (writeIntent previous image) post halt m ↔
      post true { m with dir := Function.update m.dir .pending (some (gateBytes previous image)) } := by
  unfold writeIntent
  rw [wp_bind, wp_writeNew_undisturbed hclean hpending]
  exact wp_sync_undisturbed (m := { m with dir := Function.update m.dir .pending _ }) hclean

/-- A temporary, an intent, and the rename over the state. -/
theorem renamed_published {d : Dir FileName} {id : Uuid} {createOnly : Bool} {gate image : Bytes}
    (hfree : d (.candidate id) = none) (hstate : createOnly = true → d .state = none) :
    renamed (.candidate id) .state createOnly
        (Function.update (Function.update d (.candidate id) (some image)) .pending (some gate))
      = some (Function.update (Function.update d .pending (some gate)) .state (some image)) := by
  rw [Function.update_comm (by simp)]
  refine renamed_update ?_ (by simp) fun hcreate => ?_
  · rw [Function.update_of_ne (by simp), hfree]
  · rw [Function.update_of_ne (by simp), hstate hcreate]

/-- Once the intent is gone, only the state has changed. -/
theorem cleared_published {d : Dir FileName} {gate image : Bytes} (hpending : d .pending = none) :
    Function.update (Function.update (Function.update d .pending (some gate)) .state (some image)) .pending none
      = Function.update d .state (some image) := by
  rw [Function.update_comm (by simp), Function.update_idem, ← hpending, Function.update_eq_self]

theorem wp_publishWith_undisturbed {store : Store} {app : Application} {key : VaultKey} {salt : Salt}
    {kdf : KdfParams} {image : Bytes} {post : Store × Publication → VaultMachine → Prop}
    (hclean : m.faults = []) (hopen : store.blocked = false) (hpending : m.dir .pending = none)
    (hrecovery : m.dir .recovery = none) (hcurrent : store.currentImage.isNone = true → m.dir .state = none)
    (hfree : m.dir (.candidate (P.uuid (m.rest.drawn + 1))) = none)
    (hseal : sealImage P app key salt kdf (P.nonce m.rest.drawn) = .ok image) :
    wp (store.publishWith P app key salt kdf) post halt m ↔
      post (store.published app image key salt kdf, .durable)
        { m with dir := Function.update m.dir .state (some image), rest := { m.rest with drawn := m.rest.drawn + 2 } } := by
  obtain ⟨d, faults, rest⟩ := m
  obtain rfl : faults = [] := hclean
  simp only at hpending hrecovery hcurrent hfree hseal ⊢
  have hne : FileName.pending ≠ .candidate (P.uuid (rest.drawn + 1)) := by simp
  have hgate : ∀ gate, Function.update (Function.update d .pending (some gate)) .state (some image) .pending
      = some gate := fun gate => by rw [Function.update_of_ne (by simp), Function.update_self]
  unfold Store.publishWith
  simp only [hopen, Bool.false_eq_true, if_false]
  rw [wp_bind, wp_pendingExists_undisturbed rfl hpending hrecovery]
  simp only
  rw [wp_bind, wp_drawIndex]
  simp only [hseal]
  rw [wp_bind, wp_drawIndex]
  simp only
  rw [wp_bind, wp_writeNew_undisturbed rfl hfree]
  simp only [Bool.not_true, Bool.false_eq_true, if_false]
  rw [wp_bind, wp_writeIntent_undisturbed rfl ((Function.update_of_ne hne (some image) d).trans hpending)]
  simp only [Bool.not_true, Bool.false_eq_true, if_false]
  rw [wp_bind, wp_rename_undisturbed rfl (renamed_published hfree hcurrent)]
  simp only [Bool.not_true, Bool.false_eq_true, if_false]
  rw [wp_bind, wp_sync_undisturbed rfl]
  simp only [Bool.not_true, Bool.false_eq_true, if_false]
  rw [wp_bind, wp_unlink_undisturbed rfl (hgate _)]
  simp only [Bool.not_true, Bool.false_eq_true, if_false]
  rw [wp_bind, wp_sync_undisturbed rfl, cleared_published hpending]
  simp only [Bool.not_true, Bool.false_eq_true, if_false, wp_pure, Store.published, hopen]

/-- Nothing is in the way of a new store. -/
structure Vacant (P : Platform) (drawn : Nat) (d : Dir FileName) : Prop where
  state : d .state = none
  pending : d .pending = none
  recovery : d .recovery = none
  free : ∀ n, drawn ≤ n → d (.candidate (P.uuid n)) = none

theorem Vacant.of_empty {drawn : Nat} {d : Dir FileName} (h : ∀ name, d name = none) : Vacant P drawn d :=
  ⟨h _, h _, h _, fun _ _ => h _⟩

/-- A new store is created unless its application cannot be encoded or its phrase is refused. -/
theorem wp_createFromApp_undisturbed {mnemonic : String} {app : Application}
    {post : Except Error DurableVault → VaultMachine → Prop} (hclean : m.faults = [])
    (hvacant : Vacant P m.rest.drawn m.dir)
    (hdone : ∀ bytes key image, app.encode P = .ok bytes →
      deriveKey P mnemonic (P.salt m.rest.drawn) KdfParams.current = .ok key →
      post (.ok { app, store := (newStore key (P.salt m.rest.drawn)).published app image key (P.salt m.rest.drawn)
                    KdfParams.current, frozen := false })
        { m with dir := Function.update m.dir .state (some image), rest := { m.rest with drawn := m.rest.drawn + 3 } })
    (hrefused : ∀ e drawn, (∀ bytes key, app.encode P = .ok bytes →
        deriveKey P mnemonic (P.salt m.rest.drawn) KdfParams.current ≠ .ok key) →
      post (.error e) { m with rest := { m.rest with drawn } }) :
    wp (createFromApp P mnemonic app).run post halt m := by
  obtain ⟨d, faults, rest⟩ := m
  obtain rfl : faults = [] := hclean
  obtain ⟨hstate, hpending, hrecovery, hfree⟩ := hvacant
  simp only at hstate hpending hrecovery hfree hdone hrefused
  unfold createFromApp
  rw [wp_run_bind, wp_run_mk, wp_pure]
  cases hencode : app.encode P with
  | error e => exact hrefused e rest.drawn fun bytes key hno => by rw [hencode] at hno; cases hno
  | ok bytes =>
    simp only
    rw [wp_run_bind, Store.acquire, wp_run_bind, wp_run_mk, wp_pendingExists_undisturbed rfl hpending hrecovery]
    simp only
    rw [wp_run_failIf]
    refine ⟨(fun h => by cases h), fun _ => ?_⟩
    simp only
    have hfits : ∀ image, d .state = some image → image.length ≤ maxImage := by
      intro image himage
      rw [hstate] at himage
      cases himage
    rw [wp_run_bind, wp_run_mk, wp_readImage_undisturbed rfl hfits]
    simp only [hstate, Option.isSome_none]
    rw [wp_run_bind, wp_run_failIf]
    refine ⟨(fun h => by cases h), fun _ => ?_⟩
    simp only
    rw [wp_run_bind, wp_run_drawIndex]
    simp only
    rw [wp_run_bind, wp_run_mk, wp_pure]
    cases hderive : deriveKey P mnemonic (P.salt rest.drawn) KdfParams.current with
    | error e => exact hrefused e (rest.drawn + 1) fun bytes key _ hno => by rw [hderive] at hno; cases hno
    | ok key =>
      simp only
      obtain ⟨image, hseal⟩ : ∃ image, sealImage P app key (P.salt rest.drawn) KdfParams.current
          (P.nonce (rest.drawn + 1)) = .ok image := ⟨_, sealImage_eq_ok.mpr ⟨bytes, hencode, rfl⟩⟩
      rw [wp_run_bind]
      change wp (ExceptT.lift (Store.publish P (newStore key (P.salt rest.drawn)) app)).run _ _ _
      rw [wp_run_lift]
      change wp (Store.publishWith P (newStore key (P.salt rest.drawn)) app key (P.salt rest.drawn) KdfParams.current)
        _ _ _
      rw [wp_publishWith_undisturbed rfl rfl hpending hrecovery (fun _ => hstate) (hfree _ (Nat.le_add_right _ 2)) hseal]
      exact hdone bytes key image hencode hderive

end Undisturbed

/-! The copy that is restored. -/

namespace Application

variable {app next next' : Application} {now : Time}

/-- The whole history of the application, closed, under a clock that goes on from the later time. -/
structure Transferred (now : Time) (app next : Application) : Prop where
  closed : Closed true app next
  frozen : next.clockFrozen = app.clockFrozen
  clock : next.lastTime = some (app.lastTime.elim now (max · now))

/-- There is only one such copy. -/
theorem Transferred.unique (h : Transferred now app next) (h' : Transferred now app next') : next = next' := by
  have hrecords : next.records = next'.records :=
    OrdMap.ext fun i => (h.closed.records i).trans (h'.closed.records i).symm
  have hgrants : next.grants = next'.grants :=
    OrdMap.ext fun i => (h.closed.grants i).trans (h'.closed.grants i).symm
  have hdeliveries : next.deliveries = next'.deliveries :=
    OrdMap.ext fun i => (h.closed.deliveries i).trans (h'.closed.deliveries i).symm
  have hgeneration : next.generation = next'.generation :=
    Option.some.inj (h.closed.generation.symm.trans h'.closed.generation)
  cases next
  cases next'
  simp only [mk.injEq]
  exact ⟨h.closed.tasks.trans h'.closed.tasks.symm, hrecords, hgrants,
    h.closed.requests.trans h'.closed.requests.symm, h.closed.audit.trans h'.closed.audit.symm,
    h.clock.trans h'.clock.symm, h.frozen.trans h'.frozen.symm, hgeneration,
    h.closed.revoked.trans h'.closed.revoked.symm, hdeliveries,
    h.closed.baselines.trans h'.closed.baselines.symm, h.closed.predecessor.trans h'.closed.predecessor.symm⟩

theorem transferred_of_prepared {admin : AuthenticatedContext} (h : app.prepareRestored P admin now = .ok next) :
    Transferred now app next := by
  obtain ⟨-, hclosed, hfrozen, hlast, -⟩ := prepareRestored_eq_ok h
  exact ⟨hclosed, hfrozen, hlast.trans (congrArg some (latest_eq _ _))⟩

/-- What it takes to restore the application: a human of its scope, a generation that is left, a phrase
from which the store's key can be derived, and a copy that is not too large. -/
structure Restorable (P : Platform) (app : Application) (admin : AuthenticatedContext) (mnemonic : String)
    (now : Time) (salt : Salt) : Prop where
  scope : adminScope app admin = .ok ()
  room : app.generation ≠ maxU64
  phrase : ∃ key, deriveKey P mnemonic salt KdfParams.current = .ok key
  fits : ∀ next, Transferred now app next → (P.snapshotJson next.toSnapshot).length ≤ maxPlaintext

theorem Finished.settleable (h : app.Finished) : app.Settleable := fun i d hd hopen _ => absurd hopen (h i d hd)

end Application

section Restore

variable {fleet mid : Fleet} {i j : Nat} {faults : List Fault} {exporter admin : AuthenticatedContext}
  {secret : BackupSecret} {bytes : Bytes} {mnemonic : String} {now : Time} {app : Application}

/-- What was exported is decrypted with the same secret. -/
theorem decrypt_encrypted (hseals : P.Seals) {salt : Salt} {nonce : Nonce} (hdated : app.Timestamped)
    (h : encryptBackup P app secret salt nonce = .ok bytes) : decryptBackup P bytes secret = .ok app := by
  simp only [encryptBackup, bind_eq_ok] at h
  obtain ⟨snapshot, hencode, hencrypt⟩ := h
  obtain ⟨key, hkey⟩ : ∃ key, secret.derive P salt KdfParams.current = .ok key := by
    simp only [encryptSnapshotVersion, bind_eq_ok] at hencrypt
    obtain ⟨-, -, key, hkey, -⟩ := hencrypt
    exact ⟨key, hkey⟩
  obtain ⟨-, hlength, hbytes⟩ := (encryptSnapshot_eq_ok hkey).mp hencrypt
  exact decryptBackup_eq_ok.mpr ⟨hlength, 3, KdfParams.current, salt, nonce, _, key, snapshot, .inr rfl, hbytes,
    Faithful.current_valid, ⟨UInt32.le_refl _, UInt32.le_refl _, UInt32.le_refl _⟩, hkey, hseals.decrypt_encrypt ..,
    decode_encode hseals.toJson hencode hdated.stamped⟩

/-- How a restore ends that nothing disturbs. -/
inductive RestoreEnds (P : Platform) (mid : Fleet) (j : Nat) (app : Application) (admin : AuthenticatedContext)
    (mnemonic : String) (now : Time) (out : Fleet × Answer) : Prop
  | restored {owner : DurableVault} (h : Restorable P app admin mnemonic now (P.salt mid.session.drawn))
      (hanswer : out.2 = .opened (.ok ())) (howner : (out.1.stores j).owner = some owner)
      (happ : Transferred now app owner.app) (hready : owner.ready = .ok ())
  | refused {e : Error} (h : ¬ Restorable P app admin mnemonic now (P.salt mid.session.drawn))
      (hanswer : out.2 = .opened (.error e)) (hsame : out.1.stores = mid.stores)

theorem restore_ends {backup : Nat} (hfree : (mid.stores j).owner = none)
    (hvacant : Vacant P mid.session.drawn (mid.stores j).dir) (hbackup : mid.backups[backup]? = some bytes)
    (hdecrypt : decryptBackup P bytes secret = .ok app) (hvalid : app.Valid P) (hfinished : app.Finished) :
    RestoreEnds P mid j app admin mnemonic now
      (mid.step P j (.restore mnemonic admin backup secret now) []) := by
  unfold Fleet.step
  simp only [hbackup]
  refine Fleet.enter_spec (p := RestoreEnds P mid j app admin mnemonic now)
    (fun owner howner => by rw [hfree] at howner; cases howner) fun _ => ?_
  have hsame : ∀ session, (mid.put j ⟨(mid.stores j).dir, none⟩ session).stores = mid.stores := by
    intro session
    rw [← hfree]
    exact Function.update_eq_self j mid.stores
  unfold restoreBackup
  rw [wp_run_bind, wp_run_failIf]
  constructor
  · intro hstranger
    refine .refused (fun h => ?_) rfl (hsame _)
    rw [(adminScope_eq_ok.mp h.scope).1] at hstranger
    cases hstranger
  · intro _
    simp only
    rw [wp_run_bind, wp_run_pure_lift, hdecrypt]
    simp only
    rw [wp_run_bind, wp_run_pure_lift]
    cases hprepare : app.prepareRestored P admin now with
    | error e =>
      refine .refused (fun h => ?_) rfl (hsame _)
      obtain ⟨next, hnext⟩ := (prepareRestored_iff hvalid).mpr ⟨h.scope, h.room, hfinished.settleable⟩
      rw [hprepare] at hnext
      cases hnext
    | ok next =>
      simp only
      have htransferred := transferred_of_prepared hprepare
      obtain ⟨hscope, hclosed, -, -, hvalid'⟩ := prepareRestored_eq_ok hprepare
      obtain ⟨-, hroom, -⟩ := (prepareRestored_iff hvalid).mp ⟨next, hprepare⟩
      refine wp_createFromApp_undisturbed rfl hvacant ?_ ?_
      · intro bytes key image hencode hderive
        obtain ⟨-, rfl, hlength⟩ := encode_eq_ok.mp hencode
        refine .restored ⟨hscope, hroom, ⟨key, hderive⟩, fun next' h' => ?_⟩ rfl (by rw [Fleet.put_self])
          htransferred rfl
        rwa [h'.unique htransferred]
      · intro e drawn hno
        refine .refused (fun h => ?_) rfl (hsame _)
        obtain ⟨key, hkey⟩ := h.phrase
        exact hno _ key (encode_eq_ok.mpr ⟨hvalid', rfl, h.fits next htransferred⟩) hkey

/-- A backup can be restored, however much later and whatever has become of the vault it was taken from, into
any store that is empty: exactly when a human of its scope asks for it with a usable phrase and the
copy still fits. Then the new owner has the history that was exported; otherwise nothing has changed. -/
theorem backup_restores (hids : P.FreshIds) (hseals : P.Seals) (hreach : Fleet.Reachable P fleet)
    (hexport : (fleet.step P i (.exportBackup exporter secret) faults).2 = .backup (.ok bytes))
    (hruns : Fleet.Runs P (fun _ _ _ => True) (fleet.step P i (.exportBackup exporter secret) faults).1 mid)
    (hfree : (mid.stores j).owner = none) (hvacant : Vacant P mid.session.drawn (mid.stores j).dir)
    (admin : AuthenticatedContext) (mnemonic : String) (now : Time) :
    ∃ owner, (fleet.stores i).owner = some owner ∧ RestoreEnds P mid j owner.app admin mnemonic now
      (mid.step P j (.restore mnemonic admin fleet.backups.length secret now) []) := by
  obtain ⟨owner, hexported⟩ := exported_of_answer hexport
  obtain ⟨n, hencrypt⟩ := hexported.encrypted
  obtain ⟨hsound, hfaithful⟩ := Faithful.runs hids hseals hreach
  have hready : owner.ready = .ok () := by
    have hexportable := hexported.exportable
    simp only [exportable, bind_eq_ok] at hexportable
    obtain ⟨u, hready, -⟩ := hexportable
    exact hready
  have hbackup : mid.backups[fleet.backups.length]? = some bytes := by
    refine hruns.backup hseals ?_
    rw [hexported.backups, List.getElem?_concat_length]
  refine ⟨owner, hexported.held, restore_ends hfree hvacant hbackup
    (decrypt_encrypted hseals ((hsound.stores i).lasting owner hexported.held).dated hencrypt)
    ((hsound.stores i).valid owner hexported.held) (hfaithful i owner hexported.held hready).2⟩

end Restore

/-- The backup that a call returned. -/
def Answer.exported : Answer → Option Bytes
  | .backup (.ok bytes) => some bytes
  | _ => none

theorem Answer.exported_eq_some {answer : Answer} {bytes : Bytes} (h : answer.exported = some bytes) :
    answer = .backup (.ok bytes) := by
  unfold Answer.exported at h
  split at h
  · cases h
    rfl
  · cases h

theorem backup_restores_sharingVault : ∃ owner : DurableVault, (sharingVault.stores 0).owner = some owner
    ∧ RestoreEnds .reference exportedVault 1 owner.app (.fromAuthenticatedAdmin "owner" "human" "home")
      (Platform.referencePhrases.headD "") 7 (exportedVault.step .reference 1 (.restore
        (Platform.referencePhrases.headD "") (.fromAuthenticatedAdmin "owner" "human" "home")
        sharingVault.backups.length (.passphrase "sixteen letters!") 7) []) := by
  have hexported : (sharingVault.step .reference 0 (.exportBackup (.fromAuthenticatedAdmin "owner" "human" "home")
      (.passphrase "sixteen letters!")) []).2.exported.isSome = true := by decide +kernel
  obtain ⟨bytes, hexported⟩ := Option.isSome_iff_exists.mp hexported
  have hframe : ∀ fleet call, (Fleet.step .reference fleet 0 call []).1.stores 1 = fleet.stores 1 :=
    fun fleet call => (stepped Platform.reference_seals fleet 0 call []).frame 1 (by decide)
  have hempty : exportedVault.stores 1 = { dir := fun _ => none, owner := none } := by
    unfold exportedVault sharingVault importedVault referenceVault
    simp only [hframe]
    rfl
  have hruns : Fleet.Runs .reference (fun _ _ _ => True) (sharingVault.step .reference 0
      (.exportBackup (.fromAuthenticatedAdmin "owner" "human" "home") (.passphrase "sixteen letters!")) []).1
      exportedVault := .refl
  have hfree : (exportedVault.stores 1).owner = none := congrArg StoreState.owner hempty
  have hvacant : Vacant .reference exportedVault.session.drawn (exportedVault.stores 1).dir :=
    .of_empty fun name => congrFun (congrArg StoreState.dir hempty) name
  exact backup_restores Platform.reference_freshIds Platform.reference_seals sharingVault_reachable
    (Answer.exported_eq_some hexported) hruns hfree hvacant _ _ _

end Credman
