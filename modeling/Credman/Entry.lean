import Credman.Publication

/-! How a store is entered: the owner that `create` and `open` make. -/
namespace Credman

open Library Library.FileM

variable {P : Platform}

theorem wp_run_drawIndex {post : Except Error Nat → VaultMachine → Prop}
    {halt : Halted → VaultMachine → Prop} {m : VaultMachine} :
    wp (monadLift drawIndex : VaultM Nat).run post halt m ↔
      post (.ok m.rest.drawn) { m with rest := { m.rest with drawn := m.rest.drawn + 1 } } :=
  Iff.rfl

theorem wp_run_failIf {c : Prop} [Decidable c] {e : Error} {post : Except Error Unit → VaultMachine → Prop}
    {halt : Halted → VaultMachine → Prop} {m : VaultMachine} :
    wp (failIf c e : VaultM Unit).run post halt m ↔ (c → post (.error e) m) ∧ (¬ c → post (.ok ()) m) := by
  by_cases h : c <;> simp [failIf, h]

theorem wp_readImage {name : FileName} {post : Except Error (Option Bytes) → VaultMachine → Prop}
    {halt : Halted → VaultMachine → Prop} {m : VaultMachine}
    (hmissing : m.dir name = none → ∀ faults, post (.ok none) { m with faults })
    (hfound : ∀ image, m.dir name = some image → image.length ≤ maxImage →
      ∀ faults, post (.ok (some image)) { m with faults })
    (hfail : ∀ faults, post (.error .invalidStorage) { m with faults })
    (hcrash : ∀ faults, halt .halted { m with faults }) : wp (readImage name) post halt m := by
  rw [readImage, wp_bind]
  apply wp_read
  · intro faults
    cases hname : m.dir name with
    | none => exact hmissing hname faults
    | some image =>
      simp only [wp_ite]
      exact ⟨fun _ => hfail faults, fun hsize => hfound image hname (not_lt.mp hsize) faults⟩
  · exact hfail
  · exact hcrash

/-- Acquiring succeeds only where no gate is left. -/
theorem wp_acquire {post : Except Error Unit → VaultMachine → Prop}
    {halt : Halted → VaultMachine → Prop} {m : VaultMachine}
    (hclear : m.dir .pending = none → m.dir .recovery = none →
      ∀ faults, post (.ok ()) { m with faults })
    (hgated : ∀ faults, post (.error .recoveryRequired) { m with faults })
    (hcrash : ∀ faults, halt .halted { m with faults }) : wp Store.acquire.run post halt m := by
  rw [Store.acquire, wp_run_bind, wp_run_mk]
  apply wp_pendingExists
  · intro hpending hrecovery faults
    exact wp_run_failIf.mpr ⟨nofun, fun _ => hclear hpending hrecovery faults⟩
  · intro faults
    exact wp_run_failIf.mpr ⟨fun _ => hgated faults, fun h => absurd rfl h⟩
  · exact hgated
  · exact hcrash

namespace DurableVault

/-- The store a new vault is published to. -/
def newStore (key : VaultKey) (salt : Salt) : Store :=
  { key, salt, kdf := KdfParams.current, currentImage := none, blocked := false
    persistedLastTime := none, persistedFrozen := false }

/-- How the creation of a store from an application ends. -/
inductive CreatedFrom (P : Platform) (mnemonic : String) (app : Application) (drawn : Nat)
    (d : Dir FileName) : Except Error DurableVault → Dir FileName → Prop
  | refused (e : Error) : CreatedFrom P mnemonic app drawn d (.error e) d
  | published {bytes : Bytes} {key : VaultKey} {store : Store} {publication : Publication}
      {d' : Dir FileName} (hencode : app.encode P = .ok bytes)
      (hderive : deriveKey P mnemonic (P.salt drawn) KdfParams.current = .ok key)
      (hstate : d .state = none) (hpending : d .pending = none) (hrecovery : d .recovery = none)
      (hpublished : Published P (newStore key (P.salt drawn)) app key (P.salt drawn)
        KdfParams.current (drawn + 1) d (store, publication) d') :
    CreatedFrom P mnemonic app drawn d
      (match publication with
        | .durable => .ok { app, store, frozen := store.blocked }
        | .notPublished => .error .notPublished
        | .unknown => .error .recoveryRequired) d'

/-- What the creation leaves when its process dies. -/
inductive CreationCut (P : Platform) (mnemonic : String) (app : Application) (drawn : Nat)
    (d : Dir FileName) : Dir FileName → Prop
  | early : CreationCut P mnemonic app drawn d d
  | cut {bytes : Bytes} {key : VaultKey} {d' : Dir FileName} (hencode : app.encode P = .ok bytes)
      (hderive : deriveKey P mnemonic (P.salt drawn) KdfParams.current = .ok key)
      (hstate : d .state = none) (hpending : d .pending = none) (hrecovery : d .recovery = none)
      (hcut : Cut P (newStore key (P.salt drawn)) app key (P.salt drawn) KdfParams.current
        (drawn + 1) d d') :
    CreationCut P mnemonic app drawn d d'

theorem wp_createFromApp (P : Platform) (mnemonic : String) (app : Application) (m : VaultMachine) :
    wp (createFromApp P mnemonic app).run
      (fun result m' => m.rest.Later m'.rest
        ∧ CreatedFrom P mnemonic app m.rest.drawn m.dir result m'.dir)
      (fun _ m' => m.rest.Later m'.rest
        ∧ CreationCut P mnemonic app m.rest.drawn m.dir m'.dir) m := by
  obtain ⟨d, faults, rest⟩ := m
  have hsame : rest.Later rest := ⟨le_refl _, rfl⟩
  have hone : rest.Later { rest with drawn := rest.drawn + 1 } := ⟨by simp, rfl⟩
  unfold createFromApp
  cases hencode : app.encode P with
  | error e => exact ⟨hsame, .refused e⟩
  | ok bytes =>
    rw [wp_run_bind, wp_run_mk]
    simp only [wp_pure]
    rw [wp_run_bind]
    apply wp_acquire
    case hgated => exact fun faults => ⟨hsame, .refused _⟩
    case hcrash => exact fun faults => ⟨hsame, .early⟩
    intro hpending hrecovery faults
    simp only
    rw [wp_run_bind, wp_run_mk]
    apply wp_readImage
    case hfail => exact fun faults => ⟨hsame, .refused _⟩
    case hcrash => exact fun faults => ⟨hsame, .early⟩
    case hfound =>
      intro image _ _ faults
      simp only
      rw [wp_run_bind, wp_run_failIf]
      exact ⟨fun _ => ⟨hsame, .refused _⟩, fun h => absurd rfl h⟩
    intro hstate faults
    simp only
    rw [wp_run_bind, wp_run_failIf]
    refine ⟨(fun h => by cases h), fun _ => ?_⟩
    simp only
    rw [wp_run_bind, wp_run_drawIndex]
    simp only
    rw [wp_run_bind, wp_run_mk, wp_pure]
    cases hderive : deriveKey P mnemonic (P.salt rest.drawn) KdfParams.current with
    | error e => exact ⟨hone, .refused e⟩
    | ok key =>
      simp only
      rw [wp_run_bind]
      change wp (ExceptT.lift (Store.publish P (newStore key (P.salt rest.drawn)) app)).run _ _ _
      rw [wp_run_lift]
      apply wp_mono (wp_publishWith P (newStore key (P.salt rest.drawn)) app key (P.salt rest.drawn)
        KdfParams.current { dir := d, faults, rest := { rest with drawn := rest.drawn + 1 } })
      · rintro ⟨store, publication⟩ m' ⟨hlater, hpublished⟩
        have hreturned := CreatedFrom.published hencode hderive hstate hpending hrecovery hpublished
        cases publication with
        | notPublished | unknown | durable => exact ⟨hone.trans hlater, hreturned⟩
      · rintro _ m' ⟨hlater, hcut⟩
        exact ⟨hone.trans hlater, .cut hencode hderive hstate hpending hrecovery hcut⟩

/-- The owner of an image that was opened. -/
def ofImage (image : Bytes) (u : Unsealed) : DurableVault where
  app := u.app
  frozen := false
  store := {
    key := u.key, salt := u.salt, kdf := u.kdf, currentImage := some image, blocked := false
    persistedLastTime := u.app.lastTime, persistedFrozen := u.app.clockFrozen }

/-- What an `open` that succeeds has found. -/
structure Opened (P : Platform) (mnemonic : String) (d : Dir FileName) (owner : DurableVault) :
    Prop where
  no_pending : d .pending = none
  no_recovery : d .recovery = none
  image : ∃ image u, d .state = some image ∧ unsealImage P image mnemonic = .ok u
    ∧ owner = ofImage image u
  finished : ∀ id attempt, owner.app.deliveries.get? id = some attempt → attempt.status ≠ none

/-- Opening writes nothing. -/
theorem wp_open (P : Platform) (mnemonic : String) (m : VaultMachine) :
    wp («open» P mnemonic).run
      (fun result m' => m'.rest = m.rest ∧ m'.dir = m.dir
        ∧ ∀ owner, result = .ok owner → Opened P mnemonic m.dir owner)
      (fun _ m' => m'.rest = m.rest ∧ m'.dir = m.dir) m := by
  have hrefused : ∀ (e : Error) (faults : List Fault), m.rest = m.rest ∧ m.dir = m.dir
      ∧ ∀ owner, (.error e : Except Error DurableVault) = .ok owner → Opened P mnemonic m.dir owner :=
    fun e _ => ⟨rfl, rfl, fun _ h => nomatch h⟩
  unfold «open»
  rw [wp_run_bind]
  apply wp_acquire
  case hgated => exact fun faults => hrefused _ faults
  case hcrash => exact fun faults => ⟨rfl, rfl⟩
  intro hpending hrecovery faults
  simp only
  rw [wp_run_bind, wp_run_mk]
  apply wp_readImage
  case hfail => exact fun faults => hrefused _ faults
  case hcrash => exact fun faults => ⟨rfl, rfl⟩
  case hmissing => exact fun _ faults => hrefused _ faults
  intro image hstate _ faults
  simp only
  rw [wp_run_bind, wp_run_mk, wp_pure]
  change wp (ExceptT.mk (pure (unsealImage P image mnemonic)) >>= _ : VaultM DurableVault).run _ _ _
  rw [wp_run_bind, wp_run_mk, wp_pure]
  cases hunseal : unsealImage P image mnemonic with
  | error e => exact hrefused e faults
  | ok u =>
    simp only
    rw [wp_run_bind, wp_run_failIf]
    refine ⟨fun _ => hrefused _ faults, fun hfinished => ⟨rfl, rfl, ?_⟩⟩
    rintro owner ⟨⟩
    refine ⟨hpending, hrecovery, ⟨image, u, hstate, hunseal, rfl⟩, fun id attempt hattempt => ?_⟩
    rw [Bool.not_eq_true, OrdMap.any_false] at hfinished
    have hsome := hfinished id attempt hattempt
    simpa [Option.isSome_iff_ne_none] using hsome

/-- An undisturbed `open` of an ungated image returns the owner made of it. -/
theorem open_undisturbed {mnemonic : String} {m : VaultMachine} {image : Bytes} {u : Unsealed}
    (hclean : m.faults = []) (hpending : m.dir .pending = none) (hrecovery : m.dir .recovery = none)
    (hstate : m.dir .state = some image) (hlength : image.length ≤ maxImage)
    (hunseal : unsealImage P image mnemonic = .ok u)
    (hfinished : ∀ i d, u.app.deliveries.get? i = some d → d.status ≠ none) :
    («open» P mnemonic).run m = .ok (.ok (ofImage image u)) m := by
  have hany : (u.app.deliveries.any fun _ attempt => attempt.status.isNone) = false := by
    rw [OrdMap.any_false]
    intro i d hd
    simpa [Option.isSome_iff_ne_none] using hfinished i d hd
  refine eq_ok_iff_wp.mpr ?_
  unfold «open» Store.acquire pendingExists gateExists readImage
  simp only [wp_run_bind, wp_run_mk, wp_bind, wp_pure, wp_read_undisturbed hclean, hpending, hrecovery,
    Option.isSome_none, wp_run_failIf]
  refine ⟨(fun h => by cases h), fun _ => ?_⟩
  simp only [hstate, wp_ite, wp_pure]
  refine ⟨fun h => absurd h (not_lt.mpr hlength), fun _ => ?_⟩
  have hrequired : required (some image) = .ok image := rfl
  simp only [hrequired, hunseal, hany]
  exact ⟨(fun h => by cases h), fun _ => ⟨rfl, rfl⟩⟩

end DurableVault

end Credman
