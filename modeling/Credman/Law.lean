import Credman.Events
import Credman.Staging
import Credman.Settlement

/-! Laws: what every call keeps of the applications of one store, in the memory of
its owner and in every image its directory can be opened or recovered to. -/
namespace Credman

open Library Library.Checked Relation Application DurableVault

variable {P : Platform}

/-! What a sealed image can be opened to. -/

/-- What holds of every application an image can be opened to. -/
def Opens (P : Platform) (φ : Application → Prop) (image : Bytes) : Prop :=
  ∀ mnemonic u, unsealImage P image mnemonic = .ok u → φ u.app

theorem Opens.mono {φ ψ : Application → Prop} {image : Bytes} (h : Opens P φ image)
    (himp : ∀ app, φ app → ψ app) : Opens P ψ image :=
  fun mnemonic u hu => himp u.app (h mnemonic u hu)

theorem unsealImage_valid {image : Bytes} {mnemonic : String} {u : Unsealed}
    (h : unsealImage P image mnemonic = .ok u) : u.app.Valid P := by
  obtain ⟨-, _, _, _, _, -, -, -, -, -, hdecode⟩ := unsealImage_eq_ok.mp h
  obtain ⟨-, _, -, -, -, -, -, -, hvalid⟩ := decode_eq_ok.mp hdecode
  exact hvalid

section Seal

variable {app : Application} {key : VaultKey} {salt : Salt} {kdf : KdfParams} {nonce : Nonce}
  {image : Bytes} {mnemonic : String}

/-- Whoever opens an image finds what was sealed in it. -/
theorem unseal_of_seal (hseals : P.Seals) (hdated : app.Timestamped)
    (hseal : sealImage P app key salt kdf nonce = .ok image) {u : Unsealed}
    (hunseal : unsealImage P image mnemonic = .ok u) : u.app = app ∧ u.salt = salt ∧ u.kdf = kdf
      ∧ deriveKey P mnemonic salt kdf = .ok u.key := by
  obtain ⟨plaintext, hencode, rfl⟩ := sealImage_eq_ok.mp hseal
  obtain ⟨-, version, nonce', ciphertext, plaintext', -, heq, -, hkey, hdecrypt, hdecode⟩ :=
    unsealImage_eq_ok.mp hunseal
  obtain ⟨rfl, rfl, rfl, rfl, rfl⟩ := imageBytes_injective heq
  have hsame := hseals.decrypt_unique _ _ _ _ _ _ _ hdecrypt
    (hseals.decrypt_encrypt key nonce plaintext _)
  rw [hsame, decode_encode hseals.toJson hencode hdated.stamped, Except.ok.injEq] at hdecode
  exact ⟨hdecode.symm, rfl, rfl, hkey⟩

theorem opens_of_seal (hseals : P.Seals) (hdated : app.Timestamped)
    (hseal : sealImage P app key salt kdf nonce = .ok image) {φ : Application → Prop} (h : φ app) :
    Opens P φ image := by
  intro mnemonic u hunseal
  rw [(unseal_of_seal hseals hdated hseal hunseal).1]
  exact h

/-- The phrase an image was sealed under opens it. -/
theorem unseal_sealImage (hseals : P.Seals) (hdated : app.Timestamped)
    (hkdf : KdfParams.validated kdf.mKib kdf.tCost kdf.pCost = .ok kdf)
    (hkey : deriveKey P mnemonic salt kdf = .ok key)
    (hseal : sealImage P app key salt kdf nonce = .ok image) :
    unsealImage P image mnemonic = .ok { app, key, salt, kdf } := by
  obtain ⟨plaintext, hencode, rfl⟩ := sealImage_eq_ok.mp hseal
  exact unseal_sealed (.inr rfl) hkdf hkey (hseals.encrypt_length ..) (hseals.decrypt_encrypt ..)
    (decode_encode hseals.toJson hencode hdated.stamped)

end Seal

/-! The images of a store. -/

/-- Every image that an `open` or a recovery can take up. -/
structure Shown.Carries (P : Platform) (φ : Application → Prop) (s : Shown) : Prop where
  state : ∀ image, s.state = some image → Opens P φ image
  pending : ∀ bytes gate, s.pending = some bytes → parseGate bytes = .ok gate → Opens P φ gate.2
  recovery : ∀ bytes gate, s.recovery = some bytes → parseGate bytes = .ok gate → Opens P φ gate.2

namespace Shown.Carries

variable {φ ψ : Application → Prop} {s : Shown}

theorem mono (h : s.Carries P φ) (himp : ∀ app, φ app → ψ app) : s.Carries P ψ where
  state image hs := (h.state image hs).mono himp
  pending bytes gate hs hgate := (h.pending bytes gate hs hgate).mono himp
  recovery bytes gate hs hgate := (h.recovery bytes gate hs hgate).mono himp

/-- A publication leaves the old images, or shows the new one. -/
theorem reached {n : Nat} {previous image : Bytes} {d d' : Dir FileName} {stage : Stage}
    (h : (shown d).Carries P φ) (himage : Opens P φ image) (hfits : image.length ≤ maxImage)
    (hprevious : previous.length ≤ maxImage) (hreached : Reached P n previous image d stage d') :
    (shown d').Carries P φ := by
  refine ⟨fun found hstate => ?_, fun bytes gate hpending hgate => ?_, fun bytes gate hrecovery => ?_⟩
  · have hstate' : d' .state = some found := hstate
    rw [hreached.state] at hstate'
    cases stage with
    | untouched | intending => exact h.state found hstate'
    | swapped | cleared =>
      cases hstate'
      exact himage
  · have hpending' : d' .pending = some bytes := hpending
    rw [hreached.pending] at hpending'
    obtain ⟨k, rfl⟩ : ∃ k, bytes = (gateBytes previous image).take k := by
      cases stage with
      | untouched | cleared => cases hpending'
      | intending k => exact ⟨k, (Option.some.inj hpending').symm⟩
      | swapped => exact ⟨_, (Option.some.inj hpending').symm.trans List.take_length.symm⟩
    obtain ⟨previous', next⟩ := gate
    obtain ⟨-, -, rfl⟩ := parseGate_take hprevious hfits hgate
    exact himage
  · have hrecovery' : d' .recovery = some bytes := hrecovery
    rw [hreached.frame .recovery (by simp) (by simp) (by simp), hreached.no_recovery] at hrecovery'
    cases hrecovery'

/-- What a recovery starts from. -/
theorem shows {mnemonic : String} {base : Bytes} (h : s.Carries P φ)
    (hbase : s.Shows P mnemonic base) : Opens P φ base := by
  rcases hbase with hstate | ⟨-, bytes, gate, hpending, hgate, habsent⟩
  · exact h.state base hstate
  · have hsame : base = gate.2 := by
      unfold absentInitial at habsent
      simp only [bind_eq_ok, pure_eq_ok] at habsent
      obtain ⟨-, -, -, -, -, -, heq⟩ := habsent
      exact heq.symm
    subst hsame
    exact h.pending bytes gate hpending hgate

theorem reconcile {mnemonic : String} {admin : AuthenticatedContext} {now : Time} {s' : Shown}
    (h : s.Carries P φ) (hseals : P.Seals)
    (hclosed : ∀ {app next : Application}, app.Valid P → Closed false app next → φ app →
      φ next ∧ next.Timestamped)
    (hstep : Reconcile P mnemonic admin now s s') : s'.Carries P φ := by
  cases hstep with
  | @adopt visible bytes old next hstate hsealed hpending hgate hcheck =>
    refine ⟨?_, h.pending, h.recovery⟩
    rintro image ⟨⟩
    exact h.pending bytes _ hpending hgate
  | @plan base image u app n hbase hunseal hscope hnone hneeds hagrees hsane hseal hwhole =>
    refine ⟨h.state, h.pending, ?_⟩
    rintro bytes gate ⟨⟩ hgate
    rw [hwhole, Except.ok.injEq] at hgate
    subst hgate
    have hu := h.shows hbase mnemonic u hunseal
    obtain ⟨hsanitized, -, -, -⟩ := sanitize_eq_ok hsane
    obtain ⟨hnext, hdated⟩ := hclosed (unsealImage_valid hunseal) hsanitized hu
    exact opens_of_seal hseals hdated hseal hnext
  | @install bytes base image hplan hgate =>
    refine ⟨?_, h.pending, h.recovery⟩
    rintro found ⟨⟩
    exact h.recovery bytes _ hplan hgate
  | settle => exact ⟨h.state, nofun, h.recovery⟩
  | clear => exact ⟨h.state, h.pending, nofun⟩

theorem attempt {mnemonic : String} {admin : AuthenticatedContext} {now : Time} {s' : Shown}
    (h : s.Carries P φ) (hseals : P.Seals)
    (hclosed : ∀ {app next : Application}, app.Valid P → Closed false app next → φ app →
      φ next ∧ next.Timestamped)
    (hsteps : ReflTransGen (Reconcile P mnemonic admin now) s s') : s'.Carries P φ := by
  induction hsteps with
  | refl => exact h
  | tail _ hstep ih => exact ih.reconcile hseals hclosed hstep

end Shown.Carries

theorem orRecovery_eq_ok {α : Type} {x : Except Error α} {a : α} : orRecovery x = .ok a ↔ x = .ok a := by
  cases x with
  | error e => exact ⟨nofun, nofun⟩
  | ok b => exact Iff.rfl

/-! What lasts, over every operation of a call. -/

theorem Call.Ran.run {b drawn drawn' : Nat} {call : Call} {app next : Application}
    (h : call.Ran P b drawn drawn' app next) : call.Runs P b drawn app next := by
  rcases h with ⟨-, hruns⟩ | hruns
  · exact hruns
  · exact hruns drawn

theorem Application.Lasting.ran {b n n' : Nat} {call : Call} {app next : Application}
    (hids : P.FreshIds) (h : Lasting P n app) (hvalid : app.Valid P) (hle : n ≤ n')
    (hran : call.Ran P b n n' app next) : Lasting P n' next := by
  have hnext := h.operated hids hvalid (le_refl n) hran.run.operated
  rcases hran with ⟨hlt, -⟩ | hruns
  · exact hnext.later hlt
  · refine ⟨hnext.once, hnext.rise, hnext.dated, fun i hi => ?_⟩
    have hold : app.Names i := by
      rcases (hruns n).operated.names hi with hold | heq
      · exact hold
      · refine ((hruns (n + 1)).operated.names hi).resolve_right fun heq' => ?_
        have hsame := hids.uuid_injective (heq.symm.trans heq')
        omega
    obtain ⟨k, hk, rfl⟩ := h.named i hold
    exact ⟨k, by omega, rfl⟩

/-- A property of applications that the operations of a call keep, and recovery too where
the call is one. -/
structure Keeps (P : Platform) (φ : Application → Prop) (since : Nat) (call : Call) : Prop where
  ran : ∀ {b n : Nat} {app next : Application}, since ≤ b → since ≤ n → app.Valid P →
    Lasting P n app → φ app → call.Runs P b n app next → φ next
  compacted : ∀ {n : Nat} {app : Application}, app.Valid P → Lasting P n app → φ app → φ app.compact
  renumbered : ∀ {app : Application} (g : UInt64) (p : Option Digest), φ app →
    φ { app with generation := g, predecessor := p }
  recovered : ∀ {mnemonic : String} {admin : AuthenticatedContext} {now : Time}
    {app next : Application}, call = .recover mnemonic admin now → app.Valid P →
    Closed false app next → φ app → φ next

/-- One store, while its session has drawn `n` times: its owner's application and every
image it carries are valid, lasting and have the property. -/
structure Kept (P : Platform) (φ : Application → Prop) (n : Nat) (store : StoreState) : Prop where
  valid : ∀ owner, store.owner = some owner → owner.app.Valid P
  lasting : ∀ owner, store.owner = some owner → Lasting P n owner.app
  holds : ∀ owner, store.owner = some owner → φ owner.app
  fits : ∀ owner image, store.owner = some owner → owner.store.currentImage = some image →
    image.length ≤ maxImage
  carries : (shown store.dir).Carries P fun app => Lasting P n app ∧ φ app

/-- Every copy a backup can be decrypted to has what lasts. -/
def Copies (P : Platform) (φ : Application → Prop) (n : Nat) (backups : List Bytes) : Prop :=
  ∀ bytes ∈ backups, ∀ secret copy, decryptBackup P bytes secret = .ok copy → Lasting P n copy ∧ φ copy

theorem Call.Arises.sound {n : Nat} {backups : List Bytes} {call : Call} {app : Application}
    (h : call.Arises P backups app) (hcopies : Copies P (fun _ => True) n backups) :
    app.Valid P ∧ Lasting P n app := by
  cases h with
  | created => exact ⟨validate_eq_ok.mp rfl, .created⟩
  | @restored _ admin backup secret now bytes copy app hbackup hdecrypt hprepare =>
    obtain ⟨-, hclosed, -, -, hvalid⟩ := prepareRestored_eq_ok hprepare
    obtain ⟨hlasting, -⟩ := hcopies bytes (List.mem_of_getElem? hbackup) secret copy hdecrypt
    exact ⟨hvalid, hclosed.lasting hlasting⟩

/-- The plan of an earlier attempt is opened, and is what the base would be sanitized to. -/
structure Planned (P : Platform) (mnemonic : String) (admin : AuthenticatedContext) (visible : Bytes)
    (u : Unsealed) (base planned : Bytes) (previous target : Unsealed) : Prop where
  opens_base : unsealImage P base mnemonic = .ok previous
  opens_plan : unsealImage P planned mnemonic = .ok target
  previous_scope : adminScope previous.app admin = .ok ()
  target_scope : adminScope target.app admin = .ok ()
  previous_params : u.salt = previous.salt ∧ u.kdf = previous.kdf
  target_params : u.salt = target.salt ∧ u.kdf = target.kdf
  shows : visible = base ∨ visible = planned
  same : ∃ last expected bytes, target.app.lastTime = some last
    ∧ previous.app.sanitize P last = .ok expected ∧ expected.encode P = .ok bytes
    ∧ target.app.encode P = .ok bytes

theorem checkPlan_eq_ok {mnemonic : String} {admin : AuthenticatedContext} {visible base planned : Bytes}
    {u : Unsealed} {app : Application} :
    checkPlan P mnemonic admin visible u (base, planned) = .ok app ↔ ∃ previous target,
      Planned P mnemonic admin visible u base planned previous target ∧ app = target.app := by
  simp only [checkPlan, bind_eq_ok, orRecovery_eq_ok, pure_eq_ok, failIf_eq_ok, orElse_eq_ok, not_or,
    not_and, not_not, ne_eq]
  constructor
  · rintro ⟨previous, hprevious, target, htarget, _, hscope, _, hscope', _, ⟨hs, hs', hk, hk', hvisible⟩,
      last, hlast, expected, hsane, left, hleft, right, hright, _, hsame, rfl⟩
    subst hsame
    refine ⟨previous, target, ⟨hprevious, htarget, hscope, hscope', ⟨hs, hk⟩, ⟨hs', hk'⟩, ?_,
      ⟨last, expected, left, hlast, hsane, hleft, hright⟩⟩, rfl⟩
    exact or_iff_not_imp_left.mpr hvisible
  · rintro ⟨previous, target, h, rfl⟩
    obtain ⟨last, expected, bytes, hlast, hsane, hleft, hright⟩ := h.same
    exact ⟨previous, h.opens_base, target, h.opens_plan, (), h.previous_scope, (), h.target_scope, (),
      ⟨h.previous_params.1, h.target_params.1, h.previous_params.2, h.target_params.2,
        or_iff_not_imp_left.mp h.shows⟩, last, hlast, expected, hsane, bytes, hleft, bytes, hright, (),
      rfl, rfl⟩

namespace Kept

variable {φ : Application → Prop} {n n' since : Nat} {store : StoreState} {d d' : Dir FileName}
  {owner : DurableVault} {next : Application} {key : VaultKey} {salt : Salt} {kdf : KdfParams}

theorem later (h : Kept P φ n store) (hle : n ≤ n') : Kept P φ n' store where
  valid := h.valid
  lasting owner howner := (h.lasting owner howner).later hle
  holds := h.holds
  fits := h.fits
  carries := h.carries.mono fun _ ⟨hlasting, hφ⟩ => ⟨hlasting.later hle, hφ⟩

theorem unowned (h : (shown d).Carries P fun app => Lasting P n app ∧ φ app) :
    Kept P φ n { dir := d, owner := none } where
  valid _ := nofun
  lasting _ := nofun
  holds _ := nofun
  fits _ _ := nofun
  carries := h

theorem owned (hvalid : owner.app.Valid P) (hlasting : Lasting P n owner.app) (hφ : φ owner.app)
    (hfits : ∀ image, owner.store.currentImage = some image → image.length ≤ maxImage)
    (h : (shown d).Carries P fun app => Lasting P n app ∧ φ app) :
    Kept P φ n { dir := d, owner := some owner } where
  valid owner' howner := by
    cases howner
    exact hvalid
  lasting owner' howner := by
    cases howner
    exact hlasting
  holds owner' howner := by
    cases howner
    exact hφ
  fits owner' image howner := by
    cases howner
    exact hfits image
  carries := h

/-- What a publication may make of the images, and of the current one. -/
theorem publication (hseals : P.Seals) {store : Store} {n₀ : Nat} {out : Store × Publication}
    (hlasting : Lasting P n next) (hφ : φ next)
    (hfits : ∀ image, store.currentImage = some image → image.length ≤ maxImage)
    (h : (shown d).Carries P fun app => Lasting P n app ∧ φ app)
    (hpublished : Published P store next key salt kdf n₀ d out d') :
    (∀ image, out.1.currentImage = some image → image.length ≤ maxImage)
      ∧ (shown d').Carries P fun app => Lasting P n app ∧ φ app := by
  have hprevious : (store.currentImage.getD []).length ≤ maxImage := by
    cases hcurrent : store.currentImage with
    | none => exact Nat.zero_le _
    | some image => exact hfits image hcurrent
  have hreached : ∀ {image : Bytes} {stage : Stage} {d' : Dir FileName},
      sealImage P next key salt kdf (P.nonce n₀) = .ok image →
      Reached P n₀ (store.currentImage.getD []) image d stage d' →
      image.length ≤ maxImage ∧ (shown d').Carries P fun app => Lasting P n app ∧ φ app := by
    intro image stage d' hseal hreached
    have hlength := (sealImage_fits hseals hseal).1
    exact ⟨hlength, h.reached (opens_of_seal hseals hlasting.dated hseal ⟨hlasting, hφ⟩) hlength
      hprevious hreached⟩
  cases hpublished with
  | gated | unsealed => exact ⟨hfits, h⟩
  | unwritten hseal hreach | unknown hseal hreach => exact ⟨hfits, (hreached hseal hreach).2⟩
  | gating hseal _ hreach | durable _ hseal hreach =>
    obtain ⟨hlength, hcarries⟩ := hreached hseal hreach
    exact ⟨fun found hfound => Option.some.inj hfound ▸ hlength, hcarries⟩

theorem cut (hseals : P.Seals) {store : Store} {n₀ : Nat} (hlasting : Lasting P n next) (hφ : φ next)
    (hfits : ∀ image, store.currentImage = some image → image.length ≤ maxImage)
    (h : (shown d).Carries P fun app => Lasting P n app ∧ φ app)
    (hcut : Cut P store next key salt kdf n₀ d d') :
    (shown d').Carries P fun app => Lasting P n app ∧ φ app := by
  cases hcut with
  | early => exact h
  | reached hseal hreach => exact (publication hseals hlasting hφ hfits h (.unknown hseal hreach)).2

variable {backups : List Bytes} {call : Call} {b : Nat}

/-- What a call publishes keeps what the call keeps. -/
theorem publishes (hids : P.FreshIds) (hkeeps : Keeps P φ since call) (hstart : since ≤ b)
    (hsince : since ≤ n) (hle : n ≤ n') (hvalid : owner.app.Valid P) (hlasting : Lasting P n owner.app) (hφ : φ owner.app)
    (h : owner.Publishes P b n n' call next key salt kdf) : next.Valid P ∧ Lasting P n' next ∧ φ next := by
  cases h with
  | commit hran hstage =>
    obtain ⟨rfl, hnext⟩ := stage_some hstage
    obtain ⟨hstaged, hstagedLasting, -⟩ := staged_lasting hvalid hlasting
    have hstagedφ : φ owner.staged := by
      unfold staged
      split_ifs
      · exact hkeeps.compacted hvalid hlasting hφ
      · exact hφ
    have hcandidate := hkeeps.ran hstart hsince hstaged hstagedLasting hstagedφ hran.run
    exact ⟨hnext, (hstagedLasting.ran hids hstaged hle hran).of_eq rfl rfl rfl rfl rfl,
      hkeeps.renumbered _ _ hcandidate⟩
  | rekey n hcandidate =>
    obtain ⟨-, -, -, hnext, -, previous, -, rfl⟩ := rekeyCandidate_eq_ok.mp hcandidate
    exact ⟨hnext, (hlasting.later hle).of_eq rfl rfl rfl rfl rfl, hkeeps.renumbered _ _ hφ⟩

theorem newStore_fits (key : VaultKey) (salt : Salt) :
    ∀ image, (newStore key salt).currentImage = some image → image.length ≤ maxImage := nofun

/-- A new store, however its creation ends. -/
theorem creation (hseals : P.Seals) {mnemonic : String} {n₀ : Nat}
    {result : Except Error DurableVault} (hvalid : next.Valid P) (hlasting : Lasting P n next)
    (hφ : φ next) (h : (shown d).Carries P fun app => Lasting P n app ∧ φ app)
    (hcreated : CreatedFrom P mnemonic next n₀ d result d') :
    Kept P φ n { dir := d', owner := result.toOption } := by
  cases hcreated with
  | refused e => exact unowned h
  | @published bytes key store outcome d' hencode hderive hstate hpending hrecovery hpublished =>
    obtain ⟨hfits, hcarries⟩ := publication hseals hlasting hφ (newStore_fits _ _) h hpublished
    cases outcome with
    | notPublished | unknown => exact unowned hcarries
    | durable => exact owned hvalid hlasting hφ hfits hcarries

theorem opened {mnemonic : String} (h : (shown d).Carries P fun app => Lasting P n app ∧ φ app)
    (hopened : Opened P mnemonic d owner) : Kept P φ n { dir := d, owner := some owner } := by
  obtain ⟨image, u, hstate, hunseal, rfl⟩ := hopened.image
  obtain ⟨hlasting, hφ⟩ := h.state image hstate mnemonic u hunseal
  refine owned (unsealImage_valid hunseal) hlasting hφ (fun found hfound => ?_) h
  cases hfound
  exact (unsealImage_eq_ok.mp hunseal).1

/-- What a recovery takes up or makes. -/
theorem target (hseals : P.Seals) {mnemonic : String} {admin : AuthenticatedContext} {now : Time}
    {s : Shown} {base image : Bytes} {u : Unsealed}
    (hclosed : ∀ {app next : Application}, app.Valid P → Closed false app next →
      Lasting P n app ∧ φ app → Lasting P n next ∧ φ next)
    (h : s.Carries P fun app => Lasting P n app ∧ φ app) (hbase : s.Shows P mnemonic base)
    (hunseal : unsealImage P base mnemonic = .ok u)
    (htarget : Targeted P mnemonic admin now s base u next image) :
    next.Valid P ∧ Lasting P n next ∧ φ next ∧ image.length ≤ maxImage := by
  cases htarget with
  | planned k hnone hneeds hagrees hsane hseal =>
    obtain ⟨hsanitized, -, -, hvalid⟩ := sanitize_eq_ok hsane
    obtain ⟨hlasting, hφ⟩ := hclosed (unsealImage_valid hunseal) hsanitized
      (h.shows hbase mnemonic u hunseal)
    exact ⟨hvalid, hlasting, hφ, (sealImage_fits hseals hseal).1⟩
  | resumed hplan hgate hagrees hcheck =>
    obtain ⟨previous, target, hplanned, rfl⟩ := checkPlan_eq_ok.mp hcheck
    obtain ⟨hlasting, hφ⟩ := h.recovery _ _ hplan hgate mnemonic target hplanned.opens_plan
    obtain ⟨-, -, hlength, -⟩ := parseGate_eq_ok.mp hgate
    exact ⟨unsealImage_valid hplanned.opens_plan, hlasting, hφ, hlength⟩

/-- What a call keeps, each of its events keeps. -/
theorem event (hids : P.FreshIds) (hseals : P.Seals) {store' : StoreState} {s s' : Session}
    (hkeeps : Keeps P φ since call) (hstart : since ≤ b) (hsince : since ≤ s.drawn)
    (harises : store.dir .state = none → ∀ {app}, call.Arises P backups app → φ app)
    (hcopies : Copies P (fun _ => True) s.drawn backups)
    (hevent : Event P backups b call (store, s) (store', s')) (h : Kept P φ s.drawn store) :
    Kept P φ s'.drawn store' := by
  cases hevent with
  | drawn hlater => exact h.later hlater.drawn
  | dropped => exact unowned h.carries
  | @memory d owner candidate s s' hlater hready hran hstage =>
    have hvalid := h.valid owner rfl
    have hlasting := h.lasting owner rfl
    obtain ⟨hstaged, hstagedLasting, hlast⟩ := staged_lasting hvalid hlasting
    have hstagedφ : φ owner.staged := by
      unfold staged
      split_ifs
      · exact hkeeps.compacted hvalid hlasting (h.holds owner rfl)
      · exact h.holds owner rfl
    have hcandidate := hstagedLasting.ran hids hstaged hlater.drawn hran
    have hφ := hkeeps.ran hstart hsince hstaged hstagedLasting hstagedφ hran.run
    have hkept := stage_none hseals.toJson hvalid hlasting.dated hcandidate.dated
      (fun last hlast' => hran.run.operated.lastTime last (hlast.trans hlast')) hstage
    have hall := h.later hlater.drawn
    refine owned hkept.valid ?_ ?_ (hall.fits owner · rfl) hall.carries
    · change Lasting P s'.drawn { owner.app with lastTime := candidate.lastTime }
      rw [hkept.same]
      exact hcandidate.of_eq rfl rfl rfl rfl rfl
    · change φ { owner.app with lastTime := candidate.lastTime }
      rw [hkept.same]
      exact hkeeps.renumbered _ candidate.predecessor hφ
  | @published d d' owner next key salt kdf s s' n out hlater hready hpublishes hpublished =>
    have hall := h.later hlater.drawn
    obtain ⟨hvalid, hlasting, hφ⟩ := publishes hids hkeeps hstart hsince hlater.drawn (h.valid owner rfl)
      (h.lasting owner rfl) (h.holds owner rfl) hpublishes
    obtain ⟨hfits, hcarries⟩ := publication hseals hlasting hφ (hall.fits owner · rfl) hall.carries
      hpublished
    obtain ⟨store, outcome⟩ := out
    cases outcome with
    | notPublished | unknown =>
      exact owned (h.valid owner rfl) (hall.lasting owner rfl) (h.holds owner rfl) hfits hcarries
    | durable => exact owned hvalid hlasting hφ hfits hcarries
  | @cutOff d d' owner next key salt kdf s s' n hlater hready hpublishes hcut =>
    have hall := h.later hlater.drawn
    obtain ⟨-, hlasting, hφ⟩ := publishes hids hkeeps hstart hsince hlater.drawn (h.valid owner rfl)
      (h.lasting owner rfl) (h.holds owner rfl) hpublishes
    exact unowned (cut hseals hlasting hφ (hall.fits owner · rfl) hall.carries hcut)
  | @authorized d owner app s hcall hready hruns now hclock =>
    have hvalid := h.valid owner rfl
    have hlasting := h.lasting owner rfl
    exact owned (hvalid.clockOnly hclock) (hlasting.ran hids hvalid (le_refl _) (.inr hruns))
      (hkeeps.ran hstart hsince hvalid hlasting (h.holds owner rfl) (hruns s.drawn)) (h.fits owner · rfl)
      h.carries
  | @frozen d owner s =>
    exact owned (h.valid owner rfl) (h.lasting owner rfl) (h.holds owner rfl) (h.fits owner · rfl)
      h.carries
  | handed => exact h
  | @created d d' mnemonic app s s' n result hlater hfrom hcreated =>
    obtain ⟨hvalid, hlasting⟩ := hfrom.sound hcopies
    have hcarries := (h.later hlater.drawn).carries
    cases hcreated with
    | refused => exact unowned hcarries
    | published hencode hderive hstate hpending hrecovery hpublished =>
      exact creation hseals hvalid (hlasting.later hlater.drawn) (harises hstate hfrom) hcarries
        (.published hencode hderive hstate hpending hrecovery hpublished)
  | @creationCut d d' mnemonic app s s' n hlater hfrom hcut =>
    obtain ⟨hvalid, hlasting⟩ := hfrom.sound hcopies
    have hall := h.later hlater.drawn
    cases hcut with
    | early => exact hall
    | cut _ _ hstate _ _ hcut =>
      have hcarries := cut hseals (hlasting.later hlater.drawn) (harises hstate hfrom)
        (newStore_fits _ _) hall.carries hcut
      exact unowned hcarries
  | opened hcall hopened => exact opened h.carries hopened
  | @attempted m m' mnemonic admin now hcall hattempted =>
    have hclosed := fun {app next : Application} (hvalid : app.Valid P) (hclosed : Closed false app next)
        (hold : Lasting P m'.rest.drawn app ∧ φ app) =>
      And.intro (And.intro (hclosed.lasting hold.1) (hkeeps.recovered hcall hvalid hclosed hold.2))
        (hclosed.lasting hold.1).dated
    exact unowned ((h.later hattempted.later.drawn).carries.attempt hseals hclosed hattempted.steps)
  | @recovered m m' mnemonic admin now owner hcall hattempted hrecovered =>
    have hclosed := fun {app next : Application} (hvalid : app.Valid P) (hclosed : Closed false app next)
        (hold : Lasting P m'.rest.drawn app ∧ φ app) =>
      And.intro (hclosed.lasting hold.1) (hkeeps.recovered hcall hvalid hclosed hold.2)
    have hcarries := (h.later hattempted.later.drawn).carries
    obtain ⟨s, base, u, image, hsteps, hbase, hunseal, -, htarget, hshown, howner⟩ := hrecovered.exact
    have hmid := hcarries.attempt hseals
      (fun hvalid hc hold => ⟨hclosed hvalid hc hold, (hclosed hvalid hc hold).1.dated⟩) hsteps
    obtain ⟨hvalid, hlasting, hφ, hlength⟩ := target hseals hclosed hmid hbase hunseal htarget
    refine owned hvalid hlasting hφ (fun found hfound => ?_) (hcarries.attempt hseals
      (fun hvalid hc hold => ⟨hclosed hvalid hc hold, (hclosed hvalid hc hold).1.dated⟩)
      hattempted.steps)
    rw [howner] at hfound
    cases hfound
    exact hlength

end Kept

/-! Backups. -/

/-- Whoever decrypts a backup finds what was encrypted in it. -/
theorem decrypt_of_encrypt (hseals : P.Seals) {app copy : Application} {secret secret' : BackupSecret}
    {salt : Salt} {nonce : Nonce} {bytes : Bytes} (hdated : app.Timestamped)
    (hencrypt : encryptBackup P app secret salt nonce = .ok bytes)
    (hdecrypt : decryptBackup P bytes secret' = .ok copy) : copy = app := by
  simp only [encryptBackup, bind_eq_ok] at hencrypt
  obtain ⟨snapshot, hencode, hencrypt⟩ := hencrypt
  obtain ⟨key, hkey⟩ : ∃ key, secret.derive P salt KdfParams.current = .ok key := by
    simp only [encryptSnapshotVersion, bind_eq_ok] at hencrypt
    obtain ⟨-, -, key, hkey, -⟩ := hencrypt
    exact ⟨key, hkey⟩
  obtain ⟨-, -, rfl⟩ := (encryptSnapshot_eq_ok hkey).mp hencrypt
  obtain ⟨-, version, kdf, salt', nonce', ciphertext, key', snapshot', -, heq, -, -, -, hplain, hdecode⟩ :=
    decryptBackup_eq_ok.mp hdecrypt
  obtain ⟨rfl, hkind, rfl, rfl, rfl, rfl⟩ := backupBytes_injective heq
  rw [← hkind] at hplain
  have hsame := hseals.decrypt_unique _ _ _ _ _ _ _ hplain (hseals.decrypt_encrypt key nonce _ _)
  obtain ⟨-, -, -, -, rfl⟩ := backupPrefix_injective hsame
  rw [decode_encode hseals.toJson hencode hdated.stamped, Except.ok.injEq] at hdecode
  exact hdecode.symm

/-! Runs. -/

theorem Event.later {backups : List Bytes} {b : Nat} {call : Call} {store store' : StoreState} {s s' : Session}
    (h : Event P backups b call (store, s) (store', s')) : s.drawn ≤ s'.drawn := by
  cases h with
  | drawn hlater => exact hlater.drawn
  | memory hlater => exact hlater.drawn
  | published hlater => exact hlater.drawn
  | cutOff hlater => exact hlater.drawn
  | created hlater => exact hlater.drawn
  | creationCut hlater => exact hlater.drawn
  | attempted _ hattempted => exact hattempted.later.drawn
  | recovered _ hattempted => exact hattempted.later.drawn
  | dropped | authorized | frozen | handed | opened => exact le_refl _

theorem Reached.founded {n : Nat} {previous image : Bytes} {d d' : Dir FileName} {stage : Stage}
    (h : Reached P n previous image d stage d') (hstate : d .state ≠ none) : d' .state ≠ none := by
  rw [h.state]
  cases stage with
  | untouched | intending => exact hstate
  | swapped | cleared => nofun

theorem Reconcile.founded {mnemonic : String} {admin : AuthenticatedContext} {now : Time} {s s' : Shown}
    (h : Reconcile P mnemonic admin now s s') (hstate : s.state ≠ none) : s'.state ≠ none := by
  cases h with
  | adopt | install => nofun
  | plan | settle | clear => exact hstate

theorem attempt_founded {mnemonic : String} {admin : AuthenticatedContext} {now : Time} {s s' : Shown}
    (h : ReflTransGen (Reconcile P mnemonic admin now) s s') (hstate : s.state ≠ none) :
    s'.state ≠ none := by
  induction h with
  | refl => exact hstate
  | tail _ hstep ih => exact hstep.founded ih

/-- A store that has a state keeps one. -/
theorem Event.founded {backups : List Bytes} {b : Nat} {call : Call} {store store' : StoreState}
    {s s' : Session} (h : Event P backups b call (store, s) (store', s'))
    (hstate : store.dir .state ≠ none) : store'.dir .state ≠ none := by
  cases h with
  | drawn | dropped | memory | authorized | frozen | handed | opened => exact hstate
  | published _ _ _ hpublished =>
    cases hpublished with
    | gated | unsealed => exact hstate
    | unwritten _ hreached | unknown _ hreached => exact hreached.founded hstate
    | gating _ _ hreached | durable _ _ hreached => exact hreached.founded hstate
  | cutOff _ _ _ hcut =>
    cases hcut with
    | early => exact hstate
    | reached _ hreached => exact hreached.founded hstate
  | created _ _ hcreated =>
    cases hcreated with
    | refused => exact hstate
    | published _ _ hnone => exact absurd hnone hstate
  | creationCut _ _ hcut =>
    cases hcut with
    | early => exact hstate
    | cut _ _ hnone => exact absurd hnone hstate
  | attempted _ hattempted | recovered _ hattempted => exact attempt_founded hattempted.steps hstate

theorem Copies.later {φ : Application → Prop} {n n' : Nat} {backups : List Bytes}
    (h : Copies P φ n backups) (hle : n ≤ n') : Copies P φ n' backups :=
  fun bytes hmem secret copy hdecrypt =>
    ⟨(h bytes hmem secret copy hdecrypt).1.later hle, (h bytes hmem secret copy hdecrypt).2⟩

/-- A fleet all of whose applications, images and backups have what lasts. -/
structure Sound (P : Platform) (fleet : Fleet) : Prop where
  stores : ∀ i, Kept P (fun _ => True) fleet.session.drawn (fleet.stores i)
  backups : Copies P (fun _ => True) fleet.session.drawn fleet.backups

theorem keeps_true (call : Call) : Keeps P (fun _ => True) 0 call where
  ran _ _ _ _ _ _ := trivial
  compacted _ _ _ := trivial
  renumbered _ _ _ := trivial
  recovered _ _ _ _ := trivial

section Step

variable {φ : Application → Prop} {since : Nat} {fleet fleet' : Fleet} {i : Nat} {call : Call}

theorem Kept.events (hids : P.FreshIds) (hseals : P.Seals) {backups : List Bytes} {b : Nat}
    {x y : StoreState × Session} (hkeeps : Keeps P φ since call) (hstart : since ≤ b)
    (hsince : since ≤ x.2.drawn)
    (harises : x.1.dir .state ≠ none ∨ ∀ {app}, call.Arises P backups app → φ app)
    (hcopies : Copies P (fun _ => True) x.2.drawn backups)
    (h : Kept P φ x.2.drawn x.1) (hevents : ReflTransGen (Event P backups b call) x y) :
    Kept P φ y.2.drawn y.1 ∧ x.2.drawn ≤ y.2.drawn ∧ (x.1.dir .state ≠ none → y.1.dir .state ≠ none) := by
  induction hevents with
  | refl => exact ⟨h, le_refl _, id⟩
  | tail _ hevent ih =>
    obtain ⟨hkept, hle, hfounded⟩ := ih
    refine ⟨hkept.event hids hseals hkeeps hstart (hsince.trans hle) (fun hnone => ?_)
      (hcopies.later hle) hevent, hle.trans hevent.later, fun hstate => hevent.founded (hfounded hstate)⟩
    rcases harises with hstate | harises
    · exact absurd hnone (hfounded hstate)
    · exact harises

theorem Stepped.later (h : Stepped P fleet i call fleet') : fleet.session.drawn ≤ fleet'.session.drawn := by
  have hall : ∀ {x y : StoreState × Session}, ReflTransGen (Event P fleet.backups fleet.session.drawn call) x y →
      x.2.drawn ≤ y.2.drawn := by
    intro x y hevents
    induction hevents with
    | refl => exact le_refl _
    | tail _ hevent ih => exact ih.trans hevent.later
  exact hall h.events

/-- What a call keeps of its store holds after it. -/
theorem Stepped.kept (hids : P.FreshIds) (hseals : P.Seals) (h : Stepped P fleet i call fleet')
    (hsound : Sound P fleet) (hkeeps : Keeps P φ since call) (hsince : since ≤ fleet.session.drawn)
    (harises : (fleet.stores i).dir .state ≠ none ∨ ∀ {app}, call.Arises P fleet.backups app → φ app)
    (hkept : Kept P φ fleet.session.drawn (fleet.stores i)) :
    Kept P φ fleet'.session.drawn (fleet'.stores i) :=
  (hkept.events hids hseals hkeeps hsince hsince harises hsound.backups h.events).1

theorem Stepped.founded (h : Stepped P fleet i call fleet') {j : Nat}
    (hstate : (fleet.stores j).dir .state ≠ none) : (fleet'.stores j).dir .state ≠ none := by
  have hall : ∀ {x y : StoreState × Session},
      ReflTransGen (Event P fleet.backups fleet.session.drawn call) x y →
      x.1.dir .state ≠ none → y.1.dir .state ≠ none := by
    intro x y hevents hx
    induction hevents with
    | refl => exact hx
    | tail _ hevent ih => exact hevent.founded ih
  by_cases hj : j = i
  · subst hj
    exact hall h.events hstate
  · rw [h.frame j hj]
    exact hstate

/-- A call at another store changes nothing here. -/
theorem Stepped.kept_other {j : Nat} (h : Stepped P fleet i call fleet') (hj : j ≠ i)
    (hkept : Kept P φ fleet.session.drawn (fleet.stores j)) :
    Kept P φ fleet'.session.drawn (fleet'.stores j) := by
  rw [h.frame j hj]
  exact hkept.later h.later

theorem Stepped.sound (hids : P.FreshIds) (hseals : P.Seals) (h : Stepped P fleet i call fleet')
    (hsound : Sound P fleet) : Sound P fleet' where
  stores j := by
    by_cases hj : j = i
    · subst hj
      exact h.kept hids hseals hsound (keeps_true call) (Nat.zero_le _) (.inr fun _ => trivial)
        (hsound.stores j)
    · exact h.kept_other hj (hsound.stores j)
  backups := by
    have hold := hsound.backups.later h.later
    rcases h.backups with heq | ⟨owner, admin, secret, n, bytes, howner, -, -, hencrypt, heq⟩
    · rw [heq]
      exact hold
    · rw [heq]
      intro found hmem secret' copy hdecrypt
      rcases List.mem_append.mp hmem with hmem | hmem
      · exact hold found hmem secret' copy hdecrypt
      · rw [List.mem_singleton] at hmem
        subst hmem
        have hlasting := (hsound.stores i).lasting owner howner
        rw [decrypt_of_encrypt hseals hlasting.dated hencrypt hdecrypt]
        exact ⟨hlasting.later h.later, trivial⟩

end Step

/-- One call, with any faults, among those that are allowed. -/
def Fleet.Goes (P : Platform) (allows : Fleet → Nat → Call → Prop) (fleet fleet' : Fleet) : Prop :=
  ∃ i call faults, allows fleet i call ∧ fleet' = (fleet.step P i call faults).1

/-- A run of the fleet: any calls at any stores, with any faults and any crashes. -/
def Fleet.Runs (P : Platform) (allows : Fleet → Nat → Call → Prop) : Fleet → Fleet → Prop :=
  ReflTransGen (Fleet.Goes P allows)

/-- The fleets there can be. -/
def Fleet.Reachable (P : Platform) (fleet : Fleet) : Prop :=
  Fleet.Runs P (fun _ _ _ => True) Fleet.start fleet

theorem Fleet.Reachable.start : Fleet.Reachable P Fleet.start := .refl

theorem Fleet.Reachable.step {fleet : Fleet} (h : Fleet.Reachable P fleet) (i : Nat) (call : Call)
    (faults : List Fault) : Fleet.Reachable P (fleet.step P i call faults).1 :=
  .tail h ⟨i, call, faults, trivial, rfl⟩

theorem sound_start : Sound P Fleet.start where
  stores _ := Kept.unowned ⟨fun _ => nofun, fun _ _ => nofun, fun _ _ => nofun⟩
  backups _ hmem := nomatch hmem

theorem Sound.runs {allows : Fleet → Nat → Call → Prop} {fleet fleet' : Fleet} (hids : P.FreshIds)
    (hseals : P.Seals) (hsound : Sound P fleet) (h : Fleet.Runs P allows fleet fleet') :
    Sound P fleet' := by
  induction h with
  | refl => exact hsound
  | tail _ hstep ih =>
    obtain ⟨i, call, faults, -, rfl⟩ := hstep
    exact (stepped hseals _ i call faults).sound hids hseals ih

theorem Fleet.Reachable.sound {fleet : Fleet} (hids : P.FreshIds) (hseals : P.Seals)
    (h : Fleet.Reachable P fleet) : Sound P fleet := Sound.runs hids hseals sound_start h

/-- What every application, every image and every backup of a fleet has. -/
structure Spread (P : Platform) (φ : Application → Prop) (fleet : Fleet) : Prop where
  stores : ∀ i, Kept P φ fleet.session.drawn (fleet.stores i)
  backups : Copies P φ fleet.session.drawn fleet.backups

section Spread

variable {φ : Application → Prop} {fleet fleet' : Fleet} {i : Nat} {call : Call}

theorem Stepped.spread (hids : P.FreshIds) (hseals : P.Seals) (h : Stepped P fleet i call fleet')
    (hkeeps : Keeps P φ 0 call) (hcreated : φ Application.created)
    (hrestored : ∀ {copy next : Application} {admin : AuthenticatedContext} {now : Time}, φ copy →
      copy.prepareRestored P admin now = .ok next → φ next)
    (hspread : Spread P φ fleet) : Spread P φ fleet' := by
  have hcopies : Copies P (fun _ => True) fleet.session.drawn fleet.backups :=
    fun bytes hmem secret copy hdecrypt => ⟨(hspread.backups bytes hmem secret copy hdecrypt).1, trivial⟩
  have harises : ∀ {app : Application}, call.Arises P fleet.backups app → φ app := by
    intro app harises
    cases harises with
    | created => exact hcreated
    | restored _ hbackup hdecrypt hprepare =>
      exact hrestored (hspread.backups _ (List.mem_of_getElem? hbackup) _ _ hdecrypt).2 hprepare
  refine ⟨fun j => ?_, ?_⟩
  · by_cases hj : j = i
    · subst hj
      exact ((hspread.stores j).events hids hseals hkeeps (Nat.zero_le _) (Nat.zero_le _)
        (.inr harises) hcopies h.events).1
    · exact h.kept_other hj (hspread.stores j)
  · have hold := hspread.backups.later h.later
    rcases h.backups with heq | ⟨owner, admin, secret, n, bytes, howner, -, -, hencrypt, heq⟩
    · rw [heq]
      exact hold
    · rw [heq]
      intro found hmem secret' copy hdecrypt
      rcases List.mem_append.mp hmem with hmem | hmem
      · exact hold found hmem secret' copy hdecrypt
      · rw [List.mem_singleton] at hmem
        subst hmem
        have hlasting := (hspread.stores i).lasting owner howner
        rw [decrypt_of_encrypt hseals hlasting.dated hencrypt hdecrypt]
        exact ⟨hlasting.later h.later, (hspread.stores i).holds owner howner⟩

/-- What a new store has and every call keeps, every fleet has. -/
theorem Fleet.Reachable.spread (hids : P.FreshIds) (hseals : P.Seals) (h : Fleet.Reachable P fleet)
    (hkeeps : ∀ call, Keeps P φ 0 call) (hcreated : φ Application.created)
    (hrestored : ∀ {copy next : Application} {admin : AuthenticatedContext} {now : Time}, φ copy →
      copy.prepareRestored P admin now = .ok next → φ next) : Spread P φ fleet := by
  induction h with
  | refl =>
    exact ⟨fun _ => Kept.unowned ⟨fun _ => nofun, fun _ _ => nofun, fun _ _ => nofun⟩,
      fun _ hmem => nomatch hmem⟩
  | tail _ hgoes ih =>
    obtain ⟨i, call, faults, -, rfl⟩ := hgoes
    exact (stepped hseals _ i call faults).spread hids hseals (hkeeps call) hcreated hrestored ih

end Spread

/-- A store that has been founded, and a law it has kept since so many draws. -/
structure Lawful (P : Platform) (φ : Application → Prop) (since i : Nat) (fleet : Fleet) : Prop where
  sound : Sound P fleet
  kept : Kept P φ fleet.session.drawn (fleet.stores i)
  founded : (fleet.stores i).dir .state ≠ none
  since_le : since ≤ fleet.session.drawn

namespace Lawful

variable {φ : Application → Prop} {since i : Nat} {fleet fleet' : Fleet}

theorem keeps (hids : P.FreshIds) (hseals : P.Seals) {call : Call} (hkeeps : Keeps P φ since call)
    (faults : List Fault) (h : Lawful P φ since i fleet) :
    Kept P φ (fleet.step P i call faults).1.session.drawn ((fleet.step P i call faults).1.stores i) :=
  (stepped hseals fleet i call faults).kept hids hseals h.sound hkeeps h.since_le (.inl h.founded) h.kept

/-- What every allowed call at the store keeps, every run keeps. -/
theorem runs {allows : Fleet → Nat → Call → Prop} (hids : P.FreshIds) (hseals : P.Seals)
    (hstep : ∀ mid call faults, Lawful P φ since i mid → allows mid i call →
      Kept P φ (mid.step P i call faults).1.session.drawn ((mid.step P i call faults).1.stores i))
    (h : Lawful P φ since i fleet) (hruns : Fleet.Runs P allows fleet fleet') :
    Lawful P φ since i fleet' := by
  induction hruns with
  | refl => exact h
  | @tail mid _ _ hgoes ih =>
    obtain ⟨j, call, faults, hallows, rfl⟩ := hgoes
    have hstepped := stepped hseals mid j call faults
    refine ⟨hstepped.sound hids hseals ih.sound, ?_, hstepped.founded ih.founded,
      ih.since_le.trans hstepped.later⟩
    by_cases hj : i = j
    · subst hj
      exact hstep mid call faults ih hallows
    · exact hstepped.kept_other hj ih.kept

end Lawful

end Credman
