import Credman.Lineage

/-! A crash during a publication, and whatever the next processes of the store do about
it: what they open or recover is the old application or the new one, and nothing else. -/
namespace Credman

open Library Library.Checked Library.FileM Relation Application DurableVault

variable {P : Platform}

/-! One encoding is of one application. -/

namespace Application

variable {app next : Application} {bytes : Bytes}

theorem toSnapshot_injective (h : app.Valid P) (h' : next.Valid P)
    (hsame : app.toSnapshot = next.toSnapshot) : app = next := by
  have hstamped : app.stamped = next.stamped := by
    rw [← gathered_toSnapshot h, ← gathered_toSnapshot h', hsame]
  have hrequests : app.requests = next.requests := by
    rw [← OrdMap.ofList_entries app.requests, ← OrdMap.ofList_entries next.requests]
    exact congrArg (fun s => OrdMap.ofList s.requests) hsame
  have hdeliveries : app.deliveries = next.deliveries := by
    rw [← OrdMap.ofList_entries app.deliveries, ← OrdMap.ofList_entries next.deliveries]
    exact congrArg (fun s => OrdMap.ofList s.deliveries) hsame
  calc app = { app.stamped with requests := app.requests, deliveries := app.deliveries } := rfl
    _ = { next.stamped with requests := next.requests, deliveries := next.deliveries } := by
      rw [hstamped, hrequests, hdeliveries]
    _ = next := rfl

theorem encode_injective (hjson : P.Json) (h : app.encode P = .ok bytes)
    (h' : next.encode P = .ok bytes) : app = next := by
  obtain ⟨hvalid, heq, -⟩ := encode_eq_ok.mp h
  obtain ⟨hvalid', heq', -⟩ := encode_eq_ok.mp h'
  exact toSnapshot_injective hvalid hvalid' (hjson.json_injective (heq.symm.trans heq'))

theorem Finished.stamped (h : app.Finished) : app.stamped.Finished := by
  intro i d hd
  change (app.deliveries.mapVals _).get? i = some d at hd
  rw [OrdMap.get?_mapVals, Option.map_eq_some_iff] at hd
  obtain ⟨e, he, rfl⟩ := hd
  exact h i e he

end Application

/-- Whoever opens an image finds what was sealed in it, its timestamps filled in. -/
theorem unseal_stamped (hseals : P.Seals) {app : Application} {key : VaultKey} {salt : Salt}
    {kdf : KdfParams} {nonce : Nonce} {image : Bytes} {phrase : String} {u : Unsealed}
    (hseal : sealImage P app key salt kdf nonce = .ok image)
    (hunseal : unsealImage P image phrase = .ok u) : u.app = app.stamped := by
  obtain ⟨plaintext, hencode, rfl⟩ := sealImage_eq_ok.mp hseal
  obtain ⟨-, version, nonce', ciphertext, plaintext', -, heq, -, -, hdecrypt, hdecode⟩ :=
    unsealImage_eq_ok.mp hunseal
  obtain ⟨rfl, rfl, rfl, rfl, rfl⟩ := imageBytes_injective heq
  have hplain := hseals.decrypt_unique _ _ _ _ _ _ _ hdecrypt
    (hseals.decrypt_encrypt key nonce plaintext _)
  obtain ⟨hvalid, hjson, -⟩ := encode_eq_ok.mp hencode
  obtain ⟨-, s, hparse, -, -, -, -, hgathered, -⟩ := decode_eq_ok.mp hdecode
  rw [hplain, hjson, hseals.toJson.parse_json, Option.some.injEq] at hparse
  rw [hgathered, ← hparse, gathered_toSnapshot hvalid]

/-! Entering a store that was left behind. -/

/-- How the next process enters. -/
inductive Entry where
  | «open» (mnemonic : String)
  | recover (mnemonic : String) (admin : AuthenticatedContext) (now : Time)

namespace Entry

def program (P : Platform) : Entry → VaultM DurableVault
  | .open mnemonic => DurableVault.open P mnemonic
  | .recover mnemonic admin now => DurableVault.recover P mnemonic admin now

/-- The clock a recovery is given. -/
def Samples (entry : Entry) (t : Time) : Prop := ∃ mnemonic admin, entry = .recover mnemonic admin t

/-- What the process leaves, and the owner it gets unless it is refused or cut off. -/
def enter (P : Platform) (m : VaultMachine) (entry : Entry) (faults : List Fault) :
    VaultMachine × Option DurableVault :=
  match (entry.program P).run { m with faults } with
  | .ok result m' => (m', result.toOption)
  | .error _ m' => (m', none)

theorem enter_spec (entry : Entry) {m : VaultMachine} {faults : List Fault}
    {p : VaultMachine → Option DurableVault → Prop}
    (h : wp (entry.program P).run (fun result m' => p m' result.toOption) (fun _ m' => p m' none)
      { m with faults }) : p (entry.enter P m faults).1 (entry.enter P m faults).2 := by
  unfold enter
  unfold wp at h
  cases hrun : (entry.program P).run { m with faults } with
  | ok result m' =>
    rw [hrun] at h
    exact h
  | error e m' =>
    rw [hrun] at h
    exact h

end Entry

/-- Processes that enter one after another, each with the faults it meets. -/
def entered (P : Platform) (m : VaultMachine) (entries : List (Entry × List Fault)) : VaultMachine :=
  entries.foldl (fun m e => (e.1.enter P m e.2).1) m

/-- One publication, which may be cut off: what it leaves, and what it returned if it did. -/
def Store.leave (P : Platform) (store : Store) (app : Application) (key : VaultKey) (salt : Salt)
    (kdf : KdfParams) (m : VaultMachine) : VaultMachine × Option Publication :=
  match store.publishWith P app key salt kdf m with
  | .ok out m' => (m', some out.2)
  | .error _ m' => (m', none)

theorem Store.leave_spec {store : Store} {app : Application} {key : VaultKey} {salt : Salt}
    {kdf : KdfParams} {m : VaultMachine} {p : VaultMachine → Option Publication → Prop}
    (h : wp (store.publishWith P app key salt kdf) (fun out m' => p m' (some out.2))
      (fun _ m' => p m' none) m) :
    p (store.leave P app key salt kdf m).1 (store.leave P app key salt kdf m).2 := by
  unfold leave
  unfold wp at h
  cases hrun : store.publishWith P app key salt kdf m with
  | ok out m' =>
    rw [hrun] at h
    exact h
  | error e m' =>
    rw [hrun] at h
    exact h

/-! What a store shows from the crash on, until the recovery has succeeded. -/

section Shows

variable (P) (base : Application → Prop) (sampled : Time → Prop)

/-- What a recovery from one of the bases has been sealed to hold. -/
def Sanitized (app : Application) : Prop :=
  ∃ old t next, base old ∧ sampled t ∧ old.sanitize P t = .ok next ∧ app = next.stamped

/-- Nothing recovered yet; a plan in the directory; or everything of it installed. -/
inductive Recovering (s : Shown) : Prop
  | based (hcarries : s.Carries P base) (hnone : s.recovery = none)
  | planned {bytes old image : Bytes} (hplan : s.recovery = some bytes)
      (hgate : parseGate bytes = .ok (old, image)) (hold : Opens P base old)
      (himage : Opens P (Sanitized P base sampled) image)
      (hstate : ∀ found, s.state = some found → found = image ∨ Opens P base found)
      (hpending : ∀ bytes gate, s.pending = some bytes → parseGate bytes = .ok gate →
        Opens P base gate.2)
  | settled {image : Bytes} (hstate : s.state = some image)
      (himage : Opens P (Sanitized P base sampled) image) (hpending : s.pending = none)
      (hnone : s.recovery = none)

end Shows

variable {base : Application → Prop} {sampled : Time → Prop} {s s' : Shown} {mnemonic : String}
  {admin : AuthenticatedContext} {now : Time}

/-- A sanitized application needs no recovery. -/
theorem Sanitized.settled {app : Application} (h : Sanitized P base sampled app) :
    needsRecovery app false = false ∧ app.Finished := by
  obtain ⟨old, t, next, -, -, hsane, rfl⟩ := h
  obtain ⟨hclosed, hfrozen, -, -⟩ := sanitize_eq_ok hsane
  have hfinished := hclosed.finished.stamped
  refine ⟨?_, hfinished⟩
  unfold needsRecovery
  rw [Bool.false_or, Bool.or_eq_false_iff, OrdMap.any_false]
  exact ⟨hfrozen, fun i d hd => by simpa [Option.isSome_iff_ne_none] using hfinished i d hd⟩

namespace Recovering

/-- Nothing is left to plan once everything is installed. -/
theorem based_of_plan {found : Bytes} {u : Unsealed} (h : Recovering P base sampled s)
    (hshows : s.Shows P mnemonic found) (hunseal : unsealImage P found mnemonic = .ok u)
    (hnone : s.recovery = none) (hneeds : needsRecovery u.app s.pending.isSome = true) :
    s.Carries P base := by
  cases h with
  | based hcarries => exact hcarries
  | planned hplan =>
    rw [hnone] at hplan
    cases hplan
  | @settled image hstate himage hpending =>
    rcases hshows with hfound | ⟨hmissing, -⟩
    · rw [hstate, Option.some.injEq] at hfound
      subst hfound
      rw [hpending, Option.isSome_none, (himage mnemonic u hunseal).settled.1] at hneeds
      cases hneeds
    · rw [hstate] at hmissing
      cases hmissing

theorem step (hseals : P.Seals) (hnow : sampled now) (h : Recovering P base sampled s)
    (hstep : Reconcile P mnemonic admin now s s') : Recovering P base sampled s' := by
  cases hstep with
  | @adopt visible bytes old next hstate hsealed hpending hgate hcheck =>
    cases h with
    | based hcarries hnone =>
      refine .based ⟨?_, hcarries.pending, hcarries.recovery⟩ hnone
      rintro found ⟨⟩
      exact hcarries.pending bytes _ hpending hgate
    | planned hplan hgate' hold himage hstate' hpending' =>
      refine .planned hplan hgate' hold himage ?_ hpending'
      rintro found ⟨⟩
      exact .inr (hpending' bytes _ hpending hgate)
    | settled _ _ hnone =>
      rw [hpending] at hnone
      cases hnone
  | @plan found image u app n hshows hunseal hscope hnone hneeds hagrees hsane hseal hwhole =>
    have hcarries := h.based_of_plan hshows hunseal hnone hneeds
    refine .planned rfl hwhole (hcarries.shows hshows) ?_ (fun found hfound => .inr ?_)
      hcarries.pending
    · intro phrase u' hu'
      exact ⟨u.app, now, app, hcarries.shows hshows mnemonic u hunseal, hnow, hsane,
        unseal_stamped hseals hseal hu'⟩
    · exact hcarries.state found hfound
  | @install bytes old image hplan hgate =>
    cases h with
    | based _ hnone | settled _ _ _ hnone =>
      rw [hplan] at hnone
      cases hnone
    | planned hplan' hgate' hold himage hstate hpending =>
      obtain rfl := Option.some.inj (hplan.symm.trans hplan')
      cases hgate.symm.trans hgate'
      refine .planned hplan hgate hold himage ?_ hpending
      rintro found ⟨⟩
      exact .inl rfl
  | settle hplan =>
    cases h with
    | based _ hnone | settled _ _ _ hnone =>
      rw [hplan] at hnone
      cases hnone
    | planned hplan' hgate' hold himage hstate => exact .planned hplan' hgate' hold himage hstate nofun
  | @clear bytes old image hplan hgate hstate hpending =>
    cases h with
    | based _ hnone | settled _ _ _ hnone =>
      rw [hplan] at hnone
      cases hnone
    | planned hplan' hgate' hold himage =>
      obtain rfl := Option.some.inj (hplan.symm.trans hplan')
      cases hgate.symm.trans hgate'
      exact .settled hstate himage hpending rfl

theorem steps (hseals : P.Seals) (hnow : sampled now) (h : Recovering P base sampled s)
    (hsteps : ReflTransGen (Reconcile P mnemonic admin now) s s') : Recovering P base sampled s' := by
  induction hsteps with
  | refl => exact h
  | tail _ hstep ih => exact ih.step hseals hnow hstep

/-- A recovery that succeeds has sanitized one of the bases. -/
theorem recovered (hseals : P.Seals) (hnow : sampled now) {d d' : Dir FileName} {owner : DurableVault}
    (h : Recovering P base sampled (shown d)) (hrecovered : Recovered P mnemonic admin now d d' owner) :
    ∃ old t, base old ∧ sampled t ∧ old.sanitize P t = .ok owner.app := by
  obtain ⟨s, found, u, image, hsteps, hshows, hunseal, -, htarget, -, -⟩ := hrecovered.exact
  have hmid := h.steps hseals hnow hsteps
  cases htarget with
  | planned n hnone hneeds _ hsane =>
    have hcarries := hmid.based_of_plan hshows hunseal hnone hneeds
    exact ⟨u.app, now, hcarries.shows hshows mnemonic u hunseal, hnow, hsane⟩
  | resumed hplan hgate _ hcheck =>
    obtain ⟨previous, target, hplanned, happ⟩ := checkPlan_eq_ok.mp hcheck
    obtain ⟨last, expected, encoded, hlast, hsane, hleft, hright⟩ := hplanned.same
    cases hmid with
    | based _ hnone | settled _ _ _ hnone =>
      rw [hplan] at hnone
      cases hnone
    | planned hplan' hgate' hold himage =>
      obtain rfl := Option.some.inj (hplan.symm.trans hplan')
      cases hgate.symm.trans hgate'
      obtain ⟨_, t, next, -, ht, hnext, htarget⟩ := himage mnemonic target hplanned.opens_plan
      have htime : target.app.lastTime = some t := by
        rw [htarget]
        exact (sanitize_eq_ok hnext).2.2.1
      have hsampled : sampled last := by
        rw [hlast, Option.some.injEq] at htime
        exact htime ▸ ht
      refine ⟨previous.app, last, hold mnemonic previous hplanned.opens_base, hsampled, ?_⟩
      rw [happ, ← encode_injective hseals.toJson hleft hright]
      exact hsane

/-- An `open` that succeeds finds one of the bases, or what one was sanitized to. -/
theorem opened {d : Dir FileName} {owner : DurableVault} (h : Recovering P base sampled (shown d))
    (hopened : Opened P mnemonic d owner) :
    base owner.app ∨ Sanitized P base sampled owner.app := by
  obtain ⟨image, u, hstate, hunseal, rfl⟩ := hopened.image
  cases h with
  | based hcarries => exact .inl (hcarries.state image hstate mnemonic u hunseal)
  | planned hplan =>
    have hnone : (shown d).recovery = none := hopened.no_recovery
    rw [hplan] at hnone
    cases hnone
  | settled hstate' himage =>
    have hfound : (shown d).state = some image := hstate
    rw [hstate', Option.some.injEq] at hfound
    subst hfound
    exact .inr (himage mnemonic u hunseal)

end Recovering

/-- What the process that enters last may get. -/
def Entry.Gets (P : Platform) (base : Application → Prop) (sampled : Time → Prop) :
    Entry → Application → Prop
  | .open _, app => base app ∨ Sanitized P base sampled app
  | .recover _ _ _, app => ∃ old t, base old ∧ sampled t ∧ old.sanitize P t = .ok app

namespace Recovering

variable {m : VaultMachine}

theorem enter (hseals : P.Seals) {entry : Entry} {faults : List Fault}
    (hsampled : ∀ t, entry.Samples t → sampled t) (h : Recovering P base sampled (shown m.dir)) :
    Recovering P base sampled (shown (entry.enter P m faults).1.dir)
      ∧ ∀ owner, (entry.enter P m faults).2 = some owner → entry.Gets P base sampled owner.app := by
  refine Entry.enter_spec entry (p := fun m' o => Recovering P base sampled (shown m'.dir)
    ∧ ∀ owner, o = some owner → entry.Gets P base sampled owner.app) ?_
  cases entry with
  | «open» mnemonic =>
    apply wp_mono (wp_open P mnemonic { m with faults })
    · rintro result m' ⟨-, hdir, hopened⟩
      rw [hdir]
      refine ⟨h, fun owner howner => ?_⟩
      cases result with
      | error e => cases howner
      | ok owner' =>
        cases howner
        exact h.opened (hopened owner rfl)
    · rintro _ m' ⟨-, hdir⟩
      rw [hdir]
      exact ⟨h, fun _ howner => by cases howner⟩
  | recover mnemonic admin now =>
    have hnow : sampled now := hsampled now ⟨mnemonic, admin, rfl⟩
    apply wp_mono (wp_recover hseals { m with faults })
    · rintro result m' ⟨hattempted, hrecovered⟩
      refine ⟨h.steps hseals hnow hattempted.steps, fun owner howner => ?_⟩
      cases result with
      | error e => cases howner
      | ok owner' =>
        cases howner
        exact h.recovered hseals hnow (hrecovered owner rfl)
    · intro _ m' hattempted
      exact ⟨h.steps hseals hnow hattempted.steps, fun _ howner => by cases howner⟩

theorem entered (hseals : P.Seals) (entries : List (Entry × List Fault))
    (hsampled : ∀ e ∈ entries, ∀ t, e.1.Samples t → sampled t)
    (h : Recovering P base sampled (shown m.dir)) :
    Recovering P base sampled (shown (entered P m entries).dir) := by
  induction entries generalizing m with
  | nil => exact h
  | cons e rest ih =>
    obtain ⟨hfirst, hrest⟩ := List.forall_mem_cons.mp hsampled
    exact ih hrest (h.enter hseals hfirst).1

end Recovering

/-! The publication itself. -/

/-- What a publication is given: a directory without a gate that shows the current image of the
store, or nothing where there is none yet, and a candidate whose entries say when they were stored. -/
structure Given (P : Platform) (old : Option Application) (store : Store) (app : Application)
    (d : Dir FileName) : Prop where
  no_pending : d .pending = none
  no_recovery : d .recovery = none
  current : d .state = store.currentImage
  opens : ∀ image, store.currentImage = some image →
    ∃ phrase u, unsealImage P image phrase = .ok u ∧ old = some u.app
  dated : app.Timestamped

namespace Given

variable {old : Option Application} {store store' : Store} {app : Application} {key : VaultKey}
  {salt : Salt} {kdf : KdfParams} {n : Nat} {d d' : Dir FileName} {publication : Publication}

theorem fits (h : Given P old store app d) (image : Bytes) (hcurrent : store.currentImage = some image) :
    image.length ≤ maxImage := by
  obtain ⟨phrase, u, hunseal, -⟩ := h.opens image hcurrent
  exact (unsealImage_eq_ok.mp hunseal).1

theorem carries (hseals : P.Seals) (h : Given P old store app d) :
    (shown d).Carries P fun a => old = some a ∨ a = app where
  state image hstate := by
    have hcurrent : store.currentImage = some image := h.current.symm.trans hstate
    obtain ⟨phrase, u, hunseal, rfl⟩ := h.opens image hcurrent
    intro phrase' u' hu'
    rw [unsealImage_unique hseals hunseal hu']
    exact .inl rfl
  pending bytes gate hpending := by
    have hnone : (shown d).pending = none := h.no_pending
    rw [hnone] at hpending
    cases hpending
  recovery bytes gate hrecovery := by
    have hnone : (shown d).recovery = none := h.no_recovery
    rw [hnone] at hrecovery
    cases hrecovery

/-- However far the publication came, its candidate is all that was added. -/
theorem reached (hseals : P.Seals) (h : Given P old store app d) {image : Bytes} {stage : Stage}
    (hseal : sealImage P app key salt kdf (P.nonce n) = .ok image)
    (hreached : Reached P n (store.currentImage.getD []) image d stage d') :
    (shown d').Carries P (fun a => old = some a ∨ a = app) ∧ d' .recovery = none := by
  have hprevious : (store.currentImage.getD []).length ≤ maxImage := by
    cases hcurrent : store.currentImage with
    | none => exact Nat.zero_le _
    | some previous => exact h.fits previous hcurrent
  constructor
  · exact (h.carries hseals).reached (opens_of_seal hseals h.dated hseal (.inr rfl))
      (sealImage_fits hseals hseal).1 hprevious hreached
  · rw [hreached.frame .recovery (by simp) (by simp) (by simp)]
    exact h.no_recovery

theorem cut (hseals : P.Seals) (h : Given P old store app d) (hcut : Cut P store app key salt kdf n d d') :
    (shown d').Carries P (fun a => old = some a ∨ a = app) ∧ d' .recovery = none := by
  cases hcut with
  | early => exact ⟨h.carries hseals, h.no_recovery⟩
  | reached hseal hreached => exact h.reached hseals hseal hreached

theorem published (hseals : P.Seals) (h : Given P old store app d)
    (hpublished : Published P store app key salt kdf n d (store', publication) d') :
    (shown d').Carries P (fun a => old = some a ∨ a = app) ∧ d' .recovery = none := by
  cases hpublished with
  | gated | unsealed => exact ⟨h.carries hseals, h.no_recovery⟩
  | unwritten hseal hreached | unknown hseal hreached => exact h.reached hseals hseal hreached
  | gating hseal _ hreached | durable _ hseal hreached => exact h.reached hseals hseal hreached

end Given

/-- The clocks of these entries. -/
def sampledBy (entries : List (Entry × List Fault)) (last : Entry) (t : Time) : Prop :=
  last.Samples t ∨ ∃ e ∈ entries, e.1.Samples t

/-- What becomes of the store that a publication of `app` over `old` has left, whether it
returned or was cut off. -/
structure CrashSafe (P : Platform) (old : Option Application) (app : Application)
    (left : VaultMachine × Option Publication) : Prop where
  /-- An `open` succeeds without gates only, and finds the old application or the candidate. -/
  first : ∀ mnemonic faults owner, ((Entry.open mnemonic).enter P left.1 faults).2 = some owner →
    left.1.dir .pending = none ∧ left.1.dir .recovery = none
      ∧ (old = some owner.app ∨ owner.app = app)
  /-- After any attempts, a recovery that succeeds has sanitized one of the two. -/
  later : ∀ (entries : List (Entry × List Fault)) (last : Entry) (faults : List Fault)
    (owner : DurableVault), (last.enter P (entered P left.1 entries) faults).2 = some owner →
      last.Gets P (fun a => old = some a ∨ a = app) (sampledBy entries last) owner.app
  /-- What was acknowledged is what every later process finds. -/
  durable : left.2 = some .durable → ∀ (entries : List (Entry × List Fault)) (last : Entry)
    (faults : List Fault) (owner : DurableVault),
    (last.enter P (entered P left.1 entries) faults).2 = some owner →
      last.Gets P (fun a => a = app) (sampledBy entries last) owner.app

/-- What a chain of entries gets, from what the first of them finds. -/
theorem Shown.Carries.gets (hseals : P.Seals) {m : VaultMachine} (hcarries : (shown m.dir).Carries P base)
    (hnone : m.dir .recovery = none) {entries : List (Entry × List Fault)} {last : Entry}
    {faults : List Fault} {owner : DurableVault}
    (h : (last.enter P (entered P m entries) faults).2 = some owner) :
    last.Gets P base (sampledBy entries last) owner.app := by
  have hstart : Recovering P base (sampledBy entries last) (shown m.dir) := .based hcarries hnone
  have hafter := hstart.entered hseals entries fun e he t ht => .inr ⟨e, he, ht⟩
  exact (hafter.enter hseals fun t ht => .inl ht).2 owner h

theorem Given.crash_safe (hseals : P.Seals) {old : Option Application} {store : Store}
    {app : Application} {m : VaultMachine} (h : Given P old store app m.dir) (key : VaultKey)
    (salt : Salt) (kdf : KdfParams) : CrashSafe P old app (store.leave P app key salt kdf m) := by
  have hleft : ((shown (store.leave P app key salt kdf m).1.dir).Carries P
        (fun a => old = some a ∨ a = app)
      ∧ (store.leave P app key salt kdf m).1.dir .recovery = none)
      ∧ ((store.leave P app key salt kdf m).2 = some .durable →
        (shown (store.leave P app key salt kdf m).1.dir).Carries P fun a => a = app) := by
    refine Store.leave_spec (p := fun m' outcome => ((shown m'.dir).Carries P
      (fun a => old = some a ∨ a = app) ∧ m'.dir .recovery = none)
      ∧ (outcome = some .durable → (shown m'.dir).Carries P fun a => a = app)) ?_
    apply wp_mono (wp_publishWith P store app key salt kdf m)
    · rintro ⟨store', publication⟩ m' ⟨-, hpublished⟩
      refine ⟨h.published hseals hpublished, fun hdurable => ?_⟩
      cases hdurable
      exact hpublished.exact hseals h.dated h.fits
    · rintro _ m' ⟨-, hcut⟩
      exact ⟨h.cut hseals hcut, fun hdurable => by cases hdurable⟩
  obtain ⟨⟨hcarries, hnone⟩, hexact⟩ := hleft
  refine ⟨fun mnemonic faults owner howner => ?_, fun entries last faults owner howner => ?_,
    fun hdurable entries last faults owner howner => ?_⟩
  · have hopened : Opened P mnemonic (store.leave P app key salt kdf m).1.dir owner := by
      refine Entry.enter_spec (.open mnemonic) (p := fun _ o => o = some owner →
        Opened P mnemonic (store.leave P app key salt kdf m).1.dir owner) ?_ howner
      apply wp_mono (wp_open P mnemonic _)
      · rintro result m' ⟨-, -, hopened⟩ howner
        cases result with
        | error e => cases howner
        | ok owner' =>
          cases howner
          exact hopened owner rfl
      · intro _ m' _ howner
        cases howner
    obtain ⟨image, u, hstate, hunseal, rfl⟩ := hopened.image
    exact ⟨hopened.no_pending, hopened.no_recovery, hcarries.state image hstate mnemonic u hunseal⟩
  · exact hcarries.gets hseals hnone howner
  · exact (hexact hdurable).gets hseals hnone howner

/-! What the callers of `publish_with` promise it. -/

/-- A ready owner has no gate in its directory, which shows its current image, sealed under a phrase. -/
structure Anchored (P : Platform) (d : Dir FileName) (owner : DurableVault) : Prop where
  no_pending : d .pending = none
  no_recovery : d .recovery = none
  current : d .state = owner.store.currentImage
  kdf : KdfParams.validated owner.store.kdf.mKib owner.store.kdf.tCost owner.store.kdf.pCost
    = .ok owner.store.kdf
  phrase : ∃ phrase, deriveKey P phrase owner.store.salt owner.store.kdf = .ok owner.store.key
  opens : ∃ image phrase u, d .state = some image ∧ unsealImage P image phrase = .ok u

namespace Anchored

variable {d d' : Dir FileName} {owner : DurableVault} {next : Application} {n : Nat}
  {backups : List Bytes} {b : Nat} {call : Call} {store store' : StoreState} {session session' : Session}

theorem of_mirrored (h : Mirrored P d owner) : Anchored P d owner := by
  obtain ⟨image, himage, -, hopens⟩ := h.opens
  obtain ⟨phrase, hkey⟩ := h.phrase
  exact ⟨h.no_pending, h.no_recovery, h.current, h.kdf_valid, h.phrase, image, phrase, _, himage,
    hopens phrase hkey⟩

/-- Only the store and the directory matter. -/
theorem of_store (h : Anchored P d owner) {other : DurableVault} (hsame : other.store = owner.store) :
    Anchored P d other := by
  obtain ⟨hpending, hrecovery, hcurrent, hkdf, hphrase, hopens⟩ := h
  refine ⟨hpending, hrecovery, ?_, ?_, ?_, hopens⟩
  · rw [hsame]
    exact hcurrent
  · rw [hsame]
    exact hkdf
  · rw [hsame]
    exact hphrase

theorem notPublished (h : Anchored P d owner) {key : VaultKey} {salt : Salt} {kdf : KdfParams}
    {left : Store} (hpublished : Published P owner.store next key salt kdf n d (left, .notPublished) d') :
    Anchored P d' { owner with store := left } := by
  cases hpublished with
  | unsealed => exact h
  | unwritten hseal hreached =>
    have hstate : d' .state = d .state := hreached.state
    have hrecovery : d' .recovery = none :=
      (hreached.frame .recovery (by simp) (by simp) (by simp)).trans hreached.no_recovery
    obtain ⟨image, phrase, u, himage, hunseal⟩ := h.opens
    exact ⟨hreached.pending, hrecovery, hstate.trans h.current, h.kdf, h.phrase, image, phrase, u,
      hstate.trans himage, hunseal⟩

/-- The key that a publication is sealed with is derived from some phrase. -/
theorem sealed_with (h : Anchored P d owner) {key : VaultKey} {salt : Salt} {kdf : KdfParams} {n' : Nat}
    (hpublishes : owner.Publishes P b n n' call next key salt kdf) :
    KdfParams.validated kdf.mKib kdf.tCost kdf.pCost = .ok kdf
      ∧ ∃ phrase, deriveKey P phrase salt kdf = .ok key := by
  cases hpublishes with
  | commit => exact ⟨h.kdf, h.phrase⟩
  | rekey k hcandidate =>
    obtain ⟨-, -, -, -, hkey, -⟩ := rekeyCandidate_eq_ok.mp hcandidate
    exact ⟨Faithful.current_valid, _, hkey⟩

/-- Of a store: where its owner is ready, the owner is anchored. -/
def Store (P : Platform) (store : StoreState) : Prop :=
  ∀ owner, store.owner = some owner → owner.ready = .ok () → Anchored P store.dir owner

theorem of_faithful (h : Faithful P store) : Store P store :=
  fun owner howner hready => .of_mirrored (h owner howner hready).1

theorem of_unready (h : owner.ready ≠ .ok ()) : Store P ⟨d, some owner⟩ := by
  intro owner' howner hready
  cases howner
  exact absurd hready h

theorem unowned : Store P ⟨d, none⟩ := fun _ howner => by cases howner

theorem owned (h : Anchored P d owner) : Store P ⟨d, some owner⟩ := by
  intro owner' howner _
  cases howner
  exact h

/-- Every event of a call leaves a ready owner anchored, deliveries included. -/
theorem event (hids : P.FreshIds) (hseals : P.Seals) (hkept : Kept P (fun _ => True) session.drawn store)
    (hcopies : Copies P (fun _ => True) session.drawn backups)
    (hevent : Event P backups b call (store, session) (store', session')) (h : Store P store) :
    Store P store' := by
  cases hevent with
  | drawn | handed => exact h
  | dropped | cutOff | creationCut | attempted => exact unowned
  | memory _ hready => exact owned ((h _ rfl hready).of_store rfl)
  | authorized _ hready => exact owned ((h _ rfl hready).of_store rfl)
  | frozen => exact of_unready fun hready => by simp [ready] at hready
  | @published d d' owner next key salt kdf s s' n out hlater hready hpublishes hpublished =>
    have hanchored := h owner rfl hready
    obtain ⟨hkdf, hphrase⟩ := hanchored.sealed_with hpublishes
    obtain ⟨-, hlasting, -⟩ := Kept.publishes hids (keeps_true call) (Nat.zero_le _) (Nat.zero_le _)
      hlater.drawn (hkept.valid owner rfl) (hkept.lasting owner rfl) trivial hpublishes
    obtain ⟨left, outcome⟩ := out
    cases outcome with
    | notPublished => exact owned (hanchored.notPublished hpublished)
    | unknown => exact of_unready fun hready => by simp [after, ready] at hready
    | durable =>
      intro owner' howner hready'
      cases howner
      exact of_mirrored (.of_published hseals hlasting.dated hkdf hphrase hpublished
        (ready_eq_ok.mp hready').2)
  | created hlater harises hcreated =>
    obtain ⟨-, hlasting⟩ := harises.sound hcopies
    refine of_faithful (.created hseals hlasting.dated ?_ hcreated)
    cases harises with
    | created =>
      intro _ _ hd
      cases hd
    | restored _ _ _ hprepare => exact (prepareRestored_eq_ok hprepare).2.1.finished
  | opened _ hopened =>
    obtain ⟨image, u, hstate, hunseal, rfl⟩ := hopened.image
    exact of_faithful (.ofImage hseals hopened.no_pending hopened.no_recovery hstate hunseal hopened.finished)
  | recovered _ hattempted hrecovered =>
    exact of_faithful (.recovered hseals (hkept.carries.mono fun _ h => h.1) hrecovered)

/-- Between the events of a call from a reachable fleet. -/
theorem reachable (hids : P.FreshIds) (hseals : P.Seals) {fleet : Fleet} (h : Fleet.Reachable P fleet)
    (i : Nat) {x : StoreState × Session} (hevents : ReflTransGen
      (Event P fleet.backups fleet.session.drawn call) (fleet.stores i, fleet.session) x) :
    Kept P (fun _ => True) x.2.drawn x.1 ∧ Store P x.1 := by
  obtain ⟨hsound, hfaithful⟩ := Faithful.runs hids hseals h
  induction hevents with
  | refl => exact ⟨hsound.stores i, of_faithful (hfaithful i)⟩
  | tail hevents hevent ih =>
    obtain ⟨hkept, hstore⟩ := ih
    obtain ⟨hkept', hle, -⟩ := (hsound.stores i).events hids hseals (keeps_true call) (Nat.zero_le _)
      (Nat.zero_le _) (.inr fun _ => trivial) hsound.backups (hevents.tail hevent)
    obtain ⟨-, hmid, -⟩ := (hsound.stores i).events hids hseals (keeps_true call) (Nat.zero_le _)
      (Nat.zero_le _) (.inr fun _ => trivial) hsound.backups hevents
    exact ⟨hkept', event hids hseals hkept (hsound.backups.later hmid) hevent hstore⟩

end Anchored

/-- A publication may be cut off at any file operation, and any processes may come after it: whoever
opens the store finds the old application or the candidate, whoever recovers it has one of the two
sanitized, and once the publication has been acknowledged only the candidate is found. Every
publication by an owner of a reachable fleet, and every first one of a new store, is such a one. -/
theorem publications_crash_safe (hids : P.FreshIds) (hseals : P.Seals) :
    (∀ old store app key salt kdf (m : VaultMachine), Given P old store app m.dir →
      CrashSafe P old app (store.leave P app key salt kdf m))
    ∧ ∀ fleet, Fleet.Reachable P fleet →
      (∀ i call x owner next key salt kdf n, ReflTransGen
          (Event P fleet.backups fleet.session.drawn call) (fleet.stores i, fleet.session) x →
        x.1.owner = some owner → owner.ready = .ok () → x.2.drawn ≤ n →
        owner.Publishes P fleet.session.drawn x.2.drawn n call next key salt kdf →
          ∃ old, Given P (some old) owner.store next x.1.dir)
      ∧ ∀ call app key salt (d : Dir FileName), Call.Arises P fleet.backups call app →
        d .state = none → d .pending = none → d .recovery = none →
          Given P none (newStore key salt) app d := by
  refine ⟨fun _ _ _ key salt kdf _ hgiven => hgiven.crash_safe hseals key salt kdf,
    fun fleet hreachable => ⟨?_, ?_⟩⟩
  · intro i call x owner next key salt kdf n hevents howner hready hle hpublishes
    obtain ⟨hkept, hstore⟩ := Anchored.reachable hids hseals hreachable i hevents
    have hanchored := hstore owner howner hready
    obtain ⟨image, phrase, u, hstate, hunseal⟩ := hanchored.opens
    obtain ⟨-, hlasting, -⟩ := Kept.publishes hids (keeps_true call) (Nat.zero_le _) (Nat.zero_le _) hle
      (hkept.valid owner howner) (hkept.lasting owner howner) trivial hpublishes
    refine ⟨u.app, hanchored.no_pending, hanchored.no_recovery, hanchored.current, fun found hfound => ?_,
      hlasting.dated⟩
    have hsame : found = image := Option.some.inj (hfound.symm.trans (hanchored.current.symm.trans hstate))
    exact ⟨phrase, u, hsame ▸ hunseal, rfl⟩
  · intro call app key salt d harises hstate hpending hrecovery
    obtain ⟨-, hlasting⟩ := harises.sound (Faithful.runs hids hseals hreachable).1.backups
    refine ⟨hpending, hrecovery, hstate, fun _ hcurrent => ?_, hlasting.dated⟩
    cases hcurrent

/-- The first publication of a new store. -/
theorem publications_crash_safe_created : CrashSafe .reference none Application.created
    ((newStore (.replicate 32 7) (.replicate 16 7)).leave .reference Application.created (.replicate 32 7)
      (.replicate 16 7) .current
      { dir := fun _ => none, faults := [], rest := { drawn := 1, handoffs := [] } }) := by
  obtain ⟨hsafe, hgiven⟩ := publications_crash_safe Platform.reference_freshIds Platform.reference_seals
  exact hsafe _ _ _ _ _ _ _ ((hgiven Fleet.start .refl).2 (.create "") _ _ _ _ (.created "") rfl rfl rfl)

end Credman
