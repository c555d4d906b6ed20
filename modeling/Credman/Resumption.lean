import Credman.Undisturbed

/-! An interrupted recovery. Once its plan is in the directory, later attempts with the same
seed can do nothing but carry it out, and only a fault can keep them from it. -/
namespace Credman

open Library Library.Checked Library.FileM Relation Application DurableVault

variable {P : Platform} {mnemonic : String} {admin : AuthenticatedContext} {now : Time}

/-! Whom an application is of. -/

namespace Application

variable {app next : Application}

theorem adminScope_eq_ok : adminScope app admin = .ok () ↔ admin.admin = true
    ∧ (∀ i t, app.tasks.get? i = some t → t.owner = admin.owner ∧ t.workspace = admin.workspace)
    ∧ ∀ i r, app.records.get? i = some r → r.owner = admin.owner ∧ r.workspace = admin.workspace := by
  have hsplit : (!admin.admin || app.tasks.any (fun _ t => t.owner != admin.owner
        || t.workspace != admin.workspace)
      || app.records.any (fun _ r => r.owner != admin.owner || r.workspace != admin.workspace)) = false
      ↔ admin.admin = true
        ∧ (∀ i t, app.tasks.get? i = some t → t.owner = admin.owner ∧ t.workspace = admin.workspace)
        ∧ ∀ i r, app.records.get? i = some r →
            r.owner = admin.owner ∧ r.workspace = admin.workspace := by
    simp only [Bool.or_eq_false_iff, Bool.not_eq_false', OrdMap.any_false, bne_eq_false_iff_eq, and_assoc]
  rw [← hsplit]
  unfold adminScope
  split_ifs with h
  · simp [h]
  · simpa using h

/-- Closing changes neither tasks nor whom a record is of. -/
theorem Closed.scope {copy : Bool} (h : Closed copy app next) (hscope : adminScope app admin = .ok ()) :
    adminScope next admin = .ok () := by
  obtain ⟨hadmin, htasks, hrecords⟩ := adminScope_eq_ok.mp hscope
  refine adminScope_eq_ok.mpr ⟨hadmin, ?_, fun i r' hr' => ?_⟩
  · rw [h.tasks]
    exact htasks
  · obtain ⟨r, hr, hsame⟩ := h.record hr'
    have howned := hrecords i r hr
    rw [hsame]
    exact howned

theorem Closed.dated {copy : Bool} (h : Closed copy app next) (hdated : app.Timestamped) : next.Timestamped where
  requests key c hc := hdated.requests key c (h.requests ▸ hc)
  deliveries i d' hd' := by
    obtain ⟨d, hd, rfl⟩ := h.delivery hd'
    have hstored := hdated.deliveries i d hd
    unfold closed
    split_ifs
    · exact hstored
    · exact hstored

/-- What one encoding is of has one scope. -/
theorem scope_of_encode (hjson : P.Json) {bytes : Bytes} (h : app.encode P = .ok bytes)
    (h' : next.encode P = .ok bytes) (hscope : adminScope app admin = .ok ()) :
    adminScope next admin = .ok () := by
  have hsame := stamped_eq_of_encode hjson h h'
  obtain ⟨hadmin, htasks, hrecords⟩ := adminScope_eq_ok.mp hscope
  have ht : next.tasks = app.tasks := (congrArg Application.tasks hsame).symm
  have hr : next.records = app.records := (congrArg Application.records hsame).symm
  refine adminScope_eq_ok.mpr ⟨hadmin, ?_, ?_⟩
  · rw [ht]
    exact htasks
  · rw [hr]
    exact hrecords

end Application

/-- The plan of an attempt that was cut off, in a directory from which it can be carried out. -/
structure Resumable (P : Platform) (mnemonic : String) (old target : Unsealed) (base image : Bytes)
    (s : Shown) : Prop where
  plan : ∃ bytes, s.recovery = some bytes ∧ parseGate bytes = .ok (base, image)
  opens_base : unsealImage P base mnemonic = .ok old
  opens_plan : unsealImage P image mnemonic = .ok target
  salt : old.salt = target.salt
  kdf : old.kdf = target.kdf
  same : ∃ last expected bytes, target.app.lastTime = some last
    ∧ old.app.sanitize P last = .ok expected ∧ expected.encode P = .ok bytes
    ∧ target.app.encode P = .ok bytes
  agrees : s.Agrees P mnemonic base
  shows : s.state = some image ∨ s.Shows P mnemonic base

/-- From the plan on: it is there to be carried out, or has been. -/
inductive Resuming (P : Platform) (mnemonic : String) (old target : Unsealed) (base image : Bytes)
    (s : Shown) : Prop
  | resumable (h : Resumable P mnemonic old target base image s)
  | settled (hstate : s.state = some image) (hpending : s.pending = none) (hnone : s.recovery = none)

variable {old target : Unsealed} {base image : Bytes} {s s' : Shown}

namespace Resumable

/-- Everything of the target is closed, so nothing is left to recover once it is installed. -/
theorem closed (hjson : P.Json) (h : Resumable P mnemonic old target base image s) :
    needsRecovery target.app false = false ∧ target.app.Finished := by
  obtain ⟨last, expected, bytes, -, hsane, hleft, hright⟩ := h.same
  obtain ⟨hclosed, hfrozen, -, -⟩ := sanitize_eq_ok hsane
  have hsame := stamped_eq_of_encode hjson hleft hright
  have hfinished : target.app.Finished := hclosed.finished.of_stamped hsame
  have hthawed : target.app.clockFrozen = false := (congrArg Application.clockFrozen hsame).symm.trans hfrozen
  refine ⟨?_, hfinished⟩
  unfold needsRecovery
  rw [Bool.false_or, Bool.or_eq_false_iff, OrdMap.any_false]
  exact ⟨hthawed, fun i d hd => by simpa [Option.isSome_iff_ne_none] using hfinished i d hd⟩

/-- Whoever may recover the base may install the target. -/
theorem scope (hjson : P.Json) (h : Resumable P mnemonic old target base image s)
    (hscope : adminScope old.app admin = .ok ()) : adminScope target.app admin = .ok () := by
  obtain ⟨last, expected, bytes, -, hsane, hleft, hright⟩ := h.same
  exact scope_of_encode hjson hleft hright ((sanitize_eq_ok hsane).1.scope hscope)

/-- The state, where there is one, can be read with the seed. -/
theorem reads (h : Resumable P mnemonic old target base image s) {found : Bytes}
    (hfound : s.state = some found) : (found = image ∨ found = base)
      ∧ ∃ u, unsealImage P found mnemonic = .ok u := by
  rcases h.shows with hstate | hstate | ⟨hmissing, -⟩
  · obtain rfl := Option.some.inj (hfound.symm.trans hstate)
    exact ⟨.inl rfl, _, h.opens_plan⟩
  · obtain rfl := Option.some.inj (hfound.symm.trans hstate)
    exact ⟨.inr rfl, _, h.opens_base⟩
  · rw [hmissing] at hfound
    cases hfound

theorem parse (h : Resumable P mnemonic old target base image s) {bytes : Bytes} {gate : Bytes × Bytes}
    (hplan : s.recovery = some bytes) (hgate : parseGate bytes = .ok gate) : gate = (base, image) := by
  obtain ⟨bytes', hplan', hgate'⟩ := h.plan
  obtain rfl := Option.some.inj (hplan.symm.trans hplan')
  exact Except.ok.inj (hgate.symm.trans hgate')

theorem step (h : Resumable P mnemonic old target base image s)
    (hstep : Reconcile P mnemonic admin now s s') : Resuming P mnemonic old target base image s' := by
  cases hstep with
  | adopt hstate hsealed =>
    obtain ⟨-, u, hu⟩ := h.reads hstate
    exact absurd hu (hsealed u)
  | plan n _ _ _ hnone =>
    obtain ⟨bytes, hplan, -⟩ := h.plan
    rw [hnone] at hplan
    cases hplan
  | install hplan hgate =>
    cases h.parse hplan hgate
    exact .resumable { h with shows := .inl rfl }
  | settle hplan hgate hstate =>
    cases h.parse hplan hgate
    exact .resumable { h with agrees := (fun bytes hbytes => by cases hbytes), shows := .inl hstate }
  | clear hplan hgate hstate hpending =>
    cases h.parse hplan hgate
    exact .settled hstate hpending rfl

end Resumable

/-- Where all is installed there is nothing for an attempt to do. -/
theorem not_reconcile_of_settled (hclosed : needsRecovery target.app false = false)
    (hopens : unsealImage P image mnemonic = .ok target) (hstate : s.state = some image)
    (hpending : s.pending = none) (hnone : s.recovery = none) : ¬ Reconcile P mnemonic admin now s s' := by
  intro hstep
  cases hstep with
  | adopt hstate' hsealed =>
    obtain rfl := Option.some.inj (hstate'.symm.trans hstate)
    exact absurd hopens (hsealed target)
  | plan n hshows hunseal _ _ hneeds =>
    rcases hshows with hfound | ⟨hmissing, -⟩
    · obtain rfl := Option.some.inj (hfound.symm.trans hstate)
      obtain rfl := Except.ok.inj (hunseal.symm.trans hopens)
      rw [hpending, Option.isSome_none, hclosed] at hneeds
      cases hneeds
    · rw [hstate] at hmissing
      cases hmissing
  | install hplan | settle hplan | clear hplan =>
    rw [hnone] at hplan
    cases hplan

theorem settled_eq (hstate : s.state = some image) (hpending : s.pending = none)
    (hnone : s.recovery = none) : s = { state := some image, pending := none, recovery := none } := by
  obtain ⟨state, pending, recovery⟩ := s
  rw [show state = some image from hstate, show pending = none from hpending,
    show recovery = none from hnone]

namespace Resuming

theorem step (hclosed : needsRecovery target.app false = false)
    (hopens : unsealImage P image mnemonic = .ok target)
    (h : Resuming P mnemonic old target base image s) (hstep : Reconcile P mnemonic admin now s s') :
    Resuming P mnemonic old target base image s' := by
  cases h with
  | resumable h => exact h.step hstep
  | settled hstate hpending hnone =>
    exact absurd hstep (not_reconcile_of_settled hclosed hopens hstate hpending hnone)

theorem steps (hclosed : needsRecovery target.app false = false)
    (hopens : unsealImage P image mnemonic = .ok target)
    (h : Resuming P mnemonic old target base image s)
    (hsteps : ReflTransGen (Reconcile P mnemonic admin now) s s') :
    Resuming P mnemonic old target base image s' := by
  induction hsteps with
  | refl => exact h
  | tail _ hstep ih => exact ih.step hclosed hopens hstep

/-- An attempt that succeeds has installed the target. -/
theorem recovered (hclosed : needsRecovery target.app false = false)
    (hopens : unsealImage P image mnemonic = .ok target) {d d' : Dir FileName} {owner : DurableVault}
    (h : Resuming P mnemonic old target base image (shown d))
    (hrecovered : Recovered P mnemonic admin now d d' owner) : owner.app = target.app
      ∧ shown d' = { state := some image, pending := none, recovery := none } := by
  obtain ⟨s, found, u, installed, hsteps, hshows, hunseal, -, htarget, hshown, -⟩ := hrecovered.exact
  have hmid := h.steps hclosed hopens hsteps
  cases hmid with
  | resumable hplanned =>
    cases htarget with
    | planned n hnone =>
      obtain ⟨bytes, hplan, -⟩ := hplanned.plan
      rw [hnone] at hplan
      cases hplan
    | resumed hplan hgate _ hcheck =>
      cases hplanned.parse hplan hgate
      obtain ⟨previous, target', hchecked, happ⟩ := checkPlan_eq_ok.mp hcheck
      obtain rfl := Except.ok.inj (hchecked.opens_plan.symm.trans hopens)
      exact ⟨happ, hshown⟩
  | settled hstate hpending hnone =>
    cases htarget with
    | planned n _ hneeds =>
      rcases hshows with hfound | ⟨hmissing, -⟩
      · obtain rfl := Option.some.inj (hfound.symm.trans hstate)
        obtain rfl := Except.ok.inj (hunseal.symm.trans hopens)
        rw [hpending, Option.isSome_none, hclosed] at hneeds
        cases hneeds
      · rw [hstate] at hmissing
        cases hmissing
    | resumed hplan =>
      rw [hnone] at hplan
      cases hplan

end Resuming

/-- The seed that the next process enters with. -/
def Entry.seed : Entry → String
  | .open phrase => phrase
  | .recover phrase _ _ => phrase

namespace Resuming

variable {m : VaultMachine}

/-- One more process with the seed, cut off or not. -/
theorem enter (hseals : P.Seals) (hclosed : needsRecovery target.app false = false)
    (hopens : unsealImage P image mnemonic = .ok target) {entry : Entry} {faults : List Fault}
    (hseed : entry.seed = mnemonic) (h : Resuming P mnemonic old target base image (shown m.dir)) :
    Resuming P mnemonic old target base image (shown (entry.enter P m faults).1.dir)
      ∧ ∀ owner, (entry.enter P m faults).2 = some owner → owner.app = target.app
        ∧ shown (entry.enter P m faults).1.dir
          = { state := some image, pending := none, recovery := none } := by
  refine Entry.enter_spec entry (p := fun m' o => Resuming P mnemonic old target base image (shown m'.dir)
    ∧ ∀ owner, o = some owner → owner.app = target.app
      ∧ shown m'.dir = { state := some image, pending := none, recovery := none }) ?_
  cases entry with
  | «open» phrase =>
    obtain rfl : phrase = mnemonic := hseed
    apply wp_mono (wp_open P phrase { m with faults })
    · rintro result m' ⟨-, hdir, hopened⟩
      have hdir' : m'.dir = m.dir := hdir
      rw [hdir']
      refine ⟨h, fun owner howner => ?_⟩
      cases result with
      | error e => cases howner
      | ok owner' =>
        cases howner
        have hfound := hopened owner rfl
        cases h with
        | resumable hplanned =>
          obtain ⟨bytes, hplan, -⟩ := hplanned.plan
          have hnone : (shown m.dir).recovery = none := hfound.no_recovery
          rw [hnone] at hplan
          cases hplan
        | settled hstate hpending hnone =>
          obtain ⟨found, u, hstate', hunseal, howner⟩ := hfound.image
          obtain rfl := Option.some.inj (hstate'.symm.trans hstate)
          obtain rfl := Except.ok.inj (hunseal.symm.trans hopens)
          refine ⟨by rw [howner, ofImage], ?_⟩
          exact settled_eq hstate hpending hnone
    · rintro _ m' ⟨-, hdir⟩
      have hdir' : m'.dir = m.dir := hdir
      rw [hdir']
      exact ⟨h, fun _ howner => by cases howner⟩
  | recover phrase admin now =>
    obtain rfl : phrase = mnemonic := hseed
    apply wp_mono (wp_recover hseals { m with faults })
    · rintro result m' ⟨hattempted, hrecovered⟩
      refine ⟨h.steps hclosed hopens hattempted.steps, fun owner howner => ?_⟩
      cases result with
      | error e => cases howner
      | ok owner' =>
        cases howner
        exact h.recovered hclosed hopens (hrecovered owner rfl)
    · intro _ m' hattempted
      exact ⟨h.steps hclosed hopens hattempted.steps, fun _ howner => by cases howner⟩

theorem entered (hseals : P.Seals) (hclosed : needsRecovery target.app false = false)
    (hopens : unsealImage P image mnemonic = .ok target) (entries : List (Entry × List Fault))
    (hseed : ∀ e ∈ entries, e.1.seed = mnemonic)
    (h : Resuming P mnemonic old target base image (shown m.dir)) :
    Resuming P mnemonic old target base image (shown (entered P m entries).dir) := by
  induction entries generalizing m with
  | nil => exact h
  | cons e rest ih =>
    obtain ⟨hfirst, hrest⟩ := List.forall_mem_cons.mp hseed
    exact ih hrest (h.enter hseals hclosed hopens hfirst).1

end Resuming

/-! From the first attempt on. -/

/-- Whatever processes come, every temporary file was named from an earlier draw. -/
theorem Entry.littered (hseals : P.Seals) {m : VaultMachine} (entry : Entry) (faults : List Fault)
    (h : Littered P m.rest.drawn m.dir) :
    Littered P (entry.enter P m faults).1.rest.drawn (entry.enter P m faults).1.dir := by
  refine Entry.enter_spec entry (p := fun m' _ => Littered P m'.rest.drawn m'.dir) ?_
  cases entry with
  | «open» phrase =>
    apply wp_mono (wp_open P phrase { m with faults })
    · rintro result m' ⟨hrest, hdir, -⟩
      rw [hrest, hdir]
      exact h
    · rintro _ m' ⟨hrest, hdir⟩
      rw [hrest, hdir]
      exact h
  | recover phrase admin now =>
    apply wp_mono (wp_recover hseals { m with faults })
    · rintro result m' ⟨hattempted, -⟩
      exact hattempted.littered h
    · intro _ m' hattempted
      exact hattempted.littered h

theorem entered_littered (hseals : P.Seals) {m : VaultMachine} (entries : List (Entry × List Fault))
    (h : Littered P m.rest.drawn m.dir) :
    Littered P (entered P m entries).rest.drawn (entered P m entries).dir := by
  induction entries generalizing m with
  | nil => exact h
  | cons e rest ih => exact ih (e.1.littered hseals e.2 h)

/-- Nothing planned yet, a plan made from a base at this attempt's clock, or all of it installed. -/
inductive Attempting (P : Platform) (φ : Application → Prop) (mnemonic : String)
    (admin : AuthenticatedContext) (now : Time) (s : Shown) : Prop
  | before (hnone : s.recovery = none) (hcarries : s.Carries P fun app => φ app ∧ app.Timestamped)
  | planned {old target : Unsealed} {base image : Bytes} (hbase : φ old.app)
      (hscope : adminScope old.app admin = .ok ()) (hsane : old.app.sanitize P now = .ok target.app)
      (h : Resumable P mnemonic old target base image s)
  | settled {image : Bytes} {target : Unsealed} (hstate : s.state = some image)
      (hopens : unsealImage P image mnemonic = .ok target)
      (hclosed : needsRecovery target.app false = false) (hpending : s.pending = none)
      (hnone : s.recovery = none)

namespace Attempting

variable {φ : Application → Prop}

theorem step (hseals : P.Seals) (h : Attempting P φ mnemonic admin now s)
    (hstep : Reconcile P mnemonic admin now s s') : Attempting P φ mnemonic admin now s' := by
  cases h with
  | planned hbase hscope hsane h =>
    cases h.step hstep with
    | resumable h' => exact .planned hbase hscope hsane h'
    | settled hstate hpending hnone =>
      exact .settled hstate h.opens_plan (h.closed hseals.toJson).1 hpending hnone
  | settled hstate hopens hclosed hpending hnone =>
    exact absurd hstep (not_reconcile_of_settled hclosed hopens hstate hpending hnone)
  | before hnone hcarries =>
    cases hstep with
    | @adopt visible bytes old next hstate hsealed hpending hgate hcheck =>
      refine .before hnone ⟨?_, hcarries.pending, hcarries.recovery⟩
      rintro found ⟨⟩
      exact hcarries.pending bytes _ hpending hgate
    | @plan base image u app n hshows hunseal hscope _ hneeds hagrees hsane hseal hwhole =>
      obtain ⟨hbase, holder⟩ := hcarries.shows hshows mnemonic u hunseal
      obtain ⟨hclosed, -, hlast, -⟩ := sanitize_eq_ok hsane
      obtain ⟨-, _, _, _, _, -, -, hkdf, hkey, -⟩ := unsealImage_eq_ok.mp hunseal
      obtain ⟨bytes, hencode, -⟩ := sealImage_eq_ok.mp hseal
      have hopens : unsealImage P image mnemonic = .ok { u with app } :=
        unseal_sealImage hseals (hclosed.dated holder) hkdf hkey hseal
      exact .planned hbase hscope hsane {
        plan := ⟨_, rfl, hwhole⟩
        opens_base := hunseal
        opens_plan := hopens
        salt := rfl
        kdf := rfl
        same := ⟨now, app, bytes, hlast, hsane, hencode, hencode⟩
        agrees := hagrees
        shows := .inr hshows }
    | install hplan | settle hplan | clear hplan =>
      rw [hnone] at hplan
      cases hplan

theorem steps (hseals : P.Seals) (h : Attempting P φ mnemonic admin now s)
    (hsteps : ReflTransGen (Reconcile P mnemonic admin now) s s') :
    Attempting P φ mnemonic admin now s' := by
  induction hsteps with
  | refl => exact h
  | tail _ hstep ih => exact ih.step hseals hstep

/-- An attempt, cut off or not. -/
theorem enter (hseals : P.Seals) {m : VaultMachine} (faults : List Fault)
    (h : Attempting P φ mnemonic admin now (shown m.dir)) :
    Attempting P φ mnemonic admin now (shown ((Entry.recover mnemonic admin now).enter P m faults).1.dir) := by
  refine Entry.enter_spec (.recover mnemonic admin now)
    (p := fun m' _ => Attempting P φ mnemonic admin now (shown m'.dir)) ?_
  apply wp_mono (wp_recover hseals { m with faults })
  · rintro result m' ⟨hattempted, -⟩
    exact h.steps hseals hattempted.steps
  · intro _ m' hattempted
    exact h.steps hseals hattempted.steps

end Attempting

/-! Every later attempt has one result. -/

/-- Wherever the processes that follow are cut off, all of them with the seed of the plan: whoever
gets an owner gets the target and leaves nothing else; with a gate in the directory `open` gets
none; and the next process that nothing disturbs gets one. -/
structure Resumes (P : Platform) (mnemonic : String) (old target : Unsealed) (image : Bytes)
    (m : VaultMachine) : Prop where
  only : ∀ (entries : List (Entry × List Fault)) (last : Entry) (faults : List Fault)
    (owner : DurableVault), (∀ e ∈ entries, e.1.seed = mnemonic) → last.seed = mnemonic →
      (last.enter P (entered P m entries) faults).2 = some owner → owner.app = target.app
        ∧ shown (last.enter P (entered P m entries) faults).1.dir
          = { state := some image, pending := none, recovery := none }
  gated : ∀ (entries : List (Entry × List Fault)) (phrase : String) (faults : List Fault),
    (entered P m entries).dir .pending ≠ none ∨ (entered P m entries).dir .recovery ≠ none →
      ((Entry.open phrase).enter P (entered P m entries) faults).2 = none
  resumed : ∀ (entries : List (Entry × List Fault)) (admin : AuthenticatedContext) (now : Time),
    (∀ e ∈ entries, e.1.seed = mnemonic) → adminScope old.app admin = .ok () →
      ∃ (last : Entry) (owner : DurableVault), (last = .recover mnemonic admin now ∨ last = .open mnemonic)
        ∧ (last.enter P (entered P m entries) []).2 = some owner ∧ owner.app = target.app

/-- A gate refuses whoever only opens. -/
theorem Entry.open_gated {m : VaultMachine} (phrase : String) (faults : List Fault)
    (h : m.dir .pending ≠ none ∨ m.dir .recovery ≠ none) :
    ((Entry.open phrase).enter P m faults).2 = none := by
  refine Entry.enter_spec (.open phrase) (p := fun _ o => o = none) ?_
  apply wp_mono (wp_open P phrase { m with faults })
  · rintro result m' ⟨-, -, hopened⟩
    cases result with
    | error e => rfl
    | ok owner =>
      have hfound := hopened owner rfl
      rcases h with hpending | hrecovery
      · exact absurd hfound.no_pending hpending
      · exact absurd hfound.no_recovery hrecovery
  · exact fun _ _ _ => rfl

/-- An open that nothing disturbs gets what is installed. -/
theorem Entry.open_settled {m : VaultMachine} (hfinished : target.app.Finished)
    (hopens : unsealImage P image mnemonic = .ok target)
    (hshown : shown m.dir = { state := some image, pending := none, recovery := none }) :
    ∃ owner, ((Entry.open mnemonic).enter P m []).2 = some owner ∧ owner.app = target.app := by
  refine Entry.enter_spec (.open mnemonic) (p := fun _ o => ∃ owner, o = some owner
    ∧ owner.app = target.app) ?_
  have hrun : DurableVault.open P mnemonic { m with faults := [] }
      = .ok (.ok (ofImage image target)) { m with faults := [] } :=
    open_undisturbed rfl (congrArg Shown.pending hshown) (congrArg Shown.recovery hshown)
      (congrArg Shown.state hshown) (unsealImage_eq_ok.mp hopens).1 hopens hfinished
  apply wp_mono (eq_ok_iff_wp.mp hrun)
  · rintro result m' ⟨rfl, -⟩
    exact ⟨ofImage image target, rfl, rfl⟩
  · exact fun _ _ hno => hno.elim

namespace Resumable

variable {m : VaultMachine}

/-- Nothing is missing for an attempt. -/
theorem targetable (hjson : P.Json) (now : Time) (h : Resumable P mnemonic old target base image s)
    (hscope : adminScope old.app admin = .ok ()) : ∃ found u, s.Shows P mnemonic found
      ∧ unsealImage P found mnemonic = .ok u ∧ adminScope u.app admin = .ok ()
      ∧ Targetable P mnemonic admin now s found u target.app := by
  obtain ⟨bytes, hplan, hgate⟩ := h.plan
  have htarget := h.scope hjson hscope
  have hchecked : ∀ found u, (found = base ∨ found = image) → u.salt = target.salt → u.kdf = target.kdf →
      checkPlan P mnemonic admin found u (base, image) = .ok target.app := by
    intro found u hfound hsalt hkdf
    exact checkPlan_eq_ok.mpr ⟨old, target, ⟨h.opens_base, h.opens_plan, hscope, htarget,
      ⟨hsalt.trans h.salt.symm, hkdf.trans h.kdf.symm⟩, ⟨hsalt, hkdf⟩, hfound, h.same⟩, rfl⟩
  rcases h.shows with hstate | hshows
  · exact ⟨image, target, .inl hstate, h.opens_plan, htarget,
      .planned hplan hgate h.agrees (hchecked image target (.inr rfl) rfl rfl)⟩
  · exact ⟨base, old, hshows, h.opens_base, hscope,
      .planned hplan hgate h.agrees (hchecked base old (.inl rfl) h.salt h.kdf)⟩

theorem resumes (hids : P.FreshIds) (hseals : P.Seals) (hlittered : Littered P m.rest.drawn m.dir)
    (h : Resumable P mnemonic old target base image (shown m.dir)) :
    Resumes P mnemonic old target image m := by
  obtain ⟨hclosed, hfinished⟩ := h.closed hseals.toJson
  have hrun : ∀ entries : List (Entry × List Fault), (∀ e ∈ entries, e.1.seed = mnemonic) →
      Resuming P mnemonic old target base image (shown (entered P m entries).dir) :=
    fun entries hseed => Resuming.entered hseals hclosed h.opens_plan entries hseed (.resumable h)
  refine ⟨fun entries last faults owner hseed hlast howner => ?_,
    fun entries phrase faults hgate => Entry.open_gated phrase faults hgate,
    fun entries admin now hseed hscope => ?_⟩
  · exact ((hrun entries hseed).enter hseals hclosed h.opens_plan hlast).2 owner howner
  · cases hrun entries hseed with
    | resumable hplanned =>
      obtain ⟨found, u, hshows, hunseal, hfound, htarget⟩ := hplanned.targetable
        hseals.toJson now hscope
      obtain ⟨owner, howner, happ⟩ := Entry.recover_undisturbed (adminScope_eq_ok.mp hscope).1
        ((entered_littered hseals entries hlittered).unclaimed hids) (fun image himage => (hplanned.reads himage).2)
        hshows hunseal hfound htarget
      exact ⟨_, owner, .inl rfl, howner, happ⟩
    | settled hstate hpending hnone =>
      have hshown : shown (entered P m entries).dir
          = { state := some image, pending := none, recovery := none } := settled_eq hstate hpending hnone
      obtain ⟨owner, howner, happ⟩ := Entry.open_settled hfinished h.opens_plan hshown
      exact ⟨_, owner, .inr rfl, howner, happ⟩

end Resumable

/-- An attempt that is cut off with its plan in the directory settles what all later ones come
to: the base it found, sanitized once and at its own clock. -/
theorem recovery_resumes (hids : P.FreshIds) (hseals : P.Seals) {φ : Application → Prop}
    {m : VaultMachine} (hnone : m.dir .recovery = none)
    (hcarries : (shown m.dir).Carries P fun app => φ app ∧ app.Timestamped)
    (hlittered : Littered P m.rest.drawn m.dir) {faults : List Fault}
    (hplanned : ((Entry.recover mnemonic admin now).enter P m faults).1.dir .recovery ≠ none) :
    ∃ old target image, φ old.app ∧ adminScope old.app admin = .ok ()
      ∧ old.app.sanitize P now = .ok target.app ∧ unsealImage P image mnemonic = .ok target
      ∧ Resumes P mnemonic old target image ((Entry.recover mnemonic admin now).enter P m faults).1 := by
  have hafter : Attempting P φ mnemonic admin now _ :=
    Attempting.enter hseals faults (.before hnone hcarries)
  cases hafter with
  | before hnone' => exact absurd hnone' hplanned
  | settled _ _ _ _ hnone' => exact absurd hnone' hplanned
  | @planned old target base image hbase hscope hsane h =>
    exact ⟨old, target, image, hbase, hscope, hsane, h.opens_plan,
      h.resumes hids hseals (Entry.littered hseals _ faults hlittered)⟩

/-- A vault whose clock has frozen. -/
def stoppedVault : Application := { generation := 1, lastTime := some 100, clockFrozen := true }

def stoppedImage : Except Error Bytes := do
  let key ← deriveKey .reference (Platform.referencePhrases.headD "") (Vector.replicate 16 0) .current
  sealImage .reference stoppedVault key (Vector.replicate 16 0) .current (Vector.replicate 12 0)

/-- Its store, with the image alone. -/
def stoppedStore : VaultMachine where
  dir name := if name = .state then stoppedImage.toOption else none
  faults := []
  rest := { drawn := 3, handoffs := [] }

theorem stoppedVault_timestamped : stoppedVault.Timestamped where
  requests key c hc := by
    rw [show stoppedVault.requests = ∅ from rfl, OrdMap.get?_empty] at hc
    cases hc
  deliveries i d hd := by
    rw [show stoppedVault.deliveries = ∅ from rfl, OrdMap.get?_empty] at hd
    cases hd

theorem stoppedStore_carries : (shown stoppedStore.dir).Carries .reference fun app =>
    app = stoppedVault ∧ app.Timestamped where
  state image hstate := by
    change stoppedImage.toOption = some image at hstate
    cases hsealed : stoppedImage with
    | error e =>
      rw [hsealed] at hstate
      cases hstate
    | ok found =>
      rw [hsealed] at hstate
      cases hstate
      obtain ⟨key, -, hseal⟩ := bind_eq_ok.mp hsealed
      exact opens_of_seal Platform.reference_seals stoppedVault_timestamped hseal ⟨rfl, stoppedVault_timestamped⟩
  pending _ _ hpending := by cases hpending
  recovery _ _ hrecovery := by cases hrecovery

/-- A recovery that dies before it installs what it has planned. -/
def plannedStore : VaultMachine :=
  ((Entry.recover (Platform.referencePhrases.headD "") (.fromAuthenticatedAdmin "owner" "human" "home") 60).enter
    .reference stoppedStore (List.replicate 8 .none ++ [.crash 0])).1

theorem recovery_resumes_stopped : ∃ old target image, old.app = stoppedVault
    ∧ adminScope old.app (.fromAuthenticatedAdmin "owner" "human" "home") = .ok ()
    ∧ old.app.sanitize .reference 60 = .ok target.app
    ∧ unsealImage .reference image (Platform.referencePhrases.headD "") = .ok target
    ∧ Resumes .reference (Platform.referencePhrases.headD "") old target image plannedStore := by
  have hplanned : (plannedStore.dir .recovery).isSome = true := by decide +kernel
  refine recovery_resumes Platform.reference_freshIds Platform.reference_seals rfl stoppedStore_carries
    (fun name id hticket hthere => ?_) fun hnone => ?_
  · cases name with
    | state | pending | recovery => cases hticket
    | candidate | rekeyAdopt | recoveryPlan | recovered => exact absurd rfl hthere
  · change plannedStore.dir .recovery = none at hnone
    rw [hnone] at hplanned
    cases hplanned

end Credman
