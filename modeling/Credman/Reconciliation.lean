import Credman.Entry
import Credman.Gates

/-! What an attempt at recovery does to a store directory, however it ends: the
state and its two gates change in few ways, one file at a time. -/
namespace Credman

open Library Library.Checked Library.FileM Relation

/-- The files of a store that mean something to its next process. -/
structure Shown where
  state : Option Bytes
  pending : Option Bytes
  recovery : Option Bytes

def shown (d : Dir FileName) : Shown where
  state := d .state
  pending := d .pending
  recovery := d .recovery

section

variable (d : Dir FileName) (bytes : Option Bytes)

@[simp] theorem shown_state : shown (Function.update d .state bytes) = { shown d with state := bytes } := by
  simp [shown]

@[simp] theorem shown_pending :
    shown (Function.update d .pending bytes) = { shown d with pending := bytes } := by
  simp [shown]

@[simp] theorem shown_recovery :
    shown (Function.update d .recovery bytes) = { shown d with recovery := bytes } := by
  simp [shown]

end

/-- The identifier in the name of a temporary file. -/
def FileName.ticket : FileName → Option Uuid
  | .state | .pending | .recovery => none
  | .candidate id | .rekeyAdopt id | .recoveryPlan id | .recovered id => some id

/-- Every temporary file there is was named from an earlier draw. -/
def Littered (P : Platform) (drawn : Nat) (d : Dir FileName) : Prop :=
  ∀ name id, name.ticket = some id → d name ≠ none → ∃ k, k < drawn ∧ id = P.uuid k

/-- The image a recovery starts from: the state, or the intent of a store that never had one. -/
def Shown.Shows (P : Platform) (mnemonic : String) (s : Shown) (base : Bytes) : Prop :=
  s.state = some base ∨ s.state = none ∧ ∃ bytes gate, s.pending = some bytes
    ∧ parseGate bytes = .ok gate ∧ absentInitial P mnemonic gate = .ok base

/-- The pending intent, if there is one, is a step from or to this image. -/
def Shown.Agrees (P : Platform) (mnemonic : String) (s : Shown) (base : Bytes) : Prop :=
  ∀ bytes, s.pending = some bytes →
    ∃ gate, parseGate bytes = .ok gate ∧ checkPending P mnemonic base gate = .ok ()

/-- One change that an attempt at recovery makes. -/
inductive Reconcile (P : Platform) (mnemonic : String) (admin : AuthenticatedContext) (now : Time) :
    Shown → Shown → Prop
  | adopt {s : Shown} {visible bytes old next : Bytes} (hstate : s.state = some visible)
      (hsealed : ∀ u, unsealImage P visible mnemonic ≠ .ok u) (hpending : s.pending = some bytes)
      (hgate : parseGate bytes = .ok (old, next))
      (hcheck : checkAdoption P mnemonic admin visible (old, next) = .ok (some next)) :
    Reconcile P mnemonic admin now s { s with state := some next }
  | plan {s : Shown} {base image : Bytes} {u : Unsealed} {app : Application} (n : Nat)
      (hbase : s.Shows P mnemonic base) (hunseal : unsealImage P base mnemonic = .ok u)
      (hscope : adminScope u.app admin = .ok ()) (hnone : s.recovery = none)
      (hneeds : needsRecovery u.app s.pending.isSome = true) (hagrees : s.Agrees P mnemonic base)
      (hsane : u.app.sanitize P now = .ok app)
      (hseal : sealImage P app u.key u.salt u.kdf (P.nonce n) = .ok image)
      (hwhole : parseGate (gateBytes base image) = .ok (base, image)) :
    Reconcile P mnemonic admin now s { s with recovery := some (gateBytes base image) }
  | install {s : Shown} {bytes base image : Bytes} (hplan : s.recovery = some bytes)
      (hgate : parseGate bytes = .ok (base, image)) :
    Reconcile P mnemonic admin now s { s with state := some image }
  | settle {s : Shown} {bytes base image : Bytes} (hplan : s.recovery = some bytes)
      (hgate : parseGate bytes = .ok (base, image)) (hstate : s.state = some image) :
    Reconcile P mnemonic admin now s { s with pending := none }
  | clear {s : Shown} {bytes base image : Bytes} (hplan : s.recovery = some bytes)
      (hgate : parseGate bytes = .ok (base, image)) (hstate : s.state = some image)
      (hpending : s.pending = none) :
    Reconcile P mnemonic admin now s { s with recovery := none }

variable {P : Platform} {mnemonic : String} {admin : AuthenticatedContext} {now : Time}

/-- What has happened between two moments of one attempt. -/
structure Attempted (P : Platform) (mnemonic : String) (admin : AuthenticatedContext) (now : Time)
    (m m' : VaultMachine) : Prop where
  later : m.rest.Later m'.rest
  steps : ReflTransGen (Reconcile P mnemonic admin now) (shown m.dir) (shown m'.dir)
  littered : Littered P m.rest.drawn m.dir → Littered P m'.rest.drawn m'.dir

namespace Attempted

variable {m m' m'' : VaultMachine}

theorem refl (m : VaultMachine) (faults : List Fault) :
    Attempted P mnemonic admin now m { m with faults } :=
  ⟨⟨le_refl _, rfl⟩, .refl, id⟩

theorem trans (h : Attempted P mnemonic admin now m m') (h' : Attempted P mnemonic admin now m' m'') :
    Attempted P mnemonic admin now m m'' :=
  ⟨h.later.trans h'.later, h.steps.trans h'.steps, fun hlittered => h'.littered (h.littered hlittered)⟩

/-- A draw leaves the directory as it is. -/
theorem drawing (m : VaultMachine) : Attempted P mnemonic admin now m
    { m with rest := { m.rest with drawn := m.rest.drawn + 1 } } := by
  refine ⟨⟨by simp, rfl⟩, .refl, fun h name id hticket hname => ?_⟩
  obtain ⟨k, hk, rfl⟩ := h name id hticket hname
  exact ⟨k, by simp; omega, rfl⟩

/-- Changes of gates and state only. -/
theorem step {faults : List Fault} {dir : Dir FileName}
    (h : Reconcile P mnemonic admin now (shown m.dir) (shown dir))
    (hframe : ∀ name id, name.ticket = some id → dir name ≠ none → m.dir name ≠ none) :
    Attempted P mnemonic admin now m { m with faults, dir } :=
  ⟨⟨le_refl _, rfl⟩, .single h, fun hlittered name id hticket hname =>
    hlittered name id hticket (hframe name id hticket hname)⟩

/-- A temporary file named from an earlier draw comes or goes. -/
theorem temporary {faults : List Fault} {dir : Dir FileName} {temp : FileName} {n : Nat}
    (htemp : temp.ticket = some (P.uuid n)) (hn : n < m.rest.drawn)
    (hframe : ∀ name, name ≠ temp → dir name = m.dir name) :
    Attempted P mnemonic admin now m { m with faults, dir } := by
  have hgate : ∀ name : FileName, name.ticket = none → dir name = m.dir name := by
    intro name hname
    apply hframe
    rintro rfl
    rw [htemp] at hname
    cases hname
  refine ⟨⟨le_refl _, rfl⟩, ?_, fun hlittered name id hticket hname => ?_⟩
  · have hsame : shown dir = shown m.dir := by
      unfold shown
      rw [hgate .state rfl, hgate .pending rfl, hgate .recovery rfl]
    rw [hsame]
  · by_cases heq : name = temp
    · subst heq
      rw [htemp, Option.some.injEq] at hticket
      exact ⟨n, hn, hticket.symm⟩
    · change dir name ≠ none at hname
      rw [hframe name heq] at hname
      exact hlittered name id hticket hname

end Attempted

/-! The pieces of an attempt. -/

section Pieces

variable {α : Type} {halt : Halted → VaultMachine → Prop} {m : VaultMachine}

theorem wp_run_pure_lift {x : Except Error α} {post : Except Error α → VaultMachine → Prop} :
    wp (lift x).run post halt m ↔ post x m := Iff.rfl

theorem wp_run_demand {x : VaultIo Bool} {partly wholly : Dir FileName → Dir FileName → Prop}
    {post : Except Error Unit → VaultMachine → Prop} (h : Does x partly wholly)
    (hfail : ∀ faults dir, partly m.dir dir → post (.error .recoveryRequired) { m with faults, dir })
    (hdone : ∀ faults dir, wholly m.dir dir → post (.ok ()) { m with faults, dir })
    (hcrash : ∀ faults dir, partly m.dir dir → halt .halted { m with faults, dir }) :
    wp (demand x).run post halt m := by
  rw [demand, wp_run_bind, wp_run_lift]
  apply wp_does h
  · intro faults dir hd
    exact wp_run_failIf.mpr ⟨fun _ => hfail faults dir hd, fun hno => absurd rfl hno⟩
  · intro faults dir hd
    exact wp_run_failIf.mpr ⟨nofun, fun _ => hdone faults dir hd⟩
  · exact hcrash

theorem wp_readGate {name : FileName} {post : Except Error (Bytes × Bytes) → VaultMachine → Prop}
    (hfound : ∀ bytes gate, m.dir name = some bytes → parseGate bytes = .ok gate →
      ∀ faults, post (.ok gate) { m with faults })
    (hfail : ∀ e faults, post (.error e) { m with faults })
    (hcrash : ∀ faults, halt .halted { m with faults }) : wp (readGate name) post halt m := by
  rw [readGate, wp_bind]
  apply wp_read
  · intro faults
    cases hname : m.dir name with
    | none => exact hfail _ faults
    | some bytes =>
      change post (parseGate bytes) { m with faults }
      cases hgate : parseGate bytes with
      | error e => exact hfail e faults
      | ok gate => exact hfound bytes gate hname hgate faults
  · exact hfail _
  · exact hcrash

/-- Writing a temporary file, then renaming it. -/
theorem wp_replace {temp target : FileName} {bytes : Bytes} {createOnly : Bool} {n : Nat}
    {rest : VaultM α} {post : Except Error α → VaultMachine → Prop}
    (htemp : temp.ticket = some (P.uuid n)) (hn : n < m.rest.drawn) (htarget : target.ticket = none)
    (hstep : Reconcile P mnemonic admin now (shown m.dir)
      (shown (Function.update m.dir target (some bytes))))
    (hfail : ∀ m', Attempted P mnemonic admin now m m' → post (.error .recoveryRequired) m')
    (hdone : ∀ faults dir, Attempted P mnemonic admin now m { m with faults, dir } →
      (createOnly = true → m.dir target = none) →
      shown dir = shown (Function.update m.dir target (some bytes)) →
        wp rest.run post halt { m with faults, dir })
    (hcrash : ∀ m', Attempted P mnemonic admin now m m' → halt .halted m') :
    wp (do demand (writeNew temp bytes)
           demand (FileM.rename temp target createOnly)
           demand FileM.sync
           rest : VaultM α).run post halt m := by
  have hne : target ≠ temp := by
    rintro rfl
    rw [htemp] at htarget
    cases htarget
  have hpartly : ∀ faults dir, (dir = m.dir ∨ m.dir temp = none
      ∧ ∃ k, dir = Function.update m.dir temp (some (bytes.take k))) →
        Attempted P mnemonic admin now m { m with faults, dir } := by
    rintro faults dir (rfl | ⟨-, k, rfl⟩)
    · exact .refl m faults
    · exact .temporary htemp hn fun name hname => Function.update_of_ne hname ..
  rw [wp_run_bind]
  apply wp_run_demand (does_writeNew temp bytes)
  case hfail => exact fun faults dir hd => hfail _ (hpartly faults dir hd)
  case hcrash => exact fun faults dir hd => hcrash _ (hpartly faults dir hd)
  rintro faults dir ⟨hnone, rfl⟩
  have hwritten := hpartly faults (Function.update m.dir temp (some bytes))
    (.inr ⟨hnone, bytes.length, by rw [List.take_length]⟩)
  -- the rename moves the whole file, or nothing
  have hrenamed : ∀ faults dir, renamed temp target createOnly
      (Function.update m.dir temp (some bytes)) = some dir →
        Attempted P mnemonic admin now m { m with faults, dir }
        ∧ (createOnly = true → m.dir target = none)
        ∧ shown dir = shown (Function.update m.dir target (some bytes)) := by
    intro faults dir hdir
    unfold renamed at hdir
    rw [Function.update_self, Function.update_of_ne hne] at hdir
    split_ifs at hdir with hrefused
    cases hdir
    have hgates : ∀ name : FileName, name.ticket = none →
        (Function.update (Function.update (Function.update m.dir temp (some bytes)) target
          (some bytes)) temp none) name = Function.update m.dir target (some bytes) name := by
      intro name hname
      have hother : name ≠ temp := by
        rintro rfl
        rw [htemp] at hname
        cases hname
      rw [Function.update_of_ne hother]
      by_cases heq : name = target
      · rw [heq, Function.update_self, Function.update_self]
      · rw [Function.update_of_ne heq, Function.update_of_ne heq, Function.update_of_ne hother]
    have hshown : shown (Function.update (Function.update (Function.update m.dir temp (some bytes))
        target (some bytes)) temp none) = shown (Function.update m.dir target (some bytes)) := by
      unfold shown
      rw [hgates .state rfl, hgates .pending rfl, hgates .recovery rfl]
    refine ⟨.step (hshown ▸ hstep) fun name id hticket hname => ?_, fun hcreate => ?_, hshown⟩
    · by_cases heq : name = temp
      · rw [heq, Function.update_self] at hname
        exact absurd rfl hname
      · have hother : name ≠ target := by
          rintro rfl
          rw [hticket] at htarget
          cases htarget
        rwa [Function.update_of_ne heq, Function.update_of_ne hother, Function.update_of_ne heq]
          at hname
    · rw [hcreate] at hrefused
      simpa using hrefused
  simp only
  rw [wp_run_bind]
  apply wp_run_demand Does.rename
  · rintro faults' dir (rfl | hdir)
    · exact hfail _ (hpartly faults' _ (.inr ⟨hnone, bytes.length, by rw [List.take_length]⟩))
    · exact hfail _ (hrenamed faults' dir hdir).1
  · intro faults' dir hdir
    obtain ⟨-, hfresh, hshown⟩ := hrenamed faults' dir hdir
    simp only
    rw [wp_run_bind]
    apply wp_run_demand Does.sync
    · intro faults'' _ hsame
      subst hsame
      exact hfail _ (hrenamed faults'' _ hdir).1
    · intro faults'' _ hsame
      subst hsame
      exact hdone faults'' _ (hrenamed faults'' _ hdir).1 hfresh hshown
    · intro faults'' _ hsame
      subst hsame
      exact hcrash _ (hrenamed faults'' _ hdir).1
  · rintro faults' dir (rfl | hdir)
    · exact hcrash _ (hpartly faults' _ (.inr ⟨hnone, bytes.length, by rw [List.take_length]⟩))
    · exact hcrash _ (hrenamed faults' dir hdir).1

theorem replace_eq (temp target : FileName) (bytes : Bytes) (createOnly : Bool) :
    (do demand (writeNew temp bytes)
        demand (FileM.rename temp target createOnly)
        demand FileM.sync : VaultM Unit)
    = (do demand (writeNew temp bytes)
          demand (FileM.rename temp target createOnly)
          demand FileM.sync
          pure () : VaultM Unit) := by
  simp only [bind_pure_unit]

/-- Removing a gate. -/
theorem wp_discard {name : FileName} {rest : VaultM α} {post : Except Error α → VaultMachine → Prop}
    (hname : name.ticket = none)
    (hstep : Reconcile P mnemonic admin now (shown m.dir) (shown (Function.update m.dir name none)))
    (hfail : ∀ m', Attempted P mnemonic admin now m m' → post (.error .recoveryRequired) m')
    (hdone : ∀ faults, Attempted P mnemonic admin now m
      { m with faults, dir := Function.update m.dir name none } →
        wp rest.run post halt { m with faults, dir := Function.update m.dir name none })
    (hcrash : ∀ m', Attempted P mnemonic admin now m m' → halt .halted m') :
    wp (do demand (FileM.unlink name)
           demand FileM.sync
           rest : VaultM α).run post halt m := by
  have hgone : ∀ faults dir, unlinked name m.dir = some dir →
      dir = Function.update m.dir name none ∧ Attempted P mnemonic admin now m { m with faults, dir } := by
    intro faults dir hdir
    unfold unlinked at hdir
    split_ifs at hdir
    cases hdir
    refine ⟨rfl, .step hstep fun other id hticket hother => ?_⟩
    have hne : other ≠ name := by
      rintro rfl
      rw [hname] at hticket
      cases hticket
    rwa [Function.update_of_ne hne] at hother
  have hpartly : ∀ faults dir, (dir = m.dir ∨ unlinked name m.dir = some dir) →
      Attempted P mnemonic admin now m { m with faults, dir } := by
    rintro faults dir (rfl | hdir)
    · exact .refl m faults
    · exact (hgone faults dir hdir).2
  rw [wp_run_bind]
  apply wp_run_demand Does.unlink
  case hfail => exact fun faults dir hd => hfail _ (hpartly faults dir hd)
  case hcrash => exact fun faults dir hd => hcrash _ (hpartly faults dir hd)
  intro faults dir hdir
  obtain ⟨hdir', -⟩ := hgone faults dir hdir
  simp only
  rw [wp_run_bind]
  apply wp_run_demand Does.sync
  · intro faults' _ hsame
    subst hsame
    exact hfail _ (hgone faults' _ hdir).2
  · intro faults' _ hsame
    subst hsame
    subst hdir'
    exact hdone faults' (hgone faults' _ hdir).2
  · intro faults' _ hsame
    subst hsame
    exact hcrash _ (hgone faults' _ hdir).2

end Pieces

theorem discard_eq (name : FileName) :
    (do demand (FileM.unlink name)
        demand FileM.sync : VaultM Unit)
    = (do demand (FileM.unlink name)
          demand FileM.sync
          pure () : VaultM Unit) := by
  simp only [bind_pure_unit]

theorem checkAdoption_some {visible old next chosen : Bytes}
    (h : checkAdoption P mnemonic admin visible (old, next) = .ok (some chosen)) : chosen = next := by
  simp only [checkAdoption, bind_eq_ok, pure_eq_ok] at h
  obtain ⟨_, -, u, -, _, -, _, -, h⟩ := h
  split_ifs at h
  exact (Option.some.inj h).symm

theorem wp_adoptRekeyed {visible : Bytes} {m : VaultMachine} (hstate : m.dir .state = some visible)
    (hsealed : ∀ u, unsealImage P visible mnemonic ≠ .ok u) :
    wp (adoptRekeyed P mnemonic admin visible).run
      (fun _ m' => Attempted P mnemonic admin now m m')
      (fun _ m' => Attempted P mnemonic admin now m m') m := by
  have hsame : ∀ faults, Attempted P mnemonic admin now m { m with faults } := .refl m
  unfold adoptRekeyed
  rw [wp_run_bind, wp_run_mk]
  apply wp_gateExists
  case hfail => exact hsame
  case hcrash => exact hsame
  intro faults
  simp only
  rw [wp_run_bind, wp_run_failIf]
  refine ⟨fun _ => hsame faults, fun _ => ?_⟩
  simp only
  rw [wp_run_bind, wp_run_mk]
  apply wp_readGate
  case hfail => exact fun e => hsame
  case hcrash => exact hsame
  rintro bytes ⟨old, next⟩ hpending hgate faults
  simp only
  rw [wp_run_bind, wp_run_pure_lift]
  cases hcheck : checkAdoption P mnemonic admin visible (old, next) with
  | error e => exact hsame faults
  | ok chosen =>
    cases chosen with
    | none => exact hsame faults
    | some chosen =>
      cases checkAdoption_some hcheck
      simp only
      rw [wp_run_bind, wp_run_drawIndex]
      simp only
      have hdrawn := (hsame faults).trans (.drawing { m with faults })
      have hstep : Reconcile P mnemonic admin now (shown m.dir)
          (shown (Function.update m.dir .state (some next))) := by
        rw [shown_state]
        exact .adopt hstate hsealed hpending hgate hcheck
      rw [replace_eq]
      refine wp_replace rfl (Nat.lt_succ_self m.rest.drawn) rfl hstep ?_ ?_ ?_
      · exact fun m' hattempted => hdrawn.trans hattempted
      · exact fun faults dir hattempted _ _ => hdrawn.trans hattempted
      · exact fun m' hattempted => hdrawn.trans hattempted

/-- The state file once it can be read with this seed. -/
theorem wp_visibleState (m : VaultMachine) :
    wp (visibleState P mnemonic admin).run
      (fun result m' => Attempted P mnemonic admin now m m'
        ∧ ∀ onDisk, result = .ok onDisk → m'.dir .state = onDisk
          ∧ ∀ image, onDisk = some image → image.length ≤ maxImage)
      (fun _ m' => Attempted P mnemonic admin now m m') m := by
  have hread : ∀ m' : VaultMachine, Attempted P mnemonic admin now m m' → wp (readImage .state)
      (fun result m'' => Attempted P mnemonic admin now m m''
        ∧ ∀ onDisk, result = .ok onDisk → m''.dir .state = onDisk
          ∧ ∀ image, onDisk = some image → image.length ≤ maxImage)
      (fun _ m'' => Attempted P mnemonic admin now m m'') m' := by
    intro m' hm'
    apply wp_readImage
    · intro hmissing faults
      refine ⟨hm'.trans (.refl m' faults), ?_⟩
      rintro onDisk ⟨⟩
      exact ⟨hmissing, nofun⟩
    · intro image himage hsize faults
      refine ⟨hm'.trans (.refl m' faults), ?_⟩
      rintro onDisk ⟨⟩
      refine ⟨himage, ?_⟩
      rintro _ ⟨⟩
      exact hsize
    · exact fun faults => ⟨hm'.trans (.refl m' faults), fun _ h => nomatch h⟩
    · exact fun faults => hm'.trans (.refl m' faults)
  unfold visibleState
  rw [wp_run_bind, wp_run_mk]
  apply wp_readImage
  case hfail => exact fun faults => ⟨.refl m faults, fun _ h => nomatch h⟩
  case hcrash => exact fun faults => .refl m faults
  case hmissing =>
    intro hmissing faults
    refine ⟨.refl m faults, ?_⟩
    rintro onDisk ⟨⟩
    exact ⟨hmissing, nofun⟩
  intro image himage hsize faults
  simp only
  cases hunseal : unsealImage P image mnemonic with
  | ok u =>
    refine ⟨.refl m faults, ?_⟩
    rintro onDisk ⟨⟩
    refine ⟨himage, ?_⟩
    rintro _ ⟨⟩
    exact hsize
  | error e =>
    simp only
    rw [wp_run_bind]
    have hsealed : ∀ u, unsealImage P image mnemonic ≠ .ok u := by
      intro u hu
      rw [hunseal] at hu
      cases hu
    apply wp_mono (wp_adoptRekeyed (m := { m with faults }) himage hsealed)
    · rintro (e' | _) m' hattempted
      · exact ⟨(Attempted.refl m faults).trans hattempted, fun _ h => nomatch h⟩
      · exact hread m' ((Attempted.refl m faults).trans hattempted)
    · exact fun _ m' hattempted => (Attempted.refl m faults).trans hattempted

/-- The base of a recovery, where the state was last seen as `onDisk`. -/
theorem wp_recoveryBase {onDisk : Option Bytes} {m : VaultMachine} (hstate : m.dir .state = onDisk)
    (hsize : ∀ image, onDisk = some image → image.length ≤ maxImage) :
    wp (recoveryBase P mnemonic onDisk).run
      (fun result m' => Attempted P mnemonic admin now m m' ∧ m'.dir = m.dir
        ∧ ∀ base, result = .ok base → (shown m.dir).Shows P mnemonic base ∧ base.length ≤ maxImage)
      (fun _ m' => Attempted P mnemonic admin now m m') m := by
  cases onDisk with
  | some image =>
    refine ⟨.refl m m.faults, rfl, ?_⟩
    rintro base ⟨⟩
    exact ⟨.inl hstate, hsize _ rfl⟩
  | none =>
    unfold recoveryBase
    rw [wp_run_bind, wp_run_mk]
    apply wp_readGate
    case hfail => exact fun e faults => ⟨.refl m faults, rfl, fun _ h => nomatch h⟩
    case hcrash => exact fun faults => .refl m faults
    intro bytes gate hpending hgate faults
    refine ⟨.refl m faults, rfl, fun base hbase => ⟨.inr ⟨hstate, bytes, gate, hpending, hgate, hbase⟩, ?_⟩⟩
    simp only [absentInitial, bind_eq_ok, pure_eq_ok] at hbase
    obtain ⟨_, -, u, -, _, -, rfl⟩ := hbase
    obtain ⟨-, -, hnext, -⟩ := parseGate_eq_ok.mp hgate
    exact hnext

theorem sealImage_eq_ok {app : Application} {key : VaultKey} {salt : Salt} {kdf : KdfParams}
    {nonce : Nonce} {image : Bytes} : sealImage P app key salt kdf nonce = .ok image ↔
      ∃ plaintext, app.encode P = .ok plaintext ∧ image = imageBytes headerV3 kdf salt nonce
        (P.encrypt key nonce plaintext (imageAad headerV3 kdf salt)) := by
  simp only [sealImage, bind_eq_ok, sealVersion_eq_ok]
  apply exists_congr
  intro plaintext
  refine and_congr_right fun hencode => ?_
  obtain ⟨-, -, hlength⟩ := Application.encode_eq_ok.mp hencode
  exact ⟨fun h => h.2, fun h => ⟨hlength, h⟩⟩

/-- A sealed image fits a gate. -/
theorem sealImage_fits (hseals : P.Seals) {app : Application} {key : VaultKey} {salt : Salt}
    {kdf : KdfParams} {nonce : Nonce} {image : Bytes}
    (h : sealImage P app key salt kdf nonce = .ok image) : image.length ≤ maxImage ∧ image ≠ [] := by
  obtain ⟨plaintext, hencode, rfl⟩ := sealImage_eq_ok.mp h
  obtain ⟨-, -, hlength⟩ := Application.encode_eq_ok.mp hencode
  have hsize : (imageBytes headerV3 kdf salt nonce
      (P.encrypt key nonce plaintext (imageAad headerV3 kdf salt))).length = plaintext.length + 76 := by
    simp [imageBytes, length_imageHeader, hseals.encrypt_length]
    omega
  constructor
  · rw [hsize]
    unfold maxPlaintext at hlength
    unfold maxImage
    omega
  · exact List.ne_nil_of_length_pos (by omega)

/-- What an attempt publishes in the end: a plan it makes now, or one made before. -/
inductive Targeted (P : Platform) (mnemonic : String) (admin : AuthenticatedContext) (now : Time)
    (s : Shown) (base : Bytes) (u : Unsealed) (app : Application) (image : Bytes) : Prop
  | planned (n : Nat) (hnone : s.recovery = none)
      (hneeds : needsRecovery u.app s.pending.isSome = true) (hagrees : s.Agrees P mnemonic base)
      (hsane : u.app.sanitize P now = .ok app)
      (hseal : sealImage P app u.key u.salt u.kdf (P.nonce n) = .ok image)
  | resumed {bytes old : Bytes} (hplan : s.recovery = some bytes)
      (hgate : parseGate bytes = .ok (old, image)) (hagrees : s.Agrees P mnemonic old)
      (hcheck : checkPlan P mnemonic admin base u (old, image) = .ok app)

/-- The check of the pending intent, where there is one. -/
theorem wp_checkPending {α : Type} {pending : Bool} {base : Bytes} {rest : VaultM α}
    {post : Except Error α → VaultMachine → Prop} {halt : Halted → VaultMachine → Prop}
    {m : VaultMachine} (hpending : pending = (m.dir .pending).isSome)
    (hdone : ∀ faults, (shown m.dir).Agrees P mnemonic base → wp rest.run post halt { m with faults })
    (hfail : ∀ e faults, post (.error e) { m with faults })
    (hcrash : ∀ faults, halt .halted { m with faults }) :
    wp (do if pending then
             let gate ← ExceptT.mk (readGate .pending)
             lift (checkPending P mnemonic base gate)
           rest : VaultM α).run post halt m := by
  cases hnone : m.dir .pending with
  | none =>
    rw [hnone] at hpending
    subst hpending
    exact hdone m.faults fun bytes hbytes => by
      rw [shown, hnone] at hbytes
      cases hbytes
  | some bytes =>
    rw [hnone] at hpending
    subst hpending
    simp only [Option.isSome_some, if_true]
    rw [wp_run_bind, wp_run_mk]
    apply wp_readGate
    case hfail => exact hfail
    case hcrash => exact hcrash
    intro bytes' gate hbytes' hgate faults
    simp only
    rw [wp_run_bind, wp_run_pure_lift]
    cases hcheck : checkPending P mnemonic base gate with
    | error e => exact hfail e faults
    | ok u =>
      refine hdone faults fun other hother => ⟨gate, ?_, hcheck⟩
      change m.dir .pending = some other at hother
      rw [hbytes', Option.some.injEq] at hother
      exact hother ▸ hgate

/-- The target of an attempt, and the plan for it in the store. -/
theorem wp_recoveryTarget (hseals : P.Seals) {base : Bytes} {u : Unsealed} {planned pending : Bool}
    {m : VaultMachine} (hbase : (shown m.dir).Shows P mnemonic base) (hsize : base.length ≤ maxImage)
    (hunseal : unsealImage P base mnemonic = .ok u) (hscope : adminScope u.app admin = .ok ())
    (hplanned : planned = (m.dir .recovery).isSome) (hpending : pending = (m.dir .pending).isSome) :
    wp (recoveryTarget P mnemonic admin now base u planned pending).run
      (fun result m' => Attempted P mnemonic admin now m m'
        ∧ ∀ app image, result = .ok (app, image) →
          Targeted P mnemonic admin now (shown m.dir) base u app image
          ∧ ∃ bytes old, parseGate bytes = .ok (old, image)
            ∧ shown m'.dir = { shown m.dir with recovery := some bytes })
      (fun _ m' => Attempted P mnemonic admin now m m') m := by
  have hsame : ∀ faults, Attempted P mnemonic admin now m { m with faults } := .refl m
  have hrefused : ∀ (e : Error) (m' : VaultMachine), Attempted P mnemonic admin now m m' →
      Attempted P mnemonic admin now m m' ∧ ∀ app image,
        (.error e : Except Error (Application × Bytes)) = .ok (app, image) →
          Targeted P mnemonic admin now (shown m.dir) base u app image
          ∧ ∃ bytes old, parseGate bytes = .ok (old, image)
            ∧ shown m'.dir = { shown m.dir with recovery := some bytes } :=
    fun e m' h => ⟨h, fun _ _ hno => nomatch hno⟩
  unfold recoveryTarget
  cases hrecovery : m.dir .recovery with
  | some bytes =>
    rw [hrecovery] at hplanned
    subst hplanned
    simp only [Option.isSome_some, if_true]
    rw [wp_run_bind, wp_run_mk]
    apply wp_readGate
    case hfail => exact fun e faults => hrefused e _ (hsame faults)
    case hcrash => exact hsame
    rintro bytes' ⟨old, image⟩ hplan hgate faults
    simp only
    rw [wp_run_bind, wp_run_pure_lift]
    cases hcheck : checkPlan P mnemonic admin base u (old, image) with
    | error e => exact hrefused e _ (hsame faults)
    | ok app =>
      simp only
      apply wp_checkPending (m := { m with faults }) hpending
      case hfail => exact fun e faults => hrefused e _ (hsame faults)
      case hcrash => exact hsame
      intro faults' hagrees
      refine ⟨hsame faults', ?_⟩
      rintro app' image' ⟨⟩
      refine ⟨.resumed hplan hgate hagrees hcheck, bytes', old, hgate, ?_⟩
      rw [shown, hplan]
  | none =>
    rw [hrecovery] at hplanned
    subst hplanned
    simp only [Option.isSome_none, Bool.false_eq_true, if_false]
    rw [wp_run_bind, wp_run_failIf]
    refine ⟨fun _ => hrefused _ m (hsame m.faults), fun hneeds => ?_⟩
    simp only
    apply wp_checkPending hpending
    case hfail => exact fun e faults => hrefused e _ (hsame faults)
    case hcrash => exact hsame
    intro faults hagrees
    rw [wp_run_bind, wp_run_pure_lift]
    cases hsane : u.app.sanitize P now with
    | error e => exact hrefused e _ (hsame faults)
    | ok app =>
      simp only
      rw [wp_run_bind, wp_run_drawIndex]
      simp only
      have hdrawn := (hsame faults).trans (.drawing { m with faults })
      rw [wp_run_bind, wp_run_pure_lift]
      cases hseal : sealImage P app u.key u.salt u.kdf (P.nonce m.rest.drawn) with
      | error e => exact hrefused e _ hdrawn
      | ok image =>
        obtain ⟨himage, hne⟩ := sealImage_fits hseals hseal
        have hwhole : parseGate (gateBytes base image) = .ok (base, image) :=
          parseGate_eq_ok.mpr ⟨rfl, hsize, himage, hne⟩
        have hneeds' : needsRecovery u.app (shown m.dir).pending.isSome = true := by
          rw [hpending, Bool.not_eq_true, Bool.not_eq_false'] at hneeds
          exact hneeds
        have htarget : Targeted P mnemonic admin now (shown m.dir) base u app image :=
          .planned _ hrecovery hneeds' hagrees hsane hseal
        have hstep : Reconcile P mnemonic admin now (shown m.dir)
            (shown (Function.update m.dir .recovery (some (gateBytes base image)))) := by
          rw [shown_recovery]
          exact .plan _ hbase hunseal hscope hrecovery hneeds' hagrees hsane hseal hwhole
        simp only
        rw [wp_run_bind, writePair, wp_run_bind, wp_run_drawIndex]
        simp only
        have hdrawn' := hdrawn.trans (.drawing _)
        rw [replace_eq]
        refine wp_replace rfl (Nat.lt_succ_self (m.rest.drawn + 1)) rfl hstep ?_ ?_ ?_
        · exact fun m' hattempted => hrefused _ m' (hdrawn'.trans hattempted)
        · intro faults' dir hattempted _ hshown
          refine ⟨hdrawn'.trans hattempted, ?_⟩
          rintro app' image' ⟨⟩
          exact ⟨htarget, _, base, hwhole, by rw [hshown, shown_recovery]⟩
        · exact fun m' hattempted => hdrawn'.trans hattempted

/-- The recovered image becomes the state, and both gates go. -/
theorem wp_installRecovered {image : Bytes} {missing pending : Bool} {m : VaultMachine}
    {bytes old : Bytes} (hplan : m.dir .recovery = some bytes)
    (hgate : parseGate bytes = .ok (old, image)) (hpending : pending = (m.dir .pending).isSome) :
    wp (installRecovered P image missing pending).run
      (fun result m' => Attempted P mnemonic admin now m m' ∧ (result = .ok () →
        shown m'.dir = { state := some image, pending := none, recovery := none }))
      (fun _ m' => Attempted P mnemonic admin now m m') m := by
  have hrefused : ∀ m' : VaultMachine, Attempted P mnemonic admin now m m' →
      Attempted P mnemonic admin now m m' ∧ ((.error .recoveryRequired : Except Error Unit) = .ok () →
        shown m'.dir = { state := some image, pending := none, recovery := none }) :=
    fun m' h => ⟨h, nofun⟩
  unfold installRecovered
  rw [wp_run_bind, wp_run_drawIndex]
  simp only
  have hdrawn : Attempted P mnemonic admin now m _ := .drawing m
  have hinstall : Reconcile P mnemonic admin now (shown m.dir)
      (shown (Function.update m.dir .state (some image))) := by
    rw [shown_state]
    exact .install hplan hgate
  refine wp_replace rfl (Nat.lt_succ_self m.rest.drawn) rfl hinstall ?_ ?_ ?_
  · exact fun m' hattempted => hrefused m' (hdrawn.trans hattempted)
  · intro faults dir hattempted _ hshown
    have hstate := hdrawn.trans hattempted
    rw [shown_state] at hshown
    have hclear : ∀ m' : VaultMachine, Attempted P mnemonic admin now m m' →
        shown m'.dir = { state := some image, pending := none, recovery := some bytes } →
          wp (do demand (FileM.unlink .recovery)
                 demand FileM.sync : VaultM Unit).run
            (fun result m' => Attempted P mnemonic admin now m m' ∧ (result = .ok () →
              shown m'.dir = { state := some image, pending := none, recovery := none }))
            (fun _ m' => Attempted P mnemonic admin now m m') m' := by
      intro m' hm' hshown'
      have hstep : Reconcile P mnemonic admin now (shown m'.dir)
          (shown (Function.update m'.dir .recovery none)) := by
        rw [shown_recovery, hshown']
        exact .clear (s := ⟨some image, none, some bytes⟩) rfl hgate rfl rfl
      rw [discard_eq]
      refine wp_discard rfl hstep ?_ ?_ ?_
      · exact fun m'' hattempted' => hrefused m'' (hm'.trans hattempted')
      · intro faults' hattempted'
        refine ⟨hm'.trans hattempted', fun _ => ?_⟩
        rw [shown_recovery, hshown']
      · exact fun m'' hattempted' => hm'.trans hattempted'
    cases hnone : m.dir .pending with
    | none =>
      rw [hnone] at hpending
      subst hpending
      refine hclear _ hstate ?_
      change shown dir = _
      rw [hshown, shown, hplan, hnone]
    | some intent =>
      rw [hnone] at hpending
      subst hpending
      have hmid : shown dir = { state := some image, pending := some intent, recovery := some bytes } := by
        rw [hshown, shown, hplan, hnone]
      have hstep : Reconcile P mnemonic admin now (shown dir)
          (shown (Function.update dir .pending none)) := by
        rw [shown_pending, hmid]
        exact .settle (s := ⟨some image, some intent, some bytes⟩) rfl hgate rfl
      simp only [Option.isSome_some, if_true]
      refine wp_discard rfl hstep ?_ ?_ ?_
      · exact fun m'' hattempted' => hrefused m'' (hstate.trans hattempted')
      · intro faults' hattempted'
        refine hclear _ (hstate.trans hattempted') ?_
        rw [shown_pending]
        change { shown dir with pending := none } = _
        rw [hmid]
      · exact fun m'' hattempted' => hstate.trans hattempted'
  · exact fun m' hattempted => hdrawn.trans hattempted

/-- What an attempt that succeeds has done: from the base it found it made, or took up, a
plan, and the plan's image is all that is left. -/
structure Recovered (P : Platform) (mnemonic : String) (admin : AuthenticatedContext) (now : Time)
    (d d' : Dir FileName) (owner : DurableVault) : Prop where
  trusted : admin.admin = true
  exact : ∃ s base u image, ReflTransGen (Reconcile P mnemonic admin now) (shown d) s
    ∧ s.Shows P mnemonic base ∧ unsealImage P base mnemonic = .ok u
    ∧ adminScope u.app admin = .ok ()
    ∧ Targeted P mnemonic admin now s base u owner.app image
    ∧ shown d' = { state := some image, pending := none, recovery := none }
    ∧ owner = DurableVault.ofImage image { u with app := owner.app }

theorem wp_recover (hseals : P.Seals) (m : VaultMachine) :
    wp (DurableVault.recover P mnemonic admin now).run
      (fun result m' => Attempted P mnemonic admin now m m'
        ∧ ∀ owner, result = .ok owner → Recovered P mnemonic admin now m.dir m'.dir owner)
      (fun _ m' => Attempted P mnemonic admin now m m') m := by
  have hrefused : ∀ (e : Error) (m' : VaultMachine), Attempted P mnemonic admin now m m' →
      Attempted P mnemonic admin now m m' ∧ ∀ owner,
        (.error e : Except Error DurableVault) = .ok owner →
          Recovered P mnemonic admin now m.dir m'.dir owner :=
    fun e m' h => ⟨h, fun _ hno => nomatch hno⟩
  unfold DurableVault.recover
  rw [wp_run_bind, wp_run_failIf]
  refine ⟨fun _ => hrefused _ m (.refl m m.faults), fun htrusted => ?_⟩
  simp only
  rw [wp_run_bind]
  apply wp_mono (wp_visibleState m)
  case hfail => exact fun _ m' hattempted => hattempted
  rintro (e | onDisk) m₁ ⟨hm₁, hvisible⟩
  · exact hrefused e m₁ hm₁
  obtain ⟨hstate, hsize⟩ := hvisible onDisk rfl
  simp only
  rw [wp_run_bind]
  apply wp_mono (wp_recoveryBase hstate hsize)
  case hfail => exact fun _ m' hattempted => hm₁.trans hattempted
  rintro (e | base) m₂ ⟨hm₂, hsame, hbase⟩
  · exact hrefused e m₂ (hm₁.trans hm₂)
  obtain ⟨hshows, hfits⟩ := hbase base rfl
  rw [← hsame] at hshows
  have hsofar := hm₁.trans hm₂
  simp only
  rw [wp_run_bind, wp_run_pure_lift]
  cases hunseal : unsealImage P base mnemonic with
  | error e => exact hrefused _ m₂ hsofar
  | ok u =>
    simp only [orRecovery]
    rw [wp_run_bind, wp_run_pure_lift]
    cases hscope : adminScope u.app admin with
    | error e => exact hrefused _ m₂ hsofar
    | ok _ =>
      simp only
      rw [wp_run_bind, wp_run_mk]
      apply wp_gateExists
      case hfail => exact fun faults => hrefused _ _ (hsofar.trans (.refl m₂ faults))
      case hcrash => exact fun faults => hsofar.trans (.refl m₂ faults)
      intro faults
      simp only
      rw [wp_run_bind, wp_run_mk]
      apply wp_gateExists
      case hfail => exact fun faults => hrefused _ _ (hsofar.trans (.refl m₂ faults))
      case hcrash => exact fun faults => hsofar.trans (.refl m₂ faults)
      intro faults'
      have hread := hsofar.trans (.refl m₂ faults')
      simp only
      rw [wp_run_bind]
      apply wp_mono (wp_recoveryTarget (m := { m₂ with faults := faults' }) hseals hshows hfits hunseal
        hscope rfl rfl)
      case hfail => exact fun _ m' hattempted => hread.trans hattempted
      rintro (e | ⟨app, image⟩) m₃ ⟨hm₃, htargeted⟩
      · exact hrefused e m₃ (hread.trans hm₃)
      obtain ⟨htarget, bytes, old, hgate, hshown⟩ := htargeted app image rfl
      simp only
      rw [wp_run_bind]
      have hplan : m₃.dir .recovery = some bytes := congrArg Shown.recovery hshown
      have hpending : (m₂.dir .pending).isSome = (m₃.dir .pending).isSome :=
        congrArg Option.isSome (congrArg Shown.pending hshown).symm
      apply wp_mono (wp_installRecovered hplan hgate hpending)
      case hfail => exact fun _ m' hattempted => (hread.trans hm₃).trans hattempted
      rintro (e | _) m₄ ⟨hm₄, hinstalled⟩
      · exact hrefused e m₄ ((hread.trans hm₃).trans hm₄)
      refine ⟨(hread.trans hm₃).trans hm₄, ?_⟩
      rintro owner ⟨⟩
      exact ⟨by simpa using htrusted, shown m₂.dir, base, u, image, hsofar.steps, hshows, hunseal, hscope,
        htarget, hinstalled rfl, rfl⟩

end Credman
