import Credman.CrashSafety

/-! Recovery where nothing disturbs it: what the directory has to show for an attempt that
no fault meets to end with an owner. -/
namespace Credman

open Library Library.Checked Library.FileM Relation Application DurableVault

variable {P : Platform} {mnemonic : String} {admin : AuthenticatedContext} {now : Time}

/-! File operations. -/

section Operations

variable {α : Type} {halt : Halted → VaultMachine → Prop} {m : VaultMachine}

theorem wp_gateExists_undisturbed {name : FileName} {post : Except Error Bool → VaultMachine → Prop}
    (hclean : m.faults = []) : wp (gateExists name) post halt m ↔ post (.ok (m.dir name).isSome) m := by
  rw [gateExists, wp_bind, wp_read_undisturbed hclean]
  exact Iff.rfl

theorem wp_readGate_undisturbed {name : FileName} {post : Except Error (Bytes × Bytes) → VaultMachine → Prop}
    {bytes : Bytes} (hclean : m.faults = []) (hfound : m.dir name = some bytes) :
    wp (readGate name) post halt m ↔ post (parseGate bytes) m := by
  rw [readGate, wp_bind, wp_read_undisturbed hclean, hfound]
  exact Iff.rfl

theorem wp_readImage_undisturbed {name : FileName} {post : Except Error (Option Bytes) → VaultMachine → Prop}
    (hclean : m.faults = []) (hfits : ∀ image, m.dir name = some image → image.length ≤ maxImage) :
    wp (readImage name) post halt m ↔ post (.ok (m.dir name)) m := by
  rw [readImage, wp_bind, wp_read_undisturbed hclean]
  cases hname : m.dir name with
  | none => exact Iff.rfl
  | some image =>
    have hsize : ¬ maxImage < image.length := not_lt.mpr (hfits image hname)
    simp only [hsize, if_false, wp_pure]

theorem wp_writeNew_undisturbed {name : FileName} {bytes : Bytes} {post : Bool → VaultMachine → Prop}
    (hclean : m.faults = []) (hnew : m.dir name = none) : wp (writeNew name bytes) post halt m ↔
      post true { m with dir := Function.update m.dir name (some bytes) } := by
  unfold writeNew
  rw [wp_bind, wp_create_undisturbed hclean hnew]
  simp only [Bool.not_true, Bool.false_eq_true, if_false]
  have hopened : Function.update m.dir name (some ([] : Bytes)) name = some [] := Function.update_self ..
  rw [wp_bind, wp_write_undisturbed (m := { m with dir := Function.update m.dir name (some []) }) hclean hopened]
  simp only [Bool.not_true, Bool.false_eq_true, if_false, List.nil_append, Function.update_idem]
  exact wp_sync_undisturbed (m := { m with dir := Function.update m.dir name (some bytes) }) hclean

theorem wp_run_demand_undisturbed {x : VaultIo Bool} {dir : Dir FileName}
    {post : Except Error Unit → VaultMachine → Prop}
    (hdone : ∀ (post : Bool → VaultMachine → Prop), post true { m with dir } → wp x post halt m)
    (hpost : post (.ok ()) { m with dir }) : wp (demand x).run post halt m := by
  rw [demand, wp_run_bind, wp_run_lift]
  exact hdone _ (wp_run_failIf.mpr ⟨(fun h => by cases h), fun _ => hpost⟩)

/-- A file is replaced by way of a temporary. -/
theorem wp_replace_undisturbed {temp target : FileName} {bytes : Bytes} {createOnly : Bool}
    {rest : VaultM α} {post : Except Error α → VaultMachine → Prop} (hclean : m.faults = [])
    (hnew : m.dir temp = none) (hne : target ≠ temp) (hfree : createOnly = true → m.dir target = none)
    (hdone : wp rest.run post halt { m with dir := Function.update m.dir target (some bytes) }) :
    wp (do demand (writeNew temp bytes)
           demand (FileM.rename temp target createOnly)
           demand FileM.sync
           rest : VaultM α).run post halt m := by
  have hwritten : ({ m with dir := Function.update m.dir temp (some bytes) } : VaultMachine).faults = [] :=
    hclean
  have hreplaced : ({ m with dir := Function.update m.dir target (some bytes) } : VaultMachine).faults = [] :=
    hclean
  rw [wp_run_bind]
  apply wp_run_demand_undisturbed fun _ => (wp_writeNew_undisturbed hclean hnew).mpr
  simp only
  rw [wp_run_bind]
  apply wp_run_demand_undisturbed fun _ =>
    (wp_rename_undisturbed hwritten (renamed_update hnew hne hfree)).mpr
  simp only
  rw [wp_run_bind]
  exact wp_run_demand_undisturbed (fun _ => (wp_sync_undisturbed hreplaced).mpr) hdone

theorem wp_discard_undisturbed {name : FileName} {rest : VaultM α}
    {post : Except Error α → VaultMachine → Prop} (hclean : m.faults = []) {bytes : Bytes}
    (hfound : m.dir name = some bytes)
    (hdone : wp rest.run post halt { m with dir := Function.update m.dir name none }) :
    wp (do demand (FileM.unlink name)
           demand FileM.sync
           rest : VaultM α).run post halt m := by
  have hgone : ({ m with dir := Function.update m.dir name none } : VaultMachine).faults = [] := hclean
  rw [wp_run_bind]
  apply wp_run_demand_undisturbed fun _ => (wp_unlink_undisturbed hclean hfound).mpr
  simp only
  rw [wp_run_bind]
  exact wp_run_demand_undisturbed (fun _ => (wp_sync_undisturbed hgone).mpr) hdone

end Operations

/-- The temporaries a recovery may yet name are free. -/
def Unclaimed (P : Platform) (drawn : Nat) (d : Dir FileName) : Prop :=
  ∀ n, drawn ≤ n → d (.recoveryPlan (P.uuid n)) = none ∧ d (.recovered (P.uuid n)) = none
    ∧ d (.rekeyAdopt (P.uuid n)) = none

/-- No file has a name that is yet to be drawn. -/
theorem Littered.free (hids : P.FreshIds) {drawn n : Nat} {d : Dir FileName} (h : Littered P drawn d)
    (hn : drawn ≤ n) {name : FileName} (hname : name.ticket = some (P.uuid n)) : d name = none := by
  by_contra hthere
  obtain ⟨k, hk, hsame⟩ := h name _ hname hthere
  have heq := hids.uuid_injective hsame
  omega

theorem Littered.unclaimed (hids : P.FreshIds) {drawn : Nat} {d : Dir FileName} (h : Littered P drawn d) :
    Unclaimed P drawn d :=
  fun _ hn => ⟨h.free hids hn rfl, h.free hids hn rfl, h.free hids hn rfl⟩

/-! The attempt. -/

/-- There is something to recover to: the plan of an earlier attempt that agrees with what is
shown, or a base that is to be sanitized and that can be. -/
inductive Targetable (P : Platform) (mnemonic : String) (admin : AuthenticatedContext) (now : Time)
    (s : Shown) (base : Bytes) (u : Unsealed) : Application → Prop
  | planned {bytes old image : Bytes} {app : Application} (hplan : s.recovery = some bytes)
      (hgate : parseGate bytes = .ok (old, image)) (hagrees : s.Agrees P mnemonic old)
      (hcheck : checkPlan P mnemonic admin base u (old, image) = .ok app) :
    Targetable P mnemonic admin now s base u app
  | fresh {app : Application} {plaintext : Bytes} (hnone : s.recovery = none)
      (hneeds : needsRecovery u.app s.pending.isSome = true) (hagrees : s.Agrees P mnemonic base)
      (hsane : u.app.sanitize P now = .ok app) (hencode : app.encode P = .ok plaintext) :
    Targetable P mnemonic admin now s base u app

section Attempt

variable {m : VaultMachine} {halt : Halted → VaultMachine → Prop}

/-- The check of the pending intent. -/
theorem wp_checkPending_undisturbed {α : Type} {base : Bytes} {rest : VaultM α}
    {post : Except Error α → VaultMachine → Prop} (hclean : m.faults = [])
    (hagrees : (shown m.dir).Agrees P mnemonic base) (hdone : wp rest.run post halt m) :
    wp (do if (m.dir .pending).isSome then
             let gate ← ExceptT.mk (readGate .pending)
             lift (checkPending P mnemonic base gate)
           rest : VaultM α).run post halt m := by
  cases hpending : m.dir .pending with
  | none => exact hdone
  | some bytes =>
    obtain ⟨gate, hgate, hcheck⟩ := hagrees bytes hpending
    simp only [Option.isSome_some, if_true]
    rw [wp_run_bind, wp_run_mk, wp_readGate_undisturbed hclean hpending, hgate]
    simp only
    rw [wp_run_bind, wp_run_pure_lift, hcheck]
    exact hdone

/-- The plan is in the directory afterwards. -/
theorem wp_recoveryTarget_undisturbed (hclean : m.faults = [])
    (hunclaimed : Unclaimed P m.rest.drawn m.dir) {base : Bytes} {u : Unsealed} {app : Application}
    (htarget : Targetable P mnemonic admin now (shown m.dir) base u app)
    {post : Except Error (Application × Bytes) → VaultMachine → Prop}
    (hdone : ∀ image drawn bytes, m.rest.drawn ≤ drawn → post (.ok (app, image))
      { m with dir := Function.update m.dir .recovery (some bytes), rest := { m.rest with drawn } }) :
    wp (recoveryTarget P mnemonic admin now base u (m.dir .recovery).isSome (m.dir .pending).isSome).run
      post halt m := by
  unfold recoveryTarget
  cases htarget with
  | @planned bytes old image _ hplan hgate hagrees hcheck =>
    have hrecovery : m.dir .recovery = some bytes := hplan
    have hsame : Function.update m.dir .recovery (some bytes) = m.dir := by
      rw [← hrecovery, Function.update_eq_self]
    simp only [hrecovery, Option.isSome_some, if_true]
    rw [wp_run_bind, wp_run_mk, wp_readGate_undisturbed hclean hrecovery, hgate]
    simp only
    rw [wp_run_bind, wp_run_pure_lift, hcheck]
    simp only
    apply wp_checkPending_undisturbed hclean hagrees
    have hresult := hdone image m.rest.drawn bytes (le_refl _)
    rw [hsame] at hresult
    exact hresult
  | @fresh _ plaintext hnone hneeds hagrees hsane hencode =>
    have hrecovery : m.dir .recovery = none := hnone
    have hneeds' : needsRecovery u.app (m.dir .pending).isSome = true := hneeds
    simp only [hrecovery, Option.isSome_none, Bool.false_eq_true, if_false]
    rw [wp_run_bind, wp_run_failIf, hneeds']
    refine ⟨(fun h => by cases h), fun _ => ?_⟩
    simp only
    apply wp_checkPending_undisturbed hclean hagrees
    rw [wp_run_bind, wp_run_pure_lift, hsane]
    simp only
    rw [wp_run_bind, wp_run_drawIndex]
    simp only
    obtain ⟨-, -, hfits⟩ := encode_eq_ok.mp hencode
    have hseal : sealImage P app u.key u.salt u.kdf (P.nonce m.rest.drawn) = .ok (imageBytes headerV3 u.kdf
        u.salt (P.nonce m.rest.drawn) (P.encrypt u.key (P.nonce m.rest.drawn) plaintext
          (imageAad headerV3 u.kdf u.salt))) := sealImage_eq_ok.mpr ⟨plaintext, hencode, rfl⟩
    rw [wp_run_bind, wp_run_pure_lift, hseal]
    simp only
    rw [wp_run_bind, writePair, wp_run_bind, wp_run_drawIndex]
    simp only
    rw [replace_eq]
    refine wp_replace_undisturbed hclean ((hunclaimed _ (Nat.le_succ _)).1) (fun h => by cases h)
      (fun _ => hrecovery) ?_
    exact hdone _ (m.rest.drawn + 1 + 1) _ (by omega)

/-- The planned image becomes the state, and both gates go. -/
theorem wp_installRecovered_undisturbed (hclean : m.faults = [])
    (hunclaimed : Unclaimed P m.rest.drawn m.dir) {image bytes : Bytes} {missing : Bool}
    (hplan : m.dir .recovery = some bytes) (hmissing : missing = true → m.dir .state = none)
    {post : Except Error Unit → VaultMachine → Prop} (hdone : ∀ m', post (.ok ()) m') :
    wp (installRecovered P image missing (m.dir .pending).isSome).run post halt m := by
  -- what is left to clear, whatever else the directory shows
  have hclear : ∀ m' : VaultMachine, m'.faults = [] → m'.dir .recovery = some bytes →
      wp (do demand (FileM.unlink .recovery)
             demand FileM.sync : VaultM Unit).run post halt m' := by
    intro m' hclean' hplan'
    rw [discard_eq]
    exact wp_discard_undisturbed hclean' hplan' (hdone _)
  unfold installRecovered
  rw [wp_run_bind, wp_run_drawIndex]
  simp only
  refine wp_replace_undisturbed hclean (hunclaimed _ (le_refl _)).2.1 (fun h => by cases h)
    hmissing ?_
  cases hpending : m.dir .pending with
  | none => exact hclear _ hclean (by simpa using hplan)
  | some intent =>
    simp only [Option.isSome_some, if_true]
    refine wp_discard_undisturbed hclean (show _ = some intent by simpa using hpending) ?_
    exact hclear _ hclean (by simpa using hplan)

/-- The state is read as it is where the seed opens it. -/
theorem wp_visibleState_undisturbed (hclean : m.faults = [])
    (hreads : ∀ image, m.dir .state = some image → ∃ u, unsealImage P image mnemonic = .ok u)
    {post : Except Error (Option Bytes) → VaultMachine → Prop} (hdone : post (.ok (m.dir .state)) m) :
    wp (visibleState P mnemonic admin).run post halt m := by
  have hfits : ∀ image, m.dir .state = some image → image.length ≤ maxImage := by
    intro image himage
    obtain ⟨u, hu⟩ := hreads image himage
    exact (unsealImage_eq_ok.mp hu).1
  unfold visibleState
  rw [wp_run_bind, wp_run_mk, wp_readImage_undisturbed hclean hfits]
  cases hstate : m.dir .state with
  | none =>
    rw [hstate] at hdone
    exact hdone
  | some image =>
    obtain ⟨u, hu⟩ := hreads image hstate
    rw [hstate] at hdone
    simp only [hu]
    exact hdone

/-- With something to recover to, an attempt that no fault meets ends with an owner. `m'` is
where it stands once the state can be read. -/
theorem wp_recover_undisturbed {m' : VaultMachine} (htrusted : admin.admin = true)
    (hvisible : ∀ {post : Except Error (Option Bytes) → VaultMachine → Prop},
      post (.ok (m'.dir .state)) m' → wp (visibleState P mnemonic admin).run post halt m)
    (hclean : m'.faults = []) (hunclaimed : Unclaimed P m'.rest.drawn m'.dir) {base : Bytes} {u : Unsealed}
    {app : Application} (hshows : (shown m'.dir).Shows P mnemonic base)
    (hunseal : unsealImage P base mnemonic = .ok u) (hscope : adminScope u.app admin = .ok ())
    (htarget : Targetable P mnemonic admin now (shown m'.dir) base u app) :
    wp (DurableVault.recover P mnemonic admin now).run (fun result _ => ∃ owner, result = .ok owner
      ∧ owner.app = app) halt m := by
  unfold DurableVault.recover
  rw [wp_run_bind, wp_run_failIf]
  refine ⟨fun h => by simp [htrusted] at h, fun _ => ?_⟩
  simp only
  rw [wp_run_bind]
  apply hvisible
  simp only
  rw [wp_run_bind]
  have hbase : ∀ {post : Except Error Bytes → VaultMachine → Prop}, post (.ok base) m' →
      wp (recoveryBase P mnemonic (m'.dir .state)).run post halt m' := by
    intro post hpost
    rcases hshows with hstate | ⟨hmissing, bytes, gate, hpending, hgate, habsent⟩
    · have hfound : m'.dir .state = some base := hstate
      rw [hfound]
      exact hpost
    · have hnone : m'.dir .state = none := hmissing
      rw [hnone, recoveryBase, wp_run_bind, wp_run_mk, wp_readGate_undisturbed hclean hpending, hgate]
      simp only
      rw [wp_run_pure_lift, habsent]
      exact hpost
  apply hbase
  simp only
  rw [wp_run_bind, wp_run_pure_lift, hunseal]
  simp only [orRecovery]
  rw [wp_run_bind, wp_run_pure_lift, hscope]
  simp only
  rw [wp_run_bind, wp_run_mk, wp_gateExists_undisturbed hclean]
  simp only
  rw [wp_run_bind, wp_run_mk, wp_gateExists_undisturbed hclean]
  simp only
  rw [wp_run_bind]
  apply wp_recoveryTarget_undisturbed hclean hunclaimed htarget
  intro image drawn bytes hdrawn
  simp only
  rw [wp_run_bind]
  have hunclaimed' : Unclaimed P drawn (Function.update m'.dir .recovery (some bytes)) := by
    intro n hn
    simpa using hunclaimed n (hdrawn.trans hn)
  have hpending : (m'.dir .pending).isSome
      = (Function.update m'.dir .recovery (some bytes) FileName.pending).isSome := by simp
  have hplan : Function.update m'.dir .recovery (some bytes) FileName.recovery = some bytes :=
    Function.update_self ..
  rw [hpending]
  refine wp_installRecovered_undisturbed (m := { m' with
    dir := Function.update m'.dir .recovery (some bytes), rest := { m'.rest with drawn } }) hclean
    hunclaimed' hplan (fun hmissing => ?_) fun m'' => ?_
  · simpa using hmissing
  · exact ⟨_, rfl, rfl⟩

end Attempt

/-- The next process gets an owner of what there is to recover to. -/
theorem Entry.recover_undisturbed {m : VaultMachine} (htrusted : admin.admin = true)
    (hunclaimed : Unclaimed P m.rest.drawn m.dir)
    (hreads : ∀ image, m.dir .state = some image → ∃ u, unsealImage P image mnemonic = .ok u)
    {base : Bytes} {u : Unsealed} {app : Application} (hshows : (shown m.dir).Shows P mnemonic base)
    (hunseal : unsealImage P base mnemonic = .ok u) (hscope : adminScope u.app admin = .ok ())
    (htarget : Targetable P mnemonic admin now (shown m.dir) base u app) :
    ∃ owner, ((Entry.recover mnemonic admin now).enter P m []).2 = some owner ∧ owner.app = app := by
  refine Entry.enter_spec (.recover mnemonic admin now)
    (p := fun _ o => ∃ owner, o = some owner ∧ owner.app = app) ?_
  have hclean : ({ m with faults := [] } : VaultMachine).faults = [] := rfl
  have hrun : wp (DurableVault.recover P mnemonic admin now).run
      (fun result _ => ∃ owner, result = .ok owner ∧ owner.app = app) (fun _ _ => False)
      { m with faults := [] } :=
    wp_recover_undisturbed htrusted (wp_visibleState_undisturbed hclean hreads) hclean hunclaimed
      hshows hunseal hscope htarget
  apply wp_mono hrun
  · rintro result m' ⟨owner, rfl, happ⟩
    exact ⟨owner, rfl, happ⟩
  · exact fun _ _ hno => hno.elim

end Credman
