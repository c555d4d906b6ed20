import Credman.CrashSafety
import Credman.Revocation

/-! A recovered or restored vault has stood down: it has its history and no authority. -/
namespace Credman

open Library Library.Checked Relation Application DurableVault

variable {P : Platform}

namespace Application

variable {app next : Application}

/-- No approval stands, no grant stands and no attempt is open. -/
structure Powerless (app : Application) : Prop where
  tasks : ∀ T, app.TaskDead T
  grants : ∀ gid g, app.grants.get? gid = some g → g.revoked = true
  finished : app.Finished

theorem Closed.powerless {copy : Bool} (h : Closed copy app next) : next.Powerless where
  tasks T t ht := by
    rw [h.tasks] at ht
    rw [h.revoked, Finset.mem_union, OrdMap.mem_keySet]
    exact .inr ⟨t, ht⟩
  grants gid g hg := by
    rw [h.grants, Option.map_eq_some_iff] at hg
    obtain ⟨g₀, -, rfl⟩ := hg
    rfl
  finished := h.finished

end Application

/-- Whatever is done from here on: nothing is got under a task until a human approves it, and nothing
through a grant that the application has. -/
structure StoodDown (P : Platform) (fleet : Fleet) (i : Nat) (app : Application) : Prop where
  tasks : ∀ T fleet', Fleet.Runs P (fun mid j call => j = i → ¬ Reapproved mid i T call) fleet fleet' →
    TaskEnded P fleet' i T
  grants : ∀ gid g fleet', app.grants.get? gid = some g → Fleet.Runs P (fun _ _ _ => True) fleet fleet' →
    GrantEnded P fleet' i gid

section Fleet

variable {fleet fleet' : Fleet} {i : Nat} {owner : DurableVault} {faults : List Fault} {T : Uuid}
  {mnemonic : String} {admin : AuthenticatedContext} {now : Time}

theorem Lawful.taskEnded (hids : P.FreshIds) (hseals : P.Seals) (h : Lawful P (TaskDead T) 0 i fleet) :
    TaskEnded P fleet i T := by
  have hconsults : ∀ {call : Call} {task faults' app}, call.task = some task →
      fleet.Consults P i call faults' app → app.TaskDead T := fun hcall hconsults =>
    (h.consults hids hseals (keeps_taskDead (Call.not_approves hcall)) (fun _ _ _ h => h) hconsults).2
  refine ⟨fun call faults' hcall => nothing_of_not fun hgranted => ?_,
    fun call task faults' app hcall happ gid g _ hissuer => (hconsults hcall happ).grant hissuer⟩
  obtain ⟨owner, ctx, now, effective, hadmitted⟩ := admitted hcall hgranted
  obtain ⟨t, ht⟩ := hadmitted.task
  have hstaged : fleet.Consults P i call faults' (owner.staged.ticked now) :=
    .staged hadmitted.held hadmitted.sampled
  exact (hconsults hcall hstaged).not_held ht

/-- All that is carried is what the owner has in memory, and that is powerless. -/
theorem Application.Powerless.stoodDown (hids : P.FreshIds) (hseals : P.Seals) (hreach : Fleet.Reachable P fleet)
    (howner : (fleet.stores i).owner = some owner)
    (hcarries : (shown (fleet.stores i).dir).Carries P fun app => app = owner.app)
    (h : owner.app.Powerless) : StoodDown P fleet i owner.app where
  tasks T fleet' hruns := by
    have hlawful : Lawful P (TaskDead T) 0 i fleet :=
      hreach.lawful hids hseals howner (Nat.zero_le _) (h.tasks T) (hcarries.mono fun app heq => heq ▸ h.tasks T)
    exact (hlawful.taskDead hids hseals hruns).taskEnded hids hseals
  grants gid g fleet' hg hruns call faults' app hconsults g' hg' := by
    have hlasting : Lasting P fleet.session.drawn owner.app :=
      ((hreach.sound hids hseals).stores i).lasting owner howner
    have hlawful : Lawful P (owner.app.Evolves P fleet.session.drawn) fleet.session.drawn i fleet :=
      hreach.lawful hids hseals howner (le_refl _) .refl (hcarries.mono fun app heq => heq ▸ .refl)
    obtain ⟨-, hevolves⟩ := hlawful.evolves hids hseals hruns hconsults
    exact dead_of_revoked ((hevolves.follows hids hlasting hg hg').2 (h.grants gid g hg))

/-! Recovery. -/

/-- What a recovery returns is some application, sanitized once. -/
theorem Recovered.sanitized (hseals : P.Seals) {d d' : Dir FileName}
    (h : Recovered P mnemonic admin now d d' owner) : ∃ (base : Application) (t : Time),
      base.sanitize P t = .ok owner.app := by
  obtain ⟨s, base, u, image, -, -, -, -, htarget, -, -⟩ := h.exact
  cases htarget with
  | planned k hnone hneeds hagrees hsane hseal => exact ⟨u.app, now, hsane⟩
  | resumed hplan hgate hagrees hcheck =>
    obtain ⟨previous, target, hplanned, happ⟩ := checkPlan_eq_ok.mp hcheck
    obtain ⟨last, expected, bytes, -, hsane, hleft, hright⟩ := hplanned.same
    rw [happ, ← encode_injective hseals.toJson hleft hright]
    exact ⟨previous.app, last, hsane⟩

theorem recovered_of_answer (hseals : P.Seals)
    (h : (fleet.step P i (.recover mnemonic admin now) faults).2 = .opened (.ok ())) :
    ∃ owner, ((fleet.step P i (.recover mnemonic admin now) faults).1.stores i).owner = some owner
      ∧ Recovered P mnemonic admin now (fleet.stores i).dir
        ((fleet.step P i (.recover mnemonic admin now) faults).1.stores i).dir owner := by
  revert h
  unfold Fleet.step
  refine Fleet.enter_spec (p := fun out => out.2 = .opened (.ok ()) → ∃ owner, (out.1.stores i).owner = some owner
    ∧ Recovered P mnemonic admin now (fleet.stores i).dir (out.1.stores i).dir owner)
    (fun _ _ h => by cases h) fun _ => ?_
  refine wp_mono (wp_recover hseals _) ?_ fun _ _ _ h => by cases h
  rintro (e | owner) m' ⟨-, hrecovered⟩ hanswer
  · cases hanswer
  · rw [Fleet.put_self]
    exact ⟨owner, rfl, hrecovered owner rfl⟩

/-! Restoration. -/

/-- The owner that a restore returned was published whole. -/
theorem published_of_answer {backup : Nat} {secret : BackupSecret}
    (h : (fleet.step P i (.restore mnemonic admin backup secret now) faults).2 = .opened (.ok ())) :
    ∃ owner key salt n, ((fleet.step P i (.restore mnemonic admin backup secret now) faults).1.stores i).owner
        = some owner
      ∧ Published P (newStore key salt) owner.app key salt KdfParams.current n (fleet.stores i).dir
        (owner.store, .durable)
        ((fleet.step P i (.restore mnemonic admin backup secret now) faults).1.stores i).dir := by
  revert h
  unfold Fleet.step
  cases hbackup : fleet.backups[backup]? with
  | none =>
    simp only [hbackup]
    exact fun h => by cases h
  | some bytes =>
    simp only [hbackup]
    refine Fleet.enter_spec (p := fun out => out.2 = .opened (.ok ()) → ∃ owner key salt n,
      (out.1.stores i).owner = some owner ∧ Published P (newStore key salt) owner.app key salt KdfParams.current n
        (fleet.stores i).dir (owner.store, .durable) (out.1.stores i).dir) (fun _ _ h => by cases h) fun _ => ?_
    unfold restoreBackup
    rw [wp_run_bind, wp_run_failIf]
    refine ⟨fun _ => (fun h => by cases h), fun _ => ?_⟩
    simp only
    rw [wp_run_bind, wp_run_pure_lift]
    cases decryptBackup P bytes secret with
    | error e => exact fun h => by cases h
    | ok copy =>
      simp only
      rw [wp_run_bind, wp_run_pure_lift]
      cases copy.prepareRestored P admin now with
      | error e => exact fun h => by cases h
      | ok app =>
        simp only
        refine wp_mono (wp_createFromApp P mnemonic app _) ?_ fun _ _ _ h => by cases h
        rintro (e | owner) m' ⟨-, hcreated⟩ hanswer
        · cases hanswer
        · rw [Fleet.put_self]
          generalize hresult : (Except.ok owner : Except Error DurableVault) = result at hcreated
          generalize m'.dir = d' at hcreated
          cases hcreated with
          | refused => cases hresult
          | @published _ key store publication d' hencode hderive hstate hpending hrecovery hpublished =>
            cases publication with
            | durable =>
              cases hresult
              exact ⟨_, key, _, _, rfl, hpublished⟩
            | notPublished | unknown => cases hresult

/-- What a store carries after it was restored is what its owner has. -/
theorem restored_carries (hids : P.FreshIds) (hseals : P.Seals) (hreach : Fleet.Reachable P fleet)
    {backup : Nat} {secret : BackupSecret}
    (h : (fleet.step P i (.restore mnemonic admin backup secret now) faults).2 = .opened (.ok ()))
    (howner : ((fleet.step P i (.restore mnemonic admin backup secret now) faults).1.stores i).owner = some owner) :
    (shown ((fleet.step P i (.restore mnemonic admin backup secret now) faults).1.stores i).dir).Carries P
      fun app => app = owner.app := by
  obtain ⟨owner', key, salt, n, howner', hpublished⟩ := published_of_answer h
  obtain rfl : owner' = owner := Option.some.inj (howner'.symm.trans howner)
  have hlasting := (((hreach.step i _ faults).sound hids hseals).stores i).lasting owner' howner'
  refine hpublished.exact hseals hlasting.dated fun image hcurrent => ?_
  cases hcurrent

/-- Recovery and restoration end what came before them: no call under any earlier task gets anything, in
any later run, until a human approves a task of that id again, and nothing is ever accessed through an earlier
grant. What is recovered is some application, sanitized once; what is restored is the decrypted copy,
with all its history and none of its authority, and its clock goes on from the later time. -/
theorem authority_reset (hids : P.FreshIds) (hseals : P.Seals) (hreach : Fleet.Reachable P fleet) (i : Nat) :
    (∀ mnemonic admin now faults,
      (fleet.step P i (.recover mnemonic admin now) faults).2 = .opened (.ok ()) →
      ∃ owner base t, ((fleet.step P i (.recover mnemonic admin now) faults).1.stores i).owner = some owner
        ∧ Application.sanitize P base t = .ok owner.app
        ∧ StoodDown P (fleet.step P i (.recover mnemonic admin now) faults).1 i owner.app)
    ∧ ∀ mnemonic admin backup bytes secret now faults, fleet.backups[backup]? = some bytes →
      (fleet.step P i (.restore mnemonic admin backup secret now) faults).2 = .opened (.ok ()) →
      ∃ owner copy, ((fleet.step P i (.restore mnemonic admin backup secret now) faults).1.stores i).owner
          = some owner
        ∧ decryptBackup P bytes secret = .ok copy ∧ Closed true copy owner.app
        ∧ owner.app.clockFrozen = copy.clockFrozen
        ∧ owner.app.lastTime = some (copy.lastTime.elim now (max · now))
        ∧ StoodDown P (fleet.step P i (.restore mnemonic admin backup secret now) faults).1 i owner.app := by
  refine ⟨fun mnemonic admin now faults h => ?_, fun mnemonic admin backup bytes secret now faults hbackup h => ?_⟩
  · obtain ⟨owner, howner, hrecovered⟩ := recovered_of_answer hseals h
    obtain ⟨base, t, hsane⟩ := hrecovered.sanitized hseals
    have hcarries := ((hreach.sound hids hseals).stores i).carries.mono fun _ h => h.1
    obtain ⟨image, u, hshown, hopens, -, -⟩ := hrecovered.opens hseals hcarries
    refine ⟨owner, base, t, howner, hsane, ?_⟩
    exact (sanitize_eq_ok hsane).1.powerless.stoodDown hids hseals (hreach.step i _ faults) howner
      (.of_state hseals (congrArg Shown.pending hshown) (congrArg Shown.recovery hshown)
        (congrArg Shown.state hshown) hopens)
  · obtain ⟨copy, owner, hrestored⟩ := restored_of_answer hbackup h
    obtain ⟨-, hclosed, hfrozen, hlast, -⟩ := prepareRestored_eq_ok hrestored.prepared
    refine ⟨owner, copy, hrestored.kept, hrestored.decrypted, hclosed, hfrozen, ?_, ?_⟩
    · rw [hlast]
      cases copy.lastTime <;> rfl
    · exact hclosed.powerless.stoodDown hids hseals (hreach.step i _ faults) hrestored.kept
        (restored_carries hids hseals hreach h hrestored.kept)

end Fleet

/-- Whether a store was opened. -/
def Answer.entered : Answer → Bool
  | .opened (.ok ()) => true
  | _ => false

theorem Answer.entered_eq_true {answer : Answer} (h : answer.entered = true) : answer = .opened (.ok ()) := by
  unfold Answer.entered at h
  split at h
  · rfl
  · cases h

/-- The process that was to revoke Alice's task died after it had written the intent. -/
def interruptedVault : Fleet :=
  (sharingVault.step .reference 0 (.revokeTask (.fromAuthenticatedAdmin "owner" "human" "home") 1 6)
    (List.replicate 8 .none ++ [.crash 0])).1

theorem interruptedVault_reachable : Fleet.Reachable .reference interruptedVault :=
  sharingVault_reachable.step 0 _ _

/-- The vault in which Alice shares, after a backup of it. -/
def exportedVault : Fleet :=
  (sharingVault.step .reference 0
    (.exportBackup (.fromAuthenticatedAdmin "owner" "human" "home") (.passphrase "sixteen letters!")) []).1

theorem exportedVault_reachable : Fleet.Reachable .reference exportedVault := sharingVault_reachable.step 0 _ []

theorem authority_reset_sharingVault :
    (∃ app : Application, StoodDown .reference (interruptedVault.step .reference 0 (.recover
        (Platform.referencePhrases.headD "") (.fromAuthenticatedAdmin "owner" "human" "home") 7) []).1 0 app)
    ∧ ∃ copy app : Application, Closed true copy app ∧ StoodDown .reference (exportedVault.step .reference 1
        (.restore (Platform.referencePhrases.headD "") (.fromAuthenticatedAdmin "owner" "human" "home") 0
          (.passphrase "sixteen letters!") 7) []).1 1 app := by
  have hrecovered : (interruptedVault.step .reference 0 (.recover (Platform.referencePhrases.headD "")
      (.fromAuthenticatedAdmin "owner" "human" "home") 7) []).2.entered = true := by decide +kernel
  have hrestored : (exportedVault.step .reference 1 (.restore (Platform.referencePhrases.headD "")
      (.fromAuthenticatedAdmin "owner" "human" "home") 0 (.passphrase "sixteen letters!") 7) []).2.entered
        = true := by decide +kernel
  have hbackup : exportedVault.backups[0]?.isSome = true := by decide +kernel
  obtain ⟨bytes, hbackup⟩ := Option.isSome_iff_exists.mp hbackup
  obtain ⟨hrecover, -⟩ := authority_reset Platform.reference_freshIds Platform.reference_seals
    interruptedVault_reachable 0
  obtain ⟨-, hrestore⟩ := authority_reset Platform.reference_freshIds Platform.reference_seals
    exportedVault_reachable 1
  obtain ⟨owner, -, -, -, -, hdown⟩ := hrecover _ _ _ _ (Answer.entered_eq_true hrecovered)
  obtain ⟨owner', copy, -, -, hclosed, -, -, hdown'⟩ := hrestore _ _ _ bytes _ _ _ hbackup
    (Answer.entered_eq_true hrestored)
  exact ⟨⟨_, hdown⟩, copy, _, hclosed, hdown'⟩

end Credman
