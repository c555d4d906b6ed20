import Credman.Answers

/-! What an exported backup carries into the store that is restored from it. -/
namespace Credman

open Library Library.Checked Relation Application DurableVault

variable {P : Platform} {fleet fleet' : Fleet} {i : Nat} {faults : List Fault}
  {admin : AuthenticatedContext} {secret : BackupSecret} {bytes : Bytes} {now : Time}

/-- An export that returned its bytes: they are an envelope of the owner's application. -/
structure Exported (P : Platform) (fleet : Fleet) (i : Nat) (admin : AuthenticatedContext)
    (secret : BackupSecret) (bytes : Bytes) (owner : DurableVault) (fleet' : Fleet) : Prop where
  held : (fleet.stores i).owner = some owner
  exportable : owner.exportable admin = .ok ()
  encrypted : ∃ n, encryptBackup P owner.app secret (P.salt n) (P.nonce n) = .ok bytes
  stores : fleet'.stores = fleet.stores
  backups : fleet'.backups = fleet.backups ++ [bytes]

theorem exported_of_answer
    (h : (fleet.step P i (.exportBackup admin secret) faults).2 = .backup (.ok bytes)) :
    ∃ owner, Exported P fleet i admin secret bytes owner
      (fleet.step P i (.exportBackup admin secret) faults).1 := by
  have hasked : (fleet.ask i faults (fun owner => do
      let result ← (owner.exportBackup P admin secret).run
      pure (owner, result)) Answer.backup).2 = .backup (.ok bytes) →
      ∃ owner, Exported P fleet i admin secret bytes owner (recorded (fleet.ask i faults (fun owner => do
        let result ← (owner.exportBackup P admin secret).run
        pure (owner, result)) Answer.backup)) := by
    refine Fleet.ask_spec (p := fun out => out.2 = .backup (.ok bytes) →
      ∃ owner, Exported P fleet i admin secret bytes owner (recorded out)) nofun fun owner howner => ?_
    rw [wp_bind]
    refine wp_mono (wp_export admin secret) ?_ fun _ _ => False.elim
    rintro result m' ⟨-, hdir, hbytes⟩ hanswer
    cases Answer.backup.inj hanswer
    obtain ⟨hexportable, n, hencrypt⟩ := hbytes bytes rfl
    refine ⟨owner, howner, hexportable, ⟨n, hencrypt⟩, ?_, rfl⟩
    change (fleet.put i ⟨m'.dir, some owner⟩ m'.rest).stores = fleet.stores
    rw [hdir, ← howner]
    exact Function.update_eq_self i fleet.stores
  revert h hasked
  change (fleet.exportFrom P i faults admin secret).2 = _ → _ → ∃ owner, Exported P fleet i admin secret
    bytes owner (fleet.exportFrom P i faults admin secret).1
  unfold Fleet.exportFrom
  generalize fleet.ask i faults (fun owner => do
    let result ← (owner.exportBackup P admin secret).run
    pure (owner, result)) Answer.backup = out
  obtain ⟨next, answer⟩ := out
  intro h hasked
  cases answer with
  | backup result =>
    cases result with
    | error e => cases h
    | ok found => exact hasked h
  | opened | done | receipt | view | values | delivery | closed | halted | noOwner => cases h

/-- A restore that returned an owner. -/
structure Restored (P : Platform) (fleet : Fleet) (i : Nat) (admin : AuthenticatedContext)
    (bytes : Bytes) (secret : BackupSecret) (now : Time) (copy : Application) (owner : DurableVault)
    (fleet' : Fleet) : Prop where
  human : admin.admin = true
  decrypted : decryptBackup P bytes secret = .ok copy
  prepared : copy.prepareRestored P admin now = .ok owner.app
  kept : (fleet'.stores i).owner = some owner

theorem restored_of_answer {mnemonic : String} {backup : Nat} (hbackup : fleet.backups[backup]? = some bytes)
    (h : (fleet.step P i (.restore mnemonic admin backup secret now) faults).2 = .opened (.ok ())) :
    ∃ copy owner, Restored P fleet i admin bytes secret now copy owner
      (fleet.step P i (.restore mnemonic admin backup secret now) faults).1 := by
  revert h
  unfold Fleet.step
  simp only [hbackup]
  refine Fleet.enter_spec (p := fun out => out.2 = .opened (.ok ()) →
    ∃ copy owner, Restored P fleet i admin bytes secret now copy owner out.1) (fun _ _ => nofun)
    fun _ => ?_
  unfold restoreBackup
  rw [wp_run_bind, wp_run_failIf]
  refine ⟨fun _ => nofun, fun hadmin => ?_⟩
  simp only
  rw [wp_run_bind, wp_run_pure_lift]
  cases hdecrypt : decryptBackup P bytes secret with
  | error e => exact nofun
  | ok copy =>
    simp only
    rw [wp_run_bind, wp_run_pure_lift]
    cases hprepare : copy.prepareRestored P admin now with
    | error e => exact nofun
    | ok app =>
      simp only
      refine wp_mono (wp_createFromApp P mnemonic app _) ?_ fun _ _ _ => nofun
      rintro (e | owner) m' ⟨-, hcreated⟩ hanswer
      · cases hanswer
      · refine ⟨copy, owner, by simpa using hadmin, hdecrypt, ?_, by rw [Fleet.put_self]⟩
        generalize hresult : (Except.ok owner : Except Error DurableVault) = result at hcreated
        generalize m'.dir = d' at hcreated
        cases hcreated with
        | refused => cases hresult
        | @published _ _ store publication _ =>
          cases publication with
          | durable =>
            cases hresult
            exact hprepare
          | notPublished | unknown => cases hresult

/-- A backup stays where it is in the list. -/
theorem Fleet.Runs.backup {allows : Fleet → Nat → Call → Prop} {k : Nat} (hseals : P.Seals)
    (hruns : Fleet.Runs P allows fleet fleet') (h : fleet.backups[k]? = some bytes) :
    fleet'.backups[k]? = some bytes := by
  induction hruns with
  | refl => exact h
  | @tail mid _ _ hgoes ih =>
    obtain ⟨j, call, faults, -, rfl⟩ := hgoes
    rcases (stepped hseals mid j call faults).backups with heq | ⟨-, -, -, -, more, -, -, -, -, heq⟩
    · rw [heq]
      exact ih
    · rw [heq, List.getElem?_append_left (List.getElem?_eq_some_iff.mp ih).1]
      exact ih

/-- The copy a store is restored from is the application that was exported. -/
theorem Exported.copy {owner : DurableVault} {secret' : BackupSecret} {copy : Application}
    (hids : P.FreshIds) (hseals : P.Seals) (hreach : Fleet.Reachable P fleet)
    (h : Exported P fleet i admin secret bytes owner fleet')
    (hdecrypt : decryptBackup P bytes secret' = .ok copy) : copy = owner.app := by
  obtain ⟨n, hencrypt⟩ := h.encrypted
  have hlasting := ((hreach.sound hids hseals).stores i).lasting owner h.held
  exact decrypt_of_encrypt hseals hlasting.dated hencrypt hdecrypt

/-- The records of the store a backup is restored into go on from the exported ones. -/
theorem Restored.record {copy : Application} {owner : DurableVault}
    (h : Restored P fleet i admin bytes secret now copy owner fleet') {record : Uuid} {r : Record}
    (hr : copy.records.get? record = some r) :
    ∃ r', owner.app.records.get? record = some r' ∧ r.Grows r' := by
  obtain ⟨-, hclosed, -⟩ := prepareRestored_eq_ok h.prepared
  have hr' := hclosed.records record
  rw [hr] at hr'
  refine ⟨_, hr', ?_⟩
  unfold unsettled
  split_ifs
  · exact .marked r .unknown true
  · exact .marked r r.signup true

end Credman
