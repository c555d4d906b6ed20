import Credman.Restoration
import Credman.Access

/-! A pinned grant only ever yields the credential it was issued for. -/
namespace Credman

open Library Library.Checked Relation Application DurableVault

variable {P : Platform}

namespace Application

variable {app next : Application} {ctx : AuthenticatedContext} {task request : Uuid} {draw : Draw}
  {effective : Time} {receipt : Receipt}

/-- What a share that ran leaves: a grant for the version the record has. -/
theorem Executed.shared {record : Uuid} {expected : UInt64} {spec : GrantSpec}
    (h : Executed P ctx task request (.share record expected spec) draw effective app receipt next) :
    ∃ r, app.records.get? record = some r ∧ receipt.grant = some draw.id
      ∧ next.grants.get? draw.id = some {
          record, spec, revoked := false, version := r.secretVersion, issuerTask := task
          adminIssued := ctx.admin }
      ∧ next.records.get? record = some { r with revision := r.revision + 1 } := by
  obtain ⟨t, r, mid, -, -, hperformed, rfl⟩ := h.targeted rfl
  cases hperformed with
  | share hr => exact ⟨_, hr, rfl, OrdMap.get?_insert_self .., OrdMap.get?_insert_self ..⟩

/-- Values a selection returned through a grant are the record's, of the version it is pinned to. -/
theorem covered_version {r : Record} {permission : Permission} {fields : Fields}
    {destination : Option String} {now : Time} {g : Grant} (hpinned : g.spec.followActive = false)
    (hcovers : app.grantCovers ctx r permission fields destination now g = true) :
    g.record = r.id ∧ r.secretVersion = g.version := by
  obtain ⟨hrecord, -, -, hversion, -⟩ := grantCovers_iff.mp hcovers
  rw [hpinned] at hversion
  exact ⟨hrecord, hversion.symm⟩

/-- Nothing a grant is matched against depends on values, revisions or receipts. -/
theorem grantCovers_congr (app : Application) {r r' : Record} {permission : Permission} {fields : Fields}
    {destination : Option String} {now : Time} {g : Grant} (hrecord : r'.id = r.id)
    (hversion : r'.secretVersion = r.secretVersion)
    (hrevoked : g.issuerTask ∈ next.revokedTasks ↔ g.issuerTask ∈ app.revokedTasks)
    (hissuer : next.tasks.get? g.issuerTask = app.tasks.get? g.issuerTask) :
    next.grantCovers ctx r' permission fields destination now g
      = app.grantCovers ctx r permission fields destination now g := by
  unfold grantCovers
  simp only [hrecord, hversion, hrevoked, hissuer]

theorem changesCredential_of_notes {values : SecretInput}
    (h : ∀ f v, values.get? f = some v → f = .label ∨ f = .notes) : values.changesCredential = false := by
  unfold SecretInput.changesCredential
  rw [OrdMap.any_false]
  intro f v hv
  rcases h f v hv with rfl | rfl <;> rfl

/-- A patch of the label or the notes leaves every grant matching as it did. -/
theorem Executed.patched_matching {record : Uuid} {expected : UInt64} {values : SecretInput}
    (hnotes : ∀ f v, values.get? f = some v → f = .label ∨ f = .notes)
    (h : Executed P ctx task request (.patch record expected values) draw effective app receipt next)
    {gid : Uuid} {g : Grant} {r : Record} (hg : app.grants.get? gid = some g)
    (hr : app.records.get? g.record = some r) : next.grants.get? gid = some g
      ∧ ∃ r', next.records.get? g.record = some r' ∧ r'.id = r.id ∧ r'.secretVersion = r.secretVersion
      ∧ next.tasks = app.tasks ∧ next.revokedTasks = app.revokedTasks := by
  obtain ⟨t, r₀, mid, -, -, hperformed, rfl⟩ := h.targeted rfl
  cases hperformed with
  | @patch _ _ _ r₁ r₂ hr₁ hpatched =>
    refine ⟨hg, ?_⟩
    change ∃ r', (app.records.insert record r₂).get? g.record = some r' ∧ _
    rw [OrdMap.get?_insert]
    split_ifs with heq
    · subst heq
      rw [hr₁, Option.some.injEq] at hr
      subst hr
      unfold patched at hpatched
      rw [changesCredential_of_notes hnotes] at hpatched
      cases hpatched
      exact ⟨_, rfl, rfl, rfl, rfl, rfl⟩
    · exact ⟨r, hr, rfl, rfl, rfl, rfl⟩

/-- Compaction keeps a grant that still covers something, and what it is matched against. -/
theorem Shrinks.covering (h : app.Shrinks next) (hvalid : next.Valid P) {gid : Uuid} {g : Grant}
    {r : Record} {permission : Permission} {fields : Fields} {destination : Option String} {now : Time}
    (hg : app.grants.get? gid = some g) (hr : app.records.get? g.record = some r)
    (hlater : ∀ last, app.lastTime = some last → last ≤ now)
    (hcovers : app.grantCovers ctx r permission fields destination now g = true) :
    next.grants.get? gid = some g ∧ next.records.get? g.record = some r
      ∧ next.grantCovers ctx r permission fields destination now g = true := by
  obtain ⟨-, hrevoked, hexpires, -⟩ := grantCovers_iff.mp hcovers
  have hkept : next.grants.get? gid = some g := by
    cases hnext : next.grants.get? gid with
    | some g' =>
      have hsame := h.grants gid g' hnext
      rw [hg] at hsame
      exact hsame.symm
    | none =>
      obtain ⟨hdead | ⟨last, hlast, hover⟩, -⟩ := h.grant_dropped gid g hg hnext
      · rw [hrevoked] at hdead
        cases hdead
      · exact absurd hexpires (not_lt_of_ge (hover.trans (hlater last hlast)))
  obtain ⟨r', t, hr', ht, -⟩ := hvalid.grants gid g hkept
  have hrecord : r' = r := by
    have hfound := h.records _ r' hr'
    rw [hr] at hfound
    exact (Option.some.inj hfound).symm
  refine ⟨hkept, hrecord ▸ hr', ?_⟩
  rw [grantCovers_congr app rfl rfl (h.revoked _ t ht) (ht.trans (h.tasks _ t ht).symm)]
  exact hcovers

end Application

section Runs

variable {fleet fleet' : Fleet} {i : Nat} {owner owner' : DurableVault} {ctx : AuthenticatedContext}
  {task request record : Uuid} {expected : UInt64} {now : Time} {faults : List Fault} {receipt : Receipt}

/-- Staging leaves a grant that covers something at the time of the call as it is. -/
theorem staged_covering (hvalid : owner.app.Valid P) {n : Nat} (hlasting : Lasting P n owner.app)
    {recipient : AuthenticatedContext} {gid : Uuid} {g : Grant} {r : Record} {permission : Permission}
    {fields : Fields} {destination : Option String} {later : Time}
    (hg : owner.app.grants.get? gid = some g) (hr : owner.app.records.get? g.record = some r)
    (hlater : ∀ last, owner.app.lastTime = some last → last ≤ later)
    (hcovers : owner.app.grantCovers recipient r permission fields destination later g = true) :
    owner.staged.grants.get? gid = some g ∧ owner.staged.records.get? g.record = some r
      ∧ owner.staged.grantCovers recipient r permission fields destination later g = true := by
  unfold DurableVault.staged
  split_ifs
  · obtain ⟨-, hcompact, hshrinks⟩ := hlasting.compact hvalid
    exact hshrinks.covering hcompact hg hr hlater hcovers
  · exact ⟨hg, hr, hcovers⟩

/-- After an answered mutation, every application there is goes on from the one that was
answered. -/
theorem mutated_lawful {op : Mutation} (hids : P.FreshIds) (hseals : P.Seals)
    (hreach : Fleet.Reachable P fleet)
    (h : (fleet.step P i (.mutate ctx task request op now) faults).2 = .receipt (.ok receipt)) :
    ∃ owner candidate effective since base, (fleet.stores i).owner = some owner
      ∧ owner.staged.effectiveTime now = .ok effective
      ∧ (Executed P ctx task request op
          { id := P.uuid fleet.session.drawn, entropy := P.osRng fleet.session.drawn } effective
          (owner.staged.ticked now) receipt candidate
        ∨ Replayed P ctx task request op effective (owner.staged.ticked now) receipt
          ∧ candidate = owner.staged.ticked now)
      ∧ (∃ g, base = { candidate with generation := g }) ∧ Lasting P since base
      ∧ Lawful P (base.Evolves P since) since i
        (fleet.step P i (.mutate ctx task request op now) faults).1 := by
  obtain ⟨owner, howner⟩ : ∃ owner, (fleet.stores i).owner = some owner := by
    cases howner : (fleet.stores i).owner with
    | some owner => exact ⟨owner, rfl⟩
    | none =>
      unfold Fleet.step Fleet.ask at h
      simp [howner] at h
  obtain ⟨owner', candidate, effective, hmutated⟩ := mutated howner (.mutate ctx task request op now) h
  obtain ⟨operation, hanswered, rfl⟩ := hmutated.answered
  have hreach' := hreach.step i (.mutate ctx task request op now) faults
  obtain ⟨happ, -⟩ := hanswered.after hids hseals hreach
  obtain ⟨since, hsince, hlasting, hcarries⟩ := hreach'.trails hids hseals i owner' hanswered.kept
  exact ⟨owner, _, effective, since, owner'.app, howner, hmutated.sampled, hmutated.ran, happ, hlasting,
    hreach'.lawful hids hseals hanswered.kept hsince .refl hcarries⟩

/-- After a share, every application there is goes on from one that has the grant, pinned to
the version of the record. -/
theorem shared_lawful {spec : GrantSpec} (hids : P.FreshIds) (hseals : P.Seals)
    (hreach : Fleet.Reachable P fleet) (howner : (fleet.stores i).owner = some owner)
    (hfirst : owner.staged.requests.get? (requestKey ctx task request) = none)
    (h : (fleet.step P i (.mutate ctx task request (.share record expected spec) now) faults).2
      = .receipt (.ok receipt)) :
    ∃ gid g r r₁ since base, receipt.grant = some gid ∧ owner.staged.records.get? record = some r
      ∧ g.record = record ∧ g.spec = spec ∧ g.version = r.secretVersion
      ∧ r₁ = { r with revision := r.revision + 1 } ∧ Lasting P since base
      ∧ base.grants.get? gid = some g ∧ base.records.get? record = some r₁
      ∧ Lawful P (base.Evolves P since) since i
          (fleet.step P i (.mutate ctx task request (.share record expected spec) now) faults).1 := by
  obtain ⟨owner₁, candidate, effective, since, base, howner₁, -, hran, ⟨generation, rfl⟩, hlasting, hlawful⟩ :=
    mutated_lawful hids hseals hreach h
  obtain rfl : owner₁ = owner := Option.some.inj (howner₁.symm.trans howner)
  rcases hran with hexec | ⟨hreplayed, -⟩
  · obtain ⟨r, hr, hgrant, hg, hr₁⟩ := hexec.shared
    rw [ticked_records] at hr
    exact ⟨_, { record, spec, revoked := false, version := r.secretVersion, issuerTask := task
                adminIssued := ctx.admin }, r, _, since, _, hgrant, hr, rfl, rfl, rfl, rfl,
      hlasting, hg, hr₁, hlawful⟩
  · obtain ⟨previous, hcached, -⟩ := hreplayed.cached
    rw [ticked_requests, hfirst] at hcached
    cases hcached

/-- An answered patch of the label or the notes leaves a grant matching. -/
theorem patched_covering {values : SecretInput} (hids : P.FreshIds) (hseals : P.Seals)
    (hreach : Fleet.Reachable P fleet) (howner : (fleet.stores i).owner = some owner)
    (hnotes : ∀ f v, values.get? f = some v → f = .label ∨ f = .notes)
    (h : (fleet.step P i (.mutate ctx task request (.patch record expected values) now) faults).2
      = .receipt (.ok receipt))
    {recipient : AuthenticatedContext} {gid : Uuid} {g : Grant} {r : Record} {permission : Permission}
    {fields : Fields} {destination : Option String} {later : Time}
    (hg : owner.app.grants.get? gid = some g) (hr : owner.app.records.get? g.record = some r)
    (hlater : ∀ last, owner.app.lastTime = some last → last ≤ later)
    (hcovers : owner.app.grantCovers recipient r permission fields destination later g = true) :
    ∃ owner' r', ((fleet.step P i (.mutate ctx task request (.patch record expected values) now)
        faults).1.stores i).owner = some owner'
      ∧ owner'.app.grants.get? gid = some g ∧ owner'.app.records.get? g.record = some r'
      ∧ owner'.app.grantCovers recipient r' permission fields destination later g = true := by
  obtain ⟨owner', candidate, effective, hmutated⟩ := mutated howner (.mutate ctx task request _ now) h
  obtain ⟨operation, hanswered, rfl⟩ := hmutated.answered
  obtain ⟨⟨generation, happ⟩, -⟩ := hanswered.after hids hseals hreach
  have hkept := (hreach.sound hids hseals).stores i
  obtain ⟨hg', hr', hcovers'⟩ := staged_covering (hkept.valid owner howner) (hkept.lasting owner howner)
    hg hr hlater hcovers
  rcases hmutated.ran with hexec | ⟨-, hsame⟩
  · rw [← ticked_grants owner.staged now] at hg'
    rw [← ticked_records owner.staged now] at hr'
    obtain ⟨hgrant, r₁, hr₁, hid, hversion, htasks, hrevoked⟩ := hexec.patched_matching hnotes hg' hr'
    refine ⟨owner', r₁, hanswered.kept, ?_, ?_, ?_⟩
    · rw [happ]
      exact hgrant
    · rw [happ]
      exact hr₁
    · rw [happ, grantCovers_congr owner.staged hid hversion]
      · exact hcovers'
      · change _ ∈ (owner.proposal operation).2.revokedTasks ↔ _
        rw [hrevoked, ticked_revokedTasks]
      · change (owner.proposal operation).2.tasks.get? _ = _
        rw [htasks, ticked_tasks]
  · refine ⟨owner', r, hanswered.kept, ?_, ?_, ?_⟩
    · rw [happ, hsame]
      change (owner.staged.ticked now).grants.get? gid = some g
      rw [ticked_grants]
      exact hg'
    · rw [happ, hsame]
      change (owner.staged.ticked now).records.get? g.record = some r
      rw [ticked_records]
      exact hr'
    · rw [happ, grantCovers_congr owner.staged rfl rfl]
      · exact hcovers'
      · rw [hsame]
        change _ ∈ (owner.staged.ticked now).revokedTasks ↔ _
        rw [ticked_revokedTasks]
      · rw [hsame]
        change (owner.staged.ticked now).tasks.get? _ = _
        rw [ticked_tasks]

/-- The version of a record only grows, and as long as it is the same the credential is. -/
def SameCredential (app later : Application) : Prop :=
  ∀ record r r', app.records.get? record = some r → later.records.get? record = some r' →
    r.secretVersion ≤ r'.secretVersion ∧ (r'.deleted = false → r'.secretVersion = r.secretVersion →
      ∀ f : Field, f.credential = true → r'.values.get? f = r.values.get? f)

theorem sameCredential_later (hids : P.FreshIds) (hseals : P.Seals) (hreach : Fleet.Reachable P fleet)
    (howner : (fleet.stores i).owner = some owner)
    (hruns : Fleet.Runs P (fun _ _ _ => True) fleet fleet')
    (howner' : (fleet'.stores i).owner = some owner') : SameCredential owner.app owner'.app := by
  obtain ⟨since, hlasting, hevolves⟩ := hreach.evolves hids hseals howner hruns howner'
  intro record r r' hr hr'
  have hgrows := hevolves.grows hids hlasting hr hr'
  exact ⟨hgrows.version, hgrows.credential⟩

/-- A store restored from a backup goes on from the application that was exported. -/
theorem sameCredential_restored {fleet₁ fleet₂ fleet₃ : Fleet} {j k : Nat} {admin admin' : AuthenticatedContext}
    {secret secret' : BackupSecret} {bytes : Bytes} {mnemonic : String} {faults' : List Fault}
    (hids : P.FreshIds) (hseals : P.Seals) (hreach : Fleet.Reachable P fleet)
    (howner : (fleet.stores i).owner = some owner)
    (hexport : fleet.step P i (.exportBackup admin secret) faults = (fleet₁, .backup (.ok bytes)))
    (hruns : Fleet.Runs P (fun _ _ _ => True) fleet₁ fleet₂) (hk : k = fleet.backups.length)
    (hrestore : fleet₂.step P j (.restore mnemonic admin' k secret' now) faults' = (fleet₃, .opened (.ok ())))
    (hruns' : Fleet.Runs P (fun _ _ _ => True) fleet₃ fleet')
    (howner' : (fleet'.stores j).owner = some owner') : SameCredential owner.app owner'.app := by
  obtain ⟨exporter, hexported⟩ := exported_of_answer (congrArg Prod.snd hexport)
  rw [hexport] at hexported
  obtain rfl : exporter = owner := Option.some.inj (hexported.held.symm.trans howner)
  have hreach₁ : Fleet.Reachable P fleet₁ := by
    have h := hreach.step i (.exportBackup admin secret) faults
    rwa [hexport] at h
  have hreach₂ := hruns.reachable hreach₁
  have hreach₃ : Fleet.Reachable P fleet₃ := by
    have h := hreach₂.step j (.restore mnemonic admin' k secret' now) faults'
    rwa [hrestore] at h
  have hbackup : fleet₂.backups[k]? = some bytes := by
    refine hruns.backup hseals ?_
    rw [hexported.backups, hk, List.getElem?_concat_length]
  obtain ⟨copy, base, hrestored⟩ := restored_of_answer hbackup (congrArg Prod.snd hrestore)
  rw [hrestore] at hrestored
  obtain rfl := hexported.copy hids hseals hreach hrestored.decrypted
  intro record r r' hr hr'
  obtain ⟨r₁, hr₁, hcopied⟩ := hrestored.record hr
  obtain ⟨since, hlasting, hevolves⟩ := hreach₃.evolves hids hseals hrestored.kept hruns' howner'
  have hgrows := hcopied.trans (hevolves.grows hids hlasting hr₁ hr')
  exact ⟨hgrows.version, hgrows.credential⟩

/-- The credential of a record follows its version: over every run of its store and of every
store restored from a backup of it. So what a pinned grant lets anyone see or use is what
the record held when it was shared, and a patch of the label or the notes unpins nothing. -/
theorem credential_pinned (hids : P.FreshIds) (hseals : P.Seals) (hreach : Fleet.Reachable P fleet)
    (howner : (fleet.stores i).owner = some owner) :
    (∀ fleet' owner', Fleet.Runs P (fun _ _ _ => True) fleet fleet' →
      (fleet'.stores i).owner = some owner' → SameCredential owner.app owner'.app)
    ∧ (∀ fleet₁ fleet₂ fleet₃ fleet' j admin admin' secret secret' bytes mnemonic now faults faults' owner',
      fleet.step P i (.exportBackup admin secret) faults = (fleet₁, .backup (.ok bytes)) →
      Fleet.Runs P (fun _ _ _ => True) fleet₁ fleet₂ →
      fleet₂.step P j (.restore mnemonic admin' fleet.backups.length secret' now) faults'
        = (fleet₃, .opened (.ok ())) →
      Fleet.Runs P (fun _ _ _ => True) fleet₃ fleet' → (fleet'.stores j).owner = some owner' →
        SameCredential owner.app owner'.app)
    ∧ (∀ ctx task request record expected spec now faults receipt,
      (fleet.step P i (.mutate ctx task request (.share record expected spec) now) faults).2
        = .receipt (.ok receipt) →
      owner.staged.requests.get? (requestKey ctx task request) = none → spec.followActive = false →
      ∃ gid r, receipt.grant = some gid ∧ owner.staged.records.get? record = some r ∧
        ∀ fleet' call faults' app, Fleet.Runs P (fun _ _ _ => True)
            (fleet.step P i (.mutate ctx task request (.share record expected spec) now) faults).1 fleet' →
          fleet'.Consults P i call faults' app →
          ∀ g ctx' task' r' fields permission destination later values,
            app.grants.get? gid = some g → app.records.get? g.record = some r' →
            app.select ctx' task' g.record fields permission destination later = .ok values →
            app.grantCovers ctx' r' permission fields destination later g = true →
            g.record = record ∧ ∀ f ∈ fields, f.credential = true → values.get? f = r.values.get? f)
    ∧ (∀ ctx task request record expected values now faults receipt,
      (∀ f v, values.get? f = some v → f = .label ∨ f = .notes) →
      (fleet.step P i (.mutate ctx task request (.patch record expected values) now) faults).2
        = .receipt (.ok receipt) →
      ∀ recipient gid g r permission fields destination later,
        owner.app.grants.get? gid = some g → owner.app.records.get? g.record = some r →
        (∀ last, owner.app.lastTime = some last → last ≤ later) →
        owner.app.grantCovers recipient r permission fields destination later g = true →
        ∃ owner' r', ((fleet.step P i (.mutate ctx task request (.patch record expected values) now)
            faults).1.stores i).owner = some owner'
          ∧ owner'.app.grants.get? gid = some g ∧ owner'.app.records.get? g.record = some r'
          ∧ owner'.app.grantCovers recipient r' permission fields destination later g = true) := by
  refine ⟨fun fleet' owner' hruns howner' => sameCredential_later hids hseals hreach howner hruns howner',
    fun _ _ _ _ _ _ _ _ _ _ _ _ _ _ _ hexport hruns hrestore hruns' howner' =>
      sameCredential_restored hids hseals hreach howner hexport hruns rfl hrestore hruns' howner', ?_,
    fun _ _ _ _ _ _ _ _ _ hnotes h _ _ _ _ _ _ _ _ hg hr hlater hcovers =>
      patched_covering hids hseals hreach howner hnotes h hg hr hlater hcovers⟩
  intro ctx task request record expected spec now faults receipt h hfirst hpinned
  obtain ⟨gid, g₀, r, r₁, since, base, hgrant, hr, hrecord, hspec, hversion, hr₁, hlasting, hg₀, hbase,
    hlawful⟩ := shared_lawful hids hseals hreach howner hfirst h
  refine ⟨gid, r, hgrant, hr, ?_⟩
  intro fleet' call faults' app hruns hconsults g ctx' task' r' fields permission destination later values
    hg hr' hselect hcovers
  obtain ⟨-, hevolves⟩ := hlawful.evolves hids hseals hruns hconsults
  -- the grant is the one issued, so the record is at the version it was issued for
  obtain ⟨hfollows, -⟩ := hevolves.follows hids hlasting hg₀ hg
  have hsame : g.record = record := by
    rw [hfollows]
    exact hrecord
  refine ⟨hsame, ?_⟩
  rw [hsame] at hr'
  have hgrows := hevolves.grows hids hlasting hbase hr'
  have hunfollowing : g.spec.followActive = false := by
    rw [hfollows, hspec]
    exact hpinned
  obtain ⟨-, hnow⟩ := covered_version hunfollowing hcovers
  obtain ⟨t, r₂, hselected⟩ := select_eq_ok hselect
  have hlive : r' = r₂ := by
    have hfound := hselected.record.found
    rw [hsame, hr', Option.some.injEq] at hfound
    exact hfound
  intro f hf hcredential
  rw [hselected.values f, if_pos hf, ← hlive, hgrows.credential (hlive ▸ hselected.record.live) ?_ f hcredential,
    hr₁]
  rw [hnow, hfollows, hr₁]
  exact hversion

end Runs

/-- Alice holds a login under a task that lets her share its password with Bob. -/
def importedVault : Fleet :=
  ((referenceVault.step .reference 0
      (.approveTask (.fromAuthenticatedAdmin "owner" "human" "home") aliceTask 3) []).1.step .reference 0
    (.importForTask (.fromAuthenticatedAdmin "owner" "human" "home") 1 5 .login sharedLogin.values 4) []).1

theorem importedVault_reachable : Fleet.Reachable .reference importedVault :=
  ((Fleet.Reachable.start.step 0 _ []).step 0 _ []).step 0 _ []

/-- A grant to Bob of the password, for the version the record has. -/
def pinnedSpec : GrantSpec := { sharedGrant.spec with followActive := false }

theorem credential_pinned_importedVault : ∃ (gid : Uuid) (r : Record), ∀ fleet' call faults' app,
    Fleet.Runs .reference (fun _ _ _ => True) (importedVault.step .reference 0
      (.mutate (.fromAuthenticatedPeer "owner" "alice" "home") 1 6 (.share 6 1 pinnedSpec) 5) []).1 fleet' →
    fleet'.Consults .reference 0 call faults' app →
    ∀ g ctx' task' r' fields permission destination later values,
      app.grants.get? gid = some g → app.records.get? g.record = some r' →
      app.select ctx' task' g.record fields permission destination later = .ok values →
      app.grantCovers ctx' r' permission fields destination later g = true →
      g.record = 6 ∧ ∀ f ∈ fields, f.credential = true → values.get? f = r.values.get? f := by
  have hshared : (importedVault.step .reference 0 (.mutate
      (.fromAuthenticatedPeer "owner" "alice" "home") 1 6 (.share 6 1 pinnedSpec) 5) []).2.issued.isSome
        = true := by decide +kernel
  have hfirst : ((importedVault.stores 0).owner.any fun owner =>
      owner.staged.requests.get? (requestKey (.fromAuthenticatedPeer "owner" "alice" "home") 1 6)
        == none) = true := by decide +kernel
  rw [Option.any_eq_true_iff_get] at hfirst
  obtain ⟨hsome, hfirst⟩ := hfirst
  obtain ⟨owner, howner⟩ := Option.isSome_iff_exists.mp hsome
  simp only [howner, Option.get_some, beq_iff_eq] at hfirst
  obtain ⟨-, -, hpinned, -⟩ := credential_pinned Platform.reference_freshIds Platform.reference_seals
    importedVault_reachable howner
  obtain ⟨receipt, hissued⟩ := Option.isSome_iff_exists.mp hshared
  obtain ⟨gid, r, -, -, h⟩ := hpinned _ 1 6 6 1 pinnedSpec 5 [] receipt (Answer.issued_eq_some hissued) hfirst rfl
  exact ⟨gid, r, h⟩

end Credman
