import Credman.Validation
import Credman.Reference

/-! Every access rests on a chain of human approvals. -/
namespace Credman

open Library

/-- The human approval a grant was issued under, by its issuer. -/
inductive GrantApproved (g : Grant) (issuer : TaskApproval) (r : Record) : Prop
  /-- An agent shares its own record, within the share bounds of its task. -/
  | agent (bounds : ShareBounds) (issued : g.adminIssued = false)
    (share : issuer.share = some bounds)
    (creator : issuer.principal = r.createdBy) (task : issuer.id = r.task)
    (may_share : Permission.accessGrant ∈ issuer.permissions)
    (recipient : g.spec.recipient ∈ bounds.recipients)
    (fields : g.spec.fields ⊆ bounds.fields)
    (permissions : g.spec.permissions ⊆ bounds.permissions)
    (destinations : g.spec.destinations ⊆ bounds.destinations)
    (expires : g.spec.expiresAt ≤ bounds.expiresAt)
    (follow : g.spec.followActive = true → bounds.allowFollowActive = true)
  /-- An administrator shares within the limits of the issuer task itself. -/
  | admin (issued : g.adminIssued = true)
    (fields : g.spec.fields ⊆ issuer.fields)
    (permissions : g.spec.permissions ⊆ issuer.permissions)
    (destinations : g.spec.destinations ⊆ issuer.destinations)
    (expires : g.spec.expiresAt ≤ issuer.expiresAt)

/-- A grant that carries one access. -/
structure GrantChain (app : Application) (ctx : AuthenticatedContext) (record : Uuid) (r : Record)
    (permission : Permission) (fields : Fields) (destination : Option String) (now : Time)
    (id : Uuid) (g : Grant) (issuer : TaskApproval) : Prop where
  found : app.grants.get? id = some g
  record : g.record = record
  unrevoked : g.revoked = false
  unexpired : now < g.spec.expiresAt
  recipient : g.spec.recipient = ctx.principal
  permission : permission ∈ g.spec.permissions
  fields : fields ⊆ g.spec.fields
  destination : ∀ d, destination = some d → d ∈ g.spec.destinations
  version : if g.spec.followActive then g.version ≤ r.secretVersion
    else g.version = r.secretVersion
  issuer_found : app.tasks.get? g.issuerTask = some issuer
  issuer_unrevoked : g.issuerTask ∉ app.revokedTasks
  issuer_unexpired : now < issuer.expiresAt
  approved : GrantApproved g issuer r

theorem GrantSound.approved {id : Uuid} {g : Grant} {r : Record} {t : TaskApproval}
    (h : GrantSound id g r t) : GrantApproved g t r := by
  cases hissued : g.adminIssued with
  | true => exact .admin hissued h.fields h.permissions h.destinations h.expires_le
  | false =>
    obtain ⟨bounds, hshare, hcreator, htask, hmay, hfollow, hrecipient, hfields, hpermissions,
      hdestinations, hexpires⟩ := h.shared hissued
    exact .agent bounds hissued hshare hcreator htask hmay hrecipient hfields hpermissions
      hdestinations hexpires hfollow

namespace Application

theorem grantCovers_iff {app : Application} {ctx : AuthenticatedContext} {r : Record}
    {permission : Permission} {fields : Fields} {destination : Option String} {now : Time}
    {g : Grant} :
    app.grantCovers ctx r permission fields destination now g = true ↔
      g.record = r.id ∧ g.revoked = false ∧ now < g.spec.expiresAt
        ∧ (if g.spec.followActive then g.version ≤ r.secretVersion
            else g.version = r.secretVersion)
        ∧ g.issuerTask ∉ app.revokedTasks
        ∧ (∃ issuer, app.tasks.get? g.issuerTask = some issuer ∧ now < issuer.expiresAt)
        ∧ g.spec.recipient = ctx.principal ∧ permission ∈ g.spec.permissions
        ∧ fields ⊆ g.spec.fields ∧ ∀ d, destination = some d → d ∈ g.spec.destinations := by
  cases hf : g.spec.followActive <;>
    simp [grantCovers, hf, Option.any_eq_true, Option.all_eq_true, and_assoc]

/-- In a valid application a covering grant stands on the approval of its issuer. -/
theorem Valid.grantChain {P : Platform} {app : Application} (hvalid : app.Valid P)
    {ctx : AuthenticatedContext} {record : Uuid} {r : Record} {permission : Permission}
    {fields : Fields} {destination : Option String} {now : Time} {id : Uuid} {g : Grant}
    (hr : app.records.get? record = some r) (hg : app.grants.get? id = some g)
    (hcovers : app.grantCovers ctx r permission fields destination now g = true) :
    ∃ issuer, GrantChain app ctx record r permission fields destination now id g issuer := by
  obtain ⟨hrecord, hrevoked, hexpires, hversion, hissuer, ⟨issuer, hfound, hunexpired⟩, hrecipient,
    hpermission, hfields, hdestination⟩ := grantCovers_iff.mp hcovers
  obtain ⟨t, -, hsound⟩ := hvalid.records record r hr
  rw [← hsound.id_eq] at hrecord
  obtain ⟨r', t', hr', ht', hgrant⟩ := hvalid.grants id g hg
  rw [hrecord, hr, Option.some.injEq] at hr'
  rw [hfound, Option.some.injEq] at ht'
  subst hr' ht'
  exact ⟨issuer, hg, hrecord, hrevoked, hexpires, hrecipient, hpermission, hfields, hdestination,
    hversion, hfound, hissuer, hunexpired, hgrant.approved⟩

/-- No selection succeeds without an unbroken chain of human approvals behind it. -/
theorem select_approved {P : Platform} {app : Application} (hvalid : app.validate P = .ok ())
    {ctx : AuthenticatedContext} {task record : Uuid} {fields : Fields} {permission : Permission}
    {destination : Option String} {now : Time} {values : SecretInput}
    (hselect : app.select ctx task record fields permission destination now = .ok values) :
    ∃ t r, TaskHeld app ctx task now t ∧ app.records.get? record = some r ∧ r.deleted = false
      ∧ Permits t r permission fields destination
      ∧ ((r.createdBy = ctx.principal ∧ r.task = task)
        ∨ ∃ id g issuer,
            GrantChain app ctx record r permission fields destination now id g issuer) := by
  have hvalid := validate_eq_ok.mp hvalid
  obtain ⟨t, r, h⟩ := select_eq_ok hselect
  obtain ⟨hpermits, hauthority⟩ := can_iff.mp h.allowed
  have hid : task = t.id := (hvalid.tasks task t h.task.found).id_eq
  refine ⟨t, r, h.task, h.record.found, h.record.live, hpermits, ?_⟩
  rcases hauthority with ⟨hcreator, htask⟩ | ⟨id, g, hg, hcovers⟩
  · exact .inl ⟨hcreator, hid ▸ htask⟩
  · obtain ⟨issuer, hchain⟩ := hvalid.grantChain h.record.found hg hcovers
    exact .inr ⟨id, g, issuer, hchain⟩

end Application

/-! A vault in which a second agent reads a password through a grant. -/

def aliceTask : TaskApproval where
  id := 1
  owner := "owner"
  principal := "alice"
  workspace := "home"
  service := "mail"
  origin := "https://mail.example"
  fields := {.username, .password}
  permissions := {.secretRead, .secretUse, .secretWrite, .accessGrant}
  destinations := {"browser"}
  expiresAt := 1000
  share := some { recipients := {"bob"}, fields := {.password}, permissions := {.secretRead}
                  destinations := ∅, expiresAt := 500, allowFollowActive := true }

def bobTask : TaskApproval := { aliceTask with id := 2, principal := "bob", share := none }

def sharedLogin : Record where
  id := 10
  owner := "owner"
  workspace := "home"
  createdBy := "alice"
  task := 1
  service := "mail"
  origin := "https://mail.example"
  kind := .login
  revision := 2
  secretVersion := 1
  values := ((∅ : SecretInput).insert .username "alice").insert .password "hunter2"
  signup := .pending
  deleted := false
  restored := false

def sharedGrant : Grant where
  record := 10
  spec := { recipient := "bob", fields := {.password}, permissions := {.secretRead}
            destinations := ∅, expiresAt := 400, followActive := true }
  revoked := false
  version := 1
  issuerTask := 1
  adminIssued := false

def sharedVault : Application where
  tasks := ((∅ : OrdMap Uuid TaskApproval).insert 1 aliceTask).insert 2 bobTask
  records := (∅ : OrdMap Uuid Record).insert 10 sharedLogin
  grants := (∅ : OrdMap Uuid Grant).insert 20 sharedGrant
  requests := ((∅ : OrdMap RequestKey Remembered).insert
      { owner := "owner", principal := "alice", task := 1, id := 5 }
      { fingerprint := [1], result := { record := 10, revision := 1, grant := none }
        kind := .create, storedAt := some 3 }).insert
      { owner := "owner", principal := "alice", task := 1, id := 6 }
      { fingerprint := [2], result := { record := 10, revision := 2, grant := some 20 }
        kind := .share, storedAt := some 4 }
  lastTime := some 4
  generation := 5

/-- The chain behind a read by the recipient of a grant. -/
theorem select_approved_sharedVault :
    sharedVault.validate .reference = .ok ()
      ∧ sharedVault.select (.fromAuthenticatedPeer "owner" "bob" "home") 2 10 {.password}
          .secretRead none 9 = .ok ((∅ : SecretInput).insert .password "hunter2")
      ∧ ∃ t r, Application.TaskHeld sharedVault (.fromAuthenticatedPeer "owner" "bob" "home") 2 9 t
        ∧ sharedVault.records.get? 10 = some r ∧ r.deleted = false
        ∧ Application.Permits t r .secretRead {.password} none
        ∧ ((r.createdBy = "bob" ∧ r.task = 2)
          ∨ ∃ id g issuer, GrantChain sharedVault (.fromAuthenticatedPeer "owner" "bob" "home") 10 r
              .secretRead {.password} none 9 id g issuer) := by
  have hvalid : sharedVault.validate .reference = .ok () := by decide +kernel
  have hselect : sharedVault.select (.fromAuthenticatedPeer "owner" "bob" "home") 2 10 {.password}
      .secretRead none 9 = .ok ((∅ : SecretInput).insert .password "hunter2") := by
    decide +kernel
  exact ⟨hvalid, hselect, Application.select_approved hvalid hselect⟩

end Credman
