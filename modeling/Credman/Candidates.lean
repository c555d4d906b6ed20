import Credman.Publishable
import Credman.Secrets

/-! The candidate of every broker operation the policy accepts can be published. -/
namespace Credman

open Library Library.Checked

/-- Deletions and revocations are the two mutations an admin may make outside the task's scope. -/
def Mutation.withdraws : Mutation → Bool
  | .delete .. | .revoke .. => true
  | _ => false

/-- The mutations that take a verified login back: a new credential, or another report. -/
def Mutation.unverifies : Mutation → Bool
  | .patch _ _ values => values.changesCredential
  | .reportOutcome .. => true
  | _ => false

namespace Application

variable {P : Platform} {app : Application}

/-- The task and the record are of one service and origin. -/
def OneService (app : Application) (task id : Uuid) : Prop :=
  ∀ t r, app.tasks.get? task = some t → app.records.get? id = some r →
    r.service = t.service ∧ r.origin = t.origin

/-- What a share relies on: its moment, and that the identifier it draws is new. -/
def Issuable (app : Application) (op : Mutation) (effective : Time) (id : Uuid) : Prop :=
  op.cachedKind = .share → 0 ≤ effective ∧ id ≠ 0 ∧ app.grants.get? id = none

/-! What the authorization of a mutation says about its record and its grants. -/

theorem grantCovers_fields {ctx : AuthenticatedContext} {r : Record} {permission : Permission}
    {fields : Fields} {destination : Option String} {now : Time} {g : Grant}
    (h : app.grantCovers ctx r permission fields destination now g = true) :
    g.record = r.id ∧ permission ∈ g.spec.permissions ∧ fields ⊆ g.spec.fields := by
  unfold grantCovers at h
  simp only [Bool.and_eq_true, beq_iff_eq, decide_eq_true_eq] at h
  exact ⟨h.1.1.1.1.1.1.1.1.1, h.1.1.2, h.1.2⟩

/-- The part of a share that lies within what the human approved for the task. -/
structure Bounded (app : Application) (ctx : AuthenticatedContext) (t : TaskApproval) (r : Record)
    (spec : GrantSpec) (now : Time) (bounds : ShareBounds) : Prop where
  approved : t.share = some bounds
  can_share : app.can ctx t r .accessGrant spec.fields none now = true
  can_all : ∀ permission ∈ spec.permissions, app.can ctx t r permission spec.fields none now = true
  active : spec.followActive = true → bounds.allowFollowActive = true
  recipient : spec.recipient ∈ bounds.recipients
  fields : spec.fields ⊆ bounds.fields
  permissions : spec.permissions ⊆ bounds.permissions
  destinations : spec.destinations ⊆ bounds.destinations
  expires : spec.expiresAt ≤ bounds.expiresAt

/-- The part of an admin's share that lies within the task. -/
structure Contained (t : TaskApproval) (r : Record) (spec : GrantSpec) : Prop where
  service : r.service = t.service
  origin : r.origin = t.origin
  fields : spec.fields ⊆ t.fields
  permissions : spec.permissions ⊆ t.permissions
  destinations : spec.destinations ⊆ t.destinations
  expires : spec.expiresAt ≤ t.expiresAt

theorem authorizeShare_eq_ok {ctx : AuthenticatedContext} {t : TaskApproval} {r : Record}
    {spec : GrantSpec} {now : Time} (h : app.authorizeShare ctx t r spec now = .ok ()) :
    spec.malformed r now = false
      ∧ (ctx.admin = false → ∃ bounds, app.Bounded ctx t r spec now bounds)
      ∧ (ctx.admin = true → Contained t r spec) := by
  unfold authorizeShare at h
  rw [guard_eq_ok, Bool.not_eq_true] at h
  obtain ⟨hmalformed, h⟩ := h
  refine ⟨hmalformed, fun hagent => ?_, fun hadmin => ?_⟩
  · rw [if_pos (by simp [hagent])] at h
    cases hshare : t.share with
    | none => simp [hshare] at h
    | some bounds =>
      simp only [hshare] at h
      rw [guard_eq_ok, guard_eq_ok] at h
      obtain ⟨hdenied, heach, -⟩ := h
      simp only [Bool.or_eq_true, Bool.and_eq_true, Bool.not_eq_true', not_or, Bool.not_eq_false,
        decide_eq_false_iff_not, not_not, decide_eq_true_eq, not_lt] at hdenied
      refine ⟨bounds, hshare, hdenied.1.1.1.1.1.1, fun permission hmem => ?_, fun hfollow => ?_,
        hdenied.1.1.1.1.2, hdenied.1.1.1.2, hdenied.1.1.2, hdenied.1.2, hdenied.2⟩
      · by_contra hcan
        exact heach ⟨permission, hmem, by simpa using hcan⟩
      · by_contra hactive
        exact hdenied.1.1.1.1.1.2 ⟨hfollow, by simpa using hactive⟩
  · rw [if_neg (by simp [hadmin]), guard_eq_ok] at h
    obtain ⟨hdenied, -⟩ := h
    simp only [Bool.or_eq_true, bne_iff_ne, ne_eq, not_or, not_not, Bool.not_eq_true',
      decide_eq_false_iff_not, decide_eq_true_eq, not_lt] at hdenied
    exact ⟨hdenied.1.1.1.1.1, hdenied.1.1.1.1.2, hdenied.1.1.1.2, hdenied.1.1.2, hdenied.1.2,
      hdenied.2⟩

theorem authorizeTarget_scope {ctx : AuthenticatedContext} {t : TaskApproval} {op : Mutation}
    {id : Uuid} {r : Record} {now : Time} (h : app.authorizeTarget ctx t op id r now = .ok ())
    (htarget : op.target = some id) (hadmin : ctx.admin = true → op.withdraws = false) :
    r.service = t.service ∧ r.origin = t.origin := by
  have hscope : ∀ {permission fields destination},
      app.can ctx t r permission fields destination now = true →
        r.service = t.service ∧ r.origin = t.origin := fun hcan =>
    ⟨(can_iff.mp hcan).1.service, (can_iff.mp hcan).1.origin⟩
  cases op with
  | create kind values => cases htarget
  | generate kind username policy => cases htarget
  | patch record expected values =>
    simp only [authorizeTarget, authorizePatch] at h
    split_ifs at h with hvalid hcan
    exact hscope (by simpa using hcan)
  | delete record expected =>
    have hagent : ctx.admin = false := by
      by_contra hne
      cases hadmin (by simpa using hne)
    simp only [authorizeTarget] at h
    split_ifs at h with hcan
    exact hscope (by simpa [hagent] using hcan)
  | share record expected grant =>
    obtain ⟨-, hbounded, hcontained⟩ := authorizeShare_eq_ok h
    cases hctx : ctx.admin with
    | false =>
      obtain ⟨bounds, hshare⟩ := hbounded hctx
      exact hscope hshare.can_share
    | true => exact ⟨(hcontained hctx).service, (hcontained hctx).origin⟩
  | revoke record expected grant =>
    have hagent : ctx.admin = false := by
      by_contra hne
      cases hadmin (by simpa using hne)
    simp only [authorizeTarget] at h
    split at h
    · cases h
    · split_ifs at h with hcan
      simp only [hagent, Bool.not_false, Bool.true_and, Bool.or_eq_true, Bool.not_eq_true',
        not_or, Bool.not_eq_false] at hcan
      exact hscope hcan.2
  | reportOutcome record expected state =>
    simp only [authorizeTarget] at h
    split_ifs at h with hcan
    simp only [Bool.or_eq_true, Bool.not_eq_true', not_or, Bool.not_eq_false] at hcan
    exact hscope hcan.2

/-- A grant stays in order while its record only gains fields or is deleted with it. -/
theorem GrantSound.follows {gid : Uuid} {g g' : Grant} {s s' : Record} {t : TaskApproval}
    (h : GrantSound gid g s t) (hf : g.Follows g') (hscope : sameScope t s' = sameScope t s)
    (hversion : s.secretVersion ≤ s'.secretVersion) (hcreator : s'.createdBy = s.createdBy)
    (htask : s'.task = s.task) (hdead : s'.deleted = true → g'.revoked = true)
    (hheld : s'.deleted = false → s.deleted = false ∧ s.values.fields ⊆ s'.values.fields) :
    GrantSound gid g' s' t := by
  have hspec : g'.spec = g.spec := by rw [hf.1]
  have hgversion : g'.version = g.version := by rw [hf.1]
  have hadmin : g'.adminIssued = g.adminIssued := by rw [hf.1]
  refine ⟨h.id_ne, ?_, ?_, ?_, hdead, ?_, ?_, ?_, ?_, ?_, ?_, ?_, ?_, ?_, ?_, ?_, ?_, ?_⟩
  case refine_1 =>
    rw [hscope]
    exact h.scope
  case refine_2 =>
    rw [hgversion]
    exact h.version_pos
  case refine_3 =>
    rw [hgversion]
    exact h.version_le.trans hversion
  case refine_15 =>
    rw [hspec]
    intro hlive
    obtain ⟨hbefore, hmore⟩ := hheld hlive
    exact (h.held hbefore).trans hmore
  case refine_16 =>
    rw [hspec, hadmin, hcreator, htask]
    exact h.shared
  all_goals rw [hspec]
  · exact h.fields_ne
  · exact h.permissions_ne
  · exact h.no_access
  · exact h.recipient_ne
  · exact h.recipient_short
  · exact h.fields
  · exact h.permissions
  · exact h.destinations
  · exact h.expires_gt
  · exact h.expires_le
  · exact h.usable

/-- The grants of a changed application are in order if the new one is, and none outlives
its record. -/
theorem Changed.grantsSound {op : Mutation} {receipt : Receipt} {id : Uuid} {r r' : Record}
    {mid : Application} (h : app.Valid P) (hc : app.Changed op receipt id r r' mid)
    (hlive : r.deleted = false)
    (hfields : r'.deleted = false → r.values.fields ⊆ r'.values.fields)
    (hdead : r'.deleted = true → ∀ gid g, mid.grants.get? gid = some g → g.record = id →
      g.revoked = true)
    (hnew : op.cachedKind = .share → ∀ gid g, receipt.grant = some gid →
      mid.grants.get? gid = some g → g.record = id
        ∧ ∃ t, app.tasks.get? g.issuerTask = some t ∧ GrantSound gid g r' t)
    (gid : Uuid) (g' : Grant) (hg' : mid.grants.get? gid = some g') :
    ∃ s t, mid.records.get? g'.record = some s ∧ app.tasks.get? g'.issuerTask = some t
      ∧ GrantSound gid g' s t := by
  rcases hc.granted gid g' hg' with ⟨g, hg, hf⟩ | ⟨hshare, hgid⟩
  · have hrecord : g'.record = g.record := by rw [hf.1]
    have hissuer : g'.issuerTask = g.issuerTask := by rw [hf.1]
    obtain ⟨s, t, hs, ht, hsound⟩ := h.grants gid g hg
    by_cases hid : g.record = id
    · rw [hid, hc.found, Option.some.injEq] at hs
      subst hs
      refine ⟨r', t, by rw [hrecord, hid]; exact hc.record_self, by rw [hissuer]; exact ht, ?_⟩
      exact GrantSound.follows hsound hf (hc.sameScope_eq t) hc.version_le hc.createdBy_eq hc.task_eq
        (fun hdeleted => hdead hdeleted gid g' hg' (hrecord.trans hid))
        fun hstill => ⟨hlive, hfields hstill⟩
    · refine ⟨s, t, by rw [hrecord]; exact hc.records_some.mpr (.inr ⟨hid, hs⟩),
        by rw [hissuer]; exact ht, ?_⟩
      exact GrantSound.follows hsound hf rfl (le_refl _) rfl rfl
        (fun hdeleted => hf.2 (hsound.dead hdeleted)) fun hstill => ⟨hstill, fun _ hx => hx⟩
  · obtain ⟨hid, t, ht, hsound⟩ := hnew hshare gid g' hgid hg'
    exact ⟨r', t, by rw [hid]; exact hc.record_self, ht, hsound⟩

theorem Changed.recordSound {op : Mutation} {receipt : Receipt} {id : Uuid} {r r' : Record}
    {mid : Application} {t : TaskApproval} (hc : app.Changed op receipt id r r' mid)
    (hroom : r.revision ≠ maxU64) (h : RecordSound id r t)
    (herased : r'.deleted = true → r'.values.isEmpty = true)
    (hvalues : r'.deleted = false → r'.values.valid = true ∧ r'.values.fields ⊆ t.fields
      ∧ r'.kind.fits r'.values = true) : RecordSound id r' t := by
  have hid : r'.id = r.id := by rw [hc.identity]
  refine ⟨h.id_ne, h.id_eq.trans hid.symm, ?_, ?_, ?_, ?_, ?_, h.writable, herased,
    fun hlive => (hvalues hlive).1, fun hlive => (hvalues hlive).2.1,
    fun hlive => (hvalues hlive).2.2⟩
  · rw [hc.sameScope_eq]
    exact h.scope
  · rw [hc.createdBy_eq]
    exact h.creator
  · rw [hc.revision_eq]
    exact lt_trans h.revision_pos ((lt_succ_iff hroom).mpr (le_refl _))
  · exact lt_of_lt_of_le h.version_pos hc.version_le
  · have hle := UInt64.le_iff_toNat_le.mp h.version_le
    rw [hc.revision_eq, hc.version, UInt64.le_iff_toNat_le, toNat_succ hroom]
    split_ifs with hpatch
    · rw [toNat_succ (hc.version_room hpatch)]
      omega
    · omega

/-- What the policy has checked of a mutation that keeps its record and the grants in order. -/
structure Orderly (app : Application) (task : Uuid) (op : Mutation) (receipt : Receipt)
    (id : Uuid) (r r' : Record) (mid : Application) : Prop where
  signup : r'.signup = .verifiedLogin → r.signup = .verifiedLogin ∧ r'.secretVersion = r.secretVersion
  erased : r'.deleted = true → r'.values.isEmpty = true
  values : ∀ o, app.tasks.get? r.task = some o → r'.deleted = false → r'.values.valid = true
    ∧ r'.values.fields ⊆ o.fields ∧ r'.kind.fits r'.values = true
  fields : r'.deleted = false → r.values.fields ⊆ r'.values.fields
  dead : r'.deleted = true → ∀ gid g, mid.grants.get? gid = some g → g.record = id →
    g.revoked = true
  new_grant : op.cachedKind = .share → ∀ gid g, receipt.grant = some gid →
    mid.grants.get? gid = some g → g.record = id
      ∧ ∃ t, app.tasks.get? g.issuerTask = some t ∧ GrantSound gid g r' t
  size : mid.grants.size ≤ limit
  kind : ∀ key cached, key.task = task → cached.kind = op.cachedKind → cached.result = receipt →
    KindSound mid.grants key cached r'

theorem Targeted.alive {ctx : AuthenticatedContext} {t : TaskApproval} {op : Mutation} {now : Time}
    {id : Uuid} {r : Record} (h : app.Targeted ctx t op now false id r) : r.deleted = false := by
  by_contra hdeleted
  exact absurd (h.live (by simpa using hdeleted)).1 nofun

section Ops

variable {ctx : AuthenticatedContext} {task id : Uuid} {t : TaskApproval} {effective : Time}
  {expected : UInt64} {r : Record}

/-- The values a live record already holds. -/
theorem values_of_live (h : app.Valid P) (hr : app.records.get? id = some r)
    (hlive : r.deleted = false) {o : TaskApproval} (ho : app.tasks.get? r.task = some o) :
    r.values.valid = true ∧ r.values.fields ⊆ o.fields ∧ r.kind.fits r.values = true := by
  obtain ⟨t, ht, hsound⟩ := h.records id r hr
  rw [ho, Option.some.injEq] at ht
  subst ht
  exact ⟨hsound.values hlive, hsound.fields hlive, hsound.kind hlive⟩

/-- A patch stays within the fields of the record or of the task it was created under. -/
theorem patch_fields (h : app.Valid P) (ht : TaskHeld app ctx task effective t)
    (hr : app.records.get? id = some r) (hlive : r.deleted = false) {fields : Fields}
    (hcan : app.can ctx t r .secretWrite fields none effective = true) {o : TaskApproval}
    (ho : app.tasks.get? r.task = some o) : fields ⊆ o.fields := by
  obtain ⟨hpermits, hown | ⟨gid, g, hg, hcovers⟩⟩ := can_iff.mp hcan
  · have hid := (h.tasks task t ht.found).id_eq
    rw [hown.2, ← hid, ht.found, Option.some.injEq] at ho
    exact ho ▸ hpermits.fields
  · obtain ⟨hrecord, -, hsub⟩ := grantCovers_fields hcovers
    obtain ⟨s, issuer, hs, -, hsound⟩ := h.grants gid g hg
    obtain ⟨o', ho', hrsound⟩ := h.records id r hr
    rw [hrecord, ← hrsound.id_eq, hr, Option.some.injEq] at hs
    subst hs
    rw [ho, Option.some.injEq] at ho'
    subst ho'
    exact (hsub.trans (hsound.held hlive)).trans (hrsound.fields hlive)

theorem fits_extend {kind : CredentialKind} {values extra : SecretInput}
    (hfits : kind.fits values = true)
    (hextra : ((kind == .login && extra.contains .apiKey)
      || (kind == .apiKey && extra.contains .password)) = false) :
    kind.fits (values.extend extra) = true := by
  unfold CredentialKind.fits at hfits ⊢
  rw [SecretInput.contains_extend, SecretInput.contains_extend]
  cases kind <;> simp_all

theorem orderly_patch (h : app.Valid P) (ht : TaskHeld app ctx task effective t)
    {values : SecretInput} {r' : Record}
    (hr : Targeted app ctx t (.patch id expected values) effective false id r)
    (hpatched : patched values r = .ok r') :
    app.Orderly task (.patch id expected values)
      { record := id, revision := r'.revision, grant := none } id r r' (app.setRecord id r') := by
  have hlive := hr.alive
  have hallowed := hr.allowed
  simp only [authorizeTarget, authorizePatch, guard_eq_ok, Bool.not_eq_true', Bool.not_eq_false]
    at hallowed
  obtain ⟨hvalid, hcan, hkind, -⟩ := hallowed
  rw [Bool.not_eq_true] at hkind
  have hvalues : r'.values = r.values.extend values ∧ r'.deleted = r.deleted ∧ r'.kind = r.kind
      ∧ (r'.signup = r.signup ∧ r'.secretVersion = r.secretVersion ∨ r'.signup = .pending) := by
    unfold patched at hpatched
    split_ifs at hpatched
    · cases hpatched
      exact ⟨rfl, rfl, rfl, .inr rfl⟩
    · cases hpatched
      exact ⟨rfl, rfl, rfl, .inl ⟨rfl, rfl⟩⟩
  obtain ⟨hextend, hdeleted, hsame, hsignup⟩ := hvalues
  have hstill : r'.deleted = true → False := by
    rw [hdeleted, hlive]
    exact Bool.false_ne_true
  have hcached : (Mutation.patch id expected values).cachedKind = .patch
      ∨ (Mutation.patch id expected values).cachedKind = .metadataPatch := by
    simp only [Mutation.cachedKind]
    split_ifs
    · exact .inl rfl
    · exact .inr rfl
  refine ⟨?_, fun hd => (hstill hd).elim, ?_, ?_, fun hd => (hstill hd).elim, ?_,
    h.sizes.grants, ?_⟩
  · intro hverified
    rcases hsignup with ⟨hsignup, hversion⟩ | hsignup
    · exact ⟨hsignup ▸ hverified, hversion⟩
    · rw [hsignup] at hverified
      cases hverified
  · intro o ho _
    obtain ⟨hold, hfields, hfits⟩ := values_of_live h hr.found hlive ho
    rw [hextend, hsame, SecretInput.fields_extend]
    exact ⟨SecretInput.valid_extend hold hvalid,
      Finset.union_subset hfields (patch_fields h ht hr.found hlive hcan ho),
      fits_extend hfits hkind⟩
  · intro _
    rw [hextend, SecretInput.fields_extend]
    exact Finset.subset_union_left
  · intro hshare
    rcases hcached with hk | hk <;> rw [hk] at hshare <;> cases hshare
  · intro key cached _ hk hresult
    unfold KindSound
    rcases hcached with hp | hp <;> rw [hk, hp] <;> dsimp only <;> rw [hresult]

theorem orderly_reportOutcome (h : app.Valid P) {state : SignupState}
    (hr : Targeted app ctx t (.reportOutcome id expected state) effective false id r) :
    app.Orderly task (.reportOutcome id expected state)
      { record := id, revision := r.revision + 1, grant := none } id r
      { r with signup := state, revision := r.revision + 1 }
      (app.setRecord id { r with signup := state, revision := r.revision + 1 }) := by
  have hlive := hr.alive
  have hallowed := hr.allowed
  simp only [authorizeTarget, guard_eq_ok, Bool.or_eq_true, not_or, beq_iff_eq] at hallowed
  refine ⟨fun hverified => absurd hverified hallowed.1.1, fun hd => ?_, ?_, fun _ _ hx => hx,
    fun hd => ?_, (fun h => by cases h), h.sizes.grants, ?_⟩
  · rw [show r.deleted = true from hd] at hlive
    cases hlive
  · exact fun o ho _ => values_of_live h hr.found hlive ho
  · rw [show r.deleted = true from hd] at hlive
    cases hlive
  · intro key cached _ hk hresult
    unfold KindSound
    rw [hk, hresult]
    rfl

theorem orderly_delete (h : app.Valid P)
    (hr : Targeted app ctx t (.delete id expected) effective false id r) :
    app.Orderly task (.delete id expected)
      { record := id, revision := r.revision + 1, grant := none } id r
      { r with deleted := true, values := ∅, revision := r.revision + 1 }
      ((app.setRecord id { r with deleted := true, values := ∅, revision := r.revision + 1
        }).revokeGrantsOf id) := by
  have hget : ∀ gid g, ((app.setRecord id { r with
      deleted := true, values := ∅, revision := r.revision + 1 }).revokeGrantsOf id).grants.get? gid
        = some g → g.record = id → g.revoked = true := by
    intro gid g hg hrecord
    change (app.grants.mapVals _).get? gid = some g at hg
    rw [OrdMap.get?_mapVals, Option.map_eq_some_iff] at hg
    obtain ⟨old, -, rfl⟩ := hg
    split_ifs with hid
    · rfl
    · rw [if_neg hid] at hrecord
      exact absurd (beq_iff_eq.mpr hrecord) hid
  refine ⟨fun hverified => ⟨hverified, rfl⟩, fun _ => rfl, nofun, nofun, fun _ => hget, nofun, ?_, ?_⟩
  · refine le_trans (OrdMap.size_le_of_keys fun gid g hg => ?_) h.sizes.grants
    change (app.grants.mapVals _).get? gid = some g at hg
    rw [OrdMap.get?_mapVals, Option.map_eq_some_iff] at hg
    exact ⟨hg.choose, hg.choose_spec.1⟩
  · intro key cached _ hk hresult
    unfold KindSound
    rw [hk, hresult]
    exact ⟨rfl, rfl⟩

theorem orderly_revoke (h : app.Valid P) {grant : Uuid} {g : Grant}
    (hr : Targeted app ctx t (.revoke id expected grant) effective false id r)
    (hg : app.grants.get? grant = some g) :
    app.Orderly task (.revoke id expected grant)
      { record := id, revision := r.revision + 1, grant := some grant } id r
      { r with revision := r.revision + 1 }
      ((app.setGrant grant { g with revoked := true }).setRecord id
        { r with revision := r.revision + 1 }) := by
  have hlive := hr.alive
  have hrecord : g.record = id := by
    have hallowed := hr.allowed
    simp only [authorizeTarget, hg, guard_eq_ok, Bool.or_eq_true, not_or, bne_iff_ne, ne_eq,
      not_not] at hallowed
    exact hallowed.1.1
  refine ⟨fun hverified => ⟨hverified, rfl⟩, fun hd => ?_, ?_, fun _ _ hx => hx, fun hd => ?_,
    (fun h => by cases h), ?_, ?_⟩
  · rw [show r.deleted = true from hd] at hlive
    cases hlive
  · exact fun o ho _ => values_of_live h hr.found hlive ho
  · rw [show r.deleted = true from hd] at hlive
    cases hlive
  · change (app.grants.insert grant _).size ≤ limit
    rw [OrdMap.size_insert_of_some hg]
    exact h.sizes.grants
  · intro key cached _ hk hresult
    unfold KindSound
    rw [hk, hresult]
    exact ⟨grant, { g with revoked := true }, rfl, OrdMap.get?_insert_self _ _ _, hrecord, rfl⟩

/-- The bounds the human approved lie within the task. -/
theorem bounds_within (h : app.Valid P) (ht : app.tasks.get? task = some t) {bounds : ShareBounds}
    (hshare : t.share = some bounds) :
    bounds.destinations ⊆ t.destinations ∧ bounds.expiresAt ≤ t.expiresAt := by
  have hbounded := (h.tasks task t ht).bounded
  simp only [hshare, Option.any_some, ShareBounds.malformed, Bool.or_eq_false_iff,
    Bool.not_eq_false', decide_eq_true_eq, decide_eq_false_iff_not, not_lt] at hbounded
  exact ⟨hbounded.1.1.1.2, hbounded.1.1.2⟩

theorem can_own (h : app.Valid P) {fields : Fields}
    (hcan : app.can ctx t r .accessGrant fields none effective = true) :
    r.createdBy = ctx.principal ∧ r.task = t.id := by
  refine (can_iff.mp hcan).2.resolve_right ?_
  rintro ⟨gid, g, hg, hcovers⟩
  obtain ⟨s, issuer, -, -, hsound⟩ := h.grants gid g hg
  exact hsound.no_access (grantCovers_fields hcovers).2.1

theorem grantSound_share (h : app.Valid P) (ht : TaskHeld app ctx task effective t)
    (hpos : 0 ≤ effective) {spec : GrantSpec} {gid : Uuid} (hne : gid ≠ 0)
    (hr : Targeted app ctx t (.share id expected spec) effective false id r) :
    GrantSound gid {
      record := id, spec, revoked := false, version := r.secretVersion, issuerTask := task
      adminIssued := ctx.admin } { r with revision := r.revision + 1 } t := by
  have hlive := hr.alive
  obtain ⟨o, -, hrsound⟩ := h.records id r hr.found
  obtain ⟨hmalformed, hbounded, hcontained⟩ := authorizeShare_eq_ok hr.allowed
  obtain ⟨hservice, horigin⟩ := authorizeTarget_scope hr.allowed rfl fun _ => rfl
  simp only [GrantSpec.malformed, Bool.or_eq_false_iff, Bool.and_eq_false_iff, Bool.not_eq_false',
    decide_eq_false_iff_not, decide_eq_true_eq, not_le, beq_eq_false_iff_ne] at hmalformed
  obtain ⟨⟨⟨⟨⟨⟨⟨⟨⟨hfields, hpermissions⟩, hexpires⟩, hrecipient⟩, hshort⟩, haccess⟩, hheld⟩, -⟩, -⟩,
    huse⟩ := hmalformed
  have hwithin : spec.fields ⊆ t.fields ∧ spec.permissions ⊆ t.permissions
      ∧ spec.destinations ⊆ t.destinations ∧ spec.expiresAt ≤ t.expiresAt := by
    cases hctx : ctx.admin with
    | true =>
      have hin := hcontained hctx
      exact ⟨hin.fields, hin.permissions, hin.destinations, hin.expires⟩
    | false =>
      obtain ⟨bounds, hin⟩ := hbounded hctx
      obtain ⟨hdest, htime⟩ := bounds_within h ht.found hin.approved
      exact ⟨(can_iff.mp hin.can_share).1.fields,
        fun p hp => (can_iff.mp (hin.can_all p hp)).1.permission,
        hin.destinations.trans hdest, hin.expires.trans htime⟩
  refine ⟨hne, ?_, hrsound.version_pos, le_refl _, ?_, hfields, hpermissions, haccess, hrecipient,
    hshort, hwithin.1, hwithin.2.1, hwithin.2.2.1, ?_, hwithin.2.2.2, ?_, fun _ => hheld, ?_⟩
  · exact sameScope_iff.mpr ⟨ht.owner.trans hr.owner.symm, ht.workspace.trans hr.workspace.symm,
      horigin.symm, hservice.symm⟩
  · intro hd
    rw [show r.deleted = true from hd] at hlive
    cases hlive
  · have hmin : Time.min < 0 := by decide
    exact lt_trans (lt_of_lt_of_le hmin hpos) hexpires
  · intro hin
    exact huse.resolve_left fun hnot => hnot hin
  · intro hagent
    obtain ⟨bounds, hin⟩ := hbounded hagent
    obtain ⟨hcreator, htask⟩ := can_own h hin.can_share
    exact ⟨bounds, hin.approved, ht.principal.trans hcreator.symm, htask.symm,
      (can_iff.mp hin.can_share).1.permission, hin.active, hin.recipient, hin.fields,
      hin.permissions, hin.destinations, hin.expires⟩

theorem orderly_share (h : app.Valid P) (ht : TaskHeld app ctx task effective t)
    (hpos : 0 ≤ effective) {spec : GrantSpec} {gid : Uuid} (hne : gid ≠ 0)
    (hfresh : app.grants.get? gid = none) (hroom : app.grants.size < limit)
    (hr : Targeted app ctx t (.share id expected spec) effective false id r) :
    app.Orderly task (.share id expected spec)
      { record := id, revision := r.revision + 1, grant := some gid } id r
      { r with revision := r.revision + 1 }
      ((app.setGrant gid {
        record := id, spec, revoked := false, version := r.secretVersion, issuerTask := task
        adminIssued := ctx.admin }).setRecord id { r with revision := r.revision + 1 }) := by
  have hlive := hr.alive
  refine ⟨fun hverified => ⟨hverified, rfl⟩, fun hd => ?_, ?_, fun _ _ hx => hx, fun hd => ?_,
    ?_, ?_, ?_⟩
  · rw [show r.deleted = true from hd] at hlive
    cases hlive
  · exact fun o ho _ => values_of_live h hr.found hlive ho
  · rw [show r.deleted = true from hd] at hlive
    cases hlive
  · rintro - other g ⟨⟩ hg
    change (app.grants.insert gid _).get? gid = some g at hg
    rw [OrdMap.get?_insert_self, Option.some.injEq] at hg
    subst hg
    exact ⟨rfl, t, ht.found, grantSound_share h ht hpos hne hr⟩
  · change (app.grants.insert gid _).size ≤ limit
    rw [OrdMap.size_insert_of_none hfresh]
    exact hroom
  · intro key cached htask hk hresult
    unfold KindSound
    rw [hk, hresult]
    exact ⟨gid, _, rfl, OrdMap.get?_insert_self _ _ _, rfl, htask.symm⟩

end Ops

/-! The whole of a mutation that ran. -/

/-- What a mutation that ran is remembered by. -/
def remembered (P : Platform) (op : Mutation) (receipt : Receipt) (effective : Time) :
    Remembered where
  fingerprint := P.sha256 (P.mutationJson op)
  result := receipt
  kind := op.cachedKind
  storedAt := some effective

def mutationEvent (ctx : AuthenticatedContext) (task request record : Uuid) (effective : Time) :
    AuditEvent where
  task := task
  record := record
  request := some request
  action := .mutation
  loggedAt := effective
  principal := ctx.principal

section Executed

open Changed

variable {ctx : AuthenticatedContext} {task request : Uuid} {op : Mutation} {draw : Draw}
  {effective : Time} {receipt : Receipt} {next : Application}

theorem remember_eq (mid : Application) (cached : Remembered) :
    mid.remember ctx task request cached effective =
      (remembering mid (requestKey ctx task request) cached).pushAudit
        (mutationEvent ctx task request cached.result.record effective) := rfl

/-- A mutation that ran on an existing record. -/
theorem Executed.targeted (h : Executed P ctx task request op draw effective app receipt next)
    {id : Uuid} (htarget : op.target = some id) : ∃ t r mid, TaskHeld app ctx task effective t
      ∧ Targeted app ctx t op effective false id r
      ∧ Performed ctx t task draw app op receipt mid
      ∧ next = (remembering mid (requestKey ctx task request)
          (remembered P op receipt effective)).pushAudit
            (mutationEvent ctx task request receipt.record effective) := by
  obtain ⟨t, mid, op', ht, -, hauth, hop, hperformed, hnext⟩ := h.change
  have hsame : op' = op := by
    cases op with
    | create | generate => cases htarget
    | _ => cases hop; rfl
  rw [hsame] at hperformed
  obtain ⟨r, hr⟩ := authorize_target hauth htarget
  exact ⟨t, r, mid, task_eq_ok.mp ht, hr, hperformed, hnext⟩

theorem orderly (h : app.Valid P) {t : TaskApproval} {id : Uuid} {r s s' : Record}
    {mid : Application} (ht : TaskHeld app ctx task effective t)
    (hr : Targeted app ctx t op effective false id r)
    (hperformed : Performed ctx t task draw app op receipt mid)
    (hc : app.Changed op receipt id s s' mid) (hissuable : app.Issuable op effective draw.id) :
    app.Orderly task op receipt id s s' mid := by
  have hself := hc.record_self
  have hs : s = r := Option.some.inj (hc.found.symm.trans hr.found)
  subst hs
  have hsame : ∀ {i : Uuid} {o : Record}, receipt.record = i → app.records.get? i = some o →
      i = id ∧ o = s := by
    intro i o hi ho
    have hid : i = id := hi.symm.trans hc.target
    rw [hid, hr.found, Option.some.injEq] at ho
    exact ⟨hid, ho.symm⟩
  cases hperformed with
  | create room =>
    have hexpected := hr.expected rfl
    cases hexpected
  | patch hr' hpatched =>
    obtain ⟨rfl, rfl⟩ := hsame rfl hr'
    cases (OrdMap.get?_insert_self _ _ _).symm.trans hself
    exact orderly_patch h ht hr hpatched
  | share hr' room =>
    obtain ⟨rfl, rfl⟩ := hsame rfl hr'
    cases (OrdMap.get?_insert_self _ _ _).symm.trans hself
    obtain ⟨hpos, hne, hfresh⟩ := hissuable rfl
    exact orderly_share h ht hpos hne hfresh room hr
  | revoke hr' hg =>
    obtain ⟨rfl, rfl⟩ := hsame rfl hr'
    cases (OrdMap.get?_insert_self _ _ _).symm.trans hself
    exact orderly_revoke h hr hg
  | delete hr' =>
    obtain ⟨rfl, rfl⟩ := hsame rfl hr'
    cases (OrdMap.get?_insert_self _ _ _).symm.trans hself
    exact orderly_delete h hr
  | reportOutcome hr' =>
    obtain ⟨rfl, rfl⟩ := hsame rfl hr'
    cases (OrdMap.get?_insert_self _ _ _).symm.trans hself
    exact orderly_reportOutcome h hr

/-- Every other mutation leaves the signup of its record. -/
theorem Changed.signup_kept {id : Uuid} {r r' : Record} {t : TaskApproval} {mid : Application}
    (hc : app.Changed op receipt id r r' mid) (hperformed : Performed ctx t task draw app op receipt mid)
    (htarget : op.target = some id) (hop : op.unverifies = false) : r'.signup = r.signup := by
  have hself := hc.record_self
  have hfound := hc.found
  have hsame : ∀ {i : Uuid} {o : Record}, receipt.record = i → app.records.get? i = some o →
      i = id ∧ o = r := by
    intro i o hi ho
    have hid : i = id := hi.symm.trans hc.target
    rw [hid, hfound, Option.some.injEq] at ho
    exact ⟨hid, ho.symm⟩
  cases hperformed with
  | create => cases htarget
  | patch hr hpatched =>
    obtain ⟨rfl, rfl⟩ := hsame rfl hr
    cases (OrdMap.get?_insert_self _ _ _).symm.trans hself
    unfold patched at hpatched
    rw [if_neg (by simpa [Mutation.unverifies] using hop)] at hpatched
    cases hpatched
    rfl
  | share hr | revoke hr | delete hr =>
    obtain ⟨rfl, rfl⟩ := hsame rfl hr
    cases (OrdMap.get?_insert_self _ _ _).symm.trans hself
    rfl
  | reportOutcome => cases hop

/-- And those leave no record verified. -/
theorem Changed.unverified {id : Uuid} {r r' : Record} {t : TaskApproval} {mid : Application}
    (hc : app.Changed op receipt id r r' mid) (hr : Targeted app ctx t op effective false id r)
    (hperformed : Performed ctx t task draw app op receipt mid) (hop : op.unverifies = true) :
    r'.signup ≠ .verifiedLogin := by
  have hself := hc.record_self
  have hallowed := hr.allowed
  have hid := hc.target
  cases hperformed with
  | create | share | revoke | delete => cases hop
  | @patch _ _ values _ _ _ hpatched =>
    have hcredential : values.changesCredential = true := hop
    subst hid
    cases (OrdMap.get?_insert_self _ _ _).symm.trans hself
    unfold patched at hpatched
    rw [if_pos hcredential] at hpatched
    split_ifs at hpatched
    cases hpatched
    nofun
  | reportOutcome =>
    subst hid
    cases (OrdMap.get?_insert_self _ _ _).symm.trans hself
    simp only [authorizeTarget, guard_eq_ok, Bool.or_eq_true, not_or, beq_iff_eq] at hallowed
    exact hallowed.1.1

theorem Executed.noted (h : app.Valid P)
    (hexec : Executed P ctx task request op draw effective app receipt next) {id : Uuid}
    (htarget : op.target = some id) (hservice : app.OneService task id)
    (hevidenced : (app.baseline id).verifiedLogin = true → op.unverifies = false)
    (hissuable : app.Issuable op effective draw.id) :
    ∃ t r r' mid, TaskHeld app ctx task effective t
      ∧ app.Noted P op receipt id r r' mid (requestKey ctx task request)
          (remembered P op receipt effective)
      ∧ next = (remembering mid (requestKey ctx task request)
          (remembered P op receipt effective)).pushAudit
            (mutationEvent ctx task request receipt.record effective) := by
  obtain ⟨t, r, mid, ht, hr, hperformed, hnext⟩ := hexec.targeted htarget
  obtain ⟨s, r', hc⟩ := hperformed.changed htarget fun hshare => (hissuable hshare).2.2
  have hs : s = r := Option.some.inj (hc.found.symm.trans hr.found)
  subst hs
  have hin := orderly h ht hr hperformed hc hissuable
  obtain ⟨hservice, horigin⟩ := hservice t s ht.found hr.found
  refine ⟨t, s, r', mid, ht, ?_, hnext⟩
  refine ⟨h, hc, hr.alive, hr.room rfl, rfl, rfl, hexec.fresh, hexec.no_delivery, hexec.room,
    hin.size, hin.signup, ?_, ?_, ?_, ?_, hin.kind _ _ rfl rfl rfl⟩
  · intro hverified
    obtain ⟨base, hb, hflag⟩ := baseline_verifiedLogin.mp hverified
    obtain ⟨o, ho, hbase⟩ := h.baselines id base hb
    rw [hc.found, Option.some.injEq] at ho
    rw [hc.signup_kept hperformed htarget (hevidenced hverified), ho]
    exact hbase.verified hflag
  · intro o ho hsound
    exact hc.recordSound (hr.room rfl) hsound hin.erased (hin.values o ho)
  · exact hc.grantsSound h hr.alive hin.fields hin.dead hin.new_grant
  · refine ⟨t, ht.found, hexec.request_ne, ht.owner.symm, ht.principal.symm, ?_⟩
    exact sameScope_iff.mpr ⟨ht.owner.trans hr.owner.symm, ht.workspace.trans hr.workspace.symm,
      horigin.symm, hservice.symm⟩

/-- A mutation that is not an admin's withdrawal is within the scope of its task. -/
theorem Executed.oneService (hexec : Executed P ctx task request op draw effective app receipt next)
    {id : Uuid} (htarget : op.target = some id) (hadmin : ctx.admin = true → op.withdraws = false) :
    app.OneService task id := by
  obtain ⟨t, r, mid, ht, hr, -, -⟩ := hexec.targeted htarget
  intro t' r' ht' hr'
  rw [ht.found, Option.some.injEq] at ht'
  rw [hr.found, Option.some.injEq] at hr'
  rw [← ht', ← hr']
  exact authorizeTarget_scope hr.allowed htarget hadmin

/-- The event of a mutation is in order next to its receipt. -/
theorem pushAudit_mutation {t : TaskApproval} {s : Record} {cached : Remembered} {mid : Application}
    (h : (remembering mid (requestKey ctx task request) cached).Valid P)
    (ht : TaskHeld app ctx task effective t) (htasks : mid.tasks = app.tasks)
    (hlast : mid.lastTime = some effective) (hpos : 0 ≤ effective)
    (hs : mid.records.get? cached.result.record = some s) (hscope : sameScope t s = true) :
    ((remembering mid (requestKey ctx task request) cached).pushAudit
      (mutationEvent ctx task request cached.result.record effective)).Valid P := by
  have htask : mid.tasks.get? task = some t := by rw [htasks]; exact ht.found
  refine h.pushAudit htask hs ⟨hscope, fun _ => ?_, ?_⟩
  · exact ⟨ht.principal.symm, effective, hlast, hpos, le_refl _⟩
  · rintro _ ⟨⟩
    refine ⟨cached, ?_, rfl⟩
    have hkey : ({ owner := t.owner, principal := t.principal, task := t.id, id := request } :
        RequestKey) = requestKey ctx task request := by
      rw [requestKey, ht.owner, ht.principal, ← (h.tasks task t htask).id_eq]
    rw [hkey]
    exact OrdMap.get?_insert_self _ _ _

theorem Executed.valid_of_target (h : app.Valid P)
    (hexec : Executed P ctx task request op draw effective app receipt next) {id : Uuid}
    (htarget : op.target = some id) (hservice : app.OneService task id)
    (hevidenced : (app.baseline id).verifiedLogin = true → op.unverifies = false)
    (hpos : 0 ≤ effective) (hlast : app.lastTime = some effective)
    (hissuable : app.Issuable op effective draw.id) : next.Valid P := by
  obtain ⟨t, r, r', mid, ht, hnoted, rfl⟩ := hexec.noted h htarget hservice hevidenced hissuable
  have hc := hnoted.changed
  obtain ⟨u, hu, -, -, -, hscope⟩ := hnoted.scope
  have hsame : u = t := Option.some.inj (hu.symm.trans ht.found)
  subst hsame
  refine pushAudit_mutation (s := r') hnoted.valid ht hc.tasks_eq ?_ hpos ?_ ?_
  · rw [hc.result]
    exact hlast
  · change mid.records.get? receipt.record = some r'
    rw [hc.target]
    exact hc.record_self
  · rw [hc.sameScope_eq]
    exact hscope

/-- The candidate of a mutation that ran on an existing record can be published exactly when the
clock is not negative, the task and the record are of one service and origin, and no login
that only the baseline still shows is taken back. -/
theorem Executed.valid_iff (h : app.Valid P)
    (hexec : Executed P ctx task request op draw effective app receipt next) {id : Uuid}
    (htarget : op.target = some id) (hlast : app.lastTime = some effective)
    (hissuable : op.cachedKind = .share → draw.id ≠ 0 ∧ app.grants.get? draw.id = none) :
    next.Valid P ↔ 0 ≤ effective ∧ app.OneService task id
      ∧ ((app.baseline id).verifiedLogin = true → op.unverifies = false) := by
  refine ⟨fun hnext => ?_, fun ⟨hpos, hservice, hevidenced⟩ =>
    hexec.valid_of_target h htarget hservice hevidenced hpos hlast fun hshare => ⟨hpos, hissuable hshare⟩⟩
  obtain ⟨t, r, mid, ht, hr, hperformed, rfl⟩ := hexec.targeted htarget
  obtain ⟨s, r', hc⟩ := hperformed.changed htarget fun hshare => (hissuable hshare).2
  have hs : s = r := Option.some.inj (hc.found.symm.trans hr.found)
  subst hs
  have hrecord : mid.records.get? receipt.record = some r' := by
    rw [hc.target]
    exact hc.record_self
  have htask : mid.tasks.get? task = some t := by
    rw [hc.tasks_eq]
    exact ht.found
  refine ⟨?_, ?_, ?_⟩
  · -- the event that was just logged
    have hmem : mutationEvent ctx task request receipt.record effective ∈ (pushAudit (remembering mid
        (requestKey ctx task request) (remembered P op receipt effective))
          (mutationEvent ctx task request receipt.record effective)).audit :=
      List.mem_append_right _ (List.mem_singleton_self _)
    obtain ⟨_, _, -, -, hsound⟩ := hnext.audit _ hmem
    by_cases hlegacy : (mutationEvent ctx task request receipt.record effective).loggedAt = 0
        ∧ (mutationEvent ctx task request receipt.record effective).principal = ""
    · exact le_of_eq hlegacy.1.symm
    · obtain ⟨-, last, -, hpos, -⟩ := hsound.logged hlegacy
      exact hpos
  · -- the receipt that was just stored
    intro t' o ht' ho
    rw [ht.found, Option.some.injEq] at ht'
    rw [hr.found, Option.some.injEq] at ho
    subst ht' ho
    obtain ⟨u, o, hu, ho, hreceipt, -⟩ := hnext.receipts (requestKey ctx task request)
      (remembered P op receipt effective) (OrdMap.get?_insert_self _ _ _)
    obtain rfl : t = u := Option.some.inj (htask.symm.trans hu)
    obtain rfl : r' = o := Option.some.inj (hrecord.symm.trans ho)
    have hscope := hreceipt.scope
    rw [hc.sameScope_eq] at hscope
    obtain ⟨-, -, horigin, hservice⟩ := sameScope_iff.mp hscope
    exact ⟨hservice.symm, horigin.symm⟩
  · intro hverified
    rw [← Bool.not_eq_true]
    intro hop
    obtain ⟨base, hb, hflag⟩ := baseline_verifiedLogin.mp hverified
    have hb' : mid.baselines.get? id = some base := by
      rw [hc.result]
      exact hb
    obtain ⟨o, ho, hbase⟩ := hnext.baselines id base hb'
    obtain rfl : r' = o := Option.some.inj (hc.record_self.symm.trans ho)
    exact hc.unverified hr hperformed hop (hbase.verified hflag)

end Executed

/-! A record that has just been created. -/

/-- An application with one record more, and the receipt of its creation. -/
structure Created (P : Platform) (app : Application) (id : Uuid) (r : Record) (t : TaskApproval)
    (key : RequestKey) (cached : Remembered) : Prop where
  publishable : app.Publishable P
  absent : app.records.get? id = none
  task : app.tasks.get? r.task = some t
  sound : RecordSound id r t
  revision : r.revision = 1
  version : r.secretVersion = 1
  live : r.deleted = false
  signup : r.signup = .pending
  records : app.records.size < limit
  requests : app.requests.size < limit
  fresh : app.requests.get? key = none
  no_delivery : ∀ i d, app.deliveries.get? i = some d → d.key ≠ key
  key_task : key.task = r.task
  key_ne : key.id ≠ 0
  key_owner : key.owner = t.owner
  key_principal : key.principal = t.principal
  kind : cached.kind = .create
  result : cached.result = { record := id, revision := 1, grant := none }

namespace Created

open Changed

variable {id : Uuid} {r : Record} {t : TaskApproval} {key : RequestKey} {cached : Remembered}

/-- The application after the creation has been remembered. -/
abbrev after (app : Application) (id : Uuid) (r : Record) (key : RequestKey) (cached : Remembered) :
    Application :=
  remembering (app.setRecord id r) key cached

theorem requests_some {k : RequestKey} {c : Remembered} :
    (after app id r key cached).requests.get? k = some c ↔
      (k = key ∧ c = cached) ∨ (k ≠ key ∧ app.requests.get? k = some c) := by
  change (app.requests.insert key cached).get? k = some c ↔ _
  rw [OrdMap.get?_insert]
  by_cases hk : key = k
  · subst hk
    simp [eq_comm]
  · simp [hk, Ne.symm hk]

theorem kept (h : app.Created P id r t key cached) {k : RequestKey} {c : Remembered}
    (hk : app.requests.get? k = some c) : (after app id r key cached).requests.get? k = some c := by
  refine requests_some.mpr (.inr ⟨?_, hk⟩)
  rintro rfl
  rw [h.fresh] at hk
  cases hk

/-- What was there before keeps its record. -/
theorem record_kept (h : app.Created P id r t key cached) {j : Uuid} {s : Record}
    (hs : app.records.get? j = some s) : (app.setRecord id r).records.get? j = some s := by
  refine (OrdMap.get?_insert_ne _ _ ?_).trans hs
  rintro rfl
  rw [h.absent] at hs
  cases hs

theorem records_some {j : Uuid} {s : Record} :
    (app.setRecord id r).records.get? j = some s ↔
      (j = id ∧ s = r) ∨ (j ≠ id ∧ app.records.get? j = some s) := by
  change (app.records.insert id r).get? j = some s ↔ _
  rw [OrdMap.get?_insert]
  by_cases hj : id = j
  · subst hj
    simp [eq_comm]
  · simp [hj, Ne.symm hj]

theorem no_baseline (h : app.Created P id r t key cached) : app.baselines.get? id = none := by
  cases hb : app.baselines.get? id with
  | none => rfl
  | some base =>
    obtain ⟨s, hs, -⟩ := h.publishable.valid.baselines id base hb
    rw [h.absent] at hs
    cases hs

theorem no_receipt (h : app.Created P id r t key cached) {k : RequestKey} {c : Remembered}
    (hk : app.requests.get? k = some c) : c.result.record ≠ id := by
  intro hrecord
  obtain ⟨u, s, -, hs, -⟩ := h.publishable.valid.receipts k c hk
  rw [hrecord, h.absent] at hs
  cases hs

theorem hasReceipt_iff (h : app.Created P id r t key cached) {kind : CachedKind} {j : Uuid} :
    (after app id r key cached).hasReceipt kind j ↔
      app.hasReceipt kind j ∨ j = id ∧ kind = .create := by
  unfold hasReceipt
  constructor
  · rintro ⟨k, c, hk, hrecord, hkind⟩
    rcases requests_some.mp hk with ⟨rfl, rfl⟩ | ⟨-, hold⟩
    · rw [h.result] at hrecord
      rw [h.kind] at hkind
      exact .inr ⟨hrecord.symm, hkind.symm⟩
    · exact .inl ⟨k, c, hold, hrecord, hkind⟩
  · rintro (⟨k, c, hk, hrecord, hkind⟩ | ⟨rfl, rfl⟩)
    · exact ⟨k, c, h.kept hk, hrecord, hkind⟩
    · exact ⟨key, cached, requests_some.mpr (.inl ⟨rfl, rfl⟩), by rw [h.result], h.kind⟩

theorem chain (h : app.Created P id r t key cached) {j : Uuid} {s : Record}
    (hs : (app.setRecord id r).records.get? j = some s) :
    (after app id r key cached).ChainSound j s := by
  have hthrough : (after app id r key cached).through j = app.through j := rfl
  have hpruned : (after app id r key cached).deletePruned j = app.deletePruned j := rfl
  rcases records_some.mp hs with ⟨rfl, rfl⟩ | ⟨hj, hold⟩
  · have hzero : app.through j = 0 := by
      unfold through
      rw [h.no_baseline]
      rfl
    have hundeleted : app.deletePruned j = false := by
      unfold deletePruned
      rw [h.no_baseline]
      rfl
    have hno : ∀ kind, ¬ app.hasReceipt kind j := fun kind ⟨k, c, hk, hrecord, _⟩ =>
      h.no_receipt hk hrecord
    refine ⟨?_, ?_, ?_, ?_⟩
    · intro revision habove hbelow
      rw [hthrough, hzero] at habove
      rw [h.revision] at hbelow
      have hone : revision = 1 := by
        apply UInt64.toNat_inj.mp
        rw [UInt64.lt_iff_toNat_lt, UInt64.toNat_zero] at habove
        rw [UInt64.le_iff_toNat_le, UInt64.toNat_one] at hbelow
        rw [UInt64.toNat_one]
        omega
      exact ⟨key, cached, requests_some.mpr (.inl ⟨rfl, rfl⟩), by rw [h.result],
        by rw [h.result, hone]⟩
    · exact fun _ => h.hasReceipt_iff.mpr (.inr ⟨rfl, rfl⟩)
    · rw [hpruned, hundeleted, h.live, h.hasReceipt_iff]
      simp [hno]
    · rw [hpruned, hundeleted]
      simp
  · obtain ⟨hcovered, hcreated, hdeleted, honce⟩ := h.publishable.valid.chain j s hold
    have hother : ∀ kind, (after app id r key cached).hasReceipt kind j ↔ app.hasReceipt kind j :=
      fun kind => h.hasReceipt_iff.trans (or_iff_left fun hnew => hj hnew.1)
    refine ⟨?_, ?_, ?_, ?_⟩
    · intro revision habove hbelow
      obtain ⟨k, c, hk, hrecord, hrevision⟩ := hcovered revision habove hbelow
      exact ⟨k, c, h.kept hk, hrecord, hrevision⟩
    · exact fun hzero => (hother _).mpr (hcreated hzero)
    · rw [hpruned, hother]
      exact hdeleted
    · rw [hpruned, hother]
      exact honce

theorem versionSound (h : app.Created P id r t key cached) {j : Uuid} {s : Record}
    (hs : (app.setRecord id r).records.get? j = some s) :
    (after app id r key cached).VersionSound j s := by
  have hcount : (after app id r key cached).patchCount j = app.patchCount j := by
    unfold patchCount
    change (app.requests.insert key cached).count _ = _
    rw [OrdMap.count_insert_of_none _ h.fresh, h.kind]
    rfl
  have hbase : (after app id r key cached).baseVersion j = app.baseVersion j := rfl
  unfold VersionSound
  rw [hcount, hbase]
  rcases records_some.mp hs with ⟨rfl, rfl⟩ | ⟨-, hold⟩
  · have hnone : app.patchCount j = 0 := by
      refine OrdMap.count_eq_zero.mpr fun k c hk => ?_
      simp [h.no_receipt hk]
    have hone : app.baseVersion j = 1 := by
      unfold baseVersion through
      rw [h.no_baseline]
      rfl
    rw [hnone, hone, h.version]
    rfl
  · exact h.publishable.valid.versions j s hold

theorem receipts (h : app.Created P id r t key cached) {k : RequestKey} {c : Remembered}
    (hk : (after app id r key cached).requests.get? k = some c) : ∃ u s,
      app.tasks.get? k.task = some u ∧ (app.setRecord id r).records.get? c.result.record = some s
        ∧ ReceiptSound k c u s (app.through c.result.record) ∧ KindSound app.grants k c s := by
  rcases requests_some.mp hk with ⟨rfl, rfl⟩ | ⟨-, hold⟩
  · have hzero : app.through id = 0 := by
      unfold through
      rw [h.no_baseline]
      rfl
    refine ⟨t, r, by rw [h.key_task]; exact h.task, ?_,
      ⟨h.key_ne, h.key_owner, h.key_principal, h.sound.scope, ?_, ?_⟩, ?_⟩
    · rw [h.result]
      exact records_some.mpr (.inl ⟨rfl, rfl⟩)
    · rw [h.result, hzero]
      exact UInt64.lt_iff_toNat_lt.mpr Nat.one_pos
    · rw [h.result, h.revision]
    · unfold KindSound
      rw [h.kind, h.result]
      exact ⟨h.key_task.symm, h.sound.creator.symm.trans h.key_principal.symm, rfl, rfl⟩
  · obtain ⟨u, s, hu, hs, hreceipt, hks⟩ := h.publishable.valid.receipts k c hold
    exact ⟨u, s, hu, h.record_kept hs, hreceipt, hks⟩

theorem valid (h : app.Created P id r t key cached) : (after app id r key cached).Valid P := by
  have hold := h.publishable.valid
  refine { generation := hold.generation, clock := hold.clock, tasks := hold.tasks
           one_owner := hold.one_owner, revoked := hold.revoked, records := ?records
           grants := ?grants, receipts := fun _ _ hk => h.receipts hk, one_receipt := ?one_receipt
           one_share := ?one_share, baselines := ?baselines, pruned := ?pruned
           chain := fun _ _ hs => h.chain hs, accounted := ?accounted, deliveries := ?deliveries
           no_receipt := ?no_receipt, one_delivery := hold.one_delivery
           one_register := hold.one_register, verified := ?verified, sizes := ?sizes
           versions := fun _ _ hs => h.versionSound hs, audit := ?audit }
  case records =>
    intro j s hs
    rcases records_some.mp hs with ⟨rfl, rfl⟩ | ⟨-, hother⟩
    · exact ⟨t, h.task, h.sound⟩
    · exact hold.records j s hother
  case grants =>
    intro gid g hg
    obtain ⟨s, u, hs, hu, hsound⟩ := hold.grants gid g hg
    exact ⟨s, u, h.record_kept hs, hu, hsound⟩
  case one_receipt =>
    intro k c k' c' hk hk' hrecord hrevision
    rcases requests_some.mp hk with ⟨rfl, rfl⟩ | ⟨-, hbefore⟩ <;>
      rcases requests_some.mp hk' with ⟨rfl, rfl⟩ | ⟨-, hbefore'⟩
    · rfl
    · rw [h.result] at hrecord
      exact absurd hrecord.symm (h.no_receipt hbefore')
    · rw [h.result] at hrecord
      exact absurd hrecord (h.no_receipt hbefore)
    · exact hold.one_receipt k c k' c' hbefore hbefore' hrecord hrevision
  case one_share =>
    intro k c k' c' gid hk hk' hkind hkind' hgid hgid'
    rcases requests_some.mp hk with ⟨rfl, rfl⟩ | ⟨-, hk⟩
    · rw [h.kind] at hkind
      cases hkind
    · rcases requests_some.mp hk' with ⟨rfl, rfl⟩ | ⟨-, hk'⟩
      · rw [h.kind] at hkind'
        cases hkind'
      · exact hold.one_share k c k' c' gid hk hk' hkind hkind' hgid hgid'
  case baselines =>
    intro j base hb
    obtain ⟨s, hs, hbase⟩ := hold.baselines j base hb
    exact ⟨s, h.record_kept hs, hbase⟩
  case pruned =>
    intro j base gid hb hmem
    obtain ⟨hgrant, hnone⟩ := hold.pruned j base gid hb hmem
    refine ⟨hgrant, fun k c hk hkind => ?_⟩
    rcases requests_some.mp hk with ⟨rfl, rfl⟩ | ⟨-, hk⟩
    · rw [h.kind] at hkind
      cases hkind
    · exact hnone k c hk hkind
  case accounted =>
    intro gid g hg
    refine (hold.accounted gid g hg).imp_left ?_
    rintro ⟨k, c, hk, hkind, hgid⟩
    exact ⟨k, c, h.kept hk, hkind, hgid⟩
  case deliveries =>
    intro i d hd
    obtain ⟨u, s, hu, hs, hsound⟩ := hold.deliveries i d hd
    exact ⟨u, s, hu, h.record_kept hs, hsound⟩
  case no_receipt =>
    intro i d hd
    change (app.requests.insert key cached).get? d.key = none
    rw [OrdMap.get?_insert_ne _ _ (h.no_delivery i d hd).symm]
    exact hold.no_receipt i d hd
  case verified =>
    intro j s hs hverified
    rcases records_some.mp hs with ⟨rfl, rfl⟩ | ⟨-, hother⟩
    · rw [h.signup] at hverified
      cases hverified
    · exact hold.verified j s hother hverified
  case sizes =>
    refine { hold.sizes with records := ?_, requests := ?_ }
    · change (app.records.insert id r).size ≤ limit
      rw [OrdMap.size_insert_of_none h.absent]
      exact h.records
    · change (app.requests.insert key cached).size ≤ limit
      rw [OrdMap.size_insert_of_none h.fresh]
      exact h.requests
  case audit =>
    intro event hevent
    obtain ⟨u, s, hu, hs, hscope, hlogged, hreceipt⟩ := hold.audit event hevent
    refine ⟨u, s, hu, h.record_kept hs, hscope, hlogged, fun request hrequest => ?_⟩
    obtain ⟨c, hk, hrecord⟩ := hreceipt request hrequest
    exact ⟨c, h.kept hk, hrecord⟩

end Created

/-! A mutation that ran, whatever it was. -/

section Executed

open Changed

variable {ctx : AuthenticatedContext} {task request : Uuid} {op : Mutation} {draw : Draw}
  {effective : Time} {receipt : Receipt} {next : Application}

/-- What is new in an identifier: it is not nil and names nothing yet. -/
structure Fresh (app : Application) (id : Uuid) : Prop where
  ne_nil : id ≠ 0
  record : app.records.get? id = none
  grant : app.grants.get? id = none
  delivery : app.deliveries.get? id = none

theorem Executed.created (h : app.Publishable P)
    (hexec : Executed P ctx task request op draw effective app receipt next)
    (htarget : op.target = none) (hfresh : app.Fresh draw.id) : ∃ t r,
      TaskHeld app ctx task effective t
      ∧ app.Created P draw.id r t (requestKey ctx task request) (remembered P op receipt effective)
      ∧ next = (Created.after app draw.id r (requestKey ctx task request)
          (remembered P op receipt effective)).pushAudit
            (mutationEvent ctx task request receipt.record effective) := by
  obtain ⟨t, mid, op', ht, -, hauth, hop, hperformed, hnext⟩ := hexec.change
  have hheld := task_eq_ok.mp ht
  have htask := (h.valid.tasks task t hheld.found).id_eq
  have hkind : op.cachedKind = .create := by cases op <;> first | rfl | cases htarget
  cases hperformed with
  | @create kind values room =>
    have hin := issued hauth hop
    refine ⟨t, createdRecord ctx t task kind values draw.id, hheld, ?_, hnext⟩
    refine ⟨h, hfresh.record, hheld.found, ?_, rfl, rfl, rfl, rfl, room, hexec.room, hexec.fresh,
      hexec.no_delivery, rfl, hexec.request_ne, hheld.owner.symm, hheld.principal.symm, hkind, rfl⟩
    have hpos : (0 : UInt64) < 1 := UInt64.lt_iff_toNat_lt.mpr Nat.one_pos
    exact ⟨hfresh.ne_nil, rfl, sameScope_iff.mpr ⟨hheld.owner, hheld.workspace, rfl, rfl⟩,
      hheld.principal, hpos, hpos, le_refl _, hin.writable, nofun, fun _ => hin.valid,
      fun _ => hin.fields, fun _ => hin.fits⟩
  | patch | share | revoke | delete | reportOutcome =>
    have hsome := (resolve_target hop).1
    rw [htarget] at hsome
    cases hsome

/-- A mutation that ran leaves an application that can be published. -/
theorem Executed.valid (h : app.Publishable P)
    (hexec : Executed P ctx task request op draw effective app receipt next)
    (hadmin : ctx.admin = true → op.withdraws = false) (hpos : 0 ≤ effective)
    (hlast : app.lastTime = some effective) (hfresh : app.Fresh draw.id) : next.Valid P := by
  cases htarget : op.target with
  | some id =>
    refine hexec.valid_of_target h.valid htarget (hexec.oneService htarget hadmin) (fun hverified => ?_)
      hpos hlast fun _ => ⟨hpos, hfresh.ne_nil, hfresh.grant⟩
    -- a broker's vault shows no login at all
    obtain ⟨base, hb, hflag⟩ := baseline_verifiedLogin.mp hverified
    obtain ⟨r, hr, hbase⟩ := h.valid.baselines id base hb
    exact absurd (hbase.verified hflag) (h.steady.unverified id r hr)
  | none =>
    obtain ⟨t, r, ht, hcreated, hnext⟩ := hexec.created h htarget hfresh
    have hrecord : receipt.record = draw.id := congrArg Receipt.record hcreated.result
    rw [hnext]
    refine pushAudit_mutation (s := r) hcreated.valid ht rfl hlast hpos ?_ ?_
    · change (app.setRecord draw.id r).records.get? receipt.record = some r
      rw [hrecord]
      exact OrdMap.get?_insert_self _ _ _
    · have hsame : t = _ := Option.some.inj (ht.found.symm.trans (hcreated.key_task ▸ hcreated.task))
      exact hsame ▸ hcreated.sound.scope

theorem Steady.pushAudit (h : app.Steady) (event : AuditEvent) : (app.pushAudit event).Steady :=
  h.of_eq rfl rfl rfl rfl

theorem Changed.steady (h : app.Publishable P) {id : Uuid} {r r' : Record} {mid : Application}
    {key : RequestKey} {cached : Remembered} (hc : app.Changed op receipt id r r' mid)
    (hlive : r.deleted = false) (hresult : cached.result = receipt)
    (hfresh : app.requests.get? key = none) (hsignup : r'.signup ≠ .verifiedLogin) :
    (remembering mid key cached).Steady := by
  have hsplit : ∀ {k c}, (remembering mid key cached).requests.get? k = some c →
      (k = key ∧ c = cached) ∨ app.requests.get? k = some c := by
    intro k c hk
    change (mid.requests.insert key cached).get? k = some c at hk
    rw [hc.requests_eq, OrdMap.get?_insert] at hk
    split_ifs at hk with heq
    · exact .inl ⟨heq.symm, (Option.some.inj hk).symm⟩
    · exact .inr hk
  -- a live record has no deletion in the cache
  have hundeleted : ∀ {k c}, app.requests.get? k = some c → c.kind = .delete →
      c.result.record ≠ id := by
    intro k c hk hkind hrecord
    have hdeleted := (h.valid.chain id r hc.found).deleted.mpr (.inr ⟨k, c, hk, hrecord, hkind⟩)
    rw [hlive] at hdeleted
    cases hdeleted
  refine ⟨?_, ?_, ?_, ?_⟩
  · intro k c k' c' hk hk' hkind hkind' hrecord
    rcases hsplit hk with ⟨rfl, rfl⟩ | hold <;> rcases hsplit hk' with ⟨rfl, rfl⟩ | hold'
    · rfl
    · exact absurd (hrecord.symm.trans (hresult ▸ hc.target)) (hundeleted hold' hkind')
    · exact absurd (hrecord.trans (hresult ▸ hc.target)) (hundeleted hold hkind)
    · exact h.steady.once k c k' c' hold hold' hkind hkind' hrecord
  · intro j s hs
    have hbaseline : (remembering mid key cached).baseline j = app.baseline j := by
      unfold baseline remembering
      rw [hc.result]
    rw [hbaseline]
    rcases hc.records_some.mp hs with ⟨rfl, rfl⟩ | ⟨-, hold⟩
    · exact (h.steady.rise j r hc.found).trans hc.version_le
    · exact h.steady.rise j s hold
  · intro i d hd
    change mid.deliveries.get? i = some d at hd
    rw [hc.result] at hd
    exact h.steady.use_only i d hd
  · intro j s hs
    rcases hc.records_some.mp hs with ⟨rfl, rfl⟩ | ⟨-, hold⟩
    · exact hsignup
    · exact h.steady.unverified j s hold

theorem Created.steady {id : Uuid} {r : Record} {t : TaskApproval} {key : RequestKey}
    {cached : Remembered} (h : app.Created P id r t key cached) :
    (Created.after app id r key cached).Steady := by
  have hold := h.publishable.steady
  refine ⟨?_, ?_, hold.use_only, ?_⟩
  · intro k c k' c' hk hk' hkind hkind'
    rcases Created.requests_some.mp hk with ⟨rfl, rfl⟩ | ⟨-, hk⟩
    · rw [h.kind] at hkind
      cases hkind
    · rcases Created.requests_some.mp hk' with ⟨rfl, rfl⟩ | ⟨-, hk'⟩
      · rw [h.kind] at hkind'
        cases hkind'
      · exact hold.once k c k' c' hk hk' hkind hkind'
  · intro j s hs
    rcases Created.records_some.mp hs with ⟨rfl, rfl⟩ | ⟨-, hother⟩
    · change (app.baseline j).secretVersion ≤ s.secretVersion
      unfold baseline
      rw [h.no_baseline]
      exact UInt64.le_iff_toNat_le.mpr (Nat.zero_le _)
    · exact hold.rise j s hother
  · intro j s hs
    rcases Created.records_some.mp hs with ⟨rfl, rfl⟩ | ⟨-, hother⟩
    · rw [h.signup]
      nofun
    · exact hold.unverified j s hother

/-- A mutation that ran leaves the rest of what the next ones rely on, an admin's too. -/
theorem Executed.steady (h : app.Publishable P)
    (hexec : Executed P ctx task request op draw effective app receipt next)
    (hpos : 0 ≤ effective) (hfresh : app.Fresh draw.id) : next.Steady := by
  cases htarget : op.target with
  | some id =>
    obtain ⟨t, r, mid, ht, hr, hperformed, rfl⟩ := hexec.targeted htarget
    obtain ⟨s, r', hc⟩ := hperformed.changed htarget fun _ => hfresh.grant
    have hs : s = r := Option.some.inj (hc.found.symm.trans hr.found)
    subst hs
    have hin := orderly h.valid ht hr hperformed hc fun _ => ⟨hpos, hfresh.ne_nil, hfresh.grant⟩
    exact (hc.steady h hr.alive rfl hexec.fresh fun hverified =>
      h.steady.unverified id s hr.found (hin.signup hverified).1).pushAudit _
  | none =>
    obtain ⟨t, r, -, hcreated, rfl⟩ := hexec.created h htarget hfresh
    exact hcreated.steady.pushAudit _

end Executed

end Application

end Credman
