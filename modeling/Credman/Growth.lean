import Credman.Lineage

/-! What no history of a store undoes in its records and its grants. -/
namespace Credman

open Library Library.Checked Relation Application DurableVault

variable {P : Platform}

/-- The fields a grant is pinned for. -/
def Field.credential (f : Field) : Bool := f.secret || f == .username

/-- What can have become of a record. -/
structure Record.Grows (r r' : Record) : Prop where
  identity : r' = { r with
    revision := r'.revision, secretVersion := r'.secretVersion, values := r'.values
    signup := r'.signup, deleted := r'.deleted, restored := r'.restored }
  revision : r.revision ≤ r'.revision
  version : r.secretVersion ≤ r'.secretVersion
  deleted : r.deleted = true → r'.deleted = true
  restored : r.restored = true → r'.restored = true
  credential : r'.deleted = false → r'.secretVersion = r.secretVersion →
    ∀ f : Field, f.credential = true → r'.values.get? f = r.values.get? f

namespace Record.Grows

theorem refl (r : Record) : r.Grows r := ⟨rfl, le_refl _, le_refl _, fun h => h, fun h => h, fun _ _ _ _ => rfl⟩

theorem trans {r r' r'' : Record} (h : r.Grows r') (h' : r'.Grows r'') : r.Grows r'' where
  identity := by
    rw [h'.identity, h.identity]
  revision := h.revision.trans h'.revision
  version := h.version.trans h'.version
  deleted hd := h'.deleted (h.deleted hd)
  restored hr := h'.restored (h.restored hr)
  credential hlive hsame f hf := by
    -- the version in between is the same one, and the record was live
    have hversion : r'.secretVersion = r.secretVersion :=
      le_antisymm (hsame ▸ h'.version) h.version
    have hmid : r'.deleted = false := by
      rw [← Bool.not_eq_true]
      intro hdeleted
      rw [h'.deleted hdeleted] at hlive
      cases hlive
    rw [h'.credential hlive (hsame.trans hversion.symm) f hf, h.credential hmid hversion f hf]

/-- Signup state and the restored mark say nothing about the credential. -/
theorem marked (r : Record) (state : SignupState) (copy : Bool) :
    r.Grows { r with signup := state, restored := r.restored || copy } :=
  ⟨rfl, le_refl _, le_refl _, fun h => h, fun h => by simp [h], fun _ _ _ _ => rfl⟩

end Record.Grows

theorem SecretInput.get?_extend_credential {values extra : SecretInput}
    (h : extra.changesCredential = false) {f : Field} (hf : f.credential = true) :
    (values.extend extra).get? f = values.get? f := by
  rw [get?_extend]
  cases hextra : extra.get? f with
  | none => rfl
  | some value =>
    have hany : extra.changesCredential = true := by
      unfold changesCredential
      exact OrdMap.any_iff.mpr ⟨f, value, hextra, hf⟩
    rw [h] at hany
    cases hany

namespace Application

variable {app next : Application} {i : Uuid} {r r' : Record}

/-- A mutation that leaves the version leaves the credential. -/
theorem Performed.credential {ctx : AuthenticatedContext} {t : TaskApproval} {task : Uuid}
    {draw : Draw} {op : Mutation} {receipt : Receipt}
    (h : Performed ctx t task draw app op receipt next) (htarget : op.target = some i) (hchanged : app.Changed op receipt i r r' next)
    (hlive : r'.deleted = false) (hsame : r'.secretVersion = r.secretVersion) {f : Field}
    (hf : f.credential = true) : r'.values.get? f = r.values.get? f := by
  have hself := hchanged.record_self
  have hfound := hchanged.found
  have hvalues : ∀ {r₁ : Record} {records : OrdMap Uuid Record}, next.records = records.insert i r₁ →
      r₁.values = r.values → r'.values.get? f = r.values.get? f := by
    intro r₁ records hrecords heq
    rw [hrecords, OrdMap.get?_insert_self, Option.some.injEq] at hself
    rw [← hself, heq]
  have hlast : ∀ {r₁ : Record}, app.records.get? i = some r₁ → r₁ = r := fun hr =>
    Option.some.inj (hr.symm.trans hfound)
  cases h with
  | create => cases htarget
  | @patch _ _ values r₀ r₁ hr hpatched =>
    cases htarget
    cases hlast hr
    unfold patched at hpatched
    split_ifs at hpatched with hcredential hfull
    · -- the version has moved on
      cases hpatched
      change (app.records.insert i _).get? i = some r' at hself
      rw [OrdMap.get?_insert_self, Option.some.injEq] at hself
      rw [← hself, ← UInt64.toNat_inj, toNat_succ (by simpa using hfull)] at hsame
      omega
    · cases hpatched
      change (app.records.insert i _).get? i = some r' at hself
      rw [OrdMap.get?_insert_self, Option.some.injEq] at hself
      rw [← hself]
      exact SecretInput.get?_extend_credential (by simpa using hcredential) hf
  | share hr | revoke hr | reportOutcome hr =>
    cases htarget
    cases hlast hr
    exact hvalues rfl rfl
  | @delete _ _ r₀ hr =>
    cases htarget
    change (app.records.insert i _).get? i = some r' at hself
    rw [OrdMap.get?_insert_self, Option.some.injEq] at hself
    rw [← hself] at hlive
    cases hlive

theorem Changed.grows {ctx : AuthenticatedContext} {t : TaskApproval} {task : Uuid} {draw : Draw}
    {op : Mutation} {receipt : Receipt} (htarget : op.target = some i) (hroom : r.revision ≠ maxU64)
    (hperformed : Performed ctx t task draw app op receipt next)
    (h : app.Changed op receipt i r r' next) : r.Grows r' where
  identity := by
    conv_lhs => rw [h.identity]
    rw [h.identity]
  revision := by
    rw [h.revision_eq]
    exact le_of_lt ((lt_succ_iff hroom).mpr (le_refl _))
  version := h.version_le
  deleted hd := by rw [h.deleted, hd, Bool.or_true]
  restored hr := by
    rw [h.identity]
    exact hr
  credential hlive hsame f hf := hperformed.credential htarget h hlive hsame hf

/-- A record after an operation is one there was, grown, or has the identifier drawn. -/
theorem Operated.record_grows {id : Uuid} (hfresh : app.Fresh id) (h : Operated P id app next)
    (hr' : next.records.get? i = some r') : (∃ r, app.records.get? i = some r ∧ r.Grows r') ∨ i = id := by
  cases h.records_from hfresh hr' with
  | @same r hr state heq =>
    have hmarked := Record.Grows.marked r state false
    rw [Bool.or_false, ← heq] at hmarked
    exact .inl ⟨r, hr, hmarked⟩
  | changed htarget hr _ _ hroom hperformed hchanged =>
    exact .inl ⟨_, hr, hchanged.grows htarget hroom hperformed⟩
  | created hi => exact .inr hi

/-- A grant after an operation is one there was, at most revoked, or has the identifier drawn. -/
theorem Operated.grant_follows {id gid : Uuid} {g' : Grant} (hfresh : app.Fresh id)
    (h : Operated P id app next) (hg' : next.grants.get? gid = some g') :
    (∃ g, app.grants.get? gid = some g ∧ g.Follows g') ∨ gid = id := by
  rcases h.cases with hquiet | ⟨ctx, task, request, op, draw, now, effective, receipt, hid, heff, hexec⟩
  · exact .inl ⟨g', hquiet.grants ▸ hg', .refl g'⟩
  · obtain ⟨mid, hmoved, rfl⟩ := hexec.moved (hid ▸ hfresh.of_ticked)
    change mid.grants.get? gid = some g' at hg'
    cases hmoved with
    | changed _ _ _ _ hperformed hchanged =>
      rcases hchanged.granted gid g' hg' with ⟨g, hg, hfollows⟩ | ⟨hshare, hgrant⟩
      · exact .inl ⟨g, by rwa [ticked_grants] at hg, hfollows⟩
      · refine .inr ?_
        cases hperformed with
        | share =>
          rw [← hid]
          exact (Option.some.inj hgrant).symm
        | create | patch | revoke | delete | reportOutcome =>
          simp only [Mutation.cachedKind, reduceCtorEq] at hshare
          try split_ifs at hshare
    | created => exact .inl ⟨g', by rwa [← ticked_grants app now], .refl g'⟩

namespace Evolves

variable {since : Nat}

theorem record (hids : P.FreshIds) (h : app.Evolves P since next) (hr' : next.records.get? i = some r') :
    (∃ r, app.records.get? i = some r ∧ r.Grows r') ∨ ∃ k, since ≤ k ∧ i = P.uuid k := by
  induction h generalizing r' with
  | refl => exact .inl ⟨r', hr', .refl r'⟩
  | @ran b n call mid next _ hvalid hlasting hsince hruns ih =>
    rcases hruns.operated.record_grows (hlasting.fresh hids (le_refl n)) hr' with ⟨r₁, hr₁, hgrows⟩ | hi
    · exact (ih hr₁).imp_left fun ⟨r, hr, hold⟩ => ⟨r, hr, hold.trans hgrows⟩
    · exact .inr ⟨n, hsince, hi⟩
  | compacted _ hvalid hlasting ih => exact ih ((hlasting.compact hvalid).2.2.records i r' hr')
  | recovered _ hvalid hclosed ih =>
    obtain ⟨r₁, hr₁, heq⟩ := hclosed.record hr'
    have hgrows := Record.Grows.marked r₁ r'.signup false
    rw [← heq] at hgrows
    exact (ih hr₁).imp_left fun ⟨r, hr, hold⟩ => ⟨r, hr, hold.trans hgrows⟩
  | renumbered _ _ _ ih => exact ih hr'
  | clocked _ _ _ ih => exact ih hr'

theorem grant {gid : Uuid} {g' : Grant} (hids : P.FreshIds) (h : app.Evolves P since next)
    (hg' : next.grants.get? gid = some g') :
    (∃ g, app.grants.get? gid = some g ∧ g.Follows g') ∨ ∃ k, since ≤ k ∧ gid = P.uuid k := by
  induction h generalizing g' with
  | refl => exact .inl ⟨g', hg', .refl g'⟩
  | @ran b n call mid next _ hvalid hlasting hsince hruns ih =>
    rcases hruns.operated.grant_follows (hlasting.fresh hids (le_refl n)) hg' with ⟨g₁, hg₁, hfollows⟩ | hi
    · exact (ih hg₁).imp_left fun ⟨g, hg, hold⟩ => ⟨g, hg, hold.trans hfollows⟩
    · exact .inr ⟨n, hsince, hi⟩
  | compacted _ hvalid hlasting ih => exact ih ((hlasting.compact hvalid).2.2.grants gid g' hg')
  | recovered _ hvalid hclosed ih =>
    obtain ⟨g₁, hg₁, rfl⟩ := hclosed.grant hg'
    exact (ih hg₁).imp_left fun ⟨g, hg, hold⟩ => ⟨g, hg, hold.trans g₁.follows_revoked⟩
  | renumbered _ _ _ ih => exact ih hg'
  | clocked _ _ _ ih => exact ih hg'

/-- What was named is never new again. -/
theorem not_new (hids : P.FreshIds) (hlasting : Lasting P since app) (hnames : app.Names i) :
    ¬ ∃ k, since ≤ k ∧ i = P.uuid k := by
  rintro ⟨k, hk, heq⟩
  obtain ⟨j, hj, heq'⟩ := hlasting.named i hnames
  have hsame := hids.uuid_injective (heq.symm.trans heq')
  omega

theorem grows (hids : P.FreshIds) (hlasting : Lasting P since app) (h : app.Evolves P since next)
    (hr : app.records.get? i = some r) (hr' : next.records.get? i = some r') : r.Grows r' := by
  rcases h.record hids hr' with ⟨s, hs, hgrows⟩ | hnew
  · rw [hr, Option.some.injEq] at hs
    exact hs ▸ hgrows
  · exact absurd hnew (not_new hids hlasting (.inl ⟨r, hr⟩))

theorem follows {gid : Uuid} {g g' : Grant} (hids : P.FreshIds) (hlasting : Lasting P since app)
    (h : app.Evolves P since next) (hg : app.grants.get? gid = some g)
    (hg' : next.grants.get? gid = some g') : g.Follows g' := by
  rcases h.grant hids hg' with ⟨s, hs, hfollows⟩ | hnew
  · rw [hg, Option.some.injEq] at hs
    exact hs ▸ hfollows
  · exact absurd hnew (not_new hids hlasting (.inr (.inl ⟨g, hg⟩)))

end Evolves

end Application

end Credman
