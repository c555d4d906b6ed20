import Credman.Access

/-! Read-only administration projections. Metadata and secret values stay on the
task-scoped path. -/
namespace Credman

open Library

namespace Application

/-- The tasks a session may be issued for. -/
def validateSessionTasks (app : Application) (ctx : AuthenticatedContext) (principal : String)
    (tasks : List Uuid) (now : Time) (frozen : Bool) : Except Error Unit :=
  if !ctx.admin then .error .denied
  else if frozen then .error .recoveryRequired
  else if app.clockFrozen then .error .clockRecoveryRequired
  else if tasks.isEmpty || tasks.any (fun id => (app.tasks.get? id).all fun task =>
      task.owner != ctx.owner || task.workspace != ctx.workspace || task.principal != principal
        || decide (task.expiresAt ≤ now) || decide (id ∈ app.revokedTasks)) then
    .error .invalid
  else .ok ()

/-- What an accepted list has passed. -/
structure SessionTasks (app : Application) (ctx : AuthenticatedContext) (principal : String)
    (tasks : List Uuid) (now : Time) : Prop where
  is_admin : ctx.admin = true
  running : app.clockFrozen = false
  nonempty : tasks ≠ []
  held : ∀ id ∈ tasks, ∃ t, app.tasks.get? id = some t ∧ t.owner = ctx.owner
    ∧ t.workspace = ctx.workspace ∧ t.principal = principal ∧ now < t.expiresAt ∧ id ∉ app.revokedTasks

variable {app : Application} {ctx : AuthenticatedContext} {principal : String} {tasks : List Uuid}
  {now : Time} {frozen : Bool}

theorem validateSessionTasks_eq_ok : app.validateSessionTasks ctx principal tasks now frozen = .ok () ↔
    frozen = false ∧ app.SessionTasks ctx principal tasks now := by
  unfold validateSessionTasks
  split_ifs with hadmin hfrozen hclock hany
  · exact ⟨nofun, fun h => absurd h.2.is_admin (by simpa using hadmin)⟩
  · exact ⟨nofun, fun h => absurd h.1 (by simp [hfrozen])⟩
  · exact ⟨nofun, fun h => absurd h.2.running (by simp [hclock])⟩
  · refine ⟨nofun, fun ⟨_, h⟩ => ?_⟩
    rw [Bool.or_eq_true, List.any_eq_true] at hany
    rcases hany with hempty | ⟨id, hid, hall⟩
    · exact absurd (List.isEmpty_iff.mp hempty) h.nonempty
    · obtain ⟨t, ht, howner, hworkspace, hprincipal, hlive, hunrevoked⟩ := h.held id hid
      rw [ht] at hall
      simp [howner, hworkspace, hprincipal, not_le.mpr hlive, hunrevoked] at hall
  · rw [Bool.or_eq_true, not_or, List.any_eq_true] at hany
    refine ⟨fun _ => ⟨by simpa using hfrozen, by simpa using hadmin, by simpa using hclock, ?_, ?_⟩,
      fun _ => rfl⟩
    · exact fun h => hany.1 (List.isEmpty_iff.mpr h)
    · intro id hid
      cases ht : app.tasks.get? id with
      | none => exact absurd ⟨id, hid, by rw [ht]; rfl⟩ hany.2
      | some t =>
        refine ⟨t, rfl, ?_⟩
        by_contra hbad
        refine hany.2 ⟨id, hid, ?_⟩
        rw [ht, Option.all_some]
        simp only [Bool.or_eq_true, bne_iff_ne, decide_eq_true_eq]
        by_contra hgood
        simp only [not_or, not_not, not_le] at hgood
        obtain ⟨⟨⟨⟨howner, hworkspace⟩, hprincipal⟩, hlive⟩, hunrevoked⟩ := hgood
        exact hbad ⟨howner, hworkspace, hprincipal, hlive, hunrevoked⟩

theorem saturatingSub_le_iff {a b : Int} :
    Time.saturatingSub a b ≤ clockSkewTolerance ↔ a - b ≤ clockSkewTolerance := by
  unfold Time.saturatingSub
  rw [max_le_iff, min_le_iff]
  constructor
  · rintro ⟨-, h | h⟩
    · exact h
    · exact absurd h (by decide)
  · exact fun h => ⟨by decide, .inl h⟩

/-- The effective time of a sample, by its place relative to the high-water mark. -/
theorem effectiveTime_eq (hrunning : app.clockFrozen = false) : app.effectiveTime now =
    match app.lastTime with
    | none => .ok now
    | some last =>
      if last ≤ now then .ok now
      else if last - now ≤ clockSkewTolerance then .ok last
      else .error .clockRecoveryRequired := by
  unfold effectiveTime
  rw [hrunning, if_neg Bool.false_ne_true]
  cases app.lastTime with
  | none => rfl
  | some last =>
    simp only [saturatingSub_le_iff]
    by_cases hle : last ≤ now
    · rw [if_neg (not_lt.mpr hle), if_pos hle]
    · rw [if_pos (not_le.mp hle), if_neg hle]

/-- The issuing check agrees with the core's own as long as the sample is not behind the vault's
clock. Where it is, the core takes the high-water mark, or refuses; the issuing check looks at
the sample. -/
theorem issuance_agrees_iff (h : app.validateSessionTasks ctx principal tasks now frozen = .ok ()) :
    (∃ effective, app.effectiveTime now = .ok effective ∧ ∀ id ∈ tasks, ∀ deadline, effective < deadline →
      ∃ t, app.task (.fromAuthenticatedSession ctx.owner principal ctx.workspace deadline) id effective
        = .ok t)
    ↔ ∀ last, app.lastTime = some last → now < last → last - now ≤ clockSkewTolerance
      ∧ ∀ id ∈ tasks, ∀ t, app.tasks.get? id = some t → last < t.expiresAt := by
  obtain ⟨-, htasks⟩ := validateSessionTasks_eq_ok.mp h
  have hcore : ∀ effective, (∀ id ∈ tasks, ∀ deadline, effective < deadline →
        ∃ t, app.task (.fromAuthenticatedSession ctx.owner principal ctx.workspace deadline) id effective
          = .ok t)
      ↔ ∀ id ∈ tasks, ∀ t, app.tasks.get? id = some t → effective < t.expiresAt := by
    intro effective
    refine forall₂_congr fun id hid => ?_
    obtain ⟨t, ht, howner, hworkspace, hprincipal, -, hunrevoked⟩ := htasks.held id hid
    constructor
    · intro hall t' ht'
      obtain ⟨t'', htask⟩ := hall (effective + 1) (Int.lt_succ effective)
      have hheld := task_eq_ok.mp htask
      have hsame := hheld.found
      rw [ht', Option.some.injEq] at hsame
      exact hsame ▸ hheld.unexpired
    · intro hlive deadline hdeadline
      refine ⟨t, task_eq_ok.mpr ⟨ht, howner, hworkspace, hprincipal, hlive t ht, hunrevoked, ?_⟩⟩
      rintro _ ⟨⟩
      exact hdeadline
  simp only [hcore]
  rw [effectiveTime_eq htasks.running]
  cases hlast : app.lastTime with
  | none =>
    simp only [reduceCtorEq, false_implies, implies_true, iff_true, Except.ok.injEq, exists_eq_left']
    intro id hid t ht
    obtain ⟨t', ht', -, -, -, hlive, -⟩ := htasks.held id hid
    rw [ht, Option.some.injEq] at ht'
    exact ht' ▸ hlive
  | some last =>
    simp only [Option.some.injEq, forall_eq']
    split_ifs with hahead hskew
    · simp only [Except.ok.injEq, exists_eq_left', not_lt.mpr hahead, false_implies, iff_true]
      intro id hid t ht
      obtain ⟨t', ht', -, -, -, hlive, -⟩ := htasks.held id hid
      rw [ht, Option.some.injEq] at ht'
      exact ht' ▸ hlive
    · simp only [Except.ok.injEq, exists_eq_left', not_le.mp hahead, true_implies, hskew, true_and]
    · exact ⟨fun ⟨_, heq, _⟩ => (nomatch heq), fun hbehind => absurd (hbehind (not_le.mp hahead)).1 hskew⟩

/-- The vault's clock has reached 100, after Alice's task expired at 99. -/
def expiredVault : Application where
  tasks := (∅ : OrdMap Uuid TaskApproval).insert 1 { aliceTask with expiresAt := 99, share := none }
  lastTime := some 100
  generation := 1

/-- A sample of 97 issues a session for the expired task. -/
theorem issuance_disagrees_expiredVault :
    expiredVault.validateSessionTasks (.fromAuthenticatedAdmin "owner" "human" "home") "alice" [1] 97 false
      = .ok ()
    ∧ expiredVault.effectiveTime 97 = .ok 100
    ∧ expiredVault.task (.fromAuthenticatedSession "owner" "alice" "home" 200) 1 100 = .error .denied := by
  decide +kernel

theorem issuance_agrees_iff_expiredVault :
    (∃ effective, expiredVault.effectiveTime 97 = .ok effective
      ∧ ∀ id ∈ [1], ∀ deadline, effective < deadline →
        ∃ t, expiredVault.task (.fromAuthenticatedSession "owner" "alice" "home" deadline) id effective = .ok t)
    ↔ ∀ last, expiredVault.lastTime = some last → 97 < last → last - 97 ≤ clockSkewTolerance
      ∧ ∀ id ∈ [1], ∀ t, expiredVault.tasks.get? id = some t → last < t.expiresAt :=
  issuance_agrees_iff (show expiredVault.validateSessionTasks (.fromAuthenticatedAdmin "owner" "human" "home")
    "alice" [1] 97 false = .ok () by decide +kernel)

end Application

end Credman
