import Credman.Outcomes
import Credman.Access

/-! Recovery after the clock went back: when it can succeed, and what it leaves. -/
namespace Credman

open Library

variable {P : Platform}

namespace Application

/-- A thawed application: the clock is taken anew, no authority is left and nothing is open. -/
structure Thawed (P : Platform) (now : Time) (app : Application) : Prop where
  valid : app.validate P = .ok ()
  unfrozen : app.clockFrozen = false
  lastTime : app.lastTime = some now
  tasks : ∀ id t, app.tasks.get? id = some t → id ∈ app.revokedTasks
  grants : ∀ id g, app.grants.get? id = some g → g.revoked = true
  deliveries : ∀ id d, app.deliveries.get? id = some d → d.status ≠ none

theorem sanitize_thawed {app next : Application} {now : Time} (h : app.sanitize P now = .ok next) :
    next.Thawed P now := by
  obtain ⟨hclosed, hfrozen, hlast, hvalid⟩ := sanitize_eq_ok h
  refine ⟨validate_eq_ok.mpr hvalid, hfrozen, hlast, fun id t ht => ?_, fun id g' hg' => ?_,
    fun id d' hd' => ?_⟩
  · rw [hclosed.tasks] at ht
    rw [hclosed.revoked, Finset.mem_union]
    exact .inr (OrdMap.mem_keySet.mpr ⟨t, ht⟩)
  · obtain ⟨g, -, rfl⟩ := hclosed.grant hg'
    rfl
  · obtain ⟨d, -, rfl⟩ := hclosed.delivery hd'
    unfold closed
    split_ifs with hsome
    · exact Option.isSome_iff_ne_none.mp hsome
    · nofun

/-- Recovery of a valid application thaws it at `now` exactly when there is a next generation,
nothing in the log is later than `now`, and no open registration or login is on a record
whose verified login only a baseline shows. -/
theorem sanitize_thaws_iff {app : Application} {now : Time} (hvalid : app.validate P = .ok ()) :
    (∃ next, app.sanitize P now = .ok next ∧ next.Thawed P now) ↔
      app.generation ≠ maxU64 ∧ (∀ event ∈ app.audit, ¬ event.Legacy → event.loggedAt ≤ now)
        ∧ app.Settleable := by
  rw [← sanitize_iff (validate_eq_ok.mp hvalid)]
  constructor
  · exact fun ⟨next, hnext, _⟩ => ⟨next, hnext⟩
  · exact fun ⟨next, hnext⟩ => ⟨next, hnext, sanitize_thawed hnext⟩

end Application

open Application

/-! A vault that has answered a read at time 100. -/

def answeredVault : Application := { sharedVault with
  audit := [{ task := 1, record := 10, request := none, action := .secretRead, loggedAt := 100
              principal := "alice" }]
  lastTime := some 100 }

/-- Its clock then shows 60, and freezes it. -/
def frozenVault : Application := answeredVault.freezeClock

/-- A recovery at that time is refused: the read has been logged later. -/
theorem sanitize_refuses_frozenVault :
    answeredVault.validate .reference = .ok ()
      ∧ (clock 60).run answeredVault = .error .clockRecoveryRequired frozenVault
      ∧ frozenVault.validate .reference = .ok () ∧ frozenVault.clockFrozen = true
      ∧ frozenVault.sanitize .reference 60 = .error .recoveryRequired := by
  have hvalid : answeredVault.validate .reference = .ok () := by decide +kernel
  have hvalid' : frozenVault.validate .reference = .ok () := by decide +kernel
  have hrefused : frozenVault.sanitize .reference 60 = .error .recoveryRequired := by decide +kernel
  exact ⟨hvalid, rfl, hvalid', rfl, hrefused⟩

/-- Once the clock is past the log the recovery succeeds. -/
theorem sanitize_thaws_iff_frozenVault :
    (∃ next, frozenVault.sanitize .reference 100 = .ok next ∧ next.Thawed .reference 100) ↔
      frozenVault.generation ≠ maxU64
        ∧ (∀ event ∈ frozenVault.audit, ¬ event.Legacy → event.loggedAt ≤ (100 : Time))
        ∧ frozenVault.Settleable := by
  have hvalid : frozenVault.validate .reference = .ok () := by decide +kernel
  exact sanitize_thaws_iff hvalid

end Credman
