import Credman.Outcomes
import Credman.Access

/-! Operations the policy accepts although no image of their result may be published. -/
namespace Credman

open Library

variable {P : Platform}

namespace Application

variable {app next : Application} {ctx : AuthenticatedContext} {task request : Uuid} {op : Mutation}
  {draw : Draw} {receipt : Receipt} {now effective : Time} {id : Uuid}

/-- A request that is answered from the cache changes the clock only. -/
theorem valid_of_replayed (h : app.Valid P) (heff : app.effectiveTime now = .ok effective)
    (hcached : (app.requests.get? (requestKey ctx task request)).isSome = true)
    (hrun : mutate P ctx task request op now draw app = .ok receipt next) : next.Valid P := by
  obtain ⟨effective', -, hexec | ⟨-, rfl⟩⟩ := wp_ok (wp_mutate P ctx task request op now draw app) hrun
  · have hfresh := hexec.fresh
    rw [ticked_requests] at hfresh
    rw [hfresh] at hcached
    cases hcached
  · exact h.ticked heff

/-- And one that is not has run. -/
theorem executed_of_uncached (heff : app.effectiveTime now = .ok effective)
    (hcached : ¬ (app.requests.get? (requestKey ctx task request)).isSome = true)
    (hrun : mutate P ctx task request op now draw app = .ok receipt next) :
    Executed P ctx task request op draw effective (app.ticked now) receipt next := by
  obtain ⟨effective', heff', hcase⟩ := wp_ok (wp_mutate P ctx task request op now draw app) hrun
  obtain rfl : effective = effective' := Except.ok.inj (heff.symm.trans heff')
  rcases hcase with hexec | ⟨hreplayed, -⟩
  · exact hexec
  · obtain ⟨previous, hprevious, -⟩ := hreplayed.cached
    rw [ticked_requests] at hprevious
    rw [hprevious] at hcached
    exact absurd rfl hcached

theorem oneService_ticked : (app.ticked now).OneService task id ↔ app.OneService task id := by
  unfold OneService
  rw [ticked_tasks, ticked_records]

end Application

open Application

/-- A deletion or a revocation that `mutate` accepts leaves an application fit for publication
exactly when it is answered from the cache, or the clock is not negative and the record
is of the service and origin of the task. An admin's task need not be. -/
theorem withdrawal_valid_iff {app next : Application} {ctx : AuthenticatedContext} {task request id : Uuid}
    {op : Mutation} {draw : Draw} {receipt : Receipt} {now effective : Time}
    (hvalid : app.validate P = .ok ()) (hop : op.withdraws = true) (htarget : op.target = some id)
    (heff : app.effectiveTime now = .ok effective)
    (hrun : mutate P ctx task request op now draw app = .ok receipt next) :
    next.validate P = .ok () ↔
      (app.requests.get? (requestKey ctx task request)).isSome = true
        ∨ 0 ≤ effective ∧ app.OneService task id := by
  have hvalid := validate_eq_ok.mp hvalid
  rw [validate_eq_ok]
  by_cases hcached : (app.requests.get? (requestKey ctx task request)).isSome = true
  · have hnext := valid_of_replayed hvalid heff hcached hrun
    exact ⟨fun _ => .inl hcached, fun _ => hnext⟩
  · have hexec := executed_of_uncached heff hcached hrun
    have hlast : (app.ticked now).lastTime = some effective := (lastTime_ticked heff).1
    have hkind : op.cachedKind ≠ .share ∧ op.unverifies = false := by
      cases op with
      | delete | revoke => exact ⟨nofun, rfl⟩
      | _ => cases hop
    obtain ⟨hshare, hkept⟩ := hkind
    rw [hexec.valid_iff (hvalid.ticked heff) htarget hlast fun h => absurd h hshare, oneService_ticked]
    constructor
    · exact fun ⟨hpos, hservice, _⟩ => .inr ⟨hpos, hservice⟩
    · rintro (h | ⟨hpos, hservice⟩)
      · exact absurd h hcached
      · exact ⟨hpos, hservice, fun _ => hkept⟩

/-! The vault of two agents, where the human holds a task of another service. -/

def humanTask : TaskApproval :=
  { aliceTask with id := 3, principal := "human", service := "bank", origin := "https://bank.example"
                   share := none }

def twoServices : Application := { sharedVault with tasks := sharedVault.tasks.insert 3 humanTask }

def human : AuthenticatedContext := .fromAuthenticatedAdmin "owner" "human" "home"

/-- The human deletes a mail login under the bank task: accepted, and unfit to be published. -/
theorem withdrawal_invalid_twoServices :
    twoServices.validate .reference = .ok () ∧ human.admin = true
      ∧ Application.TaskHeld twoServices human 3 9 humanTask
      ∧ twoServices.records.get? 10 = some sharedLogin ∧ sharedLogin.deleted = false
      ∧ sharedLogin.owner = human.owner ∧ sharedLogin.workspace = human.workspace
      ∧ ∃ receipt next,
        mutate .reference human 3 7 (.delete 10 2) 9 { id := 30, entropy := [] } twoServices
            = .ok receipt next
          ∧ next.validate .reference ≠ .ok () := by
  have hvalid : twoServices.validate .reference = .ok () := by decide +kernel
  have hheld : twoServices.task human 3 9 = .ok humanTask := by decide +kernel
  have hrecord : twoServices.records.get? 10 = some sharedLogin := by decide +kernel
  have hrun : returns (mutate .reference human 3 7 (.delete 10 2) 9 { id := 30, entropy := [] })
      (fun _ next => decide (next.validate .reference ≠ .ok ())) twoServices = true := by decide +kernel
  obtain ⟨receipt, next, hmutate, hinvalid⟩ := exists_of_returns hrun
  exact ⟨hvalid, rfl, task_eq_ok.mp hheld, hrecord, rfl, rfl, rfl, receipt, next, hmutate,
    of_decide_eq_true hinvalid⟩

/-- Under the task of the record's own agent the same deletion can be published. -/
theorem withdrawal_valid_iff_sharedVault : ∃ receipt next,
    mutate .reference (.fromAuthenticatedAdmin "owner" "alice" "home") 1 7 (.delete 10 2) 9
        { id := 30, entropy := [] } sharedVault = .ok receipt next
      ∧ (next.validate .reference = .ok () ↔
        (sharedVault.requests.get? (requestKey (.fromAuthenticatedAdmin "owner" "alice" "home") 1 7)).isSome = true
          ∨ (0 : Time) ≤ 9 ∧ sharedVault.OneService 1 10) := by
  have hvalid : sharedVault.validate .reference = .ok () := by decide +kernel
  have hclock : sharedVault.effectiveTime 9 = .ok 9 := by decide +kernel
  have hrun : returns (mutate .reference (.fromAuthenticatedAdmin "owner" "alice" "home") 1 7
      (.delete 10 2) 9 { id := 30, entropy := [] }) (fun _ _ => true) sharedVault = true := by
    decide +kernel
  obtain ⟨receipt, next, hmutate, -⟩ := exists_of_returns hrun
  exact ⟨receipt, next, hmutate, withdrawal_valid_iff hvalid rfl rfl hclock hmutate⟩

/-! A login that only the baseline of its record still shows. -/

namespace Application

variable {app next : Application} {ctx : AuthenticatedContext} {task request : Uuid} {op : Mutation}
  {draw : Draw} {receipt : Receipt} {now effective : Time} {id : Uuid}

end Application

end Credman
