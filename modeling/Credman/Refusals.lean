import Credman.Operation
import Credman.Publication
import Credman.Access

/-! A refused operation moves the clock and nothing else. -/
namespace Credman

open Library

variable {P : Platform}

namespace Application

/-- `next` is `app` with another clock. -/
def SameButClock (app next : Application) : Prop :=
  next = { app with lastTime := next.lastTime, clockFrozen := next.clockFrozen }

theorem ClockOnly.same {app next : Application} {now : Time} (h : app.ClockOnly now next) :
    app.SameButClock next := by
  unfold SameButClock
  cases h with
  | ticked =>
    rw [ticked_clockFrozen]
    exact ticked_eq app now
  | frozen => rfl

/-- What holds of an operation that fails when it moves the clock at most. -/
theorem refused_same {α : Type} {operation : AppM α} {post : α → Application → Prop} {now : Time}
    {app next : Application} {e : Error}
    (hspec : wp operation post (fun _ next => app.ClockOnly now next) app)
    (h : operation app = .error e next) : app.SameButClock next := by
  have hclock : app.ClockOnly now next := wp_error (e := e) hspec h
  exact hclock.same

variable {admin ctx : AuthenticatedContext} {task request record attempt : Uuid} {now : Time} {draw : Draw}
  {app : Application}

theorem importClosure_refused {kind : CredentialKind} {values : SecretInput} {P : Platform} :
    wp (DurableVault.importClosure P admin task request kind values now draw) (fun _ _ => True)
      (fun _ next => app.ClockOnly now next) app := by
  simp only [DurableVault.importClosure, wp_bind, wp_clock, wp_get, wp_liftExcept]
  refine ⟨fun effective heff => ⟨fun ctx _ => ?_, fun _ _ => .ticked heff⟩, fun e he => .frozen he⟩
  refine wp_mono (wp_mutate P ctx task request (.create kind values) effective draw (app.ticked now))
    (fun _ _ _ => trivial) fun _ next hclock => ?_
  rw [clockOnly_ticked heff hclock]
  exact .ticked heff

theorem readClosure_refused {fields : Fields} :
    wp (DurableVault.readClosure admin task record fields now) (fun _ _ => True)
      (fun _ next => app.ClockOnly now next) app := by
  simp only [DurableVault.readClosure, wp_bind, wp_clock, wp_get, wp_liftExcept]
  refine ⟨fun effective heff => ⟨fun ctx _ => ?_, fun _ _ => .ticked heff⟩, fun e he => .frozen he⟩
  refine wp_mono (wp_readSecret ctx task record fields effective (app.ticked now))
    (fun _ _ _ => trivial) fun _ next hclock => ?_
  rw [clockOnly_ticked heff hclock]
  exact .ticked heff

end Application

open Application

/-- Whatever fails leaves the candidate as it was but for the clock, and a commit that fails
leaves the owner's application as it was. -/
theorem refused_same_but_clock (P : Platform) (app next : Application) (e : Error) :
    (∀ admin t now, approveTask admin t now app = .error e next → app.SameButClock next)
    ∧ (∀ admin task now, revokeTask admin task now app = .error e next → app.SameButClock next)
    ∧ (∀ ctx task request op now draw,
        mutate P ctx task request op now draw app = .error e next → app.SameButClock next)
    ∧ (∀ ctx task record fields now,
        metadata ctx task record fields now app = .error e next → app.SameButClock next)
    ∧ (∀ ctx task record fields now,
        readSecret ctx task record fields now app = .error e next → app.SameButClock next)
    ∧ (∀ admin task request kind values now draw,
        DurableVault.importClosure P admin task request kind values now draw app = .error e next →
          app.SameButClock next)
    ∧ (∀ admin task record fields now,
        DurableVault.readClosure admin task record fields now app = .error e next → app.SameButClock next)
    ∧ (∀ ctx task use attempt now,
        usePrepare P ctx task use attempt now app = .error e next → app.SameButClock next)
    ∧ ∀ (owner owner' : DurableVault) candidate m m',
        owner.commit P candidate m = .ok (owner', .error e) m' → owner'.app = owner.app := by
  refine ⟨fun _ _ _ h => (approveTask_error h).same, fun _ _ _ h => refused_same (wp_revokeTask _ _ _ app) h,
    fun _ _ _ _ _ _ h => refused_same (wp_mutate P _ _ _ _ _ _ app) h,
    fun _ _ _ _ _ h => refused_same (wp_metadata _ _ _ _ _ app) h,
    fun _ _ _ _ _ h => refused_same (wp_readSecret _ _ _ _ _ app) h,
    fun _ _ _ _ _ _ _ h => refused_same importClosure_refused h,
    fun _ _ _ _ _ h => refused_same readClosure_refused h,
    fun _ _ _ _ _ h => refused_same (wp_usePrepare P _ _ _ _ _ app) h, ?_⟩
  intro owner owner' candidate m m' h
  obtain ⟨-, hcommitted⟩ := wp_ok (DurableVault.wp_commit P owner candidate m) h
  generalize m'.dir = d' at hcommitted
  cases hcommitted with
  | rejected | notPublished | unknown => rfl

/-- A report against an old revision is refused, and only the clock moves. -/
theorem refused_same_but_clock_sharedVault : ∃ next,
    mutate .reference (.fromAuthenticatedPeer "owner" "alice" "home") 1 7 (.reportOutcome 10 1 .pending) 9
      { id := 30, entropy := [] } sharedVault = .error .conflict next ∧ sharedVault.SameButClock next := by
  have hrefused : (match mutate .reference (.fromAuthenticatedPeer "owner" "alice" "home") 1 7
      (.reportOutcome 10 1 .pending) 9 { id := 30, entropy := [] } sharedVault with
    | .error e _ => e == .conflict
    | .ok _ _ => false) = true := by decide +kernel
  cases h : mutate .reference (.fromAuthenticatedPeer "owner" "alice" "home") 1 7
      (.reportOutcome 10 1 .pending) 9 { id := 30, entropy := [] } sharedVault with
  | ok a next =>
    rw [h] at hrefused
    cases hrefused
  | error e next =>
    rw [h] at hrefused
    obtain rfl : e = .conflict := by simpa using hrefused
    obtain ⟨-, -, hmutate, -⟩ := refused_same_but_clock .reference sharedVault next .conflict
    exact ⟨next, rfl, hmutate _ _ _ _ _ _ h⟩

end Credman
