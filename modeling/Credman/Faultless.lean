import Credman.Transfer
import Credman.Registration
import Credman.EffectiveTime
import Credman.Litter

/-! Where nothing disturbs it, a durable vault is its application in memory: the core, a
system of its own, says what each call answers and what is kept after it. -/
namespace Credman

open Library Library.Checked Library.FileM Relation Application DurableVault

variable {P : Platform}

/-! The core. -/

namespace Core

section Takes

variable {α : Type}

/-- What comes of an operation on the application, which is compacted first if it has to be. -/
def propose (app : Application) (operation : AppM α) : Except Error α × Application :=
  match operation.run (if app.shouldCompact then app.compact else app) with
  | .ok a next => (.ok a, next)
  | .error e next => (.error e, next)

/-- Nothing keeps `next` from being stored after `app`. -/
structure Storable (P : Platform) (app next : Application) : Prop where
  room : app.generation ≠ maxU64
  current : ∃ bytes, encode P { app with
    lastTime := laterTime app.lastTime next.lastTime, generation := 1 } = .ok bytes
  candidate : ∃ bytes, encode P { next with
    lastTime := laterTime app.lastTime next.lastTime, generation := 1 } = .ok bytes
  published : ∃ bytes, encode P { next with generation := app.generation + 1 } = .ok bytes

/-- An operation is kept with what it leaves, also where it fails. Only what cannot be stored is not kept,
and then nothing has happened. -/
inductive Takes (P : Platform) (app : Application) (operation : AppM α) : Except Error α → Application → Prop
  | kept (g : UInt64) : Takes P app operation (propose app operation).1
      { (propose app operation).2 with generation := g }
  | full {e : Error} (h : ¬ Storable P app (propose app operation).2) (he : e.ofStorage = true) :
    Takes P app operation (.error e) app

end Takes

section Uses

variable (P : Platform) (app : Application) (n : Nat) (ctx : AuthenticatedContext) (task : Uuid)
  (use : PrivateUse) (preparedAt handoffAt : Time) (deliver : SecretInput → Delivered)

/-- The attempt is journaled. -/
def Journals (journaled : Application) : Prop :=
  Takes P app (usePrepare P ctx task use (P.uuid n) preparedAt) (.ok none) journaled

/-- A private use: how it ends, what is kept, whether the vault is frozen by it, and what the callback was
given. -/
inductive Uses : UseOutcome → Application → Bool → List SecretInput → Prop
  | refused {e : Error} {next : Application}
      (h : Takes P app (usePrepare P ctx task use (P.uuid n) preparedAt) (.error e) next) :
    Uses (.result (.error e)) next false []
  | replayed {receipt : DeliveryReceipt} {next : Application}
      (h : Takes P app (usePrepare P ctx task use (P.uuid n) preparedAt) (.ok (some receipt)) next) :
    Uses (.result (.ok receipt)) next false []
  | withdrawn {e : Error} {journaled checked next : Application}
      (h : Journals P app n ctx task use preparedAt journaled)
      (hcheck : (useAuthorize ctx task use handoffAt).run journaled = .error e checked)
      (hcancel : Takes P checked (useCancel use (P.uuid n)) (.ok ()) next) :
    Uses (.result (.error e)) next false []
  | stuck {e e' : Error} {journaled checked next : Application}
      (h : Journals P app n ctx task use preparedAt journaled)
      (hcheck : (useAuthorize ctx task use handoffAt).run journaled = .error e checked)
      (hcancel : Takes P checked (useCancel use (P.uuid n)) (.error e') next) :
    Uses (.result (.error .recoveryRequired)) next true []
  | panicked {values : SecretInput} {effective : Time} {journaled checked : Application}
      (h : Journals P app n ctx task use preparedAt journaled)
      (hcheck : (useAuthorize ctx task use handoffAt).run journaled = .ok (values, effective) checked)
      (hdeliver : deliver values = .panicked) : Uses .panicked checked true [values]
  | unrecorded {e : Error} {values : SecretInput} {effective : Time} {journaled checked next : Application}
      (h : Journals P app n ctx task use preparedAt journaled)
      (hcheck : (useAuthorize ctx task use handoffAt).run journaled = .ok (values, effective) checked)
      (hdeliver : deliver values ≠ .panicked)
      (hfinish : Takes P checked (useFinish ctx task use (P.uuid n) (deliver values).status effective)
        (.error e) next) : Uses (.result (.error .recoveryRequired)) next true [values]
  | finished {values : SecretInput} {effective : Time} {journaled checked next : Application}
      (h : Journals P app n ctx task use preparedAt journaled)
      (hcheck : (useAuthorize ctx task use handoffAt).run journaled = .ok (values, effective) checked)
      (hdeliver : deliver values ≠ .panicked)
      (hfinish : Takes P checked (useFinish ctx task use (P.uuid n) (deliver values).status effective)
        (.ok ()) next) :
    Uses (.result (match deliver values with
      | .returned status => .ok { attempt := P.uuid n, status }
      | _ => .error .interactionRequired)) next false [values]

end Uses

/-- What a call asks, and how it is answered. -/
inductive Asks (P : Platform) (n : Nat) : Call → {α : Type} → AppM α → (Except Error α → Answer) → Prop
  | approveTask (admin : AuthenticatedContext) (task : TaskApproval) (now : Time) :
    Asks P n (.approveTask admin task now) (Application.approveTask admin task now) .done
  | revokeTask (admin : AuthenticatedContext) (task : Uuid) (now : Time) :
    Asks P n (.revokeTask admin task now) (Application.revokeTask admin task now) .done
  | mutate (ctx : AuthenticatedContext) (task request : Uuid) (op : Mutation) (now : Time) :
    Asks P n (.mutate ctx task request op now)
      (Application.mutate P ctx task request op now { id := P.uuid n, entropy := P.osRng n }) .receipt
  | metadata (ctx : AuthenticatedContext) (task record : Uuid) (fields : Fields) (now : Time) :
    Asks P n (.metadata ctx task record fields now) (Application.metadata ctx task record fields now) .view
  | importForTask (admin : AuthenticatedContext) (task request : Uuid) (kind : CredentialKind)
      (values : SecretInput) (now : Time) :
    Asks P n (.importForTask admin task request kind values now)
      (importClosure P admin task request kind values now { id := P.uuid n, entropy := P.osRng n }) .receipt
  | readForTask (admin : AuthenticatedContext) (task record : Uuid) (fields : Fields) (now : Time) :
    Asks P n (.readForTask admin task record fields now) (readClosure admin task record fields now) .values

end Core

/-- The vault without its disk: the application, whether it is frozen, how much was drawn, and what the
callbacks were given. -/
structure Core where
  app : Application
  frozen : Bool
  drawn : Nat
  handed : List SecretInput

namespace Core

/-- One call. -/
inductive Step (P : Platform) (c : Core) : Call → Answer → Core → Prop
  | applied {call : Call} {α : Type} {operation : AppM α} {answer : Except Error α → Answer}
      {result : Except Error α} {next : Application} {n : Nat} (hopen : c.frozen = false)
      (hasks : Asks P c.drawn call operation answer) (h : Takes P c.app operation result next)
      (hle : c.drawn + call.draws ≤ n) : Step P c call (answer result) { c with app := next, drawn := n }
  | used {ctx : AuthenticatedContext} {task : Uuid} {use : PrivateUse} {preparedAt handoffAt : Time}
      {deliver : SecretInput → Delivered} {outcome : UseOutcome} {next : Application} {frozen : Bool}
      {handed : List SecretInput} {n : Nat} (hopen : c.frozen = false)
      (h : Uses P c.app c.drawn ctx task use preparedAt handoffAt deliver outcome next frozen handed)
      (hle : c.drawn + 1 ≤ n) : Step P c (.useSecret ctx task use preparedAt handoffAt deliver)
        (.delivery outcome) { app := next, frozen, drawn := n, handed := c.handed ++ handed }
  | refused {call : Call} {α : Type} {operation : AppM α} {answer : Except Error α → Answer} {n : Nat}
      (hfrozen : c.frozen = true) (hasks : Asks P c.drawn call operation answer) (hle : c.drawn ≤ n) :
    Step P c call (answer (.error .recoveryRequired)) { c with drawn := n }
  | unused {ctx : AuthenticatedContext} {task : Uuid} {use : PrivateUse} {preparedAt handoffAt : Time}
      {deliver : SecretInput → Delivered} {n : Nat} (hfrozen : c.frozen = true) (hle : c.drawn ≤ n) :
    Step P c (.useSecret ctx task use preparedAt handoffAt deliver)
      (.delivery (.result (.error .recoveryRequired))) { c with drawn := n }

/-- One call after another. -/
inductive Serves (P : Platform) : Core → List Call → List Answer → Core → Prop
  | done (c : Core) : Serves P c [] [] c
  | next {c c' c'' : Core} {call : Call} {answer : Answer} {calls : List Call} {answers : List Answer}
      (h : Step P c call answer c') (hrest : Serves P c' calls answers c'') :
    Serves P c (call :: calls) (answer :: answers) c''

end Core

/-! One commit. -/

section Commit

variable {owner owner' : DurableVault} {candidate : Application} {m m' : VaultMachine} {α : Type}

/-- The owner is ready, its directory shows its image and no gate, and nothing is in its way. -/
structure Calm (P : Platform) (owner : DurableVault) (m : VaultMachine) : Prop where
  clean : m.faults = []
  ready : owner.ready = .ok ()
  no_pending : m.dir .pending = none
  no_recovery : m.dir .recovery = none
  current : m.dir .state = owner.store.currentImage
  kept : Kept P (fun _ => True) m.rest.drawn ⟨m.dir, some owner⟩
  free : ∀ n, m.rest.drawn ≤ n → m.dir (.candidate (P.uuid n)) = none

theorem not_storable_of_stage {e : Error} (hready : owner.ready = .ok ()) (h : owner.stage P candidate = .error e) :
    ¬ Core.Storable P owner.app candidate := by
  intro hstorable
  obtain ⟨left, hleft⟩ := hstorable.current
  obtain ⟨right, hright⟩ := hstorable.candidate
  obtain ⟨bytes, hbytes⟩ := hstorable.published
  have hvalid := validate_eq_ok.mpr (encode_eq_ok.mp hbytes).1
  simp only [stage, hready, clockOnlyDifference, hleft, hright, bind_eq_error, pure_eq_error, and_false,
    exists_false, or_false, reduceCtorEq, false_or, Except.ok.injEq] at h
  obtain ⟨-, -, clockOnly, -, h⟩ := h
  split_ifs at h
  · cases h
  · simp only [bind_eq_error, failIf_eq_error, pure_eq_error, and_false, exists_false, or_false, hvalid,
      reduceCtorEq] at h
    exact hstorable.room (beq_iff_eq.mp h.1)

/-- What cannot be sealed is not published. -/
theorem wp_publishWith_unsealed {store : Store} {app : Application} {key : VaultKey} {salt : Salt}
    {kdf : KdfParams} {e : Error} {halt : Halted → VaultMachine → Prop}
    {post : Store × Publication → VaultMachine → Prop} (hclean : m.faults = []) (hopen : store.blocked = false)
    (hpending : m.dir .pending = none) (hrecovery : m.dir .recovery = none)
    (hseal : sealImage P app key salt kdf (P.nonce m.rest.drawn) = .error e) :
    wp (store.publishWith P app key salt kdf) post halt m ↔
      post (store, .notPublished) { m with rest := { m.rest with drawn := m.rest.drawn + 1 } } := by
  unfold Store.publishWith
  simp only [hopen, Bool.false_eq_true, if_false]
  rw [wp_bind, wp_pendingExists_undisturbed hclean hpending hrecovery]
  simp only
  rw [wp_bind, wp_drawIndex]
  simp only [hseal, wp_pure]

/-- What a commit comes to that nothing disturbs. -/
inductive Settles (P : Platform) (owner : DurableVault) (candidate : Application) :
    DurableVault × Except Error Unit → Prop
  | kept {owner' : DurableVault} (hready : owner'.ready = .ok ()) : Settles P owner candidate (owner', .ok ())
  | full {e : Error} (h : ¬ Core.Storable P owner.app candidate) (he : e.ofStorage = true) :
    Settles P owner candidate (owner, .error e)

theorem wp_commit_undisturbed (h : Calm P owner m) :
    wp (owner.commit P candidate) (fun out m' => Settles P owner candidate out ∧ m'.faults = []
      ∧ m'.dir .state = out.1.store.currentImage ∧ ∀ name, name ≠ .state → m'.dir name = m.dir name)
      (fun _ _ => False) m := by
  obtain ⟨hopen, hunblocked⟩ := ready_eq_ok.mp h.ready
  unfold commit
  cases hstage : owner.stage P candidate with
  | error e =>
    exact ⟨.full (not_storable_of_stage h.ready hstage) (stage_error hstage), h.clean, h.current, fun _ _ => rfl⟩
  | ok staged =>
    cases staged with
    | none => exact ⟨.kept h.ready, h.clean, h.current, fun _ _ => rfl⟩
    | some next =>
      simp only
      rw [wp_bind, Store.publish]
      obtain ⟨rfl, -⟩ := stage_some hstage
      cases hseal : sealImage P { candidate with generation := owner.app.generation + 1 } owner.store.key
          owner.store.salt owner.store.kdf (P.nonce m.rest.drawn) with
      | error e =>
        rw [wp_publishWith_unsealed h.clean hunblocked h.no_pending h.no_recovery hseal]
        refine ⟨.full (fun hstorable => ?_) rfl, h.clean, h.current, fun _ _ => rfl⟩
        obtain ⟨bytes, hbytes⟩ := hstorable.published
        rw [sealImage_eq_ok.mpr ⟨bytes, hbytes, rfl⟩] at hseal
        cases hseal
      | ok image =>
        have hcurrent : owner.store.currentImage.isNone = true → m.dir .state = none := by
          intro hnone
          rw [h.current, Option.isNone_iff_eq_none.mp hnone]
        rw [wp_publishWith_undisturbed h.clean hunblocked h.no_pending h.no_recovery hcurrent
          (h.free _ (Nat.le_add_right _ 1)) hseal]
        exact ⟨.kept (ready_eq_ok.mpr ⟨hunblocked, hunblocked⟩), h.clean,
          Function.update_self FileName.state (some image) m.dir,
          fun name hne => Function.update_of_ne hne (some image) m.dir⟩

/-- A commit that nothing disturbs keeps its candidate, or leaves everything as it was. -/
theorem Calm.commit (hseals : P.Seals) (h : Calm P owner m) (hcandidate : Lasting P m.rest.drawn candidate)
    (hlater : ∀ last, owner.app.lastTime = some last →
      ∃ later, candidate.lastTime = some later ∧ last ≤ later) :
    wp (owner.commit P candidate) (fun out m' => Calm P out.1 m' ∧ m.rest.Later m'.rest
      ∧ ((out.2 = .ok () ∧ ∃ g, out.1.app = { candidate with generation := g })
        ∨ ∃ e, out = (owner, .error e) ∧ ¬ Core.Storable P owner.app candidate ∧ e.ofStorage = true))
      (fun _ _ => False) m := by
  have hvalid := h.kept.valid owner rfl
  have hlasting := h.kept.lasting owner rfl
  refine wp_mono (wp_and (wp_commit P owner candidate m) (wp_commit_undisturbed h)) ?_ fun _ _ hno => hno.2
  rintro ⟨owner', result⟩ m' ⟨⟨hafter, hcommitted⟩, hsettles, hclean, hcurrent, hframe⟩
  have hkept : Kept P (fun _ => True) m'.rest.drawn ⟨m'.dir, some owner'⟩ :=
    (h.kept.committed hseals hcandidate (fun _ => trivial) hlater hcommitted).later hafter.drawn
  have hcalm : owner'.ready = .ok () → Calm P owner' m' := fun hready =>
    ⟨hclean, hready, (hframe _ (by simp)).trans h.no_pending, (hframe _ (by simp)).trans h.no_recovery, hcurrent,
      hkept, fun n hn => (hframe _ (by simp)).trans (h.free n (hafter.drawn.trans hn))⟩
  generalize hout : (owner', result) = out at hsettles
  cases hsettles with
  | full hfull he =>
    cases hout
    exact ⟨hcalm h.ready, hafter, .inr ⟨_, rfl, hfull, he⟩⟩
  | kept hready =>
    cases hout
    refine ⟨hcalm hready, hafter, .inl ⟨rfl, ?_⟩⟩
    generalize hcommit : (Except.ok () : Except Error Unit) = result at hcommitted
    generalize m'.dir = d' at hcommitted
    cases hcommitted with
    | rejected | notPublished | unknown => cases hcommit
    | memory hstage =>
      exact ⟨_, (stage_none hseals.toJson hvalid hlasting.dated hcandidate.dated hlater hstage).same⟩
    | durable hstage =>
      obtain ⟨rfl, -⟩ := stage_some hstage
      exact ⟨_, rfl⟩

/-- A ready owner proposes, and answers what it proposed if that is committed. -/
theorem apply_eq_commit {operation : AppM α} (hready : owner.ready = .ok ()) : owner.apply P operation = (do
    let out ← owner.commit P (owner.proposal operation).2
    pure (out.1, answered out.2 (owner.proposal operation).1)) := by
  unfold DurableVault.apply proposal
  rw [hready]
  cases operation.run owner.staged with
  | ok a next | error e next =>
    refine bind_congr fun out => ?_
    rcases out with ⟨owner', e | u⟩ <;> rfl

/-- One operation of a calm owner is one of the core. -/
theorem Calm.apply {operation : AppM α} (hseals : P.Seals) (h : Calm P owner m)
    (hcandidate : Lasting P m.rest.drawn (owner.proposal operation).2)
    (hlater : ∀ last, owner.app.lastTime = some last →
      ∃ later, (owner.proposal operation).2.lastTime = some later ∧ last ≤ later) :
    wp (owner.apply P operation) (fun out m' => Calm P out.1 m' ∧ m.rest.Later m'.rest
      ∧ Core.Takes P owner.app operation out.2 out.1.app) (fun _ _ => False) m := by
  rw [apply_eq_commit h.ready, wp_bind]
  refine wp_mono (h.commit hseals hcandidate hlater) ?_ fun _ _ hno => hno
  rintro ⟨owner', result⟩ m' ⟨hcalm, hafter, ⟨heq, g, happ⟩ | ⟨e, heq, hfull, he⟩⟩
  · obtain rfl : result = .ok () := heq
    refine ⟨hcalm, hafter, ?_⟩
    have happ' : owner'.app = { (Core.propose owner.app operation).2 with generation := g } := happ
    change Core.Takes P owner.app operation (Core.propose owner.app operation).1 owner'.app
    rw [happ']
    exact .kept g
  · cases heq
    exact ⟨hcalm, hafter, .full hfull he⟩

/-- What an operation that a call runs leaves can be committed. -/
theorem Calm.ran {operation : AppM α} {call : Call} {b n : Nat} (hids : P.FreshIds) (hseals : P.Seals)
    (h : Calm P owner m) (hlasting : Lasting P n owner.app) (hle : n ≤ m.rest.drawn)
    (hran : call.Ran P b n m.rest.drawn owner.staged (owner.proposal operation).2) :
    wp (owner.apply P operation) (fun out m' => Calm P out.1 m' ∧ m.rest.Later m'.rest
      ∧ Core.Takes P owner.app operation out.2 out.1.app) (fun _ _ => False) m := by
  obtain ⟨hstaged, hstagedLasting, hlast⟩ := staged_lasting (h.kept.valid owner rfl) hlasting
  exact h.apply hseals (hstagedLasting.ran hids hstaged hle hran)
    fun last hlast' => hran.run.operated.lastTime last (hlast.trans hlast')

theorem Calm.runs {operation : AppM α} {call : Call} {b : Nat} (hids : P.FreshIds) (hseals : P.Seals)
    (h : Calm P owner m) (hruns : ∀ n, call.Runs P b n owner.staged (owner.proposal operation).2) :
    wp (owner.apply P operation) (fun out m' => Calm P out.1 m' ∧ m.rest.Later m'.rest
      ∧ Core.Takes P owner.app operation out.2 out.1.app) (fun _ _ => False) m :=
  h.ran hids hseals (h.kept.lasting owner rfl) (le_refl _) (.inr hruns)

/-- The check before a handoff moves the clock in memory. -/
theorem Calm.authorized {call : Call} {b : Nat} {app : Application} {now : Time} (hids : P.FreshIds)
    (h : Calm P owner m) (hclock : owner.app.ClockOnly now app) (hruns : ∀ n, call.Runs P b n owner.app app) :
    Calm P { owner with app } m where
  clean := h.clean
  ready := h.ready
  no_pending := h.no_pending
  no_recovery := h.no_recovery
  current := h.current
  kept := .owned ((h.kept.valid owner rfl).clockOnly hclock)
    ((h.kept.lasting owner rfl).ran hids (h.kept.valid owner rfl) (le_refl _) (.inr hruns)) trivial
    (h.kept.fits owner · rfl) h.kept.carries
  free := h.free

end Commit

/-! A private use. -/

section Use

variable {owner : DurableVault} {m : VaultMachine} {ctx : AuthenticatedContext} {task : Uuid} {use : PrivateUse}
  {preparedAt handoffAt : Time} {deliver : SecretInput → Delivered} {n : Nat} {app journaled : Application}

/-- What a private use has come to: it is one of the core's, and the owner is calm unless it is frozen. -/
def UseComes (P : Platform) (app : Application) (n : Nat) (ctx : AuthenticatedContext) (task : Uuid)
    (use : PrivateUse) (preparedAt handoffAt : Time) (deliver : SecretInput → Delivered) (handoffs : List Handoff)
    (out : DurableVault × UseOutcome) (m' : VaultMachine) : Prop :=
  ∃ frozen handed, Core.Uses P app n ctx task use preparedAt handoffAt deliver out.2 out.1.app frozen handed
    ∧ n + 1 ≤ m'.rest.drawn ∧ m'.rest.handoffs.map Handoff.values = handoffs.map Handoff.values ++ handed
    ∧ if frozen then out.1.frozen = true else Calm P out.1 m'

theorem Calm.concludeUse {values : SecretInput} {effective : Time} (hids : P.FreshIds) (hseals : P.Seals)
    (h : Calm P owner m) (hle : n + 1 ≤ m.rest.drawn) {handoffs : List Handoff}
    (hlog : m.rest.handoffs.map Handoff.values = handoffs.map Handoff.values ++ [values])
    (hjournals : Core.Journals P app n ctx task use preparedAt journaled)
    (hcheck : (useAuthorize ctx task use handoffAt).run journaled = .ok (values, effective) owner.app) :
    wp (owner.concludeUse P ctx task use (P.uuid n) effective (deliver values))
      (UseComes P app n ctx task use preparedAt handoffAt deliver handoffs) (fun _ _ => False) m := by
  have hruns : ∀ n', (Call.useSecret ctx task use 0 0 fun _ => .failed).Runs P n n' owner.staged
      (owner.proposal (useFinish ctx task use (P.uuid n) (deliver values).status effective)).2 :=
    fun _ => .useFinish (proposal_leaves _)
  have hfinish := h.runs hids hseals hruns
  unfold DurableVault.concludeUse
  cases hdeliver : deliver values with
  | panicked => exact ⟨true, [values], .panicked hjournals hcheck hdeliver, hle, hlog, rfl⟩
  | returned status | failed =>
    have hreturned : deliver values ≠ .panicked := by
      rw [hdeliver]
      exact fun hno => by cases hno
    rw [hdeliver] at hfinish
    simp only
    rw [wp_bind]
    refine wp_mono hfinish ?_ fun _ _ hno => hno
    rintro ⟨owner', e | u⟩ m' ⟨hcalm, hafter, htakes⟩
    · refine ⟨true, [values], .unrecorded hjournals hcheck hreturned (hdeliver ▸ htakes),
        hle.trans hafter.drawn, ?_, rfl⟩
      rw [hafter.handoffs, hlog]
    · refine ⟨false, [values], ?_, hle.trans hafter.drawn, by rw [hafter.handoffs, hlog], hcalm⟩
      have hfinished := Core.Uses.finished hjournals hcheck hreturned (hdeliver ▸ htakes)
      rw [hdeliver] at hfinished
      exact hfinished

theorem Calm.handOff (hids : P.FreshIds) (hseals : P.Seals) (h : Calm P owner m) (hle : n + 1 ≤ m.rest.drawn)
    (hjournals : Core.Journals P app n ctx task use preparedAt owner.app) :
    wp (owner.handOff P ctx task use (P.uuid n) handoffAt deliver)
      (UseComes P app n ctx task use preparedAt handoffAt deliver m.rest.handoffs) (fun _ _ => False) m := by
  have hspec := wp_useAuthorize ctx task use handoffAt owner.app
  unfold DurableVault.handOff
  cases hcheck : (useAuthorize ctx task use handoffAt).run owner.app with
  | error e checked =>
    have hclock := wp_error hspec hcheck
    have hleaves : Leaves (useAuthorize ctx task use handoffAt) owner.app checked := .inr ⟨e, hcheck⟩
    have hauthorized : ∀ n', (Call.useSecret ctx task use 0 handoffAt fun _ => .failed).Runs P n n' owner.app
        checked :=
      fun _ => .useAuthorize hleaves
    have hcalm := h.authorized hids hclock hauthorized
    have hcancelled : ∀ n', (Call.useSecret ctx task use 0 0 fun _ => .failed).Runs P n n'
        ({ owner with app := checked } : DurableVault).staged
        (({ owner with app := checked } : DurableVault).proposal (useCancel use (P.uuid n))).2 :=
      fun _ => .useCancel (proposal_leaves _)
    simp only
    rw [wp_bind]
    refine wp_mono (hcalm.runs hids hseals hcancelled) ?_ fun _ _ hno => hno
    rintro ⟨owner', e' | u⟩ m' ⟨hcalm', hafter, htakes⟩
    · exact ⟨true, [], .stuck hjournals hcheck htakes, hle.trans hafter.drawn,
        by rw [hafter.handoffs, List.append_nil], rfl⟩
    · exact ⟨false, [], .withdrawn hjournals hcheck htakes, hle.trans hafter.drawn,
        by rw [hafter.handoffs, List.append_nil], hcalm'⟩
  | ok out checked =>
    obtain ⟨values, effective⟩ := out
    obtain ⟨heff, -, rfl⟩ := wp_ok hspec hcheck
    have hleaves : Leaves (useAuthorize ctx task use handoffAt) owner.app (owner.app.ticked handoffAt) :=
      .inl ⟨_, hcheck⟩
    have hauthorized : ∀ n', (Call.useSecret ctx task use 0 handoffAt fun _ => .failed).Runs P n n' owner.app
        (owner.app.ticked handoffAt) := fun _ => .useAuthorize hleaves
    have hcalm := h.authorized hids (.ticked heff) hauthorized
    have hlogged : ∀ h, Calm P { owner with app := owner.app.ticked handoffAt } (logged h m) := fun _ =>
      ⟨hcalm.clean, hcalm.ready, hcalm.no_pending, hcalm.no_recovery, hcalm.current, hcalm.kept, hcalm.free⟩
    simp only [logHandoff, wp_bind, wp_get, wp_modify]
    exact (hlogged _).concludeUse hids hseals hle List.map_append hjournals hcheck

/-- A private use of a calm owner is one of the core. -/
theorem Calm.useSecret (hids : P.FreshIds) (hseals : P.Seals) (h : Calm P owner m) :
    wp (owner.useSecret P ctx task use preparedAt handoffAt deliver)
      (UseComes P owner.app m.rest.drawn ctx task use preparedAt handoffAt deliver m.rest.handoffs)
      (fun _ _ => False) m := by
  have hnumbered : Calm P owner (numbered m) :=
    ⟨h.clean, h.ready, h.no_pending, h.no_recovery, h.current, h.kept.later (Nat.le_add_right _ 1),
      fun n hn => h.free n (Nat.le_of_succ_le hn)⟩
  have hran : (Call.useSecret ctx task use preparedAt handoffAt deliver).Ran P m.rest.drawn m.rest.drawn
      (m.rest.drawn + 1) owner.staged
      (owner.proposal (usePrepare P ctx task use (P.uuid m.rest.drawn) preparedAt)).2 :=
    .inl ⟨Nat.lt_succ_self _, .usePrepare (proposal_leaves _)⟩
  have hprepare := hnumbered.ran hids hseals (h.kept.lasting owner rfl) (Nat.le_add_right _ 1) hran
  unfold DurableVault.useSecret
  rw [wp_bind, wp_drawIndex, wp_bind]
  refine wp_mono hprepare ?_ fun _ _ hno => hno
  rintro ⟨owner', result⟩ m' ⟨hcalm, hafter, htakes⟩
  have hle : m.rest.drawn + 1 ≤ m'.rest.drawn := hafter.drawn
  have hlog : m'.rest.handoffs = m.rest.handoffs := hafter.handoffs
  rcases result with e | _ | receipt
  · exact ⟨false, [], .refused htakes, hle, by rw [hlog, List.append_nil], hcalm⟩
  · simp only
    have hready : owner'.ready = .ok () := hcalm.ready
    rw [hready, ← hlog]
    exact hcalm.handOff hids hseals hle htakes
  · exact ⟨false, [], .replayed htakes, hle, by rw [hlog, List.append_nil], hcalm⟩

end Use

/-! The vault of a fleet. -/

section Fleet

variable {fleet : Fleet} {i : Nat} {owner : DurableVault} {call : Call}

/-- The vault, its disk forgotten. -/
def Core.of (fleet : Fleet) (owner : DurableVault) : Core where
  app := owner.app
  frozen := owner.frozen || owner.store.blocked
  drawn := fleet.session.drawn
  handed := fleet.session.handoffs.map Handoff.values

/-- The owner of the store is calm, or it is frozen and does nothing any more. -/
structure Quiet (P : Platform) (fleet : Fleet) (i : Nat) (owner : DurableVault) : Prop where
  held : (fleet.stores i).owner = some owner
  calm : owner.frozen = true ∨ Calm P owner (fleet.machine i [])

theorem Core.Asks.exists (htimed : call.timed = true) (hdelivers : call.delivers = false) (n : Nat) :
    ∃ (α : Type) (operation : AppM α) (answer : Except Error α → Answer),
      Core.Asks P n call operation answer := by
  cases call with
  | approveTask => exact ⟨_, _, _, .approveTask ..⟩
  | revokeTask => exact ⟨_, _, _, .revokeTask ..⟩
  | mutate => exact ⟨_, _, _, .mutate ..⟩
  | metadata => exact ⟨_, _, _, .metadata ..⟩
  | importForTask => exact ⟨_, _, _, .importForTask ..⟩
  | readForTask => exact ⟨_, _, _, .readForTask ..⟩
  | useSecret => cases hdelivers
  | _ => cases htimed

variable {α : Type} {operation : AppM α} {answer : Except Error α → Answer} {owner' : DurableVault}

theorem Core.Asks.ran {n : Nat} {app next : Application} (hasks : Core.Asks P n call operation answer)
    (hleaves : Leaves operation app next) : call.Ran P n n (n + call.draws) app next := by
  cases hasks with
  | approveTask => exact .inr fun _ => .approveTask hleaves
  | revokeTask => exact .inr fun _ => .revokeTask hleaves
  | mutate => exact .inl ⟨Nat.lt_succ_self n, .mutate hleaves⟩
  | metadata => exact .inr fun _ => .metadata hleaves
  | importForTask => exact .inl ⟨Nat.lt_succ_self n, .importForTask hleaves⟩
  | readForTask => exact .inr fun _ => .readForTask hleaves

/-- What the store's process does for such a call. -/
theorem Core.Asks.step {result : Except Error α} {m : VaultMachine}
    (hasks : Core.Asks P fleet.session.drawn call operation answer) (howner : (fleet.stores i).owner = some owner)
    (happly : owner.apply P operation (fleet.begun i call []) = .ok (owner', result) m) :
    fleet.step P i call [] = (fleet.put i ⟨m.dir, some owner'⟩ m.rest, answer result) := by
  cases hasks <;> exact ask_of_ok howner happly

/-- A frozen owner refuses. -/
theorem apply_frozen (hfrozen : owner.frozen = true) (m : VaultMachine) :
    owner.apply P operation m = .ok (owner, .error .recoveryRequired) m := by
  unfold DurableVault.apply DurableVault.ready
  rw [hfrozen]
  rfl

theorem quiet_put {m : VaultMachine} (h : owner'.frozen = true ∨ Calm P owner' m) :
    Quiet P (fleet.put i ⟨m.dir, some owner'⟩ m.rest) i owner' := by
  refine ⟨congrArg StoreState.owner (Fleet.put_self ..), h.imp_right fun hcalm => ?_⟩
  have hmachine : (fleet.put i ⟨m.dir, some owner'⟩ m.rest).machine i [] = m := by
    unfold Fleet.machine
    rw [Fleet.put_self, Fleet.put_session, ← hcalm.clean]
  rw [hmachine]
  exact hcalm

theorem open_of_ready (hready : owner.ready = .ok ()) : (owner.frozen || owner.store.blocked) = false := by
  obtain ⟨hopen, hunblocked⟩ := ready_eq_ok.mp hready
  rw [hopen, hunblocked, Bool.false_or]

theorem Quiet.ask (hids : P.FreshIds) (hseals : P.Seals) (h : Quiet P fleet i owner)
    (hasks : Core.Asks P fleet.session.drawn call operation answer) :
    ∃ owner', Quiet P (fleet.step P i call []).1 i owner' ∧ Core.Step P (Core.of fleet owner) call
      (fleet.step P i call []).2 (Core.of (fleet.step P i call []).1 owner') := by
  have hlater : fleet.session.drawn ≤ fleet.session.drawn + call.draws := Nat.le_add_right _ _
  rcases h.calm with hfrozen | hcalm
  · rw [hasks.step h.held (apply_frozen hfrozen _)]
    exact ⟨owner, quiet_put (.inl hfrozen), .refused (by unfold Core.of; rw [hfrozen, Bool.true_or]) hasks hlater⟩
  · have hbegun : Calm P owner (fleet.begun i call []) :=
      ⟨rfl, hcalm.ready, hcalm.no_pending, hcalm.no_recovery, hcalm.current, hcalm.kept.later hlater,
        fun n hn => hcalm.free n (hlater.trans hn)⟩
    have hspec := hbegun.ran hids hseals (hcalm.kept.lasting owner rfl) hlater (hasks.ran (proposal_leaves operation))
    cases happly : owner.apply P operation (fleet.begun i call []) with
    | error e m => exact (wp_error hspec happly).elim
    | ok out m =>
      obtain ⟨owner', result⟩ := out
      obtain ⟨hcalm', hafter, htakes⟩ := wp_ok hspec happly
      rw [hasks.step h.held happly]
      refine ⟨owner', quiet_put (.inr hcalm'), ?_⟩
      have hcore : Core.of (fleet.put i ⟨m.dir, some owner'⟩ m.rest) owner'
          = { Core.of fleet owner with app := owner'.app, drawn := m.rest.drawn } := by
        unfold Core.of
        have hlog : m.rest.handoffs = fleet.session.handoffs := hafter.handoffs
        rw [open_of_ready hcalm.ready, open_of_ready hcalm'.ready, Fleet.put_session, hlog]
      rw [hcore]
      exact .applied (open_of_ready hcalm.ready) hasks htakes hafter.drawn

theorem Quiet.use (hids : P.FreshIds) (hseals : P.Seals) (h : Quiet P fleet i owner) (ctx : AuthenticatedContext)
    (task : Uuid) (use : PrivateUse) (preparedAt handoffAt : Time) (deliver : SecretInput → Delivered) :
    ∃ owner', Quiet P (fleet.step P i (.useSecret ctx task use preparedAt handoffAt deliver) []).1 i owner'
      ∧ Core.Step P (Core.of fleet owner) (.useSecret ctx task use preparedAt handoffAt deliver)
        (fleet.step P i (.useSecret ctx task use preparedAt handoffAt deliver) []).2
        (Core.of (fleet.step P i (.useSecret ctx task use preparedAt handoffAt deliver) []).1 owner') := by
  have hstep : ∀ {owner' : DurableVault} {outcome : UseOutcome} {m : VaultMachine},
      owner.useSecret P ctx task use preparedAt handoffAt deliver (fleet.machine i []) = .ok (owner', outcome) m →
      fleet.step P i (.useSecret ctx task use preparedAt handoffAt deliver) []
        = (fleet.put i ⟨m.dir, some owner'⟩ m.rest, .delivery outcome) := fun hrun => ask_of_ok h.held hrun
  rcases h.calm with hfrozen | hcalm
  · have hrun : owner.useSecret P ctx task use preparedAt handoffAt deliver (fleet.machine i [])
        = .ok (owner, .result (.error .recoveryRequired)) (numbered (fleet.machine i [])) := by
      rw [eq_ok_iff_wp]
      unfold DurableVault.useSecret
      rw [wp_bind, wp_drawIndex, wp_bind]
      refine wp_mono (eq_ok_iff_wp.mp (apply_frozen hfrozen _)) ?_ fun _ _ hno => hno
      rintro - - ⟨rfl, rfl⟩
      exact ⟨rfl, rfl⟩
    rw [hstep hrun]
    exact ⟨owner, quiet_put (.inl hfrozen),
      .unused (by unfold Core.of; rw [hfrozen, Bool.true_or]) (Nat.le_add_right _ 1)⟩
  · have hspec : wp (owner.useSecret P ctx task use preparedAt handoffAt deliver) _ _ (fleet.machine i []) :=
      hcalm.useSecret hids hseals
    cases hrun : owner.useSecret P ctx task use preparedAt handoffAt deliver (fleet.machine i []) with
    | error e m => exact (wp_error hspec hrun).elim
    | ok out m =>
      obtain ⟨owner', outcome⟩ := out
      obtain ⟨frozen, handed, huses, hle, hlog, hafter⟩ := wp_ok hspec hrun
      rw [hstep hrun]
      have hcore : Core.of (fleet.put i ⟨m.dir, some owner'⟩ m.rest) owner'
          = { app := owner'.app, frozen, drawn := m.rest.drawn
              handed := fleet.session.handoffs.map Handoff.values ++ handed } := by
        have hlog' : m.rest.handoffs.map Handoff.values = fleet.session.handoffs.map Handoff.values ++ handed := hlog
        unfold Core.of
        rw [Fleet.put_session, hlog']
        cases frozen with
        | true =>
          have hfrozen : owner'.frozen = true := hafter
          rw [hfrozen, Bool.true_or]
        | false =>
          have hcalm' : Calm P owner' m := hafter
          rw [open_of_ready hcalm'.ready]
      refine ⟨owner', quiet_put ?_, ?_⟩
      · cases frozen with
        | true => exact .inl hafter
        | false => exact .inr hafter
      · rw [hcore]
        exact .used (open_of_ready hcalm.ready) huses hle

theorem Quiet.step (hids : P.FreshIds) (hseals : P.Seals) (h : Quiet P fleet i owner) (htimed : call.timed = true) :
    ∃ owner', Quiet P (fleet.step P i call []).1 i owner' ∧ Core.Step P (Core.of fleet owner) call
      (fleet.step P i call []).2 (Core.of (fleet.step P i call []).1 owner') := by
  cases hdelivers : call.delivers with
  | false =>
    obtain ⟨α, operation, answer, hasks⟩ := Core.Asks.exists (P := P) htimed hdelivers fleet.session.drawn
    exact h.ask hids hseals hasks
  | true =>
    cases call with
    | useSecret ctx task use preparedAt handoffAt deliver =>
      exact h.use hids hseals ctx task use preparedAt handoffAt deliver
    | _ => cases hdelivers

/-- One call after another, and no fault. -/
def Fleet.serve (P : Platform) (i : Nat) : Fleet → List Call → Fleet × List Answer
  | fleet, [] => (fleet, [])
  | fleet, call :: calls =>
    let stepped := fleet.step P i call []
    let served := Fleet.serve P i stepped.1 calls
    (served.1, stepped.2 :: served.2)

/-- Where no fault meets it, a durable vault that is ready does what its application in memory does:
whatever is asked of it, and however often, each answer is the core's and so is all that is kept; a call fails in
the storage only if what it leaves cannot be stored, and then it has done nothing. -/
theorem serve_refines (hids : P.FreshIds) (hseals : P.Seals) (hreach : Fleet.Reachable P fleet)
    (howner : (fleet.stores i).owner = some owner) (hready : owner.ready = .ok ())
    (calls : List Call) (hcalls : ∀ call ∈ calls, call.timed = true) :
    ∃ owner', ((fleet.serve P i calls).1.stores i).owner = some owner'
      ∧ Core.Serves P (Core.of fleet owner) calls (fleet.serve P i calls).2
        (Core.of (fleet.serve P i calls).1 owner') := by
  obtain ⟨hsound, hfaithful⟩ := Faithful.runs hids hseals hreach
  obtain ⟨hmirrored, -⟩ := hfaithful i owner howner hready
  have hkept : Kept P (fun _ => True) fleet.session.drawn ⟨(fleet.stores i).dir, some owner⟩ := by
    rw [← howner]
    exact hsound.stores i
  have hquiet : Quiet P fleet i owner := ⟨howner, .inr ⟨rfl, hready, hmirrored.no_pending, hmirrored.no_recovery,
    hmirrored.current, hkept, fun n hn => (hreach.tidied hseals i).free hids hn rfl⟩⟩
  clear hreach hready hsound hfaithful hmirrored hkept howner
  induction calls generalizing fleet owner with
  | nil => exact ⟨owner, hquiet.held, .done _⟩
  | cons call calls ih =>
    obtain ⟨mid, hmid, hstep⟩ := hquiet.step hids hseals (hcalls call List.mem_cons_self)
    have hrest : ∀ other ∈ calls, other.timed = true := fun other hother =>
      hcalls other (List.mem_cons_of_mem _ hother)
    obtain ⟨owner', howner', hserves⟩ := ih hrest hmid
    exact ⟨owner', howner', .next hstep hserves⟩

end Fleet

/-- Alice shares her login, uses it and asks for it; then her task is ended. -/
def shift : List Call := [
  .mutate (.fromAuthenticatedPeer "owner" "alice" "home") 1 6 (.share 6 1 pinnedSpec) 5,
  .useSecret (.fromAuthenticatedPeer "owner" "alice" "home") 1 mailUse 6 7 fun _ => .returned .accepted,
  .metadata (.fromAuthenticatedPeer "owner" "alice" "home") 1 6 mailUse.fields 8,
  .revokeTask (.fromAuthenticatedAdmin "owner" "human" "home") 1 9]

theorem serve_refines_importedVault : ∃ owner owner' : DurableVault, (importedVault.stores 0).owner = some owner
    ∧ ((importedVault.serve .reference 0 shift).1.stores 0).owner = some owner'
    ∧ Core.Serves .reference (Core.of importedVault owner) shift (importedVault.serve .reference 0 shift).2
      (Core.of (importedVault.serve .reference 0 shift).1 owner') := by
  have hopen : ((importedVault.stores 0).owner.any fun owner => !owner.frozen && !owner.store.blocked) = true := by
    decide +kernel
  rw [Option.any_eq_true_iff_get] at hopen
  obtain ⟨hsome, hopen⟩ := hopen
  obtain ⟨owner, howner⟩ := Option.isSome_iff_exists.mp hsome
  simp only [howner, Option.get_some, Bool.and_eq_true, Bool.not_eq_true'] at hopen
  have htimed : ∀ call ∈ shift, call.timed = true := by
    simp [shift, Call.timed]
  obtain ⟨owner', howner', hserves⟩ := serve_refines Platform.reference_freshIds Platform.reference_seals
    importedVault_reachable howner (ready_eq_ok.mpr hopen) shift htimed
  exact ⟨owner, owner', howner, howner', hserves⟩

end Credman
