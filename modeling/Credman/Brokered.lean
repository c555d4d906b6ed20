import Credman.Broker
import Credman.Staging
import Credman.Entry
import Credman.Reference

/-! Runs of a created vault under its broker: what the owner holds can be
published, and so can whatever the next operation proposes. -/
namespace Credman

open Library Library.Checked Application

/-- A broker operation: no clock sample is negative, and a private use only uses. -/
def Call.Brokered : Call → Prop
  | .approveTask _ _ now | .revokeTask _ _ now | .mutate _ _ _ _ now | .metadata _ _ _ _ now
  | .importForTask _ _ _ _ _ now | .readForTask _ _ _ _ now => 0 ≤ now
  | .useSecret _ _ use preparedAt handoffAt _ => use.action = .use ∧ 0 ≤ preparedAt ∧ 0 ≤ handoffAt
  | .create _ | .open _ | .recover .. | .restore .. | .close | .rekey .. | .exportBackup .. => False

/-- A deletion or a revocation in an admin's context. -/
def Call.overrides : Call → Bool
  | .mutate ctx _ _ op _ => ctx.admin && op.withdraws
  | _ => false

/-- A vault created in store `i`, and any broker operations on it. -/
inductive Brokered (P : Platform) (i : Nat) : Fleet → Prop
  | created (mnemonic : String) (faults : List Fault) :
    Brokered P i (Fleet.start.step P i (.create mnemonic) faults).1
  | called {fleet : Fleet} (h : Brokered P i fleet) {call : Call} (hcall : call.Brokered)
      (faults : List Fault) : Brokered P i (fleet.step P i call faults).1

/-- The candidates a broker operation hands to `commit`, each with the owner that commits
it: one for each `apply` of the source. A private use has two, and the second depends on
how the first was published. -/
inductive Proposes (P : Platform) (owner : DurableVault) (drawn : Nat) :
    Call → DurableVault → Application → Prop
  | approveTask (admin : AuthenticatedContext) (task : TaskApproval) (now : Time) :
    Proposes P owner drawn (.approveTask admin task now) owner
      (owner.proposal (Application.approveTask admin task now)).2
  | revokeTask (admin : AuthenticatedContext) (task : Uuid) (now : Time) :
    Proposes P owner drawn (.revokeTask admin task now) owner
      (owner.proposal (Application.revokeTask admin task now)).2
  | mutate (ctx : AuthenticatedContext) (task request : Uuid) (op : Mutation) (now : Time) :
    Proposes P owner drawn (.mutate ctx task request op now) owner
      (owner.proposal (Application.mutate P ctx task request op now
        { id := P.uuid drawn, entropy := P.osRng drawn })).2
  | metadata (ctx : AuthenticatedContext) (task record : Uuid) (fields : Fields) (now : Time) :
    Proposes P owner drawn (.metadata ctx task record fields now) owner
      (owner.proposal (Application.metadata ctx task record fields now)).2
  | importForTask (admin : AuthenticatedContext) (task request : Uuid) (kind : CredentialKind)
      (values : SecretInput) (now : Time) :
    Proposes P owner drawn (.importForTask admin task request kind values now) owner
      (owner.proposal (DurableVault.importClosure P admin task request kind values now
        { id := P.uuid drawn, entropy := P.osRng drawn })).2
  | readForTask (admin : AuthenticatedContext) (task record : Uuid) (fields : Fields) (now : Time) :
    Proposes P owner drawn (.readForTask admin task record fields now) owner
      (owner.proposal (DurableVault.readClosure admin task record fields now)).2
  | usePrepare (ctx : AuthenticatedContext) (task : Uuid) (use : PrivateUse)
      (preparedAt handoffAt : Time) (deliver : SecretInput → Delivered) :
    Proposes P owner drawn (.useSecret ctx task use preparedAt handoffAt deliver) owner
      (owner.proposal (Application.usePrepare P ctx task use (P.uuid drawn) preparedAt)).2
  | useCancel (ctx : AuthenticatedContext) (task : Uuid) (use : PrivateUse)
      (preparedAt handoffAt : Time) (deliver : SecretInput → Delivered) {m m' : VaultMachine}
      {journaled : DurableVault} {e : Error} {app : Application}
      (hjournaled : owner.apply P (Application.usePrepare P ctx task use (P.uuid drawn) preparedAt) m
        = .ok (journaled, .ok none) m')
      (hcheck : (Application.useAuthorize ctx task use handoffAt).run journaled.app = .error e app) :
    Proposes P owner drawn (.useSecret ctx task use preparedAt handoffAt deliver)
      { journaled with app }
      (DurableVault.proposal { journaled with app } (Application.useCancel use (P.uuid drawn))).2
  | useFinish (ctx : AuthenticatedContext) (task : Uuid) (use : PrivateUse)
      (preparedAt handoffAt : Time) (deliver : SecretInput → Delivered) {m m' : VaultMachine}
      {journaled : DurableVault} {values : SecretInput} {effective : Time} {app : Application}
      (hjournaled : owner.apply P (Application.usePrepare P ctx task use (P.uuid drawn) preparedAt) m
        = .ok (journaled, .ok none) m')
      (hcheck : (Application.useAuthorize ctx task use handoffAt).run journaled.app
        = .ok (values, effective) app) :
    Proposes P owner drawn (.useSecret ctx task use preparedAt handoffAt deliver)
      { journaled with app }
      (DurableVault.proposal { journaled with app } (Application.useFinish ctx task use
        (P.uuid drawn) (deliver values).status effective)).2

variable {P : Platform}

/-! One operation, on what can be published. -/

namespace Application

/-- On what can be published an operation leaves what can be published, if `strict`, and
what the next one relies on in any case. -/
def Sustains {α : Type} (P : Platform) (id : Uuid) (strict : Prop) (operation : AppM α) : Prop :=
  ∀ app : Application, app.Publishable P → app.Fresh id →
    wp operation (fun _ next => next.Steady ∧ (strict → next.Valid P))
      (fun _ next => next.Steady ∧ (strict → next.Valid P)) app

theorem Sustains.of_publishable {α : Type} {id : Uuid} {strict : Prop} {operation : AppM α}
    (h : ∀ app : Application, app.Publishable P → app.Fresh id →
      wp operation (fun _ next => next.Publishable P) (fun _ next => next.Publishable P) app) :
    Sustains P id strict operation := fun app hpublishable hfresh =>
  wp_mono (h app hpublishable hfresh) (fun _ _ hnext => ⟨hnext.steady, fun _ => hnext.valid⟩)
    fun _ _ hnext => ⟨hnext.steady, fun _ => hnext.valid⟩

theorem Sustains.mutate (ctx : AuthenticatedContext) (task request : Uuid) (op : Mutation)
    {now : Time} (draw : Draw) (hnow : 0 ≤ now) :
    Sustains P draw.id (ctx.admin = true → op.withdraws = false)
      (Application.mutate P ctx task request op now draw) := fun _ hpublishable hfresh =>
  wp_mono (hpublishable.mutate hnow hfresh) (fun _ _ hnext => hnext)
    fun _ _ hnext => ⟨hnext.steady, fun _ => hnext.valid⟩

/-- The operation names nothing new. -/
def NamesNothing {α : Type} (operation : AppM α) : Prop :=
  ∀ app, wp operation (fun _ next => ∀ id, next.Names id → app.Names id)
    (fun _ next => ∀ id, next.Names id → app.Names id) app

/-- What an operation names does not depend on an identifier it does not use. -/
theorem namesNothing_of_operates {α : Type} {operation : AppM α}
    (h : ∀ id, Operates P id operation) : NamesNothing operation := by
  have hboth : ∀ {app next : Application}, Operated P 0 app next → Operated P 1 app next →
      ∀ id, next.Names id → app.Names id := by
    intro app next hzero hone id hid
    rcases hzero.names hid with hold | rfl
    · exact hold
    · exact (hone.names hid).resolve_right (by decide)
  intro app
  exact wp_mono (wp_and (h 0 app) (h 1 app)) (fun _ _ hnext => hboth hnext.1 hnext.2)
    fun _ _ hnext => hboth hnext.1 hnext.2

end Application

namespace DurableVault

variable {owner owner' : DurableVault} {candidate : Application}

/-- What every call of the broker keeps of the owner: its application can be published, and
has no identifier that was not drawn. -/
structure Sustained (P : Platform) (drawn : Nat) (owner : DurableVault) : Prop where
  publishable : owner.app.Publishable P
  named : ∀ id, owner.app.Names id → ∃ k, k < drawn ∧ id = P.uuid k

theorem Sustained.later {drawn drawn' : Nat} (h : Sustained P drawn owner) (hle : drawn ≤ drawn') :
    Sustained P drawn' owner where
  publishable := h.publishable
  named id hid := by
    obtain ⟨k, hk, rfl⟩ := h.named id hid
    exact ⟨k, by omega, rfl⟩

theorem staged_publishable (h : owner.app.Publishable P) : owner.staged.Publishable P := by
  unfold staged
  split_ifs
  · exact h.compact
  · exact h

theorem Shrinks.names {app next : Application} (h : app.Shrinks next) {id : Uuid}
    (hid : next.Names id) : app.Names id := by
  rcases hid with ⟨r, hr⟩ | ⟨g, hg⟩ | ⟨d, hd⟩
  · exact .inl ⟨r, h.records id r hr⟩
  · exact .inr (.inl ⟨g, h.grants id g hg⟩)
  · exact .inr (.inr ⟨d, h.deliveries id d hd⟩)

theorem Sustained.fresh {drawn : Nat} (hids : P.FreshIds) (h : Sustained P drawn owner) :
    owner.staged.Fresh (P.uuid drawn) := by
  have hnot : ¬ owner.staged.Names (P.uuid drawn) := by
    intro hnames
    obtain ⟨k, hk, heq⟩ := h.named _
      (Shrinks.names (staged_shrinks h.publishable.valid h.publishable.steady.once) hnames)
    have hsame := hids.uuid_injective heq
    omega
  unfold Application.Names at hnot
  push Not at hnot
  obtain ⟨hrecord, hgrant, hdelivery⟩ := hnot
  exact ⟨hids.uuid_ne_nil drawn, Option.eq_none_iff_forall_ne_some.mpr hrecord,
    Option.eq_none_iff_forall_ne_some.mpr hgrant, Option.eq_none_iff_forall_ne_some.mpr hdelivery⟩

/-- What an operation ensures on the staged copy holds of what it proposes. -/
theorem proposal_spec {α : Type} {operation : AppM α} {p : Except Error α → Application → Prop}
    (h : wp operation (fun a next => p (.ok a) next) (fun e next => p (.error e) next)
      owner.staged) : p (owner.proposal operation).1 (owner.proposal operation).2 := by
  unfold wp at h
  cases hrun : operation owner.staged with
  | ok value next =>
    have hproposal : owner.proposal operation = (.ok value, next) := by
      unfold proposal EStateM.run
      rw [hrun]
    rw [hrun] at h
    rw [hproposal]
    exact h
  | error e next =>
    have hproposal : owner.proposal operation = (.error e, next) := by
      unfold proposal EStateM.run
      rw [hrun]
    rw [hrun] at h
    rw [hproposal]
    exact h

theorem proposal_of_wp {α : Type} {operation : AppM α} {p : Application → Prop}
    (h : wp operation (fun _ next => p next) (fun _ next => p next) owner.staged) :
    p (owner.proposal operation).2 :=
  proposal_spec (p := fun _ next => p next) h

theorem Committed.sustained {drawn bound n : Nat} {d d' : Dir FileName}
    {committed : Except Error Unit} (h : Sustained P drawn owner) (hsteady : candidate.Steady)
    (hlater : ∀ last, owner.app.lastTime = some last →
      ∃ later, candidate.lastTime = some later ∧ last ≤ later)
    (hnamed : ∀ id, candidate.Names id → owner.app.Names id ∨ ∃ k, k < bound ∧ id = P.uuid k)
    (hle : drawn ≤ bound) (hc : Committed P owner candidate n d (owner', committed) d') :
    Sustained P bound owner' := by
  have hpublished : ∀ {next : Application} {store : Store} {frozen : Bool},
      owner.stage P candidate = .ok (some next) → Sustained P bound { app := next, store, frozen } := by
    intro next store frozen hstage
    obtain ⟨rfl, hvalid⟩ := stage_some hstage
    refine ⟨⟨hvalid, hsteady.of_eq rfl rfl rfl rfl⟩, fun id hid => ?_⟩
    rcases hnamed id hid with hold | hnew
    · obtain ⟨k, hk, heq⟩ := h.named id hold
      exact ⟨k, by omega, heq⟩
    · exact hnew
  cases hc with
  | rejected => exact h.later hle
  | memory =>
    refine ⟨⟨h.publishable.valid.of_clock h.publishable.valid.generation (fun hfrozen => ?_) hlater rfl,
      h.publishable.steady.of_eq rfl rfl rfl rfl⟩, (h.later hle).named⟩
    obtain ⟨last, hlast⟩ := Option.isSome_iff_exists.mp (h.publishable.valid.clock hfrozen)
    obtain ⟨later, hnext, -⟩ := hlater last hlast
    exact Option.isSome_iff_exists.mpr ⟨later, hnext⟩
  | notPublished hstage | unknown hstage =>
    exact ⟨h.publishable, (h.later hle).named⟩
  | durable hstage => exact hpublished hstage

/-- One `apply`: whatever becomes of the candidate, the owner is still in order. -/
theorem Sustained.apply {α : Type} {drawn bound : Nat} {id : Uuid} {operation : AppM α}
    {m : VaultMachine} (h : Sustained P drawn owner) (hle : drawn ≤ bound)
    (hsteady : (owner.proposal operation).2.Steady)
    (hoperates : Operated P id owner.staged (owner.proposal operation).2)
    (hnamed : ∀ other, (owner.proposal operation).2.Names other →
      owner.staged.Names other ∨ ∃ k, k < bound ∧ other = P.uuid k) :
    wp (owner.apply P operation)
      (fun out m' => m.rest.drawn ≤ m'.rest.drawn ∧ Sustained P bound out.1
        ∧ (∀ value, out.2 = .ok value → (owner.proposal operation).1 = .ok value
          ∧ (out.1.app.deliveries = owner.app.deliveries
            ∨ out.1.app.deliveries = (owner.proposal operation).2.deliveries)))
      (fun _ _ => True) m := by
  have hshrinks := staged_shrinks h.publishable.valid h.publishable.steady.once
  apply wp_mono (wp_apply P owner operation m)
  · rintro ⟨owner', result⟩ m' (⟨-, heq, rfl⟩ | ⟨-, committed, hlater, hcommitted, hresult⟩)
    · cases heq
      exact ⟨le_refl _, h.later hle, nofun⟩
    · refine ⟨hlater.drawn, hcommitted.sustained h hsteady (fun last hlast => ?_)
        (fun other hother => ?_) hle, fun value hvalue => ?_⟩
      · exact hoperates.lastTime last (hshrinks.lastTime.trans hlast)
      · exact (hnamed other hother).imp_left (Shrinks.names hshrinks)
      · change result = _ at hresult
        change result = _ at hvalue
        rw [hresult] at hvalue
        generalize m.dir = d, m'.dir = d' at hcommitted
        cases hcommitted with
        | rejected | notPublished | unknown => cases hvalue
        | memory hstage => exact ⟨hvalue, .inl rfl⟩
        | durable hstage =>
          obtain ⟨rfl, -⟩ := stage_some hstage
          exact ⟨hvalue, .inr rfl⟩
  · exact fun _ _ _ => trivial

/-- Staging refuses a valid candidate only for its size or its generation. -/
theorem stage_ne_invalidStorage (howner : owner.app.Valid P) (hcandidate : candidate.Valid P)
    (hlater : ∀ last, owner.app.lastTime = some last →
      ∃ later, candidate.lastTime = some later ∧ last ≤ later) :
    owner.stage P candidate ≠ .error .invalidStorage := by
  have hencode : ∀ app : Application, app.Valid P → app.encode P ≠ .error .invalidStorage := by
    intro app hvalid herror
    rw [encode, bind_eq_error, validate_eq_ok.mpr hvalid] at herror
    simp only [bind_eq_error, failIf_eq_error, pure_eq_error, and_false, exists_const, or_false,
      reduceCtorEq] at herror
  have hmax : ∀ {last later : Option Time}, (∀ t, last = some t → ∃ t', later = some t' ∧ t ≤ t') →
      laterTime last later = later := by
    intro last later h
    cases last with
    | none => cases later <;> rfl
    | some t =>
      obtain ⟨t', rfl, hle⟩ := h t rfl
      exact congrArg some (max_eq_right hle)
  have hhigh := hmax hlater
  have hleft : Application.Valid P
      { owner.app with lastTime := candidate.lastTime, generation := 1 } := by
    refine howner.of_clock UInt64.zero_lt_one (fun hfrozen => ?_) hlater rfl
    obtain ⟨last, hlast⟩ := Option.isSome_iff_exists.mp (howner.clock hfrozen)
    obtain ⟨later, hnext, -⟩ := hlater last hlast
    exact Option.isSome_iff_exists.mpr ⟨later, hnext⟩
  have hright : Application.Valid P { candidate with generation := 1 } :=
    hcandidate.withGeneration UInt64.zero_lt_one
  have hready : owner.ready ≠ .error .invalidStorage := by
    unfold ready
    split_ifs <;> exact fun h => by cases h
  have hvalidates : owner.app.generation ≠ maxU64 → Application.Valid P
      { candidate with generation := owner.app.generation + 1 } := fun hroom =>
    hcandidate.withGeneration (lt_of_le_of_lt (UInt64.le_iff_toNat_le.mpr (Nat.zero_le _))
      ((lt_succ_iff hroom).mpr (le_refl _)))
  rw [stage, clockOnlyDifference, hhigh]
  intro herror
  simp only [bind_eq_error] at herror
  rcases herror with h | ⟨_, -, (h | ⟨_, -, h | ⟨_, -, h⟩⟩) | ⟨clockOnly, -, h⟩⟩
  · exact hready h
  · exact hencode _ hleft h
  · exact hencode _ hright h
  · exact pure_eq_error.mp h
  · split_ifs at h
    · exact pure_eq_error.mp h
    · simp only [bind_eq_error, failIf_eq_error, pure_eq_error, beq_iff_eq] at h
      rcases h with ⟨-, h⟩ | ⟨_, hroom, h | ⟨_, -, h⟩⟩
      · cases h
      · rw [failIf_eq_ok] at hroom
        rw [validate_eq_ok.mpr (hvalidates hroom)] at h
        cases h
      · exact h

/-- An operation that may use the next fresh identifier. -/
theorem Sustained.proposal {α : Type} {drawn : Nat} {strict : Prop} {operation : AppM α}
    (hids : P.FreshIds) (h : Sustained P drawn owner)
    (hsustains : Sustains P (P.uuid drawn) strict operation) :
    (owner.proposal operation).2.Steady ∧ (strict → (owner.proposal operation).2.Valid P) :=
  proposal_of_wp (hsustains _ (staged_publishable h.publishable) (h.fresh hids))

theorem Sustained.drawing {α : Type} {drawn : Nat} {strict : Prop} {operation : AppM α}
    {m : VaultMachine} (hids : P.FreshIds) (h : Sustained P drawn owner)
    (hsustains : Sustains P (P.uuid drawn) strict operation)
    (hoperates : Operates P (P.uuid drawn) operation) :
    wp (owner.apply P operation)
      (fun out m' => m.rest.drawn ≤ m'.rest.drawn ∧ Sustained P (drawn + 1) out.1
        ∧ (∀ value, out.2 = .ok value → (owner.proposal operation).1 = .ok value
          ∧ (out.1.app.deliveries = owner.app.deliveries
            ∨ out.1.app.deliveries = (owner.proposal operation).2.deliveries)))
      (fun _ _ => True) m := by
  have hoperated := proposal_of_wp (hoperates owner.staged)
  refine h.apply (Nat.le_succ _) (h.proposal hids hsustains).1 hoperated fun other hother => ?_
  exact (hoperated.names hother).imp_right fun heq => ⟨drawn, Nat.lt_succ_self _, heq⟩

theorem Sustained.plain {α : Type} {drawn : Nat} {strict : Prop} {operation : AppM α}
    {m : VaultMachine} (hids : P.FreshIds) (h : Sustained P drawn owner)
    (hsustains : Sustains P (P.uuid drawn) strict operation)
    (hoperates : ∀ id, Operates P id operation) :
    wp (owner.apply P operation)
      (fun out m' => m.rest.drawn ≤ m'.rest.drawn ∧ Sustained P drawn out.1) (fun _ _ => True) m := by
  have hnamed : ∀ other, (owner.proposal operation).2.Names other → owner.staged.Names other :=
    proposal_of_wp (p := fun next => ∀ id, next.Names id → owner.staged.Names id)
      (namesNothing_of_operates hoperates owner.staged)
  exact wp_mono (h.apply (le_refl _) (h.proposal hids hsustains).1
    (proposal_of_wp (hoperates 0 owner.staged)) fun _ hother => .inl (hnamed _ hother))
    (fun _ _ hout => ⟨hout.1, hout.2.1⟩) fun _ _ _ => trivial

/-! The second half of a private use. -/

/-- If the attempt is there at all, it has been handed off and is open. -/
def Awaits (app : Application) (ctx : AuthenticatedContext) (task : Uuid) (use : PrivateUse)
    (attempt : Uuid) : Prop :=
  ∀ d, app.deliveries.get? attempt = some d → app.HandedOff ctx task use attempt d ∧ d.status = none

variable {ctx : AuthenticatedContext} {task : Uuid} {use : PrivateUse} {drawn : Nat}

theorem Sustained.prepare {preparedAt : Time} {m : VaultMachine} (hids : P.FreshIds)
    (h : Sustained P drawn owner) (huse : use.action = .use) :
    wp (owner.apply P (Application.usePrepare P ctx task use (P.uuid drawn) preparedAt))
      (fun out m' => m.rest.drawn ≤ m'.rest.drawn ∧ Sustained P (drawn + 1) out.1
        ∧ (out.2 = .ok none → Awaits out.1.app ctx task use (P.uuid drawn)))
      (fun _ _ => True) m := by
  have hsustains : Sustains P (P.uuid drawn) True
      (Application.usePrepare P ctx task use (P.uuid drawn) preparedAt) :=
    .of_publishable fun app hpublishable hfresh => hpublishable.usePrepare hfresh huse
  refine wp_mono (h.drawing hids hsustains (operates_usePrepare ctx task use preparedAt))
    (fun out m' hout => ⟨hout.1, hout.2.1, fun hnone d hd => ?_⟩) fun _ _ _ => trivial
  obtain ⟨hvalue, hsame | hnew⟩ := hout.2.2 none hnone
  · -- only the clock was kept, so the attempt is not there
    rw [hsame] at hd
    obtain ⟨k, hk, heq⟩ := h.named _ (.inr (.inr ⟨d, hd⟩))
    have hk' := hids.uuid_injective heq
    omega
  · have hjournaled := proposal_spec
      (p := fun result next => result = .ok none → ∃ effective, Prepared P ctx task use
        (P.uuid drawn) effective (owner.staged.ticked preparedAt) next)
      (wp_mono (wp_usePrepare P ctx task use (P.uuid drawn) preparedAt owner.staged)
        (fun out next hnext hout => by
          obtain ⟨effective, -, ⟨-, hprepared⟩ | ⟨receipt, rfl, -⟩⟩ := hnext
          · exact ⟨effective, hprepared⟩
          · cases hout)
        fun _ _ _ => nofun)
    obtain ⟨effective, hprepared⟩ := hjournaled hvalue
    obtain ⟨values, t, r, -, hnext⟩ := hprepared.usable
    have hregister : ¬ use.action = .register := by rw [huse]; nofun
    rw [Application.prepared, if_neg hregister] at hnext
    have hfound := hd
    rw [hnew, hnext] at hd
    change (OrdMap.insert _ _ _).get? _ = _ at hd
    rw [OrdMap.get?_insert_self, Option.some.injEq] at hd
    subst hd
    exact ⟨⟨hfound, rfl, rfl, rfl, rfl⟩, rfl⟩

theorem Sustained.clockOnly {now : Time} {app : Application} (h : Sustained P drawn owner)
    (hclock : owner.app.ClockOnly now app) : Sustained P drawn { owner with app } where
  publishable := h.publishable.clockOnly hclock
  named id hid := h.named id (hclock.names.mp hid)

/-- Compaction keeps an open attempt. -/
theorem Awaits.staged {attempt : Uuid} (h : Awaits owner.app ctx task use attempt)
    (hpublishable : owner.app.Publishable P) : Awaits owner.staged ctx task use attempt := by
  intro d hd
  have hfound := (staged_shrinks hpublishable.valid hpublishable.steady.once).deliveries attempt d hd
  obtain ⟨hhanded, hopen⟩ := h d hfound
  exact ⟨{ hhanded with found := hd }, hopen⟩

theorem Awaits.clockOnly {attempt : Uuid} {now : Time} {app next : Application}
    (h : Awaits app ctx task use attempt) (hclock : app.ClockOnly now next) :
    Awaits next ctx task use attempt := by
  have hsame : next.deliveries = app.deliveries := by
    cases hclock with
    | ticked => exact ticked_deliveries _ _
    | frozen => rfl
  intro d hd
  rw [hsame] at hd
  obtain ⟨hhanded, hopen⟩ := h d hd
  exact ⟨{ hhanded with found := hsame ▸ hd }, hopen⟩

theorem Sustained.cancelled {attempt : Uuid} (h : Sustained P drawn owner) (huse : use.action = .use) :
    (owner.proposal (Application.useCancel use attempt)).2.Publishable P :=
  proposal_of_wp ((staged_publishable h.publishable).useCancel huse)

theorem Sustained.finished {attempt : Uuid} {status : DeliveryStatus} {effective : Time}
    (h : Sustained P drawn owner) (huse : use.action = .use)
    (hawaits : Awaits owner.app ctx task use attempt) (hlast : owner.app.lastTime = some effective)
    (hpos : 0 ≤ effective) : (owner.proposal
      (Application.useFinish ctx task use attempt status effective)).2.Publishable P := by
  have hstaged := staged_publishable h.publishable
  have hshrinks := staged_shrinks h.publishable.valid h.publishable.steady.once
  cases hfound : owner.staged.deliveries.get? attempt with
  | some d =>
    obtain ⟨hhanded, -⟩ := hawaits.staged h.publishable d hfound
    exact proposal_of_wp (hstaged.useFinish huse hhanded (hshrinks.lastTime.trans hlast) hpos)
  | none =>
    refine proposal_of_wp (wp_mono (wp_useFinish ctx task use attempt status effective owner.staged)
      ?_ ?_)
    · rintro - next ⟨d, r, hd, -⟩
      rw [hfound] at hd
      cases hd
    · rintro e next (⟨rfl, -⟩ | ⟨d, hd, -⟩)
      · exact hstaged
      · rw [hfound] at hd
        cases hd

/-- From a journaled attempt to the end of the call. -/
theorem Sustained.handOff {handoffAt : Time} {deliver : SecretInput → Delivered} {attempt : Uuid}
    {m : VaultMachine} (h : Sustained P drawn owner)
    (huse : use.action = .use) (hawaits : Awaits owner.app ctx task use attempt)
    (hnow : 0 ≤ handoffAt) (hdrawn : drawn ≤ m.rest.drawn) :
    wp (owner.handOff P ctx task use attempt handoffAt deliver)
      (fun out m' => Sustained P m'.rest.drawn out.1) (fun _ _ => True) m := by
  have hsettle : ∀ {α : Type} {owner : DurableVault} {operation : AppM α} {m : VaultMachine},
      Sustained P drawn owner → drawn ≤ m.rest.drawn →
      (owner.proposal operation).2.Publishable P → (∀ id, Operates P id operation) →
      wp (owner.apply P operation) (fun out m' => Sustained P m'.rest.drawn out.1)
        (fun _ _ => True) m := by
    intro α owner operation m h hdrawn hproposal hoperates
    have hnamed : ∀ other, (owner.proposal operation).2.Names other → owner.staged.Names other :=
      proposal_of_wp (p := fun next => ∀ id, next.Names id → owner.staged.Names id)
        (namesNothing_of_operates hoperates owner.staged)
    exact wp_mono (h.apply (le_refl _) hproposal.steady (proposal_of_wp (hoperates 0 owner.staged))
      fun _ hother => .inl (hnamed _ hother))
      (fun _ _ hout => hout.2.1.later (hdrawn.trans hout.1)) fun _ _ _ => trivial
  have hfrozen : ∀ {n : Nat} {owner : DurableVault}, Sustained P n owner →
      Sustained P n { owner with frozen := true } := fun h => ⟨h.publishable, h.named⟩
  have hchecked := wp_useAuthorize ctx task use handoffAt owner.app
  unfold DurableVault.handOff
  cases hrun : (Application.useAuthorize ctx task use handoffAt).run owner.app with
  | error e app =>
    change Application.useAuthorize ctx task use handoffAt owner.app = _ at hrun
    have hclock := wp_error hchecked hrun
    have howner := h.clockOnly hclock
    simp only
    rw [wp_bind]
    apply wp_mono (hsettle howner hdrawn (howner.cancelled huse)
      fun _ => operates_useCancel use attempt)
    · rintro ⟨owner', result⟩ m' hout
      cases result with
      | error e' => exact hfrozen hout
      | ok u => exact hout
    · exact fun _ _ _ => trivial
  | ok out app =>
    obtain ⟨values, effective⟩ := out
    change Application.useAuthorize ctx task use handoffAt owner.app = _ at hrun
    obtain ⟨heff, -, happ⟩ := wp_ok hchecked hrun
    have hclock : owner.app.ClockOnly handoffAt app := happ ▸ .ticked heff
    have howner := h.clockOnly hclock
    have hlast : app.lastTime = some effective := by
      rw [happ]
      exact (lastTime_ticked heff).1
    simp only [logHandoff, wp_bind, wp_get, wp_modify]
    unfold DurableVault.concludeUse
    have hfinish := fun status => hsettle (m := { m with rest := { m.rest with
        handoffs := m.rest.handoffs ++ [{ ctx, task, request := use, attempt, values
                                          sampled := handoffAt, effective, app
                                          image := m.dir .state }] } })
      howner hdrawn (howner.finished huse
        (hawaits.clockOnly hclock) hlast (effective_nonneg hnow heff))
      fun _ => operates_useFinish ctx task use attempt status effective
    cases deliver values with
    | panicked => exact hfrozen (howner.later hdrawn)
    | returned status | failed =>
      simp only [wp_bind]
      apply wp_mono (hfinish _)
      · rintro ⟨owner', result⟩ m' hout
        cases result with
        | error e' => exact hfrozen hout
        | ok u => exact hout
      · exact fun _ _ _ => trivial

theorem Sustained.useSecret {preparedAt handoffAt : Time} {deliver : SecretInput → Delivered}
    {m : VaultMachine} (hids : P.FreshIds) (h : Sustained P m.rest.drawn owner)
    (huse : use.action = .use) (hnow : 0 ≤ handoffAt) :
    wp (owner.useSecret P ctx task use preparedAt handoffAt deliver)
      (fun out m' => Sustained P m'.rest.drawn out.1) (fun _ _ => True) m := by
  unfold DurableVault.useSecret
  simp only [wp_bind, wp_drawIndex]
  apply wp_mono (h.prepare hids huse)
  · rintro ⟨owner', result⟩ m' ⟨hdrawn, howner, hawaits⟩
    have hlater := howner.later hdrawn
    rcases result with e | (_ | receipt)
    case error => exact hlater
    case ok.some => exact hlater
    case ok.none =>
      simp only
      cases owner'.ready with
      | error e => exact hlater
      | ok u => exact howner.handOff huse (hawaits rfl) hnow hdrawn
  · exact fun _ _ _ => trivial

end DurableVault

open DurableVault

/-! Runs. -/

theorem created_publishable : Application.created.Publishable P where
  valid := validate_eq_ok.mp rfl
  steady := {
    once := fun _ _ _ _ h => nomatch h
    rise := fun _ _ h => nomatch h
    use_only := fun _ _ h => nomatch h
    unverified := fun _ _ h => nomatch h }

/-- The owner of store `i`, if there is one, is in order. -/
def InOrder (P : Platform) (i : Nat) (out : Fleet × Answer) : Prop :=
  ∀ owner, (out.1.stores i).owner = some owner → Sustained P out.1.session.drawn owner

/-- A call whose program keeps the owner in order keeps the run in order. -/
theorem inOrder_ask {α : Type} {fleet : Fleet} {i : Nat} {faults : List Fault}
    {program : DurableVault → VaultIo (DurableVault × α)} {answer : α → Answer}
    (h : InOrder P i (fleet, .closed))
    (hprogram : ∀ owner m, Sustained P m.rest.drawn owner → wp (program owner)
      (fun out m' => Sustained P m'.rest.drawn out.1) (fun _ _ => True) m) :
    InOrder P i (fleet.ask i faults program answer) := by
  apply Fleet.ask_spec
  · exact fun _ => h
  · intro owner howner
    apply wp_mono (hprogram owner _ (h owner howner))
    · intro out m hout owner' howner'
      rw [Fleet.put_self, Option.some.injEq] at howner'
      exact howner' ▸ hout
    · intro _ m _ owner' howner'
      rw [Fleet.put_self] at howner'
      cases howner'

theorem inOrder_create {i : Nat} (mnemonic : String) (faults : List Fault) :
    InOrder P i (Fleet.start.step P i (.create mnemonic) faults) := by
  change InOrder P i (Fleet.start.enter i faults (DurableVault.create P mnemonic))
  apply Fleet.enter_spec
  · nofun
  · intro _
    apply wp_mono (wp_createFromApp P mnemonic Application.created _)
    · rintro (e | owner) m ⟨-, hcreated⟩ owner' howner'
      · rw [Fleet.put_self] at howner'
        cases howner'
      · rw [Fleet.put_self, Option.some.injEq] at howner'
        subst howner'
        have happ : owner.app = Application.created := by
          generalize hresult : (.ok owner : Except Error DurableVault) = result at hcreated
          generalize m.dir = d' at hcreated
          cases hcreated with
          | refused => cases hresult
          | @published _ _ _ publication =>
            cases publication with
            | durable => cases hresult; rfl
            | notPublished | unknown => cases hresult
        refine ⟨happ ▸ created_publishable, fun id hid => ?_⟩
        rw [happ] at hid
        rcases hid with ⟨_, h⟩ | ⟨_, h⟩ | ⟨_, h⟩ <;> cases h
    · intro _ m _ owner' howner'
      rw [Fleet.put_self] at howner'
      cases howner'

theorem inOrder_step {fleet : Fleet} {i : Nat} {call : Call} (hids : P.FreshIds)
    (h : InOrder P i (fleet, .closed)) (hcall : call.Brokered) (faults : List Fault) :
    InOrder P i (fleet.step P i call faults) := by
  have hdrawing : ∀ {α : Type} {strict : Prop} {operation : Draw → AppM α} {owner : DurableVault}
      {m : VaultMachine}, Sustained P m.rest.drawn owner →
      Sustains P (P.uuid m.rest.drawn) strict
        (operation { id := P.uuid m.rest.drawn, entropy := P.osRng m.rest.drawn }) →
      Operates P (P.uuid m.rest.drawn)
        (operation { id := P.uuid m.rest.drawn, entropy := P.osRng m.rest.drawn }) →
      wp (do let draw ← drawMutation P; owner.apply P (operation draw))
        (fun out m' => Sustained P m'.rest.drawn out.1) (fun _ _ => True) m := by
    intro α strict operation owner m howner hsustains hoperates
    simp only [wp_bind, drawMutation, wp_drawIndex, wp_pure]
    exact wp_mono (howner.drawing hids hsustains hoperates)
      (fun _ _ hout => hout.2.1.later hout.1) fun _ _ _ => trivial
  have hplain : ∀ {α : Type} {operation : AppM α} {owner : DurableVault} {m : VaultMachine},
      Sustained P m.rest.drawn owner → Sustains P (P.uuid m.rest.drawn) True operation →
      (∀ id, Operates P id operation) → wp (owner.apply P operation)
        (fun out m' => Sustained P m'.rest.drawn out.1) (fun _ _ => True) m :=
    fun howner hsustains hoperates => wp_mono (howner.plain hids hsustains hoperates)
      (fun _ _ hout => hout.2.later hout.1) fun _ _ _ => trivial
  cases call with
  | create | «open» | recover | restore | close | rekey | exportBackup => exact hcall.elim
  | approveTask admin task now =>
    exact inOrder_ask h fun owner m howner => hplain howner
      (.of_publishable fun app happ _ => happ.approveTask hcall)
      fun id => operates_approveTask admin task now
  | revokeTask admin task now =>
    exact inOrder_ask h fun owner m howner => hplain howner
      (.of_publishable fun app happ _ => happ.revokeTask) fun id => operates_revokeTask admin task now
  | mutate ctx task request op now =>
    exact inOrder_ask h fun owner m howner => hdrawing howner
      (.mutate ctx task request op { id := P.uuid m.rest.drawn, entropy := P.osRng m.rest.drawn } hcall)
      (operates_mutate ctx task request op now rfl)
  | metadata ctx task record fields now =>
    exact inOrder_ask h fun owner m howner => hplain howner
      (.of_publishable fun app happ _ => happ.metadata hcall)
      fun id => operates_metadata ctx task record fields now
  | importForTask admin task request kind values now =>
    have hsustains : ∀ draw : Draw, Sustains P draw.id True
        (importClosure P admin task request kind values now draw) := fun draw =>
      .of_publishable fun app happ hfresh => happ.importClosure hcall hfresh
    exact inOrder_ask h fun owner m howner => hdrawing howner
      (hsustains { id := P.uuid m.rest.drawn, entropy := P.osRng m.rest.drawn })
      (operates_importClosure admin task request kind values now rfl)
  | readForTask admin task record fields now =>
    exact inOrder_ask h fun owner m howner => hplain howner
      (.of_publishable fun app happ _ => happ.readClosure hcall)
      fun id => operates_readClosure admin task record fields now
  | useSecret ctx task use preparedAt handoffAt deliver =>
    exact inOrder_ask h fun owner m howner => howner.useSecret hids hcall.1 hcall.2.2

theorem Brokered.inOrder {fleet : Fleet} {i : Nat} (hids : P.FreshIds) (h : Brokered P i fleet) :
    InOrder P i (fleet, .closed) := by
  induction h with
  | created mnemonic faults => exact inOrder_create mnemonic faults
  | called h hcall faults ih => exact inOrder_step hids ih hcall faults

/-- Whatever a broker operation proposes can be published, a withdrawal by an admin apart. -/
theorem Proposes.sound {drawn : Nat} {call : Call} {owner owner' : DurableVault}
    {candidate : Application} (hids : P.FreshIds) (h : Sustained P drawn owner)
    (hcall : call.Brokered) (hoverrides : call.overrides = false)
    (hp : Proposes P owner drawn call owner' candidate) :
    owner'.app.Valid P ∧ candidate.Valid P ∧ ∀ last, owner'.app.lastTime = some last →
      ∃ later, candidate.lastTime = some later ∧ last ≤ later := by
  have hlater : ∀ {α : Type} {owner : DurableVault} {operation : AppM α} {n : Nat} {id : Uuid},
      Sustained P n owner → Operates P id operation → ∀ last, owner.app.lastTime = some last →
        ∃ later, (owner.proposal operation).2.lastTime = some later ∧ last ≤ later := by
    intro α owner operation n id howner hoperates last hlast
    have hoperated := proposal_of_wp (hoperates owner.staged)
    exact hoperated.lastTime last ((staged_shrinks howner.publishable.valid
      howner.publishable.steady.once).lastTime.trans hlast)
  have hdone : ∀ {α : Type} {operation : AppM α} {strict : Prop},
      Sustains P (P.uuid drawn) strict operation → strict → Operates P (P.uuid drawn) operation →
      owner.app.Valid P ∧ (owner.proposal operation).2.Valid P ∧
        ∀ last, owner.app.lastTime = some last →
          ∃ later, (owner.proposal operation).2.lastTime = some later ∧ last ≤ later :=
    fun hsustains hstrict hoperates => ⟨h.publishable.valid, (h.proposal hids hsustains).2 hstrict,
      hlater h hoperates⟩
  cases hp with
  | approveTask admin task now =>
    exact hdone (.of_publishable fun app happ _ => happ.approveTask hcall) trivial
      (operates_approveTask admin task now)
  | revokeTask admin task now =>
    exact hdone (.of_publishable fun app happ _ => happ.revokeTask) trivial
      (operates_revokeTask admin task now)
  | mutate ctx task request op now =>
    refine hdone
      (.mutate ctx task request op { id := P.uuid drawn, entropy := P.osRng drawn } hcall) (fun hadmin => ?_) (operates_mutate ctx task request op now rfl)
    change (ctx.admin && op.withdraws) = false at hoverrides
    rw [hadmin, Bool.true_and] at hoverrides
    exact hoverrides
  | metadata ctx task record fields now =>
    exact hdone (.of_publishable fun app happ _ => happ.metadata hcall) trivial
      (operates_metadata ctx task record fields now)
  | importForTask admin task request kind values now =>
    exact hdone (.of_publishable fun app happ hfresh => happ.importClosure hcall hfresh) trivial
      (operates_importClosure admin task request kind values now rfl)
  | readForTask admin task record fields now =>
    exact hdone (.of_publishable fun app happ _ => happ.readClosure hcall) trivial
      (operates_readClosure admin task record fields now)
  | usePrepare ctx task use preparedAt handoffAt deliver =>
    exact hdone (.of_publishable fun app happ hfresh => happ.usePrepare hfresh hcall.1) trivial
      (operates_usePrepare ctx task use preparedAt)
  | @useCancel ctx task use preparedAt handoffAt deliver m m' journaled e app hjournaled hcheck =>
    obtain ⟨-, howner, -⟩ := wp_ok (h.prepare hids hcall.1) hjournaled
    have hclock := wp_error (wp_useAuthorize ctx task use handoffAt journaled.app) hcheck
    have hnext := howner.clockOnly hclock
    exact ⟨hnext.publishable.valid, (hnext.cancelled hcall.1).valid,
      hlater hnext (operates_useCancel use _ : Operates P 0 _)⟩
  | @useFinish ctx task use preparedAt handoffAt deliver m m' journaled values effective app
      hjournaled hcheck =>
    obtain ⟨-, howner, hawaits⟩ := wp_ok (h.prepare hids hcall.1) hjournaled
    obtain ⟨heff, -, happ⟩ := wp_ok (wp_useAuthorize ctx task use handoffAt journaled.app) hcheck
    have hclock : journaled.app.ClockOnly handoffAt app := happ ▸ .ticked heff
    have hnext := howner.clockOnly hclock
    have hlast : app.lastTime = some effective := by
      rw [happ]
      exact (lastTime_ticked heff).1
    exact ⟨hnext.publishable.valid, (hnext.finished hcall.1 ((hawaits rfl).clockOnly hclock) hlast
      (effective_nonneg hcall.2.2 heff)).valid,
      hlater hnext (operates_useFinish ctx task use _ _ effective : Operates P 0 _)⟩

/-- Every state a broker reaches is valid, and so is every candidate of its next operation:
`commit` never answers `invalidStorage` for what the policy has let through. -/
theorem brokered_publishable {fleet : Fleet} {i : Nat} {owner : DurableVault} (hids : P.FreshIds)
    (h : Brokered P i fleet) (howner : (fleet.stores i).owner = some owner) :
    owner.app.validate P = .ok ()
      ∧ ∀ call owner' candidate, call.Brokered → call.overrides = false →
        Proposes P owner fleet.session.drawn call owner' candidate →
          candidate.validate P = .ok () ∧ owner'.stage P candidate ≠ .error .invalidStorage := by
  have hsustained := h.inOrder hids owner howner
  refine ⟨validate_eq_ok.mpr hsustained.publishable.valid,
    fun call owner' candidate hcall hoverrides hp => ?_⟩
  obtain ⟨hvalid', hvalid, hlater⟩ := hp.sound hids hsustained hcall hoverrides
  exact ⟨validate_eq_ok.mpr hvalid, stage_ne_invalidStorage hvalid' hvalid hlater⟩

/-- A vault created on the reference platform, with the owner it has. -/
def referenceVault : Fleet :=
  (Fleet.start.step .reference 0 (.create (Platform.referencePhrases.headD "")) []).1

theorem referenceVault_owned : (referenceVault.stores 0).owner.isSome = true := by decide +kernel

theorem brokered_publishable_reference : ∃ owner, (referenceVault.stores 0).owner = some owner
    ∧ owner.app.validate .reference = .ok ()
    ∧ ∀ call owner' candidate, call.Brokered → call.overrides = false →
      Proposes .reference owner referenceVault.session.drawn call owner' candidate →
        candidate.validate .reference = .ok ()
          ∧ owner'.stage .reference candidate ≠ .error .invalidStorage := by
  obtain ⟨owner, howner⟩ := Option.isSome_iff_exists.mp referenceVault_owned
  exact ⟨owner, howner, brokered_publishable Platform.reference_freshIds (.created _ []) howner⟩

end Credman
