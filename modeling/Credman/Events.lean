import Credman.Handover
import Credman.Reconciliation
import Credman.Operation
import Credman.System

/-! What a call does to its store, as a sequence of events: whatever each of them
keeps, every call keeps, and so does every run. -/
namespace Credman

open Library Library.Checked Relation

variable {P : Platform}

/-- What an operation leaves, whether it succeeded or not. -/
def Leaves {α : Type} (operation : AppM α) (app next : Application) : Prop :=
  (∃ a, operation.run app = .ok a next) ∨ ∃ e, operation.run app = .error e next

theorem Leaves.of_wp {α : Type} {operation : AppM α} {app next : Application}
    {p : Application → Prop} (h : Leaves operation app next)
    (hwp : wp operation (fun _ next => p next) (fun _ next => p next) app) : p next := by
  rcases h with ⟨a, hrun⟩ | ⟨e, hrun⟩
  · exact wp_ok hwp hrun
  · exact wp_error hwp hrun

/-- The operations a call may run, if it started with `b` draws and the identifier drawn for it
is number `n`. -/
inductive Call.Runs (P : Platform) (b n : Nat) : Call → Application → Application → Prop
  | approveTask {admin : AuthenticatedContext} {task : TaskApproval} {now : Time}
      {app next : Application} (h : Leaves (Application.approveTask admin task now) app next) :
    Runs P b n (.approveTask admin task now) app next
  | revokeTask {admin : AuthenticatedContext} {task : Uuid} {now : Time} {app next : Application}
      (h : Leaves (Application.revokeTask admin task now) app next) :
    Runs P b n (.revokeTask admin task now) app next
  | mutate {ctx : AuthenticatedContext} {task request : Uuid} {op : Mutation} {now : Time}
      {app next : Application} (h : Leaves (Application.mutate P ctx task request op now
        { id := P.uuid n, entropy := P.osRng n }) app next) :
    Runs P b n (.mutate ctx task request op now) app next
  | metadata {ctx : AuthenticatedContext} {task record : Uuid} {fields : Fields} {now : Time}
      {app next : Application} (h : Leaves (Application.metadata ctx task record fields now) app next) :
    Runs P b n (.metadata ctx task record fields now) app next
  | importForTask {admin : AuthenticatedContext} {task request : Uuid} {kind : CredentialKind}
      {values : SecretInput} {now : Time} {app next : Application}
      (h : Leaves (DurableVault.importClosure P admin task request kind values now
        { id := P.uuid n, entropy := P.osRng n }) app next) :
    Runs P b n (.importForTask admin task request kind values now) app next
  | readForTask {admin : AuthenticatedContext} {task record : Uuid} {fields : Fields} {now : Time}
      {app next : Application} (h : Leaves (DurableVault.readClosure admin task record fields now) app next) :
    Runs P b n (.readForTask admin task record fields now) app next
  | usePrepare {ctx : AuthenticatedContext} {task : Uuid} {use : PrivateUse} {preparedAt handoffAt : Time}
      {deliver : SecretInput → Delivered} {app next : Application}
      (h : Leaves (Application.usePrepare P ctx task use (P.uuid n) preparedAt) app next) :
    Runs P b n (.useSecret ctx task use preparedAt handoffAt deliver) app next
  | useAuthorize {ctx : AuthenticatedContext} {task : Uuid} {use : PrivateUse}
      {preparedAt handoffAt : Time} {deliver : SecretInput → Delivered} {app next : Application}
      (h : Leaves (Application.useAuthorize ctx task use handoffAt) app next) :
    Runs P b n (.useSecret ctx task use preparedAt handoffAt deliver) app next
  | useCancel {ctx : AuthenticatedContext} {task : Uuid} {use : PrivateUse}
      {preparedAt handoffAt : Time} {deliver : SecretInput → Delivered} {app next : Application}
      (h : Leaves (Application.useCancel use (P.uuid b)) app next) :
    Runs P b n (.useSecret ctx task use preparedAt handoffAt deliver) app next
  | useFinish {ctx : AuthenticatedContext} {task : Uuid} {use : PrivateUse}
      {preparedAt handoffAt effective : Time} {deliver : SecretInput → Delivered}
      {status : DeliveryStatus} {app next : Application}
      (h : Leaves (Application.useFinish ctx task use (P.uuid b) status effective) app next) :
    Runs P b n (.useSecret ctx task use preparedAt handoffAt deliver) app next

open Application in
/-- Every operation of a call makes one of the changes an operation can make. -/
theorem Call.Runs.operated {b n : Nat} {call : Call} {app next : Application}
    (h : call.Runs P b n app next) : Operated P (P.uuid n) app next := by
  cases h with
  | approveTask h => exact h.of_wp (operates_approveTask _ _ _ app)
  | revokeTask h => exact h.of_wp (operates_revokeTask _ _ _ app)
  | mutate h => exact h.of_wp (operates_mutate _ _ _ _ _ rfl app)
  | metadata h => exact h.of_wp (operates_metadata _ _ _ _ _ app)
  | importForTask h => exact h.of_wp (operates_importClosure _ _ _ _ _ _ rfl app)
  | readForTask h => exact h.of_wp (operates_readClosure _ _ _ _ _ app)
  | usePrepare h => exact h.of_wp (operates_usePrepare _ _ _ _ app)
  | @useAuthorize ctx task use _ handoffAt _ app next h =>
    exact h.of_wp (wp_mono (wp_useAuthorize ctx task use handoffAt app)
      (fun _ next ⟨heff, _, hnext⟩ => hnext ▸ .clockOnly (.ticked heff))
      fun _ next hclock => .clockOnly hclock)
  | useCancel h => exact h.of_wp (operates_useCancel _ _ app)
  | useFinish h => exact h.of_wp (operates_useFinish _ _ _ _ _ _ app)

/-- The same, where the identifier may have been drawn since, or none is used. -/
def Call.Ran (P : Platform) (b drawn drawn' : Nat) (call : Call) (app next : Application) : Prop :=
  (drawn < drawn' ∧ call.Runs P b drawn app next) ∨ ∀ n, call.Runs P b n app next

theorem Call.Ran.later {b drawn drawn' drawn'' : Nat} {call : Call} {app next : Application}
    (h : call.Ran P b drawn drawn' app next) (hle : drawn' ≤ drawn'') :
    call.Ran P b drawn drawn'' app next :=
  h.imp_left fun ⟨hlt, hruns⟩ => ⟨lt_of_lt_of_le hlt hle, hruns⟩

/-- The one call that may leave a delivery open. -/
def Call.delivers : Call → Bool
  | .useSecret .. => true
  | _ => false

open Application DurableVault in
/-- The operations of every other call leave the deliveries alone. -/
theorem Call.Runs.deliveries_eq {b n : Nat} {call : Call} {app next : Application}
    (h : call.Runs P b n app next) (hcall : call.delivers = false) : next.deliveries = app.deliveries := by
  have hclock : ∀ {now : Time} {base next : Application}, base.ClockOnly now next →
      next.deliveries = base.deliveries := by
    intro now base next hclock
    cases hclock with
    | ticked => exact ticked_deliveries _ _
    | frozen => rfl
  have hmutate : ∀ {ctx : AuthenticatedContext} {task request : Uuid} {op : Mutation} {now : Time}
      {draw : Draw} (base : Application), wp (Application.mutate P ctx task request op now draw)
        (fun _ next => next.deliveries = base.deliveries)
        (fun _ next => next.deliveries = base.deliveries) base := by
    intro ctx task request op now draw base
    refine wp_mono (wp_mutate P ctx task request op now draw base) ?_ fun _ _ => hclock
    rintro receipt next ⟨effective, heff, hexec | ⟨-, rfl⟩⟩
    · obtain ⟨t, mid, op', -, -, -, -, hperformed, rfl⟩ := hexec.change
      cases hperformed <;> exact ticked_deliveries _ _
    · exact ticked_deliveries _ _
  cases h with
  | approveTask h =>
    rcases h with ⟨u, hrun⟩ | ⟨e, hrun⟩
    · obtain ⟨effective, -, happroved⟩ := approveTask_eq_ok.mp hrun
      rw [happroved.result]
      exact ticked_deliveries _ _
    · exact hclock (approveTask_error hrun)
  | revokeTask h =>
    refine h.of_wp (wp_mono (wp_revokeTask _ _ _ app) ?_ fun _ _ => hclock)
    rintro - next ⟨effective, -, hrevoked⟩
    rw [hrevoked.result]
    exact ticked_deliveries _ _
  | mutate h => exact h.of_wp (hmutate app)
  | metadata h =>
    refine h.of_wp (wp_mono (wp_metadata _ _ _ _ _ app) ?_ fun _ _ => hclock)
    rintro - next ⟨effective, -, values, t, r, -, -, rfl⟩
    exact ticked_deliveries _ _
  | @importForTask _ _ _ _ _ now app next h =>
    refine h.of_wp (p := fun next => next.deliveries = app.deliveries) ?_
    simp only [importClosure, wp_bind, wp_clock, wp_get, wp_liftExcept]
    refine ⟨fun effective heff => ⟨fun ctx _ => ?_, fun _ _ => ticked_deliveries _ _⟩, fun _ _ => rfl⟩
    rw [← ticked_deliveries app now]
    exact hmutate _
  | @readForTask _ task record fields now app next h =>
    refine h.of_wp (p := fun next => next.deliveries = app.deliveries) ?_
    simp only [readClosure, wp_bind, wp_clock, wp_get, wp_liftExcept]
    refine ⟨fun effective heff => ⟨fun ctx _ => ?_, fun _ _ => ticked_deliveries _ _⟩, fun _ _ => rfl⟩
    rw [← ticked_deliveries app now]
    refine wp_mono (wp_readSecret ctx task record fields effective _) ?_ fun _ _ => hclock
    rintro - next ⟨effective', -, t, r, -, rfl⟩
    exact ticked_deliveries _ _
  | usePrepare | useAuthorize | useCancel | useFinish => cases hcall

/-- The application a new store is created from. -/
inductive Call.Arises (P : Platform) (backups : List Bytes) : Call → Application → Prop
  | created (mnemonic : String) : Arises P backups (.create mnemonic) Application.created
  | restored (mnemonic : String) {admin : AuthenticatedContext} {backup : Nat} {secret : BackupSecret}
      {now : Time} {bytes : Bytes} {copy app : Application} (hbackup : backups[backup]? = some bytes)
      (hdecrypt : decryptBackup P bytes secret = .ok copy)
      (hprepare : copy.prepareRestored P admin now = .ok app) :
    Arises P backups (.restore mnemonic admin backup secret now) app

namespace DurableVault

/-- The owner after a publication of `next`. -/
def after (owner : DurableVault) (next : Application) : Store × Publication → DurableVault
  | (store, .notPublished) => { owner with store }
  | (store, .unknown) => { owner with store, frozen := true }
  | (store, .durable) => { app := next, store, frozen := store.blocked }

/-- What a call of an owner publishes, and under which key. -/
inductive Publishes (P : Platform) (b drawn drawn' : Nat) (owner : DurableVault) :
    Call → Application → VaultKey → Salt → KdfParams → Prop
  | commit {call : Call} {candidate next : Application}
      (hran : call.Ran P b drawn drawn' owner.staged candidate)
      (hstage : owner.stage P candidate = .ok (some next)) :
    Publishes P b drawn drawn' owner call next owner.store.key owner.store.salt owner.store.kdf
  | rekey {admin : AuthenticatedContext} {mnemonic : String} {next : Application} {key : VaultKey}
      (n : Nat) (hcandidate : owner.rekeyCandidate P admin mnemonic (P.salt n) = .ok (next, key)) :
    Publishes P b drawn drawn' owner (.rekey admin mnemonic) next key (P.salt n) KdfParams.current

end DurableVault

open DurableVault

/-- One thing that happens to a store, and to the session around it, while a call runs. -/
inductive Event (P : Platform) (backups : List Bytes) (b : Nat) (call : Call) :
    StoreState × Session → StoreState × Session → Prop
  | drawn {store : StoreState} {s s' : Session} (hlater : s.Later s') :
    Event P backups b call (store, s) (store, s')
  | dropped {d : Dir FileName} {o : Option DurableVault} {s : Session} :
    Event P backups b call (⟨d, o⟩, s) (⟨d, none⟩, s)
  | memory {d : Dir FileName} {owner : DurableVault} {candidate : Application} {s s' : Session}
      (hlater : s.Later s') (hready : owner.ready = .ok ())
      (hran : call.Ran P b s.drawn s'.drawn owner.staged candidate)
      (hstage : owner.stage P candidate = .ok none) :
    Event P backups b call (⟨d, some owner⟩, s)
      (⟨d, some { owner with app := { owner.app with lastTime := candidate.lastTime } }⟩, s')
  | published {d d' : Dir FileName} {owner : DurableVault} {next : Application} {key : VaultKey}
      {salt : Salt} {kdf : KdfParams} {s s' : Session} {n : Nat} {out : Store × Publication}
      (hlater : s.Later s') (hready : owner.ready = .ok ())
      (hpublishes : owner.Publishes P b s.drawn s'.drawn call next key salt kdf)
      (hpublished : Published P owner.store next key salt kdf n d out d') :
    Event P backups b call (⟨d, some owner⟩, s) (⟨d', some (owner.after next out)⟩, s')
  | cutOff {d d' : Dir FileName} {owner : DurableVault} {next : Application} {key : VaultKey}
      {salt : Salt} {kdf : KdfParams} {s s' : Session} {n : Nat}
      (hlater : s.Later s') (hready : owner.ready = .ok ())
      (hpublishes : owner.Publishes P b s.drawn s'.drawn call next key salt kdf)
      (hcut : Cut P owner.store next key salt kdf n d d') :
    Event P backups b call (⟨d, some owner⟩, s) (⟨d', none⟩, s')
  | authorized {d : Dir FileName} {owner : DurableVault} {app : Application} {s : Session}
      (hcall : call.delivers = true) (hready : owner.ready = .ok ()) (hran : ∀ n, call.Runs P b n owner.app app)
      {now : Time} (hclock : owner.app.ClockOnly now app) :
    Event P backups b call (⟨d, some owner⟩, s) (⟨d, some { owner with app }⟩, s)
  | frozen {d : Dir FileName} {owner : DurableVault} {s : Session} :
    Event P backups b call (⟨d, some owner⟩, s) (⟨d, some { owner with frozen := true }⟩, s)
  | handed {d : Dir FileName} {owner : DurableVault} {s : Session} {h : Handoff}
      (hready : owner.ready = .ok ()) (happ : h.app = owner.app) (himage : h.image = d .state) :
    Event P backups b call (⟨d, some owner⟩, s)
      (⟨d, some owner⟩, { s with handoffs := s.handoffs ++ [h] })
  | created {d d' : Dir FileName} {mnemonic : String} {app : Application} {s s' : Session} {n : Nat}
      {result : Except Error DurableVault} (hlater : s.Later s')
      (harises : call.Arises P backups app)
      (hcreated : CreatedFrom P mnemonic app n d result d') :
    Event P backups b call (⟨d, none⟩, s) (⟨d', result.toOption⟩, s')
  | creationCut {d d' : Dir FileName} {mnemonic : String} {app : Application} {s s' : Session} {n : Nat}
      (hlater : s.Later s') (harises : call.Arises P backups app)
      (hcut : CreationCut P mnemonic app n d d') :
    Event P backups b call (⟨d, none⟩, s) (⟨d', none⟩, s')
  | opened {d : Dir FileName} {mnemonic : String} {owner : DurableVault} {s : Session}
      (hcall : call = .open mnemonic) (hopened : Opened P mnemonic d owner) :
    Event P backups b call (⟨d, none⟩, s) (⟨d, some owner⟩, s)
  | attempted {m m' : VaultMachine} {mnemonic : String} {admin : AuthenticatedContext} {now : Time}
      (hcall : call = .recover mnemonic admin now) (hattempted : Attempted P mnemonic admin now m m') :
    Event P backups b call (⟨m.dir, none⟩, m.rest) (⟨m'.dir, none⟩, m'.rest)
  | recovered {m m' : VaultMachine} {mnemonic : String} {admin : AuthenticatedContext} {now : Time}
      {owner : DurableVault} (hcall : call = .recover mnemonic admin now)
      (hattempted : Attempted P mnemonic admin now m m')
      (hrecovered : Recovered P mnemonic admin now m.dir m'.dir owner) :
    Event P backups b call (⟨m.dir, none⟩, m.rest) (⟨m'.dir, some owner⟩, m'.rest)

/-- What a call has done to the fleet: events at its own store, and at most one more backup. -/
structure Stepped (P : Platform) (fleet : Fleet) (i : Nat) (call : Call) (fleet' : Fleet) : Prop where
  events : ReflTransGen (Event P fleet.backups fleet.session.drawn call) (fleet.stores i, fleet.session)
    (fleet'.stores i, fleet'.session)
  frame : ∀ j, j ≠ i → fleet'.stores j = fleet.stores j
  backups : fleet'.backups = fleet.backups ∨ ∃ owner admin secret n bytes,
    (fleet.stores i).owner = some owner ∧ call = .exportBackup admin secret
    ∧ owner.exportable admin = .ok ()
    ∧ encryptBackup P owner.app secret (P.salt n) (P.nonce n) = .ok bytes
    ∧ fleet'.backups = fleet.backups ++ [bytes]

namespace Stepped

variable {fleet : Fleet} {i : Nat} {call : Call}

theorem refl : Stepped P fleet i call fleet := ⟨.refl, fun _ _ => rfl, .inl rfl⟩

theorem of_put {store : StoreState} {s : Session}
    (h : ReflTransGen (Event P fleet.backups fleet.session.drawn call) (fleet.stores i, fleet.session) (store, s)) :
    Stepped P fleet i call (fleet.put i store s) where
  events := by
    rw [Fleet.put_self, Fleet.put_session]
    exact h
  frame _ hj := Fleet.put_ne hj ..
  backups := .inl rfl

end Stepped

/-! The events of each kind of call. -/

namespace DurableVault

section Kinds

variable {backups : List Bytes} {b : Nat} {call : Call} {owner : DurableVault} {s : Session}
  {m m' : VaultMachine}

theorem proposal_leaves {α : Type} (operation : AppM α) :
    Leaves operation owner.staged (owner.proposal operation).2 := by
  unfold DurableVault.proposal Leaves
  cases operation.run owner.staged with
  | ok a next => exact .inl ⟨a, rfl⟩
  | error e next => exact .inr ⟨e, rfl⟩

theorem Applied.event {α : Type} {operation : AppM α} {out : DurableVault × Except Error α}
    (hlater : s.Later m.rest)
    (hran : ∀ next, Leaves operation owner.staged next → call.Ran P b s.drawn m.rest.drawn owner.staged next)
    (h : Applied P owner operation m out m') :
    Event P backups b call (⟨m.dir, some owner⟩, s) (⟨m'.dir, some out.1⟩, m'.rest) := by
  cases h with
  | refused => exact .drawn hlater
  | @ran owner' committed m' hready hlater' hcommitted =>
    have hran' := (hran _ (proposal_leaves operation)).later hlater'.drawn
    have hall := hlater.trans hlater'
    generalize hdir : m'.dir = d' at hcommitted ⊢
    generalize m.dir = d at hcommitted ⊢
    cases hcommitted with
    | rejected => exact .drawn hall
    | memory hstage => exact .memory hall hready hran' hstage
    | notPublished hstage hpublished | unknown hstage hpublished | durable hstage hpublished =>
      exact .published hall hready (.commit hran' hstage) hpublished

theorem ApplyCut.event {α : Type} {operation : AppM α} (hlater : s.Later m.rest)
    (hran : ∀ next, Leaves operation owner.staged next → call.Ran P b s.drawn m.rest.drawn owner.staged next)
    (h : ApplyCut P owner operation m m') :
    ReflTransGen (Event P backups b call) (⟨m.dir, some owner⟩, s) (⟨m'.dir, none⟩, m'.rest) := by
  have hran' := (hran _ (proposal_leaves operation)).later h.later.drawn
  have hall := hlater.trans h.later
  have hcut := h.cut
  generalize hdir : m'.dir = d' at hcut ⊢
  generalize m.dir = d at hcut ⊢
  cases hcut with
  | early => exact (ReflTransGen.single (.drawn hall)).tail .dropped
  | cut hstage hcut => exact .single (.cutOff hall h.ready (.commit hran' hstage) hcut)

theorem wp_apply_events {α : Type} {operation : AppM α} (hlater : s.Later m.rest)
    (hran : ∀ next, Leaves operation owner.staged next → call.Ran P b s.drawn m.rest.drawn owner.staged next) :
    wp (owner.apply P operation)
      (fun out m' => ReflTransGen (Event P backups b call) (⟨m.dir, some owner⟩, s)
        (⟨m'.dir, some out.1⟩, m'.rest))
      (fun _ m' => ReflTransGen (Event P backups b call) (⟨m.dir, some owner⟩, s)
        (⟨m'.dir, none⟩, m'.rest)) m :=
  wp_mono (wp_applied P owner operation m) (fun _ _ happlied => .single (happlied.event hlater hran))
    fun _ _ hcut => hcut.event hlater hran

/-- A call that draws an identifier and runs one operation with it. -/
theorem wp_drawing_events {α : Type} {operation : Draw → AppM α}
    (hruns : ∀ app next, Leaves (operation { id := P.uuid m.rest.drawn, entropy := P.osRng m.rest.drawn })
      app next → call.Runs P b m.rest.drawn app next) :
    wp (drawMutation P >>= fun draw => owner.apply P (operation draw))
      (fun out m' => ReflTransGen (Event P backups b call) (⟨m.dir, some owner⟩, m.rest)
        (⟨m'.dir, some out.1⟩, m'.rest))
      (fun _ m' => ReflTransGen (Event P backups b call) (⟨m.dir, some owner⟩, m.rest)
        (⟨m'.dir, none⟩, m'.rest)) m := by
  simp only [drawMutation, wp_bind, wp_drawIndex, wp_pure]
  exact wp_apply_events ⟨Nat.le_succ _, rfl⟩
    fun next hleaves => .inl ⟨Nat.lt_succ_self _, hruns _ next hleaves⟩

section Use

variable {ctx : AuthenticatedContext} {task : Uuid} {request : PrivateUse}
  {preparedAt handoffAt : Time} {deliver : SecretInput → Delivered}

theorem prepare_ran (app next : Application) (h : Leaves (Application.usePrepare P ctx task request
      (P.uuid m.rest.drawn) preparedAt) app next) :
    (Call.useSecret ctx task request preparedAt handoffAt deliver).Ran P m.rest.drawn m.rest.drawn
      (numbered m).rest.drawn app next :=
  .inl ⟨Nat.lt_succ_self _, .usePrepare h⟩

theorem Journaled.event {journaled : DurableVault}
    (h : Journaled P owner ctx task request preparedAt m journaled m') :
    Event P backups m.rest.drawn (.useSecret ctx task request preparedAt handoffAt deliver)
      (⟨m.dir, some owner⟩, m.rest) (⟨m'.dir, some journaled⟩, m'.rest) := by
  have hnumbered : m.rest.Later (numbered m).rest := ⟨Nat.le_succ _, rfl⟩
  change Event P backups m.rest.drawn _ (⟨(numbered m).dir, some owner⟩, m.rest) _
  exact h.prepared.event hnumbered (prepare_ran _)

/-- The second check leaves what the clock made of the owner. -/
theorem Journaled.checked {journaled : DurableVault} {app : Application}
    (h : Journaled P owner ctx task request preparedAt m journaled m')
    (hleaves : Leaves (Application.useAuthorize ctx task request handoffAt) journaled.app app) :
    ReflTransGen (Event P backups m.rest.drawn (.useSecret ctx task request preparedAt handoffAt deliver))
      (⟨m.dir, some owner⟩, m.rest) (⟨m'.dir, some { journaled with app }⟩, m'.rest) := by
  have hclock : journaled.app.ClockOnly handoffAt app :=
    hleaves.of_wp (wp_mono (Application.wp_useAuthorize ctx task request handoffAt journaled.app)
      (fun _ next ⟨heff, _, hnext⟩ => hnext ▸ .ticked heff) fun _ _ hclock => hclock)
  exact (ReflTransGen.single h.event).tail
    (.authorized rfl h.ready (fun _ => .useAuthorize hleaves) hclock)

theorem Handed.events {journaled : DurableVault} {values : SecretInput} {effective : Time}
    {app : Application} {m'' : VaultMachine}
    (h : Handed P owner ctx task request preparedAt handoffAt m journaled values effective app m' m'') :
    ReflTransGen (Event P backups m.rest.drawn (.useSecret ctx task request preparedAt handoffAt deliver))
      (⟨m.dir, some owner⟩, m.rest) (⟨m''.dir, some { journaled with app }⟩, m''.rest) := by
  rw [h.log]
  exact (h.journal.checked (.inl ⟨_, h.check⟩)).tail (.handed h.journal.ready rfl rfl)

theorem wp_use_events : wp (owner.useSecret P ctx task request preparedAt handoffAt deliver)
    (fun out m' => ReflTransGen
      (Event P backups m.rest.drawn (.useSecret ctx task request preparedAt handoffAt deliver))
      (⟨m.dir, some owner⟩, m.rest) (⟨m'.dir, some out.1⟩, m'.rest))
    (fun _ m' => ReflTransGen
      (Event P backups m.rest.drawn (.useSecret ctx task request preparedAt handoffAt deliver))
      (⟨m.dir, some owner⟩, m.rest) (⟨m'.dir, none⟩, m'.rest)) m := by
  have hsame : ∀ s : Session, s.Later s := fun _ => ⟨le_refl _, rfl⟩
  have hnumbered : m.rest.Later (numbered m).rest := ⟨Nat.le_succ _, rfl⟩
  have hcancel : ∀ {n : Nat} (app next : Application),
      Leaves (Application.useCancel request (P.uuid m.rest.drawn)) app next →
      (Call.useSecret ctx task request preparedAt handoffAt deliver).Ran P m.rest.drawn n n app next :=
    fun _ _ h => .inr fun _ => .useCancel h
  have hfinish : ∀ {n : Nat} (status : DeliveryStatus) (effective : Time) (app next : Application),
      Leaves (Application.useFinish ctx task request (P.uuid m.rest.drawn) status effective) app next →
      (Call.useSecret ctx task request preparedAt handoffAt deliver).Ran P m.rest.drawn n n app next :=
    fun _ _ _ _ h => .inr fun _ => .useFinish h
  apply wp_mono (wp_useSecret P owner ctx task request preparedAt handoffAt deliver m)
  · rintro out m' hused
    cases hused with
    | refused h | replayed h | gated h => exact .single (h.event hnumbered (prepare_ran _))
    | withdrawn h hcheck hcancelled =>
      exact (h.checked (.inr ⟨_, hcheck⟩)).tail (hcancelled.event (hsame _) (hcancel _))
    | stuck h hcheck hcancelled =>
      exact ((h.checked (.inr ⟨_, hcheck⟩)).tail (hcancelled.event (hsame _) (hcancel _))).tail .frozen
    | panicked h => exact h.events.tail .frozen
    | unrecorded h _ hfinished =>
      exact (h.events.tail (hfinished.event (hsame _) (hfinish _ _ _))).tail .frozen
    | finished h hfinished => exact h.events.tail (hfinished.event (hsame _) (hfinish _ _ _))
  · intro _ m' hcut
    cases hcut with
    | prepare h =>
      change ReflTransGen _ ((⟨(numbered m).dir, some owner⟩ : StoreState), m.rest) _
      exact h.event hnumbered (prepare_ran _)
    | cancel h hcheck hcut =>
      exact (h.checked (.inr ⟨_, hcheck⟩)).trans (hcut.event (hsame _) (hcancel _))
    | finish h hcut => exact h.events.trans (hcut.event (hsame _) (hfinish _ _ _))

end Use

theorem wp_rekey_events (admin : AuthenticatedContext) (mnemonic : String) :
    wp (owner.rekey P admin mnemonic)
      (fun out m' => ReflTransGen (Event P backups b (.rekey admin mnemonic))
        (⟨m.dir, some owner⟩, m.rest) (⟨m'.dir, some out.1⟩, m'.rest))
      (fun _ m' => ReflTransGen (Event P backups b (.rekey admin mnemonic))
        (⟨m.dir, some owner⟩, m.rest) (⟨m'.dir, none⟩, m'.rest)) m := by
  have hone : m.rest.Later (numbered m).rest := ⟨Nat.le_succ _, rfl⟩
  unfold rekey
  rw [wp_bind, wp_drawIndex]
  cases hcandidate : owner.rekeyCandidate P admin mnemonic (P.salt m.rest.drawn) with
  | error e =>
    simp only [hcandidate, wp_pure]
    exact .single (.drawn hone)
  | ok out =>
    obtain ⟨candidate, key⟩ := out
    have hready : owner.ready = .ok () := by
      unfold rekeyCandidate at hcandidate
      rw [bind_eq_ok] at hcandidate
      exact hcandidate.choose_spec.1
    simp only [hcandidate, wp_bind]
    apply wp_mono (wp_publishWith P owner.store candidate key (P.salt m.rest.drawn)
      KdfParams.current (numbered m))
    · rintro ⟨store, publication⟩ m' ⟨hlater, hpublished⟩
      have hevent : Event P backups b (.rekey admin mnemonic) (⟨m.dir, some owner⟩, m.rest)
          (⟨m'.dir, some (owner.after candidate (store, publication))⟩, m'.rest) :=
        .published (hone.trans hlater) hready (.rekey _ hcandidate) hpublished
      cases publication with
      | notPublished | unknown | durable => exact .single hevent
    · rintro _ m' ⟨hlater, hcut⟩
      exact .single (.cutOff (hone.trans hlater) hready (.rekey _ hcandidate) hcut)

theorem wp_create_events {mnemonic : String} {app : Application} (harises : call.Arises P backups app) :
    wp (createFromApp P mnemonic app).run
      (fun result m' => ReflTransGen (Event P backups b call) (⟨m.dir, none⟩, m.rest)
        (⟨m'.dir, result.toOption⟩, m'.rest))
      (fun _ m' => ReflTransGen (Event P backups b call) (⟨m.dir, none⟩, m.rest)
        (⟨m'.dir, none⟩, m'.rest)) m :=
  wp_mono (wp_createFromApp P mnemonic app m)
    (fun _ _ ⟨hlater, hcreated⟩ => .single (.created hlater harises hcreated))
    fun _ _ ⟨hlater, hcut⟩ => .single (.creationCut hlater harises hcut)

theorem wp_restore_events {mnemonic : String} {admin : AuthenticatedContext} {backup : Nat}
    {bytes : Bytes} {secret : BackupSecret} {now : Time} (hbackup : backups[backup]? = some bytes) :
    wp (restoreBackup P mnemonic admin bytes secret now).run
      (fun result m' => ReflTransGen (Event P backups b (.restore mnemonic admin backup secret now))
        (⟨m.dir, none⟩, m.rest) (⟨m'.dir, result.toOption⟩, m'.rest))
      (fun _ m' => ReflTransGen (Event P backups b (.restore mnemonic admin backup secret now))
        (⟨m.dir, none⟩, m.rest) (⟨m'.dir, none⟩, m'.rest)) m := by
  unfold restoreBackup
  rw [wp_run_bind, wp_run_failIf]
  refine ⟨fun _ => .refl, fun _ => ?_⟩
  simp only
  rw [wp_run_bind, wp_run_pure_lift]
  cases hdecrypt : decryptBackup P bytes secret with
  | error e => exact .refl
  | ok copy =>
    simp only
    rw [wp_run_bind, wp_run_pure_lift]
    cases hprepare : copy.prepareRestored P admin now with
    | error e => exact .refl
    | ok app => exact wp_create_events (.restored mnemonic hbackup hdecrypt hprepare)

theorem wp_export (admin : AuthenticatedContext) (secret : BackupSecret) :
    wp (owner.exportBackup P admin secret).run
      (fun result m' => m.rest.Later m'.rest ∧ m'.dir = m.dir ∧ ∀ bytes, result = .ok bytes →
        owner.exportable admin = .ok ()
          ∧ ∃ n, encryptBackup P owner.app secret (P.salt n) (P.nonce n) = .ok bytes)
      (fun _ _ => False) m := by
  have hsame : m.rest.Later m.rest := ⟨le_refl _, rfl⟩
  unfold exportBackup
  rw [wp_run_bind, wp_run_pure_lift]
  cases hexportable : owner.exportable admin with
  | error e => exact ⟨hsame, rfl, nofun⟩
  | ok u =>
    simp only
    rw [wp_run_bind, wp_run_drawIndex]
    simp only
    rw [wp_run_pure_lift]
    exact ⟨⟨Nat.le_succ _, rfl⟩, rfl, fun bytes hbytes => ⟨trivial, _, hbytes⟩⟩

end Kinds

end DurableVault

section Step

variable {fleet : Fleet} {i : Nat} {call : Call} {faults : List Fault}

theorem stepped_ask {α : Type} {program : DurableVault → VaultIo (DurableVault × α)}
    {answer : α → Answer} (h : ∀ owner, (fleet.stores i).owner = some owner → ∀ m : VaultMachine,
      m.rest = fleet.session → wp (program owner)
      (fun out m' => ReflTransGen (Event P fleet.backups fleet.session.drawn call) (⟨m.dir, some owner⟩, m.rest)
        (⟨m'.dir, some out.1⟩, m'.rest))
      (fun _ m' => ReflTransGen (Event P fleet.backups fleet.session.drawn call) (⟨m.dir, some owner⟩, m.rest)
        (⟨m'.dir, none⟩, m'.rest)) m) :
    Stepped P fleet i call (fleet.ask i faults program answer).1 := by
  apply Fleet.ask_spec (p := fun out => Stepped P fleet i call out.1)
  · exact fun _ => .refl
  · intro owner howner
    have hstore : fleet.stores i = ⟨(fleet.stores i).dir, some owner⟩ := by
      rw [← howner]
    refine wp_mono (h owner howner _ rfl) (fun out m' hchain => .of_put ?_) fun _ m' hchain => .of_put ?_
    · rw [hstore]
      exact hchain
    · rw [hstore]
      exact hchain

theorem stepped_enter {program : VaultM DurableVault} (h : ∀ m : VaultMachine, wp program.run
      (fun result m' => ReflTransGen (Event P fleet.backups fleet.session.drawn call) (⟨m.dir, none⟩, m.rest)
        (⟨m'.dir, result.toOption⟩, m'.rest))
      (fun _ m' => ReflTransGen (Event P fleet.backups fleet.session.drawn call) (⟨m.dir, none⟩, m.rest)
        (⟨m'.dir, none⟩, m'.rest)) m) :
    Stepped P fleet i call (fleet.enter i faults program).1 := by
  apply Fleet.enter_spec (p := fun out => Stepped P fleet i call out.1)
  · exact fun _ _ => .refl
  · intro howner
    have hstore : fleet.stores i = ⟨(fleet.stores i).dir, none⟩ := by
      rw [← howner]
    refine wp_mono (h _) ?_ fun _ m' hchain => .of_put ?_
    · rintro (e | owner) m' hchain <;> refine .of_put ?_ <;> rw [hstore] <;> exact hchain
    · rw [hstore]
      exact hchain

/-- The fleet with a returned backup kept. -/
def recorded (out : Fleet × Answer) : Fleet :=
  match out.2 with
  | .backup (.ok bytes) => { out.1 with backups := out.1.backups ++ [bytes] }
  | _ => out.1

theorem stepped_export (admin : AuthenticatedContext) (secret : BackupSecret) :
    Stepped P fleet i (.exportBackup admin secret) (fleet.exportFrom P i faults admin secret).1 := by
  have hrecorded : Stepped P fleet i (.exportBackup admin secret) (recorded (fleet.ask i faults
      (fun owner => do
        let result ← (owner.exportBackup P admin secret).run
        pure (owner, result)) Answer.backup)) := by
    apply Fleet.ask_spec (p := fun out => Stepped P fleet i (.exportBackup admin secret) (recorded out))
    · exact fun _ => .refl
    · intro owner howner
      have hstore : fleet.stores i = ⟨(fleet.stores i).dir, some owner⟩ := by
        rw [← howner]
      rw [wp_bind]
      refine wp_mono (wp_export admin secret) ?_ fun _ _ => False.elim
      rintro (e | bytes) m' ⟨hlater, hdir, hbytes⟩
      · refine .of_put ?_
        rw [hstore, hdir]
        exact .single (.drawn hlater)
      · obtain ⟨hexportable, n, hencrypt⟩ := hbytes bytes rfl
        refine ⟨?_, fun j hj => Fleet.put_ne hj _ m'.rest, .inr ⟨owner, admin, secret, n, bytes, howner, rfl,
          hexportable, hencrypt, rfl⟩⟩
        change ReflTransGen _ _ ((fleet.put i ⟨m'.dir, some owner⟩ m'.rest).stores i, m'.rest)
        rw [Fleet.put_self, hdir, hstore]
        exact .single (.drawn hlater)
  unfold Fleet.exportFrom
  revert hrecorded
  generalize fleet.ask i faults (fun owner => do
    let result ← (owner.exportBackup P admin secret).run
    pure (owner, result)) Answer.backup = out
  intro hrecorded
  obtain ⟨next, answer⟩ := out
  cases answer with
  | backup result => cases result <;> exact hrecorded
  | opened | done | receipt | view | values | delivery | closed | halted | noOwner => exact hrecorded

/-- Whatever is asked of a store, with whatever faults, is a sequence of events at that store. -/
theorem stepped (hseals : P.Seals) (fleet : Fleet) (i : Nat) (call : Call) (faults : List Fault) :
    Stepped P fleet i call (fleet.step P i call faults).1 := by
  have hsame : ∀ s : Session, s.Later s := fun _ => ⟨le_refl _, rfl⟩
  unfold Fleet.step
  cases call with
  | create mnemonic => exact stepped_enter fun m => wp_create_events (.created mnemonic)
  | «open» mnemonic =>
    refine stepped_enter fun m => wp_mono (wp_open P mnemonic m) ?_ ?_
    · rintro result m' ⟨hrest, hdir, hopened⟩
      rw [hrest, hdir]
      cases result with
      | error e => exact .refl
      | ok owner => exact .single (.opened rfl (hopened owner rfl))
    · rintro _ m' ⟨hrest, hdir⟩
      rw [hrest, hdir]
  | recover mnemonic admin now =>
    refine stepped_enter fun m => wp_mono (wp_recover hseals m) ?_ ?_
    · rintro result m' ⟨hattempted, hrecovered⟩
      cases result with
      | error e => exact .single (.attempted rfl hattempted)
      | ok owner => exact .single (.recovered rfl hattempted (hrecovered owner rfl))
    · exact fun _ m' hattempted => .single (.attempted rfl hattempted)
  | restore mnemonic admin backup secret now =>
    simp only
    cases hbackup : fleet.backups[backup]? with
    | none => exact .refl
    | some bytes => exact stepped_enter fun m => wp_restore_events hbackup
  | close => exact .of_put (.single .dropped)
  | approveTask admin task now =>
    exact stepped_ask fun owner _ m _ => wp_apply_events (hsame _)
      fun _ hleaves => .inr fun _ => .approveTask hleaves
  | revokeTask admin task now =>
    exact stepped_ask fun owner _ m _ => wp_apply_events (hsame _)
      fun _ hleaves => .inr fun _ => .revokeTask hleaves
  | mutate ctx task request op now =>
    exact stepped_ask fun owner _ m _ => wp_drawing_events fun _ _ hleaves => .mutate hleaves
  | metadata ctx task record fields now =>
    exact stepped_ask fun owner _ m _ => wp_apply_events (hsame _)
      fun _ hleaves => .inr fun _ => .metadata hleaves
  | importForTask admin task request kind values now =>
    exact stepped_ask fun owner _ m _ => wp_drawing_events fun _ _ hleaves => .importForTask hleaves
  | readForTask admin task record fields now =>
    exact stepped_ask fun owner _ m _ => wp_apply_events (hsame _)
      fun _ hleaves => .inr fun _ => .readForTask hleaves
  | useSecret ctx task request preparedAt handoffAt deliver =>
    exact stepped_ask fun owner _ m hrest => hrest ▸ wp_use_events
  | rekey admin mnemonic => exact stepped_ask fun owner _ m _ => wp_rekey_events admin mnemonic
  | exportBackup admin secret => exact stepped_export admin secret

end Step

end Credman
