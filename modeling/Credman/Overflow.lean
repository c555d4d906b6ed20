import Credman.Retention
import Credman.Advance
import Credman.Library.Guarded

/-! The additions on revisions and versions. They are unchecked: a release build wraps, a
debug build panics. Here is the debug build. -/
namespace Credman

open Library Library.Checked Library.Guarded

namespace Application

/-- `checkRevisions` in a debug build. -/
def checkRevisionsGuarded (app : Application) (ledger : Ledger) (id : Uuid) (r : Record) :
    Guarded Error Unit := do
  let base := app.baselines.get? id
  let through := app.through id
  let versions := ledger.revisions.get? id
  let patchCount : UInt64 := ((ledger.patches.get? id).map fun items =>
    UInt64.ofNat items.size).getD 0
  if through == r.revision then
    of (ensure (decide (0 < through) && versions.isNone && !decide (id ∈ ledger.creates)
      && base.any fun item => item.secretVersion == r.secretVersion))
  else
    let versions ← of (required versions)
    let start ← add through 1
    of (ensure (UInt64.ofNat versions.size == r.revision - through
      && versions.keys.head? == some start && versions.keys.getLast? == some r.revision
      && versions.keys == Word.rangeInclusive start r.revision))
    -- `&&` and `is_some_and` come to the sum only past what stands before it
    if through == 0 then
      of (ensure (decide (id ∈ ledger.creates)))
      let version ← add 1 patchCount
      of (ensure (r.secretVersion == version))
    else
      of (ensure (!decide (id ∈ ledger.creates)))
      let item ← of (required base)
      let version ← add item.secretVersion patchCount
      of (ensure (r.secretVersion == version))

def checkChainGuarded (app : Application) (ledger : Ledger) (entry : Uuid × Record) :
    Guarded Error Unit := do
  let (id, r) := entry
  of (app.checkDeleted ledger id r)
  app.checkRevisionsGuarded ledger id r

/-- `validate` up to the walk over the records' revisions. -/
def validateBefore (app : Application) : Except Error (Ledger × Finset Uuid) := do
  ensure (decide (0 < app.generation) && (!app.clockFrozen || app.lastTime.isSome))
  ensure ([app.tasks.size, app.records.size, app.grants.size, app.requests.size,
    app.revokedTasks.card, app.deliveries.size, app.audit.length, app.baselines.size].all
      fun n => decide (n ≤ limit))
  let _ ← app.tasks.entries.foldlM checkTask {}
  ensure (decide (∀ id ∈ app.revokedTasks, app.tasks.contains id = true))
  app.records.entries.forM app.checkRecord
  app.grants.entries.forM app.checkGrant
  let ledger ← Ledger.collect app
  let accounted ← app.baselines.entries.foldlM app.checkBaseline ∅
  pure (ledger, accounted)

/-- And from there on. -/
def validateAfter (P : Platform) (app : Application) (ledger : Ledger) (accounted : Finset Uuid) :
    Except Error Unit := do
  ensure (ledger.shares.card + accounted.card == app.grants.size
    && decide (Disjoint ledger.shares accounted))
  let _ ← app.deliveries.entries.foldlM (app.checkDelivery P) (∅, ∅)
  (app.records.values.filter (·.signup == .verifiedLogin)).forM app.checkVerified
  app.audit.forM app.checkAudit

/-- `validate` in a debug build. -/
def validateGuarded (P : Platform) (app : Application) : Guarded Error Unit := do
  let (ledger, accounted) ← of app.validateBefore
  app.records.entries.forM (app.checkChainGuarded ledger)
  of (app.validateAfter P ledger accounted)

theorem validate_split (P : Platform) (app : Application) : app.validate P = (do
    let (ledger, accounted) ← app.validateBefore
    app.records.entries.forM (app.checkChain ledger)
    app.validateAfter P ledger accounted) := by
  simp only [validate, validateBefore, validateAfter, bind_assoc, pure_bind]

/-- The loop that collects the receipts to fold, in a debug build; indexing by an absent key
panics in any build. -/
def foldableFromGuarded (app : Application) (through next : UInt64) :
    List (UInt64 × RequestKey) → Guarded Error (List (RequestKey × Remembered))
  | [] => pure []
  | (revision, key) :: rest =>
    if revision ≤ through then app.foldableFromGuarded through next rest
    else
      match app.requests.get? key with
      | none => throw .panic
      | some cached =>
        if !stale cached.storedAt app.lastTime || revision != next then pure []
        else do
          let next ← add next 1
          let folded ← app.foldableFromGuarded through next rest
          pure ((key, cached) :: folded)

/-- The receipts `folded` leave the cache for the baseline. -/
def foldInto (app : Application) (id : Uuid) (folded : List (RequestKey × Remembered)) : Application :=
  if folded.isEmpty then app
  else
    let base := folded.foldl (fun base entry => base.absorb entry.2)
      ((app.baselines.get? id).getD {})
    { app with
      requests := folded.foldl (fun requests entry => requests.erase entry.1) app.requests
      baselines := app.baselines.insert id base.sortPruned }

def foldReceiptsGuarded (app : Application) (id : Uuid) : Guarded Error Application := do
  let through := app.through id
  let next ← add through 1
  let folded ← app.foldableFromGuarded through next (app.receiptsOf id)
  pure (app.foldInto id folded)

theorem foldReceipts_eq_foldInto (app : Application) (id : Uuid) : app.foldReceipts id =
    app.foldInto id (app.foldableFrom (app.through id) (app.through id + 1) (app.receiptsOf id)) := rfl

/-- What `compact` does once the receipts are folded. -/
def compactAfter (app : Application) : Application :=
  let app := app.grants.keys.foldl dropGrant app
  let app := app.deliveries.keys.foldl dropDelivery app
  app.dropRecords.dropTasks.retainAudit.pruneBaselines

/-- `compact` in a debug build. -/
def compactGuarded (app : Application) : Guarded Error Application := do
  let app ← app.records.keys.foldlM foldReceiptsGuarded app
  pure app.compactAfter

theorem compact_eq_compactAfter (app : Application) :
    app.compact = (app.records.keys.foldl foldReceipts app).compactAfter := rfl

/-! The walk over the revisions, in both builds. -/

theorem ensure_and (a b : Bool) : ensure (a && b) = (ensure a >>= fun _ => ensure b) := by
  cases a <;> rfl

theorem ensure_any {α : Type} (value : Option α) (p : α → Bool) :
    ensure (value.any p) = (required value >>= fun a => ensure (p a)) := by
  cases value <;> rfl

theorem checkRevisions_agrees (app : Application) (ledger : Ledger) (id : Uuid) (r : Record) :
    Agrees (app.checkRevisionsGuarded ledger id r) (app.checkRevisions ledger id r) := by
  simp only [checkRevisionsGuarded, checkRevisions]
  by_cases hfull : (app.through id == r.revision) = true
  · simp only [if_pos hfull]
    exact .refl _
  · simp only [if_neg hfull]
    refine (Agrees.refl _).bind fun versions _ => ?_
    refine Agrees.bind (f := fun start => ensure (UInt64.ofNat versions.size == r.revision - app.through id
        && versions.keys.head? == some start && versions.keys.getLast? == some r.revision
        && versions.keys == Word.rangeInclusive start r.revision) >>= fun _ => _)
      (agrees_add (app.through id) 1) fun start _ => ?_
    refine (Agrees.refl _).bind fun _ _ => ?_
    by_cases hzero : (app.through id == 0) = true
    · rw [if_pos hzero, if_pos hzero, ensure_and]
      refine (Agrees.refl _).bind fun _ _ => ?_
      exact Agrees.bind (f := fun version => ensure (r.secretVersion == version)) (agrees_add 1 _)
        fun _ _ => .refl _
    · rw [if_neg hzero, if_neg hzero, ensure_and, ensure_any]
      refine (Agrees.refl _).bind fun _ _ => (Agrees.refl _).bind fun item _ => ?_
      exact Agrees.bind (f := fun version => ensure (r.secretVersion == version))
        (agrees_add item.secretVersion _) fun _ _ => .refl _

theorem checkChain_agrees (app : Application) (ledger : Ledger) (entry : Uuid × Record) :
    Agrees (app.checkChainGuarded ledger entry) (app.checkChain ledger entry) :=
  (Agrees.refl _).bind fun _ _ => app.checkRevisions_agrees ledger entry.1 entry.2

/-- The version check of a record comes to a sum that does not fit. -/
def VersionOverflows (app : Application) (id : Uuid) : Prop :=
  2 ^ 64 ≤ (app.baseVersion id).toNat + app.patchCount id

variable {P : Platform} {app : Application} {ledger : Ledger} {id : Uuid} {r : Record}

theorem toNat_patchCount (id : Uuid) (hsize : app.requests.size ≤ limit) :
    (UInt64.ofNat (app.patchCount id)).toNat = app.patchCount id := by
  have hle : app.patchCount id ≤ limit := (OrdMap.count_le_size _ _).trans hsize
  have hlimit : limit < 2 ^ 64 := by decide
  rw [UInt64.toNat_ofNat', Nat.mod_eq_of_lt (by omega)]

theorem ChainFacts.checkRevisionsGuarded_eq_panic (h : app.ChainFacts ledger id r)
    (hsize : app.requests.size ≤ limit) :
    app.checkRevisionsGuarded ledger id r = .error .panic ↔
      (∀ revision, app.through id < revision → revision ≤ r.revision →
        ∃ key cached, app.requests.get? key = some cached ∧ cached.result.record = id
          ∧ cached.result.revision = revision)
      ∧ (app.through id = 0 → app.hasReceipt .create id) ∧ app.VersionOverflows id := by
  have hcount := toNat_patchCount id hsize
  simp only [checkRevisionsGuarded, h.patchCount_eq]
  unfold VersionOverflows
  by_cases hfull : app.through id = r.revision
  · rw [if_pos (beq_iff_eq.mpr hfull), of_ne_panic, false_iff, h.patchCount_of_full hfull]
    have hlt := (app.baseVersion id).toNat_lt
    omega
  · have hlt : app.through id < r.revision := lt_of_le_of_ne h.through_le hfull
    have hroom : (app.through id).toNat + (1 : UInt64).toNat < 2 ^ 64 := by
      have hrevision := r.revision.toNat_lt
      have hbelow := UInt64.lt_iff_toNat_lt.mp hlt
      rw [UInt64.toNat_one]
      omega
    -- past the sums that always fit, the version check is what is left
    have hlast : (if app.through id == 0 then do
          of (ensure (decide (id ∈ ledger.creates)))
          let version ← add 1 (UInt64.ofNat (app.patchCount id))
          of (ensure (r.secretVersion == version))
        else do
          of (ensure (!decide (id ∈ ledger.creates)))
          let item ← of (required (app.baselines.get? id))
          let version ← add item.secretVersion (UInt64.ofNat (app.patchCount id))
          of (ensure (r.secretVersion == version)) : Guarded Error Unit) = .error .panic ↔
        (app.through id = 0 → app.hasReceipt .create id)
          ∧ 2 ^ 64 ≤ (app.baseVersion id).toNat + app.patchCount id := by
      by_cases hzero : app.through id = 0
      · rw [if_pos (beq_iff_eq.mpr hzero)]
        simp [bind_eq_error, hcount, hzero, baseVersion, h.creates_iff]
      · have hno : id ∉ ledger.creates := fun hmem => h.no_create hzero (h.creates_iff.mp hmem)
        obtain ⟨base, hb⟩ : ∃ base, app.baselines.get? id = some base :=
          Option.ne_none_iff_exists'.mp fun hb => hzero (through_none hb)
        rw [if_neg (by simpa using hzero)]
        simp [bind_eq_error, hcount, hzero, baseVersion, hno, hb]
    rw [if_neg (by simpa using hfull), add_of_fits hroom]
    simp only [bind_eq_error, of_ne_panic, false_or, of_eq_ok, required_eq_ok, ensure_eq_ok, reduceCtorEq,
      Except.ok.injEq, exists_eq_left', exists_const, hlast]
    rw [← h.covered_iff hlt]
    constructor
    · rintro ⟨versions, hversions, hall, hrest⟩
      exact ⟨⟨versions, hversions, hall⟩, hrest⟩
    · rintro ⟨⟨versions, hversions, hall⟩, hrest⟩
      exact ⟨versions, hversions, hall, hrest⟩

theorem ChainFacts.checkChainGuarded_eq_panic (h : app.ChainFacts ledger id r)
    (hsize : app.requests.size ≤ limit) :
    app.checkChainGuarded ledger (id, r) = .error .panic ↔
      app.ChainSound id r ∧ app.VersionOverflows id := by
  simp only [checkChainGuarded, bind_eq_error, of_ne_panic, false_or, of_eq_ok, exists_unit_eq_ok]
  rw [h.checkDeleted_ok_iff, h.checkRevisionsGuarded_eq_panic hsize]
  constructor
  · rintro ⟨⟨hdel, honce⟩, hcovered, hcreated, hversion⟩
    exact ⟨⟨hcovered, hcreated, hdel, honce⟩, hversion⟩
  · rintro ⟨⟨hcovered, hcreated, hdel, honce⟩, hversion⟩
    exact ⟨⟨hdel, honce⟩, hcovered, hcreated, hversion⟩

theorem chainFacts_of_before {accounted : Finset Uuid}
    (h : app.validateBefore = .ok (ledger, accounted)) :
    app.requests.size ≤ limit ∧ ∀ id r, app.records.get? id = some r → app.ChainFacts ledger id r := by
  simp only [validateBefore, bind_eq_ok, ensure_eq_ok, exists_const, exists_unit_eq_ok, forM_eq_ok,
    pure_eq_ok, Prod.mk.injEq] at h
  obtain ⟨-, hsizes, -, -, -, hrecords, -, ledger', hcollect, accounted', hbaselines, rfl, rfl⟩ := h
  have hrecords := OrdMap.forall_entries.mp hrecords
  simp only [checkRecord_eq_ok] at hrecords
  have hid : ∀ id r, app.records.get? id = some r → id = r.id := by
    intro id r hr
    obtain ⟨t, -, hsound⟩ := hrecords id r hr
    exact hsound.id_eq
  have hentered := ((Ledger.collect_ok_iff hid).mp ⟨ledger', hcollect⟩).1
  have hbase := checkBaselines_ok_iff.mp ⟨accounted', hbaselines⟩
  refine ⟨(sizes_iff.mp hsizes).requests, fun id r hr => ?_⟩
  exact chainFacts (Ledger.collect_describes hid hcollect) hrecords hentered
    (fun id base hb => (hbase id base hb).1) hr

/-- `validate` comes to the version of the record: all it checks before that holds. -/
structure VersionReached (app : Application) (id : Uuid) (r : Record) : Prop where
  before : ∃ seen, app.validateBefore = .ok seen
  earlier : ∀ other s, app.records.get? other = some s → other < id →
    app.ChainSound other s ∧ app.VersionSound other s
  found : app.records.get? id = some r
  chain : app.ChainSound id r

theorem Valid.versionReached (h : app.Valid P) (hr : app.records.get? id = some r) :
    app.VersionReached id r := by
  have hok := validate_eq_ok.mpr h
  rw [validate_split, bind_eq_ok] at hok
  obtain ⟨seen, hbefore, -⟩ := hok
  exact ⟨⟨seen, hbefore⟩, fun other s hs _ => ⟨h.chain other s hs, h.versions other s hs⟩, hr,
    h.chain id r hr⟩

/-- The entries before one entry are those with a smaller key. -/
theorem mem_before {m : OrdMap Uuid Record} {pre post : List (Uuid × Record)}
    (hentries : m.entries = pre ++ (id, r) :: post) {other : Uuid} {s : Record} :
    (other, s) ∈ pre ↔ m.get? other = some s ∧ other < id := by
  have hsorted := m.sorted
  rw [hentries, List.pairwise_append] at hsorted
  obtain ⟨-, hpost, hpre⟩ := hsorted
  rw [← OrdMap.mem_entries, hentries]
  constructor
  · exact fun hmem => ⟨List.mem_append_left _ hmem, hpre (other, s) hmem (id, r) List.mem_cons_self⟩
  · rintro ⟨hmem, hlt⟩
    rcases List.mem_append.mp hmem with hmem | hmem
    · exact hmem
    · rcases List.mem_cons.mp hmem with heq | hmem
      · cases heq
        exact absurd hlt (lt_irrefl _)
      · have hgt := (List.pairwise_cons.mp hpost).1 (other, s) hmem
        exact absurd hlt (not_lt.mpr (le_of_lt hgt))

theorem validateGuarded_eq_panic : app.validateGuarded P = .error .panic ↔
    ∃ id r, app.VersionReached id r ∧ app.VersionOverflows id := by
  simp only [validateGuarded, bind_eq_error, of_ne_panic, false_or, of_eq_ok]
  constructor
  · rintro ⟨⟨ledger, accounted⟩, hbefore, hpanic | ⟨_, _, hnever⟩⟩
    · obtain ⟨hsize, hfacts⟩ := chainFacts_of_before hbefore
      obtain ⟨pre, ⟨id, r⟩, post, hentries, hpre, hstop⟩ :=
        (forM_eq_panic fun e _ => checkChain_agrees app ledger e).mp hpanic
      have hr : app.records.get? id = some r := by
        rw [← OrdMap.mem_entries, hentries]
        simp
      obtain ⟨hchain, hoverflow⟩ := ((hfacts id r hr).checkChainGuarded_eq_panic hsize).mp hstop
      refine ⟨id, r, ⟨⟨_, hbefore⟩, ?_, hr, hchain⟩, hoverflow⟩
      intro other s hs hlt
      exact (hfacts other s hs).checkChain_ok_iff.mp (hpre _ ((mem_before hentries).mpr ⟨hs, hlt⟩))
    · exact absurd hnever (by simp)
  · rintro ⟨id, r, hreached, hoverflow⟩
    obtain ⟨⟨ledger, accounted⟩, hbefore⟩ := hreached.before
    obtain ⟨hsize, hfacts⟩ := chainFacts_of_before hbefore
    obtain ⟨pre, post, hentries⟩ := List.append_of_mem (OrdMap.mem_entries.mpr hreached.found)
    refine ⟨(ledger, accounted), hbefore, .inl ?_⟩
    refine (forM_eq_panic fun e _ => checkChain_agrees app ledger e).mpr
      ⟨pre, (id, r), post, hentries, ?_, ?_⟩
    · rintro ⟨other, s⟩ hmem
      obtain ⟨hs, hlt⟩ := (mem_before hentries).mp hmem
      exact (hfacts other s hs).checkChain_ok_iff.mpr (hreached.earlier other s hs hlt)
    · exact ((hfacts id r hreached.found).checkChainGuarded_eq_panic hsize).mpr
        ⟨hreached.chain, hoverflow⟩

/-! Compaction, in both builds. -/

theorem foldableFromGuarded_eq {through next : UInt64} {entries : List (RequestKey × Remembered)}
    (hget : ∀ e ∈ entries, app.requests.get? e.1 = some e.2) (hconsecutive : Consecutive next.toNat entries)
    (habove : through < next) :
    app.foldableFromGuarded through next (entries.map fun e => (e.2.result.revision, e.1)) =
      if (∀ e ∈ entries, stale e.2.storedAt app.lastTime = true) ∧ next.toNat + entries.length = 2 ^ 64
      then .error .panic
      else .ok (entries.takeWhile fun e => stale e.2.storedAt app.lastTime) := by
  induction entries generalizing next with
  | nil =>
    have hlt := next.toNat_lt
    rw [if_neg fun h => absurd h.2 (by rw [List.length_nil]; omega)]
    rfl
  | cons e rest ih =>
    obtain ⟨hrevision, hrest⟩ := consecutive_cons.mp hconsecutive
    have heq : e.2.result.revision = next := UInt64.toNat_inj.mp hrevision
    have hnot : ¬ e.2.result.revision ≤ through := by rw [heq]; exact not_le.mpr habove
    rw [List.map_cons, foldableFromGuarded, if_neg hnot, hget e List.mem_cons_self]
    simp only [heq, bne_self_eq_false, Bool.or_false, List.takeWhile_cons]
    cases hstale : stale e.2.storedAt app.lastTime with
    | false =>
      have hsome : ¬ ∀ e' ∈ e :: rest, stale e'.2.storedAt app.lastTime = true := by
        intro hall
        rw [hall e List.mem_cons_self] at hstale
        cases hstale
      simp only [Bool.not_false, if_true, hsome, false_and, if_false, Bool.false_eq_true]
      rfl
    | true =>
      simp only [Bool.not_true, Bool.false_eq_true, if_false, if_true, List.mem_cons, forall_eq_or_imp,
        hstale, true_and, List.length_cons]
      by_cases hroom : next.toNat + (1 : UInt64).toNat < 2 ^ 64
      · have hnext : (next + 1).toNat = next.toNat + 1 := toNat_add_of_fits hroom
        have hbelow : through < next + 1 := by
          rw [UInt64.lt_iff_toNat_lt] at habove ⊢
          omega
        have hrun := ih (fun e he => hget e (List.mem_cons_of_mem _ he)) (hnext ▸ hrest) hbelow
        rw [hnext, Nat.add_right_comm, Nat.add_assoc] at hrun
        rw [add_of_fits hroom, ok_bind, hrun]
        split_ifs
        · rfl
        · rfl
      · -- the run ends here: no receipt has a revision past the largest word
        have hlt := next.toNat_lt
        rw [UInt64.toNat_one] at hroom
        have hlast : rest = [] := by
          cases rest with
          | nil => rfl
          | cons e' rest =>
            have hbound := e'.2.result.revision.toNat_lt
            rw [(consecutive_cons.mp hrest).1] at hbound
            omega
        subst hlast
        have hfull : next.toNat + (0 + 1) = 2 ^ 64 := by omega
        have hpanic : (add next 1 : Guarded Error UInt64) = .error .panic := by
          rw [add_eq_panic, UInt64.toNat_one]
          omega
        rw [hpanic, if_pos ⟨fun _ hin => absurd hin List.not_mem_nil, hfull⟩]
        rfl

/-- Compaction comes to the largest revision: the record has reached it, and no receipt of the
record is too young to be folded. -/
def FoldOverflows (app : Application) (id : Uuid) (r : Record) : Prop :=
  (∀ e ∈ app.chainOf id, stale e.2.storedAt app.lastTime = true) ∧ r.revision = maxU64

instance (app : Application) (id : Uuid) (r : Record) : Decidable (app.FoldOverflows id r) :=
  inferInstanceAs (Decidable (_ ∧ _))

theorem Chained.foldReceiptsGuarded_eq (h : app.Chained id r) :
    app.foldReceiptsGuarded id =
      if app.FoldOverflows id r then .error .panic else .ok (app.foldReceipts id) := by
  have hle := UInt64.le_iff_toNat_le.mp h.through_le
  have hmax : maxU64.toNat = 2 ^ 64 - 1 := rfl
  have hrevision : r.revision = maxU64 ↔ r.revision.toNat + 1 = 2 ^ 64 := by
    rw [← UInt64.toNat_inj, hmax]
    omega
  have hlength := h.length
  unfold foldReceiptsGuarded
  by_cases hroom : (app.through id).toNat + (1 : UInt64).toNat < 2 ^ 64
  · have hnext : (app.through id + 1).toNat = (app.through id).toNat + 1 := toNat_add_of_fits hroom
    have hbelow : app.through id < app.through id + 1 := by
      rw [UInt64.lt_iff_toNat_lt, hnext]
      omega
    have hcount : (app.through id).toNat + 1 + (app.chainOf id).length = 2 ^ 64 ↔ r.revision = maxU64 := by
      rw [hrevision]
      omega
    rw [foldReceipts_eq_foldInto, h.foldableFrom_eq]
    have hrun := foldableFromGuarded_eq (fun e he => (mem_chainOf.mp he).1) (hnext ▸ h.consecutive) hbelow
    simp only [hnext, hcount] at hrun
    simp only [add_of_fits hroom, receiptsOf_eq, ok_bind, hrun]
    by_cases hover : app.FoldOverflows id r
    · rw [if_pos hover, if_pos (show _ ∧ _ from hover)]
      rfl
    · rw [if_neg hover, if_neg (show ¬ (_ ∧ _) from hover)]
      rfl
  · rw [UInt64.toNat_one] at hroom
    have hlt := (app.through id).toNat_lt
    have hbound := r.revision.toNat_lt
    have hnil : app.chainOf id = [] := List.length_eq_zero_iff.mp (by omega)
    have hpanic : (add (app.through id) 1 : Guarded Error UInt64) = .error .panic := by
      rw [add_eq_panic, UInt64.toNat_one]
      omega
    have hover : app.FoldOverflows id r := by
      unfold FoldOverflows
      rw [hnil]
      exact ⟨fun _ hin => absurd hin List.not_mem_nil, hrevision.mpr (by omega)⟩
    rw [if_pos hover]
    simp only [hpanic]
    rfl

/-- The records in `ids` are as compaction found them. -/
structure Waiting (app next : Application) (ids : List Uuid) : Prop where
  records : next.records = app.records
  lastTime : next.lastTime = app.lastTime
  chainOf : ∀ id ∈ ids, next.chainOf id = app.chainOf id
  through : ∀ id ∈ ids, next.through id = app.through id

namespace Waiting

variable {next : Application} {ids : List Uuid}

theorem refl (app : Application) (ids : List Uuid) : Waiting app app ids :=
  ⟨rfl, rfl, fun _ _ => rfl, fun _ _ => rfl⟩

theorem chained (h : Waiting app next ids) (hid : id ∈ ids) (hc : app.Chained id r) : next.Chained id r where
  found := h.records ▸ hc.found
  through_le := h.through id hid ▸ hc.through_le
  consecutive := by
    rw [h.through id hid, h.chainOf id hid]
    exact hc.consecutive
  length := by
    rw [h.through id hid, h.chainOf id hid]
    exact hc.length

theorem foldOverflows_iff (h : Waiting app next ids) (hid : id ∈ ids) :
    next.FoldOverflows id r ↔ app.FoldOverflows id r := by
  unfold FoldOverflows
  rw [h.chainOf id hid, h.lastTime]

theorem step (h : Waiting app next (id :: ids)) (hnew : id ∉ ids) (hc : app.Chained id r) :
    Waiting app (next.foldReceipts id) ids := by
  have hold : ∀ j ∈ ids, j ∈ id :: ids := fun j hj => List.mem_cons_of_mem _ hj
  have hother : ∀ j ∈ ids, j ≠ id := fun j hj heq => hnew (heq ▸ hj)
  rcases (h.chained List.mem_cons_self hc).foldReceipts_cases with ⟨-, heq⟩ | hf
  · rw [heq]
    exact ⟨h.records, h.lastTime, fun j hj => h.chainOf j (hold j hj), fun j hj => h.through j (hold j hj)⟩
  · refine ⟨hf.records_eq.trans h.records, ?_, ?_, ?_⟩
    · rw [hf.result]
      exact h.lastTime
    · exact fun j hj => (hf.chainOf_others (hother j hj)).trans (h.chainOf j (hold j hj))
    · exact fun j hj => (hf.through_others (hother j hj)).trans (h.through j (hold j hj))

end Waiting

/-- The first pass of compaction, from any of its states. -/
theorem foldlM_foldReceiptsGuarded {next : Application} {ids : List Uuid} (hnodup : ids.Nodup)
    (hchained : ∀ id ∈ ids, ∃ r, app.Chained id r) (hwaiting : Waiting app next ids) :
    (ids.foldlM foldReceiptsGuarded next = .error .panic
        ∧ ∃ id ∈ ids, ∃ r, app.records.get? id = some r ∧ app.FoldOverflows id r)
      ∨ (ids.foldlM foldReceiptsGuarded next = .ok (ids.foldl foldReceipts next)
        ∧ ∀ id ∈ ids, ∀ r, app.records.get? id = some r → ¬ app.FoldOverflows id r) := by
  induction ids generalizing next with
  | nil => exact .inr ⟨rfl, fun _ hin => absurd hin List.not_mem_nil⟩
  | cons id ids ih =>
    obtain ⟨hnew, hrest⟩ := List.nodup_cons.mp hnodup
    obtain ⟨r, hc⟩ := hchained id List.mem_cons_self
    have hstep := (hwaiting.chained List.mem_cons_self hc).foldReceiptsGuarded_eq
    rw [List.foldlM_cons, List.foldl_cons, hstep]
    by_cases hover : next.FoldOverflows id r
    · rw [if_pos hover]
      exact .inl ⟨rfl, id, List.mem_cons_self, r, hc.found,
        (hwaiting.foldOverflows_iff List.mem_cons_self).mp hover⟩
    · rw [if_neg hover, ok_bind]
      rcases ih hrest (fun j hj => hchained j (List.mem_cons_of_mem _ hj)) (hwaiting.step hnew hc) with
        ⟨hpanic, j, hj, hbad⟩ | ⟨hok, hgood⟩
      · exact .inl ⟨hpanic, j, List.mem_cons_of_mem _ hj, hbad⟩
      · refine .inr ⟨hok, fun j hj s hs => ?_⟩
        rcases List.mem_cons.mp hj with rfl | hj
        · rw [hc.found, Option.some.injEq] at hs
          rw [← hs, ← hwaiting.foldOverflows_iff List.mem_cons_self]
          exact hover
        · exact hgood j hj s hs

theorem Sound.compactGuarded_eq_ok (h : app.Sound P) : app.compactGuarded = .ok app.compact ↔
    ∀ id r, app.records.get? id = some r → ¬ app.FoldOverflows id r := by
  have hchained : ∀ id ∈ app.records.keys, ∃ r, app.Chained id r := by
    intro id hid
    obtain ⟨r, hr⟩ := OrdMap.mem_keys.mp hid
    exact ⟨r, h.chained hr⟩
  unfold compactGuarded
  rw [compact_eq_compactAfter]
  rcases foldlM_foldReceiptsGuarded app.records.nodup_keys hchained (.refl app _) with
    ⟨hpanic, id, -, r, hr, hbad⟩ | ⟨hok, hgood⟩
  · rw [hpanic]
    exact ⟨nofun, fun hall => absurd hbad (hall id r hr)⟩
  · rw [hok]
    exact ⟨fun _ id r hr => hgood id (OrdMap.mem_keys.mpr ⟨r, hr⟩) r hr, fun _ => rfl⟩

/-! What a mutation does to the numbers of the record it is about. -/

/-- The record has moved on by one revision, and by one version for a new credential. -/
structure ExactStep (op : Mutation) (r r' : Record) : Prop where
  revision : r'.revision.toNat = r.revision.toNat + 1
  version : r'.secretVersion.toNat = r.secretVersion.toNat + if op.cachedKind = .patch then 1 else 0

theorem exactStep_revision {op : Mutation} {r' : Record} (hkind : op.cachedKind ≠ .patch)
    (hroom : r.revision ≠ maxU64) (hrevision : r'.revision = r.revision + 1)
    (hversion : r'.secretVersion = r.secretVersion) : ExactStep op r r' := by
  refine ⟨?_, ?_⟩
  · rw [hrevision, toNat_succ hroom]
  · rw [hversion, if_neg hkind, Nat.add_zero]

theorem patched_exactStep {expected : UInt64} {values : SecretInput} {r' : Record}
    (hroom : r.revision ≠ maxU64) (h : patched values r = .ok r') :
    ExactStep (.patch id expected values) r r' := by
  unfold patched at h
  by_cases hcredential : values.changesCredential = true
  · rw [if_pos hcredential] at h
    split_ifs at h with hversion
    cases h
    have hkind : (Mutation.patch id expected values).cachedKind = .patch := if_pos hcredential
    refine ⟨toNat_succ hroom, ?_⟩
    rw [if_pos hkind]
    exact toNat_succ (by simpa using hversion)
  · rw [if_neg hcredential] at h
    cases h
    have hkind : (Mutation.patch id expected values).cachedKind = .metadataPatch := if_neg hcredential
    exact exactStep_revision (by rw [hkind]; nofun) hroom rfl rfl

theorem Performed.exactStep {ctx : AuthenticatedContext} {t : TaskApproval} {task : Uuid} {draw : Draw}
    {op : Mutation} {receipt : Receipt} {next : Application}
    (h : Performed ctx t task draw app op receipt next) (htarget : op.target = some id)
    (hr : app.records.get? id = some r) (hroom : r.revision ≠ maxU64) :
    ∃ r', next.records.get? id = some r' ∧ ExactStep op r r' := by
  cases h with
  | create room => cases htarget
  | @patch _ _ _ s s' hs hpatched =>
    cases htarget
    rw [hr, Option.some.injEq] at hs
    exact ⟨s', OrdMap.get?_insert_self _ _ _, patched_exactStep hroom (hs ▸ hpatched)⟩
  | share hs room =>
    cases htarget
    rw [hr, Option.some.injEq] at hs
    rw [← hs]
    exact ⟨_, OrdMap.get?_insert_self _ _ _, exactStep_revision nofun hroom rfl rfl⟩
  | revoke hs hg =>
    cases htarget
    rw [hr, Option.some.injEq] at hs
    rw [← hs]
    exact ⟨_, OrdMap.get?_insert_self _ _ _, exactStep_revision nofun hroom rfl rfl⟩
  | delete hs =>
    cases htarget
    rw [hr, Option.some.injEq] at hs
    rw [← hs]
    exact ⟨_, OrdMap.get?_insert_self _ _ _, exactStep_revision nofun hroom rfl rfl⟩
  | reportOutcome hs =>
    cases htarget
    rw [hr, Option.some.injEq] at hs
    rw [← hs]
    exact ⟨_, OrdMap.get?_insert_self _ _ _, exactStep_revision nofun hroom rfl rfl⟩

/-- No mutation wraps: the record it is about stays, or moves on by exactly one. -/
theorem mutate_exactStep {ctx : AuthenticatedContext} {task request : Uuid} {op : Mutation} {now : Time}
    {draw : Draw} {receipt : Receipt} {next : Application}
    (h : mutate P ctx task request op now draw app = .ok receipt next) (htarget : op.target = some id)
    (hr : app.records.get? id = some r) :
    ∃ r', next.records.get? id = some r' ∧ (r' = r ∨ ExactStep op r r') := by
  rw [← ticked_records app now] at hr
  obtain ⟨effective, -, hexecuted | ⟨-, rfl⟩⟩ := wp_ok (wp_mutate P ctx task request op now draw app) h
  · obtain ⟨t, mid, op', -, -, hauth, hresolve, hperformed, rfl⟩ := hexecuted.change
    have hsame : op' = op := by
      cases op with
      | create => cases htarget
      | generate => cases htarget
      | _ => cases hresolve; rfl
    subst hsame
    obtain ⟨s, htargeted⟩ := authorize_target hauth htarget
    have hs : s = r := Option.some.inj (htargeted.found.symm.trans hr)
    obtain ⟨r', hr', hmoved⟩ := hperformed.exactStep htarget hr (hs ▸ htargeted.room rfl)
    exact ⟨r', hr', .inr hmoved⟩
  · exact ⟨r, hr, .inl rfl⟩

/-- No sum on an image wraps or panics, in validation or later, and an accepted version is the count
it stands for. -/
structure ArithmeticExact (P : Platform) (app : Application) : Prop where
  validates : app.validateGuarded P ≠ .error .panic
  versions : app.validate P = .ok () → ∀ id r, app.records.get? id = some r →
    r.secretVersion.toNat = (app.baseVersion id).toNat + app.patchCount id
  compacts : app.validate P = .ok () → app.compactGuarded = .ok app.compact
  mutates : app.validate P = .ok () → ∀ ctx task request op now draw receipt next,
    mutate P ctx task request op now draw app = .ok receipt next → ∀ id r, op.target = some id →
      app.records.get? id = some r → ∃ r', next.records.get? id = some r' ∧ (r' = r ∨ ExactStep op r r')

theorem Valid.version_exact_iff (h : app.Valid P) (hr : app.records.get? id = some r) :
    r.secretVersion.toNat = (app.baseVersion id).toNat + app.patchCount id ↔ ¬ app.VersionOverflows id := by
  have hcount := toNat_patchCount id h.sizes.requests
  have hversion := congrArg UInt64.toNat (h.versions id r hr)
  rw [UInt64.toNat_add, hcount] at hversion
  have hlt := r.secretVersion.toNat_lt
  unfold VersionOverflows
  constructor
  · omega
  · intro hfits
    rwa [Nat.mod_eq_of_lt (not_le.mp hfits)] at hversion

/-- The baseline's version is not bounded by what it stands for, and compaction counts one past the
revision it folds. -/
theorem arithmetic_exact_iff (P : Platform) (app : Application) : app.ArithmeticExact P ↔
    (∀ id r, app.VersionReached id r → (app.baseVersion id).toNat + app.patchCount id < 2 ^ 64)
    ∧ (app.validate P = .ok () → ∀ id r, app.records.get? id = some r → r.revision = maxU64 →
      ∃ key cached, app.requests.get? key = some cached ∧ cached.result.record = id
        ∧ stale cached.storedAt app.lastTime = false) := by
  have hfolds : ∀ id r, ¬ app.FoldOverflows id r ↔ (r.revision = maxU64 →
      ∃ key cached, app.requests.get? key = some cached ∧ cached.result.record = id
        ∧ stale cached.storedAt app.lastTime = false) := by
    intro id r
    unfold FoldOverflows
    simp only [not_and', not_forall, Prod.exists, mem_chainOf, Bool.not_eq_true, exists_prop, and_assoc]
  constructor
  · intro h
    refine ⟨fun id r hreached => ?_, fun hok id r hr => ?_⟩
    · by_contra hover
      exact h.validates (validateGuarded_eq_panic.mpr ⟨id, r, hreached, not_lt.mp hover⟩)
    · rw [← hfolds]
      exact (validate_eq_ok.mp hok).toSound.compactGuarded_eq_ok.mp (h.compacts hok) id r hr
  · rintro ⟨hfits, hyoung⟩
    refine ⟨fun hpanic => ?_, fun hok id r hr => ?_, fun hok => ?_, ?_⟩
    · obtain ⟨id, r, hreached, hover⟩ := validateGuarded_eq_panic.mp hpanic
      exact absurd (hfits id r hreached) (not_lt.mpr hover)
    · have hvalid := validate_eq_ok.mp hok
      exact (hvalid.version_exact_iff hr).mpr (not_le.mpr (hfits id r (hvalid.versionReached hr)))
    · refine (validate_eq_ok.mp hok).toSound.compactGuarded_eq_ok.mpr fun id r hr => ?_
      rw [hfolds]
      exact hyoung hok id r hr
    · intro _ ctx task request op now draw receipt next hmutate id r htarget hr
      exact mutate_exactStep hmutate htarget hr

end Application

/-- An image at the last revision, all of it in the baseline. -/
def lastRevisionVault : Application where
  tasks := (∅ : OrdMap Uuid TaskApproval).insert 1 aliceTask
  records := (∅ : OrdMap Uuid Record).insert 10 { sharedLogin with revision := maxU64 }
  baselines := (∅ : OrdMap Uuid RecordBaseline).insert 10 { through := maxU64, secretVersion := 1 }
  lastTime := some 4
  generation := 5

/-- A baseline at the largest version with two patches above it, and compaction at the last
revision. -/
theorem arithmetic_wraps :
    wrappedVault.validate .reference = .ok ()
      ∧ wrappedVault.validateGuarded .reference = .error .panic
      ∧ wrappedVault.records.get? 10 = some wrappedRecord ∧ wrappedRecord.secretVersion = 1
      ∧ (wrappedVault.baseline 10).secretVersion = maxU64 ∧ wrappedVault.patchCount 10 = 2
      ∧ lastRevisionVault.validate .reference = .ok ()
      ∧ lastRevisionVault.compactGuarded = .error .panic := by
  decide +kernel

end Credman
