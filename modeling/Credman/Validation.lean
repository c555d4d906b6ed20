import Credman.Validity

/-! `validate` accepts exactly the valid applications: each walk over a map with
what it collects, and their conjunction. -/
namespace Credman

open Library Library.Checked

/-- The ledger after one more receipt. -/
def Ledger.note (ledger : Ledger) (cached : Remembered) : Ledger :=
  let id := cached.result.record
  let ledger := { ledger with
    revisions := addRevision ledger.revisions id cached.result.revision }
  match cached.kind, cached.result.grant with
  | .create, _ => { ledger with creates := insert id ledger.creates }
  | .share, some grant => { ledger with shares := insert grant ledger.shares }
  | .delete, _ => { ledger with deletes := insert id ledger.deletes }
  | .patch, _ => { ledger with patches := addRevision ledger.patches id cached.result.revision }
  | _, _ => ledger

structure Ledger.Fresh (ledger : Ledger) (cached : Remembered) : Prop where
  revision :
    ((ledger.revisions.get? cached.result.record).getD ∅).contains cached.result.revision = false
  create : cached.kind = .create → cached.result.record ∉ ledger.creates
  share : cached.kind = .share → ∀ gid, cached.result.grant = some gid → gid ∉ ledger.shares

namespace Ledger

theorem enter_eq_ok {app : Application} (hid : ∀ id r, app.records.get? id = some r → id = r.id)
    {ledger ledger' : Ledger} {key : RequestKey} {cached : Remembered} :
    enter app ledger (key, cached) = .ok ledger' ↔
      (∃ t r, app.tasks.get? key.task = some t ∧ app.records.get? cached.result.record = some r
        ∧ ReceiptSound key cached t r (app.through cached.result.record)
        ∧ KindSound app.grants key cached r)
      ∧ ledger.Fresh cached ∧ ledger' = ledger.note cached := by
  simp only [enter, bind_eq_ok, required_eq_ok, ensure_eq_ok, exists_const]
  simp [and_assoc]
  constructor
  · rintro ⟨t, ht, r, hr, h1, h2, h3, h4, h5, h6, hnew, hkind⟩
    have heq := hid _ r hr
    simp only [← heq] at *
    cases hk : cached.kind <;> simp [enterKind, hk] at hkind
    all_goals
      refine ⟨⟨t, ht, r, hr, ⟨h1, h2, h3, h4, h5, h6⟩, ?_⟩, ⟨hnew, ?_, ?_⟩, ?_⟩ <;>
        grind [KindSound, note]
  · rintro ⟨⟨t, ht, r, hr, ⟨h1, h2, h3, h4, h5, h6⟩, hkind⟩, ⟨hnew, hcreate, hshare⟩, rfl⟩
    have heq := hid _ r hr
    refine ⟨t, ht, r, hr, h1, h2, h3, h4, heq ▸ h5, h6, heq ▸ hnew, ?_⟩
    cases hk : cached.kind <;> simp [enterKind, hk] <;> grind [KindSound, note]

section Note

variable (ledger : Ledger) (cached : Remembered)

@[simp] theorem note_revisions : (ledger.note cached).revisions =
    addRevision ledger.revisions cached.result.record cached.result.revision := by
  unfold note
  split <;> rfl

@[simp] theorem note_creates : (ledger.note cached).creates =
    if cached.kind = .create then insert cached.result.record ledger.creates
    else ledger.creates := by
  unfold note
  split <;> simp_all

@[simp] theorem note_shares : (ledger.note cached).shares =
    match cached.kind, cached.result.grant with
    | .share, some gid => insert gid ledger.shares
    | _, _ => ledger.shares := by
  unfold note
  split <;> simp_all

@[simp] theorem note_deletes : (ledger.note cached).deletes =
    if cached.kind = .delete then insert cached.result.record ledger.deletes
    else ledger.deletes := by
  unfold note
  split <;> simp_all

@[simp] theorem note_patches : (ledger.note cached).patches =
    if cached.kind = .patch then
      addRevision ledger.patches cached.result.record cached.result.revision
    else ledger.patches := by
  unfold note
  split <;> simp_all

end Note

/-- What the ledger holds after the receipts `pre`. -/
structure Describes (pre : List (RequestKey × Remembered)) (ledger : Ledger) : Prop where
  revisions : ∀ id revision,
    ((ledger.revisions.get? id).getD ∅).contains revision = true ↔
      ∃ e ∈ pre, e.2.result.record = id ∧ e.2.result.revision = revision
  present : ∀ id, (ledger.revisions.get? id).isSome = true ↔ ∃ e ∈ pre, e.2.result.record = id
  creates : ∀ id, id ∈ ledger.creates ↔ ∃ e ∈ pre, e.2.result.record = id ∧ e.2.kind = .create
  shares : ∀ gid, gid ∈ ledger.shares ↔
    ∃ e ∈ pre, e.2.kind = .share ∧ e.2.result.grant = some gid
  deletes : ∀ id, id ∈ ledger.deletes ↔ ∃ e ∈ pre, e.2.result.record = id ∧ e.2.kind = .delete
  patches : ∀ id revision,
    ((ledger.patches.get? id).getD ∅).contains revision = true →
      ∃ e ∈ pre, e.2.result.record = id ∧ e.2.result.revision = revision
  patchCount : ∀ id, ((ledger.patches.get? id).getD ∅).size =
    pre.countP fun e => e.2.kind == .patch && e.2.result.record == id
  first : ∀ e ∈ pre, e.2.kind = .create → e.2.result.revision = 1

theorem describes_nil : Describes [] {} := by
  constructor <;> (simp [OrdMap.contains, OrdMap.size]; try rfl)

theorem getD_addRevision (sets : OrdMap Uuid (OrdMap UInt64 Unit)) (id other : Uuid)
    (revision : UInt64) :
    ((addRevision sets id revision).get? other).getD ∅ =
      if id = other then ((sets.get? other).getD ∅).insert revision ()
      else (sets.get? other).getD ∅ := by
  rw [addRevision, OrdMap.get?_insert]
  split_ifs with h
  · rw [h]
    rfl
  · rfl

theorem contains_insert {K V : Type} [LinearOrder K] (m : OrdMap K V) (key other : K) (v : V) :
    (m.insert key v).contains other = (decide (key = other) || m.contains other) := by
  rw [OrdMap.contains, OrdMap.get?_insert]
  by_cases h : key = other <;> simp [h, OrdMap.contains]

theorem Describes.note {pre : List (RequestKey × Remembered)} {ledger : Ledger}
    (h : Describes pre ledger) {key : RequestKey} {cached : Remembered}
    (hfresh : ledger.Fresh cached) (hfirst : cached.kind = .create → cached.result.revision = 1) :
    Describes (pre ++ [(key, cached)]) (ledger.note cached) where
  revisions := by
    intro id revision
    simp only [note_revisions, getD_addRevision, List.mem_append, List.mem_singleton, or_and_right,
      exists_or, exists_eq_left, ← h.revisions]
    split_ifs with hid <;> simp [contains_insert, hid, or_comm]
  present := by
    intro id
    simp only [note_revisions, addRevision, OrdMap.get?_insert, List.mem_append,
      List.mem_singleton, or_and_right, exists_or, exists_eq_left, ← h.present]
    split_ifs with hid <;> simp [hid]
  creates := by
    intro id
    simp only [note_creates, List.mem_append, List.mem_singleton, or_and_right, exists_or,
      exists_eq_left, ← h.creates]
    split_ifs with hk <;> simp [hk, or_comm, eq_comm]
  shares := by
    intro gid
    simp only [note_shares, List.mem_append, List.mem_singleton, or_and_right, exists_or,
      exists_eq_left, ← h.shares]
    split <;> grind
  deletes := by
    intro id
    simp only [note_deletes, List.mem_append, List.mem_singleton, or_and_right, exists_or,
      exists_eq_left, ← h.deletes]
    split_ifs with hk <;> simp [hk, or_comm, eq_comm]
  patches := by
    intro id revision
    simp only [note_patches, List.mem_append, List.mem_singleton, or_and_right, exists_or,
      exists_eq_left]
    have hold := h.patches id revision
    split_ifs with hk
    · rw [getD_addRevision]
      split_ifs with hid
      · rw [contains_insert]
        grind
      · grind
    · grind
  patchCount := by
    intro id
    simp only [note_patches, List.countP_append, List.countP_singleton]
    have hold := h.patchCount id
    split_ifs with hk hpatch
    · simp only [Bool.and_eq_true, beq_iff_eq] at hpatch
      have hnone : ((ledger.patches.get? id).getD ∅).get? cached.result.revision = none := by
        rw [← OrdMap.contains_false, ← Bool.not_eq_true]
        intro hmem
        have := (h.revisions id cached.result.revision).mpr (h.patches _ _ hmem)
        rw [← hpatch.2, hfresh.revision] at this
        cases this
      rw [getD_addRevision, if_pos hpatch.2, OrdMap.size_insert_of_none hnone, hold]
    · have hid : ¬ cached.result.record = id := by simpa [hk] using hpatch
      rw [getD_addRevision, if_neg hid, hold, Nat.add_zero]
    · simp_all
    · rw [hold, Nat.add_zero]
  first := by
    intro e he
    rcases List.mem_append.mp he with he | he
    · exact h.first e he
    · rw [List.mem_singleton.mp he]
      exact hfirst

/-- Two receipts that may stand side by side. -/
def Apart (a b : RequestKey × Remembered) : Prop :=
  ¬ (a.2.result.record = b.2.result.record ∧ a.2.result.revision = b.2.result.revision)
    ∧ ∀ gid, ¬ (a.2.kind = .share ∧ b.2.kind = .share ∧ a.2.result.grant = some gid
      ∧ b.2.result.grant = some gid)

theorem fresh_iff {pre : List (RequestKey × Remembered)} {ledger : Ledger}
    (h : Describes pre ledger) {key : RequestKey} {cached : Remembered}
    (hfirst : cached.kind = .create → cached.result.revision = 1) :
    ledger.Fresh cached ↔ ∀ b ∈ pre, Apart b (key, cached) := by
  constructor
  · rintro ⟨hrevision, -, hshare⟩ b hb
    constructor
    · rintro ⟨hrecord, hrev⟩
      have := (h.revisions cached.result.record cached.result.revision).mpr ⟨b, hb, hrecord, hrev⟩
      rw [hrevision] at this
      cases this
    · rintro gid ⟨hb', hc, hbg, hcg⟩
      exact hshare hc gid hcg ((h.shares gid).mpr ⟨b, hb, hb', hbg⟩)
  · intro hall
    refine ⟨?_, ?_, ?_⟩
    · rw [← Bool.not_eq_true, h.revisions]
      rintro ⟨e, he, hrecord, hrevision⟩
      exact (hall e he).1 ⟨hrecord, hrevision⟩
    · rw [h.creates]
      rintro hk ⟨e, he, hrecord, hcreate⟩
      refine (hall e he).1 ⟨hrecord, ?_⟩
      rw [h.first e he hcreate, hfirst hk]
    · intro hk gid hgid
      rw [h.shares]
      rintro ⟨e, he, hshare, hg⟩
      exact (hall e he).2 gid ⟨hshare, hk, hg, hgid⟩

/-- A receipt whose task and record exist and fit it. -/
def Entered (app : Application) (key : RequestKey) (cached : Remembered) : Prop :=
  ∃ t r, app.tasks.get? key.task = some t ∧ app.records.get? cached.result.record = some r
    ∧ ReceiptSound key cached t r (app.through cached.result.record)
    ∧ KindSound app.grants key cached r

theorem Entered.first {app : Application} {key : RequestKey} {cached : Remembered}
    (h : Entered app key cached) (hk : cached.kind = .create) : cached.result.revision = 1 := by
  obtain ⟨t, r, -, -, -, hkind⟩ := h
  rw [KindSound, hk] at hkind
  exact hkind.2.2.1

variable {app : Application} (hid : ∀ id r, app.records.get? id = some r → id = r.id)
include hid

private theorem enter_step (pre : List (RequestKey × Remembered)) (e : RequestKey × Remembered)
    (ledger : Ledger) (h : Describes pre ledger) :
    (∃ ledger', enter app ledger e = .ok ledger') ↔
      Entered app e.1 e.2 ∧ ∀ b ∈ pre, Apart b e := by
  obtain ⟨key, cached⟩ := e
  simp only [enter_eq_ok hid]
  constructor
  · rintro ⟨ledger', hentered, hfresh, -⟩
    exact ⟨hentered, (fresh_iff h (Entered.first hentered)).mp hfresh⟩
  · rintro ⟨hentered, hall⟩
    exact ⟨_, hentered, (fresh_iff h (Entered.first hentered)).mpr hall, rfl⟩

private theorem enter_describes (pre : List (RequestKey × Remembered))
    (e : RequestKey × Remembered) (ledger ledger' : Ledger) (h : Describes pre ledger)
    (hstep : enter app ledger e = .ok ledger') : Describes (pre ++ [e]) ledger' := by
  obtain ⟨key, cached⟩ := e
  obtain ⟨hentered, hfresh, rfl⟩ := (enter_eq_ok hid).mp hstep
  exact h.note hfresh (Entered.first hentered)

theorem collect_ok_iff : (∃ ledger, collect app = .ok ledger) ↔
    (∀ key cached, app.requests.get? key = some cached → Entered app key cached)
      ∧ app.requests.entries.Pairwise Apart := by
  rw [collect, foldlM_ok_iff Describes (fun pre e _ ledger _ h => enter_step hid pre e ledger h)
    (fun pre e _ ledger ledger' _ h hstep => enter_describes hid pre e ledger ledger' h hstep)
    app.requests.entries [] {} rfl describes_nil]
  simp [OrdMap.mem_entries]

theorem collect_describes {ledger : Ledger} (h : collect app = .ok ledger) :
    Describes app.requests.entries ledger :=
  foldlM_describes Describes
    (fun pre e _ ledger ledger' _ h hstep => enter_describes hid pre e ledger ledger' h hstep)
    app.requests.entries [] {} ledger rfl describes_nil h

end Ledger

namespace Application

/-! The approvals, checked by approving them again. -/

structure Checker (pre : List (Uuid × TaskApproval)) (checker : Application) : Prop where
  tasks : ∀ id t, checker.tasks.get? id = some t ↔ (id, t) ∈ pre
  size : checker.tasks.size = pre.length
  unfrozen : checker.clockFrozen = false
  clock : ∀ last, checker.lastTime = some last → last = Time.min

theorem Checker.effectiveTime {pre : List (Uuid × TaskApproval)} {checker : Application}
    (h : Checker pre checker) : checker.effectiveTime Time.min = .ok Time.min := by
  unfold Application.effectiveTime
  rw [h.unfrozen]
  cases hl : checker.lastTime with
  | none => rfl
  | some last => simp [h.clock last hl]

theorem approved_iff {pre : List (Uuid × TaskApproval)} {checker checker' : Application}
    {id : Uuid} {t : TaskApproval} (h : Checker pre checker) (hid : id = t.id) :
    Approved (.fromAuthenticatedAdmin t.owner "snapshot-validation" t.workspace) t Time.min
        (checker.ticked Time.min) checker' ↔
      TaskSound id t ∧ (∀ b ∈ pre, SameOwner b.2 t) ∧ (∀ b ∈ pre, b.1 ≠ id)
        ∧ pre.length < 10000
        ∧ checker' = { checker.ticked Time.min with tasks := checker.tasks.insert id t } := by
  have hnone : checker.tasks.get? t.id = none ↔ ∀ b ∈ pre, b.1 ≠ id := by
    rw [Option.eq_none_iff_forall_ne_some]
    simp only [ne_eq, h.tasks, Prod.forall, hid]
    exact ⟨fun hno i s hmem heq => hno s (heq ▸ hmem), fun hno s hmem => hno _ s hmem rfl⟩
  have howner : (∀ i s, checker.tasks.get? i = some s → SameOwner s t) ↔
      ∀ b ∈ pre, SameOwner b.2 t := by
    simp only [h.tasks, Prod.forall]
  constructor
  · rintro ⟨-, -, -, hone, hform, hbounded, hfresh, hroom, hresult⟩
    simp only [ticked_tasks] at hone hfresh hroom hresult
    exact ⟨⟨hid, hform, hbounded⟩, howner.mp hone, hnone.mp hfresh, h.size ▸ hroom,
      hid ▸ hresult⟩
  · rintro ⟨⟨-, hform, hbounded⟩, hone, hfresh, hroom, hresult⟩
    refine ⟨rfl, rfl, rfl, ?_, hform, hbounded, ?_, ?_, ?_⟩ <;> simp only [ticked_tasks]
    · exact howner.mpr hone
    · exact hnone.mpr hfresh
    · exact h.size.symm ▸ hroom
    · exact hid ▸ hresult

/-- Validation runs an approval on its checker, and has one error for it. -/
theorem approval_eq_ok {ctx : AuthenticatedContext} {t : TaskApproval} {now : Time}
    {checker checker' : Application} : (match (approveTask ctx t now).run checker with
      | .ok _ checker => Except.ok checker
      | .error _ _ => .error Error.invalidStorage) = .ok checker' ↔
    approveTask ctx t now checker = .ok () checker' := by
  unfold EStateM.run
  cases approveTask ctx t now checker <;> simp

theorem checkTask_eq_ok {pre : List (Uuid × TaskApproval)} {checker checker' : Application}
    {id : Uuid} {t : TaskApproval} (h : Checker pre checker) :
    checkTask checker (id, t) = .ok checker' ↔
      TaskSound id t ∧ (∀ b ∈ pre, SameOwner b.2 t) ∧ (∀ b ∈ pre, b.1 ≠ id)
        ∧ pre.length < 10000
        ∧ checker' = { checker.ticked Time.min with tasks := checker.tasks.insert id t } := by
  have hrun : approveTask (.fromAuthenticatedAdmin t.owner "snapshot-validation" t.workspace) t
      Time.min checker = .ok () checker' ↔ Approved (.fromAuthenticatedAdmin t.owner
        "snapshot-validation" t.workspace) t Time.min (checker.ticked Time.min) checker' := by
    rw [approveTask_eq_ok]
    simp only [h.effectiveTime, Except.ok.injEq, exists_eq_left']
  simp only [checkTask, bind_eq_ok, ensure_eq_ok, exists_const]
  refine (and_congr_right fun _ => approval_eq_ok.trans hrun).trans ?_
  constructor
  · rintro ⟨hid, h'⟩
    simp only [Bool.and_eq_true, beq_iff_eq] at hid
    exact (approved_iff h hid.1.2).mp h'
  · intro h'
    refine ⟨?_, (approved_iff h h'.1.id_eq).mpr h'⟩
    have hform := h'.1.wellFormed
    have hid := h'.1.id_eq
    simp only [TaskApproval.malformed, Bool.or_eq_false_iff, beq_eq_false_iff_ne] at hform
    simp [hid, hform]

theorem Checker.snoc {pre : List (Uuid × TaskApproval)} {checker checker' : Application}
    {e : Uuid × TaskApproval} (h : Checker pre checker)
    (hstep : checkTask checker e = .ok checker') : Checker (pre ++ [e]) checker' := by
  obtain ⟨id, t⟩ := e
  obtain ⟨-, -, hne, -, rfl⟩ := (checkTask_eq_ok h).mp hstep
  have hnone : checker.tasks.get? id = none := by
    by_contra hsome
    obtain ⟨t', ht'⟩ := Option.ne_none_iff_exists'.mp hsome
    exact hne _ ((h.tasks id t').mp ht') rfl
  refine ⟨?_, ?_, ?_, ?_⟩
  · intro i s
    rw [OrdMap.get?_insert, List.mem_append, List.mem_singleton, ← h.tasks, Prod.mk.injEq]
    by_cases hi : id = i
    · subst hi
      simp [hnone, eq_comm]
    · simp [hi, Ne.symm hi]
  · simp only [OrdMap.size_insert_of_none hnone, h.size, List.length_append, List.length_singleton]
  · exact (ticked_clockFrozen checker Time.min).trans h.unfrozen
  · intro last hlast
    have := (lastTime_ticked h.effectiveTime).1
    exact (Option.some.inj (this.symm.trans hlast)).symm

def TasksSound (app : Application) : Prop :=
  (∀ id t, app.tasks.get? id = some t → TaskSound id t)
    ∧ ∀ i s j t, app.tasks.get? i = some s → app.tasks.get? j = some t → SameOwner s t

theorem checkTasks_ok_iff {app : Application} (hsize : app.tasks.size ≤ limit) :
    (∃ checker, app.tasks.entries.foldlM checkTask {} = .ok checker) ↔ app.TasksSound := by
  have hstart : Checker [] {} :=
    ⟨by simp, rfl, rfl, by simp⟩
  have hstep : ∀ pre e post checker, app.tasks.entries = pre ++ e :: post → Checker pre checker →
      ((∃ checker', checkTask checker e = .ok checker') ↔
        TaskSound e.1 e.2 ∧ ∀ b ∈ pre, SameOwner b.2 e.2) := by
    rintro pre ⟨id, t⟩ post checker hsplit h
    have hroom : pre.length < 10000 := by
      have : pre.length < app.tasks.size := by simp [OrdMap.size, hsplit]
      exact lt_of_lt_of_le this hsize
    simp only [checkTask_eq_ok h]
    constructor
    · rintro ⟨_, hsound, howner, -⟩
      exact ⟨hsound, howner⟩
    · rintro ⟨hsound, howner⟩
      exact ⟨_, hsound, howner, OrdMap.ne_of_split hsplit, hroom, rfl⟩
  rw [foldlM_ok_iff Checker hstep (fun pre e _ s s' _ h hstep => h.snoc hstep)
    app.tasks.entries [] {} rfl hstart, OrdMap.pairwise_entries fun a b h => ⟨h.1.symm, h.2.symm⟩]
  simp only [List.not_mem_nil, false_implies, implies_true, and_true, OrdMap.forall_entries,
    TasksSound]
  apply and_congr_right
  intro _
  constructor
  · intro h i s j t hs ht
    by_cases hij : i = j
    · subst hij
      rw [hs, Option.some.injEq] at ht
      exact ⟨congrArg _ ht, congrArg _ ht⟩
    · exact h i s j t hs ht hij
  · exact fun h i s j t hs ht _ => h i s j t hs ht

/-! The baselines, and the grants they account for. -/

def PrunedSound (app : Application) (id gid : Uuid) : Prop :=
  (∃ g, app.grants.get? gid = some g ∧ g.record = id)
    ∧ ∀ key cached, app.requests.get? key = some cached → cached.kind = .share →
      cached.result.grant ≠ some gid

theorem checkPruned_eq_ok {app : Application} {id gid : Uuid} {accounted accounted' : Finset Uuid} :
    app.checkPruned id accounted gid = .ok accounted' ↔
      app.PrunedSound id gid ∧ gid ∉ accounted ∧ accounted' = insert gid accounted := by
  simp only [checkPruned, bind_eq_ok, required_eq_ok, ensure_eq_ok, exists_const, pure_eq_ok]
  simp only [Bool.and_eq_true, beq_iff_eq, Bool.not_eq_true', decide_eq_false_iff_not,
    OrdMap.any_false, PrunedSound]
  grind

/-- `s` holds the grants accounted for at the start and those walked since. -/
def Collected (accounted : Finset Uuid) (pre : List Uuid) (s : Finset Uuid) : Prop :=
  ∀ gid, gid ∈ s ↔ gid ∈ accounted ∨ gid ∈ pre

/-- One list of pruned grants, walked with the grants accounted for before it. -/
theorem checkPruned_fold {app : Application} {id : Uuid} {gids : List Uuid}
    {accounted : Finset Uuid} (hsorted : gids.Pairwise (· < ·))
    (hother : ∀ gid ∈ gids, app.PrunedSound id gid → gid ∉ accounted) :
    ((∃ accounted', gids.foldlM (app.checkPruned id) accounted = .ok accounted') ↔
      ∀ gid ∈ gids, app.PrunedSound id gid)
    ∧ ∀ accounted', gids.foldlM (app.checkPruned id) accounted = .ok accounted' →
      ∀ gid, gid ∈ accounted' ↔ gid ∈ accounted ∨ gid ∈ gids := by
  have hstart : Collected accounted [] accounted := by simp [Collected]
  have hnext : ∀ pre gid post s s', gids = pre ++ gid :: post → Collected accounted pre s →
      app.checkPruned id s gid = .ok s' → Collected accounted (pre ++ [gid]) s' := by
    rintro pre gid post s s' - hs hstep
    obtain ⟨-, -, rfl⟩ := checkPruned_eq_ok.mp hstep
    intro other
    simp only [Finset.mem_insert, hs other, List.mem_append, List.mem_singleton]
    tauto
  have hstep : ∀ pre gid post s, gids = pre ++ gid :: post → Collected accounted pre s →
      ((∃ s', app.checkPruned id s gid = .ok s') ↔
        app.PrunedSound id gid ∧ ∀ b ∈ pre, True) := by
    intro pre gid post s hsplit hs
    simp only [checkPruned_eq_ok, implies_true, and_true]
    refine ⟨fun ⟨_, h, _⟩ => h, fun h => ⟨_, h, ?_, rfl⟩⟩
    rw [hs gid]
    rintro (hacc | hpre)
    · exact hother gid (by simp [hsplit]) h hacc
    · rw [hsplit, List.pairwise_append] at hsorted
      exact absurd (hsorted.2.2 gid hpre gid (by simp)) (lt_irrefl gid)
  refine ⟨?_, fun s' h => foldlM_describes (Collected accounted) hnext gids [] accounted s' rfl hstart h⟩
  rw [foldlM_ok_iff (Collected accounted) hstep hnext gids [] accounted rfl hstart]
  simp [List.pairwise_of_forall]

theorem baselineSound_iff {base : RecordBaseline} {r : Record} :
    BaselineSound base r ↔ base.through ≤ r.revision
      ∧ (0 < base.through ∨ base.secretVersion = 0 ∧ base.deletePruned = false
        ∧ base.prunedGrants = [])
      ∧ (base.through = 0 ∨ 1 ≤ base.secretVersion) ∧ base.prunedGrants.IsChain (· < ·)
      ∧ (base.verifiedLogin = true → r.signup = .verifiedLogin) := by
  rw [List.isChain_iff_pairwise]
  have hpos : 0 < base.through ↔ base.through ≠ 0 := by grind
  rw [hpos]
  constructor
  · rintro ⟨h1, h2, h3, h4, h5⟩
    exact ⟨h1, by tauto, by tauto, h4, h5⟩
  · rintro ⟨h1, h2, h3, h4, h5⟩
    exact ⟨h1, by tauto, by tauto, h4, h5⟩

theorem checkBaseline_eq_ok {app : Application} {accounted accounted' : Finset Uuid} {id : Uuid}
    {base : RecordBaseline} :
    app.checkBaseline accounted (id, base) = .ok accounted' ↔
      (∃ r, app.records.get? id = some r ∧ BaselineSound base r)
        ∧ base.prunedGrants.foldlM (app.checkPruned id) accounted = .ok accounted' := by
  simp only [checkBaseline, bind_eq_ok, required_eq_ok, ensure_eq_ok, exists_const]
  rw [← exists_and_right]
  apply exists_congr
  intro r
  rw [and_assoc]
  apply and_congr_right
  intro _
  rw [baselineSound_iff]
  cases hv : base.verifiedLogin <;> simp [and_assoc]

/-- What the walk over the baselines has accounted for. -/
structure Accounted (app : Application) (pre : List (Uuid × RecordBaseline))
    (accounted : Finset Uuid) : Prop where
  mem : ∀ gid, gid ∈ accounted ↔ ∃ e ∈ pre, gid ∈ e.2.prunedGrants
  owner : ∀ e ∈ pre, ∀ gid ∈ e.2.prunedGrants, app.PrunedSound e.1 gid

private theorem Accounted.disjoint {app : Application} {pre : List (Uuid × RecordBaseline)}
    {accounted : Finset Uuid} {id gid : Uuid} (h : app.Accounted pre accounted)
    (hne : ∀ b ∈ pre, b.1 ≠ id) (hsound : app.PrunedSound id gid) : gid ∉ accounted := by
  rw [h.mem]
  rintro ⟨e, he, hgid⟩
  obtain ⟨⟨g, hg, hrecord⟩, -⟩ := hsound
  obtain ⟨⟨g', hg', hrecord'⟩, -⟩ := h.owner e he gid hgid
  rw [hg, Option.some.injEq] at hg'
  exact hne e he (by rw [← hrecord', ← hg', hrecord])

private theorem checkBaseline_step {app : Application} {pre post : List (Uuid × RecordBaseline)}
    {accounted : Finset Uuid} {e : Uuid × RecordBaseline}
    (hsplit : app.baselines.entries = pre ++ e :: post) (h : app.Accounted pre accounted) :
    ((∃ accounted', app.checkBaseline accounted e = .ok accounted') ↔
      ((∃ r, app.records.get? e.1 = some r ∧ BaselineSound e.2 r)
        ∧ ∀ gid ∈ e.2.prunedGrants, app.PrunedSound e.1 gid) ∧ ∀ b ∈ pre, True)
    ∧ ∀ accounted', app.checkBaseline accounted e = .ok accounted' →
      app.Accounted (pre ++ [e]) accounted' := by
  obtain ⟨id, base⟩ := e
  have hother : ∀ gid ∈ base.prunedGrants, app.PrunedSound id gid → gid ∉ accounted :=
    fun gid _ => h.disjoint (OrdMap.ne_of_split hsplit)
  constructor
  · simp only [checkBaseline_eq_ok, implies_true, and_true, exists_and_left]
    apply and_congr_right
    rintro ⟨r, -, hbase⟩
    exact (checkPruned_fold hbase.sorted hother).1
  · intro accounted' hstep
    obtain ⟨⟨r, -, hbase⟩, hfold⟩ := checkBaseline_eq_ok.mp hstep
    obtain ⟨hall, hmem⟩ := checkPruned_fold hbase.sorted hother
    constructor
    · intro gid
      rw [hmem accounted' hfold gid, h.mem]
      simp only [List.mem_append, List.mem_singleton, or_and_right, exists_or, exists_eq_left]
    · intro e he gid hgid
      rcases List.mem_append.mp he with he | he
      · exact h.owner e he gid hgid
      · rw [List.mem_singleton] at he
        subst he
        exact hall.mp ⟨accounted', hfold⟩ gid hgid

private theorem accounted_nil (app : Application) : app.Accounted [] ∅ :=
  ⟨by simp, by simp⟩

theorem checkBaselines_ok_iff {app : Application} :
    (∃ accounted, app.baselines.entries.foldlM app.checkBaseline ∅ = .ok accounted) ↔
      ∀ id base, app.baselines.get? id = some base →
        (∃ r, app.records.get? id = some r ∧ BaselineSound base r)
          ∧ ∀ gid ∈ base.prunedGrants, app.PrunedSound id gid := by
  rw [foldlM_ok_iff app.Accounted (fun _ _ _ _ hsplit h => (checkBaseline_step hsplit h).1)
    (fun _ _ _ _ s' hsplit h => (checkBaseline_step hsplit h).2 s') app.baselines.entries [] ∅ rfl
    (accounted_nil app)]
  simp [List.pairwise_of_forall, OrdMap.mem_entries]

theorem checkBaselines_accounted {app : Application} {accounted : Finset Uuid}
    (h : app.baselines.entries.foldlM app.checkBaseline ∅ = .ok accounted) :
    app.Accounted app.baselines.entries accounted :=
  foldlM_describes app.Accounted (fun _ _ _ _ s' hsplit h => (checkBaseline_step hsplit h).2 s')
    app.baselines.entries [] ∅ accounted rfl (accounted_nil app) h

/-! The deliveries. -/

def Delivered (P : Platform) (app : Application) (id : Uuid) (d : DeliveryAttempt) : Prop :=
  ∃ t r, app.tasks.get? d.task = some t ∧ app.records.get? d.record = some r
    ∧ DeliverySound P id d t r ∧ app.requests.get? d.key = none

/-- Two deliveries that may stand side by side. -/
def Distinct (a b : Uuid × DeliveryAttempt) : Prop :=
  a.2.key ≠ b.2.key
    ∧ ¬ (registers a.2 = true ∧ registers b.2 = true ∧ a.2.record = b.2.record)

/-- What the walk over the deliveries has seen. -/
structure Seen (pre : List (Uuid × DeliveryAttempt)) (seen : Finset RequestKey × Finset Uuid) :
    Prop where
  keys : ∀ key, key ∈ seen.1 ↔ ∃ e ∈ pre, e.2.key = key
  registered : ∀ id, id ∈ seen.2 ↔ ∃ e ∈ pre, registers e.2 = true ∧ e.2.record = id

private theorem seen_step {P : Platform} {app : Application} {pre : List (Uuid × DeliveryAttempt)}
    {seen : Finset RequestKey × Finset Uuid} {e : Uuid × DeliveryAttempt} (h : Seen pre seen) :
    ((∃ seen', app.checkDelivery P seen e = .ok seen') ↔
      app.Delivered P e.1 e.2 ∧ ∀ b ∈ pre, Distinct b e)
    ∧ ∀ seen', app.checkDelivery P seen e = .ok seen' → Seen (pre ++ [e]) seen' := by
  obtain ⟨id, d⟩ := e
  simp only [checkDelivery_eq_ok]
  constructor
  · constructor
    · rintro ⟨seen', hdelivered, hkey, hregister, -⟩
      refine ⟨hdelivered, fun b hb => ⟨fun heq => ?_, fun ⟨hb', hd, hrecord⟩ => ?_⟩⟩
      · exact hkey ((h.keys _).mpr ⟨b, hb, heq⟩)
      · exact hregister hd ((h.registered _).mpr ⟨b, hb, hb', hrecord⟩)
    · rintro ⟨hdelivered, hall⟩
      refine ⟨_, hdelivered, ?_, ?_, rfl⟩
      · rw [h.keys]
        rintro ⟨b, hb, heq⟩
        exact (hall b hb).1 heq
      · rw [h.registered]
        rintro hd ⟨b, hb, hb', hrecord⟩
        exact (hall b hb).2 ⟨hb', hd, hrecord⟩
  · rintro seen' ⟨-, -, -, rfl⟩
    constructor
    · intro key
      simp only [noteDelivery, Finset.mem_insert, h.keys, List.mem_append, List.mem_singleton,
        or_and_right, exists_or, exists_eq_left]
      rw [or_comm, eq_comm]
    · intro record
      simp only [noteDelivery, List.mem_append, List.mem_singleton, or_and_right, exists_or,
        exists_eq_left]
      split_ifs with hd
      · rw [Finset.mem_insert, h.registered, or_comm]
        exact or_congr_right ⟨fun heq => ⟨hd, heq.symm⟩, fun heq => heq.2.symm⟩
      · simp [h.registered, hd]

theorem checkDeliveries_ok_iff {P : Platform} {app : Application} :
    (∃ seen, app.deliveries.entries.foldlM (app.checkDelivery P) (∅, ∅) = .ok seen) ↔
      (∀ id d, app.deliveries.get? id = some d → app.Delivered P id d)
        ∧ app.deliveries.entries.Pairwise Distinct := by
  have hfold := foldlM_ok_iff Seen (f := app.checkDelivery P) (fun _ _ _ _ _ h => (seen_step h).1)
    (fun _ _ _ _ s' _ h => (seen_step h).2 s') app.deliveries.entries [] (∅, ∅) rfl
    ⟨by simp, by simp⟩
  rw [hfold]
  simp [OrdMap.mem_entries]

end Application

namespace Application

theorem through_eq {app : Application} {id : Uuid} {base : RecordBaseline}
    (h : app.baselines.get? id = some base) : app.through id = base.through := by
  simp [through, h]

theorem through_none {app : Application} {id : Uuid} (h : app.baselines.get? id = none) :
    app.through id = 0 := by
  simp [through, h]

/-- The parts of a record's chain that the checks read, on their own. -/
structure ChainFacts (app : Application) (ledger : Ledger) (id : Uuid) (r : Record) : Prop where
  describes : Ledger.Describes app.requests.entries ledger
  revision_pos : 0 < r.revision
  bounded : ∀ key cached, app.requests.get? key = some cached → cached.result.record = id →
    app.through id < cached.result.revision ∧ cached.result.revision ≤ r.revision
  created_first : ∀ key cached, app.requests.get? key = some cached →
    cached.kind = .create → cached.result.revision = 1
  baseline : ∀ base, app.baselines.get? id = some base → BaselineSound base r

theorem hasReceipt_iff {app : Application} {id : Uuid} {kind : CachedKind} :
    (∃ e ∈ app.requests.entries, e.2.result.record = id ∧ e.2.kind = kind) ↔
      app.hasReceipt kind id := by
  rw [OrdMap.exists_entries]
  rfl

theorem version_any {app : Application} {id : Uuid} {r : Record} (hpos : app.through id ≠ 0) (n : UInt64) :
    ((app.baselines.get? id).any fun base => r.secretVersion == base.secretVersion + n) = true ↔
      r.secretVersion = app.baseVersion id + n := by
  cases hb : app.baselines.get? id with
  | none => exact absurd (through_none hb) hpos
  | some base => simp [baseVersion, hpos, hb]

section Chain

variable {app : Application} {ledger : Ledger} {id : Uuid} {r : Record}
  (h : app.ChainFacts ledger id r)
include h

theorem ChainFacts.through_le : app.through id ≤ r.revision := by
  cases hb : app.baselines.get? id with
  | none =>
    rw [through_none hb]
    exact UInt64.zero_le
  | some base => rw [through_eq hb]; exact (h.baseline base hb).through_le

theorem ChainFacts.deletePruned_of_fresh (hzero : app.through id = 0) :
    app.deletePruned id = false := by
  cases hb : app.baselines.get? id with
  | none => simp [deletePruned, hb]
  | some base =>
    rw [through_eq hb] at hzero
    simp [deletePruned, hb, ((h.baseline base hb).fresh hzero).2.1]

theorem ChainFacts.checkDeleted_ok_iff : app.checkDeleted ledger id r = .ok () ↔
    (r.deleted = true ↔ app.deletePruned id = true ∨ app.hasReceipt .delete id)
      ∧ ¬ (app.deletePruned id = true ∧ app.hasReceipt .delete id) := by
  change (if r.deleted = true then
        if (app.through id == 0) = true then ensure (decide (id ∈ ledger.deletes))
        else ensure (app.deletePruned id ^^ decide (id ∈ ledger.deletes))
      else ensure (!decide (id ∈ ledger.deletes) && !app.deletePruned id)) = .ok () ↔ _
  have hdel : id ∈ ledger.deletes ↔ app.hasReceipt .delete id := by
    rw [h.describes.deletes, hasReceipt_iff]
  have hfresh := h.deletePruned_of_fresh
  by_cases hmem : id ∈ ledger.deletes <;> cases hd : r.deleted <;>
    cases hp : app.deletePruned id <;> by_cases hz : app.through id = 0 <;>
    simp_all

theorem ChainFacts.patchCount_eq :
    ((ledger.patches.get? id).map fun items => UInt64.ofNat items.size).getD 0 =
      UInt64.ofNat (app.patchCount id) := by
  have hcount := h.describes.patchCount id
  cases hp : ledger.patches.get? id with
  | none =>
    rw [hp] at hcount
    simp only [Option.map_none, Option.getD_none, patchCount, OrdMap.count]
    rw [← hcount]
    rfl
  | some items =>
    rw [hp] at hcount
    simp only [Option.map_some, Option.getD_some, patchCount, OrdMap.count]
    rw [← hcount]
    rfl

theorem ChainFacts.mem_keys {versions : OrdMap UInt64 Unit}
    (hversions : ledger.revisions.get? id = some versions) (revision : UInt64) :
    revision ∈ versions.keys ↔ ∃ key cached, app.requests.get? key = some cached
      ∧ cached.result.record = id ∧ cached.result.revision = revision := by
  have hmem := h.describes.revisions id revision
  rw [hversions, Option.getD_some, OrdMap.contains_iff] at hmem
  rw [OrdMap.mem_keys, hmem, OrdMap.exists_entries]

/-- The receipts above the baseline are exactly the revisions of the range. -/
theorem ChainFacts.keys_iff {versions : OrdMap UInt64 Unit}
    (hversions : ledger.revisions.get? id = some versions) (hlt : app.through id < r.revision) :
    versions.keys = Word.rangeInclusive (app.through id + 1) r.revision ↔
      ∀ revision, app.through id < revision → revision ≤ r.revision →
        ∃ key cached, app.requests.get? key = some cached ∧ cached.result.record = id
          ∧ cached.result.revision = revision := by
  have hstart : ∀ n, app.through id + 1 ≤ n ↔ app.through id < n := by
    intro n
    rw [UInt64.le_iff_toNat_le, UInt64.lt_iff_toNat_lt, Word.toNat_succ hlt]
    omega
  constructor
  · intro hkeys revision hlo hhi
    rw [← h.mem_keys hversions, hkeys, Word.mem_rangeInclusive, hstart]
    exact ⟨hlo, hhi⟩
  · intro hcovered
    refine Word.eq_rangeInclusive ?_ ?_
    · rw [OrdMap.keys, List.pairwise_map]
      exact versions.sorted
    · intro n
      rw [h.mem_keys hversions, hstart]
      constructor
      · rintro ⟨key, cached, hget, hrecord, rfl⟩
        exact h.bounded key cached hget hrecord
      · exact fun h => hcovered n h.1 h.2

theorem ChainFacts.creates_iff : id ∈ ledger.creates ↔ app.hasReceipt .create id := by
  rw [h.describes.creates, hasReceipt_iff]

theorem ChainFacts.no_create (hpos : app.through id ≠ 0) : ¬ app.hasReceipt .create id := by
  rintro ⟨key, cached, hget, hrecord, hkind⟩
  have hlo := (h.bounded key cached hget hrecord).1
  rw [h.created_first key cached hget hkind] at hlo
  rw [UInt64.lt_iff_toNat_lt] at hlo
  apply hpos
  apply UInt64.toNat_inj.mp
  simpa using hlo

/-- What the check of the collected revisions says. -/
theorem ChainFacts.covered_iff (hlt : app.through id < r.revision) :
    (∃ versions, ledger.revisions.get? id = some versions
      ∧ (UInt64.ofNat versions.size == r.revision - app.through id
        && versions.keys.head? == some (app.through id + 1)
        && versions.keys.getLast? == some r.revision
        && versions.keys == Word.rangeInclusive (app.through id + 1) r.revision) = true) ↔
    ∀ revision, app.through id < revision → revision ≤ r.revision →
      ∃ key cached, app.requests.get? key = some cached ∧ cached.result.record = id
        ∧ cached.result.revision = revision := by
  have hstart : app.through id + 1 ≤ r.revision := by
    rw [UInt64.le_iff_toNat_le, Word.toNat_succ hlt]
    exact UInt64.lt_iff_toNat_lt.mp hlt
  constructor
  · rintro ⟨versions, hversions, hall⟩
    simp only [Bool.and_eq_true, beq_iff_eq] at hall
    exact (h.keys_iff hversions hlt).mp hall.2
  · intro hcovered
    obtain ⟨versions, hversions⟩ : ∃ versions, ledger.revisions.get? id = some versions := by
      rw [← Option.isSome_iff_exists, h.describes.present, OrdMap.exists_entries]
      obtain ⟨key, cached, hget, hrecord, -⟩ := hcovered r.revision hlt le_rfl
      exact ⟨key, cached, hget, hrecord⟩
    have hkeys := (h.keys_iff hversions hlt).mpr hcovered
    have hsize : UInt64.ofNat versions.size = r.revision - app.through id := by
      have hlen : versions.size = r.revision.toNat - (app.through id).toNat := by
        have hkeylen : versions.keys.length = versions.size := List.length_map _
        rw [← hkeylen, hkeys, Word.length_rangeInclusive, Word.toNat_succ hlt]
        omega
      have hle := UInt64.le_iff_toNat_le.mp hlt.le
      apply UInt64.toNat_inj.mp
      rw [hlen, UInt64.toNat_sub_of_le _ _ hlt.le, UInt64.toNat_ofNat']
      have := r.revision.toNat_lt
      omega
    refine ⟨versions, hversions, ?_⟩
    rw [hkeys, Word.head?_rangeInclusive hstart, Word.getLast?_rangeInclusive hstart, hsize]
    simp

theorem ChainFacts.patchCount_of_full (heq : app.through id = r.revision) : app.patchCount id = 0 := by
  rw [patchCount, OrdMap.count_eq_zero]
  intro key cached hget
  have hother : cached.result.record ≠ id := by
    intro hrecord
    obtain ⟨hlo, hhi⟩ := h.bounded key cached hget hrecord
    rw [heq] at hlo
    exact absurd hhi (not_le.mpr hlo)
  simp [hother]

theorem ChainFacts.checkRevisions_ok_iff : app.checkRevisions ledger id r = .ok () ↔
    (∀ revision, app.through id < revision → revision ≤ r.revision →
      ∃ key cached, app.requests.get? key = some cached ∧ cached.result.record = id
        ∧ cached.result.revision = revision)
      ∧ (app.through id = 0 → app.hasReceipt .create id)
      ∧ r.secretVersion = app.baseVersion id + UInt64.ofNat (app.patchCount id) := by
  simp only [checkRevisions, h.patchCount_eq]
  by_cases heq : app.through id = r.revision
  · have hpos : app.through id ≠ 0 := by
      rw [heq]
      exact (ne_of_lt h.revision_pos).symm
    have hnone : ∀ key cached, app.requests.get? key = some cached →
        cached.result.record ≠ id := by
      intro key cached hget hrecord
      obtain ⟨hlo, hhi⟩ := h.bounded key cached hget hrecord
      rw [heq] at hlo
      exact absurd hhi (not_le.mpr hlo)
    have hversions : ledger.revisions.get? id = none := by
      rw [← Option.not_isSome_iff_eq_none, h.describes.present, OrdMap.exists_entries]
      rintro ⟨key, cached, hget, hrecord⟩
      exact hnone key cached hget hrecord
    have hcount := h.patchCount_of_full heq
    have hcreates : id ∉ ledger.creates := fun hmem => h.no_create hpos (h.creates_iff.mp hmem)
    obtain ⟨base, hb⟩ : ∃ base, app.baselines.get? id = some base :=
      Option.ne_none_iff_exists'.mp fun hb => hpos (through_none hb)
    have hversion : app.baseVersion id = base.secretVersion := by
      simp [baseVersion, hpos, hb]
    rw [if_pos (beq_iff_eq.mpr heq), ensure_eq_ok, hversions, hcount, hversion, hb]
    have hlt : 0 < app.through id := heq ▸ h.revision_pos
    simp only [hlt, hcreates, decide_true, Option.isNone_none, decide_false, Bool.not_false,
      Bool.and_self, Bool.true_and, Option.any_some, beq_iff_eq]
    constructor
    · intro hsame
      refine ⟨fun revision hlo hhi => ?_, fun hzero => absurd hzero hpos, ?_⟩
      · exact absurd hhi (not_le.mpr (heq ▸ hlo))
      · simpa using hsame.symm
    · rintro ⟨-, -, hsame⟩
      simpa using hsame.symm
  · have hlt : app.through id < r.revision := lt_of_le_of_ne h.through_le heq
    have hlast : (if app.through id == 0 then
          ensure (decide (id ∈ ledger.creates)
            && r.secretVersion == 1 + UInt64.ofNat (app.patchCount id))
        else
          ensure (!decide (id ∈ ledger.creates) && (app.baselines.get? id).any fun item =>
            r.secretVersion == item.secretVersion + UInt64.ofNat (app.patchCount id))) = .ok () ↔
        (app.through id = 0 → app.hasReceipt .create id)
          ∧ r.secretVersion = app.baseVersion id + UInt64.ofNat (app.patchCount id) := by
      by_cases hzero : app.through id = 0
      · simp [hzero, baseVersion, h.creates_iff]
      · have hno : id ∉ ledger.creates := fun hmem => h.no_create hzero (h.creates_iff.mp hmem)
        rw [if_neg (by simpa using hzero), ensure_eq_ok]
        simp [hno, hzero, ← version_any hzero]
    rw [if_neg (by simpa using heq)]
    simp only [bind_eq_ok, required_eq_ok, ensure_eq_ok, exists_const, hlast]
    rw [← h.covered_iff hlt]
    constructor
    · rintro ⟨versions, hversions, hall, hrest⟩
      exact ⟨⟨versions, hversions, hall⟩, hrest⟩
    · rintro ⟨⟨versions, hversions, hall⟩, hrest⟩
      exact ⟨versions, hversions, hall, hrest⟩

theorem ChainFacts.checkChain_ok_iff :
    app.checkChain ledger (id, r) = .ok () ↔ app.ChainSound id r ∧ app.VersionSound id r := by
  simp only [checkChain, bind_eq_ok, exists_unit_eq_ok]
  rw [h.checkDeleted_ok_iff, h.checkRevisions_ok_iff]
  constructor
  · rintro ⟨⟨hdel, honce⟩, hcovered, hcreated, hversion⟩
    exact ⟨⟨hcovered, hcreated, hdel, honce⟩, hversion⟩
  · rintro ⟨⟨hcovered, hcreated, hdel, honce⟩, hversion⟩
    exact ⟨⟨hdel, honce⟩, hcovered, hcreated, hversion⟩

end Chain

/-! The whole validation. -/

theorem sizes_iff {app : Application} :
    ([app.tasks.size, app.records.size, app.grants.size, app.requests.size,
      app.revokedTasks.card, app.deliveries.size, app.audit.length, app.baselines.size].all
        fun n => decide (n ≤ limit)) = true ↔ app.SizesSound := by
  simp only [List.all_cons, List.all_nil, Bool.and_true, Bool.and_eq_true, decide_eq_true_eq]
  exact ⟨fun ⟨h1, h2, h3, h4, h5, h6, h7, h8⟩ => ⟨h1, h2, h3, h4, h5, h6, h7, h8⟩,
    fun ⟨h1, h2, h3, h4, h5, h6, h7, h8⟩ => ⟨h1, h2, h3, h4, h5, h6, h7, h8⟩⟩

theorem apart_symm (a b : RequestKey × Remembered) (h : Ledger.Apart a b) : Ledger.Apart b a :=
  ⟨fun ⟨hrecord, hrevision⟩ => h.1 ⟨hrecord.symm, hrevision.symm⟩,
    fun gid ⟨hb, ha, hbg, hag⟩ => h.2 gid ⟨ha, hb, hag, hbg⟩⟩

theorem distinct_symm (a b : Uuid × DeliveryAttempt) (h : Distinct a b) : Distinct b a :=
  ⟨h.1.symm, fun ⟨hb, ha, hrecord⟩ => h.2 ⟨ha, hb, hrecord.symm⟩⟩

/-- Two entries that may not stand side by side are one entry. -/
theorem apart_iff {app : Application} : app.requests.entries.Pairwise Ledger.Apart ↔
    (∀ k c k' c', app.requests.get? k = some c → app.requests.get? k' = some c' →
      c.result.record = c'.result.record → c.result.revision = c'.result.revision → k = k')
    ∧ ∀ k c k' c' gid, app.requests.get? k = some c → app.requests.get? k' = some c' →
      c.kind = .share → c'.kind = .share → c.result.grant = some gid → c'.result.grant = some gid →
        k = k' := by
  rw [OrdMap.pairwise_entries apart_symm]
  constructor
  · intro h
    constructor
    · intro k c k' c' hc hc' hrecord hrevision
      by_contra hne
      exact (h k c k' c' hc hc' hne).1 ⟨hrecord, hrevision⟩
    · intro k c k' c' gid hc hc' hs hs' hg hg'
      by_contra hne
      exact (h k c k' c' hc hc' hne).2 gid ⟨hs, hs', hg, hg'⟩
  · rintro ⟨hreceipt, hshare⟩ k c k' c' hc hc' hne
    exact ⟨fun ⟨hrecord, hrevision⟩ => hne (hreceipt k c k' c' hc hc' hrecord hrevision),
      fun gid ⟨hs, hs', hg, hg'⟩ => hne (hshare k c k' c' gid hc hc' hs hs' hg hg')⟩

theorem distinct_iff {app : Application} : app.deliveries.entries.Pairwise Distinct ↔
    (∀ i d j e, app.deliveries.get? i = some d → app.deliveries.get? j = some e →
      d.key = e.key → i = j)
    ∧ ∀ i d j e, app.deliveries.get? i = some d → app.deliveries.get? j = some e →
      registers d = true → registers e = true → d.record = e.record → i = j := by
  rw [OrdMap.pairwise_entries distinct_symm]
  constructor
  · intro h
    constructor
    · intro i d j e hd he hkey
      by_contra hne
      exact (h i d j e hd he hne).1 hkey
    · intro i d j e hd he hrd hre hrecord
      by_contra hne
      exact (h i d j e hd he hne).2 ⟨hrd, hre, hrecord⟩
  · rintro ⟨hkey, hregister⟩ i d j e hd he hne
    exact ⟨fun heq => hne (hkey i d j e hd he heq),
      fun ⟨hrd, hre, hrecord⟩ => hne (hregister i d j e hd he hrd hre hrecord)⟩

/-- Counting the shared and the pruned grants is the same as finding each grant
among them. -/
theorem counted_iff {app : Application} {ledger : Ledger} {accounted : Finset Uuid}
    (hledger : Ledger.Describes app.requests.entries ledger)
    (haccounted : app.Accounted app.baselines.entries accounted)
    (hentered : ∀ key cached, app.requests.get? key = some cached →
      Ledger.Entered app key cached) :
    (ledger.shares.card + accounted.card == app.grants.size
      && decide (Disjoint ledger.shares accounted)) = true ↔
    ∀ gid g, app.grants.get? gid = some g →
      (∃ key cached, app.requests.get? key = some cached ∧ cached.kind = .share
        ∧ cached.result.grant = some gid)
      ∨ ∃ id base, app.baselines.get? id = some base ∧ gid ∈ base.prunedGrants := by
  have hshares : ∀ gid, gid ∈ ledger.shares ↔ ∃ key cached, app.requests.get? key = some cached
      ∧ cached.kind = .share ∧ cached.result.grant = some gid := by
    intro gid
    rw [hledger.shares, OrdMap.exists_entries]
  have hpruned : ∀ gid, gid ∈ accounted ↔
      ∃ id base, app.baselines.get? id = some base ∧ gid ∈ base.prunedGrants := by
    intro gid
    rw [haccounted.mem, OrdMap.exists_entries]
  have hdisjoint : Disjoint ledger.shares accounted := by
    rw [Finset.disjoint_left]
    intro gid hs hp
    obtain ⟨key, cached, hget, hkind, hgrant⟩ := (hshares gid).mp hs
    obtain ⟨e, he, hgid⟩ := (haccounted.mem gid).mp hp
    exact (haccounted.owner e he gid hgid).2 key cached hget hkind hgrant
  have hsub : ledger.shares ∪ accounted ⊆ app.grants.keySet := by
    intro gid hgid
    rw [OrdMap.mem_keySet]
    rcases Finset.mem_union.mp hgid with hs | hp
    · obtain ⟨key, cached, hget, hkind, hgrant⟩ := (hshares gid).mp hs
      obtain ⟨t, r, -, -, -, hsound⟩ := hentered key cached hget
      rw [KindSound, hkind] at hsound
      obtain ⟨id, g, hid, hg, -⟩ := hsound
      rw [hgrant, Option.some.injEq] at hid
      exact ⟨g, hid ▸ hg⟩
    · obtain ⟨e, he, hgid⟩ := (haccounted.mem gid).mp hp
      obtain ⟨g, hg, -⟩ := (haccounted.owner e he gid hgid).1
      exact ⟨g, hg⟩
  rw [OrdMap.size_eq_card, ← Finset.card_union_of_disjoint hdisjoint]
  simp only [hdisjoint, decide_true, Bool.and_true, beq_iff_eq]
  constructor
  · intro hcard gid g hg
    have hall := Finset.eq_of_subset_of_card_le hsub hcard.ge
    have hmem : gid ∈ ledger.shares ∪ accounted := by
      rw [hall, OrdMap.mem_keySet]
      exact ⟨g, hg⟩
    exact (Finset.mem_union.mp hmem).imp (hshares gid).mp (hpruned gid).mp
  · intro hall
    apply congrArg
    apply Finset.Subset.antisymm hsub
    intro gid hgid
    obtain ⟨g, hg⟩ := OrdMap.mem_keySet.mp hgid
    exact Finset.mem_union.mpr ((hall gid g hg).imp (hshares gid).mpr (hpruned gid).mpr)

theorem chainFacts {app : Application} {ledger : Ledger}
    (hledger : Ledger.Describes app.requests.entries ledger)
    (hrecords : ∀ id r, app.records.get? id = some r →
      ∃ t, app.tasks.get? r.task = some t ∧ RecordSound id r t)
    (hentered : ∀ key cached, app.requests.get? key = some cached →
      Ledger.Entered app key cached)
    (hbaselines : ∀ id base, app.baselines.get? id = some base →
      ∃ r, app.records.get? id = some r ∧ BaselineSound base r)
    {id : Uuid} {r : Record} (hr : app.records.get? id = some r) :
    app.ChainFacts ledger id r := by
  refine ⟨hledger, ?_, ?_, ?_, ?_⟩
  · obtain ⟨t, -, hsound⟩ := hrecords id r hr
    exact hsound.revision_pos
  · rintro key cached hget rfl
    obtain ⟨t, r', -, hr', hsound, -⟩ := hentered key cached hget
    rw [hr, Option.some.injEq] at hr'
    exact ⟨hsound.above, hr' ▸ hsound.below⟩
  · exact fun key cached hget => (hentered key cached hget).first
  · intro base hb
    obtain ⟨r', hr', hsound⟩ := hbaselines id base hb
    rw [hr, Option.some.injEq] at hr'
    exact hr' ▸ hsound

theorem verified_iff {app : Application}
    (hid : ∀ id r, app.records.get? id = some r → id = r.id) :
    (∀ r ∈ app.records.values.filter (·.signup == .verifiedLogin), app.checkVerified r = .ok ()) ↔
      ∀ id r, app.records.get? id = some r → r.signup = .verifiedLogin →
        (∃ base, app.baselines.get? id = some base ∧ base.verifiedLogin = true)
          ∨ ∃ i d, app.deliveries.get? i = some d ∧ evidence r id d = true := by
  simp only [List.mem_filter, OrdMap.mem_values, beq_iff_eq, checkVerified_eq_ok]
  constructor
  · intro h id r hr hsignup
    have := h r ⟨⟨id, hr⟩, hsignup⟩
    rwa [← hid id r hr] at this
  · rintro h r ⟨⟨id, hr⟩, hsignup⟩
    have := h id r hr hsignup
    rwa [hid id r hr] at this

theorem validate_eq_ok {P : Platform} {app : Application} :
    app.validate P = .ok () ↔ app.Valid P := by
  simp only [validate, bind_eq_ok, ensure_eq_ok, exists_const, exists_unit_eq_ok, forM_eq_ok]
  rw [sizes_iff]
  constructor
  · rintro ⟨hhead, hsizes, checker, htasks, hrevoked, hrecords, hgrants, ledger, hcollect,
      accounted, hbaselines, hchain, hcount, seen, hdeliveries, hverified, haudit⟩
    simp only [Bool.and_eq_true, decide_eq_true_eq, Bool.or_eq_true, Bool.not_eq_true'] at hhead
    simp only [decide_eq_true_eq, OrdMap.contains_iff] at hrevoked
    obtain ⟨hsound, howner⟩ := (checkTasks_ok_iff hsizes.tasks).mp ⟨checker, htasks⟩
    have hrecords := OrdMap.forall_entries.mp hrecords
    simp only [checkRecord_eq_ok] at hrecords
    have hid : ∀ id r, app.records.get? id = some r → id = r.id := by
      intro id r hr
      obtain ⟨t, -, h⟩ := hrecords id r hr
      exact h.id_eq
    have hgrants := OrdMap.forall_entries.mp hgrants
    simp only [checkGrant_eq_ok] at hgrants
    obtain ⟨hentered, hapart⟩ := (Ledger.collect_ok_iff hid).mp ⟨ledger, hcollect⟩
    have hledger := Ledger.collect_describes hid hcollect
    obtain ⟨hreceipt, hshare⟩ := apart_iff.mp hapart
    have hbase := checkBaselines_ok_iff.mp ⟨accounted, hbaselines⟩
    have haccounted := checkBaselines_accounted hbaselines
    have hchain : ∀ id r, app.records.get? id = some r →
        app.ChainSound id r ∧ app.VersionSound id r := fun id r hr =>
      (chainFacts hledger hrecords hentered (fun id base hb => (hbase id base hb).1)
        hr).checkChain_ok_iff.mp (OrdMap.forall_entries.mp hchain id r hr)
    obtain ⟨hdelivered, hdistinct⟩ := checkDeliveries_ok_iff.mp ⟨seen, hdeliveries⟩
    obtain ⟨hkey, hregister⟩ := distinct_iff.mp hdistinct
    exact {
      generation := hhead.1
      clock := fun hf => hhead.2.resolve_left (by simp [hf])
      tasks := hsound
      one_owner := howner
      revoked := hrevoked
      records := hrecords
      grants := hgrants
      receipts := hentered
      one_receipt := hreceipt
      one_share := hshare
      baselines := fun id base hb => (hbase id base hb).1
      pruned := fun id base gid hb => (hbase id base hb).2 gid
      chain := fun id r hr => (hchain id r hr).1
      versions := fun id r hr => (hchain id r hr).2
      accounted := (counted_iff hledger haccounted hentered).mp hcount
      deliveries := fun id d hd => by
        obtain ⟨t, r, ht, hr, h, -⟩ := hdelivered id d hd
        exact ⟨t, r, ht, hr, h⟩
      no_receipt := fun id d hd => by
        obtain ⟨t, r, -, -, -, h⟩ := hdelivered id d hd
        exact h
      one_delivery := hkey
      one_register := hregister
      verified := (verified_iff hid).mp hverified
      sizes := hsizes
      audit := fun event he => checkAudit_eq_ok.mp (haudit event he) }
  · intro h
    have hid : ∀ id r, app.records.get? id = some r → id = r.id := by
      intro id r hr
      obtain ⟨t, -, hsound⟩ := h.records id r hr
      exact hsound.id_eq
    obtain ⟨checker, htasks⟩ := (checkTasks_ok_iff h.sizes.tasks).mpr ⟨h.tasks, h.one_owner⟩
    obtain ⟨ledger, hcollect⟩ := (Ledger.collect_ok_iff hid).mpr
      ⟨h.receipts, apart_iff.mpr ⟨h.one_receipt, h.one_share⟩⟩
    have hledger := Ledger.collect_describes hid hcollect
    obtain ⟨accounted, hbaselines⟩ := checkBaselines_ok_iff.mpr
      fun id base hb => ⟨h.baselines id base hb, fun gid hgid => h.pruned id base gid hb hgid⟩
    have haccounted := checkBaselines_accounted hbaselines
    obtain ⟨seen, hdeliveries⟩ := checkDeliveries_ok_iff.mpr ⟨fun id d hd => by
      obtain ⟨t, r, ht, hr, hsound⟩ := h.deliveries id d hd
      exact ⟨t, r, ht, hr, hsound, h.no_receipt id d hd⟩,
      distinct_iff.mpr ⟨h.one_delivery, h.one_register⟩⟩
    refine ⟨?_, h.sizes, checker, htasks, ?_, ?_, ?_, ledger, hcollect, accounted, hbaselines, ?_,
      (counted_iff hledger haccounted h.receipts).mpr h.accounted, seen, hdeliveries,
      (verified_iff hid).mpr h.verified, fun event he => checkAudit_eq_ok.mpr (h.audit event he)⟩
    · have hclock := h.clock
      simp only [Bool.and_eq_true, decide_eq_true_eq, Bool.or_eq_true, Bool.not_eq_true']
      exact ⟨h.generation, by cases hf : app.clockFrozen <;> simp_all⟩
    · simpa only [decide_eq_true_eq, OrdMap.contains_iff] using h.revoked
    · exact OrdMap.forall_entries.mpr fun id r hr => checkRecord_eq_ok.mpr (h.records id r hr)
    · exact OrdMap.forall_entries.mpr fun id g hg => checkGrant_eq_ok.mpr (h.grants id g hg)
    · exact OrdMap.forall_entries.mpr fun id r hr => (chainFacts hledger h.records h.receipts
        h.baselines hr).checkChain_ok_iff.mpr ⟨h.chain id r hr, h.versions id r hr⟩

/-! Validation has one error. -/

theorem failsWith_required {α : Type} (value : Option α) : FailsWith .invalidStorage (required value) := by
  cases value with
  | none => exact fun _ h => (Except.error.inj h).symm
  | some a => nofun

theorem failsWith_ensure (c : Bool) : FailsWith .invalidStorage (ensure c) := by
  cases c with
  | false => exact fun _ h => (Except.error.inj h).symm
  | true => nofun

theorem failsWith_checkTask (checker : Application) (entry : Uuid × TaskApproval) :
    FailsWith .invalidStorage (checkTask checker entry) := by
  apply (failsWith_ensure _).bind
  intro _ e he
  dsimp only at he
  split at he
  · cases he
  · exact (Except.error.inj he).symm

theorem failsWith_checkRecord (app : Application) (entry : Uuid × Record) :
    FailsWith .invalidStorage (app.checkRecord entry) :=
  (failsWith_required _).bind fun _ => (failsWith_ensure _).bind fun _ =>
    .ite (failsWith_ensure _) ((failsWith_ensure _).bind fun _ => failsWith_ensure _)

theorem failsWith_checkGrant (app : Application) (entry : Uuid × Grant) :
    FailsWith .invalidStorage (app.checkGrant entry) :=
  (failsWith_required _).bind fun _ => (failsWith_required _).bind fun _ => (failsWith_ensure _).bind
    fun _ => .ite ((failsWith_required _).bind fun _ => failsWith_ensure _) (failsWith_pure _)

theorem failsWith_enterKind (app : Application) (ledger : Ledger) (key : RequestKey) (cached : Remembered)
    (r : Record) : FailsWith .invalidStorage (ledger.enterKind app key cached r) := by
  unfold Ledger.enterKind
  cases cached.kind with
  | create | delete | patch => exact (failsWith_ensure _).bind fun _ => failsWith_pure _
  | share | revoke =>
    exact (failsWith_required _).bind fun _ => (failsWith_required _).bind fun _ =>
      (failsWith_ensure _).bind fun _ => (failsWith_ensure _).bind fun _ => failsWith_pure _
  | metadataPatch | reportOutcome => exact (failsWith_ensure _).bind fun _ => failsWith_pure _

theorem failsWith_collect (app : Application) : FailsWith .invalidStorage (Ledger.collect app) :=
  failsWith_foldlM (fun _ _ => (failsWith_required _).bind fun _ => (failsWith_required _).bind fun _ =>
    (failsWith_ensure _).bind fun _ => (failsWith_ensure _).bind fun _ =>
    failsWith_enterKind _ _ _ _ _) _ _

theorem failsWith_checkBaseline (app : Application) (accounted : Finset Uuid) (entry : Uuid × RecordBaseline) :
    FailsWith .invalidStorage (app.checkBaseline accounted entry) := by
  have hpruned : FailsWith .invalidStorage
      (entry.2.prunedGrants.foldlM (app.checkPruned entry.1) accounted) :=
    failsWith_foldlM (fun _ _ => (failsWith_required _).bind fun _ => (failsWith_ensure _).bind fun _ =>
      (failsWith_ensure _).bind fun _ => failsWith_pure _) _ _
  exact (failsWith_required _).bind fun _ => (failsWith_ensure _).bind fun _ =>
    (failsWith_ensure _).bind fun _ => (failsWith_ensure _).bind fun _ => (failsWith_ensure _).bind fun _ =>
      .ite ((failsWith_ensure _).bind fun _ => hpruned) hpruned

theorem failsWith_checkChain (app : Application) (ledger : Ledger) (entry : Uuid × Record) :
    FailsWith .invalidStorage (app.checkChain ledger entry) := by
  refine FailsWith.bind ?_ fun _ => ?_
  · unfold checkDeleted
    split_ifs <;> exact failsWith_ensure _
  · unfold checkRevisions
    refine .ite (failsWith_ensure _) ((failsWith_required _).bind fun _ => (failsWith_ensure _).bind fun _ =>
      .ite (failsWith_ensure _) (failsWith_ensure _))

theorem failsWith_checkDelivery (app : Application) (seen : Finset RequestKey × Finset Uuid)
    (entry : Uuid × DeliveryAttempt) : FailsWith .invalidStorage (app.checkDelivery P seen entry) := by
  have hrest : FailsWith (α := Finset RequestKey × Finset Uuid) .invalidStorage
      (if entry.2.action == .register && entry.2.dispatched then do
        ensure (!decide (entry.2.record ∈ seen.2))
        pure (insert entry.2.key seen.1, insert entry.2.record seen.2)
      else pure (insert entry.2.key seen.1, seen.2)) :=
    .ite ((failsWith_ensure _).bind fun _ => failsWith_pure _) (failsWith_pure _)
  exact (failsWith_required _).bind fun _ => (failsWith_required _).bind fun _ =>
    (failsWith_ensure _).bind fun _ => (failsWith_ensure _).bind fun _ =>
      .ite ((failsWith_ensure _).bind fun _ => hrest) hrest

theorem failsWith_receipt (app : Application) (t : TaskApproval) (event : AuditEvent) :
    FailsWith (α := Unit) .invalidStorage (match event.request with
      | none => pure ()
      | some request =>
        ensure ((app.requests.get? { owner := t.owner, principal := t.principal, task := t.id
                                     id := request }).any fun entry => entry.result.record == event.record)) := by
  cases event.request with
  | none => exact failsWith_pure _
  | some request => exact failsWith_ensure _

theorem failsWith_checkAudit (app : Application) (event : AuditEvent) :
    FailsWith .invalidStorage (app.checkAudit event) :=
  (failsWith_required _).bind fun t => (failsWith_required _).bind fun _ => (failsWith_ensure _).bind
    fun _ => .ite ((failsWith_ensure _).bind fun _ => (failsWith_ensure _).bind fun _ =>
      failsWith_receipt app t event) (failsWith_receipt app t event)

/-- Whatever is wrong with an application, validation has one error for it. -/
theorem failsWith_validate (app : Application) : FailsWith .invalidStorage (app.validate P) :=
  (failsWith_ensure _).bind fun _ => (failsWith_ensure _).bind fun _ =>
    (failsWith_foldlM failsWith_checkTask _ _).bind fun _ => (failsWith_ensure _).bind fun _ =>
    (failsWith_forM app.failsWith_checkRecord _).bind fun _ =>
    (failsWith_forM app.failsWith_checkGrant _).bind fun _ => app.failsWith_collect.bind fun _ =>
    (failsWith_foldlM app.failsWith_checkBaseline _ _).bind fun _ =>
    (failsWith_forM (app.failsWith_checkChain _) _).bind fun _ => (failsWith_ensure _).bind fun _ =>
    (failsWith_foldlM app.failsWith_checkDelivery _ _).bind fun _ =>
    (failsWith_forM (fun _ => failsWith_ensure _) _).bind fun _ =>
    failsWith_forM app.failsWith_checkAudit _

end Application

end Credman
