import Credman.Lasting
import Credman.Backup

/-! What recovery and restoration do to an application: all authority is revoked,
every open delivery is settled as unknown, and the rest stays. -/
namespace Credman

open Library Library.Checked

namespace Application

variable {P : Platform} {app next : Application}

/-- A delivery once nothing is open any more. -/
def closed (d : DeliveryAttempt) : DeliveryAttempt :=
  if d.status.isSome then d else { d with status := some .unknown }

/-- The open registration or login whose outcome this record waits for. -/
def awaits (i : Uuid) (d : DeliveryAttempt) : Bool :=
  d.status.isNone && d.action != .use && d.record == i

/-- A record whose delivery is settled no longer has a known signup. -/
def unsettled (open' : Bool) (r : Record) : Record := if open' then { r with signup := .unknown } else r

/-- The settling of the deliveries in a list. -/
theorem settle_foldlM {e : Error} {l : List (Uuid × DeliveryAttempt)} (hnodup : (l.map Prod.fst).Nodup)
    (hmem : ∀ entry ∈ l, app.deliveries.get? entry.1 = some entry.2)
    (h : l.foldlM (settle e) app = .ok next) :
    next = { app with deliveries := next.deliveries, records := next.records }
    ∧ (∀ i, next.deliveries.get? i = (app.deliveries.get? i).map fun d =>
        if i ∈ l.map Prod.fst then closed d else d)
    ∧ ∀ i, next.records.get? i = (app.records.get? i).map
        (unsettled (l.any fun entry => awaits i entry.2)) := by
  induction l generalizing app with
  | nil =>
    cases h
    refine ⟨rfl, fun i => ?_, fun i => ?_⟩
    · simp
    · cases next.records.get? i <;> rfl
  | cons entry rest ih =>
    obtain ⟨id, d⟩ := entry
    rw [List.foldlM_cons, bind_eq_ok] at h
    obtain ⟨mid, hmid, hrest⟩ := h
    rw [List.map_cons, List.nodup_cons] at hnodup
    have hd : app.deliveries.get? id = some d := hmem (id, d) List.mem_cons_self
    -- the entry is closed, and its record's signup is unknown where it waits
    have hstep : mid = { app with deliveries := mid.deliveries, records := mid.records }
        ∧ mid.deliveries = app.deliveries.insert id (closed d)
        ∧ ∀ i, mid.records.get? i = (app.records.get? i).map (unsettled (awaits i d)) := by
      have hnone : ∀ i, awaits i d = false → app.records.get? i
          = (app.records.get? i).map (unsettled (awaits i d)) := by
        intro i hi
        rw [hi]
        cases app.records.get? i <;> rfl
      have hself : app.deliveries.insert id d = app.deliveries := by
        apply OrdMap.ext
        intro j
        rw [OrdMap.get?_insert]
        split_ifs with heq
        · exact heq ▸ hd.symm
        · rfl
      unfold settle at hmid
      dsimp only at hmid
      by_cases hsome : d.status.isSome = true
      · rw [if_pos hsome, Except.ok.injEq] at hmid
        subst hmid
        refine ⟨rfl, ?_, fun i => hnone i ?_⟩
        · rw [closed, if_pos hsome, hself]
        · simp [awaits, Option.isSome_iff_ne_none.mp hsome]
      · have hstatus : d.status = none := by simpa using hsome
        rw [if_neg hsome] at hmid
        by_cases huse : d.action = .use
        · rw [if_pos huse, Except.ok.injEq] at hmid
          subst hmid
          refine ⟨rfl, ?_, fun i => hnone i ?_⟩
          · rw [closed, if_neg hsome]
          · simp [awaits, huse]
        · rw [if_neg huse] at hmid
          cases hr : app.records.get? d.record with
          | none => simp [hr] at hmid
          | some r =>
            simp only [hr, Except.ok.injEq] at hmid
            subst hmid
            refine ⟨rfl, ?_, fun i => ?_⟩
            · rw [closed, if_neg hsome]
            · rw [OrdMap.get?_insert]
              split_ifs with heq
              · subst heq
                simp [hr, awaits, unsettled, hstatus, huse]
              · apply hnone
                simp [awaits, heq]
    obtain ⟨hframe, hdeliveries, hrecords⟩ := hstep
    have hlater : ∀ entry ∈ rest, mid.deliveries.get? entry.1 = some entry.2 := by
      intro entry hentry
      have hne : id ≠ entry.1 := by
        intro heq
        have hin : entry.1 ∈ rest.map Prod.fst := List.mem_map_of_mem hentry
        exact hnodup.1 (heq ▸ hin)
      rw [hdeliveries, OrdMap.get?_insert_ne _ _ hne]
      exact hmem entry (List.mem_cons_of_mem _ hentry)
    obtain ⟨hframe', hdeliveries', hrecords'⟩ := ih hnodup.2 hlater hrest
    refine ⟨?_, fun i => ?_, fun i => ?_⟩
    · rw [hframe', hframe]
    · rw [hdeliveries' i, hdeliveries, OrdMap.get?_insert]
      by_cases heq : id = i
      · subst heq
        simp [hd, hnodup.1]
      · have hne : i ≠ id := Ne.symm heq
        rw [if_neg heq]
        simp only [List.map_cons, List.mem_cons, hne, false_or]
    · rw [hrecords' i, hrecords i, Option.map_map]
      congr 1
      funext r
      cases hawaits : awaits i d <;> cases hany : rest.any fun entry => awaits i entry.2 <;>
        simp [unsettled, hawaits, hany]

/-- The same application with all authority gone and nothing open; `copy` marks its records. -/
structure Closed (copy : Bool) (app next : Application) : Prop where
  tasks : next.tasks = app.tasks
  revoked : next.revokedTasks = app.revokedTasks ∪ app.tasks.keySet
  records : ∀ i, next.records.get? i = (app.records.get? i).map fun r =>
    { unsettled (app.deliveries.any fun _ d => awaits i d) r with restored := r.restored || copy }
  grants : ∀ i, next.grants.get? i = (app.grants.get? i).map fun g => { g with revoked := true }
  deliveries : ∀ i, next.deliveries.get? i = (app.deliveries.get? i).map closed
  requests : next.requests = app.requests
  baselines : next.baselines = app.baselines
  audit : next.audit = app.audit
  predecessor : next.predecessor = none
  generation : nextGeneration app.generation = some next.generation

namespace Closed

variable {copy : Bool} {n : Nat}

theorem record {i : Uuid} {r' : Record} (h : Closed copy app next) (hr : next.records.get? i = some r') :
    ∃ r, app.records.get? i = some r ∧ r' = { r with
      signup := r'.signup, restored := r.restored || copy } := by
  rw [h.records i, Option.map_eq_some_iff] at hr
  obtain ⟨r, hr, rfl⟩ := hr
  refine ⟨r, hr, ?_⟩
  unfold unsettled
  split_ifs <;> rfl

theorem delivery {i : Uuid} {d' : DeliveryAttempt} (h : Closed copy app next)
    (hd : next.deliveries.get? i = some d') : ∃ d, app.deliveries.get? i = some d ∧ d' = closed d := by
  rw [h.deliveries i, Option.map_eq_some_iff] at hd
  obtain ⟨d, hd, rfl⟩ := hd
  exact ⟨d, hd, rfl⟩

theorem grant {i : Uuid} {g' : Grant} (h : Closed copy app next) (hg : next.grants.get? i = some g') :
    ∃ g, app.grants.get? i = some g ∧ g' = { g with revoked := true } := by
  rw [h.grants i, Option.map_eq_some_iff] at hg
  obtain ⟨g, hg, rfl⟩ := hg
  exact ⟨g, hg, rfl⟩

/-- What lasts over operations lasts over recoveries and copies too. -/
theorem lasting (h : Closed copy app next) (hlasting : Lasting P n app) : Lasting P n next where
  once := by
    unfold OneDelete
    rw [h.requests]
    exact hlasting.once
  rise i r' hr' := by
    obtain ⟨r, hr, heq⟩ := h.record hr'
    have hversion : r'.secretVersion = r.secretVersion := by rw [heq]
    rw [hversion]
    unfold baseline
    rw [h.baselines]
    exact hlasting.rise i r hr
  dated := by
    refine ⟨fun key c hc => hlasting.dated.requests key c (h.requests ▸ hc), fun i d' hd' => ?_⟩
    obtain ⟨d, hd, rfl⟩ := h.delivery hd'
    have hstored := hlasting.dated.deliveries i d hd
    unfold closed
    split_ifs
    · exact hstored
    · exact hstored
  named i hi := by
    apply hlasting.named i
    rcases hi with ⟨r', hr'⟩ | ⟨g', hg'⟩ | ⟨d', hd'⟩
    · obtain ⟨r, hr, -⟩ := h.record hr'
      exact .inl ⟨r, hr⟩
    · obtain ⟨g, hg, -⟩ := h.grant hg'
      exact .inr (.inl ⟨g, hg⟩)
    · obtain ⟨d, hd, -⟩ := h.delivery hd'
      exact .inr (.inr ⟨d, hd⟩)

end Closed

/-- The application whose deliveries both of them settle. -/
def stripped (copy : Bool) (generation : UInt64) (app : Application) : Application :=
  { ({ app with generation } : Application).revokeAll with
    records := app.records.mapVals fun _ r => { r with restored := r.restored || copy } }

theorem stripped_original (generation : UInt64) (app : Application) :
    stripped false generation app = ({ app with generation } : Application).revokeAll := by
  have hsame : app.records.mapVals (fun _ r => { r with restored := r.restored || false })
      = app.records := by
    apply OrdMap.ext
    intro i
    rw [OrdMap.get?_mapVals]
    cases app.records.get? i <;> simp
  rw [stripped, hsame]
  rfl

theorem stripped_copy (generation : UInt64) (app : Application) :
    stripped true generation app = { ({ app with generation } : Application).revokeAll with
      records := ({ app with generation } : Application).revokeAll.records.mapVals fun _ r =>
        { r with restored := true } } := by
  have hsame : ∀ r : Record, { r with restored := r.restored || true } = { r with restored := true } := by
    simp
  simp only [stripped, hsame]
  rfl

theorem closed_of_foldlM {copy : Bool} {e : Error} {generation : UInt64}
    (hgeneration : nextGeneration app.generation = some generation)
    (h : (stripped copy generation app).deliveries.entries.foldlM (settle e)
      (stripped copy generation app) = .ok next) (clockFrozen : Bool) (lastTime : Option Time) :
    Closed copy app { next with clockFrozen, lastTime, predecessor := none }
    ∧ next.clockFrozen = app.clockFrozen ∧ next.lastTime = app.lastTime := by
  have hmem : ∀ entry ∈ (stripped copy generation app).deliveries.entries,
      (stripped copy generation app).deliveries.get? entry.1 = some entry.2 :=
    fun entry hentry => OrdMap.mem_entries.mp hentry
  obtain ⟨hframe, hdeliveries, hrecords⟩ :=
    settle_foldlM (stripped copy generation app).deliveries.nodup_keys hmem h
  refine ⟨⟨?_, ?_, fun i => ?_, fun i => ?_, fun i => ?_, ?_, ?_, ?_, rfl, ?_⟩, ?_, ?_⟩
  · rw [hframe]
    rfl
  · rw [hframe]
    rfl
  · rw [hrecords i]
    change ((app.records.mapVals _).get? i).map _ = _
    rw [OrdMap.get?_mapVals, Option.map_map]
    congr 1
    funext r
    change unsettled (app.deliveries.any fun _ d => awaits i d) _ = _
    cases app.deliveries.any fun _ d => awaits i d <;> rfl
  · rw [hframe]
    exact OrdMap.get?_mapVals ..
  · rw [hdeliveries i]
    change (app.deliveries.get? i).map _ = _
    cases hi : app.deliveries.get? i with
    | none => rfl
    | some d =>
      have hin : i ∈ app.deliveries.entries.map Prod.fst := OrdMap.mem_keys.mpr ⟨d, hi⟩
      rw [Option.map_some]
      change some (if i ∈ app.deliveries.entries.map Prod.fst then closed d else d) = _
      rw [if_pos hin, Option.map_some]
  · rw [hframe]
    rfl
  · rw [hframe]
    rfl
  · rw [hframe]
    rfl
  · rw [hgeneration, hframe]
    rfl
  · rw [hframe]
    rfl
  · rw [hframe]
    rfl

/-- What recovery publishes. -/
theorem sanitize_eq_ok {now : Time} (h : app.sanitize P now = .ok next) : Closed false app next
    ∧ next.clockFrozen = false ∧ next.lastTime = some now ∧ next.Valid P := by
  simp only [sanitize, bind_eq_ok, orElse_eq_ok] at h
  obtain ⟨generation, hgeneration, settled, hsettled, h⟩ := h
  rw [← stripped_original] at hsettled
  cases hvalid : ({ settled with
      clockFrozen := false, lastTime := some now, predecessor := none } : Application).validate P with
  | error e => simp [hvalid] at h
  | ok _ =>
    simp only [hvalid, pure_eq_ok] at h
    subst h
    exact ⟨(closed_of_foldlM hgeneration hsettled false (some now)).1, rfl, rfl,
      validate_eq_ok.mp hvalid⟩

/-- The clock of a copy is never before that of what it copies. -/
theorem latest_eq (last : Option Time) (now : Time) :
    (match last with | some previous => max previous now | none => now) = last.elim now (max · now) := by
  cases last <;> rfl

/-- What a restored copy starts from. -/
theorem prepareRestored_eq_ok {admin : AuthenticatedContext} {now : Time}
    (h : app.prepareRestored P admin now = .ok next) : adminScope app admin = .ok ()
    ∧ Closed true app next ∧ next.clockFrozen = app.clockFrozen
    ∧ next.lastTime = some (match app.lastTime with | some previous => max previous now | none => now)
    ∧ next.Valid P := by
  simp only [prepareRestored, bind_eq_ok, orElse_eq_ok, pure_eq_ok] at h
  obtain ⟨_, hscope, generation, hgeneration, settled, hsettled, _, hvalid, rfl⟩ := h
  rw [← stripped_copy] at hsettled
  obtain ⟨hclosed, hfrozen, hlast⟩ := closed_of_foldlM hgeneration hsettled settled.clockFrozen
    (some (match app.lastTime with | some previous => max previous now | none => now))
  rw [hlast] at hvalid ⊢
  exact ⟨hscope, hclosed, hfrozen, rfl, validate_eq_ok.mp hvalid⟩

end Application

end Credman
