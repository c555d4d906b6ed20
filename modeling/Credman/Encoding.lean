import Credman.Access

/-! The snapshot codec: what `decode` accepts, and that it undoes `encode`. -/
namespace Credman

open Library Library.Checked

variable {P : Platform}

/-! Documents. -/

theorem SecretInput.visitMap_eq_some {entries : List (Field × String)} {values : SecretInput} :
    visitMap entries = some values ↔
      (entries.map Prod.fst).Nodup ∧ values = OrdMap.ofList entries := by
  unfold visitMap
  rw [OrdMap.foldlM_insertNew]
  constructor
  · rintro ⟨hnodup, -, rfl⟩
    exact ⟨hnodup, rfl⟩
  · rintro ⟨hnodup, rfl⟩
    exact ⟨hnodup, fun key _ => OrdMap.get?_empty key, rfl⟩

@[simp] theorem Record.record_document (r : Record) : r.document.record = some r := by
  have hvalues : SecretInput.visitMap r.values.entries = some r.values :=
    SecretInput.visitMap_eq_some.mpr ⟨r.values.nodup_keys, (OrdMap.ofList_entries _).symm⟩
  unfold RecordDocument.record
  change (SecretInput.visitMap r.values.entries).bind _ = _
  rw [hvalues]
  rfl

theorem SnapshotOf.snapshot_document (s : Snapshot) : s.document.snapshot = some s := by
  have hrecords : (s.records.map Record.document).mapM RecordDocument.record = some s.records := by
    generalize s.records = l
    induction l with
    | nil => rfl
    | cons r l ih =>
      rw [List.map_cons, List.mapM_cons, ih, Record.record_document]
      rfl
  unfold snapshot
  change ((s.records.map Record.document).mapM RecordDocument.record).bind _ = _
  rw [hrecords]
  rfl

theorem Platform.Json.parse_json (h : P.Json) (s : Snapshot) :
    P.parseSnapshot (P.snapshotJson s) = some s := by
  unfold parseSnapshot snapshotJson
  rw [h.parse_document]
  exact SnapshotOf.snapshot_document s

theorem Platform.Json.json_injective (h : P.Json) : Function.Injective P.snapshotJson := by
  intro a b heq
  have ha := h.parse_json a
  rw [heq, h.parse_json b] at ha
  exact (Option.some.inj ha).symm

theorem RecordDocument.fields_nodup {d : RecordDocument} {r : Record} (h : d.record = some r) :
    (d.values.map Prod.fst).Nodup := by
  unfold record at h
  obtain ⟨values, hvalues, -⟩ := Option.bind_eq_some_iff.mp h
  exact (SecretInput.visitMap_eq_some.mp hvalues).1

theorem RecordDocument.id_record {d : RecordDocument} {r : Record} (h : d.record = some r) :
    r.id = d.id := by
  unfold record at h
  obtain ⟨values, -, hr⟩ := Option.bind_eq_some_iff.mp h
  cases hr
  rfl

/-- A document that reads as a snapshot repeats no credential field. -/
theorem SnapshotOf.fields_nodup {d : SnapshotDocument} {s : Snapshot} (h : d.snapshot = some s) :
    ∀ r ∈ d.records, (r.values.map Prod.fst).Nodup := by
  have hall : ∀ (l : List RecordDocument) records, l.mapM RecordDocument.record = some records →
      ∀ r ∈ l, (r.values.map Prod.fst).Nodup := by
    intro l
    induction l with
    | nil => nofun
    | cons r rest ih =>
      intro records hrecords
      rw [List.mapM_cons] at hrecords
      obtain ⟨head, hhead, hrest⟩ := Option.bind_eq_some_iff.mp hrecords
      obtain ⟨tail, htail, -⟩ := Option.bind_eq_some_iff.mp hrest
      exact List.forall_mem_cons.mpr ⟨RecordDocument.fields_nodup hhead, ih tail htail⟩
  unfold snapshot at h
  obtain ⟨records, hrecords, -⟩ := Option.bind_eq_some_iff.mp h
  exact hall d.records records hrecords

theorem SnapshotOf.records_id {d : SnapshotDocument} {s : Snapshot} (h : d.snapshot = some s) :
    s.records.map Record.id = d.records.map RecordDocument.id ∧ s = { d with records := s.records } := by
  have hall : ∀ (l : List RecordDocument) records, l.mapM RecordDocument.record = some records →
      records.map Record.id = l.map RecordDocument.id := by
    intro l
    induction l with
    | nil =>
      intro records hrecords
      cases hrecords
      rfl
    | cons r rest ih =>
      intro records hrecords
      rw [List.mapM_cons] at hrecords
      obtain ⟨head, hhead, hrest⟩ := Option.bind_eq_some_iff.mp hrecords
      obtain ⟨tail, htail, hcons⟩ := Option.bind_eq_some_iff.mp hrest
      cases hcons
      rw [List.map_cons, List.map_cons, ih tail htail, RecordDocument.id_record hhead]
  unfold snapshot at h
  obtain ⟨records, hrecords, hs⟩ := Option.bind_eq_some_iff.mp h
  cases hs
  exact ⟨hall d.records records hrecords, rfl⟩

namespace Application

theorem foldlM_insertNew_eq_ok {K V : Type} [LinearOrder K] {l : List (K × V)} {m n : OrdMap K V} :
    l.foldlM insertNew m = .ok n ↔ (l.map Prod.fst).Nodup
      ∧ (∀ key ∈ l.map Prod.fst, m.get? key = none)
      ∧ n = l.foldl (fun acc e => acc.insert e.1 e.2) m := by
  rw [← OrdMap.foldlM_insertNew]
  induction l generalizing m with
  | nil =>
    rw [List.foldlM_nil, List.foldlM_nil, pure_eq_ok]
    exact Option.some_inj.symm
  | cons e rest ih =>
    rw [List.foldlM_cons, List.foldlM_cons, insertNew]
    split_ifs
    · exact ⟨nofun, nofun⟩
    · exact ih

theorem foldlM_insertNewId_eq_ok {l : List Uuid} {ids result : Finset Uuid} :
    l.foldlM insertNewId ids = .ok result ↔
      l.Nodup ∧ (∀ id ∈ l, id ∉ ids) ∧ result = ids ∪ l.toFinset := by
  induction l generalizing ids with
  | nil =>
    rw [List.foldlM_nil, pure_eq_ok, List.toFinset_nil, Finset.union_empty]
    exact ⟨fun h => ⟨.nil, nofun, h.symm⟩, fun h => h.2.2.symm⟩
  | cons id rest ih =>
    rw [List.foldlM_cons, insertNewId]
    split_ifs with hmem
    · exact ⟨nofun, fun h => absurd hmem (h.2.1 id (List.mem_cons_self ..))⟩
    · change rest.foldlM insertNewId (insert id ids) = .ok result ↔ _
      rw [ih, List.nodup_cons, List.toFinset_cons, Finset.insert_union, Finset.union_insert]
      constructor
      · rintro ⟨hnodup, hfresh, rfl⟩
        refine ⟨⟨fun hin => hfresh id hin (Finset.mem_insert_self ..), hnodup⟩, ?_, rfl⟩
        rintro other hother
        rcases List.mem_cons.mp hother with rfl | hother
        · exact hmem
        · exact fun hin => hfresh other hother (Finset.mem_insert_of_mem hin)
      · rintro ⟨⟨hhead, hnodup⟩, hfresh, rfl⟩
        refine ⟨hnodup, fun other hother hin => ?_, rfl⟩
        rcases Finset.mem_insert.mp hin with rfl | hin
        · exact hhead hother
        · exact hfresh other (List.mem_cons_of_mem _ hother) hin

/-- No key of a snapshot is listed twice. -/
structure Unrepeated {R : Type} (recordId : R → Uuid) (s : SnapshotOf R) : Prop where
  tasks : (s.tasks.map (·.id)).Nodup
  records : (s.records.map recordId).Nodup
  grants : (s.grants.map Prod.fst).Nodup
  requests : (s.requests.map Prod.fst).Nodup
  revokedTasks : s.revokedTasks.Nodup
  deliveries : (s.deliveries.map Prod.fst).Nodup
  baselines : (s.baselines.map Prod.fst).Nodup

/-- The application a snapshot without repeated keys stands for. -/
def gathered (s : Snapshot) : Application where
  tasks := OrdMap.ofList (s.tasks.map fun t => (t.id, t))
  records := OrdMap.ofList (s.records.map fun r => (r.id, r))
  grants := OrdMap.ofList s.grants
  requests := OrdMap.ofList (s.requests.map fun (key, c) =>
    (key, { c with storedAt := c.storedAt <|> s.lastTime }))
  revokedTasks := s.revokedTasks.toFinset
  deliveries := OrdMap.ofList (s.deliveries.map fun (id, d) =>
    (id, { d with storedAt := d.storedAt <|> s.lastTime }))
  baselines := OrdMap.ofList s.baselines
  audit := s.audit
  generation := s.generation
  lastTime := s.lastTime
  clockFrozen := s.clockFrozen
  predecessor := s.predecessor

theorem collected_eq_ok {K V : Type} [LinearOrder K] {l : List (K × V)} {n : OrdMap K V} :
    l.foldlM insertNew ∅ = .ok n ↔ (l.map Prod.fst).Nodup ∧ n = OrdMap.ofList l := by
  rw [foldlM_insertNew_eq_ok]
  exact ⟨fun h => ⟨h.1, h.2.2⟩, fun h => ⟨h.1, fun key _ => OrdMap.get?_empty key, h.2⟩⟩

theorem ofSnapshot_eq_ok {s : Snapshot} {app : Application} :
    ofSnapshot s = .ok app ↔ Unrepeated Record.id s ∧ app = gathered s := by
  simp only [ofSnapshot, bind_eq_ok, collected_eq_ok, foldlM_insertNewId_eq_ok, pure_eq_ok,
    Finset.empty_union, List.map_map]
  constructor
  · rintro ⟨_, ⟨htasks, rfl⟩, _, ⟨hrecords, rfl⟩, _, ⟨hgrants, rfl⟩, _, ⟨hrequests, rfl⟩,
      _, ⟨hrevoked, -, rfl⟩, _, ⟨hdeliveries, rfl⟩, _, ⟨hbaselines, rfl⟩, rfl⟩
    exact ⟨⟨htasks, hrecords, hgrants, hrequests, hrevoked, hdeliveries, hbaselines⟩, rfl⟩
  · rintro ⟨h, rfl⟩
    exact ⟨_, ⟨h.tasks, rfl⟩, _, ⟨h.records, rfl⟩, _, ⟨h.grants, rfl⟩, _, ⟨h.requests, rfl⟩,
      _, ⟨h.revokedTasks, fun _ _ => Finset.notMem_empty _, rfl⟩, _, ⟨h.deliveries, rfl⟩,
      _, ⟨h.baselines, rfl⟩, rfl⟩

/-- No collection of a snapshot is larger than the limit. -/
structure Sized (s : Snapshot) : Prop where
  tasks : s.tasks.length ≤ limit
  records : s.records.length ≤ limit
  grants : s.grants.length ≤ limit
  requests : s.requests.length ≤ limit
  revokedTasks : s.revokedTasks.length ≤ limit
  deliveries : s.deliveries.length ≤ limit
  audit : s.audit.length ≤ limit
  baselines : s.baselines.length ≤ limit

theorem decode_eq_ok {bytes : Bytes} {app : Application} :
    decode P bytes = .ok app ↔ bytes.length ≤ maxPlaintext ∧ ∃ s, P.parseSnapshot bytes = some s
      ∧ (s.schema = 2 ∨ s.schema = 3) ∧ s.generation ≠ 0 ∧ Sized s ∧ Unrepeated Record.id s
      ∧ app = gathered s ∧ app.Valid P := by
  simp only [decode, bind_eq_ok, failIf_eq_ok, required_eq_ok, ofSnapshot_eq_ok, pure_eq_ok,
    exists_const, not_lt]
  refine and_congr_right fun _ => exists_congr fun s => and_congr_right fun _ => ?_
  constructor
  · rintro ⟨hhead, decoded, ⟨hdistinct, rfl⟩, _, hvalid, rfl⟩
    simp only [List.any_cons, List.any_nil, Bool.or_false, Bool.or_eq_true, Bool.and_eq_true,
      bne_iff_ne, beq_iff_eq, decide_eq_true_eq, not_or, not_lt, not_and, not_not] at hhead
    obtain ⟨⟨hschema, hgeneration⟩, h1, h2, h3, h4, h5, h6, h7, h8⟩ := hhead
    refine ⟨?_, hgeneration, ⟨h1, h2, h3, h4, h5, h6, h7, h8⟩, hdistinct, rfl,
      validate_eq_ok.mp hvalid⟩
    by_cases h2 : s.schema = 2
    · exact .inl h2
    · exact .inr (hschema h2)
  · rintro ⟨hschema, hgeneration, hsized, hdistinct, rfl, hvalid⟩
    refine ⟨?_, _, ⟨hdistinct, rfl⟩, _, validate_eq_ok.mpr hvalid, rfl⟩
    simp only [List.any_cons, List.any_nil, Bool.or_false, Bool.or_eq_true, Bool.and_eq_true,
      bne_iff_ne, beq_iff_eq, decide_eq_true_eq, not_or, not_lt, not_and, not_not]
    exact ⟨⟨fun h2 => hschema.resolve_left h2, hgeneration⟩, hsized.tasks, hsized.records,
      hsized.grants, hsized.requests, hsized.revokedTasks, hsized.deliveries, hsized.audit,
      hsized.baselines⟩

theorem encode_eq_ok {app : Application} {bytes : Bytes} : app.encode P = .ok bytes ↔
    app.Valid P ∧ bytes = P.snapshotJson app.toSnapshot ∧ bytes.length ≤ maxPlaintext := by
  simp only [encode, bind_eq_ok, failIf_eq_ok, pure_eq_ok, exists_const, not_lt]
  constructor
  · rintro ⟨_, hvalid, hlength, rfl⟩
    exact ⟨validate_eq_ok.mp hvalid, rfl, hlength⟩
  · rintro ⟨hvalid, rfl, hlength⟩
    exact ⟨_, validate_eq_ok.mpr hvalid, hlength, rfl⟩

/-- Every receipt and delivery says when it was stored. -/
structure Timestamped (app : Application) : Prop where
  requests : ∀ key c, app.requests.get? key = some c → c.storedAt.isSome = true
  deliveries : ∀ id d, app.deliveries.get? id = some d → d.storedAt.isSome = true

/-- What is not timestamped inherits the clock high-water. -/
def stamped (app : Application) : Application :=
  { app with
    requests := app.requests.mapVals fun _ c => { c with storedAt := c.storedAt <|> app.lastTime }
    deliveries := app.deliveries.mapVals fun _ d =>
      { d with storedAt := d.storedAt <|> app.lastTime } }

theorem inherit_eq_self {stored last : Option Time} (h : stored.isSome = true) :
    (stored <|> last) = stored := by
  obtain ⟨t, rfl⟩ := Option.isSome_iff_exists.mp h
  rfl

theorem inherit_inherit (stored last : Option Time) :
    ((stored <|> last) <|> last) = (stored <|> last) := by
  cases stored <;> cases last <;> rfl

theorem mapVals_eq_self {K V : Type} [LinearOrder K] {m : OrdMap K V} {f : K → V → V}
    (h : ∀ key v, m.get? key = some v → f key v = v) : m.mapVals f = m := by
  apply OrdMap.ext
  intro key
  rw [OrdMap.get?_mapVals]
  cases hv : m.get? key with
  | none => rfl
  | some v => rw [Option.map_some, h key v hv]

theorem stamped_eq_self {app : Application}
    (hrequests : ∀ key c, app.requests.get? key = some c → (c.storedAt <|> app.lastTime) = c.storedAt)
    (hdeliveries : ∀ id d, app.deliveries.get? id = some d →
      (d.storedAt <|> app.lastTime) = d.storedAt) : app.stamped = app := by
  unfold stamped
  rw [mapVals_eq_self fun key c hc => by rw [hrequests key c hc],
    mapVals_eq_self fun id d hd => by rw [hdeliveries id d hd]]

theorem Timestamped.stamped {app : Application} (h : app.Timestamped) : app.stamped = app :=
  stamped_eq_self (fun key c hc => inherit_eq_self (h.requests key c hc))
    fun id d hd => inherit_eq_self (h.deliveries id d hd)

/-- The list form of a valid application gathers to it again, timestamps filled in. -/
theorem gathered_toSnapshot {app : Application} (h : app.Valid P) :
    gathered app.toSnapshot = app.stamped := by
  have htasks : OrdMap.ofList (app.tasks.values.map fun t => (t.id, t)) = app.tasks :=
    OrdMap.ofList_values fun id t ht => (h.tasks id t ht).id_eq
  have hrecords : OrdMap.ofList (app.records.values.map fun r => (r.id, r)) = app.records :=
    OrdMap.ofList_values fun id r hr => by
      obtain ⟨t, -, hsound⟩ := h.records id r hr
      exact hsound.id_eq
  have hrevoked : (sortedElements app.revokedTasks).toFinset = app.revokedTasks := by
    ext id
    rw [List.mem_toFinset, mem_sortedElements]
  have hrequests : OrdMap.ofList (app.requests.entries.map fun (key, c) =>
      (key, { c with storedAt := c.storedAt <|> app.lastTime })) = app.stamped.requests :=
    OrdMap.ofList_entries app.stamped.requests
  have hdeliveries : OrdMap.ofList (app.deliveries.entries.map fun (id, d) =>
      (id, { d with storedAt := d.storedAt <|> app.lastTime })) = app.stamped.deliveries :=
    OrdMap.ofList_entries app.stamped.deliveries
  have hgrants := OrdMap.ofList_entries app.grants
  have hbaselines := OrdMap.ofList_entries app.baselines
  unfold gathered toSnapshot
  dsimp only
  rw [htasks, hrecords, hgrants, hrevoked, hbaselines, hrequests, hdeliveries]
  rfl

theorem unrepeated_toSnapshot {app : Application} (h : app.Valid P) : Unrepeated Record.id app.toSnapshot where
  tasks := by
    have hkeys := OrdMap.keys_values fun id t ht => (h.tasks id t ht).id_eq
    exact hkeys ▸ app.tasks.nodup_keys
  records := by
    have hkeys := OrdMap.keys_values (m := app.records) fun id r hr => by
      obtain ⟨t, -, hsound⟩ := h.records id r hr
      exact hsound.id_eq
    exact hkeys ▸ app.records.nodup_keys
  grants := app.grants.nodup_keys
  requests := app.requests.nodup_keys
  revokedTasks := nodup_sortedElements _
  deliveries := app.deliveries.nodup_keys
  baselines := app.baselines.nodup_keys

theorem sized_toSnapshot {app : Application} (h : app.Valid P) : Sized app.toSnapshot where
  tasks := (List.length_map _).trans_le h.sizes.tasks
  records := (List.length_map _).trans_le h.sizes.records
  grants := h.sizes.grants
  requests := h.sizes.requests
  revokedTasks := by
    have hcard : (sortedElements app.revokedTasks).length = app.revokedTasks.card := by
      rw [← List.toFinset_card_of_nodup (nodup_sortedElements _)]
      congr 1
      ext id
      rw [List.mem_toFinset, mem_sortedElements]
    exact hcard.trans_le h.sizes.revokedTasks
  deliveries := h.sizes.deliveries
  audit := h.sizes.audit
  baselines := h.sizes.baselines

theorem stamped_gathered {s : Snapshot} (h : Unrepeated Record.id s) : (gathered s).stamped = gathered s := by
  refine stamped_eq_self (fun key c hc => ?_) fun id d hd => ?_
  · have hnodup : ((s.requests.map fun (key, c) =>
        (key, { c with storedAt := c.storedAt <|> s.lastTime })).map Prod.fst).Nodup := by
      rw [List.map_map]
      exact h.requests
    obtain ⟨⟨key', c'⟩, -, heq⟩ := List.mem_map.mp ((OrdMap.get?_ofList hnodup).mp hc)
    cases heq
    exact inherit_inherit _ _
  · have hnodup : ((s.deliveries.map fun (id, d) =>
        (id, { d with storedAt := d.storedAt <|> s.lastTime })).map Prod.fst).Nodup := by
      rw [List.map_map]
      exact h.deliveries
    obtain ⟨⟨id', d'⟩, -, heq⟩ := List.mem_map.mp ((OrdMap.get?_ofList hnodup).mp hd)
    cases heq
    exact inherit_inherit _ _

/-- Decoding undoes encoding, where nothing is left to be timestamped. -/
theorem decode_encode (hjson : P.Json) {app : Application} {bytes : Bytes}
    (h : app.encode P = .ok bytes) (hstamped : app.stamped = app) : decode P bytes = .ok app := by
  obtain ⟨happ, rfl, hlength⟩ := encode_eq_ok.mp h
  exact decode_eq_ok.mpr ⟨hlength, _, hjson.parse_json _, .inr rfl, ne_of_gt happ.generation,
    sized_toSnapshot happ, unrepeated_toSnapshot happ,
    hstamped.symm.trans (gathered_toSnapshot happ).symm, happ⟩

/-- Nothing that was decoded is left to be timestamped. -/
theorem stamped_of_decode {app : Application} {bytes : Bytes} (h : decode P bytes = .ok app) :
    app.stamped = app := by
  obtain ⟨-, s, -, -, -, -, hunrepeated, rfl, -⟩ := decode_eq_ok.mp h
  exact stamped_gathered hunrepeated

theorem unrepeated_of_decode {app : Application} {bytes : Bytes} (h : decode P bytes = .ok app) :
    ∃ d, P.parseDocument bytes = some d ∧ (d.schema = 2 ∨ d.schema = 3)
      ∧ Unrepeated RecordDocument.id d ∧ ∀ r ∈ d.records, (r.values.map Prod.fst).Nodup := by
  obtain ⟨-, s, hparse, hschema, -, -, hunrepeated, -, -⟩ := decode_eq_ok.mp h
  obtain ⟨d, hdocument, hsnapshot⟩ := Option.bind_eq_some_iff.mp hparse
  obtain ⟨hids, hs⟩ := SnapshotOf.records_id hsnapshot
  refine ⟨d, hdocument, ?_, ?_, SnapshotOf.fields_nodup hsnapshot⟩
  · rw [hs] at hschema
    exact hschema
  · have hrecords := hids ▸ hunrepeated.records
    rw [hs] at hunrepeated
    exact ⟨hunrepeated.tasks, hrecords, hunrepeated.grants, hunrepeated.requests,
      hunrepeated.revokedTasks, hunrepeated.deliveries, hunrepeated.baselines⟩

theorem sharedVault_timestamped : sharedVault.Timestamped := by
  constructor
  · intro key c hc
    have hall : sharedVault.requests.all (fun _ c => c.storedAt.isSome) = true := by decide
    exact OrdMap.all_iff.mp hall key c hc
  · intro id d hd
    cases hd

/-- The codec is lossless on timestamped applications, and canonical: whatever `decode` accepts
is valid, repeats no key, and is the same after encoding and decoding it again. -/
theorem codec_lossless (hjson : P.Json) :
    (∀ app : Application, app.validate P = .ok () → app.Timestamped →
      (P.snapshotJson app.toSnapshot).length ≤ maxPlaintext →
        ∃ bytes, app.encode P = .ok bytes ∧ decode P bytes = .ok app)
    ∧ ∀ bytes app, decode P bytes = .ok app → app.validate P = .ok ()
      ∧ (∀ again, app.encode P = .ok again → decode P again = .ok app)
      ∧ ∃ d, P.parseDocument bytes = some d ∧ (d.schema = 2 ∨ d.schema = 3)
        ∧ Unrepeated RecordDocument.id d ∧ ∀ r ∈ d.records, (r.values.map Prod.fst).Nodup := by
  refine ⟨fun app hvalid htimes hlength => ?_, fun bytes app hdecode => ⟨?_, fun again hagain => ?_,
    unrepeated_of_decode hdecode⟩⟩
  · have hencode := encode_eq_ok.mpr ⟨validate_eq_ok.mp hvalid, rfl, hlength⟩
    exact ⟨_, hencode, decode_encode hjson hencode htimes.stamped⟩
  · obtain ⟨-, s, -, -, -, -, -, -, hvalid⟩ := decode_eq_ok.mp hdecode
    exact validate_eq_ok.mpr hvalid
  · exact decode_encode hjson hagain (stamped_of_decode hdecode)

theorem codec_lossless_sharedVault : ∃ bytes, sharedVault.encode .reference = .ok bytes
    ∧ decode .reference bytes = .ok sharedVault :=
  (codec_lossless Platform.reference_seals.toJson).1 sharedVault (by decide +kernel)
    sharedVault_timestamped (by decide +kernel)

end Application

end Credman
