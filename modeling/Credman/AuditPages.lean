import Credman.Paging
import Credman.JsonText
import Credman.Storage
import Credman.Work

/-! The audit log in pages of a fixed number of events. A page that is too long for a frame is not cut
down: the run loop sends an error in its place. -/
namespace Credman

open Library

def AuditAction.text : AuditAction → String
  | .mutation => "Mutation"
  | .metadataRead => "MetadataRead"
  | .secretRead => "SecretRead"
  | .secretUse => "SecretUse"

/-- A 64-bit time, as serde_json keeps a number. -/
def Time.json (t : Time) : Json :=
  let n := Int64.ofInt t
  if h : n < 0 then .number (.negInt n h) else .number (.posInt (UInt64.ofNat n.toInt.toNat))

def AuditEvent.json (event : AuditEvent) : Json :=
  .obj [("task", .string event.task.text), ("record", .string event.record.text),
    ("request", match event.request with
      | some request => .string request.text
      | none => .null),
    ("action", .string event.action.text), ("at", event.loggedAt.json),
    ("principal", .string event.principal)]

/-- Administration only: the events of the tasks in the caller's scope. -/
def Application.auditEvents (app : Application) (admin : AuthenticatedContext) :
    Except Error (List AuditEvent) :=
  if !admin.admin then .error .denied
  else .ok (app.audit.filter fun event => (app.tasks.get? event.task).any fun task =>
    task.owner == admin.owner && task.workspace == admin.workspace)

namespace DurableVault

def auditEvents (owner : DurableVault) (ctx : AuthenticatedContext) : Except Error (List AuditEvent) := do
  owner.ready
  owner.app.auditEvents ctx

/-- The broker's `audit`. -/
def audit (owner : DurableVault) (ctx : AuthenticatedContext) (offset : Nat) : Except Error Json := do
  let all ← owner.auditEvents ctx
  let events := (all.drop offset).take 100
  pure (pageValue "events" (events.map AuditEvent.json) all.length
    (decide (offset + events.length < all.length)))

end DurableVault

/-- What the run loop sends for a result. -/
def respond (S : Serde) (result : Except Error Json) : Json :=
  bounded S (match result with
    | .ok response => response
    | .error e => failure e)

/-! The length of a page, counted over its events. -/

section Length

variable {S : SerdeJson} {token : Token → Bytes}

/-- How long the text of a value is. -/
def textLength (token : Token → Bytes) (v : Json) : Nat := v.weight fun t => (token t).length

theorem length_text (htext : ∀ v, S.text v = v.tokens.flatMap token) (v : Json) :
    (S.text v).length = textLength token v := by
  rw [htext, List.length_flatMap]
  rfl

/-- What stands around the events of a page, the events, and the commas between them. -/
def pageLength (token : Token → Bytes) (events : List AuditEvent) (total : Nat) (more : Bool) : Nat :=
  textLength token (pageValue "events" [] total more)
    + (events.map fun event => textLength token event.json).sum
    + (events.length - 1) * (token .comma).length

theorem elementsWeight_eq (w : Token → Nat) (values : List Json) : Json.elementsWeight w true values
    = (values.map (Json.weight w)).sum + (values.length - 1) * w .comma + w .rightBracket := by
  have hrest : ∀ values : List Json, Json.elementsWeight w false values
      = (values.map (Json.weight w)).sum + values.length * w .comma + w .rightBracket := by
    intro values
    induction values with
    | nil => simp [Json.elementsWeight, Json.elements]
    | cons v values ih =>
      rw [Json.elementsWeight_cons, ih, List.map_cons, List.sum_cons, List.length_cons, Nat.add_one_mul]
      simp only [Bool.false_eq_true, if_false]
      omega
  cases values with
  | nil => simp [Json.elementsWeight, Json.elements]
  | cons v values =>
    rw [Json.elementsWeight_cons, hrest, List.map_cons, List.sum_cons, List.length_cons, Nat.add_sub_cancel]
    simp only [if_true]
    omega

theorem pageValue_events (items : List Json) (total : Nat) (more : Bool) :
    pageValue "events" items total more = .object [("events", .array items), ("has_more", .bool more),
      ("ok", .bool true), ("total", .number (.posInt (UInt64.ofNat total)))] := by
  have hok : ("events" : String) < "ok" := by decide +kernel
  have htotal : ("ok" : String) < "total" := by decide +kernel
  have hevents : ("events" : String) < "has_more" := by decide +kernel
  have hmore : ("has_more" : String) < "ok" := by decide +kernel
  have hnil : (∅ : OrdMap String Json).entries = [] := rfl
  simp [pageValue, Json.obj, OrdMap.ofList, OrdMap.insert, OrdMap.insertEntry, hnil, hok, htotal.not_gt,
    (hok.trans htotal).not_gt, hevents.not_gt, hmore]

theorem textLength_page (events : List AuditEvent) (total : Nat) (more : Bool) :
    textLength token (pageValue "events" (events.map AuditEvent.json) total more)
      = pageLength token events total more := by
  unfold pageLength textLength
  simp only [pageValue_events, Json.weight_object, Json.membersWeight_cons, Json.weight_array,
    elementsWeight_eq, List.map_map, List.length_map, List.map_nil, List.sum_nil, List.length_nil, Function.comp_def]
  omega

theorem depth_page (events : List AuditEvent) (total : Nat) (more : Bool) :
    (pageValue "events" (events.map AuditEvent.json) total more).depth ≤ maxNesting := by
  have hat : ∀ t : Time, (Time.json t).depth = 0 := by
    intro t
    unfold Time.json
    dsimp only
    split_ifs
    · rfl
    · rfl
  have hevent : ∀ event : AuditEvent, event.json.depth ≤ 1 := by
    intro event
    unfold AuditEvent.json
    refine Nat.succ_le_succ (Json.depthMembers_le.mpr fun m hm => ?_)
    have hmem := OrdMap.mem_of_mem_ofList hm
    simp only [List.mem_cons, List.not_mem_nil, or_false] at hmem
    rcases hmem with rfl | rfl | rfl | rfl | rfl | rfl
    · exact le_refl 0
    · exact le_refl 0
    · cases event.request <;> exact le_refl 0
    · exact le_refl 0
    · exact (hat event.loggedAt).le
    · exact le_refl 0
  have hevents : (Json.array (events.map AuditEvent.json)).depth ≤ 2 := by
    refine Nat.succ_le_succ (Json.depthElements_le.mpr ?_)
    exact List.forall_mem_map.mpr fun event _ => hevent event
  rw [pageValue_events, Json.depth]
  simp only [Json.depthMembers, Json.depth] at hevents ⊢
  unfold maxNesting
  omega

theorem fits_audit (S : SerdeJson) (htext : ∀ v, S.text v = v.tokens.flatMap token) (events : List AuditEvent)
    (total : Nat) (more : Bool) :
    fitsFrame S (pageValue "events" (events.map AuditEvent.json) total more) = true ↔
      pageLength token events total more ≤ maxFrameBytes := by
  rw [fitsFrame_iff, length_text htext, textLength_page]
  exact and_iff_right (depth_page events total more)

end Length

/-! The walk. -/

section Walk

variable {S : Serde} {token : Token → Bytes} {owner : DurableVault} {ctx : AuthenticatedContext}
  {events : List AuditEvent} {offset : Nat}

/-- The page of a hundred events from an offset on. -/
def auditPage (events : List AuditEvent) (offset : Nat) : Json :=
  pageValue "events" (((events.drop offset).take 100).map AuditEvent.json) events.length
    (decide (offset + 100 < events.length))

theorem audit_eq (h : owner.auditEvents ctx = .ok events) (offset : Nat) :
    owner.audit ctx offset = .ok (auditPage events offset) := by
  have hmore : offset + ((events.drop offset).take 100).length < events.length
      ↔ offset + 100 < events.length := by
    rw [List.length_take, List.length_drop]
    omega
  unfold DurableVault.audit auditPage
  rw [h, ← decide_eq_decide.mpr hmore]
  rfl

/-- What one answer of the owner gives the client. -/
def auditAnswer (S : Serde) (owner : DurableVault) (ctx : AuthenticatedContext) (offset : Nat) :
    Except Error Json := .ok (respond S (owner.audit ctx offset))

/-- This page fits a frame. -/
def PageFits (token : Token → Bytes) (events : List AuditEvent) (offset : Nat) : Prop :=
  pageLength token ((events.drop offset).take 100) events.length (decide (offset + 100 < events.length))
    ≤ maxFrameBytes

theorem auditAnswer_eq (htext : ∀ v, S.text v = v.tokens.flatMap token)
    (h : owner.auditEvents ctx = .ok events) (offset : Nat) :
    (PageFits token events offset → auditAnswer S owner ctx offset = .ok (auditPage events offset))
    ∧ (¬ PageFits token events offset → auditAnswer S owner ctx offset = .ok (failure .capacity)) := by
  have hfits := fits_audit S.toSerdeJson htext ((events.drop offset).take 100) events.length
    (decide (offset + 100 < events.length))
  unfold auditAnswer respond bounded
  rw [audit_eq h]
  unfold PageFits auditPage
  refine ⟨fun hpage => ?_, fun hpage => ?_⟩
  · rw [if_pos (hfits.mpr hpage)]
  · rw [if_neg (mt hfits.mp hpage)]

theorem entriesOf_failure (e : Error) : entriesOf "events" (failure e) = none := by
  have hnone : (failure e).get? "events" = none := by
    unfold failure
    rw [Json.get?_obj]
    unfold OrdMap.ofList
    simp [OrdMap.get?_insert]
  unfold entriesOf
  rw [hnone]

/-- A walk takes a hundred events after the other, and only while the pages fit. -/
theorem Walk.audited (htext : ∀ v, S.text v = v.tokens.flatMap token)
    (h : owner.auditEvents ctx = .ok events) {delivered : List Json} {out : Option (Nat × Error)}
    (hwalk : Walk (auditAnswer S owner ctx) "events" offset delivered out) :
    delivered = (events.drop offset).map AuditEvent.json ∧ out = none
      ∧ ∀ k, k = 0 ∨ offset + 100 * k < events.length → PageFits token events (offset + 100 * k) := by
  have hanswer := fun offset => auditAnswer_eq htext h offset
  have hpage : ∀ {offset : Nat} {p : Json} {entries : List Json}, auditAnswer S owner ctx offset = .ok p →
      entriesOf "events" p = some entries → PageFits token events offset ∧ p = auditPage events offset
        ∧ entries = ((events.drop offset).take 100).map AuditEvent.json := by
    intro offset p entries hp hentries
    by_cases hfits : PageFits token events offset
    · rw [(hanswer offset).1 hfits, Except.ok.injEq] at hp
      subst hp
      unfold auditPage at hentries
      rw [entriesOf_pageValue (by decide) (by decide), Option.some.injEq] at hentries
      exact ⟨hfits, rfl, hentries.symm⟩
    · rw [(hanswer offset).2 hfits, Except.ok.injEq] at hp
      rw [← hp, entriesOf_failure] at hentries
      cases hentries
  induction hwalk with
  | failed hfailed => cases hfailed
  | @last offset p entries hp hentries hmore =>
    obtain ⟨hfits, rfl, rfl⟩ := hpage hp hentries
    unfold auditPage at hmore
    rw [hasMoreOf_pageValue, decide_eq_false_iff_not, not_lt] at hmore
    refine ⟨?_, rfl, fun k hk => ?_⟩
    · rw [List.take_of_length_le]
      rw [List.length_drop]
      omega
    · have hzero : k = 0 := by omega
      subst hzero
      exact hfits
  | @next offset p entries rest out hp hentries hmore hrest ih =>
    obtain ⟨hfits, rfl, rfl⟩ := hpage hp hentries
    unfold auditPage at hmore
    rw [hasMoreOf_pageValue, decide_eq_true_eq] at hmore
    have hlength : (((events.drop offset).take 100).map AuditEvent.json).length = 100 := by
      rw [List.length_map, List.length_take, List.length_drop]
      omega
    rw [hlength] at ih
    obtain ⟨rfl, rfl, hlater⟩ := ih
    refine ⟨?_, rfl, fun k hk => ?_⟩
    · rw [← List.drop_drop, ← List.map_append, List.take_append_drop]
    · cases k with
      | zero => exact hfits
      | succ k =>
        have hnext := hlater k (by omega)
        rw [show offset + 100 * (k + 1) = offset + 100 + 100 * k by omega]
        exact hnext

/-- The induction is on what is left. -/
theorem walk_audit (htext : ∀ v, S.text v = v.tokens.flatMap token)
    (h : owner.auditEvents ctx = .ok events) (left : Nat) (hleft : events.length - offset < left)
    (hfits : ∀ k, k = 0 ∨ offset + 100 * k < events.length → PageFits token events (offset + 100 * k)) :
    Walk (auditAnswer S owner ctx) "events" offset ((events.drop offset).map AuditEvent.json) none := by
  induction left generalizing offset with
  | zero => exact absurd hleft (Nat.not_lt_zero _)
  | succ left ih =>
    have hanswer := (auditAnswer_eq htext h offset).1 (hfits 0 (.inl rfl))
    have hentries : entriesOf "events" (auditPage events offset)
        = some (((events.drop offset).take 100).map AuditEvent.json) :=
      entriesOf_pageValue (by decide) (by decide)
    have hmore : hasMoreOf (auditPage events offset) = decide (offset + 100 < events.length) :=
      hasMoreOf_pageValue
    by_cases hend : offset + 100 < events.length
    · have hlength : (((events.drop offset).take 100).map AuditEvent.json).length = 100 := by
        rw [List.length_map, List.length_take, List.length_drop]
        omega
      have hlater : ∀ k, k = 0 ∨ offset + 100 + 100 * k < events.length →
          PageFits token events (offset + 100 + 100 * k) := by
        intro k hk
        have hnext := hfits (k + 1) (by omega)
        rw [show offset + 100 * (k + 1) = offset + 100 + 100 * k by omega] at hnext
        exact hnext
      have hrest := ih (by omega) hlater
      rw [← List.take_append_drop 100 (events.drop offset), List.map_append, List.drop_drop]
      rw [← hlength] at hrest
      exact .next hanswer hentries (hmore.trans (decide_eq_true hend)) (by
        rw [hlength] at hrest ⊢
        exact hrest)
    · rw [← List.take_of_length_le (show (events.drop offset).length ≤ 100 by rw [List.length_drop]; omega)]
      exact .last hanswer hentries (hmore.trans (decide_eq_false hend))

/-- The audit log is read whole exactly when every hundred of its events fit a frame together. A walk
that comes to an end has delivered all of it; else it meets a refusal. -/
theorem audit_walk_iff (htext : ∀ v, S.text v = v.tokens.flatMap token)
    (h : owner.auditEvents ctx = .ok events) :
    (Walk (auditAnswer S owner ctx) "events" 0 (events.map AuditEvent.json) none ↔
      ∀ k, k = 0 ∨ 100 * k < events.length → PageFits token events (100 * k))
    ∧ (∀ delivered out, Walk (auditAnswer S owner ctx) "events" 0 delivered out →
      delivered = events.map AuditEvent.json ∧ out = none)
    ∧ ∀ offset, ¬ PageFits token events offset → auditAnswer S owner ctx offset = .ok (failure .capacity) := by
  refine ⟨⟨fun hwalk => ?_, fun hfits => ?_⟩, fun delivered out hwalk => ?_,
    fun offset => (auditAnswer_eq htext h offset).2⟩
  · obtain ⟨-, -, hfits⟩ := hwalk.audited htext h
    simpa only [Nat.zero_add] using hfits
  · refine walk_audit htext h (events.length + 1) (by omega) ?_
    simpa only [Nat.zero_add] using hfits
  · obtain ⟨hdelivered, hout, -⟩ := hwalk.audited htext h
    exact ⟨hdelivered, hout⟩

end Walk


/-! A task whose principal has a long name, and a hundred events under it. -/

def loudTask : TaskApproval :=
  { aliceTask with principal := String.ofList (List.replicate 500 'k'), share := none }

/-- An approval, an import, and then one read after the other. -/
def loudHistory (reads : Nat) : AppM Unit := do
  Application.approveTask (.fromAuthenticatedAdmin "owner" "human" "home") loudTask 3
  let receipt ← DurableVault.importClosure .reference (.fromAuthenticatedAdmin "owner" "human" "home") 1 5
    .login sharedLogin.values 4 { id := 6, entropy := [] }
  for _ in List.range reads do
    let _ ← DurableVault.readClosure (.fromAuthenticatedAdmin "owner" "human" "home") 1 receipt.record
      {.password} 5

def loudOwner : DurableVault where
  app := match (loudHistory 99).run Application.created with
    | .ok _ app | .error _ app => app
  store := {
    key := Vector.replicate 32 0, salt := Vector.replicate 16 0, kdf := .current, currentImage := none
    blocked := false, persistedLastTime := some 5, persistedFrozen := false }
  frozen := false

def loudSerde : Serde := { SerdeJson.reference with workRequest := fun _ => none }

theorem audit_walk_loud :
    (loudHistory 99).run Application.created = .ok () loudOwner.app
    ∧ loudOwner.app.validate .reference = .ok ()
    ∧ loudOwner.auditEvents (.fromAuthenticatedAdmin "owner" "human" "home") = .ok loudOwner.app.audit
    ∧ loudOwner.app.audit.length = 100
    ∧ (∀ event ∈ loudOwner.app.audit, pageLength JsonText.token.enc [event] 100 false ≤ maxFrameBytes)
    ∧ auditAnswer loudSerde loudOwner (.fromAuthenticatedAdmin "owner" "human" "home") 0
      = .ok (failure .capacity)
    ∧ ¬ Walk (auditAnswer loudSerde loudOwner (.fromAuthenticatedAdmin "owner" "human" "home")) "events" 0
      (loudOwner.app.audit.map AuditEvent.json) none := by
  have htext : ∀ v, loudSerde.text v = v.tokens.flatMap JsonText.token.enc := fun _ => List.flatMap_def.symm
  have hevents : loudOwner.auditEvents (.fromAuthenticatedAdmin "owner" "human" "home")
      = .ok loudOwner.app.audit := by decide +kernel
  have hlong : ¬ PageFits JsonText.token.enc loudOwner.app.audit 0 := by
    unfold PageFits
    decide +kernel
  refine ⟨?_, by decide +kernel, hevents, by decide +kernel, by decide +kernel,
    (auditAnswer_eq htext hevents 0).2 hlong, fun hwalk => ?_⟩
  · have hok : (match (loudHistory 99).run Application.created with
        | .ok .. => true
        | .error .. => false) = true := by decide +kernel
    unfold loudOwner
    dsimp only
    cases hrun : (loudHistory 99).run Application.created with
    | ok u app => rfl
    | error e app =>
      rw [hrun] at hok
      cases hok
  · obtain ⟨-, -, hfits⟩ := hwalk.audited htext hevents
    exact hlong (hfits 0 (.inl rfl))

theorem audit_walk_iff_loud :
    Walk (auditAnswer loudSerde loudOwner (.fromAuthenticatedAdmin "owner" "human" "home")) "events" 0
      (loudOwner.app.audit.map AuditEvent.json) none
    ↔ ∀ k, k = 0 ∨ 100 * k < loudOwner.app.audit.length →
      PageFits JsonText.token.enc loudOwner.app.audit (100 * k) :=
  (audit_walk_iff (S := loudSerde) (fun _ => List.flatMap_def.symm)
    (show loudOwner.auditEvents (.fromAuthenticatedAdmin "owner" "human" "home")
      = .ok loudOwner.app.audit by decide +kernel)).1

end Credman
