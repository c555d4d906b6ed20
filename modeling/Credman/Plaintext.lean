import Credman.Boundary
import Credman.Brokered

/-! What no deployment ever has: a grant to read a secret that no human issued, a login that the
broker says it verified, a secret that nobody imported or generated. -/
namespace Credman

open Library Library.Checked Relation Application

variable {P : Platform} {S : AdminSerde} {fleet fleet' : Fleet} {d d' : Deployment}

section Spread

variable {φ : Application → Prop} {allows : Fleet → Nat → Call → Prop}

/-- What a new store has and every allowed call keeps. -/
theorem Spread.runs (hids : P.FreshIds) (hseals : P.Seals)
    (hkeeps : ∀ fleet i call, allows fleet i call → Keeps P φ 0 call) (hcreated : φ Application.created)
    (hrestored : ∀ {copy next : Application} {admin : AuthenticatedContext} {now : Time}, φ copy →
      copy.prepareRestored P admin now = .ok next → φ next)
    (hspread : Spread P φ fleet) (h : Fleet.Runs P allows fleet fleet') : Spread P φ fleet' := by
  induction h with
  | refl => exact hspread
  | tail _ hgoes ih =>
    obtain ⟨i, call, faults, hallows, rfl⟩ := hgoes
    exact (stepped hseals _ i call faults).spread hids hseals (hkeeps _ i call hallows) hcreated hrestored ih

theorem spread_start : Spread P φ Fleet.start :=
  ⟨fun _ => Kept.unowned ⟨(fun _ h => by cases h), (fun _ _ h => by cases h), (fun _ _ h => by cases h)⟩,
    fun _ h => by cases h⟩

end Spread

/-! Authority over plaintext. -/

namespace Application

variable {app next : Application} {draw : Draw} {imports : SecretInput → Prop}

/-- Only humans have granted the reading of secrets, nothing was used for a registration or a
login, and no login counts as verified. -/
structure Uncrossed (app : Application) : Prop where
  reads : ∀ gid g, app.grants.get? gid = some g → Permission.secretRead ∈ g.spec.permissions →
    g.adminIssued = true
  uses : ∀ i d, app.deliveries.get? i = some d → d.action = .use
  logins : ∀ i r, app.records.get? i = some r → r.signup ≠ .verifiedLogin

namespace Uncrossed

theorem enclosed (h : app.Uncrossed) (henclosed : Enclosed draw imports app next) : next.Uncrossed where
  reads gid g' hg hread := by
    rcases henclosed.grants gid g' hg with ⟨g, hold, hspec, hissued⟩ | hnew
    · rw [hissued]
      exact h.reads gid g hold (hspec ▸ hread)
    · exact hnew hread
  uses i d' hd := by
    rcases henclosed.deliveries i d' hd with ⟨d, hold, haction⟩ | hnew
    · rw [haction]
      exact h.uses i d hold
    · exact hnew
  logins i r' hr := by
    rcases henclosed.signups i r' hr with ⟨r, hold, hsignup⟩ | hnew
    · rw [hsignup]
      exact h.logins i r hold
    · exact hnew

theorem shrinks (h : app.Uncrossed) (hshrinks : Shrinks app next) : next.Uncrossed where
  reads gid g hg := h.reads gid g (hshrinks.grants gid g hg)
  uses i d hd := h.uses i d (hshrinks.deliveries i d hd)
  logins i r hr := h.logins i r (hshrinks.records i r hr)

theorem closed {copy : Bool} (h : app.Uncrossed) (hclosed : Closed copy app next) : next.Uncrossed where
  reads gid g' hg hread := by
    obtain ⟨g, hold, rfl⟩ := hclosed.grant hg
    exact h.reads gid g hold hread
  uses i d' hd := by
    obtain ⟨d, hold, rfl⟩ := hclosed.delivery hd
    have hsame : (Application.closed d).action = d.action := by
      unfold Application.closed
      split_ifs <;> rfl
    rw [hsame]
    exact h.uses i d hold
  logins i r' hr := by
    rw [hclosed.records i, Option.map_eq_some_iff] at hr
    obtain ⟨r, hold, rfl⟩ := hr
    change (unsettled _ r).signup ≠ _
    unfold unsettled
    split_ifs
    · exact SignupState.noConfusion
    · exact h.logins i r hold

theorem created : Application.created.Uncrossed :=
  ⟨(fun _ _ h => by cases h), (fun _ _ h => by cases h), (fun _ _ h => by cases h)⟩

end Uncrossed

end Application

theorem keeps_uncrossed {call : Call} (hguarded : call.Guarded) : Keeps P Uncrossed 0 call where
  ran _ _ _ _ h hruns := h.enclosed (hruns.enclosed hguarded fun _ _ _ _ _ _ _ => (trivial : True))
  compacted hvalid hlasting h := h.shrinks (hlasting.compact hvalid).2.2
  renumbered _ _ h := ⟨h.reads, h.uses, h.logins⟩
  recovered _ _ hclosed h := h.closed hclosed

/-- Every call a deployment makes is guarded. -/
theorem Deployment.Reachable.guarded_step (h : Deployment.Reachable P S d) (i : Nat) (happening : Happening)
    (faults : List (List Fault)) :
    Fleet.Runs P (fun _ _ call => call.Guarded) d.fleet (d.step P S i happening faults).fleet :=
  Deployment.step_runs (fun _ _ call => call.Guarded) (fun _ _ => .of_housekeeping)
    (fun _ _ _ _ _ _ _ _ _ hheard _ hcall => Broker.guarded (h.sane.genuine hheard) hcall) faults

/-- In no deployment, whatever its agents send and however its processes end, is there a grant to read
secrets that no human issued, a use other than `use`, or a login that counts as verified: not in the
memory of an owner, not in an image that can be opened or recovered to, and not in a backup. -/
theorem plaintext_authority (hids : P.FreshIds) (hseals : P.Seals) (h : Deployment.Reachable P S d) :
    Spread P Uncrossed d.fleet := by
  induction h with
  | refl => exact spread_start
  | tail hreach hgoes ih =>
    obtain ⟨i, happening, faults, -, rfl⟩ := hgoes
    exact ih.runs hids hseals (fun _ _ _ => keeps_uncrossed) .created
      (fun hcopy hprepare => hcopy.closed (prepareRestored_eq_ok hprepare).2.1)
      (Deployment.Reachable.guarded_step hreach i happening faults)

/-! A household: Alice's agent is on a transferred channel, and her task approves one mailbox. -/

def mailbox : Destination where
  id := "browser"
  service := "mail"
  origin := "https://mail.example"
  path := "/inbox"
  auth := .basic
  caFile := none
  timeouts := {}

def mailUse : PrivateUse where
  request := 7
  record := 6
  fields := {.username, .password}
  destination := "browser"
  action := .use

/-- The decoders, on the messages of this household. -/
def householdSerde : AdminSerde where
  toSerdeJson := SerdeJson.reference
  workRequest value := match value.get? "op" with
    | some (.string "use") => some (.use 1 mailUse)
    | _ => none
  adminControl value := match value.get? "op" with
    | some (.string "approve") => some (.approve aliceTask)
    | some (.string "import_secret") => some (.importSecret 1 5 .login sharedLogin.values)
    | some (.string "issue_session") => some (.issueSession "alice" [1] 300)
    | _ => none

def approveJson : Json :=
  .obj [("op", .string "approve"), ("approval", .obj [
    ("id", idJson aliceTask.id), ("owner", .string aliceTask.owner), ("principal", .string aliceTask.principal),
    ("workspace", .string aliceTask.workspace), ("service", .string aliceTask.service),
    ("origin", .string aliceTask.origin), ("fields", Fields.json aliceTask.fields),
    ("permissions", Permissions.json aliceTask.permissions),
    ("destinations", textsJson aliceTask.destinations), ("expires_at", aliceTask.expiresAt.json),
    ("share", match aliceTask.share with
      | some bounds => bounds.json
      | none => .null)])]

def importJson : Json :=
  .obj [("op", .string "import_secret"), ("task", idJson 1), ("request", idJson 5),
    ("kind", .string CredentialKind.login.text),
    ("values", .obj (sharedLogin.values.entries.map fun e => (e.1.text, .string e.2)))]

def useJson : Json :=
  .obj [("op", .string "use"), ("task", idJson 1), ("usage", .obj [
    ("request", idJson mailUse.request), ("record", idJson mailUse.record),
    ("fields", Fields.json mailUse.fields), ("destination", .string mailUse.destination),
    ("action", .string "Use")])]

def householdConfig : SupervisorConfig where
  owner := "owner"
  workspace := "home"
  adminPrincipal := "human"
  peers := ["alice"]
  destinations := [mailbox]

def householdFiles : FileSystem where
  euid := 0
  metadata _ := none

def householdTurn (now : Time) : Turn where
  now n := now + n
  files := householdFiles
  spawns := true
  exchange _ := .accepted
  random := some (Vector.replicate 32 0xa7)
  sessionId := 21
  deadlineSecs := 300

/-- The household once its process runs, and the human has approved a task and imported a login. -/
def household : Deployment :=
  ((Deployment.start.step .reference householdSerde 0 (.launched householdConfig (some "/run/user/0/credman.sock")
      (Platform.referencePhrases.headD "") true householdFiles 300) []).step .reference householdSerde 0
    (.message 0 approveJson (householdTurn 3) true) []).step .reference householdSerde 0
    (.message 0 importJson (householdTurn 6) true) []

theorem household_runs {allows : Deployment → Nat → Happening → Prop} (hall : ∀ d i happening, allows d i happening) :
    Deployment.Runs .reference householdSerde allows Deployment.start household :=
  ((ReflTransGen.single ⟨0, _, [], hall _ _ _, rfl⟩).tail ⟨0, _, [], hall _ _ _, rfl⟩).tail
    ⟨0, _, [], hall _ _ _, rfl⟩

theorem household_owned : ((household.fleet.stores 0).owner.any fun owner =>
    (owner.app.records.get? 6).isSome) = true := by decide +kernel

theorem plaintext_authority_household : ∃ owner, (household.fleet.stores 0).owner = some owner
    ∧ (owner.app.records.get? 6).isSome = true ∧ owner.app.Uncrossed := by
  obtain ⟨owner, howner, hrecord⟩ := (Option.any_eq_true _ _).mp household_owned
  exact ⟨owner, howner, hrecord, ((plaintext_authority Platform.reference_freshIds Platform.reference_seals
    (household_runs fun _ _ _ => trivial)).stores 0).holds owner howner⟩

/-! Where secrets come from. -/

namespace Application

variable {app next : Application} {imports : SecretInput → Prop}

/-- The secrets of a record were drawn with its identifier, imported, or are gone. -/
inductive Provenance (P : Platform) (imports : SecretInput → Prop) (i : Uuid) (r : Record) : Prop
  | generated {n : Nat} {kind : CredentialKind} {username : Option String}
      {policy : Option GenerationPolicy} {values : SecretInput} (hid : i = P.uuid n)
      (hvalues : generateValues kind username policy (P.osRng n) = .ok values)
      (hsame : ∀ f, f.secret = true → r.values.get? f = values.get? f)
  | imported {values : SecretInput} (himports : imports values)
      (hsame : ∀ f, f.secret = true → r.values.get? f = values.get? f)
  | erased (hnone : ∀ f, f.secret = true → r.values.get? f = none)

/-- Every secret of an application has its source. -/
def Provenanced (P : Platform) (imports : SecretInput → Prop) (app : Application) : Prop :=
  ∀ i r, app.records.get? i = some r → Provenance P imports i r

theorem Provenance.of_same {i : Uuid} {r r' : Record} (h : Provenance P imports i r)
    (hsame : ∀ f, f.secret = true → r'.values.get? f = r.values.get? f) : Provenance P imports i r' := by
  cases h with
  | generated hid hvalues hold => exact .generated hid hvalues fun f hf => (hsame f hf).trans (hold f hf)
  | imported himports hold => exact .imported himports fun f hf => (hsame f hf).trans (hold f hf)
  | erased hnone => exact .erased fun f hf => (hsame f hf).trans (hnone f hf)

theorem Provenanced.enclosed {n : Nat} (h : app.Provenanced P imports)
    (henclosed : Enclosed { id := P.uuid n, entropy := P.osRng n } imports app next) :
    next.Provenanced P imports := by
  intro i r' hr
  cases henclosed.secrets i r' hr with
  | kept hold hsame => exact (h i _ hold).of_same hsame
  | erased _ _ hempty => exact .erased fun f _ => by rw [hempty]; rfl
  | generated hid hvalues => exact .generated hid hvalues fun _ _ => rfl
  | imported _ himports => exact .imported himports fun _ _ => rfl

theorem Provenanced.closed {copy : Bool} (h : app.Provenanced P imports) (hclosed : Closed copy app next) :
    next.Provenanced P imports := by
  intro i r' hr
  obtain ⟨r, hold, heq⟩ := hclosed.record hr
  refine (h i r hold).of_same fun f _ => ?_
  rw [heq]

end Application

theorem keeps_provenanced {call : Call} {imports : SecretInput → Prop} (hguarded : call.Guarded)
    (himports : ∀ admin task request kind values now,
      call = .importForTask admin task request kind values now → imports values) :
    Keeps P (Provenanced P imports) 0 call where
  ran _ _ _ _ h hruns := h.enclosed (hruns.enclosed hguarded himports)
  compacted hvalid hlasting h := fun i r hr => h i r ((hlasting.compact hvalid).2.2.records i r hr)
  renumbered _ _ h := h
  recovered _ _ hclosed h := h.closed hclosed

/-- A control that is parsed has been decoded. -/
theorem AdminRequest.parse_control {value : Json} {control : AdminControl}
    (h : AdminRequest.parse S value = .ok (.control control)) : S.adminControl value = some control := by
  have hdecoded : orElse ((S.adminControl value).map AdminRequest.control) Error.invalid = .ok (.control control) →
      S.adminControl value = some control := by
    intro h
    obtain ⟨control', hdecode, heq⟩ := Option.map_eq_some_iff.mp (orElse_eq_ok.mp h)
    cases heq
    exact hdecode
  unfold AdminRequest.parse at h
  split at h
  · split_ifs at h
    · obtain ⟨request, -, heq⟩ := Option.map_eq_some_iff.mp (orElse_eq_ok.mp h)
      cases heq
    · exact hdecoded h
  · exact hdecoded h

/-- All that the administrator imports is among these values. -/
def Deployment.Imports (S : AdminSerde) (imports : SecretInput → Prop) (d : Deployment) (i : Nat)
    (happening : Happening) : Prop :=
  ∀ n value turn sent b p, happening = .message n value turn sent → d.Heard i n b p turn → p.admin = true →
    ∀ task request kind values, AdminRequest.parse S value
      = .ok (.control (.importSecret task request kind values)) → imports values

/-- An import is a message of the administrator. -/
theorem Broker.call_import {owner : DurableVault} {b : Broker} {p : Peer} {value : Json} {turn : Turn}
    {ctx : AuthenticatedContext} {task request : Uuid} {kind : CredentialKind} {values : SecretInput}
    {now : Time} (h : b.call S owner p value turn = some (.importForTask ctx task request kind values now)) :
    p.admin = true ∧ AdminRequest.parse S value
      = .ok (.control (.importSecret task request kind values)) := by
  have hwork : ∀ {work : WorkRequest} {around : Surroundings},
      work.call owner around b.config.destinations p.context
        ≠ .ok (.importForTask ctx task request kind values now) := by
    intro work around h
    cases (WorkRequest.call_eq_ok h).2
  cases Broker.call_eq_some h with
  | agent _ _ _ hcall => exact absurd hcall hwork
  | admin hadmin hparse hmade =>
    cases hmade with
    | work hcall => exact absurd hcall hwork
    | importSecret => exact ⟨hadmin, hparse⟩

/-- Wherever a secret is found, in memory, in an image or in a backup, it was drawn at random when its
record was made, or the administrator imported it: whatever agents send, none of their own gets in. -/
theorem secrets_provenance (hids : P.FreshIds) (hseals : P.Seals) (imports : SecretInput → Prop)
    (h : Deployment.Runs P S (Deployment.Imports S imports) Deployment.start d) :
    Spread P (Provenanced P imports) d.fleet := by
  have hall : ∀ {d'}, Deployment.Runs P S (Deployment.Imports S imports) Deployment.start d' →
      Deployment.Reachable P S d' := Deployment.Runs.reachable
  induction h with
  | refl => exact spread_start
  | @tail mid _ hmid hgoes ih =>
    obtain ⟨i, happening, faults, hallows, rfl⟩ := hgoes
    have hgenuine : ∀ {n : Nat} {b : Broker} {p : Peer} {turn : Turn}, mid.Heard i n b p turn →
        p.Genuine b.config := (hall hmid).sane.genuine
    have hruns : Fleet.Runs P (fun _ _ call => call.Guarded ∧ ∀ admin task request kind values now,
        call = .importForTask admin task request kind values now → imports values) mid.fleet
        (mid.step P S i happening faults).fleet := by
      refine Deployment.step_runs _ ?_ ?_ faults
      · intro fleet call hcall
        refine ⟨.of_housekeeping hcall, ?_⟩
        rintro admin task request kind values now rfl
        cases hcall
      · rintro n value turn sent b p owner call rfl hheard howner hcall
        refine ⟨Broker.guarded (hgenuine hheard) hcall, ?_⟩
        rintro admin task request kind values now rfl
        obtain ⟨hadmin, hparse⟩ := Broker.call_import hcall
        exact hallows n value turn sent b p rfl hheard hadmin task request kind values hparse
    exact ih.runs hids hseals (fun _ _ _ hcall => keeps_provenanced hcall.1 hcall.2)
      (fun _ _ h => by cases h) (fun hcopy hprepare => hcopy.closed (prepareRestored_eq_ok hprepare).2.1) hruns

theorem secrets_provenance_household : ∃ owner, (household.fleet.stores 0).owner = some owner
    ∧ (owner.app.records.get? 6).isSome = true
    ∧ owner.app.Provenanced .reference (fun values => values = sharedLogin.values) := by
  have himports : ∀ d i happening, Deployment.Imports householdSerde (fun values => values = sharedLogin.values)
      d i happening := by
    intro d i happening n value turn sent b p _ _ _ task request kind values hparse
    have hcontrol := AdminRequest.parse_control hparse
    change (match value.get? "op" with
      | some (.string "approve") => _
      | some (.string "import_secret") => _
      | some (.string "issue_session") => _
      | _ => _) = _ at hcontrol
    split at hcontrol
    · cases hcontrol
    · cases hcontrol
      rfl
    · cases hcontrol
    · cases hcontrol
  obtain ⟨owner, howner, hrecord⟩ := (Option.any_eq_true _ _).mp household_owned
  exact ⟨owner, howner, hrecord, ((secrets_provenance Platform.reference_freshIds Platform.reference_seals _
    (household_runs himports)).stores 0).holds owner howner⟩

end Credman
