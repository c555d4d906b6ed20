import Credman.Channel
import Credman.Dispatch

/-! What the owner answers a workload: receipts, nonsecret views and fixed
messages. -/
namespace Credman

open Library

def Error.text : Error → String
  | .denied => "access denied"
  | .invalid => "invalid request"
  | .conflict => "revision conflict"
  | .replayConflict => "request identifier reused with different input"
  | .clockRecoveryRequired => "trusted clock recovery required"
  | .capacity => "capacity reached"
  | .interactionRequired => "private delivery unavailable"
  | .generationUnavailable => "private credential generation unavailable"
  | .notPublished => "storage publication did not occur"
  | .recoveryRequired => "validated storage recovery required"
  | .invalidStorage => "invalid encrypted agent vault"
  | .inUse => "agent vault is in use"

def failure (e : Error) : Json := .obj [("ok", .bool false), ("error", .string e.text)]

def hexDigit (n : Nat) : Char := Char.ofNat (if n < 10 then 48 + n else 87 + n)

/-- `Uuid`, hyphenated: 8, 4, 4, 4 and 12 hexadecimal digits. -/
def Uuid.text (id : Uuid) : String :=
  let digits := (List.range 32).map fun i => hexDigit (id / 16 ^ (31 - i) % 16)
  String.ofList (digits.take 8 ++ ['-'] ++ (digits.drop 8).take 4 ++ ['-'] ++ (digits.drop 12).take 4
    ++ ['-'] ++ (digits.drop 16).take 4 ++ ['-'] ++ digits.drop 20)

def Field.text : Field → String
  | .label => "Label"
  | .username => "Username"
  | .password => "Password"
  | .apiKey => "ApiKey"
  | .notes => "Notes"

def SignupState.text : SignupState → String
  | .pending => "Pending"
  | .submitted => "Submitted"
  | .reportedSuccess => "ReportedSuccess"
  | .verifiedLogin => "VerifiedLogin"
  | .rejected => "Rejected"
  | .humanRequired => "HumanRequired"
  | .unknown => "Unknown"

def DeliveryStatus.text : DeliveryStatus → String
  | .accepted => "Accepted"
  | .rejected => "Rejected"
  | .humanRequired => "HumanRequired"
  | .unknown => "Unknown"

def Receipt.json (r : Receipt) : Json :=
  .obj [("record", .string r.record.text), ("revision", .number (.posInt r.revision)),
    ("grant", match r.grant with
      | some grant => .string grant.text
      | none => .null)]

def DeliveryReceipt.json (r : DeliveryReceipt) : Json :=
  .obj [("attempt", .string r.attempt.text), ("status", .string r.status.text)]

/-- What `work` returns for a request that succeeds. -/
inductive WorkReply where
  | receipt (r : Receipt)
  | metadata (view : MetadataView)
  | delivered (r : DeliveryReceipt)

def WorkReply.json : WorkReply → Json
  | .receipt r => .obj [("ok", .bool true), ("receipt", r.json)]
  | .metadata view =>
    .obj [("ok", .bool true), ("revision", .number (.posInt view.revision)),
      ("signup", .string view.signup.text),
      ("fields", .obj (view.fields.entries.map fun e => (e.1.text, .string e.2)))]
  | .delivered r => .obj [("ok", .bool true), ("receipt", r.json)]

section Answer

variable {O : Type} (S : Serde) (work : WorkRequest → O → Except Error WorkReply × O)

/-- Local response rejection must not poison an otherwise healthy capability. -/
def bounded (response : Json) : Json :=
  if fitsFrame S.toSerdeJson response = true then response else failure .capacity

/-- The run loop on what a workload sent. `work` is the vault's, for this peer's context and
session. -/
def answer (value : Json) (owner : O) : Json × O :=
  match S.workRequest value with
  | none => (bounded S (failure .invalid), owner)
  | some request =>
    let (result, owner') := work request owner
    (bounded S (match result with
      | .ok reply => reply.json
      | .error e => failure e), owner')

theorem plain_failure (e : Error) : (failure e).Plain := Json.plain_obj (by simp)

theorem Receipt.plain_json (r : Receipt) : r.json.Plain := by
  apply Json.plain_obj
  cases r.grant <;> simp

theorem DeliveryReceipt.plain_json (r : DeliveryReceipt) : r.json.Plain := Json.plain_obj (by simp)

theorem WorkReply.plain_json (reply : WorkReply) : reply.json.Plain := by
  cases reply with
  | receipt r => exact Json.plain_obj (by simp [r.plain_json])
  | delivered r => exact Json.plain_obj (by simp [r.plain_json])
  | metadata view =>
    have hfields : (Json.obj (view.fields.entries.map fun e => (e.1.text, .string e.2))).Plain :=
      Json.plain_obj (List.forall_mem_map.mpr fun e _ => Json.plain_string e.2)
    exact Json.plain_obj (by simp [hfields])

theorem plain_bounded {response : Json} (h : response.Plain) : (bounded S response).Plain := by
  unfold bounded
  split
  · exact h
  · exact plain_failure _

/-- Whatever a workload sent, its answer can be read back. -/
theorem plain_answer (value : Json) (owner : O) : (answer S work value owner).1.Plain := by
  unfold answer
  split
  · exact plain_bounded S (plain_failure _)
  · apply plain_bounded
    split
    · exact WorkReply.plain_json _
    · exact plain_failure _

end Answer

end Credman
