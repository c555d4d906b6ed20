import Credman.Framing

/-! Model-facing credential references and private delivery: the frontend's
JSON-RPC dispatch. No plaintext secret reads. -/
namespace Credman

open Library

/-- What a workload may ask the broker for. -/
inductive WorkRequest where
  | generate (task request : Uuid) (kind : CredentialKind) (username : Option String)
      (policy : Option GenerationPolicy)
  | mutate (task request : Uuid) (mutation : Mutation)
  | metadata (task record : Uuid) (fields : Fields)
  | use (task : Uuid) (usage : PrivateUse)

/-- serde_json, and the decoder serde derives for `WorkRequest`. -/
structure Serde extends SerdeJson where
  workRequest : Json → Option WorkRequest

namespace Mcp

inductive State where
  | initializing | initialized | ready
  deriving DecidableEq, Repr

abbrev Members := List (String × Json)

def get? (object : Members) (key : String) : Option Json := OrdMap.lookup key object

def containsKey (object : Members) (key : String) : Bool := (get? object key).isSome

structure ClientInfo where
  name : String
  version : String

/-- Fields it does not know are ignored; an array gives the fields in order. -/
def ClientInfo.decode : Json → Option ClientInfo
  | .object object =>
    match get? object "name", get? object "version" with
    | some (.string name), some (.string version) => some { name, version }
    | _, _ => none
  | .array [.string name, .string version] => some { name, version }
  | _ => none

structure Initialize where
  protocolVersion : String
  capabilities : Members
  clientInfo : ClientInfo

/-- The keys serde accepts where `deny_unknown_fields` is set. -/
def knownOnly (object : Members) (known : List String) : Bool :=
  object.all fun m => known.contains m.1

def Initialize.decode : Json → Option Initialize
  | .object object =>
    if knownOnly object ["protocolVersion", "capabilities", "clientInfo"] then
      match get? object "protocolVersion", get? object "capabilities",
          (get? object "clientInfo").bind ClientInfo.decode with
      | some (.string protocolVersion), some (.object capabilities), some clientInfo =>
        some { protocolVersion, capabilities, clientInfo }
      | _, _, _ => none
    else none
  | .array [.string protocolVersion, .object capabilities, clientInfo] =>
    (ClientInfo.decode clientInfo).map fun clientInfo =>
      { protocolVersion, capabilities, clientInfo }
  | _ => none

structure Call where
  name : String
  arguments : Members

def Call.decode : Json → Option Call
  | .object object =>
    if knownOnly object ["name", "arguments"] then
      match get? object "name", get? object "arguments" with
      | some (.string name), some (.object arguments) => some { name, arguments }
      | _, _ => none
    else none
  | .array [.string name, .object arguments] => some { name, arguments }
  | _ => none

def int (n : Int64) : Json := .number (if h : n < 0 then .negInt n h else .posInt n.toUInt64)

def error (id : Json) (code : Int64) (message : String) : Json :=
  .obj [("jsonrpc", .string "2.0"), ("id", id),
    ("error", .obj [("code", int code), ("message", .string message)])]

def result (id value : Json) : Json :=
  .obj [("jsonrpc", .string "2.0"), ("id", id), ("result", value)]

def empty (params : Option Json) : Bool :=
  match params with
  | none => true
  | some (.object object) => object.isEmpty
  | some _ => false

def firstPage (params : Option Json) : Bool :=
  match params with
  | none => true
  | some (.object object) => object.all (fun m => m.1 == "cursor") &&
    match get? object "cursor" with
    | none | some .null => true
    | some _ => false
  | some _ => false

/-- `as_str().is_some_and(|s| s.len() <= 256) || as_i64().is_some() || as_u64().is_some()`. -/
def validId : Json → Bool
  | .string s => decide (s.utf8ByteSize ≤ 256)
  | .number (.posInt _) | .number (.negInt ..) => true
  | _ => false

def isObject : Json → Bool
  | .object _ => true
  | _ => false

/-- The `method` of an envelope, where it is a string. -/
def methodOf (object : Members) : Option String :=
  match get? object "method" with
  | some (.string s) => some s
  | _ => none

def validEnvelope (object : Members) : Bool :=
  (match get? object "jsonrpc" with
    | some (.string version) => version == "2.0"
    | _ => false)
  && (!containsKey object "id" || validId ((get? object "id").getD .null))
  && (match methodOf object with
    | some s => s != "" && decide (s.utf8ByteSize ≤ 128)
    | none => false)
  && knownOnly object ["jsonrpc", "id", "method", "params"]
  && (match get? object "params" with
    | none => true
    | some params => isObject params)

/-- The parameters without their `_meta`, and that. -/
def takeMeta (params : Option Json) : Option Json × Option Json :=
  match params with
  | some (.object object) =>
    (some (.object (object.filter fun m => m.1 != "_meta")), get? object "_meta")
  | params => (params, none)

def validMeta : Json → Bool
  | .object object =>
    match get? object "progressToken" with
    | none | some (.string _) | some (.number _) => true
    | some _ => false
  | _ => false

def operation : String → Option String
  | "credman_generate" => some "generate"
  | "credman_mutate" => some "mutate"
  | "credman_metadata" => some "metadata"
  | "credman_use" => some "use"
  | _ => none

/-- The operation is fixed by the tool name. It cannot be supplied through arguments. -/
def workRequest (S : Serde) (call : Call) : Option Json :=
  match operation call.name with
  | none => none
  | some op =>
    if containsKey call.arguments "op" then none
    else
      let value := Json.object (OrdMap.insertEntry "op" (.string op) call.arguments)
      (S.workRequest value).map fun _ => value

def wellFormed (p : Initialize) : Bool :=
  p.protocolVersion != "" && decide (p.protocolVersion.utf8ByteSize ≤ 128)
    && p.clientInfo.name != "" && decide (p.clientInfo.name.utf8ByteSize ≤ 2048)
    && decide (p.clientInfo.version.utf8ByteSize ≤ 2048)

/-! The tools and their input schemas. -/

def strs (values : List String) : Json := .array (values.map .string)

def num (n : UInt64) : Json := .number (.posInt n)

def schemaObject (properties : Json) (required : List String) : Json :=
  .obj [("type", .string "object"), ("properties", properties), ("required", strs required),
    ("additionalProperties", .bool false)]

def uuidSchema : Json := .obj [("type", .string "string"), ("format", .string "uuid")]

def fieldsSchema (fields : List String) : Json :=
  .obj [("type", .string "array"), ("items", .obj [("enum", strs fields)]),
    ("uniqueItems", .bool true), ("minItems", num 1), ("maxItems", num (UInt64.ofNat fields.length))]

def textSchema : Json := .obj [("type", .string "string"), ("maxLength", num 8192)]

def valuesSchema : Json :=
  .obj [("type", .string "object"), ("properties", .obj [("Label", textSchema),
      ("Username", textSchema), ("Notes", textSchema)]), ("required", strs []),
    ("additionalProperties", .bool false), ("minProperties", num 1)]

def allFields : Json := fieldsSchema ["Label", "Username", "Password", "ApiKey", "Notes"]

def setOf (items : Json) : Json :=
  .obj [("type", .string "array"), ("items", items), ("uniqueItems", .bool true)]

def grantSchema : Json :=
  schemaObject (.obj [("recipient", .obj [("type", .string "string")]), ("fields", allFields),
    ("permissions", setOf (.obj [("enum", strs ["MetadataRead", "SecretUse", "SecretWrite",
      "AccessGrant", "EntryDelete"])])),
    ("destinations", setOf (.obj [("type", .string "string")])),
    ("expires_at", .obj [("type", .string "integer")]),
    ("follow_active", .obj [("type", .string "boolean")])])
    ["recipient", "fields", "permissions", "destinations", "expires_at", "follow_active"]

def expectedSchema : Json :=
  .obj [("type", .string "integer"), ("minimum", num 0), ("maximum", num 18446744073709551615)]

def mutationSchemas : List Json :=
  [("Patch", schemaObject (.obj [("record", uuidSchema), ("expected", expectedSchema),
      ("values", valuesSchema)]) ["record", "expected", "values"]),
    ("Delete", schemaObject (.obj [("record", uuidSchema), ("expected", expectedSchema)])
      ["record", "expected"]),
    ("Share", schemaObject (.obj [("record", uuidSchema), ("expected", expectedSchema),
      ("grant", grantSchema)]) ["record", "expected", "grant"]),
    ("Revoke", schemaObject (.obj [("record", uuidSchema), ("expected", expectedSchema),
      ("grant", uuidSchema)]) ["record", "expected", "grant"]),
    ("ReportOutcome", schemaObject (.obj [("record", uuidSchema), ("expected", expectedSchema),
      ("state", .obj [("enum", strs ["Pending", "Submitted", "ReportedSuccess", "Rejected",
        "HumanRequired", "Unknown"])])]) ["record", "expected", "state"])].map
    fun (name, schema) => schemaObject (.obj [(name, schema)]) [name]

def mutateSchema : Json :=
  schemaObject (.obj [("task", uuidSchema), ("request", uuidSchema),
    ("mutation", .obj [("oneOf", .array mutationSchemas)])]) ["task", "request", "mutation"]

def metadataSchema : Json :=
  schemaObject (.obj [("task", uuidSchema), ("record", uuidSchema),
    ("fields", fieldsSchema ["Label", "Username", "Notes"])]) ["task", "record", "fields"]

def policySchema : Json :=
  schemaObject (.obj [("length", .obj [("type", .string "integer"), ("minimum", num 16),
      ("maximum", num 128)]), ("symbols", .obj [("type", .string "boolean")]),
    ("require_classes", .obj [("type", .string "boolean")])])
    ["length", "symbols", "require_classes"]

def generateSchema : Json :=
  .obj [("type", .string "object"),
    ("properties", .obj [("task", uuidSchema), ("request", uuidSchema),
      ("kind", .obj [("enum", strs ["Login", "ApiKey"])]),
      ("username", .obj [("type", .string "string"), ("minLength", num 1), ("maxLength", num 2048)]),
      ("policy", policySchema)]),
    ("required", strs ["task", "request", "kind"]), ("additionalProperties", .bool false),
    ("oneOf", .array [
      .obj [("properties", .obj [("kind", .obj [("const", .string "Login")])]),
        ("required", strs ["username"])],
      .obj [("properties", .obj [("kind", .obj [("const", .string "ApiKey")])]),
        ("not", .obj [("required", strs ["username"])])]])]

def useSchema : Json :=
  schemaObject (.obj [("task", uuidSchema), ("usage", schemaObject (.obj [("request", uuidSchema),
      ("record", uuidSchema), ("fields", allFields), ("destination", .obj [("type", .string "string")]),
      ("action", .obj [("enum", strs ["Use"])])])
      ["request", "record", "fields", "destination", "action"])]) ["task", "usage"]

def tool (name description : String) (inputSchema : Json) : Json :=
  .obj [("name", .string name), ("description", .string description), ("inputSchema", inputSchema)]

def tools : Json := .array [
  tool "credman_generate" "Privately generate a Login password with the supplied username, or an ApiKey without username. Returns only an idempotent record receipt, never the generated secret." generateSchema,
  tool "credman_mutate" "Apply approved metadata-only patches, bounded sharing/revocation, deletion, or outcome reports. Plaintext Create, secret patches and SecretRead grants are forbidden. Does not register accounts or contact services." mutateSchema,
  tool "credman_metadata" "Read approved nonsecret record fields." metadataSchema,
  tool "credman_use" "Privately authenticate a fixed HTTPS GET to a human-configured destination ID. Fields must exactly match that destination. Returns a delivery receipt only. HTTP acceptance is not verified login or account registration." useSchema]

/-! One message of the client. -/

def invalidRequest (id : Json) : Json := error id (-32600) "Invalid Request"

def invalidParams (id : Json) : Json := error id (-32602) "Invalid params"

def instructions : String := "Trusted supervisor session identity applies to this entire process. Generate credentials privately and share scoped record references. Secrets cannot be read through MCP. Private use is limited to human-configured HTTPS GET destinations, not registration or verified login."

def initializeResult (p : Initialize) : Json :=
  .obj [("protocolVersion",
      .string (if p.protocolVersion = "2024-11-05" then "2024-11-05" else "2025-11-25")),
    ("capabilities", .obj [("tools", .obj [])]),
    ("serverInfo", .obj [("name", .string "credman"), ("version", .string "0.1.0")]),
    ("instructions", .string instructions)]

/-- A lost reply may follow a committed mutation. -/
def unavailable : Json :=
  .obj [("ok", .bool false), ("error", .string "owner transport unavailable"),
    ("outcome", .string "unknown")]

def tooLarge : Json := .obj [("ok", .bool false), ("error", .string "invalid request")]

def callResult (S : Serde) (response : Json) : Json :=
  let text := (String.fromUTF8? ⟨(S.text response).toArray⟩).getD "\x7b\"ok\":false\x7d"
  .obj [("content", .array [.obj [("type", .string "text"), ("text", .string text)]]),
    ("isError", .bool (match response.get? "ok" with
      | some (.bool ok) => !ok
      | _ => true)),
    ("structuredContent", response)]

section Dispatch

variable {σ : Type} (S : Serde) (exchange : Json → EStateM ChannelError σ Json)

/-- `channel.send(&request).and_then(|()| channel.receive())`, once and never again. -/
def forward (request : Json) (channel : σ) : Json × σ :=
  if fitsFrame S.toSerdeJson request = false then (tooLarge, channel)
  else
    match exchange request channel with
    | .ok response channel' => (response, channel')
    | .error _ channel' => (unavailable, channel')

/-- The request of a valid envelope, its `_meta` taken off. -/
def request (method : String) (id : Json) (params : Option Json) (state : State) (channel : σ) :
    Json × State × σ :=
  if method = "ping" ∧ empty params = true then (result id (.obj []), state, channel)
  else if method = "initialize" ∧ state = .initializing then
    match params.bind Initialize.decode with
    | some p =>
      if wellFormed p = true then (result id (initializeResult p), .initialized, channel)
      else (invalidParams id, state, channel)
    | none => (invalidParams id, state, channel)
  else if method = "tools/list" ∧ state = .ready ∧ firstPage params = true then
    (result id (.obj [("tools", tools)]), state, channel)
  else if method = "tools/call" ∧ state = .ready then
    match (params.bind Call.decode).bind (workRequest S) with
    | some request =>
      let (response, channel') := forward S exchange request channel
      (result id (callResult S response), state, channel')
    | none => (invalidParams id, state, channel)
  else if method ∈ ["initialize", "tools/list", "tools/call", "ping"] then
    (invalidParams id, state, channel)
  else (error id (-32601) "Method not found", state, channel)

def dispatch (value : Json) (state : State) (channel : σ) : Option Json × State × σ :=
  match value with
  | .object object =>
    let notification := !containsKey object "id"
    let id := (get? object "id").getD .null
    match validEnvelope object, methodOf object with
    | true, some method =>
      let (params, taken) := takeMeta (get? object "params")
      if taken.any (fun m => !validMeta m) then
        (if notification then none else some (invalidParams id), state, channel)
      else if notification then
        (none, if method = "notifications/initialized" ∧ state = .initialized ∧ empty params = true then
            .ready else state, channel)
      else
        let (response, state', channel') := request S exchange method id params state channel
        (some response, state', channel')
    | _, _ => (if notification then none else some (invalidRequest .null), state, channel)
  | _ => (some (invalidRequest .null), state, channel)

end Dispatch

end Mcp

end Credman
