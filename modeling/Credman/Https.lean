import Credman.Application
import Credman.Library.Uri
import Mathlib.Data.List.DropRight

/-! The fixed private GET consumer: what a destination is checked for, and the configuration text
its child reads. -/
namespace Credman

open Library

def maxCredential : Nat := 8192
def maxConfig : Nat := 65536

inductive Auth where
  | basic | bearer
  | header (name : String)
  | query (param : String)
  deriving DecidableEq

structure Timeouts where
  connectMs : UInt64 := 1000
  totalMs : UInt64 := 2500
  deriving DecidableEq

structure Destination where
  id : String
  service : String
  origin : String
  path : String
  auth : Auth
  caFile : Option String
  timeouts : Timeouts
  deriving DecidableEq

/-- What `symlink_metadata` tells of a path. -/
structure Metadata where
  uid : Nat
  symlink : Bool
  mode : UInt32
  isFile : Bool
  isDir : Bool
  len : UInt64

/-- The file system as this process sees it. -/
structure FileSystem where
  euid : Nat
  metadata : String → Option Metadata

def Timeouts.validate (timeouts : Timeouts) : Except Error Unit :=
  if 100 ≤ timeouts.connectMs ∧ timeouts.connectMs ≤ 10000 ∧ 500 ≤ timeouts.totalMs
      ∧ timeouts.totalMs ≤ 30000 ∧ timeouts.connectMs < timeouts.totalMs then .ok ()
  else .error .invalid

/-! The origin. `bytes()` tests that only ASCII passes are tests of the characters. -/

/-- `split_once` -/
def splitOnce (sep : Char) (text : Text) : Text × Option Text :=
  match text.dropWhile (· != sep) with
  | [] => (text, none)
  | _ :: rest => (text.takeWhile (· != sep), some rest)

def stripPrefix : Text → Text → Option Text
  | [], text => some text
  | _ :: _, [] => none
  | c :: start, d :: text => if c = d then stripPrefix start text else none

def validPort (port : Text) : Bool :=
  !port.isEmpty && decide (port.length ≤ 5) && port.all (isDigit 10)
    && decide (numberValue 10 port < 65536) && decide (numberValue 10 port ≠ 0)

def validIpv6Authority (authority : Text) : Bool :=
  match stripPrefix ['['] authority with
  | none => false
  | some rest =>
    match splitOnce ']' rest with
    | (_, none) => false
    | (addr, some after) =>
      -- zone ids are not part of the address that is dialed
      if addr.isEmpty || decide ('%' ∈ addr) then false
      else
        match Ipv6Addr.parse addr with
        | none => false
        | some ip =>
          if addr ≠ ip.toText then false
          else if after.isEmpty then true
          else
            match stripPrefix [':'] after with
            | none => false
            | some port => validPort port

/-- A label that other programs take for a number. -/
def numericLabel (label : Text) : Bool :=
  (!label.isEmpty && label.all (isDigit 10))
    || ((stripPrefix ['0', 'x'] label).or (stripPrefix ['0', 'X'] label)).any fun hex =>
      !hex.isEmpty && hex.all (isDigit 16)

def dnsLabel (label : Text) : Bool :=
  !label.isEmpty && decide (label.length ≤ 63) && label.head? != some '-' && label.getLast? != some '-'
    && label.all fun c => c.isAlphanum || c == '-'

def validHost (host : Text) : Bool :=
  if host.isEmpty || decide (253 < host.length) then false
  else
    match Ipv4Addr.parse host with
    | some ip => host == ip.toText
    | none =>
      if (host.splitOn '.').all numericLabel then false else (host.splitOn '.').all dnsLabel

def validOrigin (origin : String) : Bool :=
  if decide (512 < origin.utf8ByteSize) || !origin.toList.all (fun c => decide (c.toNat < 128)) then false
  else
    match stripPrefix "https://".toList origin.toList with
    | none => false
    | some authority =>
      if authority.head? == some '[' then validIpv6Authority authority
      else
        let (host, port) := splitOnce ':' authority
        if port.any fun port => !validPort port then false else validHost host

/-! The path. -/

def pathChar (c : Char) : Bool :=
  c.isAlphanum || decide (c ∈ "/-._~!$&'()*+,;=:@".toList)

/-- The scan over the bytes of a path. -/
def scanPath : Text → Bool
  | [] => true
  | c :: rest =>
    if c = '%' then
      match rest with
      | a :: b :: rest => isDigit 16 a && isDigit 16 b && scanPath rest
      | _ => false
    else pathChar c && scanPath rest

def validPath (path : String) : Bool :=
  if path == "" || decide (2048 < path.utf8ByteSize) || path.toList.head? != some '/'
      || (stripPrefix ['/', '/'] path.toList).isSome then false
  else scanPath path.toList

/-! The rest of a destination. -/

def isTchar (c : Char) : Bool := c.isAlphanum || decide (c ∈ "!#$%&'*+-.^_`|~".toList)

def deniedHeaders : List Text :=
  ["host", "content-length", "transfer-encoding", "connection", "cookie", "set-cookie", "keep-alive",
    "te", "trailer", "upgrade", "expect"].map String.toList

/-- `eq_ignore_ascii_case` -/
def eqIgnoreAsciiCase (a b : Text) : Bool := a.map Char.toLower == b.map Char.toLower

def deniedHeader (name : Text) : Bool :=
  (decide (6 ≤ name.length) && eqIgnoreAsciiCase (name.take 6) "proxy-".toList)
    || deniedHeaders.any (eqIgnoreAsciiCase name)

def validHeaderName (name : String) : Bool :=
  decide (1 ≤ name.utf8ByteSize ∧ name.utf8ByteSize ≤ 128) && name.toList.all isTchar
    && !deniedHeader name.toList

def validQueryParam (param : String) : Bool :=
  decide (1 ≤ param.utf8ByteSize ∧ param.utf8ByteSize ≤ 64)
    && param.toList.all fun c => c.isAlphanum || decide (c ∈ ['-', '_', '.'])

def Auth.validate : Auth → Except Error Unit
  | .basic | .bearer => .ok ()
  | .header name => if validHeaderName name then .ok () else .error .invalid
  | .query param => if validQueryParam param then .ok () else .error .invalid

/-- `char::is_control`: the general category Cc. -/
def isControl (c : Char) : Bool := decide (c.toNat < 32) || decide (127 ≤ c.toNat ∧ c.toNat ≤ 159)

/-- One component of the path to a certificate file: trusted, and no symlink. -/
def checkComponent (fs : FileSystem) (checked : String) (last : Bool) : Except Error Unit :=
  match fs.metadata checked with
  | none => .error .invalid
  | some m =>
    if m.symlink || !(m.uid == 0 || m.uid == fs.euid) || m.mode &&& 0o022 != 0 then .error .invalid
    else if (last && (!m.isFile || m.len == 0 || decide (1048576 < m.len))) || (!last && !m.isDir) then
      .error .invalid
    else .ok ()

def checkComponents (fs : FileSystem) (checked : String) : List String → Except Error Unit
  | [] => checkComponent fs checked true
  | name :: rest =>
    match checkComponent fs checked false with
    | .error e => .error e
    | .ok () =>
      if name = ".." then .error .invalid
      else checkComponents fs (if checked = "/" then checked ++ name else checked ++ "/" ++ name) rest

/-- `components()` of an absolute path passes over empty and `.` components. -/
def components (path : String) : List String :=
  ((path.toList.splitOn '/').map String.ofList).filter fun name => name != "" && name != "."

def validateCa (fs : FileSystem) (path : String) : Except Error Unit :=
  if path.toList.head? != some '/' || decide (4096 < path.utf8ByteSize) || path.toList.any isControl then
    .error .invalid
  else checkComponents fs "/" (components path)

def Destination.validate (fs : FileSystem) (d : Destination) : Except Error Unit := do
  failIf (d.id = "" ∨ 128 < d.id.utf8ByteSize
    ∨ d.id.toList.all (fun c => c.isAlphanum || decide (c ∈ ['_', '.', ':', '-'])) = false
    ∨ d.service = "" ∨ 2048 < d.service.utf8ByteSize
    ∨ d.service.toList.all (fun c => decide (0x20 ≤ c.toNat ∧ c.toNat ≤ 0x7e)) = false
    ∨ validOrigin d.origin = false ∨ validPath d.path = false) .invalid
  d.timeouts.validate
  d.auth.validate
  match d.caFile with
  | some path => validateCa fs path
  | none => pure ()

def Destination.fields (d : Destination) : Fields :=
  match d.auth with
  | .basic => {.username, .password}
  | .bearer | .header _ | .query _ => {.apiKey}

/-! The configuration text. -/

def pushEscaped (output value : String) : String :=
  value.toList.foldl (fun output c =>
    if c = '\\' ∨ c = '"' then (output.push '\\').push c else output.push c) output

def appendUrl (output origin path : String) : String :=
  pushEscaped (pushEscaped (output ++ "url = \"") origin) path ++ "\"\n"

/-- Milliseconds as decimal seconds, without trailing zeros. -/
def timeoutSeconds (ms : UInt64) : String :=
  let whole := ms.toNat / 1000
  let frac := ms.toNat % 1000
  if frac = 0 then toString whole
  else
    let padded := List.replicate (3 - (Nat.toDigits 10 frac).length) '0' ++ Nat.toDigits 10 frac
    String.ofList ((Nat.toDigits 10 whole ++ '.' :: padded).rdropWhile (· == '0'))

def appendTimeouts (output : String) (timeouts : Timeouts) : String :=
  output ++ "connect-timeout = \"" ++ timeoutSeconds timeouts.connectMs ++ "\"\nmax-time = \""
    ++ timeoutSeconds timeouts.totalMs ++ "\"\n"

def validPrivateAscii (value : String) : Bool :=
  value != "" && decide (value.utf8ByteSize ≤ maxCredential)
    && value.toList.all fun c => decide (0x20 ≤ c.toNat ∧ c.toNat ≤ 0x7e)

def validBasic (value : String) : Bool :=
  value != "" && decide (value.utf8ByteSize ≤ maxCredential) && !value.toList.any isControl

def validBearer (value : String) : Bool :=
  if value == "" || decide (maxCredential < value.utf8ByteSize) then false
  else
    let token := value.toList.rdropWhile (· == '=')
    !token.isEmpty && token.all fun c => c.isAlphanum || decide (c ∈ "-._~+/".toList)

/-- `values.get(&field).ok_or(Error::Invalid)` -/
def credential (values : SecretInput) (field : Field) : Except Error String :=
  orElse (values.get? field) .invalid

def appendAuth (output : String) (auth : Auth) (values : SecretInput) : Except Error String := do
  let output ← match auth with
    | .basic => do
      failIf (values.size ≠ 2) .invalid
      let username ← credential values .username
      let password ← credential values .password
      failIf (validBasic username = false ∨ ':' ∈ username.toList ∨ validBasic password = false) .invalid
      pure (pushEscaped ((pushEscaped (output ++ "user = \"") username).push ':') password ++ "\"\n")
    | .bearer => do
      failIf (values.size ≠ 1) .invalid
      let token ← credential values .apiKey
      failIf (validBearer token = false) .invalid
      pure (pushEscaped (output ++ "header = \"Authorization: Bearer ") token ++ "\"\n")
    | .header name => do
      failIf (values.size ≠ 1) .invalid
      let token ← credential values .apiKey
      failIf (validHeaderName name = false ∨ validPrivateAscii token = false) .invalid
      pure (pushEscaped (pushEscaped (output ++ "header = \"") name ++ ": ") token ++ "\"\n")
    | .query param => do
      failIf (values.size ≠ 1) .invalid
      let token ← credential values .apiKey
      failIf (validQueryParam param = false ∨ validPrivateAscii token = false) .invalid
      pure (pushEscaped ((pushEscaped (output ++ "data-urlencode = \"") param).push '=') token
        ++ "\"\nget\n")
  failIf (maxConfig < output.utf8ByteSize) .invalid
  pure output

/-- What `prepare` has ready before the credentials come. -/
def Destination.configPrefix (d : Destination) : String :=
  let text := appendTimeouts (appendUrl "" d.origin d.path) d.timeouts
  match d.caFile with
  | some path => pushEscaped (text ++ "cacert = \"") path ++ "\"\n"
  | none => text

/-- The text the child is handed by `deliver`, once `prepare` has accepted the destination. -/
def Destination.configuration (fs : FileSystem) (d : Destination) (values : SecretInput) :
    Except Error String := do
  d.validate fs
  appendAuth d.configPrefix d.auth values

end Credman
