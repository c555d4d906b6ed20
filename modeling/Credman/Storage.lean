import Credman.Snapshot
import Credman.Library.Crash

/-! Sealed images and the durable owner. An uncleared pending intent is an
explicit recovery gate, never automatic replay permission. -/
namespace Credman

open Library

def magic : Bytes := "CMAGENT2".toUTF8.toList
def intentMagic : Bytes := "CMPEND02".toUTF8.toList
def maxImage : Nat := 32 * 1024 * 1024
def headerV2 : UInt32 := 2
def headerV3 : UInt32 := 3

/-- The clock high-water is persisted at least this often. -/
def clockPersistInterval : Time := 60

/-- The names the store uses in its directory; temporaries carry a fresh identifier. -/
inductive FileName where
  | state | pending | recovery
  | candidate (id : Uuid) | rekeyAdopt (id : Uuid) | recoveryPlan (id : Uuid) | recovered (id : Uuid)
  deriving DecidableEq, Repr

namespace KdfParams

def current : KdfParams := { mKib := 64 * 1024, tCost := 3, pCost := 1 }

/-- `p_cost.saturating_mul(8)` cannot saturate once `p_cost` is at most 16. -/
def validated (mKib tCost pCost : UInt32) : Except Error KdfParams :=
  if mKib < 19 * 1024 || 1024 * 1024 < mKib || tCost < 1 || 100 < tCost
      || pCost < 1 || 16 < pCost || mKib < pCost * 8 then
    .error .invalidStorage
  else .ok { mKib, tCost, pCost }

end KdfParams

/-- Unicode `White_Space`, on which `split_whitespace` splits. -/
def isWhitespace (c : Char) : Bool :=
  let n := c.toNat
  (9 ≤ n && n ≤ 13) || n == 0x20 || n == 0x85 || n == 0xA0 || n == 0x1680
    || (0x2000 ≤ n && n ≤ 0x200A) || n == 0x2028 || n == 0x2029 || n == 0x202F
    || n == 0x205F || n == 0x3000

def normalizeMnemonic (phrase : String) : String :=
  String.ofList
    (List.intercalate [' '] ((phrase.toList.splitOnP isWhitespace).filter (!·.isEmpty)))

def deriveKey (P : Platform) (mnemonic : String) (salt : Salt) (kdf : KdfParams) :
    Except Error VaultKey :=
  if P.validMnemonic mnemonic then
    orElse (P.argon2 (normalizeMnemonic mnemonic).toUTF8.toList salt kdf) .invalidStorage
  else .error .invalidStorage

def imageHeader (version : UInt32) (kdf : KdfParams) (salt : Salt) : Bytes :=
  magic ++ Word.beBytes 4 version.toNat ++ Word.beBytes 4 kdf.mKib.toNat
    ++ Word.beBytes 4 kdf.tCost.toNat ++ Word.beBytes 4 kdf.pCost.toNat ++ salt.toList

/-- Version 3 binds the header as associated data; version 2 binds nothing. -/
def sealVersion (P : Platform) (plaintext : Bytes) (key : VaultKey) (salt : Salt)
    (kdf : KdfParams) (nonce : Nonce) (version : UInt32) : Except Error Bytes :=
  if maxPlaintext < plaintext.length then .error .capacity
  else
    let header := imageHeader version kdf salt
    let aad := if headerV3 ≤ version then header else []
    let ciphertext := P.encrypt key nonce plaintext aad
    .ok (header ++ nonce.toList ++ Word.beBytes 8 ciphertext.length ++ ciphertext)

def sealImage (P : Platform) (app : Application) (key : VaultKey) (salt : Salt)
    (kdf : KdfParams) (nonce : Nonce) : Except Error Bytes := do
  let plaintext ← app.encode P
  sealVersion P plaintext key salt kdf nonce headerV3

structure Unsealed where
  app : Application
  key : VaultKey
  salt : Salt
  kdf : KdfParams

/-- `read_exact` of `n` bytes from the cursor. -/
def takeBytes (n : Nat) (reader : Bytes) : Except Error (Bytes × Bytes) :=
  if reader.length < n then .error .invalidStorage else .ok (reader.take n, reader.drop n)

def vectorOf (n : Nat) (bytes : Bytes) : Vector UInt8 n := Vector.ofFn fun i => bytes.getD i 0

def unsealImage (P : Platform) (image : Bytes) (mnemonic : String) : Except Error Unsealed := do
  failIf (maxImage < image.length) .invalidStorage
  let (found, reader) ← takeBytes 8 image
  failIf (found != magic) .invalidStorage
  let (word, reader) ← takeBytes 4 reader
  let version := UInt32.ofNat (Word.ofBeBytes word)
  failIf (version != headerV2 && version != headerV3) .invalidStorage
  let (mKib, reader) ← takeBytes 4 reader
  let (tCost, reader) ← takeBytes 4 reader
  let (pCost, reader) ← takeBytes 4 reader
  let kdf ← KdfParams.validated (UInt32.ofNat (Word.ofBeBytes mKib))
    (UInt32.ofNat (Word.ofBeBytes tCost)) (UInt32.ofNat (Word.ofBeBytes pCost))
  let (saltBytes, reader) ← takeBytes 16 reader
  let salt : Salt := vectorOf 16 saltBytes
  let headerLen := image.length - reader.length
  let aad := if version == headerV3 then image.take headerLen else []
  let (nonceBytes, reader) ← takeBytes 12 reader
  let (length, reader) ← takeBytes 8 reader
  failIf (Word.ofBeBytes length != reader.length) .invalidStorage
  let key ← deriveKey P mnemonic salt kdf
  let plaintext ← required (P.decrypt key (vectorOf 12 nonceBytes) reader aad)
  let app ← Application.decode P plaintext
  pure { app, key, salt, kdf }

structure Store where
  key : VaultKey
  salt : Salt
  kdf : KdfParams
  currentImage : Option Bytes
  blocked : Bool
  persistedLastTime : Option Time
  persistedFrozen : Bool

structure DurableVault where
  app : Application
  store : Store
  frozen : Bool

inductive Publication where
  | notPublished | durable | unknown
  deriving DecidableEq, Repr

/-- One run of the delivery callback, with what it was given and what the
owner's memory and `state.v2` were at that moment. -/
structure Handoff where
  ctx : AuthenticatedContext
  task : Uuid
  request : PrivateUse
  attempt : Uuid
  values : SecretInput
  sampled : Time
  effective : Time
  app : Application
  image : Option Bytes

def Handoff.key (h : Handoff) : RequestKey :=
  { owner := h.ctx.owner, principal := h.ctx.principal, task := h.task, id := h.request.request }

/-- What a process keeps besides files: its place in the random sources, and
the callbacks it has run. -/
structure Session where
  drawn : Nat
  handoffs : List Handoff

abbrev VaultMachine := Machine FileName Session
abbrev VaultIo := FileM FileName Session

/-- Straight-line file code with `?`. -/
abbrev VaultM := ExceptT Error VaultIo

/-- One draw from the random sources; every draw has its own index. -/
def drawIndex : VaultIo Nat := do
  let n := (← get).rest.drawn
  modify fun m => { m with rest := { m.rest with drawn := n + 1 } }
  pure n

def gateExists (name : FileName) : VaultIo (Except Error Bool) := do
  match ← FileM.read name with
  | some found => pure (.ok found.isSome)
  | none => pure (.error .recoveryRequired)

def pendingExists : VaultIo (Except Error Bool) := do
  match ← gateExists .pending with
  | .error e => pure (.error e)
  | .ok true => pure (.ok true)
  | .ok false => gateExists .recovery

def readImage (name : FileName) : VaultIo (Except Error (Option Bytes)) := do
  match ← FileM.read name with
  | none => pure (.error .invalidStorage)
  | some none => pure (.ok none)
  | some (some bytes) =>
    if maxImage < bytes.length then pure (.error .invalidStorage) else pure (.ok (some bytes))

/-- A gate file: both images behind a magic and two lengths. -/
def gateBytes (previous next : Bytes) : Bytes :=
  intentMagic ++ Word.beBytes 8 previous.length ++ Word.beBytes 8 next.length ++ previous ++ next

/-- Create a file and write it whole, stopping at the first error. The
consecutive writes of one file are one write that may tear anywhere. -/
def writeNew (name : FileName) (bytes : Bytes) : VaultIo Bool := do
  if !(← FileM.create name) then return false
  if !(← FileM.write name bytes) then return false
  FileM.sync

def writeIntent (previous image : Bytes) : VaultIo Bool := do
  if !(← writeNew .pending (gateBytes previous image)) then return false
  FileM.sync

namespace Store

def publishWith (P : Platform) (store : Store) (app : Application) (key : VaultKey) (salt : Salt)
    (kdf : KdfParams) : VaultIo (Store × Publication) := do
  if store.blocked then return ({ store with blocked := true }, .unknown)
  match ← pendingExists with
  | .ok false =>
    let nonce := P.nonce (← drawIndex)
    match sealImage P app key salt kdf nonce with
    | .error _ => return (store, .notPublished)
    | .ok image =>
      let temp := FileName.candidate (P.uuid (← drawIndex))
      if !(← writeNew temp image) then
        let _ ← FileM.unlink temp
        return (store, .notPublished)
      if !(← writeIntent (store.currentImage.getD []) image) then
        return ({ store with blocked := true }, .unknown)
      -- A rename error is not assumed to leave the old path unchanged.
      if !(← FileM.rename temp .state store.currentImage.isNone) then
        return ({ store with blocked := true }, .unknown)
      if !(← FileM.sync) then return ({ store with blocked := true }, .unknown)
      let store := { store with
        currentImage := some image, key, salt, kdf
        persistedLastTime := app.lastTime, persistedFrozen := app.clockFrozen }
      -- The main image is durable; a retained intent still gates a restart.
      if !(← FileM.unlink .pending) then return ({ store with blocked := true }, .durable)
      if !(← FileM.sync) then return ({ store with blocked := true }, .durable)
      return (store, .durable)
  | _ => return ({ store with blocked := true }, .unknown)

def publish (P : Platform) (store : Store) (app : Application) : VaultIo (Store × Publication) :=
  publishWith P store app store.key store.salt store.kdf

/-- `Store::acquire` once the directory is open and locked. -/
def acquire : VaultM Unit := do
  failIf (← ExceptT.mk pendingExists) .recoveryRequired

end Store

/-- The empty application of a created vault. -/
def Application.created : Application := { generation := 1 }

namespace DurableVault

def createFromApp (P : Platform) (mnemonic : String) (app : Application) : VaultM DurableVault := do
  let _ ← ExceptT.mk (pure (app.encode P))
  Store.acquire
  failIf ((← ExceptT.mk (readImage .state)).isSome) .conflict
  let salt := P.salt (← drawIndex)
  let kdf := KdfParams.current
  let key ← ExceptT.mk (pure (deriveKey P mnemonic salt kdf))
  let store : Store := { key, salt, kdf, currentImage := none, blocked := false
                         persistedLastTime := none, persistedFrozen := false }
  match ← store.publish P app with
  | (store, .durable) => pure { app, store, frozen := store.blocked }
  | (_, .notPublished) => throw .notPublished
  | (_, .unknown) => throw .recoveryRequired

def create (P : Platform) (mnemonic : String) : VaultM DurableVault :=
  createFromApp P mnemonic Application.created

def «open» (P : Platform) (mnemonic : String) : VaultM DurableVault := do
  Store.acquire
  let image ← ExceptT.mk (pure (required (← ExceptT.mk (readImage .state))))
  let u ← ExceptT.mk (pure (unsealImage P image mnemonic))
  failIf (u.app.deliveries.any fun _ attempt => attempt.status.isNone) .recoveryRequired
  pure { app := u.app, frozen := false, store := {
    key := u.key, salt := u.salt, kdf := u.kdf, currentImage := some image, blocked := false
    persistedLastTime := u.app.lastTime, persistedFrozen := u.app.clockFrozen } }

def ready (owner : DurableVault) : Except Error Unit :=
  if owner.frozen || owner.store.blocked then .error .recoveryRequired else .ok ()

def due (persisted candidate : Option Time) : Bool :=
  match persisted, candidate with
  | some base, some now => decide (clockPersistInterval ≤ now.saturatingSub base)
  | none, some _ | some _, none => true
  | none, none => false

/-- What `commit` decides before it touches a file: `none` keeps the new clock
in memory only, `some` is the candidate to publish. -/
def stage (P : Platform) (owner : DurableVault) (candidate : Application) :
    Except Error (Option Application) := do
  owner.ready
  let clockOnly ← Application.clockOnlyDifference P owner.app candidate
  if clockOnly && !due owner.store.persistedLastTime candidate.lastTime
      && candidate.clockFrozen == owner.store.persistedFrozen then
    return none
  failIf (owner.app.generation == maxU64) .capacity
  let candidate := { candidate with generation := owner.app.generation + 1 }
  -- Invalid staging must fail before any file operation.
  candidate.validate P
  return some candidate

def commit (P : Platform) (owner : DurableVault) (candidate : Application) :
    VaultIo (DurableVault × Except Error Unit) := do
  match owner.stage P candidate with
  | .error e => pure (owner, .error e)
  | .ok none =>
    pure ({ owner with app := { owner.app with lastTime := candidate.lastTime } }, .ok ())
  | .ok (some candidate) =>
    match ← owner.store.publish P candidate with
    | (store, .notPublished) => pure ({ owner with store }, .error .notPublished)
    | (store, .unknown) => pure ({ owner with store, frozen := true }, .error .recoveryRequired)
    | (store, .durable) => pure ({ app := candidate, store, frozen := store.blocked }, .ok ())

/-- The staged copy an operation starts from. -/
def staged (owner : DurableVault) : Application :=
  if owner.app.shouldCompact then owner.app.compact else owner.app

def apply {α : Type} (P : Platform) (owner : DurableVault) (operation : AppM α) :
    VaultIo (DurableVault × Except Error α) := do
  match owner.ready with
  | .error e => pure (owner, .error e)
  | .ok () =>
    let (result, candidate) : Except Error α × Application :=
      match operation.run owner.staged with
      | .ok value candidate => (.ok value, candidate)
      | .error e candidate => (.error e, candidate)
    match ← owner.commit P candidate with
    | (owner, .error e) => pure (owner, .error e)
    | (owner, .ok ()) => pure (owner, result)

end DurableVault

def adminScope (app : Application) (admin : AuthenticatedContext) : Except Error Unit :=
  if !admin.admin || app.tasks.any (fun _ t => t.owner != admin.owner || t.workspace != admin.workspace)
      || app.records.any (fun _ r => r.owner != admin.owner || r.workspace != admin.workspace) then
    .error .denied
  else .ok ()

namespace DurableVault

/-- The checks of `rekey` and the candidate it publishes. -/
def rekeyCandidate (P : Platform) (owner : DurableVault) (admin : AuthenticatedContext)
    (newMnemonic : String) (salt : Salt) : Except Error (Application × VaultKey) := do
  owner.ready
  adminScope owner.app admin
  failIf (!P.validMnemonic newMnemonic) .invalid
  let previous ← required owner.store.currentImage
  failIf (owner.app.generation == maxU64) .capacity
  let candidate := { owner.app with
    generation := owner.app.generation + 1, predecessor := some (P.sha256 previous) }
  candidate.validate P
  let key ← deriveKey P newMnemonic salt KdfParams.current
  pure (candidate, key)

def rekey (P : Platform) (owner : DurableVault) (admin : AuthenticatedContext)
    (newMnemonic : String) : VaultIo (DurableVault × Except Error Unit) := do
  let salt := P.salt (← drawIndex)
  match owner.rekeyCandidate P admin newMnemonic salt with
  | .error e => pure (owner, .error e)
  | .ok (candidate, key) =>
    match ← owner.store.publishWith P candidate key salt KdfParams.current with
    | (store, .notPublished) => pure ({ owner with store }, .error .notPublished)
    | (store, .unknown) => pure ({ owner with store, frozen := true }, .error .recoveryRequired)
    | (store, .durable) => pure ({ app := candidate, store, frozen := store.blocked }, .ok ())

def approveTask (P : Platform) (owner : DurableVault) (ctx : AuthenticatedContext)
    (task : TaskApproval) (now : Time) : VaultIo (DurableVault × Except Error Unit) :=
  owner.apply P (Application.approveTask ctx task now)

def revokeTask (P : Platform) (owner : DurableVault) (ctx : AuthenticatedContext) (task : Uuid)
    (now : Time) : VaultIo (DurableVault × Except Error Unit) :=
  owner.apply P (Application.revokeTask ctx task now)

def drawMutation (P : Platform) : VaultIo Draw := do
  let n ← drawIndex
  pure { id := P.uuid n, entropy := P.osRng n }

def mutate (P : Platform) (owner : DurableVault) (ctx : AuthenticatedContext)
    (task request : Uuid) (op : Mutation) (now : Time) :
    VaultIo (DurableVault × Except Error Receipt) := do
  let draw ← drawMutation P
  owner.apply P (Application.mutate P ctx task request op now draw)

def metadata (P : Platform) (owner : DurableVault) (ctx : AuthenticatedContext)
    (task record : Uuid) (fields : Fields) (now : Time) :
    VaultIo (DurableVault × Except Error MetadataView) :=
  owner.apply P (Application.metadata ctx task record fields now)

/-- The closure of `import_for_task`. -/
def importClosure (P : Platform) (admin : AuthenticatedContext) (task request : Uuid)
    (kind : CredentialKind) (values : SecretInput) (now : Time) (draw : Draw) : AppM Receipt := do
  let now ← Application.clock now
  let ctx ← liftExcept ((← get).trustedTaskContext admin task now)
  Application.mutate P ctx task request (.create kind values) now draw

def importForTask (P : Platform) (owner : DurableVault) (admin : AuthenticatedContext)
    (task request : Uuid) (kind : CredentialKind) (values : SecretInput) (now : Time) :
    VaultIo (DurableVault × Except Error Receipt) := do
  let draw ← drawMutation P
  owner.apply P (importClosure P admin task request kind values now draw)

/-- The closure of `read_for_task`. -/
def readClosure (admin : AuthenticatedContext) (task record : Uuid) (fields : Fields)
    (now : Time) : AppM SecretInput := do
  let now ← Application.clock now
  let ctx ← liftExcept ((← get).trustedTaskContext admin task now)
  Application.readSecret ctx task record fields now

def readForTask (P : Platform) (owner : DurableVault) (admin : AuthenticatedContext)
    (task record : Uuid) (fields : Fields) (now : Time) :
    VaultIo (DurableVault × Except Error SecretInput) :=
  owner.apply P (readClosure admin task record fields now)

end DurableVault

end Credman
