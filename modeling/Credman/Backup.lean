import Credman.Recovery

/-! Encrypted backups: a distinct authenticated envelope, and the copy that is
made from one. -/
namespace Credman

open Library

def backupMagic : Bytes := "CMABAK02".toUTF8.toList

inductive BackupSecret where
  | seed (phrase : String)
  | passphrase (phrase : String)
  deriving DecidableEq, Repr

namespace BackupSecret

def kind : BackupSecret → UInt32
  | .seed _ => 1
  | .passphrase _ => 2

def derive (P : Platform) (secret : BackupSecret) (salt : Salt) (kdf : KdfParams) :
    Except Error VaultKey :=
  match secret with
  | .seed phrase => deriveKey P phrase salt kdf
  | .passphrase phrase =>
    if phrase.length < 16 ∨ 4096 < phrase.utf8ByteSize ∨ phrase.toList.all isWhitespace = true then
      .error .invalidStorage
    else orElse (P.argon2 phrase.toUTF8.toList salt kdf) .invalidStorage

end BackupSecret

def backupPrefix (version : UInt32) (kind : UInt32) (kdf : KdfParams) (salt : Salt) : Bytes :=
  backupMagic ++ Word.beBytes 4 version.toNat ++ Word.beBytes 4 kind.toNat
    ++ Word.beBytes 4 kdf.mKib.toNat ++ Word.beBytes 4 kdf.tCost.toNat
    ++ Word.beBytes 4 kdf.pCost.toNat ++ salt.toList

/-- Version 3 also passes the envelope's prefix as associated data. -/
def encryptSnapshotVersion (P : Platform) (snapshot : Bytes) (secret : BackupSecret) (salt : Salt)
    (nonce : Nonce) (version : UInt32) : Except Error Bytes := do
  failIf (maxPlaintext < snapshot.length) .capacity
  let kdf := KdfParams.current
  let key ← secret.derive P salt kdf
  let envelope := backupPrefix version secret.kind kdf salt
  let aad := if 3 ≤ version then envelope else []
  let ciphertext := P.encrypt key nonce (envelope ++ snapshot) aad
  let bytes := envelope ++ nonce.toList ++ Word.beBytes 8 ciphertext.length ++ ciphertext
  failIf (maxImage < bytes.length) .capacity
  pure bytes

def encryptBackup (P : Platform) (app : Application) (secret : BackupSecret) (salt : Salt)
    (nonce : Nonce) : Except Error Bytes := do
  let snapshot ← app.encode P
  encryptSnapshotVersion P snapshot secret salt nonce 3

/-- Backup input is untrusted: costs above those of a new backup are refused. -/
def decryptBackup (P : Platform) (bytes : Bytes) (secret : BackupSecret) :
    Except Error Application := do
  failIf (maxImage < bytes.length) .invalidStorage
  let (found, reader) ← takeBytes 8 bytes
  failIf (found ≠ backupMagic) .invalidStorage
  let (word, reader) ← takeBytes 4 reader
  let version := UInt32.ofNat (Word.ofBeBytes word)
  let (kindWord, reader) ← takeBytes 4 reader
  failIf ((version ≠ 2 ∧ version ≠ 3) ∨ UInt32.ofNat (Word.ofBeBytes kindWord) ≠ secret.kind)
    .invalidStorage
  let (mKib, reader) ← takeBytes 4 reader
  let (tCost, reader) ← takeBytes 4 reader
  let (pCost, reader) ← takeBytes 4 reader
  let kdf ← KdfParams.validated (UInt32.ofNat (Word.ofBeBytes mKib))
    (UInt32.ofNat (Word.ofBeBytes tCost)) (UInt32.ofNat (Word.ofBeBytes pCost))
  let ceiling := KdfParams.current
  failIf (ceiling.mKib < kdf.mKib ∨ ceiling.tCost < kdf.tCost ∨ ceiling.pCost < kdf.pCost)
    .invalidStorage
  let (saltBytes, reader) ← takeBytes 16 reader
  let salt : Salt := vectorOf 16 saltBytes
  let prefixLen := bytes.length - reader.length
  let (nonceBytes, reader) ← takeBytes 12 reader
  let (length, reader) ← takeBytes 8 reader
  failIf (Word.ofBeBytes length ≠ reader.length) .invalidStorage
  let key ← secret.derive P salt kdf
  let aad := if version = 3 then bytes.take prefixLen else []
  let plaintext ← required (P.decrypt key (vectorOf 12 nonceBytes) reader aad)
  failIf (plaintext.length < prefixLen ∨ plaintext.take prefixLen ≠ bytes.take prefixLen)
    .invalidStorage
  Application.decode P (plaintext.drop prefixLen)

namespace Application

/-- A copy carries no authority, and its records may never register again. Copying
keeps the clock freeze and the high-water. -/
def prepareRestored (P : Platform) (app : Application) (admin : AuthenticatedContext)
    (now : Time) : Except Error Application := do
  adminScope app admin
  let generation ← orElse (nextGeneration app.generation) .capacity
  let app := { app with generation }.revokeAll
  let app := { app with records := app.records.mapVals fun _ r => { r with restored := true } }
  let app ← app.deliveries.entries.foldlM (settle .invalidStorage) app
  let lastTime := some (match app.lastTime with
    | some previous => Max.max previous now
    | none => now)
  let app := { app with lastTime, predecessor := none }
  app.validate P
  pure app

end Application

namespace DurableVault

/-- The checks of `export_backup`, before anything is drawn. -/
def exportable (owner : DurableVault) (admin : AuthenticatedContext) : Except Error Unit := do
  owner.ready
  adminScope owner.app admin
  failIf (owner.app.clockFrozen = true) .clockRecoveryRequired

def exportBackup (P : Platform) (owner : DurableVault) (admin : AuthenticatedContext)
    (secret : BackupSecret) : VaultM Bytes := do
  lift (owner.exportable admin)
  let n ← drawIndex
  lift (encryptBackup P owner.app secret (P.salt n) (P.nonce n))

/-- Explicit copy only; the destination seed is independent of the backup secret. -/
def restoreBackup (P : Platform) (destinationSeed : String) (admin : AuthenticatedContext)
    (bytes : Bytes) (secret : BackupSecret) (now : Time) : VaultM DurableVault := do
  failIf (!admin.admin) .denied
  let app ← lift (decryptBackup P bytes secret)
  let app ← lift (app.prepareRestored P admin now)
  createFromApp P destinationSeed app

end DurableVault

end Credman
