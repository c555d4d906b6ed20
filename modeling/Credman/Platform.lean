import Credman.Types

/-! What the vault takes from other crates: serde_json, SHA-256, Argon2id,
AES-256-GCM, BIP39 and the random sources. Each draw is indexed by its place
in the run. -/
namespace Credman

abbrev Bytes := List UInt8
abbrev Salt := Vector UInt8 16
abbrev Nonce := Vector UInt8 12
abbrev VaultKey := Vector UInt8 32

structure KdfParams where
  mKib : UInt32
  tCost : UInt32
  pCost : UInt32
  deriving DecidableEq, Repr

/-- The buffers successive `OsRng::try_fill_bytes` calls deliver; the source
fails when they run out. -/
abbrev Entropy := List (Nat → UInt8)

structure Platform where
  documentJson : SnapshotDocument → Bytes
  parseDocument : Bytes → Option SnapshotDocument
  mutationJson : Mutation → Bytes
  privateUseJson : PrivateUse → Bytes
  sha256 : Bytes → Digest
  validMnemonic : String → Bool
  argon2 : Bytes → Salt → KdfParams → Option VaultKey
  encrypt : VaultKey → Nonce → Bytes → Bytes → Bytes
  decrypt : VaultKey → Nonce → Bytes → Bytes → Option Bytes
  uuid : Nat → Uuid
  salt : Nat → Salt
  nonce : Nat → Nonce
  osRng : Nat → Entropy

namespace Platform

def snapshotJson (P : Platform) (s : Snapshot) : Bytes := P.documentJson s.document

def parseSnapshot (P : Platform) (bytes : Bytes) : Option Snapshot :=
  (P.parseDocument bytes).bind SnapshotOf.snapshot

/-- serde_json reads back what it wrote. -/
structure Json (P : Platform) : Prop where
  parse_document : ∀ s : Snapshot, P.parseDocument (P.documentJson s.document) = some s.document

/-- What the sealing code relies on: AES-GCM opens what it sealed and adds a 16-byte
tag, and one ciphertext never opens to two plaintexts, whatever key is tried. -/
structure Seals (P : Platform) : Prop extends Json P where
  decrypt_encrypt : ∀ key nonce plaintext aad,
    P.decrypt key nonce (P.encrypt key nonce plaintext aad) aad = some plaintext
  decrypt_unique : ∀ key key' nonce ciphertext aad plaintext plaintext',
    P.decrypt key nonce ciphertext aad = some plaintext →
    P.decrypt key' nonce ciphertext aad = some plaintext' → plaintext = plaintext'
  encrypt_length : ∀ key nonce plaintext aad,
    (P.encrypt key nonce plaintext aad).length = plaintext.length + 16

/-- `Uuid::new_v4` never draws nil and never repeats. -/
structure FreshIds (P : Platform) : Prop where
  uuid_ne_nil : ∀ n, P.uuid n ≠ 0
  uuid_injective : Function.Injective P.uuid

/-- SHA-256 is taken as injective on serialized operations. -/
structure Fingerprints (P : Platform) : Prop where
  mutation_injective : Function.Injective fun op => P.sha256 (P.mutationJson op)

end Platform

end Credman
