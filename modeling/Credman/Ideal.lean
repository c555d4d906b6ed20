import Credman.Sealing

/-! The sealed formats over ideal primitives: what was sealed opens, and nothing
else does. -/
namespace Credman

open Library Library.Checked

/-- One store image that was sealed, by this build or an earlier one. -/
structure ImageSeal where
  mnemonic : String
  salt : Salt
  kdf : KdfParams
  nonce : Nonce
  version : UInt32
  plaintext : Bytes
  deriving DecidableEq

def ImageSeal.aad (e : ImageSeal) : Bytes := imageAad e.version e.kdf e.salt

def ImageSeal.image (P : Platform) (e : ImageSeal) : Except Error Bytes := do
  let key ← deriveKey P e.mnemonic e.salt e.kdf
  sealVersion P e.plaintext key e.salt e.kdf e.nonce e.version

/-- One backup that was encrypted. -/
structure BackupSeal where
  secret : BackupSecret
  salt : Salt
  nonce : Nonce
  version : UInt32
  snapshot : Bytes
  deriving DecidableEq

def BackupSeal.envelope (e : BackupSeal) : Bytes :=
  backupPrefix e.version e.secret.kind KdfParams.current e.salt

def BackupSeal.aad (e : BackupSeal) : Bytes :=
  backupAad e.version e.secret.kind KdfParams.current e.salt

def BackupSeal.bytes (P : Platform) (e : BackupSeal) : Except Error Bytes :=
  encryptSnapshotVersion P e.snapshot e.secret e.salt e.nonce e.version

/-- Everything that has been sealed: images of snapshots and backups, in either version. -/
structure Sealed (P : Platform) where
  images : Set ImageSeal
  backups : Set BackupSeal
  image_version : ∀ e ∈ images, e.version = headerV2 ∨ e.version = headerV3
  image_snapshot : ∀ e ∈ images, (P.parseDocument e.plaintext).isSome = true
  backup_version : ∀ e ∈ backups, e.version = 2 ∨ e.version = 3

/-- Ideal primitives: keys differ with the secret, the salt or the costs, decryption
succeeds only on what was made with the same key, nonce and associated data, and the
magic of a backup does not start a JSON text. -/
structure Ideal (P : Platform) (made : Sealed P) : Prop extends Platform.Json P where
  argon2_injective : ∀ password password' salt salt' kdf kdf' key,
    P.argon2 password salt kdf = some key → P.argon2 password' salt' kdf' = some key →
      password = password' ∧ salt = salt' ∧ kdf = kdf'
  encrypt_length : ∀ key nonce plaintext aad,
    (P.encrypt key nonce plaintext aad).length = plaintext.length + 16
  opens_image : ∀ e ∈ made.images, ∀ key, deriveKey P e.mnemonic e.salt e.kdf = .ok key →
    P.decrypt key e.nonce (P.encrypt key e.nonce e.plaintext e.aad) e.aad = some e.plaintext
  opens_backup : ∀ e ∈ made.backups, ∀ key, e.secret.derive P e.salt KdfParams.current = .ok key →
    P.decrypt key e.nonce (P.encrypt key e.nonce (e.envelope ++ e.snapshot) e.aad) e.aad
      = some (e.envelope ++ e.snapshot)
  opens_only : ∀ key nonce ciphertext aad plaintext,
    P.decrypt key nonce ciphertext aad = some plaintext →
      ciphertext = P.encrypt key nonce plaintext aad
      ∧ ((∃ e ∈ made.images, deriveKey P e.mnemonic e.salt e.kdf = .ok key
          ∧ nonce = e.nonce ∧ aad = e.aad ∧ plaintext = e.plaintext)
        ∨ ∃ e ∈ made.backups, e.secret.derive P e.salt KdfParams.current = .ok key
          ∧ nonce = e.nonce ∧ aad = e.aad ∧ plaintext = e.envelope ++ e.snapshot)
  backup_not_json : ∀ rest, P.parseDocument (backupMagic ++ rest) = none

/-- The bytes a backup secret hands to Argon2. -/
def BackupSecret.password : BackupSecret → Bytes
  | .seed phrase => (normalizeMnemonic phrase).toUTF8.toList
  | .passphrase phrase => phrase.toUTF8.toList

variable {P : Platform}

theorem deriveKey_eq_ok {mnemonic : String} {salt : Salt} {kdf : KdfParams} {key : VaultKey}
    (h : deriveKey P mnemonic salt kdf = .ok key) :
    P.argon2 (normalizeMnemonic mnemonic).toUTF8.toList salt kdf = some key := by
  unfold deriveKey at h
  split_ifs at h
  exact orElse_eq_ok.mp h

theorem BackupSecret.derive_eq_ok {secret : BackupSecret} {salt : Salt} {kdf : KdfParams}
    {key : VaultKey} (h : secret.derive P salt kdf = .ok key) :
    P.argon2 secret.password salt kdf = some key := by
  cases secret with
  | seed phrase => exact deriveKey_eq_ok h
  | passphrase phrase =>
    unfold derive at h
    rw [guard_eq_ok] at h
    exact orElse_eq_ok.mp h.2

theorem imageAad_injective {version version' : UInt32} {kdf : KdfParams} {salt : Salt}
    (hversion : version = headerV2 ∨ version = headerV3)
    (hversion' : version' = headerV2 ∨ version' = headerV3)
    (h : imageAad version kdf salt = imageAad version' kdf salt) : version = version' := by
  have hlength : ∀ v, (imageHeader v kdf salt).length = 40 := fun v => length_imageHeader v kdf salt
  rw [imageAad_eq hversion, imageAad_eq hversion'] at h
  rcases hversion with rfl | rfl <;> rcases hversion' with rfl | rfl
  · rfl
  · have h' := congrArg List.length h
    simp [hlength, headerV2, headerV3] at h'
  · have h' := congrArg List.length h
    simp [hlength, headerV2, headerV3] at h'
  · rfl

theorem BackupSecret.eq_of_password {a b : BackupSecret} (hkind : a.kind = b.kind)
    (hpassword : a.password = b.password) :
    a = b ∨ ∃ p q, a = .seed p ∧ b = .seed q ∧ normalizeMnemonic p = normalizeMnemonic q := by
  cases a with
  | seed p =>
    cases b with
    | seed q => exact .inr ⟨p, q, rfl, rfl, Word.toUTF8_injective hpassword⟩
    | passphrase q => cases hkind
  | passphrase p =>
    cases b with
    | seed q => cases hkind
    | passphrase q => exact .inl (congrArg _ (Word.toUTF8_injective hpassword))

/-- The same secret: seeds are compared up to the white space between their words. -/
def BackupSecret.Same (a b : BackupSecret) : Prop :=
  a = b ∨ ∃ p q, a = .seed p ∧ b = .seed q ∧ normalizeMnemonic p = normalizeMnemonic q

variable {made : Sealed P}

/-- What was sealed opens again, to what was sealed. -/
theorem Ideal.unseal_image (h : Ideal P made) {e : ImageSeal} (he : e ∈ made.images)
    {app : Application} {key : VaultKey} (hencode : app.encode P = .ok e.plaintext)
    (htimes : app.Timestamped)
    (hkdf : KdfParams.validated e.kdf.mKib e.kdf.tCost e.kdf.pCost = .ok e.kdf)
    (hkey : deriveKey P e.mnemonic e.salt e.kdf = .ok key) :
    ∃ image, e.image P = .ok image
      ∧ unsealImage P image e.mnemonic = .ok { app, key, salt := e.salt, kdf := e.kdf } := by
  have hdecode := Application.decode_encode h.toJson hencode htimes.stamped
  have hlength := (Application.decode_eq_ok.mp hdecode).1
  refine ⟨_, ?_, unseal_sealed (made.image_version e he) hkdf hkey (h.encrypt_length ..)
    (h.opens_image e he key hkey) hdecode⟩
  rw [ImageSeal.image, hkey]
  exact sealVersion_eq_ok.mpr ⟨hlength, rfl⟩

theorem Ideal.decrypt_backup (h : Ideal P made) {e : BackupSeal} (he : e ∈ made.backups)
    {app : Application} {key : VaultKey} (hencode : app.encode P = .ok e.snapshot)
    (htimes : app.Timestamped) (hkey : e.secret.derive P e.salt KdfParams.current = .ok key) :
    ∃ bytes, e.bytes P = .ok bytes ∧ decryptBackup P bytes e.secret = .ok app := by
  have hdecode := Application.decode_encode h.toJson hencode htimes.stamped
  have hlength := (Application.decode_eq_ok.mp hdecode).1
  have himage : (backupBytes e.version e.secret.kind KdfParams.current e.salt e.nonce
      (P.encrypt key e.nonce (e.envelope ++ e.snapshot) e.aad)).length ≤ maxImage := by
    simp only [backupBytes, List.length_append, length_backupPrefix, Vector.length_toList,
      Word.length_beBytes, h.encrypt_length, BackupSeal.envelope, maxImage]
    unfold maxPlaintext at hlength
    omega
  refine ⟨_, (encryptSnapshot_eq_ok hkey).mpr ⟨hlength, himage, rfl⟩, decryptBackup_eq_ok.mpr ⟨himage,
    e.version, KdfParams.current, e.salt, e.nonce, _, key, e.snapshot, made.backup_version e he, rfl,
    rfl, ?_, hkey, h.opens_backup e he key hkey, hdecode⟩⟩
  exact ⟨UInt32.le_refl _, UInt32.le_refl _, UInt32.le_refl _⟩

/-- The plaintext of a backup is no snapshot. -/
theorem Ideal.prefix_not_json (h : Ideal P made) (version kind : UInt32) (kdf : KdfParams)
    (salt : Salt) (rest : Bytes) :
    P.parseDocument (backupPrefix version kind kdf salt ++ rest) = none := by
  simp only [backupPrefix, List.append_assoc]
  exact h.backup_not_json _

/-- What `unseal` accepts was sealed for that seed, byte for byte. -/
theorem Ideal.image_of_unseal (h : Ideal P made) {image : Bytes} {mnemonic : String} {u : Unsealed}
    (hunseal : unsealImage P image mnemonic = .ok u) :
    ∃ e ∈ made.images, e.image P = .ok image
      ∧ normalizeMnemonic e.mnemonic = normalizeMnemonic mnemonic ∧ e.salt = u.salt ∧ e.kdf = u.kdf
      ∧ Application.decode P e.plaintext = .ok u.app := by
  obtain ⟨-, version, nonce, ciphertext, plaintext, hversion, rfl, -, hkey, hplain, hdecode⟩ :=
    unsealImage_eq_ok.mp hunseal
  obtain ⟨hlength, s, hparse, -⟩ := Application.decode_eq_ok.mp hdecode
  obtain ⟨rfl, ⟨e, he, hmade, rfl, haad, rfl⟩ | ⟨e, -, -, -, -, rfl⟩⟩ := h.opens_only _ _ _ _ _ hplain
  · obtain ⟨hpassword, hsalt, hkdf⟩ := h.argon2_injective _ _ _ _ _ _ _ (deriveKey_eq_ok hmade)
      (deriveKey_eq_ok hkey)
    have hsame : version = e.version := by
      rw [ImageSeal.aad, hsalt, hkdf] at haad
      exact imageAad_injective hversion (made.image_version e he) haad
    refine ⟨e, he, ?_, Word.toUTF8_injective hpassword, hsalt, hkdf, hdecode⟩
    rw [ImageSeal.image, hmade]
    refine sealVersion_eq_ok.mpr ⟨hlength, ?_⟩
    rw [hsalt, hkdf, hsame]
  · rw [Platform.parseSnapshot, BackupSeal.envelope, h.prefix_not_json] at hparse
    cases hparse

/-- What `decrypt_backup` accepts was encrypted for that secret, byte for byte. -/
theorem Ideal.backup_of_decrypt (h : Ideal P made) {bytes : Bytes} {secret : BackupSecret}
    {app : Application} (hdecrypt : decryptBackup P bytes secret = .ok app) :
    ∃ e ∈ made.backups, e.bytes P = .ok bytes ∧ e.secret.Same secret
      ∧ Application.decode P e.snapshot = .ok app := by
  obtain ⟨hbytes, version, kdf, salt, nonce, ciphertext, key, snapshot, -, rfl, -, -, hkey, hplain,
    hdecode⟩ := decryptBackup_eq_ok.mp hdecrypt
  have hlength := (Application.decode_eq_ok.mp hdecode).1
  obtain ⟨hcipher, ⟨e, he, -, -, -, hsealed⟩ | ⟨e, he, hmade, rfl, haad, hsealed⟩⟩ :=
    h.opens_only _ _ _ _ _ hplain
  · have hsome := made.image_snapshot e he
    rw [← hsealed, h.prefix_not_json] at hsome
    cases hsome
  · obtain ⟨hpassword, hsalt, hkdf⟩ := h.argon2_injective _ _ _ _ _ _ _
      (BackupSecret.derive_eq_ok hmade) (BackupSecret.derive_eq_ok hkey)
    obtain ⟨hversion, hkind, -, -, rfl⟩ := backupPrefix_injective hsealed
    refine ⟨e, he, (encryptSnapshot_eq_ok hmade).mpr ⟨hlength, hbytes, ?_⟩,
      BackupSecret.eq_of_password hkind.symm hpassword, hdecode⟩
    rw [hcipher, hversion, hkind, hkdf, hsalt]

/-! A platform that keeps these laws: tagged JSON, keys that carry the salt, and a
cipher that opens only what its ledger holds. -/

/-- What was encrypted: key, nonce, plaintext and associated data. -/
abbrev Encrypted := List (VaultKey × Nonce × Bytes × Bytes)

/-- The first byte of every JSON object. -/
def openingBrace : UInt8 := 0x7b

def Platform.parseTagged : Bytes → Option SnapshotDocument
  | [] => none
  | b :: rest => if b = openingBrace then Codec.snapshotDocument.read rest else none

/-- A key is its salt, padded. -/
def Platform.idealKey (salt : Salt) : VaultKey := salt ++ Vector.replicate 16 (0 : UInt8)

/-- One password, the costs of this build. -/
def Platform.idealArgon2 (known password : Bytes) (salt : Salt) (kdf : KdfParams) :
    Option VaultKey :=
  if password = known ∧ kdf = KdfParams.current then some (idealKey salt) else none

def Platform.idealTag : Bytes := List.replicate 16 0

def Platform.ideal (known : Bytes) (made : Encrypted) : Platform :=
  { Platform.reference with
    documentJson := fun s => openingBrace :: Codec.snapshotDocument.enc s
    parseDocument := parseTagged
    argon2 := idealArgon2 known
    encrypt := fun _ _ plaintext _ => plaintext ++ idealTag
    decrypt := fun key nonce ciphertext aad =>
      (made.find? fun (key', nonce', plaintext, aad') =>
        key' = key ∧ nonce' = nonce ∧ aad' = aad ∧ ciphertext = plaintext ++ idealTag).map
          fun (_, _, plaintext, _) => plaintext }

/-- What sealing these images and backups encrypts. -/
def encrypted (P : Platform) (images : List ImageSeal) (backups : List BackupSeal) : Encrypted :=
  (images.filterMap fun e =>
    (deriveKey P e.mnemonic e.salt e.kdf).toOption.map fun key =>
      (key, e.nonce, e.plaintext, e.aad))
  ++ backups.filterMap fun e =>
    (e.secret.derive P e.salt KdfParams.current).toOption.map fun key =>
      (key, e.nonce, e.envelope ++ e.snapshot, e.aad)

theorem ideal_argon2_injective {known password password' : Bytes} {salt salt' : Salt}
    {kdf kdf' : KdfParams} {key : VaultKey}
    (h : Platform.idealArgon2 known password salt kdf = some key)
    (h' : Platform.idealArgon2 known password' salt' kdf' = some key) :
    password = password' ∧ salt = salt' ∧ kdf = kdf' := by
  simp only [Platform.idealArgon2, Option.ite_none_right_eq_some, Option.some.injEq] at h h'
  obtain ⟨⟨rfl, rfl⟩, rfl⟩ := h
  obtain ⟨⟨rfl, rfl⟩, heq⟩ := h'
  refine ⟨rfl, ?_, rfl⟩
  have hlists := congrArg Vector.toList heq
  simp only [Platform.idealKey, Vector.toList_append, List.append_cancel_right_eq] at hlists
  exact (Vector.toList_inj.mp hlists).symm

theorem ideal_decrypt_eq_some {known : Bytes} {made : Encrypted} {key : VaultKey} {nonce : Nonce}
    {ciphertext aad plaintext : Bytes} :
    (Platform.ideal known made).decrypt key nonce ciphertext aad = some plaintext ↔
      (key, nonce, plaintext, aad) ∈ made ∧ ciphertext = plaintext ++ Platform.idealTag := by
  simp only [Platform.ideal, Option.map_eq_some_iff, Prod.exists]
  constructor
  · rintro ⟨key', nonce', plaintext', aad', hfind, rfl⟩
    have hmem := List.mem_of_find?_eq_some hfind
    have hmatch := List.find?_some hfind
    simp only [decide_eq_true_eq] at hmatch
    obtain ⟨rfl, rfl, rfl, hciphertext⟩ := hmatch
    exact ⟨hmem, hciphertext⟩
  · rintro ⟨hmem, rfl⟩
    cases hfind : made.find? fun (key', nonce', plaintext', aad') =>
        key' = key ∧ nonce' = nonce ∧ aad' = aad
          ∧ plaintext ++ Platform.idealTag = plaintext' ++ Platform.idealTag with
    | none =>
      have hno := List.find?_eq_none.mp hfind _ hmem
      simp at hno
    | some found =>
      obtain ⟨key', nonce', plaintext', aad'⟩ := found
      have hmatch := List.find?_some hfind
      simp only [decide_eq_true_eq, List.append_cancel_right_eq] at hmatch
      obtain ⟨-, -, -, rfl⟩ := hmatch
      exact ⟨_, _, _, _, rfl, rfl⟩

/-- Its laws, for any ledger whose entries were all made by sealing something in it. -/
theorem ideal_of_encrypted {known : Bytes} {images : List ImageSeal} {backups : List BackupSeal}
    (ledger : Sealed (.ideal known (encrypted (.ideal known []) images backups)))
    (himages : ledger.images = {e | e ∈ images}) (hbackups : ledger.backups = {e | e ∈ backups}) :
    Ideal (.ideal known (encrypted (.ideal known []) images backups)) ledger where
  parse_document s := by
    change Platform.parseTagged (openingBrace :: Codec.snapshotDocument.enc s.document) = _
    rw [Platform.parseTagged, if_pos rfl]
    exact Codec.snapshotDocument.read_enc s.document
  argon2_injective _ _ _ _ _ _ _ := ideal_argon2_injective
  encrypt_length key nonce plaintext aad := by
    simp [Platform.ideal, Platform.idealTag]
  opens_image e he key hkey := by
    rw [himages] at he
    refine ideal_decrypt_eq_some.mpr ⟨List.mem_append_left _ (List.mem_filterMap.mpr ⟨e, he, ?_⟩), rfl⟩
    change deriveKey (.ideal known []) e.mnemonic e.salt e.kdf = .ok key at hkey
    rw [hkey]
    rfl
  opens_backup e he key hkey := by
    rw [hbackups] at he
    refine ideal_decrypt_eq_some.mpr ⟨List.mem_append_right _ (List.mem_filterMap.mpr ⟨e, he, ?_⟩), rfl⟩
    have hkey' : e.secret.derive (.ideal known []) e.salt KdfParams.current = .ok key := by
      cases hsecret : e.secret with
      | seed phrase => rwa [hsecret] at hkey
      | passphrase phrase => rwa [hsecret] at hkey
    rw [hkey']
    rfl
  opens_only key nonce ciphertext aad plaintext hplain := by
    obtain ⟨hmem, rfl⟩ := ideal_decrypt_eq_some.mp hplain
    refine ⟨rfl, ?_⟩
    obtain hmem | hmem := List.mem_append.mp hmem
    · obtain ⟨e, he, hentry⟩ := List.mem_filterMap.mp hmem
      cases hkey : deriveKey (.ideal known []) e.mnemonic e.salt e.kdf with
      | error err => simp [hkey, Except.toOption] at hentry
      | ok key' =>
        simp only [hkey, Except.toOption, Option.map_some, Option.some.injEq, Prod.mk.injEq] at hentry
        obtain ⟨rfl, rfl, rfl, rfl⟩ := hentry
        exact .inl ⟨e, himages ▸ he, hkey, rfl, rfl, rfl⟩
    · obtain ⟨e, he, hentry⟩ := List.mem_filterMap.mp hmem
      cases hkey : e.secret.derive (.ideal known []) e.salt KdfParams.current with
      | error err => simp [hkey, Except.toOption] at hentry
      | ok key' =>
        simp only [hkey, Except.toOption, Option.map_some, Option.some.injEq, Prod.mk.injEq] at hentry
        obtain ⟨rfl, rfl, rfl, rfl⟩ := hentry
        refine .inr ⟨e, hbackups ▸ he, ?_, rfl, rfl, rfl⟩
        cases hsecret : e.secret with
        | seed phrase => rwa [hsecret] at hkey
        | passphrase phrase => rwa [hsecret] at hkey
  backup_not_json rest := by
    have hfirst : ∃ tail, backupMagic = 0x43 :: tail := ⟨backupMagic.tail, by decide +kernel⟩
    obtain ⟨tail, hmagic⟩ := hfirst
    rw [hmagic]
    rfl

/-- The sealed formats are exact: what was sealed of a timestamped application opens to it,
and every byte string that opens is one that was sealed for that secret, so that any change
of one is rejected. -/
theorem sealed_exact (h : Ideal P made) :
    (∀ e ∈ made.images, ∀ app key, app.encode P = .ok e.plaintext → app.Timestamped →
      KdfParams.validated e.kdf.mKib e.kdf.tCost e.kdf.pCost = .ok e.kdf →
      deriveKey P e.mnemonic e.salt e.kdf = .ok key →
        ∃ image, e.image P = .ok image
          ∧ unsealImage P image e.mnemonic = .ok { app, key, salt := e.salt, kdf := e.kdf })
    ∧ (∀ e ∈ made.backups, ∀ app key, app.encode P = .ok e.snapshot → app.Timestamped →
      e.secret.derive P e.salt KdfParams.current = .ok key →
        ∃ bytes, e.bytes P = .ok bytes ∧ decryptBackup P bytes e.secret = .ok app)
    ∧ (∀ image mnemonic u, unsealImage P image mnemonic = .ok u →
      ∃ e ∈ made.images, e.image P = .ok image
        ∧ normalizeMnemonic e.mnemonic = normalizeMnemonic mnemonic ∧ e.salt = u.salt
        ∧ e.kdf = u.kdf ∧ Application.decode P e.plaintext = .ok u.app)
    ∧ ∀ bytes secret app, decryptBackup P bytes secret = .ok app →
      ∃ e ∈ made.backups, e.bytes P = .ok bytes ∧ e.secret.Same secret
        ∧ Application.decode P e.snapshot = .ok app :=
  ⟨fun _ he _ _ hencode htimes hkdf hkey => h.unseal_image he hencode htimes hkdf hkey,
    fun _ he _ _ hencode htimes hkey => h.decrypt_backup he hencode htimes hkey,
    fun _ _ _ hunseal => h.image_of_unseal hunseal,
    fun _ _ _ hdecrypt => h.backup_of_decrypt hdecrypt⟩

/-- The phrase of the shared vault's store and backups. -/
def sharedPhrase : String :=
  "abandon abandon abandon abandon abandon abandon abandon abandon abandon abandon abandon about"

def sealedImage (app : Application) : ImageSeal where
  mnemonic := sharedPhrase
  salt := Vector.replicate 16 3
  kdf := KdfParams.current
  nonce := Vector.replicate 12 5
  version := headerV2
  plaintext := openingBrace :: Codec.snapshotDocument.enc app.toSnapshot.document

def sealedBackup (app : Application) : BackupSeal where
  secret := .passphrase sharedPhrase
  salt := Vector.replicate 16 7
  nonce := Vector.replicate 12 9
  version := 3
  snapshot := openingBrace :: Codec.snapshotDocument.enc app.toSnapshot.document

/-- The platform on which one application was sealed once in either format. -/
def Platform.sealing (app : Application) : Platform :=
  .ideal sharedPhrase.toUTF8.toList
    (encrypted (.ideal sharedPhrase.toUTF8.toList []) [sealedImage app] [sealedBackup app])

def sealedOnce (app : Application) : Sealed (.sealing app) where
  images := {e | e ∈ [sealedImage app]}
  backups := {e | e ∈ [sealedBackup app]}
  image_version e he := by
    rw [List.mem_singleton.mp he]
    exact .inl rfl
  image_snapshot e he := by
    rw [List.mem_singleton.mp he]
    change (Platform.parseTagged (openingBrace :: _)).isSome = true
    rw [Platform.parseTagged, if_pos rfl]
    exact Option.isSome_iff_exists.mpr ⟨_, Codec.snapshotDocument.read_enc _⟩
  backup_version e he := by
    rw [List.mem_singleton.mp he]
    exact .inr rfl

theorem sealedOnce_ideal (app : Application) : Ideal (.sealing app) (sealedOnce app) :=
  ideal_of_encrypted (sealedOnce app) rfl rfl

theorem sealed_exact_sharedVault :
    (∃ image, (sealedImage sharedVault).image (.sealing sharedVault) = .ok image
      ∧ unsealImage (.sealing sharedVault) image sharedPhrase = .ok {
          app := sharedVault, key := Platform.idealKey (Vector.replicate 16 3)
          salt := Vector.replicate 16 3, kdf := KdfParams.current })
    ∧ ∃ bytes, (sealedBackup sharedVault).bytes (.sealing sharedVault) = .ok bytes
      ∧ decryptBackup (.sealing sharedVault) bytes (.passphrase sharedPhrase) = .ok sharedVault :=
  ⟨(sealed_exact (sealedOnce_ideal sharedVault)).1 (sealedImage sharedVault) (by simp [sealedOnce])
      sharedVault (Platform.idealKey (Vector.replicate 16 3)) (by decide +kernel) Application.sharedVault_timestamped (by decide +kernel) (by decide +kernel),
    (sealed_exact (sealedOnce_ideal sharedVault)).2.1 (sealedBackup sharedVault)
      (by simp [sealedOnce]) sharedVault (Platform.idealKey (Vector.replicate 16 7))
      (by decide +kernel) Application.sharedVault_timestamped (by decide +kernel)⟩

/-- The shared vault as an earlier build left it, its receipts without timestamps. -/
def undatedVault : Application :=
  { sharedVault with
    requests := sharedVault.requests.mapVals fun _ c => { c with storedAt := none } }

/-- A valid application without timestamps is sealed, but does not open to itself: decoding
fills them in. -/
theorem undatedVault_not_reopened :
    Ideal (.sealing undatedVault) (sealedOnce undatedVault)
      ∧ undatedVault.validate (.sealing undatedVault) = .ok ()
      ∧ undatedVault.encode (.sealing undatedVault) = .ok (sealedImage undatedVault).plaintext
      ∧ (∃ image, (sealedImage undatedVault).image (.sealing undatedVault) = .ok image)
      ∧ ∀ image key, unsealImage (.sealing undatedVault) image sharedPhrase ≠ .ok {
          app := undatedVault, key, salt := Vector.replicate 16 3, kdf := KdfParams.current } := by
  refine ⟨sealedOnce_ideal undatedVault, by decide +kernel, by decide +kernel, ?_,
    fun image key hunseal => ?_⟩
  · have hkey : deriveKey (.sealing undatedVault) sharedPhrase (Vector.replicate 16 3)
        KdfParams.current = .ok (Platform.idealKey (Vector.replicate 16 3)) := by
      decide +kernel
    have hlength : (sealedImage undatedVault).plaintext.length ≤ maxPlaintext := by decide +kernel
    exact ⟨_, bind_eq_ok.mpr ⟨_, hkey, sealVersion_eq_ok.mpr ⟨hlength, rfl⟩⟩⟩
  · obtain ⟨-, _, _, _, _, -, -, -, -, -, hdecode⟩ := unsealImage_eq_ok.mp hunseal
    have hstamped : undatedVault.stamped = undatedVault := Application.stamped_of_decode hdecode
    have hreceipt := congrArg (fun app : Application => app.requests.get?
      { owner := "owner", principal := "alice", task := 1, id := 5 }) hstamped
    exact absurd hreceipt (by decide +kernel)

end Credman
