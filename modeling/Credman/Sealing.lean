import Credman.Encoding
import Credman.Backup

/-! The two sealed formats, read and written: what is accepted is the layout of
its parts, byte for byte. -/
namespace Credman

open Library Library.Checked

variable {P : Platform}

theorem takeBytes_eq_ok {n : Nat} {reader a rest : Bytes} :
    takeBytes n reader = .ok (a, rest) ↔ a.length = n ∧ reader = a ++ rest := by
  unfold takeBytes
  split_ifs with hshort
  · refine ⟨nofun, ?_⟩
    rintro ⟨rfl, rfl⟩
    simp at hshort
  · rw [Except.ok.injEq, Prod.mk.injEq]
    constructor
    · rintro ⟨rfl, rfl⟩
      exact ⟨List.length_take_of_le (by omega), (List.take_append_drop n reader).symm⟩
    · rintro ⟨rfl, rfl⟩
      simp

theorem vectorOf_eq {n : Nat} {bytes : Bytes} (h : bytes.length = n) :
    (vectorOf n bytes).toList = bytes := by
  subst h
  apply List.ext_getElem
  · simp [vectorOf]
  · intro i hi hi'
    simp [vectorOf, List.getD_eq_getElem?_getD]

@[simp] theorem vectorOf_toList {n : Nat} (v : Vector UInt8 n) : vectorOf n v.toList = v := by
  apply Vector.toList_inj.mp
  exact vectorOf_eq v.length_toList

theorem validated_eq_ok {mKib tCost pCost : UInt32} {kdf : KdfParams}
    (h : KdfParams.validated mKib tCost pCost = .ok kdf) :
    kdf = { mKib, tCost, pCost } := by
  unfold KdfParams.validated at h
  split_ifs at h
  exact (Except.ok.inj h).symm

/-- A store image is its header, nonce and ciphertext, with the length in front of the latter. -/
def imageBytes (version : UInt32) (kdf : KdfParams) (salt : Salt) (nonce : Nonce)
    (ciphertext : Bytes) : Bytes :=
  imageHeader version kdf salt ++ nonce.toList ++ Word.beBytes 8 ciphertext.length ++ ciphertext

/-- What an image of this version binds besides its plaintext. -/
def imageAad (version : UInt32) (kdf : KdfParams) (salt : Salt) : Bytes :=
  if headerV3 ≤ version then imageHeader version kdf salt else []

theorem length_magic : magic.length = 8 := by decide +kernel

theorem length_imageHeader (version : UInt32) (kdf : KdfParams) (salt : Salt) :
    (imageHeader version kdf salt).length = 40 := by
  simp [imageHeader, length_magic]

/-- The two versions are told apart by what they bind. -/
theorem imageAad_eq {version : UInt32} (hversion : version = headerV2 ∨ version = headerV3)
    (kdf : KdfParams) (salt : Salt) :
    imageAad version kdf salt = if version == headerV3 then imageHeader version kdf salt else [] := by
  rcases hversion with rfl | rfl <;> rfl

/-- What was read of an input is what comes before the rest of it. -/
theorem take_read (front rest : Bytes) :
    (front ++ rest).take ((front ++ rest).length - rest.length) = front := by
  rw [List.length_append, Nat.add_sub_cancel, List.take_left]

/-- An accepted image is the layout of its parts. -/
theorem unsealImage_eq_ok {image : Bytes} {mnemonic : String} {u : Unsealed} :
    unsealImage P image mnemonic = .ok u ↔ image.length ≤ maxImage
      ∧ ∃ version nonce ciphertext plaintext, (version = headerV2 ∨ version = headerV3)
        ∧ image = imageBytes version u.kdf u.salt nonce ciphertext
        ∧ KdfParams.validated u.kdf.mKib u.kdf.tCost u.kdf.pCost = .ok u.kdf
        ∧ deriveKey P mnemonic u.salt u.kdf = .ok u.key
        ∧ P.decrypt u.key nonce ciphertext (imageAad version u.kdf u.salt) = some plaintext
        ∧ Application.decode P plaintext = .ok u.app := by
  simp only [unsealImage, bind_eq_ok, failIf_eq_ok, Prod.exists, takeBytes_eq_ok, required_eq_ok,
    exists_const, not_lt, pure_eq_ok, bne_iff_ne, ne_eq, not_not]
  refine and_congr_right fun hlength => ?_
  constructor
  · rintro ⟨found, r0, ⟨-, rfl⟩, hmagic, word, r1, ⟨hword, rfl⟩, hversion, mKib, r2, ⟨hm, rfl⟩,
      tCost, r3, ⟨ht, rfl⟩, pCost, r4, ⟨hp, rfl⟩, kdf, hkdf, saltBytes, r5, ⟨hsalt, rfl⟩,
      nonceBytes, r6, ⟨hnonce, rfl⟩, lengthBytes, ciphertext, ⟨hlen, rfl⟩, hcount, key, hkey,
      plaintext, hplain, app, happ, rfl⟩
    have hv : UInt32.ofNat (Word.ofBeBytes word) = headerV2
        ∨ UInt32.ofNat (Word.ofBeBytes word) = headerV3 := by
      by_cases h2 : UInt32.ofNat (Word.ofBeBytes word) = headerV2
      · exact .inl h2
      · simp only [Bool.and_eq_true, bne_iff_ne, ne_eq, not_and, not_not] at hversion
        exact .inr (hversion h2)
    have hparams := validated_eq_ok hkdf
    have hcounted : Word.beBytes 8 ciphertext.length = lengthBytes := by
      rw [← hcount, ← hlen, Word.beBytes_ofBeBytes]
    have hheader : imageHeader (UInt32.ofNat (Word.ofBeBytes word)) kdf (vectorOf 16 saltBytes)
        = found ++ (word ++ (mKib ++ (tCost ++ (pCost ++ saltBytes)))) := by
      rw [imageHeader, hparams, ← hmagic, Word.beBytes_ofNat32 hword, Word.beBytes_ofNat32 hm,
        Word.beBytes_ofNat32 ht, Word.beBytes_ofNat32 hp, vectorOf_eq hsalt]
      simp only [List.append_assoc]
    refine ⟨UInt32.ofNat (Word.ofBeBytes word), vectorOf 12 nonceBytes, ciphertext, plaintext, hv,
      ?_, ?_, hkey, ?_, happ⟩
    · rw [imageBytes, hheader, vectorOf_eq hnonce, hcounted]
      simp only [List.append_assoc]
    · rw [hparams] at hkdf ⊢
      exact hkdf
    · have hread := take_read (found ++ (word ++ (mKib ++ (tCost ++ (pCost ++ saltBytes)))))
        (nonceBytes ++ (lengthBytes ++ ciphertext))
      simp only [List.append_assoc] at hread
      rw [hread] at hplain
      rw [imageAad_eq hv, hheader]
      exact hplain
  · rintro ⟨version, nonce, ciphertext, plaintext, hv, rfl, hkdf, hkey, hplain, happ⟩
    have hcount : ciphertext.length < 256 ^ 8 := by
      simp only [imageBytes, List.length_append, length_imageHeader, maxImage] at hlength
      omega
    have hread := take_read (imageHeader version u.kdf u.salt)
      (nonce.toList ++ (Word.beBytes 8 ciphertext.length ++ ciphertext))
    refine ⟨magic, _, ⟨length_magic, ?good_image⟩, rfl, Word.beBytes 4 version.toNat, _,
      ⟨Word.length_beBytes .., rfl⟩, ?good_version, Word.beBytes 4 u.kdf.mKib.toNat, _,
      ⟨Word.length_beBytes .., rfl⟩, Word.beBytes 4 u.kdf.tCost.toNat, _,
      ⟨Word.length_beBytes .., rfl⟩, Word.beBytes 4 u.kdf.pCost.toNat, _,
      ⟨Word.length_beBytes .., rfl⟩, u.kdf, ?good_kdf, u.salt.toList, _, ⟨u.salt.length_toList, rfl⟩,
      nonce.toList, _, ⟨nonce.length_toList, rfl⟩, Word.beBytes 8 ciphertext.length, ciphertext,
      ⟨Word.length_beBytes .., rfl⟩, Word.ofBeBytes_beBytes_of_lt hcount, u.key, ?good_key, plaintext, ?good_plain,
      u.app, happ, ?good_result⟩
    case good_image =>
      simp only [imageBytes, imageHeader, List.append_assoc]
    case good_version =>
      rw [Word.ofNat32_beBytes]
      rcases hv with rfl | rfl <;> decide
    case good_kdf =>
      rw [Word.ofNat32_beBytes, Word.ofNat32_beBytes, Word.ofNat32_beBytes]
      exact hkdf
    case good_key =>
      rw [vectorOf_toList]
      exact hkey
    case good_plain =>
      have himage : imageBytes version u.kdf u.salt nonce ciphertext = imageHeader version u.kdf u.salt
          ++ (nonce.toList ++ (Word.beBytes 8 ciphertext.length ++ ciphertext)) := by
        simp only [imageBytes, List.append_assoc]
      rw [vectorOf_toList, Word.ofNat32_beBytes, himage, hread, ← imageAad_eq hv]
      exact hplain
    case good_result => rw [vectorOf_toList]

theorem sealVersion_eq_ok {plaintext image : Bytes} {key : VaultKey} {salt : Salt} {kdf : KdfParams}
    {nonce : Nonce} {version : UInt32} :
    sealVersion P plaintext key salt kdf nonce version = .ok image ↔
      plaintext.length ≤ maxPlaintext ∧ image = imageBytes version kdf salt nonce
        (P.encrypt key nonce plaintext (imageAad version kdf salt)) := by
  unfold sealVersion
  rw [guard_eq_ok, not_lt, Except.ok.injEq]
  exact and_congr_right fun _ => eq_comm

/-- The fields of a layout are read off it one after the other. -/
theorem word_injective {v v' : UInt32} {a b : Bytes}
    (h : Word.beBytes 4 v.toNat ++ a = Word.beBytes 4 v'.toNat ++ b) : v = v' ∧ a = b := by
  obtain ⟨hv, hab⟩ := List.append_inj h (by rw [Word.length_beBytes, Word.length_beBytes])
  refine ⟨?_, hab⟩
  rw [← Word.ofNat32_beBytes v, hv, Word.ofNat32_beBytes]

theorem vector_injective {n : Nat} {v v' : Vector UInt8 n} {a b : Bytes}
    (h : v.toList ++ a = v'.toList ++ b) : v = v' ∧ a = b := by
  obtain ⟨hv, hab⟩ := List.append_inj h (by rw [Vector.length_toList, Vector.length_toList])
  exact ⟨Vector.toList_inj.mp hv, hab⟩

theorem imageBytes_injective {version version' : UInt32} {kdf kdf' : KdfParams} {salt salt' : Salt}
    {nonce nonce' : Nonce} {ciphertext ciphertext' : Bytes}
    (h : imageBytes version kdf salt nonce ciphertext = imageBytes version' kdf' salt' nonce' ciphertext') :
    version = version' ∧ kdf = kdf' ∧ salt = salt' ∧ nonce = nonce' ∧ ciphertext = ciphertext' := by
  unfold imageBytes imageHeader at h
  simp only [List.append_assoc, List.append_cancel_left_eq] at h
  obtain ⟨hversion, h⟩ := word_injective h
  obtain ⟨hm, h⟩ := word_injective h
  obtain ⟨ht, h⟩ := word_injective h
  obtain ⟨hp, h⟩ := word_injective h
  obtain ⟨hsalt, h⟩ := vector_injective h
  obtain ⟨hnonce, h⟩ := vector_injective h
  obtain ⟨-, hciphertext⟩ := List.append_inj h (by rw [Word.length_beBytes, Word.length_beBytes])
  refine ⟨hversion, ?_, hsalt, hnonce, hciphertext⟩
  cases kdf
  cases kdf'
  simp only [KdfParams.mk.injEq]
  exact ⟨hm, ht, hp⟩

/-- A sealed image opens to the application its plaintext decodes to. -/
theorem unseal_sealed {plaintext : Bytes} {mnemonic : String} {salt : Salt} {kdf : KdfParams}
    {nonce : Nonce} {version : UInt32} {key : VaultKey} {app : Application}
    (hversion : version = headerV2 ∨ version = headerV3)
    (hkdf : KdfParams.validated kdf.mKib kdf.tCost kdf.pCost = .ok kdf)
    (hkey : deriveKey P mnemonic salt kdf = .ok key)
    (hlength : (P.encrypt key nonce plaintext (imageAad version kdf salt)).length = plaintext.length + 16)
    (hplain : P.decrypt key nonce (P.encrypt key nonce plaintext (imageAad version kdf salt))
      (imageAad version kdf salt) = some plaintext)
    (hdecode : Application.decode P plaintext = .ok app) :
    unsealImage P (imageBytes version kdf salt nonce
      (P.encrypt key nonce plaintext (imageAad version kdf salt))) mnemonic
        = .ok { app, key, salt, kdf } := by
  refine unsealImage_eq_ok.mpr ⟨?_, version, nonce, _, plaintext, hversion, rfl, hkdf, hkey, hplain,
    hdecode⟩
  have hplaintext := (Application.decode_eq_ok.mp hdecode).1
  simp only [imageBytes, List.length_append, length_imageHeader, Vector.length_toList,
    Word.length_beBytes, hlength, maxImage]
  unfold maxPlaintext at hplaintext
  omega

/-! Backups. -/

/-- A backup is its prefix, nonce and ciphertext, with the length in front of the latter. -/
def backupBytes (version kind : UInt32) (kdf : KdfParams) (salt : Salt) (nonce : Nonce)
    (ciphertext : Bytes) : Bytes :=
  backupPrefix version kind kdf salt ++ nonce.toList ++ Word.beBytes 8 ciphertext.length ++ ciphertext

def backupAad (version kind : UInt32) (kdf : KdfParams) (salt : Salt) : Bytes :=
  if 3 ≤ version then backupPrefix version kind kdf salt else []

theorem length_backupMagic : backupMagic.length = 8 := by decide +kernel

theorem length_backupPrefix (version kind : UInt32) (kdf : KdfParams) (salt : Salt) :
    (backupPrefix version kind kdf salt).length = 44 := by
  simp [backupPrefix, length_backupMagic]

theorem backupPrefix_injective {version version' kind kind' : UInt32} {kdf kdf' : KdfParams}
    {salt salt' : Salt} {rest rest' : Bytes}
    (h : backupPrefix version kind kdf salt ++ rest = backupPrefix version' kind' kdf' salt' ++ rest') :
    version = version' ∧ kind = kind' ∧ kdf = kdf' ∧ salt = salt' ∧ rest = rest' := by
  unfold backupPrefix at h
  simp only [List.append_assoc, List.append_cancel_left_eq] at h
  obtain ⟨hversion, h⟩ := word_injective h
  obtain ⟨hkind, h⟩ := word_injective h
  obtain ⟨hm, h⟩ := word_injective h
  obtain ⟨ht, h⟩ := word_injective h
  obtain ⟨hp, h⟩ := word_injective h
  obtain ⟨hsalt, hrest⟩ := vector_injective h
  refine ⟨hversion, hkind, ?_, hsalt, hrest⟩
  cases kdf
  cases kdf'
  simp only [KdfParams.mk.injEq]
  exact ⟨hm, ht, hp⟩

theorem backupBytes_injective {version version' kind kind' : UInt32} {kdf kdf' : KdfParams}
    {salt salt' : Salt} {nonce nonce' : Nonce} {ciphertext ciphertext' : Bytes}
    (h : backupBytes version kind kdf salt nonce ciphertext
      = backupBytes version' kind' kdf' salt' nonce' ciphertext') :
    version = version' ∧ kind = kind' ∧ kdf = kdf' ∧ salt = salt' ∧ nonce = nonce'
      ∧ ciphertext = ciphertext' := by
  unfold backupBytes at h
  simp only [List.append_assoc] at h
  obtain ⟨hversion, hkind, hkdf, hsalt, h⟩ := backupPrefix_injective h
  obtain ⟨hnonce, h⟩ := vector_injective h
  obtain ⟨-, hciphertext⟩ := List.append_inj h (by rw [Word.length_beBytes, Word.length_beBytes])
  exact ⟨hversion, hkind, hkdf, hsalt, hnonce, hciphertext⟩

theorem backupAad_eq {version : UInt32} (hversion : version = 2 ∨ version = 3) (kind : UInt32)
    (kdf : KdfParams) (salt : Salt) : backupAad version kind kdf salt =
      if version = 3 then backupPrefix version kind kdf salt else [] := by
  rcases hversion with rfl | rfl <;> rfl

/-- The costs a backup may ask for. -/
def KdfParams.affordable (kdf : KdfParams) : Prop :=
  kdf.mKib ≤ current.mKib ∧ kdf.tCost ≤ current.tCost ∧ kdf.pCost ≤ current.pCost

theorem affordable_iff {kdf : KdfParams} : kdf.affordable ↔
    ¬ (KdfParams.current.mKib < kdf.mKib ∨ KdfParams.current.tCost < kdf.tCost
      ∨ KdfParams.current.pCost < kdf.pCost) := by
  simp only [KdfParams.affordable, not_or, UInt32.not_lt]

/-- An accepted backup is the layout of its parts, and its plaintext repeats its prefix. -/
theorem decryptBackup_eq_ok {bytes : Bytes} {secret : BackupSecret} {app : Application} :
    decryptBackup P bytes secret = .ok app ↔ bytes.length ≤ maxImage
      ∧ ∃ version kdf salt nonce ciphertext key snapshot, (version = 2 ∨ version = 3)
        ∧ bytes = backupBytes version secret.kind kdf salt nonce ciphertext
        ∧ KdfParams.validated kdf.mKib kdf.tCost kdf.pCost = .ok kdf ∧ kdf.affordable
        ∧ secret.derive P salt kdf = .ok key
        ∧ P.decrypt key nonce ciphertext (backupAad version secret.kind kdf salt)
          = some (backupPrefix version secret.kind kdf salt ++ snapshot)
        ∧ Application.decode P snapshot = .ok app := by
  simp only [decryptBackup, bind_eq_ok, failIf_eq_ok, Prod.exists, takeBytes_eq_ok, required_eq_ok,
    exists_const, not_lt, ne_eq, not_not, ← affordable_iff]
  refine and_congr_right fun hlength => ?_
  constructor
  · rintro ⟨found, r0, ⟨-, rfl⟩, hmagic, word, r1, ⟨hword, rfl⟩, kindWord, r2, ⟨hkindWord, rfl⟩,
      hversion, mKib, r3, ⟨hm, rfl⟩, tCost, r4, ⟨ht, rfl⟩, pCost, r5, ⟨hp, rfl⟩, kdf, hkdf, hcosts,
      saltBytes, r6, ⟨hsalt, rfl⟩, nonceBytes, r7, ⟨hnonce, rfl⟩, lengthBytes, ciphertext,
      ⟨hlen, rfl⟩, hcount, key, hkey, plaintext, hplain, hhead, happ⟩
    rw [not_or, not_and_or, not_not, not_not, not_not] at hversion
    obtain ⟨hv, hkind⟩ := hversion
    have hparams := validated_eq_ok hkdf
    have hcounted : Word.beBytes 8 ciphertext.length = lengthBytes := by
      rw [← hcount, ← hlen, Word.beBytes_ofBeBytes]
    have hfront : backupPrefix (UInt32.ofNat (Word.ofBeBytes word)) secret.kind kdf
        (vectorOf 16 saltBytes)
          = found ++ (word ++ (kindWord ++ (mKib ++ (tCost ++ (pCost ++ saltBytes))))) := by
      rw [backupPrefix, hparams, ← hmagic, ← hkind, Word.beBytes_ofNat32 hword,
        Word.beBytes_ofNat32 hkindWord, Word.beBytes_ofNat32 hm, Word.beBytes_ofNat32 ht,
        Word.beBytes_ofNat32 hp, vectorOf_eq hsalt]
      simp only [List.append_assoc]
    obtain ⟨front, hparts⟩ : ∃ front, front =
        found ++ (word ++ (kindWord ++ (mKib ++ (tCost ++ (pCost ++ saltBytes))))) := ⟨_, rfl⟩
    have hsplit : found ++ (word ++ (kindWord ++ (mKib ++ (tCost ++ (pCost ++ (saltBytes ++
        (nonceBytes ++ (lengthBytes ++ ciphertext)))))))) = front ++ (nonceBytes ++ (lengthBytes ++
          ciphertext)) := by
      simp only [hparts, List.append_assoc]
    rw [← hparts] at hfront
    rw [hsplit, List.length_append, Nat.add_sub_cancel, List.take_left] at hplain hhead
    rw [hsplit, List.length_append, Nat.add_sub_cancel] at happ
    rw [not_or, not_lt, not_not] at hhead
    refine ⟨UInt32.ofNat (Word.ofBeBytes word), kdf, vectorOf 16 saltBytes, vectorOf 12 nonceBytes,
      ciphertext, key, plaintext.drop front.length, hv, ?_, ?_, hcosts, hkey, ?_, happ⟩
    · rw [hsplit, backupBytes, hfront, vectorOf_eq hnonce, hcounted]
      simp only [List.append_assoc]
    · rw [hparams] at hkdf ⊢
      exact hkdf
    · have hwhole : front ++ plaintext.drop front.length = plaintext := by
        calc front ++ plaintext.drop front.length
            = plaintext.take front.length ++ plaintext.drop front.length := by rw [hhead.2]
          _ = plaintext := List.take_append_drop _ _
      rw [backupAad_eq hv, hfront, hplain, hwhole]
  · rintro ⟨version, kdf, salt, nonce, ciphertext, key, snapshot, hv, rfl, hkdf, hcosts, hkey, hplain,
      happ⟩
    have hcount : ciphertext.length < 256 ^ 8 := by
      simp only [backupBytes, List.length_append, length_backupPrefix, maxImage] at hlength
      omega
    have hbytes : backupBytes version secret.kind kdf salt nonce ciphertext
        = backupPrefix version secret.kind kdf salt
          ++ (nonce.toList ++ (Word.beBytes 8 ciphertext.length ++ ciphertext)) := by
      simp only [backupBytes, List.append_assoc]
    have hread := take_read (backupPrefix version secret.kind kdf salt)
      (nonce.toList ++ (Word.beBytes 8 ciphertext.length ++ ciphertext))
    have hlong : (backupPrefix version secret.kind kdf salt
        ++ (nonce.toList ++ (Word.beBytes 8 ciphertext.length ++ ciphertext))).length
          - (nonce.toList ++ (Word.beBytes 8 ciphertext.length ++ ciphertext)).length
            = (backupPrefix version secret.kind kdf salt).length := by
      rw [List.length_append, Nat.add_sub_cancel]
    refine ⟨backupMagic, _, ⟨length_backupMagic, ?good_bytes⟩, rfl, Word.beBytes 4 version.toNat, _,
      ⟨Word.length_beBytes .., rfl⟩, Word.beBytes 4 secret.kind.toNat, _,
      ⟨Word.length_beBytes .., rfl⟩, ?good_version, Word.beBytes 4 kdf.mKib.toNat, _,
      ⟨Word.length_beBytes .., rfl⟩, Word.beBytes 4 kdf.tCost.toNat, _,
      ⟨Word.length_beBytes .., rfl⟩, Word.beBytes 4 kdf.pCost.toNat, _,
      ⟨Word.length_beBytes .., rfl⟩, kdf, ?good_kdf, hcosts, salt.toList, _,
      ⟨salt.length_toList, rfl⟩, nonce.toList, _, ⟨nonce.length_toList, rfl⟩,
      Word.beBytes 8 ciphertext.length, ciphertext, ⟨Word.length_beBytes .., rfl⟩,
      Word.ofBeBytes_beBytes_of_lt hcount, key, ?good_key,
      backupPrefix version secret.kind kdf salt ++ snapshot, ?good_plain, ?good_head, ?good_app⟩
    case good_bytes =>
      simp only [backupBytes, backupPrefix, List.append_assoc]
    case good_version =>
      rw [Word.ofNat32_beBytes, Word.ofNat32_beBytes, not_or, not_and_or, not_not, not_not, not_not]
      exact ⟨hv, rfl⟩
    case good_kdf =>
      rw [Word.ofNat32_beBytes, Word.ofNat32_beBytes, Word.ofNat32_beBytes]
      exact hkdf
    case good_key =>
      rw [vectorOf_toList]
      exact hkey
    case good_plain =>
      rw [vectorOf_toList, Word.ofNat32_beBytes, hbytes, hread, ← backupAad_eq hv]
      exact hplain
    case good_head =>
      rw [hbytes, hread, hlong, List.take_left, List.length_append]
      simp
    case good_app =>
      rw [hbytes, hlong, List.drop_left]
      exact happ

theorem encryptSnapshot_eq_ok {snapshot bytes : Bytes} {secret : BackupSecret} {salt : Salt}
    {nonce : Nonce} {version : UInt32} {key : VaultKey}
    (hkey : secret.derive P salt KdfParams.current = .ok key) :
    encryptSnapshotVersion P snapshot secret salt nonce version = .ok bytes ↔
      snapshot.length ≤ maxPlaintext ∧ bytes.length ≤ maxImage
      ∧ bytes = backupBytes version secret.kind KdfParams.current salt nonce
        (P.encrypt key nonce (backupPrefix version secret.kind KdfParams.current salt ++ snapshot)
          (backupAad version secret.kind KdfParams.current salt)) := by
  simp only [encryptSnapshotVersion, bind_eq_ok, failIf_eq_ok, exists_const, not_lt, pure_eq_ok,
    hkey, Except.ok.injEq, exists_eq_left']
  constructor
  · rintro ⟨hsnapshot, hbytes, rfl⟩
    exact ⟨hsnapshot, hbytes, rfl⟩
  · rintro ⟨hsnapshot, hbytes, rfl⟩
    exact ⟨hsnapshot, hbytes, rfl⟩

end Credman
