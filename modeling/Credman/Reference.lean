import Credman.Library.Codec
import Credman.Platform

/-! One platform that keeps every law asked of the outside crates, so that none
of them is vacuous: a binary codec for serde_json, the identity for SHA-256, and
a cipher that appends a tag taken from the key. -/
namespace Credman

open Library

namespace Codec

open Library.Codec

def field : Codec Field := nat.via Field.ctorIdx
  (fun n => match n with
    | 0 => .label | 1 => .username | 2 => .password | 3 => .apiKey | _ => .notes) (by
  intro f
  cases f <;> rfl)

def permission : Codec Permission := nat.via Permission.ctorIdx
  (fun n => match n with
    | 0 => .metadataRead | 1 => .secretUse | 2 => .secretRead | 3 => .secretWrite
    | 4 => .accessGrant | _ => .entryDelete) (by
  intro p
  cases p <;> rfl)

def credentialKind : Codec CredentialKind := nat.via CredentialKind.ctorIdx
  (fun n => match n with | 0 => .login | _ => .apiKey) (by
  intro k
  cases k <;> rfl)

def signupState : Codec SignupState := nat.via SignupState.ctorIdx
  (fun n => match n with
    | 0 => .pending | 1 => .submitted | 2 => .reportedSuccess | 3 => .verifiedLogin
    | 4 => .rejected | 5 => .humanRequired | _ => .unknown) (by
  intro s
  cases s <;> rfl)

def cachedKind : Codec CachedKind := nat.via CachedKind.ctorIdx
  (fun n => match n with
    | 0 => .create | 1 => .patch | 2 => .metadataPatch | 3 => .delete | 4 => .share
    | 5 => .revoke | _ => .reportOutcome) (by
  intro k
  cases k <;> rfl)

def deliveryStatus : Codec DeliveryStatus := nat.via DeliveryStatus.ctorIdx
  (fun n => match n with | 0 => .accepted | 1 => .rejected | 2 => .humanRequired | _ => .unknown)
  (by
  intro s
  cases s <;> rfl)

def privateAction : Codec PrivateAction := nat.via PrivateAction.ctorIdx
  (fun n => match n with | 0 => .use | 1 => .register | _ => .login) (by
  intro a
  cases a <;> rfl)

def auditAction : Codec AuditAction := nat.via AuditAction.ctorIdx
  (fun n => match n with | 0 => .mutation | 1 => .metadataRead | 2 => .secretRead | _ => .secretUse)
  (by
  intro a
  cases a <;> rfl)

def digest : Codec Digest := byte.list

def fields : Codec Fields := field.finset

def secretInput : Codec SecretInput := field.ordMap string

def permissionList (s : Permissions) : List Permission :=
  [Permission.metadataRead, .secretUse, .secretRead, .secretWrite, .accessGrant,
    .entryDelete].filter (· ∈ s)

def permissions : Codec Permissions := permission.list.via permissionList List.toFinset (by
  intro s
  ext p
  cases p <;> simp [permissionList])

def shareBounds : Codec ShareBounds :=
  (string.finset.pair (fields.pair (permissions.pair (string.finset.pair
    (int.pair bool))))).via
    (fun b => (b.recipients, b.fields, b.permissions, b.destinations, b.expiresAt,
      b.allowFollowActive))
    (fun (recipients, fields, permissions, destinations, expiresAt, allowFollowActive) =>
      { recipients, fields, permissions, destinations, expiresAt, allowFollowActive })
    fun _ => rfl

def taskApproval : Codec TaskApproval :=
  (nat.pair (string.pair (string.pair (string.pair (string.pair (string.pair (fields.pair
    (permissions.pair (string.finset.pair (int.pair shareBounds.option)))))))))).via
    (fun t => (t.id, t.owner, t.principal, t.workspace, t.service, t.origin, t.fields,
      t.permissions, t.destinations, t.expiresAt, t.share))
    (fun (id, owner, principal, workspace, service, origin, fields, permissions, destinations,
      expiresAt, share) => { id, owner, principal, workspace, service, origin, fields
                             permissions, destinations, expiresAt, share })
    fun _ => rfl

def recordDocument : Codec RecordDocument :=
  (nat.pair (string.pair (string.pair (string.pair (nat.pair (string.pair (string.pair
    (credentialKind.pair (word64.pair (word64.pair ((field.pair string).list.pair
      (signupState.pair (bool.pair bool))))))))))))).via
    (fun r => (r.id, r.owner, r.workspace, r.createdBy, r.task, r.service, r.origin, r.kind,
      r.revision, r.secretVersion, r.values, r.signup, r.deleted, r.restored))
    (fun (id, owner, workspace, createdBy, task, service, origin, kind, revision, secretVersion,
      values, signup, deleted, restored) => {
        id, owner, workspace, createdBy, task, service, origin, kind, revision, secretVersion
        values, signup, deleted, restored })
    fun _ => rfl

def grantSpec : Codec GrantSpec :=
  (string.pair (fields.pair (permissions.pair (string.finset.pair (int.pair bool))))).via
    (fun s => (s.recipient, s.fields, s.permissions, s.destinations, s.expiresAt, s.followActive))
    (fun (recipient, fields, permissions, destinations, expiresAt, followActive) =>
      { recipient, fields, permissions, destinations, expiresAt, followActive })
    fun _ => rfl

def grant : Codec Grant :=
  (nat.pair (grantSpec.pair (bool.pair (word64.pair (nat.pair bool))))).via
    (fun g => (g.record, g.spec, g.revoked, g.version, g.issuerTask, g.adminIssued))
    (fun (record, spec, revoked, version, issuerTask, adminIssued) =>
      { record, spec, revoked, version, issuerTask, adminIssued })
    fun _ => rfl

def receipt : Codec Receipt :=
  (nat.pair (word64.pair nat.option)).via (fun r => (r.record, r.revision, r.grant))
    (fun (record, revision, grant) => { record, revision, grant }) fun _ => rfl

def requestKey : Codec RequestKey :=
  (string.pair (string.pair (nat.pair nat))).via (fun k => (k.owner, k.principal, k.task, k.id))
    (fun (owner, principal, task, id) => { owner, principal, task, id }) fun _ => rfl

def remembered : Codec Remembered :=
  (digest.pair (receipt.pair (cachedKind.pair int.option))).via
    (fun c => (c.fingerprint, c.result, c.kind, c.storedAt))
    (fun (fingerprint, result, kind, storedAt) => { fingerprint, result, kind, storedAt })
    fun _ => rfl

def recordBaseline : Codec RecordBaseline :=
  (word64.pair (word64.pair (bool.pair (nat.list.pair (bool.pair bool))))).via
    (fun b => (b.through, b.secretVersion, b.deletePruned, b.prunedGrants,
      b.registrationDispatched, b.verifiedLogin))
    (fun (through, secretVersion, deletePruned, prunedGrants, registrationDispatched,
      verifiedLogin) => { through, secretVersion, deletePruned, prunedGrants
                          registrationDispatched, verifiedLogin })
    fun _ => rfl

def deliveryAttempt : Codec DeliveryAttempt :=
  (nat.pair (nat.pair (word64.pair (string.pair (fields.pair (deliveryStatus.option.pair
    (requestKey.pair (digest.pair (privateAction.pair (bool.pair int.option)))))))))).via
    (fun d => (d.task, d.record, d.version, d.destination, d.fields, d.status, d.key,
      d.fingerprint, d.action, d.dispatched, d.storedAt))
    (fun (task, record, version, destination, fields, status, key, fingerprint, action,
      dispatched, storedAt) => { task, record, version, destination, fields, status, key
                                 fingerprint, action, dispatched, storedAt })
    fun _ => rfl

def auditEvent : Codec AuditEvent :=
  (nat.pair (nat.pair (nat.option.pair (auditAction.pair (int.pair string))))).via
    (fun e => (e.task, e.record, e.request, e.action, e.loggedAt, e.principal))
    (fun (task, record, request, action, loggedAt, principal) =>
      { task, record, request, action, loggedAt, principal })
    fun _ => rfl

def snapshotDocument : Codec SnapshotDocument :=
  (word32.pair (word64.pair (taskApproval.list.pair (recordDocument.list.pair
    ((nat.pair grant).list.pair ((requestKey.pair remembered).list.pair (nat.list.pair
      ((nat.pair deliveryAttempt).list.pair (auditEvent.list.pair (int.option.pair
        (bool.pair ((nat.pair recordBaseline).list.pair digest.option)))))))))))).via
    (fun s => (s.schema, s.generation, s.tasks, s.records, s.grants, s.requests, s.revokedTasks,
      s.deliveries, s.audit, s.lastTime, s.clockFrozen, s.baselines, s.predecessor))
    (fun (schema, generation, tasks, records, grants, requests, revokedTasks, deliveries, audit,
      lastTime, clockFrozen, baselines, predecessor) => {
        schema, generation, tasks, records, grants, requests, revokedTasks, deliveries, audit
        lastTime, clockFrozen, baselines, predecessor })
    fun _ => rfl

def generationPolicy : Codec GenerationPolicy :=
  (byte.pair (bool.pair bool)).via (fun p => (p.length, p.symbols, p.requireClasses))
    (fun (length, symbols, requireClasses) => { length, symbols, requireClasses }) fun _ => rfl

/-- One optional part for each constructor. -/
def mutation : Codec Mutation :=
  ((credentialKind.pair secretInput).option.pair
    ((credentialKind.pair (string.option.pair generationPolicy.option)).option.pair
      ((nat.pair (word64.pair secretInput)).option.pair ((nat.pair word64).option.pair
        ((nat.pair (word64.pair grantSpec)).option.pair
          ((nat.pair (word64.pair nat)).option.pair
            (nat.pair (word64.pair signupState)).option)))))).embed
    (fun op => match op with
      | .create kind values => (some (kind, values), none, none, none, none, none, none)
      | .generate kind username policy =>
        (none, some (kind, username, policy), none, none, none, none, none)
      | .patch record expected values =>
        (none, none, some (record, expected, values), none, none, none, none)
      | .delete record expected => (none, none, none, some (record, expected), none, none, none)
      | .share record expected spec =>
        (none, none, none, none, some (record, expected, spec), none, none)
      | .revoke record expected grant =>
        (none, none, none, none, none, some (record, expected, grant), none)
      | .reportOutcome record expected state =>
        (none, none, none, none, none, none, some (record, expected, state)))
    (fun parts => match parts with
      | (some (kind, values), _) => some (.create kind values)
      | (_, some (kind, username, policy), _) => some (.generate kind username policy)
      | (_, _, some (record, expected, values), _) => some (.patch record expected values)
      | (_, _, _, some (record, expected), _) => some (.delete record expected)
      | (_, _, _, _, some (record, expected, spec), _) => some (.share record expected spec)
      | (_, _, _, _, _, some (record, expected, grant), _) => some (.revoke record expected grant)
      | (_, _, _, _, _, _, some (record, expected, state)) =>
        some (.reportOutcome record expected state)
      | _ => none) (by
    intro op
    cases op <;> rfl)

def privateUse : Codec PrivateUse :=
  (nat.pair (nat.pair (fields.pair (string.pair privateAction)))).via
    (fun u => (u.request, u.record, u.fields, u.destination, u.action))
    (fun (request, record, fields, destination, action) =>
      { request, record, fields, destination, action })
    fun _ => rfl

end Codec

namespace Platform

/-- Both phrases are valid BIP39. -/
def referencePhrases : List String :=
  ["abandon abandon abandon abandon abandon abandon abandon abandon abandon abandon abandon about",
    "legal winner thank year wave sausage worth useful legal winner thank yellow"]

def referenceTag (key : VaultKey) : Bytes := key.toList.take 16

def referenceDecrypt (key : VaultKey) (ciphertext : Bytes) : Option Bytes :=
  if 16 ≤ ciphertext.length ∧ ciphertext.drop (ciphertext.length - 16) = referenceTag key then
    some (ciphertext.take (ciphertext.length - 16))
  else none

def reference : Platform where
  documentJson := Codec.snapshotDocument.enc
  parseDocument := Codec.snapshotDocument.read
  mutationJson := Codec.mutation.enc
  privateUseJson := Codec.privateUse.enc
  sha256 := id
  validMnemonic phrase := referencePhrases.contains phrase
  argon2 password salt _ := some (Vector.ofFn fun i => (password ++ salt.toList).getD i 0)
  encrypt key _ plaintext _ := plaintext ++ referenceTag key
  decrypt key _ ciphertext _ := referenceDecrypt key ciphertext
  uuid n := n + 1
  salt n := Vector.ofFn fun _ => UInt8.ofNat n
  nonce n := Vector.ofFn fun _ => UInt8.ofNat n
  osRng n := List.replicate 8 fun i => UInt8.ofNat (n + 37 * i)

theorem length_referenceTag (key : VaultKey) : (referenceTag key).length = 16 := by
  simp [referenceTag]

theorem reference_seals : reference.Seals where
  parse_document s := Codec.snapshotDocument.read_enc s.document
  decrypt_encrypt key nonce plaintext aad := by
    simp [reference, referenceDecrypt, length_referenceTag]
  decrypt_unique key key' nonce ciphertext aad plaintext plaintext' h h' := by
    simp only [reference, referenceDecrypt, Option.ite_none_right_eq_some, Option.some.injEq] at h h'
    exact h.2.symm.trans h'.2
  encrypt_length key nonce plaintext aad := by
    simp [reference, length_referenceTag]

theorem reference_freshIds : reference.FreshIds where
  uuid_ne_nil n := Nat.succ_ne_zero n
  uuid_injective _ _ h := Nat.succ_injective h

theorem reference_fingerprints : reference.Fingerprints where
  mutation_injective := Codec.mutation.enc_injective

end Platform

end Credman
