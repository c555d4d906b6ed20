import Credman.Platform

/-! Private credential generation by rejection sampling. -/
namespace Credman

open Library

def generationAlphabet : List Char :=
  "ABCDEFGHIJKLMNOPQRSTUVWXYZabcdefghijklmnopqrstuvwxyz0123456789-_".toList

def generationSymbols : List Char := "!@#$%^&*+=?".toList

def generationFields (kind : CredentialKind) (username : Option String) : Except Error Fields :=
  match kind, username with
  | .login, some name =>
    if name ≠ "" ∧ name.utf8ByteSize ≤ 2048 then .ok {.username, .password} else .error .invalid
  | .apiKey, none => .ok {.apiKey}
  | _, _ => .error .invalid

/-- Bytes at or above the largest multiple of `span` below 256 are discarded. -/
def generationIndex (byte : UInt8) (span : Nat) : Option Nat :=
  if span = 0 ∨ 256 < span then none
  else
    let limit := 256 / span * span
    if byte.toNat < limit then some (byte.toNat % span) else none

/-- `OsRng::try_fill_bytes` on a buffer of `n` bytes. -/
def tryFillBytes (n : Nat) : Entropy → Except Error (Bytes × Entropy)
  | [] => .error .generationUnavailable
  | block :: rest => .ok ((List.range n).map block, rest)

def pushSampled (alphabet : List Char) (length : Nat) (secret : String) : Bytes → String
  | [] => secret
  | byte :: rest =>
    if secret.utf8ByteSize = length then secret
    else
      match (generationIndex byte alphabet.length).bind (alphabet[·]?) with
      | some char => pushSampled alphabet length (secret.push char) rest
      | none => pushSampled alphabet length secret rest

/-- The `while` loop of `sample_secret`, entered with the characters so far. -/
def sampleLoop (alphabet : List Char) (length : Nat) (secret : String) :
    Entropy → Except Error (String × Entropy)
  | [] =>
    if secret.utf8ByteSize < length then .error .generationUnavailable else .ok (secret, [])
  | block :: rest =>
    if secret.utf8ByteSize < length then
      sampleLoop alphabet length
        (pushSampled alphabet length secret ((List.range 128).map block)) rest
    else .ok (secret, block :: rest)

def sampleSecret (alphabet : List Char) (length : Nat) (entropy : Entropy) :
    Except Error (String × Entropy) :=
  sampleLoop alphabet length "" entropy

def classesPresent (secret : String) (symbols : Bool) : Bool :=
  secret.toList.any (fun c => 'A' ≤ c && c ≤ 'Z')
    && secret.toList.any (fun c => 'a' ≤ c && c ≤ 'z')
    && secret.toList.any (fun c => '0' ≤ c && c ≤ '9')
    && (!symbols || secret.toList.any (generationSymbols.contains ·))

/-- Whole-value retries keep required classes from pinning positions. -/
def generateLoop (policy : GenerationPolicy) (alphabet : List Char) :
    Nat → Entropy → Except Error (String × Entropy)
  | 0, _ => .error .generationUnavailable
  | tries + 1, entropy =>
    match sampleSecret alphabet policy.length.toNat entropy with
    | .error e => .error e
    | .ok (secret, rest) =>
      if !policy.requireClasses || classesPresent secret policy.symbols then .ok (secret, rest)
      else generateLoop policy alphabet tries rest

def generateSecret (policy : Option GenerationPolicy) (entropy : Entropy) :
    Except Error (String × Entropy) :=
  match policy with
  | none =>
    match tryFillBytes 32 entropy with
    | .error e => .error e
    | .ok (random, rest) =>
      .ok (random.foldl (fun secret byte =>
        secret.push ((generationAlphabet[(byte &&& 63).toNat]?).getD 'A')) "", rest)
  | some policy =>
    if !policy.valid then .error .invalid
    else
      let alphabet :=
        if policy.symbols then generationAlphabet ++ generationSymbols else generationAlphabet
      generateLoop policy alphabet 128 entropy

def generateValues (kind : CredentialKind) (username : Option String)
    (policy : Option GenerationPolicy) (entropy : Entropy) : Except Error SecretInput :=
  match generateSecret policy entropy with
  | .error e => .error e
  | .ok (secret, _) =>
    match kind with
    | .login =>
      match username with
      | none => .error .invalid
      | some name => .ok (((∅ : SecretInput).insert .username name).insert .password secret)
    | .apiKey => .ok ((∅ : SecretInput).insert .apiKey secret)

end Credman
