import Credman.StrictJson
import Credman.Library.Codec

/-! A tokenizer and a printer that keep what is asked of serde_json. Literals,
strings and punctuation are JSON's own; control characters stand unescaped and
numbers follow a byte that UTF-8 never uses. -/
namespace Credman

open Library

namespace JsonText

def escapeByte (b : UInt8) : Bytes := if b = 34 ∨ b = 92 then [92, b] else [b]

/-- The bytes up to the closing quote, and what follows it; after a backslash any byte stands
for itself. -/
def unescape : Bool → Bytes → Option (Bytes × Bytes)
  | _, [] => none
  | true, b :: rest => (unescape false rest).map fun out => (b :: out.1, out.2)
  | false, b :: rest =>
    if b = 34 then some ([], rest)
    else if b = 92 then unescape true rest
    else (unescape false rest).map fun out => (b :: out.1, out.2)

theorem unescape_escapeByte (b : UInt8) (rest : Bytes) :
    unescape false (escapeByte b ++ rest)
      = (unescape false rest).map fun out => (b :: out.1, out.2) := by
  unfold escapeByte
  split
  case isTrue => simp [unescape]
  case isFalse h =>
    rw [not_or] at h
    simp [unescape, h]

theorem unescape_flatMap (bytes rest : Bytes) :
    unescape false (bytes.flatMap escapeByte ++ 34 :: rest) = some (bytes, rest) := by
  induction bytes with
  | nil => simp [unescape]
  | cons b bytes ih =>
    rw [List.flatMap_cons, List.append_assoc, unescape_escapeByte, ih]
    rfl

def string : Codec String where
  enc s := 34 :: (s.toByteArray.data.toList.flatMap escapeByte ++ [34])
  dec
    | 34 :: bytes => (unescape false bytes).bind fun out =>
      (String.fromUTF8? ⟨out.1.toArray⟩).map (·, out.2)
    | _ => none
  dec_enc s rest := by
    have hvalid : String.fromUTF8? ⟨s.toByteArray.data.toList.toArray⟩ = some s := by
      rw [Array.toArray_toList]
      exact dif_pos s.isValidUTF8
    simp only [List.cons_append, List.append_assoc, List.nil_append, unescape_flatMap,
      Option.bind_some, hvalid, Option.map_some]

def token : Codec Token where
  enc
    | .null => [110, 117, 108, 108]
    | .bool true => [116, 114, 117, 101]
    | .bool false => [102, 97, 108, 115, 101]
    | .u64 n => 0xf8 :: Codec.word64.enc n
    | .i64 n => 0xf9 :: Codec.word64.enc n.toUInt64
    | .f64 bits => 0xfa :: Codec.word64.enc bits
    | .string s => string.enc s
    | .leftBracket => [91]
    | .rightBracket => [93]
    | .leftBrace => [123]
    | .rightBrace => [125]
    | .comma => [44]
    | .colon => [58]
  dec
    | 110 :: 117 :: 108 :: 108 :: rest => some (.null, rest)
    | 116 :: 114 :: 117 :: 101 :: rest => some (.bool true, rest)
    | 102 :: 97 :: 108 :: 115 :: 101 :: rest => some (.bool false, rest)
    | 0xf8 :: rest => (Codec.word64.dec rest).map fun out => (.u64 out.1, out.2)
    | 0xf9 :: rest => (Codec.word64.dec rest).map fun out => (.i64 out.1.toInt64, out.2)
    | 0xfa :: rest => (Codec.word64.dec rest).map fun out => (.f64 out.1, out.2)
    | 91 :: rest => some (.leftBracket, rest)
    | 93 :: rest => some (.rightBracket, rest)
    | 123 :: rest => some (.leftBrace, rest)
    | 125 :: rest => some (.rightBrace, rest)
    | 44 :: rest => some (.comma, rest)
    | 58 :: rest => some (.colon, rest)
    | bytes => (string.dec bytes).map fun out => (.string out.1, out.2)
  dec_enc t rest := by
    cases t with
    | null | leftBracket | rightBracket | leftBrace | rightBrace | comma | colon => rfl
    | bool b => cases b <;> rfl
    | u64 n => simp [Codec.word64.dec_enc]
    | i64 n => simp [Codec.word64.dec_enc]
    | f64 bits => simp [Codec.word64.dec_enc]
    | string s =>
      change (string.dec (string.enc s ++ rest)).map (fun out => (Token.string out.1, out.2)) = _
      rw [string.dec_enc]
      rfl

/-- Reading tokens until the bytes run out. -/
def readTokens : Nat → Bytes → Option (List Token)
  | _, [] => some []
  | 0, _ => none
  | fuel + 1, bytes => (token.dec bytes).bind fun out =>
    (readTokens fuel out.2).map fun tokens => out.1 :: tokens

theorem enc_eq_cons (t : Token) : ∃ b tail, token.enc t = b :: tail := by
  cases t with
  | bool b => cases b <;> exact ⟨_, _, rfl⟩
  | _ => exact ⟨_, _, rfl⟩

theorem length_le_flatMap (tokens : List Token) :
    tokens.length ≤ (tokens.flatMap token.enc).length := by
  induction tokens with
  | nil => exact Nat.le_refl _
  | cons t tokens ih =>
    obtain ⟨b, tail, henc⟩ := enc_eq_cons t
    rw [List.flatMap_cons, henc, List.length_append, List.length_cons, List.length_cons]
    omega

theorem readTokens_flatMap {tokens : List Token} {fuel : Nat} (h : tokens.length ≤ fuel) :
    readTokens fuel (tokens.flatMap token.enc) = some tokens := by
  induction tokens generalizing fuel with
  | nil => cases fuel <;> rfl
  | cons t tokens ih =>
    rw [List.length_cons] at h
    obtain ⟨fuel, rfl⟩ : ∃ n, fuel = n + 1 := ⟨fuel - 1, by omega⟩
    obtain ⟨b, tail, henc⟩ := enc_eq_cons t
    have hread := token.dec_enc t (tokens.flatMap token.enc)
    rw [List.flatMap_cons]
    rw [henc, List.cons_append] at hread ⊢
    unfold readTokens
    simp only [hread, Option.bind_some, ih (Nat.le_of_succ_le_succ h), Option.map_some]

instance (t : Token) : Decidable (Token.Proper t) := by
  cases t <;> unfold Token.Proper <;> infer_instance

/-- The number of bytes bounds the number of tokens. -/
def tokenize (bytes : Bytes) : Option (List Token) :=
  (readTokens bytes.length bytes).filter fun tokens => tokens.all fun t => decide (Token.Proper t)

theorem proper_tokens (v : Json) : ∀ t ∈ v.tokens, Token.Proper t := by
  induction v with
  | null | bool | string => simp [Json.tokens, Token.Proper]
  | number n =>
    rw [Json.tokens, List.forall_mem_singleton]
    cases n with
    | posInt n => trivial
    | negInt n h => exact h
    | float bits h => exact h
  | array values ih =>
    have helements : ∀ first, ∀ t ∈ Json.elements first values, Token.Proper t := by
      induction values with
      | nil => simp [Json.elements, Token.Proper]
      | cons v vs ihs =>
        obtain ⟨hv, hvs⟩ := List.forall_mem_cons.mp ih
        intro first
        have hrest := ihs hvs false
        cases first <;> simp only [Json.elements, Bool.false_eq_true, if_true, if_false,
          List.forall_mem_append, List.forall_mem_cons, List.nil_append]
        · exact ⟨⟨trivial, fun _ h => absurd h List.not_mem_nil⟩, hv, hrest⟩
        · exact ⟨hv, hrest⟩
    exact List.forall_mem_cons.mpr ⟨trivial, helements true⟩
  | object members ih =>
    have hmembers : ∀ first, ∀ t ∈ Json.memberTokens first members, Token.Proper t := by
      induction members with
      | nil => simp [Json.memberTokens, Token.Proper]
      | cons m ms ihs =>
        obtain ⟨hm, hms⟩ := List.forall_mem_cons.mp ih
        intro first
        have hrest := ihs hms false
        cases first <;> simp only [Json.memberTokens, Bool.false_eq_true, if_true, if_false,
          List.forall_mem_append, List.forall_mem_cons, List.nil_append]
        · exact ⟨⟨trivial, fun _ h => absurd h List.not_mem_nil⟩, trivial, trivial, hm, hrest⟩
        · exact ⟨trivial, trivial, hm, hrest⟩
    exact List.forall_mem_cons.mpr ⟨trivial, hmembers true⟩

end JsonText

def SerdeJson.reference : SerdeJson where
  tokenize := JsonText.tokenize
  writes v := v.tokens.map JsonText.token.enc

theorem SerdeJson.reference_implements : SerdeJson.reference.Implements where
  tokenize_nil := rfl
  proper bytes tokens h t ht := by
    obtain ⟨-, hall⟩ := Option.filter_eq_some_iff.mp h
    exact of_decide_eq_true (List.all_eq_true.mp hall t ht)
  tokenize_writes v _ := by
    have hread := JsonText.readTokens_flatMap (JsonText.length_le_flatMap v.tokens)
    rw [List.flatMap_def] at hread
    change JsonText.tokenize (v.tokens.map JsonText.token.enc).flatten = _
    rw [JsonText.tokenize, hread, Option.filter_eq_some_iff]
    refine ⟨rfl, List.all_eq_true.mpr fun t ht => ?_⟩
    exact decide_eq_true (JsonText.proper_tokens v t ht)

/-- No token is longer than the text it is in. -/
theorem SerdeJson.length_token_le {v : Json} {t : Token} (ht : t ∈ v.tokens) :
    (JsonText.token.enc t).length ≤ (SerdeJson.reference.writes v).flatten.length := by
  change _ ≤ (v.tokens.map JsonText.token.enc).flatten.length
  obtain ⟨before, after, hsplit⟩ := List.append_of_mem ht
  rw [hsplit, List.map_append, List.map_cons, List.flatten_append, List.flatten_cons,
    List.length_append, List.length_append]
  omega

/-- A string takes its own bytes and two quotes. -/
theorem JsonText.length_string_le (s : String) :
    s.utf8ByteSize + 2 ≤ (JsonText.token.enc (.string s)).length := by
  have hbytes : ∀ bytes : Bytes, bytes.length ≤ (bytes.flatMap JsonText.escapeByte).length := by
    intro bytes
    induction bytes with
    | nil => exact le_refl _
    | cons b bytes ih =>
      have hone : 1 ≤ (JsonText.escapeByte b).length := by
        unfold JsonText.escapeByte
        split_ifs <;> simp
      rw [List.flatMap_cons, List.length_append, List.length_cons]
      omega
  have hsize := hbytes s.toByteArray.data.toList
  have hlength : s.toByteArray.data.toList.length = s.utf8ByteSize := Array.length_toList
  change _ ≤ (34 :: (s.toByteArray.data.toList.flatMap JsonText.escapeByte ++ [34])).length
  rw [List.length_cons, List.length_append, List.length_singleton]
  omega

end Credman
