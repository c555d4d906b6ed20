import Credman.Library.Json
import Credman.Platform

/-! Bounded JSON: the visitor that refuses deep documents and repeated keys,
and what it accepts. -/
namespace Credman

open Library

def maxNesting : Nat := 32

/-- serde_json: the tokens of a byte string, and the writes that print a value. -/
structure SerdeJson where
  tokenize : Bytes → Option (List Token)
  writes : Json → List Bytes

/-- A number token is negative where it is signed, and finite. -/
def Token.Proper : Token → Prop
  | .i64 n => n < 0
  | .f64 bits => finiteBits bits = true
  | _ => True

/-- The tokenizer and the printer implement JSON. -/
structure SerdeJson.Implements (S : SerdeJson) : Prop where
  tokenize_nil : S.tokenize [] = some []
  proper : ∀ bytes tokens, S.tokenize bytes = some tokens → ∀ t ∈ tokens, Token.Proper t
  tokenize_writes : ∀ v : Json, v.Integral → S.tokenize (S.writes v).flatten = some v.tokens

/-- A comma before every element but the first. -/
def separated : Bool → List Token → Option (List Token)
  | true, tokens => some tokens
  | false, .comma :: rest => some rest
  | false, _ => none

mutual

/-- `JsonSeed(depth).deserialize`. -/
def deserialize : Nat → Nat → List Token → Option (Json × List Token)
  | 0, _, _ => none
  | fuel + 1, depth, tokens =>
    match tokens with
    | .null :: rest => some (.null, rest)
    | .bool b :: rest => some (.bool b, rest)
    | .u64 n :: rest => some (.number (.posInt n), rest)
    | .i64 n :: rest =>
      some (.number (if h : n < 0 then .negInt n h else .posInt n.toUInt64), rest)
    | .f64 bits :: rest =>
      if h : finiteBits bits = true then some (.number (.float bits h), rest) else none
    | .string s :: rest => some (.string s, rest)
    | .leftBracket :: rest =>
      if maxNesting ≤ depth then none
      else (visitSeq fuel depth true rest).map fun out => (.array out.1, out.2)
    | .leftBrace :: rest =>
      if maxNesting ≤ depth then none
      else (visitMap fuel depth true ∅ ∅ rest).map fun out => (.object out.1.entries, out.2)
    | _ => none

/-- The elements of a sequence, and its end. -/
def visitSeq : Nat → Nat → Bool → List Token → Option (List Json × List Token)
  | 0, _, _, _ => none
  | fuel + 1, depth, first, tokens =>
    match tokens with
    | .rightBracket :: rest => some ([], rest)
    | tokens => do
      let tokens ← separated first tokens
      let (v, tokens) ← deserialize fuel (depth + 1) tokens
      let (values, tokens) ← visitSeq fuel depth false tokens
      some (v :: values, tokens)

/-- The entries of a map, and its end. -/
def visitMap : Nat → Nat → Bool → Finset String → OrdMap String Json → List Token →
    Option (OrdMap String Json × List Token)
  | 0, _, _, _, _, _ => none
  | fuel + 1, depth, first, keys, values, tokens =>
    match tokens with
    | .rightBrace :: rest => some (values, rest)
    | tokens => do
      match ← separated first tokens with
      | .string key :: .colon :: tokens =>
        if key ∈ keys then none
        else
          let (v, tokens) ← deserialize fuel (depth + 1) tokens
          visitMap fuel depth false (insert key keys) (values.insert key v) tokens
      | _ => none

end

inductive ChannelError where
  | invalidConfiguration | invalidFrame | io | timeout | poisoned
  deriving DecidableEq, Repr

/-- One document and nothing after it; the number of tokens bounds the recursion. -/
def strictJson (S : SerdeJson) (bytes : Bytes) : Except ChannelError Json :=
  match S.tokenize bytes with
  | none => .error .invalidFrame
  | some tokens =>
    match deserialize tokens.length 0 tokens with
    | some (v, []) => .ok v
    | _ => .error .invalidFrame

/-- What a document may be where `depth` containers are already open. -/
def Fits (depth : Nat) (doc : Json) : Prop := doc.UniqueKeys ∧ depth + doc.depth ≤ maxNesting

variable {fuel depth : Nat} {first : Bool} {tokens rest : List Token} {doc : Json}

theorem nested_le {inner : Nat} : depth + (inner + 1) ≤ maxNesting
    ↔ depth < maxNesting ∧ inner ≤ maxNesting - (depth + 1) := by
  omega

theorem fits_succ (hlt : depth < maxNesting) :
    Fits (depth + 1) doc ↔ doc.UniqueKeys ∧ doc.depth ≤ maxNesting - (depth + 1) :=
  and_congr_right fun _ => by omega

theorem fits_array {values : List Json} :
    Fits depth (.array values) ↔ depth < maxNesting ∧ ∀ v ∈ values, Fits (depth + 1) v := by
  unfold Fits Json.UniqueKeys
  rw [Json.everywhere_array, Json.depth, nested_le, Json.depthElements_le]
  constructor
  · rintro ⟨⟨_, hunique⟩, hlt, hdepth⟩
    exact ⟨hlt, fun v hv => (fits_succ hlt).mpr ⟨hunique v hv, hdepth v hv⟩⟩
  · rintro ⟨hlt, hall⟩
    have hfits : ∀ v ∈ values, _ := fun v hv => (fits_succ hlt).mp (hall v hv)
    exact ⟨⟨trivial, fun v hv => (hfits v hv).1⟩, hlt, fun v hv => (hfits v hv).2⟩

theorem fits_object {members : List (String × Json)} :
    Fits depth (.object members) ↔ depth < maxNesting ∧ (members.map Prod.fst).Nodup
      ∧ ∀ m ∈ members, Fits (depth + 1) m.2 := by
  unfold Fits Json.UniqueKeys
  rw [Json.everywhere_object, Json.depth, nested_le, Json.depthMembers_le]
  constructor
  · rintro ⟨⟨hdistinct, hunique⟩, hlt, hdepth⟩
    exact ⟨hlt, hdistinct, fun m hm => (fits_succ hlt).mpr ⟨hunique m hm, hdepth m hm⟩⟩
  · rintro ⟨hlt, hdistinct, hall⟩
    have hfits : ∀ m ∈ members, _ := fun m hm => (fits_succ hlt).mp (hall m hm)
    exact ⟨⟨hdistinct, fun m hm => (hfits m hm).1⟩, hlt, fun m hm => (hfits m hm).2⟩

section Soundness

def Reads (fuel : Nat) : Prop :=
  ∀ depth tokens v rest, depth ≤ maxNesting → (∀ t ∈ tokens, Token.Proper t) →
    deserialize fuel depth tokens = some (v, rest) →
    ∃ doc : Json, tokens = doc.tokens ++ rest ∧ Fits depth doc ∧ v = doc.value

def ReadsSeq (fuel : Nat) : Prop :=
  ∀ depth first tokens values rest, depth < maxNesting → (∀ t ∈ tokens, Token.Proper t) →
    visitSeq fuel depth first tokens = some (values, rest) →
    ∃ docs : List Json, tokens = Json.elements first docs ++ rest
      ∧ (∀ doc ∈ docs, Fits (depth + 1) doc) ∧ values = docs.map Json.value

def ReadsMap (fuel : Nat) : Prop :=
  ∀ depth first keys values tokens values' rest, depth < maxNesting →
    (∀ t ∈ tokens, Token.Proper t) →
    visitMap fuel depth first keys values tokens = some (values', rest) →
    ∃ docs : List (String × Json), tokens = Json.memberTokens first docs ++ rest
      ∧ (∀ m ∈ docs, Fits (depth + 1) m.2) ∧ (docs.map Prod.fst).Nodup
      ∧ (∀ m ∈ docs, m.1 ∉ keys)
      ∧ values' = (Json.valueMembers docs).foldl (fun acc e => acc.insert e.1 e.2) values

theorem Reads.succ (hseq : ReadsSeq fuel) (hmap : ReadsMap fuel) : Reads (fuel + 1) := by
  intro depth tokens v rest hdepth hproper h
  have hscalar : ∀ doc : Json, doc.UniqueKeys → doc.depth = 0 → Fits depth doc :=
    fun doc hunique hzero => ⟨hunique, by rw [hzero]; exact hdepth⟩
  unfold deserialize at h
  split at h
  case h_1 =>
    cases h
    exact ⟨.null, rfl, hscalar _ trivial rfl, rfl⟩
  case h_2 b _ =>
    cases h
    exact ⟨.bool b, rfl, hscalar _ trivial rfl, rfl⟩
  case h_3 n _ =>
    cases h
    exact ⟨.number (.posInt n), rfl, hscalar _ trivial rfl, rfl⟩
  case h_4 n _ =>
    have hn : n < 0 := hproper (.i64 n) (by simp)
    rw [dif_pos hn] at h
    cases h
    exact ⟨.number (.negInt n hn), rfl, hscalar _ trivial rfl, rfl⟩
  case h_5 bits _ =>
    have hbits : finiteBits bits = true := hproper (.f64 bits) (by simp)
    rw [dif_pos hbits] at h
    cases h
    exact ⟨.number (.float bits hbits), rfl, hscalar _ trivial rfl, rfl⟩
  case h_6 s _ =>
    cases h
    exact ⟨.string s, rfl, hscalar _ trivial rfl, rfl⟩
  case h_7 tail =>
    split at h
    case isTrue => cases h
    case isFalse hlt =>
      obtain ⟨⟨values, _⟩, hvalues, hout⟩ := Option.map_eq_some_iff.mp h
      cases hout
      have htail : ∀ t ∈ tail, Token.Proper t := fun t ht => hproper t (by simp [ht])
      obtain ⟨docs, rfl, hfits, rfl⟩ := hseq _ _ _ _ _ (not_le.mp hlt) htail hvalues
      refine ⟨.array docs, rfl, fits_array.mpr ⟨not_le.mp hlt, hfits⟩, ?_⟩
      rw [Json.value, Json.valueElements_eq]
  case h_8 tail =>
    split at h
    case isTrue => cases h
    case isFalse hlt =>
      obtain ⟨⟨values, _⟩, hvalues, hout⟩ := Option.map_eq_some_iff.mp h
      cases hout
      have htail : ∀ t ∈ tail, Token.Proper t := fun t ht => hproper t (by simp [ht])
      obtain ⟨docs, rfl, hfits, hdistinct, -, rfl⟩ := hmap _ _ _ _ _ _ _ (not_le.mp hlt) htail hvalues
      exact ⟨.object docs, rfl, fits_object.mpr ⟨not_le.mp hlt, hdistinct, hfits⟩, rfl⟩
  case h_9 => cases h

theorem separated_eq_some (h : separated first tokens = some rest) :
    tokens = (if first then [] else [.comma]) ++ rest := by
  cases first with
  | true =>
    cases h
    rfl
  | false =>
    unfold separated at h
    split at h
    · contradiction
    · cases h
      rfl
    · cases h

theorem ReadsSeq.succ (hdoc : Reads fuel) (hseq : ReadsSeq fuel) : ReadsSeq (fuel + 1) := by
  intro depth first tokens values rest hlt hproper h
  unfold visitSeq at h
  split at h
  · cases h
    exact ⟨[], by simp [Json.elements], by simp, rfl⟩
  · obtain ⟨body, hbody, h⟩ := Option.bind_eq_some_iff.mp h
    obtain ⟨⟨v, after⟩, hv, h⟩ := Option.bind_eq_some_iff.mp h
    obtain ⟨⟨vs, rest'⟩, hvs, h⟩ := Option.bind_eq_some_iff.mp h
    cases h
    obtain rfl := separated_eq_some hbody
    have hbody' : ∀ t ∈ body, Token.Proper t := fun t ht => hproper t (by simp [ht])
    obtain ⟨doc, rfl, hfits, rfl⟩ := hdoc _ _ _ _ hlt hbody' hv
    have hafter : ∀ t ∈ after, Token.Proper t := fun t ht => hbody' t (by simp [ht])
    obtain ⟨docs, rfl, hall, rfl⟩ := hseq _ _ _ _ _ hlt hafter hvs
    refine ⟨doc :: docs, by simp [Json.elements], ?_, rfl⟩
    exact List.forall_mem_cons.mpr ⟨hfits, hall⟩

theorem ReadsMap.succ (hdoc : Reads fuel) (hmap : ReadsMap fuel) : ReadsMap (fuel + 1) := by
  intro depth first keys values tokens values' rest hlt hproper h
  unfold visitMap at h
  split at h
  · cases h
    exact ⟨[], by simp [Json.memberTokens], by simp, by simp, by simp, rfl⟩
  · obtain ⟨body, hbody, h⟩ := Option.bind_eq_some_iff.mp h
    split at h
    case h_2 => cases h
    case h_1 key tail =>
      split at h
      case isTrue => cases h
      case isFalse hkey =>
        obtain ⟨⟨v, after⟩, hv, h⟩ := Option.bind_eq_some_iff.mp h
        obtain rfl := separated_eq_some hbody
        have htail : ∀ t ∈ tail, Token.Proper t := fun t ht => hproper t (by simp [ht])
        obtain ⟨doc, rfl, hfits, rfl⟩ := hdoc _ _ _ _ hlt htail hv
        have hafter : ∀ t ∈ after, Token.Proper t := fun t ht => htail t (by simp [ht])
        obtain ⟨docs, rfl, hall, hdistinct, hfresh, rfl⟩ := hmap _ _ _ _ _ _ _ hlt hafter h
        refine ⟨(key, doc) :: docs, by simp [Json.memberTokens],
          List.forall_mem_cons.mpr ⟨hfits, hall⟩, ?_, ?_, rfl⟩
        · rw [List.map_cons, List.nodup_cons]
          refine ⟨?_, hdistinct⟩
          intro hin
          obtain ⟨m, hm, hsame⟩ := List.mem_map.mp hin
          exact hfresh m hm (hsame ▸ Finset.mem_insert_self key keys)
        · refine List.forall_mem_cons.mpr ⟨hkey, fun m hm hin => hfresh m hm ?_⟩
          exact Finset.mem_insert_of_mem hin

/-- What the visitor returns is the document it read, and that document is bounded. -/
theorem reads (fuel : Nat) : Reads fuel := by
  have hall : Reads fuel ∧ ReadsSeq fuel ∧ ReadsMap fuel := by
    induction fuel with
    | zero =>
      refine ⟨fun _ _ _ _ _ _ h => ?_, fun _ _ _ _ _ _ _ h => ?_, fun _ _ _ _ _ _ _ _ _ h => ?_⟩
      · simp [deserialize] at h
      · simp [visitSeq] at h
      · simp [visitMap] at h
    | succ fuel ih =>
      obtain ⟨hdoc, hseq, hmap⟩ := ih
      exact ⟨.succ hseq hmap, .succ hdoc hseq, .succ hdoc hmap⟩
  exact hall.1

end Soundness

section Completeness

/-- A document starts with a token that neither ends a container nor separates elements. -/
theorem tokens_eq_cons (doc : Json) : ∃ t tail, doc.tokens = t :: tail
    ∧ t ≠ .rightBracket ∧ t ≠ .rightBrace ∧ t ≠ .comma := by
  cases doc with
  | number n => cases n <;> exact ⟨_, [], rfl, by simp [Number.token]⟩
  | null | bool | string | array | object => exact ⟨_, _, rfl, by simp⟩

theorem length_tokens_pos (doc : Json) : 0 < doc.tokens.length := by
  obtain ⟨t, tail, htokens, -⟩ := tokens_eq_cons doc
  rw [htokens]
  exact Nat.succ_pos _

theorem length_elements_pos (first : Bool) (values : List Json) : 0 < (Json.elements first values).length := by
  cases values with
  | nil => simp [Json.elements]
  | cons v vs =>
    have hpos := length_tokens_pos v
    rw [Json.elements, List.length_append, List.length_append]
    omega

theorem length_memberTokens_pos (first : Bool) (members : List (String × Json)) :
    0 < (Json.memberTokens first members).length := by
  cases members <;> simp [Json.memberTokens]

theorem exists_succ (h : doc.tokens.length ≤ fuel) : ∃ n, fuel = n + 1 := by
  have hpos := length_tokens_pos doc
  exact ⟨fuel - 1, by omega⟩

/-- The rule of a sequence that goes on. -/
theorem visitSeq_cons {v : Json} {values : List Json} {after : List Token}
    (hhead : ∀ t tail, tokens = t :: tail → t ≠ .rightBracket)
    (hv : deserialize fuel (depth + 1) tokens = some (v, after))
    (hvalues : visitSeq fuel depth false after = some (values, rest)) :
    visitSeq (fuel + 1) depth first ((if first then [] else [.comma]) ++ tokens)
      = some (v :: values, rest) := by
  have hsep : separated first ((if first then [] else [.comma]) ++ tokens) = some tokens := by
    cases first <;> rfl
  unfold visitSeq
  split
  case h_1 tail heq =>
    cases first with
    | true => exact absurd rfl (hhead _ _ heq)
    | false => cases heq
  case h_2 =>
    rw [hsep]
    simp only [Option.bind_eq_bind, Option.bind_some, hv, hvalues]

theorem visitMap_cons {key : String} {v : Json} {keys : Finset String} {values values' : OrdMap String Json}
    {after : List Token} (hkey : key ∉ keys)
    (hv : deserialize fuel (depth + 1) tokens = some (v, after))
    (hvalues : visitMap fuel depth false (insert key keys) (values.insert key v) after
      = some (values', rest)) :
    visitMap (fuel + 1) depth first keys values
        ((if first then [] else [.comma]) ++ (.string key :: .colon :: tokens))
      = some (values', rest) := by
  have hsep : separated first ((if first then [] else [.comma]) ++ (.string key :: .colon :: tokens))
      = some (.string key :: .colon :: tokens) := by
    cases first <;> rfl
  unfold visitMap
  split
  case h_1 tail heq => cases first <;> cases heq
  case h_2 =>
    rw [hsep]
    simp only [Option.bind_eq_bind, Option.bind_some, hkey, if_false, hv, hvalues]

/-- The visitor reads `doc`, where it fits and whatever follows it. -/
def Readable (doc : Json) : Prop :=
  ∀ fuel depth rest, Fits depth doc → doc.tokens.length ≤ fuel →
    deserialize fuel depth (doc.tokens ++ rest) = some (doc.value, rest)

theorem visitSeq_elements (first : Bool) (rest : List Token) {values : List Json}
    (hall : ∀ v ∈ values, Readable v ∧ Fits (depth + 1) v)
    (hfuel : (Json.elements first values).length ≤ fuel) :
    visitSeq fuel depth first (Json.elements first values ++ rest)
      = some (values.map Json.value, rest) := by
  induction values generalizing first fuel with
  | nil =>
    have hpos := length_elements_pos first []
    obtain ⟨fuel, rfl⟩ : ∃ n, fuel = n + 1 := ⟨fuel - 1, by omega⟩
    simp [Json.elements, visitSeq]
  | cons v vs ih =>
    obtain ⟨⟨hread, hfits⟩, hrest⟩ := List.forall_mem_cons.mp hall
    rw [Json.elements, List.length_append, List.length_append] at hfuel
    have hpos := length_tokens_pos v
    have hpos' := length_elements_pos false vs
    obtain ⟨fuel, rfl⟩ : ∃ n, fuel = n + 1 := ⟨fuel - 1, by omega⟩
    rw [Json.elements, List.append_assoc, List.append_assoc]
    apply visitSeq_cons
    · obtain ⟨t, tail, htokens, hhead, -⟩ := tokens_eq_cons v
      rw [htokens]
      rintro _ _ ⟨⟩
      exact hhead
    · exact hread fuel _ _ hfits (by omega)
    · exact ih false hrest (by omega)

theorem visitMap_memberTokens (first : Bool) (keys : Finset String) (values : OrdMap String Json)
    (rest : List Token) {members : List (String × Json)}
    (hall : ∀ m ∈ members, Readable m.2 ∧ Fits (depth + 1) m.2)
    (hdistinct : (members.map Prod.fst).Nodup) (hfresh : ∀ m ∈ members, m.1 ∉ keys)
    (hfuel : (Json.memberTokens first members).length ≤ fuel) :
    visitMap fuel depth first keys values (Json.memberTokens first members ++ rest)
      = some ((Json.valueMembers members).foldl (fun acc e => acc.insert e.1 e.2) values, rest) := by
  induction members generalizing first fuel keys values with
  | nil =>
    have hpos := length_memberTokens_pos first []
    obtain ⟨fuel, rfl⟩ : ∃ n, fuel = n + 1 := ⟨fuel - 1, by omega⟩
    simp [Json.memberTokens, visitMap, Json.valueMembers]
  | cons m ms ih =>
    obtain ⟨⟨hread, hfits⟩, hrest⟩ := List.forall_mem_cons.mp hall
    obtain ⟨hkey, hkeys⟩ := List.forall_mem_cons.mp hfresh
    rw [List.map_cons, List.nodup_cons] at hdistinct
    rw [Json.memberTokens, List.length_append, List.length_cons, List.length_cons,
      List.length_append] at hfuel
    have hpos := length_memberTokens_pos false ms
    obtain ⟨fuel, rfl⟩ : ∃ n, fuel = n + 1 := ⟨fuel - 1, by omega⟩
    rw [Json.memberTokens, List.append_assoc, List.cons_append, List.cons_append, List.append_assoc]
    apply visitMap_cons hkey
    · exact hread fuel _ _ hfits (by omega)
    · apply ih false _ _ hrest hdistinct.2 _ (by omega)
      intro m' hm' hin
      rcases Finset.mem_insert.mp hin with hsame | hin'
      · exact hdistinct.1 (List.mem_map.mpr ⟨m', hm', hsame⟩)
      · exact hkeys m' hm' hin'

theorem readable (doc : Json) : Readable doc := by
  induction doc with
  | null | bool | string =>
    intro fuel depth rest _ hfuel
    obtain ⟨fuel, rfl⟩ := exists_succ hfuel
    simp [deserialize, Json.tokens, Json.value]
  | number n =>
    intro fuel depth rest _ hfuel
    obtain ⟨fuel, rfl⟩ := exists_succ hfuel
    cases n with
    | posInt n => simp [deserialize, Json.tokens, Json.value, Number.token]
    | negInt n h => simp [deserialize, Json.tokens, Json.value, Number.token, h]
    | float bits h => simp [deserialize, Json.tokens, Json.value, Number.token, h]
  | array values ih =>
    intro fuel depth rest hfits hfuel
    obtain ⟨fuel, rfl⟩ := exists_succ hfuel
    obtain ⟨hlt, hall⟩ := fits_array.mp hfits
    rw [Json.tokens, List.length_cons] at hfuel
    have hvalues := visitSeq_elements true rest
      (fun v hv => ⟨ih v hv, hall v hv⟩) (Nat.le_of_succ_le_succ hfuel)
    simp [deserialize, Json.tokens, not_le.mpr hlt, hvalues, Json.value, Json.valueElements_eq]
  | object members ih =>
    intro fuel depth rest hfits hfuel
    obtain ⟨fuel, rfl⟩ := exists_succ hfuel
    obtain ⟨hlt, hdistinct, hall⟩ := fits_object.mp hfits
    rw [Json.tokens, List.length_cons] at hfuel
    have hvalues := visitMap_memberTokens true ∅ ∅ rest
      (fun m hm => ⟨ih m hm, hall m hm⟩) hdistinct (by simp) (Nat.le_of_succ_le_succ hfuel)
    simp [deserialize, Json.tokens, not_le.mpr hlt, hvalues, Json.value, OrdMap.ofList]

end Completeness

/-- `strict_json` accepts a byte string exactly when it is one bounded document, and returns it. -/
theorem strictJson_eq_ok {S : SerdeJson} (hS : S.Implements) {bytes : Bytes} {v : Json} :
    strictJson S bytes = .ok v ↔ ∃ doc : Json, S.tokenize bytes = some doc.tokens
      ∧ doc.depth ≤ maxNesting ∧ doc.UniqueKeys ∧ v = doc.value := by
  unfold strictJson
  constructor
  · intro h
    split at h
    case h_1 => cases h
    case h_2 tokens htokens =>
      split at h
      case h_1 v' hread =>
        cases h
        obtain ⟨doc, rfl, ⟨hunique, hdepth⟩, rfl⟩ :=
          reads _ _ _ _ _ (Nat.zero_le _) (hS.proper _ _ htokens) hread
        rw [List.append_nil] at htokens
        exact ⟨doc, htokens, by omega, hunique, rfl⟩
      case h_2 => cases h
  · rintro ⟨doc, htokens, hdepth, hunique, rfl⟩
    have hread := readable doc doc.tokens.length 0 [] ⟨hunique, by omega⟩ (le_refl _)
    rw [List.append_nil] at hread
    rw [htokens]
    simp only [hread]

end Credman
