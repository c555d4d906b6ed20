import Credman.Policy
import Credman.Reference

/-! Generated secrets are cut from the random stream as it comes: what a candidate keeps
of the blocks it used up, and which candidate is returned. -/
namespace Credman

open Library

/-- The bytes of whole blocks, in the order they were delivered. -/
def streamed (blocks : Entropy) : Bytes := blocks.flatMap fun block => (List.range 128).map block

/-- What a byte of the stream stands for; bytes at or above the largest multiple of the
alphabet's size stand for nothing. -/
def sampled (alphabet : List Char) (byte : UInt8) : Option Char :=
  if byte.toNat < 256 / alphabet.length * alphabet.length then
    alphabet[byte.toNat % alphabet.length]?
  else none

/-- The characters of the accepted bytes. -/
def kept (alphabet : List Char) (blocks : Entropy) : List Char :=
  (streamed blocks).filterMap (sampled alphabet)

/-- A candidate is the start of what the stream has to offer, and no block was drawn that was
not needed for it. -/
structure Candidate (alphabet : List Char) (length : Nat) (blocks : Entropy) (secret : String) :
    Prop where
  toList : secret.toList = (kept alphabet blocks).take length
  enough : length ≤ (kept alphabet blocks).length
  needed : ∀ before block, blocks = before ++ [block] → (kept alphabet before).length < length

/-- What `sample_secret` may be given: its lengths count bytes, its indices a byte's range. -/
structure OneByte (alphabet : List Char) : Prop where
  small : ∀ c ∈ alphabet, c.utf8Size = 1
  nonempty : 0 < alphabet.length
  fits : alphabet.length ≤ 256

variable {alphabet : List Char} {length : Nat} {entropy rest : Entropy} {secret result : String}

theorem kept_cons (alphabet : List Char) (block : Nat → UInt8) (blocks : Entropy) :
    kept alphabet (block :: blocks)
      = ((List.range 128).map block).filterMap (sampled alphabet) ++ kept alphabet blocks := by
  unfold kept streamed
  rw [List.flatMap_cons, List.filterMap_append]

theorem mem_of_sampled {byte : UInt8} {c : Char} (h : sampled alphabet byte = some c) : c ∈ alphabet := by
  unfold sampled at h
  split_ifs at h
  exact List.mem_of_getElem? h

theorem mem_of_kept {c : Char} (h : c ∈ kept alphabet entropy) : c ∈ alphabet := by
  obtain ⟨byte, -, hbyte⟩ := List.mem_filterMap.mp h
  exact mem_of_sampled hbyte

/-- The index a byte is given is the one it stands for. -/
theorem OneByte.index (h : OneByte alphabet) (byte : UInt8) :
    (generationIndex byte alphabet.length).bind (alphabet[·]?) = sampled alphabet byte := by
  have hpos := h.nonempty
  have hfits := h.fits
  unfold generationIndex sampled
  rw [if_neg (by omega)]
  dsimp only
  split_ifs <;> rfl

/-- Every character of the string takes one byte. -/
def Narrow (secret : String) : Prop := secret.utf8ByteSize = secret.length

theorem Narrow.push {c : Char} (h : Narrow secret) (hc : c.utf8Size = 1) : Narrow (secret.push c) := by
  unfold Narrow at h ⊢
  rw [String.utf8ByteSize_push, String.length_push, hc, h]

/-- One block: the accepted bytes are pushed until the string is full. -/
theorem pushSampled_toList (halphabet : OneByte alphabet) (bytes : Bytes) (hnarrow : Narrow secret)
    (hle : secret.length ≤ length) :
    Narrow (pushSampled alphabet length secret bytes)
      ∧ (pushSampled alphabet length secret bytes).toList
        = secret.toList ++ (bytes.filterMap (sampled alphabet)).take (length - secret.length) := by
  induction bytes generalizing secret with
  | nil => exact ⟨hnarrow, by simp [pushSampled]⟩
  | cons byte rest ih =>
    rw [pushSampled, halphabet.index, hnarrow]
    split_ifs with hfull
    · refine ⟨hnarrow, ?_⟩
      rw [hfull, Nat.sub_self, List.take_zero, List.append_nil]
    · cases hbyte : sampled alphabet byte with
      | none =>
        rw [List.filterMap_cons_none hbyte]
        exact ih hnarrow hle
      | some c =>
        have hlt : secret.length < length := by omega
        have hpushed : (secret.push c).length ≤ length := by
          rw [String.length_push]
          omega
        obtain ⟨hnarrow', hlist⟩ := ih (hnarrow.push (halphabet.small c (mem_of_sampled hbyte))) hpushed
        refine ⟨hnarrow', ?_⟩
        dsimp only
        rw [hlist, List.filterMap_cons_some hbyte, String.toList_push, String.length_push,
          List.append_assoc, List.singleton_append,
          show length - secret.length = length - (secret.length + 1) + 1 by omega, List.take_succ_cons]

/-- What the loop makes of a string it has reached. -/
structure Continued (alphabet : List Char) (length : Nat) (secret : String) (blocks : Entropy)
    (result : String) : Prop where
  toList : result.toList = secret.toList ++ (kept alphabet blocks).take (length - secret.length)
  enough : length ≤ secret.length + (kept alphabet blocks).length
  needed : ∀ before block, blocks = before ++ [block] →
    secret.length + (kept alphabet before).length < length

namespace Continued

theorem full (h : length ≤ secret.length) : Continued alphabet length secret [] secret where
  toList := by rw [Nat.sub_eq_zero_of_le h, List.take_zero, List.append_nil]
  enough := h.trans (Nat.le_add_right _ _)
  needed before block heq := by cases before <;> cases heq

/-- One block, and what follows it. -/
theorem block {pushed : String} {block : Nat → UInt8} {blocks : Entropy} (hshort : secret.length < length)
    (hpushed : pushed.toList = secret.toList
      ++ (((List.range 128).map block).filterMap (sampled alphabet)).take (length - secret.length))
    (h : Continued alphabet length pushed blocks result) :
    Continued alphabet length secret (block :: blocks) result := by
  have hlength : pushed.length = secret.length + min (length - secret.length)
      (((List.range 128).map block).filterMap (sampled alphabet)).length := by
    rw [← String.length_toList, hpushed, List.length_append, List.length_take, String.length_toList]
  have hkept := fun l => congrArg List.length (kept_cons alphabet block l)
  simp only [List.length_append] at hkept
  refine ⟨?_, ?_, fun before last heq => ?_⟩
  · rw [h.toList, hpushed, kept_cons, List.take_append, List.append_assoc]
    congr 3
    omega
  · have hmore := hkept blocks
    have henough := h.enough
    omega
  · cases before with
    | nil => exact hshort
    | cons first before =>
      obtain ⟨rfl, rfl⟩ := List.cons.inj heq
      have hmore := hkept before
      have hneeded := h.needed before last rfl
      omega

end Continued

/-- The loop from any string it may have reached. -/
theorem sampleLoop_spec (halphabet : OneByte alphabet) (entropy : Entropy) (hnarrow : Narrow secret)
    (hle : secret.length ≤ length) :
    (∀ result rest, sampleLoop alphabet length secret entropy = .ok (result, rest) →
      ∃ blocks, entropy = blocks ++ rest ∧ Continued alphabet length secret blocks result)
    ∧ ∀ e, sampleLoop alphabet length secret entropy = .error e →
      e = .generationUnavailable ∧ secret.length + (kept alphabet entropy).length < length := by
  induction entropy generalizing secret with
  | nil =>
    rw [sampleLoop, hnarrow]
    split_ifs with hshort
    · exact ⟨nofun, fun e h => ⟨(Except.error.inj h).symm, hshort⟩⟩
    · refine ⟨?_, nofun⟩
      rintro _ _ ⟨⟩
      exact ⟨[], rfl, .full (not_lt.mp hshort)⟩
  | cons block blocks ih =>
    rw [sampleLoop, hnarrow]
    split_ifs with hshort
    · obtain ⟨hnarrow', hlist⟩ :=
        pushSampled_toList halphabet ((List.range 128).map block) hnarrow hle
      have hlength := congrArg List.length hlist
      rw [List.length_append, List.length_take, String.length_toList, String.length_toList] at hlength
      have hmore := congrArg List.length (kept_cons alphabet block blocks)
      rw [List.length_append] at hmore
      obtain ⟨hok, herror⟩ := ih hnarrow' (by omega)
      refine ⟨fun result rest h => ?_, fun e h => ?_⟩
      · obtain ⟨used, rfl, hresult⟩ := hok result rest h
        exact ⟨block :: used, rfl, hresult.block hshort hlist⟩
      · obtain ⟨he, hfew⟩ := herror e h
        exact ⟨he, by omega⟩
    · refine ⟨?_, nofun⟩
      rintro _ _ ⟨⟩
      exact ⟨[], rfl, .full (not_lt.mp hshort)⟩

theorem sampleSecret_eq_ok (halphabet : OneByte alphabet)
    (h : sampleSecret alphabet length entropy = .ok (result, rest)) :
    ∃ blocks, entropy = blocks ++ rest ∧ Candidate alphabet length blocks result := by
  obtain ⟨blocks, hsplit, hresult⟩ :=
    (sampleLoop_spec halphabet entropy (show Narrow "" from rfl) (Nat.zero_le _)).1 result rest h
  refine ⟨blocks, hsplit, hresult.toList, ?_, fun before block heq => ?_⟩
  · simpa using hresult.enough
  · simpa using hresult.needed before block heq

theorem sampleSecret_eq_error (halphabet : OneByte alphabet) {e : Error}
    (h : sampleSecret alphabet length entropy = .error e) :
    e = .generationUnavailable ∧ (kept alphabet entropy).length < length := by
  have hspec := (sampleLoop_spec halphabet entropy (show Narrow "" from rfl) (Nat.zero_le length)).2 e h
  rw [String.length_empty, Nat.zero_add] at hspec
  exact hspec

/-- A source that has too few accepted bytes in all its blocks fails the candidate. -/
theorem sampleSecret_of_few (halphabet : OneByte alphabet) (h : (kept alphabet entropy).length < length) :
    sampleSecret alphabet length entropy = .error .generationUnavailable := by
  cases hsample : sampleSecret alphabet length entropy with
  | error e => rw [(sampleSecret_eq_error halphabet hsample).1]
  | ok out =>
    obtain ⟨result, rest⟩ := out
    obtain ⟨blocks, rfl, hresult⟩ := sampleSecret_eq_ok halphabet hsample
    have henough := hresult.enough
    unfold kept streamed at h henough
    rw [List.flatMap_append, List.filterMap_append, List.length_append] at h
    omega

theorem Candidate.length_eq {blocks : Entropy} (h : Candidate alphabet length blocks result) :
    result.length = length := by
  rw [← String.length_toList, h.toList, List.length_take]
  exact min_eq_left h.enough

theorem Candidate.mem {blocks : Entropy} (h : Candidate alphabet length blocks result) {c : Char}
    (hc : c ∈ result.toList) : c ∈ alphabet := by
  rw [h.toList] at hc
  exact mem_of_kept (List.mem_of_mem_take hc)

/-! The retries. -/

def GenerationPolicy.characters (policy : GenerationPolicy) : List Char :=
  if policy.symbols then generationAlphabet ++ generationSymbols else generationAlphabet

theorem GenerationPolicy.oneByte (policy : GenerationPolicy) : OneByte policy.characters := by
  have hall : (generationAlphabet ++ generationSymbols).all (fun c => c.utf8Size == 1) = true := by decide
  have hplain : ∀ c ∈ generationAlphabet ++ generationSymbols, c.utf8Size = 1 :=
    fun c hc => beq_iff_eq.mp (List.all_eq_true.mp hall c hc)
  unfold GenerationPolicy.characters
  split_ifs
  · exact ⟨hplain, by decide, by decide⟩
  · exact ⟨fun c hc => hplain c (List.mem_append_left _ hc), by decide, by decide⟩

/-- The classes a secret must show if the policy requires them. -/
structure Classes (symbols : Bool) (secret : String) : Prop where
  upper : ∃ c ∈ secret.toList, 'A' ≤ c ∧ c ≤ 'Z'
  lower : ∃ c ∈ secret.toList, 'a' ≤ c ∧ c ≤ 'z'
  digit : ∃ c ∈ secret.toList, '0' ≤ c ∧ c ≤ '9'
  symbol : symbols = true → ∃ c ∈ secret.toList, c ∈ generationSymbols

theorem classesPresent_iff {symbols : Bool} : classesPresent secret symbols = true ↔ Classes symbols secret := by
  simp only [classesPresent, Bool.and_eq_true, List.any_eq_true, decide_eq_true_eq, Bool.or_eq_true,
    Bool.not_eq_true', List.contains_iff_mem, and_assoc]
  constructor
  · rintro ⟨hupper, hlower, hdigit, hsymbol⟩
    refine ⟨hupper, hlower, hdigit, fun h => hsymbol.resolve_left ?_⟩
    simp [h]
  · rintro ⟨hupper, hlower, hdigit, hsymbol⟩
    refine ⟨hupper, hlower, hdigit, ?_⟩
    cases symbols with
    | false => exact .inl rfl
    | true => exact .inr (hsymbol rfl)

/-- A candidate the policy takes. -/
def GenerationPolicy.Takes (policy : GenerationPolicy) (secret : String) : Prop :=
  policy.requireClasses = true → Classes policy.symbols secret

theorem takes_iff {policy : GenerationPolicy} :
    (!policy.requireClasses || classesPresent secret policy.symbols) = true ↔ policy.Takes secret := by
  unfold GenerationPolicy.Takes
  rw [Bool.or_eq_true, Bool.not_eq_true', classesPresent_iff]
  cases policy.requireClasses <;> simp

/-- Candidates drawn one after another, none of which the policy takes. -/
inductive Retried (policy : GenerationPolicy) : List String → Entropy → Entropy → Prop
  | none {entropy : Entropy} : Retried policy [] entropy entropy
  | more {secret : String} {tried : List String} {entropy mid rest : Entropy}
      (hsample : sampleSecret policy.characters policy.length.toNat entropy = .ok (secret, mid))
      (hclasses : ¬ policy.Takes secret) (h : Retried policy tried mid rest) :
    Retried policy (secret :: tried) entropy rest

section Retries

variable {policy : GenerationPolicy} {tried : List String} {tries : Nat} {mid : Entropy}

/-- Failed candidates use up tries and blocks, and nothing else. -/
theorem Retried.generateLoop (h : Retried policy tried entropy mid) (tries : Nat) :
    generateLoop policy policy.characters (tried.length + tries) entropy
      = generateLoop policy policy.characters tries mid := by
  induction h with
  | none => rw [List.length_nil, Nat.zero_add]
  | more hsample hclasses _ ih =>
    rw [← takes_iff, Bool.not_eq_true] at hclasses
    rw [List.length_cons, Nat.add_right_comm, Credman.generateLoop, hsample]
    simp only [hclasses]
    exact ih

theorem generateLoop_eq_ok (h : generateLoop policy policy.characters tries entropy = .ok (result, rest)) :
    ∃ tried mid, tried.length < tries ∧ Retried policy tried entropy mid
      ∧ sampleSecret policy.characters policy.length.toNat mid = .ok (result, rest)
      ∧ policy.Takes result := by
  induction tries generalizing entropy with
  | zero => cases h
  | succ tries ih =>
    rw [generateLoop] at h
    cases hsample : sampleSecret policy.characters policy.length.toNat entropy with
    | error e =>
      rw [hsample] at h
      cases h
    | ok out =>
      obtain ⟨secret, next⟩ := out
      simp only [hsample] at h
      split_ifs at h with htakes
      · cases h
        exact ⟨[], entropy, Nat.succ_pos _, .none, hsample, takes_iff.mp htakes⟩
      · obtain ⟨tried, mid, hlt, hretried, hlast⟩ := ih h
        exact ⟨secret :: tried, mid, Nat.succ_lt_succ hlt,
          .more hsample (fun h => htakes (takes_iff.mpr h)) hretried, hlast⟩

/-- The loop gives up on a source that fails, or after the last try. -/
theorem generateLoop_eq_error {e : Error} (h : generateLoop policy policy.characters tries entropy = .error e) :
    e = .generationUnavailable ∧ ∃ tried mid, Retried policy tried entropy mid
      ∧ (tried.length = tries ∨ tried.length < tries
        ∧ (kept policy.characters mid).length < policy.length.toNat) := by
  induction tries generalizing entropy with
  | zero => exact ⟨(Except.error.inj h).symm, [], entropy, .none, .inl rfl⟩
  | succ tries ih =>
    rw [generateLoop] at h
    cases hsample : sampleSecret policy.characters policy.length.toNat entropy with
    | error e' =>
      rw [hsample] at h
      cases h
      obtain ⟨he, hfew⟩ := sampleSecret_eq_error policy.oneByte hsample
      exact ⟨he, [], entropy, .none, .inr ⟨Nat.succ_pos _, hfew⟩⟩
    | ok out =>
      obtain ⟨secret, next⟩ := out
      simp only [hsample] at h
      split_ifs at h with htakes
      obtain ⟨he, tried, mid, hretried, hend⟩ := ih h
      refine ⟨he, secret :: tried, mid, .more hsample (fun h => htakes (takes_iff.mpr h)) hretried, ?_⟩
      rw [List.length_cons]
      omega

theorem generateLoop_unavailable (h : Retried policy tried entropy mid)
    (hend : tried.length = tries ∨ tried.length < tries
      ∧ (kept policy.characters mid).length < policy.length.toNat) :
    generateLoop policy policy.characters tries entropy = .error .generationUnavailable := by
  rcases hend with rfl | ⟨hlt, hfew⟩
  · exact h.generateLoop 0
  · obtain ⟨more, rfl⟩ := Nat.exists_eq_add_of_lt hlt
    rw [Nat.add_assoc, h.generateLoop, generateLoop, sampleSecret_of_few policy.oneByte hfew]

theorem generateSecret_some (hvalid : policy.valid = true) (entropy : Entropy) :
    generateSecret (some policy) entropy = generateLoop policy policy.characters 128 entropy := by
  unfold generateSecret
  dsimp only
  rw [hvalid]
  rfl

end Retries

/-! Generation inside a mutation. -/

open Application in
/-- Without a secret there is no creation: what would have been one is refused and only moves
the clock. -/
theorem mutate_unavailable {P : Platform} {app next : Application} {ctx : AuthenticatedContext}
    {task request : Uuid} {kind : CredentialKind} {username : Option String} {now : Time}
    {policy : Option GenerationPolicy} {draw other : Draw} {receipt : Receipt}
    (hnone : generateSecret policy draw.entropy = .error .generationUnavailable)
    (hother : mutate P ctx task request (.generate kind username policy) now other app = .ok receipt next)
    (hnew : app.requests.get? (requestKey ctx task request) = none) :
    mutate P ctx task request (.generate kind username policy) now draw app
      = .error .generationUnavailable (app.ticked now) := by
  obtain ⟨effective, heff, hran⟩ := wp_ok (wp_mutate P _ _ _ _ _ _ app) hother
  rw [← ticked_requests app now] at hnew
  have hexec : Executed P ctx task request (.generate kind username policy) other effective
      (app.ticked now) receipt next := by
    rcases hran with hexec | ⟨hreplayed, -⟩
    · exact hexec
    · obtain ⟨previous, hcached, -⟩ := hreplayed.cached
      rw [hnew] at hcached
      cases hcached
  obtain ⟨t, mid, op', htask, hretry, hauth, hresolve, -⟩ := hexec.change
  have hunresolved : (app.ticked now).resolve (.generate kind username policy) draw
      = .error .generationUnavailable := by
    simp only [resolve] at hresolve ⊢
    split_ifs at hresolve ⊢
    simp only [generateValues, hnone]
  have hwp : wp (mutate P ctx task request (.generate kind username policy) now draw)
      (fun _ _ => False) (fun e app' => e = .generationUnavailable ∧ app' = app.ticked now) app := by
    simp only [mutate, wp_bind, wp_clock]
    refine ⟨fun effective' heff' => ?_, fun e he => ?_⟩
    · rw [heff, Except.ok.injEq] at heff'
      subst heff'
      -- every check the other call passed is passed here too
      have hnil : ¬ Uuid.isNil request = true := by simpa [Uuid.isNil] using hexec.request_ne
      have hdeliveries : ¬ ((app.ticked now).deliveries.any fun _ delivery =>
          delivery.key == { owner := ctx.owner, principal := ctx.principal, task, id := request }) = true := by
        rw [Bool.not_eq_true, OrdMap.any_false]
        simpa [requestKey] using hexec.no_delivery
      simp only [wp_failIf, wp_get, wp_bind, wp_liftExcept]
      refine ⟨fun h => absurd h hnil, fun _ => ⟨fun t' ht' => ⟨fun _ _ => ⟨fun h => absurd h hdeliveries,
        fun _ => ⟨fun h => absurd hexec.fits (not_le.mpr h), fun _ => ?_⟩⟩, fun e he => ?_⟩, fun e he => ?_⟩⟩
      · rw [requestKey] at hnew
        rw [htask, Except.ok.injEq] at ht'
        subst ht'
        simp only [hnew, wp_bind, wp_failIf, wp_liftExcept, wp_get, hauth, hunresolved]
        exact ⟨fun _ _ => ⟨fun h => absurd hexec.room (not_lt.mpr h),
          fun _ => ⟨(fun _ h => by cases h), fun e he => ⟨(Except.error.inj he).symm, trivial⟩⟩⟩,
          fun _ h => by cases h⟩
      · rw [htask, Except.ok.injEq] at ht'
        rw [← ht', hretry] at he
        cases he
      · rw [htask] at he
        cases he
    · rw [heff] at he
      cases he
  cases hrun : mutate P ctx task request (.generate kind username policy) now draw app with
  | ok a app' => exact (wp_ok hwp hrun).elim
  | error e app' =>
    obtain ⟨rfl, rfl⟩ := wp_error hwp hrun
    rfl

/-- Generated secrets follow the policy and the random stream. A candidate is what the stream
offers, in order; the first of at most 128 candidates that the policy takes is the secret, as it
was sampled; and a source that fails, or 128 candidates it does not take, give no secret and
no record. -/
theorem generated_follows (P : Platform) {policy : GenerationPolicy} (hvalid : policy.valid = true)
    (entropy : Entropy) :
    (∀ length entropy secret rest, sampleSecret policy.characters length entropy = .ok (secret, rest) →
      ∃ blocks, entropy = blocks ++ rest ∧ Candidate policy.characters length blocks secret)
    ∧ (∀ secret rest, generateSecret (some policy) entropy = .ok (secret, rest) →
      secret.length = policy.length.toNat
        ∧ (∀ c ∈ secret.toList, c ∈ generationAlphabet
          ∨ policy.symbols = true ∧ c ∈ generationSymbols)
        ∧ policy.Takes secret
        ∧ ∃ tried mid, tried.length < 128 ∧ Retried policy tried entropy mid
          ∧ sampleSecret policy.characters policy.length.toNat mid = .ok (secret, rest))
    ∧ (∀ e, generateSecret (some policy) entropy = .error e ↔ e = .generationUnavailable
      ∧ ∃ tried mid, Retried policy tried entropy mid ∧ (tried.length = 128 ∨ tried.length < 128
        ∧ (kept policy.characters mid).length < policy.length.toNat))
    ∧ ∀ (app : Application) ctx task request kind username now id,
      generateSecret (some policy) entropy = .error .generationUnavailable →
      (∀ other receipt next, Application.mutate P ctx task request
          (.generate kind username (some policy)) now other app = .ok receipt next →
        app.requests.get? (Application.requestKey ctx task request) = none →
        Application.mutate P ctx task request (.generate kind username (some policy)) now { id, entropy } app
          = .error .generationUnavailable (app.ticked now))
      ∧ wp (Application.mutate P ctx task request (.generate kind username (some policy)) now { id, entropy })
        (fun _ next => next.records = app.records) (fun _ next => next.records = app.records) app := by
  refine ⟨fun _ _ _ _ h => sampleSecret_eq_ok policy.oneByte h, fun secret rest h => ?_, fun e => ?_, ?_⟩
  · rw [generateSecret_some hvalid] at h
    obtain ⟨tried, mid, hlt, hretried, hsample, htakes⟩ := generateLoop_eq_ok h
    obtain ⟨blocks, -, hcandidate⟩ := sampleSecret_eq_ok policy.oneByte hsample
    refine ⟨hcandidate.length_eq, fun c hc => ?_, htakes, tried, mid, hlt, hretried, hsample⟩
    have hmem := hcandidate.mem hc
    unfold GenerationPolicy.characters at hmem
    split_ifs at hmem with hsymbols
    · exact (List.mem_append.mp hmem).imp_right fun h => ⟨hsymbols, h⟩
    · exact .inl hmem
  · rw [generateSecret_some hvalid]
    constructor
    · exact fun h => generateLoop_eq_error h
    · rintro ⟨rfl, tried, mid, hretried, hend⟩
      exact generateLoop_unavailable hretried hend
  · intro app ctx task request kind username now id hnone
    refine ⟨fun other receipt next hother hnew => mutate_unavailable hnone hother hnew, ?_⟩
    refine wp_mono (Application.wp_mutate P _ _ _ _ _ _ app) ?_ fun e next hclock => ?_
    · rintro receipt next ⟨effective, heff, hexec | ⟨-, rfl⟩⟩
      · obtain ⟨t, mid, op', -, -, -, hresolve, -⟩ := hexec.change
        simp only [Application.resolve] at hresolve
        split_ifs at hresolve
        simp only [generateValues, hnone] at hresolve
        cases hresolve
      · exact Application.ticked_records ..
    · cases hclock with
      | ticked => exact Application.ticked_records ..
      | frozen => rfl

/-- Two blocks: the first candidate has no digit, so the second one is returned. -/
def countingSource : Entropy := [fun n => UInt8.ofNat n, fun n => UInt8.ofNat (17 * n)]

def sixteenPolicy : GenerationPolicy := { length := 16, symbols := false, requireClasses := true }

theorem generated_follows_sixteen : ∃ secret rest,
    generateSecret (some sixteenPolicy) countingSource = .ok (secret, rest) ∧ secret = "ARizEVm3IZq7Mdu_"
    ∧ secret.length = 16 ∧ sixteenPolicy.Takes secret ∧ ∃ tried mid, tried.length < 128
      ∧ Retried sixteenPolicy tried countingSource mid
      ∧ sampleSecret sixteenPolicy.characters 16 mid = .ok (secret, rest) := by
  have hsecret : (match generateSecret (some sixteenPolicy) countingSource with
    | .ok (secret, _) => secret == "ARizEVm3IZq7Mdu_"
    | .error _ => false) = true := by decide +kernel
  obtain ⟨-, hreturned, -⟩ := generated_follows .reference (show sixteenPolicy.valid = true from rfl) countingSource
  cases h : generateSecret (some sixteenPolicy) countingSource with
  | error e =>
    rw [h] at hsecret
    cases hsecret
  | ok out =>
    obtain ⟨secret, rest⟩ := out
    rw [h] at hsecret
    obtain ⟨hlength, -, htakes, htried⟩ := hreturned secret rest h
    exact ⟨secret, rest, rfl, beq_iff_eq.mp hsecret, hlength, htakes, htried⟩

end Credman
