import Credman.Validity

/-! The values a record can come to hold: those a caller supplied, those that
were generated, and the ones a patch merges in. -/
namespace Credman

open Library Library.Checked

namespace SecretInput

variable {values extra : SecretInput}

theorem get?_extend (values extra : SecretInput) (field : Field) :
    (values.extend extra).get? field = (extra.get? field).or (values.get? field) :=
  OrdMap.get?_foldl_insert extra.sorted values field

theorem mem_fields {field : Field} :
    field ∈ values.fields ↔ ∃ value, values.get? field = some value :=
  OrdMap.mem_keySet

theorem fields_extend (values extra : SecretInput) :
    (values.extend extra).fields = values.fields ∪ extra.fields := by
  ext field
  rw [Finset.mem_union, mem_fields, mem_fields, mem_fields, get?_extend]
  cases extra.get? field <;> simp

theorem contains_iff {field : Field} : values.contains field = true ↔ field ∈ values.fields := by
  rw [mem_fields, OrdMap.contains_iff]

theorem contains_extend (field : Field) : (values.extend extra).contains field =
    (values.contains field || extra.contains field) := by
  rw [Bool.eq_iff_iff, Bool.or_eq_true, contains_iff, contains_iff, contains_iff, fields_extend,
    Finset.mem_union]

/-- There are five fields, so no map over them is larger. -/
theorem size_le (values : SecretInput) : values.size ≤ 5 := by
  have hsub : values.keySet ⊆ {.label, .username, .password, .apiKey, .notes} := by
    intro field _
    cases field <;> simp
  rw [OrdMap.size_eq_card]
  exact (Finset.card_le_card hsub).trans (by decide)

theorem valid_iff : values.valid = true ↔ (∃ field value, values.get? field = some value)
    ∧ ∀ field value, values.get? field = some value →
      value.utf8ByteSize ≤ 8192 ∧ (field.secret = true → value ≠ "") := by
  unfold valid
  rw [Bool.and_eq_true, Bool.and_eq_true, Bool.not_eq_true', OrdMap.isEmpty_false,
    OrdMap.all_iff]
  simp only [Bool.and_eq_true, decide_eq_true_eq, Bool.or_eq_true, Bool.not_eq_true', bne_iff_ne,
    ne_eq]
  constructor
  · rintro ⟨⟨hsome, -⟩, hall⟩
    refine ⟨hsome, fun field value hget => ⟨(hall field value hget).1, fun hsecret => ?_⟩⟩
    exact (hall field value hget).2.resolve_left (by simp [hsecret])
  · rintro ⟨hsome, hall⟩
    refine ⟨⟨hsome, size_le values⟩, fun field value hget => ⟨(hall field value hget).1, ?_⟩⟩
    cases hsecret : field.secret with
    | false => exact .inl rfl
    | true => exact .inr ((hall field value hget).2 hsecret)

theorem valid_extend (hvalues : values.valid = true) (hextra : extra.valid = true) :
    (values.extend extra).valid = true := by
  obtain ⟨⟨field, value, hget⟩, hall⟩ := valid_iff.mp hvalues
  obtain ⟨-, hmore⟩ := valid_iff.mp hextra
  refine valid_iff.mpr ⟨⟨field, ((extra.get? field).getD value), ?_⟩, fun other v hv => ?_⟩
  · rw [get?_extend, hget]
    cases extra.get? field <;> rfl
  · rw [get?_extend, Option.or_eq_some_iff] at hv
    rcases hv with hv | ⟨-, hv⟩
    · exact hmore other v hv
    · exact hall other v hv

end SecretInput

/-! The size of a generated secret. -/

theorem utf8ByteSize_push_le (s : String) (c : Char) :
    s.utf8ByteSize < (s.push c).utf8ByteSize
      ∧ (s.push c).utf8ByteSize ≤ s.utf8ByteSize + 4 := by
  have hpos := c.utf8Size_pos
  have hle := c.utf8Size_le_four
  rw [String.utf8ByteSize_push]
  omega

/-- One block of 128 bytes adds at most four bytes for each. -/
theorem pushSampled_size (alphabet : List Char) (length : Nat) (bytes : Bytes) (secret : String) :
    secret.utf8ByteSize ≤ (pushSampled alphabet length secret bytes).utf8ByteSize
      ∧ (pushSampled alphabet length secret bytes).utf8ByteSize
        ≤ secret.utf8ByteSize + 4 * bytes.length := by
  induction bytes generalizing secret with
  | nil => exact ⟨le_refl _, le_refl _⟩
  | cons byte rest ih =>
    rw [pushSampled, List.length_cons]
    split_ifs
    · omega
    · split
      · next char _ =>
        have hpush := utf8ByteSize_push_le secret char
        have hrest := ih (secret.push char)
        omega
      · have hrest := ih secret
        omega

theorem sampleLoop_size {alphabet : List Char} {length : Nat} {entropy rest : Entropy}
    {secret result : String} (hstart : secret.utf8ByteSize ≤ length + 512)
    (h : sampleLoop alphabet length secret entropy = .ok (result, rest)) :
    length ≤ result.utf8ByteSize ∧ result.utf8ByteSize ≤ length + 512 := by
  induction entropy generalizing secret with
  | nil =>
    rw [sampleLoop] at h
    split_ifs at h with hshort
    cases h
    omega
  | cons block blocks ih =>
    rw [sampleLoop] at h
    split_ifs at h with hshort
    · refine ih ?_ h
      have hblock := (pushSampled_size alphabet length ((List.range 128).map block) secret).2
      rw [List.length_map, List.length_range] at hblock
      omega
    · cases h
      omega

theorem generateLoop_size {policy : GenerationPolicy} {alphabet : List Char} {tries : Nat}
    {entropy rest : Entropy} {result : String}
    (h : generateLoop policy alphabet tries entropy = .ok (result, rest)) :
    policy.length.toNat ≤ result.utf8ByteSize
      ∧ result.utf8ByteSize ≤ policy.length.toNat + 512 := by
  induction tries generalizing entropy with
  | zero => cases h
  | succ tries ih =>
    rw [generateLoop] at h
    cases hsample : sampleSecret alphabet policy.length.toNat entropy with
    | error e => simp [hsample] at h
    | ok sampled =>
      obtain ⟨secret, blocks⟩ := sampled
      simp only [hsample] at h
      split_ifs at h
      · cases h
        have hempty : "".utf8ByteSize ≤ policy.length.toNat + 512 := Nat.zero_le _
        exact sampleLoop_size hempty hsample
      · exact ih h

theorem foldl_push_size (f : UInt8 → Char) (bytes : Bytes) (secret : String) :
    secret.utf8ByteSize + bytes.length
        ≤ (bytes.foldl (fun acc byte => acc.push (f byte)) secret).utf8ByteSize
      ∧ (bytes.foldl (fun acc byte => acc.push (f byte)) secret).utf8ByteSize
        ≤ secret.utf8ByteSize + 4 * bytes.length := by
  induction bytes generalizing secret with
  | nil => exact ⟨le_refl _, le_refl _⟩
  | cons byte rest ih =>
    have hpush := utf8ByteSize_push_le secret (f byte)
    have hrest := ih (secret.push (f byte))
    rw [List.foldl_cons, List.length_cons]
    omega

/-- A generated secret is not empty and is well below the limit of a field. -/
theorem generateSecret_size {policy : Option GenerationPolicy} {entropy rest : Entropy}
    {result : String} (h : generateSecret policy entropy = .ok (result, rest)) :
    result ≠ "" ∧ result.utf8ByteSize ≤ 8192 := by
  have hbounds : 0 < result.utf8ByteSize ∧ result.utf8ByteSize ≤ 8192 := by
    cases policy with
    | none =>
      simp only [generateSecret] at h
      cases entropy with
      | nil => cases h
      | cons block blocks =>
        simp only [tryFillBytes, Except.ok.injEq, Prod.mk.injEq] at h
        obtain ⟨rfl, -⟩ := h
        have hsize := foldl_push_size (fun byte => (generationAlphabet[(byte &&& 63).toNat]?).getD 'A')
          ((List.range 32).map block) ""
        rw [List.length_map, List.length_range, String.utf8ByteSize_empty] at hsize
        omega
    | some policy =>
      simp only [generateSecret] at h
      split_ifs at h with hvalid hsymbols
      all_goals
        have hsize := generateLoop_size h
        have hlength : 16 ≤ policy.length.toNat ∧ policy.length.toNat ≤ 128 := by
          simpa [GenerationPolicy.valid] using hvalid
        omega
  refine ⟨fun hempty => ?_, hbounds.2⟩
  rw [hempty, String.utf8ByteSize_empty] at hbounds
  omega

/-- The values of a new record, supplied or generated, as the policy requires them. -/
structure Issued (t : TaskApproval) (kind : CredentialKind) (values : SecretInput) : Prop where
  valid : values.valid = true
  writable : Permission.secretWrite ∈ t.permissions
  fields : values.fields ⊆ t.fields
  fits : kind.fits values = true

namespace Application

theorem issued_of_create {t : TaskApproval} {kind : CredentialKind} {values : SecretInput}
    (h : authorizeCreate t kind values = .ok ()) : Issued t kind values := by
  unfold authorizeCreate at h
  split_ifs at h with hvalid hscope hkind
  simp only [Bool.not_eq_true', Bool.not_eq_false, Bool.or_eq_true, decide_eq_false_iff_not, not_or,
    not_not] at hvalid hscope
  refine ⟨hvalid, hscope.1, hscope.2, ?_⟩
  unfold CredentialKind.fits
  cases kind <;> simp_all

theorem issued_of_generate {t : TaskApproval} {kind : CredentialKind} {username : Option String}
    {policy : Option GenerationPolicy} {entropy : Entropy} {values : SecretInput}
    (h : authorizeGenerate t kind username policy = .ok ())
    (hvalues : generateValues kind username policy entropy = .ok values) :
    Issued t kind values := by
  unfold authorizeGenerate at h
  unfold generateValues at hvalues
  cases hsecret : generateSecret policy entropy with
  | error e => simp [hsecret] at hvalues
  | ok generated =>
    obtain ⟨secret, rest⟩ := generated
    obtain ⟨hne, hsize⟩ := generateSecret_size hsecret
    simp only [hsecret] at hvalues
    split_ifs at h with hpolicy
    cases hfields : generationFields kind username with
    | error e => simp [hfields] at h
    | ok fields =>
      simp only [hfields] at h
      split_ifs at h with hscope
      simp only [Bool.not_eq_true', Bool.or_eq_true, decide_eq_false_iff_not, not_or,
        not_not] at hscope
      cases kind with
      | login =>
        cases username with
        | none => cases hvalues
        | some name =>
          simp only [Except.ok.injEq] at hvalues
          unfold generationFields at hfields
          simp only at hfields
          split_ifs at hfields with hname
          cases hfields
          have hget : ∀ field, values.get? field =
              if field = .password then some secret
              else if field = .username then some name else none := by
            intro field
            rw [← hvalues, OrdMap.get?_insert, OrdMap.get?_insert]
            cases field <;> rfl
          refine ⟨SecretInput.valid_iff.mpr ⟨⟨.password, secret, by rw [hget]; rfl⟩, ?_⟩, hscope.1,
            fun field hfield => hscope.2 ?_, ?_⟩
          · intro field value hv
            rw [hget] at hv
            split_ifs at hv with hpassword husername
            · cases hv
              exact ⟨hsize, fun _ => hne⟩
            · cases hv
              subst husername
              exact ⟨hname.2.trans (by omega), nofun⟩
          · obtain ⟨value, hv⟩ := SecretInput.mem_fields.mp hfield
            rw [hget] at hv
            split_ifs at hv with hpassword husername
            · simp [hpassword]
            · simp [husername]
          · unfold CredentialKind.fits OrdMap.contains
            rw [hget, hget]
            rfl
      | apiKey =>
        simp only [Except.ok.injEq] at hvalues
        cases username with
        | some name => cases hfields
        | none =>
          cases hfields
          have hget : ∀ field, values.get? field =
              if field = .apiKey then some secret else none := by
            intro field
            rw [← hvalues, OrdMap.get?_insert]
            cases field <;> rfl
          refine ⟨SecretInput.valid_iff.mpr ⟨⟨.apiKey, secret, by rw [hget]; rfl⟩, ?_⟩, hscope.1,
            fun field hfield => hscope.2 ?_, ?_⟩
          · intro field value hv
            rw [hget] at hv
            split_ifs at hv with hkey
            cases hv
            exact ⟨hsize, fun _ => hne⟩
          · obtain ⟨value, hv⟩ := SecretInput.mem_fields.mp hfield
            rw [hget] at hv
            split_ifs at hv with hkey
            simp [hkey]
          · unfold CredentialKind.fits OrdMap.contains
            rw [hget, hget]
            rfl

/-- Whatever creation is authorized, the one it stands for has values in order. -/
theorem issued {app : Application} {ctx : AuthenticatedContext} {t : TaskApproval}
    {op : Mutation} {now : Time} {draw : Draw} {kind : CredentialKind} {values : SecretInput}
    (hauth : app.authorize ctx t op now false = .ok ())
    (hresolve : app.resolve op draw = .ok (.create kind values)) : Issued t kind values := by
  cases op with
  | create kind' values' =>
    cases hresolve
    exact issued_of_create hauth
  | generate kind' username policy =>
    simp only [resolve] at hresolve
    split_ifs at hresolve
    split at hresolve
    · cases hresolve
    · next hvalues =>
      cases hresolve
      exact issued_of_generate hauth hvalues
  | _ => cases hresolve

end Application

end Credman
