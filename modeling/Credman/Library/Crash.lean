import Credman.Library.Wp

/-! Programs over one directory that may be stopped at any file operation. An
operation can succeed, fail after part of its effect, or halt the process after
part of its effect; the schedule of faults says which. -/
namespace Credman.Library

inductive Fault where
  | none
  | fail (effect : Nat)
  | crash (effect : Nat)
  deriving DecidableEq, Repr

inductive Halted where
  | halted
  deriving DecidableEq, Repr

abbrev Dir (Name : Type) := Name → Option (List UInt8)

/-- `rest` is whatever else the program keeps besides its files. -/
structure Machine (Name γ : Type) where
  dir : Dir Name
  faults : List Fault
  rest : γ

abbrev FileM (Name γ : Type) := EStateM Halted (Machine Name γ)

namespace FileM

variable {Name γ : Type}

def nextFault : FileM Name γ Fault := fun m =>
  match m.faults with
  | [] => .ok .none m
  | fault :: rest => .ok fault { m with faults := rest }

/-- One operation: `run` is its whole effect, if it can succeed at all, and
`torn n` what is left when it stops early. -/
def operate (run : Dir Name → Option (Dir Name)) (torn : Nat → Dir Name → Dir Name) :
    FileM Name γ Bool := do
  match ← nextFault with
  | .none =>
    match run (← get).dir with
    | some dir => modify fun m => { m with dir }; pure true
    | none => pure false
  | .fail effect => modify fun m => { m with dir := torn effect m.dir }; pure false
  | .crash effect => modify fun m => { m with dir := torn effect m.dir }; throw .halted

/-- The effect of an operation that either happened or did not. -/
def allOrNothing (run : Dir Name → Option (Dir Name)) (effect : Nat) (dir : Dir Name) : Dir Name :=
  if effect = 0 then dir else (run dir).getD dir

/-- Opening and reading a whole file; `none` is an I/O error, `some none` no such file. -/
def read (name : Name) : FileM Name γ (Option (Option (List UInt8))) := do
  match ← nextFault with
  | .none => pure (some ((← get).dir name))
  | .fail _ => pure none
  | .crash _ => throw .halted

section Rules

variable {post : Bool → Machine Name γ → Prop} {halt : Halted → Machine Name γ → Prop}
  {m : Machine Name γ}

theorem wp_nextFault {post : Fault → Machine Name γ → Prop}
    (h : ∀ fault faults, post fault { m with faults }) : wp nextFault post halt m := by
  unfold wp nextFault
  cases hf : m.faults with
  | nil => simpa [← hf] using h .none m.faults
  | cons fault rest => simpa using h fault rest

/-- The rule of an operation: done, refused, or torn at any point. -/
theorem wp_operate {run : Dir Name → Option (Dir Name)} {torn : Nat → Dir Name → Dir Name}
    (hdone : ∀ faults dir, run m.dir = some dir → post true { m with faults, dir })
    (hrefused : ∀ faults, run m.dir = none → post false { m with faults })
    (hfail : ∀ faults effect, post false { m with faults, dir := torn effect m.dir })
    (hcrash : ∀ faults effect, halt .halted { m with faults, dir := torn effect m.dir }) :
    wp (operate run torn) post halt m := by
  rw [operate, wp_bind]
  apply wp_nextFault
  intro fault faults
  cases fault with
  | none =>
    cases hrun : run m.dir with
    | some dir =>
      simp only [wp_bind, wp_get, hrun, wp_modify, wp_pure]
      exact hdone faults dir hrun
    | none =>
      simp only [wp_bind, wp_get, hrun, wp_pure]
      exact hrefused faults hrun
  | fail effect => exact hfail faults effect
  | crash effect => exact hcrash faults effect

theorem wp_read {post : Option (Option (List UInt8)) → Machine Name γ → Prop} {name : Name}
    (hdone : ∀ faults, post (some (m.dir name)) { m with faults })
    (hfail : ∀ faults, post none { m with faults })
    (hcrash : ∀ faults, halt .halted { m with faults }) : wp (read name) post halt m := by
  rw [read, wp_bind]
  apply wp_nextFault
  intro fault faults
  cases fault with
  | none => exact hdone faults
  | fail effect => exact hfail faults
  | crash effect => exact hcrash faults

end Rules

/-! The operations of a store directory. -/

variable [DecidableEq Name]

def created (name : Name) (dir : Dir Name) : Option (Dir Name) :=
  if (dir name).isSome then none else some (Function.update dir name (some []))

def appended (name : Name) (bytes : List UInt8) (dir : Dir Name) : Dir Name :=
  Function.update dir name ((dir name).map (· ++ bytes))

def renamed (source target : Name) (createOnly : Bool) (dir : Dir Name) : Option (Dir Name) :=
  if (dir source).isNone || (createOnly && (dir target).isSome) then none
  else some (Function.update (Function.update dir target (dir source)) source none)

def unlinked (name : Name) (dir : Dir Name) : Option (Dir Name) :=
  if (dir name).isNone then none else some (Function.update dir name none)

/-- `openat` with `O_CREAT | O_EXCL`. -/
def create (name : Name) : FileM Name γ Bool :=
  operate (created name) (allOrNothing (created name))

/-- `write_all` to a file opened for writing; it may stop after any byte. -/
def write (name : Name) (bytes : List UInt8) : FileM Name γ Bool :=
  operate (fun dir => if (dir name).isNone then none else some (appended name bytes dir))
    fun effect => appended name (bytes.take effect)

/-- `fsync` of a file or of the directory. -/
def sync : FileM Name γ Bool := operate some fun _ dir => dir

def rename (source target : Name) (createOnly : Bool) : FileM Name γ Bool :=
  operate (renamed source target createOnly) (allOrNothing (renamed source target createOnly))

def unlink (name : Name) : FileM Name γ Bool :=
  operate (unlinked name) (allOrNothing (unlinked name))

/-! What an operation does to the directory: `partly` bounds what is left of it,
however it ends, and `wholly` says what a successful one has done. -/

def Does (x : FileM Name γ Bool) (partly wholly : Dir Name → Dir Name → Prop) : Prop :=
  ∀ m, wp x
    (fun ok m' => m'.rest = m.rest ∧ partly m.dir m'.dir ∧ (ok = true → wholly m.dir m'.dir))
    (fun _ m' => m'.rest = m.rest ∧ partly m.dir m'.dir) m

namespace Does

variable {x y : FileM Name γ Bool} {partly wholly partly' wholly' : Dir Name → Dir Name → Prop}
  {name source target : Name} {bytes : List UInt8}

omit [DecidableEq Name] in
theorem of_operate {run : Dir Name → Option (Dir Name)} {torn : Nat → Dir Name → Dir Name}
    (hdone : ∀ d d', run d = some d' → partly d d' ∧ wholly d d')
    (hrefused : ∀ d, run d = none → partly d d) (htorn : ∀ n d, partly d (torn n d)) :
    Does (γ := γ) (operate run torn) partly wholly := by
  intro m
  apply wp_operate
  · exact fun faults dir hrun => ⟨rfl, (hdone _ _ hrun).1, fun _ => (hdone _ _ hrun).2⟩
  · exact fun faults hrun => ⟨rfl, hrefused _ hrun, nofun⟩
  · exact fun faults effect => ⟨rfl, htorn _ _, nofun⟩
  · exact fun faults effect => ⟨rfl, htorn _ _⟩

omit [DecidableEq Name] in
theorem mono (h : Does x partly wholly) (hpartly : ∀ d d', partly d d' → partly' d d')
    (hwholly : ∀ d d', wholly d d' → wholly' d d') : Does x partly' wholly' := by
  intro m
  apply wp_mono (h m)
  · exact fun ok m' ⟨hrest, hp, hw⟩ => ⟨hrest, hpartly _ _ hp, fun hok => hwholly _ _ (hw hok)⟩
  · exact fun _ m' ⟨hrest, hp⟩ => ⟨hrest, hpartly _ _ hp⟩

omit [DecidableEq Name] in
/-- The second operation runs only where the first has succeeded. -/
theorem andThen (hx : Does x partly wholly) (hy : Does y partly' wholly') :
    Does (do if !(← x) then return false
             y)
      (fun d d' => partly d d' ∨ ∃ e, wholly d e ∧ partly' e d')
      (fun d d' => ∃ e, wholly d e ∧ wholly' e d') := by
  intro m
  rw [wp_bind]
  apply wp_mono (hx m)
  · rintro ok m' ⟨hrest, hp, hw⟩
    cases ok with
    | false => exact ⟨hrest, .inl hp, nofun⟩
    | true =>
      apply wp_mono (hy m')
      · rintro ok m'' ⟨hrest', hp', hw'⟩
        exact ⟨hrest'.trans hrest, .inr ⟨_, hw rfl, hp'⟩, fun hok => ⟨_, hw rfl, hw' hok⟩⟩
      · rintro _ m'' ⟨hrest', hp'⟩
        exact ⟨hrest'.trans hrest, .inr ⟨_, hw rfl, hp'⟩⟩
  · exact fun _ m' ⟨hrest, hp⟩ => ⟨hrest, .inl hp⟩

omit [DecidableEq Name] in
theorem of_allOrNothing (run : Dir Name → Option (Dir Name)) :
    Does (γ := γ) (operate run (allOrNothing run)) (fun d d' => d' = d ∨ run d = some d')
      (fun d d' => run d = some d') := by
  apply of_operate
  · exact fun d d' hrun => ⟨.inr hrun, hrun⟩
  · exact fun d _ => .inl rfl
  · intro n d
    unfold allOrNothing
    split_ifs
    · exact .inl rfl
    · cases hrun : run d with
      | none => exact .inl rfl
      | some d' => exact .inr rfl

theorem create : Does (γ := γ) (create name) (fun d d' => d' = d ∨ created name d = some d')
    (fun d d' => created name d = some d') :=
  of_allOrNothing _

theorem write : Does (γ := γ) (write name bytes) (fun d d' => ∃ n, d' = appended name (bytes.take n) d)
    (fun d d' => d' = appended name bytes d) := by
  have hwhole : ∀ d : Dir Name, appended name bytes d = appended name (bytes.take bytes.length) d := by
    simp
  have hnone : ∀ d : Dir Name, d = appended name (bytes.take 0) d := by
    intro d
    rw [appended, List.take_zero]
    cases hd : d name <;> simp [← hd]
  apply of_operate
  · intro d d' hrun
    split_ifs at hrun
    cases hrun
    exact ⟨⟨_, hwhole d⟩, rfl⟩
  · exact fun d _ => ⟨0, hnone d⟩
  · exact fun n d => ⟨n, rfl⟩

omit [DecidableEq Name] in
theorem sync : Does (sync : FileM Name γ Bool) (fun d d' => d' = d) (fun d d' => d' = d) := by
  apply of_operate
  · rintro d d' ⟨⟩
    exact ⟨rfl, rfl⟩
  · exact fun d _ => rfl
  · exact fun n d => rfl

theorem rename {createOnly : Bool} : Does (γ := γ) (rename source target createOnly)
    (fun d d' => d' = d ∨ renamed source target createOnly d = some d')
    (fun d d' => renamed source target createOnly d = some d') :=
  of_allOrNothing _

theorem unlink : Does (γ := γ) (unlink name) (fun d d' => d' = d ∨ unlinked name d = some d')
    (fun d d' => unlinked name d = some d') :=
  of_allOrNothing _

end Does

/-! Undisturbed runs, where every operation does what it can. -/

section Undisturbed

variable {post : Bool → Machine Name γ → Prop} {halt : Halted → Machine Name γ → Prop}
  {m : Machine Name γ} {dir : Dir Name}

omit [DecidableEq Name] in
theorem wp_read_undisturbed {post : Option (Option (List UInt8)) → Machine Name γ → Prop} {name : Name}
    (hclean : m.faults = []) : wp (read name) post halt m ↔ post (some (m.dir name)) m := by
  have hnext : nextFault m = .ok .none m := by
    unfold nextFault
    rw [hclean]
  rw [read, wp_bind]
  unfold wp
  rw [hnext]
  exact Iff.rfl

omit [DecidableEq Name] in
theorem wp_operate_undisturbed {run : Dir Name → Option (Dir Name)} {torn : Nat → Dir Name → Dir Name}
    (hclean : m.faults = []) (hrun : run m.dir = some dir) :
    wp (operate run torn) post halt m ↔ post true { m with dir } := by
  have hnext : nextFault m = .ok .none m := by
    unfold nextFault
    rw [hclean]
  have hafter : ∀ {β : Type} (rest : Fault → FileM Name γ β) (post : β → Machine Name γ → Prop),
      wp (nextFault >>= rest) post halt m ↔ wp (rest .none) post halt m := by
    intro β rest post
    rw [wp_bind]
    unfold wp
    rw [hnext]
  rw [operate, hafter]
  simp only [wp_bind, wp_get, hrun, wp_modify, wp_pure]

omit [DecidableEq Name] in
theorem wp_sync_undisturbed (hclean : m.faults = []) : wp sync post halt m ↔ post true m :=
  wp_operate_undisturbed hclean rfl

variable {name source target : Name} {bytes : List UInt8}

theorem wp_create_undisturbed (hclean : m.faults = []) (hnew : m.dir name = none) :
    wp (create name) post halt m ↔ post true { m with dir := Function.update m.dir name (some []) } := by
  apply wp_operate_undisturbed hclean
  unfold created
  rw [hnew]
  rfl

theorem wp_write_undisturbed {old : List UInt8} (hclean : m.faults = []) (hfound : m.dir name = some old) :
    wp (write name bytes) post halt m ↔
      post true { m with dir := Function.update m.dir name (some (old ++ bytes)) } := by
  apply wp_operate_undisturbed hclean
  unfold appended
  rw [hfound]
  rfl

theorem wp_rename_undisturbed {createOnly : Bool} (hclean : m.faults = [])
    (hrun : renamed source target createOnly m.dir = some dir) :
    wp (rename source target createOnly) post halt m ↔ post true { m with dir } :=
  wp_operate_undisturbed hclean hrun

theorem wp_unlink_undisturbed (hclean : m.faults = []) (hfound : m.dir name = some bytes) :
    wp (unlink name) post halt m ↔ post true { m with dir := Function.update m.dir name none } := by
  apply wp_operate_undisturbed hclean
  unfold unlinked
  rw [hfound]
  rfl

/-- A file that was not there is renamed over another, or to a name that is free. -/
theorem renamed_update {createOnly : Bool} {d : Dir Name} (hnew : d source = none) (hne : target ≠ source)
    (hfree : createOnly = true → d target = none) :
    renamed source target createOnly (Function.update d source (some bytes))
      = some (Function.update d target (some bytes)) := by
  have hallowed : (createOnly && (d target).isSome) = false := by
    cases createOnly with
    | false => rfl
    | true => simp [hfree rfl]
  unfold renamed
  rw [Function.update_self, Function.update_of_ne hne]
  simp only [Option.isNone_some, Bool.false_or, hallowed, Bool.false_eq_true, if_false]
  refine congrArg some (funext fun name => ?_)
  by_cases hsource : name = source
  · rw [hsource, Function.update_self, Function.update_of_ne hne.symm, hnew]
  · rw [Function.update_of_ne hsource]
    by_cases htarget : name = target
    · rw [htarget, Function.update_self, Function.update_self]
    · rw [Function.update_of_ne htarget, Function.update_of_ne htarget, Function.update_of_ne hsource]

end Undisturbed

end FileM

end Credman.Library
