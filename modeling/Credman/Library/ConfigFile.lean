import Mathlib.Data.List.Basic
import Mathlib.Data.List.TakeWhile
import Mathlib.Tactic.Common

/-! Configuration files of one option a line. An argument may stand in double quotes; there a
backslash makes the next quote or backslash literal. -/
namespace Credman.Library.ConfigFile

/-- One option, with its argument if it has one. -/
structure Setting where
  name : List Char
  argument : Option (List Char)
  deriving DecidableEq

def escaped (value : List Char) : List Char :=
  value.flatMap fun c => if c = '\\' ∨ c = '"' then ['\\', c] else [c]

/-- An argument up to its closing quote, and what stands behind the quote; `pending` says that the
character before was a backslash. -/
def unquote (pending : Bool) : List Char → Option (List Char × List Char)
  | [] => none
  | c :: rest =>
    if pending then
      (unquote false rest).map fun (argument, rest) =>
        (if c = '\\' ∨ c = '"' then c :: argument else '\\' :: c :: argument, rest)
    else if c = '"' then some ([], rest)
    else if c = '\\' then unquote true rest
    else (unquote false rest).map fun (argument, rest) => (c :: argument, rest)

def isBlank (c : Char) : Bool := c == ' ' || c == '='

def readOption (line : List Char) : Option Setting :=
  let name := line.takeWhile fun c => !isBlank c
  match (line.dropWhile fun c => !isBlank c).dropWhile isBlank with
  | [] => some { name, argument := none }
  | c :: rest =>
    if c = '"' then
      match unquote false rest with
      | some (argument, []) => some { name, argument := some argument }
      | _ => none
    else some { name, argument := some ((c :: rest).takeWhile fun c => !isBlank c) }

def readConfig (text : List Char) : Option (List Setting) :=
  ((text.splitOn '\n').filter fun line => !line.isEmpty).mapM readOption

theorem escaped_append (a b : List Char) : escaped (a ++ b) = escaped a ++ escaped b :=
  List.flatMap_append

theorem escaped_cons (c : Char) (rest : List Char) :
    escaped (c :: rest) = (if c = '\\' ∨ c = '"' then ['\\', c] else [c]) ++ escaped rest := rfl

theorem escaped_of_plain {value : List Char} (h : ∀ c ∈ value, c ≠ '\\' ∧ c ≠ '"') :
    escaped value = value := by
  induction value with
  | nil => rfl
  | cons c rest ih =>
    obtain ⟨hback, hquote⟩ := h c List.mem_cons_self
    rw [escaped_cons, if_neg (by simp [hback, hquote]), ih fun d hd => h d (List.mem_cons_of_mem _ hd)]
    rfl

theorem not_mem_escaped {value : List Char} {c : Char} (hne : c ≠ '\\') (h : c ∉ value) :
    c ∉ escaped value := by
  intro hin
  obtain ⟨d, hd, hin⟩ := List.mem_flatMap.mp hin
  split_ifs at hin
  · simp only [List.mem_cons, List.not_mem_nil, or_false] at hin
    rcases hin with rfl | rfl
    · exact hne rfl
    · exact h hd
  · rw [List.mem_singleton.mp hin] at h
    exact h hd

/-- The first quote that is not escaped is the one that closes. -/
theorem unquote_escaped (value rest : List Char) :
    unquote false (escaped value ++ '"' :: rest) = some (value, rest) := by
  induction value with
  | nil => rfl
  | cons c value ih =>
    rw [escaped_cons, List.append_assoc]
    split_ifs with hspecial
    · change (unquote false (escaped value ++ '"' :: rest)).map _ = _
      rw [ih, Option.map_some]
      dsimp only
      rw [if_pos hspecial]
    · rw [not_or] at hspecial
      rw [List.cons_append, List.nil_append, unquote, if_neg Bool.false_ne_true, if_neg hspecial.2,
        if_neg hspecial.1, ih]
      rfl

/-- An option as it is written. -/
def optionLine (name argument : List Char) : List Char :=
  name ++ ' ' :: '=' :: ' ' :: '"' :: (escaped argument ++ ['"'])

theorem takeWhile_name {name : List Char} (rest : List Char) (hname : ∀ c ∈ name, isBlank c = false) :
    (name ++ ' ' :: rest).takeWhile (fun c => !isBlank c) = name
      ∧ (name ++ ' ' :: rest).dropWhile (fun c => !isBlank c) = ' ' :: rest := by
  have hall : ∀ c ∈ name, (!isBlank c) = true := fun c hc => by rw [hname c hc]; rfl
  have hstop : (!isBlank ' ') = false := rfl
  constructor
  · rw [List.takeWhile_append_of_pos hall, List.takeWhile_cons, hstop]
    simp
  · rw [List.dropWhile_append_of_pos hall, List.dropWhile_cons, hstop]
    simp

theorem readOption_optionLine {name : List Char} (argument : List Char)
    (hname : ∀ c ∈ name, isBlank c = false) :
    readOption (optionLine name argument) = some { name, argument := some argument } := by
  obtain ⟨htake, hdrop⟩ := takeWhile_name ('=' :: ' ' :: '"' :: (escaped argument ++ ['"'])) hname
  unfold readOption optionLine
  rw [htake, hdrop]
  have hblank : (' ' :: '=' :: ' ' :: '"' :: (escaped argument ++ ['"'])).dropWhile isBlank
      = '"' :: (escaped argument ++ ['"']) := rfl
  rw [hblank]
  simp only [if_true, unquote_escaped]

theorem readConfig_line {line : List Char} (rest : List Char) (hne : line ≠ []) (hline : '\n' ∉ line) :
    readConfig (line ++ '\n' :: rest)
      = (readOption line).bind fun setting => (readConfig rest).map (setting :: ·) := by
  have hsplit : (line ++ '\n' :: rest).splitOn '\n' = line :: rest.splitOn '\n' := by
    rw [List.splitOn_append_cons_self, List.splitOn_eq_singleton hline]
    rfl
  have hkeep : (!line.isEmpty) = true := by simpa using hne
  unfold readConfig
  rw [hsplit, List.filter_cons, if_pos hkeep, List.mapM_cons]
  cases readOption line with
  | none => rfl
  | some setting =>
    cases ((rest.splitOn '\n').filter fun line => !line.isEmpty).mapM readOption with
    | none => rfl
    | some settings => rfl

/-- A line with a quoted argument is read back as it was meant. -/
theorem readConfig_optionLine {name argument : List Char} (rest : List Char)
    (hname : ∀ c ∈ name, isBlank c = false ∧ c ≠ '\n') (hargument : '\n' ∉ argument) :
    readConfig (optionLine name argument ++ '\n' :: rest)
      = (readConfig rest).map ({ name, argument := some argument } :: ·) := by
  have hline : '\n' ∉ optionLine name argument := by
    unfold optionLine
    simp only [List.mem_append, List.mem_cons, List.not_mem_nil, or_false, not_or]
    exact ⟨fun hin => (hname _ hin).2 rfl, by decide, by decide, by decide, by decide,
      not_mem_escaped (by decide) hargument, by decide⟩
  have hne : optionLine name argument ≠ [] := by
    unfold optionLine
    simp
  rw [readConfig_line rest hne hline, readOption_optionLine argument fun c hc => (hname c hc).1]
  rfl

theorem readOption_name {name : List Char} (hname : ∀ c ∈ name, isBlank c = false) :
    readOption name = some { name, argument := none } := by
  have hall : ∀ c ∈ name, (!isBlank c) = true := fun c hc => by rw [hname c hc]; rfl
  unfold readOption
  rw [List.takeWhile_eq_self_iff.mpr hall, List.dropWhile_eq_nil_iff.mpr hall]
  rfl

/-! A whole file. -/

def Setting.line (s : Setting) : List Char :=
  match s.argument with
  | some argument => optionLine s.name argument
  | none => s.name

def render (settings : List Setting) : List Char := settings.flatMap fun s => s.line ++ ['\n']

/-- The option can stand on a line of its own. -/
structure Setting.OneLine (s : Setting) : Prop where
  nonempty : s.name ≠ []
  name : ∀ c ∈ s.name, isBlank c = false ∧ c ≠ '\n'
  argument : ∀ a ∈ s.argument, '\n' ∉ a

theorem readConfig_cons {s : Setting} (h : s.OneLine) (rest : List Char) :
    readConfig (s.line ++ '\n' :: rest) = (readConfig rest).map (s :: ·) := by
  obtain ⟨name, argument⟩ := s
  cases argument with
  | some argument => exact readConfig_optionLine rest h.name (h.argument argument rfl)
  | none =>
    have hline : '\n' ∉ name := fun hin => (h.name _ hin).2 rfl
    change readConfig (name ++ '\n' :: rest) = _
    rw [readConfig_line rest h.nonempty hline, readOption_name fun c hc => (h.name c hc).1]
    rfl

/-- The options are read back once each and in their order. -/
theorem readConfig_render {settings : List Setting} (h : ∀ s ∈ settings, s.OneLine) :
    readConfig (render settings) = some settings := by
  induction settings with
  | nil => rfl
  | cons s settings ih =>
    rw [List.forall_mem_cons] at h
    have hrender : render (s :: settings) = s.line ++ '\n' :: render settings := by
      simp [render]
    rw [hrender, readConfig_cons h.1, ih h.2]
    rfl

end Credman.Library.ConfigFile
