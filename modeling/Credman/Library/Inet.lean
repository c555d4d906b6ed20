import Mathlib.Data.List.Basic
import Mathlib.Data.List.Induction
import Mathlib.Data.List.TakeWhile
import Mathlib.Data.Nat.Digits.Defs
import Mathlib.Tactic.Common

/-! Internet addresses as text: what the standard library's parser takes, and what its printer
writes. -/
namespace Credman.Library

abbrev Text := List Char

/-! Numbers. -/

def digitValue (radix : Nat) (c : Char) : Option Nat :=
  let value :=
    if '0' ≤ c ∧ c ≤ '9' then some (c.toNat - 48)
    else if 'a' ≤ c ∧ c ≤ 'z' then some (c.toNat - 87)
    else if 'A' ≤ c ∧ c ≤ 'Z' then some (c.toNat - 55)
    else none
  value.filter fun n => decide (n < radix)

def isDigit (radix : Nat) (c : Char) : Bool := (digitValue radix c).isSome

def numberValue (radix : Nat) (digits : Text) : Nat :=
  digits.foldl (fun n c => n * radix + (digitValue radix c).getD 0) 0

/-- The digits that stand next, unless they are none, too many, led by a zero that is not
allowed, or too large together. -/
def readNumber (radix maxDigits : Nat) (allowZeroPrefix : Bool) (bound : Nat) (input : Text) :
    Option (Nat × Text) :=
  let digits := input.takeWhile (isDigit radix)
  if digits.isEmpty || decide (maxDigits < digits.length)
      || (!allowZeroPrefix && digits.head? == some '0' && decide (1 < digits.length)) then none
  else if numberValue radix digits < bound then
    some (numberValue radix digits, input.dropWhile (isDigit radix))
  else none

def readGivenChar (c : Char) : Text → Option Text
  | [] => none
  | head :: rest => if head = c then some rest else none

/-- Every item but the first stands behind a separator. -/
def readSeparator {α : Type} (sep : Char) (index : Nat) (inner : Text → Option (α × Text))
    (input : Text) : Option (α × Text) :=
  if index = 0 then inner input else (readGivenChar sep input).bind inner

theorem isDigit_digitChar {radix n : Nat} (hn : n < radix) (hradix : radix ≤ 16) :
    digitValue radix n.digitChar = some n := by
  have hsmall : ∀ n < 16, digitValue 16 n.digitChar = some n := by decide
  have hvalue := hsmall n (by omega)
  unfold digitValue at hvalue ⊢
  rw [Option.filter_eq_some_iff] at hvalue ⊢
  exact ⟨hvalue.1, by simpa using hn⟩

theorem numberValue_append {radix : Nat} (digits : Text) (c : Char) :
    numberValue radix (digits ++ [c]) = numberValue radix digits * radix + (digitValue radix c).getD 0 := by
  unfold numberValue
  rw [List.foldl_append]
  rfl

section Printed

variable {radix : Nat} (hlo : 1 < radix) (hhi : radix ≤ 16)
include hlo hhi

theorem isDigit_of_mem_toDigits (n : Nat) : ∀ c ∈ Nat.toDigits radix n, isDigit radix c = true := by
  induction n using Nat.strong_induction_on with
  | _ n ih =>
    rw [Nat.toDigits_eq_if hlo]
    split_ifs with hsmall
    · intro c hc
      rw [List.mem_singleton.mp hc, isDigit, isDigit_digitChar hsmall hhi]
      rfl
    · intro c hc
      rcases List.mem_append.mp hc with hc | hc
      · exact ih (n / radix) (Nat.div_lt_self (by omega) hlo) c hc
      · rw [List.mem_singleton.mp hc, isDigit, isDigit_digitChar (Nat.mod_lt n (by omega)) hhi]
        rfl

theorem numberValue_toDigits (n : Nat) : numberValue radix (Nat.toDigits radix n) = n := by
  induction n using Nat.strong_induction_on with
  | _ n ih =>
    rw [Nat.toDigits_eq_if hlo]
    split_ifs with hsmall
    · unfold numberValue
      simp [isDigit_digitChar hsmall hhi]
    · rw [numberValue_append, ih (n / radix) (Nat.div_lt_self (by omega) hlo),
        isDigit_digitChar (Nat.mod_lt n (by omega)) hhi, Option.getD_some]
      exact Nat.div_add_mod' n radix

/-- No number but zero is printed with a leading zero. -/
theorem head?_toDigits {n : Nat} (hn : n ≠ 0) : (Nat.toDigits radix n).head? ≠ some '0' := by
  induction n using Nat.strong_induction_on with
  | _ n ih =>
    rw [Nat.toDigits_eq_if hlo]
    split_ifs with hsmall
    · intro heq
      have hvalue := isDigit_digitChar hsmall hhi
      rw [Option.some.inj heq] at hvalue
      have hzero : digitValue radix '0' = some 0 := by
        unfold digitValue
        rw [Option.filter_eq_some_iff]
        exact ⟨rfl, by simp; omega⟩
      rw [hzero] at hvalue
      exact hn (Option.some.inj hvalue).symm
    · have hdiv : n / radix ≠ 0 := by
        rw [Ne, Nat.div_eq_zero_iff]
        omega
      have hhead := ih (n / radix) (Nat.div_lt_self (by omega) hlo) hdiv
      obtain ⟨c, digits, hdigits⟩ := List.exists_cons_of_ne_nil
        (Nat.toDigits_ne_nil : Nat.toDigits radix (n / radix) ≠ [])
      rw [hdigits] at hhead ⊢
      exact hhead

/-- A printed number is read back, up to what ends it. -/
theorem readNumber_toDigits {n maxDigits bound : Nat} {rest : Text} (allowZeroPrefix : Bool)
    (hdigits : (Nat.toDigits radix n).length ≤ maxDigits) (hbound : n < bound)
    (hrest : rest.head?.all (fun c => !isDigit radix c) = true) :
    readNumber radix maxDigits allowZeroPrefix bound (Nat.toDigits radix n ++ rest) = some (n, rest) := by
  have hstop : rest.takeWhile (isDigit radix) = [] ∧ rest.dropWhile (isDigit radix) = rest := by
    cases rest with
    | nil => exact ⟨rfl, rfl⟩
    | cons c rest =>
      have hc : isDigit radix c = false := by simpa using hrest
      exact ⟨by rw [List.takeWhile_cons, hc]; rfl, by rw [List.dropWhile_cons, hc]; rfl⟩
  have hall := isDigit_of_mem_toDigits hlo hhi n
  have htake : (Nat.toDigits radix n ++ rest).takeWhile (isDigit radix) = Nat.toDigits radix n := by
    rw [List.takeWhile_append_of_pos hall, hstop.1, List.append_nil]
  have hdrop : (Nat.toDigits radix n ++ rest).dropWhile (isDigit radix) = rest := by
    rw [List.dropWhile_append_of_pos hall, hstop.2]
  have hne : (Nat.toDigits radix n).isEmpty = false := by simp
  have hzero : ((Nat.toDigits radix n).head? == some '0' && decide (1 < (Nat.toDigits radix n).length))
      = false := by
    by_cases hn : n = 0
    · subst hn
      rw [Nat.toDigits_zero]
      rfl
    · rw [beq_eq_false_iff_ne.mpr (head?_toDigits hlo hhi hn), Bool.false_and]
  simp only [readNumber, htake, hdrop, hne, Bool.and_assoc, hzero, numberValue_toDigits hlo hhi]
  simp [hbound, not_lt.mpr hdigits]

end Printed

/-! IPv4 addresses. -/

structure Ipv4Addr where
  one : UInt8
  two : UInt8
  three : UInt8
  four : UInt8
  deriving DecidableEq

namespace Ipv4Addr

def octetText (octet : UInt8) : Text := Nat.toDigits 10 octet.toNat

/-- `a.b.c.d` in decimal. -/
def toText (ip : Ipv4Addr) : Text :=
  octetText ip.one ++ '.' :: (octetText ip.two ++ '.' :: (octetText ip.three ++ '.' :: octetText ip.four))

def readOctet (input : Text) : Option (UInt8 × Text) :=
  (readNumber 10 3 false 256 input).map fun (n, rest) => (UInt8.ofNat n, rest)

def read (input : Text) : Option (Ipv4Addr × Text) := do
  let (one, rest) ← readSeparator '.' 0 readOctet input
  let (two, rest) ← readSeparator '.' 1 readOctet rest
  let (three, rest) ← readSeparator '.' 2 readOctet rest
  let (four, rest) ← readSeparator '.' 3 readOctet rest
  pure ({ one, two, three, four }, rest)

/-- `parse`: nothing may be left over. -/
def parse (input : Text) : Option Ipv4Addr :=
  if 15 < input.length then none
  else
    match read input with
    | some (ip, []) => some ip
    | _ => none

theorem readOctet_octetText (octet : UInt8) {rest : Text}
    (hrest : rest.head?.all (fun c => !isDigit 10 c) = true) :
    readOctet (octetText octet ++ rest) = some (octet, rest) := by
  have hlt := octet.toNat_lt
  have hdigits : (Nat.toDigits 10 octet.toNat).length ≤ 3 :=
    (Nat.length_toDigits_le_iff (by decide) (by decide)).mpr (by omega)
  unfold readOctet octetText
  rw [readNumber_toDigits (by decide) (by decide) false hdigits hlt hrest, Option.map_some]
  exact congrArg (fun octet => some (octet, rest)) UInt8.ofNat_toNat

theorem read_toText (ip : Ipv4Addr) (rest : Text)
    (hrest : rest.head?.all (fun c => !isDigit 10 c) = true) :
    read (ip.toText ++ rest) = some (ip, rest) := by
  have hdot : ∀ tail : Text, (('.' :: tail).head?.all fun c => !isDigit 10 c) = true := by
    intro tail
    rfl
  have hgiven : ∀ tail : Text, readGivenChar '.' ('.' :: tail) = some tail := fun _ => rfl
  simp only [read, toText, readSeparator, List.append_assoc, List.cons_append, if_true,
    readOctet_octetText _ (hdot _), Option.bind_eq_bind, Option.bind_some, hgiven,
    readOctet_octetText _ hrest, one_ne_zero, OfNat.ofNat_ne_zero, if_false]
  rfl

theorem length_octetText_le (octet : UInt8) : (octetText octet).length ≤ 3 :=
  (Nat.length_toDigits_le_iff (by decide) (by decide)).mpr (by have := octet.toNat_lt; omega)

theorem parse_toText (ip : Ipv4Addr) : parse ip.toText = some ip := by
  have hlength : ip.toText.length ≤ 15 := by
    have hone := length_octetText_le ip.one
    have htwo := length_octetText_le ip.two
    have hthree := length_octetText_le ip.three
    have hfour := length_octetText_le ip.four
    simp only [toText, List.length_append, List.length_cons]
    omega
  have hread := read_toText ip [] rfl
  rw [List.append_nil] at hread
  unfold parse
  rw [if_neg (not_lt.mpr hlength), hread]

/-- One digit or more. -/
def Digits (text : Text) : Prop := text ≠ [] ∧ ∀ c ∈ text, isDigit 10 c = true

theorem readOctet_shape {input rest : Text} {octet : UInt8} (h : readOctet input = some (octet, rest)) :
    ∃ digits, Digits digits ∧ input = digits ++ rest := by
  unfold readOctet readNumber at h
  simp only [Option.map_eq_some_iff, Prod.exists, Prod.mk.injEq] at h
  obtain ⟨n, left, hnumber, -, rfl⟩ := h
  split_ifs at hnumber with hrefused
  simp only [Bool.or_eq_true, not_or] at hrefused
  cases hnumber
  refine ⟨input.takeWhile (isDigit 10), ⟨by simpa using hrefused.1.1, ?_⟩,
    List.takeWhile_append_dropWhile.symm⟩
  exact fun c hc => List.mem_takeWhile_imp hc

theorem readGivenChar_eq_some {c : Char} {input rest : Text} (h : readGivenChar c input = some rest) :
    input = c :: rest := by
  cases input with
  | nil => cases h
  | cons head input =>
    change (if head = c then some input else none) = some rest at h
    split_ifs at h with heq
    cases h
    rw [heq]

/-- What is parsed has four numbers with dots between them. -/
theorem parse_shape {input : Text} {ip : Ipv4Addr} (h : parse input = some ip) :
    ∃ a b c d, Digits a ∧ Digits b ∧ Digits c ∧ Digits d
      ∧ input = a ++ '.' :: (b ++ '.' :: (c ++ '.' :: d)) := by
  unfold parse at h
  split_ifs at h
  split at h
  · next hread =>
    unfold read at hread
    simp only [readSeparator, if_true, one_ne_zero, OfNat.ofNat_ne_zero, if_false, Option.bind_eq_bind,
      Option.bind_eq_some_iff, Prod.exists] at hread
    obtain ⟨one, after, hone, two, after', ⟨_, hdot, htwo⟩, three, after'', ⟨_, hdot', hthree⟩, four, rest,
      ⟨_, hdot'', hfour⟩, hend⟩ := hread
    cases hend
    obtain ⟨a, ha, rfl⟩ := readOctet_shape hone
    cases readGivenChar_eq_some hdot
    obtain ⟨b, hb, rfl⟩ := readOctet_shape htwo
    cases readGivenChar_eq_some hdot'
    obtain ⟨c, hc, rfl⟩ := readOctet_shape hthree
    cases readGivenChar_eq_some hdot''
    obtain ⟨d, hd, rfl⟩ := readOctet_shape hfour
    exact ⟨a, b, c, d, ha, hb, hc, hd, by rw [List.append_nil]⟩
  · cases h

/-- An address cannot be read where no dot stands. -/
theorem read_of_no_dot {input : Text} (h : '.' ∉ input) : read input = none := by
  have hdrop : ∀ {n rest}, readOctet input = some (n, rest) → '.' ∉ rest := by
    intro n rest hread hin
    obtain ⟨digits, -, rfl⟩ := readOctet_shape hread
    exact h (List.mem_append_right digits hin)
  unfold read
  cases hone : readOctet input with
  | none => simp [readSeparator, hone]
  | some pair =>
    obtain ⟨one, rest⟩ := pair
    have hrest := hdrop hone
    have hgiven : readGivenChar '.' rest = none := by
      cases rest with
      | nil => rfl
      | cons c rest =>
        refine if_neg ?_
        rintro rfl
        exact hrest List.mem_cons_self
    simp [readSeparator, hone, hgiven]

end Ipv4Addr

/-! IPv6 addresses. -/

structure Ipv6Addr where
  segments : List UInt16
  length_eq : segments.length = 8
  deriving DecidableEq

namespace Ipv6Addr

def ofSegments (segments : List UInt16) : Option Ipv6Addr :=
  if h : segments.length = 8 then some ⟨segments, h⟩ else none

def segmentText (segment : UInt16) : Text := Nat.toDigits 16 segment.toNat

/-- Segments in lower-case hexadecimal, with colons between them. -/
def joined (segments : List UInt16) : Text := List.intercalate [':'] (segments.map segmentText)

/-- A run of zero segments. -/
structure Span where
  start : Nat := 0
  len : Nat := 0

/-- The longest run met so far, and the one that may still grow. -/
def growSpan (spans : Span × Span) (entry : UInt16 × Nat) : Span × Span :=
  let (longest, current) := spans
  if entry.1 = 0 then
    let current : Span := {
      start := if current.len = 0 then entry.2 else current.start
      len := current.len + 1 }
    (if longest.len < current.len then current else longest, current)
  else (longest, {})

/-- The first of the longest runs of zeros. -/
def zeroes (segments : List UInt16) : Span := (segments.zipIdx.foldl growSpan ({}, {})).1

/-- `to_ipv4_mapped` -/
def toIpv4Mapped (ip : Ipv6Addr) : Option Ipv4Addr :=
  match ip.segments with
  | [0, 0, 0, 0, 0, 0xffff, high, low] =>
    some { one := (high / 256).toUInt8, two := high.toUInt8, three := (low / 256).toUInt8, four := low.toUInt8 }
  | _ => none

def toText (ip : Ipv6Addr) : Text :=
  match ip.toIpv4Mapped with
  | some ipv4 => ':' :: ':' :: 'f' :: 'f' :: 'f' :: 'f' :: ':' :: ipv4.toText
  | none =>
    let longest := zeroes ip.segments
    if 1 < longest.len then
      joined (ip.segments.take longest.start)
        ++ ':' :: ':' :: joined (ip.segments.drop (longest.start + longest.len))
    else joined ip.segments

/-- Up to `room` groups, of which the next is the one at `index`; whether an IPv4 address closed
them; and what is left. -/
def readGroups : Nat → Nat → Text → List UInt16 × Bool × Text
  | 0, _, input => ([], false, input)
  | room + 1, index, input =>
    match if 0 < room then readSeparator ':' index Ipv4Addr.read input else none with
    | some (ipv4, rest) =>
      ([UInt16.ofNat (ipv4.one.toNat * 256 + ipv4.two.toNat),
        UInt16.ofNat (ipv4.three.toNat * 256 + ipv4.four.toNat)], true, rest)
    | none =>
      match readSeparator ':' index (readNumber 16 4 true 65536) input with
      | some (group, rest) =>
        let (groups, ipv4, rest) := readGroups room (index + 1) rest
        (UInt16.ofNat group :: groups, ipv4, rest)
      | none => ([], false, input)

def read (input : Text) : Option (Ipv6Addr × Text) :=
  let (head, headIpv4, rest) := readGroups 8 0 input
  if head.length = 8 then (ofSegments head).map (·, rest)
  -- an IPv4 part is not allowed before `::`
  else if headIpv4 then none
  else do
    let rest ← readGivenChar ':' rest
    let rest ← readGivenChar ':' rest
    let (tail, _, rest) := readGroups (8 - (head.length + 1)) 0 rest
    let zeros := List.replicate (8 - head.length - tail.length) 0
    (ofSegments (head ++ zeros ++ tail)).map (·, rest)

def parse (input : Text) : Option Ipv6Addr :=
  match read input with
  | some (ip, []) => some ip
  | _ => none

/-- The groups after the first, each behind its colon. -/
def colonGroups (segments : List UInt16) : Text := segments.flatMap fun segment => ':' :: segmentText segment

theorem joined_cons (segment : UInt16) (segments : List UInt16) :
    joined (segment :: segments) = segmentText segment ++ colonGroups segments := by
  induction segments generalizing segment with
  | nil => simp [joined, colonGroups, List.intercalate]
  | cons next rest ih =>
    have hstep : joined (segment :: next :: rest) = segmentText segment ++ ':' :: joined (next :: rest) := by
      simp [joined, List.intercalate]
    rw [hstep, ih next]
    rfl

theorem no_dot_segmentText (segment : UInt16) : '.' ∉ segmentText segment := by
  intro hin
  have hdigit := isDigit_of_mem_toDigits (by decide) (by decide) segment.toNat _ hin
  cases hdigit

theorem no_dot_colonGroups (segments : List UInt16) : '.' ∉ colonGroups segments := by
  unfold colonGroups
  simp [no_dot_segmentText]

/-- Where a list of groups ends. -/
def Ends (rest : Text) : Prop := rest = [] ∨ ∃ tail, rest = ':' :: ':' :: tail

theorem head?_colonGroups (segments : List UInt16) {rest : Text} (hends : Ends rest) :
    (colonGroups segments ++ rest).head?.all (fun c => !isDigit 16 c) = true := by
  cases segments with
  | nil =>
    rcases hends with rfl | ⟨tail, rfl⟩
    · rfl
    · rfl
  | cons segment segments => rfl

theorem readNumber_of_head {radix maxDigits bound : Nat} {allowZeroPrefix : Bool} {c : Char} {rest : Text}
    (h : isDigit radix c = false) : readNumber radix maxDigits allowZeroPrefix bound (c :: rest) = none := by
  unfold readNumber
  simp [h]

theorem read_ipv4_of_head {c : Char} {rest : Text} (h : isDigit 10 c = false) :
    Ipv4Addr.read (c :: rest) = none := by
  unfold Ipv4Addr.read Ipv4Addr.readOctet
  simp [readSeparator, readNumber_of_head h]

theorem readNumber_segmentText (segment : UInt16) {rest : Text}
    (hrest : rest.head?.all (fun c => !isDigit 16 c) = true) :
    readNumber 16 4 true 65536 (segmentText segment ++ rest) = some (segment.toNat, rest) := by
  have hlt := segment.toNat_lt
  exact readNumber_toDigits (by decide) (by decide) true
    ((Nat.length_toDigits_le_iff (by decide) (by decide)).mpr (by omega)) (by omega) hrest

theorem readGroups_end (room index : Nat) {rest : Text} (hends : Ends rest) :
    readGroups room (index + 1) rest = ([], false, rest) := by
  cases room with
  | zero => rfl
  | succ room =>
    have hcolon : isDigit 16 ':' = false ∧ isDigit 10 ':' = false := by decide
    rcases hends with rfl | ⟨tail, rfl⟩
    · simp [readGroups, readSeparator, readGivenChar]
    · simp [readGroups, readSeparator, readGivenChar, read_ipv4_of_head hcolon.2,
        readNumber_of_head hcolon.1]

theorem readGroups_colonGroups {segments : List UInt16} {room index : Nat} {rest : Text}
    (hroom : segments.length ≤ room) (hends : Ends rest) (hdot : '.' ∉ rest) :
    readGroups room (index + 1) (colonGroups segments ++ rest) = (segments, false, rest) := by
  induction segments generalizing room index with
  | nil => exact readGroups_end room index hends
  | cons segment segments ih =>
    obtain ⟨room, rfl⟩ : ∃ n, room = n + 1 := ⟨room - 1, by simp only [List.length_cons] at hroom; omega⟩
    have hinput : colonGroups (segment :: segments) ++ rest =
        ':' :: (segmentText segment ++ (colonGroups segments ++ rest)) := by
      simp [colonGroups]
    have hnone : Ipv4Addr.read (segmentText segment ++ (colonGroups segments ++ rest)) = none := by
      apply Ipv4Addr.read_of_no_dot
      simp [no_dot_segmentText, no_dot_colonGroups, hdot]
    have hnumber := readNumber_segmentText segment (head?_colonGroups segments hends)
    rw [hinput, readGroups]
    simp only [readSeparator, Nat.add_eq_zero_iff, one_ne_zero, and_false, if_false, readGivenChar, if_true,
      Option.bind_some, hnone, ite_self, hnumber, ih (by simpa using hroom), UInt16.ofNat_toNat]

/-- A printed list of groups is read back, up to what ends it. -/
theorem readGroups_joined (segments : List UInt16) (room : Nat) (rest : Text)
    (hroom : segments.length ≤ room) (hends : Ends rest) (hdot : '.' ∉ rest) :
    readGroups room 0 (joined segments ++ rest) = (segments, false, rest) := by
  cases segments with
  | nil =>
    change readGroups room 0 rest = _
    cases room with
    | zero => rfl
    | succ room =>
      have hcolon : isDigit 16 ':' = false ∧ isDigit 10 ':' = false := by decide
      rcases hends with rfl | ⟨tail, rfl⟩
      · simp [readGroups, readSeparator, Ipv4Addr.read, Ipv4Addr.readOctet, readNumber]
      · simp [readGroups, readSeparator, read_ipv4_of_head hcolon.2, readNumber_of_head hcolon.1]
  | cons segment segments =>
    obtain ⟨room, rfl⟩ : ∃ n, room = n + 1 := ⟨room - 1, by simp only [List.length_cons] at hroom; omega⟩
    have hnone : Ipv4Addr.read (segmentText segment ++ (colonGroups segments ++ rest)) = none := by
      apply Ipv4Addr.read_of_no_dot
      simp [no_dot_segmentText, no_dot_colonGroups, hdot]
    have hnumber := readNumber_segmentText segment (head?_colonGroups segments hends)
    rw [joined_cons, List.append_assoc, readGroups]
    simp only [readSeparator, if_true, hnone, ite_self, hnumber,
      readGroups_colonGroups (by simpa using hroom) hends hdot, UInt16.ofNat_toNat]

/-! The run of zeros that the printer leaves out. -/

def ZeroRun (segments : List UInt16) (span : Span) : Prop :=
  span.start + span.len ≤ segments.length
    ∧ ∀ i, span.start ≤ i → i < span.start + span.len → segments[i]? = some 0

/-- What the scan keeps: both runs are there, and the current one ends where the scan is. -/
structure Scanned (segments : List UInt16) (spans : Span × Span) : Prop where
  longest : ZeroRun segments spans.1
  current : ZeroRun segments spans.2
  open_end : spans.2.len ≠ 0 → spans.2.start + spans.2.len = segments.length

theorem ZeroRun.snoc {segments : List UInt16} {span : Span} (h : ZeroRun segments span) (segment : UInt16) :
    ZeroRun (segments ++ [segment]) span := by
  refine ⟨by rw [List.length_append]; exact h.1.trans (Nat.le_add_right _ _), fun i hlo hhi => ?_⟩
  rw [List.getElem?_append_left (by have := h.1; omega)]
  exact h.2 i hlo hhi

theorem zeroRun_empty (segments : List UInt16) : ZeroRun segments {} :=
  ⟨Nat.zero_le _, fun _ _ hhi => absurd hhi (Nat.not_lt_zero _)⟩

/-- The current run, grown by one more zero. -/
theorem Scanned.grown {segments : List UInt16} {longest current : Span}
    (h : Scanned segments (longest, current)) {start : Nat}
    (hstart : start = if current.len = 0 then segments.length else current.start) :
    ZeroRun (segments ++ [0]) ⟨start, current.len + 1⟩
      ∧ start + (current.len + 1) = (segments ++ [0]).length := by
  have hlength : (segments ++ [(0 : UInt16)]).length = segments.length + 1 := by simp
  have hend : start + current.len = segments.length := by
    rw [hstart]
    split_ifs with hlen
    · omega
    · exact h.open_end hlen
  have hzeros : ∀ i, start ≤ i → i < segments.length → segments[i]? = some 0 := by
    intro i hlo hhi
    split_ifs at hstart with hlen
    · omega
    · exact h.current.2 i (by dsimp only; omega) (by dsimp only; omega)
  refine ⟨⟨by dsimp only; omega, fun i hlo hhi => ?_⟩, by omega⟩
  dsimp only at hlo hhi
  by_cases hlast : i = segments.length
  · rw [hlast, List.getElem?_concat_length]
  · rw [List.getElem?_append_left (by omega)]
    exact hzeros i hlo (by omega)

theorem Scanned.step {segments : List UInt16} {spans : Span × Span} (h : Scanned segments spans)
    (segment : UInt16) : Scanned (segments ++ [segment]) (growSpan spans (segment, segments.length)) := by
  obtain ⟨longest, current⟩ := spans
  unfold growSpan
  by_cases hzero : segment = 0
  · obtain ⟨hgrown, hend⟩ := h.grown rfl
    rw [hzero]
    simp only [if_true]
    refine ⟨?_, hgrown, fun _ => hend⟩
    by_cases hlonger : longest.len < current.len + 1
    · rw [if_pos hlonger]
      exact hgrown
    · rw [if_neg hlonger]
      exact h.longest.snoc 0
  · simp only [hzero, if_false]
    exact ⟨h.longest.snoc segment, zeroRun_empty _, fun hne => absurd rfl hne⟩

theorem scanned (segments : List UInt16) : Scanned segments (segments.zipIdx.foldl growSpan ({}, {})) := by
  induction segments using List.reverseRecOn with
  | nil => exact ⟨zeroRun_empty _, zeroRun_empty _, fun hne => absurd rfl hne⟩
  | append_singleton segments segment ih =>
    rw [List.zipIdx_append, List.foldl_append]
    simpa using ih.step segment

/-- The segments are the ones before the run, the zeros, and the ones after it. -/
theorem ZeroRun.split {segments : List UInt16} {span : Span} (h : ZeroRun segments span) :
    segments.take span.start ++ List.replicate span.len 0 ++ segments.drop (span.start + span.len)
      = segments := by
  have hmid : (segments.drop span.start).take span.len = List.replicate span.len 0 := by
    apply List.ext_getElem?
    intro i
    by_cases hi : i < span.len
    · rw [List.getElem?_take_of_lt hi, List.getElem?_drop, h.2 _ (Nat.le_add_right _ _) (by omega),
        List.getElem?_replicate, if_pos hi]
    · rw [List.getElem?_eq_none (by rw [List.length_take]; omega),
        List.getElem?_eq_none (by rw [List.length_replicate]; omega)]
  rw [← hmid, List.append_assoc, ← List.drop_drop, List.take_append_drop, List.take_append_drop]

theorem no_dot_joined (segments : List UInt16) : '.' ∉ joined segments := by
  cases segments with
  | nil => simp [joined, List.intercalate]
  | cons segment segments =>
    rw [joined_cons, List.mem_append, not_or]
    exact ⟨no_dot_segmentText segment, no_dot_colonGroups segments⟩

theorem ofSegments_segments (ip : Ipv6Addr) : ofSegments ip.segments = some ip := by
  unfold ofSegments
  rw [dif_pos ip.length_eq]

theorem read_joined (ip : Ipv6Addr) : read (joined ip.segments) = some (ip, []) := by
  have hgroups := readGroups_joined ip.segments 8 [] (le_of_eq ip.length_eq) (.inl rfl)
    List.not_mem_nil
  rw [List.append_nil] at hgroups
  unfold read
  rw [hgroups]
  simp only [ip.length_eq, if_true, ofSegments_segments, Option.map_some]

theorem read_compressed {ip : Ipv6Addr} {span : Span} (h : ZeroRun ip.segments span) (hlen : 1 < span.len) :
    read (joined (ip.segments.take span.start)
      ++ ':' :: ':' :: joined (ip.segments.drop (span.start + span.len))) = some (ip, []) := by
  have hsplit := h.split
  have hle := h.1
  have height := ip.length_eq
  have hhead : (ip.segments.take span.start).length = span.start := by
    rw [List.length_take]
    omega
  have htail : (ip.segments.drop (span.start + span.len)).length = 8 - (span.start + span.len) := by
    rw [List.length_drop, height]
  have hleft := readGroups_joined (ip.segments.take span.start) 8
    (':' :: ':' :: joined (ip.segments.drop (span.start + span.len))) (by omega) (.inr ⟨_, rfl⟩)
    (by simp [no_dot_joined])
  have hright := readGroups_joined (ip.segments.drop (span.start + span.len))
    (8 - (span.start + 1)) [] (by omega) (.inl rfl) List.not_mem_nil
  rw [List.append_nil] at hright
  unfold read
  rw [hleft]
  have hzeros : 8 - span.start - (8 - (span.start + span.len)) = span.len := by omega
  simp only [hhead, show span.start ≠ 8 by omega, if_false, Bool.false_eq_true, readGivenChar, if_true,
    Option.bind_eq_bind, Option.bind_some, hright, htail, hzeros, hsplit, ofSegments_segments,
    Option.map_some]

/-- A mapped IPv4 address, with its octets back in two segments. -/
theorem toIpv4Mapped_eq_some {ip : Ipv6Addr} {ipv4 : Ipv4Addr} (h : ip.toIpv4Mapped = some ipv4) :
    ip.segments = [0, 0, 0, 0, 0, 0xffff, UInt16.ofNat (ipv4.one.toNat * 256 + ipv4.two.toNat),
      UInt16.ofNat (ipv4.three.toNat * 256 + ipv4.four.toNat)] := by
  have hpair : ∀ segment : UInt16,
      UInt16.ofNat ((segment / 256).toUInt8.toNat * 256 + segment.toUInt8.toNat) = segment := by
    intro segment
    apply UInt16.toNat_inj.mp
    have hlt := segment.toNat_lt
    simp
    omega
  unfold toIpv4Mapped at h
  split at h
  · next high low heq =>
    cases h
    rw [heq, hpair, hpair]
  · cases h

theorem read_mapped {ip : Ipv6Addr} {ipv4 : Ipv4Addr} (h : ip.toIpv4Mapped = some ipv4) :
    read (':' :: ':' :: 'f' :: 'f' :: 'f' :: 'f' :: ':' :: ipv4.toText) = some (ip, []) := by
  have hcolon : isDigit 16 ':' = false ∧ isDigit 10 ':' = false := by decide
  have hhead : readGroups 8 0 (':' :: ':' :: 'f' :: 'f' :: 'f' :: 'f' :: ':' :: ipv4.toText)
      = ([], false, ':' :: ':' :: 'f' :: 'f' :: 'f' :: 'f' :: ':' :: ipv4.toText) := by
    simp [readGroups, readSeparator, read_ipv4_of_head hcolon.2, readNumber_of_head hcolon.1]
  have hffff : readNumber 16 4 true 65536 ('f' :: 'f' :: 'f' :: 'f' :: ':' :: ipv4.toText)
      = some (65535, ':' :: ipv4.toText) := readNumber_segmentText 0xffff rfl
  have hipv4 : Ipv4Addr.read ipv4.toText = some (ipv4, []) := by
    have hread := ipv4.read_toText [] rfl
    rwa [List.append_nil] at hread
  have hf : isDigit 10 'f' = false := by decide
  have htail : readGroups 7 0 ('f' :: 'f' :: 'f' :: 'f' :: ':' :: ipv4.toText)
      = ([0xffff, UInt16.ofNat (ipv4.one.toNat * 256 + ipv4.two.toNat),
        UInt16.ofNat (ipv4.three.toNat * 256 + ipv4.four.toNat)], true, []) := by
    simp [readGroups, readSeparator, read_ipv4_of_head hf, hffff, readGivenChar, hipv4]
  unfold read
  rw [hhead]
  simp only [List.length_nil, show (0 : Nat) ≠ 8 by decide, if_false, Bool.false_eq_true, readGivenChar,
    if_true, Option.bind_eq_bind, Option.bind_some, Nat.reduceAdd, Nat.reduceSub, htail, List.length_cons]
  change (ofSegments _).map _ = _
  rw [show [] ++ List.replicate 5 0 ++ [0xffff, UInt16.ofNat (ipv4.one.toNat * 256 + ipv4.two.toNat),
      UInt16.ofNat (ipv4.three.toNat * 256 + ipv4.four.toNat)] = ip.segments from
    (toIpv4Mapped_eq_some h).symm, ofSegments_segments, Option.map_some]

/-- What the printer writes, the parser reads. -/
theorem parse_toText (ip : Ipv6Addr) : parse ip.toText = some ip := by
  have hread : read ip.toText = some (ip, []) := by
    unfold toText
    cases hmapped : ip.toIpv4Mapped with
    | some ipv4 => exact read_mapped hmapped
    | none =>
      dsimp only
      split_ifs with hlen
      · exact read_compressed (scanned ip.segments).longest hlen
      · exact read_joined ip
  unfold parse
  rw [hread]

end Ipv6Addr

end Credman.Library
