import Bright.Fc.Base
import Bright.Lib.Radix
import Bright.Name.NormalForm

/-!
# The two name tools

`stringToName` prints the code of its argument as a decimal number.
`nameToString` reads a decimal number and prints it and its text.  Between the
two stands what the streams of the standard library make of numbers and texts;
reading undoes writing (`readNumber_writeNumber`).
-/

namespace Bright.Name

open Bright.Eosio
open Bright.Fc (isspace)
open Bright.Lib.Radix

/-! ### Numbers in streams -/

def isdigit (c : UInt8) : Bool := '0'.toUInt8 ≤ c && c ≤ '9'.toUInt8

/-- The digit that a character stands for, and back. -/
def digitOf (c : UInt8) : ℕ := (c - '0'.toUInt8).toNat

def digitChar (digit : ℕ) : UInt8 := '0'.toUInt8 + UInt8.ofNat digit

/-- `<<` for an unsigned number. -/
def writeNumber (val : UInt64) : StdString :=
  if val = 0 then ['0'.toUInt8]
  else (numeral 10 val.toNat).map digitChar

/-- The number that digits behind a sign are converted to: the largest one where
it is too large. -/
def convertNumber (sign digits : StdString) : UInt64 :=
  let value := number 10 (digits.map digitOf)
  if 2 ^ 64 ≤ value then UInt64.ofNat (2 ^ 64 - 1)
  else if sign = ['-'.toUInt8] then -UInt64.ofNat value
  else UInt64.ofNat value

/-- `>>` for an unsigned number.  Where only white space is left nothing is
written to the number, which is `none`; where there are no digits it is zero. -/
def readNumber (text : StdString) : Option UInt64 :=
  match text.dropWhile isspace with
  | [] => none
  | c :: rest =>
      if c = '-'.toUInt8 ∨ c = '+'.toUInt8 then
        some (convertNumber [c] (rest.takeWhile isdigit))
      else
        some (convertNumber [] ((c :: rest).takeWhile isdigit))

/-! ### The tools -/

/-- `main` of `stringToName.cpp`: from the arguments to the lines. -/
def stringToNameMain : List StdString → List StdString
  | [] => []
  | str :: _ => [writeNumber (stringToName str)]

/-- `main` of `nameToString.cpp`; `none` is a run that prints a number which was
never written. -/
def nameToStringMain : List StdString → Option (List StdString)
  | [] => some []
  | text :: _ => (readNumber text).map fun val => [writeNumber val, nameToString val]

variable {blanks sign digits rest text : StdString} {val : UInt64}
  {digit : ℕ}

/-! ### Characters of digits -/

theorem digitOf_digitChar (below : digit < 10) :
    digitOf (digitChar digit) = digit := by
  revert digit
  decide

theorem isdigit_digitChar (below : digit < 10) : isdigit (digitChar digit) := by
  revert digit
  decide

theorem not_isspace_of_isdigit {c : UInt8} (isDigit : isdigit c) :
    ¬ isspace c := by
  have bytes : ∀ n : Fin 256, isdigit (UInt8.ofFin n) →
      ¬ isspace (UInt8.ofFin n) := by
    decide +kernel
  exact bytes c.toFin isDigit

theorem not_sign_of_isdigit {c : UInt8} (isDigit : isdigit c) :
    ¬ (c = '-'.toUInt8 ∨ c = '+'.toUInt8) := by
  rintro (rfl | rfl) <;> exact absurd isDigit (by decide)

/-! ### Reading -/

theorem takeWhile_digits (areDigits : ∀ c ∈ digits, isdigit c)
    (ends : ∀ c ∈ rest.head?, ¬ isdigit c) :
    (digits ++ rest).takeWhile isdigit = digits := by
  rw [List.takeWhile_append_of_pos areDigits]
  cases rest with
  | nil => simp
  | cons c rest =>
      rw [List.takeWhile_cons_of_neg (ends c rfl), List.append_nil]

/-- Blanks, a sign or none, digits, and what is no digit. -/
theorem readNumber_parts (areBlanks : ∀ c ∈ blanks, isspace c)
    (isSign : sign ∈ [[], ['+'.toUInt8], ['-'.toUInt8]])
    (areDigits : ∀ c ∈ digits, isdigit c) (nonempty : digits ≠ [])
    (ends : ∀ c ∈ rest.head?, ¬ isdigit c) :
    readNumber (blanks ++ sign ++ digits ++ rest) =
      some (convertNumber sign digits) := by
  have taken := takeWhile_digits areDigits ends
  obtain ⟨first, later, rfl⟩ := List.exists_cons_of_ne_nil nonempty
  have firstDigit := areDigits first List.mem_cons_self
  rw [readNumber, List.append_assoc, List.append_assoc,
    List.dropWhile_append_of_pos areBlanks]
  simp only [List.mem_cons, List.not_mem_nil, or_false] at isSign
  rcases isSign with rfl | rfl | rfl
  · have kept := not_isspace_of_isdigit firstDigit
    rw [List.nil_append, List.cons_append, List.dropWhile_cons_of_neg kept]
    dsimp only
    rw [if_neg (not_sign_of_isdigit firstDigit), ← List.cons_append, taken]
  · rw [List.singleton_append, List.dropWhile_cons_of_neg (by decide)]
    dsimp only
    rw [if_pos (Or.inr rfl), taken]
  · rw [List.singleton_append, List.dropWhile_cons_of_neg (by decide)]
    dsimp only
    rw [if_pos (Or.inl rfl), taken]

theorem readNumber_eq_none_iff :
    readNumber text = none ↔ ∀ c ∈ text, isspace c := by
  rw [← List.dropWhile_eq_nil_iff, readNumber]
  split
  next empty => simp only [empty]
  next c rest behind =>
    rw [behind]
    split_ifs <;> simp

/-! ### Reading what was written -/

theorem convertNumber_eq (whole : number 10 (digits.map digitOf) = val.toNat) :
    convertNumber [] digits = val := by
  have small : ¬ 2 ^ 64 ≤ number 10 (digits.map digitOf) := by
    rw [whole]
    exact Nat.not_le.mpr val.toNat_lt
  rw [convertNumber, if_neg small, if_neg (List.cons_ne_nil _ _).symm, whole,
    UInt64.ofNat_toNat]

theorem isdigit_of_mem_writeNumber (val : UInt64) :
    ∀ c ∈ writeNumber val, isdigit c := by
  intro c member
  rw [writeNumber] at member
  split_ifs at member with zero
  · rw [List.mem_singleton.mp member]
    decide
  · obtain ⟨digit, digitMember, rfl⟩ := List.mem_map.mp member
    exact isdigit_digitChar (lt_of_mem_numeral (by omega) digitMember)

theorem number_writeNumber (val : UInt64) :
    number 10 ((writeNumber val).map digitOf) = val.toNat := by
  rw [writeNumber]
  split_ifs with zero
  · rw [zero]
    rfl
  · have digits : ((numeral 10 val.toNat).map digitChar).map digitOf =
        numeral 10 val.toNat := by
      rw [List.map_map]
      conv_rhs => rw [← List.map_id (numeral 10 val.toNat)]
      apply List.map_congr_left
      intro digit member
      exact digitOf_digitChar (lt_of_mem_numeral (by omega) member)
    rw [digits, number_numeral]

theorem writeNumber_ne_nil (val : UInt64) : writeNumber val ≠ [] := by
  intro empty
  have whole := number_writeNumber val
  rw [empty] at whole
  have zero : val = 0 := UInt64.toNat_inj.mp whole.symm
  rw [zero] at empty
  exact absurd empty (by decide)

theorem readNumber_writeNumber (val : UInt64) : readNumber (writeNumber val) = some val := by
  have read : readNumber ([] ++ [] ++ writeNumber val ++ []) =
      some (convertNumber [] (writeNumber val)) :=
    readNumber_parts (fun _ member => nomatch member) List.mem_cons_self
      (isdigit_of_mem_writeNumber val) (writeNumber_ne_nil val)
      (fun _ member => nomatch member)
  rw [List.append_nil, List.nil_append, List.nil_append,
    convertNumber_eq (number_writeNumber val)] at read
  exact read

/-! ### The numbers of all texts -/

/-- A negative number counts from the other end. -/
theorem toNat_convertNumber (sign digits : StdString) :
    (convertNumber sign digits).toNat =
      if 2 ^ 64 ≤ number 10 (digits.map digitOf) then 2 ^ 64 - 1
      else if sign = ['-'.toUInt8] then
        (2 ^ 64 - number 10 (digits.map digitOf)) % 2 ^ 64
      else number 10 (digits.map digitOf) := by
  rw [convertNumber]
  split_ifs with large minus
  · rfl
  · have small : number 10 (digits.map digitOf) < 2 ^ 64 := by omega
    rw [UInt64.toNat_neg, UInt64.toNat_ofNat_of_lt' small]
    rfl
  · have small : number 10 (digits.map digitOf) < 2 ^ 64 := by omega
    exact UInt64.toNat_ofNat_of_lt' small

theorem nameToStringMain_eq_some {args : List StdString}
    {number name : StdString}
    (printed : nameToStringMain args = some [number, name]) :
    ∃ val, number = writeNumber val ∧ name = nameToString val := by
  cases args with
  | nil =>
      rw [nameToStringMain] at printed
      exact nomatch printed
  | cons text rest =>
      obtain ⟨val, -, lines⟩ := Option.map_eq_some_iff.mp printed
      obtain ⟨isNumber, isName⟩ := List.cons_eq_cons.mp lines
      exact ⟨val, isNumber.symm, (List.cons_eq_cons.mp isName).1.symm⟩

/-- What `stringToName` prints makes `nameToString` print it again with the
normal form of the name, and the name that `nameToString` prints makes
`stringToName` print the number above it; only an argument of white space leaves
the number open, and the other ones are read as decimal numbers up to the first
character that is no digit. -/
theorem name_tools :
    (∀ str, nameToStringMain (stringToNameMain [str]) =
      some (stringToNameMain [str] ++ [normalForm str])) ∧
    (∀ args number name, nameToStringMain args = some [number, name] →
      stringToNameMain [name] = [number] ∧ normalForm name = name ∧
        nameToStringMain [number] = some [number, name]) ∧
    (∀ text, nameToStringMain [text] = none ↔ ∀ c ∈ text, isspace c) ∧
    ∀ blanks sign digits rest, (∀ c ∈ blanks, isspace c) →
      sign ∈ [[], ['+'.toUInt8], ['-'.toUInt8]] →
      (∀ c ∈ digits, isdigit c) → digits ≠ [] →
      (∀ c ∈ rest.head?, ¬ isdigit c) →
      ∃ val, nameToStringMain [blanks ++ sign ++ digits ++ rest] =
          some [writeNumber val, nameToString val] ∧
        val.toNat =
          if 2 ^ 64 ≤ number 10 (digits.map digitOf) then 2 ^ 64 - 1
          else if sign = ['-'.toUInt8] then
            (2 ^ 64 - number 10 (digits.map digitOf)) % 2 ^ 64
          else number 10 (digits.map digitOf) := by
  refine ⟨?_, ?_, ?_, ?_⟩
  · intro str
    rw [stringToNameMain, nameToStringMain, readNumber_writeNumber,
      Option.map_some, nameToString_of_code]
    rfl
  · intro args number name printed
    obtain ⟨val, rfl, rfl⟩ := nameToStringMain_eq_some printed
    have code := code_of_nameToString val
    have normal := nameToString_of_code (nameToString val)
    rw [code] at normal
    rw [stringToNameMain, code, nameToStringMain, readNumber_writeNumber]
    exact ⟨rfl, normal.symm, rfl⟩
  · intro text
    rw [nameToStringMain, Option.map_eq_none_iff, readNumber_eq_none_iff]
  · intro blanks sign digits rest areBlanks isSign areDigits nonempty ends
    refine ⟨convertNumber sign digits, ?_, toNat_convertNumber sign digits⟩
    rw [nameToStringMain,
      readNumber_parts areBlanks isSign areDigits nonempty ends,
      Option.map_some]

example :
    nameToStringMain [" -01x".toUTF8.toList] =
      some ["18446744073709551615".toUTF8.toList,
        "zzzzzzzzzzzzj".toUTF8.toList] := by
  decide +kernel

end Bright.Name
