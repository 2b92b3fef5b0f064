import Bright.Name.StringToName

/-!
# Exceptions, arrays and strings of the fc library

A failed check throws an exception, which is its class and the messages logged
on the way; `FC_ASSERT` puts the text of the test before the message of the
caller, and `FC_RETHROW_EXCEPTIONS` adds a message to what passes by.  Source
files, line numbers and log levels are left out.

`fc::array<char, N>` and the hash classes are `N` bytes of memory.
-/

namespace Bright.Fc

open Bright.Eosio (StdString)

/-! ### Exceptions -/

/-- A format with `${key}` places and the values of its keys. -/
structure LogMessage where
  format : String
  args : List (String × StdString)
deriving DecidableEq

/-- The classes of exceptions that are thrown. -/
inductive ExceptionClass where
  | exception
  | assertException
  | parseErrorException
  | outOfRangeException
deriving DecidableEq

/-- `fc::exception`. -/
structure Exception where
  code : ExceptionClass
  log : List LogMessage
deriving DecidableEq

/-- `FC_THROW_EXCEPTION`. -/
def fcThrow {α : Type} (code : ExceptionClass) (format : String)
    (args : List (String × StdString)) : Except Exception α :=
  .error ⟨code, [⟨format, args⟩]⟩

/-- `FC_ASSERT` of a condition that is false; `text` is its text in the source. -/
def fcAssertFailed {α : Type} (text format : String)
    (args : List (String × StdString)) : Except Exception α :=
  fcThrow .assertException (text ++ ": " ++ format) args

/-- `FC_ASSERT`. -/
def fcAssert (condition : Prop) [Decidable condition] (text format : String)
    (args : List (String × StdString)) : Except Exception Unit :=
  if condition then .ok () else fcAssertFailed text format args

/-- `FC_RETHROW_EXCEPTIONS`. -/
def fcRethrow {α : Type} (format : String) (args : List (String × StdString)) :
    Except Exception α → Except Exception α
  | .ok value => .ok value
  | .error thrown => .error { thrown with log := thrown.log ++ [⟨format, args⟩] }

theorem fcAssert_eq_ok_iff {condition : Prop} [Decidable condition]
    {text format : String} {args : List (String × StdString)} {done : Unit} :
    fcAssert condition text format args = .ok done ↔ condition := by
  unfold fcAssert fcAssertFailed fcThrow
  split <;> simp [*]

theorem fcAssert_of {condition : Prop} [Decidable condition]
    {text format : String} {args : List (String × StdString)}
    (holds : condition) : fcAssert condition text format args = .ok () :=
  fcAssert_eq_ok_iff.mpr holds

theorem fcRethrow_eq_ok_iff {α : Type} {format : String}
    {args : List (String × StdString)} {result : Except Exception α} {value : α} :
    fcRethrow format args result = .ok value ↔ result = .ok value := by
  cases result <;> simp [fcRethrow]

theorem fcRethrow_eq_error_iff {α : Type} {format : String}
    {args : List (String × StdString)} {result : Except Exception α}
    {thrown : Exception} :
    fcRethrow format args result = .error thrown ↔
      ∃ first, result = .error first ∧
        ⟨first.code, first.log ++ [⟨format, args⟩]⟩ = thrown := by
  cases result <;> simp [fcRethrow]

/-! ### Arrays -/

/-- `fc::array<char, N>`, and the memory of a hash of `N` bytes. -/
@[ext]
structure FixedArray (size : ℕ) where
  data : List UInt8
  length_data : data.length = size
deriving DecidableEq

/-- An array whose memory is set to zero. -/
def FixedArray.zero (size : ℕ) : FixedArray size :=
  ⟨List.replicate size 0, List.length_replicate⟩

/-- What an array is filled with from bytes: cut, or padded with zeros. -/
def FixedArray.ofBytes (size : ℕ) (ve : List UInt8) : FixedArray size :=
  ⟨ve.take size ++ List.replicate (size - ve.length) 0, by
    rw [List.length_append, List.length_take, List.length_replicate]
    omega⟩

theorem FixedArray.ofBytes_data {size : ℕ} (array : FixedArray size) :
    FixedArray.ofBytes size array.data = array := by
  ext1
  have exact : array.data.length = size := array.length_data
  simp [FixedArray.ofBytes, exact, List.take_of_length_le]

/-! ### Strings -/

/-- `std::string::find` for a character; `none` is `npos`. -/
def find (str : StdString) (c : UInt8) : Option ℕ := str.idxOf? c

/-- The part of a string from a position on, `std::string::substr(pos)`. -/
def substrFrom (str : StdString) (pos : ℕ) : StdString := str.drop pos

/-- `std::string::substr(0, count)`. -/
def substrTo (str : StdString) (count : ℕ) : StdString := str.take count

/-- `isspace` in the C locale. -/
def isspace (c : UInt8) : Bool := c = 32 || (9 ≤ c && c ≤ 13)

/-- The bytes of a string literal. -/
def literal (text : String) : StdString := text.toList.map Char.toUInt8

variable {str before after : StdString} {c : UInt8} {pos : ℕ}

theorem find_eq_none_iff : find str c = none ↔ c ∉ str := by
  simp [find]

theorem find_append (absent : c ∉ before) :
    find (before ++ c :: after) c = some before.length := by
  induction before with
  | nil => simp [find, List.idxOf?_cons]
  | cons first rest inductionHypothesis =>
      rw [List.mem_cons, not_or] at absent
      have notHere : ¬ first = c := fun same => absent.1 same.symm
      rw [find] at inductionHypothesis
      simp [find, List.idxOf?_cons, notHere, inductionHypothesis absent.2]

/-- The first place of a character parts the string around it. -/
theorem find_eq_some_iff :
    find str c = some pos ↔
      ∃ before after, str = before ++ c :: after ∧ c ∉ before ∧
        pos = before.length := by
  constructor
  · intro found
    have member : c ∈ str := by
      by_contra absent
      rw [find_eq_none_iff.mpr absent] at found
      exact nomatch found
    obtain ⟨before, after, parts, absent⟩ := List.eq_append_cons_of_mem member
    rw [parts, find_append absent] at found
    exact ⟨before, after, parts, absent, (Option.some.inj found).symm⟩
  · rintro ⟨before, after, rfl, absent, rfl⟩
    exact find_append absent

end Bright.Fc
