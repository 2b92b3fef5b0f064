import Bright.Lib.Bytes
import Bright.Name.StringToName

/-!
# The code of a symbol

`string_to_symbol` puts the precision into the low byte of a word and each
capital letter of a C string into the byte behind the one of its position.  The
shift by `8 * (1 + i)` is computed in 32 bits, so positions whose successors
are equal modulo `2 ^ 29` share a byte, and a shift by 64 or more is undefined.

A symbol of one to seven capitals is decoded from its code.  Whether another
string can be taken for one depends on the capitals that share each byte.
-/

namespace Bright.Symbol

open Bright.Eosio
open Bright.Lib.Bytes
open Bright.Name

/-- Why a call has no value. -/
inductive Failure where
  /-- The 32-bit count wraps before it meets the terminator. -/
  | endlessCount
  /-- A 64-bit value is shifted by 64 or more. -/
  | undefinedShift
  deriving DecidableEq

/-- `while (str[len]) ++len`; behind its bytes the string has a zero. -/
def countBytes (str : StdString) : ℕ → UInt32 → Option UInt32
  | 0, _ => none
  | fuel + 1, len =>
      if str.getD len.toNat 0 ≠ 0 then
        countBytes str fuel (len + 1)
      else
        some len

/-- The loop over the counted characters that are left, with its counter `i`. -/
def packLetters (i : UInt32) (result : UInt64) :
    StdString → Except Failure UInt64
  | [] => .ok result
  | c :: rest =>
      if c < 'A'.toUInt8 ∨ 'Z'.toUInt8 < c then
        packLetters (i + 1) result rest
      else if 8 * (1 + i) < 64 then
        packLetters (i + 1)
          (result ||| c.toUInt64 <<< (8 * (1 + i)).toUInt64) rest
      else
        .error .undefinedShift

def stringToSymbol (precision : UInt8) (str : StdString) :
    Except Failure UInt64 :=
  match countBytes str (str.length + 1) 0 with
  | none => .error .endlessCount
  | some len =>
      (packLetters 0 0 (str.take len.toNat)).map (· ||| precision.toUInt64)

def IsCapital (c : UInt8) : Prop := 'A'.toUInt8 ≤ c ∧ c ≤ 'Z'.toUInt8

instance decidableIsCapital (c : UInt8) : Decidable (IsCapital c) :=
  inferInstanceAs (Decidable (_ ∧ _))

/-- One to seven capitals. -/
structure WellFormed (word : StdString) : Prop where
  nonempty : word ≠ []
  short : word.length ≤ 7
  capitals : ∀ c ∈ word, IsCapital c

/-! ### The count -/

theorem getD_ne_zero_of_lt {str : StdString} {k : ℕ}
    (inside : k < (cString str).length) : str.getD k 0 ≠ 0 := by
  have start : cString str <+: str := List.takeWhile_prefix _
  have same : str.getD k 0 = (cString str)[k] := by
    have bound := Nat.lt_of_lt_of_le inside start.length_le
    rw [List.getD_eq_getElem _ _ bound, start.getElem inside]
  intro zero
  apply zero_notMem_cString str
  rw [← zero, same]
  exact List.getElem_mem inside

theorem getD_length_cString (str : StdString) :
    str.getD (cString str).length 0 = 0 := by
  induction str with
  | nil => rfl
  | cons c rest inductionHypothesis =>
      by_cases zero : c = 0
      · subst zero
        rfl
      · have kept : cString (c :: rest) = c :: cString rest :=
          List.takeWhile_cons_of_pos (decide_eq_true zero)
        rw [kept, List.length_cons, List.getD_cons_succ]
        exact inductionHypothesis

theorem countBytes_of_short {str : StdString}
    (short : (cString str).length < 2 ^ 32) {fuel : ℕ} {len : UInt32}
    (passed : len.toNat ≤ (cString str).length)
    (enough : (cString str).length < len.toNat + fuel) :
    countBytes str fuel len = some (UInt32.ofNat (cString str).length) := by
  induction fuel generalizing len with
  | zero => omega
  | succ fuel inductionHypothesis =>
      rw [countBytes]
      rcases Nat.eq_or_lt_of_le passed with reached | before
      · have terminator : str.getD len.toNat 0 = 0 := by
          rw [reached]
          exact getD_length_cString str
        rw [if_neg (not_not.mpr terminator), ← reached, UInt32.ofNat_toNat]
      · have next : (len + 1).toNat = len.toNat + 1 := by
          rw [UInt32.toNat_add]
          exact Nat.mod_eq_of_lt (by simpa using by omega)
        rw [if_pos (getD_ne_zero_of_lt before)]
        exact inductionHypothesis (by omega) (by omega)

/-- No number of rounds is enough where the count cannot reach the end. -/
theorem countBytes_of_long {str : StdString}
    (long : 2 ^ 32 ≤ (cString str).length) (fuel : ℕ) (len : UInt32) :
    countBytes str fuel len = none := by
  induction fuel generalizing len with
  | zero => rfl
  | succ fuel inductionHypothesis =>
      have inside : len.toNat < (cString str).length :=
        Nat.lt_of_lt_of_le len.toNat_lt long
      rw [countBytes, if_pos (getD_ne_zero_of_lt inside)]
      exact inductionHypothesis (len + 1)

theorem stringToSymbol_of_long {str : StdString}
    (long : 2 ^ 32 ≤ (cString str).length) (precision : UInt8) :
    stringToSymbol precision str = .error .endlessCount := by
  rw [stringToSymbol, countBytes_of_long long]

theorem stringToSymbol_of_short {str : StdString}
    (short : (cString str).length < 2 ^ 32) (precision : UInt8) :
    stringToSymbol precision str =
      (packLetters 0 0 (cString str)).map (· ||| precision.toUInt64) := by
  have start : cString str <+: str := List.takeWhile_prefix _
  have enough : (cString str).length < (0 : UInt32).toNat + (str.length + 1) := by
    have bound := start.length_le
    rw [UInt32.toNat_zero]
    omega
  have counted : (UInt32.ofNat (cString str).length).toNat =
      (cString str).length := UInt32.toNat_ofNat_of_lt' short
  have passed : (0 : UInt32).toNat ≤ (cString str).length := Nat.zero_le _
  rw [stringToSymbol, countBytes_of_short short passed enough]
  dsimp only
  rw [counted, ← List.prefix_iff_eq_take.mp start]

/-! ### The packed letters -/

/-- The byte that the character at position `i` is shifted to. -/
def slot (i : ℕ) : ℕ := (i + 1) % 2 ^ 29

/-- The capitals that are shifted to byte `k`, one over the other, of a string
whose first character has position `i`. -/
def overlay (k i : ℕ) : StdString → UInt8
  | [] => 0
  | c :: rest =>
      (if IsCapital c ∧ slot i = k then c else 0) ||| overlay k (i + 1) rest

/-- Every capital is shifted by less than 64. -/
def ShiftsFit (i : ℕ) (str : StdString) : Prop :=
  ∀ entry ∈ str.zipIdx i, IsCapital entry.1 → slot entry.2 < 8

theorem shiftsFit_cons {c : UInt8} {i : ℕ} {rest : StdString} :
    ShiftsFit i (c :: rest) ↔
      (IsCapital c → slot i < 8) ∧ ShiftsFit (i + 1) rest := by
  rw [ShiftsFit, List.zipIdx_cons, List.forall_mem_cons]
  rfl

theorem toNat_shift (i : ℕ) :
    (8 * (1 + UInt32.ofNat i)).toNat = 8 * slot i := by
  rw [UInt32.toNat_mul, UInt32.toNat_add, UInt32.toNat_ofNat', slot]
  have eight : (8 : UInt32).toNat = 8 := rfl
  have one : (1 : UInt32).toNat = 1 := rfl
  rw [eight, one]
  omega

theorem shift_lt_iff (i : ℕ) :
    8 * (1 + UInt32.ofNat i) < 64 ↔ slot i < 8 := by
  have bound : (64 : UInt32).toNat = 8 * 8 := rfl
  rw [UInt32.lt_iff_toNat_lt, toNat_shift, bound]
  omega

theorem isCapital_iff {c : UInt8} :
    IsCapital c ↔ ¬(c < 'A'.toUInt8 ∨ 'Z'.toUInt8 < c) := by
  rw [IsCapital, not_or, UInt8.not_lt, UInt8.not_lt]

theorem packLetters_ok {i : ℕ} {str : StdString} (fits : ShiftsFit i str)
    (result : UInt64) :
    ∃ value, packLetters (UInt32.ofNat i) result str = .ok value ∧
      ∀ k, byteAt value k = byteAt result k ||| overlay k i str := by
  induction str generalizing i result with
  | nil =>
      refine ⟨result, rfl, ?_⟩
      intro k
      rw [overlay, UInt8.or_zero]
  | cons c rest inductionHypothesis =>
      obtain ⟨fitsHere, fitsRest⟩ := shiftsFit_cons.mp fits
      have next : UInt32.ofNat i + 1 = UInt32.ofNat (i + 1) :=
        (UInt32.ofNat_add i 1).symm
      rw [packLetters, next]
      by_cases capital : IsCapital c
      · have small := fitsHere capital
        have amount : (8 * (1 + UInt32.ofNat i)).toUInt64.toNat =
            8 * slot i := by
          rw [UInt32.toNat_toUInt64, toNat_shift]
        obtain ⟨value, returned, bytes⟩ := inductionHypothesis fitsRest
          (result ||| c.toUInt64 <<< (8 * (1 + UInt32.ofNat i)).toUInt64)
        rw [if_neg (isCapital_iff.mp capital),
          if_pos ((shift_lt_iff i).mpr small)]
        refine ⟨value, returned, ?_⟩
        intro k
        rw [bytes k, byteAt_or, byteAt_shiftLeft c amount small, overlay,
          UInt8.or_assoc]
        simp only [capital, true_and]
      · obtain ⟨value, returned, bytes⟩ := inductionHypothesis fitsRest result
        have skipped : c < 'A'.toUInt8 ∨ 'Z'.toUInt8 < c :=
          not_not.mp (isCapital_iff.not.mp capital)
        rw [if_pos skipped]
        refine ⟨value, returned, ?_⟩
        intro k
        have hole : ¬(IsCapital c ∧ slot i = k) := fun both => capital both.1
        rw [bytes k, overlay, if_neg hole, UInt8.zero_or]

theorem packLetters_error {i : ℕ} {str : StdString}
    (unfit : ¬ ShiftsFit i str) (result : UInt64) :
    packLetters (UInt32.ofNat i) result str = .error .undefinedShift := by
  induction str generalizing i result with
  | nil =>
      exfalso
      apply unfit
      intro entry member
      exact absurd member List.not_mem_nil
  | cons c rest inductionHypothesis =>
      have next : UInt32.ofNat i + 1 = UInt32.ofNat (i + 1) :=
        (UInt32.ofNat_add i 1).symm
      have laterUnfit (fitsHere : IsCapital c → slot i < 8) :
          ¬ ShiftsFit (i + 1) rest := fun fitsRest =>
        unfit (shiftsFit_cons.mpr ⟨fitsHere, fitsRest⟩)
      rw [packLetters, next]
      split_ifs with skipped small
      · have notCapital : ¬ IsCapital c := fun capital =>
          isCapital_iff.mp capital skipped
        exact inductionHypothesis
          (laterUnfit fun capital => absurd capital notCapital) result
      · exact inductionHypothesis (laterUnfit fun _ => (shift_lt_iff i).mp small) _
      · rfl

theorem stringToSymbol_ok {str : StdString}
    (short : (cString str).length < 2 ^ 32)
    (fits : ShiftsFit 0 (cString str)) (precision : UInt8) :
    ∃ symbol, stringToSymbol precision str = .ok symbol ∧
      ∀ k, byteAt symbol k =
        overlay k 0 (cString str) ||| if 0 = k then precision else 0 := by
  obtain ⟨value, returned, bytes⟩ := packLetters_ok fits 0
  refine ⟨value ||| precision.toUInt64, ?_, ?_⟩
  · have packed : packLetters 0 0 (cString str) = .ok value := returned
    rw [stringToSymbol_of_short short, packed]
    rfl
  · intro k
    rw [byteAt_or, bytes k, byteAt_zero, UInt8.zero_or, byteAt_toUInt64]

theorem stringToSymbol_undefined {str : StdString}
    (short : (cString str).length < 2 ^ 32)
    (unfit : ¬ ShiftsFit 0 (cString str)) (precision : UInt8) :
    stringToSymbol precision str = .error .undefinedShift := by
  have failed : packLetters 0 0 (cString str) = .error .undefinedShift :=
    packLetters_error unfit 0
  rw [stringToSymbol_of_short short, failed]
  rfl

end Bright.Symbol
