import Bright.Fc.Base
import Mathlib.Data.List.Infix

/-!
# Hexadecimal texts, and bytes in a variant

A variant holds bytes as a hexadecimal text of lower-case digits.  Reading it
back takes the digits of either case two by two and drops an odd last character
unread (`bytesOfVariant_eq_ok_iff`).  An array is filled from the bytes that are
read, cut or padded with zeros to its size (`arrayOfVariant_variantOfBytes`).
-/

namespace Bright.Fc

open Bright.Eosio (StdString)

/-- `from_hex` for one character. -/
def fromHexChar (c : UInt8) : Except Exception UInt8 :=
  if 48 ≤ c ∧ c ≤ 57 then .ok (c - 48)
  else if 97 ≤ c ∧ c ≤ 102 then .ok (c - 97 + 10)
  else if 65 ≤ c ∧ c ≤ 70 then .ok (c - 65 + 10)
  else fcThrow .exception "Invalid hex character '${c}'" [("c", [c])]

/-- The character of a hexadecimal digit. -/
def toHexChar (digit : UInt8) : UInt8 :=
  (literal "0123456789abcdef").getD digit.toNat 0

def toHex (d : List UInt8) : StdString :=
  d.flatMap fun (c : UInt8) => [toHexChar (c >>> 4), toHexChar (c &&& 0x0f)]

/-- `from_hex` into `outDataLen` bytes: the bytes that are written. -/
def fromHex : StdString → ℕ → Except Exception (List UInt8)
  | [], _ => .ok []
  | _ :: _, 0 => .ok []
  | [c], _ + 1 => do
      let high ← fromHexChar c
      return [high <<< 4]
  | c :: next :: rest, outDataLen + 1 => do
      let high ← fromHexChar c
      let low ← fromHexChar next
      let written ← fromHex rest outDataLen
      return (high <<< 4 ||| low) :: written

/-- `to_variant` for bytes: the string that the variant holds. -/
def variantOfBytes (var : List UInt8) : StdString :=
  if var.length ≠ 0 then toHex var else []

/-- `from_variant` for bytes, of a variant that holds a string. -/
def bytesOfVariant (str : StdString) : Except Exception (List UInt8) := do
  let size := str.length / 2
  if size ≠ 0 then
    let vo ← fromHex str size
    fcAssert (vo.length = size) "r == vo.size()" "" []
    return vo
  else
    return []

/-- Copy bytes over the start of an array, not behind its end. -/
def FixedArray.overwrite {size : ℕ} (array : FixedArray size) (ve : List UInt8) :
    FixedArray size :=
  ⟨ve.take size ++ array.data.drop (min ve.length size), by
    rw [List.length_append, List.length_take, List.length_drop,
      array.length_data]
    omega⟩

/-- `from_variant` for a hash or an array, which starts out as zeros. -/
def arrayOfVariant (size : ℕ) (v : StdString) :
    Except Exception (FixedArray size) := do
  let ve ← bytesOfVariant v
  if ve.length ≠ 0 then return (FixedArray.zero size).overwrite ve
  else return FixedArray.zero size

/-! ### Digits -/

/-- A letter as a lower-case one. -/
def toLower (c : UInt8) : UInt8 := if 65 ≤ c ∧ c ≤ 90 then c + 32 else c

theorem toHexChar_toNat {digit : UInt8} (below : digit < 16) :
    (toHexChar digit).toNat =
      if digit.toNat < 10 then digit.toNat + 48 else digit.toNat + 87 := by
  have all : ∀ n < 16, (toHexChar (UInt8.ofNat n)).toNat =
      if n < 10 then n + 48 else n + 87 := by decide
  have small : digit.toNat < 16 := UInt8.lt_iff_toNat_lt.mp below
  simpa using all digit.toNat small

theorem toLower_eq_toHexChar_iff {c digit : UInt8} (below : digit < 16) :
    toLower c = toHexChar digit ↔
      (toLower c).toNat =
        if digit.toNat < 10 then digit.toNat + 48 else digit.toNat + 87 := by
  rw [← UInt8.toNat_inj, toHexChar_toNat below]

/-- A character is read as a digit exactly if it is that digit in either case. -/
theorem fromHexChar_eq_ok_iff {c digit : UInt8} :
    fromHexChar c = .ok digit ↔ digit < 16 ∧ toLower c = toHexChar digit := by
  -- Everything is a matter of the ranges that the codes of the characters are in.
  constructor
  · intro read
    have below : digit < 16 := by
      unfold fromHexChar fcThrow at read
      split_ifs at read <;>
        cases read <;>
        simp only [UInt8.le_iff_toNat_le, UInt8.lt_iff_toNat_lt, UInt8.toNat_add,
          UInt8.toNat_sub, UInt8.reduceToNat] at * <;>
        omega
    refine ⟨below, (toLower_eq_toHexChar_iff below).mpr ?_⟩
    unfold fromHexChar fcThrow at read
    unfold toLower
    split_ifs at read <;>
      cases read <;>
      split_ifs <;>
      simp only [UInt8.le_iff_toNat_le, UInt8.toNat_add, UInt8.toNat_sub,
        UInt8.reduceToNat] at * <;>
      omega
  · rintro ⟨below, same⟩
    rw [toLower_eq_toHexChar_iff below] at same
    rw [UInt8.lt_iff_toNat_lt] at below
    unfold fromHexChar
    unfold toLower at same
    split_ifs at same ⊢ <;>
      simp only [Except.ok.injEq, ← UInt8.toNat_inj, UInt8.le_iff_toNat_le,
        UInt8.toNat_add, UInt8.toNat_sub, UInt8.reduceToNat] at * <;>
      omega

theorem toLower_toHexChar {digit : UInt8} (below : digit < 16) :
    toLower (toHexChar digit) = toHexChar digit := by
  have code := toHexChar_toNat below
  rw [UInt8.lt_iff_toNat_lt] at below
  unfold toLower
  split_ifs at code ⊢ <;>
    simp only [UInt8.le_iff_toNat_le, UInt8.reduceToNat] at * <;>
    omega

/-! ### Pairs of digits -/

set_option maxRecDepth 4096 in
theorem halves_lt (c : UInt8) : c >>> 4 < 16 ∧ c &&& 0x0f < 16 := by
  rcases c with ⟨⟨code⟩⟩
  revert code
  decide

set_option maxRecDepth 4096 in
theorem join_halves (c : UInt8) : (c >>> 4) <<< 4 ||| (c &&& 0x0f) = c := by
  rcases c with ⟨⟨code⟩⟩
  revert code
  decide

theorem halves_join {high low : UInt8} (highBelow : high < 16)
    (lowBelow : low < 16) :
    (high <<< 4 ||| low) >>> 4 = high ∧ (high <<< 4 ||| low) &&& 0x0f = low := by
  have all : ∀ m < 16, ∀ n < 16,
      (UInt8.ofNat m <<< 4 ||| UInt8.ofNat n) >>> 4 = UInt8.ofNat m ∧
        (UInt8.ofNat m <<< 4 ||| UInt8.ofNat n) &&& 0x0f = UInt8.ofNat n := by
    decide
  have pair := all high.toNat (UInt8.lt_iff_toNat_lt.mp highBelow) low.toNat
    (UInt8.lt_iff_toNat_lt.mp lowBelow)
  rwa [UInt8.ofNat_toNat, UInt8.ofNat_toNat] at pair

theorem toHex_cons (c : UInt8) (rest : List UInt8) :
    toHex (c :: rest) =
      toHexChar (c >>> 4) :: toHexChar (c &&& 0x0f) :: toHex rest := rfl

theorem length_toHex (d : List UInt8) : (toHex d).length = 2 * d.length := by
  induction d with
  | nil => rfl
  | cons c rest inductionHypothesis =>
      rw [toHex_cons, List.length_cons, List.length_cons, List.length_cons,
        inductionHypothesis]
      omega

theorem toLower_toHex (d : List UInt8) : (toHex d).map toLower = toHex d := by
  induction d with
  | nil => rfl
  | cons c rest inductionHypothesis =>
      rw [toHex_cons, List.map_cons, List.map_cons, inductionHypothesis,
        toLower_toHexChar (halves_lt c).1, toLower_toHexChar (halves_lt c).2]

theorem fromHex_pair_eq_ok_iff {c next : UInt8} {rest d : List UInt8} {n : ℕ} :
    fromHex (c :: next :: rest) (n + 1) = .ok d ↔
      ∃ byte written, d = byte :: written ∧ toLower c = toHexChar (byte >>> 4) ∧
        toLower next = toHexChar (byte &&& 0x0f) ∧
        fromHex rest n = .ok written := by
  simp only [fromHex, Lib.bind_eq_ok_iff, fromHexChar_eq_ok_iff]
  constructor
  · rintro ⟨high, ⟨highBelow, isHigh⟩, low, ⟨lowBelow, isLow⟩, written, read,
      result⟩
    obtain ⟨highPart, lowPart⟩ := halves_join highBelow lowBelow
    refine ⟨high <<< 4 ||| low, written, (Except.ok.inj result).symm, ?_, ?_, read⟩
    · rw [highPart, isHigh]
    · rw [lowPart, isLow]
  · rintro ⟨byte, written, rfl, isHigh, isLow, read⟩
    refine ⟨byte >>> 4, ⟨(halves_lt byte).1, isHigh⟩, byte &&& 0x0f,
      ⟨(halves_lt byte).2, isLow⟩, written, read, ?_⟩
    rw [join_halves]
    rfl

/-- Pairs of digits are read as the bytes with these digits. -/
theorem fromHex_eq_ok_iff {str : StdString} {n : ℕ} (enough : 2 * n ≤ str.length)
    {d : List UInt8} :
    fromHex str n = .ok d ↔
      d.length = n ∧ (str.take (2 * n)).map toLower = toHex d := by
  induction n generalizing str d with
  | zero =>
      have nothing : fromHex str 0 = .ok [] := by cases str <;> rfl
      rw [nothing, List.length_eq_zero_iff]
      constructor
      · intro result
        rw [← Except.ok.inj result]
        exact ⟨rfl, by simp [toHex]⟩
      · rintro ⟨rfl, -⟩
        rfl
  | succ n inductionHypothesis =>
      obtain ⟨c, next, rest, rfl⟩ : ∃ c next rest, str = c :: next :: rest := by
        match str, enough with
        | c :: next :: rest, _ => exact ⟨c, next, rest, rfl⟩
      have restEnough : 2 * n ≤ rest.length := by
        simp only [List.length_cons] at enough
        omega
      have front : (c :: next :: rest).take (2 * (n + 1)) =
          c :: next :: rest.take (2 * n) := rfl
      rw [fromHex_pair_eq_ok_iff, front]
      simp only [inductionHypothesis restEnough]
      constructor
      · rintro ⟨byte, written, rfl, isHigh, isLow, size, same⟩
        refine ⟨by simp [size], ?_⟩
        rw [List.map_cons, List.map_cons, isHigh, isLow, same, toHex_cons]
      · rintro ⟨size, same⟩
        cases d with
        | nil => exact nomatch size
        | cons byte written =>
            rw [toHex_cons, List.map_cons, List.map_cons] at same
            injection same with isHigh same
            injection same with isLow same
            exact ⟨byte, written, rfl, isHigh, isLow, Nat.succ.inj size, same⟩

/-! ### Variants -/

theorem bytesOfVariant_eq_ok_iff {str : StdString} {d : List UInt8} :
    bytesOfVariant str = .ok d ↔
      (str.take (2 * (str.length / 2))).map toLower = toHex d := by
  have enough : 2 * (str.length / 2) ≤ str.length := Nat.mul_div_le _ _
  have sized : (str.take (2 * (str.length / 2))).map toLower = toHex d →
      d.length = str.length / 2 := by
    intro same
    have lengths := congrArg List.length same
    rw [List.length_map, List.length_take, length_toHex] at lengths
    omega
  have read := fromHex_eq_ok_iff enough (d := d)
  unfold bytesOfVariant
  by_cases empty : str.length / 2 = 0
  · simp only [empty, ne_eq, not_true_eq_false, if_false, Nat.mul_zero,
      List.take_zero, List.map_nil]
    constructor
    · intro result
      rw [← Except.ok.inj result]
      rfl
    · intro same
      have lengths := congrArg List.length same
      rw [length_toHex, List.length_nil] at lengths
      have none : d = [] := List.length_eq_zero_iff.mp (by omega)
      rw [none]
      rfl
  · simp only [ne_eq, empty, not_false_eq_true, if_true, Lib.bind_eq_ok_iff,
      fcAssert_eq_ok_iff]
    constructor
    · rintro ⟨vo, readVo, -, whole, result⟩
      rw [Except.ok.inj result] at readVo
      exact (read.mp readVo).2
    · intro same
      exact ⟨d, read.mpr ⟨sized same, same⟩, (), sized same, rfl⟩

theorem bytesOfVariant_variantOfBytes (var : List UInt8) :
    bytesOfVariant (variantOfBytes var) = .ok var := by
  have held : variantOfBytes var = toHex var := by
    cases var <;> rfl
  rw [bytesOfVariant_eq_ok_iff, held, length_toHex,
    Nat.mul_div_cancel_left _ (by decide), ← length_toHex, List.take_length,
    toLower_toHex]

theorem arrayOfVariant_variantOfBytes (size : ℕ) (var : List UInt8) :
    arrayOfVariant size (variantOfBytes var) =
      .ok (FixedArray.ofBytes size var) := by
  rw [arrayOfVariant, bytesOfVariant_variantOfBytes]
  cases var with
  | nil =>
      have zeros : FixedArray.zero size = FixedArray.ofBytes size [] := by
        ext1
        simp [FixedArray.zero, FixedArray.ofBytes]
      rw [← zeros]
      rfl
  | cons c rest =>
      have copied : (FixedArray.zero size).overwrite (c :: rest) =
          FixedArray.ofBytes size (c :: rest) := by
        ext1
        simp only [FixedArray.overwrite, FixedArray.zero, FixedArray.ofBytes,
          List.drop_replicate]
        congr 2
        omega
      rw [← copied]
      rfl

end Bright.Fc
