import Bright.Name.Symbols

/-!
# The text of a 64-bit name

`name_to_string` fills thirteen characters from the last one backwards and
trims the dots at the end.  The pointer that it returns outlives the string it
points into, so its result here is the text that it prints.

That text is made of the digits of the name (`nameToString_eq_trim`), which
`string_to_name` reads back (`nameSymbols_nameToString`).
-/

namespace Bright.Name

open Bright.Eosio
open Bright.Lib

def charmap : StdString :=
  ".12345abcdefghijklmnopqrstuvwxyz".toList.map Char.toUInt8

/-- One turn of the loop of `name_to_string` over `tmp` and `str`. -/
def nameToStringStep (state : UInt64 × StdString) (i : Nat) :
    UInt64 × StdString :=
  let (tmp, str) := state
  let c := charmap.getD (tmp &&& (if i = 0 then 0x0f else 0x1f)).toNat 0
  (tmp >>> (if i = 0 then 4 else 5), str.set (12 - i) c)

def nameToString (name : UInt64) : StdString :=
  let (_, str) := (List.range 13).foldl nameToStringStep
    (name, List.replicate 13 '.'.toUInt8)
  trim '.'.toUInt8 str

/-- The character of a symbol. -/
def charOf (symbol : ℕ) : UInt8 := charmap.getD symbol 0

/-- The digits of a name. -/
abbrev nameDigits (name : UInt64) : List ℕ :=
  Digits.digits (nameBases 12) name.toNat

/-! ### The loop -/

theorem nameToStringStep_succ (tmp : UInt64) (i : ℕ) (below : i < 12)
    (suffix : StdString) :
    nameToStringStep
        (tmp, List.replicate (12 - i) '.'.toUInt8 ++ suffix) (i + 1) =
      (tmp >>> 5, List.replicate (12 - (i + 1)) '.'.toUInt8 ++
        charOf (tmp.toNat % 32) :: suffix) := by
  have mask : (0x1f : UInt64).toNat = 2 ^ 5 - 1 := rfl
  have symbol : (tmp &&& 0x1f).toNat = tmp.toNat % 32 := by
    rw [UInt64.toNat_and, mask, Nat.and_two_pow_sub_one_eq_mod]
  have dots : 12 - i = 12 - (i + 1) + 1 := by omega
  have written : (List.replicate (12 - i) '.'.toUInt8 ++ suffix).set
      (12 - (i + 1)) (charOf (tmp.toNat % 32)) =
        List.replicate (12 - (i + 1)) '.'.toUInt8 ++
          charOf (tmp.toNat % 32) :: suffix := by
    rw [dots, List.replicate_succ', List.append_assoc,
      List.set_append_right _ _ (by simp), List.length_replicate, Nat.sub_self]
    rfl
  rw [← written, charOf, ← symbol]
  rfl

/-- After `i + 1` turns the last `i + 1` characters are written. -/
theorem nameToString_loop (name : UInt64) (i : ℕ) (turns : i ≤ 12) :
    ∃ tmp : UInt64,
      (List.range (i + 1)).foldl nameToStringStep
          (name, List.replicate 13 '.'.toUInt8) =
        (tmp, List.replicate (12 - i) '.'.toUInt8 ++
          (Digits.digits (nameBases i) name.toNat).map charOf) ∧
      tmp.toNat = name.toNat / (nameBases i).prod := by
  induction i with
  | zero =>
      have mask : (0x0f : UInt64).toNat = 2 ^ 4 - 1 := rfl
      have symbol : (name &&& 0x0f).toNat = name.toNat / 1 % 16 := by
        rw [UInt64.toNat_and, mask, Nat.and_two_pow_sub_one_eq_mod, Nat.div_one]
      refine ⟨name >>> 4, ?_, ?_⟩
      · have digit : (Digits.digits (nameBases 0) name.toNat).map charOf =
            [charmap.getD (name &&& 0x0f).toNat 0] := by
          rw [symbol]
          rfl
        rw [digit]
        rfl
      · rw [UInt64.toNat_shiftRight, Nat.shiftRight_eq_div_pow]
        rfl
  | succ i inductionHypothesis =>
      obtain ⟨tmp, loop, high⟩ := inductionHypothesis (by omega)
      refine ⟨tmp >>> 5, ?_, ?_⟩
      · rw [List.range_succ, List.foldl_append, loop, List.foldl_cons,
          List.foldl_nil, nameToStringStep_succ tmp i turns, high]
        rfl
      · rw [UInt64.toNat_shiftRight, Nat.shiftRight_eq_div_pow, high,
          Nat.div_div_eq_div_mul, nameBases, List.prod_cons, Nat.mul_comm]
        rfl

theorem nameToString_eq_trim (name : UInt64) :
    nameToString name = trim '.'.toUInt8 ((nameDigits name).map charOf) := by
  obtain ⟨tmp, loop, _⟩ := nameToString_loop name 12 le_rfl
  rw [nameToString, loop]
  rfl

/-! ### Symbols and characters -/

theorem charToSymbol_charOf {symbol : ℕ} (small : symbol < 32) :
    (charToSymbol (charOf symbol)).toNat = symbol := by
  have symbols : ∀ s : Fin 32, (charToSymbol (charOf s)).toNat = s := by
    decide
  exact symbols ⟨symbol, small⟩

theorem charOf_ne_zero {symbol : ℕ} (small : symbol < 32) :
    charOf symbol ≠ 0 := by
  have symbols : ∀ s : Fin 32, charOf s ≠ 0 := by decide
  exact symbols ⟨symbol, small⟩

/-- The characters of a name are in the order of their symbols. -/
theorem strictMonoOn_charOf : StrictMonoOn charOf {symbol | symbol < 32} := by
  have symbols : ∀ s t : Fin 32, s < t → charOf s < charOf t := by
    decide
  intro symbol small other otherSmall less
  exact symbols ⟨symbol, small⟩ ⟨other, otherSmall⟩ less

theorem dot_le_charOf {symbol : ℕ} (small : symbol < 32) :
    '.'.toUInt8 ≤ charOf symbol := by
  have symbols : ∀ s : Fin 32, '.'.toUInt8 ≤ charOf s := by decide
  exact symbols ⟨symbol, small⟩

theorem lt_of_mem_digits {word : List ℕ} {k symbol : ℕ}
    (fits : Digits.Fits (nameBases k) word) (member : symbol ∈ word) :
    symbol < 32 := by
  induction k generalizing word with
  | zero =>
      cases fits with
      | cons below none =>
          cases none
          rw [List.mem_singleton.mp member]
          omega
  | succ k inductionHypothesis =>
      cases fits with
      | cons below rest =>
          rcases List.mem_cons.mp member with first | later
          · rw [first]
            exact below
          · exact inductionHypothesis rest later

/-! ### Decoding and encoding -/

theorem fits_nameDigits (name : UInt64) :
    Digits.Fits (nameBases 12) (nameDigits name) :=
  Digits.fits_digits (fun _ => nameBases_pos) name.toNat

theorem value_nameDigits (name : UInt64) :
    Digits.value (nameBases 12) (nameDigits name) = name.toNat := by
  apply Digits.value_digits
  rw [nameBases_prod]
  exact name.toNat_lt

/-- Encoding reads back the symbols that are written. -/
theorem nameSymbols_map_charOf {k : ℕ} {word : List ℕ}
    (fits : Digits.Fits (nameBases k) word) :
    nameSymbols k (word.map charOf) = word := by
  induction k generalizing word with
  | zero =>
      cases fits with
      | @cons _ digit _ _ below none =>
          cases none
          have small : digit < 32 := by omega
          rw [List.map_singleton, nameSymbols, List.getD_cons_zero,
            charToSymbol_charOf small, Nat.mod_eq_of_lt below]
  | succ k inductionHypothesis =>
      cases fits with
      | cons below rest =>
          rw [List.map_cons, nameSymbols, if_neg (charOf_ne_zero below),
            charToSymbol_charOf below, inductionHypothesis rest]

/-- The dots that are trimmed are those that encoding supplies. -/
theorem nameSymbols_nameToString (name : UInt64) :
    nameSymbols 12 (nameToString name) = nameDigits name := by
  obtain ⟨count, padded⟩ :=
    exists_trim_append '.'.toUInt8 ((nameDigits name).map charOf)
  rw [nameToString_eq_trim, ← nameSymbols_append_dots 12 count, ← padded,
    nameSymbols_map_charOf (fits_nameDigits name)]

end Bright.Name
