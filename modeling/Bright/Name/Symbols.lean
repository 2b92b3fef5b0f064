import Bright.Lib.Digits
import Bright.Name.StringToName

/-!
# The code of a name as a number

A name is a number of thirteen digits: twelve of base 32 and a last one of base
16.  `string_to_name` computes the number whose digits are the symbols of the
characters (`toNat_stringToName`), and characters behind the terminating zero,
or behind the end of the bytes, count as dots.
-/

namespace Bright.Name

open Bright.Eosio
open Bright.Lib

/-- The bases of the last `k + 1` characters of a name. -/
def nameBases : ℕ → List ℕ
  | 0 => [16]
  | k + 1 => 32 :: nameBases k

/-- The symbols of `k` characters of five bits and a last one of four. -/
def nameSymbols : ℕ → StdString → List ℕ
  | 0, str => [(charToSymbol (str.getD 0 0)).toNat % 16]
  | k + 1, [] => 0 :: nameSymbols k []
  | k + 1, c :: rest =>
      (charToSymbol c).toNat :: nameSymbols k (if c = 0 then [] else rest)

theorem nameBases_prod (k : ℕ) : (nameBases k).prod = 2 ^ (5 * k + 4) := by
  induction k with
  | zero => rfl
  | succ k inductionHypothesis =>
      have bits : 5 * (k + 1) + 4 = 5 + (5 * k + 4) := by omega
      rw [nameBases, List.prod_cons, inductionHypothesis, bits, Nat.pow_add 2 5]

theorem nameBases_pos {k base : ℕ} (member : base ∈ nameBases k) : 0 < base := by
  induction k with
  | zero =>
      rw [List.mem_singleton.mp member]
      decide
  | succ k inductionHypothesis =>
      rcases List.mem_cons.mp member with first | later
      · rw [first]
        decide
      · exact inductionHypothesis later

theorem charToSymbol_lt (c : UInt8) : (charToSymbol c).toNat < 32 := by
  have bytes : ∀ n : Fin 256, (charToSymbol (UInt8.ofFin n)).toNat < 32 := by
    decide +kernel
  exact bytes c.toFin

theorem fits_nameSymbols (k : ℕ) (str : StdString) :
    Digits.Fits (nameBases k) (nameSymbols k str) := by
  induction k generalizing str with
  | zero =>
      exact List.Forall₂.cons (Nat.mod_lt _ (by decide)) List.Forall₂.nil
  | succ k inductionHypothesis =>
      cases str with
      | nil => exact List.Forall₂.cons (by decide) (inductionHypothesis [])
      | cons c rest =>
          exact List.Forall₂.cons (charToSymbol_lt c) (inductionHypothesis _)

theorem value_nameSymbols_nil (k : ℕ) :
    Digits.value (nameBases k) (nameSymbols k []) = 0 := by
  induction k with
  | zero => rfl
  | succ k inductionHypothesis =>
      rw [nameBases, nameSymbols, Digits.value_cons, inductionHypothesis,
        Nat.zero_mul]

/-- Dots at the end leave the symbols as they are. -/
theorem nameSymbols_append_dots (k count : ℕ) (str : StdString) :
    nameSymbols k (str ++ List.replicate count '.'.toUInt8) =
      nameSymbols k str := by
  have dots : ∀ k count, nameSymbols k (List.replicate count '.'.toUInt8) =
      nameSymbols k [] := by
    intro k
    induction k with
    | zero =>
        intro count
        cases count with
        | zero => rfl
        | succ count => rfl
    | succ k inductionHypothesis =>
        intro count
        cases count with
        | zero => rfl
        | succ count =>
            have notZero : '.'.toUInt8 ≠ 0 := by decide
            rw [List.replicate_succ, nameSymbols, nameSymbols, if_neg notZero,
              inductionHypothesis count]
            rfl
  induction str generalizing k with
  | nil => exact dots k count
  | cons c rest inductionHypothesis =>
      cases k with
      | zero => rfl
      | succ k =>
          rw [List.cons_append, nameSymbols, nameSymbols]
          split_ifs with stop
          · rfl
          · rw [inductionHypothesis k]

/-- The symbol of a character goes below the bits that are already packed. -/
theorem toNat_pack (name symbol : UInt64) {k : ℕ} (fitting : k < 12)
    (aligned : 2 ^ (5 * (k + 1) + 4) ∣ name.toNat)
    (small : symbol.toNat < 32) :
    (name ||| (symbol &&& 0x1f) <<< UInt64.ofNat (5 * k + 4)).toNat =
      name.toNat + symbol.toNat * 2 ^ (5 * k + 4) := by
  have shift : (UInt64.ofNat (5 * k + 4)).toNat % 64 = 5 * k + 4 := by
    rw [UInt64.toNat_ofNat']
    omega
  have masked : (symbol &&& 0x1f).toNat = symbol.toNat := by
    have mask : (0x1f : UInt64).toNat = 2 ^ 5 - 1 := rfl
    rw [UInt64.toNat_and, mask, Nat.and_two_pow_sub_one_eq_mod,
      Nat.mod_eq_of_lt small]
  have bits : 5 * (k + 1) + 4 = 5 + (5 * k + 4) := by omega
  have below : symbol.toNat * 2 ^ (5 * k + 4) < 2 ^ (5 * (k + 1) + 4) := by
    rw [bits, Nat.pow_add 2 5]
    exact Nat.mul_lt_mul_of_pos_right small (Nat.two_pow_pos _)
  have word : 2 ^ (5 * (k + 1) + 4) ≤ 2 ^ 64 :=
    Nat.pow_le_pow_right (by decide) (by omega)
  obtain ⟨high, packed⟩ := aligned
  rw [UInt64.toNat_or, UInt64.toNat_shiftLeft, shift, masked,
    Nat.shiftLeft_eq, Nat.mod_eq_of_lt (below.trans_le word), packed,
    Nat.two_pow_add_eq_or_of_lt below]

/-- The thirteenth symbol goes into the low four bits. -/
theorem toNat_pack_last (name symbol : UInt64) (aligned : 2 ^ 4 ∣ name.toNat) :
    (name ||| (symbol &&& 0x0F)).toNat = name.toNat + symbol.toNat % 16 := by
  have mask : (0x0F : UInt64).toNat = 2 ^ 4 - 1 := rfl
  have below : symbol.toNat % 2 ^ 4 < 2 ^ 4 := Nat.mod_lt _ (by decide)
  obtain ⟨high, packed⟩ := aligned
  rw [UInt64.toNat_or, UInt64.toNat_and, mask, Nat.and_two_pow_sub_one_eq_mod,
    packed, ← Nat.two_pow_add_eq_or_of_lt below]
  rfl

/-- The rest of `string_to_name` adds the number of the remaining symbols. -/
private theorem toNat_packName (i k : ℕ) (name : UInt64) (str : StdString)
    (total : i + k = 12) (aligned : 2 ^ (5 * k + 4) ∣ name.toNat) :
    (if (packName i name str).1 = 12 then
        (packName i name str).2 ||| (charToSymbol (str.getD k 0) &&& 0x0F)
      else (packName i name str).2).toNat =
      name.toNat + Digits.value (nameBases k) (nameSymbols k str) := by
  induction k generalizing i name str with
  | zero =>
      have twelve : i = 12 := total
      have finished : packName i name str = (12, name) := by
        cases str with
        | nil => rw [packName, twelve]
        | cons c rest => rw [packName, if_neg (by omega), twelve]
      have last := toNat_pack_last name (charToSymbol (str.getD 0 0)) aligned
      rw [finished, if_pos rfl, last, nameBases, nameSymbols, Digits.value_cons,
        List.prod_nil, Nat.mul_one]
      rfl
  | succ k inductionHypothesis =>
      have before : i ≠ 12 := by omega
      cases str with
      | nil =>
          rw [packName, if_neg before, value_nameSymbols_nil, Nat.add_zero]
      | cons c rest =>
          by_cases stop : c = 0
          · have stopped : ¬(c ≠ 0 ∧ i < 12) := fun packs => packs.1 stop
            have none : (charToSymbol c).toNat = 0 := by
              rw [stop]
              rfl
            rw [packName, if_neg stopped, if_neg before, nameBases, nameSymbols,
              Digits.value_cons, if_pos stop, value_nameSymbols_nil, none,
              Nat.zero_mul, Nat.zero_add, Nat.add_zero]
          · have packs : c ≠ 0 ∧ i < 12 := ⟨stop, by omega⟩
            have shift : 64 - 5 * (i + 1) = 5 * k + 4 := by omega
            have added := toNat_pack name (charToSymbol c) (by omega) aligned
              (charToSymbol_lt c)
            have stillAligned : 2 ^ (5 * k + 4) ∣
                name.toNat + (charToSymbol c).toNat * 2 ^ (5 * k + 4) := by
              have coarser : 2 ^ (5 * k + 4) ∣ 2 ^ (5 * (k + 1) + 4) :=
                Nat.pow_dvd_pow 2 (by omega)
              exact Nat.dvd_add (coarser.trans aligned) (Nat.dvd_mul_left _ _)
            rw [← added] at stillAligned
            rw [packName, if_pos packs, shift, List.getD_cons_succ,
              inductionHypothesis (i + 1) _ rest (by omega) stillAligned, added,
              nameBases, nameSymbols, if_neg stop, Digits.value_cons,
              nameBases_prod, Nat.add_assoc]

theorem toNat_stringToName (str : StdString) :
    (stringToName str).toNat =
      Digits.value (nameBases 12) (nameSymbols 12 str) := by
  have packed := toNat_packName 0 12 0 str rfl ⟨0, rfl⟩
  rw [UInt64.toNat_zero, Nat.zero_add] at packed
  rw [← packed, stringToName]

end Bright.Name
