import Bright.Name.NameToString

/-!
# Names and their codes

Encoding and decoding are inverse up to a normal form of the text: decoding an
encoded string gives its normal form, and encoding a decoded number gives the
number back.  The order of the numbers is the order of the texts.
-/

namespace Bright.Name

open Bright.Eosio
open Bright.Lib

/-- The characters of a name that are not dots. -/
def isNameChar (c : UInt8) : Prop :=
  ('a'.toUInt8 ≤ c ∧ c ≤ 'z'.toUInt8) ∨ ('1'.toUInt8 ≤ c ∧ c ≤ '5'.toUInt8)

instance decidableIsNameChar (c : UInt8) : Decidable (isNameChar c) :=
  inferInstanceAs (Decidable (_ ∨ _))

/-- What becomes of the character `c` in position `i`. -/
def normalChar (i : ℕ) (c : UInt8) : UInt8 :=
  if i = 12 then charOf ((charToSymbol c).toNat % 16)
  else if isNameChar c then c
  else '.'.toUInt8

/-- The normal form of the C string at the start of `str`. -/
def normalForm (str : StdString) : StdString :=
  trim '.'.toUInt8 (((cString str).take 13).mapIdx normalChar)

/-! ### The normal form -/

theorem charOf_charToSymbol (c : UInt8) :
    charOf (charToSymbol c).toNat = if isNameChar c then c else '.'.toUInt8 := by
  have bytes : ∀ n : Fin 256, charOf (charToSymbol (UInt8.ofFin n)).toNat =
      if isNameChar (UInt8.ofFin n) then UInt8.ofFin n else '.'.toUInt8 := by
    decide +kernel
  exact bytes c.toFin

theorem nameSymbols_nil (k : ℕ) :
    nameSymbols k [] = List.replicate (k + 1) 0 := by
  induction k with
  | zero => rfl
  | succ k inductionHypothesis =>
      rw [nameSymbols, inductionHypothesis, ← List.replicate_succ]

theorem nameSymbols_cString (k : ℕ) (str : StdString) :
    nameSymbols k (cString str) = nameSymbols k str := by
  induction str generalizing k with
  | nil => rfl
  | cons c rest inductionHypothesis =>
      by_cases stop : c = 0
      · have empty : cString (c :: rest) = [] := by simp [cString, stop]
        rw [empty, stop]
        cases k with
        | zero => rfl
        | succ k =>
            rw [nameSymbols, nameSymbols, if_pos rfl]
            rfl
      · have reads : cString (c :: rest) = c :: cString rest := by
          simp [cString, stop]
        rw [reads]
        cases k with
        | zero => rfl
        | succ k =>
            rw [nameSymbols, nameSymbols, if_neg stop, if_neg stop,
              inductionHypothesis k]

/-- The symbols of a string without zeros are those of its normal characters,
followed by dots. -/
theorem map_charOf_nameSymbols {j k : ℕ} {str : StdString}
    (total : j + k = 12) (noZero : 0 ∉ str) :
    ∃ count, (nameSymbols k str).map charOf =
      (str.take (k + 1)).mapIdx (fun i c => normalChar (j + i) c) ++
        List.replicate count '.'.toUInt8 := by
  induction str generalizing j k with
  | nil =>
      refine ⟨k + 1, ?_⟩
      rw [nameSymbols_nil, List.map_replicate]
      rfl
  | cons c rest inductionHypothesis =>
      have notZero : c ≠ 0 := fun zero =>
        noZero (zero ▸ List.mem_cons_self)
      cases k with
      | zero =>
          have last : normalChar (j + 0) c =
              charOf ((charToSymbol c).toNat % 16) := if_pos total
          refine ⟨0, ?_⟩
          rw [List.take_succ_cons, List.mapIdx_cons, last]
          rfl
      | succ k =>
          have before : normalChar (j + 0) c = charOf (charToSymbol c).toNat := by
            rw [charOf_charToSymbol]
            exact if_neg (by omega)
          have shifted : (fun i c => normalChar (j + (i + 1)) c) =
              fun i c => normalChar (j + 1 + i) c := by
            funext i c
            rw [Nat.add_right_comm, Nat.add_assoc j i]
          obtain ⟨count, padded⟩ := inductionHypothesis (j := j + 1) (k := k)
            (by omega) fun member => noZero (List.mem_cons_of_mem c member)
          refine ⟨count, ?_⟩
          rw [nameSymbols, if_neg notZero, List.map_cons, padded,
            List.take_succ_cons, List.mapIdx_cons, before, shifted]
          rfl

theorem nameDigits_stringToName (str : StdString) :
    nameDigits (stringToName str) = nameSymbols 12 str := by
  rw [nameDigits, toNat_stringToName,
    Digits.digits_value (fun _ => nameBases_pos) (fits_nameSymbols 12 str)]

theorem nameToString_of_code (str : StdString) :
    nameToString (stringToName str) = normalForm str := by
  obtain ⟨count, padded⟩ := map_charOf_nameSymbols (j := 0) (k := 12) rfl
    (zero_notMem_cString str)
  rw [nameToString_eq_trim, nameDigits_stringToName, ← nameSymbols_cString,
    padded, trim_append_replicate, normalForm]
  simp only [Nat.zero_add]

example :
    normalForm "Ann-4.z5abcdz9".toUTF8.toList =
      ".nn.4.z5abcdj".toUTF8.toList := by
  decide +kernel

theorem code_of_nameToString (name : UInt64) :
    stringToName (nameToString name) = name := by
  apply UInt64.toNat_inj.mp
  rw [toNat_stringToName, nameSymbols_nameToString, value_nameDigits]

theorem nameToString_injective : Function.Injective nameToString :=
  Function.LeftInverse.injective code_of_nameToString

/-- Decoding an encoded string normalises it, two strings have the same code
exactly when they have the same normal form, and nothing behind the terminator
is read. -/
theorem stringToName_normalises :
    (∀ str, nameToString (stringToName str) = normalForm str) ∧
    (∀ str other, stringToName str = stringToName other ↔
      normalForm str = normalForm other) ∧
    ∀ str, stringToNameChecked (cString str ++ [0]) =
      some (stringToName (cString str)) := by
  refine ⟨nameToString_of_code, ?_, ?_⟩
  · intro str other
    rw [← nameToString_of_code, ← nameToString_of_code,
      nameToString_injective.eq_iff]
  · intro str
    exact stringToNameChecked_terminated (zero_notMem_cString str)

/-- Encoding the text of a number gives the number back. -/
theorem stringToName_nameToString :
    (∀ name, stringToName (nameToString name) = name) ∧
      Function.Injective nameToString :=
  ⟨code_of_nameToString, nameToString_injective⟩

/-! ### The order of names -/

theorem nameToString_lt_nameToString (name other : UInt64) :
    nameToString name < nameToString other ↔ name < other := by
  have small : ∀ (n : UInt64), ∀ symbol ∈ nameDigits n, symbol < 32 :=
    fun n _ => lt_of_mem_digits (fits_nameDigits n)
  have least : ∀ (n : UInt64), ∀ letter ∈ (nameDigits n).map charOf,
      '.'.toUInt8 ≤ letter := by
    intro n letter member
    obtain ⟨symbol, symbolMember, rfl⟩ := List.mem_map.mp member
    exact dot_le_charOf (small n symbol symbolMember)
  have sameLength : ((nameDigits name).map charOf).length =
      ((nameDigits other).map charOf).length := by
    rw [List.length_map, List.length_map,
      ← (fits_nameDigits name).length_eq, ← (fits_nameDigits other).length_eq]
  rw [nameToString_eq_trim, nameToString_eq_trim,
    trim_lt_trim_iff sameLength (least name) (least other),
    map_lt_map_iff strictMonoOn_charOf (small name) (small other),
    ← Digits.value_lt_value_iff (fits_nameDigits name) (fits_nameDigits other),
    value_nameDigits, value_nameDigits, UInt64.lt_iff_toNat_lt]

/-- Numbers are ordered as their texts are, so a table with names as its keys
lists them alphabetically. -/
theorem name_order :
    (∀ name other : UInt64,
      name < other ↔ nameToString name < nameToString other) ∧
    ∀ {ρ : Type} (primaryKey : ρ → UInt64) (table : MultiIndex primaryKey),
      (table.rows.map fun row => nameToString (primaryKey row)).Pairwise
        (· < ·) := by
  refine ⟨fun name other => (nameToString_lt_nameToString name other).symm, ?_⟩
  intro ρ primaryKey table
  have sorted := table.sorted
  rw [List.pairwise_map] at sorted ⊢
  exact sorted.imp fun below =>
    (nameToString_lt_nameToString _ _).mpr below

end Bright.Name
