import Bright.Symbol.StringToSymbol
import Mathlib.Data.List.GetD

/-!
# What can be read back from the code of a symbol

The code of one to seven capitals has the precision in its low byte and the
letters in the bytes behind it (`stringToSymbol_wellFormed`).  Another string
has the same code when the capitals that are shifted to each byte spell these
letters, as they do for a string of capitals with other characters behind it.
-/

namespace Bright.Symbol

open Bright.Eosio
open Bright.Lib.Bytes
open Bright.Name

/-! ### The bytes of a well-formed symbol -/

/-- In a string below `2 ^ 29` characters no two positions share a byte. -/
theorem overlay_of_short {k i : ℕ} {str : StdString}
    (short : i + str.length < 2 ^ 29) :
    overlay k i str =
      if i < k ∧ IsCapital (str.getD (k - i - 1) 0) then
        str.getD (k - i - 1) 0
      else
        0 := by
  induction str generalizing i with
  | nil =>
      have empty : ([] : StdString).getD (k - i - 1) 0 = 0 := rfl
      rw [overlay, empty, ite_self]
  | cons c rest inductionHypothesis =>
      rw [List.length_cons] at short
      have place : slot i = i + 1 := Nat.mod_eq_of_lt (by omega)
      have later := @inductionHypothesis (i + 1) (by omega)
      rw [overlay, place, later]
      rcases Nat.lt_trichotomy k (i + 1) with before | here | behind
      · have away : ¬(IsCapital c ∧ i + 1 = k) := by omega
        have out : ¬ i < k := by omega
        have outLater : ¬ i + 1 < k := by omega
        simp [away, out, outLater]
      · subst here
        simp
      · have away : ¬(IsCapital c ∧ i + 1 = k) := by omega
        have inside : i < k := by omega
        have next : k - i - 1 = k - (i + 1) - 1 + 1 := by omega
        rw [if_neg away, UInt8.zero_or, next, List.getD_cons_succ]
        simp [behind, inside]

theorem isCapital_ne_zero {c : UInt8} (capital : IsCapital c) : c ≠ 0 := by
  intro zero
  subst zero
  exact absurd capital (by decide)

theorem WellFormed.zero_notMem {word : StdString} (wellFormed : WellFormed word) :
    0 ∉ word := fun member =>
  isCapital_ne_zero (wellFormed.capitals 0 member) rfl

theorem WellFormed.cString_eq {word : StdString}
    (wellFormed : WellFormed word) : cString word = word :=
  cString_eq_self_iff.mpr wellFormed.zero_notMem

theorem WellFormed.shiftsFit {word : StdString} (wellFormed : WellFormed word) :
    ShiftsFit 0 word := by
  rintro ⟨c, i⟩ member _
  have bound := (List.mem_zipIdx member).2.1
  have short := wellFormed.short
  have place : slot i = i + 1 := Nat.mod_eq_of_lt (by omega)
  dsimp only
  omega

theorem WellFormed.overlay_eq {word : StdString} (wellFormed : WellFormed word)
    (k : ℕ) :
    overlay k 0 word = if 0 < k then word.getD (k - 1) 0 else 0 := by
  have short := wellFormed.short
  rw [overlay_of_short (by omega), Nat.sub_zero]
  rcases Nat.lt_or_ge (k - 1) word.length with inside | outside
  · have capital : IsCapital (word.getD (k - 1) 0) := by
      rw [List.getD_eq_getElem _ _ inside]
      exact wellFormed.capitals _ (List.getElem_mem inside)
    simp only [capital, and_true]
  · have zero : word.getD (k - 1) 0 = 0 := List.getD_eq_default _ _ outside
    rw [zero, ite_self, ite_self]

/-- The precision is the low byte and the letters are the bytes behind it. -/
theorem stringToSymbol_wellFormed {word : StdString}
    (wellFormed : WellFormed word) (precision : UInt8) :
    ∃ symbol, stringToSymbol precision word = .ok symbol ∧
      byteAt symbol 0 = precision ∧
      ∀ k, byteAt symbol (k + 1) = word.getD k 0 := by
  have same := wellFormed.cString_eq
  have short := wellFormed.short
  have counted : (cString word).length < 2 ^ 32 := by
    rw [same]
    omega
  have fits : ShiftsFit 0 (cString word) := by
    rw [same]
    exact wellFormed.shiftsFit
  obtain ⟨symbol, returned, bytes⟩ := stringToSymbol_ok counted fits precision
  refine ⟨symbol, returned, ?_, ?_⟩
  · rw [bytes 0, same, wellFormed.overlay_eq, if_neg (Nat.lt_irrefl 0),
      if_pos rfl, UInt8.zero_or]
  · intro k
    have notLow : ¬ 0 = k + 1 := (Nat.succ_ne_zero k).symm
    rw [bytes (k + 1), same, wellFormed.overlay_eq, if_pos (Nat.succ_pos k),
      if_neg notLow, UInt8.or_zero, Nat.add_sub_cancel]

/-! ### Strings that are taken for a symbol -/

/-- The capitals that a string shifts to each byte are those of some symbol. -/
def Spells (str : StdString) : Prop :=
  ∃ n < 8, 0 < n ∧ (∀ k < n, IsCapital (overlay (k + 1) 0 str)) ∧
    ∀ k < 7, n ≤ k → overlay (k + 1) 0 str = 0

/-- Below `2 ^ 29` characters no capital stands behind the seventh character. -/
theorem shiftsFit_iff_of_short {str : StdString} (short : str.length < 2 ^ 29) :
    ShiftsFit 0 str ↔ ∀ c ∈ str.drop 7, ¬ IsCapital c := by
  constructor
  · intro fits c member capital
    obtain ⟨k, inside, rfl⟩ := List.mem_iff_getElem.mp member
    rw [List.length_drop] at inside
    have bound : 7 + k < str.length := by omega
    have entry : (str[7 + k], 7 + k) ∈ str.zipIdx :=
      List.mk_mem_zipIdx_iff_getElem?.mpr (List.getElem?_eq_getElem bound)
    rw [List.getElem_drop] at capital
    have small : slot (7 + k) < 8 := fits _ entry capital
    have place : slot (7 + k) = 7 + k + 1 := Nat.mod_eq_of_lt (by omega)
    omega
  · rintro plain ⟨c, i⟩ member capital
    have found : str[i]? = some c := List.mk_mem_zipIdx_iff_getElem?.mp member
    obtain ⟨inside, here⟩ := List.getElem?_eq_some_iff.mp found
    have place : slot i = i + 1 := Nat.mod_eq_of_lt (by omega)
    rcases Nat.lt_or_ge i 7 with first | behind
    · dsimp only
      omega
    · have member : c ∈ str.drop 7 := by
        rw [List.mem_iff_getElem?]
        refine ⟨i - 7, ?_⟩
        rw [List.getElem?_drop, Nat.add_sub_cancel' behind]
        exact found
      exact absurd capital (plain c member)

/-- Below `2 ^ 29` characters a first stretch of capitals is followed by no
other capital among the first seven characters. -/
theorem spells_iff_of_short {str : StdString} (short : str.length < 2 ^ 29) :
    Spells str ↔
      ∃ n < 8, 0 < n ∧ (∀ k < n, IsCapital (str.getD k 0)) ∧
        ∀ k < 7, n ≤ k → ¬ IsCapital (str.getD k 0) := by
  have letter (k : ℕ) : overlay (k + 1) 0 str =
      if IsCapital (str.getD k 0) then str.getD k 0 else 0 := by
    rw [overlay_of_short (by omega), Nat.sub_zero, Nat.add_sub_cancel]
    simp only [Nat.succ_pos, true_and]
  have capital (k : ℕ) :
      IsCapital (overlay (k + 1) 0 str) ↔ IsCapital (str.getD k 0) := by
    rw [letter k]
    split_ifs with isCapital
    · rfl
    · exact iff_of_false (by decide) isCapital
  have blank (k : ℕ) :
      overlay (k + 1) 0 str = 0 ↔ ¬ IsCapital (str.getD k 0) := by
    rw [letter k]
    split_ifs with isCapital
    · exact iff_of_false (isCapital_ne_zero isCapital) (not_not.mpr isCapital)
    · exact iff_of_true rfl isCapital
  simp only [Spells, capital, blank]

theorem eq_of_getD {first second : StdString} (firstNoZero : 0 ∉ first)
    (secondNoZero : 0 ∉ second)
    (same : ∀ k, first.getD k 0 = second.getD k 0) : first = second := by
  induction first generalizing second with
  | nil =>
      cases second with
      | nil => rfl
      | cons c rest =>
          have zero : (0 : UInt8) = c := same 0
          exact absurd (List.mem_cons.mpr (Or.inl zero)) secondNoZero
  | cons c rest inductionHypothesis =>
      cases second with
      | nil =>
          have zero : c = (0 : UInt8) := same 0
          exact absurd (List.mem_cons.mpr (Or.inl zero.symm)) firstNoZero
      | cons d others =>
          have head : c = d := same 0
          have tail := inductionHypothesis
            (fun member => firstNoZero (List.mem_cons_of_mem c member))
            (fun member => secondNoZero (List.mem_cons_of_mem d member))
            (fun k => same (k + 1))
          rw [head, tail]

theorem WellFormed.eq_of_letters {first second : StdString}
    (firstFormed : WellFormed first) (secondFormed : WellFormed second)
    (letters : ∀ k < 7, first.getD k 0 = second.getD k 0) : first = second := by
  apply eq_of_getD firstFormed.zero_notMem secondFormed.zero_notMem
  intro k
  rcases Nat.lt_or_ge k 7 with inside | outside
  · exact letters k inside
  · rw [List.getD_eq_default _ _ (firstFormed.short.trans outside),
      List.getD_eq_default _ _ (secondFormed.short.trans outside)]

/-- The word that the shifted capitals spell. -/
theorem exists_word_of_spells {str : StdString} (spells : Spells str) :
    ∃ word, WellFormed word ∧
      ∀ k < 7, overlay (k + 1) 0 str = word.getD k 0 := by
  obtain ⟨n, atMost, positive, letters, blank⟩ := spells
  let word := (List.range n).map fun k => overlay (k + 1) 0 str
  have size : word.length = n := by simp [word]
  refine ⟨word, ⟨?_, by omega, ?_⟩, ?_⟩
  · exact List.ne_nil_of_length_pos (by omega)
  · intro c member
    obtain ⟨k, inside, rfl⟩ := List.mem_map.mp member
    exact letters k (List.mem_range.mp inside)
  · intro k small
    rcases Nat.lt_or_ge k n with inside | outside
    · have bound : k < word.length := by omega
      rw [List.getD_eq_getElem _ _ bound]
      simp [word]
    · have beyond : word.length ≤ k := by omega
      rw [List.getD_eq_default _ _ beyond]
      exact blank k small outside

theorem spells_of_word {str word : StdString} (wellFormed : WellFormed word)
    (letters : ∀ k < 7, overlay (k + 1) 0 str = word.getD k 0) : Spells str := by
  have short := wellFormed.short
  refine ⟨word.length, by omega, List.length_pos_iff.mpr wellFormed.nonempty,
    ?_, ?_⟩
  · intro k inside
    rw [letters k (by omega), List.getD_eq_getElem _ _ inside]
    exact wellFormed.capitals _ (List.getElem_mem inside)
  · intro k small beyond
    rw [letters k small, List.getD_eq_default _ _ beyond]

/-- What a caller may expect of a string: no undefined shift, a code that no
symbol other than the string itself has, and, for one to seven capitals, a code
that is read back byte by byte. -/
structure Faithful (str : StdString) : Prop where
  shifts : ∀ precision, stringToSymbol precision str ≠ .error .undefinedShift
  unaliased : ∀ precision other word, WellFormed word →
    stringToSymbol precision word = stringToSymbol other str →
    precision = other ∧ word = cString str
  decodes : WellFormed (cString str) → ∀ precision, ∃ symbol,
    stringToSymbol precision str = .ok symbol ∧
      byteAt symbol 0 = precision ∧
      ∀ k, byteAt symbol (k + 1) = (cString str).getD k 0

/-- The code of a string only depends on its bytes before the terminator. -/
theorem stringToSymbol_cString {str : StdString}
    (short : (cString str).length < 2 ^ 32) (precision : UInt8) :
    stringToSymbol precision str = stringToSymbol precision (cString str) := by
  have again : cString (cString str) = cString str :=
    cString_eq_self_iff.mpr (zero_notMem_cString str)
  have shortAgain : (cString (cString str)).length < 2 ^ 32 := by
    rw [again]
    exact short
  rw [stringToSymbol_of_short short, stringToSymbol_of_short shortAgain, again]

theorem faithful_of_long {str : StdString}
    (long : 2 ^ 32 ≤ (cString str).length) : Faithful str := by
  constructor
  · intro precision undefined
    rw [stringToSymbol_of_long long] at undefined
    injection undefined with failure
    exact absurd failure (by decide)
  · intro precision other word wellFormed same
    obtain ⟨symbol, returned, _⟩ := stringToSymbol_wellFormed wellFormed precision
    rw [returned, stringToSymbol_of_long long] at same
    injection same
  · intro wellFormed
    have short := wellFormed.short
    omega

theorem faithful_of_condition {str : StdString}
    (short : (cString str).length < 2 ^ 32)
    (fits : ShiftsFit 0 (cString str))
    (spelled : Spells (cString str) → WellFormed (cString str)) :
    Faithful str := by
  constructor
  · intro precision undefined
    obtain ⟨symbol, returned, _⟩ := stringToSymbol_ok short fits precision
    rw [returned] at undefined
    injection undefined
  · intro precision other word wellFormed same
    obtain ⟨symbol, returned, low, letters⟩ :=
      stringToSymbol_wellFormed wellFormed precision
    obtain ⟨again, returnedAgain, bytes⟩ := stringToSymbol_ok short fits other
    rw [returned, returnedAgain] at same
    injection same with equal
    subst equal
    have taken : ∀ k < 7,
        overlay (k + 1) 0 (cString str) = word.getD k 0 := by
      intro k _
      have behind : ¬ 0 = k + 1 := (Nat.succ_ne_zero k).symm
      rw [← letters k, bytes (k + 1), if_neg behind, UInt8.or_zero]
    have formed := spelled (spells_of_word wellFormed taken)
    have equalWords : word = cString str := by
      apply wellFormed.eq_of_letters formed
      intro k small
      rw [← taken k small, formed.overlay_eq, if_pos (Nat.succ_pos k),
        Nat.add_sub_cancel]
    refine ⟨?_, equalWords⟩
    rw [← low, bytes 0, formed.overlay_eq, if_neg (Nat.lt_irrefl 0), if_pos rfl,
      UInt8.zero_or]
  · intro wellFormed precision
    rw [stringToSymbol_cString short]
    exact stringToSymbol_wellFormed wellFormed precision

theorem Faithful.condition {str : StdString} (faithful : Faithful str)
    (short : (cString str).length < 2 ^ 32) :
    ShiftsFit 0 (cString str) ∧
      (Spells (cString str) → WellFormed (cString str)) := by
  have fits : ShiftsFit 0 (cString str) := by
    by_contra unfit
    exact faithful.shifts 0 (stringToSymbol_undefined short unfit 0)
  refine ⟨fits, ?_⟩
  intro spells
  obtain ⟨word, wellFormed, taken⟩ := exists_word_of_spells spells
  -- The low byte may hold a letter as well, so it is taken as the precision.
  let precision := overlay 0 0 (cString str)
  obtain ⟨symbol, returned, low, letters⟩ :=
    stringToSymbol_wellFormed wellFormed precision
  obtain ⟨other, returnedOther, bytes⟩ := stringToSymbol_ok short fits 0
  have same : symbol = other := by
    apply eq_of_byteAt
    intro k below
    rw [bytes k, ite_self, UInt8.or_zero]
    cases k with
    | zero => exact low
    | succ k => rw [letters k, taken k (by omega)]
  have equal : word = cString str :=
    (faithful.unaliased precision 0 word wellFormed
      (by rw [returned, returnedOther, same])).2
  rw [← equal]
  exact wellFormed

/-- A string of `2 ^ 32` characters or more has no code.  A shorter one is
read back when its capitals are shifted inside the word and do not spell a
symbol that the string is not. -/
theorem faithful_iff (str : StdString) :
    Faithful str ↔
      2 ^ 32 ≤ (cString str).length ∨
        (ShiftsFit 0 (cString str) ∧
          (Spells (cString str) → WellFormed (cString str))) := by
  rcases Nat.lt_or_ge (cString str).length (2 ^ 32) with short | long
  · have notLong : ¬ 2 ^ 32 ≤ (cString str).length := Nat.not_le.mpr short
    rw [or_iff_right notLong]
    constructor
    · intro faithful
      exact faithful.condition short
    · rintro ⟨fits, spelled⟩
      exact faithful_of_condition short fits spelled
  · exact iff_of_true (faithful_of_long long) (Or.inl long)

/-- The eighth letter of `RAMCORES` is shifted by 64, and `RAMs` has the code
of `RAM`. -/
theorem not_faithful_ramcores :
    ¬ Faithful "RAMCORES".toUTF8.toList ∧ ¬ Faithful "RAMs".toUTF8.toList := by
  constructor
  · intro faithful
    have undefined : stringToSymbol 4 "RAMCORES".toUTF8.toList =
        .error .undefinedShift := by
      decide +kernel
    exact faithful.shifts 4 undefined
  · intro faithful
    have wellFormed : WellFormed "RAM".toUTF8.toList :=
      ⟨by decide +kernel, by decide +kernel, by decide +kernel⟩
    have same : stringToSymbol 4 "RAM".toUTF8.toList =
        stringToSymbol 4 "RAMs".toUTF8.toList := by
      decide +kernel
    have equal := (faithful.unaliased 4 4 _ wellFormed same).2
    exact absurd equal (by decide +kernel)

end Bright.Symbol
