import Mathlib.Data.List.TakeWhile
import Mathlib.Data.Nat.Digits.Lemmas
import Mathlib.Order.Lattice
import Mathlib.Tactic.Ring

/-!
# Changing the base of a word and keeping its leading zeros

A word of digits, the leading digit first, is its leading zeros followed by the
numeral of the number that it stands for (`leadingZeros_append_numeral`).
Writing that number in another base behind the same zeros loses nothing: words
over one base and words over the other correspond one to one
(`rebase_rebase`).
-/

namespace Bright.Lib

namespace Radix

/-- The number that a word stands for. -/
def number (base : ℕ) (word : List ℕ) : ℕ :=
  word.foldl (fun total digit => total * base + digit) 0

/-- The digits of a number without leading zeros. -/
def numeral (base value : ℕ) : List ℕ := (Nat.digits base value).reverse

/-- How many zeros a word starts with. -/
def leadingZeros (word : List ℕ) : ℕ := (word.takeWhile (· = 0)).length

/-- The same number behind the same zeros, in another base. -/
def rebase (source target : ℕ) (word : List ℕ) : List ℕ :=
  List.replicate (leadingZeros word) 0 ++ numeral target (number source word)

variable {base source target value : ℕ} {word : List ℕ}

theorem number_nil : number base [] = 0 := rfl

theorem number_eq_ofDigits (base : ℕ) (word : List ℕ) :
    number base word = Nat.ofDigits base word.reverse := by
  induction word using List.reverseRecOn with
  | nil => simp [number_nil]
  | append_singleton word digit inductionHypothesis =>
      rw [number, List.foldl_append, ← number, inductionHypothesis]
      simp [Nat.ofDigits_cons, mul_comm, add_comm]

theorem number_numeral (base value : ℕ) :
    number base (numeral base value) = value := by
  rw [number_eq_ofDigits, numeral, List.reverse_reverse, Nat.ofDigits_digits]

theorem number_replicate_zero_append (count : ℕ) (word : List ℕ) :
    number base (List.replicate count 0 ++ word) = number base word := by
  rw [number_eq_ofDigits, number_eq_ofDigits, List.reverse_append,
    List.reverse_replicate, Nat.ofDigits_append_replicate_zero]

theorem lt_of_mem_numeral (large : 1 < base) {digit : ℕ}
    (member : digit ∈ numeral base value) : digit < base :=
  Nat.digits_lt_base large (List.mem_reverse.mp member)

theorem head_numeral_ne_zero {digit : ℕ} {rest : List ℕ}
    (shape : numeral base value = digit :: rest) : digit ≠ 0 := by
  have nonzero : value ≠ 0 := by
    rintro rfl
    simp [numeral] at shape
  have last := Nat.getLast_digit_ne_zero base nonzero
  have first : digit = (Nat.digits base value).getLast
      (Nat.digits_ne_nil_iff_ne_zero.mpr nonzero) := by
    rw [← List.head_reverse (by simpa [Nat.digits_ne_nil_iff_ne_zero])]
    simp only [numeral] at shape
    simp [shape]
  rwa [first]

theorem leadingZeros_replicate_append_numeral (count base value : ℕ) :
    leadingZeros (List.replicate count 0 ++ numeral base value) = count := by
  rw [leadingZeros, List.takeWhile_append_of_pos (by simp), List.length_append,
    List.length_replicate]
  cases shape : numeral base value with
  | nil => rfl
  | cons digit rest =>
      rw [List.takeWhile_cons_of_neg (by simpa using head_numeral_ne_zero shape)]
      rfl

/-- A word is its leading zeros and the numeral of its number. -/
theorem leadingZeros_append_numeral (large : 1 < base)
    (below : ∀ digit ∈ word, digit < base) :
    List.replicate (leadingZeros word) 0 ++ numeral base (number base word) =
      word := by
  have zeros : word.takeWhile (· = 0) = List.replicate (leadingZeros word) 0 := by
    refine List.eq_replicate_of_mem fun digit member => ?_
    simpa using List.mem_takeWhile_imp member
  have parts : List.replicate (leadingZeros word) 0 ++ word.dropWhile (· = 0) =
      word := by
    rw [← zeros, List.takeWhile_append_dropWhile]
  have rest : numeral base (number base word) = word.dropWhile (· = 0) := by
    rw [← parts, number_replicate_zero_append, parts, numeral,
      number_eq_ofDigits, Nat.digits_ofDigits base large]
    · rw [List.reverse_reverse]
    · intro digit member
      rw [List.mem_reverse] at member
      exact below digit ((List.dropWhile_suffix _).subset member)
    · intro nonempty
      have tailNonempty : word.dropWhile (· = 0) ≠ [] := by
        simpa using nonempty
      rw [List.getLast_reverse]
      have := List.head_dropWhile_not (· = 0) tailNonempty
      simpa using this
  rw [rest, parts]

/-! ### The size of a number -/

theorem number_lt (large : 1 < base) (below : ∀ digit ∈ word, digit < base) :
    number base word < base ^ word.length := by
  rw [number_eq_ofDigits, ← List.length_reverse]
  exact Nat.ofDigits_lt_base_pow_length large fun digit member =>
    below digit (List.mem_reverse.mp member)

theorem number_cons (digit : ℕ) (word : List ℕ) :
    number base (digit :: word) =
      digit * base ^ word.length + number base word := by
  rw [number_eq_ofDigits, number_eq_ofDigits, List.reverse_cons,
    Nat.ofDigits_append, Nat.ofDigits_singleton, List.length_reverse]
  ring

/-- The leading digit and the length of a numeral, from bounds on the number. -/
theorem numeral_of_bounds {digit place : ℕ} (positive : 0 < digit)
    (below : digit < base) (lower : digit * base ^ place ≤ value)
    (upper : value < (digit + 1) * base ^ place) :
    ∃ rest, numeral base value = digit :: rest ∧ rest.length = place := by
  have large : 1 < base := by omega
  induction place generalizing value with
  | zero =>
      rw [pow_zero, Nat.mul_one] at lower upper
      have same : value = digit := by omega
      subst same
      refine ⟨[], ?_, rfl⟩
      rw [numeral, Nat.digits_of_lt base _ positive.ne' below]
      rfl
  | succ place inductionHypothesis =>
      rw [pow_succ, ← Nat.mul_assoc] at lower upper
      obtain ⟨rest, shape, length⟩ := inductionHypothesis
        ((Nat.le_div_iff_mul_le (by omega)).mpr lower)
        ((Nat.div_lt_iff_lt_mul (by omega)).mpr upper)
      have nonzero : 0 < value := by
        refine lt_of_lt_of_le ?_ lower
        exact Nat.mul_pos (Nat.mul_pos positive (Nat.pow_pos (by omega)))
          (by omega)
      refine ⟨rest ++ [value % base], ?_, by simp [length]⟩
      rw [numeral, Nat.digits_def' large nonzero, List.reverse_cons, ← numeral,
        shape, List.cons_append]

/-! ### The change of base -/

theorem number_rebase (source target : ℕ) (word : List ℕ) :
    number target (rebase source target word) = number source word := by
  rw [rebase, number_replicate_zero_append, number_numeral]

theorem leadingZeros_rebase (source target : ℕ) (word : List ℕ) :
    leadingZeros (rebase source target word) = leadingZeros word :=
  leadingZeros_replicate_append_numeral _ _ _

theorem rebase_rebase (large : 1 < source)
    (below : ∀ digit ∈ word, digit < source) :
    rebase target source (rebase source target word) = word := by
  conv_lhs => rw [rebase]
  rw [number_rebase, leadingZeros_rebase]
  exact leadingZeros_append_numeral large below

theorem lt_of_mem_rebase (large : 1 < target) {digit : ℕ}
    (member : digit ∈ rebase source target word) : digit < target := by
  rcases List.mem_append.mp member with zero | digitOfNumeral
  · rw [List.eq_of_mem_replicate zero]
    exact Nat.zero_lt_of_lt large
  · exact lt_of_mem_numeral large digitOfNumeral

end Radix

end Bright.Lib
