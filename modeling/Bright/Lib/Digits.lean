import Mathlib.Algebra.Order.BigOperators.GroupWithZero.List
import Mathlib.Algebra.Order.Ring.Nat
import Mathlib.Data.List.DropRight
import Mathlib.Data.List.Forall2
import Mathlib.Order.Monotone.Basic

/-!
# Numbers written in mixed bases

A number is written with one digit for each base of a list, the leading digit
first.  Digits that fit their bases determine the number and are determined by
it (`digits_value`, `value_digits`), and numbers are ordered as their digits
are, lexicographically (`value_lt_value_iff`).

The second part is about the order of words.  Words keep their order when their
letters are replaced by others in the same order (`map_lt_map_iff`), and words
of one length over an alphabet whose smallest letter is the blank keep it when
trailing blanks are dropped (`trim_lt_trim_iff`).
-/

namespace Bright.Lib

/-! ### Digits and values -/

namespace Digits

/-- The number with the given digits, the leading digit first. -/
def value : List ℕ → List ℕ → ℕ
  | _ :: bases, digit :: rest => digit * bases.prod + value bases rest
  | _, _ => 0

/-- The digits of a number, the leading digit first. -/
def digits : List ℕ → ℕ → List ℕ
  | [], _ => []
  | base :: bases, number =>
      number / bases.prod % base :: digits bases number

/-- One digit below each base. -/
abbrev Fits (bases word : List ℕ) : Prop :=
  List.Forall₂ (fun base digit => digit < base) bases word

variable {bases word other : List ℕ} {number : ℕ}

theorem value_cons (base digit : ℕ) (bases word : List ℕ) :
    value (base :: bases) (digit :: word) =
      digit * bases.prod + value bases word := rfl

theorem value_lt_prod (fits : Fits bases word) : value bases word < bases.prod := by
  induction fits with
  | nil => decide
  | @cons base digit bases word below _ inductionHypothesis =>
      have leading : (digit + 1) * bases.prod ≤ base * bases.prod :=
        Nat.mul_le_mul_right bases.prod below
      rw [Nat.succ_mul] at leading
      rw [value_cons, List.prod_cons]
      omega

theorem fits_digits (positive : ∀ base ∈ bases, 0 < base) (number : ℕ) :
    Fits bases (digits bases number) := by
  induction bases with
  | nil => exact List.Forall₂.nil
  | cons base bases inductionHypothesis =>
      apply List.Forall₂.cons
      · exact Nat.mod_lt _ (positive base List.mem_cons_self)
      · exact inductionHypothesis fun later member =>
          positive later (List.mem_cons_of_mem base member)

/-- Digits do not see multiples of the product of their bases. -/
theorem digits_mul_add (positive : ∀ base ∈ bases, 0 < base)
    (multiple number : ℕ) :
    digits bases (multiple * bases.prod + number) = digits bases number := by
  induction bases generalizing multiple with
  | nil => rfl
  | cons base bases inductionHypothesis =>
      have laterPositive : ∀ later ∈ bases, 0 < later :=
        fun later member => positive later (List.mem_cons_of_mem base member)
      have prodPositive : 0 < bases.prod := List.prod_pos laterPositive
      have regrouped :
          multiple * (base :: bases).prod + number =
            multiple * base * bases.prod + number := by
        rw [List.prod_cons, mul_assoc]
      have leading :
          (multiple * base * bases.prod + number) / bases.prod % base =
            number / bases.prod % base := by
        rw [Nat.mul_comm _ bases.prod, Nat.mul_add_div prodPositive,
          Nat.mul_comm multiple base, Nat.mul_add_mod]
      rw [regrouped, digits, digits, leading,
        inductionHypothesis laterPositive (multiple * base)]

theorem digits_value (positive : ∀ base ∈ bases, 0 < base)
    (fits : Fits bases word) : digits bases (value bases word) = word := by
  induction fits with
  | nil => rfl
  | @cons base digit bases word below fits inductionHypothesis =>
      have laterPositive : ∀ later ∈ bases, 0 < later :=
        fun later member => positive later (List.mem_cons_of_mem base member)
      have small := value_lt_prod fits
      have leading :
          (digit * bases.prod + value bases word) / bases.prod % base =
            digit := by
        rw [Nat.mul_comm digit,
          Nat.mul_add_div (Nat.zero_lt_of_lt small), Nat.div_eq_of_lt small,
          Nat.add_zero, Nat.mod_eq_of_lt below]
      rw [value_cons, digits, leading, digits_mul_add laterPositive,
        inductionHypothesis laterPositive]

theorem value_digits_eq_mod (number : ℕ) :
    value bases (digits bases number) = number % bases.prod := by
  induction bases with
  | nil =>
      rw [List.prod_nil, Nat.mod_one]
      rfl
  | cons base bases inductionHypothesis =>
      rw [digits, value_cons, inductionHypothesis, List.prod_cons,
        Nat.mul_comm base, Nat.mod_mul, Nat.mul_comm bases.prod, Nat.add_comm]

theorem value_digits (bound : number < bases.prod) :
    value bases (digits bases number) = number := by
  rw [value_digits_eq_mod, Nat.mod_eq_of_lt bound]

/-- A smaller leading digit makes a smaller number. -/
private theorem value_lt_of_lt {digit larger : ℕ} (fits : Fits bases word)
    (smaller : digit < larger) (rest : ℕ) :
    digit * bases.prod + value bases word < larger * bases.prod + rest := by
  have small := value_lt_prod fits
  have leading : (digit + 1) * bases.prod ≤ larger * bases.prod :=
    Nat.mul_le_mul_right bases.prod smaller
  rw [Nat.succ_mul] at leading
  omega

/-- Numbers are ordered as their digits are. -/
theorem value_lt_value_iff (fits : Fits bases word)
    (otherFits : Fits bases other) :
    value bases word < value bases other ↔ word < other := by
  induction fits generalizing other with
  | nil =>
      cases otherFits
      decide
  | @cons base digit bases word below fits inductionHypothesis =>
      cases otherFits with
      | @cons _ larger _ rest _ restFits =>
          rw [value_cons, value_cons, List.cons_lt_cons_iff]
          rcases lt_trichotomy digit larger with smaller | same | greater
          · have less := value_lt_of_lt fits smaller (value bases rest)
            simp [smaller, less]
          · subst same
            simp [inductionHypothesis restFits]
          · have more := value_lt_of_lt restFits greater (value bases word)
            simp [greater.ne', greater.not_gt, more.le]

end Digits

/-! ### Trailing blanks -/

section Trim

variable {α : Type*} [DecidableEq α] {blank : α}

/-- Drop the blanks at the end of a word. -/
def trim (blank : α) (word : List α) : List α :=
  word.rdropWhile fun letter => letter = blank

@[simp]
theorem trim_nil : trim blank [] = [] := rfl

theorem trim_cons (letter : α) (word : List α) :
    trim blank (letter :: word) =
      if trim blank word = [] ∧ letter = blank then []
      else letter :: trim blank word := by
  simp only [trim, List.rdropWhile, List.reverse_cons, List.dropWhile_append,
    List.isEmpty_iff, List.reverse_eq_nil_iff]
  by_cases empty :
      List.dropWhile (fun letter => decide (letter = blank)) word.reverse = []
  · by_cases isBlank : letter = blank
    · simp [empty, isBlank]
    · simp [empty, isBlank]
  · simp [empty]

theorem trim_replicate (count : ℕ) :
    trim blank (List.replicate count blank) = [] := by
  rw [trim, List.rdropWhile_eq_nil_iff]
  intro letter member
  exact decide_eq_true (List.eq_of_mem_replicate member)

/-- Trimming drops nothing but blanks at the end. -/
theorem exists_trim_append (blank : α) (word : List α) :
    ∃ count, word = trim blank word ++ List.replicate count blank := by
  induction word with
  | nil => exact ⟨0, rfl⟩
  | cons letter word inductionHypothesis =>
      obtain ⟨count, shape⟩ := inductionHypothesis
      rw [trim_cons]
      split_ifs with blanks
      · rw [blanks.1, List.nil_append] at shape
        exact ⟨count + 1, by rw [List.replicate_succ, ← shape, blanks.2]; rfl⟩
      · exact ⟨count, by rw [List.cons_append, ← shape]⟩

theorem trim_append_replicate (word : List α) (count : ℕ) :
    trim blank (word ++ List.replicate count blank) = trim blank word := by
  induction word with
  | nil => exact trim_replicate count
  | cons letter word inductionHypothesis =>
      rw [List.cons_append, trim_cons, trim_cons, inductionHypothesis]

end Trim

/-! ### The order of words -/

section Order

variable {α : Type*} [LinearOrder α] {blank : α}

/-- Words keep their order under a strictly monotone change of the letters. -/
theorem map_lt_map_iff {β : Type*} [LinearOrder β] {f : α → β}
    {letters : Set α} (monotone : StrictMonoOn f letters) {word other : List α}
    (inLetters : ∀ letter ∈ word, letter ∈ letters)
    (otherInLetters : ∀ letter ∈ other, letter ∈ letters) :
    word.map f < other.map f ↔ word < other := by
  induction word generalizing other with
  | nil =>
      cases other with
      | nil => exact iff_of_false (List.not_lt_nil _) (List.not_lt_nil _)
      | cons letter other =>
          exact iff_of_true (List.nil_lt_cons _ _) (List.nil_lt_cons _ _)
  | cons letter word inductionHypothesis =>
      cases other with
      | nil => exact iff_of_false (List.not_lt_nil _) (List.not_lt_nil _)
      | cons otherLetter other =>
          obtain ⟨first, rest⟩ := List.forall_mem_cons.mp inLetters
          obtain ⟨otherFirst, otherRest⟩ :=
            List.forall_mem_cons.mp otherInLetters
          rw [List.map_cons, List.map_cons, List.cons_lt_cons_iff,
            List.cons_lt_cons_iff, monotone.lt_iff_lt first otherFirst,
            monotone.injOn.eq_iff first otherFirst,
            inductionHypothesis rest otherRest]

/-- Words of one length over letters not below the blank keep their order when
trailing blanks are dropped. -/
theorem trim_lt_trim_iff {word other : List α}
    (sameLength : word.length = other.length)
    (least : ∀ letter ∈ word, blank ≤ letter)
    (otherLeast : ∀ letter ∈ other, blank ≤ letter) :
    trim blank word < trim blank other ↔ word < other := by
  induction word generalizing other with
  | nil =>
      have empty : other = [] := List.length_eq_zero_iff.mp sameLength.symm
      rw [empty, trim_nil]
  | cons letter word inductionHypothesis =>
      cases other with
      | nil => cases sameLength
      | cons otherLetter other =>
          have rest : trim blank word < trim blank other ↔ word < other :=
            inductionHypothesis (Nat.succ.inj sameLength)
              (fun later member => least later (List.mem_cons_of_mem _ member))
              (fun later member =>
                otherLeast later (List.mem_cons_of_mem _ member))
          have letterLeast := least letter List.mem_cons_self
          have otherLetterLeast := otherLeast otherLetter List.mem_cons_self
          rw [trim_cons, trim_cons, List.cons_lt_cons_iff, ← rest]
          by_cases blanks : trim blank word = [] ∧ letter = blank
          · rw [if_pos blanks, blanks.1, blanks.2]
            by_cases otherBlanks : trim blank other = [] ∧ otherLetter = blank
            · simp [otherBlanks]
            · rw [if_neg otherBlanks]
              have greater : blank < otherLetter ∨
                  blank = otherLetter ∧ [] < trim blank other := by
                rcases otherLetterLeast.lt_or_eq with above | same
                · exact Or.inl above
                · have nonempty : trim blank other ≠ [] :=
                    fun empty => otherBlanks ⟨empty, same.symm⟩
                  obtain ⟨first, rest, shape⟩ :=
                    List.exists_cons_of_ne_nil nonempty
                  rw [shape]
                  exact Or.inr ⟨same, List.nil_lt_cons first rest⟩
              exact iff_of_true (List.nil_lt_cons _ _) greater
          · rw [if_neg blanks]
            by_cases otherBlanks : trim blank other = [] ∧ otherLetter = blank
            · rw [if_pos otherBlanks, otherBlanks.1, otherBlanks.2]
              simp [letterLeast.not_gt]
            · rw [if_neg otherBlanks, List.cons_lt_cons_iff]

end Order

end Bright.Lib
