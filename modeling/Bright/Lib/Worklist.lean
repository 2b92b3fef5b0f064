import Mathlib.Data.List.Sort
import Mathlib.Order.Defs.LinearOrder

/-!
# Worklists that are collected again

A sweep collects its worklist from the state and takes a step for every item.
When it is stopped and started again, the worklist is collected in the state
that the first sweep has left.  If the items that were not done come last in it,
in their old order, and the others have nothing left to do, the second sweep
ends where the first one would have ended (`sweep_stopped`).
-/

namespace Bright.Lib

section Sweep

variable {σ ι : Type*} (step : σ → ι → σ) (worklist : σ → List ι)

/-- A step for every item of the worklist. -/
def sweep (state : σ) : σ := (worklist state).foldl step state

/-- Of the worklist only `rest` is left to do. -/
def Leaves (rest : List ι) (state : σ) : Prop :=
  ∃ settled, worklist state = settled ++ rest ∧
    ∀ item ∈ settled, step state item = state

variable {step : σ → ι → σ} {worklist : σ → List ι} {items rest : List ι}
  {state : σ}

theorem foldl_of_settled (settled : ∀ item ∈ items, step state item = state) :
    items.foldl step state = state := by
  induction items with
  | nil => rfl
  | cons item items inductionHypothesis =>
      obtain ⟨first, later⟩ := List.forall_mem_cons.mp settled
      rw [List.foldl_cons, first]
      exact inductionHypothesis later

theorem sweep_of_leaves (leaves : Leaves step worklist rest state) :
    sweep step worklist state = rest.foldl step state := by
  obtain ⟨settled, isWorklist, stays⟩ := leaves
  rw [sweep, isWorklist, List.foldl_append, foldl_of_settled stays]

/-- What holds of a state and the items that are left, before each of them. -/
theorem foldl_of_steps {Ready : List ι → σ → Prop}
    (next : ∀ item rest state, Ready (item :: rest) state →
      Ready rest (step state item))
    (ready : Ready (items ++ rest) state) :
    Ready rest (items.foldl step state) := by
  induction items generalizing state with
  | nil => exact ready
  | cons item items inductionHypothesis =>
      exact inductionHypothesis (next item (items ++ rest) state ready)

/-- A sweep that is stopped anywhere and started again ends in the same state. -/
theorem sweep_stopped {Ready : List ι → σ → Prop}
    (next : ∀ item rest state, Ready (item :: rest) state →
      Ready rest (step state item))
    (leaves : ∀ rest state, Ready rest state → Leaves step worklist rest state)
    (ready : Ready (worklist state) state) (turns : ℕ) :
    sweep step worklist (((worklist state).take turns).foldl step state) =
      sweep step worklist state := by
  have split := List.take_append_drop turns (worklist state)
  rw [← split] at ready
  have left := leaves _ _ (foldl_of_steps next ready)
  rw [sweep_of_leaves left, sweep, ← List.foldl_append, split]

end Sweep

/-! ### The end of a sorted list -/

section Sorted

variable {ι : Type*} [LinearOrder ι] {items rest : List ι}

/-- The smallest items of a falling list are its end. -/
theorem exists_append_of_smallest
    (falling : items.Pairwise fun first later => later < first)
    (restFalling : rest.Pairwise fun first later => later < first)
    (inItems : ∀ item ∈ rest, item ∈ items)
    (smallest : ∀ item ∈ items, ∀ other ∈ rest, item < other → item ∈ rest) :
    ∃ done, done ++ rest = items ∧ ∀ item ∈ done, item ∉ rest := by
  have outside : ∀ item ∈ items.filter fun item => item ∉ rest,
      item ∈ items ∧ item ∉ rest := by
    intro item member
    obtain ⟨stored, notLeft⟩ := List.mem_filter.mp member
    exact ⟨stored, of_decide_eq_true notLeft⟩
  have together : ((items.filter fun item => item ∉ rest) ++ rest).Pairwise
      fun first later => later < first := by
    refine List.pairwise_append.mpr
      ⟨falling.sublist List.filter_sublist, restFalling, ?_⟩
    intro item member other otherMember
    obtain ⟨stored, notLeft⟩ := outside item member
    rcases lt_trichotomy other item with less | same | greater
    · exact less
    · exact absurd (same ▸ otherMember) notLeft
    · exact absurd (smallest item stored other otherMember greater) notLeft
  have members : ∀ item,
      item ∈ (items.filter fun item => item ∉ rest) ++ rest ↔ item ∈ items := by
    intro item
    rw [List.mem_append, List.mem_filter, decide_eq_true_eq]
    by_cases inRest : item ∈ rest
    · exact iff_of_true (Or.inr inRest) (inItems item inRest)
    · simp only [inRest, not_false_eq_true, and_true, or_false]
  exact ⟨_, List.Pairwise.eq_of_mem_iff (r := (· > ·)) together falling members,
    fun item member => (outside item member).2⟩

end Sorted

end Bright.Lib
