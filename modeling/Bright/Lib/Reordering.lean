import Bright.Lib.Run
import Mathlib.Data.List.Perm.Basic
import Mathlib.Data.Set.Insert

/-!
# Reordering actions

One list of actions is a reordering of another if both hold the same actions and
any two actions that depend on each other come in the same order.  Where all
other actions can be exchanged, a run and its reorderings end in the same state,
and the same actions succeed in them (`run_of_reordering`).

Actions can be exchanged if neither reads or writes a place that the other one
changes; at a place that neither of them reads, both may add something
(`Footprint.exchangeable`).
-/

namespace Bright.Lib

/-! ### Reorderings -/

section Reorderings

variable {α : Type*} [DecidableEq α]

/-- The same actions, those that depend on each other in the same order. -/
structure Reordering (Dependent : α → α → Prop) (actions reordered : List α) :
    Prop where
  perm : actions.Perm reordered
  order : ∀ left right, Dependent left right →
    actions.filter (fun action => action = left ∨ action = right) =
      reordered.filter (fun action => action = left ∨ action = right)

variable {Dependent : α → α → Prop} {actions reordered : List α} {action : α}

/-- Two neighbours that do not depend on each other change places. -/
theorem reordering_swap {first second : α} (earlier later : List α)
    (independent : ¬ Dependent first second)
    (independentBack : ¬ Dependent second first) :
    Reordering Dependent (earlier ++ first :: second :: later)
      (earlier ++ second :: first :: later) where
  perm := (List.Perm.swap second first later).append_left earlier
  order := by
    intro left right depends
    simp only [List.filter_append, List.filter_cons, decide_eq_true_eq]
    split_ifs with isFirst isSecond
    · rcases isFirst with rfl | rfl <;> rcases isSecond with rfl | rfl
      · rfl
      · exact absurd depends independent
      · exact absurd depends independentBack
      · rfl
    · rfl
    · rfl
    · rfl

/-- The first action comes later in a reordering, behind actions that do not
depend on it. -/
theorem Reordering.exists_first
    (reorders : Reordering Dependent (action :: actions) reordered) :
    ∃ before behind, reordered = before ++ action :: behind ∧
      (∀ other ∈ before, ¬ Dependent action other ∧ ¬ Dependent other action) ∧
      Reordering Dependent actions (before ++ behind) := by
  obtain ⟨before, behind, rfl, absent⟩ := List.eq_append_cons_of_mem
    (reorders.perm.subset List.mem_cons_self)
  -- A dependent action in front would come first among the two.
  have noneOf : ∀ (P : α → Prop) [DecidablePred P], P action →
      (action :: actions).filter (fun other => P other) =
        (before ++ action :: behind).filter (fun other => P other) →
      before.filter (fun other => P other) = [] := by
    intro P _ isOne same
    rw [List.filter_cons_of_pos (by simpa using isOne), List.filter_append] at same
    cases front : before.filter fun other => P other with
    | nil => rfl
    | cons head rest =>
        rw [front] at same
        have isHead := (List.cons.inj same).1
        have member : head ∈ before.filter fun other => P other := by
          rw [front]
          exact List.mem_cons_self
        exact absurd (isHead ▸ List.mem_of_mem_filter member) absent
  have independent : ∀ other ∈ before,
      ¬ Dependent action other ∧ ¬ Dependent other action := by
    intro other member
    constructor
    · intro depends
      have none := noneOf (fun c => c = action ∨ c = other) (Or.inl rfl)
        (reorders.order action other depends)
      exact List.filter_eq_nil_iff.mp none other member (by simp)
    · intro depends
      have none := noneOf (fun c => c = other ∨ c = action) (Or.inr rfl)
        (reorders.order other action depends)
      exact List.filter_eq_nil_iff.mp none other member (by simp)
  refine ⟨before, behind, rfl, independent, ?_, ?_⟩
  · exact (reorders.perm.trans List.perm_middle).cons_inv
  · intro left right depends
    have same := reorders.order left right depends
    by_cases isOne : action = left ∨ action = right
    · have none := noneOf (fun c => c = left ∨ c = right) isOne same
      rw [List.filter_append, List.filter_cons_of_pos (by simpa using isOne),
        List.filter_cons_of_pos (by simpa using isOne), none] at same
      rw [List.filter_append, none]
      exact (List.cons.inj same).2
    · rw [List.filter_append, List.filter_cons_of_neg (by simpa using isOne),
        List.filter_cons_of_neg (by simpa using isOne)] at same
      rw [List.filter_append, same]

end Reorderings

/-! ### Exchanging actions -/

section Exchange

variable {σ α ε : Type*} {step : σ → α → Except ε σ} {Inv : σ → Prop}
  {state next : σ} {action other : α} {actions : List α}

theorem attempt_of_ok (done : step state action = .ok next) :
    attempt step state action = next := by
  rw [attempt, done]

theorem attempt_of_error {failure : ε}
    (failed : step state action = .error failure) :
    attempt step state action = state := by
  rw [attempt, failed]

theorem run_cons (state : σ) (action : α) (actions : List α) :
    run step state (action :: actions) =
      run step (attempt step state action) actions := rfl

theorem log_cons (state : σ) (action : α) (actions : List α) :
    log step state (action :: actions) =
      if (step state action).isOk then
        action :: log step (attempt step state action) actions
      else
        log step (attempt step state action) actions := by
  cases result : step state action with
  | ok next =>
      rw [log, trace_cons_ok result, attempt_of_ok result]
      rfl
  | error failure =>
      rw [log, trace_cons_error result, attempt_of_error result]
      rfl

/-- In states with `Inv`, each of two actions succeeds behind the other one
exactly if it succeeds without it, and both orders lead to one state. -/
structure Exchangeable (step : σ → α → Except ε σ) (Inv : σ → Prop)
    (action other : α) : Prop where
  state : ∀ state, Inv state →
    attempt step (attempt step state action) other =
      attempt step (attempt step state other) action
  verdict : ∀ state, Inv state →
    (step (attempt step state other) action).isOk = (step state action).isOk
  otherVerdict : ∀ state, Inv state →
    (step (attempt step state action) other).isOk = (step state other).isOk

/-- An action moves to the front over actions that it can be exchanged with. -/
theorem run_move_front
    (keeps : ∀ state action, Inv state → Inv (attempt step state action))
    {before : List α} (behind : List α)
    (exchange : ∀ other ∈ before, Exchangeable step Inv action other)
    (invariant : Inv state) :
    run step state (before ++ action :: behind) =
        run step state (action :: (before ++ behind)) ∧
      (log step state (before ++ action :: behind)).Perm
        (log step state (action :: (before ++ behind))) := by
  induction before generalizing state with
  | nil => exact ⟨rfl, List.Perm.refl _⟩
  | cons other before inductionHypothesis =>
      rw [List.forall_mem_cons] at exchange
      obtain ⟨first, rest⟩ := exchange
      obtain ⟨sameEnd, sameLog⟩ :=
        inductionHypothesis rest (keeps state other invariant)
      have sameState := first.state state invariant
      constructor
      · rw [List.cons_append, List.cons_append, run_cons, sameEnd, run_cons,
          run_cons, run_cons, sameState]
      · rw [List.cons_append, List.cons_append, log_cons, log_cons, log_cons,
          first.otherVerdict state invariant, sameState]
        rw [log_cons, first.verdict state invariant] at sameLog
        by_cases succeeds : (step state other).isOk
        · rw [if_pos succeeds, if_pos succeeds]
          split_ifs at sameLog ⊢
          · exact (sameLog.cons other).trans (List.Perm.swap _ _ _)
          · exact sameLog.cons other
        · rw [if_neg succeeds, if_neg succeeds]
          exact sameLog

/-- Where all actions that do not depend on each other can be exchanged, a
reordering of a run ends in the same state and the same actions succeed in it. -/
theorem run_of_reordering [DecidableEq α] {Dependent : α → α → Prop}
    (keeps : ∀ state action, Inv state → Inv (attempt step state action))
    (exchange : ∀ action other, ¬ Dependent action other →
      ¬ Dependent other action → Exchangeable step Inv action other)
    {reordered : List α} (reorders : Reordering Dependent actions reordered)
    (invariant : Inv state) :
    run step state actions = run step state reordered ∧
      (log step state actions).Perm (log step state reordered) := by
  induction actions generalizing state reordered with
  | nil =>
      rw [List.nil_perm.mp reorders.perm]
      exact ⟨rfl, List.Perm.refl _⟩
  | cons action actions inductionHypothesis =>
      obtain ⟨before, behind, rfl, independent, rest⟩ := reorders.exists_first
      obtain ⟨sameEnd, sameLog⟩ := run_move_front keeps behind
        (fun other member => exchange action other (independent other member).1
          (independent other member).2) invariant
      obtain ⟨restEnd, restLog⟩ :=
        inductionHypothesis rest (keeps state action invariant)
      rw [sameEnd, run_cons, run_cons]
      refine ⟨restEnd, List.Perm.trans ?_ sameLog.symm⟩
      rw [log_cons, log_cons]
      split_ifs
      · exact restLog.cons action
      · exact restLog

end Exchange

/-! ### Footprints -/

section Footprints

variable {σ α ε ι : Type*} {β : ι → Type*}

/-- What the actions have to do with the places of a state.  Whether an action
succeeds, and what it writes, is decided by the places that it reads; what it
does not write, it changes by `adds`. -/
structure Footprint (step : σ → α → Except ε σ) (Inv : σ → Prop)
    (view : σ → ∀ place, β place) (reads writes : α → Set ι)
    (adds : α → ∀ place, β place → β place) : Prop where
  keeps : ∀ state action next, Inv state → step state action = .ok next → Inv next
  determined : ∀ state other, Inv state → Inv other →
    (∀ place, view state place = view other place) → state = other
  frame : ∀ state action next, Inv state → step state action = .ok next →
    ∀ place, place ∉ writes action →
      view next place = adds action place (view state place)
  locality : ∀ state other action next, Inv state → Inv other →
    (∀ place ∈ reads action, view state place = view other place) →
    step state action = .ok next → ∃ otherNext, step other action = .ok otherNext ∧
      ∀ place ∈ writes action, view next place = view otherNext place
  commute : ∀ action other place value,
    adds action place (adds other place value) =
      adds other place (adds action place value)

/-- What an action reads or writes, another one leaves alone. -/
def Undisturbed (reads writes : α → Set ι)
    (adds : α → ∀ place, β place → β place) (action other : α) : Prop :=
  ∀ place, place ∈ reads action ∨ place ∈ writes action →
    place ∉ writes other ∧ ∀ value, adds other place value = value

namespace Footprint

variable {step : σ → α → Except ε σ} {Inv : σ → Prop}
  {view : σ → ∀ place, β place} {reads writes : α → Set ι}
  {adds : α → ∀ place, β place → β place} {state next : σ} {action other : α}

theorem inv_attempt (footprint : Footprint step Inv view reads writes adds)
    (state : σ) (action : α) (invariant : Inv state) :
    Inv (attempt step state action) := by
  cases result : step state action with
  | ok next =>
      rw [attempt_of_ok result]
      exact footprint.keeps state action next invariant result
  | error failure =>
      rw [attempt_of_error result]
      exact invariant

/-- A place that an action does not see is as it was. -/
theorem view_undisturbed (footprint : Footprint step Inv view reads writes adds)
    (undisturbed : Undisturbed reads writes adds action other)
    (invariant : Inv state) (done : step state other = .ok next) {place : ι}
    (known : place ∈ reads action ∨ place ∈ writes action) :
    view next place = view state place := by
  obtain ⟨notWritten, nothing⟩ := undisturbed place known
  rw [footprint.frame state other next invariant done place notWritten, nothing]

/-- Behind an action that leaves it alone, an action succeeds as before. -/
theorem isOk_behind (footprint : Footprint step Inv view reads writes adds)
    (undisturbed : Undisturbed reads writes adds action other)
    (invariant : Inv state) :
    (step (attempt step state other) action).isOk = (step state action).isOk := by
  cases result : step state other with
  | error failure => rw [attempt_of_error result]
  | ok next =>
      rw [attempt_of_ok result]
      have nextInv := footprint.keeps state other next invariant result
      have same : ∀ place ∈ reads action, view next place = view state place :=
        fun place isRead => footprint.view_undisturbed undisturbed invariant result
          (Or.inl isRead)
      cases atNext : step next action with
      | ok after =>
          obtain ⟨before, done, -⟩ := footprint.locality next state action after
            nextInv invariant same atNext
          rw [done]
          rfl
      | error failure =>
          cases atState : step state action with
          | error failure => rfl
          | ok before =>
              obtain ⟨after, done, -⟩ := footprint.locality state next action
                before invariant nextInv
                (fun place isRead => (same place isRead).symm) atState
              rw [atNext] at done
              exact nomatch done

/-- Where an action fails, it fails behind the other one as well. -/
theorem attempt_behind_of_error
    (footprint : Footprint step Inv view reads writes adds)
    (undisturbed : Undisturbed reads writes adds action other)
    (invariant : Inv state) {failure : ε}
    (failed : step state action = .error failure) :
    attempt step (attempt step state other) action = attempt step state other := by
  have verdict := footprint.isOk_behind undisturbed invariant
  rw [failed] at verdict
  cases result : step (attempt step state other) action with
  | error failure => exact attempt_of_error result
  | ok next =>
      rw [result] at verdict
      exact nomatch verdict

theorem exchangeable (footprint : Footprint step Inv view reads writes adds)
    (undisturbed : Undisturbed reads writes adds action other)
    (otherUndisturbed : Undisturbed reads writes adds other action) :
    Exchangeable step Inv action other where
  verdict := fun state invariant => footprint.isOk_behind undisturbed invariant
  otherVerdict := fun state invariant =>
    footprint.isOk_behind otherUndisturbed invariant
  state := by
    intro state invariant
    cases first : step state action with
    | error failure =>
        rw [attempt_of_error first,
          footprint.attempt_behind_of_error undisturbed invariant first]
    | ok next =>
        cases second : step state other with
        | error failure =>
            rw [attempt_of_error second,
              footprint.attempt_behind_of_error otherUndisturbed invariant second]
        | ok otherNext =>
            have nextInv := footprint.keeps state action next invariant first
            have otherInv := footprint.keeps state other otherNext invariant second
            obtain ⟨later, laterDone, laterWrites⟩ := footprint.locality state next
              other otherNext invariant nextInv
              (fun place isRead => (footprint.view_undisturbed otherUndisturbed
                invariant first (Or.inl isRead)).symm) second
            obtain ⟨otherLater, otherDone, otherWrites⟩ := footprint.locality state
              otherNext action next invariant otherInv
              (fun place isRead => (footprint.view_undisturbed undisturbed
                invariant second (Or.inl isRead)).symm) first
            rw [attempt_of_ok first, attempt_of_ok second,
              attempt_of_ok laterDone, attempt_of_ok otherDone]
            refine footprint.determined _ _
              (footprint.keeps next other later nextInv laterDone)
              (footprint.keeps otherNext action otherLater otherInv otherDone)
              fun place => ?_
            by_cases written : place ∈ writes action
            · rw [← otherWrites place written]
              exact footprint.view_undisturbed undisturbed nextInv laterDone
                (Or.inr written)
            · by_cases otherWritten : place ∈ writes other
              · rw [← laterWrites place otherWritten]
                exact (footprint.view_undisturbed otherUndisturbed otherInv
                  otherDone (Or.inr otherWritten)).symm
              · rw [footprint.frame next other later nextInv laterDone place
                    otherWritten,
                  footprint.frame state action next invariant first place written,
                  footprint.frame otherNext action otherLater otherInv otherDone
                    place written,
                  footprint.frame state other otherNext invariant second place
                    otherWritten]
                exact footprint.commute other action place _

end Footprint

end Footprints

end Bright.Lib
