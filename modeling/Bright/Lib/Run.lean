import Mathlib.Algebra.BigOperators.Group.List.Basic
import Mathlib.Order.Basic

/-!
# Runs of fallible actions

A system is given by its step function `step : σ → α → Except ε σ`.  An action
that fails leaves the state as it was, so a run is a left fold of `attempt`,
and its `trace` records the actions that succeeded together with the states
around them.

The rules of this module reduce statements about whole runs to one step:
`trace_induction` for a property of the past and the present state,
`reachable_induction` for a state invariant, `measure_run` for a quantity that
each step changes by a known amount, `SinceLast` for what the latest part of
the past determines, and `runAll_simulation` for two systems that run side by
side.
-/

namespace Bright.Lib

universe u

variable {σ τ α ε : Type*}

/-- A sequenced computation succeeds exactly when both parts do. -/
theorem bind_eq_ok_iff {β γ : Type u} {x : Except ε β} {f : β → Except ε γ}
    {c : γ} :
    (x >>= f) = .ok c ↔ ∃ b, x = .ok b ∧ f b = .ok c := by
  cases x <;> simp [bind, Except.bind]

/-- A sequenced computation fails in its first or in its second part. -/
theorem bind_eq_error_iff {β γ : Type u} {x : Except ε β} {f : β → Except ε γ}
    {failure : ε} :
    (x >>= f) = .error failure ↔
      x = .error failure ∨ ∃ b, x = .ok b ∧ f b = .error failure := by
  cases x <;> simp [bind, Except.bind]

/-- One successful action with the states around it. -/
structure Transition (σ α : Type*) where
  before : σ
  action : α
  after : σ

section Rollback

variable (step : σ → α → Except ε σ)

/-- Try an action; a failing action is rolled back. -/
def attempt (state : σ) (action : α) : σ :=
  match step state action with
  | .ok next => next
  | .error _ => state

/-- The state after trying all the actions in order. -/
def run (state : σ) (actions : List α) : σ :=
  actions.foldl (attempt step) state

/-- The successful actions of a run, in order, with the states around them. -/
def trace : σ → List α → List (Transition σ α)
  | _, [] => []
  | state, action :: rest =>
      match step state action with
      | .ok next => ⟨state, action, next⟩ :: trace next rest
      | .error _ => trace state rest

/-- The successful actions of a run, in order. -/
def log (state : σ) (actions : List α) : List α :=
  (trace step state actions).map Transition.action

/-- A run in which every action has to succeed. -/
def runAll (state : σ) (actions : List α) : Except ε σ :=
  actions.foldlM step state

/-- The states that some run from `start` ends in. -/
def Reachable (start state : σ) : Prop :=
  ∃ actions, run step start actions = state

end Rollback

variable {step : σ → α → Except ε σ} {start state next : σ}
  {action : α} {actions : List α}

@[simp]
theorem run_nil : run step state [] = state := rfl

theorem run_cons_ok (done : step state action = .ok next) :
    run step state (action :: actions) = run step next actions := by
  simp [run, attempt, done]

theorem run_cons_error {failure : ε} (failed : step state action = .error failure) :
    run step state (action :: actions) = run step state actions := by
  simp [run, attempt, failed]

theorem trace_cons_ok (done : step state action = .ok next) :
    trace step state (action :: actions) =
      ⟨state, action, next⟩ :: trace step next actions := by
  simp [trace, done]

theorem trace_cons_error {failure : ε} (failed : step state action = .error failure) :
    trace step state (action :: actions) = trace step state actions := by
  simp [trace, failed]

theorem run_append (earlier later : List α) :
    run step state (earlier ++ later) =
      run step (run step state earlier) later := by
  simp [run]

/-- Every recorded transition is a step. -/
theorem step_of_mem_trace {transition : Transition σ α}
    (member : transition ∈ trace step state actions) :
    step transition.before transition.action = .ok transition.after := by
  induction actions generalizing state with
  | nil => simp [trace] at member
  | cons action rest inductionHypothesis =>
      cases result : step state action with
      | error failure =>
          rw [trace_cons_error result] at member
          exact inductionHypothesis member
      | ok next =>
          rw [trace_cons_ok result] at member
          rcases List.mem_cons.mp member with rfl | later
          · exact result
          · exact inductionHypothesis later

/-- A property of the past and the present state that holds at the start and
is kept by every step holds at the end of every run. -/
theorem trace_induction {P : List (Transition σ α) → σ → Prop}
    (atStart : P [] start)
    (atStep : ∀ past state action next, P past state →
      step state action = .ok next → P (past ++ [⟨state, action, next⟩]) next)
    (actions : List α) :
    P (trace step start actions) (run step start actions) := by
  suffices general : ∀ (actions : List α) (past : List (Transition σ α))
      (state : σ), P past state →
        P (past ++ trace step state actions) (run step state actions) by
    simpa using general actions [] start atStart
  intro actions
  induction actions with
  | nil =>
      intro past state holds
      simpa [trace] using holds
  | cons action rest inductionHypothesis =>
      intro past state holds
      cases result : step state action with
      | error failure =>
          rw [trace_cons_error result, run_cons_error result]
          exact inductionHypothesis past state holds
      | ok next =>
          rw [trace_cons_ok result, run_cons_ok result]
          rw [List.append_cons]
          exact inductionHypothesis (past ++ [⟨state, action, next⟩])
            next (atStep past state action next holds result)

/-- The log of a run only holds actions that were tried. -/
theorem mem_of_mem_log (member : action ∈ log step state actions) :
    action ∈ actions := by
  induction actions generalizing state with
  | nil => cases member
  | cons first rest inductionHypothesis =>
      cases result : step state first with
      | error failure =>
          rw [log, trace_cons_error result] at member
          exact List.mem_cons_of_mem first (inductionHypothesis member)
      | ok next =>
          rw [log, trace_cons_ok result, List.map_cons] at member
          rcases List.mem_cons.mp member with same | later
          · rw [same]
            exact List.mem_cons_self
          · exact List.mem_cons_of_mem first (inductionHypothesis later)

/-! ### Reachable states -/

theorem reachable_start : Reachable step start start := ⟨[], rfl⟩

theorem reachable_run (actions : List α) :
    Reachable step start (run step start actions) := ⟨actions, rfl⟩

theorem reachable_step (reached : Reachable step start state)
    (done : step state action = .ok next) : Reachable step start next := by
  obtain ⟨actions, rfl⟩ := reached
  refine ⟨actions ++ [action], ?_⟩
  rw [run_append, run_cons_ok done, run_nil]

/-- An invariant of the start state and of every step holds in every reachable
state. -/
theorem reachable_induction {Inv : σ → Prop} (atStart : Inv start)
    (atStep : ∀ state action next, Inv state →
      step state action = .ok next → Inv next)
    (reached : Reachable step start state) : Inv state := by
  obtain ⟨actions, rfl⟩ := reached
  exact trace_induction (P := fun _ state => Inv state) atStart
    (fun _ state action next => atStep state action next) actions

/-- A run only passes through reachable states. -/
theorem reachable_before_of_mem_trace {transition : Transition σ α}
    (member : transition ∈ trace step start actions) :
    Reachable step start transition.before := by
  have base :
      Reachable step start start ∧
        ∀ transition ∈ ([] : List (Transition σ α)),
          Reachable step start transition.before :=
    ⟨reachable_start, by simp⟩
  have both :
      Reachable step start (run step start actions) ∧
        ∀ transition ∈ trace step start actions,
          Reachable step start transition.before := by
    refine trace_induction
      (P := fun past state => Reachable step start state ∧
        ∀ transition ∈ past, Reachable step start transition.before)
      base ?_ actions
    intro past state action next holds done
    refine ⟨reachable_step holds.1 done, ?_⟩
    intro transition member
    rcases List.mem_append.mp member with earlier | last
    · exact holds.2 transition earlier
    · rw [List.mem_singleton.mp last]
      exact holds.1
  exact both.2 transition member

/-- A quantity that every step of a run changes by `change` has, at the end,
changed by the sum of the changes. -/
theorem measure_run {M : Type*} [AddCommMonoid M]
    {measure : σ → M} {change : Transition σ α → M}
    (eachStep : ∀ transition ∈ trace step state actions,
      measure transition.after = measure transition.before + change transition) :
    measure (run step state actions) =
      measure state + ((trace step state actions).map change).sum := by
  induction actions generalizing state with
  | nil => simp [trace]
  | cons action rest inductionHypothesis =>
      cases result : step state action with
      | error failure =>
          rw [trace_cons_error result] at eachStep
          rw [trace_cons_error result, run_cons_error result]
          exact inductionHypothesis eachStep
      | ok next =>
          rw [trace_cons_ok result] at eachStep
          rw [trace_cons_ok result, run_cons_ok result]
          have first := eachStep ⟨state, action, next⟩ List.mem_cons_self
          have others := inductionHypothesis fun transition member =>
            eachStep transition (List.mem_cons_of_mem _ member)
          rw [others, List.map_cons, List.sum_cons, ← add_assoc]
          exact congrArg (· + _) first

/-! ### The past since an event -/

/-- The past splits at an event with `starts`; none of the later events has
`resets`, and together they satisfy `holds`. -/
def SinceLast (starts resets : α → Prop) (holds : List α → Prop)
    (past : List α) : Prop :=
  ∃ earlier first later, past = earlier ++ first :: later ∧ starts first ∧
    (∀ event ∈ later, ¬ resets event) ∧ holds later

namespace SinceLast

variable {starts resets : α → Prop} {holds holdsNext : List α → Prop}
  {past : List α} {event : α}

/-- A starting event has nothing behind it. -/
theorem of_starts (started : starts event) (nothing : holds []) :
    SinceLast starts resets holds (past ++ [event]) := by
  refine ⟨past, event, [], rfl, started, ?_, nothing⟩
  intro later absent
  cases absent

/-- An event that does not reset extends what lies behind the split. -/
theorem append (since : SinceLast starts resets holds past)
    (keeps : ¬ resets event)
    (extended : ∀ later, holds later → holdsNext (later ++ [event])) :
    SinceLast starts resets holdsNext (past ++ [event]) := by
  obtain ⟨earlier, first, later, rfl, started, none, holding⟩ := since
  refine ⟨earlier, first, later ++ [event], ?_, started, ?_,
    extended later holding⟩
  · rw [List.append_assoc, List.cons_append]
  · intro recent member
    rcases List.mem_append.mp member with old | last
    · exact none recent old
    · rw [List.mem_singleton.mp last]
      exact keeps

end SinceLast

/-! ### Runs without failures -/

@[simp]
theorem runAll_nil : runAll step state [] = .ok state := rfl

theorem runAll_cons_eq_ok_iff {final : σ} :
    runAll step state (action :: actions) = .ok final ↔
      ∃ next, step state action = .ok next ∧
        runAll step next actions = .ok final := by
  rw [runAll, List.foldlM_cons, bind_eq_ok_iff]
  rfl

theorem runAll_cons_eq_error_iff {failure : ε} :
    runAll step state (action :: actions) = .error failure ↔
      step state action = .error failure ∨
        ∃ next, step state action = .ok next ∧
          runAll step next actions = .error failure := by
  rw [runAll, List.foldlM_cons, bind_eq_error_iff]
  rfl

theorem runAll_map {β : Type*} {decode : β → α} {codes : List β} :
    runAll step state (codes.map decode) =
      runAll (fun state code => step state (decode code)) state codes := by
  rw [runAll, List.foldlM_map]
  rfl

/-- A relation that every step of the first system carries to the second one
is carried along whole runs. -/
theorem runAll_simulation {step' : τ → α → Except ε τ} {R : σ → τ → Prop}
    {Allowed : α → Prop}
    (eachStep : ∀ state state' action next, R state state' → Allowed action →
      step state action = .ok next →
        ∃ next', step' state' action = .ok next' ∧ R next next')
    {state' : τ} {final : σ} (related : R state state')
    (allowed : ∀ action ∈ actions, Allowed action)
    (ran : runAll step state actions = .ok final) :
    ∃ final', runAll step' state' actions = .ok final' ∧ R final final' := by
  induction actions generalizing state state' with
  | nil =>
      rw [runAll_nil, Except.ok.injEq] at ran
      subst ran
      exact ⟨state', rfl, related⟩
  | cons action rest inductionHypothesis =>
      obtain ⟨next, done, continued⟩ := runAll_cons_eq_ok_iff.mp ran
      obtain ⟨next', done', related'⟩ :=
        eachStep state state' action next related
          (allowed action List.mem_cons_self) done
      obtain ⟨final', ran', finalRelated⟩ := inductionHypothesis related'
        (fun later member => allowed later (List.mem_cons_of_mem _ member))
        continued
      exact ⟨final',
        runAll_cons_eq_ok_iff.mpr ⟨next', done', ran'⟩, finalRelated⟩

/-- A quantity that every action changes by a known amount has, at the end,
changed by the sum of these amounts. -/
theorem measure_runAll {M : Type*} [AddCommMonoid M] (measure : σ → M)
    (change : α → M) {final : σ}
    (eachStep : ∀ action ∈ actions, ∀ state next,
      step state action = .ok next →
        measure next = measure state + change action)
    (ran : runAll step state actions = .ok final) :
    measure final = measure state + (actions.map change).sum := by
  induction actions generalizing state with
  | nil =>
      rw [runAll_nil, Except.ok.injEq] at ran
      simp [ran]
  | cons action rest inductionHypothesis =>
      obtain ⟨next, done, continued⟩ := runAll_cons_eq_ok_iff.mp ran
      have later := inductionHypothesis
        (fun action member => eachStep action (List.mem_cons_of_mem _ member))
        continued
      rw [later, eachStep action List.mem_cons_self state next done,
        List.map_cons, List.sum_cons, add_assoc]

/-- What every action leaves behind holds at the end. -/
theorem of_runAll {P : σ → Prop} {final : σ}
    (eachStep : ∀ action ∈ actions, ∀ state next,
      step state action = .ok next → P next)
    (nonempty : actions ≠ []) (ran : runAll step state actions = .ok final) :
    P final := by
  induction actions generalizing state with
  | nil => exact absurd rfl nonempty
  | cons action rest inductionHypothesis =>
      obtain ⟨next, done, continued⟩ := runAll_cons_eq_ok_iff.mp ran
      by_cases last : rest = []
      · subst last
        rw [runAll_nil, Except.ok.injEq] at continued
        subst continued
        exact eachStep action List.mem_cons_self state next done
      · exact inductionHypothesis
          (fun action member => eachStep action (List.mem_cons_of_mem _ member))
          last continued

/-- What a step needs of its action holds of every action of the run. -/
theorem forall_of_runAll {P : α → Prop} {final : σ}
    (eachStep : ∀ action state next, step state action = .ok next → P action)
    (ran : runAll step state actions = .ok final) :
    ∀ action ∈ actions, P action := by
  induction actions generalizing state with
  | nil =>
      intro action member
      cases member
  | cons first rest inductionHypothesis =>
      obtain ⟨next, done, continued⟩ := runAll_cons_eq_ok_iff.mp ran
      intro action member
      rcases List.mem_cons.mp member with rfl | later
      · exact eachStep action state next done
      · exact inductionHypothesis continued action later

/-! ### Folds that only rise -/

theorem rank_le_foldl {β : Type*} [Preorder β] {rank : σ → β}
    {update : σ → α → σ}
    (rises : ∀ action ∈ actions, ∀ state,
      rank state ≤ rank (update state action)) (state : σ) :
    rank state ≤ rank (actions.foldl update state) := by
  induction actions generalizing state with
  | nil => exact le_refl (rank state)
  | cons first rest inductionHypothesis =>
      rw [List.foldl_cons]
      exact (rises first List.mem_cons_self state).trans
        (inductionHypothesis (fun action member =>
          rises action (List.mem_cons_of_mem first member)) _)

/-- A fold of which no step goes down ends where it started only if no step
changes anything. -/
theorem step_eq_of_foldl_eq {β : Type*} [PartialOrder β] {rank : σ → β}
    (injective : rank.Injective) {update : σ → α → σ}
    (rises : ∀ action ∈ actions, ∀ state,
      rank state ≤ rank (update state action))
    (returns : actions.foldl update state = state) :
    ∀ action ∈ actions, update state action = state := by
  induction actions with
  | nil =>
      intro action member
      cases member
  | cons first rest inductionHypothesis =>
      have restRises : ∀ action ∈ rest, ∀ state,
          rank state ≤ rank (update state action) := fun action member =>
        rises action (List.mem_cons_of_mem first member)
      have up := rises first List.mem_cons_self state
      have further := rank_le_foldl restRises (update state first)
      rw [List.foldl_cons] at returns
      rw [returns] at further
      have stays := injective (le_antisymm further up)
      rw [stays] at returns
      intro action member
      rcases List.mem_cons.mp member with rfl | later
      · exact stays
      · exact inductionHypothesis restRises returns action later

end Bright.Lib
