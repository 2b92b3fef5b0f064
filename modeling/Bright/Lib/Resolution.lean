import Mathlib.Data.List.Basic

/-!
# Resolving paths through links

A path is a list of parts that are taken from left to right, each leading to a
place, the list of names from the top.  A link is replaced by its target, at
most as often as the given number of links allows.

`route` records the places that are looked up on the way.  Where a tree is
rearranged by `place`, a path leads to the rearranged place exactly if no name
on its route has become another one (`reached_relocated_iff`).  Names of
directories lead down to the last of them (`routeParts_of_directories`).
-/

namespace Bright.Lib

variable {α : Type*}

/-- A part of a path: `.` or nothing, `..`, or a name. -/
inductive PathPart (α : Type*) where
  | stay
  | up
  | down (name : α)
  deriving DecidableEq, Repr

inductive Kind (α : Type*) where
  | directory
  | file
  | link (absolute : Bool) (target : List (PathPart α))
  deriving DecidableEq, Repr

/-- The places looked up on the way and the place reached. -/
structure Route (α : Type*) where
  visited : List (List α)
  reached : Option (List α)
  deriving DecidableEq, Repr

namespace Route

def arrived (here : List α) : Route α := ⟨[], some here⟩

def failed : Route α := ⟨[], none⟩

/-- The route that looks up `place` first. -/
def through (place : List α) (route : Route α) : Route α :=
  { route with visited := place :: route.visited }

end Route

section Resolve

variable (look : List α → Option (Kind α))

/-- The route over the parts of a path; `follow` continues behind a link. -/
def routeParts (follow : List α → List (PathPart α) → Route α) :
    List α → List (PathPart α) → Route α
  | here, [] => .arrived here
  | here, .stay :: rest => routeParts follow here rest
  | here, .up :: rest => routeParts follow here.dropLast rest
  | here, .down name :: rest =>
      let place := here ++ [name]
      match look place with
      | none => Route.failed.through place
      | some .directory => (routeParts follow place rest).through place
      | some .file =>
          (if rest.isEmpty then .arrived place else .failed : Route α).through
            place
      | some (.link absolute target) =>
          (follow (if absolute then [] else here) (target ++ rest)).through
            place

/-- The route of a path through at most `links` links. -/
def route (links : ℕ) : List α → List (PathPart α) → Route α :=
  match links with
  | 0 => routeParts look fun _ _ => .failed
  | links + 1 => routeParts look (route links)

end Resolve

section Relocate

variable {look after : List α → Option (Kind α)} {place : List α → List α}
  {Kept : List α → Prop}
  {follow followAfter : List α → List (PathPart α) → Route α}
  {here goal : List α} {parts : List (PathPart α)} {links : ℕ}

/-- What a rearrangement of a tree by `place` has to do with the names on the
way: those that are `Kept` are found under `place`, and the others are gone. -/
structure Relocates (look after : List α → Option (Kind α))
    (place : List α → List α) (Kept : List α → Prop) : Prop where
  top : place [] = []
  up : ∀ here, place here.dropLast = (place here).dropLast
  kept : ∀ here name kind, look (here ++ [name]) = some kind →
    Kept (here ++ [name]) →
      place (here ++ [name]) = place here ++ [name] ∧
        after (place here ++ [name]) = some kind
  gone : ∀ here name kind, look (here ++ [name]) = some kind →
    ¬ Kept (here ++ [name]) → after (place here ++ [name]) = none

/-- A route in the rearranged tree next to the one before: it leads to the
rearranged place as long as it meets only kept names, and to nothing else. -/
def Route.Follows (place : List α → List α) (Kept : List α → Prop)
    (before later : Route α) : Prop :=
  ∀ goal, before.reached = some goal →
    ((∀ visited ∈ before.visited, Kept visited) →
      later.reached = some (place goal)) ∧
    ((∃ visited ∈ before.visited, ¬ Kept visited) → later.reached = none)

theorem follows_arrived (here : List α) :
    Route.Follows place Kept (.arrived here) (.arrived (place here)) := by
  intro goal reached
  obtain rfl := Option.some.inj reached
  refine ⟨fun _ => rfl, ?_⟩
  intro lost
  obtain ⟨visited, member, _⟩ := lost
  cases member

theorem follows_failed (later : Route α) :
    Route.Follows place Kept .failed later := by
  intro goal reached
  cases reached

theorem follows_through {visited visitedLater : List α} {before later : Route α}
    (kept : Kept visited) (follows : Route.Follows place Kept before later) :
    Route.Follows place Kept (before.through visited)
      (later.through visitedLater) := by
  intro goal reached
  obtain ⟨arrives, fails⟩ := follows goal reached
  constructor
  · intro allKept
    exact arrives fun other member =>
      allKept other (List.mem_cons_of_mem visited member)
  · intro lost
    obtain ⟨other, member, notKept⟩ := lost
    rcases List.mem_cons.mp member with same | later
    · exact absurd (same ▸ kept) notKept
    · exact fails ⟨other, later, notKept⟩

/-- Where the first name is gone, there is no route. -/
theorem follows_of_gone {visited visitedLater : List α} {before : Route α}
    (notKept : ¬ Kept visited) :
    Route.Follows place Kept (before.through visited)
      (Route.failed.through visitedLater) := by
  intro goal _
  constructor
  · intro allKept
    exact absurd (allKept visited List.mem_cons_self) notKept
  · intro _
    rfl

theorem routeParts_follows (relocates : Relocates look after place Kept)
    (behindLinks : ∀ here parts, Route.Follows place Kept (follow here parts)
      (followAfter (place here) parts))
    (here : List α) (parts : List (PathPart α)) :
    Route.Follows place Kept (routeParts look follow here parts)
      (routeParts after followAfter (place here) parts) := by
  induction parts generalizing here with
  | nil => exact follows_arrived here
  | cons part rest inductionHypothesis =>
      cases part with
      | stay => exact inductionHypothesis here
      | up =>
          rw [routeParts, routeParts, ← relocates.up]
          exact inductionHypothesis here.dropLast
      | down name =>
          rw [routeParts, routeParts]
          cases found : look (here ++ [name]) with
          | none =>
              intro goal reached
              cases reached
          | some kind =>
              by_cases kept : Kept (here ++ [name])
              · obtain ⟨isPlace, foundAfter⟩ :=
                  relocates.kept here name kind found kept
                rw [foundAfter]
                cases kind with
                | directory =>
                    rw [← isPlace]
                    exact follows_through kept
                      (inductionHypothesis (here ++ [name]))
                | file =>
                    rw [← isPlace]
                    apply follows_through kept
                    cases rest with
                    | nil => exact follows_arrived (here ++ [name])
                    | cons next rest => exact follows_failed _
                | link absolute target =>
                    apply follows_through kept
                    cases absolute with
                    | false => exact behindLinks here (target ++ rest)
                    | true =>
                        have fromTop := behindLinks [] (target ++ rest)
                        rw [relocates.top] at fromTop
                        exact fromTop
              · rw [relocates.gone here name kind found kept]
                cases kind with
                | directory => exact follows_of_gone kept
                | file => exact follows_of_gone kept
                | link absolute target => exact follows_of_gone kept

theorem route_follows (relocates : Relocates look after place Kept)
    (links : ℕ) (here : List α) (parts : List (PathPart α)) :
    Route.Follows place Kept (route look links here parts)
      (route after links (place here) parts) := by
  induction links generalizing here parts with
  | zero =>
      exact routeParts_follows relocates (fun _ _ => follows_failed _) here parts
  | succ links inductionHypothesis =>
      exact routeParts_follows relocates inductionHypothesis here parts

/-- A path that leads to a place leads to the rearranged place exactly if all
names on its route are kept. -/
theorem reached_relocated_iff (relocates : Relocates look after place Kept)
    (reached : (route look links here parts).reached = some goal) :
    (route after links (place here) parts).reached = some (place goal) ↔
      ∀ visited ∈ (route look links here parts).visited, Kept visited := by
  obtain ⟨arrives, fails⟩ := route_follows relocates links here parts goal reached
  constructor
  · intro arrived
    by_contra lost
    push Not at lost
    rw [fails lost] at arrived
    cases arrived
  · exact arrives

end Relocate

/-! ### Routes through known places -/

section Known

variable {look : List α → Option (Kind α)}
  {follow : List α → List (PathPart α) → Route α}
  {known : Set (List α)} {here goal names : List α}
  {parts : List (PathPart α)} {links : ℕ}

/-- Names of directories lead down to the last of them. -/
theorem routeParts_of_directories [DecidableEq α]
    (plain : parts.filter (· ≠ .stay) = names.map .down)
    (directories : ∀ front, front ≠ [] → front <+: names →
      look (here ++ front) = some .directory) (rest : List (PathPart α)) :
    (routeParts look follow here (parts ++ rest)).reached =
      (routeParts look follow (here ++ names) rest).reached := by
  induction parts generalizing here names with
  | nil =>
      have none : names = [] := List.map_eq_nil_iff.mp plain.symm
      rw [none, List.append_nil, List.nil_append]
  | cons part parts inductionHypothesis =>
      cases part with
      | stay => exact inductionHypothesis plain directories
      | up =>
          cases names with
          | nil => cases plain
          | cons name names => cases plain
      | down name =>
          cases names with
          | nil => cases plain
          | cons first names =>
              obtain ⟨isFirst, later⟩ := List.cons_eq_cons.mp plain
              cases isFirst
              have isDirectory := directories [name] (List.cons_ne_nil _ _)
                (List.prefix_append [name] names)
              have below : ∀ front, front ≠ [] → front <+: names →
                  look (here ++ [name] ++ front) = some .directory := by
                intro front _ inFront
                rw [List.append_assoc]
                exact directories (name :: front) (List.cons_ne_nil _ _)
                  ((List.prefix_cons_inj name).mpr inFront)
              have behind := inductionHypothesis later below
              rw [List.append_assoc, List.singleton_append] at behind
              rw [List.cons_append, routeParts, isDirectory]
              exact behind

theorem routeParts_mem (top : [] ∈ known)
    (up : ∀ place ∈ known, place.dropLast ∈ known)
    (found : ∀ place, (look place).isSome → place ∈ known)
    (behindLinks : ∀ here parts goal, here ∈ known →
      (follow here parts).reached = some goal → goal ∈ known)
    (start : here ∈ known)
    (reached : (routeParts look follow here parts).reached = some goal) :
    goal ∈ known := by
  induction parts generalizing here with
  | nil => exact Option.some.inj reached ▸ start
  | cons part rest inductionHypothesis =>
      cases part with
      | stay => exact inductionHypothesis start reached
      | up => exact inductionHypothesis (up here start) reached
      | down name =>
          rw [routeParts] at reached
          cases isKind : look (here ++ [name]) with
          | none =>
              rw [isKind] at reached
              cases reached
          | some kind =>
              have place := found (here ++ [name]) (isKind ▸ rfl)
              rw [isKind] at reached
              cases kind with
              | directory => exact inductionHypothesis place reached
              | file =>
                  cases rest with
                  | nil => exact Option.some.inj reached ▸ place
                  | cons next rest => cases reached
              | link absolute target =>
                  apply behindLinks _ _ goal _ reached
                  split_ifs
                  · exact top
                  · exact start

/-- Where a path leads is a known place. -/
theorem route_mem (top : [] ∈ known)
    (up : ∀ place ∈ known, place.dropLast ∈ known)
    (found : ∀ place, (look place).isSome → place ∈ known)
    (start : here ∈ known)
    (reached : (route look links here parts).reached = some goal) :
    goal ∈ known := by
  induction links generalizing here parts goal with
  | zero =>
      apply routeParts_mem top up found _ start reached
      intro here parts goal _ fails
      cases fails
  | succ links inductionHypothesis =>
      exact routeParts_mem top up found
        (fun _ _ _ place leads => inductionHypothesis place leads) start reached

end Known

end Bright.Lib
