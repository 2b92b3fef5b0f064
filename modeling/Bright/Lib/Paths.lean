import Mathlib.Data.List.Basic
import Mathlib.Data.List.Infix
import Mathlib.Data.List.Lex
import Mathlib.Data.Set.Basic

/-!
# Paths in a tree

A path is the list of the names that lead to a node.  `moved old new` says where
a path goes when the subtree at `old` is moved to `new`.  `relabel σ done` says
where a path goes when the last names of the paths in `done` have been replaced
by their images under `σ`.

Where `σ` is idempotent and separates siblings, different paths stay different
(`relabel_injOn`).  So moving a node whose ancestors have not been relabelled to
its new name meets no other path (`relabel_free`) and relabels one path more
(`relabel_cons_eq_moved`).
-/

namespace Bright.Lib

variable {α : Type*} [DecidableEq α]

/-- What becomes of a path when `old` is moved to `new`. -/
def moved (old new path : List α) : List α :=
  if old.isPrefixOf path then new ++ path.drop old.length else path

/-- The names of `path`, of which `above` leads to the first. -/
def relabelBelow (σ : α → α) (done : List (List α)) (above : List α) :
    List α → List α
  | [] => []
  | name :: rest =>
      (if done.contains (above ++ [name]) then σ name else name) ::
        relabelBelow σ done (above ++ [name]) rest

/-- Apply `σ` to the names whose paths are in `done`. -/
def relabel (σ : α → α) (done : List (List α)) (path : List α) : List α :=
  relabelBelow σ done [] path

variable {σ : α → α} {done : List (List α)} {old new path other : List α}
  {name : α}

/-! ### Moving -/

theorem moved_append (old new rest : List α) :
    moved old new (old ++ rest) = new ++ rest := by
  have below : old.isPrefixOf (old ++ rest) :=
    List.isPrefixOf_iff_prefix.mpr (List.prefix_append old rest)
  rw [moved, if_pos below, List.drop_left]

theorem moved_of_notBelow (notBelow : ¬ old <+: path) :
    moved old new path = path :=
  if_neg fun below => notBelow (List.isPrefixOf_iff_prefix.mp below)

theorem moved_self (old path : List α) : moved old old path = path := by
  by_cases below : old <+: path
  · obtain ⟨rest, rfl⟩ := below
    exact moved_append old old rest
  · exact moved_of_notBelow below

/-- Apart from what is below `new`, different paths go to different places. -/
theorem moved_inj (notBelow : ¬ new <+: path) (otherNotBelow : ¬ new <+: other)
    (same : moved old new path = moved old new other) : path = other := by
  by_cases below : old <+: path
  · obtain ⟨rest, rfl⟩ := below
    rw [moved_append] at same
    by_cases otherBelow : old <+: other
    · obtain ⟨otherRest, rfl⟩ := otherBelow
      rw [moved_append] at same
      rw [List.append_cancel_left same]
    · rw [moved_of_notBelow otherBelow] at same
      exact absurd ⟨rest, same⟩ otherNotBelow
  · rw [moved_of_notBelow below] at same
    by_cases otherBelow : old <+: other
    · obtain ⟨otherRest, rfl⟩ := otherBelow
      rw [moved_append] at same
      exact absurd ⟨otherRest, same.symm⟩ notBelow
    · rw [moved_of_notBelow otherBelow] at same
      exact same

/-! ### Relabelling -/

theorem relabelBelow_append (above path rest : List α) :
    relabelBelow σ done above (path ++ rest) =
      relabelBelow σ done above path ++
        relabelBelow σ done (above ++ path) rest := by
  induction path generalizing above with
  | nil => rw [List.nil_append, List.append_nil]; rfl
  | cons name path inductionHypothesis =>
      rw [List.cons_append, relabelBelow, relabelBelow, inductionHypothesis,
        List.append_assoc, List.singleton_append, List.cons_append]

theorem relabel_append (path rest : List α) :
    relabel σ done (path ++ rest) =
      relabel σ done path ++ relabelBelow σ done path rest := by
  rw [relabel, relabelBelow_append, List.nil_append, relabel]

theorem relabel_concat (path : List α) (name : α) :
    relabel σ done (path ++ [name]) =
      relabel σ done path ++
        [if done.contains (path ++ [name]) then σ name else name] :=
  relabel_append path [name]

@[simp]
theorem length_relabelBelow (above path : List α) :
    (relabelBelow σ done above path).length = path.length := by
  induction path generalizing above with
  | nil => rfl
  | cons name path inductionHypothesis =>
      rw [relabelBelow, List.length_cons, List.length_cons, inductionHypothesis]

@[simp]
theorem length_relabel (path : List α) :
    (relabel σ done path).length = path.length :=
  length_relabelBelow [] path

/-- The part of a path that goes to a prefix of its new place. -/
theorem exists_prefix_relabel (below : other <+: relabel σ done path) :
    ∃ above, above <+: path ∧ relabel σ done above = other := by
  refine ⟨path.take other.length, List.take_prefix _ _, ?_⟩
  have split : relabel σ done path =
      relabel σ done (path.take other.length) ++
        relabelBelow σ done (path.take other.length)
          (path.drop other.length) := by
    rw [← relabel_append, List.take_append_drop]
  have short : other.length ≤ path.length := by
    have bound := below.length_le
    rwa [length_relabel] at bound
  have sameLength :
      other.length = (relabel σ done (path.take other.length)).length := by
    rw [length_relabel, List.length_take, Nat.min_eq_left short]
  obtain ⟨rest, shape⟩ := below
  exact (List.append_inj_left (shape.trans split) sameLength).symm

/-- Relabelling asks only whether the parts of a path are done. -/
theorem relabelBelow_congr {done' : List (List α)} (above : List α)
    (sameDone : ∀ part, part ≠ [] → part <+: path →
      (above ++ part ∈ done ↔ above ++ part ∈ done')) :
    relabelBelow σ done above path = relabelBelow σ done' above path := by
  induction path generalizing above with
  | nil => rfl
  | cons name path inductionHypothesis =>
      have first := sameDone [name] (List.cons_ne_nil name [])
        (List.prefix_append [name] path)
      have sameFirst : done.contains (above ++ [name]) =
          done'.contains (above ++ [name]) := by
        rw [Bool.eq_iff_iff, List.contains_iff_mem, List.contains_iff_mem]
        exact first
      have later := inductionHypothesis (above ++ [name]) (by
        intro part _ inFront
        rw [List.append_assoc, List.singleton_append]
        exact sameDone (name :: part) (List.cons_ne_nil name part)
          (List.prefix_cons_inj name |>.mpr inFront))
      rw [relabelBelow, relabelBelow, sameFirst, later]

theorem relabelBelow_nil_done (above path : List α) :
    relabelBelow σ [] above path = path := by
  induction path generalizing above with
  | nil => rfl
  | cons name path inductionHypothesis =>
      rw [relabelBelow, inductionHypothesis]
      rfl

/-- Nothing happens to a path of which no part is done. -/
theorem relabel_of_clear (clear : ∀ above, above <+: path → above ∉ done) :
    relabel σ done path = path := by
  have noneDone : relabelBelow σ done [] path = relabelBelow σ [] [] path :=
    relabelBelow_congr [] fun part _ inFront =>
      iff_of_false (clear part inFront) List.not_mem_nil
  rw [relabel, noneDone, relabelBelow_nil_done]

/-- Only the paths below a path see that it is done. -/
theorem relabel_cons_of_notBelow (notBelow : ¬ path <+: other) :
    relabel σ (path :: done) other = relabel σ done other := by
  apply relabelBelow_congr
  intro part _ inFront
  have different : part ≠ path := fun same => notBelow (same ▸ inFront)
  rw [List.nil_append, List.mem_cons]
  exact or_iff_right different

/-- What lies below a path is relabelled independently of it. -/
theorem relabelBelow_cons (path rest : List α) :
    relabelBelow σ (path :: done) path rest = relabelBelow σ done path rest := by
  apply relabelBelow_congr
  intro part nonempty _
  have different : path ++ part ≠ path := fun same =>
    nonempty (List.append_right_eq_self.mp same)
  rw [List.mem_cons]
  exact or_iff_right different

theorem relabelBelow_eq_map (above : List α)
    (all : ∀ part, part ≠ [] → part <+: path → above ++ part ∈ done) :
    relabelBelow σ done above path = path.map σ := by
  induction path generalizing above with
  | nil => rfl
  | cons name path inductionHypothesis =>
      have first := all [name] (List.cons_ne_nil name [])
        (List.prefix_append [name] path)
      have later := inductionHypothesis (above ++ [name]) (by
        intro part _ inFront
        rw [List.append_assoc, List.singleton_append]
        exact all (name :: part) (List.cons_ne_nil name part)
          (List.prefix_cons_inj name |>.mpr inFront))
      rw [relabelBelow, if_pos (List.contains_iff_mem.mpr first), later,
        List.map_cons]

/-- Where all paths below `root` are done and no path above it. -/
theorem relabel_below {root names : List α}
    (clear : ∀ above, above <+: root → above ∉ done)
    (all : ∀ part, part ≠ [] → part <+: names → root ++ part ∈ done) :
    relabel σ done (root ++ names) = root ++ names.map σ := by
  rw [relabel_append, relabel_of_clear clear, relabelBelow_eq_map root all]

/-! ### Siblings that stay apart -/

/-- With a path, all paths above it. -/
def PrefixClosed (paths : Set (List α)) : Prop :=
  ∀ path ∈ paths, ∀ above, above <+: path → above ∈ paths

/-- `σ` keeps siblings apart of which one is done. -/
def Separates (σ : α → α) (done : List (List α)) (paths : Set (List α)) : Prop :=
  ∀ path name other, path ++ [name] ∈ paths → path ++ [other] ∈ paths →
    path ++ [name] ∈ done ∨ path ++ [other] ∈ done → σ name = σ other →
      name = other

variable {paths : Set (List α)}

/-- Different paths stay different. -/
theorem relabel_injOn (idempotent : ∀ name, σ (σ name) = σ name)
    (closed : PrefixClosed paths) (separates : Separates σ done paths)
    (member : path ∈ paths) (otherMember : other ∈ paths)
    (same : relabel σ done path = relabel σ done other) : path = other := by
  have sameLength := congrArg List.length same
  rw [length_relabel, length_relabel] at sameLength
  induction path using List.reverseRecOn generalizing other with
  | nil => exact (List.length_eq_zero_iff.mp sameLength.symm).symm
  | append_singleton path name inductionHypothesis =>
      rcases List.eq_nil_or_concat other with empty | concat
      · rw [empty, List.length_append, List.length_nil] at sameLength
        cases sameLength
      · obtain ⟨otherPath, otherName, rfl⟩ := concat
        rw [List.concat_eq_append] at *
        rw [relabel_concat, relabel_concat] at same
        obtain ⟨samePath, sameName⟩ := List.append_inj' same rfl
        have abovePath :=
          closed _ member path (List.prefix_append path [name])
        have otherAbove := closed _ otherMember otherPath
          (List.prefix_append otherPath [otherName])
        have samePathLength := congrArg List.length samePath
        rw [length_relabel, length_relabel] at samePathLength
        have samePlace : path = otherPath :=
          inductionHypothesis abovePath otherAbove samePath samePathLength
        subst samePlace
        have sameImage : σ name = σ otherName := by
          have images := congrArg σ (List.singleton_inj.mp sameName)
          rw [apply_ite σ, apply_ite σ, idempotent, idempotent, ite_self,
            ite_self] at images
          exact images
        by_cases eitherDone : path ++ [name] ∈ done ∨ path ++ [otherName] ∈ done
        · rw [separates path name otherName member otherMember eitherDone
            sameImage]
        · obtain ⟨notDone, otherNotDone⟩ := not_or.mp eitherDone
          rw [if_neg (fun inDone => notDone (List.contains_iff_mem.mp inDone)),
            if_neg (fun inDone =>
              otherNotDone (List.contains_iff_mem.mp inDone))] at sameName
          rw [sameName]

section Step

variable (idempotent : ∀ name, σ (σ name) = σ name)
  (closed : PrefixClosed paths)
  (separates : Separates σ ((path ++ [name]) :: done) paths)
  (member : path ++ [name] ∈ paths)
  (clear : ∀ above, above <+: path ++ [name] → above ∉ done)
  (otherMember : other ∈ paths)

include clear in
theorem relabel_cons_self :
    relabel σ ((path ++ [name]) :: done) (path ++ [name]) =
      path ++ [σ name] := by
  have pathClear : ∀ above, above <+: path → above ∉ done :=
    fun above inFront => clear above (inFront.trans (List.prefix_append _ _))
  have notBelow : ¬ path ++ [name] <+: path := fun below => by
    have bound := below.length_le
    rw [List.length_append, List.length_singleton] at bound
    omega
  have inDone : ((path ++ [name]) :: done).contains (path ++ [name]) :=
    List.contains_iff_mem.mpr List.mem_cons_self
  rw [relabel_concat, relabel_cons_of_notBelow notBelow,
    relabel_of_clear pathClear, if_pos inDone]

include idempotent closed separates member clear otherMember

/-- The new name of a path is free. -/
theorem relabel_free (changes : σ name ≠ name) :
    ¬ path ++ [σ name] <+: relabel σ done other := by
  intro below
  obtain ⟨above, inFront, same⟩ := exists_prefix_relabel below
  have aboveMember := closed other otherMember above inFront
  have unchanged : relabel σ done (path ++ [name]) = path ++ [name] :=
    relabel_of_clear clear
  rcases eq_or_ne above (path ++ [name]) with isPath | different
  · rw [isPath, unchanged] at same
    exact changes (List.append_singleton_inj.mp same).2.symm
  · have notBelow : ¬ path ++ [name] <+: above := by
      intro inAbove
      have sameLength := congrArg List.length same
      rw [length_relabel, List.length_append, List.length_singleton,
        ← List.length_singleton (a := name), ← List.length_append]
        at sameLength
      exact different (inAbove.eq_of_length sameLength.symm).symm
    have relabelled : relabel σ ((path ++ [name]) :: done) above =
        relabel σ ((path ++ [name]) :: done) (path ++ [name]) := by
      rw [relabel_cons_of_notBelow notBelow, same, relabel_cons_self clear]
    exact different (relabel_injOn idempotent closed separates aboveMember
      member relabelled)

/-- Moving a path to its new name relabels it. -/
theorem relabel_cons_eq_moved :
    relabel σ ((path ++ [name]) :: done) other =
      moved (path ++ [name]) (path ++ [σ name]) (relabel σ done other) := by
  have unchanged : relabel σ done (path ++ [name]) = path ++ [name] :=
    relabel_of_clear clear
  by_cases below : path ++ [name] <+: other
  · obtain ⟨rest, rfl⟩ := below
    rw [relabel_append (path ++ [name]), relabel_append (path ++ [name]),
      relabel_cons_self clear, relabelBelow_cons, unchanged, moved_append]
  · have notBelow : ¬ path ++ [name] <+: relabel σ done other := by
      intro relabelledBelow
      obtain ⟨above, inFront, same⟩ := exists_prefix_relabel relabelledBelow
      have stillSeparates : Separates σ done paths :=
        fun place first second firstMember secondMember eitherDone =>
          separates place first second firstMember secondMember
            (eitherDone.imp (List.mem_cons_of_mem _) (List.mem_cons_of_mem _))
      have isPath := relabel_injOn idempotent closed stillSeparates
        (closed other otherMember above inFront) member (same.trans unchanged.symm)
      exact below (isPath ▸ inFront)
    rw [relabel_cons_of_notBelow below, moved_of_notBelow notBelow]

end Step

/-! ### The order of a walk -/

section Order

variable {β : Type*} [LinearOrder β] {place above : List β}

theorem not_lt_of_inFront (inFront : above <+: place) : ¬ place < above :=
  List.not_lt.mpr inFront.le

/-- What is above a path comes before it. -/
theorem lt_of_prefix_of_ne (inFront : above <+: place)
    (different : above ≠ place) : above < place :=
  lt_of_le_of_ne (not_lt.mp (not_lt_of_inFront inFront)) different

theorem concat_lt_concat (above : List β) {first second : β}
    (less : first < second) : above ++ [first] < above ++ [second] :=
  List.append_left_lt (List.cons_lt_cons_iff.mpr (Or.inl less))

end Order

end Bright.Lib
