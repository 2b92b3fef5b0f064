import Bright.Rename.Names

/-!
# Path strings and the places they name

`modifyFileName` cuts a path behind its last slash.  The two parts name the
directory and the entry in it, so a new name behind the same front names a
sibling.
-/

namespace Bright.Rename

open Bright.Lib

/-- A name that a directory can hold; `.` and `..` stand for the directory
itself and the one above it. -/
structure ProperName (name : Bytes) : Prop where
  nonempty : name ≠ []
  notDot : name ≠ ['.'.toUInt8]
  notUp : name ≠ "..".toUTF8.toList
  noSlash : slash ∉ name

theorem properName_iff {name : Bytes} :
    ProperName name ↔ name ≠ [] ∧ name ≠ ['.'.toUInt8] ∧
      name ≠ "..".toUTF8.toList ∧ slash ∉ name :=
  ⟨fun proper => ⟨proper.nonempty, proper.notDot, proper.notUp, proper.noSlash⟩,
    fun parts => ⟨parts.1, parts.2.1, parts.2.2.1, parts.2.2.2⟩⟩

instance decidableProperName (name : Bytes) : Decidable (ProperName name) :=
  decidable_of_iff _ properName_iff.symm

/-- The front of a path is empty or ends with a slash. -/
def Front (front : Bytes) : Prop :=
  front = [] ∨ ∃ before, front = before ++ [slash]

variable {front name path : Bytes} {names : List Bytes}

/-! ### The last slash -/

theorem lastSlashEnd_append (isFront : Front front) (noSlash : slash ∉ name) :
    lastSlashEnd (front ++ name) = front.length := by
  have cut : (front ++ name).rdropWhile (fun c => c ≠ slash) = front := by
    induction name using List.reverseRecOn with
    | nil =>
        rw [List.append_nil]
        rcases isFront with empty | ends
        · rw [empty]
          rfl
        · obtain ⟨before, rfl⟩ := ends
          exact List.rdropWhile_concat_neg _ _ _ (by simp)
    | append_singleton name c inductionHypothesis =>
        have different : c ≠ slash := fun same =>
          noSlash (List.mem_append_right name (List.mem_singleton.mpr same.symm))
        have rest : slash ∉ name := fun member =>
          noSlash (List.mem_append_left [c] member)
        have dropped := List.rdropWhile_concat_pos (fun c => c ≠ slash)
          (front ++ name) c (by simp [different])
        rw [← List.append_assoc, dropped, inductionHypothesis rest]
  rw [lastSlashEnd, cut]

theorem exists_front (path : Bytes) :
    ∃ front name, path = front ++ name ∧ Front front ∧ slash ∉ name := by
  induction path using List.reverseRecOn with
  | nil => exact ⟨[], [], rfl, Or.inl rfl, List.not_mem_nil⟩
  | append_singleton path c inductionHypothesis =>
      rcases eq_or_ne c slash with isSlash | different
      · rw [isSlash]
        exact ⟨path ++ [slash], [], (List.append_nil _).symm,
          Or.inr ⟨path, rfl⟩, List.not_mem_nil⟩
      · obtain ⟨front, name, rfl, isFront, noSlash⟩ := inductionHypothesis
        refine ⟨front, name ++ [c], List.append_assoc front name [c], isFront, ?_⟩
        intro member
        rcases List.mem_append.mp member with inName | last
        · exact noSlash inName
        · exact different (List.mem_singleton.mp last).symm

/-! ### Places -/

@[simp]
theorem locate_nil : locate [] = [] := rfl

theorem locate_of_properName (proper : ProperName name) : locate name = [name] := by
  rw [locate, List.splitOn_eq_singleton proper.noSlash, List.filter_singleton,
    decide_eq_true (And.intro proper.nonempty proper.notDot)]
  rfl

theorem locate_append_slash (path rest : Bytes) :
    locate (path ++ slash :: rest) = locate path ++ locate rest := by
  rw [locate, List.splitOn_append_cons_self, List.filter_append, locate, locate]

theorem locate_append (isFront : Front front) (rest : Bytes) :
    locate (front ++ rest) = locate front ++ locate rest := by
  rcases isFront with empty | ends
  · rw [empty]
    rfl
  · obtain ⟨before, rfl⟩ := ends
    have front : locate (before ++ [slash]) = locate before := by
      rw [locate_append_slash, locate_nil, List.append_nil]
    rw [front, List.append_assoc, List.singleton_append, locate_append_slash]

theorem locate_joinPath (proper : ∀ name ∈ names, ProperName name) :
    locate (joinPath names) = names := by
  induction names with
  | nil => rfl
  | cons name names inductionHypothesis =>
      obtain ⟨first, later⟩ := List.forall_mem_cons.mp proper
      cases names with
      | nil => exact locate_of_properName first
      | cons next names =>
          have cut : joinPath (name :: next :: names) =
              name ++ slash :: joinPath (next :: names) := rfl
          rw [cut, locate_append_slash, locate_of_properName first,
            inductionHypothesis later, List.singleton_append]

theorem joinPath_concat {above : Location} (nonempty : above ≠ []) (name : Bytes) :
    joinPath (above ++ [name]) = joinPath above ++ slash :: name := by
  induction above with
  | nil => exact absurd rfl nonempty
  | cons first above inductionHypothesis =>
      cases above with
      | nil => rfl
      | cons next above =>
          have longer := inductionHypothesis (List.cons_ne_nil next above)
          have cut : joinPath (first :: next :: above ++ [name]) =
              first ++ slash :: joinPath (next :: above ++ [name]) := rfl
          rw [cut, longer, ← List.cons_append, ← List.append_assoc]
          rfl

/-- A name that is shorter than the old names is not a new one. -/
theorem eq_up_of_substituted (isUp : substituted name = "..".toUTF8.toList) :
    name = "..".toUTF8.toList := by
  have short : ∀ pair ∈ nameMap,
      "..".toUTF8.toList.length < pair.1.length := by
    decide +kernel
  have same : substituted name = name := by
    apply substituted_eq_self_iff.mpr
    intro pair member occurs
    have sameLength := length_substituted name
    have less := short pair member
    rw [isUp] at sameLength
    have fits := occurs.length_le
    omega
  rw [← same, isUp]

theorem properName_substituted (proper : ProperName name) :
    ProperName (substituted name) := by
  have dot : '.'.toUInt8 ∈ substituted name ↔ '.'.toUInt8 ∈ name :=
    mem_rewrite_iff (by decide) (by decide)
  have slashes : slash ∈ substituted name ↔ slash ∈ name :=
    mem_rewrite_iff (by decide) (by decide)
  have sameLength := length_substituted name
  refine ⟨?_, ?_, fun isUp => proper.notUp (eq_up_of_substituted isUp),
    fun member => proper.noSlash (slashes.mp member)⟩
  · intro empty
    rw [empty] at sameLength
    exact proper.nonempty (List.length_eq_zero_iff.mp sameLength.symm)
  · intro isDot
    rw [isDot] at sameLength dot
    obtain ⟨c, single⟩ := List.length_eq_one_iff.mp sameLength.symm
    have dotMember := dot.mp (List.mem_singleton.mpr rfl)
    rw [single] at dotMember
    apply proper.notDot
    rw [single, List.mem_singleton.mp dotMember]

/-- The path of an entry ends with its name, and the front of it names the
directory. -/
theorem exists_front_path (dir : Bytes) {above : Location}
    (proper : ∀ part ∈ above ++ [name], ProperName part) :
    ∃ front, lead dir ++ joinPath (above ++ [name]) = front ++ name ∧
      Front front ∧ locate front = above := by
  have isFront : Front (lead dir) := by
    rw [lead]
    split_ifs
    · exact Or.inr ⟨[], rfl⟩
    · exact Or.inl rfl
  have leadPlace : locate (lead dir) = [] := by
    rw [lead]
    split_ifs
    · rfl
    · rfl
  rcases eq_or_ne above [] with empty | nonempty
  · rw [empty]
    exact ⟨lead dir, rfl, isFront, leadPlace⟩
  · refine ⟨lead dir ++ joinPath above ++ [slash], ?_, Or.inr ⟨_, rfl⟩, ?_⟩
    · rw [joinPath_concat nonempty, List.append_assoc, List.append_assoc,
        List.singleton_append]
    · have aboveProper : ∀ part ∈ above, ProperName part := fun part member =>
        proper part (List.mem_append_left [name] member)
      rw [locate_append_slash, locate_append isFront, leadPlace,
        locate_joinPath aboveProper, locate_nil, List.append_nil,
        List.nil_append]

end Bright.Rename
