import Bright.Rename.Tool

/-!
# The substitution

Whatever the order of the pairs, both range loops compute one substitution,
which changes the first letter of every occurrence of an old name
(`modifiedContent_eq`, `modifiedName_eq`).
-/

namespace Bright.Rename

open Bright.Lib

/-- The pairs of `nameMap` differ in their first letters. -/
def nameRules : List (Rule UInt8) :=
  [⟨'e'.toUInt8, 'u'.toUInt8, "os".toUTF8.toList⟩,
    ⟨'E'.toUInt8, 'U'.toUInt8, "OS".toUTF8.toList⟩,
    ⟨'E'.toUInt8, 'U'.toUInt8, "os".toUTF8.toList⟩]

/-- The substitution of the new names for the old ones. -/
def substituted (text : Bytes) : Bytes := rewrite nameRules text

/-- The letters of the old names. -/
def nameLetters : Bytes := "eEoOsS".toUTF8.toList

variable {order : List (Bytes × Bytes)}

theorem independent_nameRules : Independent nameRules where
  source_notMem := by decide +kernel
  target_notMem := by decide +kernel
  target_ne := by decide
  target_eq := by decide

theorem notMem_old_of_notMem_nameLetters {cut : UInt8}
    (notLetter : cut ∉ nameLetters) : ∀ rule ∈ nameRules, cut ∉ rule.old := by
  have letters : ∀ rule ∈ nameRules, ∀ letter ∈ rule.old,
      letter ∈ nameLetters := by
    decide +kernel
  intro rule member inRule
  exact notLetter (letters rule member cut inRule)

/-- The pairs in any order are the rules in that order. -/
theorem exists_perm_nameRules (visits : order.Perm nameMap) :
    ∃ rules : List (Rule UInt8), rules.Perm nameRules ∧
      order = rules.map fun rule => (rule.old, rule.new) := by
  let toRule := fun pair : Bytes × Bytes =>
    (⟨pair.1.headD 0, pair.2.headD 0, pair.1.tail⟩ : Rule UInt8)
  have rules : nameMap.map toRule = nameRules := by decide +kernel
  have pairs : ∀ pair ∈ nameMap,
      ((toRule pair).old, (toRule pair).new) = pair := by
    decide +kernel
  refine ⟨order.map toRule, rules ▸ visits.map toRule, ?_⟩
  have same : order.map ((fun rule => (rule.old, rule.new)) ∘ toRule) =
      order.map id :=
    List.map_congr_left fun pair member =>
      pairs pair (visits.mem_iff.mp member)
  rw [List.map_map, same, List.map_id]

theorem foldl_replaceAll_eq (visits : order.Perm nameMap) (text : Bytes) :
    order.foldl (fun text pair => replaceAll pair.1 pair.2 text) text =
      substituted text := by
  obtain ⟨rules, permuted, rfl⟩ := exists_perm_nameRules visits
  have independent : Independent rules :=
    independent_nameRules.mono fun rule => permuted.mem_iff.mp
  rw [List.foldl_map, foldl_replaceAll independent,
    rewrite_perm independent_nameRules permuted, substituted]

theorem modifiedContent_eq (visits : order.Perm nameMap) (srcBytes : Bytes) :
    modifiedContent order srcBytes =
      if maxFileSize < srcBytes.length then none
      else some (substituted srcBytes) := by
  rw [modifiedContent, foldl_replaceAll_eq visits]

/-- After a turn `newName` and `strold` are the same. -/
theorem modifiedName_eq_foldl (nonempty : order ≠ []) (newName oldName : Bytes) :
    modifiedName order newName oldName =
      order.foldl (fun text pair => replaceAll pair.1 pair.2 text) oldName := by
  rw [modifiedName]
  induction order generalizing newName oldName with
  | nil => exact absurd rfl nonempty
  | cons pair order inductionHypothesis =>
      rw [List.foldl_cons, List.foldl_cons]
      have same : (if replaceAll pair.1 pair.2 oldName ≠ oldName then
          replaceAll pair.1 pair.2 oldName else oldName) =
            replaceAll pair.1 pair.2 oldName := by
        rw [ite_not]
        exact ite_eq_right_iff.mpr Eq.symm
      dsimp only
      rw [same]
      rcases eq_or_ne order [] with empty | later
      · rw [empty]
        rfl
      · exact inductionHypothesis later _ _

theorem modifiedName_eq (visits : order.Perm nameMap) (newName oldName : Bytes) :
    modifiedName order newName oldName = substituted oldName := by
  have nonempty : order ≠ [] := by
    intro empty
    rw [empty] at visits
    cases visits.length_eq
  rw [modifiedName_eq_foldl nonempty, foldl_replaceAll_eq visits]

/-! ### The substitution on names -/

@[simp]
theorem substituted_nil : substituted [] = [] := rfl

@[simp]
theorem length_substituted (text : Bytes) :
    (substituted text).length = text.length :=
  length_rewrite nameRules text

theorem substituted_substituted (text : Bytes) :
    substituted (substituted text) = substituted text :=
  rewrite_rewrite_self independent_nameRules text

/-- The new letters come after the old ones. -/
theorem lt_substituted {text : Bytes} (changed : substituted text ≠ text) :
    text < substituted text :=
  lt_rewrite (by decide) changed

theorem substituted_joinPath (names : List Bytes) :
    substituted (joinPath names) = joinPath (names.map substituted) := by
  have slashCuts : ∀ rule ∈ nameRules, slash ∉ rule.old :=
    notMem_old_of_notMem_nameLetters (by decide +kernel)
  induction names with
  | nil => rfl
  | cons name names inductionHypothesis =>
      cases names with
      | nil => rfl
      | cons next names =>
          have cut : joinPath (name :: next :: names) =
              name ++ slash :: joinPath (next :: names) := rfl
          rw [cut, substituted, rewrite_append_cons slashCuts, ← substituted,
            ← substituted, inductionHypothesis]
          rfl

/-! ### The occurrences -/

/-- The range loop of `modifyFileContent` over the bytes that it has read. -/
def replaceLoop (order : List (Bytes × Bytes)) (srcBytes : Bytes) : Bytes :=
  order.foldl (fun srcBytes pair => replaceAll pair.1 pair.2 srcBytes) srcBytes

theorem nameMap_eq_map :
    nameMap = nameRules.map fun rule => (rule.old, rule.new) := by
  decide +kernel

theorem exists_rule {pair : Bytes × Bytes} (member : pair ∈ nameMap) :
    ∃ rule ∈ nameRules, rule.old = pair.1 ∧ rule.new = pair.2 := by
  rw [nameMap_eq_map] at member
  obtain ⟨rule, ruleMember, rfl⟩ := List.mem_map.mp member
  exact ⟨rule, ruleMember, rfl, rfl⟩

theorem pair_mem_nameMap {rule : Rule UInt8} (member : rule ∈ nameRules) :
    (rule.old, rule.new) ∈ nameMap := by
  rw [nameMap_eq_map]
  exact List.mem_map_of_mem member

/-- The substitution changes exactly the texts that hold an old name. -/
theorem substituted_eq_self_iff {text : Bytes} :
    substituted text = text ↔ ∀ pair ∈ nameMap, ¬ pair.1 <:+: text := by
  rw [substituted, rewrite_eq_self_iff independent_nameRules, nameMap_eq_map,
    List.forall_mem_map]

/-- In every order the loops over the pairs change the first byte of each
occurrence of an old name and no other byte, leave no old name, and a second
time, in any order, they change nothing. -/
theorem replaceLoop_exact {order : List (Bytes × Bytes)}
    (visits : order.Perm nameMap) (text : Bytes) :
    (∀ last, modifiedName order last text = replaceLoop order text) ∧
    (text.length ≤ maxFileSize →
      modifiedContent order text = some (replaceLoop order text)) ∧
    (replaceLoop order text).length = text.length ∧
    (∀ position, ∀ pair ∈ nameMap, pair.1 <+: text.drop position →
      (replaceLoop order text)[position]? = pair.2.head?) ∧
    (∀ position, (∀ pair ∈ nameMap, ¬ pair.1 <+: text.drop position) →
      (replaceLoop order text)[position]? = text[position]?) ∧
    (∀ pair ∈ nameMap, ¬ pair.1 <:+: replaceLoop order text) ∧
    ∀ again, again.Perm nameMap →
      replaceLoop again (replaceLoop order text) = replaceLoop order text := by
  have computed : replaceLoop order text = substituted text :=
    foldl_replaceAll_eq visits text
  refine ⟨?_, ?_, ?_, ?_, ?_, ?_, ?_⟩
  · intro last
    rw [modifiedName_eq visits, computed]
  · intro fits
    rw [modifiedContent, if_neg (Nat.not_lt.mpr fits), replaceLoop]
  · rw [computed, length_substituted]
  · intro position pair member occurs
    obtain ⟨rule, ruleMember, old, new⟩ := exists_rule member
    rw [← old] at occurs
    rw [computed, substituted,
      getElem?_rewrite_of_occurs independent_nameRules ruleMember occurs, ← new]
    rfl
  · intro position absent
    rw [computed, substituted]
    apply getElem?_rewrite_of_not_occurs
    intro rule member
    exact absent (rule.old, rule.new) (pair_mem_nameMap member)
  · intro pair member
    obtain ⟨rule, ruleMember, old, _⟩ := exists_rule member
    rw [computed, ← old]
    exact not_infix_rewrite independent_nameRules ruleMember
  · intro again visitsAgain
    rw [computed, replaceLoop, foldl_replaceAll_eq visitsAgain,
      substituted_substituted]

/-- Adjacent names, with the pairs in reverse order. -/
theorem replaceLoop_exact_adjacent :
    ¬ "eos".toUTF8.toList <:+:
      replaceLoop nameMap.reverse "eeoseosEOSEos".toUTF8.toList :=
  (replaceLoop_exact (List.reverse_perm nameMap)
    "eeoseosEOSEos".toUTF8.toList).2.2.2.2.2.1
    ("eos".toUTF8.toList, "uos".toUTF8.toList) (by decide +kernel)

end Bright.Rename
