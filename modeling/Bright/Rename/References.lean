import Bright.Rename.Names

/-!
# References to renamed entries

A relative path in the content of a file is replaced by the path of the new
names, in the same place, whatever order Go picks for the contents and for each
name.  Neither the slashes of the path nor the bytes around it are part of an
old name, so no occurrence reaches over them.
-/

namespace Bright.Rename

open Bright.Lib

/-- `newName` is what `modifyFileName` computes for `oldName` in some turn. -/
def Renames (oldName newName : Bytes) : Prop :=
  ∃ order last, order.Perm nameMap ∧ modifiedName order last oldName = newName

/-- The paths `old` and `new` stand in the same place of two contents, between
the same bytes. -/
def SamePlace (before old after new written : Bytes) : Prop :=
  ∃ before' after', written = before' ++ new ++ after' ∧
    before'.length = before.length ∧ new.length = old.length ∧
    before'.getLast? = before.getLast? ∧ after'.head? = after.head?

variable {before after : Bytes} {names newNames : List Bytes}

theorem map_substituted_of_renames
    (renames : List.Forall₂ Renames names newNames) :
    names.map substituted = newNames := by
  induction renames with
  | nil => rfl
  | cons first _ inductionHypothesis =>
      obtain ⟨order, last, visits, computed⟩ := first
      rw [modifiedName_eq visits] at computed
      rw [List.map_cons, computed, inductionHypothesis]

theorem samePlace_substituted
    (leftCut : ∀ cut ∈ before.getLast?, cut ∉ nameLetters)
    (rightCut : ∀ cut ∈ after.head?, cut ∉ nameLetters) (names : List Bytes) :
    SamePlace before (joinPath names) after (joinPath (names.map substituted))
      (substituted (before ++ joinPath names ++ after)) := by
  have left := rewrite_append_of_getLast?
    (fun cut last => notMem_old_of_notMem_nameLetters (leftCut cut last))
    (joinPath names)
  have right := rewrite_append_of_head?
    (fun cut first => notMem_old_of_notMem_nameLetters (rightCut cut first))
    (before ++ joinPath names)
  refine ⟨substituted before, substituted after, ?_, length_substituted before,
    ?_, left.2, right.2⟩
  · rw [substituted, right.1, left.1, ← substituted_joinPath]
    rfl
  · rw [← substituted_joinPath, length_substituted]

/-- A path between bytes that are in no old name is replaced by the path of the
new names, and every content that is not too large is written. -/
theorem references_follow_names :
    (∀ order before after names newNames written, order.Perm nameMap →
      (∀ cut ∈ before.getLast?, cut ∉ nameLetters) →
      (∀ cut ∈ after.head?, cut ∉ nameLetters) →
      List.Forall₂ Renames names newNames →
      modifiedContent order (before ++ joinPath names ++ after) =
          some written →
        SamePlace before (joinPath names) after (joinPath newNames) written) ∧
    ∀ order srcBytes, srcBytes.length ≤ maxFileSize →
      ∃ written, modifiedContent order srcBytes = some written := by
  constructor
  · intro order before after names newNames written visits leftCut rightCut
      renames isWritten
    rw [modifiedContent_eq visits] at isWritten
    split_ifs at isWritten with tooLarge
    rw [← Option.some.inj isWritten, ← map_substituted_of_renames renames]
    exact samePlace_substituted leftCut rightCut names
  · intro order srcBytes fits
    rw [modifiedContent, if_neg (Nat.not_lt.mpr fits)]
    exact ⟨_, rfl⟩

/-- The reference to `eoslib/Eos.h` in an include line. -/
theorem references_follow_include :
    SamePlace "#include <".toUTF8.toList "eoslib/Eos.h".toUTF8.toList
      "> // eos".toUTF8.toList "uoslib/Uos.h".toUTF8.toList
      "#include <uoslib/Uos.h> // uos".toUTF8.toList := by
  have renamed : List.Forall₂ Renames
      ["eoslib".toUTF8.toList, "Eos.h".toUTF8.toList]
      ["uoslib".toUTF8.toList, "Uos.h".toUTF8.toList] :=
    .cons ⟨nameMap.reverse, [], List.reverse_perm nameMap, by decide +kernel⟩
      (.cons ⟨nameMap, [], List.Perm.refl nameMap, by decide +kernel⟩ .nil)
  have oldPath : joinPath ["eoslib".toUTF8.toList, "Eos.h".toUTF8.toList] =
      "eoslib/Eos.h".toUTF8.toList := by
    decide +kernel
  have newPath : joinPath ["uoslib".toUTF8.toList, "Uos.h".toUTF8.toList] =
      "uoslib/Uos.h".toUTF8.toList := by
    decide +kernel
  rw [← oldPath, ← newPath]
  exact references_follow_names.1 nameMap "#include <".toUTF8.toList
    "> // eos".toUTF8.toList ["eoslib".toUTF8.toList, "Eos.h".toUTF8.toList]
    ["uoslib".toUTF8.toList, "Uos.h".toUTF8.toList]
    "#include <uoslib/Uos.h> // uos".toUTF8.toList (List.Perm.refl nameMap)
    (by decide +kernel) (by decide +kernel) renamed (by decide +kernel)

end Bright.Rename
