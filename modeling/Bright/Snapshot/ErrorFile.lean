import Bright.Snapshot.Escapes
import Bright.Snapshot.ItemNumbers

/-!
# The file of errors

`main` reads the snapshot line by line, without the line ends, and `savefile`
writes the rejected lines one behind the other, without a line end in between.
Read back, the file of errors is a single line, so it gives the rejected lines
only if there is no more than one (`readsBack_iff`).
-/

namespace Bright.Snapshot

open Bright.Lib
open Bright.Eosio (StdString)
open Bright.Name (cString cString_eq_self_iff)

def newline : UInt8 := '\n'.toUInt8

/-- The lines that `getline` delivers while `strline` has been read of the
first one.  There is no line behind the last line end. -/
def getlinesFrom (strline : StdString) : StdString → List StdString
  | [] => if strline.isEmpty then [] else [strline]
  | c :: rest =>
      if c = newline then strline :: getlinesFrom [] rest
      else getlinesFrom (strline ++ [c]) rest

/-- The lines of a file. -/
def getlines (file : StdString) : List StdString := getlinesFrom [] file

/-- The file of errors, read like a snapshot, gives the lines in `seterr`. -/
def ReadsBack (seterr : Setusererror) : Prop :=
  (getlines (savefile seterr)).Perm seterr.rows

/-- All rejected lines are the same, and there is no null byte in them. -/
def OneRejectedLine (tokenize : StdString → Option (List StdString))
    (lines : List StdString) : Prop :=
  ∀ strline ∈ lines, rejects tokenize strline →
    0 ∉ strline ∧
      ∀ other ∈ lines, rejects tokenize other → other = strline

variable {tokenize : StdString → Option (List StdString)}
  {strline text file : StdString} {lines : List StdString}
  {loaded : Globals} {seterr : Setusererror}

/-! ### Lines -/

theorem newline_notMem_of_mem_getlinesFrom (noNewline : newline ∉ strline) :
    ∀ line ∈ getlinesFrom strline text, newline ∉ line := by
  induction text generalizing strline with
  | nil =>
      intro line member
      rw [getlinesFrom] at member
      split_ifs at member with empty
      · cases member
      · rw [List.mem_singleton.mp member]
        exact noNewline
  | cons c rest inductionHypothesis =>
      rw [getlinesFrom]
      split_ifs with ends
      · rw [List.forall_mem_cons]
        exact ⟨noNewline, inductionHypothesis List.not_mem_nil⟩
      · apply inductionHypothesis
        rw [List.mem_append, List.mem_singleton, not_or]
        exact ⟨noNewline, Ne.symm ends⟩

theorem newline_notMem_of_mem_getlines (member : strline ∈ getlines file) :
    newline ∉ strline :=
  newline_notMem_of_mem_getlinesFrom List.not_mem_nil strline member

theorem getlinesFrom_of_notMem (noNewline : newline ∉ text) :
    getlinesFrom strline text =
      if (strline ++ text).isEmpty then [] else [strline ++ text] := by
  induction text generalizing strline with
  | nil => rw [getlinesFrom, List.append_nil]
  | cons c rest inductionHypothesis =>
      rw [List.mem_cons, not_or] at noNewline
      rw [getlinesFrom, if_neg (Ne.symm noNewline.1),
        inductionHypothesis noNewline.2, List.append_assoc,
        List.singleton_append]

/-- A text without line ends is one line. -/
theorem getlines_of_notMem (noNewline : newline ∉ text) :
    getlines text = if text.isEmpty then [] else [text] :=
  getlinesFrom_of_notMem noNewline

/-! ### The file of errors -/

theorem newline_notMem_savefile
    (noNewline : ∀ strline ∈ seterr.rows, newline ∉ strline) :
    newline ∉ savefile seterr := by
  intro member
  obtain ⟨strline, stored, inLine⟩ := List.mem_flatMap.mp member
  exact noNewline strline stored
    ((List.takeWhile_sublist _).subset inLine)

/-- The only line in `seterr` reads back if it is written whole. -/
theorem getlines_savefile_singleton_iff (notEmpty : strline ≠ [])
    (noNewline : newline ∉ strline) (only : seterr.rows = [strline]) :
    ReadsBack seterr ↔ 0 ∉ strline := by
  have written : savefile seterr = cString strline := by
    rw [savefile, only, List.flatMap_singleton]
  have noLineEnd : newline ∉ cString strline := fun member =>
    noNewline ((List.takeWhile_sublist _).subset member)
  rw [ReadsBack, only, written, getlines_of_notMem noLineEnd,
    List.perm_singleton, ← cString_eq_self_iff]
  constructor
  · intro same
    split_ifs at same with empty
    exact List.singleton_inj.mp same
  · intro whole
    have notEmptyWritten : ¬ (cString strline).isEmpty := by
      rw [whole, List.isEmpty_iff]
      exact notEmpty
    rw [if_neg notEmptyWritten, whole]

theorem length_le_one_of_readsBack
    (noNewline : ∀ strline ∈ seterr.rows, newline ∉ strline)
    (reads : ReadsBack seterr) : seterr.rows.length ≤ 1 := by
  rw [ReadsBack, getlines_of_notMem (newline_notMem_savefile noNewline)]
    at reads
  rw [← reads.length_eq]
  split_ifs
  · exact Nat.zero_le 1
  · exact le_rfl

/-- The file of errors reads back exactly if all lines in it are one line that
is written whole. -/
theorem readsBack_iff_rows
    (noNewline : ∀ strline ∈ seterr.rows, newline ∉ strline)
    (notEmpty : [] ∉ seterr.rows) :
    ReadsBack seterr ↔
      ∀ strline ∈ seterr.rows, 0 ∉ strline ∧
        ∀ other ∈ seterr.rows, other = strline := by
  constructor
  · intro reads strline stored
    have atMost := length_le_one_of_readsBack noNewline reads
    obtain ⟨first, only⟩ := List.length_eq_one_iff.mp
      (le_antisymm atMost (List.length_pos_of_mem stored))
    rw [only] at noNewline notEmpty stored ⊢
    obtain rfl := List.mem_singleton.mp stored
    have isLine : strline ≠ [] := fun empty =>
      notEmpty (empty ▸ List.mem_cons_self)
    refine ⟨(getlines_savefile_singleton_iff isLine
      (noNewline strline stored) only).mp reads, ?_⟩
    intro other otherStored
    exact List.mem_singleton.mp otherStored
  · intro same
    cases shape : seterr.rows with
    | nil =>
        rw [ReadsBack, savefile, shape]
        rfl
    | cons first rest =>
        have stored : first ∈ seterr.rows := shape ▸ List.mem_cons_self
        have noOther : rest = [] := by
          apply List.eq_nil_iff_forall_not_mem.mpr
          intro other member
          have different := seterr.rows_nodup
          rw [shape, List.nodup_cons] at different
          have otherStored : other ∈ seterr.rows :=
            shape ▸ List.mem_cons_of_mem first member
          rw [(same first stored).2 other otherStored] at member
          exact different.1 member
        have isLine : first ≠ [] := fun empty => notEmpty (empty ▸ stored)
        rw [noOther] at shape
        exact (getlines_savefile_singleton_iff isLine (noNewline first stored)
          shape).mpr (same first stored).1

/-- Whenever the tool gets as far as writing the file of errors, the file reads
back exactly if all rejected lines are the same one, without a null byte. -/
theorem readsBack_iff (tokenize : StdString → Option (List StdString))
    (file : StdString) (loaded : Globals)
    (done : load tokenize (getlines file) Globals.initial = some loaded) :
    ReadsBack loaded.seterr ↔ OneRejectedLine tokenize (getlines file) := by
  have noNewline : ∀ strline ∈ loaded.seterr.rows, newline ∉ strline := by
    intro strline stored
    exact newline_notMem_of_mem_getlines ((mem_seterr_iff done).mp stored).1
  have notEmpty : [] ∉ loaded.seterr.rows := by
    intro stored
    have rejected := ((mem_seterr_iff done).mp stored).2
    rw [rejects_nil] at rejected
    cases rejected
  rw [readsBack_iff_rows noNewline notEmpty, OneRejectedLine]
  simp only [mem_seterr_iff done, and_imp]

/-- A file with an accepted line and a rejected one that comes twice. -/
def repeatedFile : StdString :=
  "A,accountofab1,K,1\nB,short,L,2\nB,short,L,2\n".toUTF8.toList

theorem readsBack_repeatedFile :
    ∃ loaded, load splitFields (getlines repeatedFile) Globals.initial =
        some loaded ∧
      ReadsBack loaded.seterr := by
  obtain ⟨loaded, done, -⟩ := load_eq_putAll Globals.initial
    (tokenises_splitFields (getlines repeatedFile))
  have same : OneRejectedLine splitFields (getlines repeatedFile) := by
    unfold OneRejectedLine
    decide +kernel
  exact ⟨loaded, done,
    (readsBack_iff splitFields repeatedFile loaded done).mpr same⟩

/-- Two rejected lines become one. -/
theorem readsBack_twoLines :
    ¬ ∀ (tokenize : StdString → Option (List StdString)) (file : StdString)
      (loaded : Globals),
      load tokenize (getlines file) Globals.initial = some loaded →
        ReadsBack loaded.seterr := by
  intro reads
  let file : StdString := "B,short,L,2\nC,short,M,3\n".toUTF8.toList
  obtain ⟨loaded, done, -, rejected⟩ := load_eq_putAll Globals.initial
    (tokenises_splitFields (getlines file))
  have same := (reads splitFields file loaded done).length_eq
  rw [rejected] at same
  exact absurd same (by decide +kernel)

end Bright.Snapshot
