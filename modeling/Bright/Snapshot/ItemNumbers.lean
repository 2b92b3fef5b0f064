import Bright.Snapshot.Records

/-!
# The numbers of the failed items

`checkinfo` counts the records that it gets and notes the number of each one
that it rejects.  Empty lines do not get there, so a number is the position of
its line in the file exactly as long as no empty line comes before
(`numbersPoint_iff`).
-/

namespace Bright.Snapshot

open Bright.Lib
open Bright.Eosio (StdString)

section Tokenizer

variable (tokenize : StdString → Option (List StdString))

/-- `checkinfo` rejects the line. -/
def rejects (strline : StdString) : Bool :=
  (lineRecord tokenize strline).any fun record => ¬ Accepted record

/-- The positions of the rejected lines, the first line being number 1. -/
def rejectedPositions (lines : List StdString) : List ℕ :=
  lines.findIdxs (rejects tokenize) 1

/-- The printed numbers are the positions of the rejected lines, which are
those in `seterr`. -/
structure NumbersPoint (lines : List StdString) (loaded : Globals) : Prop where
  printed : loaded.gFailitem.map UInt64.toNat = rejectedPositions tokenize lines
  stored : ∀ (index : ℕ) (strline : StdString), lines[index]? = some strline →
    (index + 1 ∈ loaded.gFailitem.map UInt64.toNat ↔
      strline ∈ loaded.seterr.rows)

/-- No empty line is before a rejected one, and the position of the rejected
one is a number of 64 bits. -/
def NoGapBefore (lines : List StdString) : Prop :=
  ∀ (index : ℕ) (strline : StdString), lines[index]? = some strline →
    rejects tokenize strline →
      [] ∉ lines.take index ∧ index + 1 < 2 ^ 64

end Tokenizer

variable {tokenize : StdString → Option (List StdString)}
  {strline : StdString} {lines : List StdString} {globals loaded : Globals}
  {record : StdString × Stuser}

/-! ### The counter -/

theorem rejects_of_lineRecord (read : lineRecord tokenize strline = some record) :
    rejects tokenize strline = decide (¬ Accepted record) := by
  rw [rejects, read]
  rfl

theorem rejects_nil : rejects tokenize [] = false := rfl

/-- The number of lines before `index` that are counted. -/
def counted (lines : List StdString) (index : ℕ) : ℕ :=
  (lines.take index).countP fun strline => strline ≠ []

theorem counted_succ_cons (strline : StdString) (rest : List StdString)
    (index : ℕ) :
    counted (strline :: rest) (index + 1) =
      counted rest index + if strline ≠ [] then 1 else 0 := by
  rw [counted, counted, List.take_succ_cons, List.countP_cons]
  simp

/-- The loop notes the number of every rejected line, counted from where the
counter stands. -/
theorem gFailitem_of_load (done : load tokenize lines globals = some loaded) :
    loaded.gFailitem = globals.gFailitem ++
      (lines.findIdxs (rejects tokenize)).map fun index =>
        globals.gFailload + UInt64.ofNat (counted lines index + 1) := by
  induction lines generalizing globals with
  | nil =>
      obtain rfl := Option.some.inj done
      exact (List.append_nil _).symm
  | cons strline rest inductionHypothesis =>
      have tokenises := tokenises_of_load done
      rw [List.findIdxs_cons, List.findIdxs_start]
      rcases eq_or_ne strline [] with rfl | notEmpty
      · have sameCount : ∀ index,
            counted ([] :: rest) (index + 1) = counted rest index :=
          counted_succ_cons [] rest
        have ended : load tokenize rest globals = some loaded := done
        rw [inductionHypothesis ended, rejects_nil, if_neg Bool.false_ne_true,
          List.map_map]
        simp only [Function.comp_def, Nat.zero_add, sameCount]
      · have moreCount : ∀ index, globals.gFailload +
            UInt64.ofNat (counted (strline :: rest) (index + 1) + 1) =
              globals.gFailload + 1 + UInt64.ofNat (counted rest index + 1) := by
          intro index
          rw [counted_succ_cons, if_pos notEmpty, UInt64.ofNat_add _ 1,
            UInt64.add_assoc, UInt64.add_comm 1]
          rfl
        obtain ⟨record, read⟩ :=
          exists_lineRecord tokenises List.mem_cons_self notEmpty
        rw [load, parse_of_lineRecord read] at done
        by_cases accepted : Accepted record
        · rw [if_pos accepted] at done
          rw [inductionHypothesis done, rejects_of_lineRecord read,
            decide_eq_false (not_not.mpr accepted), if_neg Bool.false_ne_true,
            List.map_map]
          simp only [Function.comp_def, Nat.zero_add, moreCount]
        · rw [if_neg accepted] at done
          rw [inductionHypothesis done, rejects_of_lineRecord read,
            decide_eq_true accepted, if_pos rfl, List.map_cons, List.map_map]
          simp only [Function.comp_def, Nat.zero_add, moreCount,
            List.append_assoc]
          rfl

/-- As many lines are counted as there are, unless one of them is empty. -/
theorem counted_eq_iff {index : ℕ} (inside : index < lines.length) :
    counted lines index = index ↔ [] ∉ lines.take index := by
  have length : (lines.take index).length = index :=
    List.length_take_of_le inside.le
  have all := List.countP_eq_length (l := lines.take index)
    (p := fun strline => strline ≠ [])
  rw [length] at all
  rw [counted, all]
  constructor
  · intro notEmpty member
    simpa using notEmpty [] member
  · intro noGap strline member
    exact decide_eq_true fun empty => noGap (empty ▸ member)

theorem counted_le (lines : List StdString) (index : ℕ) :
    counted lines index ≤ index :=
  List.countP_le_length.trans (List.length_take_le index lines)

/-- A number is the position of its line unless an empty line is before it or
the counter has run over. -/
theorem toNat_number_iff {index : ℕ} (inside : index < lines.length) :
    (Globals.initial.gFailload +
        UInt64.ofNat (counted lines index + 1)).toNat = index + 1 ↔
      [] ∉ lines.take index ∧ index + 1 < 2 ^ 64 := by
  have atMost := counted_le lines index
  have fromZero : Globals.initial.gFailload +
      UInt64.ofNat (counted lines index + 1) =
        UInt64.ofNat (counted lines index + 1) := UInt64.zero_add _
  rw [← counted_eq_iff inside, fromZero, UInt64.toNat_ofNat']
  omega

/-! ### The file -/

theorem rejectedPositions_eq_map :
    rejectedPositions tokenize lines =
      (lines.findIdxs (rejects tokenize)).map fun index => index + 1 :=
  List.findIdxs_start

theorem printed_iff
    (done : load tokenize lines Globals.initial = some loaded) :
    loaded.gFailitem.map UInt64.toNat = rejectedPositions tokenize lines ↔
      NoGapBefore tokenize lines := by
  have fromNothing : Globals.initial.gFailitem = [] := rfl
  rw [gFailitem_of_load done, rejectedPositions_eq_map, fromNothing,
    List.nil_append, List.map_map, List.map_inj_left]
  simp only [Function.comp_apply]
  constructor
  · intro sameNumbers index strline found isRejected
    obtain ⟨inside, rfl⟩ := List.getElem?_eq_some_iff.mp found
    exact (toNat_number_iff inside).mp (sameNumbers index
      (List.mem_findIdxs_iff_exists_getElem_pos.mpr ⟨inside, isRejected⟩))
  · intro noGap index member
    obtain ⟨inside, isRejected⟩ :=
      List.mem_findIdxs_iff_exists_getElem_pos.mp member
    exact (toNat_number_iff inside).mpr (noGap index lines[index]
      (List.getElem?_eq_getElem inside) isRejected)

theorem mem_rejectedPositions_iff {index : ℕ}
    (found : lines[index]? = some strline) :
    index + 1 ∈ rejectedPositions tokenize lines ↔
      rejects tokenize strline := by
  obtain ⟨inside, rfl⟩ := List.getElem?_eq_some_iff.mp found
  rw [rejectedPositions_eq_map, List.mem_map]
  simp only [Nat.add_right_cancel_iff, exists_eq_right,
    List.mem_findIdxs_iff_exists_getElem_pos]
  exact ⟨fun rejected => rejected.2, fun rejected => ⟨inside, rejected⟩⟩

theorem mem_rejectedLines_iff :
    strline ∈ rejectedLines tokenize lines ↔
      strline ∈ lines ∧ rejects tokenize strline := List.mem_filter

/-- `seterr` holds the rejected lines. -/
theorem mem_seterr_iff
    (done : load tokenize lines Globals.initial = some loaded) :
    strline ∈ loaded.seterr.rows ↔
      strline ∈ lines ∧ rejects tokenize strline := by
  obtain ⟨ended, same, -, rejected⟩ :=
    load_eq_putAll Globals.initial (tokenises_of_load done)
  obtain rfl : ended = loaded := Option.some.inj (same.symm.trans done)
  rw [rejected, ← mem_rejectedLines_iff]
  exact Table.mem_rows_putAll_empty_self

/-- For all lines that tokenise, the printed numbers are the positions of the
rejected lines, exactly if no empty line comes before a rejected one. -/
theorem numbersPoint_iff (tokenize : StdString → Option (List StdString))
    (lines : List StdString) (tokenises : Tokenises tokenize lines) :
    ∃ loaded, load tokenize lines Globals.initial = some loaded ∧
      (NumbersPoint tokenize lines loaded ↔ NoGapBefore tokenize lines) := by
  obtain ⟨loaded, done, -⟩ := load_eq_putAll Globals.initial tokenises
  refine ⟨loaded, done, ?_⟩
  constructor
  · intro points
    exact (printed_iff done).mp points.printed
  · intro noGap
    have printed := (printed_iff done).mpr noGap
    refine ⟨printed, ?_⟩
    intro index strline found
    have member := List.mem_of_getElem? found
    rw [printed, mem_rejectedPositions_iff found, mem_seterr_iff done]
    exact (and_iff_right member).symm

/-- A rejected line between two accepted ones, and an empty one behind it. -/
def gapBehind : List StdString :=
  ["A,accountofab1,K,1".toUTF8.toList, "B,short,L,2".toUTF8.toList, [],
    "C,accountofab3,M,3".toUTF8.toList]

theorem numbersPoint_gapBehind :
    ∃ loaded, load splitFields gapBehind Globals.initial = some loaded ∧
      NumbersPoint splitFields gapBehind loaded := by
  obtain ⟨loaded, done, points⟩ := numbersPoint_iff splitFields gapBehind
    (tokenises_splitFields gapBehind)
  refine ⟨loaded, done, points.mpr ?_⟩
  intro index strline found isRejected
  obtain ⟨inside, rfl⟩ := List.getElem?_eq_some_iff.mp found
  have position : index ∈ gapBehind.findIdxs (rejects splitFields) :=
    List.mem_findIdxs_iff_exists_getElem_pos.mpr ⟨inside, isRejected⟩
  have only : gapBehind.findIdxs (rejects splitFields) = [1] := by
    decide +kernel
  rw [only, List.mem_singleton] at position
  subst position
  decide +kernel

/-- Behind an empty line the second line has the number 1. -/
theorem numbersPoint_gapBefore :
    ¬ ∀ (tokenize : StdString → Option (List StdString))
      (lines : List StdString) (loaded : Globals), Tokenises tokenize lines →
        load tokenize lines Globals.initial = some loaded →
          NumbersPoint tokenize lines loaded := by
  intro points
  let lines : List StdString := [[], "B,short,L,2".toUTF8.toList]
  obtain ⟨loaded, done, -⟩ :=
    load_eq_putAll Globals.initial (tokenises_splitFields lines)
  have printed :=
    (points splitFields lines loaded (tokenises_splitFields lines) done).printed
  rw [gFailitem_of_load done] at printed
  exact absurd printed (by decide +kernel)

end Bright.Snapshot
