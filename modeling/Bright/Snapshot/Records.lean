import Bright.Snapshot.Import

/-!
# What the import keeps

The map is keyed by address, and a record replaces an earlier one with its
address without a word in `seterr` or `g_failitem`.  Every line is accounted
for, and every accepted line gets its two commands, exactly if no two accepted
lines have the same address.
-/

namespace Bright.Snapshot

open Bright.Lib
open Bright.Eosio (StdString)

/-- `checkinfo` accepts the record. -/
def Accepted (record : StdString × Stuser) : Prop :=
  12 ≤ record.2.account.length

instance decidableAccepted (record : StdString × Stuser) :
    Decidable (Accepted record) :=
  inferInstanceAs (Decidable (_ ≤ _))

section Tokenizer

variable (tokenize : StdString → Option (List StdString))

/-- The record that `parse` reads in a line. -/
def lineRecord (strline : StdString) : Option (StdString × Stuser) :=
  if strline.isEmpty then
    none
  else
    (tokenize strline).map fun tokens =>
      let reading := tokens.foldl readField Reading.start
      (reading.ulordaddr, reading.usr)

/-- The records of the accepted lines, in the order of the lines. -/
def acceptedRecords (lines : List StdString) : List (StdString × Stuser) :=
  (lines.filterMap (lineRecord tokenize)).filter fun record => Accepted record

/-- The lines that `checkinfo` rejects. -/
def rejectedLines (lines : List StdString) : List StdString :=
  lines.filter fun strline =>
    (lineRecord tokenize strline).any fun record => ¬ Accepted record

/-- No line that is not empty makes the tokenizer throw. -/
def Tokenises (lines : List StdString) : Prop :=
  ∀ strline ∈ lines, strline ≠ [] → ∃ tokens, tokenize strline = some tokens

/-- Every line is accounted for, and the commands are those of the accepted
lines. -/
structure LosesNothing (lines : List StdString) (loaded : Globals) : Prop where
  accounted : ∀ strline ∈ lines, strline ≠ [] →
    ∃ record, lineRecord tokenize strline = some record ∧
      (¬ Accepted record ∧ strline ∈ loaded.seterr.rows ∨
        Accepted record ∧ loaded.gMapuser.find record.1 = some record)
  issued : (run loaded.gMapuser).Perm
    ((acceptedRecords tokenize lines).flatMap fun record => commands record.2)

end Tokenizer

variable {tokenize : StdString → Option (List StdString)}
  {strline : StdString} {lines : List StdString} {globals loaded : Globals}
  {record : StdString × Stuser}

/-! ### The load loop -/

theorem lineRecord_eq_some_iff :
    lineRecord tokenize strline = some record ↔
      strline ≠ [] ∧ ∃ tokens, tokenize strline = some tokens ∧
        ((tokens.foldl readField Reading.start).ulordaddr,
          (tokens.foldl readField Reading.start).usr) = record := by
  rw [lineRecord]
  split_ifs with empty
  · have isEmpty := List.isEmpty_iff.mp empty
    simp [isEmpty]
  · have notEmpty : strline ≠ [] := fun isEmpty =>
      empty (List.isEmpty_iff.mpr isEmpty)
    simp [notEmpty]

/-- `parse` on a line with a record does what `checkinfo` says about it. -/
theorem parse_of_lineRecord (read : lineRecord tokenize strline = some record) :
    parse tokenize strline globals =
      if Accepted record then
        some { globals with
          gFailload := globals.gFailload + 1
          gMapuser := globals.gMapuser.put record }
      else
        some { globals with
          gFailload := globals.gFailload + 1
          gFailitem := globals.gFailitem ++ [globals.gFailload + 1]
          seterr := globals.seterr.put strline } := by
  obtain ⟨notEmpty, tokens, tokenised, rfl⟩ := lineRecord_eq_some_iff.mp read
  have reads : ¬ strline.isEmpty = true := fun empty =>
    notEmpty (List.isEmpty_iff.mp empty)
  rw [parse, if_neg reads, tokenised]
  dsimp only
  split_ifs with accepted
  · have enough := Nat.not_lt.mpr accepted
    rw [checkinfo, if_neg enough]
  · have short := Nat.not_le.mp accepted
    rw [checkinfo, if_pos short]

theorem exists_lineRecord (tokenises : Tokenises tokenize lines)
    (member : strline ∈ lines) (notEmpty : strline ≠ []) :
    ∃ record, lineRecord tokenize strline = some record := by
  obtain ⟨tokens, tokenised⟩ := tokenises strline member notEmpty
  exact ⟨_, lineRecord_eq_some_iff.mpr ⟨notEmpty, tokens, tokenised, rfl⟩⟩

theorem acceptedRecords_cons (read : lineRecord tokenize strline = some record)
    (rest : List StdString) :
    acceptedRecords tokenize (strline :: rest) =
      if Accepted record then record :: acceptedRecords tokenize rest
      else acceptedRecords tokenize rest := by
  rw [acceptedRecords, acceptedRecords, List.filterMap_cons_some read,
    List.filter_cons]
  simp only [decide_eq_true_eq]

theorem rejectedLines_cons (read : lineRecord tokenize strline = some record)
    (rest : List StdString) :
    rejectedLines tokenize (strline :: rest) =
      if Accepted record then rejectedLines tokenize rest
      else strline :: rejectedLines tokenize rest := by
  rw [rejectedLines, rejectedLines, List.filter_cons, read, Option.any_some]
  by_cases accepted : Accepted record
  · simp [accepted]
  · simp [accepted]

/-- The loop writes the accepted records into the map and the rejected lines
into the set. -/
theorem load_eq_putAll (globals : Globals)
    (tokenises : Tokenises tokenize lines) :
    ∃ loaded, load tokenize lines globals = some loaded ∧
      loaded.gMapuser =
        globals.gMapuser.putAll (acceptedRecords tokenize lines) ∧
      loaded.seterr =
        globals.seterr.putAll (rejectedLines tokenize lines) := by
  induction lines generalizing globals with
  | nil => exact ⟨globals, rfl, rfl, rfl⟩
  | cons strline rest inductionHypothesis =>
      have restTokenises : Tokenises tokenize rest := fun later member =>
        tokenises later (List.mem_cons_of_mem strline member)
      rcases eq_or_ne strline [] with empty | notEmpty
      · have none : lineRecord tokenize strline = none := by
          rw [empty]
          rfl
        obtain ⟨loaded, done, records, rejected⟩ :=
          inductionHypothesis globals restTokenises
        refine ⟨loaded, ?_, ?_, ?_⟩
        · rw [empty]
          exact done
        · rw [records, acceptedRecords, acceptedRecords,
            List.filterMap_cons_none none]
        · rw [rejected, rejectedLines, rejectedLines, List.filter_cons, none]
          rfl
      · obtain ⟨record, read⟩ :=
          exists_lineRecord tokenises List.mem_cons_self notEmpty
        rw [load, parse_of_lineRecord read, acceptedRecords_cons read,
          rejectedLines_cons read]
        split_ifs with accepted
        · exact inductionHypothesis _ restTokenises
        · exact inductionHypothesis _ restTokenises

/-- `parse` passes on the exception of the tokenizer. -/
theorem parse_of_throws (notEmpty : strline ≠ [])
    (thrown : tokenize strline = none) :
    parse tokenize strline globals = none := by
  have reads : ¬ strline.isEmpty = true := fun empty =>
    notEmpty (List.isEmpty_iff.mp empty)
  rw [parse, if_neg reads, thrown]

/-- The loop ends only if the tokenizer throws on no line. -/
theorem tokenises_of_load (done : load tokenize lines globals = some loaded) :
    Tokenises tokenize lines := by
  induction lines generalizing globals with
  | nil => exact nofun
  | cons first rest inductionHypothesis =>
      rw [load] at done
      cases parsed : parse tokenize first globals with
      | none => simp [parsed] at done
      | some after =>
          rw [parsed] at done
          intro strline member notEmpty
          rcases List.mem_cons.mp member with rfl | inRest
          · apply Option.ne_none_iff_exists'.mp
            intro thrown
            rw [parse_of_throws notEmpty thrown] at parsed
            cases parsed
          · exact inductionHypothesis done strline inRest notEmpty

theorem load_eq_none_iff :
    load tokenize lines globals = none ↔ ¬ Tokenises tokenize lines := by
  constructor
  · intro stops tokenises
    obtain ⟨loaded, done, -⟩ := load_eq_putAll globals tokenises
    rw [stops] at done
    cases done
  · intro throws
    by_contra ends
    obtain ⟨loaded, done⟩ := Option.ne_none_iff_exists'.mp ends
    exact throws (tokenises_of_load done)

/-! ### What is kept -/

theorem length_flatMap_commands (records : List (StdString × Stuser)) :
    (records.flatMap fun record => commands record.2).length =
      2 * records.length := by
  induction records with
  | nil => rfl
  | cons record records inductionHypothesis =>
      have two : (commands record.2).length = 2 := rfl
      rw [List.flatMap_cons, List.length_append, inductionHypothesis, two,
        List.length_cons]
      omega

theorem losesNothing_iff (tokenises : Tokenises tokenize lines)
    (records : loaded.gMapuser =
      Table.empty.putAll (acceptedRecords tokenize lines))
    (rejected : loaded.seterr =
      Table.empty.putAll (rejectedLines tokenize lines)) :
    LosesNothing tokenize lines loaded ↔
      ((acceptedRecords tokenize lines).map Prod.fst).Nodup := by
  constructor
  · intro kept
    have sameLength := kept.issued.length_eq
    rw [run, length_flatMap_commands, length_flatMap_commands] at sameLength
    apply Table.nodup_of_length_putAll_empty
    rw [← records]
    omega
  · intro different
    have kept := Table.rows_putAll_empty_perm_iff.mpr different
    rw [← records] at kept
    refine ⟨?_, kept.flatMap_right _⟩
    intro strline member notEmpty
    obtain ⟨record, read⟩ := exists_lineRecord tokenises member notEmpty
    refine ⟨record, read, ?_⟩
    by_cases accepted : Accepted record
    · have isAccepted : record ∈ acceptedRecords tokenize lines :=
        List.mem_filter.mpr ⟨List.mem_filterMap.mpr ⟨strline, member, read⟩,
          decide_eq_true accepted⟩
      exact Or.inr ⟨accepted, Table.find_of_mem (kept.mem_iff.mpr isAccepted)⟩
    · have isRejected : strline ∈ rejectedLines tokenize lines := by
        apply List.mem_filter.mpr
        rw [read]
        exact ⟨member, decide_eq_true accepted⟩
      obtain ⟨stored, found⟩ := Table.exists_find_putAll
        (Table.empty : Setusererror) isRejected
      have same : stored = strline := Table.key_of_find found
      rw [← rejected, same] at found
      exact Or.inl ⟨accepted, Table.mem_of_find found⟩

/-- The import ends for all lines that tokenise, and loses nothing exactly if
the addresses of the accepted lines are pairwise different. -/
theorem load_losesNothing_iff
    (tokenize : StdString → Option (List StdString)) (lines : List StdString)
    (tokenises : Tokenises tokenize lines) :
    ∃ loaded, load tokenize lines Globals.initial = some loaded ∧
      (LosesNothing tokenize lines loaded ↔
        ((acceptedRecords tokenize lines).map Prod.fst).Nodup) := by
  obtain ⟨loaded, done, records, rejected⟩ :=
    load_eq_putAll Globals.initial tokenises
  exact ⟨loaded, done, losesNothing_iff tokenises records rejected⟩

/-- The fields of a line without quotes and backslashes. -/
def splitFields (strline : StdString) : Option (List StdString) :=
  some (strline.splitOn ','.toUInt8)

/-- Two accepted lines with the addresses `A` and `B`, and a rejected one. -/
def distinctLines : List StdString :=
  ["A,accountofab1,K,1".toUTF8.toList, "B,accountofab2,L,2".toUTF8.toList,
    "A,short,M,3".toUTF8.toList]

theorem tokenises_splitFields (lines : List StdString) :
    Tokenises splitFields lines :=
  fun _ _ _ => ⟨_, rfl⟩

theorem load_losesNothing_distinctLines :
    ∃ loaded, load splitFields distinctLines Globals.initial = some loaded ∧
      LosesNothing splitFields distinctLines loaded := by
  obtain ⟨loaded, done, kept⟩ := load_losesNothing_iff splitFields
    distinctLines (tokenises_splitFields distinctLines)
  exact ⟨loaded, done, kept.mpr (by decide +kernel)⟩

/-- Of two accounts with the address `A` only the second is created. -/
theorem load_overwrites :
    ¬ ∀ (tokenize : StdString → Option (List StdString))
      (lines : List StdString) (loaded : Globals), Tokenises tokenize lines →
        load tokenize lines Globals.initial = some loaded →
          LosesNothing tokenize lines loaded := by
  intro losesNothing
  let lines : List StdString :=
    ["A,accountofab1,K,1".toUTF8.toList, "A,accountofab2,L,2".toUTF8.toList]
  obtain ⟨loaded, done, records, rejected⟩ :=
    load_eq_putAll Globals.initial (tokenises_splitFields lines)
  have kept := losesNothing splitFields lines loaded
    (tokenises_splitFields lines) done
  have sameAddress :
      ¬ ((acceptedRecords splitFields lines).map Prod.fst).Nodup := by
    decide +kernel
  exact sameAddress ((losesNothing_iff (tokenises_splitFields lines) records
    rejected).mp kept)

end Bright.Snapshot
