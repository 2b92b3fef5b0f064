import Bright.Lib.LastRow
import Bright.Snapshot.ItemNumbers

/-!
# What the order of the lines decides

The import is a store in which the last accepted record of an address wins.  The
commands are those of the last records, by the addresses in byte order
(`run_eq_statedCommands`).  So two orders of the same lines can only differ in
them where they differ in which record of an address comes last, and in the
numbers of the rejected lines.
-/

namespace Bright.Snapshot

open Bright.Lib
open Bright.Eosio (StdString)

section Tokenizer

variable (tokenize : StdString → Option (List StdString))

/-- The last accepted record of an address. -/
def lastRecord (lines : List StdString) (address : StdString) :
    Option (StdString × Stuser) :=
  lastRow (fun entry => entry.1) (acceptedRecords tokenize lines) address

/-- The commands of the last records, by the addresses in byte order. -/
def statedCommands (lines : List StdString) : List StdString :=
  ((keysInOrder (fun entry => entry.1) (acceptedRecords tokenize lines)).filterMap
    (lastRecord tokenize lines)).flatMap fun record => commands record.2

end Tokenizer

variable {tokenize : StdString → Option (List StdString)}
  {lines other : List StdString} {address : StdString}
  {globals loaded otherLoaded : Globals}

/-! ### The map -/

theorem gMapuser_of_load
    (done : load tokenize lines Globals.initial = some loaded) :
    loaded.gMapuser = Table.empty.putAll (acceptedRecords tokenize lines) := by
  obtain ⟨ended, same, records, -⟩ :=
    load_eq_putAll Globals.initial (tokenises_of_load done)
  rw [← Option.some.inj (same.symm.trans done)]
  exact records

theorem run_eq_statedCommands
    (done : load tokenize lines Globals.initial = some loaded) :
    run loaded.gMapuser = statedCommands tokenize lines := by
  rw [run, gMapuser_of_load done, rows_putAll_empty]
  rfl

theorem gMapuser_eq_iff
    (done : load tokenize lines Globals.initial = some loaded)
    (otherDone : load tokenize other Globals.initial = some otherLoaded) :
    loaded.gMapuser = otherLoaded.gMapuser ↔
      ∀ address, lastRecord tokenize lines address =
        lastRecord tokenize other address := by
  rw [gMapuser_of_load done, gMapuser_of_load otherDone]
  exact putAll_empty_eq_iff

/-! ### The counter -/

theorem gFailload_of_load (done : load tokenize lines globals = some loaded) :
    loaded.gFailload = globals.gFailload +
      UInt64.ofNat (lines.countP fun strline => strline ≠ []) := by
  induction lines generalizing globals with
  | nil =>
      obtain rfl := Option.some.inj done
      exact (UInt64.add_zero _).symm
  | cons strline rest inductionHypothesis =>
      have tokenises := tokenises_of_load done
      rcases eq_or_ne strline [] with rfl | notEmpty
      · have ended : load tokenize rest globals = some loaded := done
        rw [inductionHypothesis ended, List.countP_cons_of_neg (by simp)]
      · obtain ⟨record, read⟩ :=
          exists_lineRecord tokenises List.mem_cons_self notEmpty
        have oneMore : ∀ count : ℕ, globals.gFailload + 1 + UInt64.ofNat count =
            globals.gFailload + UInt64.ofNat (count + 1) := by
          intro count
          rw [UInt64.ofNat_add, UInt64.add_assoc, UInt64.add_comm 1]
          rfl
        rw [load, parse_of_lineRecord read] at done
        rw [List.countP_cons_of_pos (by simpa using notEmpty), ← oneMore]
        split_ifs at done with accepted
        · exact inductionHypothesis done
        · exact inductionHypothesis done

theorem length_gFailitem
    (done : load tokenize lines Globals.initial = some loaded) :
    loaded.gFailitem.length = lines.countP (rejects tokenize) := by
  have fromNothing : Globals.initial.gFailitem = [] := rfl
  rw [gFailitem_of_load done, fromNothing, List.nil_append, List.length_map,
    List.length_findIdxs]

theorem seterr_eq_of_perm
    (done : load tokenize lines Globals.initial = some loaded)
    (otherDone : load tokenize other Globals.initial = some otherLoaded)
    (permuted : lines.Perm other) : loaded.seterr = otherLoaded.seterr := by
  apply Table.ext_find
  intro strline
  ext stored
  rw [Table.find_eq_some_iff, Table.find_eq_some_iff, mem_seterr_iff done,
    mem_seterr_iff otherDone, permuted.mem_iff]

/-- All lines that tokenise are imported as the last accepted records of their
addresses, in the byte order of these.  Two files fill the map alike exactly if
every address has the same last record in them, and with the same lines in any
order they reject the same lines and count alike. -/
theorem imports_agree (tokenize : StdString → Option (List StdString))
    (lines other : List StdString) (tokenises : Tokenises tokenize lines)
    (otherTokenises : Tokenises tokenize other) :
    ∃ loaded otherLoaded,
      load tokenize lines Globals.initial = some loaded ∧
      load tokenize other Globals.initial = some otherLoaded ∧
      run loaded.gMapuser = statedCommands tokenize lines ∧
      (loaded.gMapuser = otherLoaded.gMapuser ↔
        ∀ address, lastRecord tokenize lines address =
          lastRecord tokenize other address) ∧
      (lines.Perm other →
        loaded.seterr = otherLoaded.seterr ∧
        loaded.gFailload = otherLoaded.gFailload ∧
        loaded.gFailitem.length = otherLoaded.gFailitem.length) := by
  obtain ⟨loaded, done, -⟩ := load_eq_putAll Globals.initial tokenises
  obtain ⟨otherLoaded, otherDone, -⟩ :=
    load_eq_putAll Globals.initial otherTokenises
  refine ⟨loaded, otherLoaded, done, otherDone, run_eq_statedCommands done,
    gMapuser_eq_iff done otherDone, ?_⟩
  intro permuted
  refine ⟨seterr_eq_of_perm done otherDone permuted, ?_, ?_⟩
  · rw [gFailload_of_load done, gFailload_of_load otherDone,
      permuted.countP_eq]
  · rw [length_gFailitem done, length_gFailitem otherDone, permuted.countP_eq]

/-- The lines of `distinctLines` backwards. -/
theorem imports_agree_distinctLines :
    ∃ loaded otherLoaded,
      load splitFields distinctLines Globals.initial = some loaded ∧
      load splitFields distinctLines.reverse Globals.initial =
        some otherLoaded ∧
      loaded.seterr = otherLoaded.seterr := by
  obtain ⟨loaded, otherLoaded, done, otherDone, -, -, sameLines⟩ :=
    imports_agree splitFields distinctLines distinctLines.reverse
      (tokenises_splitFields _) (tokenises_splitFields _)
  exact ⟨loaded, otherLoaded, done, otherDone,
    (sameLines (List.reverse_perm distinctLines).symm).1⟩

end Bright.Snapshot
