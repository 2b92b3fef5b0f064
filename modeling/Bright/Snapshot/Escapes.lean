import Bright.Snapshot.Records

/-!
# Lines that the tokenizer cannot split

`parse` puts a line that `checkinfo` rejects into `seterr`, and `main` goes on
with the next one.  The exception that the tokenizer throws for an escape it
does not know passes through both, so a single such line ends the tool before
`run`: no account of any line is created, and no line is written to the file
of errors.
-/

namespace Bright.Snapshot

open Bright.Lib
open Bright.Eosio (StdString)
open Bright.Name (cString)

def backslash : UInt8 := '\\'.toUInt8

def quote : UInt8 := '"'.toUInt8

def comma : UInt8 := ','.toUInt8

/-- The byte that an escape stands for. -/
def unescape (escaped : UInt8) : Option UInt8 :=
  if escaped = 'n'.toUInt8 then some '\n'.toUInt8
  else if escaped = quote ∨ escaped = comma ∨ escaped = backslash then
    some escaped
  else none

/-- Some escape, read from the left, is cut off by the end of the line or not
known. -/
def badEscape : StdString → Bool
  | [] => false
  | c :: rest =>
      if c = backslash then
        match rest with
        | [] => true
        | escaped :: rest =>
            match unescape escaped with
            | none => true
            | some _ => badEscape rest
      else
        badEscape rest

/-- The tokenizer throws exactly on the lines with a bad escape. -/
def ThrowsOnBadEscape (tokenize : StdString → Option (List StdString)) :
    Prop :=
  ∀ strline, tokenize strline = none ↔ badEscape strline

/-- What `savefile` appends to the file of errors. -/
def savefile (seterr : Setusererror) : StdString :=
  seterr.rows.flatMap cString

/-- The commands that the tool issues and what it appends to the file of
errors; `none` is the end by an exception before either. -/
def main (tokenize : StdString → Option (List StdString))
    (lines : List StdString) : Option (List StdString × StdString) :=
  match load tokenize lines Globals.initial with
  | none => none
  | some loaded => some (run loaded.gMapuser, savefile loaded.seterr)

/-- The tool gets to the end of the file, creates the accounts of the accepted
lines, and has the lines that do not tokenise among the errors. -/
structure Finishes (tokenize : StdString → Option (List StdString))
    (lines : List StdString) (loaded : Globals) : Prop where
  ended : load tokenize lines Globals.initial = some loaded
  issued : main tokenize lines =
    some (run (Table.empty.putAll (acceptedRecords tokenize lines)),
      savefile loaded.seterr)
  reported : ∀ strline ∈ lines, strline ≠ [] → tokenize strline = none →
    strline ∈ loaded.seterr.rows

variable {tokenize : StdString → Option (List StdString)}
  {strline : StdString} {lines : List StdString}

/-! ### The loop and the escapes -/

theorem badEscape_cons_of_ne {c : UInt8} (plain : c ≠ backslash)
    (rest : StdString) : badEscape (c :: rest) = badEscape rest := by
  rw [badEscape.eq_def]
  exact if_neg plain

theorem tokenises_iff (throws : ThrowsOnBadEscape tokenize) :
    Tokenises tokenize lines ↔
      ∀ strline ∈ lines, badEscape strline = false := by
  constructor
  · intro tokenises strline member
    rcases eq_or_ne strline [] with rfl | notEmpty
    · rfl
    · obtain ⟨tokens, tokenised⟩ := tokenises strline member notEmpty
      rw [← Bool.not_eq_true, ← throws strline, tokenised]
      exact nofun
  · intro good strline member _
    apply Option.ne_none_iff_exists'.mp
    intro thrown
    have bad := (throws strline).mp thrown
    rw [good strline member] at bad
    cases bad

/-- A bad escape in any line ends the tool before the first command. -/
theorem main_eq_none_iff (throws : ThrowsOnBadEscape tokenize) :
    main tokenize lines = none ↔
      ∃ strline ∈ lines, badEscape strline = true := by
  have stops : main tokenize lines = none ↔
      load tokenize lines Globals.initial = none := by
    rw [main]
    cases load tokenize lines Globals.initial with
    | none => exact iff_of_true rfl rfl
    | some loaded => exact iff_of_false nofun nofun
  rw [stops, load_eq_none_iff, tokenises_iff throws]
  simp only [not_forall, Bool.not_eq_false, exists_prop]

/-- The tool finishes exactly if no line has a bad escape. -/
theorem finishes_iff (tokenize : StdString → Option (List StdString))
    (throws : ThrowsOnBadEscape tokenize) (lines : List StdString) :
    (∃ loaded, Finishes tokenize lines loaded) ↔
      ∀ strline ∈ lines, badEscape strline = false := by
  rw [← tokenises_iff throws]
  constructor
  · intro finishes
    obtain ⟨loaded, ended, -, -⟩ := finishes
    exact tokenises_of_load ended
  · intro tokenises
    obtain ⟨loaded, ended, records, -⟩ :=
      load_eq_putAll Globals.initial tokenises
    refine ⟨loaded, ended, ?_, ?_⟩
    · rw [main, ended]
      dsimp only
      rw [records]
      rfl
    · intro strline member notEmpty thrown
      obtain ⟨tokens, tokenised⟩ := tokenises strline member notEmpty
      rw [thrown] at tokenised
      cases tokenised

/-! ### Separators, quotes and escapes -/

/-- The fields of a line from inside a field that begins with `field`. -/
def escapedFields (inQuote : Bool) (field : StdString) :
    StdString → Option (List StdString)
  | [] => some [field]
  | c :: rest =>
      if c = backslash then
        match rest with
        | [] => none
        | escaped :: rest =>
            match unescape escaped with
            | none => none
            | some byte => escapedFields inQuote (field ++ [byte]) rest
      else if c = comma ∧ inQuote = false then
        (escapedFields false [] rest).map (List.cons field)
      else if c = quote then
        escapedFields (!inQuote) field rest
      else
        escapedFields inQuote (field ++ [c]) rest

/-- The fields of a line, with the characters that the tokenizer takes for
separators, quotes and escapes by default. -/
def escapedList (strline : StdString) : Option (List StdString) :=
  if strline.isEmpty then some [] else escapedFields false [] strline

theorem escapedFields_eq_none_iff (inQuote : Bool) (field : StdString)
    (strline : StdString) :
    escapedFields inQuote field strline = none ↔ badEscape strline := by
  fun_induction escapedFields inQuote field strline with
  | case1 => exact iff_of_false nofun nofun
  | case2 => exact iff_of_true rfl rfl
  | case3 inQuote field escaped rest unknown =>
      have bad : badEscape (backslash :: escaped :: rest) = true := by
        simp [badEscape, unknown]
      exact iff_of_true rfl bad
  | case4 inQuote field escaped rest byte known inductionHypothesis =>
      have passed :
          badEscape (backslash :: escaped :: rest) = badEscape rest := by
        simp [badEscape, known]
      rw [inductionHypothesis, passed]
  | case5 inQuote field c rest plain _ inductionHypothesis =>
      rw [Option.map_eq_none_iff, inductionHypothesis,
        badEscape_cons_of_ne plain]
  | case6 inQuote field rest plain _ inductionHypothesis =>
      rw [inductionHypothesis, badEscape_cons_of_ne plain]
  | case7 inQuote field c rest plain _ _ inductionHypothesis =>
      rw [inductionHypothesis, badEscape_cons_of_ne plain]

theorem escapedList_throwsOnBadEscape : ThrowsOnBadEscape escapedList := by
  intro strline
  rw [escapedList]
  split_ifs with empty
  · rw [List.isEmpty_iff.mp empty]
    exact iff_of_false nofun nofun
  · exact escapedFields_eq_none_iff false [] strline

/-- Quoted and escaped separators, and a line that `checkinfo` rejects. -/
def escapedLines : List StdString :=
  ["A,\"account,ofab1\",K,1".toUTF8.toList,
    "B,account\\,ofab2,L,2".toUTF8.toList, "C,short,M,3".toUTF8.toList]

theorem finishes_escapedLines :
    ∃ loaded, Finishes escapedList escapedLines loaded := by
  have good : ∀ strline ∈ escapedLines, badEscape strline = false := by
    decide +kernel
  exact (finishes_iff escapedList escapedList_throwsOnBadEscape
    escapedLines).mpr good

/-- An unknown escape in the second line takes the first one with it. -/
theorem finishes_unknownEscape :
    ¬ ∀ tokenize, ThrowsOnBadEscape tokenize →
      ∀ lines, ∃ loaded, Finishes tokenize lines loaded := by
  intro finishes
  let lines : List StdString :=
    ["A,accountofab1,K,1".toUTF8.toList, "B,account\\xofab2,L,2".toUTF8.toList]
  obtain ⟨loaded, -, issued, -⟩ :=
    finishes escapedList escapedList_throwsOnBadEscape lines
  have thrown : main escapedList lines = none := by
    decide +kernel
  rw [thrown] at issued
  cases issued

end Bright.Snapshot
