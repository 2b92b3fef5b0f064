import Bright.Snapshot.Fields
import Mathlib.Algebra.Order.Ring.Rat

/-!
# The total of the payments

`run` adds up what `boost::lexical_cast<double>` reads in the quantities, and
pays the quantities themselves.  A quantity that is not accepted is reported
with a message, left out of the sum, and paid all the same.

The conversion is the parameter `lexicalCast`, with `none` for
`bad_lexical_cast`; sums are exact.
-/

namespace Bright.Snapshot

open Bright.Lib
open Bright.Eosio (StdString)
open Bright.Name (cString cString_eq_self_iff)

/-- The sum that `run` prints. -/
def assetall (lexicalCast : StdString → Option ℚ) (gMapuser : Mapuser) : ℚ :=
  gMapuser.rows.foldl
    (fun assetall entry =>
      match lexicalCast entry.2.quantity with
      | some asset => assetall + asset
      | none => assetall) 0

/-- The transfer command before it is passed on as a C string. -/
def transferLine (usr : Stuser) : StdString :=
  head ++ transfer ++ usr.account ++ " \"".toUTF8.toList ++ usr.quantity ++
    " UOS \"".toUTF8.toList

/-- The bytes of decimal numbers. -/
def decimalBytes : StdString := "+-.0123456789Ee".toUTF8.toList

/-- The conversion throws on the empty string and on any text with a byte that
no decimal number has. -/
def DecimalOnly (lexicalCast : StdString → Option ℚ) : Prop :=
  ∀ text asset, lexicalCast text = some asset →
    text ≠ [] ∧ ∀ byte ∈ text, byte ∈ decimalBytes

/-- The transfer command for a user carries the quantity of the record, and that
is the amount `asset`. -/
structure Transfers (lexicalCast : StdString → Option ℚ) (usr : Stuser)
    (asset : ℚ) : Prop where
  accepted : lexicalCast usr.quantity = some asset
  carried : (commands usr).getLast? = some (transferLine usr)

/-- Every transfer command carries an amount, and the total is their sum. -/
def PaysTheTotal (lexicalCast : StdString → Option ℚ) (gMapuser : Mapuser) :
    Prop :=
  ∃ amounts : List ℚ,
    List.Forall₂ (fun entry asset => Transfers lexicalCast entry.2 asset)
      gMapuser.rows amounts ∧
    assetall lexicalCast gMapuser = amounts.sum

/-- The fields of an accepted line whose address no accepted line behind it
has. -/
def KeptFields (tokenize : StdString → Option (List StdString))
    (lines : List StdString) (tokens : List StdString) : Prop :=
  ∃ earlier strline later, lines = earlier ++ strline :: later ∧
    strline ≠ [] ∧ tokenize strline = some tokens ∧
    12 ≤ (lastField 1 tokens).length ∧
    ∀ other ∈ acceptedRecords tokenize later, other.1 ≠ lastField 0 tokens

/-- The quantity of every kept line is a number as it stands in the line, and
its account has no null byte. -/
def QuantitiesCount (lexicalCast : StdString → Option ℚ)
    (tokenize : StdString → Option (List StdString))
    (lines : List StdString) : Prop :=
  ∀ tokens, KeptFields tokenize lines tokens →
    (lexicalCast (lastField 3 tokens)).isSome ∧ 0 ∉ lastField 1 tokens

variable {tokenize : StdString → Option (List StdString)}
  {lexicalCast : StdString → Option ℚ} {strline : StdString}
  {lines : List StdString} {loaded : Globals} {record : StdString × Stuser}
  {entries : List (StdString × Stuser)} {usr : Stuser}

/-! ### The records in the map -/

theorem acceptedRecords_eq_filterMap (lines : List StdString) :
    acceptedRecords tokenize lines =
      lines.filterMap fun strline =>
        (lineRecord tokenize strline).filter fun record => Accepted record :=
  List.filter_filterMap

/-- An entry of the map is the record of a line behind which no accepted line
has its address. -/
theorem mem_gMapuser_iff
    (records : loaded.gMapuser =
      Table.empty.putAll (acceptedRecords tokenize lines)) :
    record ∈ loaded.gMapuser.rows ↔
      ∃ earlier strline later, lines = earlier ++ strline :: later ∧
        lineRecord tokenize strline = some record ∧ Accepted record ∧
        ∀ other ∈ acceptedRecords tokenize later, other.1 ≠ record.1 := by
  rw [records, Table.mem_rows_putAll_empty_iff]
  constructor
  · intro kept
    obtain ⟨before, after, parts, notLater⟩ := kept
    rw [acceptedRecords_eq_filterMap, List.filterMap_eq_append_iff] at parts
    obtain ⟨front, back, rfl, -, backParts⟩ := parts
    rw [List.filterMap_eq_cons_iff] at backParts
    obtain ⟨skipped, strline, later, rfl, -, read, rfl⟩ := backParts
    rw [Option.filter_eq_some_iff, decide_eq_true_eq] at read
    rw [← acceptedRecords_eq_filterMap] at notLater
    refine ⟨front ++ skipped, strline, later, ?_, read.1, read.2, notLater⟩
    rw [List.append_assoc]
  · intro kept
    obtain ⟨earlier, strline, later, rfl, read, accepted, notLater⟩ := kept
    refine ⟨acceptedRecords tokenize earlier, acceptedRecords tokenize later,
      ?_, notLater⟩
    have readHere := acceptedRecords_cons read later
    rw [if_pos accepted] at readHere
    rw [← readHere]
    simp only [acceptedRecords, List.filterMap_append, List.filter_append]

/-- The entries of the map in terms of the fields. -/
theorem mem_gMapuser_iff_keptFields
    (records : loaded.gMapuser =
      Table.empty.putAll (acceptedRecords tokenize lines)) :
    record ∈ loaded.gMapuser.rows ↔
      ∃ tokens, KeptFields tokenize lines tokens ∧
        record = (lastField 0 tokens,
          ⟨lastField 1 tokens, lastField 2 tokens,
            replaceReturn (lastField 3 tokens)⟩) := by
  rw [mem_gMapuser_iff records]
  constructor
  · intro kept
    obtain ⟨earlier, strline, later, parts, read, accepted, notLater⟩ := kept
    obtain ⟨notEmpty, tokens, tokenised, rfl⟩ := lineRecord_eq_some_iff.mp read
    rw [foldl_readField] at accepted notLater ⊢
    exact ⟨tokens, ⟨earlier, strline, later, parts, notEmpty, tokenised,
      accepted, notLater⟩, rfl⟩
  · intro kept
    obtain ⟨tokens, ⟨earlier, strline, later, parts, notEmpty, tokenised,
      accepted, notLater⟩, rfl⟩ := kept
    exact ⟨earlier, strline, later, parts,
      lineRecord_of_tokens notEmpty tokenised, accepted, notLater⟩

/-! ### Carriage returns -/

theorem replaceReturn_of_notMem {field : StdString}
    (noReturn : '\r'.toUInt8 ∉ field) : replaceReturn field = field := by
  induction field with
  | nil => rfl
  | cons c rest inductionHypothesis =>
      rw [List.mem_cons, not_or] at noReturn
      rw [replaceReturn, if_neg (Ne.symm noReturn.1),
        inductionHypothesis noReturn.2]

theorem space_mem_replaceReturn {field : StdString}
    (hasReturn : '\r'.toUInt8 ∈ field) :
    ' '.toUInt8 ∈ replaceReturn field := by
  induction field with
  | nil => exact absurd hasReturn List.not_mem_nil
  | cons c rest inductionHypothesis =>
      rw [replaceReturn]
      split_ifs with isReturn
      · exact List.mem_cons_self
      · have inRest :=
          (List.mem_cons.mp hasReturn).resolve_left (Ne.symm isReturn)
        exact List.mem_cons_of_mem c (inductionHypothesis inRest)

theorem notMem_of_accepted (decimalOnly : DecimalOnly lexicalCast)
    {text : StdString} (accepted : (lexicalCast text).isSome) {byte : UInt8}
    (other : byte ∉ decimalBytes) : byte ∉ text := by
  obtain ⟨asset, read⟩ := Option.isSome_iff_exists.mp accepted
  exact fun member => other ((decimalOnly text asset read).2 byte member)

/-- With the carriage return gone the conversion still accepts only what it
accepts as it stands. -/
theorem accepts_replaceReturn_iff (decimalOnly : DecimalOnly lexicalCast)
    (field : StdString) :
    (lexicalCast (replaceReturn field)).isSome ↔
      (lexicalCast field).isSome := by
  by_cases hasReturn : '\r'.toUInt8 ∈ field
  · constructor
    · intro accepted
      exact absurd (space_mem_replaceReturn hasReturn)
        (notMem_of_accepted decimalOnly accepted (by decide +kernel))
    · intro accepted
      exact absurd hasReturn
        (notMem_of_accepted decimalOnly accepted (by decide +kernel))
  · rw [replaceReturn_of_notMem hasReturn]

/-! ### What the commands carry -/

theorem transferLine_carried_iff :
    (commands usr).getLast? = some (transferLine usr) ↔
      0 ∉ usr.account ∧ 0 ∉ usr.quantity := by
  have last : (commands usr).getLast? = some (cString (transferLine usr)) :=
    rfl
  rw [last, Option.some_inj, cString_eq_self_iff, transferLine]
  simp only [List.mem_append, not_or]
  constructor
  · intro parts
    exact ⟨parts.1.1.1.2, parts.1.2⟩
  · intro noZero
    exact ⟨⟨⟨⟨⟨by decide +kernel, by decide +kernel⟩, noZero.1⟩,
      by decide +kernel⟩, noZero.2⟩, by decide +kernel⟩

theorem exists_transfers_iff (decimalOnly : DecimalOnly lexicalCast) :
    (∃ asset, Transfers lexicalCast usr asset) ↔
      (lexicalCast usr.quantity).isSome ∧ 0 ∉ usr.account := by
  constructor
  · intro transferred
    obtain ⟨asset, accepted, carried⟩ := transferred
    exact ⟨Option.isSome_iff_exists.mpr ⟨asset, accepted⟩,
      (transferLine_carried_iff.mp carried).1⟩
  · intro counts
    obtain ⟨asset, accepted⟩ := Option.isSome_iff_exists.mp counts.1
    have noZero : 0 ∉ usr.quantity :=
      notMem_of_accepted decimalOnly counts.1 (by decide +kernel)
    exact ⟨asset, accepted, transferLine_carried_iff.mpr ⟨counts.2, noZero⟩⟩

/-- The loop of `run` adds the amounts to what it has. -/
theorem foldl_assetall {amounts : List ℚ}
    (transferred : List.Forall₂
      (fun entry asset => Transfers lexicalCast entry.2 asset) entries amounts)
    (start : ℚ) :
    entries.foldl
        (fun assetall entry =>
          match lexicalCast entry.2.quantity with
          | some asset => assetall + asset
          | none => assetall) start =
      start + amounts.sum := by
  induction transferred generalizing start with
  | nil => exact (add_zero start).symm
  | cons first _ inductionHypothesis =>
      rw [List.foldl_cons, first.accepted, inductionHypothesis,
        List.sum_cons, add_assoc]

/-- The total is right as soon as every command carries an amount. -/
theorem paysTheTotal_iff (gMapuser : Mapuser) :
    PaysTheTotal lexicalCast gMapuser ↔
      ∀ entry ∈ gMapuser.rows, ∃ asset, Transfers lexicalCast entry.2 asset := by
  constructor
  · intro pays entry member
    obtain ⟨amounts, transferred, -⟩ := pays
    obtain ⟨position, inside, rfl⟩ := List.mem_iff_getElem.mp member
    have paired := transferred.length_eq ▸ inside
    exact ⟨amounts[position], transferred.get inside paired⟩
  · intro transferred
    have paired : ∃ amounts : List ℚ, List.Forall₂
        (fun entry asset => Transfers lexicalCast entry.2 asset)
        gMapuser.rows amounts := by
      choose! amount transfers using transferred
      refine ⟨gMapuser.rows.map amount, ?_⟩
      rw [List.forall₂_map_right_iff, List.forall₂_same]
      exact transfers
    obtain ⟨amounts, all⟩ := paired
    refine ⟨amounts, all, ?_⟩
    rw [assetall, foldl_assetall all, zero_add]

/-- Whenever the import gets as far as the commands, each transfer carries an
amount and the total is their sum exactly if the quantity of every kept line
is a number as it stands. -/
theorem totalPaid_iff (lexicalCast : StdString → Option ℚ)
    (decimalOnly : DecimalOnly lexicalCast)
    (tokenize : StdString → Option (List StdString)) (lines : List StdString)
    (loaded : Globals)
    (done : load tokenize lines Globals.initial = some loaded) :
    PaysTheTotal lexicalCast loaded.gMapuser ↔
      QuantitiesCount lexicalCast tokenize lines := by
  obtain ⟨ended, same, records, -⟩ :=
    load_eq_putAll Globals.initial (tokenises_of_load done)
  obtain rfl : ended = loaded := Option.some.inj (same.symm.trans done)
  rw [paysTheTotal_iff]
  simp only [exists_transfers_iff decimalOnly,
    mem_gMapuser_iff_keptFields records]
  constructor
  · intro counts tokens kept
    have counted := counts _ ⟨tokens, kept, rfl⟩
    exact ⟨(accepts_replaceReturn_iff decimalOnly _).mp counted.1, counted.2⟩
  · intro counts entry kept
    obtain ⟨tokens, fields, rfl⟩ := kept
    have counted := counts tokens fields
    exact ⟨(accepts_replaceReturn_iff decimalOnly _).mpr counted.1, counted.2⟩

/-! ### Numbers without sign, point and exponent -/

def digitBytes : StdString := "0123456789".toUTF8.toList

/-- The conversion of texts that consist of digits. -/
def digitsCast (text : StdString) : Option ℚ :=
  if text.isEmpty then
    none
  else if text.all digitBytes.contains then
    let value := text.foldl
      (fun value digit => 10 * value + (digit.toNat - '0'.toNat)) 0
    some (value : ℚ)
  else
    none

theorem digitsCast_decimalOnly : DecimalOnly digitsCast := by
  intro text asset read
  rw [digitsCast] at read
  split_ifs at read with empty digits
  constructor
  · intro isEmpty
    exact empty (List.isEmpty_iff.mpr isEmpty)
  · intro byte member
    have isDigit :=
      List.contains_iff_mem.mp (List.all_eq_true.mp digits byte member)
    have allDecimal : ∀ digit ∈ digitBytes, digit ∈ decimalBytes := by
      decide +kernel
    exact allDecimal byte isDigit

theorem totalPaid_distinctLines :
    ∃ loaded, load splitFields distinctLines Globals.initial = some loaded ∧
      PaysTheTotal digitsCast loaded.gMapuser := by
  obtain ⟨loaded, done, -⟩ := load_eq_putAll Globals.initial
    (tokenises_splitFields distinctLines)
  refine ⟨loaded, done, ?_⟩
  apply (totalPaid_iff digitsCast digitsCast_decimalOnly splitFields
    distinctLines loaded done).mpr
  intro tokens kept
  obtain ⟨earlier, strline, later, parts, -, tokenised, -⟩ := kept
  obtain rfl : strline.splitOn ','.toUInt8 = tokens :=
    Option.some.inj tokenised
  have member : strline ∈ distinctLines := by
    rw [parts]
    exact List.mem_append_right earlier List.mem_cons_self
  have allCount : ∀ strline ∈ distinctLines,
      (digitsCast (lastField 3 (strline.splitOn ','.toUInt8))).isSome ∧
        0 ∉ lastField 1 (strline.splitOn ','.toUInt8) := by
    decide +kernel
  exact allCount strline member

/-- A line of a file with CRLF ends. -/
def returnLine : StdString := "A,accountofab1,K,1\r".toUTF8.toList

/-- Its quantity is paid and does not count. -/
theorem totalPaid_returnLine :
    ¬ ∀ (lexicalCast : StdString → Option ℚ), DecimalOnly lexicalCast →
      ∀ (tokenize : StdString → Option (List StdString))
        (lines : List StdString) (loaded : Globals),
        load tokenize lines Globals.initial = some loaded →
          PaysTheTotal lexicalCast loaded.gMapuser := by
  intro pays
  obtain ⟨loaded, done, records, -⟩ := load_eq_putAll Globals.initial
    (tokenises_splitFields [returnLine])
  have paid := pays digitsCast digitsCast_decimalOnly splitFields [returnLine]
    loaded done
  let entry : StdString × Stuser :=
    ("A".toUTF8.toList, ⟨"accountofab1".toUTF8.toList, "K".toUTF8.toList,
      "1 ".toUTF8.toList⟩)
  have member : entry ∈ loaded.gMapuser.rows := by
    rw [records]
    decide +kernel
  obtain ⟨asset, accepted, -⟩ := (paysTheTotal_iff _).mp paid entry member
  have notAccepted : digitsCast entry.2.quantity = none := by
    decide +kernel
  rw [notAccepted] at accepted
  cases accepted

end Bright.Snapshot
