import Bright.Snapshot.Records

/-!
# The fields of a line

`parse` selects the variable for a field by a counter of 8 bits, and nothing
bounds the number of fields.  The counter is the index of the field modulo 256,
so the fields behind the 256th overwrite the first four again
(`foldl_readField`).
-/

namespace Bright.Snapshot

open Bright.Lib
open Bright.Eosio (StdString)

/-- The index of the last field that goes where the field `slot` goes. -/
def lastIndex (slot length : ℕ) : ℕ := slot + 256 * ((length - 1 - slot) / 256)

/-- The last field that goes where the field `slot` goes. -/
def lastField (slot : ℕ) (tokens : List StdString) : StdString :=
  tokens.getD (lastIndex slot tokens.length) []

/-- The record of the first four fields. -/
def statedRecord (tokens : List StdString) : StdString × Stuser :=
  (tokens.getD 0 [],
    ⟨tokens.getD 1 [], tokens.getD 2 [], replaceReturn (tokens.getD 3 [])⟩)

/-- The tokenizer that stops after four fields. -/
def firstFour (tokenize : StdString → Option (List StdString))
    (strline : StdString) : Option (List StdString) :=
  (tokenize strline).map (List.take 4)

/-- The fields that go where one of the first four goes end with one that is
stored like it. -/
structure LaterFieldsAgree (tokens : List StdString) : Prop where
  address : lastField 0 tokens = tokens.getD 0 []
  account : lastField 1 tokens = tokens.getD 1 []
  pubkey : lastField 2 tokens = tokens.getD 2 []
  quantity : replaceReturn (lastField 3 tokens) =
    replaceReturn (tokens.getD 3 [])

variable {tokenize : StdString → Option (List StdString)}
  {strline : StdString} {tokens : List StdString} {slot : ℕ}

/-! ### The counter -/

theorem ofNat_succ_eq_iff {count : ℕ} (slot : ℕ) :
    Int8.ofNat (count + 1) = Int8.ofNat (slot + 1) ↔
      count % 256 = slot % 256 := by
  rw [← Int8.toBitVec_inj, Int8.toBitVec_ofNat', Int8.toBitVec_ofNat',
    ← BitVec.toNat_inj, BitVec.toNat_ofNat, BitVec.toNat_ofNat]
  omega

theorem ofNat_succ_succ (count : ℕ) :
    Int8.ofNat (count + 1) + 1 = Int8.ofNat (count + 1 + 1) :=
  (Int8.ofNat_add (count + 1) 1).symm

/-- The switch of `parse` over the index of the field. -/
theorem readField_ofNat (ulordaddr account pubkey quantity : StdString)
    (count : ℕ) (token : StdString) :
    readField ⟨ulordaddr, ⟨account, pubkey, quantity⟩, Int8.ofNat (count + 1)⟩
        token =
      ⟨if count % 256 = 0 then token else ulordaddr,
        ⟨if count % 256 = 1 then token else account,
          if count % 256 = 2 then token else pubkey,
          if count % 256 = 3 then replaceReturn token else quantity⟩,
        Int8.ofNat (count + 1 + 1)⟩ := by
  have first : Int8.ofNat (count + 1) = 1 ↔ count % 256 = 0 :=
    ofNat_succ_eq_iff 0
  have second : Int8.ofNat (count + 1) = 2 ↔ count % 256 = 1 :=
    ofNat_succ_eq_iff 1
  have third : Int8.ofNat (count + 1) = 3 ↔ count % 256 = 2 :=
    ofNat_succ_eq_iff 2
  have fourth : Int8.ofNat (count + 1) = 4 ↔ count % 256 = 3 :=
    ofNat_succ_eq_iff 3
  simp only [readField, first, second, third, fourth, ofNat_succ_succ]
  by_cases inFirst : count % 256 = 0
  · simp [inFirst]
  · by_cases inSecond : count % 256 = 1
    · simp [inSecond]
    · by_cases inThird : count % 256 = 2
      · simp [inThird]
      · by_cases inFourth : count % 256 = 3
        · simp [inFourth]
        · simp [inFirst, inSecond, inThird, inFourth]

/-! ### The last field that counts -/

theorem lastField_concat (small : slot < 256) (tokens : List StdString)
    (token : StdString) :
    lastField slot (tokens ++ [token]) =
      if tokens.length % 256 = slot then token else lastField slot tokens := by
  rw [lastField, lastField, List.length_append, List.length_singleton]
  split_ifs with selected
  · have isLast : lastIndex slot (tokens.length + 1) = tokens.length := by
      rw [lastIndex]
      omega
    rw [isLast, List.getD_append_right _ _ _ _ le_rfl, Nat.sub_self]
    rfl
  · have sameIndex : lastIndex slot (tokens.length + 1) =
        lastIndex slot tokens.length := by
      rw [lastIndex, lastIndex]
      omega
    rw [sameIndex]
    by_cases inside : lastIndex slot tokens.length < tokens.length
    · rw [List.getD_append _ _ _ _ inside]
    · have outside : tokens.length < lastIndex slot tokens.length := by
        rw [lastIndex] at inside ⊢
        omega
      have stillOutside :
          (tokens ++ [token]).length ≤ lastIndex slot tokens.length := by
        rw [List.length_append, List.length_singleton]
        exact outside
      rw [List.getD_eq_default _ _ stillOutside,
        List.getD_eq_default _ _ outside.le]

/-- What the loop over the fields has read after some of them. -/
theorem foldl_readField (tokens : List StdString) :
    tokens.foldl readField Reading.start =
      ⟨lastField 0 tokens,
        ⟨lastField 1 tokens, lastField 2 tokens,
          replaceReturn (lastField 3 tokens)⟩,
        Int8.ofNat (tokens.length + 1)⟩ := by
  induction tokens using List.reverseRecOn with
  | nil => rfl
  | append_singleton tokens token inductionHypothesis =>
      rw [List.foldl_append, inductionHypothesis, List.foldl_cons,
        List.foldl_nil, readField_ofNat, lastField_concat (by decide),
        lastField_concat (by decide), lastField_concat (by decide),
        lastField_concat (by decide), apply_ite replaceReturn,
        List.length_append, List.length_singleton]

/-- Up to 256 fields, each of the first four is the last that counts. -/
theorem lastField_of_length_le (atMost : tokens.length ≤ 256) (slot : ℕ) :
    lastField slot tokens = tokens.getD slot [] := by
  have noRound : (tokens.length - 1 - slot) / 256 = 0 := by
    omega
  rw [lastField, lastIndex, noRound, Nat.mul_zero, Nat.add_zero]

theorem laterFieldsAgree_of_length_le (atMost : tokens.length ≤ 256) :
    LaterFieldsAgree tokens where
  address := lastField_of_length_le atMost 0
  account := lastField_of_length_le atMost 1
  pubkey := lastField_of_length_le atMost 2
  quantity := congrArg replaceReturn (lastField_of_length_le atMost 3)

/-! ### The record of a line -/

theorem lineRecord_of_tokens (notEmpty : strline ≠ [])
    (tokenised : tokenize strline = some tokens) :
    lineRecord tokenize strline =
      some (lastField 0 tokens, ⟨lastField 1 tokens, lastField 2 tokens,
        replaceReturn (lastField 3 tokens)⟩) := by
  rw [lineRecord_eq_some_iff]
  exact ⟨notEmpty, tokens, tokenised, by rw [foldl_readField]⟩

/-- The record of a line is that of its first four fields exactly if the later
fields agree with them. -/
theorem lineRecord_eq_statedRecord_iff (notEmpty : strline ≠ [])
    (tokenised : tokenize strline = some tokens) :
    lineRecord tokenize strline = some (statedRecord tokens) ↔
      LaterFieldsAgree tokens := by
  rw [lineRecord_of_tokens notEmpty tokenised, statedRecord, Option.some_inj,
    Prod.mk.injEq, Stuser.mk.injEq]
  constructor
  · intro same
    exact ⟨same.1, same.2.1, same.2.2.1, same.2.2.2⟩
  · intro agree
    exact ⟨agree.address, agree.account, agree.pubkey, agree.quantity⟩

theorem lineRecord_firstFour (notEmpty : strline ≠ [])
    (tokenised : tokenize strline = some tokens) :
    lineRecord (firstFour tokenize) strline = some (statedRecord tokens) := by
  have cut : firstFour tokenize strline = some (tokens.take 4) := by
    rw [firstFour, tokenised]
    rfl
  have few : (tokens.take 4).length ≤ 256 :=
    (List.length_take_le 4 tokens).trans (by decide)
  rw [(lineRecord_eq_statedRecord_iff notEmpty cut).mpr
    (laterFieldsAgree_of_length_le few)]
  simp [statedRecord, List.getD_eq_getElem?_getD]

/-- The first four fields make the record, and `parse` does what it does on
them alone, exactly if the later fields agree with them. -/
theorem firstFourFields_iff (tokenize : StdString → Option (List StdString))
    (strline : StdString) (tokens : List StdString)
    (notEmpty : strline ≠ []) (tokenised : tokenize strline = some tokens) :
    (lineRecord tokenize strline = some (statedRecord tokens) ∧
        ∀ globals, parse tokenize strline globals =
          parse (firstFour tokenize) strline globals) ↔
      LaterFieldsAgree tokens := by
  constructor
  · intro stated
    exact (lineRecord_eq_statedRecord_iff notEmpty tokenised).mp stated.1
  · intro agree
    have stated :=
      (lineRecord_eq_statedRecord_iff notEmpty tokenised).mpr agree
    refine ⟨stated, ?_⟩
    intro globals
    rw [parse_of_lineRecord stated,
      parse_of_lineRecord (lineRecord_firstFour notEmpty tokenised)]

/-- A line with a fifth field. -/
def fiveFields : StdString := "A,accountofab1,K,1,memo".toUTF8.toList

theorem firstFourFields_fiveFields :
    lineRecord splitFields fiveFields =
        some (statedRecord (fiveFields.splitOn ','.toUInt8)) ∧
      parse splitFields fiveFields Globals.initial =
        parse (firstFour splitFields) fiveFields Globals.initial := by
  have agree : LaterFieldsAgree (fiveFields.splitOn ','.toUInt8) :=
    laterFieldsAgree_of_length_le (by decide +kernel)
  obtain ⟨stated, same⟩ := (firstFourFields_iff splitFields fiveFields _
    (by decide +kernel) rfl).mpr agree
  exact ⟨stated, same Globals.initial⟩

/-- A line with 257 fields, the last of which is `B`. -/
def manyFields : StdString :=
  "A,accountofab1,K,1".toUTF8.toList ++ List.replicate 253 ','.toUInt8 ++
    "B".toUTF8.toList

/-- The field behind the 256th becomes the address. -/
theorem fields_wrapAround :
    ¬ ∀ (tokenize : StdString → Option (List StdString))
      (strline : StdString) (tokens : List StdString), strline ≠ [] →
        tokenize strline = some tokens →
          lineRecord tokenize strline = some (statedRecord tokens) ∧
            ∀ globals, parse tokenize strline globals =
              parse (firstFour tokenize) strline globals := by
  intro stated
  have addressA := (stated splitFields manyFields _ (by decide +kernel) rfl).1
  have addressB : lineRecord splitFields manyFields ≠
      some (statedRecord (manyFields.splitOn ','.toUInt8)) := by
    decide +kernel
  exact addressB addressA

end Bright.Snapshot
