import Bright.Eosio.Chain
import Mathlib.Data.List.GetD
import Mathlib.Data.List.TakeWhile

/-!
# The 64-bit code of a name

`string_to_name` packs the first twelve characters of a C string into five
bits each and the thirteenth into the remaining four.  Characters other than
`a`–`z` and `1`–`5` all have the code of a dot, and later characters are not
read, so many strings share a code.
-/

namespace Bright.Name

open Bright.Eosio

def charToSymbol (c : UInt8) : UInt64 :=
  if 'a'.toUInt8 ≤ c ∧ c ≤ 'z'.toUInt8 then
    (c - 'a'.toUInt8).toUInt64 + 6
  else if '1'.toUInt8 ≤ c ∧ c ≤ '5'.toUInt8 then
    (c - '1'.toUInt8).toUInt64 + 1
  else
    0

/-- The loop of `string_to_name` over the bytes that are left, with its
counter `i` and the bits packed so far. -/
def packName (i : Nat) (name : UInt64) : StdString → Nat × UInt64
  | [] => (i, name)
  | c :: rest =>
      if c ≠ 0 ∧ i < 12 then
        packName (i + 1)
          (name ||| (charToSymbol c &&& 0x1f) <<<
            UInt64.ofNat (64 - 5 * (i + 1))) rest
      else
        (i, name)

/-- The code of a string; behind its bytes `data()` has a terminating zero. -/
def stringToName (str : StdString) : UInt64 :=
  let (i, name) := packName 0 0 str
  if i = 12 then
    name ||| (charToSymbol (str.getD 12 0) &&& 0x0F)
  else
    name

private theorem packName_take (i k : Nat) (name : UInt64) (str : StdString)
    (enough : 12 < i + k) :
    packName i name (str.take k) = packName i name str := by
  induction str generalizing i k name with
  | nil => rw [List.take_nil]
  | cons c rest inductionHypothesis =>
      cases k with
      | zero =>
          have stopped : ¬(c ≠ 0 ∧ i < 12) := by omega
          rw [List.take_zero, packName, packName, if_neg stopped]
      | succ k =>
          rw [List.take_succ_cons, packName, packName]
          split_ifs with reads
          · exact inductionHypothesis (i + 1) k _ (by omega)
          · rfl

/-- Only the first thirteen characters are read. -/
theorem stringToName_take (str : StdString) :
    stringToName (str.take 13) = stringToName str := by
  have packed := packName_take 0 13 0 str (by omega)
  have thirteenth : (str.take 13).getD 12 0 = str.getD 12 0 := by
    simp [List.getD]
  rw [stringToName, stringToName, packed, thirteenth]

example :
    stringToName "EOS5abcdefghijk".toUTF8.toList =
      stringToName "EOS5abcdefghijkl".toUTF8.toList := by
  decide +kernel

/-! ### Reads stay inside the string -/

/-- The C string at the start of some bytes. -/
def cString (str : StdString) : StdString := str.takeWhile (· ≠ 0)

theorem zero_notMem_cString (str : StdString) : 0 ∉ cString str := by
  intro member
  simpa using List.mem_takeWhile_imp member

theorem cString_eq_self_iff {str : StdString} :
    cString str = str ↔ 0 ∉ str := by
  rw [cString, List.takeWhile_eq_self_iff]
  constructor
  · intro notZero member
    simpa using notZero 0 member
  · intro noZero c member
    have different : c ≠ 0 := fun zero => noZero (zero ▸ member)
    exact decide_eq_true different

/-- `packName` over the bytes that may be read; `none` is a read behind them. -/
def packNameChecked (i : Nat) (name : UInt64) :
    StdString → Option (Nat × UInt64)
  | [] => none
  | c :: rest =>
      if c ≠ 0 ∧ i < 12 then
        packNameChecked (i + 1)
          (name ||| (charToSymbol c &&& 0x1f) <<<
            UInt64.ofNat (64 - 5 * (i + 1))) rest
      else
        some (i, name)

/-- `string_to_name` on the bytes that may be read. -/
def stringToNameChecked (memory : StdString) : Option UInt64 :=
  match packNameChecked 0 0 memory with
  | none => none
  | some (i, name) =>
      if i = 12 then
        memory[12]?.map fun c => name ||| (charToSymbol c &&& 0x0F)
      else
        some name

private theorem packNameChecked_terminated (i : Nat) (name : UInt64)
    {str : StdString} (noZero : 0 ∉ str) :
    packNameChecked i name (str ++ [0]) = some (packName i name str) := by
  induction str generalizing i name with
  | nil => rfl
  | cons c rest inductionHypothesis =>
      have restNoZero : 0 ∉ rest := fun member =>
        noZero (List.mem_cons_of_mem c member)
      rw [List.cons_append, packNameChecked, packName]
      split_ifs with reads
      · exact inductionHypothesis (i + 1) _ restNoZero
      · rfl

private theorem packName_count_le (i : Nat) (name : UInt64) (str : StdString) :
    (packName i name str).1 ≤ i + str.length := by
  induction str generalizing i name with
  | nil => exact Nat.le_add_right i 0
  | cons c rest inductionHypothesis =>
      rw [packName]
      split_ifs with reads
      · have later := inductionHypothesis (i + 1)
          (name ||| (charToSymbol c &&& 0x1f) <<<
            UInt64.ofNat (64 - 5 * (i + 1)))
        rw [List.length_cons]
        omega
      · exact Nat.le_add_right i _

/-- On a terminated string no byte behind the terminator is read. -/
theorem stringToNameChecked_terminated {str : StdString} (noZero : 0 ∉ str) :
    stringToNameChecked (str ++ [0]) = some (stringToName str) := by
  have count := packName_count_le 0 0 str
  rw [stringToNameChecked, packNameChecked_terminated 0 0 noZero, stringToName]
  dsimp only
  split_ifs with full
  · have long : 12 ≤ str.length := by omega
    have thirteenth : (str ++ [0])[12]? = some (str.getD 12 0) := by
      rw [List.getElem?_append]
      split_ifs with inside
      · rw [List.getD_eq_getElem?_getD, List.getElem?_eq_getElem inside]
        rfl
      · have exact : str.length = 12 := by omega
        rw [List.getD_eq_default str 0 exact.le, exact]
        rfl
    rw [thirteenth, Option.map_some]
  · rfl

end Bright.Name
