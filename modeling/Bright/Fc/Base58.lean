import Bright.Fc.Base
import Bright.Lib.Radix
import Mathlib.Data.List.DropRight

/-!
# Base58 texts of byte strings

The bytes are a number in base 256, the text is the same number in base 58, and
each leading zero byte is a leading digit zero of the text, which is the
character 1.  The number goes through the `mpi` format of OpenSSL, whose first
bit is the sign.  The two functions of OpenSSL that read and write the format
are not part of the repository; they are defined here as they are documented.

Decoding accepts the encoded texts with white space around them and nothing
else (`decodeBase58_eq_some_iff`), and gives back the bytes that were encoded.
-/

namespace Bright.Fc

open Bright.Lib
open Bright.Lib.Radix
open Bright.Eosio (StdString)

/-! ### Numbers of OpenSSL -/

/-- `BN_mpi2bn` of OpenSSL, as documented, behind the length: the bytes of the
number from the high one down, the first bit being the sign. -/
def mpi2bn : List UInt8 → ℤ
  | [] => 0
  | first :: rest =>
      if first < 0x80 then
        (number 256 ((first :: rest).map UInt8.toNat) : ℤ)
      else
        -(number 256 (((first &&& 0x7f) :: rest).map UInt8.toNat) : ℤ)

/-- `BN_bn2mpi` of OpenSSL, as documented, behind the length: a zero byte comes
first if the first bit is taken by the number. -/
def bn2mpi (bn : ℤ) : List UInt8 :=
  let extended := match (numeral 256 bn.natAbs).map UInt8.ofNat with
    | [] => []
    | first :: rest => if 0x80 ≤ first then 0 :: first :: rest else first :: rest
  if bn < 0 then extended.modifyHead (· ||| 0x80) else extended

/-- `CBigNum::setvch`, from the low byte up. -/
def setvch (vch : List UInt8) : ℤ := mpi2bn vch.reverse

/-- `CBigNum::getvch`. -/
def getvch (bn : ℤ) : List UInt8 := (bn2mpi bn).reverse

/-! ### The two functions -/

def pszBase58 : StdString :=
  literal "123456789ABCDEFGHJKLMNPQRSTUVWXYZabcdefghijkmnopqrstuvwxyz"

/-- The character of a digit. -/
def base58Char (digit : ℕ) : UInt8 := pszBase58.getD digit 0

/-- The loop of `EncodeBase58` over `bn` and `str`. -/
def encodeLoop (bn : ℤ) (str : StdString) : StdString :=
  if 0 < bn then encodeLoop (bn / 58) (str ++ [base58Char (bn % 58).toNat])
  else str
termination_by bn.toNat

def encodeBase58 (bytes : List UInt8) : StdString :=
  let bn := setvch (bytes.reverse ++ [0])
  let str := encodeLoop bn []
  let zeros := (bytes.takeWhile (· = 0)).length
  (str ++ List.replicate zeros (base58Char 0)).reverse

/-- The loop of `DecodeBase58` over the characters; `none` is a bad one. -/
def decodeLoop (bn : ℤ) : StdString → Option ℤ
  | [] => some bn
  | c :: rest =>
      match find pszBase58 c with
      | some p1 => decodeLoop (bn * 58 + p1) rest
      | none => if (c :: rest).dropWhile isspace = [] then some bn else none

/-- Trim off the sign byte if present. -/
def trimSign (vch : List UInt8) : List UInt8 :=
  match vch.reverse with
  | last :: next :: _ => if last = 0 ∧ 0x80 ≤ next then vch.dropLast else vch
  | _ => vch

def decodeBase58 (psz : StdString) : Option (List UInt8) :=
  let psz := psz.dropWhile isspace
  match decodeLoop 0 psz with
  | none => none
  | some bn =>
      let vchTmp := trimSign (getvch bn)
      let nLeadingZeros := (psz.takeWhile (· = base58Char 0)).length
      some (List.replicate nLeadingZeros 0 ++ vchTmp.reverse)

/-- `to_base58` for a pointer and a size. -/
def toBase58 (d : List UInt8) : StdString := Name.cString (encodeBase58 d)

/-- `from_base58`, which hands over a C string. -/
def fromBase58 (base58Str : StdString) : Except Exception (List UInt8) :=
  match decodeBase58 (Name.cString base58Str) with
  | some out => .ok out
  | none => fcThrow .parseErrorException
      "Unable to decode base58 string ${base58_str}" [("base58_str", base58Str)]

/-! ### The alphabet -/

theorem find_base58Char {digit : ℕ} (below : digit < 58) :
    find pszBase58 (base58Char digit) = some digit := by
  revert digit
  decide

theorem eq_base58Char_of_find {c : UInt8} {digit : ℕ}
    (found : find pszBase58 c = some digit) :
    digit < 58 ∧ c = base58Char digit := by
  obtain ⟨before, after, parts, -, rfl⟩ := find_eq_some_iff.mp found
  have size : before.length + (after.length + 1) = 58 := by
    have whole : pszBase58.length = 58 := by decide
    rw [parts, List.length_append, List.length_cons] at whole
    exact whole
  refine ⟨by omega, ?_⟩
  rw [base58Char, parts]
  simp

theorem base58Char_injective {digit other : ℕ} (below : digit < 58)
    (belowOther : other < 58) (same : base58Char digit = base58Char other) :
    digit = other := by
  have found := find_base58Char below
  rw [same, find_base58Char belowOther] at found
  exact (Option.some.inj found).symm

theorem isspace_base58Char {digit : ℕ} (below : digit < 58) :
    isspace (base58Char digit) = false := by
  revert digit
  decide

theorem base58Char_ne_zero {digit : ℕ} (below : digit < 58) :
    base58Char digit ≠ 0 := by
  revert digit
  decide

theorem base58Char_mem {digit : ℕ} (below : digit < 58) :
    base58Char digit ∈ pszBase58 := by
  revert digit
  decide

theorem find_of_isspace {c : UInt8} (space : isspace c) :
    find pszBase58 c = none := by
  cases found : find pszBase58 c with
  | none => rfl
  | some digit =>
      obtain ⟨below, rfl⟩ := eq_base58Char_of_find found
      rw [isspace_base58Char below] at space
      exact nomatch space

/-! ### Encoding -/

theorem setvch_positive (bytes : List UInt8) :
    setvch (bytes.reverse ++ [0]) = number 256 (bytes.map UInt8.toNat) := by
  rw [setvch, List.reverse_append, List.reverse_reverse]
  simp [mpi2bn, number]

theorem encodeLoop_eq (value : ℕ) (str : StdString) :
    encodeLoop value str =
      str ++ (Nat.digits 58 value).map base58Char := by
  induction value using Nat.strongRecOn generalizing str with
  | ind value inductionHypothesis =>
      rw [encodeLoop]
      by_cases positive : 0 < value
      · have quotient : (value : ℤ) / 58 = ((value / 58 : ℕ) : ℤ) := by
          norm_cast
        have remainder : ((value : ℤ) % 58).toNat = value % 58 := by omega
        rw [if_pos (by exact_mod_cast positive), quotient, remainder,
          inductionHypothesis _ (Nat.div_lt_self positive (by decide)),
          Nat.digits_def' (by decide) positive]
        simp
      · have zero : value = 0 := by omega
        subst zero
        simp

/-- The text is the number of the bytes, in base 58. -/
theorem encodeBase58_eq (bytes : List UInt8) :
    encodeBase58 bytes =
      (rebase 256 58 (bytes.map UInt8.toNat)).map base58Char := by
  -- The text is built from its last character, so everything is reversed.
  have zeros : (bytes.takeWhile (· = 0)).length =
      leadingZeros (bytes.map UInt8.toNat) := by
    rw [leadingZeros, List.takeWhile_map, List.length_map]
    congr 2
    funext c
    simp [← UInt8.toNat_inj]
  simp only [encodeBase58, setvch_positive, encodeLoop_eq, zeros, rebase, numeral]
  simp

/-! ### Decoding -/

/-- Only white space. -/
abbrev Blank (str : StdString) : Prop := ∀ c ∈ str, isspace c

theorem trimSign_getvch (value : ℕ) :
    (trimSign (getvch value)).reverse =
      (numeral 256 value).map UInt8.ofNat := by
  have positive : ¬ (value : ℤ) < 0 := by omega
  cases shape : numeral 256 value with
  | nil => simp [getvch, bn2mpi, shape, trimSign]
  | cons first rest =>
      have nonzero : first ≠ 0 := head_numeral_ne_zero shape
      have below : first < 256 :=
        lt_of_mem_numeral (by decide) (shape ▸ List.mem_cons_self)
      have firstNonzero : UInt8.ofNat first ≠ 0 := by
        intro zero
        have := congrArg UInt8.toNat zero
        simp [UInt8.toNat_ofNat', Nat.mod_eq_of_lt below, nonzero] at this
      by_cases high : 0x80 ≤ UInt8.ofNat first
      · simp [getvch, bn2mpi, shape, positive, high, trimSign]
      · cases rest <;>
          simp [getvch, bn2mpi, shape, positive, high, trimSign, firstNonzero]

theorem decodeLoop_append {digits : List ℕ} (below : ∀ digit ∈ digits, digit < 58)
    {trailing : StdString} (blank : Blank trailing) (value : ℕ) :
    decodeLoop value (digits.map base58Char ++ trailing) =
      some ((digits.foldl (fun total digit => total * 58 + digit) value : ℕ) : ℤ) := by
  induction digits generalizing value with
  | nil =>
      cases trailing with
      | nil => rfl
      | cons c rest =>
          have empty : (c :: rest).dropWhile isspace = [] :=
            List.dropWhile_eq_nil_iff.mpr blank
          simp [decodeLoop, find_of_isspace (blank c List.mem_cons_self), empty]
  | cons digit rest inductionHypothesis =>
      rw [List.forall_mem_cons] at below
      have next := inductionHypothesis below.2 (value * 58 + digit)
      simpa [decodeLoop, find_base58Char below.1] using next

theorem exists_of_decodeLoop {value : ℕ} {str : StdString} {result : ℤ}
    (decoded : decodeLoop value str = some result) :
    ∃ (digits : List ℕ) (trailing : StdString),
      str = digits.map base58Char ++ trailing ∧
      (∀ digit ∈ digits, digit < 58) ∧ Blank trailing ∧
      result =
        (digits.foldl (fun total digit => total * 58 + digit) value : ℕ) := by
  induction str generalizing value with
  | nil =>
      exact ⟨[], [], rfl, List.forall_mem_nil _, List.forall_mem_nil _,
        (Option.some.inj decoded).symm⟩
  | cons c rest inductionHypothesis =>
      cases found : find pszBase58 c with
      | some digit =>
          obtain ⟨below, rfl⟩ := eq_base58Char_of_find found
          simp only [decodeLoop, found] at decoded
          have castStep : (value : ℤ) * 58 + digit =
              ((value * 58 + digit : ℕ) : ℤ) := by
            push_cast
            rfl
          rw [castStep] at decoded
          obtain ⟨digits, trailing, rfl, allBelow, blank, rfl⟩ :=
            inductionHypothesis decoded
          exact ⟨digit :: digits, trailing, rfl,
            List.forall_mem_cons.mpr ⟨below, allBelow⟩, blank, rfl⟩
      | none =>
          simp only [decodeLoop, found] at decoded
          split at decoded
          · next empty =>
              exact ⟨[], c :: rest, rfl, List.forall_mem_nil _,
                List.dropWhile_eq_nil_iff.mp empty,
                (Option.some.inj decoded).symm⟩
          · exact nomatch decoded

theorem takeWhile_zeroChar {digits : List ℕ} (below : ∀ digit ∈ digits, digit < 58)
    {trailing : StdString} (blank : Blank trailing) :
    ((digits.map base58Char ++ trailing).takeWhile (· = base58Char 0)).length =
      leadingZeros digits := by
  induction digits with
  | nil =>
      cases trailing with
      | nil => rfl
      | cons c rest =>
          have different : c ≠ base58Char 0 := by
            rintro rfl
            have space := blank _ List.mem_cons_self
            rw [isspace_base58Char (by decide)] at space
            exact nomatch space
          simp [leadingZeros, different]
  | cons digit rest inductionHypothesis =>
      rw [List.forall_mem_cons] at below
      by_cases zero : digit = 0
      · subst zero
        have next := inductionHypothesis below.2
        rw [leadingZeros] at next ⊢
        simpa using next
      · have different : base58Char digit ≠ base58Char 0 := fun same =>
          zero (base58Char_injective below.1 (by decide) same)
        simp [leadingZeros, different, zero]

/-- Digits between white space are decoded to their number, in base 256. -/
theorem decodeBase58_digits {psz : StdString} {digits : List ℕ}
    {trailing : StdString} (below : ∀ digit ∈ digits, digit < 58)
    (blank : Blank trailing)
    (start : psz.dropWhile isspace = digits.map base58Char ++ trailing) :
    decodeBase58 psz = some ((rebase 58 256 digits).map UInt8.ofNat) := by
  have decoded := decodeLoop_append below blank 0
  rw [← start] at decoded
  have zeros := takeWhile_zeroChar below blank
  rw [← start] at zeros
  have value : digits.foldl (fun total digit => total * 58 + digit) 0 =
      number 58 digits := rfl
  rw [Nat.cast_zero, value] at decoded
  simp only [decodeBase58, decoded, zeros, trimSign_getvch, rebase,
    List.map_append, List.map_replicate]
  rfl

theorem dropWhile_isspace_digits {leading trailing : StdString}
    (blankLeading : Blank leading) (blankTrailing : Blank trailing)
    {digits : List ℕ} (below : ∀ digit ∈ digits, digit < 58) :
    ∃ trailing', Blank trailing' ∧
      (leading ++ digits.map base58Char ++ trailing).dropWhile isspace =
        digits.map base58Char ++ trailing' := by
  rw [List.append_assoc, List.dropWhile_append_of_pos blankLeading]
  cases digits with
  | nil =>
      refine ⟨[], List.forall_mem_nil _, ?_⟩
      simpa using List.dropWhile_eq_nil_iff.mpr blankTrailing
  | cons digit rest =>
      refine ⟨trailing, blankTrailing, ?_⟩
      have notSpace := isspace_base58Char (below digit List.mem_cons_self)
      simp [notSpace]

theorem map_toNat_lt (bytes : List UInt8) :
    ∀ digit ∈ bytes.map UInt8.toNat, digit < 256 := by
  intro digit member
  obtain ⟨c, -, rfl⟩ := List.mem_map.mp member
  exact c.toNat_lt

theorem map_toNat_ofNat {word : List ℕ} (small : ∀ digit ∈ word, digit < 256) :
    (word.map UInt8.ofNat).map UInt8.toNat = word := by
  rw [List.map_map]
  refine List.map_congr_left (fun digit member => ?_) |>.trans (List.map_id word)
  simp [UInt8.toNat_ofNat', Nat.mod_eq_of_lt (small digit member)]

/-- A text is decoded to some bytes exactly if it is the text of these bytes
between white space. -/
theorem decodeBase58_eq_some_iff {psz : StdString} {bytes : List UInt8} :
    decodeBase58 psz = some bytes ↔
      ∃ leading trailing, Blank leading ∧ Blank trailing ∧
        psz = leading ++ encodeBase58 bytes ++ trailing := by
  constructor
  · intro decoded
    have loop : ∃ result,
        decodeLoop ((0 : ℕ) : ℤ) (psz.dropWhile isspace) = some result := by
      rw [decodeBase58] at decoded
      cases h : decodeLoop 0 (psz.dropWhile isspace) with
      | none => simp [h] at decoded
      | some result => exact ⟨result, rfl⟩
    obtain ⟨result, loop⟩ := loop
    obtain ⟨digits, trailing, start, below, blank, -⟩ :=
      exists_of_decodeLoop loop
    rw [decodeBase58_digits below blank start] at decoded
    have bytesAre := (Option.some.inj decoded).symm
    have numbers : bytes.map UInt8.toNat = rebase 58 256 digits := by
      rw [bytesAre, map_toNat_ofNat]
      exact fun digit member => lt_of_mem_rebase (by decide) member
    refine ⟨psz.takeWhile isspace, trailing,
      fun c member => List.mem_takeWhile_imp member, blank, ?_⟩
    rw [encodeBase58_eq, numbers, rebase_rebase (by decide) below,
      List.append_assoc, ← start, List.takeWhile_append_dropWhile]
  · rintro ⟨leading, trailing, blankLeading, blankTrailing, rfl⟩
    rw [encodeBase58_eq]
    have below : ∀ digit ∈ rebase 256 58 (bytes.map UInt8.toNat), digit < 58 :=
      fun digit member => lt_of_mem_rebase (by decide) member
    obtain ⟨rest, blankRest, start⟩ :=
      dropWhile_isspace_digits blankLeading blankTrailing below
    have identity : UInt8.ofNat ∘ UInt8.toNat = id :=
      funext fun _ => UInt8.ofNat_toNat
    rw [decodeBase58_digits below blankRest start,
      rebase_rebase (by decide) (map_toNat_lt bytes), List.map_map, identity,
      List.map_id]

theorem mem_encodeBase58 {bytes : List UInt8} {c : UInt8}
    (member : c ∈ encodeBase58 bytes) : ∃ digit < 58, c = base58Char digit := by
  rw [encodeBase58_eq] at member
  obtain ⟨digit, digitMember, rfl⟩ := List.mem_map.mp member
  exact ⟨digit, lt_of_mem_rebase (by decide) digitMember, rfl⟩

theorem toBase58_eq (d : List UInt8) : toBase58 d = encodeBase58 d := by
  rw [toBase58, Name.cString_eq_self_iff]
  intro member
  obtain ⟨digit, below, zero⟩ := mem_encodeBase58 member
  exact base58Char_ne_zero below zero.symm

/-- A text is read as the bytes whose text it is between white space, up to a
first zero byte. -/
theorem fromBase58_eq_ok_iff {base58Str : StdString} {bytes : List UInt8} :
    fromBase58 base58Str = .ok bytes ↔
      ∃ leading trailing, Blank leading ∧ Blank trailing ∧
        Name.cString base58Str = leading ++ toBase58 bytes ++ trailing := by
  rw [toBase58_eq, ← decodeBase58_eq_some_iff, fromBase58]
  cases decodeBase58 (Name.cString base58Str) <;> simp [fcThrow]

theorem fromBase58_toBase58 (d : List UInt8) : fromBase58 (toBase58 d) = .ok d := by
  rw [fromBase58_eq_ok_iff]
  refine ⟨[], [], List.forall_mem_nil _, List.forall_mem_nil _, ?_⟩
  have noZero : Name.cString (toBase58 d) = toBase58 d := by
    rw [Name.cString_eq_self_iff, toBase58]
    exact Name.zero_notMem_cString _
  rw [noZero, List.nil_append, List.append_nil]

theorem ne_nil_of_fromBase58 {base58Str : StdString} {bytes : List UInt8}
    (decoded : fromBase58 base58Str = .ok bytes) (nonempty : bytes ≠ []) :
    base58Str ≠ [] := by
  rintro rfl
  have noText : toBase58 [] = [] := by
    rw [toBase58_eq, encodeBase58_eq]
    simp [rebase, leadingZeros, numeral, number_nil]
  have empty := fromBase58_toBase58 []
  rw [noText, decoded] at empty
  exact nonempty (Except.ok.inj empty)

theorem mem_toBase58 {d : List UInt8} {c : UInt8} (member : c ∈ toBase58 d) :
    c ∈ pszBase58 := by
  rw [toBase58_eq] at member
  obtain ⟨digit, below, rfl⟩ := mem_encodeBase58 member
  exact base58Char_mem below

theorem underscore_notMem_toBase58 (d : List UInt8) :
    '_'.toUInt8 ∉ toBase58 d := by
  intro member
  exact absurd (mem_toBase58 member) (by decide)

/-! ### All strings -/

/-- What is before the first zero byte, without white space around it. -/
def strip (str : StdString) : StdString :=
  ((Name.cString str).dropWhile isspace).rdropWhile isspace

theorem exists_digits {text : StdString} (letters : ∀ c ∈ text, c ∈ pszBase58) :
    ∃ digits : List ℕ, text = digits.map base58Char ∧
      ∀ digit ∈ digits, digit < 58 := by
  induction text with
  | nil => exact ⟨[], rfl, List.forall_mem_nil _⟩
  | cons c rest inductionHypothesis =>
      rw [List.forall_mem_cons] at letters
      obtain ⟨digits, rfl, below⟩ := inductionHypothesis letters.2
      have found : find pszBase58 c ≠ none :=
        fun notFound => find_eq_none_iff.mp notFound letters.1
      obtain ⟨digit, isDigit⟩ := Option.ne_none_iff_exists'.mp found
      obtain ⟨small, rfl⟩ := eq_base58Char_of_find isDigit
      exact ⟨digit :: digits, rfl, List.forall_mem_cons.mpr ⟨small, below⟩⟩

/-- Every word over the alphabet is the text of some bytes. -/
theorem exists_toBase58 {text : StdString} (letters : ∀ c ∈ text, c ∈ pszBase58) :
    ∃ d, toBase58 d = text := by
  obtain ⟨digits, rfl, below⟩ := exists_digits letters
  have small : ∀ digit ∈ rebase 58 256 digits, digit < 256 :=
    fun digit member => lt_of_mem_rebase (by decide) member
  refine ⟨(rebase 58 256 digits).map UInt8.ofNat, ?_⟩
  rw [toBase58_eq, encodeBase58_eq, map_toNat_ofNat small,
    rebase_rebase (by decide) below]

theorem rdropWhile_append {str trailing : StdString} (blank : Blank trailing) :
    (str ++ trailing).rdropWhile isspace = str.rdropWhile isspace := by
  have reversed : ∀ c ∈ trailing.reverse, isspace c :=
    fun c member => blank c (List.mem_reverse.mp member)
  rw [List.rdropWhile, List.reverse_append,
    List.dropWhile_append_of_pos reversed, List.rdropWhile]

theorem strip_padded {leading trailing : StdString} (blankLeading : Blank leading)
    (blankTrailing : Blank trailing) {str : StdString} {d : List UInt8}
    (parts : Name.cString str = leading ++ toBase58 d ++ trailing) :
    strip str = toBase58 d := by
  rw [toBase58_eq, encodeBase58_eq] at parts ⊢
  have below : ∀ digit ∈ rebase 256 58 (d.map UInt8.toNat), digit < 58 :=
    fun digit member => lt_of_mem_rebase (by decide) member
  obtain ⟨rest, blankRest, start⟩ :=
    dropWhile_isspace_digits blankLeading blankTrailing below
  have endsThere : ∀ c ∈ (rebase 256 58 (d.map UInt8.toNat)).map base58Char,
      isspace c = false := by
    intro c member
    obtain ⟨digit, isDigit, rfl⟩ := List.mem_map.mp member
    exact isspace_base58Char (below digit isDigit)
  rw [strip, parts, start, rdropWhile_append blankRest]
  refine List.rdropWhile_eq_self_iff.mpr fun nonempty => ?_
  rw [endsThere _ (List.getLast_mem nonempty)]
  exact Bool.false_ne_true

/-- Decoded is what has the text of the bytes once it is stripped. -/
theorem fromBase58_eq_ok_iff_strip {base58Str : StdString} {d : List UInt8} :
    fromBase58 base58Str = .ok d ↔ strip base58Str = toBase58 d := by
  rw [fromBase58_eq_ok_iff]
  constructor
  · rintro ⟨leading, trailing, blankLeading, blankTrailing, parts⟩
    exact strip_padded blankLeading blankTrailing parts
  · intro text
    refine ⟨(Name.cString base58Str).takeWhile isspace,
      ((Name.cString base58Str).dropWhile isspace).rtakeWhile isspace,
      fun c member => List.mem_takeWhile_imp member,
      fun c member => List.mem_rtakeWhile_imp member, ?_⟩
    rw [← text, strip, List.append_assoc, List.rdropWhile_append_rtakeWhile,
      List.takeWhile_append_dropWhile]

/-- The texts of bytes are the words over the alphabet, each of one byte string,
and every text is decoded to the bytes that it was made from. -/
theorem base58_correspondence :
    (∀ d, fromBase58 (toBase58 d) = .ok d ∧ ∀ c ∈ toBase58 d, c ∈ pszBase58) ∧
      ∀ text : StdString, (∀ c ∈ text, c ∈ pszBase58) →
        ∃ d, toBase58 d = text ∧ ∀ other, toBase58 other = text → other = d := by
  refine ⟨fun d => ⟨fromBase58_toBase58 d, fun c => mem_toBase58⟩, ?_⟩
  intro text letters
  obtain ⟨d, rfl⟩ := exists_toBase58 letters
  refine ⟨d, rfl, fun other same => ?_⟩
  have decoded := fromBase58_toBase58 other
  rw [same, fromBase58_toBase58] at decoded
  exact (Except.ok.inj decoded).symm

/-- A string is decoded exactly if its part before a first zero byte has only
characters of the alphabet when white space around it is left out; any other
string is reported as it is. -/
theorem fromBase58_total (base58Str : StdString) :
    (∃ d, toBase58 d = strip base58Str ∧ fromBase58 base58Str = .ok d) ∨
      ((∃ c ∈ strip base58Str, c ∉ pszBase58) ∧
        fromBase58 base58Str = .error ⟨.parseErrorException,
          [⟨"Unable to decode base58 string ${base58_str}",
            [("base58_str", base58Str)]⟩]⟩) := by
  by_cases letters : ∀ c ∈ strip base58Str, c ∈ pszBase58
  · left
    obtain ⟨d, text⟩ := exists_toBase58 letters
    exact ⟨d, text, fromBase58_eq_ok_iff_strip.mpr text.symm⟩
  · right
    push Not at letters
    refine ⟨letters, ?_⟩
    cases decoded : decodeBase58 (Name.cString base58Str) with
    | none =>
        rw [fromBase58, decoded]
        rfl
    | some d =>
        have accepted : fromBase58 base58Str = .ok d := by
          rw [fromBase58, decoded]
        obtain ⟨c, member, notLetter⟩ := letters
        rw [fromBase58_eq_ok_iff_strip.mp accepted] at member
        exact absurd (mem_toBase58 member) notLetter

end Bright.Fc
