import Bright.Keys.PrivateKey
import Bright.Keys.PublicKey

/-!
# Texts and bytes tell the keys apart

No text is read both as a signature and as a key, and a text that is read both
as a private and as a public key would have to be a legacy text whose characters
pass the checks of the import format as well; the text of a private key never
is one.

Keys are compared by suite and then by data, which is the order of their packed
forms (`lessComparator_iff`).
-/

namespace Bright.Keys

open Bright.Fc
open Bright.Lib
open Bright.Lib.Codec
open Bright.Eosio (StdString)

/-! ### Packing and comparing -/

section Packing

variable {size : ℕ}

/-- `pack` for a `static_variant`. -/
def packStorage (key : Storage size) : List UInt8 :=
  packUnsignedInt key.suite.which ++ key.data.data

/-- `set_which`. -/
def setWhich (w : UInt32) : Except Exception Suite :=
  if w = 0 then .ok .k1
  else if w = 1 then .ok .r1
  else fcAssertFailed "w < count()" "" []

/-- What `unpack` does behind the tag. -/
def unpackBehindTag (size : ℕ) (w : UInt32) : Unpack (Storage size) := do
  let suite ← setWhich w
  let data ← read size
  return ⟨suite, data⟩

/-- `unpack` for a `static_variant`. -/
def unpackStorage (size : ℕ) : Unpack (Storage size) := do
  let w ← unpackUnsignedInt
  unpackBehindTag size w

/-- `eq_comparator::apply`. -/
def eqComparator (a b : Storage size) : Bool :=
  a.suite.which = b.suite.which && a.data.data = b.data.data

/-- `less_comparator::apply`; `memcmp` compares the bytes in order. -/
def lessComparator (a b : Storage size) : Bool :=
  a.suite.which < b.suite.which ||
    (a.suite.which = b.suite.which && decide (a.data.data < b.data.data))

theorem setWhich_eq_ok_iff {w : UInt32} {suite : Suite} :
    setWhich w = .ok suite ↔ w = suite.which := by
  rw [setWhich]
  split_ifs with first second
  · subst first
    cases suite <;> decide
  · subst second
    cases suite <;> decide
  · simp only [fcAssertFailed, fcThrow, reduceCtorEq, false_iff]
    cases suite with
    | k1 => exact first
    | r1 => exact second

theorem which_injective : Function.Injective Suite.which := by
  intro first second
  cases first <;> cases second <;> decide

theorem unpackBehindTag_eq_ok_iff {w : UInt32} {key : Storage size}
    {stream rest : List UInt8} :
    (unpackBehindTag size w).run stream = .ok (key, rest) ↔
      w = key.suite.which ∧ stream = key.data.data ++ rest := by
  rw [unpackBehindTag]
  cases tag : setWhich w with
  | error thrown =>
      constructor
      · intro result
        exact nomatch result
      · rintro ⟨isTag, -⟩
        rw [setWhich_eq_ok_iff.mpr isTag] at tag
        exact nomatch tag
  | ok suite =>
      rw [setWhich_eq_ok_iff] at tag
      have behind : (liftM (Except.ok suite : Except Exception Suite) >>=
          fun suite => Fc.read size >>= fun data => pure ⟨suite, data⟩ :
            Unpack (Storage size)) =
          (Fc.read size >>= fun data => pure ⟨suite, data⟩) := rfl
      rw [behind, run_bind_eq_ok_iff, tag, which_injective.eq_iff]
      constructor
      · rintro ⟨data, middle, readData, result⟩
        obtain ⟨rfl, rfl⟩ := Prod.mk.inj (run_pure_eq_ok_iff.mp result)
        exact ⟨rfl, canonical_read size stream data _ readData⟩
      · rintro ⟨rfl, rfl⟩
        exact ⟨key.data, rest, recovers_read size key.data rest, rfl⟩

theorem recovers_storage (size : ℕ) :
    Recovers (fun key : Storage size => packStorage key) (unpackStorage size) :=
  recovers_unsignedInt.bind (fun key : Storage size => key.suite.which)
    fun _ _ => unpackBehindTag_eq_ok_iff.mpr ⟨rfl, rfl⟩

theorem packStorage_eq (key : Storage size) :
    packStorage key = key.suite.which.toUInt8 :: key.data.data := by
  have tag : packUnsignedInt key.suite.which = [key.suite.which.toUInt8] := by
    rw [packUnsignedInt, packGroups_eq]
    cases key.suite <;> rfl
  rw [packStorage, tag, List.singleton_append]

theorem eqComparator_iff {a b : Storage size} : eqComparator a b ↔ a = b := by
  rw [eqComparator, Bool.and_eq_true, decide_eq_true_eq, decide_eq_true_eq,
    which_injective.eq_iff, Storage.ext_iff, FixedArray.ext_iff]

/-- Keys are in the order of their packed forms. -/
theorem lessComparator_iff {a b : Storage size} :
    lessComparator a b ↔ packStorage a < packStorage b := by
  have tags : ∀ first second : Suite, first.which < second.which ↔
      first.which.toUInt8 < second.which.toUInt8 := by
    intro first second
    cases first <;> cases second <;> decide
  have sameTags : a.suite.which = b.suite.which ↔
      a.suite.which.toUInt8 = b.suite.which.toUInt8 := by
    cases a.suite <;> cases b.suite <;> decide
  rw [packStorage_eq, packStorage_eq, List.cons_lt_cons_iff, lessComparator,
    Bool.or_eq_true, Bool.and_eq_true, decide_eq_true_eq, decide_eq_true_eq,
    decide_eq_true_eq, tags, sameTags]

theorem comparators_trichotomy (a b : Storage size) :
    lessComparator a b ∨ eqComparator a b ∨ lessComparator b a := by
  rw [lessComparator_iff, lessComparator_iff, eqComparator_iff,
    ← (recovers_storage size).injective.eq_iff]
  rcases List.le_total (packStorage a) (packStorage b) with below | below
  · rcases List.le_iff_lt_or_eq.mp below with less | same
    · exact Or.inl less
    · exact Or.inr (Or.inl same)
  · rcases List.le_iff_lt_or_eq.mp below with less | same
    · exact Or.inr (Or.inr less)
    · exact Or.inr (Or.inl same.symm)

/-- Keys are compared as their packed forms are, and two keys that are neither
below nor above each other are the same key. -/
theorem keys_ordered_as_packed (a b : Storage size) :
    (eqComparator a b ↔ a = b) ∧
      (lessComparator a b ↔ packStorage a < packStorage b) ∧
      (lessComparator a b ∨ eqComparator a b ∨ lessComparator b a) :=
  ⟨eqComparator_iff, lessComparator_iff, comparators_trichotomy a b⟩

/-- A packed key is read back whatever follows it, and read as a key is any form
of the tag with the data behind it. -/
theorem storage_forms (stream rest : List UInt8) (key : Storage size) :
    (unpackStorage size).run (packStorage key ++ rest) = .ok (key, rest) ∧
      ((unpackStorage size).run stream = .ok (key, rest) ↔
        ∃ front last, stream = front ++ last :: (key.data.data ++ rest) ∧
          (∀ b ∈ front, b &&& 0x80 ≠ 0) ∧ front.length ≤ 4 ∧
          (last &&& 0x80 = 0 ∨ front.length = 4) ∧
          key.suite.which = UInt32.ofNat (septets (front ++ [last]))) := by
  refine ⟨recovers_storage size key rest, ?_⟩
  rw [unpackStorage, run_bind_eq_ok_iff]
  constructor
  · rintro ⟨w, middle, readTag, readBehind⟩
    obtain ⟨rfl, rfl⟩ := unpackBehindTag_eq_ok_iff.mp readBehind
    exact unpackUnsignedInt_eq_ok_iff.mp readTag
  · intro shape
    exact ⟨key.suite.which, key.data.data ++ rest,
      unpackUnsignedInt_eq_ok_iff.mpr shape,
      unpackBehindTag_eq_ok_iff.mpr ⟨rfl, rfl⟩⟩

end Packing

/-! ### The kinds of texts -/

/-- A named text starts with the three characters of its kind. -/
theorem NamedText.take_three {size : ℕ} {ripemd160 : List UInt8 → FixedArray 20}
    {basePrefix text : StdString} (three : basePrefix.length = 3)
    {key : Storage size} (named : NamedText ripemd160 basePrefix key text) :
    text.take 3 = basePrefix ∧ '_'.toUInt8 ∈ text := by
  obtain ⟨dataStr, extra, rfl, -⟩ := named
  refine ⟨?_, List.mem_append_right _ List.mem_cons_self⟩
  rw [← three, List.take_left]

section Kinds

variable (sha256 : List UInt8 → FixedArray 32)
  (ripemd160 : List UInt8 → FixedArray 20)

/-- Every key and every signature is read back from its own text, whatever the
hashes are. -/
theorem key_texts_round_trip (privateKey : PrivateKey) (publicKey : PublicKey)
    (signature : Signature) :
    parsePrivateKey sha256 ripemd160
        (privateKeyString sha256 ripemd160 privateKey) = .ok privateKey ∧
      parsePublicKey ripemd160 (publicKeyString ripemd160 publicKey) =
        .ok publicKey ∧
      parseSignature ripemd160 (signatureString ripemd160 signature) =
        .ok signature :=
  ⟨parsePrivateKey_privateKeyString sha256 ripemd160 privateKey,
    parsePublicKey_publicKeyString ripemd160 publicKey,
    parseSignature_signatureString ripemd160 signature⟩

/-- A text is read as one kind of value at most, but for texts with the legacy
prefix that have no underscore. -/
theorem kinds_exclude_each_other (text : StdString) (privateKey : PrivateKey)
    (publicKey : PublicKey) (signature : Signature) :
    ¬ (parsePrivateKey sha256 ripemd160 text = .ok privateKey ∧
        parseSignature ripemd160 text = .ok signature) ∧
      ¬ (parsePublicKey ripemd160 text = .ok publicKey ∧
        parseSignature ripemd160 text = .ok signature) ∧
      (parsePrivateKey sha256 ripemd160 text = .ok privateKey →
        parsePublicKey ripemd160 text = .ok publicKey →
          text.take 3 = publicKeyLegacyPrefix ∧ '_'.toUInt8 ∉ text) ∧
      parsePublicKey ripemd160 (privateKeyString sha256 ripemd160 privateKey) ≠
        .ok publicKey := by
  have signatureStart : parseSignature ripemd160 text = .ok signature →
      text.take 3 = literal "SIG" ∧ '_'.toUInt8 ∈ text := by
    rw [parseSignature_eq_ok_iff]
    exact NamedText.take_three rfl
  have privateStart : parsePrivateKey sha256 ripemd160 text = .ok privateKey →
      '_'.toUInt8 ∉ text ∨ text.take 3 = literal "PVT" := by
    rw [parsePrivateKey_eq_ok_iff]
    rintro (⟨absent, -⟩ | named)
    · exact Or.inl absent
    · exact Or.inr (named.take_three rfl).1
  have publicStart : ∀ other : StdString,
      parsePublicKey ripemd160 other = .ok publicKey →
        (other.take 3 = publicKeyLegacyPrefix ∧ '_'.toUInt8 ∉ other) ∨
          (other.take 3 = literal "PUB" ∧ '_'.toUInt8 ∈ other) := by
    intro other
    rw [parsePublicKey_eq_ok_iff]
    rintro (⟨-, sub, rfl, absent, -⟩ | named)
    · left
      refine ⟨rfl, ?_⟩
      rw [List.mem_append, not_or]
      exact ⟨by decide, absent⟩
    · exact Or.inr (named.take_three rfl)
  refine ⟨?_, ?_, ?_, ?_⟩
  · rintro ⟨isPrivate, isSignature⟩
    obtain ⟨start, present⟩ := signatureStart isSignature
    rcases privateStart isPrivate with absent | privatePrefix
    · exact absent present
    · rw [start] at privatePrefix
      exact absurd privatePrefix (by decide)
  · rintro ⟨isPublic, isSignature⟩
    obtain ⟨start, present⟩ := signatureStart isSignature
    rcases publicStart text isPublic with ⟨-, absent⟩ | ⟨publicPrefix, -⟩
    · exact absent present
    · rw [start] at publicPrefix
      exact absurd publicPrefix (by decide)
  · intro isPrivate isPublic
    rcases publicStart text isPublic with legacy | ⟨publicPrefix, present⟩
    · exact legacy
    · rcases privateStart isPrivate with absent | privatePrefix
      · exact absurd present absent
      · rw [publicPrefix] at privatePrefix
        exact absurd privatePrefix (by decide)
  · intro isPublic
    have start := (publicStart _ isPublic).imp And.left And.left
    obtain ⟨rest, five | pvt⟩ := privateKeyString_start sha256 ripemd160 privateKey
    · rw [five] at start
      rcases start with same | same <;>
        exact absurd (List.cons.inj same).1 (by decide)
    · have three : (literal "PVT" ++ rest).take 3 = literal "PVT" := rfl
      rw [pvt, three] at start
      rcases start with same | same <;> exact absurd same (by decide)

end Kinds

end Bright.Keys
