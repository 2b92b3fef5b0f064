import Bright.Fc.Hex
import Bright.Keys.Storage

/-!
# Private keys as text

A K1 key is written in the wallet import format, which is the base58 text of a
byte `0x80`, the secret and the start of a double hash; an R1 key is written as
`PVT_R1_` and the text of its suite.  A text without an underscore is read in
the import format.

Reading asks little of that format (`fromWif_eq_ok_iff`): the first byte may be
any, the hash may be taken once or twice, and a secret that is too long or too
short is cut or padded with zeros.  So each key is read back from its own text
(`parsePrivateKey_privateKeyString`), and from many others.
-/

namespace Bright.Keys

open Bright.Fc
open Bright.Lib
open Bright.Lib.Radix
open Bright.Eosio (StdString)

/-- `fc::crypto::private_key`. -/
abbrev PrivateKey := Storage 32

variable (sha256 : List UInt8 → FixedArray 32)
  (ripemd160 : List UInt8 → FixedArray 20)

/-- The hash of the hash. -/
def doubleHash (bytes : List UInt8) : FixedArray 32 := sha256 (sha256 bytes).data

/-- `to_wif`. -/
def toWif (secret : FixedArray 32) : StdString :=
  let data := 0x80 :: secret.data
  let digest := sha256 data
  let digest := sha256 digest.data
  toBase58 (data ++ digest.data.take 4)

/-- `from_wif`. -/
def fromWif (wifKey : StdString) : Except Exception (FixedArray 32) := do
  let wifBytes ← fromBase58 wifKey
  fcAssert (5 ≤ wifBytes.length) "wif_bytes.size() >= 5" "" []
  let keyBytes := (wifBytes.take (wifBytes.length - 4)).drop 1
  let check := sha256 (wifBytes.take (wifBytes.length - 4))
  let check2 := sha256 check.data
  let sum := wifBytes.drop (wifBytes.length - 4)
  fcAssert (check.data.take 4 = sum ∨ check2.data.take 4 = sum)
    ("memcmp( (char*)&check, wif_bytes.data() + wif_bytes.size() - 4, 4 ) == 0 " ++
      "|| memcmp( (char*)&check2, wif_bytes.data() + wif_bytes.size() - 4, 4 ) == 0")
    "" []
  arrayOfVariant 32 (variantOfBytes keyBytes)

/-- `parse_base58` of a private key. -/
def parsePrivateKey (base58str : StdString) : Except Exception PrivateKey :=
  match find base58str '_'.toUInt8 with
  | none => do
      let secret ← fromWif sha256 base58str
      return ⟨.k1, secret⟩
  | some pivot =>
      parseBehindPivot ripemd160 (literal "PVT")
        "Private Key has invalid prefix: ${str}" "Private Key has no data: ${str}"
        32 base58str pivot

/-- `private_key::operator string`. -/
def privateKeyString (key : PrivateKey) : StdString :=
  if key.suite.which = 0 then toWif sha256 key.data
  else literal "PVT" ++ '_'.toUInt8 :: base58StrVisitor ripemd160 none key

/-! ### The wallet import format -/

/-- The first four bytes of a hash. -/
theorem length_take_hash (hash : FixedArray 32) : (hash.data.take 4).length = 4 := by
  rw [List.length_take, hash.length_data]
  rfl

/-- Read is a base58 text of any first byte, a payload, and four bytes of its
hash or of its double hash; the secret is the payload, cut or padded. -/
theorem fromWif_eq_ok_iff {wifKey : StdString} {secret : FixedArray 32} :
    fromWif sha256 wifKey = .ok secret ↔
      ∃ version payload sum,
        fromBase58 wifKey = .ok (version :: payload ++ sum) ∧
        (sum = (sha256 (version :: payload)).data.take 4 ∨
          sum = (doubleHash sha256 (version :: payload)).data.take 4) ∧
        secret = .ofBytes 32 payload := by
  simp only [fromWif, bind_eq_ok_iff, fcAssert_eq_ok_iff,
    arrayOfVariant_variantOfBytes, Except.ok.injEq]
  constructor
  · rintro ⟨wifBytes, decoded, -, enough, -, agrees, rfl⟩
    cases wifBytes with
    | nil => exact absurd enough (by decide)
    | cons version rest =>
        have size : 4 ≤ rest.length := by
          rw [List.length_cons] at enough
          omega
        have cut : rest.length + 1 - 4 = rest.length - 4 + 1 := by omega
        simp only [List.length_cons, cut, List.take_succ_cons,
          List.drop_succ_cons, List.drop_zero] at agrees ⊢
        refine ⟨version, rest.take (rest.length - 4), rest.drop (rest.length - 4),
          ?_, ?_, rfl⟩
        · rw [decoded, List.cons_append, List.take_append_drop]
        · exact agrees.imp Eq.symm Eq.symm
  · rintro ⟨version, payload, sum, decoded, agrees, rfl⟩
    have size : sum.length = 4 := by
      rcases agrees with rfl | rfl <;> exact length_take_hash _
    have whole : (version :: payload ++ sum).length - 4 =
        (version :: payload).length := by
      rw [List.length_append, size, Nat.add_sub_cancel]
    refine ⟨_, decoded, (), ?_, (), ?_, ?_⟩
    · rw [List.length_append, size, List.length_cons]
      omega
    · rw [whole, List.take_left, List.drop_left]
      exact agrees.imp Eq.symm Eq.symm
    · rw [whole, List.take_left]
      rfl

theorem fromWif_toWif (secret : FixedArray 32) :
    fromWif sha256 (toWif sha256 secret) = .ok secret := by
  rw [fromWif_eq_ok_iff]
  refine ⟨0x80, secret.data, (doubleHash sha256 (0x80 :: secret.data)).data.take 4,
    ?_, Or.inr rfl, (FixedArray.ofBytes_data secret).symm⟩
  rw [toWif, fromBase58_toBase58]
  rfl

/-- The text of a byte `0x80` and 36 more bytes, of which the first byte alone
decides the first character and the length. -/
theorem toBase58_version {tail : List UInt8} (size : tail.length = 36) :
    ∃ rest, toBase58 (0x80 :: tail) = '5'.toUInt8 :: rest ∧ rest.length = 50 := by
  have whole : number 256 ((0x80 :: tail).map UInt8.toNat) =
      128 * 256 ^ 36 + number 256 (tail.map UInt8.toNat) := by
    rw [List.map_cons, number_cons, List.length_map, size]
    rfl
  have small := number_lt (by decide) (map_toNat_lt tail)
  rw [List.length_map, size] at small
  have bounds : ∃ digits, numeral 58 (number 256 ((0x80 :: tail).map UInt8.toNat)) =
      4 :: digits ∧ digits.length = 50 := by
    rw [whole]
    exact numeral_of_bounds (by decide) (by decide) (by omega) (by omega)
  obtain ⟨digits, shape, length⟩ := bounds
  refine ⟨digits.map base58Char, ?_, by rw [List.length_map, length]⟩
  rw [toBase58_eq, encodeBase58_eq, rebase, shape]
  rfl

theorem toWif_cons (secret : FixedArray 32) :
    ∃ rest, toWif sha256 secret = '5'.toUInt8 :: rest ∧ rest.length = 50 := by
  have size : (secret.data ++
      (doubleHash sha256 (0x80 :: secret.data)).data.take 4).length = 36 := by
    rw [List.length_append, secret.length_data, length_take_hash]
  exact toBase58_version size

/-- A text in the import format is the digit 5 and fifty more characters of the
alphabet. -/
theorem toWif_shape (secret : FixedArray 32) :
    ∃ rest, toWif sha256 secret = '5'.toUInt8 :: rest ∧ rest.length = 50 ∧
      ∀ c ∈ rest, c ∈ pszBase58 := by
  obtain ⟨rest, text, length⟩ := toWif_cons sha256 secret
  refine ⟨rest, text, length, fun c member => ?_⟩
  apply mem_toBase58
  rw [← toWif, text]
  exact List.mem_cons_of_mem _ member

/-! ### What is parsed -/

/-- Parsed are the texts in the import format, and those with the prefix of the
kind and the name of the suite. -/
theorem parsePrivateKey_eq_ok_iff {base58str : StdString} {key : PrivateKey} :
    parsePrivateKey sha256 ripemd160 base58str = .ok key ↔
      ('_'.toUInt8 ∉ base58str ∧ key.suite = .k1 ∧
        fromWif sha256 base58str = .ok key.data) ∨
      NamedText ripemd160 (literal "PVT") key base58str := by
  rw [← parseBehindPivot_iff_namedText ripemd160 (by decide)]
  cases found : find base58str '_'.toUInt8 with
  | none =>
      have absent := find_eq_none_iff.mp found
      simp only [parsePrivateKey, found, bind_eq_ok_iff]
      constructor
      · rintro ⟨secret, read, result⟩
        rw [← Except.ok.inj result]
        exact Or.inl ⟨absent, rfl, read⟩
      · rintro (⟨-, isSuite, read⟩ | ⟨_, notFound, -⟩)
        · refine ⟨key.data, read, congrArg Except.ok ?_⟩
          ext1
          · exact isSuite.symm
          · rfl
        · exact nomatch notFound
  | some pivot =>
      have present : '_'.toUInt8 ∈ base58str := by
        obtain ⟨before, after, rfl, -, -⟩ := find_eq_some_iff.mp found
        exact List.mem_append_right before List.mem_cons_self
      simp only [parsePrivateKey, found]
      constructor
      · intro parsed
        exact Or.inr ⟨pivot, rfl, parsed⟩
      · rintro (⟨absent, -⟩ | ⟨place, same, parsed⟩)
        · exact absurd present absent
        · rwa [Option.some.inj same]

/-- The texts that are read as a private key.  In the import format the version
byte may be any, the hash may be taken once or twice, and the payload is cut or
padded to the size of a secret; behind a checksum there may be further bytes. -/
theorem private_key_texts (text : StdString) (key : PrivateKey) :
    parsePrivateKey sha256 ripemd160 text = .ok key ↔
      ('_'.toUInt8 ∉ text ∧ key.suite = .k1 ∧ ∃ version payload sum,
        strip text = toBase58 (version :: payload ++ sum) ∧
        (sum = (sha256 (version :: payload)).data.take 4 ∨
          sum = (sha256 (sha256 (version :: payload)).data).data.take 4) ∧
        key.data = .ofBytes 32 payload) ∨
      ∃ dataStr extra,
        text = literal "PVT" ++
          '_'.toUInt8 :: (key.suite.name ++ '_'.toUInt8 :: dataStr) ∧
        strip dataStr = toBase58 (key.data.data ++ packUint32
          (firstWord (ripemd160 (key.data.data ++ key.suite.name))) ++ extra) := by
  rw [parsePrivateKey_eq_ok_iff, namedText_iff_strip, fromWif_eq_ok_iff]
  simp only [fromBase58_eq_ok_iff_strip]
  rfl

/-- How the text of a private key starts. -/
theorem privateKeyString_start (key : PrivateKey) :
    ∃ rest, privateKeyString sha256 ripemd160 key = '5'.toUInt8 :: rest ∨
      privateKeyString sha256 ripemd160 key = literal "PVT" ++ rest := by
  obtain ⟨suite, secret⟩ := key
  cases suite with
  | k1 =>
      obtain ⟨rest, text, -⟩ := toWif_cons sha256 secret
      exact ⟨rest, Or.inl text⟩
  | r1 => exact ⟨_, Or.inr rfl⟩

/-- Every private key is read back from its text. -/
theorem parsePrivateKey_privateKeyString (key : PrivateKey) :
    parsePrivateKey sha256 ripemd160 (privateKeyString sha256 ripemd160 key) =
      .ok key := by
  rw [parsePrivateKey_eq_ok_iff]
  obtain ⟨suite, secret⟩ := key
  cases suite with
  | k1 =>
      left
      refine ⟨?_, rfl, fromWif_toWif sha256 secret⟩
      exact underscore_notMem_toBase58 _
  | r1 =>
      right
      exact namedText_base58StrVisitor ripemd160 (literal "PVT") (by simp)

end Bright.Keys
