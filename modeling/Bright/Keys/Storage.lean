import Bright.Fc.Base58
import Bright.Fc.Raw

/-!
# Keys and signatures of two cipher suites, as text

A key or a signature is the data of one of two cipher suites, K1 and R1.  Its
text is the name of the suite, an underscore and the base58 text of the data and
a checksum over the data and the name.

What is parsed is such a text whose packed bytes may go on behind the checksum
(`base58StrParser_eq_ok_iff`): the parser asks for at least as many bytes as it
unpacks, not for exactly as many.
-/

namespace Bright.Keys

open Bright.Fc
open Bright.Lib
open Bright.Lib.Codec
open Bright.Eosio (StdString)

/-- The cipher suites, in the order of the alternatives of the storage types. -/
inductive Suite where
  | k1
  | r1
deriving DecidableEq

/-- The tag of a `static_variant` over the two suites. -/
def Suite.which : Suite → UInt32
  | k1 => 0
  | r1 => 1

/-- `private_key_prefix`, `public_key_prefix` and `signature_prefix`, which are
the same. -/
def Suite.name : Suite → StdString
  | k1 => literal "K1"
  | r1 => literal "R1"

/-- A `static_variant` of two shims over data of one size. -/
@[ext]
structure Storage (size : ℕ) where
  suite : Suite
  data : FixedArray size
deriving DecidableEq

/-- `checksummed_data`. -/
@[ext]
structure ChecksummedData (size : ℕ) where
  data : FixedArray size
  check : UInt32

variable {size : ℕ} (ripemd160 : List UInt8 → FixedArray 20)

/-- The first word of a hash, `_hash[0]`. -/
def firstWord {n : ℕ} (hash : FixedArray n) : UInt32 :=
  uint32OfMemory (FixedArray.ofBytes 4 hash.data)

/-- `checksummed_data::calculate_checksum`; `none` is no prefix. -/
def calculateChecksum (data : FixedArray size) (suite : Option Suite) : UInt32 :=
  match suite with
  | none => firstWord (ripemd160 data.data)
  | some suite => firstWord (ripemd160 (data.data ++ suite.name))

def packChecksummed (wrapper : ChecksummedData size) : List UInt8 :=
  wrapper.data.data ++ packUint32 wrapper.check

def unpackChecksummed (size : ℕ) : Unpack (ChecksummedData size) := do
  let data ← read size
  let check ← unpackUint32
  return ⟨data, check⟩

/-- `base58_str_parser_impl`, over the suites from a position on. -/
def base58StrParserImpl (size : ℕ) :
    List Suite → StdString → StdString → Except Exception (Storage size)
  | [], prefixStr, dataStr =>
      fcAssertFailed "false"
        "No matching suite type for $\x7bprefix\x7d_$\x7bdata\x7d"
        [("prefix", prefixStr), ("data", dataStr)]
  | suite :: rem, prefixStr, dataStr =>
      if suite.name = prefixStr then do
        let bin ← fromBase58 dataStr
        fcAssert (size + 4 ≤ bin.length)
          "bin.size() >= sizeof(data_type) + sizeof(uint32_t)" "" []
        let (wrapped, _) ← (unpackChecksummed size).run bin
        let checksum := calculateChecksum ripemd160 wrapped.data (some suite)
        fcAssert (checksum = wrapped.check) "checksum == wrapped.check" "" []
        return ⟨suite, wrapped.data⟩
      else base58StrParserImpl size rem prefixStr dataStr

/-- `base58_str_parser::apply`. -/
def base58StrParser (size : ℕ) (base58str : StdString) :
    Except Exception (Storage size) :=
  match find base58str '_'.toUInt8 with
  | none => fcAssertFailed "pivot != std::string::npos"
      "No delimiter in data, cannot determine suite type: ${str}"
      [("str", base58str)]
  | some pivot => do
      let prefixStr := substrTo base58str pivot
      let dataStr := substrFrom base58str (pivot + 1)
      fcAssert (dataStr ≠ []) "!data_str.empty()"
        "Data only has suite type prefix: ${str}" [("str", base58str)]
      base58StrParserImpl ripemd160 size [.k1, .r1] prefixStr dataStr

/-- What the three functions `parse_base58` do with a text that has an
underscore at `pivot`, with the messages of each. -/
def parseBehindPivot (basePrefix : StdString) (invalid noData : String)
    (size : ℕ) (base58str : StdString) (pivot : ℕ) :
    Except Exception (Storage size) := do
  let prefixStr := substrTo base58str pivot
  fcAssert (basePrefix = prefixStr) "prefix == prefix_str" invalid
    [("str", base58str), ("prefix_str", prefixStr)]
  let dataStr := substrFrom base58str (pivot + 1)
  fcAssert (dataStr ≠ []) "!data_str.empty()" noData [("str", base58str)]
  base58StrParser ripemd160 size dataStr

/-- `base58str_visitor`; the suite at the default position is not named. -/
def base58StrVisitor (defaultSuite : Option Suite) (key : Storage size) :
    StdString :=
  let isDefault := defaultSuite = some key.suite
  let check := calculateChecksum ripemd160 key.data
    (if isDefault then none else some key.suite)
  let dataStr := toBase58 (packChecksummed ⟨key.data, check⟩)
  if isDefault then dataStr else key.suite.name ++ '_'.toUInt8 :: dataStr

/-! ### The packed bytes -/

/-- The bytes of some data and of its checksum. -/
def checkedBytes (suite : Option Suite) (data : FixedArray size) : List UInt8 :=
  packChecksummed ⟨data, calculateChecksum ripemd160 data suite⟩

theorem recovers_checksummed (size : ℕ) :
    Recovers packChecksummed (unpackChecksummed size) := by
  refine (recovers_read size).bind ChecksummedData.data fun wrapper rest => ?_
  rw [run_bind_of_ok (recovers_uint32 wrapper.check rest)]
  rfl

theorem canonical_checksummed (size : ℕ) :
    Canonical packChecksummed (unpackChecksummed size) := by
  refine (canonical_read size).bind ChecksummedData.data
    fun data stream wrapper rest result => ?_
  obtain ⟨check, middle, readCheck, readRest⟩ := run_bind_eq_ok_iff.mp result
  obtain ⟨rfl, rfl⟩ := Prod.mk.inj (run_pure_eq_ok_iff.mp readRest)
  exact ⟨rfl, canonical_uint32 stream check rest readCheck⟩

theorem length_packChecksummed (wrapper : ChecksummedData size) :
    (packChecksummed wrapper).length = size + 4 := by
  rw [packChecksummed, List.length_append, wrapper.data.length_data, packUint32,
    (memoryOfUint32 wrapper.check).length_data]

theorem name_injective : Function.Injective Suite.name := by
  intro first second
  cases first <;> cases second <;> decide

theorem underscore_notMem_name (suite : Suite) : '_'.toUInt8 ∉ suite.name := by
  cases suite <;> decide

/-! ### What is parsed -/

theorem base58StrParserImpl_eq_ok_iff {suites : List Suite}
    {prefixStr dataStr : StdString} {key : Storage size} :
    base58StrParserImpl ripemd160 size suites prefixStr dataStr = .ok key ↔
      key.suite ∈ suites ∧ prefixStr = key.suite.name ∧
        ∃ extra, fromBase58 dataStr =
          .ok (checkedBytes ripemd160 (some key.suite) key.data ++ extra) := by
  induction suites with
  | nil => simp [base58StrParserImpl, fcAssertFailed, fcThrow]
  | cons suite rem inductionHypothesis =>
      rw [base58StrParserImpl]
      split_ifs with named
      · simp only [bind_eq_ok_iff, fcAssert_eq_ok_iff]
        constructor
        · rintro ⟨bin, decoded, -, -, ⟨wrapped, extra⟩, unpacked, -, agrees,
            result⟩
          rw [← Except.ok.inj result]
          refine ⟨List.mem_cons_self, named.symm, extra, ?_⟩
          rw [decoded, canonical_checksummed size bin wrapped extra unpacked,
            checkedBytes, agrees]
        · rintro ⟨member, isName, extra, decoded⟩
          have isSuite : suite = key.suite := name_injective (named.trans isName)
          subst isSuite
          refine ⟨_, decoded, (), ?_, _,
            recovers_checksummed size _ extra, (), rfl, rfl⟩
          rw [List.length_append, checkedBytes, length_packChecksummed]
          omega
      · rw [inductionHypothesis, List.mem_cons]
        constructor
        · rintro ⟨member, parsed⟩
          exact ⟨Or.inr member, parsed⟩
        · rintro ⟨member, isName, parsed⟩
          refine ⟨member.resolve_left fun isSuite => named ?_, isName, parsed⟩
          rw [isName, isSuite]

theorem checkedBytes_append_ne_nil (suite : Option Suite) (data : FixedArray size)
    (extra : List UInt8) : checkedBytes ripemd160 suite data ++ extra ≠ [] := by
  intro empty
  have size := congrArg List.length empty
  rw [List.length_append, checkedBytes, length_packChecksummed,
    List.length_nil] at size
  omega

/-- Parsed is the name of a suite, an underscore and a base58 text of the data
and its checksum, behind which further bytes may follow. -/
theorem base58StrParser_eq_ok_iff {base58str : StdString} {key : Storage size} :
    base58StrParser ripemd160 size base58str = .ok key ↔
      ∃ dataStr extra, base58str = key.suite.name ++ '_'.toUInt8 :: dataStr ∧
        fromBase58 dataStr =
          .ok (checkedBytes ripemd160 (some key.suite) key.data ++ extra) := by
  constructor
  · intro parsed
    rw [base58StrParser] at parsed
    cases found : find base58str '_'.toUInt8 with
    | none => simp [found, fcAssertFailed, fcThrow] at parsed
    | some pivot =>
        obtain ⟨before, after, rfl, absent, rfl⟩ := find_eq_some_iff.mp found
        simp only [found, bind_eq_ok_iff, base58StrParserImpl_eq_ok_iff] at parsed
        obtain ⟨-, -, -, isName, extra, decoded⟩ := parsed
        rw [substrTo, List.take_left] at isName
        refine ⟨after, extra, by rw [isName], ?_⟩
        simpa [substrFrom] using decoded
  · rintro ⟨dataStr, extra, rfl, decoded⟩
    have nonempty := ne_nil_of_fromBase58 decoded
      (checkedBytes_append_ne_nil ripemd160 _ _ _)
    have behind : substrFrom (key.suite.name ++ '_'.toUInt8 :: dataStr)
        (key.suite.name.length + 1) = dataStr := by
      simp [substrFrom]
    rw [base58StrParser, find_append (underscore_notMem_name key.suite)]
    simp only [behind, bind_eq_ok_iff, base58StrParserImpl_eq_ok_iff]
    refine ⟨(), fcAssert_of nonempty, ?_, ?_, extra, decoded⟩
    · cases key.suite <;> decide
    · rw [substrTo, List.take_left]

theorem base58StrParser_nil_ne_ok (key : Storage size) :
    base58StrParser ripemd160 size [] ≠ .ok key := by
  rw [ne_eq, base58StrParser_eq_ok_iff]
  rintro ⟨dataStr, extra, parts, -⟩
  exact absurd parts.symm (by simp)

theorem parseBehindPivot_eq_ok_iff {basePrefix before after : StdString}
    {invalid noData : String} {key : Storage size} :
    parseBehindPivot ripemd160 basePrefix invalid noData size
        (before ++ '_'.toUInt8 :: after) before.length = .ok key ↔
      basePrefix = before ∧ base58StrParser ripemd160 size after = .ok key := by
  have behind : substrFrom (before ++ '_'.toUInt8 :: after) (before.length + 1) =
      after := by
    simp [substrFrom]
  have upTo : substrTo (before ++ '_'.toUInt8 :: after) before.length = before := by
    rw [substrTo, List.take_left]
  simp only [parseBehindPivot, behind, upTo, bind_eq_ok_iff, fcAssert_eq_ok_iff]
  constructor
  · rintro ⟨-, isPrefix, -, -, parsed⟩
    exact ⟨isPrefix, parsed⟩
  · rintro ⟨isPrefix, parsed⟩
    refine ⟨(), isPrefix, (), ?_, parsed⟩
    rintro rfl
    exact base58StrParser_nil_ne_ok ripemd160 key parsed

/-- The texts of a kind that name the suite: the base prefix of the kind, the
name of the suite, and a base58 text of the data and its checksum, behind which
further bytes may follow. -/
def NamedText (basePrefix : StdString) (key : Storage size) (text : StdString) :
    Prop :=
  ∃ dataStr extra,
    text = basePrefix ++ '_'.toUInt8 :: (key.suite.name ++ '_'.toUInt8 :: dataStr) ∧
    fromBase58 dataStr =
      .ok (checkedBytes ripemd160 (some key.suite) key.data ++ extra)

/-- A named text by its characters. -/
theorem namedText_iff_strip {basePrefix text : StdString} {key : Storage size} :
    NamedText ripemd160 basePrefix key text ↔ ∃ dataStr extra,
      text = basePrefix ++
        '_'.toUInt8 :: (key.suite.name ++ '_'.toUInt8 :: dataStr) ∧
      strip dataStr =
        toBase58 (checkedBytes ripemd160 (some key.suite) key.data ++ extra) := by
  simp only [NamedText, fromBase58_eq_ok_iff_strip]

/-- The texts with an underscore that are parsed are the named texts. -/
theorem parseBehindPivot_iff_namedText {basePrefix base58str : StdString}
    (absent : '_'.toUInt8 ∉ basePrefix) {invalid noData : String}
    {key : Storage size} :
    (∃ pivot, find base58str '_'.toUInt8 = some pivot ∧
      parseBehindPivot ripemd160 basePrefix invalid noData size base58str pivot =
        .ok key) ↔
      NamedText ripemd160 basePrefix key base58str := by
  constructor
  · rintro ⟨pivot, found, parsed⟩
    obtain ⟨before, after, rfl, -, rfl⟩ := find_eq_some_iff.mp found
    obtain ⟨rfl, suiteParsed⟩ := (parseBehindPivot_eq_ok_iff ripemd160).mp parsed
    obtain ⟨dataStr, extra, rfl, decoded⟩ :=
      (base58StrParser_eq_ok_iff ripemd160).mp suiteParsed
    exact ⟨dataStr, extra, rfl, decoded⟩
  · rintro ⟨dataStr, extra, rfl, decoded⟩
    refine ⟨basePrefix.length, find_append absent, ?_⟩
    rw [parseBehindPivot_eq_ok_iff, base58StrParser_eq_ok_iff]
    exact ⟨rfl, dataStr, extra, rfl, decoded⟩

theorem base58StrVisitor_default (key : Storage size) :
    base58StrVisitor ripemd160 (some key.suite) key =
      toBase58 (checkedBytes ripemd160 none key.data) := by
  simp [base58StrVisitor, checkedBytes]

theorem base58StrVisitor_named {defaultSuite : Option Suite} {key : Storage size}
    (named : defaultSuite ≠ some key.suite) :
    base58StrVisitor ripemd160 defaultSuite key =
      key.suite.name ++
        '_'.toUInt8 :: toBase58 (checkedBytes ripemd160 (some key.suite) key.data) := by
  simp [base58StrVisitor, named, checkedBytes]

/-- What the visitor writes with a name is a named text. -/
theorem namedText_base58StrVisitor (basePrefix : StdString)
    {defaultSuite : Option Suite} {key : Storage size}
    (named : defaultSuite ≠ some key.suite) :
    NamedText ripemd160 basePrefix key
      (basePrefix ++
        '_'.toUInt8 :: base58StrVisitor ripemd160 defaultSuite key) := by
  refine ⟨toBase58 (checkedBytes ripemd160 (some key.suite) key.data), [], ?_, ?_⟩
  · rw [base58StrVisitor_named ripemd160 named]
  · rw [fromBase58_toBase58, List.append_nil]

end Bright.Keys
