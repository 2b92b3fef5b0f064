import Bright.Keys.Storage

/-!
# Public keys and signatures as text

A K1 public key is written with the legacy prefix `UOS` and a checksum over the
data alone, an R1 public key and every signature with the prefix of its kind and
the name of the suite.

In the legacy form exactly the packed bytes are read (`LegacyText`), so a key has
one such text up to white space; in the other form the packed bytes may go on.
-/

namespace Bright.Keys

open Bright.Fc
open Bright.Lib
open Bright.Lib.Codec
open Bright.Eosio (StdString)

/-- `fc::crypto::public_key`. -/
abbrev PublicKey := Storage 33

/-- `fc::crypto::signature`. -/
abbrev Signature := Storage 65

variable (ripemd160 : List UInt8 → FixedArray 20)

/-- `prefix_matches`. -/
def prefixMatches (start str : StdString) : Bool :=
  decide (start.length < str.length ∧ substrTo str start.length = start)

def publicKeyLegacyPrefix : StdString := literal "UOS"

/-- `parse_base58` of a public key. -/
def parsePublicKey (base58str : StdString) : Except Exception PublicKey :=
  if prefixMatches publicKeyLegacyPrefix base58str ∧
      find base58str '_'.toUInt8 = none then do
    let subStr := substrFrom base58str publicKeyLegacyPrefix.length
    let bin ← fromBase58 subStr
    fcAssert (bin.length = 33 + 4)
      "bin.size() == sizeof(data_type) + sizeof(uint32_t)" "" []
    let (wrapped, _) ← (unpackChecksummed 33).run bin
    fcAssert (calculateChecksum ripemd160 wrapped.data none = wrapped.check)
      "wrapper::calculate_checksum(wrapped.data) == wrapped.check" "" []
    return ⟨.k1, wrapped.data⟩
  else
    match find base58str '_'.toUInt8 with
    | none => fcAssertFailed "pivot != std::string::npos"
        "No delimiter in string, cannot determine data type: ${str}"
        [("str", base58str)]
    | some pivot =>
        parseBehindPivot ripemd160 (literal "PUB")
          "Public Key has invalid prefix: ${str}" "Public Key has no data: ${str}"
          33 base58str pivot

/-- `public_key::operator std::string`. -/
def publicKeyString (key : PublicKey) : StdString :=
  let dataStr := base58StrVisitor ripemd160 (some .k1) key
  if key.suite.which = 0 then publicKeyLegacyPrefix ++ dataStr
  else literal "PUB" ++ '_'.toUInt8 :: dataStr

/-- `parse_base58` of a signature. -/
def parseSignature (base58str : StdString) : Except Exception Signature :=
  fcRethrow "error parsing signature" [("str", base58str)] <|
    match find base58str '_'.toUInt8 with
    | none => fcAssertFailed "pivot != std::string::npos"
        "No delimiter in string, cannot determine type: ${str}" [("str", base58str)]
    | some pivot =>
        parseBehindPivot ripemd160 (literal "SIG")
          "Signature Key has invalid prefix: ${str}" "Signature has no data: ${str}"
          65 base58str pivot

/-- `signature::operator std::string`. -/
def signatureString (signature : Signature) : StdString :=
  literal "SIG" ++ '_'.toUInt8 :: base58StrVisitor ripemd160 none signature

/-! ### Public keys -/

theorem prefixMatches_iff {start str : StdString} :
    prefixMatches start str ↔ ∃ sub, sub ≠ [] ∧ str = start ++ sub := by
  rw [prefixMatches, decide_eq_true_eq, substrTo]
  constructor
  · rintro ⟨longer, front⟩
    refine ⟨str.drop start.length, ?_, ?_⟩
    · rw [ne_eq, List.drop_eq_nil_iff]
      omega
    · have parts := List.take_append_drop start.length str
      rwa [front, eq_comm] at parts
  · rintro ⟨sub, nonempty, rfl⟩
    have := List.length_pos_of_ne_nil nonempty
    exact ⟨by rw [List.length_append]; omega, List.take_left⟩

/-- The legacy texts of a key. -/
def LegacyText (key : PublicKey) (text : StdString) : Prop :=
  key.suite = .k1 ∧ ∃ sub, text = publicKeyLegacyPrefix ++ sub ∧
    '_'.toUInt8 ∉ sub ∧
    fromBase58 sub = .ok (checkedBytes ripemd160 none key.data)

/-- The legacy branch, of a text without an underscore. -/
theorem parsePublicKey_of_notMem {base58str : StdString}
    (absent : '_'.toUInt8 ∉ base58str) {key : PublicKey} :
    parsePublicKey ripemd160 base58str = .ok key ↔
      LegacyText ripemd160 key base58str := by
  have notFound := find_eq_none_iff.mpr absent
  rw [parsePublicKey]
  split_ifs with legacy
  · obtain ⟨sub, nonempty, rfl⟩ := prefixMatches_iff.mp legacy.1
    have behind : substrFrom (publicKeyLegacyPrefix ++ sub)
        publicKeyLegacyPrefix.length = sub := by
      rw [substrFrom, List.drop_left]
    simp only [behind, bind_eq_ok_iff, fcAssert_eq_ok_iff]
    constructor
    · rintro ⟨bin, decoded, -, size, ⟨wrapped, rest⟩, unpacked, -, agrees, result⟩
      have packed := canonical_checksummed 33 bin wrapped rest unpacked
      have exact : rest = [] := by
        rw [packed, List.length_append, length_packChecksummed] at size
        exact List.length_eq_zero_iff.mp (by omega)
      rw [← Except.ok.inj result]
      refine ⟨rfl, sub, rfl, fun member =>
        absent (List.mem_append_right _ member), ?_⟩
      rw [decoded, packed, exact, List.append_nil, checkedBytes, agrees]
    · rintro ⟨isSuite, sub', parts, -, decoded⟩
      obtain rfl := List.append_cancel_left parts
      have unpacked := recovers_checksummed 33
        ⟨key.data, calculateChecksum ripemd160 key.data none⟩ []
      rw [List.append_nil] at unpacked
      refine ⟨_, decoded, (), length_packChecksummed _, _, unpacked, (), rfl,
        congrArg Except.ok ?_⟩
      ext1
      · exact isSuite.symm
      · rfl
  · simp only [notFound, fcAssertFailed, fcThrow, reduceCtorEq, false_iff]
    rintro ⟨-, sub, parts, -, decoded⟩
    refine legacy ⟨prefixMatches_iff.mpr ⟨sub, ?_, parts⟩, notFound⟩
    apply ne_nil_of_fromBase58 decoded
    simpa using checkedBytes_append_ne_nil ripemd160 none key.data []

/-- Parsed are the legacy texts and the texts that name the suite. -/
theorem parsePublicKey_eq_ok_iff {base58str : StdString} {key : PublicKey} :
    parsePublicKey ripemd160 base58str = .ok key ↔
      LegacyText ripemd160 key base58str ∨
        NamedText ripemd160 (literal "PUB") key base58str := by
  rw [← parseBehindPivot_iff_namedText ripemd160 (by decide)]
  cases found : find base58str '_'.toUInt8 with
  | none =>
      rw [parsePublicKey_of_notMem ripemd160 (find_eq_none_iff.mp found)]
      constructor
      · exact Or.inl
      · rintro (legacy | ⟨_, notFound, -⟩)
        · exact legacy
        · exact nomatch notFound
  | some pivot =>
      have present : '_'.toUInt8 ∈ base58str := by
        obtain ⟨before, after, rfl, -, -⟩ := find_eq_some_iff.mp found
        exact List.mem_append_right before List.mem_cons_self
      simp only [parsePublicKey, found, reduceCtorEq, and_false, if_false]
      constructor
      · intro parsed
        exact Or.inr ⟨pivot, rfl, parsed⟩
      · rintro (⟨-, sub, rfl, absent, -⟩ | ⟨place, same, parsed⟩)
        · rcases List.mem_append.mp present with inPrefix | inSub
          · exact absurd inPrefix (by decide)
          · exact absurd inSub absent
        · rwa [Option.some.inj same]

/-- Every public key is read back from its text. -/
theorem parsePublicKey_publicKeyString (key : PublicKey) :
    parsePublicKey ripemd160 (publicKeyString ripemd160 key) = .ok key := by
  rw [parsePublicKey_eq_ok_iff]
  obtain ⟨suite, data⟩ := key
  cases suite with
  | k1 =>
      left
      refine ⟨rfl, toBase58 (checkedBytes ripemd160 none data), ?_,
        underscore_notMem_toBase58 _, fromBase58_toBase58 _⟩
      rw [← base58StrVisitor_default ripemd160 ⟨.k1, data⟩]
      rfl
  | r1 =>
      right
      exact namedText_base58StrVisitor ripemd160 (literal "PUB") (by simp)

/-- The texts that are read as a public key.  Behind the legacy prefix there is
one text of the key up to white space; behind the prefix of the kind and the
name of the suite there is one for all bytes that may follow the checksum. -/
theorem public_key_texts (text : StdString) (key : PublicKey) :
    parsePublicKey ripemd160 text = .ok key ↔
      (key.suite = .k1 ∧ ∃ sub, text = literal "UOS" ++ sub ∧
        '_'.toUInt8 ∉ sub ∧
        strip sub = toBase58
          (key.data.data ++ packUint32 (firstWord (ripemd160 key.data.data)))) ∨
      ∃ dataStr extra,
        text = literal "PUB" ++
          '_'.toUInt8 :: (key.suite.name ++ '_'.toUInt8 :: dataStr) ∧
        strip dataStr = toBase58 (key.data.data ++ packUint32
          (firstWord (ripemd160 (key.data.data ++ key.suite.name))) ++ extra) := by
  rw [parsePublicKey_eq_ok_iff, namedText_iff_strip, LegacyText]
  simp only [fromBase58_eq_ok_iff_strip]
  rfl

/-! ### Signatures -/

/-- Parsed are the texts that name the suite. -/
theorem parseSignature_eq_ok_iff {base58str : StdString} {signature : Signature} :
    parseSignature ripemd160 base58str = .ok signature ↔
      NamedText ripemd160 (literal "SIG") signature base58str := by
  rw [← parseBehindPivot_iff_namedText ripemd160 (by decide), parseSignature,
    fcRethrow_eq_ok_iff]
  cases found : find base58str '_'.toUInt8 with
  | none => simp [fcAssertFailed, fcThrow]
  | some pivot =>
      constructor
      · intro parsed
        exact ⟨pivot, rfl, parsed⟩
      · rintro ⟨place, same, parsed⟩
        rwa [Option.some.inj same]

/-- Every signature is read back from its text. -/
theorem parseSignature_signatureString (signature : Signature) :
    parseSignature ripemd160 (signatureString ripemd160 signature) =
      .ok signature := by
  rw [parseSignature_eq_ok_iff]
  exact namedText_base58StrVisitor ripemd160 (literal "SIG") (by simp)

/-- The texts that are read as a signature; what is thrown for any other text ends
with a message that names it. -/
theorem signature_texts (text : StdString) (signature : Signature) :
    (parseSignature ripemd160 text = .ok signature ↔
      ∃ dataStr extra,
        text = literal "SIG" ++
          '_'.toUInt8 :: (signature.suite.name ++ '_'.toUInt8 :: dataStr) ∧
        strip dataStr = toBase58 (signature.data.data ++ packUint32 (firstWord
          (ripemd160 (signature.data.data ++ signature.suite.name))) ++ extra)) ∧
      ∀ thrown, parseSignature ripemd160 text = .error thrown →
        ∃ earlier, thrown.log =
          earlier ++ [⟨"error parsing signature", [("str", text)]⟩] := by
  constructor
  · rw [parseSignature_eq_ok_iff, namedText_iff_strip]
    rfl
  · intro thrown failed
    obtain ⟨first, -, rfl⟩ := fcRethrow_eq_error_iff.mp failed
    exact ⟨first.log, rfl⟩

end Bright.Keys
