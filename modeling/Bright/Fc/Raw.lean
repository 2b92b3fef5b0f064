import Bright.Fc.Base
import Bright.Lib.Codec
import Mathlib.Data.Nat.Digits.Defs

/-!
# Packing of arrays and integers

`fc::raw` writes an array and a 32-bit integer as their memory, the low byte of
the integer first, and `unsigned_int` and `signed_int` in groups of seven bits,
each group but the last with the high bit set.

The reader of `unsigned_int` stops at a group without the high bit or at the
fifth group (`unpackUnsignedInt_eq_ok_iff`), so it recovers every number and
also reads longer forms of it.  The `signed_int` that is read is the one that
was packed only between `-2 ^ 30` and `2 ^ 30` (`unzigzag_zigzag_eq_iff`): the
highest bit of the code is not taken off it, but turns the lowest bit.
-/

namespace Bright.Fc

open Bright.Lib
open Bright.Lib.Codec

/-- A reader of a `datastream<const char*>`. -/
abbrev Unpack (α : Type) := Reader Exception UInt8 α

/-! ### Memory -/

/-- `datastream::read` of some bytes. -/
def read (size : ℕ) : Unpack (FixedArray size) := fun stream =>
  if enough : size ≤ stream.length then
    .ok (⟨stream.take size, List.length_take_of_le enough⟩, stream.drop size)
  else
    fcThrow .outOfRangeException
      "${method} datastream of length ${len} over by ${over}"
      [("method", literal "read")]

/-- The memory of a `uint32_t`. -/
def memoryOfUint32 (v : UInt32) : FixedArray 4 :=
  ⟨[v.toUInt8, (v >>> 8).toUInt8, (v >>> 16).toUInt8, (v >>> 24).toUInt8], rfl⟩

/-- The `uint32_t` that some memory holds. -/
def uint32OfMemory (memory : FixedArray 4) : UInt32 :=
  UInt32.ofNat (Nat.ofDigits 256 (memory.data.map UInt8.toNat))

def packUint32 (v : UInt32) : List UInt8 := (memoryOfUint32 v).data

def unpackUint32 : Unpack UInt32 := do
  let memory ← read 4
  return uint32OfMemory memory

theorem recovers_read (size : ℕ) :
    Recovers (FixedArray.data : FixedArray size → List UInt8) (read size) := by
  rintro ⟨data, rfl⟩ rest
  have enough : data.length ≤ (data ++ rest).length := by
    rw [List.length_append]
    omega
  simp only [StateT.run, read, enough, dif_pos, List.take_left, List.drop_left]

theorem canonical_read (size : ℕ) :
    Canonical (FixedArray.data : FixedArray size → List UInt8) (read size) := by
  intro stream array rest result
  by_cases enough : size ≤ stream.length
  · simp only [StateT.run, read, dif_pos enough] at result
    obtain ⟨isArray, isRest⟩ := Prod.mk.inj (Except.ok.inj result)
    rw [← isArray, ← isRest, List.take_append_drop]
  · simp only [StateT.run, read, dif_neg enough, fcThrow] at result
    cases result

theorem uint32OfMemory_memoryOfUint32 (v : UInt32) :
    uint32OfMemory (memoryOfUint32 v) = v := by
  rw [← UInt32.toNat_inj]
  have bound := v.toNat_lt
  simp [uint32OfMemory, memoryOfUint32, Nat.ofDigits, UInt32.toNat_shiftRight,
    Nat.shiftRight_eq_div_pow]
  omega

theorem memoryOfUint32_uint32OfMemory (memory : FixedArray 4) :
    memoryOfUint32 (uint32OfMemory memory) = memory := by
  obtain ⟨data, size⟩ := memory
  match data, size with
  | [first, second, third, fourth], _ =>
      ext1
      have bounds := And.intro (And.intro first.toNat_lt second.toNat_lt)
        (And.intro third.toNat_lt fourth.toNat_lt)
      simp [uint32OfMemory, memoryOfUint32, Nat.ofDigits, ← UInt8.toNat_inj,
        UInt32.toNat_shiftRight, Nat.shiftRight_eq_div_pow]
      omega

theorem recovers_uint32 : Recovers packUint32 unpackUint32 := by
  intro v rest
  have memory := recovers_read 4 (memoryOfUint32 v) rest
  rw [unpackUint32, packUint32, run_bind_of_ok memory,
    uint32OfMemory_memoryOfUint32]
  rfl

theorem canonical_uint32 : Canonical packUint32 unpackUint32 := by
  intro stream v rest result
  obtain ⟨memory, middle, readMemory, readRest⟩ := run_bind_eq_ok_iff.mp result
  obtain ⟨rfl, rfl⟩ := Prod.mk.inj (run_pure_eq_ok_iff.mp readRest)
  rw [packUint32, memoryOfUint32_uint32OfMemory]
  exact canonical_read 4 stream memory rest readMemory

/-! ### Groups of seven bits -/

/-- The loop that packs `unsigned_int` and `signed_int`, over `val`. -/
def packGroups (val : ℕ) : List UInt8 :=
  let b := UInt8.ofNat val &&& 0x7f
  if 0 < val >>> 7 then (b ||| 0x80) :: packGroups (val >>> 7) else [b]
termination_by val
decreasing_by
  rw [Nat.shiftRight_eq_div_pow] at *
  omega

/-- The loop that unpacks them, over `v` and `by`; it goes on after a byte with
the high bit, while `by` is below the bound where there is one.  A shift by 32
or more, which only the loop without a bound can reach, is undefined in the
source. -/
def unpackGroups (bound : Option ℕ) (v place : ℕ) : Unpack ℕ
  | [] => fcThrow .outOfRangeException
      "${method} datastream of length ${len} over by ${over}"
      [("method", literal "get")]
  | b :: rest =>
      let v := v ||| ((b &&& 0x7f).toNat <<< place) % 2 ^ 32
      if b &&& 0x80 ≠ 0 ∧ bound.all (place + 7 < ·) then
        unpackGroups bound v (place + 7) rest
      else .ok (v, rest)

/-- `pack` for `unsigned_int`. -/
def packUnsignedInt (v : UInt32) : List UInt8 := packGroups v.toNat

/-- `unpack` for `unsigned_int`. -/
def unpackUnsignedInt : Unpack UInt32 := do
  let v ← unpackGroups (some 32) 0 0
  return UInt32.ofNat v

/-- The code of a signed number, the sign in the lowest bit. -/
def zigzag (value : Int32) : UInt32 := ((value <<< 1) ^^^ (value >>> 31)).toUInt32

/-- The number that `unpack` makes of a code. -/
def unzigzag (v : UInt32) : Int32 :=
  let value := (((v >>> 1) ^^^ (v >>> 31)) + (v &&& 0x01)).toInt32
  let value := if v &&& 0x01 ≠ 0 then value else -value;
  -value

/-- `pack` for `signed_int`. -/
def packSignedInt (v : Int32) : List UInt8 := packGroups (zigzag v).toNat

/-- `unpack` for `signed_int`. -/
def unpackSignedInt : Unpack Int32 := do
  let v ← unpackGroups none 0 0
  return unzigzag (UInt32.ofNat v)

set_option maxRecDepth 4096 in
theorem group_bits (c : UInt8) :
    ((c &&& 0x7f) ||| 0x80) &&& 0x7f = c &&& 0x7f ∧
      ((c &&& 0x7f) ||| 0x80) &&& 0x80 ≠ 0 ∧ (c &&& 0x7f) &&& 0x80 = 0 ∧
      (c &&& 0x7f) &&& 0x7f = c &&& 0x7f := by
  rcases c with ⟨⟨code⟩⟩
  revert code
  decide

theorem toNat_group (val : ℕ) : (UInt8.ofNat val &&& 0x7f).toNat = val % 128 := by
  have mask : (0x7f : UInt8).toNat = 2 ^ 7 - 1 := rfl
  rw [UInt8.toNat_and, mask, Nat.and_two_pow_sub_one_eq_mod, UInt8.toNat_ofNat']
  omega

/-- The number in the low seven bits of some bytes, the lowest group first. -/
def septets (groups : List UInt8) : ℕ :=
  Nat.ofDigits 128 (groups.map fun b => (b &&& 0x7f).toNat)

/-- The bytes that the loop reads from a place on. -/
def Terminated (bound : Option ℕ) (place : ℕ) : List UInt8 → Prop
  | [] => False
  | b :: rest =>
      if b &&& 0x80 ≠ 0 ∧ bound.all (place + 7 < ·) then
        Terminated bound (place + 7) rest
      else rest = []

theorem septets_cons (b : UInt8) (rest : List UInt8) :
    septets (b :: rest) = (b &&& 0x7f).toNat + 128 * septets rest := by
  simp [septets, Nat.ofDigits_cons]

theorem or_group {v group place : ℕ} (low : v < 2 ^ place) (word : v < 2 ^ 32) :
    v ||| (group <<< place) % 2 ^ 32 = (v + group * 2 ^ place) % 2 ^ 32 := by
  have joined : v ||| group <<< place = v + group * 2 ^ place := by
    rw [Nat.or_comm, ← Nat.shiftLeft_add_eq_or_of_lt low, Nat.shiftLeft_eq,
      Nat.add_comm]
  rw [← joined, Nat.or_mod_two_pow, Nat.mod_eq_of_lt word]

/-- What the loop reads, and the number it makes of it. -/
theorem unpackGroups_eq_ok_iff {bound : Option ℕ} {v place w : ℕ}
    (low : v < 2 ^ place) (word : v < 2 ^ 32) {stream rest : List UInt8} :
    unpackGroups bound v place stream = .ok (w, rest) ↔
      ∃ groups, stream = groups ++ rest ∧ Terminated bound place groups ∧
        w = (v + septets groups * 2 ^ place) % 2 ^ 32 := by
  induction stream generalizing v place with
  | nil =>
      constructor
      · intro result
        exact nomatch result
      · rintro ⟨groups, parts, terminated, -⟩
        rw [(List.append_eq_nil_iff.mp parts.symm).1] at terminated
        exact terminated.elim
  | cons b stream inductionHypothesis =>
      have group : (b &&& 0x7f).toNat < 128 := by
        have := toNat_group b.toNat
        rw [UInt8.ofNat_toNat] at this
        omega
      have joined : v ||| ((b &&& 0x7f).toNat <<< place) % 2 ^ 32 =
          (v + (b &&& 0x7f).toNat * 2 ^ place) % 2 ^ 32 := or_group low word
      have nextLow : (v + (b &&& 0x7f).toNat * 2 ^ place) % 2 ^ 32 <
          2 ^ (place + 7) := by
        have product : (b &&& 0x7f).toNat * 2 ^ place ≤ 127 * 2 ^ place :=
          Nat.mul_le_mul_right _ (by omega)
        have := Nat.mod_le (v + (b &&& 0x7f).toNat * 2 ^ place) (2 ^ 32)
        rw [pow_add]
        omega
      have nextWord := Nat.mod_lt (v + (b &&& 0x7f).toNat * 2 ^ place)
        (Nat.two_pow_pos 32)
      have value : ∀ groups, (v + septets (b :: groups) * 2 ^ place) % 2 ^ 32 =
          ((v + (b &&& 0x7f).toNat * 2 ^ place) % 2 ^ 32 +
            septets groups * 2 ^ (place + 7)) % 2 ^ 32 := by
        intro groups
        rw [Nat.mod_add_mod, septets_cons, pow_add]
        ring_nf
      rw [unpackGroups]
      simp only [joined]
      split_ifs with goes
      · rw [inductionHypothesis nextLow nextWord]
        constructor
        · rintro ⟨groups, rfl, terminated, rfl⟩
          exact ⟨b :: groups, rfl, by rwa [Terminated, if_pos goes],
            (value groups).symm⟩
        · rintro ⟨groups, parts, terminated, rfl⟩
          cases groups with
          | nil => exact terminated.elim
          | cons first groups =>
              obtain ⟨rfl, rfl⟩ := List.cons.inj parts
              rw [Terminated, if_pos goes] at terminated
              exact ⟨groups, rfl, terminated, value groups⟩
      · have single : septets [b] = (b &&& 0x7f).toNat := by
          simp [septets]
        constructor
        · intro result
          obtain ⟨rfl, rfl⟩ := Prod.mk.inj (Except.ok.inj result)
          exact ⟨[b], rfl, by rw [Terminated, if_neg goes], by rw [single]⟩
        · rintro ⟨groups, parts, terminated, rfl⟩
          cases groups with
          | nil => exact terminated.elim
          | cons first groups =>
              obtain ⟨rfl, rfl⟩ := List.cons.inj parts
              rw [Terminated, if_neg goes] at terminated
              subst terminated
              rw [single]
              rfl

theorem packGroups_eq (val : ℕ) :
    packGroups val =
      if val / 128 = 0 then [UInt8.ofNat val &&& 0x7f]
      else ((UInt8.ofNat val &&& 0x7f) ||| 0x80) :: packGroups (val / 128) := by
  rw [packGroups, Nat.shiftRight_eq_div_pow]
  by_cases last : val / 128 = 0
  · simp [last]
  · simp [last, Nat.pos_of_ne_zero last]

theorem septets_packGroups (val : ℕ) : septets (packGroups val) = val := by
  induction val using Nat.strongRecOn with
  | ind val inductionHypothesis =>
      obtain ⟨dropped, -, -, kept⟩ := group_bits (UInt8.ofNat val)
      rw [packGroups_eq]
      split_ifs with last
      · rw [septets_cons, kept, toNat_group]
        simp only [septets, List.map_nil, Nat.ofDigits_nil]
        omega
      · rw [septets_cons, dropped, toNat_group,
          inductionHypothesis (val / 128) (by omega)]
        omega

theorem terminated_packGroups {bound : Option ℕ} {val place : ℕ}
    (fits : ∀ limit ∈ bound, val * 2 ^ place < 2 ^ limit) :
    Terminated bound place (packGroups val) := by
  induction val using Nat.strongRecOn generalizing place with
  | ind val inductionHypothesis =>
      obtain ⟨-, marked, unmarked, -⟩ := group_bits (UInt8.ofNat val)
      rw [packGroups_eq]
      split_ifs with last
      · rw [Terminated, if_neg fun goes => goes.1 unmarked]
      · have room : bound.all (place + 7 < ·) := by
          cases bound with
          | none => rfl
          | some limit =>
              have bound := fits limit rfl
              have large : 2 ^ (place + 7) ≤ val * 2 ^ place := by
                rw [pow_add, mul_comm]
                exact Nat.mul_le_mul_right _ (by omega)
              simpa using (Nat.pow_lt_pow_iff_right (by decide)).mp
                (large.trans_lt bound)
        rw [Terminated, if_pos ⟨marked, room⟩]
        refine inductionHypothesis (val / 128) (by omega) fun limit member => ?_
        refine lt_of_le_of_lt ?_ (fits limit member)
        rw [pow_add, mul_comm (2 ^ place), ← mul_assoc]
        exact Nat.mul_le_mul_right _ (Nat.div_mul_le_self val (2 ^ 7))

theorem unpackGroups_packGroups {bound : Option ℕ} {val : ℕ}
    (fits : ∀ limit ∈ bound, val < 2 ^ limit) (word : val < 2 ^ 32)
    (rest : List UInt8) :
    unpackGroups bound 0 0 (packGroups val ++ rest) = .ok (val, rest) := by
  rw [unpackGroups_eq_ok_iff (by decide) (by decide)]
  refine ⟨packGroups val, rfl, terminated_packGroups (by simpa using fits), ?_⟩
  rw [septets_packGroups, Nat.zero_add, pow_zero, Nat.mul_one,
    Nat.mod_eq_of_lt word]

theorem recovers_unsignedInt : Recovers packUnsignedInt unpackUnsignedInt := by
  intro v rest
  have packed : StateT.run (unpackGroups (some 32) 0 0)
      (packGroups v.toNat ++ rest) = .ok (v.toNat, rest) :=
    unpackGroups_packGroups (by simpa using v.toNat_lt) v.toNat_lt rest
  rw [unpackUnsignedInt, packUnsignedInt, run_bind_of_ok packed,
    UInt32.ofNat_toNat]
  rfl

theorem terminated_unsigned_iff {k : ℕ} (small : k ≤ 4) {groups : List UInt8} :
    Terminated (some 32) (7 * k) groups ↔
      ∃ front last, groups = front ++ [last] ∧ (∀ b ∈ front, b &&& 0x80 ≠ 0) ∧
        k + front.length ≤ 4 ∧ (last &&& 0x80 = 0 ∨ k + front.length = 4) := by
  induction groups generalizing k with
  | nil => simp [Terminated]
  | cons b rest inductionHypothesis =>
      have room : (some 32).all (7 * k + 7 < ·) ↔ k < 4 := by
        simp only [Option.all_some, decide_eq_true_eq]
        omega
      rw [Terminated]
      split_ifs with goes
      · have next := inductionHypothesis (k := k + 1) (room.mp goes.2)
        rw [Nat.mul_add] at next
        rw [next]
        constructor
        · rintro ⟨front, last, rfl, marked, count, final⟩
          refine ⟨b :: front, last, rfl,
            List.forall_mem_cons.mpr ⟨goes.1, marked⟩, ?_⟩
          rw [List.length_cons]
          exact ⟨by omega, final.imp_right fun full => by omega⟩
        · rintro ⟨front, last, parts, marked, count, final⟩
          cases front with
          | nil =>
              obtain ⟨rfl, rfl⟩ := List.cons.inj parts
              rw [List.length_nil] at final
              rcases final with unmarked | full
              · exact absurd unmarked goes.1
              · exact absurd (room.mp goes.2) (by omega)
          | cons first front =>
              obtain ⟨rfl, rfl⟩ := List.cons.inj parts
              rw [List.forall_mem_cons] at marked
              rw [List.length_cons] at count final
              exact ⟨front, last, rfl, marked.2, by omega,
                final.imp_right fun full => by omega⟩
      · constructor
        · rintro rfl
          refine ⟨[], b, rfl, List.forall_mem_nil _, small, ?_⟩
          by_cases marked : b &&& 0x80 = 0
          · exact Or.inl marked
          · right
            rw [List.length_nil]
            by_contra notFull
            exact goes ⟨marked, room.mpr (by omega)⟩
        · rintro ⟨front, last, parts, marked, count, -⟩
          cases front with
          | nil => exact (List.cons.inj parts).2
          | cons first front =>
              obtain ⟨rfl, rfl⟩ := List.cons.inj parts
              rw [List.length_cons] at count
              exact absurd
                ⟨marked b List.mem_cons_self, room.mpr (by omega)⟩ goes

/-! ### Signed numbers -/

/-- The shift by 31 spreads the sign over all bits. -/
theorem sshiftRight_sign (x : BitVec 32) :
    x.sshiftRight 31 = if x.msb then BitVec.allOnes 32 else 0#32 := by
  have sign : ∀ i (below : i < 32), (x.sshiftRight 31)[i] = x.msb := by
    intro i below
    rw [BitVec.getElem_sshiftRight]
    split_ifs with inside
    · have first : i = 0 := by omega
      subst first
      rw [BitVec.msb_eq_getLsbD_last]
      rfl
    · rfl
  ext i below
  rw [sign i below]
  cases x.msb with
  | true => rw [if_pos rfl, BitVec.getElem_allOnes]
  | false => simp

theorem toNat_zigzag (n : Int32) :
    (zigzag n).toNat =
      if n.toBitVec.toNat < 2 ^ 31 then 2 * n.toBitVec.toNat
      else 2 ^ 33 - 1 - 2 * n.toBitVec.toNat := by
  have code : (zigzag n).toNat =
      (n.toBitVec <<< 1 ^^^ n.toBitVec.sshiftRight 31).toNat := by
    rw [← UInt32.toNat_toBitVec, zigzag, Int32.toBitVec_toUInt32,
      Int32.toBitVec_xor, Int32.toBitVec_shiftLeft, Int32.toBitVec_shiftRight]
    rfl
  have bound := n.toBitVec.isLt
  rw [code, sshiftRight_sign, BitVec.msb_eq_decide]
  split_ifs with negative small <;> simp only [decide_eq_true_eq] at negative
  · omega
  · rw [BitVec.xor_allOnes, BitVec.toNat_not, BitVec.toNat_shiftLeft]
    omega
  · rw [BitVec.xor_zero, BitVec.toNat_shiftLeft]
    omega
  · omega

theorem toNat_unzigzag (v : UInt32) :
    (unzigzag v).toBitVec.toNat =
      if v.toNat % 2 = 1 then
        2 ^ 32 - ((v.toNat / 2 ^^^ v.toNat / 2 ^ 31) + 1)
      else v.toNat / 2 ^^^ v.toNat / 2 ^ 31 := by
  have one : (1 : UInt32).toNat = 2 ^ 1 - 1 := rfl
  have bound : v.toNat / 2 ^^^ v.toNat / 2 ^ 31 < 2 ^ 31 := by
    have := v.toNat_lt
    apply Nat.xor_lt_two_pow <;> omega
  have high : (v >>> 1 ^^^ v >>> 31).toNat = v.toNat / 2 ^^^ v.toNat / 2 ^ 31 := by
    rw [UInt32.toNat_xor, UInt32.toNat_shiftRight, UInt32.toNat_shiftRight]
    simp [Nat.shiftRight_eq_div_pow]
  have word : (((v >>> 1) ^^^ (v >>> 31)) + (v &&& 0x01)).toNat =
      (v.toNat / 2 ^^^ v.toNat / 2 ^ 31) + v.toNat % 2 := by
    rw [UInt32.toNat_add, UInt32.toNat_and, one, Nat.and_two_pow_sub_one_eq_mod,
      high]
    omega
  have low : v &&& 0x01 ≠ 0 ↔ v.toNat % 2 = 1 := by
    rw [ne_eq, ← UInt32.toNat_inj, UInt32.toNat_and, one,
      Nat.and_two_pow_sub_one_eq_mod]
    simp
  unfold unzigzag
  simp only [low]
  split_ifs with odd
  · rw [Int32.toBitVec_neg, BitVec.toNat_neg, UInt32.toBitVec_toInt32,
      UInt32.toNat_toBitVec, word]
    omega
  · rw [Int32.neg_neg, UInt32.toBitVec_toInt32, UInt32.toNat_toBitVec, word]
    omega

/-- A number is found again in its code exactly if the code has its highest bit
clear. -/
theorem unzigzag_zigzag_eq_iff (n : Int32) :
    unzigzag (zigzag n) = n ↔ -2 ^ 30 ≤ n.toInt ∧ n.toInt < 2 ^ 30 := by
  have bound := n.toBitVec.isLt
  have sign : n.toInt = if n.toBitVec.toNat < 2 ^ 31 then
      (n.toBitVec.toNat : ℤ) else n.toBitVec.toNat - 2 ^ 32 := by
    rw [← Int32.toInt_toBitVec, BitVec.toInt_eq_toNat_cond]
    split_ifs <;> omega
  have flips : ∀ a < 2 ^ 31, a ^^^ 1 ≠ a ∧ a ^^^ 1 < 2 ^ 31 := by
    intro a small
    refine ⟨fun same => ?_, Nat.xor_lt_two_pow small (by decide)⟩
    have zero : a ^^^ (a ^^^ 1) = a ^^^ a := by rw [same]
    rw [← Nat.xor_assoc, Nat.xor_self, Nat.zero_xor] at zero
    exact nomatch zero
  rw [← Int32.toBitVec_inj, ← BitVec.toNat_inj, toNat_unzigzag, toNat_zigzag, sign]
  by_cases positive : n.toBitVec.toNat < 2 ^ 31
  · have half : 2 * n.toBitVec.toNat / 2 = n.toBitVec.toNat := by omega
    have even : ¬ 2 * n.toBitVec.toNat % 2 = 1 := by omega
    rw [if_pos positive, if_neg even, half, if_pos positive]
    by_cases small : n.toBitVec.toNat < 2 ^ 30
    · have clear : 2 * n.toBitVec.toNat / 2 ^ 31 = 0 := by omega
      rw [clear, Nat.xor_zero]
      omega
    · have set : 2 * n.toBitVec.toNat / 2 ^ 31 = 1 := by omega
      rw [set]
      have := (flips _ positive).1
      omega
  · have half : (2 ^ 33 - 1 - 2 * n.toBitVec.toNat) / 2 =
        2 ^ 32 - 1 - n.toBitVec.toNat := by omega
    have odd : (2 ^ 33 - 1 - 2 * n.toBitVec.toNat) % 2 = 1 := by omega
    rw [if_neg positive, if_pos odd, half, if_neg positive]
    by_cases small : 2 ^ 32 - 2 ^ 30 ≤ n.toBitVec.toNat
    · have clear : (2 ^ 33 - 1 - 2 * n.toBitVec.toNat) / 2 ^ 31 = 0 := by omega
      rw [clear, Nat.xor_zero]
      omega
    · have set : (2 ^ 33 - 1 - 2 * n.toBitVec.toNat) / 2 ^ 31 = 1 := by omega
      rw [set]
      have flipped := flips (2 ^ 32 - 1 - n.toBitVec.toNat) (by omega)
      omega

theorem unpackSignedInt_packSignedInt (n : Int32) (rest : List UInt8) :
    unpackSignedInt.run (packSignedInt n ++ rest) = .ok (unzigzag (zigzag n), rest) := by
  have packed : StateT.run (unpackGroups none 0 0)
      (packGroups (zigzag n).toNat ++ rest) = .ok ((zigzag n).toNat, rest) :=
    unpackGroups_packGroups (by simp) (zigzag n).toNat_lt rest
  rw [unpackSignedInt, packSignedInt, run_bind_of_ok packed, UInt32.ofNat_toNat]
  rfl

/-- What is packed is read as a number without taking more bytes, and it is the
number that was packed exactly between `-2 ^ 30` and `2 ^ 30`. -/
theorem signedInt_read_back (n : Int32) (rest : List UInt8) :
    ∃ m, unpackSignedInt.run (packSignedInt n ++ rest) = .ok (m, rest) ∧
      (m = n ↔ -2 ^ 30 ≤ n.toInt ∧ n.toInt < 2 ^ 30) :=
  ⟨unzigzag (zigzag n), unpackSignedInt_packSignedInt n rest,
    unzigzag_zigzag_eq_iff n⟩

example : unzigzag (zigzag (2 ^ 30)) = 2 ^ 30 + 1 := by decide

/-- `unpack` reads the bytes up to the first one without the high bit, at most
five, and makes a number of their low seven bits, modulo `2 ^ 32`. -/
theorem unpackUnsignedInt_eq_ok_iff {stream rest : List UInt8} {v : UInt32} :
    unpackUnsignedInt.run stream = .ok (v, rest) ↔
      ∃ front last, stream = front ++ last :: rest ∧
        (∀ b ∈ front, b &&& 0x80 ≠ 0) ∧ front.length ≤ 4 ∧
        (last &&& 0x80 = 0 ∨ front.length = 4) ∧
        v = UInt32.ofNat (septets (front ++ [last])) := by
  have reduced : ∀ groups, UInt32.ofNat ((0 + septets groups * 2 ^ 0) % 2 ^ 32) =
      UInt32.ofNat (septets groups) := by
    intro groups
    rw [← UInt32.toNat_inj, UInt32.toNat_ofNat', UInt32.toNat_ofNat', Nat.mod_mod,
      Nat.zero_add, pow_zero, Nat.mul_one]
  rw [unpackUnsignedInt, run_bind_eq_ok_iff]
  simp only [run_pure_eq_ok_iff, Prod.mk.injEq]
  constructor
  · rintro ⟨w, _, result, rfl, rfl⟩
    obtain ⟨groups, rfl, terminated, rfl⟩ :=
      (unpackGroups_eq_ok_iff (by decide) (by decide)).mp result
    obtain ⟨front, last, rfl, marked, count, final⟩ :=
      (terminated_unsigned_iff (k := 0) (by decide)).mp terminated
    rw [Nat.zero_add] at count final
    exact ⟨front, last, by simp, marked, count, final, reduced _⟩
  · rintro ⟨front, last, rfl, marked, count, final, rfl⟩
    have terminated : Terminated (some 32) 0 (front ++ [last]) := by
      refine (terminated_unsigned_iff (k := 0) (by decide)).mpr
        ⟨front, last, rfl, marked, ?_, ?_⟩
      · rwa [Nat.zero_add]
      · rwa [Nat.zero_add]
    refine ⟨_, rest, ?_, (reduced (front ++ [last])).symm, rfl⟩
    refine (unpackGroups_eq_ok_iff (by decide) (by decide)).mpr
      ⟨front ++ [last], ?_, terminated, rfl⟩
    rw [List.append_assoc, List.singleton_append]

/-- Every number is read back whatever follows it, and what is read is any form
of the number in at most five groups, the shortest or not. -/
theorem unsignedInt_forms (stream rest : List UInt8) (v : UInt32) :
    unpackUnsignedInt.run (packUnsignedInt v ++ rest) = .ok (v, rest) ∧
      (unpackUnsignedInt.run stream = .ok (v, rest) ↔
        ∃ front last, stream = front ++ last :: rest ∧
          (∀ b ∈ front, b &&& 0x80 ≠ 0) ∧ front.length ≤ 4 ∧
          (last &&& 0x80 = 0 ∨ front.length = 4) ∧
          v = UInt32.ofNat (septets (front ++ [last]))) :=
  ⟨recovers_unsignedInt v rest, unpackUnsignedInt_eq_ok_iff⟩

end Bright.Fc
