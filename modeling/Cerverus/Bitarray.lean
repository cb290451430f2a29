import Mathlib

/-!
# Bit arrays

Eight bits are kept in a `char`, which is promoted to `int` for every operation and cut back
when it is stored. `bit` reads the array as a sequence of bits; it is `none` past the end, where
the functions would leave the array.
-/
namespace Cerverus.Bits

structure Bitarray where
  size : UInt64
  array : List (BitVec 8)
  deriving DecidableEq, Repr

/-- `memory` is what the bytes hold that `malloc` returns. -/
def bitarrayCreate (size : UInt64) (memory : ℕ → BitVec 8) : Bitarray :=
  { size := size, array := (List.range ((size + 7) / 8).toNat).map memory }

/-- `array[index / 8]` is combined with `1 << (index % 8)`. -/
def bitwiseUpdate (combine : BitVec 32 → BitVec 32 → BitVec 32) (bitArr : Bitarray)
    (index : UInt64) : Option Bitarray :=
  (bitArr.array[(index / 8).toNat]?).map fun char =>
    let int := combine (char.signExtend 32) (1#32 <<< (index % 8).toNat)
    { bitArr with array := bitArr.array.set (index / 8).toNat (int.setWidth 8) }

def bitwiseSet : Bitarray → UInt64 → Option Bitarray :=
  bitwiseUpdate fun int mask => int ||| mask

def bitwiseClear : Bitarray → UInt64 → Option Bitarray :=
  bitwiseUpdate fun int mask => int &&& ~~~mask

def bitwiseGet (bitArr : Bitarray) (index : UInt64) : Option Bool :=
  (bitArr.array[(index / 8).toNat]?).map fun char =>
    decide ((char.signExtend 32).sshiftRight (index % 8).toNat &&& 1#32 ≠ 0#32)

def bit (bitArr : Bitarray) (i : ℕ) : Option Bool :=
  (bitArr.array[i / 8]?).map fun char => char.getLsbD (i % 8)

section
variable {bitArr : Bitarray} {index : UInt64}

theorem getLsbD_promoted (char : BitVec 8) {i : ℕ} (hi : i < 8) :
    (char.signExtend 32).getLsbD i = char.getLsbD i := by
  have hwide : i < 32 := by omega
  rw [BitVec.getLsbD_signExtend, if_pos hi, decide_eq_true hwide, Bool.true_and]

theorem getLsbD_mask {i k : ℕ} (hi : i < 32) :
    (1#32 <<< k).getLsbD i = decide (i = k) := by
  rw [BitVec.getLsbD_shiftLeft, BitVec.getLsbD_one, Bool.eq_iff_iff]
  simp only [Bool.and_eq_true, Bool.not_eq_true', decide_eq_true_eq, decide_eq_false_iff_not]
  omega

/-- The sign bits that promotion and the shift bring in are not looked at. -/
theorem bitwiseGet_eq (bitArr : Bitarray) (index : UInt64) :
    bitwiseGet bitArr index = bit bitArr index.toNat := by
  have hlt : index.toNat % 8 < 8 := Nat.mod_lt _ (by decide)
  have hwide : index.toNat % 8 + 0 < 32 := by omega
  rw [bitwiseGet, bit, UInt64.toNat_div, UInt64.toNat_mod]
  refine congrArg (fun f => Option.map f _) (funext fun char => ?_)
  have hshift : ((char.signExtend 32).sshiftRight (index.toNat % 8)).getLsbD 0 =
      char.getLsbD (index.toNat % 8) := by
    rw [BitVec.getLsbD_sshiftRight, if_pos hwide, Nat.add_zero, getLsbD_promoted char hlt]
    rfl
  change decide ((char.signExtend 32).sshiftRight (index.toNat % 8) &&& 1#32 ≠ 0#32) = _
  rw [BitVec.and_one_eq_setWidth_ofBool_getLsbD, hshift]
  cases char.getLsbD (index.toNat % 8) <;> rfl

theorem bitwiseUpdate_spec {combine : BitVec 32 → BitVec 32 → BitVec 32} (f : Bool → Bool → Bool)
    (hcombine : ∀ int mask i, i < 32 →
      (combine int mask).getLsbD i = f (int.getLsbD i) (mask.getLsbD i))
    (hf : ∀ v, f v false = v) {v : Bool} (hv : bit bitArr index.toNat = some v) :
    ∃ bitArr', bitwiseUpdate combine bitArr index = some bitArr' ∧ bitArr'.size = bitArr.size ∧
      bit bitArr' index.toNat = some (f v true) ∧
      ∀ i, i ≠ index.toNat → bit bitArr' i = bit bitArr i := by
  obtain ⟨char, hchar, rfl⟩ := Option.map_eq_some_iff.mp hv
  have hlt := (List.getElem?_eq_some_iff.mp hchar).1
  have hcut : ∀ i, i < 8 → ((combine (char.signExtend 32)
      (1#32 <<< (index.toNat % 8))).setWidth 8).getLsbD i =
        f (char.getLsbD i) (decide (i = index.toNat % 8)) := by
    intro i hi
    have hwide : i < 32 := by omega
    rw [BitVec.getLsbD_setWidth, decide_eq_true hi, Bool.true_and, hcombine _ _ _ hwide,
      getLsbD_promoted char hi, getLsbD_mask hwide]
  let char' := (combine (char.signExtend 32) (1#32 <<< (index.toNat % 8))).setWidth 8
  refine ⟨{ bitArr with array := bitArr.array.set (index.toNat / 8) char' }, ?_, rfl, ?_, ?_⟩
  · rw [bitwiseUpdate, UInt64.toNat_div, UInt64.toNat_mod]
    exact congrArg (Option.map _) hchar
  · rw [bit, List.getElem?_set_self hlt, Option.map_some, hcut _ (Nat.mod_lt _ (by decide)),
      decide_eq_true rfl]
  · intro i hi
    by_cases hbyte : index.toNat / 8 = i / 8
    · -- another bit of the same byte
      have hmod : i % 8 ≠ index.toNat % 8 := by omega
      rw [bit, bit, ← hbyte, List.getElem?_set_self hlt, hchar, Option.map_some, Option.map_some,
        hcut _ (Nat.mod_lt _ (by decide)), decide_eq_false hmod, hf]
    · rw [bit, bit, List.getElem?_set_ne hbyte]

theorem bitwiseSet_spec {v : Bool} (hv : bit bitArr index.toNat = some v) :
    ∃ bitArr', bitwiseSet bitArr index = some bitArr' ∧ bitArr'.size = bitArr.size ∧
      bit bitArr' index.toNat = some true ∧
      ∀ i, i ≠ index.toNat → bit bitArr' i = bit bitArr i := by
  have hset : ∀ (int mask : BitVec 32) i, i < 32 →
      (int ||| mask).getLsbD i = (int.getLsbD i || mask.getLsbD i) :=
    fun _ _ _ _ => BitVec.getLsbD_or
  have hspec := bitwiseUpdate_spec (fun v m => v || m) hset Bool.or_false hv
  simp only [Bool.or_true] at hspec
  exact hspec

theorem bitwiseClear_spec {v : Bool} (hv : bit bitArr index.toNat = some v) :
    ∃ bitArr', bitwiseClear bitArr index = some bitArr' ∧ bitArr'.size = bitArr.size ∧
      bit bitArr' index.toNat = some false ∧
      ∀ i, i ≠ index.toNat → bit bitArr' i = bit bitArr i := by
  have hclear : ∀ (int mask : BitVec 32) i, i < 32 →
      (int &&& ~~~mask).getLsbD i = (int.getLsbD i && !mask.getLsbD i) := by
    intro int mask i hi
    rw [BitVec.getLsbD_and, BitVec.getLsbD_not, decide_eq_true hi, Bool.true_and]
  have hspec := bitwiseUpdate_spec (fun v m => v && !m) hclear Bool.and_true hv
  simp only [Bool.not_true, Bool.and_false] at hspec
  exact hspec

end

end Cerverus.Bits
