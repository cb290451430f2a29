import Cerverus.Bitarray
import Cerverus.GuardedRun

/-!
# The pool allocator

Blocks of one size, and a bit array that says which are taken. Addresses, offsets and the
number of bytes that `malloc` is asked for are `size_t` and wrap; a null pointer is address 0. The
bit array is not cleared when it is created, so blocks are taken from the start if `malloc`
returns other memory than zeros.
-/
namespace Cerverus.Pool
open Bits GuardedRun

/-- What `malloc` returns for a pool: the bytes of the bit array, and the address and the bytes
of the data. -/
structure PoolMemory where
  bits : ℕ → BitVec 8
  data : UInt64
  contents : ℕ → BitVec 8

/-- `bytes` is what `malloc` was asked for, and `contents` what the data holds. -/
structure PoolAllocator where
  stride : UInt64
  availability : Bitarray
  data : UInt64
  bytes : UInt64
  contents : ℕ → BitVec 8

def poolAllocatorCreate (stride size : UInt64) (memory : PoolMemory) : PoolAllocator :=
  let availability := bitarrayCreate size memory.bits
  { stride := stride
    availability := availability
    data := memory.data
    bytes := availability.size * stride
    contents := memory.contents }

/-- The loop of `pool_allocator_alloc`, from `i` on. -/
def allocFrom (poolAlloc : PoolAllocator) (i : UInt64) : Option (UInt64 × PoolAllocator) :=
  if i < poolAlloc.availability.size then
    (bitwiseGet poolAlloc.availability i).bind fun taken =>
      if taken then allocFrom poolAlloc (i + 1)
      else (bitwiseSet poolAlloc.availability i).map fun availability =>
        (poolAlloc.data + poolAlloc.stride * i, { poolAlloc with availability := availability })
  else some (0, poolAlloc)
termination_by poolAlloc.availability.size.toNat - i.toNat
decreasing_by
  rename_i hlt
  have hi := UInt64.lt_iff_toNat_lt.mp hlt
  have := poolAlloc.availability.size.toNat_lt
  simp only [UInt64.toNat_add, UInt64.toNat_one]
  omega

/-- `none` if the bit array is left. -/
def poolAllocatorAlloc (poolAlloc : PoolAllocator) : Option (UInt64 × PoolAllocator) :=
  allocFrom poolAlloc 0

/-- `memset` to zero of `size` bytes from an offset in the data; `none` if it leaves them. -/
def cmemZmem (poolAlloc : PoolAllocator) (offset size : ℕ) : Option PoolAllocator :=
  if offset + size ≤ poolAlloc.bytes.toNat then
    some { poolAlloc with
      contents := fun k => if offset ≤ k ∧ k < offset + size then 0 else poolAlloc.contents k }
  else none

/-- `none` on a division by zero, or if the data or the bit array is left. -/
def poolAllocatorFree (poolAlloc : PoolAllocator) (block : UInt64) : Option PoolAllocator :=
  if block < poolAlloc.data ∨
      block > poolAlloc.data + poolAlloc.stride * (poolAlloc.availability.size - 1) then
    some poolAlloc
  else
    (cmemZmem poolAlloc (block - poolAlloc.data).toNat poolAlloc.stride.toNat).bind
      fun poolAlloc =>
        if poolAlloc.stride = 0 then none
        else
          (bitwiseClear poolAlloc.availability ((block - poolAlloc.data) / poolAlloc.stride)).map
            fun availability => { poolAlloc with availability := availability }

/-! ## One call -/

def blockAddress (poolAlloc : PoolAllocator) (i : ℕ) : ℕ :=
  poolAlloc.data.toNat + poolAlloc.stride.toNat * i

def Covered (poolAlloc : PoolAllocator) : Prop :=
  ∀ i < poolAlloc.availability.size.toNat, (bit poolAlloc.availability i).isSome

structure SameBlocks (poolAlloc poolAlloc' : PoolAllocator) : Prop where
  stride : poolAlloc'.stride = poolAlloc.stride
  data : poolAlloc'.data = poolAlloc.data
  bytes : poolAlloc'.bytes = poolAlloc.bytes
  size : poolAlloc'.availability.size = poolAlloc.availability.size

/-- The bit of block `i` is now `v`, and the others are as they were. -/
structure Changes (poolAlloc poolAlloc' : PoolAllocator) (i : ℕ) (v : Bool) : Prop
    extends SameBlocks poolAlloc poolAlloc' where
  bit : bit poolAlloc'.availability i = some v
  others : ∀ j, j ≠ i → Bits.bit poolAlloc'.availability j = Bits.bit poolAlloc.availability j

/-- The bytes of block `i` are zero, and the others are as they were. -/
def Zeroed (poolAlloc poolAlloc' : PoolAllocator) (i : ℕ) : Prop :=
  ∀ k, poolAlloc'.contents k =
    if poolAlloc.stride.toNat * i ≤ k ∧ k < poolAlloc.stride.toNat * (i + 1) then 0
    else poolAlloc.contents k

def Whole (poolAlloc : PoolAllocator) : Prop :=
  poolAlloc.stride.toNat * poolAlloc.availability.size.toNat ≤ poolAlloc.bytes.toNat

section
variable {poolAlloc poolAlloc' : PoolAllocator} {i : ℕ} {v : Bool}

theorem Changes.covered (h : Changes poolAlloc poolAlloc' i v) (hc : Covered poolAlloc) :
    Covered poolAlloc' := by
  intro j hj
  by_cases hij : j = i
  · rw [hij, h.bit]
    rfl
  · rw [h.others j hij]
    exact hc j (h.size ▸ hj)

theorem SameBlocks.blockAddress (h : SameBlocks poolAlloc poolAlloc') (j : ℕ) :
    blockAddress poolAlloc' j = blockAddress poolAlloc j := by
  rw [Pool.blockAddress, h.stride, h.data, Pool.blockAddress]

theorem SameBlocks.whole (h : SameBlocks poolAlloc poolAlloc') :
    Whole poolAlloc' ↔ Whole poolAlloc := by
  rw [Whole, h.stride, h.size, h.bytes, Whole]

theorem SameBlocks.trans {poolAlloc'' : PoolAllocator} (h : SameBlocks poolAlloc poolAlloc')
    (h' : SameBlocks poolAlloc' poolAlloc'') : SameBlocks poolAlloc poolAlloc'' :=
  ⟨h'.stride.trans h.stride, h'.data.trans h.data, h'.bytes.trans h.bytes, h'.size.trans h.size⟩

theorem allocFrom_cases (hc : Covered poolAlloc) (i : UInt64) :
    (∃ k < poolAlloc.availability.size.toNat, bit poolAlloc.availability k = some false ∧
      ∃ poolAlloc', allocFrom poolAlloc i =
          some (poolAlloc.data + poolAlloc.stride * UInt64.ofNat k, poolAlloc') ∧
        Changes poolAlloc poolAlloc' k true ∧ poolAlloc'.contents = poolAlloc.contents) ∨
      (∀ k < poolAlloc.availability.size.toNat, i.toNat ≤ k →
        bit poolAlloc.availability k = some true) ∧
          allocFrom poolAlloc i = some (0, poolAlloc) := by
  induction hd : poolAlloc.availability.size.toNat - i.toNat generalizing i with
  | zero =>
    refine Or.inr ⟨fun k hk hik => by omega, ?_⟩
    rw [allocFrom, if_neg (by rw [UInt64.lt_iff_toNat_lt]; omega)]
  | succ d ih =>
    have hlt : i.toNat < poolAlloc.availability.size.toNat := by omega
    have hsize := poolAlloc.availability.size.toNat_lt
    obtain ⟨v, hv⟩ := Option.isSome_iff_exists.mp (hc i.toNat hlt)
    rw [allocFrom, if_pos (UInt64.lt_iff_toNat_lt.mpr hlt), bitwiseGet_eq, hv, Option.bind_some]
    cases v with
    | false =>
      obtain ⟨availability, hset, hsame, hbit, hothers⟩ := bitwiseSet_spec hv
      refine Or.inl ⟨i.toNat, hlt, hv, { poolAlloc with availability := availability }, ?_,
        ⟨⟨rfl, rfl, rfl, hsame⟩, hbit, hothers⟩, rfl⟩
      rw [if_neg (by decide), hset, Option.map_some, UInt64.ofNat_toNat]
    | true =>
      have hnext : (i + 1).toNat = i.toNat + 1 := by
        rw [UInt64.toNat_add, UInt64.toNat_one]
        omega
      rw [if_pos rfl]
      rcases ih (i + 1) (by omega) with hfound | ⟨htaken, halloc⟩
      · exact Or.inl hfound
      · refine Or.inr ⟨fun k hk hik => ?_, halloc⟩
        rcases Nat.eq_or_lt_of_le hik with rfl | hik
        · exact hv
        · exact htaken k hk (by omega)

theorem alloc_cases (hc : Covered poolAlloc) :
    (∃ k < poolAlloc.availability.size.toNat, bit poolAlloc.availability k = some false ∧
      ∃ poolAlloc', poolAllocatorAlloc poolAlloc =
          some (poolAlloc.data + poolAlloc.stride * UInt64.ofNat k, poolAlloc') ∧
        Changes poolAlloc poolAlloc' k true ∧ poolAlloc'.contents = poolAlloc.contents) ∨
      (∀ k < poolAlloc.availability.size.toNat, bit poolAlloc.availability k = some true) ∧
        poolAllocatorAlloc poolAlloc = some (0, poolAlloc) :=
  (allocFrom_cases hc 0).imp id fun h => ⟨fun k hk => h.1 k hk (Nat.zero_le k), h.2⟩

/-- The address of the last block exists, and so do those of the others. -/
def NoWrap (poolAlloc : PoolAllocator) : Prop :=
  poolAlloc.data.toNat + poolAlloc.stride.toNat * (poolAlloc.availability.size.toNat - 1) < 2 ^ 64

theorem blockAddress_le_last (hi : i < poolAlloc.availability.size.toNat) :
    blockAddress poolAlloc i ≤ blockAddress poolAlloc (poolAlloc.availability.size.toNat - 1) :=
  Nat.add_le_add_left (Nat.mul_le_mul_left _ (by omega)) _

theorem SameBlocks.noWrap (h : SameBlocks poolAlloc poolAlloc') :
    NoWrap poolAlloc' ↔ NoWrap poolAlloc := by
  rw [NoWrap, h.stride, h.size, h.data, NoWrap]

theorem blockAddress_lt (hwrap : NoWrap poolAlloc)
    (hi : i < poolAlloc.availability.size.toNat) : blockAddress poolAlloc i < 2 ^ 64 :=
  (blockAddress_le_last hi).trans_lt hwrap

theorem toNat_address (hwrap : NoWrap poolAlloc) (hi : i < poolAlloc.availability.size.toNat) :
    (poolAlloc.data + poolAlloc.stride * UInt64.ofNat i).toNat = blockAddress poolAlloc i := by
  have hlt := blockAddress_lt hwrap hi
  have hsize := poolAlloc.availability.size.toNat_lt
  unfold blockAddress at hlt ⊢
  rw [UInt64.toNat_add, UInt64.toNat_mul, UInt64.toNat_ofNat', Nat.mod_eq_of_lt (hi.trans hsize),
    Nat.add_mod_mod, Nat.mod_eq_of_lt hlt]

theorem toNat_pos {x : UInt64} (hx : x ≠ 0) : 0 < x.toNat := by
  rw [Nat.pos_iff_ne_zero]
  exact fun hzero => hx (UInt64.toNat_inj.mp hzero)

theorem blockAddress_inj (hstride : poolAlloc.stride ≠ 0) {j : ℕ}
    (h : blockAddress poolAlloc i = blockAddress poolAlloc j) : i = j :=
  Nat.eq_of_mul_eq_mul_left (toNat_pos hstride) (Nat.add_left_cancel h)

theorem toNat_offset {block : UInt64} (hblock : block.toNat = blockAddress poolAlloc i) :
    (block - poolAlloc.data).toNat = poolAlloc.stride.toNat * i := by
  have hlt := block.toNat_lt
  have hdata := poolAlloc.data.toNat_lt
  unfold blockAddress at hblock
  rw [UInt64.toNat_sub]
  omega

theorem toNat_last (hwrap : NoWrap poolAlloc) (hi : i < poolAlloc.availability.size.toNat) :
    (poolAlloc.data + poolAlloc.stride * (poolAlloc.availability.size - 1)).toNat =
      blockAddress poolAlloc (poolAlloc.availability.size.toNat - 1) := by
  have hsize := poolAlloc.availability.size.toNat_lt
  have hone : poolAlloc.availability.size - 1 =
      UInt64.ofNat (poolAlloc.availability.size.toNat - 1) := by
    rw [← UInt64.toNat_inj, UInt64.toNat_sub, UInt64.toNat_ofNat', UInt64.toNat_one]
    omega
  rw [hone]
  exact toNat_address hwrap (by omega)

/-- A block of the pool gets past the test of its address, and its bytes are zeroed. -/
theorem free_zeroes (hwrap : NoWrap poolAlloc) (hi : i < poolAlloc.availability.size.toNat)
    {block : UInt64} (hblock : block.toNat = blockAddress poolAlloc i) :
    poolAllocatorFree poolAlloc block =
      (cmemZmem poolAlloc (poolAlloc.stride.toNat * i) poolAlloc.stride.toNat).bind
        fun poolAlloc =>
          if poolAlloc.stride = 0 then none
          else
            (bitwiseClear poolAlloc.availability
              ((block - poolAlloc.data) / poolAlloc.stride)).map
              fun availability => { poolAlloc with availability := availability } := by
  have hle := blockAddress_le_last hi
  have hguard : ¬ (block < poolAlloc.data ∨
      block > poolAlloc.data + poolAlloc.stride * (poolAlloc.availability.size - 1)) := by
    rw [gt_iff_lt, UInt64.lt_iff_toNat_lt, UInt64.lt_iff_toNat_lt, toNat_last hwrap hi]
    unfold blockAddress at hblock hle ⊢
    omega
  rw [poolAllocatorFree, if_neg hguard, toNat_offset hblock]

theorem free_changes (hc : Covered poolAlloc) (hwrap : NoWrap poolAlloc)
    (hwhole : Whole poolAlloc) (hstride : poolAlloc.stride ≠ 0)
    (hi : i < poolAlloc.availability.size.toNat) {block : UInt64}
    (hblock : block.toNat = blockAddress poolAlloc i) :
    ∃ poolAlloc', poolAllocatorFree poolAlloc block = some poolAlloc' ∧
      Changes poolAlloc poolAlloc' i false ∧ Zeroed poolAlloc poolAlloc' i := by
  have hindex : ((block - poolAlloc.data) / poolAlloc.stride).toNat = i := by
    rw [UInt64.toNat_div, toNat_offset hblock, Nat.mul_div_cancel_left _ (toNat_pos hstride)]
  have hroom : poolAlloc.stride.toNat * i + poolAlloc.stride.toNat ≤ poolAlloc.bytes.toNat :=
    (Nat.mul_le_mul_left _ hi).trans hwhole
  let contents : ℕ → BitVec 8 := fun k =>
    if poolAlloc.stride.toNat * i ≤ k ∧ k < poolAlloc.stride.toNat * i + poolAlloc.stride.toNat
    then 0 else poolAlloc.contents k
  obtain ⟨v, hv⟩ := Option.isSome_iff_exists.mp (hc i hi)
  rw [← hindex] at hv
  obtain ⟨availability, hclear, hsame, hbit, hothers⟩ := bitwiseClear_spec hv
  rw [hindex] at hbit hothers
  refine ⟨{ poolAlloc with availability := availability, contents := contents }, ?_,
    ⟨⟨rfl, rfl, rfl, hsame⟩, hbit, hothers⟩, fun k => rfl⟩
  rw [free_zeroes hwrap hi hblock, cmemZmem, if_pos hroom]
  simp only [Option.bind_some, if_neg hstride, hclear, Option.map_some, contents]

/-- A block that is not all in the data cannot be freed. -/
theorem free_outside (hwrap : NoWrap poolAlloc) (hi : i < poolAlloc.availability.size.toNat)
    {block : UInt64} (hblock : block.toNat = blockAddress poolAlloc i)
    (hout : poolAlloc.bytes.toNat < poolAlloc.stride.toNat * (i + 1)) :
    poolAllocatorFree poolAlloc block = none := by
  rw [Nat.mul_succ] at hout
  rw [free_zeroes hwrap hi hblock, cmemZmem, if_neg (not_le.mpr hout), Option.bind_none]

end

end Cerverus.Pool
