import Cerverus.PoolAllocator

/-!
# Runs of the pool allocator

Blocks are allocated, and live blocks are freed, in any order. The pool serves them all as it
should just if it starts with every bit clear and neither an address nor the number of its bytes
wraps: allocating until null is returned, and then freeing, finds out every other case.
-/
namespace Cerverus.Pool
open Bits GuardedRun

inductive PoolOp
  | alloc
  | free (block : UInt64)

/-- The pool, and the blocks handed out and not yet freed. -/
structure Tracked where
  pool : PoolAllocator
  live : List UInt64

/-- Only live blocks are freed. -/
def poolStep (s : Tracked) : PoolOp → Option Tracked
  | .alloc => (poolAllocatorAlloc s.pool).map fun r =>
      ⟨r.2, if r.1 = 0 then s.live else r.1 :: s.live⟩
  | .free block =>
    if block ∈ s.live then
      (poolAllocatorFree s.pool block).map fun pool => ⟨pool, s.live.erase block⟩
    else none

def start (stride size : UInt64) (memory : PoolMemory) : Tracked :=
  ⟨poolAllocatorCreate stride size memory, []⟩

def IsLive (s : Tracked) (i : ℕ) : Prop := ∃ block ∈ s.live, block.toNat = blockAddress s.pool i

/-- The live blocks are distinct blocks of the pool; an allocation returns null just if all of
them are live; freeing one changes its bit and its bytes and no other. -/
structure Sound (s : Tracked) : Prop where
  blocks : ∀ block ∈ s.live, ∃ i < s.pool.availability.size.toNat,
    block.toNat = blockAddress s.pool i
  distinct : s.live.Nodup
  alloc : ∃ r, poolAllocatorAlloc s.pool = some r ∧
    (r.1 = 0 ↔ ∀ i < s.pool.availability.size.toNat, IsLive s i) ∧
      r.2.contents = s.pool.contents
  free : ∀ i < s.pool.availability.size.toNat, ∀ block ∈ s.live,
    block.toNat = blockAddress s.pool i →
      ∃ pool', poolAllocatorFree s.pool block = some pool' ∧ Changes s.pool pool' i false ∧
        Zeroed s.pool pool' i

/-- The bits say which blocks are live. -/
structure Agrees (s : Tracked) : Prop where
  wrap : NoWrap s.pool
  stride : s.pool.stride ≠ 0
  data : s.pool.data ≠ 0
  whole : Whole s.pool
  covered : Covered s.pool
  blocks : ∀ block ∈ s.live, ∃ i < s.pool.availability.size.toNat,
    block.toNat = blockAddress s.pool i
  distinct : s.live.Nodup
  bits : ∀ i < s.pool.availability.size.toNat,
    (bit s.pool.availability i = some true ↔ IsLive s i)

section
variable {s t : Tracked} {i : ℕ} {pool' : PoolAllocator}

theorem Agrees.address_ne (h : Agrees s) (hi : i < s.pool.availability.size.toNat) :
    s.pool.data + s.pool.stride * UInt64.ofNat i ≠ 0 := by
  intro hzero
  have haddress := toNat_address h.wrap hi
  rw [hzero, blockAddress] at haddress
  have hdata : s.pool.data.toNat = 0 := (Nat.add_eq_zero_iff.mp haddress.symm).1
  exact h.data (UInt64.toNat_inj.mp hdata)

theorem Agrees.alloc_cases (h : Agrees s) :
    (∃ k < s.pool.availability.size.toNat, ¬ IsLive s k ∧ ∃ pool',
      poolAllocatorAlloc s.pool = some (s.pool.data + s.pool.stride * UInt64.ofNat k, pool') ∧
        Changes s.pool pool' k true ∧ pool'.contents = s.pool.contents) ∨
      (∀ k < s.pool.availability.size.toNat, IsLive s k) ∧
        poolAllocatorAlloc s.pool = some (0, s.pool) := by
  rcases Pool.alloc_cases h.covered with
    ⟨k, hk, hclear, pool', halloc, hchange⟩ | ⟨htaken, halloc⟩
  · refine Or.inl ⟨k, hk, fun hlive => ?_, pool', halloc, hchange⟩
    have htrue := (h.bits k hk).mpr hlive
    rw [hclear] at htrue
    cases htrue
  · exact Or.inr ⟨fun k hk => (h.bits k hk).mp (htaken k hk), halloc⟩

theorem sound_of_agrees (h : Agrees s) : Sound s := by
  refine ⟨h.blocks, h.distinct, ?_, ?_⟩
  · rcases h.alloc_cases with ⟨k, hk, hdead, pool', halloc, _, hsame⟩ | ⟨hlive, halloc⟩
    · refine ⟨_, halloc, iff_of_false (h.address_ne hk) fun hlive => hdead (hlive k hk), hsame⟩
    · exact ⟨_, halloc, iff_of_true rfl hlive, rfl⟩
  · intro i hi block _ hblock
    exact free_changes h.covered h.wrap h.whole h.stride hi hblock

/-- Changing the bit of block `i` keeps the agreement, if `i` is then live or dead as it says. -/
theorem agrees_of_changes (h : Agrees s) {v : Bool} {live : List UInt64}
    (hc : Changes s.pool pool' i v) (hi : i < s.pool.availability.size.toNat)
    (hblocks : ∀ block ∈ live, ∃ j < s.pool.availability.size.toNat,
      block.toNat = blockAddress s.pool j)
    (hdistinct : live.Nodup)
    (hlive : (∃ block ∈ live, block.toNat = blockAddress s.pool i) ↔ v = true)
    (hothers : ∀ j, j ≠ i →
      ((∃ block ∈ live, block.toNat = blockAddress s.pool j) ↔ IsLive s j)) :
    Agrees ⟨pool', live⟩ := by
  refine ⟨hc.noWrap.mpr h.wrap, hc.stride ▸ h.stride, hc.data ▸ h.data, hc.whole.mpr h.whole,
    hc.covered h.covered, ?_, hdistinct, ?_⟩
  · intro block hmem
    obtain ⟨j, hj, hblock⟩ := hblocks block hmem
    exact ⟨j, hc.size ▸ hj, hblock.trans (hc.blockAddress j).symm⟩
  · intro j hj
    unfold IsLive
    simp only [hc.blockAddress]
    by_cases hij : j = i
    · subst hij
      rw [hc.bit, hlive, Option.some.injEq]
    · rw [hc.others j hij, hothers j hij]
      exact h.bits j (hc.size ▸ hj)

theorem agrees_alloc (h : Agrees s) (hstep : poolStep s .alloc = some t) : Agrees t := by
  rcases h.alloc_cases with ⟨k, hk, hdead, pool', halloc, hchange, _⟩ | ⟨_, halloc⟩
  · have haddress := toNat_address h.wrap hk
    simp only [poolStep, halloc, Option.map_some, if_neg (h.address_ne hk)] at hstep
    cases hstep
    refine agrees_of_changes h hchange hk ?_ ?_ ?_ ?_
    · intro block hmem
      rcases List.mem_cons.mp hmem with rfl | hmem
      · exact ⟨k, hk, haddress⟩
      · exact h.blocks block hmem
    · exact List.nodup_cons.mpr ⟨fun hmem => hdead ⟨_, hmem, haddress⟩, h.distinct⟩
    · exact iff_of_true ⟨_, List.mem_cons_self, haddress⟩ rfl
    · intro j hj
      constructor
      · intro hex
        obtain ⟨block, hmem, hblock⟩ := hex
        rcases List.mem_cons.mp hmem with rfl | hmem
        · exact absurd (blockAddress_inj h.stride (hblock.symm.trans haddress)) hj
        · exact ⟨block, hmem, hblock⟩
      · intro hex
        obtain ⟨block, hmem, hblock⟩ := hex
        exact ⟨block, List.mem_cons_of_mem _ hmem, hblock⟩
  · simp only [poolStep, halloc, Option.map_some, if_true] at hstep
    cases hstep
    exact h

theorem agrees_free (h : Agrees s) {block : UInt64} (hstep : poolStep s (.free block) = some t) :
    Agrees t := by
  simp only [poolStep] at hstep
  split_ifs at hstep with hmem
  obtain ⟨i, hi, hblock⟩ := h.blocks block hmem
  obtain ⟨pool', hfree, hchange, _⟩ :=
    free_changes h.covered h.wrap h.whole h.stride hi hblock
  simp only [hfree, Option.map_some] at hstep
  cases hstep
  refine agrees_of_changes h hchange hi ?_ (h.distinct.erase block) ?_ ?_
  · intro b hb
    exact h.blocks b (List.mem_of_mem_erase hb)
  · refine iff_of_false ?_ (by decide)
    intro hex
    obtain ⟨b, hb, haddress⟩ := hex
    have heq : b = block := UInt64.toNat_inj.mp (haddress.trans hblock.symm)
    exact absurd rfl ((h.distinct.mem_erase_iff.mp (heq ▸ hb)).1)
  · intro j hj
    constructor
    · intro hex
      obtain ⟨b, hb, haddress⟩ := hex
      exact ⟨b, List.mem_of_mem_erase hb, haddress⟩
    · intro hex
      obtain ⟨b, hb, haddress⟩ := hex
      refine ⟨b, h.distinct.mem_erase_iff.mpr ⟨?_, hb⟩, haddress⟩
      intro heq
      subst heq
      exact hj (blockAddress_inj h.stride (haddress.symm.trans hblock))

theorem agrees_step {op : PoolOp} (h : Agrees s) (hstep : poolStep s op = some t) : Agrees t := by
  cases op with
  | alloc => exact agrees_alloc h hstep
  | free block => exact agrees_free h hstep

end

/-! ## The start -/

section
variable {stride size : UInt64} {memory : PoolMemory}

theorem bit_create {bits : ℕ → BitVec 8} (hsize : size.toNat + 7 < 2 ^ 64) {i : ℕ}
    (hi : i < size.toNat) :
    bit (bitarrayCreate size bits) i = some ((bits (i / 8)).getLsbD (i % 8)) := by
  have hbytes : ((size + 7) / 8).toNat = (size.toNat + 7) / 8 := by
    rw [UInt64.toNat_div, UInt64.toNat_add]
    exact congrArg (· / 8) (Nat.mod_eq_of_lt hsize)
  have hlt : i / 8 < ((size + 7) / 8).toNat := by omega
  rw [bit, bitarrayCreate, List.getElem?_map, List.getElem?_range hlt]
  rfl

theorem bit_create_wrap {bits : ℕ → BitVec 8} (hsize : ¬ size.toNat + 7 < 2 ^ 64) (i : ℕ) :
    bit (bitarrayCreate size bits) i = none := by
  have hlt := size.toNat_lt
  have hbytes : ((size + 7) / 8).toNat = 0 := by
    have hseven : (7 : UInt64).toNat = 7 := rfl
    have height : (8 : UInt64).toNat = 8 := rfl
    rw [UInt64.toNat_div, UInt64.toNat_add, hseven, height]
    omega
  rw [bit, bitarrayCreate, hbytes]
  rfl

def Cleared (size : UInt64) (bits : ℕ → BitVec 8) : Prop :=
  ∀ i < size.toNat, (bits (i / 8)).getLsbD (i % 8) = false

theorem covered_start (hsize : size.toNat + 7 < 2 ^ 64) :
    Covered (start stride size memory).pool := by
  intro i hi
  exact Option.isSome_iff_exists.mpr ⟨_, bit_create hsize hi⟩

theorem whole_start (memory : PoolMemory) :
    Whole (start stride size memory).pool ↔ size.toNat * stride.toNat < 2 ^ 64 := by
  have hbytes : (start stride size memory).pool.bytes.toNat =
      size.toNat * stride.toNat % 2 ^ 64 := UInt64.toNat_mul size stride
  have hlt : size.toNat * stride.toNat % 2 ^ 64 < 2 ^ 64 := Nat.mod_lt _ (by decide)
  have hblocks : stride.toNat * size.toNat = size.toNat * stride.toNat := Nat.mul_comm _ _
  unfold Whole
  rw [hbytes]
  constructor
  · intro hle
    exact hblocks ▸ hle.trans_lt hlt
  · intro hfits
    rw [Nat.mod_eq_of_lt hfits]
    exact hblocks.le

theorem agrees_start (hstride : stride ≠ 0) (hdata : memory.data ≠ 0)
    (hsize : size.toNat + 7 < 2 ^ 64) (hclear : Cleared size memory.bits)
    (hfits : size.toNat * stride.toNat < 2 ^ 64)
    (hwrap : NoWrap (start stride size memory).pool) : Agrees (start stride size memory) := by
  refine ⟨hwrap, hstride, hdata, (whole_start memory).mpr hfits, covered_start hsize,
    fun _ hmem => absurd hmem List.not_mem_nil, List.nodup_nil, fun i hi => iff_of_false ?_ ?_⟩
  · have hbit : bit (start stride size memory).pool.availability i = some false :=
      (bit_create hsize hi).trans (congrArg some (hclear i hi))
    rw [hbit]
    decide
  · intro hex
    obtain ⟨_, hmem, _⟩ := hex
    exact absurd hmem List.not_mem_nil

end

/-! ## Allocating until null is returned -/

section
variable {s : Tracked}

def clearBits (pool : PoolAllocator) : Finset ℕ :=
  (Finset.range pool.availability.size.toNat).filter fun i => bit pool.availability i = some false

theorem clearBits_subset {pool pool' : PoolAllocator} {k : ℕ} (h : Changes pool pool' k true) :
    clearBits pool' ⊆ (clearBits pool).erase k := by
  intro i hi
  obtain ⟨hi, hclear⟩ := Finset.mem_filter.mp hi
  rw [h.size] at hi
  have hne : i ≠ k := by
    intro heq
    rw [heq, h.bit] at hclear
    cases hclear
  rw [h.others i hne] at hclear
  exact Finset.mem_erase.mpr ⟨hne, Finset.mem_filter.mpr ⟨hi, hclear⟩⟩

/-- Allocations take every block whose bit is clear, and then null is returned. -/
theorem exhausts (hc : Covered s.pool) :
    ∃ ops t, run poolStep s ops = some t ∧ SameBlocks s.pool t.pool ∧
      poolAllocatorAlloc t.pool = some (0, t.pool) ∧
      ∀ block ∈ t.live, block ∈ s.live ∨ ∃ i ∈ clearBits s.pool,
        block = s.pool.data + s.pool.stride * UInt64.ofNat i := by
  induction hn : (clearBits s.pool).card using Nat.strong_induction_on generalizing s with
  | _ n ih =>
    rcases alloc_cases hc with ⟨k, hk, hbit, pool', halloc, hchange, _⟩ | ⟨_, halloc⟩
    · have hmem : k ∈ clearBits s.pool := Finset.mem_filter.mpr ⟨Finset.mem_range.mpr hk, hbit⟩
      have hsub : clearBits pool' ⊆ (clearBits s.pool).erase k := clearBits_subset hchange
      let t : Tracked := ⟨pool', if s.pool.data + s.pool.stride * UInt64.ofNat k = 0 then s.live
        else (s.pool.data + s.pool.stride * UInt64.ofNat k) :: s.live⟩
      have hstep : poolStep s .alloc = some t := by simp only [poolStep, halloc, Option.map_some, t]
      have hcard : (clearBits t.pool).card < n :=
        hn ▸ (Finset.card_le_card hsub).trans_lt (Finset.card_erase_lt_of_mem hmem)
      obtain ⟨ops, u, hrun, hsame, hnull, hblocks⟩ :=
        ih _ hcard (s := t) (hchange.covered hc) rfl
      refine ⟨.alloc :: ops, u, (run_cons ops hstep).trans hrun,
        hchange.toSameBlocks.trans hsame, hnull, fun block hb => ?_⟩
      rcases hblocks block hb with hlive | ⟨i, hi, hblock⟩
      · simp only [t] at hlive
        split_ifs at hlive
        · exact Or.inl hlive
        · rcases List.mem_cons.mp hlive with heq | hlive
          · exact Or.inr ⟨k, hmem, heq⟩
          · exact Or.inl hlive
      · have hblock' : block = s.pool.data + s.pool.stride * UInt64.ofNat i := by
          rw [hblock, ← hchange.data, ← hchange.stride]
        exact Or.inr ⟨i, Finset.mem_of_mem_erase (hsub hi), hblock'⟩
    · exact ⟨[], s, rfl, ⟨rfl, rfl, rfl, rfl⟩, halloc, fun block hb => Or.inl hb⟩

end

section
variable {stride size : UInt64} {memory : PoolMemory}

theorem bits_of_sound (hpos : 0 < size.toNat) (h : Sound (start stride size memory)) :
    size.toNat + 7 < 2 ^ 64 := by
  by_contra hwrap
  obtain ⟨r, halloc, _⟩ := h.alloc
  have hlt : 0 < (start stride size memory).pool.availability.size :=
    UInt64.lt_iff_toNat_lt.mpr hpos
  have hnone : bit (start stride size memory).pool.availability (0 : UInt64).toNat = none :=
    bit_create_wrap hwrap _
  rw [poolAllocatorAlloc, allocFrom, if_pos hlt, bitwiseGet_eq, hnone] at halloc
  cases halloc

/-- A sound pool gets to a state where every block is live, and was not taken at the start. -/
theorem full_of_sound (hbits : size.toNat + 7 < 2 ^ 64)
    (h : ∀ ops, Along poolStep Sound (start stride size memory) ops) :
    ∃ t, Sound t ∧ SameBlocks (start stride size memory).pool t.pool ∧
      (∀ i < size.toNat, IsLive t i) ∧
      ∀ block ∈ t.live, ∃ k ∈ clearBits (start stride size memory).pool,
        block = memory.data + stride * UInt64.ofNat k := by
  obtain ⟨ops, t, hrun, hsame, hnull, hblocks⟩ :=
    exhausts (s := start stride size memory) (covered_start hbits)
  have hsound : Sound t := along_run (h ops) hrun
  obtain ⟨r, halloc, hiff, _⟩ := hsound.alloc
  rw [hnull, Option.some.injEq] at halloc
  refine ⟨t, hsound, hsame, fun i hi => ?_, fun block hmem => ?_⟩
  · exact hiff.mp (by rw [← halloc]) i (by rw [hsame.size]; exact hi)
  · exact (hblocks block hmem).resolve_left List.not_mem_nil

theorem fits_of_sound {t : Tracked} (hpos : 0 < size.toNat)
    (hwrap : NoWrap (start stride size memory).pool) (hsound : Sound t)
    (hsame : SameBlocks (start stride size memory).pool t.pool)
    (hlive : ∀ i < size.toNat, IsLive t i) : size.toNat * stride.toNat < 2 ^ 64 := by
  rw [← whole_start memory, ← hsame.whole]
  by_contra hshort
  have hsize : t.pool.availability.size = size := hsame.size
  have hlast : size.toNat - 1 < t.pool.availability.size.toNat := by
    rw [hsize]
    omega
  have hout : t.pool.bytes.toNat < t.pool.stride.toNat * (size.toNat - 1 + 1) := by
    rw [Nat.sub_add_cancel hpos, ← hsize]
    exact not_le.mp hshort
  obtain ⟨block, hmem, hblock⟩ := hlive (size.toNat - 1) (Nat.sub_lt hpos Nat.one_pos)
  obtain ⟨pool', hfree, _⟩ := hsound.free _ hlast block hmem hblock
  rw [free_outside (hsame.noWrap.mpr hwrap) hlast hblock hout] at hfree
  cases hfree

end

/-- A pool of at least one block is sound in every state of every run if and only if all its
bits are clear to begin with, and neither their number nor that of the bytes nor the addresses
wrap. -/
theorem sound_iff_cleared {stride size : UInt64} (memory : PoolMemory)
    (hstride : stride ≠ 0) (hsize : size ≠ 0) (hdata : memory.data ≠ 0) :
    (∀ ops, Along poolStep Sound (start stride size memory) ops) ↔
      Cleared size memory.bits ∧ size.toNat + 7 < 2 ^ 64 ∧
        size.toNat * stride.toNat < 2 ^ 64 ∧
        memory.data.toNat + stride.toNat * (size.toNat - 1) < 2 ^ 64 := by
  have hpos := toNat_pos hsize
  constructor
  · intro hsound
    have hbits := bits_of_sound hpos (along_head (hsound []))
    obtain ⟨t, ht, hsame, hlive, hblocks⟩ := full_of_sound hbits hsound
    have haddress : ∀ i < size.toNat, ∃ block ∈ t.live,
        block.toNat = blockAddress (start stride size memory).pool i := by
      intro i hi
      obtain ⟨block, hmem, hblock⟩ := hlive i hi
      exact ⟨block, hmem, hblock.trans (hsame.blockAddress i)⟩
    have hwrap : NoWrap (start stride size memory).pool := by
      obtain ⟨block, _, hblock⟩ := haddress (size.toNat - 1) (Nat.sub_lt hpos Nat.one_pos)
      have hlt := block.toNat_lt
      rw [hblock] at hlt
      exact hlt
    refine ⟨fun i hi => ?_, hbits, fits_of_sound hpos hwrap ht hsame hlive, hwrap⟩
    obtain ⟨block, hmem, hblock⟩ := haddress i hi
    obtain ⟨k, hk, rfl⟩ := hblocks block hmem
    obtain ⟨hk, hclear⟩ := Finset.mem_filter.mp hk
    have hk := Finset.mem_range.mp hk
    have hik := blockAddress_inj hstride (hblock.symm.trans (toNat_address hwrap hk))
    rw [hik]
    exact Option.some.inj ((bit_create hbits hk).symm.trans hclear)
  · intro hcond ops
    obtain ⟨hclear, hbits, hfits, hwrap⟩ := hcond
    have hstart : Agrees (start stride size memory) :=
      agrees_start hstride hdata hbits hclear hfits hwrap
    exact along_mono (fun s h => sound_of_agrees h)
      (along_of_invariant (fun s op t h hstep => agrees_step h hstep) hstart)

/-- Three blocks of 16 bytes, with a bit array of zeros and data of ones. -/
theorem threeBlocks_sound : Cleared 3 (fun _ => 0) ∧
    ∀ ops, Along poolStep Sound (start 16 3 ⟨fun _ => 0, 4096, fun _ => 255⟩) ops := by
  have hclear : Cleared 3 (fun _ => 0) := by
    unfold Cleared
    decide
  exact ⟨hclear, (sound_iff_cleared ⟨fun _ => 0, 4096, fun _ => 255⟩ (by decide) (by decide)
    (by decide)).mpr ⟨hclear, by decide, by decide, by decide⟩⟩

/-- A block of 16 bytes, with a bit array of ones: null is returned while it is not live. -/
theorem garbage_refuses :
    poolAllocatorAlloc (start 16 1 ⟨fun _ => 255, 4096, fun _ => 0⟩).pool =
        some (0, (start 16 1 ⟨fun _ => 255, 4096, fun _ => 0⟩).pool) ∧
      ¬ ∀ ops, Along poolStep Sound (start 16 1 ⟨fun _ => 255, 4096, fun _ => 0⟩) ops := by
  have halloc : poolAllocatorAlloc (start 16 1 ⟨fun _ => 255, 4096, fun _ => 0⟩).pool =
      some (0, (start 16 1 ⟨fun _ => 255, 4096, fun _ => 0⟩).pool) := by
    have hbit : bitwiseGet (start 16 1 ⟨fun _ => 255, 4096, fun _ => 0⟩).pool.availability 0 =
        some true := by
      decide
    rw [poolAllocatorAlloc, allocFrom, if_pos (by decide), hbit, Option.bind_some, if_pos rfl,
      allocFrom, if_neg (by decide)]
  refine ⟨halloc, fun hsound => ?_⟩
  obtain ⟨r, hr, hiff, _⟩ := (along_head (hsound [])).alloc
  rw [halloc, Option.some.injEq] at hr
  obtain ⟨block, hmem, _⟩ := hiff.mp (by rw [← hr]) 0 (by decide)
  exact absurd hmem List.not_mem_nil

end Cerverus.Pool
