import Cerverus.GuardedRun

/-!
# The bump allocator

Addresses and sizes are `size_t`, and their sums wrap. The guard of `bump_allocator_alloc`
compares such a sum, so it lets a request through that is large enough to wrap, and the
cursor then moves back. A null pointer is address 0.
-/
namespace Cerverus.Bump
open GuardedRun

structure BumpAllocator where
  size : UInt64
  cursor : UInt64
  data : UInt64
  deriving DecidableEq, Repr

/-- A block from `malloc`: its address is not null, and the address of its end exists. -/
structure Block where
  data : UInt64
  capacity : UInt64
  nonnull : data ≠ 0
  fits : data.toNat + capacity.toNat < 2 ^ 64

def bumpAllocatorCreate (block : Block) : BumpAllocator :=
  { size := block.capacity, cursor := block.data, data := block.data }

def bumpAllocatorAlloc (bumpAlloc : BumpAllocator) (size : UInt64) : UInt64 × BumpAllocator :=
  if bumpAlloc.cursor + size > bumpAlloc.data + bumpAlloc.size then (0, bumpAlloc)
  else (bumpAlloc.cursor, { bumpAlloc with cursor := bumpAlloc.cursor + size })

def bumpAlloctorReset (bumpAlloc : BumpAllocator) : BumpAllocator :=
  { bumpAlloc with cursor := bumpAlloc.data }

/-! ## Runs -/

inductive BumpOp
  | alloc (size : UInt64)
  | reset
  deriving DecidableEq, Repr

/-- The allocator, and the non-null results since the last reset with their sizes. -/
structure Tracked where
  bump : BumpAllocator
  results : List (UInt64 × UInt64)

def start (block : Block) : Tracked := ⟨bumpAllocatorCreate block, []⟩

def bumpNext (s : Tracked) : BumpOp → Tracked
  | .alloc size =>
    let r := bumpAllocatorAlloc s.bump size
    ⟨r.2, if r.1 = 0 then s.results else (r.1, size) :: s.results⟩
  | .reset => ⟨bumpAlloctorReset s.bump, []⟩

def bumpStep (s : Tracked) (op : BumpOp) : Option Tracked := some (bumpNext s op)

def bytes (address size : UInt64) : Set ℕ :=
  Set.Ico address.toNat (address.toNat + size.toNat)

/-- After the call, the blocks handed out are parts of the arena and share no byte, and the
cursor has not moved back, nor moved at all if the call was refused. -/
structure Sound (block : Block) (s : Tracked) (op : BumpOp) : Prop where
  inside : ∀ r ∈ (bumpNext s op).results, bytes r.1 r.2 ⊆ bytes block.data block.capacity
  disjoint : (bumpNext s op).results.Pairwise fun r r' => Disjoint (bytes r.1 r.2) (bytes r'.1 r'.2)
  forward : op ≠ .reset → s.bump.cursor ≤ (bumpNext s op).bump.cursor
  refused : ∀ size, op = .alloc size → (bumpAllocatorAlloc s.bump size).1 = 0 →
    (bumpNext s op).bump.cursor = s.bump.cursor

/-- The end of the request is an address. -/
def NoWrap (s : Tracked) : BumpOp → Prop
  | .alloc size => s.bump.cursor.toNat + size.toNat < 2 ^ 64
  | .reset => True

/-- The blocks handed out lie between `data` and the cursor, one after the other. -/
structure Stacked (block : Block) (s : Tracked) : Prop where
  size : s.bump.size = block.capacity
  data : s.bump.data = block.data
  low : block.data.toNat ≤ s.bump.cursor.toNat
  high : s.bump.cursor.toNat ≤ block.data.toNat + block.capacity.toNat
  inside : ∀ r ∈ s.results, block.data.toNat ≤ r.1.toNat ∧
    r.1.toNat + r.2.toNat ≤ s.bump.cursor.toNat
  disjoint : s.results.Pairwise fun r r' => Disjoint (bytes r.1 r.2) (bytes r'.1 r'.2)

section
variable {block : Block} {s : Tracked} {size : UInt64}

theorem stacked_start (block : Block) : Stacked block (start block) :=
  ⟨rfl, rfl, le_rfl, Nat.le_add_right _ _, fun _ hr => absurd hr List.not_mem_nil,
    List.Pairwise.nil⟩

theorem Stacked.limit (h : Stacked block s) :
    (s.bump.data + s.bump.size).toNat = block.data.toNat + block.capacity.toNat := by
  rw [h.data, h.size, UInt64.toNat_add, Nat.mod_eq_of_lt block.fits]

theorem Stacked.cursor_ne (h : Stacked block s) : s.bump.cursor ≠ 0 := by
  intro hzero
  have hlow := h.low
  rw [hzero] at hlow
  exact block.nonnull (UInt64.toNat_inj.mp (Nat.le_zero.mp hlow))

theorem alloc_noWrap (h : Stacked block s) (hwrap : s.bump.cursor.toNat + size.toNat < 2 ^ 64) :
    bumpAllocatorAlloc s.bump size =
      if s.bump.cursor.toNat + size.toNat ≤ block.data.toNat + block.capacity.toNat then
        (s.bump.cursor, { s.bump with cursor := s.bump.cursor + size })
      else (0, s.bump) := by
  have hguard : s.bump.cursor + size > s.bump.data + s.bump.size ↔
      ¬ s.bump.cursor.toNat + size.toNat ≤ block.data.toNat + block.capacity.toNat := by
    rw [gt_iff_lt, UInt64.lt_iff_toNat_lt, h.limit, UInt64.toNat_add, Nat.mod_eq_of_lt hwrap,
      not_le]
  rw [bumpAllocatorAlloc, if_congr hguard rfl rfl, ite_not]

/-- A request that wraps is granted, and moves the cursor back. -/
theorem alloc_wrap (h : Stacked block s) (hwrap : 2 ^ 64 ≤ s.bump.cursor.toNat + size.toNat) :
    bumpAllocatorAlloc s.bump size =
        (s.bump.cursor, { s.bump with cursor := s.bump.cursor + size }) ∧
      s.bump.cursor + size < s.bump.cursor := by
  have hhigh := h.high
  have hlimit := h.limit
  have hcursor := s.bump.cursor.toNat_lt
  have hsize := size.toNat_lt
  have hsum : (s.bump.cursor + size).toNat = s.bump.cursor.toNat + size.toNat - 2 ^ 64 := by
    rw [UInt64.toNat_add]
    omega
  refine ⟨if_neg ?_, ?_⟩
  · rw [gt_iff_lt, UInt64.lt_iff_toNat_lt]
    omega
  · rw [UInt64.lt_iff_toNat_lt]
    omega

theorem stacked_next (h : Stacked block s) {op : BumpOp} (hwrap : NoWrap s op) :
    Stacked block (bumpNext s op) := by
  cases op with
  | reset =>
    refine ⟨h.size, h.data, ?_, ?_, fun _ hr => absurd hr List.not_mem_nil, List.Pairwise.nil⟩
    · exact (congrArg UInt64.toNat h.data).ge
    · exact (congrArg UInt64.toNat h.data).le.trans (Nat.le_add_right _ _)
  | alloc size =>
    have hwrap : s.bump.cursor.toNat + size.toNat < 2 ^ 64 := hwrap
    have halloc := alloc_noWrap h hwrap
    by_cases hfit : s.bump.cursor.toNat + size.toNat ≤ block.data.toNat + block.capacity.toNat
    · rw [if_pos hfit] at halloc
      have hsum : (s.bump.cursor + size).toNat = s.bump.cursor.toNat + size.toNat := by
        rw [UInt64.toNat_add, Nat.mod_eq_of_lt hwrap]
      have hnext : bumpNext s (.alloc size) =
          ⟨{ s.bump with cursor := s.bump.cursor + size },
            (s.bump.cursor, size) :: s.results⟩ := by
        simp only [bumpNext, halloc, if_neg h.cursor_ne]
      have hlow := h.low
      rw [hnext]
      refine ⟨h.size, h.data, ?_, ?_, ?_, List.pairwise_cons.mpr ⟨?_, h.disjoint⟩⟩
      · exact hsum ▸ hlow.trans (Nat.le_add_right _ _)
      · exact hsum ▸ hfit
      · intro r hr
        change block.data.toNat ≤ r.1.toNat ∧
          r.1.toNat + r.2.toNat ≤ (s.bump.cursor + size).toNat
        rw [hsum]
        rcases List.mem_cons.mp hr with rfl | hr
        · exact ⟨hlow, le_rfl⟩
        · have hr := h.inside r hr
          exact ⟨hr.1, hr.2.trans (Nat.le_add_right _ _)⟩
      · intro r hr
        have hbelow := (h.inside r hr).2
        exact Set.Ico_disjoint_Ico.mpr (min_le_of_right_le (hbelow.trans (le_max_left _ _)))
    · rw [if_neg hfit] at halloc
      have hnext : bumpNext s (.alloc size) = s := by
        simp only [bumpNext, halloc, if_true]
      rw [hnext]
      exact h

theorem sound_iff_noWrap (h : Stacked block s) (op : BumpOp) :
    Sound block s op ↔ NoWrap s op := by
  constructor
  · intro hsound
    cases op with
    | reset => trivial
    | alloc size =>
      by_contra hwrap
      obtain ⟨halloc, hback⟩ := alloc_wrap h (not_lt.mp hwrap)
      have hforward := hsound.forward (by simp)
      rw [bumpNext, halloc] at hforward
      exact absurd hforward (UInt64.not_le.mpr hback)
  · intro hwrap
    have hnext := stacked_next h hwrap
    refine ⟨?_, hnext.disjoint, ?_, ?_⟩
    · intro r hr
      have hr := hnext.inside r hr
      exact Set.Ico_subset_Ico hr.1 (hr.2.trans hnext.high)
    · intro hop
      cases op with
      | reset => exact absurd rfl hop
      | alloc size =>
        have hwrap : s.bump.cursor.toNat + size.toNat < 2 ^ 64 := hwrap
        simp only [bumpNext, alloc_noWrap h hwrap]
        split_ifs
        · rw [UInt64.le_iff_toNat_le, UInt64.toNat_add, Nat.mod_eq_of_lt hwrap]
          exact Nat.le_add_right _ _
        · exact UInt64.le_refl _
    · intro size hop hnull
      subst hop
      simp only [bumpNext]
      rw [alloc_noWrap h hwrap] at hnull ⊢
      split_ifs at hnull ⊢
      · exact absurd hnull h.cursor_ne
      · rfl

end

/-- In every run of requests and resets, all calls are sound if and only if no request reaches
beyond the last address. -/
theorem sound_iff_noWrap_run (block : Block) (ops : List BumpOp) :
    Guarded bumpStep (Sound block) (start block) ops ↔
      Guarded bumpStep NoWrap (start block) ops := by
  refine guarded_iff_guarded (I := Stacked block) ?_ ?_ (stacked_start block)
  · intro s op t h hwrap hstep
    cases hstep
    exact stacked_next h hwrap
  · intro s op t h _
    exact sound_iff_noWrap h op

def smallBlock : Block := ⟨4096, 16, by decide, by decide⟩

/-- It grants a request for 2^64 - 1 bytes. -/
theorem huge_request_granted :
    bumpAllocatorAlloc (start smallBlock).bump (-1) = (4096, ⟨16, 4095, 4096⟩) ∧
      ¬ Guarded bumpStep (Sound smallBlock) (start smallBlock) [.alloc (-1)] := by
  refine ⟨by decide, fun hsound => ?_⟩
  have hforward := hsound.1.forward (by decide)
  exact absurd hforward (by decide)

end Cerverus.Bump
