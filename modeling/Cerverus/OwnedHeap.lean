import Mathlib

/-!
# A heap and its owners

Addresses are handed out once, so that a pointer to a freed block never becomes good again. A
component owns a set of blocks; `Kept` says that what it did touched no others.
-/
namespace Cerverus.OwnedHeap

structure Heap (ν : Type*) where
  blocks : ℕ → Option ν
  fresh : ℕ
  unused : ∀ a, fresh ≤ a → blocks a = none

variable {ν : Type*}

def empty : Heap ν := ⟨fun _ => none, 0, fun _ _ => rfl⟩

/-- The new block lies at `h.fresh`. -/
def alloc (h : Heap ν) (v : ν) : Heap ν where
  blocks := Function.update h.blocks h.fresh (some v)
  fresh := h.fresh + 1
  unused a ha := by
    rw [Function.update_of_ne (by omega)]
    exact h.unused a (by omega)

def release (h : Heap ν) (a : ℕ) : Heap ν where
  blocks := Function.update h.blocks a none
  fresh := h.fresh
  unused b hb := by
    by_cases hba : b = a
    · rw [hba, Function.update_self]
    · rw [Function.update_of_ne hba]
      exact h.unused b hb

/-- `none` for a block that is not allocated. -/
def free (h : Heap ν) (a : ℕ) : Option (Heap ν) :=
  if (h.blocks a).isSome then some (release h a) else none

def allocated (h : Heap ν) : Finset ℕ := (Finset.range h.fresh).filter fun a => (h.blocks a).isSome

/-- Between the heaps only blocks owned before or after have been allocated, changed or freed. -/
structure Kept (h : Heap ν) (own : Finset ℕ) (h' : Heap ν) (own' : Finset ℕ) : Prop where
  others : allocated h' \ own' = allocated h \ own
  same : ∀ a ∈ allocated h \ own, h'.blocks a = h.blocks a

section
variable {h h' h'' : Heap ν} {own own' own'' : Finset ℕ} {a b : ℕ} {v : ν}

@[simp] theorem mem_allocated : a ∈ allocated h ↔ (h.blocks a).isSome := by
  rw [allocated, Finset.mem_filter, Finset.mem_range, and_iff_right_iff_imp]
  intro ha
  by_contra hle
  rw [h.unused a (by omega)] at ha
  cases ha

theorem mem_allocated_congr (ha : a ∈ allocated h) (hsame : h'.blocks a = h.blocks a) :
    a ∈ allocated h' := by
  rw [mem_allocated] at ha ⊢
  rwa [hsame]

theorem mem_allocated_of (ha : h.blocks a = some v) : a ∈ allocated h := by simp [ha]

theorem lt_fresh (ha : h.blocks a = some v) : a < h.fresh := by
  by_contra hle
  rw [h.unused a (by omega)] at ha
  cases ha

theorem fresh_notMem : h.fresh ∉ allocated h := by simp [h.unused h.fresh le_rfl]

@[simp] theorem alloc_self : (alloc h v).blocks h.fresh = some v := Function.update_self _ _ _

theorem alloc_of_ne (ha : a ≠ h.fresh) : (alloc h v).blocks a = h.blocks a :=
  Function.update_of_ne ha _ _

theorem allocated_alloc : allocated (alloc h v) = insert h.fresh (allocated h) := by
  ext a
  by_cases ha : a = h.fresh
  · simp [ha]
  · simp [alloc_of_ne ha, ha]

@[simp] theorem release_self : (release h a).blocks a = none := Function.update_self _ _ _

theorem release_of_ne (hb : b ≠ a) : (release h a).blocks b = h.blocks b :=
  Function.update_of_ne hb _ _

theorem allocated_release : allocated (release h a) = (allocated h).erase a := by
  ext b
  by_cases hb : b = a
  · simp [hb]
  · simp [release_of_ne hb, hb]

theorem free_eq (ha : h.blocks a = some v) : free h a = some (release h a) := by simp [free, ha]

theorem Kept.refl : Kept h own h own := ⟨rfl, fun _ _ => rfl⟩

theorem Kept.trans (hk : Kept h own h' own') (hk' : Kept h' own' h'' own'') :
    Kept h own h'' own'' :=
  ⟨hk'.others.trans hk.others, fun a ha =>
    (hk'.same a (hk.others ▸ ha)).trans (hk.same a ha)⟩

theorem kept_alloc : Kept h own (alloc h v) (insert h.fresh own) := by
  refine ⟨?_, fun a ha => alloc_of_ne fun he => ?_⟩
  · ext a
    by_cases ha : a = h.fresh
    · simp [ha, h.unused h.fresh le_rfl]
    · simp [allocated_alloc, ha]
  · rw [he] at ha
    exact fresh_notMem (Finset.mem_sdiff.mp ha).1

theorem kept_release (ha : a ∈ own) : Kept h own (release h a) (own.erase a) := by
  refine ⟨?_, fun b hb => release_of_ne fun he => ?_⟩
  · ext b
    by_cases hb : b = a
    · simp [hb, ha]
    · simp [allocated_release, hb]
  · rw [he] at hb
    exact (Finset.mem_sdiff.mp hb).2 ha

theorem Kept.mem_allocated (hk : Kept h own h' own') (ha : a ∈ allocated h) (ho : a ∉ own) :
    a ∈ allocated h' ∧ a ∉ own' :=
  Finset.mem_sdiff.mp (hk.others ▸ Finset.mem_sdiff.mpr ⟨ha, ho⟩)

/-- A new component beside an old one, which is then given up. -/
theorem Kept.replace (hk : Kept h ∅ h' own') (hk' : Kept h' own h'' ∅) :
    Kept h own h'' own' := by
  have hnew := hk.others
  have hold := hk'.others
  rw [Finset.sdiff_empty] at hnew hold
  refine ⟨?_, fun a ha => ?_⟩
  · rw [hold, ← hnew, sdiff_right_comm]
  · obtain ⟨ha, hown⟩ := Finset.mem_sdiff.mp ha
    have hmem := (hk.mem_allocated ha (Finset.notMem_empty a)).1
    exact (hk'.same a (Finset.mem_sdiff.mpr ⟨hmem, hown⟩)).trans (hk.same a (by simpa using ha))

theorem Kept.blocks_eq (hk : Kept h own h' own') (ha : a ∈ allocated h) (ho : a ∉ own) :
    h'.blocks a = h.blocks a :=
  hk.same a (Finset.mem_sdiff.mpr ⟨ha, ho⟩)

end

end Cerverus.OwnedHeap
