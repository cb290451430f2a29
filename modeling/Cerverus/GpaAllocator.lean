import Cerverus.ListOperations
import Cerverus.Refinement

/-!
# The general-purpose allocator

`GPA_alloc` looks at the first block of the free list only, again and again if it is too
small, and never takes it off the list. It counts the header in bytes when it compares
sizes, and in headers when it computes the pointer to return. Addresses are offsets from
`data`; `none` is a call that does not return within the turns it is given.
-/
namespace Cerverus.Gpa
open Dll LinkedHeap Refinement

structure FreeListNode where
  size : UInt64
  offset : UInt64

structure GPA where
  freeList : DoublyLinkedList FreeListNode
  size : UInt64

def gpaCreate (size : UInt64) : Option GPA :=
  (doublyLinkedListPushBack doublyLinkedListCreate ⟨size, 0⟩).map fun r => ⟨r.1, size⟩

/-- The pointer returned, and the header that was written for it. -/
structure Allocation where
  header : UInt64
  size : UInt64
  payload : UInt64

/-- The loop of `GPA_alloc`, for at most `fuel` turns. -/
def gpaAllocLoop (gpa : GPA) (size : UInt64) :
    ℕ → Option ℕ → Option (Option Allocation × GPA)
  | 0, _ => none
  | _ + 1, none => some (none, gpa)
  | fuel + 1, some currDllNode => do
    let node ← gpa.freeList.heap currDllNode
    if node.data.size ≥ size + 8 then
      -- what a larger block leaves is computed, and dropped
      let newAllocHeader := 8 * node.data.offset
      some (some ⟨newAllocHeader, size, newAllocHeader + 8 * 8⟩, gpa)
    else gpaAllocLoop gpa size fuel (some currDllNode)

def gpaAlloc (fuel : ℕ) (gpa : GPA) (size : UInt64) : Option (Option Allocation × GPA) :=
  gpaAllocLoop gpa size fuel gpa.freeList.head

/-! ## Requests -/

def Allocation.bytes (a : Allocation) : Set ℕ :=
  Set.Ico a.header.toNat (a.header.toNat + 8) ∪
    Set.Ico a.payload.toNat (a.payload.toNat + a.size.toNat)

/-- Some block of the free list has room for the request and its header. -/
def CanHold (gpa : GPA) (size : UInt64) : Prop :=
  ∃ node nd, gpa.freeList.heap node = some nd ∧ size.toNat + 8 ≤ nd.data.size.toNat

/-- The blocks handed out, newest first. -/
def handed (blocks : List Allocation) (_ : UInt64) (answer : Option Allocation) :
    List Allocation :=
  answer.toList ++ blocks

/-- The blocks are parts of the arena and share no byte. -/
structure Laid (arena : UInt64) (blocks : List Allocation) : Prop where
  inside : ∀ a ∈ blocks, a.bytes ⊆ Set.Ico 0 arena.toNat
  disjoint : blocks.Pairwise fun a b => Disjoint a.bytes b.bytes

/-- Null is returned if no block can hold the request, and the blocks handed out are laid in
the arena. -/
def Meets (arena : UInt64) (gpa : GPA) (blocks : List Allocation) (size : UInt64)
    (answer : Option Allocation) (_ : GPA) : Prop :=
  (¬ CanHold gpa size → answer = none) ∧ Laid arena (handed blocks size answer)

def Serves (arena : UInt64) (gpa : GPA) (requests : List UInt64) : Prop :=
  ∃ fuel, Follows (gpaAlloc fuel) handed (Meets arena) (fun _ => True) gpa [] requests

/-- The free list is one block, at the start of the arena and as large. -/
structure OneBlock (arena : UInt64) (gpa : GPA) : Prop where
  head : gpa.freeList.head = some 0
  heap : gpa.freeList.heap = Function.update (fun _ => none) 0 (some ⟨none, none, ⟨arena, 0⟩⟩)

section
variable {arena size : UInt64} {gpa : GPA} {fuel : ℕ}

theorem oneBlock_create (arena : UInt64) : ∃ gpa, gpaCreate arena = some gpa ∧ OneBlock arena gpa :=
  ⟨_, rfl, rfl, rfl⟩

theorem OneBlock.node (h : OneBlock arena gpa) :
    gpa.freeList.heap 0 = some ⟨none, none, ⟨arena, 0⟩⟩ := by
  rw [h.heap, Function.update_self]

def firstBlock (size : UInt64) : Allocation := ⟨0, size, 64⟩

theorem gpaAlloc_fits (h : OneBlock arena gpa) (hfit : size + 8 ≤ arena) (fuel : ℕ) :
    gpaAlloc (fuel + 1) gpa size = some (some (firstBlock size), gpa) := by
  have hge : arena ≥ size + 8 := hfit
  simp only [gpaAlloc, h.head, gpaAllocLoop, h.node, Option.bind_eq_bind, Option.bind_some,
    if_pos hge]
  rfl

theorem gpaAlloc_tooLarge (h : OneBlock arena gpa) (hlarge : ¬ size + 8 ≤ arena) (fuel : ℕ) :
    gpaAlloc fuel gpa size = none := by
  rw [gpaAlloc, h.head]
  induction fuel with
  | zero => rfl
  | succ fuel ih =>
    have hge : ¬ arena ≥ size + 8 := hlarge
    simp only [gpaAllocLoop, h.node, Option.bind_eq_bind, Option.bind_some, if_neg hge]
    exact ih

/-- The list is never changed, so all blocks are put in the same place. -/
theorem gpaAlloc_eq_some (h : OneBlock arena gpa) {answer : Option Allocation} {gpa' : GPA}
    (halloc : gpaAlloc fuel gpa size = some (answer, gpa')) :
    size + 8 ≤ arena ∧ answer = some (firstBlock size) ∧ gpa' = gpa := by
  by_cases hfit : size + 8 ≤ arena
  · cases fuel with
    | zero => cases halloc
    | succ fuel =>
      rw [gpaAlloc_fits h hfit] at halloc
      cases halloc
      exact ⟨hfit, rfl, rfl⟩
  · rw [gpaAlloc_tooLarge h hfit] at halloc
    cases halloc

/-- The first block is in the arena if it ends there, or is only a header. -/
def Fits (arena size : UInt64) : Prop :=
  size.toNat + 64 ≤ arena.toNat ∨ size = 0 ∧ 8 ≤ arena.toNat

theorem bytes_firstBlock (size : UInt64) :
    (firstBlock size).bytes = Set.Ico 0 8 ∪ Set.Ico 64 (64 + size.toNat) := rfl

theorem firstBlock_inside :
    (firstBlock size).bytes ⊆ Set.Ico 0 arena.toNat ↔ Fits arena size := by
  rw [bytes_firstBlock, Set.union_subset_iff, Fits]
  have hzero : size = 0 ↔ size.toNat = 0 := UInt64.toNat_inj.symm
  constructor
  · intro hsub
    obtain ⟨hheader, hpayload⟩ := hsub
    have hseven := (hheader (show 7 ∈ Set.Ico 0 8 by decide)).2
    by_cases hsize : size.toNat = 0
    · exact Or.inr ⟨hzero.mpr hsize, hseven⟩
    · have hlast : 64 + (size.toNat - 1) ∈ Set.Ico 64 (64 + size.toNat) :=
        ⟨Nat.le_add_right _ _, by omega⟩
      have hlt := (hpayload hlast).2
      exact Or.inl (by omega)
  · intro hfits
    rcases hfits with hfits | ⟨rfl, hfits⟩
    · exact ⟨Set.Ico_subset_Ico le_rfl (by omega), Set.Ico_subset_Ico (Nat.zero_le _) (by omega)⟩
    · refine ⟨Set.Ico_subset_Ico le_rfl hfits, ?_⟩
      rw [UInt64.toNat_zero, Nat.add_zero, Set.Ico_self]
      exact Set.empty_subset _

theorem fits_le (h : Fits arena size) :
    size + 8 ≤ arena ∧ size.toNat + 8 ≤ arena.toNat := by
  have harena := arena.toNat_lt
  have height : (8 : UInt64).toNat = 8 := rfl
  have hle : size.toNat + 8 ≤ arena.toNat := by
    rcases h with hfits | ⟨rfl, hfits⟩
    · omega
    · exact hfits
  refine ⟨?_, hle⟩
  rw [UInt64.le_iff_toNat_le, UInt64.toNat_add, height, Nat.mod_eq_of_lt (hle.trans_lt harena)]
  exact hle

theorem laid_single :
    Laid arena [firstBlock size] ↔ Fits arena size := by
  constructor
  · intro hlaid
    exact firstBlock_inside.mp (hlaid.inside _ (List.mem_singleton_self _))
  · intro hfits
    refine ⟨fun a ha => ?_, List.pairwise_singleton _ _⟩
    rw [List.mem_singleton.mp ha]
    exact firstBlock_inside.mpr hfits

theorem not_laid_two {size' : UInt64} {blocks : List Allocation} :
    ¬ Laid arena (firstBlock size' :: firstBlock size :: blocks) := by
  intro hlaid
  have hdisjoint := (List.pairwise_cons.mp hlaid.disjoint).1 _ List.mem_cons_self
  have hmem : ∀ size, 0 ∈ (firstBlock size).bytes := by
    intro size
    rw [bytes_firstBlock]
    exact Or.inl ⟨le_rfl, by decide⟩
  exact Set.disjoint_left.mp hdisjoint (hmem size') (hmem size)

theorem serves_iff_oneBlock (h : OneBlock arena gpa) (requests : List UInt64) :
    Serves arena gpa requests ↔ requests = [] ∨ ∃ size, requests = [size] ∧ Fits arena size := by
  constructor
  · intro hserves
    obtain ⟨fuel, hfollows⟩ := hserves
    cases requests with
    | nil => exact Or.inl rfl
    | cons size rest =>
      obtain ⟨_, answer, gpa', halloc, hmeets, hrest⟩ := hfollows
      obtain ⟨_, rfl, rfl⟩ := gpaAlloc_eq_some h halloc
      cases rest with
      | nil => exact Or.inr ⟨size, rfl, laid_single.mp hmeets.2⟩
      | cons size' rest =>
        obtain ⟨_, answer, gpa', halloc', hmeets', _⟩ := hrest
        obtain ⟨_, rfl, rfl⟩ := gpaAlloc_eq_some h halloc'
        exact absurd hmeets'.2 not_laid_two
  · intro hor
    rcases hor with rfl | ⟨size, rfl, hfits⟩
    · exact ⟨0, trivial⟩
    · obtain ⟨hle, hroom⟩ := fits_le hfits
      refine ⟨1, trivial, _, gpa, gpaAlloc_fits h hle 0, ⟨fun hnot => ?_, laid_single.mpr hfits⟩,
        trivial⟩
      exact absurd ⟨0, _, h.node, hroom⟩ hnot

end

/-- On a new allocator, each request is answered as it should be in exactly the runs of at most
one request, which leaves room for eight headers or is for no byte. -/
theorem serves_iff_single (arena : UInt64) (requests : List UInt64) :
    ∃ gpa, gpaCreate arena = some gpa ∧ (Serves arena gpa requests ↔
      requests = [] ∨ ∃ size, requests = [size] ∧ Fits arena size) := by
  obtain ⟨gpa, hcreate, h⟩ := oneBlock_create arena
  exact ⟨gpa, hcreate, serves_iff_oneBlock h requests⟩

/-- An arena of 64 bytes never answers a request for 100. -/
theorem large_request_unanswered : ∃ gpa, gpaCreate 64 = some gpa ∧
    (∀ fuel, gpaAlloc fuel gpa 100 = none) ∧ ¬ Serves 64 gpa [100] := by
  obtain ⟨gpa, hcreate, h⟩ := oneBlock_create 64
  have hnone := @gpaAlloc_tooLarge 64 100 gpa h (by decide)
  refine ⟨gpa, hcreate, hnone, fun hserves => ?_⟩
  obtain ⟨fuel, _, answer, gpa', halloc, _⟩ := hserves
  rw [hnone fuel] at halloc
  cases halloc

end Cerverus.Gpa
