import Cerverus.Darray

/-!
# Runs of additions

A caller keeps the handle the last addition returned. From an initial size of at least 1, the
size stays above the length, as each resize doubles it in time; 0 doubles to 0, and the first
element is written past the end. So it is where the byte count of a block wraps, which happens at
the start or not before the elements take up half of the memory.
-/
namespace Cerverus.Darray
open GuardedRun

variable {α : Type}

abbrev Handle (α : Type) := ArrayHeap α × ℕ

def created (heap : ArrayHeap α) (size stride : UInt64) : Option (Handle α) :=
  (darrayCreate heap size stride).map Prod.swap

def addStep (s : Handle α) (element : α) : Option (Handle α) :=
  (darrayAdd s.1 s.2 element).map Prod.swap

def additions (heap : ArrayHeap α) (size stride : UInt64) (elements : List α) :
    Option (Handle α) :=
  (created heap size stride).bind fun s => run addStep s elements

/-- The array the next element is copied into. -/
def copyTarget (s : Handle α) : Option (DarrayHeader α) :=
  (darrayGrow s.1 s.2).bind fun r => r.2.arrays r.1

/-- The next element is copied to an index below the size, and into the block. -/
def CopiesInside (s : Handle α) : Prop :=
  ∃ header, copyTarget s = some header ∧ header.length < header.size ∧
    header.HasRoom header.offset header.stride

/-- In a run of additions, every copy is made below the size, and after each call the array
holds the elements added so far. -/
structure WithinSize (heap : ArrayHeap α) (size stride : UInt64) (elements : List α) : Prop where
  copies : ∀ added element, added ++ [element] <+: elements →
    ∃ t, additions heap size stride added = some t ∧ CopiesInside t
  contents : ∀ added, added <+: elements →
    ∃ t header, additions heap size stride added = some t ∧ t.1.arrays t.2 = some header ∧
      header.length.toNat = added.length ∧ header.data = added ∧ header.length ≤ header.size

/-! ## Sizes -/

def grow (size length : ℕ) : ℕ := if size ≤ length + 1 then size * 2 else size

def grown (size : ℕ) : ℕ → ℕ
  | 0 => size
  | n + 1 => grow (grown size n) n

/-- The block of a size has room for so many elements. -/
def Fits (stride size length : ℕ) : Prop :=
  size < 2 ^ 64 ∧ 24 + stride * length ≤ byteCount stride size

section
variable {size n : ℕ}

/-- The size is above the length, and at most its double once the array has moved. -/
theorem grown_spec (hsize : 0 < size) (n : ℕ) :
    n < grown size n ∧ ∃ j, grown size n = size * 2 ^ j ∧ (j = 0 ∨ grown size n ≤ 2 * n) := by
  induction n with
  | zero => exact ⟨hsize, 0, (Nat.mul_one size).symm, Or.inl rfl⟩
  | succ n ih =>
    obtain ⟨hlt, j, hj, hle⟩ := ih
    rw [grown, grow]
    split_ifs with hfull
    · exact ⟨by omega, j + 1, by rw [hj, pow_succ, Nat.mul_assoc], Or.inr (by omega)⟩
    · exact ⟨by omega, j, hj, hle.imp_right fun h => by omega⟩

theorem grown_isLeast (hsize : 0 < size) (n : ℕ) :
    IsLeast {s | n < s ∧ ∃ j, s = size * 2 ^ j} (grown size n) := by
  obtain ⟨hlt, j, hj, hle⟩ := grown_spec hsize n
  refine ⟨⟨hlt, j, hj⟩, fun s hs => ?_⟩
  obtain ⟨hns, i, rfl⟩ := hs
  rw [hj]
  by_cases hij : j ≤ i
  · exact Nat.mul_le_mul_left _ (Nat.pow_le_pow_right two_pos hij)
  · have hdouble : size * 2 ^ i * 2 ≤ size * 2 ^ j := by
      rw [Nat.mul_assoc, ← pow_succ]
      exact Nat.mul_le_mul_left _ (Nat.pow_le_pow_right two_pos (not_le.mp hij))
    omega

/-- If the last block has room, so had those before: a block that has been moved into has a byte
count that does not wrap. -/
theorem fits_pred {stride : ℕ} (hsize : 0 < size)
    (h : Fits stride (grown size (n + 1)) (n + 1)) : Fits stride (grown size n) n := by
  obtain ⟨hlt, hroom⟩ := h
  have hbelow := (grown_spec hsize n).1
  have hless : stride * n ≤ stride * (n + 1) := Nat.mul_le_mul_left _ (Nat.le_succ n)
  rw [grown, grow] at hlt hroom
  split_ifs at hlt hroom with hfull
  · have hhalf : stride * grown size n ≤ stride * (n + 1) := Nat.mul_le_mul_left _ hfull
    have hthis : stride * n ≤ stride * grown size n := Nat.mul_le_mul_left _ hbelow.le
    refine ⟨by omega, ?_⟩
    unfold byteCount at hroom ⊢
    rw [← Nat.mul_assoc] at hroom
    omega
  · exact ⟨hlt, (Nat.add_le_add_left hless _).trans hroom⟩

theorem fits_of_le {stride m : ℕ} (hsize : 0 < size) (hle : m ≤ n)
    (h : Fits stride (grown size n) n) : Fits stride (grown size m) m := by
  induction hle with
  | refl => exact h
  | step _ ih => exact ih (fits_pred hsize h)

end

/-! ## Steps -/

/-- The handle is that of an array of a size above the elements in it. -/
structure Holding (s : Handle α) (k : UInt64) (n : ℕ) (elements : List α) : Prop where
  array : ∃ header, s.1.arrays s.2 = some header ∧ Describes header k n elements
  above : elements.length < n
  lt : s.2 < s.1.fresh

section
variable {s : Handle α} {heap : ArrayHeap α} {size stride : UInt64} {n : ℕ}
  {elements added : List α}

theorem copiesInside_of_target {header : DarrayHeader α} (htarget : copyTarget s = some header)
    (h : Describes header stride n elements) (hlen : elements.length < 2 ^ 64) :
    CopiesInside s ↔ elements.length < n ∧
      24 + stride.toNat * (elements.length + 1) ≤ byteCount stride.toNat n := by
  rw [← h.hasRoom, ← h.size, ← h.length hlen, ← UInt64.lt_iff_toNat_lt]
  simp [CopiesInside, htarget]

theorem copiesInside_iff (h : Holding s stride n elements) :
    CopiesInside s ↔ Fits stride.toNat (grow n elements.length) (elements.length + 1) := by
  obtain ⟨header, harray, hd⟩ := h.array
  have habove := h.above
  have hsize : n < 2 ^ 64 := hd.size ▸ header.size.toNat_lt
  have hlen : elements.length + 1 < 2 ^ 64 := by omega
  rw [grow]
  split_ifs with hfull
  · have hcopied : stride.toNat * elements.length ≤ stride.toNat * (elements.length + 1) :=
      Nat.mul_le_mul_left _ (Nat.le_succ _)
    by_cases hroom : 24 + stride.toNat * elements.length ≤
        byteCount stride.toNat (n * 2 % 2 ^ 64)
    · obtain ⟨moved, hmoved, hgrow⟩ := darrayGrow_moves harray hd hlen hfull h.lt.ne hroom
      have htarget : copyTarget s = some moved := by
        simp only [copyTarget, hgrow, Option.bind_some, Function.update_of_ne h.lt.ne',
          Function.update_self]
      rw [copiesInside_of_target htarget hmoved (by omega), Fits]
      constructor
      · intro hand
        have hwrap : n * 2 < 2 ^ 64 := by omega
        rw [Nat.mod_eq_of_lt hwrap] at hand
        exact ⟨hwrap, hand.2⟩
      · intro hand
        rw [Nat.mod_eq_of_lt hand.1]
        exact ⟨by omega, hand.2⟩
    · have hnone : copyTarget s = none := by
        rw [copyTarget, darrayGrow_full harray hd hlen hfull, darrayResize_none harray,
          Option.bind_none]
        rwa [hd.doubled, hd.stride, hd.data]
      refine iff_of_false (fun hex => ?_) fun hfits => hroom ?_
      · obtain ⟨_, htarget, _⟩ := hex
        cases hnone.symm.trans htarget
      · rw [Nat.mod_eq_of_lt hfits.1]
        exact (Nat.add_le_add_left hcopied _).trans hfits.2
  · have htarget : copyTarget s = some header := by
      simp only [copyTarget, darrayGrow_room harray hd hlen (not_le.mp hfull), Option.bind_some,
        harray]
    rw [copiesInside_of_target htarget hd (by omega), Fits]
    exact and_congr_left' (iff_of_true habove hsize)

theorem addStep_holding (h : Holding s stride n elements) (element : α)
    (hfits : Fits stride.toNat (grow n elements.length) (elements.length + 1)) :
    ∃ t, addStep s element = some t ∧
      Holding t stride (grow n elements.length) (elements ++ [element]) := by
  obtain ⟨header, harray, hd⟩ := h.array
  have habove := h.above
  have hsize : n < 2 ^ 64 := hd.size ▸ header.size.toNat_lt
  have hlen : elements.length + 1 < 2 ^ 64 := by omega
  obtain ⟨hwrap, hroom⟩ := hfits
  have hlength : (elements ++ [element]).length = elements.length + 1 := by simp
  rw [grow] at hwrap hroom ⊢
  split_ifs at hwrap hroom ⊢ with hfull
  · have hmod : n * 2 % 2 ^ 64 = n * 2 := Nat.mod_eq_of_lt hwrap
    obtain ⟨header', hd', hadd⟩ := darrayAdd_full harray hd hlen hfull h.lt.ne
      (hmod.symm ▸ hroom) element
    rw [hmod] at hd'
    refine ⟨⟨⟨Function.update (Function.update s.1.arrays s.1.fresh (some header')) s.2 none,
      s.1.fresh + 1⟩, s.1.fresh⟩, ?_, ⟨header', ?_, hd'⟩, by omega, Nat.lt_succ_self _⟩
    · simp only [addStep, hadd, Option.map_some, Prod.swap_prod_mk]
    · exact (Function.update_of_ne h.lt.ne' _ _).trans (Function.update_self _ _ _)
  · obtain ⟨header', hd', hadd⟩ :=
      darrayAdd_room harray hd hlen (not_le.mp hfull) hroom element
    refine ⟨⟨⟨Function.update s.1.arrays s.2 (some header'), s.1.fresh⟩, s.2⟩, ?_,
      ⟨header', Function.update_self _ _ _, hd'⟩, by omega, h.lt⟩
    simp only [addStep, hadd, Option.map_some, Prod.swap_prod_mk]

/-! ## Runs -/

theorem created_room (heap : ArrayHeap α)
    (hroom : 24 ≤ byteCount stride.toNat size.toNat) :
    ∃ header, Describes header stride size.toNat [] ∧ created heap size stride =
      some (⟨Function.update heap.arrays heap.fresh (some header), heap.fresh + 1⟩, heap.fresh) := by
  obtain ⟨header, hd, hcreate⟩ := darrayCreate_room heap hroom
  exact ⟨header, hd, by simp only [created, hcreate, Option.map_some, Prod.swap_prod_mk]⟩

theorem created_holding (heap : ArrayHeap α) (hsize : 0 < size.toNat)
    (hfits : Fits stride.toNat size.toNat 0) :
    ∃ s, created heap size stride = some s ∧ Holding s stride size.toNat ([] : List α) := by
  obtain ⟨header, hd, hcreated⟩ := created_room heap hfits.2
  exact ⟨_, hcreated, ⟨header, Function.update_self _ _ _, hd⟩, hsize, Nat.lt_succ_self _⟩

theorem additions_snoc (heap : ArrayHeap α) (size stride : UInt64) (elements : List α)
    (element : α) : additions heap size stride (elements ++ [element]) =
      (additions heap size stride elements).bind fun s => addStep s element := by
  simp only [additions, Option.bind_assoc]
  refine congrArg (Option.bind _) (funext fun s => ?_)
  rw [run_append]
  refine congrArg (Option.bind _) (funext fun t => ?_)
  cases hadd : addStep t element with
  | none => simp [run, hadd]
  | some u => rw [run_cons [] hadd]; rfl

/-- As long as there is room, a run goes through. -/
theorem additions_holding (heap : ArrayHeap α) (hsize : 0 < size.toNat) (elements : List α)
    (hfits : Fits stride.toNat (grown size.toNat elements.length) elements.length) :
    ∃ t, additions heap size stride elements = some t ∧
      Holding t stride (grown size.toNat elements.length) elements := by
  induction elements using List.reverseRecOn with
  | nil =>
    obtain ⟨s, hs, hheld⟩ := created_holding heap hsize hfits
    exact ⟨s, by rw [additions, hs]; rfl, hheld⟩
  | append_singleton elements element ih =>
    have hlength : (elements ++ [element]).length = elements.length + 1 := by simp
    rw [hlength] at hfits ⊢
    obtain ⟨t, ht, hheld⟩ := ih (fits_pred hsize hfits)
    obtain ⟨u, hadd, hheld'⟩ := addStep_holding hheld element hfits
    exact ⟨u, by rw [additions_snoc, ht]; exact hadd, hheld'⟩

theorem Holding.contents (h : Holding s stride n elements) :
    ∃ header, s.1.arrays s.2 = some header ∧ header.length.toNat = elements.length ∧
      header.data = elements ∧ header.length ≤ header.size := by
  obtain ⟨header, harray, hd⟩ := h.array
  have habove := h.above
  have hsize : n < 2 ^ 64 := hd.size ▸ header.size.toNat_lt
  have hlen := hd.length (by omega)
  refine ⟨header, harray, hlen, hd.data, ?_⟩
  rw [UInt64.le_iff_toNat_le, hlen, hd.size]
  exact habove.le

theorem withinSize_of_fits (heap : ArrayHeap α) (hsize : 0 < size.toNat)
    (hfits : Fits stride.toNat (grown size.toNat elements.length) elements.length) :
    WithinSize heap size stride elements := by
  refine ⟨fun added element hpre => ?_, fun added hpre => ?_⟩
  · have hnext := fits_of_le hsize (hpre.length_le) hfits
    rw [List.length_append, List.length_singleton] at hnext
    obtain ⟨t, ht, hheld⟩ := additions_holding heap hsize added (fits_pred hsize hnext)
    exact ⟨t, ht, (copiesInside_iff hheld).mpr hnext⟩
  · obtain ⟨t, ht, hheld⟩ :=
      additions_holding heap hsize added (fits_of_le hsize hpre.length_le hfits)
    obtain ⟨header, hcontents⟩ := hheld.contents
    exact ⟨t, header, ht, hcontents⟩

theorem fits_of_withinSize (hsize : 0 < size.toNat) (h : WithinSize heap size stride elements)
    (hpre : added <+: elements) :
    Fits stride.toNat (grown size.toNat added.length) added.length := by
  induction added using List.reverseRecOn with
  | nil =>
    obtain ⟨t, _, ht, _⟩ := h.contents [] hpre
    refine ⟨size.toNat_lt, ?_⟩
    by_contra hroom
    simp [additions, created, darrayCreate_none heap hroom] at ht
  | append_singleton added element ih =>
    have hfits := ih ((List.prefix_append added [element]).trans hpre)
    obtain ⟨t, ht, hheld⟩ := additions_holding heap hsize added hfits
    obtain ⟨t', ht', hcopies⟩ := h.copies added element hpre
    cases ht.symm.trans ht'
    rw [List.length_append, List.length_singleton]
    exact (copiesInside_iff hheld).mp hcopies

theorem byteCount_zero (stride : UInt64) : byteCount stride.toNat (0 : UInt64).toNat = 24 := rfl

theorem copyTarget_zero (heap : ArrayHeap α) (stride : UInt64) :
    ∃ s header, created heap 0 stride = some s ∧ copyTarget s = some header ∧
      header.size.toNat = 0 := by
  obtain ⟨header, hd, hcreated⟩ := created_room heap (byteCount_zero stride).ge
  let heap' : ArrayHeap α :=
    ⟨Function.update heap.arrays heap.fresh (some header), heap.fresh + 1⟩
  have harray : heap'.arrays heap.fresh = some header := Function.update_self _ _ _
  have hne : heap.fresh ≠ heap'.fresh := (Nat.lt_succ_self heap.fresh).ne
  obtain ⟨moved, hmoved, hgrow⟩ := darrayGrow_moves harray hd (by simp) (Nat.zero_le _) hne
    (byteCount_zero stride).ge
  refine ⟨(heap', heap.fresh), moved, hcreated, ?_, hmoved.size⟩
  simp only [copyTarget, hgrow, Option.bind_some, Function.update_of_ne hne.symm,
    Function.update_self]

theorem not_withinSize_zero (heap : ArrayHeap α) (stride : UInt64) (element : α)
    (elements : List α) : ¬ WithinSize heap 0 stride (element :: elements) := by
  intro h
  obtain ⟨s, header, hs, htarget, hzero⟩ := copyTarget_zero heap stride
  obtain ⟨t, ht, header', htarget', hlt, _⟩ := h.copies [] element ⟨elements, rfl⟩
  have hst : s = t := by simpa [additions, hs, run] using ht
  rw [← hst, htarget] at htarget'
  cases htarget'
  rw [UInt64.lt_iff_toNat_lt, hzero] at hlt
  exact Nat.not_lt_zero _ hlt

theorem withinSize_zero (heap : ArrayHeap α) (stride : UInt64) :
    WithinSize heap 0 stride ([] : List α) := by
  refine ⟨fun added element hpre => by simp at hpre, fun added hpre => ?_⟩
  cases List.prefix_nil.mp hpre
  obtain ⟨header, hd, hcreated⟩ := created_room heap (byteCount_zero stride).ge
  have hlen := hd.length (by simp)
  refine ⟨_, header, (congrArg (Option.bind · _) hcreated).trans rfl,
    Function.update_self _ _ _, hlen, hd.data, ?_⟩
  rw [UInt64.le_iff_toNat_le, hlen]
  exact Nat.zero_le _

end

/-- A new array stays within its size in exactly the runs that add nothing to an array of size
0, or in which the least of `size`, `2 * size`, `4 * size`, … above the number of elements is a
`size_t` and its block, of that many bytes, has room for them. -/
theorem withinSize_iff (heap : ArrayHeap α) (size stride : UInt64) (elements : List α) :
    WithinSize heap size stride elements ↔ (size = 0 ∧ elements = []) ∨
      ∃ s, IsLeast {s | elements.length < s ∧ ∃ j, s = size.toNat * 2 ^ j} s ∧ s < 2 ^ 64 ∧
        24 + stride.toNat * elements.length ≤ (24 + stride.toNat * s) % 2 ^ 64 := by
  by_cases hzero : size = 0
  · subst hzero
    constructor
    · intro h
      cases elements with
      | nil => exact Or.inl ⟨rfl, rfl⟩
      | cons element elements => exact absurd h (not_withinSize_zero heap stride element elements)
    · intro hor
      rcases hor with ⟨_, rfl⟩ | ⟨s, ⟨⟨hlt, j, rfl⟩, _⟩, _⟩
      · exact withinSize_zero heap stride
      · simp at hlt
  · have hsize : 0 < size.toNat := by
      rw [Nat.pos_iff_ne_zero]
      exact fun h => hzero (UInt64.toNat_inj.mp h)
    have hleast := grown_isLeast hsize elements.length
    constructor
    · intro h
      exact Or.inr ⟨_, hleast, fits_of_withinSize hsize h (List.prefix_refl _)⟩
    · intro hor
      obtain ⟨s, hs, hfits⟩ := hor.resolve_left fun hand => hzero hand.1
      rw [hs.unique hleast] at hfits
      exact withinSize_of_fits heap hsize hfits

/-- From size 0, the first element is written past the end. -/
theorem zero_size_overruns :
    (∃ s header, created (emptyHeap : ArrayHeap ℕ) 0 8 = some s ∧ copyTarget s = some header ∧
      header.size.toNat = 0) ∧ ¬ WithinSize (emptyHeap : ArrayHeap ℕ) 0 8 [7] :=
  ⟨copyTarget_zero _ _, not_withinSize_zero _ _ _ _⟩

/-- The block of 2⁶¹ elements of 8 bytes has no byte for any of them. -/
theorem wrapped_size_overruns : byteCount 8 2305843009213693952 = 24 ∧
    ¬ WithinSize (emptyHeap : ArrayHeap ℕ) 2305843009213693952 8 [7] := by
  refine ⟨by decide, fun h => ?_⟩
  have hfits : Fits 8 2305843009213693952 1 :=
    fits_of_withinSize (by decide) h (List.prefix_refl _)
  exact absurd hfits.2 (by decide)

/-- An array of at least one element stays within its size as long as its initial size, or twice
its elements if that is more, take up less than the memory there is. -/
theorem withinSize_of_max (heap : ArrayHeap α) {size stride : UInt64} {elements : List α}
    (hsize : 0 < size.toNat)
    (hfits : Unwrapped stride.toNat (max size.toNat (2 * elements.length))) :
    WithinSize heap size stride elements := by
  obtain ⟨habove, j, hj, hle⟩ := grown_spec hsize elements.length
  have hmax : grown size.toNat elements.length ≤ max size.toNat (2 * elements.length) := by
    rcases hle with rfl | hle
    · rw [hj, pow_zero, Nat.mul_one]
      exact le_max_left _ _
    · exact hle.trans (le_max_right _ _)
  have hbytes : stride.toNat * grown size.toNat elements.length ≤
      stride.toNat * max size.toNat (2 * elements.length) := Nat.mul_le_mul_left _ hmax
  have hunwrapped : Unwrapped stride.toNat (grown size.toNat elements.length) :=
    ⟨hmax.trans_lt hfits.1, (Nat.add_le_add_left hbytes 24).trans_lt hfits.2⟩
  refine withinSize_of_fits heap hsize ⟨hunwrapped.1, ?_⟩
  rw [byteCount_eq hunwrapped]
  exact Nat.add_le_add_left (Nat.mul_le_mul_left _ habove.le) _

end Cerverus.Darray
