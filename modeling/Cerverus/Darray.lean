import Cerverus.GrowableArray
import Cerverus.Refinement

/-!
# Dynamic arrays

An array lies behind its header in a block from `malloc`. The number of bytes of the block and
the offset of an element are `size_t` and wrap. A function returns `none` where it would use a
freed array, or write outside a block. As long as the byte counts do not wrap, these are the
growable arrays.
-/
namespace Cerverus.Darray

variable {α : Type}

/-- `sizeof(darray_header)`. -/
def headerBytes : UInt64 := 24

/-- `bytes` is what `malloc` was asked for, and `data` the elements copied in. -/
structure DarrayHeader (α : Type) where
  size : UInt64
  stride : UInt64
  bytes : UInt64
  data : List α
  fits : headerBytes.toNat + stride.toNat * data.length ≤ bytes.toNat

structure ArrayHeap (α : Type) where
  arrays : ℕ → Option (DarrayHeader α)
  fresh : ℕ

def emptyHeap : ArrayHeap α := ⟨fun _ => none, 0⟩

namespace DarrayHeader
variable {header : DarrayHeader α}

def length (header : DarrayHeader α) : UInt64 := .ofNat header.data.length

def offset (header : DarrayHeader α) : UInt64 := header.stride * header.length

/-- The block has `count` bytes from `offset` on. -/
def HasRoom (header : DarrayHeader α) (offset count : UInt64) : Prop :=
  headerBytes.toNat + offset.toNat + count.toNat ≤ header.bytes.toNat

instance decidableHasRoom (header : DarrayHeader α) (offset count : UInt64) :
    Decidable (header.HasRoom offset count) :=
  inferInstanceAs (Decidable (_ ≤ _))

theorem offset_toNat (header : DarrayHeader α) :
    header.offset.toNat = header.stride.toNat * header.data.length := by
  have hfits := header.fits
  have hbytes := header.bytes.toNat_lt
  rw [offset, length, UInt64.toNat_mul, UInt64.toNat_ofNat', Nat.mul_mod_mod]
  exact Nat.mod_eq_of_lt (by omega)

theorem fits_copied {new old : DarrayHeader α} (h : new.HasRoom 0 old.offset) :
    headerBytes.toNat + old.stride.toNat * old.data.length ≤ new.bytes.toNat := by
  rw [← offset_toNat]
  exact h

theorem fits_append (h : header.HasRoom header.offset header.stride) (element : α) :
    headerBytes.toNat + header.stride.toNat * (header.data ++ [element]).length ≤
      header.bytes.toNat := by
  rw [HasRoom, offset_toNat, Nat.add_assoc] at h
  rwa [List.length_append, List.length_singleton, Nat.mul_succ]

end DarrayHeader

/-- `cmem_zmem` clears the block that was asked for; the header must fit in it. -/
def darrayCreate (heap : ArrayHeap α) (size stride : UInt64) : Option (ℕ × ArrayHeap α) :=
  let tempSize := headerBytes + stride * size
  if h : headerBytes.toNat ≤ tempSize.toNat then
    let header : DarrayHeader α := ⟨size, stride, tempSize, [], h⟩
    some (heap.fresh, ⟨Function.update heap.arrays heap.fresh (some header), heap.fresh + 1⟩)
  else none

def darrayDestroy (heap : ArrayHeap α) (darr : ℕ) : Option (ArrayHeap α) :=
  (heap.arrays darr).map fun _ => { heap with arrays := Function.update heap.arrays darr none }

def darrayResize (heap : ArrayHeap α) (darr : ℕ) (newSize : UInt64) :
    Option (ℕ × ArrayHeap α) := do
  let old ← heap.arrays darr
  let (tempDarr, heap) ← darrayCreate heap newSize old.stride
  let temp ← heap.arrays tempDarr
  if h : temp.HasRoom 0 old.offset then
    let filled : DarrayHeader α :=
      ⟨newSize, old.stride, temp.bytes, old.data, DarrayHeader.fits_copied h⟩
    let arrays := Function.update heap.arrays tempDarr (some filled)
    (darrayDestroy { heap with arrays := arrays } darr).map fun heap => (tempDarr, heap)
  else none

/-- The start of `darray_add`. -/
def darrayGrow (heap : ArrayHeap α) (darr : ℕ) : Option (ℕ × ArrayHeap α) := do
  let header ← heap.arrays darr
  if header.length + 1 ≥ header.size then darrayResize heap darr (header.size * 2)
  else some (darr, heap)

/-- Its end, in the array that has been made room in. -/
def darrayAppend (heap : ArrayHeap α) (darr : ℕ) (element : α) : Option (ArrayHeap α) := do
  let header ← heap.arrays darr
  if h : header.HasRoom header.offset header.stride then
    let header : DarrayHeader α :=
      ⟨header.size, header.stride, header.bytes, header.data ++ [element],
        DarrayHeader.fits_append h element⟩
    some { heap with arrays := Function.update heap.arrays darr (some header) }
  else none

def darrayAdd (heap : ArrayHeap α) (darr : ℕ) (element : α) : Option (ℕ × ArrayHeap α) := do
  let (darr, heap) ← darrayGrow heap darr
  let heap ← darrayAppend heap darr element
  some (darr, heap)

def byteCount (stride size : ℕ) : ℕ := (24 + stride * size) % 2 ^ 64

/-- The header of an array that was created with a size, and the elements in it. -/
structure Describes (header : DarrayHeader α) (k : UInt64) (n : ℕ) (elements : List α) : Prop where
  size : header.size.toNat = n
  stride : header.stride = k
  bytes : header.bytes.toNat = byteCount k.toNat n
  data : header.data = elements

section
variable {heap : ArrayHeap α} {darr size : ℕ} {stride newSize : UInt64}
  {header old : DarrayHeader α} {elements : List α}

theorem toNat_tempSize (stride size : UInt64) :
    (headerBytes + stride * size).toNat = byteCount stride.toNat size.toNat := by
  rw [UInt64.toNat_add, UInt64.toNat_mul, Nat.add_mod_mod]
  rfl

theorem Describes.hasRoom (h : Describes header stride size elements) :
    header.HasRoom header.offset header.stride ↔
      24 + stride.toNat * (elements.length + 1) ≤ byteCount stride.toNat size := by
  rw [DarrayHeader.HasRoom, DarrayHeader.offset_toNat, h.bytes, h.stride, h.data, Nat.mul_succ,
    ← Nat.add_assoc]
  rfl

theorem Describes.length (h : Describes header stride size elements)
    (hlt : elements.length < 2 ^ 64) : header.length.toNat = elements.length := by
  rw [DarrayHeader.length, h.data, UInt64.toNat_ofNat', Nat.mod_eq_of_lt hlt]

theorem darrayCreate_room (heap : ArrayHeap α) {size stride : UInt64}
    (hroom : 24 ≤ byteCount stride.toNat size.toNat) :
    ∃ header, Describes header stride size.toNat [] ∧ darrayCreate heap size stride =
      some (heap.fresh,
        ⟨Function.update heap.arrays heap.fresh (some header), heap.fresh + 1⟩) := by
  have htemp := toNat_tempSize stride size
  have h : headerBytes.toNat ≤ (headerBytes + stride * size).toNat := htemp ▸ hroom
  exact ⟨⟨size, stride, _, [], h⟩, ⟨rfl, rfl, htemp, rfl⟩, dif_pos h⟩

theorem darrayCreate_none (heap : ArrayHeap α) {size stride : UInt64}
    (hroom : ¬ 24 ≤ byteCount stride.toNat size.toNat) : darrayCreate heap size stride = none :=
  dif_neg (toNat_tempSize stride size ▸ hroom)

theorem darrayResize_room (hold : heap.arrays darr = some old) (hne : darr ≠ heap.fresh)
    (hroom : 24 + old.stride.toNat * old.data.length ≤
      byteCount old.stride.toNat newSize.toNat) :
    ∃ header, Describes header old.stride newSize.toNat old.data ∧ darrayResize heap darr newSize =
      some (heap.fresh, ⟨Function.update
        (Function.update heap.arrays heap.fresh (some header)) darr none, heap.fresh + 1⟩) := by
  obtain ⟨temp, htemp, hcreate⟩ := darrayCreate_room heap (Nat.le_of_add_right_le hroom)
  have hcopy : temp.HasRoom 0 old.offset := by
    rw [DarrayHeader.HasRoom, DarrayHeader.offset_toNat, htemp.bytes]
    exact hroom
  refine ⟨⟨newSize, old.stride, temp.bytes, old.data, DarrayHeader.fits_copied hcopy⟩,
    ⟨rfl, rfl, htemp.bytes, rfl⟩, ?_⟩
  simp [darrayResize, hold, hcreate, hcopy, darrayDestroy, Function.update_of_ne hne]

theorem darrayResize_none (hold : heap.arrays darr = some old)
    (hroom : ¬ 24 + old.stride.toNat * old.data.length ≤
      byteCount old.stride.toNat newSize.toNat) : darrayResize heap darr newSize = none := by
  by_cases hcreated : 24 ≤ byteCount old.stride.toNat newSize.toNat
  · obtain ⟨temp, htemp, hcreate⟩ := darrayCreate_room heap hcreated
    have hcopy : ¬ temp.HasRoom 0 old.offset := by
      rw [DarrayHeader.HasRoom, DarrayHeader.offset_toNat, htemp.bytes]
      exact hroom
    simp [darrayResize, hold, hcreate, hcopy]
  · simp [darrayResize, hold, darrayCreate_none heap hcreated]

theorem darrayGrow_room (harray : heap.arrays darr = some header)
    (h : Describes header stride size elements) (hlen : elements.length + 1 < 2 ^ 64)
    (hroom : elements.length + 1 < size) : darrayGrow heap darr = some (darr, heap) := by
  have hcmp : ¬ header.length + 1 ≥ header.size := by
    rw [ge_iff_le, UInt64.le_iff_toNat_le, UInt64.toNat_add, h.length (by omega), h.size,
      UInt64.toNat_one, Nat.mod_eq_of_lt hlen]
    omega
  simp [darrayGrow, harray, hcmp]

theorem darrayGrow_full (harray : heap.arrays darr = some header)
    (h : Describes header stride size elements) (hlen : elements.length + 1 < 2 ^ 64)
    (hfull : size ≤ elements.length + 1) :
    darrayGrow heap darr = darrayResize heap darr (header.size * 2) := by
  have hcmp : header.length + 1 ≥ header.size := by
    rw [ge_iff_le, UInt64.le_iff_toNat_le, UInt64.toNat_add, h.length (by omega), h.size,
      UInt64.toNat_one, Nat.mod_eq_of_lt hlen]
    exact hfull
  simp [darrayGrow, harray, hcmp]

theorem Describes.doubled (h : Describes header stride size elements) :
    (header.size * 2).toNat = size * 2 % 2 ^ 64 := by
  rw [UInt64.toNat_mul, h.size]
  rfl

theorem darrayAppend_room (harray : heap.arrays darr = some header)
    (h : Describes header stride size elements)
    (hroom : 24 + stride.toNat * (elements.length + 1) ≤ byteCount stride.toNat size)
    (element : α) :
    ∃ header', Describes header' stride size (elements ++ [element]) ∧
      darrayAppend heap darr element =
        some { heap with arrays := Function.update heap.arrays darr (some header') } := by
  have hcopy := h.hasRoom.mpr hroom
  refine ⟨⟨header.size, header.stride, header.bytes, header.data ++ [element],
    DarrayHeader.fits_append hcopy element⟩,
    ⟨h.size, h.stride, h.bytes, congrArg (· ++ [element]) h.data⟩, ?_⟩
  simp [darrayAppend, harray, hcopy]

theorem darrayGrow_moves (harray : heap.arrays darr = some header)
    (h : Describes header stride size elements) (hlen : elements.length + 1 < 2 ^ 64)
    (hfull : size ≤ elements.length + 1) (hne : darr ≠ heap.fresh)
    (hroom : 24 + stride.toNat * elements.length ≤
      byteCount stride.toNat (size * 2 % 2 ^ 64)) :
    ∃ moved, Describes moved stride (size * 2 % 2 ^ 64) elements ∧ darrayGrow heap darr =
      some (heap.fresh, ⟨Function.update
        (Function.update heap.arrays heap.fresh (some moved)) darr none, heap.fresh + 1⟩) := by
  rw [← h.doubled, ← h.stride, ← h.data] at hroom
  obtain ⟨moved, hmoved, hresize⟩ := darrayResize_room harray hne hroom
  rw [h.doubled, h.stride, h.data] at hmoved
  exact ⟨moved, hmoved, (darrayGrow_full harray h hlen hfull).trans hresize⟩

theorem darrayAdd_room (harray : heap.arrays darr = some header)
    (h : Describes header stride size elements) (hlen : elements.length + 1 < 2 ^ 64)
    (hfree : elements.length + 1 < size)
    (hroom : 24 + stride.toNat * (elements.length + 1) ≤ byteCount stride.toNat size)
    (element : α) :
    ∃ header', Describes header' stride size (elements ++ [element]) ∧
      darrayAdd heap darr element =
        some (darr, ⟨Function.update heap.arrays darr (some header'), heap.fresh⟩) := by
  obtain ⟨header', hd, happend⟩ := darrayAppend_room harray h hroom element
  refine ⟨header', hd, ?_⟩
  simp [darrayAdd, darrayGrow_room harray h hlen hfree, happend]

theorem darrayAdd_full (harray : heap.arrays darr = some header)
    (h : Describes header stride size elements) (hlen : elements.length + 1 < 2 ^ 64)
    (hfull : size ≤ elements.length + 1) (hne : darr ≠ heap.fresh)
    (hroom : 24 + stride.toNat * (elements.length + 1) ≤
      byteCount stride.toNat (size * 2 % 2 ^ 64)) (element : α) :
    ∃ header', Describes header' stride (size * 2 % 2 ^ 64) (elements ++ [element]) ∧
      darrayAdd heap darr element = some (heap.fresh, ⟨Function.update
        (Function.update heap.arrays heap.fresh (some header')) darr none, heap.fresh + 1⟩) := by
  obtain ⟨moved, hmoved, hgrow⟩ := darrayGrow_moves harray h hlen hfull hne
    ((Nat.add_le_add_left (Nat.mul_le_mul_left _ (Nat.le_succ _)) _).trans hroom)
  let heap' : ArrayHeap α :=
    ⟨Function.update (Function.update heap.arrays heap.fresh (some moved)) darr none,
      heap.fresh + 1⟩
  have harray' : heap'.arrays heap.fresh = some moved :=
    (Function.update_of_ne hne.symm _ _).trans (Function.update_self _ _ _)
  obtain ⟨header', hd, happend⟩ := darrayAppend_room harray' hmoved hroom element
  refine ⟨header', hd, ?_⟩
  simp only [darrayAdd, hgrow, happend, Option.bind_eq_bind, Option.bind_some, heap']
  rw [Function.update_comm hne, Function.update_idem]

end

/-! ## Growable arrays -/

/-- The size and its byte count do not wrap. -/
def Unwrapped (stride size : ℕ) : Prop := size < 2 ^ 64 ∧ 24 + stride * size < 2 ^ 64

instance decidableUnwrapped (stride size : ℕ) : Decidable (Unwrapped stride size) :=
  inferInstanceAs (Decidable (_ ∧ _))

theorem byteCount_eq {stride size : ℕ} (h : Unwrapped stride size) :
    byteCount stride size = 24 + stride * size := Nat.mod_eq_of_lt h.2

/-- A block whose byte count has not wrapped is an array of that size. -/
structure Shows (k : UInt64) (block : Option (DarrayHeader α))
    (array : Option (GrowableArray.ArrayHeader α)) : Prop where
  array_eq : array = block.map fun header => ⟨header.size.toNat, header.data⟩
  whole : ∀ header ∈ block, header.stride = k ∧
    header.bytes.toNat = 24 + k.toNat * header.size.toNat

/-- The heap is one of growable arrays. -/
structure Models (k : UInt64) (heap : ArrayHeap α) (arrays : GrowableArray.ArrayHeap α) :
    Prop where
  shows : ∀ darr, Shows k (heap.arrays darr) (arrays.arrays darr)
  fresh_eq : arrays.fresh = heap.fresh
  unused : ∀ darr, heap.fresh ≤ darr → heap.arrays darr = none

/-- The calls of a client whose elements all have the same size. -/
inductive ArrayCall (α : Type)
  | create (size : UInt64)
  | add (darr : ℕ) (element : α)

def darrayCall (k : UInt64) (heap : ArrayHeap α) : ArrayCall α → Option (ℕ × ArrayHeap α)
  | .create size => darrayCreate heap size k
  | .add darr element => darrayAdd heap darr element

/-- The same calls on growable arrays, as long as no byte count wraps. -/
def arrayCall (k : UInt64) (arrays : GrowableArray.ArrayHeap α) :
    ArrayCall α → Option (ℕ × GrowableArray.ArrayHeap α)
  | .create size =>
    if Unwrapped k.toNat size.toNat then some (GrowableArray.arrayCreate arrays size.toNat)
    else none
  | .add darr element => (arrays.arrays darr).bind fun array =>
    if array.data.length + 1 < array.size ∨ Unwrapped k.toNat (array.size * 2) then
      GrowableArray.arrayAdd arrays darr element
    else none

section
variable {heap : ArrayHeap α} {arrays arrays' : GrowableArray.ArrayHeap α} {darr darr' n : ℕ}
  {header : DarrayHeader α} {elements : List α} {k : UInt64}

theorem shows_none : Shows k (none : Option (DarrayHeader α)) none := ⟨rfl, by simp⟩

theorem shows_some (h : Describes header k n elements) (hfits : Unwrapped k.toNat n) :
    Shows k (some header) (some ⟨n, elements⟩) := by
  refine ⟨by rw [Option.map_some, h.size, h.data], fun header' hheader' => ?_⟩
  cases hheader'
  exact ⟨h.stride, by rw [h.bytes, h.size, byteCount_eq hfits]⟩

theorem models_empty (k : UInt64) :
    Models k (emptyHeap : ArrayHeap α) GrowableArray.emptyHeap :=
  ⟨fun _ => shows_none, rfl, fun _ _ => rfl⟩

theorem Models.describes (h : Models k heap arrays) {array : GrowableArray.ArrayHeader α}
    (harray : arrays.arrays darr = some array) :
    ∃ header, heap.arrays darr = some header ∧ Describes header k array.size array.data ∧
      Unwrapped k.toNat array.size := by
  obtain ⟨hshow, hwhole⟩ := h.shows darr
  obtain ⟨header, hheader, rfl⟩ := Option.map_eq_some_iff.mp (hshow.symm.trans harray)
  obtain ⟨hstride, hbytes⟩ := hwhole header hheader
  have hfits : Unwrapped k.toNat header.size.toNat :=
    ⟨header.size.toNat_lt, hbytes ▸ header.bytes.toNat_lt⟩
  exact ⟨header, hheader, ⟨rfl, hstride, hbytes.trans (byteCount_eq hfits).symm, rfl⟩, hfits⟩

theorem Models.update (h : Models k heap arrays) {block : Option (DarrayHeader α)}
    {array : Option (GrowableArray.ArrayHeader α)} (hshow : Shows k block array)
    (hlt : darr < heap.fresh) :
    Models k ⟨Function.update heap.arrays darr block, heap.fresh⟩
      ⟨Function.update arrays.arrays darr array, arrays.fresh⟩ := by
  refine ⟨fun a => ?_, h.fresh_eq, fun a hle => ?_⟩
  · by_cases had : a = darr
    · simp only [had, Function.update_self]
      exact hshow
    · simp only [Function.update_of_ne had]
      exact h.shows a
  · have had : a ≠ darr := (hlt.trans_le hle).ne'
    exact (Function.update_of_ne had _ _).trans (h.unused a hle)

theorem Models.grow (h : Models k heap arrays) :
    Models k ⟨heap.arrays, heap.fresh + 1⟩ ⟨arrays.arrays, arrays.fresh + 1⟩ :=
  ⟨h.shows, congrArg (· + 1) h.fresh_eq, fun a hle => h.unused a (Nat.le_of_succ_le hle)⟩

theorem models_create (h : Models k heap arrays) {size : UInt64}
    (hfits : Unwrapped k.toNat size.toNat) :
    ∃ heap', darrayCreate heap size k =
        some ((GrowableArray.arrayCreate arrays size.toNat).1, heap') ∧
      Models k heap' (GrowableArray.arrayCreate arrays size.toNat).2 := by
  have hroom : 24 ≤ byteCount k.toNat size.toNat :=
    (Nat.le_add_right _ _).trans (byteCount_eq hfits).ge
  obtain ⟨header, hd, hcreate⟩ := darrayCreate_room heap hroom
  simp only [GrowableArray.arrayCreate, h.fresh_eq]
  exact ⟨_, hcreate, h.fresh_eq ▸ h.grow.update (shows_some hd hfits) (Nat.lt_succ_self _)⟩

theorem models_add (h : Models k heap arrays) {array : GrowableArray.ArrayHeader α}
    (harray : arrays.arrays darr = some array)
    (hfits : array.data.length + 1 < array.size ∨ Unwrapped k.toNat (array.size * 2))
    {element : α} (hadd : GrowableArray.arrayAdd arrays darr element = some (darr', arrays')) :
    ∃ heap', darrayAdd heap darr element = some (darr', heap') ∧ Models k heap' arrays' := by
  obtain ⟨array', harray', hcases⟩ := GrowableArray.arrayAdd_cases hadd
  cases harray.symm.trans harray'
  obtain ⟨header, hheader, hd, hwhole⟩ := h.describes harray
  have hlive : darr < heap.fresh := by
    by_contra hge
    rw [h.unused darr (not_lt.mp hge)] at hheader
    cases hheader
  rcases hcases with ⟨hroom, rfl, rfl⟩ | ⟨hfull, hlen, hne, rfl, rfl⟩
  · have hcopy : 24 + k.toNat * (array.data.length + 1) ≤ byteCount k.toNat array.size :=
      (Nat.add_le_add_left (Nat.mul_le_mul_left _ hroom.le) _).trans (byteCount_eq hwhole).ge
    obtain ⟨header', hd', hadd⟩ :=
      darrayAdd_room hheader hd (hroom.trans hwhole.1) hroom hcopy element
    exact ⟨_, hadd, h.update (shows_some hd' hwhole) hlive⟩
  · have hgrown : Unwrapped k.toNat (array.size * 2) := hfits.resolve_left (not_lt.mpr hfull)
    have hmod : array.size * 2 % 2 ^ 64 = array.size * 2 := Nat.mod_eq_of_lt hgrown.1
    have hcopy : 24 + k.toNat * (array.data.length + 1) ≤
        byteCount k.toNat (array.size * 2 % 2 ^ 64) := by
      rw [hmod, byteCount_eq hgrown]
      exact Nat.add_le_add_left (Nat.mul_le_mul_left _ hlen) _
    rw [h.fresh_eq] at hne ⊢
    obtain ⟨header', hd', hadd⟩ := darrayAdd_full hheader hd
      (Nat.lt_of_le_of_lt hlen hgrown.1) hfull hne hcopy element
    rw [hmod] at hd'
    have hmodels := (h.grow.update (shows_some hd' hgrown) (Nat.lt_succ_self _)).update
      shows_none (hlive.trans (Nat.lt_succ_self _))
    simp only [h.fresh_eq] at hmodels
    exact ⟨_, hadd, hmodels⟩

/-- In every sequence of calls, on any handles, in which no byte count wraps, dynamic arrays
return the handles that growable arrays do, and hold the same elements. -/
theorem darrays_refine (h : Models k heap arrays) (calls : List (ArrayCall α))
    {handles : List ℕ}
    (hrun : Refinement.answers (arrayCall k) arrays calls = some (handles, arrays')) :
    ∃ heap', Refinement.answers (darrayCall k) heap calls = some (handles, heap') ∧
      Models k heap' arrays' := by
  refine Refinement.answers_of_simulation (R := fun heap arrays => Models k heap arrays)
    (fun heap arrays i darr' arrays' h hcall => ?_) calls h hrun
  cases i with
  | create size =>
    simp only [arrayCall] at hcall
    split_ifs at hcall with hfits
    cases hcall
    exact models_create h hfits
  | add darr element =>
    obtain ⟨array, harray, hadd⟩ := Option.bind_eq_some_iff.mp hcall
    split_ifs at hadd with hfits
    exact models_add h harray hfits hadd

end

end Cerverus.Darray
