import Cerverus.ListOperations

/-!
# Access by index

`doubly_linked_list_get` compares an `int` with a `size_t`, so the index is converted to
`size_t` in every comparison, and a negative one becomes a number of almost 2^64. `some none`
is a returned null pointer; `none` is a null link followed in one of the loops.
-/
namespace Cerverus.Dll
open LinkedHeap

variable {α : Type}

/-- The conversion of an `int` to `size_t`. -/
def toSizeT (index : Int32) : UInt64 := index.toInt64.toUInt64

/-- `for (size_t i = -1; i < index; i--)`, from `i` on. -/
def getBackward (heap : Heap α) (index i : UInt64) (currNode : Option ℕ) : Option (Option ℕ) :=
  if i < index then do
    let curr ← currNode
    let nd ← heap curr
    getBackward heap index (i - 1) nd.prev
  else some currNode
termination_by (i + 1).toNat
decreasing_by
  rename_i hlt
  have hi := UInt64.lt_iff_toNat_lt.mp hlt
  have := index.toNat_lt
  simp only [sub_add_cancel, UInt64.toNat_add, UInt64.toNat_one]
  omega

/-- `for (size_t i = 0; i < index; i++)`, from `i` on. -/
def getForward (heap : Heap α) (index i : UInt64) (currNode : Option ℕ) : Option (Option ℕ) :=
  if i < index then do
    let curr ← currNode
    let nd ← heap curr
    getForward heap index (i + 1) nd.next
  else some currNode
termination_by index.toNat - i.toNat
decreasing_by
  rename_i hlt
  have hi := UInt64.lt_iff_toNat_lt.mp hlt
  have := index.toNat_lt
  simp only [UInt64.toNat_add, UInt64.toNat_one]
  omega

def doublyLinkedListGet (dll : DoublyLinkedList α) (index : Int32) : Option (Option ℕ) :=
  if toSizeT index ≥ UInt64.ofNat dll.length ∨ toSizeT index ≤ -UInt64.ofNat dll.length - 1 then
    some none
  else if index = 0 then some dll.head
  else if index = -1 then some dll.tail
  else if index < 0 then getBackward dll.heap (toSizeT index) (-1) dll.tail
  else getForward dll.heap (toSizeT index) 0 dll.head

/-- The index counts from the head, and if negative from the tail. -/
def nodeAt (nodes : List ℕ) (index : ℤ) : Option ℕ :=
  if 0 ≤ index then nodes[index.toNat]? else nodes.reverse[(-1 - index).toNat]?

section
variable {dll : DoublyLinkedList α} {nodes : List ℕ}

theorem toNat_toSizeT (index : Int32) : ((toSizeT index).toNat : ℤ) = index.toInt % 2 ^ 64 := by
  have h : index.toInt64.toInt = ((toSizeT index).toNat : ℤ).bmod (2 ^ 64) :=
    BitVec.toInt_eq_toNat_bmod index.toInt64.toBitVec
  rw [Int32.toInt_toInt64] at h
  have hmod := @Int.bmod_emod (toSizeT index).toNat (2 ^ 64)
  rw [← h] at hmod
  have hlt := (toSizeT index).toNat_lt
  push_cast at hmod
  omega

theorem get_bounds (index : Int32) (hlen : dll.length < 2 ^ 31) :
    toSizeT index ≥ UInt64.ofNat dll.length ∨ toSizeT index ≤ -UInt64.ofNat dll.length - 1 := by
  have hi := toNat_toSizeT index
  have hlow := index.le_toInt
  have hhigh := index.toInt_lt
  simp only [ge_iff_le, UInt64.le_iff_toNat_le, UInt64.toNat_sub, UInt64.toNat_neg,
    UInt64.toNat_ofNat', UInt64.toNat_one, show UInt64.size = 2 ^ 64 from rfl]
  omega

theorem doublyLinkedListGet_eq (index : Int32) (hlen : dll.length < 2 ^ 31) :
    doublyLinkedListGet dll index = some none :=
  if_pos (get_bounds index hlen)

/-- The loop for negative indices starts at 2^64 - 1, where no index is greater. -/
theorem getBackward_eq (heap : Heap α) (index : UInt64) (currNode : Option ℕ) :
    getBackward heap index (-1) currNode = some currNode := by
  have hlt : ¬ (-1 : UInt64) < index := by
    rw [UInt64.lt_iff_toNat_lt, UInt64.toNat_neg, UInt64.toNat_one, not_lt]
    exact Nat.le_of_lt_succ index.toNat_lt
  rw [getBackward, if_neg hlt]

/-- The loop for the others would find its node. -/
theorem getForward_eq {heap : Heap α} {index i : UInt64} {currNode : Option ℕ} {k : ℕ}
    (hv : Visits heap Node.next currNode nodes) (hk : k < nodes.length)
    (hi : i.toNat + k = index.toNat) : getForward heap index i currNode = some nodes[k]? := by
  have hindex := index.toNat_lt
  induction k generalizing i currNode nodes with
  | zero =>
    rw [getForward, if_neg (by rw [UInt64.lt_iff_toNat_lt]; omega), visits_first hv,
      List.head?_eq_getElem?]
  | succ k ih =>
    cases nodes with
    | nil => cases hk
    | cons x xs =>
      obtain ⟨rfl, nd, hnd, hv⟩ := hv
      rw [getForward, if_pos (by rw [UInt64.lt_iff_toNat_lt]; omega)]
      simp only [Option.bind_eq_bind, Option.bind_some, hnd, List.getElem?_cons_succ]
      apply ih hv (Nat.lt_of_succ_lt_succ hk)
      rw [UInt64.toNat_add, UInt64.toNat_one]
      omega

theorem nodeAt_eq_none (index : ℤ) :
    nodeAt nodes index = none ↔ (nodes.length : ℤ) ≤ index ∨ index < -nodes.length := by
  unfold nodeAt
  split_ifs with hneg
  · rw [List.getElem?_eq_none_iff]
    omega
  · rw [List.getElem?_eq_none_iff, List.length_reverse]
    omega

/-- In a list of fewer than 2^31 nodes, the node asked for is returned exactly if there is
none, and null is due. -/
theorem get_iff_outOfBounds (h : Represents dll nodes) (hlen : nodes.length < 2 ^ 31)
    (index : Int32) :
    doublyLinkedListGet dll index = some (nodeAt nodes index.toInt) ↔
      (nodes.length : ℤ) ≤ index.toInt ∨ index.toInt < -nodes.length := by
  rw [doublyLinkedListGet_eq index (h.length.trans_lt hlen), Option.some.injEq, eq_comm,
    nodeAt_eq_none]

end

/-- A list of three nodes, at its second node from either end and just past both ends. -/
theorem get_threeNodes : ∃ dll : DoublyLinkedList ℕ, Represents dll [2, 1, 0] ∧
    doublyLinkedListGet dll 1 ≠ some (nodeAt [2, 1, 0] 1) ∧
    doublyLinkedListGet dll (-2) ≠ some (nodeAt [2, 1, 0] (-2)) ∧
    doublyLinkedListGet dll 3 = some (nodeAt [2, 1, 0] 3) ∧
    doublyLinkedListGet dll (-4) = some (nodeAt [2, 1, 0] (-4)) := by
  let heap : Heap ℕ := fun x =>
    if x = 2 then some ⟨none, some 1, 9⟩
    else if x = 1 then some ⟨some 2, some 0, 8⟩
    else if x = 0 then some ⟨some 1, none, 7⟩
    else none
  have hrep : Represents ⟨3, some 2, some 0, heap, 3⟩ [2, 1, 0] := by
    refine ⟨⟨rfl, _, rfl, rfl, rfl, _, rfl, rfl, rfl, _, rfl, rfl, rfl, rfl⟩, rfl, by decide, ?_⟩
    intro x (hx : 3 ≤ x)
    simp only [heap]
    split_ifs <;> first | omega | rfl
  have hget := get_iff_outOfBounds hrep (by decide)
  refine ⟨_, hrep, ?_, ?_, ?_, ?_⟩
  · exact fun h => absurd ((hget 1).mp h) (by decide)
  · exact fun h => absurd ((hget (-2)).mp h) (by decide)
  · exact (hget 3).mpr (by decide)
  · exact (hget (-4)).mpr (by decide)

/-- A list of one node: it is not found under index 0. -/
theorem first_not_found : ∃ dll : DoublyLinkedList ℕ, Represents dll [0] ∧
    nodeAt [0] 0 = some 0 ∧ doublyLinkedListGet dll 0 = some none := by
  obtain ⟨dll, _, hrep, _⟩ := pushFront_represents represents_create (7 : ℕ)
  exact ⟨dll, hrep, rfl, doublyLinkedListGet_eq 0 (by rw [hrep.length]; decide)⟩

end Cerverus.Dll
