import Cerverus.LinkedHeap

/-!
# The doubly linked list

The list keeps its nodes in a heap of its own; `fresh` is the next address `malloc` hands
out. Every operation returns `none` where the C code follows a null or freed pointer.
`Represents` is the intended meaning of a list. `doubly_linked_list_move_to_front` does not
update `tail`, so it keeps that meaning only for a node that is not the last of several;
`LinksAgree` is what survives in any case.
-/
namespace Cerverus.Dll
open LinkedHeap

structure DoublyLinkedList (α : Type) where
  length : ℕ
  head : Option ℕ
  tail : Option ℕ
  heap : Heap α
  fresh : ℕ

variable {α : Type}

def doublyLinkedListCreate : DoublyLinkedList α :=
  { length := 0, head := none, tail := none, heap := fun _ => none, fresh := 0 }

/-- Returns the new list and the address of the new node. -/
def doublyLinkedListPushFront (dll : DoublyLinkedList α) (data : α) :
    Option (DoublyLinkedList α × ℕ) :=
  let newNode := dll.fresh
  let heap := Function.update dll.heap newNode (some ⟨none, dll.head, data⟩)
  let dll' := { dll with length := dll.length + 1, head := some newNode, fresh := newNode + 1 }
  match dll.head with
  | none => some ({ dll' with tail := some newNode, heap := heap }, newNode)
  | some next => do
    let heap ← setPrev heap next (some newNode)
    some ({ dll' with heap := heap }, newNode)

/-- Returns the data copied out, if the list was not empty. -/
def doublyLinkedListPopTail (dll : DoublyLinkedList α) :
    Option (Option α × DoublyLinkedList α) :=
  if dll.length = 0 then some (none, dll)
  else do
    let tail ← dll.tail
    let last ← dll.heap tail
    if 1 < dll.length then
      let newTail ← last.prev
      let nd ← dll.heap newTail
      let heap ← freeIf dll.heap nd.next
      let heap ← setNext heap newTail none
      some (some last.data,
        { dll with length := dll.length - 1, tail := some newTail, heap := heap })
    else
      let heap ← free dll.heap tail
      some (some last.data,
        { dll with length := dll.length - 1, head := none, tail := none, heap := heap })

def doublyLinkedListMoveToFront (dll : DoublyLinkedList α) (node : ℕ) :
    Option (DoublyLinkedList α) :=
  if dll.head = some node then some dll
  else do
    let nd ← dll.heap node
    let prev ← nd.prev
    let heap ← setNext dll.heap prev nd.next
    let heap ← setPrevIf heap nd.next (some prev)
    let heap ← setNext heap node dll.head
    let head ← dll.head
    let heap ← setPrev heap head (some node)
    let heap ← setPrev heap node none
    some { dll with head := some node, heap := heap }

/-! ## The intended meaning -/

/-- The list consists of the nodes `xs`, front to back, read in either direction. -/
structure Represents (dll : DoublyLinkedList α) (xs : List ℕ) : Prop where
  links : Seg dll.heap none dll.head xs dll.tail none
  length : dll.length = xs.length
  nodup : xs.Nodup
  fresh : ∀ a, dll.fresh ≤ a → dll.heap a = none

theorem represents_create : Represents (doublyLinkedListCreate : DoublyLinkedList α) [] :=
  ⟨⟨rfl, rfl⟩, rfl, List.nodup_nil, fun _ _ => rfl⟩

section
variable {dll : DoublyLinkedList α} {xs : List ℕ}

theorem Represents.head_eq (h : Represents dll xs) : dll.head = xs.head? := seg_first h.links

theorem Represents.tail_eq (h : Represents dll xs) : dll.tail = xs.getLast? :=
  seg_last_none h.links

theorem Represents.mem_lt (h : Represents dll xs) {x : ℕ} (hx : x ∈ xs) : x < dll.fresh := by
  obtain ⟨nd, hnd⟩ := seg_mem h.links hx
  by_contra hle
  rw [h.fresh x (by omega)] at hnd
  cases hnd

def dataAt (dll : DoublyLinkedList α) (x : ℕ) : Option α := (dll.heap x).map Node.data

theorem dataAt_eq {x : ℕ} {a : α} :
    dataAt dll x = some a ↔ ∃ nd, dll.heap x = some nd ∧ nd.data = a := by
  simp [dataAt]

theorem pushFront_represents (h : Represents dll xs) (a : α) :
    ∃ dll', doublyLinkedListPushFront dll a = some (dll', dll.fresh) ∧
      Represents dll' (dll.fresh :: xs) ∧ dataAt dll' dll.fresh = some a ∧
      ∀ x, x ≠ dll.fresh → dataAt dll' x = dataAt dll x := by
  have hfx : dll.fresh ∉ xs := fun hm => lt_irrefl _ (h.mem_lt hm)
  have hnd : (dll.fresh :: xs).Nodup := List.nodup_cons.mpr ⟨hfx, h.nodup⟩
  have hhead := h.head_eq
  let heap₁ := Function.update dll.heap dll.fresh (some ⟨none, dll.head, a⟩)
  have hnew : heap₁ dll.fresh = some ⟨none, dll.head, a⟩ := Function.update_self _ _ _
  have hold : ∀ x, x ≠ dll.fresh → heap₁ x = dll.heap x :=
    fun x hx => Function.update_of_ne hx _ _
  have hlinks := seg_of_same h.links hfx hold
  cases xs with
  | nil =>
    rw [List.head?_nil] at hhead
    refine ⟨⟨dll.length + 1, some dll.fresh, some dll.fresh, heap₁, dll.fresh + 1⟩,
      by simp [doublyLinkedListPushFront, hhead, heap₁],
      ⟨⟨rfl, _, hnew, rfl, hhead, rfl⟩, by simp [h.length], hnd, ?_⟩, by simp [dataAt, hnew],
      fun x hx => by simp [dataAt, hold x hx]⟩
    intro b (hb : dll.fresh + 1 ≤ b)
    exact (hold b (by omega)).trans (h.fresh b (by omega))
  | cons y ys =>
    rw [List.head?_cons] at hhead
    have hlt : y < dll.fresh := h.mem_lt List.mem_cons_self
    obtain ⟨heap₂, hset, hr, hseg⟩ :=
      seg_setPrev hlinks (List.nodup_cons.mp h.nodup).1 (some dll.fresh)
    have hnew₂ := (hr.same dll.fresh hlt.ne').trans hnew
    refine ⟨⟨dll.length + 1, some dll.fresh, dll.tail, heap₂, dll.fresh + 1⟩, ?_,
      ⟨⟨rfl, _, hnew₂, rfl, hseg⟩, by simp [h.length], hnd, ?_⟩, by simp [dataAt, hnew₂],
      fun x hx => (hr.data x).trans (by rw [hold x hx]; rfl)⟩
    · simp only [heap₁, hhead] at hset
      simp [doublyLinkedListPushFront, hhead, hset]
    · intro b (hb : dll.fresh + 1 ≤ b)
      exact ((hr.same b (by omega)).trans (hold b (by omega))).trans (h.fresh b (by omega))

theorem popTail_represents {ys : List ℕ} {x : ℕ} {a : α} (h : Represents dll (ys ++ [x]))
    (ha : dataAt dll x = some a) :
    ∃ dll', doublyLinkedListPopTail dll = some (some a, dll') ∧ Represents dll' ys ∧
      dll'.fresh = dll.fresh ∧ ∀ z, z ≠ x → dataAt dll' z = dataAt dll z := by
  have hlen : dll.length = ys.length + 1 := by simp [h.length]
  have htail : dll.tail = some x := by simp [h.tail_eq]
  have hx : x ∉ ys := fun hm => by simpa using List.disjoint_of_nodup_append h.nodup hm
  have hnd : ys.Nodup := (List.nodup_append.mp h.nodup).1
  have hlt : x < dll.fresh := h.mem_lt (by simp)
  obtain ⟨nd, hndx, rfl⟩ := dataAt_eq.mp ha
  obtain ⟨heap₁, hfree, _, hsame⟩ := free_spec hndx
  obtain ⟨m, m', hseg, rfl, nd', hnd', hprev, _⟩ := seg_append.mp h.links
  obtain rfl : nd = nd' := Option.some.inj (hndx.symm.trans hnd')
  rcases List.eq_nil_or_concat ys with rfl | ⟨zs, y, rfl⟩
  · rw [List.length_nil, zero_add] at hlen
    refine ⟨{ dll with length := 0, head := none, tail := none, heap := heap₁ },
      by simp [doublyLinkedListPopTail, hlen, htail, hndx, hfree],
      ⟨⟨rfl, rfl⟩, rfl, hnd, ?_⟩, rfl, fun z hz => by simp [dataAt, hsame z hz]⟩
    intro b (hb : dll.fresh ≤ b)
    exact (hsame b (by omega)).trans (h.fresh b hb)
  · rw [List.concat_eq_append] at *
    rw [List.length_append, List.length_singleton] at hlen
    have hyx : y ≠ x := fun he => hx (by simp [he])
    have hlty : y < dll.fresh := h.mem_lt (by simp)
    have hy : y ∉ zs := fun hm => by simpa using List.disjoint_of_nodup_append hnd hm
    have hlast : m = some y := by simpa using seg_last hseg (by simp)
    obtain ⟨_, _, _, _, ndy, hndy, _, hnext, _⟩ := seg_append.mp hseg
    obtain ⟨heap₂, hset, hr, hseg'⟩ := seg_setNext (seg_of_same hseg hx hsame) hy none
    refine ⟨{ dll with length := zs.length + 1, tail := some y, heap := heap₂ }, ?_,
      ⟨hlast ▸ hseg', by simp, hnd, ?_⟩, rfl,
      fun z hz => (hr.data z).trans (by rw [hsame z hz]; rfl)⟩
    · simp [doublyLinkedListPopTail, hlen, htail, hndx, hprev, hlast, hndy, hnext, freeIf, hfree,
        hset]
    · intro b (hb : dll.fresh ≤ b)
      exact ((hr.same b (by omega)).trans (hsame b (by omega))).trans (h.fresh b hb)

/-- Moving a node to the front, as long as it is not the last of several: `tail` then still
names the last node. -/
theorem moveToFront_represents {as bs : List ℕ} {x : ℕ} (h : Represents dll (as ++ x :: bs))
    (hlast : as = [] ∨ bs ≠ []) :
    ∃ dll', doublyLinkedListMoveToFront dll x = some dll' ∧
      Represents dll' (x :: (as ++ bs)) ∧ dll'.fresh = dll.fresh ∧
      ∀ z, dataAt dll' z = dataAt dll z := by
  rcases List.eq_nil_or_concat as with rfl | ⟨zs, p, rfl⟩
  · exact ⟨dll, by simp [doublyLinkedListMoveToFront, h.head_eq], h, rfl, fun _ => rfl⟩
  rw [List.concat_eq_append] at *
  obtain ⟨w, bs, rfl⟩ : ∃ w ws, bs = w :: ws :=
    List.exists_cons_of_ne_nil (hlast.resolve_left (by simp))
  obtain ⟨y, ys, hys⟩ : ∃ y ys, zs ++ [p] = y :: ys := List.exists_cons_of_ne_nil (by simp)
  have hmid := List.nodup_middle.mp h.nodup
  have hhead : dll.head = some y := by rw [h.head_eq, hys]; rfl
  have hyx : y ≠ x := fun he => (List.nodup_cons.mp hmid).1 (by simp [hys, he])
  -- node->prev->next = node->next; node->next->prev = node->prev
  obtain ⟨nd, heap₁, heap₂, hnd, hprev, hnext, hset₁, hset₂, hall, hx, hdata⟩ :=
    seg_unlink h.links h.nodup
  have hrest : zs ++ [p] ++ w :: bs = y :: (ys ++ w :: bs) := by rw [hys]; rfl
  rw [hrest] at hall
  -- node->next = dll->head; dll->head->prev = node; node->prev = nullptr
  obtain ⟨heap₃, heap₄, heap₅, hset₃, hset₄, hset₅, hall', hdata'⟩ :=
    seg_linkFront hall (hrest ▸ hmid) hx
  have hkept := fun z => (hdata' z).trans (hdata z)
  refine ⟨{ dll with head := some x, heap := heap₅ }, ?_,
    ⟨hrest ▸ hall', ?_, hmid, fun b hb => ?_⟩, rfl, hkept⟩
  · simp [doublyLinkedListMoveToFront, hnd, hprev, hnext, setPrevIf, hset₁, hset₂, hset₃, hset₄,
      hset₅, hhead, hyx]
  · simp [h.length]
    omega
  · have hnone := hkept b
    rw [h.fresh b hb, Option.map_none, Option.map_eq_none_iff] at hnone
    exact hnone

/-- Moving the last of several nodes goes through, but leaves `tail` where it was. -/
theorem moveToFront_last {as : List ℕ} {x : ℕ} (h : Represents dll (as ++ [x])) (has : as ≠ []) :
    ∃ dll', doublyLinkedListMoveToFront dll x = some dll' ∧
      dataAt dll' x = dataAt dll x := by
  obtain ⟨y, ys, rfl⟩ := List.exists_cons_of_ne_nil has
  have hnd := h.nodup
  have hyx : y ≠ x := fun he => by simp [he] at hnd
  obtain ⟨ndy, hndy⟩ := seg_mem h.links (x := y) (by simp)
  have hhead : dll.head = some y := h.head_eq
  obtain ⟨m, m', hseg, rfl, nd, hndx, hprev, hnext, _⟩ := seg_append.mp h.links
  have hm := seg_last hseg (by simp)
  obtain ⟨p, hp⟩ : ∃ p, m = some p := by simp [hm, List.getLast?_cons]
  have hpm : p ∈ y :: ys := List.mem_of_getLast? (hm.symm.trans hp)
  have hpx : p ≠ x := by
    intro heq
    subst heq
    exact List.disjoint_of_nodup_append hnd hpm List.mem_cons_self
  obtain ⟨ndp, hndp⟩ := seg_mem hseg hpm
  obtain ⟨heap₁, hset₁, hr₁, hp₁⟩ := setNext_spec hndp nd.next
  have hx₁ := (hr₁.same x hpx.symm).trans hndx
  obtain ⟨heap₂, hset₂, hr₂, hx₂⟩ := setNext_spec hx₁ dll.head
  obtain ⟨ndy₂, hy₂⟩ : ∃ nd, heap₂ y = some nd := by
    rw [hr₂.same y hyx]
    by_cases hyp : y = p
    · exact ⟨_, hyp ▸ hp₁⟩
    · exact ⟨_, (hr₁.same y hyp).trans hndy⟩
  obtain ⟨heap₃, hset₃, hr₃, hy₃⟩ := setPrev_spec hy₂ (some x)
  obtain ⟨heap₄, hset₄, hr₄, _⟩ := setPrev_spec ((hr₃.same x hyx.symm).trans hx₂) none
  refine ⟨{ dll with head := some x, heap := heap₄ }, ?_, ?_⟩
  · rw [hnext] at hset₁
    rw [hhead] at hset₂
    simp [doublyLinkedListMoveToFront, hhead, hyx, hndx, hprev, hp, hnext, hset₁, setPrevIf,
      hset₂, hset₃, hset₄]
  · exact (hr₄.data x).trans ((hr₃.data x).trans ((hr₂.data x).trans (hr₁.data x)))

end

theorem moveToFront_tail {dll dll' : DoublyLinkedList α} {x : ℕ}
    (h : doublyLinkedListMoveToFront dll x = some dll') :
    dll'.head = some x ∧ dll'.tail = dll.tail ∧ dll'.length = dll.length := by
  unfold doublyLinkedListMoveToFront at h
  split_ifs at h with hh
  · simp only [Option.some.injEq] at h
    subst h
    exact ⟨hh, rfl, rfl⟩
  · simp only [Option.bind_eq_bind, Option.bind_eq_some_iff, Option.some.injEq] at h
    obtain ⟨_, _, _, _, _, _, _, _, _, _, _, _, _, _, _, _, rfl⟩ := h
    exact ⟨rfl, rfl, rfl⟩

end Cerverus.Dll
