import Cerverus.DoublyLinkedList
import Cerverus.GuardedRun

/-!
# The list under all its operations

`push_back` and `pop_head` are `push_front` and `pop_tail` with the links exchanged, so what
they do is read off the mirrored list. A run of the five operations is tracked beside the
sequence that their names call for.
-/
namespace Cerverus.LinkedHeap

variable {α : Type}

/-- The node with its links exchanged. -/
def Node.mirror (nd : Node α) : Node α := ⟨nd.next, nd.prev, nd.data⟩

def mirror (h : Heap α) : Heap α := fun a => (h a).map Node.mirror

section
variable {h : Heap α} {p f l n : Option ℕ} {xs : List ℕ}

theorem mirror_apply (h : Heap α) (a : ℕ) : mirror h a = (h a).map Node.mirror := rfl

theorem mirror_mirror (h : Heap α) : mirror (mirror h) = h := by
  funext a
  simp only [mirror, Option.map_map]
  cases h a <;> rfl

theorem mirror_update (h : Heap α) (a : ℕ) (o : Option (Node α)) :
    mirror (Function.update h a o) = Function.update (mirror h) a (o.map Node.mirror) := by
  funext x
  by_cases hx : x = a
  · subst hx
    simp [mirror]
  · simp [mirror, hx]

theorem setPrev_mirror (h : Heap α) (a : ℕ) (p : Option ℕ) :
    setPrev (mirror h) a p = (setNext h a p).map mirror := by
  simp only [setPrev, setNext, mirror, Option.map_map]
  cases h a with
  | none => rfl
  | some nd => exact congrArg some (mirror_update h a (some ⟨nd.prev, p, nd.data⟩)).symm

theorem setNext_mirror (h : Heap α) (a : ℕ) (n : Option ℕ) :
    setNext (mirror h) a n = (setPrev h a n).map mirror := by
  simp only [setPrev, setNext, mirror, Option.map_map]
  cases h a with
  | none => rfl
  | some nd => exact congrArg some (mirror_update h a (some ⟨n, nd.next, nd.data⟩)).symm

theorem free_mirror (h : Heap α) (a : ℕ) : free (mirror h) a = (free h a).map mirror := by
  simp only [free, mirror, Option.map_map]
  cases h a with
  | none => rfl
  | some nd => exact congrArg some (mirror_update h a none).symm

theorem freeIf_mirror (h : Heap α) (a : Option ℕ) :
    freeIf (mirror h) a = (freeIf h a).map mirror := by
  cases a with
  | none => rfl
  | some a => exact free_mirror h a

theorem seg_mirror (hs : Seg h p f xs l n) : Seg (mirror h) n l xs.reverse f p := by
  induction xs generalizing p f with
  | nil =>
    obtain ⟨rfl, rfl⟩ := hs
    exact ⟨rfl, rfl⟩
  | cons x xs ih =>
    obtain ⟨rfl, nd, hx, rfl, hs⟩ := hs
    rw [List.reverse_cons]
    have hnode : mirror h x = some nd.mirror := by simp [mirror, hx]
    exact seg_append.mpr ⟨nd.next, some x, ih hs, rfl, nd.mirror, hnode, rfl, rfl, rfl⟩

/-- From `first`, the links visit the addresses and end in null. -/
def Visits (h : Heap α) (link : Node α → Option ℕ) : Option ℕ → List ℕ → Prop
  | first, [] => first = none
  | first, x :: xs => first = some x ∧ ∃ nd, h x = some nd ∧ Visits h link (link nd) xs

theorem visits_next (hs : Seg h p f xs l none) : Visits h Node.next f xs := by
  induction xs generalizing p f with
  | nil => exact hs.1
  | cons x xs ih =>
    obtain ⟨rfl, nd, hx, _, hs⟩ := hs
    exact ⟨rfl, nd, hx, ih hs⟩

theorem visits_mirror (hv : Visits (mirror h) Node.next f xs) : Visits h Node.prev f xs := by
  induction xs generalizing f with
  | nil => exact hv
  | cons x xs ih =>
    obtain ⟨rfl, nd, hx, hv⟩ := hv
    obtain ⟨nd', hx', rfl⟩ := Option.map_eq_some_iff.mp hx
    exact ⟨rfl, nd', hx', ih hv⟩

theorem visits_unique {link : Node α → Option ℕ} {zs : List ℕ} (hx : Visits h link f xs)
    (hz : Visits h link f zs) : xs = zs := by
  induction xs generalizing f zs with
  | nil =>
    cases zs with
    | nil => rfl
    | cons z zs =>
      cases hx
      cases hz.1
  | cons x xs ih =>
    obtain ⟨rfl, nd, hnd, hx⟩ := hx
    cases zs with
    | nil => cases hz
    | cons z zs =>
      obtain ⟨heq, nd', hnd', hz⟩ := hz
      cases heq
      rw [hnd] at hnd'
      cases hnd'
      rw [ih hx hz]

theorem visits_first {link : Node α → Option ℕ} (hv : Visits h link f xs) : f = xs.head? := by
  cases xs with
  | nil => exact hv
  | cons x xs => exact hv.1

end

end Cerverus.LinkedHeap

namespace Cerverus.Dll
open LinkedHeap GuardedRun

variable {α : Type}

/-- Returns the new list and the address of the new node. -/
def doublyLinkedListPushBack (dll : DoublyLinkedList α) (data : α) :
    Option (DoublyLinkedList α × ℕ) :=
  let newNode := dll.fresh
  let heap := Function.update dll.heap newNode (some ⟨dll.tail, none, data⟩)
  let dll' := { dll with length := dll.length + 1, tail := some newNode, fresh := newNode + 1 }
  match dll.tail with
  | none => some ({ dll' with head := some newNode, heap := heap }, newNode)
  | some prev => do
    let heap ← setNext heap prev (some newNode)
    some ({ dll' with heap := heap }, newNode)

/-- Returns the data copied out, if the list was not empty. -/
def doublyLinkedListPopHead (dll : DoublyLinkedList α) :
    Option (Option α × DoublyLinkedList α) :=
  if dll.length = 0 then some (none, dll)
  else do
    let head ← dll.head
    let first ← dll.heap head
    if 1 < dll.length then
      let newHead ← first.next
      let nd ← dll.heap newHead
      let heap ← freeIf dll.heap nd.prev
      let heap ← setPrev heap newHead none
      some (some first.data,
        { dll with length := dll.length - 1, head := some newHead, heap := heap })
    else
      let heap ← free dll.heap head
      some (some first.data,
        { dll with length := dll.length - 1, head := none, tail := none, heap := heap })

/-! ## The mirrored list -/

def DoublyLinkedList.mirror (dll : DoublyLinkedList α) : DoublyLinkedList α :=
  { dll with head := dll.tail, tail := dll.head, heap := LinkedHeap.mirror dll.heap }

section
variable {dll : DoublyLinkedList α} {xs : List ℕ}

theorem mirror_mirror (dll : DoublyLinkedList α) : dll.mirror.mirror = dll := by
  simp [DoublyLinkedList.mirror, LinkedHeap.mirror_mirror]

theorem represents_mirror (h : Represents dll xs) : Represents dll.mirror xs.reverse :=
  ⟨seg_mirror h.links, by simp [DoublyLinkedList.mirror, h.length],
    List.nodup_reverse.mpr h.nodup, fun a ha => by
      simp only [DoublyLinkedList.mirror, LinkedHeap.mirror, h.fresh a ha, Option.map_none]⟩

theorem pushBack_mirror (dll : DoublyLinkedList α) (a : α) :
    doublyLinkedListPushBack dll a =
      (doublyLinkedListPushFront dll.mirror a).map fun r => (r.1.mirror, r.2) := by
  have hheap : Function.update (LinkedHeap.mirror dll.heap) dll.fresh (some ⟨none, dll.tail, a⟩) =
      LinkedHeap.mirror (Function.update dll.heap dll.fresh (some ⟨dll.tail, none, a⟩)) :=
    (mirror_update dll.heap dll.fresh (some ⟨dll.tail, none, a⟩)).symm
  cases htail : dll.tail with
  | none =>
    rw [htail] at hheap
    simp [doublyLinkedListPushBack, doublyLinkedListPushFront, DoublyLinkedList.mirror, htail,
      hheap, LinkedHeap.mirror_mirror]
  | some prev =>
    rw [htail] at hheap
    simp only [doublyLinkedListPushBack, doublyLinkedListPushFront, DoublyLinkedList.mirror, htail,
      hheap, setPrev_mirror]
    cases setNext (Function.update dll.heap dll.fresh (some ⟨some prev, none, a⟩)) prev
      (some dll.fresh) <;> simp [LinkedHeap.mirror_mirror]

theorem popHead_mirror (dll : DoublyLinkedList α) :
    doublyLinkedListPopHead dll =
      (doublyLinkedListPopTail dll.mirror).map fun r => (r.1, r.2.mirror) := by
  unfold doublyLinkedListPopHead doublyLinkedListPopTail
  rw [apply_ite (Option.map _)]
  refine if_congr Iff.rfl ?_ ?_
  · rw [Option.map_some, mirror_mirror]
  · simp only [DoublyLinkedList.mirror, mirror_apply, Option.bind_eq_bind, Option.map_bind,
      Option.bind_map, Function.comp_def, apply_ite (Option.map _), freeIf_mirror, free_mirror,
      setNext_mirror, LinkedHeap.mirror_mirror, Option.map_some, Node.mirror]

theorem pushBack_represents (h : Represents dll xs) (a : α) :
    ∃ dll', doublyLinkedListPushBack dll a = some (dll', dll.fresh) ∧
      Represents dll' (xs ++ [dll.fresh]) := by
  obtain ⟨back, hpush, hrep, _⟩ := pushFront_represents (represents_mirror h) a
  refine ⟨back.mirror, by rw [pushBack_mirror, hpush]; rfl, ?_⟩
  simpa [DoublyLinkedList.mirror] using represents_mirror hrep

theorem popHead_represents {x : ℕ} (h : Represents dll (x :: xs)) :
    ∃ o dll', doublyLinkedListPopHead dll = some (o, dll') ∧ Represents dll' xs := by
  have hm := represents_mirror h
  rw [List.reverse_cons] at hm
  obtain ⟨nd, hnd⟩ := seg_mem hm.links (x := x) (by simp)
  obtain ⟨back, hpop, hrep, _⟩ := popTail_represents hm (dataAt_eq.mpr ⟨nd, hnd, rfl⟩)
  refine ⟨some nd.data, back.mirror, by rw [popHead_mirror, hpop]; rfl, ?_⟩
  simpa using represents_mirror hrep

/-- Read in either direction, the links visit exactly the nodes, each once, and end in null. -/
structure Lists (dll : DoublyLinkedList α) (xs : List ℕ) : Prop where
  forward : Visits dll.heap Node.next dll.head xs
  backward : Visits dll.heap Node.prev dll.tail xs.reverse
  nodup : xs.Nodup
  headNull : dll.head = none ↔ xs = []
  tailNull : dll.tail = none ↔ xs = []
  length : dll.length = xs.length

theorem lists_of_represents (h : Represents dll xs) : Lists dll xs :=
  ⟨visits_next h.links, visits_mirror (visits_next (represents_mirror h).links), h.nodup,
    by rw [h.head_eq, List.head?_eq_none_iff], by rw [h.tail_eq, List.getLast?_eq_none_iff],
    h.length⟩

end

/-! ## Runs -/

inductive DllOp (α : Type)
  | pushFront (data : α)
  | pushBack (data : α)
  | popHead
  | popTail
  | moveToFront (node : ℕ)

def DllOp.apply (dll : DoublyLinkedList α) : DllOp α → Option (DoublyLinkedList α)
  | .pushFront data => (doublyLinkedListPushFront dll data).map Prod.fst
  | .pushBack data => (doublyLinkedListPushBack dll data).map Prod.fst
  | .popHead => (doublyLinkedListPopHead dll).map Prod.snd
  | .popTail => (doublyLinkedListPopTail dll).map Prod.snd
  | .moveToFront node => doublyLinkedListMoveToFront dll node

/-- The sequence after the operation, as its name says; a push gets the address `fresh`. -/
def DllOp.change (fresh : ℕ) (nodes : List ℕ) : DllOp α → List ℕ
  | .pushFront _ => fresh :: nodes
  | .pushBack _ => nodes ++ [fresh]
  | .popHead => nodes.tail
  | .popTail => nodes.dropLast
  | .moveToFront node => node :: nodes.erase node

def DllOp.Legal (nodes : List ℕ) : DllOp α → Prop
  | .moveToFront node => node ∈ nodes
  | _ => True

instance decidableLegal (nodes : List ℕ) : (op : DllOp α) → Decidable (op.Legal nodes)
  | .pushFront _ => .isTrue trivial
  | .pushBack _ => .isTrue trivial
  | .popHead => .isTrue trivial
  | .popTail => .isTrue trivial
  | .moveToFront node => inferInstanceAs (Decidable (node ∈ nodes))

/-- A list beside the sequence of its nodes; no list once a null link was followed. -/
structure Tracked (α : Type) where
  dll : Option (DoublyLinkedList α)
  nodes : List ℕ

def trackedStart : Tracked α := ⟨some doublyLinkedListCreate, []⟩

def listStep (s : Tracked α) (op : DllOp α) : Option (Tracked α) :=
  s.dll.bind fun dll =>
    if op.Legal s.nodes then some ⟨op.apply dll, op.change dll.fresh s.nodes⟩ else none

def Consistent (s : Tracked α) : Prop := ∃ dll, s.dll = some dll ∧ Lists dll s.nodes

/-- The last of several nodes is not moved to the front. -/
def SparesLast (s : Tracked α) (op : DllOp α) : Prop :=
  ∀ node ∈ s.nodes.getLast?, op = .moveToFront node → s.nodes.head? = some node

def Intact (s : Tracked α) : Prop := ∃ dll, s.dll = some dll ∧ Represents dll s.nodes

section
variable {s t : Tracked α} {op : DllOp α}

theorem listStep_eq {dll : DoublyLinkedList α} (hdll : s.dll = some dll)
    (h : listStep s op = some t) :
    op.Legal s.nodes ∧ t = ⟨op.apply dll, op.change dll.fresh s.nodes⟩ := by
  rw [listStep, hdll, Option.bind_some] at h
  split_ifs at h with hlegal
  exact ⟨hlegal, (Option.some.inj h).symm⟩

theorem moveToFront_spared {dll : DoublyLinkedList α} {xs : List ℕ} {node : ℕ}
    (h : Represents dll xs) (hmem : node ∈ xs)
    (hspare : node ∈ xs.getLast? → xs.head? = some node) :
    ∃ dll', doublyLinkedListMoveToFront dll node = some dll' ∧
      Represents dll' (node :: xs.erase node) := by
  obtain ⟨as, bs, rfl⟩ := List.append_of_mem hmem
  have hnot : node ∉ as := by
    intro has
    exact List.disjoint_of_nodup_append h.nodup has List.mem_cons_self
  have hlast : as = [] ∨ bs ≠ [] := by
    rw [or_iff_not_imp_right, not_not]
    intro hbs
    subst hbs
    have hhead := hspare (by simp)
    cases as with
    | nil => rfl
    | cons a as =>
      rw [List.cons_append, List.head?_cons, Option.some.injEq] at hhead
      exact absurd (hhead ▸ List.mem_cons_self) hnot
  obtain ⟨dll', hmove, hrep, _⟩ := moveToFront_represents h hlast
  refine ⟨dll', hmove, ?_⟩
  rw [List.erase_append_right _ hnot, List.erase_cons_head]
  exact hrep

/-- Every operation but that move does what its name says. -/
theorem apply_represents {dll : DoublyLinkedList α} (h : Represents dll s.nodes)
    (hlegal : op.Legal s.nodes) (hspare : SparesLast s op) :
    ∃ dll', op.apply dll = some dll' ∧ Represents dll' (op.change dll.fresh s.nodes) := by
  cases op with
  | pushFront data =>
    obtain ⟨dll', hpush, hrep, _⟩ := pushFront_represents h data
    exact ⟨dll', by simp [DllOp.apply, hpush], hrep⟩
  | pushBack data =>
    obtain ⟨dll', hpush, hrep⟩ := pushBack_represents h data
    exact ⟨dll', by simp [DllOp.apply, hpush], hrep⟩
  | popHead =>
    cases hnodes : s.nodes with
    | nil =>
      rw [hnodes] at h
      exact ⟨dll, by simp [DllOp.apply, doublyLinkedListPopHead, h.length], h⟩
    | cons x xs =>
      rw [hnodes] at h
      obtain ⟨o, dll', hpop, hrep⟩ := popHead_represents h
      exact ⟨dll', by simp [DllOp.apply, hpop], hrep⟩
  | popTail =>
    rcases List.eq_nil_or_concat s.nodes with hnodes | ⟨ys, x, hnodes⟩
    · rw [hnodes] at h
      exact ⟨dll, by simp [DllOp.apply, doublyLinkedListPopTail, h.length],
        by simpa [DllOp.change, hnodes] using h⟩
    · rw [hnodes, List.concat_eq_append] at h
      obtain ⟨nd, hnd⟩ := seg_mem h.links (x := x) (by simp)
      obtain ⟨dll', hpop, hrep, _⟩ := popTail_represents h (dataAt_eq.mpr ⟨nd, hnd, rfl⟩)
      exact ⟨dll', by simp [DllOp.apply, hpop], by simpa [DllOp.change, hnodes] using hrep⟩
  | moveToFront node =>
    obtain ⟨dll', hmove, hrep⟩ :=
      moveToFront_spared h hlegal fun hlast => hspare node hlast rfl
    exact ⟨dll', by simp [DllOp.apply, hmove], hrep⟩

/-- Moving the last of several nodes leaves a list whose `tail` is its first node. -/
theorem sparesLast_of_lists {dll : DoublyLinkedList α} (h : Represents dll s.nodes)
    (hlegal : op.Legal s.nodes) (hc : Consistent ⟨op.apply dll, op.change dll.fresh s.nodes⟩) :
    SparesLast s op := by
  intro node hlast hop
  subst hop
  obtain ⟨dll', happly, hlists⟩ := hc
  obtain ⟨as, has⟩ := List.getLast?_eq_some_iff.mp hlast
  have htail := (moveToFront_tail happly).2.1
  rw [h.tail_eq, hlast] at htail
  have hback := visits_first hlists.backward
  have hnodup := h.nodup
  rw [has] at hnodup
  have hnot : node ∉ as := fun hmem =>
    List.disjoint_of_nodup_append hnodup hmem (List.mem_singleton_self node)
  rw [htail, List.head?_reverse] at hback
  simp only [DllOp.change, has, List.erase_append_right _ hnot, List.erase_cons_head,
    List.append_nil] at hback
  rcases List.eq_nil_or_concat as with rfl | ⟨cs, c, rfl⟩
  · rw [has]
    rfl
  · rw [List.concat_eq_append, ← List.cons_append, List.getLast?_concat] at hback
    cases hback
    simp at hnot

end

/-- In every run of the five operations, the list stays consistent with the sequence their
names call for if and only if it never moves the last of several nodes to the front. -/
theorem consistent_iff_sparesLast (ops : List (DllOp α)) :
    Along listStep Consistent trackedStart ops ↔ Guarded listStep SparesLast trackedStart ops := by
  refine along_iff_guarded (I := Intact) ?_ ?_ ?_ ⟨_, rfl, represents_create⟩
  · intro s op t hintact hspare hstep
    obtain ⟨dll, hdll, hrep⟩ := hintact
    obtain ⟨hlegal, rfl⟩ := listStep_eq hdll hstep
    obtain ⟨dll', happly, hrep'⟩ := apply_represents hrep hlegal hspare
    exact ⟨dll', happly, hrep'⟩
  · intro s hintact
    obtain ⟨dll, hdll, hrep⟩ := hintact
    exact ⟨dll, hdll, lists_of_represents hrep⟩
  · intro s op t hintact hstep hcons
    obtain ⟨dll, hdll, hrep⟩ := hintact
    obtain ⟨hlegal, rfl⟩ := listStep_eq hdll hstep
    exact sparesLast_of_lists hrep hlegal hcons

/-- Of two nodes the last is moved to the front; the next `pop_tail` follows a null link. -/
theorem moved_last_pops_null :
    (run listStep (trackedStart : Tracked ℕ)
        [.pushFront 1, .pushFront 2, .moveToFront 0, .popTail]).map
        (fun s => (s.dll.isNone, s.nodes)) = some (true, [0]) ∧
      ¬ Along listStep Consistent (trackedStart : Tracked ℕ)
        [.pushFront 1, .pushFront 2, .moveToFront 0, .popTail] := by
  have hrun : (run listStep (trackedStart : Tracked ℕ)
      [.pushFront 1, .pushFront 2, .moveToFront 0, .popTail]).map
      (fun s => (s.dll.isNone, s.nodes)) = some (true, [0]) := by decide +kernel
  refine ⟨hrun, fun halong => ?_⟩
  obtain ⟨s, hs, hs'⟩ := Option.map_eq_some_iff.mp hrun
  have hnone : s.dll.isNone = true := congrArg Prod.fst hs'
  obtain ⟨dll, hdll, _⟩ := along_run halong hs
  rw [hdll] at hnone
  cases hnone

end Cerverus.Dll
