import Cerverus.Refinement
import Cerverus.SinglyLinked

/-!
# The queue

`root` is the oldest node and `head` the newest. An item is copied into a block of its own,
whose address the node keeps and `dequeue` hands out. A function returns `none` where the C
code follows a null or freed pointer.
-/
namespace Cerverus.Fifo
open SinglyLinked Refinement

structure Queue (α : Type) where
  head : Option ℕ
  root : Option ℕ
  nodes : Heap ℕ
  blocks : ℕ → Option α
  fresh : ℕ

variable {α : Type}

def queueCreate : Queue α :=
  { head := none, root := none, nodes := fun _ => none, blocks := fun _ => none, fresh := 0 }

def enqueue (q : Queue α) (item : α) : Option (Queue α) :=
  let newNode := q.fresh
  let data := q.fresh + 1
  let nodes := Function.update q.nodes newNode (some ⟨data, none⟩)
  let q' := { q with
    head := some newNode, blocks := Function.update q.blocks data (some item),
    fresh := q.fresh + 2 }
  match q.head with
  | none => some { q' with root := some newNode, nodes := nodes }
  | some head => (setNext nodes head (some newNode)).map fun nodes => { q' with nodes := nodes }

/-- Returns the address of the item, or null. -/
def dequeue (q : Queue α) : Option (Option ℕ × Queue α) :=
  if q.head = none then some (none, q)
  else do
    let node ← q.root
    let nd ← q.nodes node
    some (some nd.data, { q with
      root := nd.next, head := if nd.next = none then none else q.head,
      nodes := Function.update q.nodes node none })

/-- `cmem_free` of what `dequeue` returned. -/
def freeBlock (q : Queue α) : Option ℕ → Option (Queue α)
  | none => some q
  | some data => (q.blocks data).map fun _ =>
      { q with blocks := Function.update q.blocks data none }

/-- At most `fuel` turns of the loop. -/
def queueClearLoop : ℕ → Queue α → Option (Queue α)
  | fuel, q =>
    match q.root, fuel with
    | none, _ => some q
    | some _, 0 => none
    | some _, fuel + 1 =>
      (dequeue q).bind fun r => (freeBlock r.2 r.1).bind fun q => queueClearLoop fuel q

/-- There are fewer nodes than addresses handed out. -/
def queueClear (q : Queue α) : Option (Queue α) := queueClearLoop q.fresh q

/-! ## Calls -/

inductive QueueOp (α : Type)
  | enqueue (item : α)
  | dequeue
  | clear

/-- What the call returns, if it is a pointer, and the queue after it. -/
def QueueOp.call (q : Queue α) : QueueOp α → Option (Option ℕ × Queue α)
  | .enqueue item => (Fifo.enqueue q item).map fun q => (none, q)
  | .dequeue => Fifo.dequeue q
  | .clear => (queueClear q).map fun q => (none, q)

/-- The items enqueued and not yet dequeued, oldest first. -/
def QueueOp.change (items : List α) : QueueOp α → Option ℕ → List α
  | .enqueue item, _ => items ++ [item]
  | .dequeue, _ => items.tail
  | .clear, _ => []

def QueueOp.due (items : List α) : QueueOp α → Option α
  | .dequeue => items.head?
  | _ => none

/-- The nodes reachable from `root` hold the items in order, and `head` is the last of them. -/
structure Lists (q : Queue α) (items : List α) : Prop where
  nodes : ∃ cells, Chain q.nodes q.root cells none ∧
    (cells.map fun c => q.blocks c.2) = items.map some ∧
    q.head = (cells.map Prod.fst).getLast?
  headNull : q.head = none ↔ q.root = none
  rootNull : q.root = none ↔ items = []

/-- The returned pointer is null if no item is due, and else points to it. -/
def Returns (q : Queue α) (returned : Option ℕ) (due : Option α) : Prop :=
  (returned = none ↔ due = none) ∧ ∀ data ∈ returned, q.blocks data = due

def Meets (_ : Queue α) (items : List α) (op : QueueOp α) (returned : Option ℕ)
    (q' : Queue α) : Prop :=
  Returns q' returned (op.due items) ∧ Lists q' (op.change items returned)

structure Represents (q : Queue α) (cells : List (ℕ × ℕ)) (items : List α) : Prop where
  chain : Chain q.nodes q.root cells none
  head : q.head = (cells.map Prod.fst).getLast?
  items : (cells.map fun c => q.blocks c.2) = items.map some
  nodes : (cells.map Prod.fst).Nodup
  blocks : (cells.map Prod.snd).Nodup
  fresh : ∀ c ∈ cells, c.1 < q.fresh ∧ c.2 < q.fresh

section
variable {q : Queue α} {cells : List (ℕ × ℕ)} {c : ℕ × ℕ} {items : List α} {item : α}

theorem represents_create : Represents (queueCreate : Queue α) [] [] :=
  ⟨rfl, rfl, rfl, List.nodup_nil, List.nodup_nil, fun _ hc => absurd hc List.not_mem_nil⟩

theorem Represents.length (h : Represents q cells items) : cells.length = items.length := by
  simpa using congrArg List.length h.items

theorem lists_of_represents (h : Represents q cells items) : Lists q items := by
  have hlength := h.length
  refine ⟨⟨cells, h.chain, h.items, h.head⟩, ?_, ?_⟩
  · rw [h.head, chain_first h.chain, List.getLast?_eq_none_iff, List.head?_eq_none_iff]
  · rw [chain_first h.chain, List.head?_eq_none_iff, List.map_eq_nil_iff,
      ← List.length_eq_zero_iff, hlength, List.length_eq_zero_iff]

theorem blocks_update {data : ℕ} (hdata : data ∉ cells.map Prod.snd) (o : Option α) :
    (cells.map fun c => Function.update q.blocks data o c.2) = cells.map fun c => q.blocks c.2 := by
  refine List.map_congr_left fun c hc => Function.update_of_ne ?_ _ _
  intro heq
  exact hdata (heq ▸ List.mem_map_of_mem hc)

theorem Represents.fresh_notMem (h : Represents q cells items) :
    q.fresh ∉ cells.map Prod.fst ∧ q.fresh + 1 ∉ cells.map Prod.snd := by
  constructor
  · intro hmem
    obtain ⟨c, hc, heq⟩ := List.mem_map.mp hmem
    exact (h.fresh c hc).1.ne heq
  · intro hmem
    obtain ⟨c, hc, heq⟩ := List.mem_map.mp hmem
    exact absurd (h.fresh c hc).2 (by omega)

theorem enqueue_represents (h : Represents q cells items) (item : α) :
    ∃ q', enqueue q item = some q' ∧
      Represents q' (cells ++ [(q.fresh, q.fresh + 1)]) (items ++ [item]) := by
  obtain ⟨hnode, hblock⟩ := h.fresh_notMem
  -- all but the links
  have hrest : ∀ root nodes, Chain nodes root (cells ++ [(q.fresh, q.fresh + 1)]) none →
      Represents ⟨some q.fresh, root, nodes, Function.update q.blocks (q.fresh + 1) (some item),
        q.fresh + 2⟩ (cells ++ [(q.fresh, q.fresh + 1)]) (items ++ [item]) := by
    intro root nodes hchain
    refine ⟨hchain, by simp, ?_, ?_, ?_, ?_⟩
    · rw [List.map_append, blocks_update hblock, h.items]
      simp
    · rw [List.map_append]
      exact h.nodes.append (List.nodup_singleton _) (List.disjoint_singleton.mpr hnode)
    · rw [List.map_append]
      exact h.blocks.append (List.nodup_singleton _) (List.disjoint_singleton.mpr hblock)
    · intro c (hc : c ∈ cells ++ [(q.fresh, q.fresh + 1)])
      rw [List.mem_append, List.mem_singleton] at hc
      rcases hc with hc | rfl
      · have hlt := h.fresh c hc
        exact ⟨hlt.1.trans (by simp), hlt.2.trans (by simp)⟩
      · exact ⟨by simp, by simp⟩
  rcases List.eq_nil_or_concat cells with rfl | ⟨front, last, hcells⟩
  · have hhead : q.head = none := h.head
    exact ⟨_, by simp [enqueue, hhead],
      hrest _ (Function.update q.nodes q.fresh (some ⟨q.fresh + 1, none⟩))
        ⟨rfl, ⟨q.fresh + 1, none⟩, Function.update_self _ _ _, rfl, rfl⟩⟩
  · rw [List.concat_eq_append] at hcells
    subst hcells
    have hhead : q.head = some last.1 := by rw [h.head, List.map_append]; simp
    obtain ⟨nodes, hset, hchain⟩ :=
      chain_link h.chain h.nodes (q.fresh, q.fresh + 1) hnode
    exact ⟨_, by simp only [enqueue, hhead, hset, Option.map_some], hrest _ _ hchain⟩

theorem dequeue_empty (h : Represents q [] items) : dequeue q = some (none, q) :=
  if_pos h.head

theorem dequeue_represents (h : Represents q (c :: cells) (item :: items)) :
    ∃ q', dequeue q = some (some c.2, q') ∧ Represents q' cells items ∧
      q'.blocks = q.blocks ∧ q'.fresh = q.fresh := by
  obtain ⟨hroot, nd, hnd, hdata, hchain⟩ := h.chain
  have hnodes := List.nodup_cons.mp h.nodes
  have hhead : q.head ≠ none := by
    rw [h.head, ne_eq, List.getLast?_eq_none_iff]
    exact List.cons_ne_nil _ _
  have hitems := h.items
  rw [List.map_cons, List.map_cons, List.cons.injEq] at hitems
  refine ⟨{ q with
    root := nd.next, head := if nd.next = none then none else q.head,
    nodes := Function.update q.nodes c.1 none }, ?_,
    ⟨chain_update hchain hnodes.1 none, ?_, hitems.2, hnodes.2, (List.nodup_cons.mp h.blocks).2,
      fun x hx => h.fresh x (List.mem_cons_of_mem c hx)⟩, rfl, rfl⟩
  · simp [dequeue, hhead, hroot, hnd, hdata]
  · have hnext := chain_first hchain
    cases cells with
    | nil => exact if_pos hnext
    | cons d cells =>
      refine (if_neg (by simp [hnext])).trans (h.head.trans ?_)
      simp [List.getLast?_cons_cons]

theorem freeBlock_represents (h : Represents q cells items) {data : ℕ}
    (hdata : data ∉ cells.map Prod.snd) (hblock : q.blocks data = some item) :
    ∃ q', freeBlock q (some data) = some q' ∧ Represents q' cells items := by
  refine ⟨{ q with blocks := Function.update q.blocks data none }, ?_,
    ⟨h.chain, h.head, ?_, h.nodes, h.blocks, h.fresh⟩⟩
  · simp [freeBlock, hblock]
  · exact (blocks_update hdata none).trans h.items

/-- The loop takes one turn for each item, and none is left. -/
theorem queueClearLoop_represents {fuel : ℕ} (h : Represents q cells items)
    (hfuel : cells.length ≤ fuel) :
    ∃ q', queueClearLoop fuel q = some q' ∧ Represents q' [] [] := by
  induction cells generalizing q items fuel with
  | nil =>
    have hroot : q.root = none := h.chain
    have hitems : items = [] := List.length_eq_zero_iff.mp h.length.symm
    exact ⟨q, by simp [queueClearLoop, hroot], hitems ▸ h⟩
  | cons c cells ih =>
    cases items with
    | nil => exact absurd h.length (by simp)
    | cons item items =>
      cases fuel with
      | zero => exact absurd hfuel (by simp)
      | succ fuel =>
        obtain ⟨q₁, hdeq, h₁, hblocks, _⟩ := dequeue_represents h
        have hitem : q₁.blocks c.2 = some item := by
          rw [hblocks]
          exact (List.cons.inj h.items).1
        obtain ⟨q₂, hfree, h₂⟩ :=
          freeBlock_represents h₁ (List.nodup_cons.mp h.blocks).1 hitem
        obtain ⟨q', hloop, h'⟩ := ih h₂ (Nat.le_of_succ_le_succ hfuel)
        refine ⟨q', ?_, h'⟩
        have hroot : q.root = some c.1 := h.chain.1
        simp [queueClearLoop, hroot, hdeq, hfree, hloop]

theorem queueClear_represents (h : Represents q cells items) :
    ∃ q', queueClear q = some q' ∧ Represents q' [] [] := by
  refine queueClearLoop_represents h ?_
  have hsub : cells.map Prod.fst ⊆ List.range q.fresh := by
    intro x hx
    obtain ⟨c, hc, rfl⟩ := List.mem_map.mp hx
    exact List.mem_range.mpr (h.fresh c hc).1
  simpa using (h.nodes.subperm hsub).length_le

end

def Holds (q : Queue α) (items : List α) : Prop := ∃ cells, Represents q cells items

section
variable {q : Queue α} {items : List α}

theorem call_holds (h : Holds q items) (op : QueueOp α) :
    ∃ returned q', op.call q = some (returned, q') ∧ Meets q items op returned q' ∧
      Holds q' (op.change items returned) := by
  obtain ⟨cells, h⟩ := h
  cases op with
  | enqueue item =>
    obtain ⟨q', henq, h'⟩ := enqueue_represents h item
    exact ⟨none, q', by simp [QueueOp.call, henq],
      ⟨⟨by simp [QueueOp.due], by simp⟩, lists_of_represents h'⟩, _, h'⟩
  | dequeue =>
    cases cells with
    | nil =>
      have hitems : items = [] := List.length_eq_zero_iff.mp h.length.symm
      subst hitems
      exact ⟨none, q, dequeue_empty h,
        ⟨⟨by simp [QueueOp.due], by simp⟩, lists_of_represents h⟩, _, h⟩
    | cons c cells =>
      cases items with
      | nil => exact absurd h.length (by simp)
      | cons item items =>
        obtain ⟨q', hdeq, h', hblocks, _⟩ := dequeue_represents h
        refine ⟨some c.2, q', hdeq, ⟨⟨by simp [QueueOp.due], ?_⟩, lists_of_represents h'⟩, _, h'⟩
        intro data hdata
        cases hdata
        rw [hblocks]
        exact (List.cons.inj h.items).1
  | clear =>
    obtain ⟨q', hclear, h'⟩ := queueClear_represents h
    exact ⟨none, q', by simp [QueueOp.call, hclear],
      ⟨⟨by simp [QueueOp.due], by simp⟩, lists_of_represents h'⟩, _, h'⟩

theorem follows_of_holds (h : Holds q items) (ops : List (QueueOp α)) :
    Follows QueueOp.call QueueOp.change Meets (fun _ => True) q items ops :=
  follows_of_simulation (R := Holds) (fun _ _ _ => trivial) (fun _ _ op h => call_holds h op) ops h

/-- The queue can be cleared, and then serves every sequence of calls as a fresh one does. -/
def Clears (q : Queue α) : Prop :=
  ∃ cleared, queueClear q = some cleared ∧ Lists cleared [] ∧ ∀ later,
    Follows QueueOp.call QueueOp.change Meets (fun _ => True) cleared [] later

theorem clears_of_holds (h : Holds q items) : Clears q := by
  obtain ⟨cells, h⟩ := h
  obtain ⟨cleared, hclear, h'⟩ := queueClear_represents h
  exact ⟨cleared, hclear, lists_of_represents h', follows_of_holds ⟨_, h'⟩⟩

end

/-- In every sequence of calls on a fresh queue, each call is carried out, the queue lists the
items that are in it, and items are returned in the order they were enqueued in. -/
theorem queue_firstInFirstOut (ops : List (QueueOp α)) :
    Lists (queueCreate : Queue α) [] ∧
      Follows QueueOp.call QueueOp.change Meets Clears queueCreate [] ops :=
  ⟨lists_of_represents represents_create,
    follows_of_simulation (R := Holds) (fun _ _ h => clears_of_holds h)
      (fun _ _ op h => call_holds h op) ops ⟨[], represents_create⟩⟩

end Cerverus.Fifo
