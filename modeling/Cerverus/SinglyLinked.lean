import Mathlib

/-!
# Singly linked chains in a heap

A heap maps addresses to nodes. `Chain` says that the `next` links visit a list of cells, an
address and the data kept there, and where they leave to.
-/
namespace Cerverus.SinglyLinked

structure Node (α : Type) where
  data : α
  next : Option ℕ
  deriving DecidableEq, Repr

abbrev Heap (α : Type) := ℕ → Option (Node α)

variable {α : Type}

def setNext (h : Heap α) (a : ℕ) (next : Option ℕ) : Option (Heap α) :=
  (h a).map fun nd => Function.update h a (some { nd with next := next })

/-- From `first`, the links visit the cells and leave to `next`. -/
def Chain (h : Heap α) : Option ℕ → List (ℕ × α) → Option ℕ → Prop
  | first, [], next => first = next
  | first, c :: cells, next =>
    first = some c.1 ∧ ∃ nd, h c.1 = some nd ∧ nd.data = c.2 ∧ Chain h nd.next cells next

section
variable {h h' : Heap α} {first next : Option ℕ} {cells cells' : List (ℕ × α)} {c : ℕ × α}

theorem chain_append : Chain h first (cells ++ cells') next ↔
    ∃ middle, Chain h first cells middle ∧ Chain h middle cells' next := by
  induction cells generalizing first with
  | nil =>
    constructor
    · intro hc
      exact ⟨first, rfl, hc⟩
    · intro hex
      obtain ⟨middle, rfl, hc⟩ := hex
      exact hc
  | cons c cells ih =>
    constructor
    · intro hc
      obtain ⟨hf, nd, hnd, hd, hc⟩ := hc
      obtain ⟨middle, h₁, h₂⟩ := ih.mp hc
      exact ⟨middle, ⟨hf, nd, hnd, hd, h₁⟩, h₂⟩
    · intro hex
      obtain ⟨middle, ⟨hf, nd, hnd, hd, h₁⟩, h₂⟩ := hex
      exact ⟨hf, nd, hnd, hd, ih.mpr ⟨middle, h₁, h₂⟩⟩

theorem chain_frame (hc : Chain h first cells next) (he : ∀ c ∈ cells, h' c.1 = h c.1) :
    Chain h' first cells next := by
  induction cells generalizing first with
  | nil => exact hc
  | cons c cells ih =>
    obtain ⟨hf, nd, hnd, hd, hc⟩ := hc
    exact ⟨hf, nd, (he c List.mem_cons_self).trans hnd, hd,
      ih hc fun x hx => he x (List.mem_cons_of_mem c hx)⟩

theorem chain_update (hc : Chain h first cells next) {a : ℕ} (ha : a ∉ cells.map Prod.fst)
    (o : Option (Node α)) : Chain (Function.update h a o) first cells next := by
  refine chain_frame hc fun c hmem => Function.update_of_ne ?_ _ _
  intro heq
  exact ha (heq ▸ List.mem_map_of_mem hmem)

theorem chain_first (hc : Chain h first cells none) : first = (cells.map Prod.fst).head? := by
  cases cells with
  | nil => exact hc
  | cons c cells => exact hc.1

theorem chain_link (hc : Chain h first (cells ++ [c]) none)
    (hnd : ((cells ++ [c]).map Prod.fst).Nodup) (new : ℕ × α)
    (hnew : new.1 ∉ (cells ++ [c]).map Prod.fst) :
    ∃ h', setNext (Function.update h new.1 (some ⟨new.2, none⟩)) c.1 (some new.1) = some h' ∧
      Chain h' first (cells ++ [c] ++ [new]) none := by
  have hlast : c.1 ∉ cells.map Prod.fst := by
    rw [List.map_append] at hnd
    exact fun hmem => List.disjoint_of_nodup_append hnd hmem (List.mem_singleton_self _)
  have hne : new.1 ≠ c.1 := by
    intro heq
    exact hnew (heq ▸ List.mem_map_of_mem (by simp))
  obtain ⟨middle, hcells, hf, nd, hc₁, hd, _⟩ := chain_append.mp hc
  refine ⟨Function.update (Function.update h new.1 (some ⟨new.2, none⟩)) c.1
    (some { nd with next := some new.1 }), ?_, ?_⟩
  · rw [setNext, Function.update_of_ne hne.symm, hc₁, Option.map_some]
  · have hnew' : new.1 ∉ cells.map Prod.fst := by
      intro hmem
      exact hnew (by rw [List.map_append]; exact List.mem_append_left _ hmem)
    rw [List.append_assoc]
    refine chain_append.mpr ⟨middle, chain_update (chain_update hcells hnew' _) hlast _, hf, _,
      Function.update_self _ _ _, hd, rfl, ⟨new.2, none⟩, ?_, rfl, rfl⟩
    rw [Function.update_of_ne hne, Function.update_self]

end

end Cerverus.SinglyLinked
