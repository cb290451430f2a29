import Mathlib

/-!
# Doubly linked segments in a heap

A heap maps addresses to nodes; an address that is not allocated, or has been freed, maps
to `none`, so following it is an error. `Seg` says that a chain of `next` links visits a
list of addresses and that the `prev` links run back over the same list.
-/
namespace Cerverus.LinkedHeap

structure Node (α : Type) where
  prev : Option ℕ
  next : Option ℕ
  data : α

abbrev Heap (α : Type) := ℕ → Option (Node α)

variable {α : Type}

def setPrev (h : Heap α) (a : ℕ) (p : Option ℕ) : Option (Heap α) :=
  (h a).map fun nd => Function.update h a (some { nd with prev := p })

def setNext (h : Heap α) (a : ℕ) (n : Option ℕ) : Option (Heap α) :=
  (h a).map fun nd => Function.update h a (some { nd with next := n })

def free (h : Heap α) (a : ℕ) : Option (Heap α) :=
  (h a).map fun _ => Function.update h a none

/-- `if (a) a->prev = p`. -/
def setPrevIf (h : Heap α) (a p : Option ℕ) : Option (Heap α) :=
  match a with
  | none => some h
  | some a => setPrev h a p

/-- `free(a)`, which does nothing on a null pointer. -/
def freeIf (h : Heap α) (a : Option ℕ) : Option (Heap α) :=
  match a with
  | none => some h
  | some a => free h a

/-- The two heaps differ in the links of the node at `a` only. -/
structure Relinks (a : ℕ) (h h' : Heap α) : Prop where
  same : ∀ x, x ≠ a → h' x = h x
  data : ∀ x, (h' x).map Node.data = (h x).map Node.data

theorem relinks_update {h : Heap α} {a : ℕ} {nd nd' : Node α} (ha : h a = some nd)
    (hd : nd'.data = nd.data) : Relinks a h (Function.update h a (some nd')) := by
  refine ⟨fun x hx => Function.update_of_ne hx _ _, fun x => ?_⟩
  by_cases hx : x = a
  · subst x
    simp [ha, hd]
  · rw [Function.update_of_ne hx]

theorem setPrev_spec {h : Heap α} {a : ℕ} {nd : Node α} (ha : h a = some nd) (p : Option ℕ) :
    ∃ h', setPrev h a p = some h' ∧ Relinks a h h' ∧ h' a = some { nd with prev := p } :=
  ⟨Function.update h a (some { nd with prev := p }), by simp [setPrev, ha],
    relinks_update ha rfl, Function.update_self _ _ _⟩

theorem setNext_spec {h : Heap α} {a : ℕ} {nd : Node α} (ha : h a = some nd) (n : Option ℕ) :
    ∃ h', setNext h a n = some h' ∧ Relinks a h h' ∧ h' a = some { nd with next := n } :=
  ⟨Function.update h a (some { nd with next := n }), by simp [setNext, ha],
    relinks_update ha rfl, Function.update_self _ _ _⟩

theorem free_spec {h : Heap α} {a : ℕ} {nd : Node α} (ha : h a = some nd) :
    ∃ h', free h a = some h' ∧ h' a = none ∧ ∀ x, x ≠ a → h' x = h x :=
  ⟨_, by simp [free, ha], Function.update_self _ _ _, fun _ hx => Function.update_of_ne hx _ _⟩

/-- From `first`, entered from `prev`, the links visit `xs` and leave to `next`; `last` is
the address left from. An empty segment leaves where it is entered. -/
def Seg (h : Heap α) : Option ℕ → Option ℕ → List ℕ → Option ℕ → Option ℕ → Prop
  | prev, first, [], last, next => first = next ∧ last = prev
  | prev, first, x :: xs, last, next =>
    first = some x ∧ ∃ nd, h x = some nd ∧ nd.prev = prev ∧ Seg h (some x) nd.next xs last next

section
variable {h h' : Heap α} {p f l n : Option ℕ} {xs ys : List ℕ}

theorem seg_append :
    Seg h p f (xs ++ ys) l n ↔ ∃ m m', Seg h p f xs m m' ∧ Seg h m m' ys l n := by
  induction xs generalizing p f with
  | nil =>
    constructor
    · intro hs
      exact ⟨p, f, ⟨rfl, rfl⟩, hs⟩
    · intro hex
      obtain ⟨m, m', ⟨rfl, rfl⟩, hs⟩ := hex
      exact hs
  | cons x xs ih =>
    constructor
    · intro hex
      obtain ⟨hf, nd, hx, hp, hs⟩ := hex
      obtain ⟨m, m', h₁, h₂⟩ := ih.mp hs
      exact ⟨m, m', ⟨hf, nd, hx, hp, h₁⟩, h₂⟩
    · intro hex
      obtain ⟨m, m', ⟨hf, nd, hx, hp, h₁⟩, h₂⟩ := hex
      exact ⟨hf, nd, hx, hp, ih.mpr ⟨m, m', h₁, h₂⟩⟩

/-- A segment depends only on the nodes it visits. -/
theorem seg_frame (hs : Seg h p f xs l n) (he : ∀ x ∈ xs, h' x = h x) : Seg h' p f xs l n := by
  induction xs generalizing p f with
  | nil => exact hs
  | cons x xs ih =>
    obtain ⟨hf, nd, hx, hp, hs⟩ := hs
    refine ⟨hf, nd, ?_, hp, ih hs fun y hy => he y (List.mem_cons_of_mem x hy)⟩
    rw [he x List.mem_cons_self, hx]

theorem seg_of_same (hs : Seg h p f xs l n) {a : ℕ} (ha : a ∉ xs)
    (he : ∀ x, x ≠ a → h' x = h x) : Seg h' p f xs l n := by
  apply seg_frame hs
  intro x hx
  apply he
  intro heq
  subst heq
  exact ha hx

theorem seg_mem (hs : Seg h p f xs l n) {x : ℕ} (hx : x ∈ xs) : ∃ nd, h x = some nd := by
  induction xs generalizing p f with
  | nil => simp at hx
  | cons y ys ih =>
    obtain ⟨_, nd, hy, _, hs⟩ := hs
    rcases List.mem_cons.mp hx with rfl | hx
    · exact ⟨nd, hy⟩
    · exact ih hs hx

/-- The `next` links lead from `first` to a node. -/
inductive Leads (h : Heap α) : Option ℕ → ℕ → Prop
  | here {x : ℕ} : Leads h (some x) x
  | next {a x : ℕ} {nd : Node α} : h a = some nd → Leads h nd.next x → Leads h (some a) x

theorem leads_seg (hs : Seg h p f xs l none) {x : ℕ} : Leads h f x ↔ x ∈ xs := by
  induction xs generalizing p f with
  | nil =>
    rw [hs.1]
    exact iff_of_false (fun hx => by cases hx) List.not_mem_nil
  | cons y ys ih =>
    obtain ⟨rfl, nd, hy, _, hs⟩ := hs
    rw [List.mem_cons, ← ih hs]
    constructor
    · intro hx
      cases hx with
      | here => exact Or.inl rfl
      | next ha hx =>
        cases hy.symm.trans ha
        exact Or.inr hx
    · intro hor
      rcases hor with rfl | hx
      · exact .here
      · exact .next hy hx

theorem seg_first (hs : Seg h p f xs l none) : f = xs.head? := by
  cases xs with
  | nil => exact hs.1
  | cons x xs => exact hs.1

theorem seg_last (hs : Seg h p f xs l n) (hne : xs ≠ []) : l = xs.getLast? := by
  induction xs generalizing p f with
  | nil => exact absurd rfl hne
  | cons x xs ih =>
    obtain ⟨_, nd, _, _, hs⟩ := hs
    cases xs with
    | nil => exact hs.2
    | cons y ys => rw [List.getLast?_cons_cons, ih hs (by simp)]

theorem seg_last_none (hs : Seg h none f xs l n) : l = xs.getLast? := by
  cases xs with
  | nil => exact hs.2
  | cons x xs => exact seg_last hs (by simp)

theorem seg_setPrev {x : ℕ} (hs : Seg h p f (x :: xs) l n) (hx : x ∉ xs) (p' : Option ℕ) :
    ∃ h', setPrev h x p' = some h' ∧ Relinks x h h' ∧ Seg h' p' f (x :: xs) l n := by
  obtain ⟨hf, nd, hnd, _, hs⟩ := hs
  obtain ⟨h', hset, hr, hx'⟩ := setPrev_spec hnd p'
  exact ⟨h', hset, hr, hf, _, hx', rfl, seg_of_same hs hx hr.same⟩

theorem seg_setNext {x : ℕ} (hs : Seg h p f (xs ++ [x]) l n) (hx : x ∉ xs) (n' : Option ℕ) :
    ∃ h', setNext h x n' = some h' ∧ Relinks x h h' ∧ Seg h' p f (xs ++ [x]) l n' := by
  obtain ⟨m, m', h₁, rfl, nd, hnd, hm, _, rfl⟩ := seg_append.mp hs
  obtain ⟨h', hset, hr, hx'⟩ := setNext_spec hnd n'
  exact ⟨h', hset, hr, seg_append.mpr
    ⟨m, some x, seg_of_same h₁ hx hr.same, rfl, _, hx', hm, rfl, rfl⟩⟩

/-- A node between two others is taken out of its list; its own links stay. -/
theorem seg_unlink {q x w : ℕ} {ws : List ℕ} (hs : Seg h p f (xs ++ [q] ++ x :: w :: ws) l n)
    (hnodup : (xs ++ [q] ++ x :: w :: ws).Nodup) :
    ∃ nd h₁ h', h x = some nd ∧ nd.prev = some q ∧ nd.next = some w ∧
      setNext h q (some w) = some h₁ ∧ setPrev h₁ w (some q) = some h' ∧
      Seg h' p f (xs ++ [q] ++ w :: ws) l n ∧ h' x = some nd ∧
      ∀ z, (h' z).map Node.data = (h z).map Node.data := by
  have hmid := List.nodup_cons.mp (List.nodup_middle.mp hnodup)
  have hpart := List.nodup_append.mp hmid.2
  have hdisj := List.disjoint_of_nodup_append hmid.2
  have hqxs : q ∉ xs := fun hm => by simpa using List.disjoint_of_nodup_append hpart.1 hm
  have hqws : q ∉ w :: ws := fun hm => hdisj (by simp) hm
  have hwxs : w ∉ xs ++ [q] := fun hm => hdisj hm List.mem_cons_self
  have hqx : q ≠ x := fun he => hmid.1 (by simp [he])
  have hwx : w ≠ x := fun he => hmid.1 (by simp [he])
  obtain ⟨m, m', hseg, rfl, nd, hx, hprev, hseg₂⟩ := seg_append.mp hs
  have hm : m = some q := by simpa using seg_last hseg (by simp)
  obtain ⟨h₁, hset₁, hr₁, hs₁⟩ := seg_setNext hseg hqxs (some w)
  have hb₁ := seg_of_same hseg₂ hqws hr₁.same
  obtain ⟨h₂, hset₂, hr₂, hb₂⟩ := seg_setPrev hb₁ (List.nodup_cons.mp hpart.2.1).1 (some q)
  have ha₂ := seg_of_same hs₁ hwxs hr₂.same
  rw [hm] at ha₂
  rw [hseg₂.1] at hb₂
  exact ⟨nd, h₁, h₂, hx, hprev.trans hm, hseg₂.1, hset₁, hset₂,
    seg_append.mpr ⟨_, _, ha₂, hb₂⟩,
    by rw [hr₂.same x hwx.symm, hr₁.same x hqx.symm, hx],
    fun z => (hr₂.data z).trans (hr₁.data z)⟩

/-- A node outside a list becomes its first. -/
theorem seg_linkFront {x y : ℕ} {nd : Node α} (hs : Seg h p f (y :: xs) l n)
    (hnodup : (x :: y :: xs).Nodup) (hx : h x = some nd) :
    ∃ h₁ h₂ h', setNext h x (some y) = some h₁ ∧ setPrev h₁ y (some x) = some h₂ ∧
      setPrev h₂ x none = some h' ∧ Seg h' none (some x) (x :: y :: xs) l n ∧
      ∀ z, (h' z).map Node.data = (h z).map Node.data := by
  obtain ⟨hxy, hnodup⟩ := List.nodup_cons.mp hnodup
  have hyx : y ≠ x := fun he => hxy (by simp [he])
  obtain ⟨h₁, hset₁, hr₁, hx₁⟩ := setNext_spec hx (some y)
  have hs₁ := seg_of_same hs hxy hr₁.same
  obtain ⟨h₂, hset₂, hr₂, hs₂⟩ := seg_setPrev hs₁ (List.nodup_cons.mp hnodup).1 (some x)
  have hx₂ := (hr₂.same x hyx.symm).trans hx₁
  obtain ⟨h₃, hset₃, hr₃, hx₃⟩ := setPrev_spec hx₂ none
  have hs₃ := seg_of_same hs₂ hxy hr₃.same
  have hf : f = some y := hs.1
  subst hf
  exact ⟨h₁, h₂, h₃, hset₁, hset₂, hset₃, ⟨rfl, _, hx₃, rfl, hs₃⟩,
    fun z => (hr₃.data z).trans ((hr₂.data z).trans (hr₁.data z))⟩

end

end Cerverus.LinkedHeap
