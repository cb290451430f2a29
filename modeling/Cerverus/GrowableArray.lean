import Cerverus.GuardedRun

/-!
# Growable arrays

Arrays on a heap without bounds. An array that is nearly full moves to one of twice the size,
and its old handle is freed, so a handle that was copied before is dangling after it. A function
returns `none` where it would use a freed array or write past the end of one.
-/
namespace Cerverus.GrowableArray
open GuardedRun

variable {α : Type}

structure ArrayHeader (α : Type) where
  size : ℕ
  data : List α
  deriving DecidableEq, Repr

structure ArrayHeap (α : Type) where
  arrays : ℕ → Option (ArrayHeader α)
  fresh : ℕ

def emptyHeap : ArrayHeap α := ⟨fun _ => none, 0⟩

def arrayCreate (heap : ArrayHeap α) (size : ℕ) : ℕ × ArrayHeap α :=
  (heap.fresh, ⟨Function.update heap.arrays heap.fresh (some ⟨size, []⟩), heap.fresh + 1⟩)

def arrayDestroy (heap : ArrayHeap α) (darr : ℕ) : Option (ArrayHeap α) :=
  (heap.arrays darr).map fun _ => { heap with arrays := Function.update heap.arrays darr none }

def arrayResize (heap : ArrayHeap α) (darr newSize : ℕ) : Option (ℕ × ArrayHeap α) :=
  (heap.arrays darr).bind fun old =>
    if newSize < old.data.length then none
    else
      let temp := arrayCreate heap newSize
      let filled : ArrayHeap α :=
        { temp.2 with arrays := Function.update temp.2.arrays temp.1 (some ⟨newSize, old.data⟩) }
      (arrayDestroy filled darr).map fun heap => (temp.1, heap)

def arrayGrow (heap : ArrayHeap α) (darr : ℕ) : Option (ℕ × ArrayHeap α) :=
  (heap.arrays darr).bind fun header =>
    if header.size ≤ header.data.length + 1 then arrayResize heap darr (header.size * 2)
    else some (darr, heap)

def arrayAppend (heap : ArrayHeap α) (darr : ℕ) (element : α) : Option (ArrayHeap α) :=
  (heap.arrays darr).bind fun header =>
    if header.size ≤ header.data.length then none
    else
      let header := { header with data := header.data ++ [element] }
      some { heap with arrays := Function.update heap.arrays darr (some header) }

def arrayAdd (heap : ArrayHeap α) (darr : ℕ) (element : α) : Option (ℕ × ArrayHeap α) :=
  (arrayGrow heap darr).bind fun r =>
    (arrayAppend r.2 r.1 element).map fun heap => (r.1, heap)

/-- All that an addition can do: it is made in place, or in an array of twice the size. -/
theorem arrayAdd_cases {heap heap' : ArrayHeap α} {darr darr' : ℕ} {element : α}
    (hs : arrayAdd heap darr element = some (darr', heap')) :
    ∃ header, heap.arrays darr = some header ∧
      ((header.data.length + 1 < header.size ∧ darr' = darr ∧
          heap' = ⟨Function.update heap.arrays darr
            (some ⟨header.size, header.data ++ [element]⟩), heap.fresh⟩) ∨
        (header.size ≤ header.data.length + 1 ∧ header.data.length < header.size * 2 ∧
          darr ≠ heap.fresh ∧ darr' = heap.fresh ∧ heap' = ⟨Function.update
            (Function.update heap.arrays heap.fresh
              (some ⟨header.size * 2, header.data ++ [element]⟩)) darr none,
            heap.fresh + 1⟩)) := by
  obtain ⟨⟨darr₁, heap₁⟩, hgrow, hs⟩ := Option.bind_eq_some_iff.mp hs
  obtain ⟨heap₂, happend, hs⟩ := Option.map_eq_some_iff.mp hs
  cases hs
  obtain ⟨header, hheader, hgrow⟩ := Option.bind_eq_some_iff.mp hgrow
  refine ⟨header, hheader, ?_⟩
  split_ifs at hgrow with hfull
  · right
    obtain ⟨old, hold, hgrow⟩ := Option.bind_eq_some_iff.mp hgrow
    cases hheader.symm.trans hold
    split_ifs at hgrow
    simp only [arrayCreate, arrayDestroy, Function.update_idem, Option.map_eq_some_iff,
      Prod.mk.injEq] at hgrow
    obtain ⟨_, ⟨_, _, rfl⟩, rfl, rfl⟩ := hgrow
    have hne : darr ≠ heap.fresh := by
      rintro rfl
      simp [arrayAppend] at happend
    simp only [arrayAppend, Function.update_of_ne hne.symm, Function.update_self,
      Option.bind_some] at happend
    split_ifs at happend with hroom
    refine ⟨hfull, not_le.mp hroom, hne, rfl, ?_⟩
    rw [← Option.some.inj happend, Function.update_comm hne, Function.update_idem]
  · left
    cases hgrow
    simp only [arrayAppend, hheader, Option.bind_some] at happend
    split_ifs at happend
    exact ⟨not_le.mp hfull, rfl, (Option.some.inj happend).symm⟩

/-- The handle is live, and its array has room for another element. -/
structure Live (heap : ArrayHeap α) (darr size : ℕ) (elements : List α) : Prop where
  array : heap.arrays darr = some ⟨size, elements⟩
  room : elements.length < size
  lt : darr < heap.fresh

/-- The handle has been freed, and no later array gets it again. -/
structure Freed (heap : ArrayHeap α) (darr : ℕ) : Prop where
  array : heap.arrays darr = none
  lt : darr < heap.fresh

section
variable {heap heap' : ArrayHeap α} {darr darr' other size : ℕ} {elements : List α} {element : α}

theorem live_create (heap : ArrayHeap α) (h : 0 < size) :
    Live (arrayCreate heap size).2 (arrayCreate heap size).1 size [] :=
  ⟨Function.update_self _ _ _, h, Nat.lt_succ_self _⟩

theorem arrayAdd_room (h : Live heap darr size elements) (hroom : elements.length + 1 < size)
    (element : α) :
    ∃ heap', arrayAdd heap darr element = some (darr, heap') ∧
      Live heap' darr size (elements ++ [element]) := by
  refine ⟨⟨Function.update heap.arrays darr (some ⟨size, elements ++ [element]⟩), heap.fresh⟩,
    ?_, Function.update_self _ _ _, by simpa, h.lt⟩
  simp [arrayAdd, arrayGrow, arrayAppend, h.array, not_le.mpr hroom, not_le.mpr h.room]

theorem arrayAdd_full (h : Live heap darr size elements) (hfull : size ≤ elements.length + 1)
    (element : α) :
    ∃ heap', arrayAdd heap darr element = some (heap.fresh, heap') ∧
      Live heap' heap.fresh (size * 2) (elements ++ [element]) ∧ Freed heap' darr := by
  have hroom := h.room
  have hne : heap.fresh ≠ darr := h.lt.ne'
  let moved := Function.update (Function.update (Function.update heap.arrays heap.fresh
    (some ⟨size * 2, []⟩)) heap.fresh (some ⟨size * 2, elements⟩)) darr none
  have hmoved : moved heap.fresh = some ⟨size * 2, elements⟩ := by
    simp only [moved, Function.update_of_ne hne, Function.update_self]
  refine ⟨⟨Function.update moved heap.fresh (some ⟨size * 2, elements ++ [element]⟩),
    heap.fresh + 1⟩, ?_, ⟨Function.update_self _ _ _, ?_, Nat.lt_succ_self _⟩, ?_,
    h.lt.trans (Nat.lt_succ_self _)⟩
  · have hresize : arrayResize heap darr (size * 2) =
        some (heap.fresh, ⟨moved, heap.fresh + 1⟩) := by
      have hfit : ¬ size * 2 < elements.length := by omega
      simp [arrayResize, h.array, hfit, arrayCreate, arrayDestroy, moved,
        Function.update_of_ne hne.symm]
    have hfit : ¬ size * 2 ≤ elements.length := by omega
    simp [arrayAdd, arrayGrow, h.array, hfull, hresize, arrayAppend, hmoved, hfit]
  · rw [List.length_append, List.length_singleton]
    omega
  · exact (Function.update_of_ne hne.symm _ _).trans (Function.update_self _ _ _)

/-- An addition never brings a freed handle back. -/
theorem freed_add (hs : arrayAdd heap darr element = some (darr', heap'))
    (h : Freed heap other) : Freed heap' other := by
  obtain ⟨header, hheader, hcases⟩ := arrayAdd_cases hs
  have hne : other ≠ darr := by
    rintro rfl
    cases h.array.symm.trans hheader
  rcases hcases with ⟨_, _, rfl⟩ | ⟨_, _, _, _, rfl⟩
  · exact ⟨(Function.update_of_ne hne _ _).trans h.array, h.lt⟩
  · refine ⟨(Function.update_of_ne hne _ _).trans ?_, h.lt.trans (Nat.lt_succ_self _)⟩
    exact (Function.update_of_ne h.lt.ne _ _).trans h.array

theorem arrayAdd_live (h : Live heap darr size elements) (element : α) :
    ∃ darr' heap' size', arrayAdd heap darr element = some (darr', heap') ∧
      Live heap' darr' size' (elements ++ [element]) := by
  by_cases hfull : size ≤ elements.length + 1
  · obtain ⟨heap', hadd, hlive, _⟩ := arrayAdd_full h hfull element
    exact ⟨_, heap', _, hadd, hlive⟩
  · obtain ⟨heap', hadd, hlive⟩ := arrayAdd_room h (not_le.mp hfull) element
    exact ⟨_, heap', _, hadd, hlive⟩

/-- What an addition leaves alone, and where the array can be afterwards. -/
structure Added (heap heap' : ArrayHeap α) (darr darr' : ℕ) : Prop where
  others : ∀ other < heap.fresh, other ≠ darr → heap'.arrays other = heap.arrays other
  handle : darr' = darr ∨ darr' = heap.fresh
  fresh : heap.fresh ≤ heap'.fresh

theorem added_add (hs : arrayAdd heap darr element = some (darr', heap')) :
    Added heap heap' darr darr' := by
  obtain ⟨header, hheader, hcases⟩ := arrayAdd_cases hs
  rcases hcases with ⟨_, hdarr, rfl⟩ | ⟨_, _, _, hdarr, rfl⟩
  · exact ⟨fun other _ hne => Function.update_of_ne hne _ _, Or.inl hdarr, le_rfl⟩
  · refine ⟨fun other hlt hne => ?_, Or.inr hdarr, Nat.le_succ _⟩
    exact (Function.update_of_ne hne _ _).trans (Function.update_of_ne hlt.ne _ _)

end

/-! ## Runs -/

abbrev Handle (α : Type) := ArrayHeap α × ℕ

def created (heap : ArrayHeap α) (size : ℕ) : Handle α :=
  ((arrayCreate heap size).2, (arrayCreate heap size).1)

/-- A caller keeps the handle the last addition returned. -/
def addStep (s : Handle α) (element : α) : Option (Handle α) :=
  (arrayAdd s.1 s.2 element).map Prod.swap

section
variable {s : Handle α} {size : ℕ} {elements : List α}

theorem addStep_live (h : Live s.1 s.2 size elements) (element : α) :
    ∃ t size', addStep s element = some t ∧ Live t.1 t.2 size' (elements ++ [element]) ∧
      size' ≤ max size (2 * (elements.length + 1)) := by
  by_cases hfull : size ≤ elements.length + 1
  · obtain ⟨heap', hadd, hlive, _⟩ := arrayAdd_full h hfull element
    exact ⟨(heap', s.1.fresh), _, by simp [addStep, hadd], hlive, by omega⟩
  · obtain ⟨heap', hadd, hlive⟩ := arrayAdd_room h (not_le.mp hfull) element
    exact ⟨(heap', s.2), _, by simp [addStep, hadd], hlive, le_max_left _ _⟩

/-- The run goes through, and the array never gets larger than twice its length at need. -/
theorem run_live (heap : ArrayHeap α) (h : 0 < size) (elements : List α) :
    ∃ t size', run addStep (created heap size) elements = some t ∧
      Live t.1 t.2 size' elements ∧ size' ≤ max size (2 * elements.length) := by
  induction elements using List.reverseRecOn with
  | nil => exact ⟨_, size, rfl, live_create heap h, le_max_left _ _⟩
  | append_singleton elements element ih =>
    obtain ⟨t, size', hrun, hlive, hsize⟩ := ih
    obtain ⟨t', size'', hadd, hlive', hsize'⟩ := addStep_live hlive element
    refine ⟨t', size'', ?_, hlive', ?_⟩
    · rw [run_append, hrun, Option.bind_some, run_cons [] hadd]
      rfl
    · rw [List.length_append, List.length_singleton]
      omega

end

end Cerverus.GrowableArray
