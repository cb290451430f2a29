import Cerverus.GuardedRun
import Cerverus.LruCache

/-!
# Eviction order

A run of additions and look-ups, next to the list of entries a least-recently-used cache
would hold. The two agree exactly as long as no look-up finds the last of several nodes:
`doubly_linked_list_move_to_front` leaves `tail` on the node it has just moved to the front.
-/
namespace Cerverus.Lru
open Dll Hash GuardedRun

variable {β : Type}

/-! ## The abstract cache -/

def touch {α : Type} [DecidableEq α] {γ : Type} (x : α) (held : List (α × γ)) : List (α × γ) :=
  held.filter (fun p => p.1 = x) ++ held.filter fun p => p.1 ≠ x

def keepRecent {α : Type} (c : ℕ) (held : List α) : List α :=
  if c < held.length then held.dropLast else held

def leastRecent {α : Type} (c : ℕ) (held : List α) : Option α :=
  if c < held.length then held.getLast? else none

section
variable {α : Type} {c : ℕ} {held ys : List α} (q p : α)

theorem keepRecent_room (h : held.length < c) : keepRecent c (q :: held) = q :: held :=
  if_neg (by simpa using h)

theorem leastRecent_room (h : held.length < c) : leastRecent c (q :: held) = none :=
  if_neg (by simpa using h)

theorem keepRecent_full (h : ys.length + 1 = c) :
    keepRecent c (q :: (ys ++ [p])) = q :: ys := by
  rw [keepRecent, if_pos (by simp; omega), ← List.cons_append, List.dropLast_concat]

theorem leastRecent_full (h : ys.length + 1 = c) :
    leastRecent c (q :: (ys ++ [p])) = some p := by
  rw [leastRecent, if_pos (by simp; omega), ← List.cons_append, List.getLast?_concat]

end

theorem touch_split {α : Type} [DecidableEq α] {γ : Type} {x : α} {e : γ}
    {as bs : List (α × γ)} (hnd : ((as ++ (x, e) :: bs).map Prod.fst).Nodup) :
    touch x (as ++ (x, e) :: bs) = (x, e) :: (as ++ bs) := by
  rw [List.map_append, List.map_cons, List.nodup_middle, List.nodup_cons, ← List.map_append]
    at hnd
  have hne : ∀ p ∈ as ++ bs, p.1 ≠ x := fun p hp he =>
    hnd.1 (List.mem_map.mpr ⟨p, hp, he⟩)
  have has : ∀ p ∈ as, p.1 ≠ x := fun p hp => hne p (List.mem_append_left _ hp)
  have hbs : ∀ p ∈ bs, p.1 ≠ x := fun p hp => hne p (List.mem_append_right _ hp)
  have hnil : ∀ l : List (α × γ), (∀ p ∈ l, p.1 ≠ x) → l.filter (fun p => p.1 = x) = [] :=
    fun l hl => List.filter_eq_nil_iff.mpr fun p hp => by simpa using hl p hp
  have hall : ∀ l : List (α × γ), (∀ p ∈ l, p.1 ≠ x) → l.filter (fun p => p.1 ≠ x) = l :=
    fun l hl => List.filter_eq_self.mpr fun p hp => by simpa using hl p hp
  rw [touch, List.filter_append, List.filter_append, List.filter_cons_of_pos (by simp),
    List.filter_cons_of_neg (by simp), hnil as has, hnil bs hbs, hall as has, hall bs hbs]
  rfl

/-! ## Runs -/

inductive Op (β : Type)
  | add (label : Bytes) (item : β)
  | get (label : Bytes)

/-- The cache, what an LRU cache would hold, every item added, and what was evicted by the
code and by an LRU cache, oldest first. -/
structure OrderState (β : Type) where
  cache : LruCache β
  held : List (ℕ × DllEntry β)
  added : List β
  evicted : List β
  expected : List β

def start (hash : Bytes → UInt64) (c : ℕ) : OrderState β :=
  ⟨lruCacheCreateWith hash c, [], [], [], []⟩

def afterAdd (s : OrderState β) (label : Bytes) (item : β) (r : AddResult β) : OrderState β :=
  let held := (r.newNode, ⟨label, item⟩) :: s.held
  { cache := r.cache
    held := keepRecent s.cache.size held
    added := s.added ++ [item]
    evicted := s.evicted ++ r.evicted.toList
    expected := s.expected ++ ((leastRecent s.cache.size held).map fun p => p.2.data).toList }

def afterGet (s : OrderState β) (found : Option (ℕ × β)) (cache : LruCache β) : OrderState β :=
  { s with
    cache := cache
    held := match found with
      | none => s.held
      | some (x, _) => touch x s.held }

def step (s : OrderState β) : Op β → Option (OrderState β)
  | .add label item => (lruCacheAdd s.cache label item).map (afterAdd s label item)
  | .get label => (lruCacheGet s.cache label).map fun r => afterGet s r.1 r.2

/-- The list holds the expected nodes in the expected order, never more than its capacity;
the evicted items are the least recently used ones; no item is lost or evicted twice. -/
structure Ordered (s : OrderState β) : Prop where
  nodes : Represents s.cache.dll (s.held.map Prod.fst)
  entries : ∀ p ∈ s.held, dataAt s.cache.dll p.1 = some p.2
  length : s.cache.dll.length ≤ s.cache.size
  evicted : s.evicted = s.expected
  conserved : s.added.Perm (s.held.map (fun p => p.2.data) ++ s.evicted)

def SparesTail (s : OrderState β) : Op β → Prop
  | .add _ _ => True
  | .get label => ∀ x ∈ s.cache.dll.tail, hashmapGet s.cache.hmap label = some (some x) →
      s.cache.dll.head = some x

instance decidableSparesTail (s : OrderState β) : ∀ a, Decidable (SparesTail s a)
  | .add _ _ => inferInstanceAs (Decidable True)
  | .get _ => inferInstanceAs (Decidable (∀ x ∈ s.cache.dll.tail, _ → _))

structure OrderInv (s : OrderState β) : Prop where
  held : Held s.cache s.held
  size_pos : 1 ≤ s.cache.size
  length : s.held.length ≤ s.cache.size
  evicted : s.evicted = s.expected
  conserved : s.added.Perm (s.held.map (fun p => p.2.data) ++ s.evicted)

theorem OrderInv.ordered {s : OrderState β} (h : OrderInv s) : Ordered s :=
  ⟨h.held.nodes, h.held.entries, h.held.length_eq ▸ h.length, h.evicted, h.conserved⟩

theorem orderInv_start (hash : Bytes → UInt64) {c : ℕ} (hc : 1 ≤ c) :
    OrderInv (start hash c : OrderState β) :=
  ⟨held_create hash hc, hc, Nat.zero_le _, rfl, List.Perm.nil⟩

section
variable {s t : OrderState β}

theorem orderInv_add (h : OrderInv s) (label : Bytes) (item : β) :
    ∃ t, step s (.add label item) = some t ∧ OrderInv t := by
  rcases h.length.lt_or_eq with hroom | hfull
  · obtain ⟨r, hr, hnew, hev, hsize, hheld, _⟩ := lruCacheAdd_room h.held hroom label item
    refine ⟨afterAdd s label item r, by simp [step, hr], ?_⟩
    simp only [afterAdd, keepRecent_room _ hroom, leastRecent_room _ hroom, hev, hnew]
    refine ⟨hheld, hsize.symm ▸ h.size_pos, ?_, by simp [h.evicted], ?_⟩
    · simp only [List.length_cons, hsize]
      omega
    · simp only [List.map_cons, List.cons_append, Option.toList_none, List.append_nil]
      exact (List.perm_append_singleton _ _).trans (h.conserved.cons item)
  · have hne : s.held ≠ [] := by
      intro he
      simp only [he, List.length_nil] at hfull
      have := h.size_pos
      omega
    obtain ⟨ys, ⟨x, e⟩, hys⟩ := (List.eq_nil_or_concat s.held).resolve_left hne
    rw [List.concat_eq_append] at hys
    have hlen : ys.length + 1 = s.cache.size := by simpa [hys] using hfull
    obtain ⟨r, hr, hnew, hev, hsize, hheld, _⟩ :=
      lruCacheAdd_full (hys ▸ h.held) hlen label item
    refine ⟨afterAdd s label item r, by simp [step, hr], ?_⟩
    simp only [afterAdd, hys, keepRecent_full _ _ hlen, leastRecent_full _ _ hlen, hev, hnew]
    refine ⟨hheld, hsize.symm ▸ h.size_pos, ?_, by simp [h.evicted], ?_⟩
    · simp only [List.length_cons, hsize]
      omega
    · have hcons := h.conserved
      simp only [hys, List.map_append, List.map_cons, List.map_nil] at hcons
      refine (List.perm_append_singleton _ _).trans ((hcons.cons item).trans ?_)
      simp only [List.map_cons, List.cons_append, Option.toList_some, List.append_assoc]
      refine List.Perm.cons _ (List.Perm.append_left _ ?_)
      exact (List.perm_append_singleton _ _).symm

theorem found_split (h : OrderInv s) {label : Bytes} {x : ℕ}
    (ho : hashmapGet s.cache.hmap label = some (some x)) :
    ∃ as e bs, s.held = as ++ (x, e) :: bs ∧
      (SparesTail s (.get label) ↔ as = [] ∨ bs ≠ []) := by
  obtain ⟨as, e, bs, hsplit, _⟩ := h.held.split ((hashmapGet_eq_some h.held.probed).mp ho)
  have hnodes : Represents s.cache.dll ((as ++ (x, e) :: bs).map Prod.fst) := hsplit ▸ h.held.nodes
  have hnd := hnodes.nodup
  refine ⟨as, e, bs, hsplit, ?_⟩
  have htail := hnodes.tail_eq
  have hhead := hnodes.head_eq
  simp only [SparesTail, ho, Option.mem_def, Option.some.injEq]
  constructor
  · intro hg
    by_contra! hno
    obtain ⟨has, rfl⟩ := hno
    have hx := hg x (by rw [htail]; simp) rfl
    obtain ⟨p, ps, rfl⟩ := List.exists_cons_of_ne_nil has
    rw [hhead] at hx
    simp only [List.cons_append, List.map_cons, List.head?_cons, Option.some.injEq] at hx
    simp [hx] at hnd
  · intro hlast y hy heq
    subst heq
    rcases hlast with rfl | hbs
    · rw [hhead]
      rfl
    · obtain ⟨cs, p, rfl⟩ := (List.eq_nil_or_concat bs).resolve_left hbs
      rw [htail, List.concat_eq_append, ← List.cons_append, ← List.append_assoc] at hy
      simp only [List.map_append, List.map_singleton, List.getLast?_concat,
        Option.some.injEq] at hy
      simp [hy, List.nodup_append] at hnd

theorem orderInv_get (h : OrderInv s) {label : Bytes} (hg : SparesTail s (.get label)) :
    ∃ t, step s (.get label) = some t ∧ OrderInv t := by
  obtain ⟨o, ho⟩ := hashmapGet_isSome h.held.probed label
  cases o with
  | none =>
    have hget := lruCacheGet_absent h.held ((hashmapGet_eq_none h.held.probed).mp ho)
    exact ⟨s, by simp [step, hget, afterGet], h⟩
  | some x =>
    obtain ⟨as, e, bs, hsplit, hiff⟩ := found_split h ho
    have hheld : Held s.cache (as ++ (x, e) :: bs) := hsplit ▸ h.held
    obtain ⟨dll, hget, hheld'⟩ :=
      lruCacheGet_found hheld ((hashmapGet_eq_some h.held.probed).mp ho) (hiff.mp hg)
    have hperm : ((x, e) :: (as ++ bs)).Perm s.held := hsplit ▸ List.perm_middle.symm
    refine ⟨afterGet s (some (x, e.data)) { s.cache with dll := dll }, by simp [step, hget], ?_⟩
    simp only [afterGet, hsplit, touch_split hheld.nodes.nodup]
    refine ⟨hheld', h.size_pos, hperm.length_eq ▸ h.length, h.evicted, ?_⟩
    exact h.conserved.trans ((hperm.map _).symm.append_right _)

/-- A look-up that finds the last of several nodes goes through, but breaks the order. -/
theorem not_ordered_get (h : OrderInv s) {label : Bytes} (hg : ¬ SparesTail s (.get label)) :
    ∃ t, step s (.get label) = some t ∧ ¬ Ordered t := by
  obtain ⟨x, ho⟩ : ∃ x, hashmapGet s.cache.hmap label = some (some x) := by
    by_contra! hno
    exact hg fun x _ ho => absurd ho (hno x)
  obtain ⟨as, e, bs, hsplit, hiff⟩ := found_split h ho
  have has : as ≠ [] := fun has => hg (hiff.mpr (Or.inl has))
  obtain rfl : bs = [] := by_contra fun hbs => hg (hiff.mpr (Or.inr hbs))
  have hheld : Held s.cache (as ++ [(x, e)]) := hsplit ▸ h.held
  obtain ⟨dll, hget, htail⟩ :=
    lruCacheGet_last hheld ((hashmapGet_eq_some h.held.probed).mp ho) has
  refine ⟨afterGet s (some (x, e.data)) { s.cache with dll := dll }, by simp [step, hget],
    fun hord => ?_⟩
  have hnodes := hord.nodes
  simp only [afterGet, hsplit, touch_split hheld.nodes.nodup, List.append_nil] at hnodes
  obtain ⟨cs, p, rfl⟩ := (List.eq_nil_or_concat as).resolve_left has
  have hlast := hnodes.tail_eq
  have hnd := hnodes.nodup
  rw [List.concat_eq_append] at hlast hnd
  rw [← List.cons_append, List.map_append, List.map_singleton, List.getLast?_concat, htail] at hlast
  simp [Option.some.inj hlast] at hnd

theorem orderInv_step (h : OrderInv s) {a : Op β} (hg : SparesTail s a) (hs : step s a = some t) :
    OrderInv t := by
  obtain ⟨t', ht', hinv⟩ : ∃ t', step s a = some t' ∧ OrderInv t' := by
    cases a with
    | add label item => exact orderInv_add h label item
    | get label => exact orderInv_get h hg
  rw [ht'] at hs
  exact Option.some.inj hs ▸ hinv

/-- No call follows a bad pointer, even the one that breaks the order. -/
theorem step_defined (h : OrderInv s) (a : Op β) : (step s a).isSome := by
  cases a with
  | add label item =>
    obtain ⟨t, ht, _⟩ := orderInv_add h label item
    simp [ht]
  | get label =>
    by_cases hg : SparesTail s (.get label)
    · obtain ⟨t, ht, _⟩ := orderInv_get h hg
      simp [ht]
    · obtain ⟨t, ht, _⟩ := not_ordered_get h hg
      simp [ht]

theorem sparesTail_of_ordered (h : OrderInv s) {a : Op β} (hs : step s a = some t)
    (ht : Ordered t) : SparesTail s a := by
  cases a with
  | add label item => trivial
  | get label =>
    by_contra hg
    obtain ⟨t', ht', hno⟩ := not_ordered_get h hg
    rw [hs] at ht'
    exact hno (Option.some.inj ht' ▸ ht)

end

/-- Every call goes through and keeps the cache in order, exactly when no look-up finds the
last of several nodes. -/
theorem ordered_iff_sparesTail (hash : Bytes → UInt64) {c : ℕ} (hc : 1 ≤ c) (ops : List (Op β)) :
    ((run step (start hash c) ops).isSome ∧ Along step Ordered (start hash c) ops) ↔
      Guarded step SparesTail (start hash c) ops := by
  have hinv : OrderInv (start hash c : OrderState β) := orderInv_start hash hc
  constructor
  · intro hex
    obtain ⟨_, hord⟩ := hex
    exact guarded_of_along (fun _ _ _ h hg hs => orderInv_step h hg hs)
      (fun _ _ _ h hs ht => sparesTail_of_ordered h hs ht) hinv hord
  · intro hg
    refine ⟨run_isSome_of_guarded (fun _ a h => step_defined h a)
      (fun _ _ _ h hg hs => orderInv_step h hg hs) hinv hg, ?_⟩
    exact along_mono (fun _ h => h.ordered)
      (along_of_guarded (fun _ _ _ h hg hs => orderInv_step h hg hs) hinv hg)

theorem ordered_get_head :
    (run step (start hashFnv1a 2) [.add [97] 1, .add [98] 2, .get [98], .add [99] 3]).isSome ∧
      Along step Ordered (start hashFnv1a 2)
        [.add [97] 1, .add [98] 2, .get [98], .add [99] (3 : ℕ)] :=
  (ordered_iff_sparesTail hashFnv1a (by decide) _).mpr (by decide +kernel)

/-- In a cache of two, looking up the older entry makes the next addition evict it. -/
theorem evicts_entry_just_used :
    (run step (start hashFnv1a 2) [.add [97] 1, .add [98] 2, .get [97], .add [99] (3 : ℕ)]).map
        (fun s => (s.evicted, s.expected)) = some ([1], [2]) ∧
      ¬ Along step Ordered (start hashFnv1a 2)
        [.add [97] 1, .add [98] 2, .get [97], .add [99] (3 : ℕ)] := by
  have hrun : (run step (start hashFnv1a 2)
      [.add [97] 1, .add [98] 2, .get [97], .add [99] (3 : ℕ)]).map
        (fun s => (s.evicted, s.expected)) = some ([1], [2]) := by decide +kernel
  refine ⟨hrun, fun hord => ?_⟩
  obtain ⟨s, hs, he⟩ := Option.map_eq_some_iff.mp hrun
  have hev := (along_run hord hs).evicted
  simp only [Prod.mk.injEq] at he
  rw [he.1, he.2] at hev
  cases hev

end Cerverus.Lru
