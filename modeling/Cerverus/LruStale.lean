import Cerverus.ListOperations
import Cerverus.LruCache

/-!
# Stale nodes

`LRU_cache_add` takes a repeated label, so a label may have several nodes in the list, of which
the index knows the newest. The eviction removes the oldest node from the list, but deletes
from the index by its label.
-/
namespace Cerverus.Lru
open Dll Hash LinkedHeap GuardedRun

variable {β : Type}

/-- The cache, and the nodes whose own `hashmap_set` succeeded. -/
structure StaleState (β : Type) where
  cache : LruCache β
  entered : List ℕ

def staleStart (hash : Bytes → UInt64) (c : ℕ) : StaleState β := ⟨lruCacheCreateWith hash c, []⟩

def addStep (s : StaleState β) (a : Bytes × β) : Option (StaleState β) :=
  (lruCacheAdd s.cache a.1 a.2).map fun r =>
    ⟨r.cache, if r.indexed then r.newNode :: s.entered else s.entered⟩

/-- `LRU_cache_add` up to the eviction: the index it leaves. -/
def indexAfterEviction (cache : LruCache β) (label : Bytes) (item : β) : Option (Hashmap ℕ) := do
  let (dll, _) ← doublyLinkedListPushFront cache.dll ⟨label, item⟩
  let (_, _, hmap) ← evictOver cache.size dll cache.hmap
  some hmap

def evictedNode (cache : LruCache β) : Option ℕ :=
  if cache.size ≤ cache.dll.length then cache.dll.tail else none

def KeepsOthers (s : StaleState β) (a : Bytes × β) : Prop :=
  ∀ node ∈ evictedNode s.cache, ∀ hmap ∈ indexAfterEviction s.cache a.1 a.2,
    ∀ key x, x ≠ node → (Holds hmap key x ↔ Holds s.cache.hmap key x)

def labelAt (cache : LruCache β) (x : ℕ) : Option Bytes := (dataAt cache.dll x).map DllEntry.hmapKey

/-- The newest node of every label in the list is found by a look-up, if it was entered. -/
def NewestFound (s : StaleState β) : Prop :=
  ∀ nodes label x, Visits s.cache.dll.heap Node.next s.cache.dll.head nodes →
    nodes.find? (fun y => labelAt s.cache y = some label) = some x → x ∈ s.entered →
    ∃ item cache', lruCacheGet s.cache label = some (some (x, item), cache')

/-- The label of the node to be evicted is not mapped to another node. -/
def EvictsCurrent (s : StaleState β) (_ : Bytes × β) : Prop :=
  ∀ node ∈ evictedNode s.cache, ∀ label ∈ labelAt s.cache node,
    ∀ x ∈ (hashmapGet s.cache.hmap label).join, x = node

instance decidableEvictsCurrent (s : StaleState β) (a : Bytes × β) :
    Decidable (EvictsCurrent s a) :=
  inferInstanceAs (Decidable (∀ node ∈ evictedNode s.cache, ∀ label ∈ labelAt s.cache node,
    ∀ x ∈ (hashmapGet s.cache.hmap label).join, x = node))

def newest (held : List (ℕ × DllEntry β)) (label : Bytes) : Option (ℕ × DllEntry β) :=
  held.find? fun p => p.2.hmapKey = label

/-- The index maps each label to its newest node, as far as it was entered. -/
def MapsNewest (hmap : Hashmap ℕ) (held : List (ℕ × DllEntry β)) (entered : List ℕ) : Prop :=
  ∀ label x, Holds hmap label x ↔ (newest held label).map Prod.fst = some x ∧ x ∈ entered

structure StaleInv (c : ℕ) (s : StaleState β) : Prop where
  held : ∃ held, Held s.cache held ∧ held.length ≤ c ∧ MapsNewest s.cache.hmap held s.entered
  size : s.cache.size = c
  size_pos : 1 ≤ c
  bound : ∀ x ∈ s.entered, x < s.cache.dll.fresh

theorem staleInv_start (hash : Bytes → UInt64) {c : ℕ} (hc : 1 ≤ c) :
    StaleInv c (staleStart hash c : StaleState β) := by
  refine ⟨⟨[], held_create hash hc, Nat.zero_le _, fun label x => ?_⟩, rfl, hc,
    by simp [staleStart]⟩
  constructor
  · intro hex
    obtain ⟨j, _, he⟩ := hex
    cases he
  · simp [newest]

section
variable {c : ℕ} {s t : StaleState β} {cache : LruCache β} {held ys : List (ℕ × DllEntry β)}
  {entered : List ℕ} {hmap hmap₁ hmap₂ : Hashmap ℕ} {label : Bytes} {x new : ℕ} {e : DllEntry β}

theorem lruCacheGet_holds (h : Held cache held) (hx : Holds cache.hmap label x) :
    ∃ item cache', lruCacheGet cache label = some (some (x, item), cache') := by
  obtain ⟨as, e, bs, rfl, _⟩ := h.split hx
  by_cases hlast : as = [] ∨ bs ≠ []
  · obtain ⟨dll, hget, _⟩ := lruCacheGet_found h hx hlast
    exact ⟨_, _, hget⟩
  · obtain ⟨has, hbs⟩ := not_or.mp hlast
    rw [not_not] at hbs
    subst hbs
    obtain ⟨dll, hget, _⟩ := lruCacheGet_last h hx has
    exact ⟨_, _, hget⟩

theorem find_nodes (h : Held cache held) (label : Bytes) :
    (held.map Prod.fst).find? (fun y => labelAt cache y = some label) =
      (newest held label).map Prod.fst := by
  rw [List.find?_map, newest]
  congr 1
  apply List.find?_congr
  intro p hp
  simp [labelAt, h.entries p hp]

theorem newestFound_of_inv (h : StaleInv c s) : NewestFound s := by
  intro nodes label x hvisits hfind hx
  obtain ⟨held, hheld, _, hmaps⟩ := h.held
  rw [visits_unique hvisits (visits_next hheld.nodes.links), find_nodes hheld] at hfind
  exact lruCacheGet_holds hheld ((hmaps label x).mpr ⟨hfind, hx⟩)

theorem newest_cons (label' : Bytes) :
    newest ((x, e) :: held) label' =
      if e.hmapKey = label' then some (x, e) else newest held label' := by
  unfold newest
  rw [List.find?_cons]
  by_cases he : e.hmapKey = label' <;> simp [he]

theorem mapsNewest_stored {item : β} (h : MapsNewest hmap₁ held entered)
    (hholds : ∀ k d, Holds hmap₂ k d ↔ (k = label ∧ d = new) ∨ (k ≠ label ∧ Holds hmap₁ k d))
    (hold : ∀ y ∈ held.map Prod.fst, y ≠ new) :
    MapsNewest hmap₂ ((new, ⟨label, item⟩) :: held) (new :: entered) := by
  intro key x
  rw [newest_cons, hholds]
  by_cases hkey : label = key
  · subst hkey
    simp only [true_and, ne_eq, not_true_eq_false, false_and, or_false, if_true, Option.map_some,
      Option.some.injEq, List.mem_cons]
    constructor
    · intro hx
      exact ⟨hx.symm, Or.inl hx⟩
    · intro hex
      exact hex.1.symm
  · have hne : (newest held key).map Prod.fst = some x → x ≠ new := by
      intro hfind
      obtain ⟨p, hp, rfl⟩ := Option.map_eq_some_iff.mp hfind
      exact hold p.1 (List.mem_map_of_mem (List.mem_of_find?_eq_some hp))
    simp only [Ne.symm hkey, false_and, false_or, ne_eq, not_false_eq_true, true_and, hkey,
      if_false, h key x, List.mem_cons]
    constructor
    · intro hex
      exact ⟨hex.1, Or.inr hex.2⟩
    · intro hex
      exact ⟨hex.1, hex.2.resolve_left (hne hex.1)⟩

theorem mapsNewest_refused {item : β} (h : MapsNewest hmap₁ held entered)
    (hno : ∀ d, ¬ Holds hmap₁ label d) (hentered : ∀ y ∈ entered, y ≠ new) :
    MapsNewest hmap₁ ((new, ⟨label, item⟩) :: held) entered := by
  intro key x
  rw [newest_cons]
  by_cases hkey : label = key
  · subst hkey
    simp only [if_true, Option.map_some, Option.some.injEq]
    constructor
    · intro hx
      exact absurd hx (hno x)
    · intro hex
      exact absurd hex.1.symm (hentered x hex.2)
  · simpa [hkey] using h key x

theorem mapsNewest_set {ok : Bool} {item : β} (hp : Probed hmap₁)
    (h : MapsNewest hmap₁ held entered) (hset : hashmapSet hmap₁ label new = some (ok, hmap₂))
    (hold : ∀ y ∈ held.map Prod.fst, y ≠ new) (hentered : ∀ y ∈ entered, y ≠ new) :
    MapsNewest hmap₂ ((new, ⟨label, item⟩) :: held) (if ok then new :: entered else entered) := by
  rcases hashmapSet_spec hp label new with ⟨hmap', hset', _, _, hholds, _⟩ | ⟨hset', hno, _⟩
  · cases hset'.symm.trans hset
    exact mapsNewest_stored h hholds hold
  · cases hset'.symm.trans hset
    exact mapsNewest_refused h hno hentered

/-- The eviction of a node whose label is mapped to no other node. -/
theorem mapsNewest_evict (h : MapsNewest hmap (ys ++ [(x, e)]) entered)
    (hnodup : ((ys ++ [(x, e)]).map Prod.fst).Nodup)
    (hidx : ∀ k y, Holds hmap₁ k y ↔ some e.hmapKey ≠ some k ∧ Holds hmap k y)
    (hcurrent : ∀ y, Holds hmap e.hmapKey y → y = x) : MapsNewest hmap₁ ys entered := by
  intro key y
  have hnewest : newest (ys ++ [(x, e)]) key =
      (newest ys key).or (if e.hmapKey = key then some (x, e) else none) := by
    rw [newest, List.find?_append, newest]
    by_cases he : e.hmapKey = key <;> simp [he]
  rw [hidx, h key y, hnewest]
  by_cases hkey : e.hmapKey = key
  · subst hkey
    simp only [ne_eq, not_true_eq_false, false_and, false_iff]
    intro hex
    obtain ⟨p, hp, rfl⟩ := Option.map_eq_some_iff.mp hex.1
    have hholds : Holds hmap e.hmapKey p.1 :=
      (h e.hmapKey p.1).mpr ⟨by rw [hnewest, hp]; rfl, hex.2⟩
    have hmem : p.1 ∈ ys.map Prod.fst := List.mem_map_of_mem (List.mem_of_find?_eq_some hp)
    rw [hcurrent p.1 hholds] at hmem
    rw [List.map_append, List.map_singleton] at hnodup
    exact List.disjoint_of_nodup_append hnodup hmem (List.mem_singleton_self x)
  · simp [hkey]

/-! ## Additions -/

theorem evictedNode_room (h : Held cache held) (hroom : held.length < cache.size) :
    evictedNode cache = none := by
  rw [evictedNode, if_neg (by rw [h.length_eq]; omega)]

theorem evictedNode_full (h : Held cache (ys ++ [(x, e)])) (hfull : ys.length + 1 = cache.size) :
    evictedNode cache = some x ∧ labelAt cache x = some e.hmapKey := by
  constructor
  · rw [evictedNode, if_pos (by rw [h.length_eq]; simp [hfull]), h.nodes.tail_eq]
    simp
  · rw [labelAt, h.entries (x, e) (by simp)]
    rfl

theorem indexAfterEviction_full (h : Held cache (ys ++ [(x, e)]))
    (hfull : ys.length + 1 = cache.size) (label : Bytes) (item : β) :
    ∃ hmap₁, indexAfterEviction cache label item = some hmap₁ ∧
      ∀ k y, Holds hmap₁ k y ↔ k ≠ e.hmapKey ∧ Holds cache.hmap k y := by
  obtain ⟨dll, dll', hmap₁, hpush, hevict, _, _, _, _, _, hholds⟩ :=
    pushFront_evictOver h hfull label item
  refine ⟨hmap₁, by simp [indexAfterEviction, hpush, hevict], fun k y => ?_⟩
  rw [hholds, ne_eq, Option.some.injEq, eq_comm]

theorem staleInv_set {r : AddResult β} {item : β} (h : StaleInv c s) (hp : Probed hmap₁)
    (hmaps : MapsNewest hmap₁ ys s.entered) (hlen : ys.length + 1 ≤ c)
    (hlt : ∀ y ∈ ys.map Prod.fst, y < s.cache.dll.fresh) (hnew : r.newNode = s.cache.dll.fresh)
    (hsize : r.cache.size = s.cache.size)
    (hheld : Held r.cache ((s.cache.dll.fresh, ⟨label, item⟩) :: ys))
    (hset : hashmapSet hmap₁ label s.cache.dll.fresh = some (r.indexed, r.cache.hmap)) :
    StaleInv c ⟨r.cache, if r.indexed then r.newNode :: s.entered else s.entered⟩ := by
  have hfresh : s.cache.dll.fresh < r.cache.dll.fresh := hheld.nodes.mem_lt List.mem_cons_self
  rw [hnew]
  refine ⟨⟨_, hheld, hlen, ?_⟩, hsize.trans h.size, h.size_pos, fun x hx => ?_⟩
  · exact mapsNewest_set hp hmaps hset (fun y hy => (hlt y hy).ne) fun y hy => (h.bound y hy).ne
  · have hx' : x = s.cache.dll.fresh ∨ x ∈ s.entered := by
      dsimp only at hx
      split_ifs at hx
      · exact List.mem_cons.mp hx
      · exact Or.inr hx
    rcases hx' with rfl | hx'
    · exact hfresh
    · exact (h.bound x hx').trans hfresh

theorem staleInv_room (h : StaleInv c s) (hheld : Held s.cache held)
    (hmaps : MapsNewest s.cache.hmap held s.entered) (hroom : held.length < c) (a : Bytes × β) :
    (KeepsOthers s a ↔ EvictsCurrent s a) ∧ ∃ t, addStep s a = some t ∧ StaleInv c t := by
  have hroom' : held.length < s.cache.size := h.size.symm ▸ hroom
  obtain ⟨r, hr, hnew, _, hsize, hheld', hmap₁, ⟨hp, _, _, hidx⟩, hset⟩ :=
    lruCacheAdd_room hheld hroom' a.1 a.2
  have hmaps' : MapsNewest hmap₁ held s.entered := fun k x => by
    rw [hidx]
    simpa using hmaps k x
  refine ⟨by simp [KeepsOthers, EvictsCurrent, evictedNode_room hheld hroom'], _,
    by rw [addStep, hr]; rfl, ?_⟩
  exact staleInv_set h hp hmaps' hroom (fun y hy => hheld.nodes.mem_lt hy) hnew hsize hheld' hset

theorem staleInv_full (h : StaleInv c s) (hheld : Held s.cache (ys ++ [(x, e)]))
    (hmaps : MapsNewest s.cache.hmap (ys ++ [(x, e)]) s.entered) (hfull : ys.length + 1 = c)
    (a : Bytes × β) :
    (KeepsOthers s a ↔ EvictsCurrent s a) ∧
      ∃ t, addStep s a = some t ∧ (EvictsCurrent s a → StaleInv c t) := by
  have hfull' : ys.length + 1 = s.cache.size := h.size.symm ▸ hfull
  obtain ⟨hnode, hlabel⟩ := evictedNode_full hheld hfull'
  have hcurrent : EvictsCurrent s a ↔ ∀ y, Holds s.cache.hmap e.hmapKey y → y = x := by
    simp [EvictsCurrent, hnode, hlabel, Option.join_eq_some_iff, hashmapGet_eq_some hheld.probed]
  refine ⟨?_, ?_⟩
  · obtain ⟨hmap₁, hevict, hidx⟩ := indexAfterEviction_full hheld hfull' a.1 a.2
    rw [hcurrent]
    simp only [KeepsOthers, hnode, hevict, Option.mem_def, Option.some.injEq, forall_eq', hidx]
    constructor
    · intro hkeeps y hy
      by_contra hne
      exact ((hkeeps e.hmapKey y hne).mpr hy).1 rfl
    · intro hcur k y hne
      refine ⟨And.right, fun hy => ⟨?_, hy⟩⟩
      intro heq
      subst heq
      exact hne (hcur y hy)
  · obtain ⟨r, hr, hnew, _, hsize, hheld', hmap₁, ⟨hp, _, _, hidx⟩, hset⟩ :=
      lruCacheAdd_full hheld hfull' a.1 a.2
    refine ⟨_, by rw [addStep, hr]; rfl, fun hcur => ?_⟩
    have hmaps' := mapsNewest_evict hmaps hheld.nodes.nodup hidx (hcurrent.mp hcur)
    refine staleInv_set h hp hmaps' hfull.le (fun y hy => ?_) hnew hsize hheld' hset
    exact hheld.nodes.mem_lt (by rw [List.map_append]; exact List.mem_append_left _ hy)

/-- An addition goes through; it keeps the entries of the other nodes exactly if it evicts no
stale node of a label, and then it keeps the invariant. -/
theorem staleInv_add (h : StaleInv c s) (a : Bytes × β) :
    (KeepsOthers s a ↔ EvictsCurrent s a) ∧
      ∃ t, addStep s a = some t ∧ (EvictsCurrent s a → StaleInv c t) := by
  obtain ⟨held, hheld, hlen, hmaps⟩ := h.held
  rcases hlen.lt_or_eq with hroom | hfull
  · obtain ⟨hiff, t, ht, hinv⟩ := staleInv_room h hheld hmaps hroom a
    exact ⟨hiff, t, ht, fun _ => hinv⟩
  · have hne : held ≠ [] := by
      intro heq
      subst heq
      exact absurd h.size_pos (by simp [← hfull])
    obtain ⟨ys, ⟨x, e⟩, rfl⟩ := (List.eq_nil_or_concat held).resolve_left hne
    rw [List.concat_eq_append] at *
    exact staleInv_full h hheld hmaps (by simpa using hfull) a

theorem staleInv_step (h : StaleInv c s) {a : Bytes × β} (hc : EvictsCurrent s a)
    (ht : addStep s a = some t) : StaleInv c t := by
  obtain ⟨_, t', ht', hinv⟩ := staleInv_add h a
  rw [ht'] at ht
  cases ht
  exact hinv hc

end

/-- In every run of additions, every eviction keeps the entries of the other nodes, and with
them the newest node of every label that was entered, if and only if no label of an evicted
node is mapped to another node. -/
theorem keepsOthers_iff_evictsCurrent (hash : Bytes → UInt64) {c : ℕ} (hc : 1 ≤ c)
    (ops : List (Bytes × β)) :
    ((run addStep (staleStart hash c) ops).isSome ∧
        Guarded addStep KeepsOthers (staleStart hash c) ops ∧
        Along addStep NewestFound (staleStart hash c) ops) ↔
      Guarded addStep EvictsCurrent (staleStart hash c) ops := by
  have hstart : StaleInv c (staleStart hash c : StaleState β) := staleInv_start hash hc
  have hstep : ∀ (s : StaleState β) a t, StaleInv c s → EvictsCurrent s a →
      addStep s a = some t → StaleInv c t := fun s a t h hcur ht => staleInv_step h hcur ht
  have hguard : Guarded addStep KeepsOthers (staleStart hash c) ops ↔
      Guarded addStep EvictsCurrent (staleStart hash c) ops :=
    guarded_iff_guarded hstep (fun s a t h _ => (staleInv_add h a).1) hstart
  refine ⟨fun hex => hguard.mp hex.2.1, fun hcur => ⟨?_, hguard.mpr hcur, ?_⟩⟩
  · refine run_isSome_of_guarded (fun s a h => ?_) hstep hstart hcur
    obtain ⟨_, t, ht, _⟩ := staleInv_add h a
    rw [ht]
    rfl
  · exact along_mono (fun s h => newestFound_of_inv h) (along_of_guarded hstep hstart hcur)

theorem keepsOthers_third_label :
    (run addStep (staleStart hashFnv1a 2) [([97], 0), ([98], 1), ([99], 2)]).isSome ∧
      Guarded addStep KeepsOthers (staleStart hashFnv1a 2) [([97], 0), ([98], 1), ([99], 2)] ∧
      Along addStep NewestFound (staleStart hashFnv1a 2)
        [([97], 0), ([98], 1), ([99], (2 : ℕ))] :=
  (keepsOthers_iff_evictsCurrent hashFnv1a (by decide) _).mpr (by decide +kernel)

def addedTwice : List (Bytes × ℕ) := [([97], 0), ([97], 1), ([98], 2)]

/-- The newer node is still in the list, but its label is gone from the index. -/
theorem newest_lost :
    (run addStep (staleStart hashFnv1a 2) addedTwice).map
        (fun s => (s.entered, (lruCacheGet s.cache [97]).map Prod.fst)) =
      some ([2, 1, 0], some none) ∧
      ¬ ((run addStep (staleStart hashFnv1a 2) addedTwice).isSome ∧
        Guarded addStep KeepsOthers (staleStart hashFnv1a 2) addedTwice ∧
        Along addStep NewestFound (staleStart hashFnv1a 2) addedTwice) := by
  have hrun : (run addStep (staleStart hashFnv1a 2) addedTwice).map
      (fun s => (s.entered, (lruCacheGet s.cache [97]).map Prod.fst)) =
        some ([2, 1, 0], some none) := by decide +kernel
  have hlinks : (run addStep (staleStart hashFnv1a 2) addedTwice).map
      (fun s => (s.cache.dll.head, (s.cache.dll.heap 2).map Node.next,
        (s.cache.dll.heap 1).map Node.next)) =
        some (some 2, some (some 1), some none) := by decide +kernel
  have hlabels : (run addStep (staleStart hashFnv1a 2) addedTwice).map
      (fun s => (labelAt s.cache 2, labelAt s.cache 1)) = some (some [98], some [97]) := by
    decide +kernel
  refine ⟨hrun, fun hex => ?_⟩
  obtain ⟨s, hs, hfacts⟩ := Option.map_eq_some_iff.mp hrun
  rw [hs, Option.map_some, Option.some.injEq] at hlinks hlabels
  simp only [Prod.mk.injEq, Option.map_eq_some_iff] at hlinks hfacts
  obtain ⟨hhead, ⟨nd₂, h₂, hn₂⟩, ⟨nd₁, h₁, hn₁⟩⟩ := hlinks
  obtain ⟨hl₂, hl₁⟩ := Prod.mk.injEq .. ▸ hlabels
  obtain ⟨hentered, r, hget, hnone⟩ := hfacts
  have hvisits : Visits s.cache.dll.heap Node.next s.cache.dll.head [2, 1] :=
    ⟨hhead, nd₂, h₂, hn₂, nd₁, h₁, hn₁⟩
  obtain ⟨item, cache', hfound⟩ := along_run hex.2.2 hs [2, 1] [97] 1 hvisits
    (by simp [hl₂, hl₁]) (by simp [hentered])
  rw [hget] at hfound
  cases hfound
  cases hnone

end Cerverus.Lru
