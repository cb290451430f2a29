import Cerverus.DoublyLinkedList
import Cerverus.Hashmap

/-!
# The LRU cache

The list holds the entries, most recently used first; the hashmap sends a label to its
list node. `Held` ties the two to the list of entries the cache should hold.
-/
namespace Cerverus.Lru
open Dll Hash

structure DllEntry (β : Type) where
  hmapKey : Bytes
  data : β
  deriving DecidableEq, Repr

structure LruCache (β : Type) where
  size : ℕ
  dll : DoublyLinkedList (DllEntry β)
  hmap : Hashmap ℕ

variable {β : Type}

/-- `LRU_cache_create`, for any hash function. -/
def lruCacheCreateWith (hash : Bytes → UInt64) (size : ℕ) : LruCache β :=
  { size := size, dll := doublyLinkedListCreate, hmap := hashmapCreate size loadPoint67 hash }

def lruCacheCreate (size : ℕ) : LruCache β := lruCacheCreateWith hashFnv1a size

/-- Returns the node found and its data. -/
def lruCacheGet (cache : LruCache β) (label : Bytes) :
    Option (Option (ℕ × β) × LruCache β) := do
  match ← hashmapGet cache.hmap label with
  | none => some (none, cache)
  | some item =>
    let dll ← doublyLinkedListMoveToFront cache.dll item
    let nd ← dll.heap item
    some (some (item, nd.data.data), { cache with dll := dll })

/-- `indexed` is the result of `hashmap_set`, which the code ignores. -/
structure AddResult (β : Type) where
  cache : LruCache β
  newNode : ℕ
  evicted : Option β
  indexed : Bool

def evictOver (size : ℕ) (dll : DoublyLinkedList (DllEntry β)) (hmap : Hashmap ℕ) :
    Option (Option (DllEntry β) × DoublyLinkedList (DllEntry β) × Hashmap ℕ) :=
  if size < dll.length then do
    let (popped, dll) ← doublyLinkedListPopTail dll
    let evictedEntry ← popped
    let (_, hmap) ← hashmapDelete hmap evictedEntry.hmapKey
    some (some evictedEntry, dll, hmap)
  else some (none, dll, hmap)

def lruCacheAdd (cache : LruCache β) (label : Bytes) (item : β) : Option (AddResult β) := do
  let _ ← hashmapGet cache.hmap label
  let (dll, newNode) ← doublyLinkedListPushFront cache.dll ⟨label, item⟩
  let (evictedEntry, dll, hmap) ← evictOver cache.size dll cache.hmap
  let (indexed, hmap) ← hashmapSet hmap label newNode
  some ⟨⟨cache.size, dll, hmap⟩, newNode, evictedEntry.map DllEntry.data, indexed⟩

/-! ## What the cache holds -/

/-- The cache holds the entries `held`, each at its node, most recently used first. -/
structure Held (cache : LruCache β) (held : List (ℕ × DllEntry β)) : Prop where
  nodes : Represents cache.dll (held.map Prod.fst)
  entries : ∀ p ∈ held, dataAt cache.dll p.1 = some p.2
  probed : Probed cache.hmap
  index : ∀ k x, Holds cache.hmap k x → ∃ e, (x, e) ∈ held ∧ e.hmapKey = k

theorem held_create (hash : Bytes → UInt64) {size : ℕ} (h : 1 ≤ size) :
    Held (lruCacheCreateWith hash size : LruCache β) [] :=
  ⟨represents_create, by simp, probed_create hash h (by decide) (by decide),
    fun _ _ ⟨_, _, he⟩ => by cases he⟩

section
variable {cache : LruCache β} {held : List (ℕ × DllEntry β)}

theorem Held.length_eq (h : Held cache held) : cache.dll.length = held.length := by
  simp [h.nodes.length]

theorem lruCacheGet_absent (h : Held cache held) {label : Bytes}
    (hno : ∀ x, ¬ Holds cache.hmap label x) : lruCacheGet cache label = some (none, cache) := by
  simp [lruCacheGet, (hashmapGet_eq_none h.probed).mpr hno]

theorem Held.split (h : Held cache held) {label : Bytes} {x : ℕ}
    (hx : Holds cache.hmap label x) :
    ∃ as e bs, held = as ++ (x, e) :: bs ∧ e.hmapKey = label := by
  obtain ⟨e, he, hk⟩ := h.index label x hx
  obtain ⟨as, bs, rfl⟩ := List.append_of_mem he
  exact ⟨as, e, bs, rfl, hk⟩

theorem held_moveToFront {as bs : List (ℕ × DllEntry β)} {x : ℕ} {e : DllEntry β}
    (h : Held cache (as ++ (x, e) :: bs)) (hlast : as = [] ∨ bs ≠ []) :
    ∃ dll, doublyLinkedListMoveToFront cache.dll x = some dll ∧
      Held { cache with dll := dll } ((x, e) :: (as ++ bs)) ∧ dataAt dll x = some e := by
  have hnodes := h.nodes
  rw [List.map_append, List.map_cons] at hnodes
  obtain ⟨dll, hmove, hrep, _, hdata⟩ := moveToFront_represents hnodes (by simpa using hlast)
  have hmem : ∀ p, p ∈ (x, e) :: (as ++ bs) ↔ p ∈ as ++ (x, e) :: bs := fun p => by
    simp only [List.mem_cons, List.mem_append]
    tauto
  refine ⟨dll, hmove, ⟨by simpa using hrep, fun p hp => ?_, h.probed, fun k y hy => ?_⟩, ?_⟩
  · exact (hdata p.1).trans (h.entries p ((hmem p).mp hp))
  · obtain ⟨e', he', hk⟩ := h.index k y hy
    exact ⟨e', (hmem _).mpr he', hk⟩
  · exact (hdata x).trans (h.entries (x, e) (by simp))

theorem lruCacheGet_found {as bs : List (ℕ × DllEntry β)} {x : ℕ} {e : DllEntry β}
    {label : Bytes} (h : Held cache (as ++ (x, e) :: bs)) (hx : Holds cache.hmap label x)
    (hlast : as = [] ∨ bs ≠ []) :
    ∃ dll, lruCacheGet cache label = some (some (x, e.data), { cache with dll := dll }) ∧
      Held { cache with dll := dll } ((x, e) :: (as ++ bs)) := by
  obtain ⟨dll, hmove, hheld, hdata⟩ := held_moveToFront h hlast
  obtain ⟨nd, hnd, rfl⟩ := dataAt_eq.mp hdata
  refine ⟨dll, ?_, hheld⟩
  simp [lruCacheGet, (hashmapGet_eq_some h.probed).mpr hx, hmove, hnd]

/-- A look-up that finds the last of several nodes makes it the head and leaves it the
tail. -/
theorem lruCacheGet_last {as : List (ℕ × DllEntry β)} {x : ℕ} {e : DllEntry β}
    {label : Bytes} (h : Held cache (as ++ [(x, e)])) (hx : Holds cache.hmap label x)
    (has : as ≠ []) :
    ∃ dll, lruCacheGet cache label = some (some (x, e.data), { cache with dll := dll }) ∧
      dll.tail = some x := by
  have hnodes := h.nodes
  rw [List.map_append, List.map_singleton] at hnodes
  obtain ⟨dll, hmove, hdata⟩ := moveToFront_last hnodes (by simpa using has)
  rw [h.entries (x, e) (by simp)] at hdata
  obtain ⟨nd, hnd, rfl⟩ := dataAt_eq.mp hdata
  refine ⟨dll, by simp [lruCacheGet, (hashmapGet_eq_some h.probed).mpr hx, hmove, hnd], ?_⟩
  rw [(moveToFront_tail hmove).2.1, hnodes.tail_eq]
  simp

/-- The index after an addition: the evicted label is deleted, then the new one set. -/
def IndexAfter (hmap : Hashmap ℕ) (evictedKey : Option Bytes) (hmap₁ : Hashmap ℕ) : Prop :=
  Probed hmap₁ ∧ hmap₁.size = hmap.size ∧ emptySlots hmap₁ = emptySlots hmap ∧
    ∀ k x, Holds hmap₁ k x ↔ evictedKey ≠ some k ∧ Holds hmap k x

theorem index_hashmapSet {hmap₁ hmap₂ : Hashmap ℕ} {b : Bool} {label : Bytes} {x : ℕ}
    {e : DllEntry β} (held : List (ℕ × DllEntry β)) (hp : Probed hmap₁) (he : (x, e) ∈ held)
    (hk : e.hmapKey = label)
    (hset : hashmapSet hmap₁ label x = some (b, hmap₂))
    (hidx : ∀ k y, Holds hmap₁ k y → ∃ e, (y, e) ∈ held ∧ e.hmapKey = k) :
    Probed hmap₂ ∧ ∀ k y, Holds hmap₂ k y → ∃ e, (y, e) ∈ held ∧ e.hmapKey = k := by
  rcases hashmapSet_spec hp label x with ⟨hmap', hset', hp', _, hholds, _⟩ | ⟨hset', _⟩
  · rw [hset'] at hset
    cases hset
    refine ⟨hp', fun k y hy => ?_⟩
    rcases (hholds k y).mp hy with ⟨rfl, rfl⟩ | ⟨_, hy⟩
    · exact ⟨e, he, hk⟩
    · exact hidx k y hy
  · rw [hset'] at hset
    cases hset
    exact ⟨hp, hidx⟩

theorem lruCacheAdd_room (h : Held cache held) (hroom : held.length < cache.size)
    (label : Bytes) (item : β) :
    ∃ r, lruCacheAdd cache label item = some r ∧ r.newNode = cache.dll.fresh ∧
      r.evicted = none ∧ r.cache.size = cache.size ∧
      Held r.cache ((cache.dll.fresh, ⟨label, item⟩) :: held) ∧
      ∃ hmap₁, IndexAfter cache.hmap none hmap₁ ∧
        hashmapSet hmap₁ label cache.dll.fresh = some (r.indexed, r.cache.hmap) := by
  obtain ⟨o, ho⟩ := hashmapGet_isSome h.probed label
  obtain ⟨dll, hpush, hrep, hnew, hold⟩ := pushFront_represents h.nodes ⟨label, item⟩
  have hlen : dll.length = held.length + 1 := by simp [hrep.length]
  obtain ⟨b, hmap₂, hset⟩ := hashmapSet_isSome h.probed label cache.dll.fresh
  obtain ⟨hp₂, hidx₂⟩ := index_hashmapSet ((cache.dll.fresh, ⟨label, item⟩) :: held) h.probed
    List.mem_cons_self rfl hset
    fun k y hy => by
      obtain ⟨e, he, hk⟩ := h.index k y hy
      exact ⟨e, List.mem_cons_of_mem _ he, hk⟩
  refine ⟨⟨⟨cache.size, dll, hmap₂⟩, cache.dll.fresh, none, b⟩, ?_, rfl, rfl, rfl,
    ⟨hrep, ?_, hp₂, hidx₂⟩, cache.hmap, ⟨h.probed, rfl, rfl, by simp⟩, hset⟩
  · have hfits : ¬ cache.size < held.length + 1 := by omega
    simp [lruCacheAdd, ho, hpush, evictOver, hlen, hfits, hset]
  · intro p hp
    rcases List.mem_cons.mp hp with rfl | hp
    · exact hnew
    · have hlt := h.nodes.mem_lt (List.mem_map_of_mem hp)
      exact (hold p.1 (by omega)).trans (h.entries p hp)

theorem pushFront_evictOver {ys : List (ℕ × DllEntry β)} {x : ℕ} {e : DllEntry β}
    (h : Held cache (ys ++ [(x, e)])) (hfull : ys.length + 1 = cache.size)
    (label : Bytes) (item : β) :
    ∃ dll dll' hmap₁,
      doublyLinkedListPushFront cache.dll ⟨label, item⟩ = some (dll, cache.dll.fresh) ∧
      evictOver cache.size dll cache.hmap = some (some e, dll', hmap₁) ∧
      Represents dll' (cache.dll.fresh :: ys.map Prod.fst) ∧
      (∀ p ∈ (cache.dll.fresh, ⟨label, item⟩) :: ys, dataAt dll' p.1 = some p.2) ∧
      IndexAfter cache.hmap (some e.hmapKey) hmap₁ := by
  obtain ⟨dll, hpush, hrep, hnew, hold⟩ := pushFront_represents h.nodes ⟨label, item⟩
  have hlen : dll.length = ys.length + 2 := by simp [hrep.length]
  have hlt : x < cache.dll.fresh := h.nodes.mem_lt (by simp)
  have hlast := (hold x hlt.ne).trans (h.entries (x, e) (by simp))
  rw [List.map_append, List.map_singleton, ← List.cons_append] at hrep
  obtain ⟨dll', hpop, hrep', _, hold'⟩ := popTail_represents hrep hlast
  obtain ⟨d, hmap₁, hdel, hp₁, hsize, hholds, hempty⟩ := hashmapDelete_spec h.probed e.hmapKey
  have hnodup := hrep.nodup
  refine ⟨dll, dll', hmap₁, hpush, ?_, hrep', ?_, hp₁, hsize, hempty, ?_⟩
  · simp [evictOver, hlen, show cache.size < ys.length + 2 by omega, hpop, hdel]
  · intro p hp
    have hpx : p.1 ≠ x := by
      intro heq
      subst heq
      have hdisj := List.disjoint_of_nodup_append hnodup
      exact hdisj (List.mem_map_of_mem (f := Prod.fst) hp) List.mem_cons_self
    refine (hold' p.1 hpx).trans ?_
    rcases List.mem_cons.mp hp with rfl | hp
    · exact hnew
    · have hltp := h.nodes.mem_lt (x := p.1) (by simpa using Or.inl ⟨_, hp⟩)
      exact (hold p.1 hltp.ne).trans (h.entries p (List.mem_append_left _ hp))
  · intro k y
    rw [hholds]
    simp [eq_comm]

theorem lruCacheAdd_full {ys : List (ℕ × DllEntry β)} {x : ℕ} {e : DllEntry β}
    (h : Held cache (ys ++ [(x, e)])) (hfull : ys.length + 1 = cache.size)
    (label : Bytes) (item : β) :
    ∃ r, lruCacheAdd cache label item = some r ∧ r.newNode = cache.dll.fresh ∧
      r.evicted = some e.data ∧ r.cache.size = cache.size ∧
      Held r.cache ((cache.dll.fresh, ⟨label, item⟩) :: ys) ∧
      ∃ hmap₁, IndexAfter cache.hmap (some e.hmapKey) hmap₁ ∧
        hashmapSet hmap₁ label cache.dll.fresh = some (r.indexed, r.cache.hmap) := by
  obtain ⟨o, ho⟩ := hashmapGet_isSome h.probed label
  obtain ⟨dll, dll', hmap₁, hpush, hevict, hrep', hentries, hindex⟩ :=
    pushFront_evictOver h hfull label item
  obtain ⟨hp₁, _, _, hholds⟩ := id hindex
  obtain ⟨b, hmap₂, hset⟩ := hashmapSet_isSome hp₁ label cache.dll.fresh
  obtain ⟨hp₂, hidx₂⟩ := index_hashmapSet ((cache.dll.fresh, ⟨label, item⟩) :: ys) hp₁
    List.mem_cons_self rfl hset
    fun k y hy => by
      obtain ⟨hk, hy⟩ := (hholds k y).mp hy
      obtain ⟨e', he', hk'⟩ := h.index k y hy
      rcases List.mem_append.mp he' with he' | he'
      · exact ⟨e', List.mem_cons_of_mem _ he', hk'⟩
      · simp only [List.mem_singleton, Prod.mk.injEq] at he'
        exact absurd (congrArg some (he'.2 ▸ hk')) hk
  refine ⟨⟨⟨cache.size, dll', hmap₂⟩, cache.dll.fresh, some e.data, b⟩, ?_, rfl, rfl, rfl,
    ⟨hrep', hentries, hp₂, hidx₂⟩, hmap₁, hindex, hset⟩
  simp [lruCacheAdd, ho, hpush, hevict, hset]

end

end Cerverus.Lru
