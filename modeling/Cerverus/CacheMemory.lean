import Cerverus.HashmapMemory
import Cerverus.LruRefines

/-!
# The LRU cache in memory

`LRU_cache_add` copies the label twice: its list node points to one copy, the slot of its index
to another. An eviction reads the label of the node it pops, deletes the slot, and frees the
copy of the node only. A function returns `none` where it reads or frees a string that is not
allocated, or follows a pointer to a node that is not.
-/
namespace Cerverus.CacheMemory
open Dll LinkedHeap Lru
open Hash (Hashmap tableSize loadPoint67)
open HashmapMemory (MemHashmap Sv Shows keys)
open OwnedHeap (allocated alloc release Kept)
open Refinement

variable {β : Type}

/-- A `dll_entry` with the pointer it holds. -/
structure MemDllEntry (β : Type) where
  hmapKey : ℕ
  data : β

structure MemLruCache (β : Type) where
  size : ℕ
  dll : DoublyLinkedList (MemDllEntry β)
  hmap : MemHashmap ℕ

def lruCacheCreateWith (hash : Bytes → UInt64) (size : ℕ) : MemLruCache β :=
  { size := size
    dll := doublyLinkedListCreate
    hmap := HashmapMemory.hashmapCreate size loadPoint67 hash }

/-- Labels are passed in strings of the caller. -/
def lruCacheGet (heap : OwnedHeap.Heap Bytes) (cache : MemLruCache β) (label : Bytes) :
    Option (Option β × MemLruCache β) := do
  match ← HashmapMemory.hashmapGet heap cache.hmap (.outside label) with
  | none => some (none, cache)
  | some item =>
    let dll ← doublyLinkedListMoveToFront cache.dll item
    let nd ← dll.heap item
    some (some nd.data.data, { cache with dll := dll })

def evictOver (heap : OwnedHeap.Heap Bytes) (size : ℕ) (dll : DoublyLinkedList (MemDllEntry β))
    (hmap : MemHashmap ℕ) : Option (Option β × OwnedHeap.Heap Bytes ×
      DoublyLinkedList (MemDllEntry β) × MemHashmap ℕ) :=
  if size < dll.length then do
    let (popped, dll) ← doublyLinkedListPopTail dll
    let evictedEntry ← popped
    let (_, hmap) ← HashmapMemory.hashmapDelete heap hmap (.block evictedEntry.hmapKey)
    let heap ← OwnedHeap.free heap evictedEntry.hmapKey
    some (some evictedEntry.data, heap, dll, hmap)
  else some (none, heap, dll, hmap)

/-- Returns the item evicted. -/
def lruCacheAdd (heap : OwnedHeap.Heap Bytes) (cache : MemLruCache β) (label : Bytes) (item : β) :
    Option (Option β × OwnedHeap.Heap Bytes × MemLruCache β) := do
  let _ ← HashmapMemory.hashmapGet heap cache.hmap (.outside label)
  let newEntry : MemDllEntry β := ⟨heap.fresh, item⟩
  let heap := alloc heap label
  let (dll, newNode) ← doublyLinkedListPushFront cache.dll newEntry
  let (evicted, heap, dll, hmap) ← evictOver heap cache.size dll cache.hmap
  let (_, heap, hmap) ← HashmapMemory.hashmapSet heap hmap (.outside label) (some newNode)
  some (evicted, heap, ⟨cache.size, dll, hmap⟩)

/-! ## Lists with other data

What the list functions do does not depend on the data of the nodes. -/

section
variable {α γ : Type} (f : α → γ)

def mapHeap (h : LinkedHeap.Heap α) : LinkedHeap.Heap γ := fun a =>
  (h a).map fun nd => ⟨nd.prev, nd.next, f nd.data⟩

def mapDll (dll : DoublyLinkedList α) : DoublyLinkedList γ :=
  { length := dll.length, head := dll.head, tail := dll.tail, heap := mapHeap f dll.heap,
    fresh := dll.fresh }

variable {f}

theorem mapHeap_apply (h : LinkedHeap.Heap α) (a : ℕ) :
    mapHeap f h a = (h a).map fun nd => ⟨nd.prev, nd.next, f nd.data⟩ := rfl

theorem mapHeap_update (h : LinkedHeap.Heap α) (a : ℕ) (o : Option (Node α)) :
    mapHeap f (Function.update h a o) =
      Function.update (mapHeap f h) a (o.map fun nd => ⟨nd.prev, nd.next, f nd.data⟩) := by
  funext x
  by_cases hx : x = a
  · subst hx
    simp [mapHeap]
  · simp [mapHeap, hx]

theorem setPrev_map (h : LinkedHeap.Heap α) (a : ℕ) (p : Option ℕ) :
    setPrev (mapHeap f h) a p = (setPrev h a p).map (mapHeap f) := by
  cases ha : h a with
  | none => simp [setPrev, mapHeap, ha]
  | some nd => simp [setPrev, mapHeap_update, ha, mapHeap]

theorem setNext_map (h : LinkedHeap.Heap α) (a : ℕ) (n : Option ℕ) :
    setNext (mapHeap f h) a n = (setNext h a n).map (mapHeap f) := by
  cases ha : h a with
  | none => simp [setNext, mapHeap, ha]
  | some nd => simp [setNext, mapHeap_update, ha, mapHeap]

theorem free_map (h : LinkedHeap.Heap α) (a : ℕ) :
    LinkedHeap.free (mapHeap f h) a = (LinkedHeap.free h a).map (mapHeap f) := by
  cases ha : h a with
  | none => simp [LinkedHeap.free, mapHeap, ha]
  | some nd => simp [LinkedHeap.free, mapHeap_update, ha, mapHeap]

theorem setPrevIf_map (h : LinkedHeap.Heap α) (a p : Option ℕ) :
    setPrevIf (mapHeap f h) a p = (setPrevIf h a p).map (mapHeap f) := by
  cases a with
  | none => rfl
  | some a => exact setPrev_map h a p

theorem freeIf_map (h : LinkedHeap.Heap α) (a : Option ℕ) :
    freeIf (mapHeap f h) a = (freeIf h a).map (mapHeap f) := by
  cases a with
  | none => rfl
  | some a => exact free_map h a

theorem pushFront_map (dll : DoublyLinkedList α) (data : α) :
    doublyLinkedListPushFront (mapDll f dll) (f data) =
      (doublyLinkedListPushFront dll data).map fun r => (mapDll f r.1, r.2) := by
  unfold doublyLinkedListPushFront
  cases hhead : dll.head with
  | none => simp [mapDll, hhead, mapHeap_update]
  | some next =>
    have hset := @setPrev_map α γ f
      (Function.update dll.heap dll.fresh (some ⟨none, some next, data⟩)) next (some dll.fresh)
    rw [mapHeap_update, Option.map_some] at hset
    simp only [mapDll, hhead, hset, Option.bind_eq_bind, Option.bind_map, Option.map_bind]
    rfl

theorem popTail_map (dll : DoublyLinkedList α) :
    doublyLinkedListPopTail (mapDll f dll) =
      (doublyLinkedListPopTail dll).map fun r => (r.1.map f, mapDll f r.2) := by
  unfold doublyLinkedListPopTail
  change (if dll.length = 0 then _ else _) = _
  by_cases h0 : dll.length = 0
  · rw [if_pos h0, if_pos h0]
    rfl
  rw [if_neg h0, if_neg h0]
  by_cases hone : 1 < dll.length
  · simp [mapDll, mapHeap_apply, hone, freeIf_map, Option.map_bind, Option.bind_map, setNext_map]
  · simp [mapDll, mapHeap_apply, hone, free_map, Option.map_bind, Option.bind_map]

theorem moveToFront_map (dll : DoublyLinkedList α) (node : ℕ) :
    doublyLinkedListMoveToFront (mapDll f dll) node =
      (doublyLinkedListMoveToFront dll node).map (mapDll f) := by
  unfold doublyLinkedListMoveToFront
  change (if dll.head = some node then _ else _) = _
  by_cases hhead : dll.head = some node
  · rw [if_pos hhead, if_pos hhead]
    rfl
  rw [if_neg hhead, if_neg hhead]
  simp [mapDll, mapHeap_apply, setNext_map, setPrev_map, setPrevIf_map, Option.map_bind,
    Option.bind_map, Function.comp_def]

theorem seg_map {h : LinkedHeap.Heap α} {p first last next : Option ℕ} {xs : List ℕ} :
    Seg (mapHeap f h) p first xs last next ↔ Seg h p first xs last next := by
  induction xs generalizing p first with
  | nil => exact Iff.rfl
  | cons x xs ih =>
    constructor
    · rintro ⟨hfirst, nd', hnd', hprev, hseg⟩
      obtain ⟨nd, hnd, rfl⟩ := Option.map_eq_some_iff.mp hnd'
      exact ⟨hfirst, nd, hnd, hprev, ih.mp hseg⟩
    · rintro ⟨hfirst, nd, hnd, hprev, hseg⟩
      exact ⟨hfirst, _, by rw [mapHeap_apply, hnd, Option.map_some], hprev, ih.mpr hseg⟩

theorem represents_map {dll : DoublyLinkedList α} {xs : List ℕ} :
    Represents (mapDll f dll) xs ↔ Represents dll xs := by
  have hfree : ∀ a, mapHeap f dll.heap a = none ↔ dll.heap a = none := by simp [mapHeap_apply]
  constructor
  · intro h
    exact ⟨seg_map.mp h.links, h.length, h.nodup, fun a ha => (hfree a).mp (h.fresh a ha)⟩
  · intro h
    exact ⟨seg_map.mpr h.links, h.length, h.nodup, fun a ha => (hfree a).mpr (h.fresh a ha)⟩

/-- Only the data of allocated nodes matters. -/
theorem mapDll_congr {g : α → γ} {dll : DoublyLinkedList α}
    (h : ∀ x a, dataAt dll x = some a → f a = g a) : mapDll f dll = mapDll g dll := by
  have hheap : mapHeap f dll.heap = mapHeap g dll.heap := by
    funext x
    cases hx : dll.heap x with
    | none => simp [mapHeap_apply, hx]
    | some nd => simp [mapHeap_apply, hx, h x nd.data (by simp [dataAt, hx])]
  simp only [mapDll, hheap]

theorem moveToFront_data {dll dll' : DoublyLinkedList α} {node : ℕ}
    (h : doublyLinkedListMoveToFront dll node = some dll') (x : ℕ) :
    dataAt dll' x = dataAt dll x := by
  have hset : ∀ {h h' : LinkedHeap.Heap α} {a : ℕ} {n : Option ℕ}, setNext h a n = some h' →
      (h' x).map Node.data = (h x).map Node.data := by
    intro h h' a n hs
    obtain ⟨nd, hnd, _⟩ := Option.map_eq_some_iff.mp hs
    obtain ⟨h'', hs', hrelinks, _⟩ := setNext_spec hnd n
    cases hs.symm.trans hs'
    exact hrelinks.data x
  have hset' : ∀ {h h' : LinkedHeap.Heap α} {a : ℕ} {p : Option ℕ}, setPrev h a p = some h' →
      (h' x).map Node.data = (h x).map Node.data := by
    intro h h' a p hs
    obtain ⟨nd, hnd, _⟩ := Option.map_eq_some_iff.mp hs
    obtain ⟨h'', hs', hrelinks, _⟩ := setPrev_spec hnd p
    cases hs.symm.trans hs'
    exact hrelinks.data x
  unfold doublyLinkedListMoveToFront at h
  split_ifs at h
  · cases h
    rfl
  · simp only [Option.bind_eq_bind, Option.bind_eq_some_iff, Option.some.injEq] at h
    obtain ⟨nd, _, prev, _, heap₁, h₁, heap₂, h₂, heap₃, h₃, head, _, heap₄, h₄, heap₅, h₅, rfl⟩ :=
      h
    have hif : (heap₂ x).map Node.data = (heap₁ x).map Node.data := by
      cases hnext : nd.next with
      | none =>
        rw [hnext] at h₂
        cases h₂
        rfl
      | some next =>
        rw [hnext] at h₂
        exact hset' h₂
    exact (hset' h₅).trans ((hset' h₄).trans ((hset h₃).trans (hif.trans (hset h₁))))

theorem popTail_freed {dll dll' : DoublyLinkedList α} {ys : List ℕ} {x : ℕ} {o : Option α}
    (h : Represents dll (ys ++ [x])) (hpop : doublyLinkedListPopTail dll = some (o, dll')) :
    dataAt dll' x = none := by
  have hlen : dll.length = ys.length + 1 := by simp [h.length]
  have htail : dll.tail = some x := by simp [h.tail_eq]
  obtain ⟨m, m', hseg, rfl, nd, hndx, hprev, _⟩ := seg_append.mp h.links
  obtain ⟨heap₁, hfree, hnone, -⟩ := free_spec hndx
  rcases List.eq_nil_or_concat ys with rfl | ⟨zs, y, rfl⟩
  · simp only [doublyLinkedListPopTail, hlen, htail, hndx, hfree, List.length_nil,
      Option.bind_eq_bind, Option.bind_some] at hpop
    rw [if_neg (by omega), if_neg (by omega)] at hpop
    cases hpop
    simp [dataAt, hnone]
  · rw [List.concat_eq_append] at *
    have hyx : y ≠ x := by
      intro he
      have hdisj := List.disjoint_of_nodup_append h.nodup
      exact hdisj (show x ∈ zs ++ [y] by simp [he]) (List.mem_singleton_self x)
    have hlast : m = some y := by simpa using seg_last hseg (by simp)
    obtain ⟨_, _, _, _, ndy, hndy, _, hnext, _⟩ := seg_append.mp hseg
    rw [List.length_append, List.length_singleton] at hlen
    simp only [doublyLinkedListPopTail, hlen, htail, hndx, hprev, hlast, hndy, hnext, freeIf,
      hfree, Option.bind_eq_bind, Option.bind_some] at hpop
    rw [if_neg (by omega), if_pos (by simp)] at hpop
    obtain ⟨heap₂, hset, heq⟩ := Option.bind_eq_some_iff.mp hpop
    cases heq
    obtain ⟨ndy', _, rfl⟩ := Option.map_eq_some_iff.mp hset
    simp [dataAt, Function.update_of_ne hyx.symm, hnone]

end

/-! ## What a cache in memory shows -/

/-- A node shows the label that its pointer leads to. -/
def entryIn (heap : OwnedHeap.Heap Bytes) (e : MemDllEntry β) : DllEntry β :=
  ⟨(heap.blocks e.hmapKey).getD [], e.data⟩

/-- The list and the index in memory are those of the model. Each node has a copy of its label
to itself, and the strings of `base` are untouched. -/
structure Parts (base heap : OwnedHeap.Heap Bytes) (dll : DoublyLinkedList (MemDllEntry β))
    (mem : MemHashmap ℕ) (lru : DoublyLinkedList (DllEntry β)) (hm : Hashmap ℕ) : Prop where
  list : mapDll (entryIn heap) dll = lru
  shows : Shows heap mem hm
  node : ∀ x e, dataAt dll x = some e → e.hmapKey ∈ allocated heap ∧ e.hmapKey ∉ keys mem
  apart : ∀ x y e e', dataAt dll x = some e → dataAt dll y = some e' →
    e.hmapKey = e'.hmapKey → x = y
  others : ∀ a ∈ allocated base, heap.blocks a = base.blocks a ∧ a ∉ keys mem ∧
    ∀ x e, dataAt dll x = some e → e.hmapKey ≠ a

section
variable {base heap heap' : OwnedHeap.Heap Bytes} {dll dll' : DoublyLinkedList (MemDllEntry β)}
  {mem mem' : MemHashmap ℕ} {lru lru' : DoublyLinkedList (DllEntry β)} {hm hm' : Hashmap ℕ}
  {label : Bytes} {item : β} {xs ys : List ℕ} {x : ℕ} {ok : Bool}

theorem parts_create (base : OwnedHeap.Heap Bytes) (size : ℕ) (hash : Bytes → UInt64) :
    Parts base base (doublyLinkedListCreate : DoublyLinkedList (MemDllEntry β))
      (HashmapMemory.hashmapCreate size loadPoint67 hash) doublyLinkedListCreate
      (Hash.hashmapCreate size loadPoint67 hash) := by
  have hnone := @HashmapMemory.keys_create ℕ size loadPoint67 hash
  have hempty : ∀ x e, dataAt (doublyLinkedListCreate : DoublyLinkedList (MemDllEntry β)) x ≠
      some e := fun x e he => by cases he
  refine ⟨rfl, HashmapMemory.shows_create base size loadPoint67 hash,
    fun x e he => absurd he (hempty x e), fun x y e e' he => absurd he (hempty x e),
    fun a ha => ⟨rfl, ?_, fun x e he => absurd he (hempty x e)⟩⟩
  rw [hnone]
  exact Finset.notMem_empty a

theorem Parts.mono (h : Parts base heap dll mem lru hm) (hshows : Shows heap' mem' hm')
    (hlru : mapDll (entryIn heap) dll' = lru')
    (hdll : ∀ z e, dataAt dll' z = some e → dataAt dll z = some e)
    (hkeep : ∀ a ∈ allocated heap, a ∉ keys mem →
      (∃ z e, dataAt dll' z = some e ∧ e.hmapKey = a) ∨ a ∈ allocated base →
      heap'.blocks a = heap.blocks a ∧ a ∉ keys mem') :
    Parts base heap' dll' mem' lru' hm' := by
  have hnode : ∀ z e, dataAt dll' z = some e →
      heap'.blocks e.hmapKey = heap.blocks e.hmapKey ∧ e.hmapKey ∉ keys mem' := by
    intro z e he
    obtain ⟨halloc, hown⟩ := h.node z e (hdll z e he)
    exact hkeep _ halloc hown (Or.inl ⟨z, e, he, rfl⟩)
  refine ⟨?_, hshows, fun z e he => ?_,
    fun y z e e' he he' => h.apart y z e e' (hdll y e he) (hdll z e' he'), fun a ha => ?_⟩
  · rw [← hlru]
    refine mapDll_congr fun z e he => ?_
    rw [entryIn, entryIn, (hnode z e he).1]
  · obtain ⟨hsame, hown⟩ := hnode z e he
    exact ⟨OwnedHeap.mem_allocated_congr (h.node z e (hdll z e he)).1 hsame, hown⟩
  · obtain ⟨hsame, hown, hne⟩ := h.others a ha
    have halloc : a ∈ allocated heap := OwnedHeap.mem_allocated_congr ha hsame
    obtain ⟨hsame', hown'⟩ := hkeep a halloc hown (Or.inr ha)
    exact ⟨hsame'.trans hsame, hown', fun z e he => hne z e (hdll z e he)⟩

theorem Parts.push (h : Parts base heap dll mem lru hm) (hrep : Represents lru xs)
    (hpush : doublyLinkedListPushFront lru ⟨label, item⟩ = some (lru', x)) :
    ∃ dll', doublyLinkedListPushFront dll ⟨heap.fresh, item⟩ = some (dll', x) ∧
      Parts base (alloc heap label) dll' mem lru' hm := by
  have hne : ∀ {a}, a ∈ allocated heap → a ≠ heap.fresh := fun ha he =>
    OwnedHeap.fresh_notMem (he ▸ ha)
  have hsame : ∀ {a}, a ∈ allocated heap → (alloc heap label).blocks a = heap.blocks a :=
    fun ha => OwnedHeap.alloc_of_ne (hne ha)
  have hlru : mapDll (entryIn (alloc heap label)) dll = lru := by
    rw [← h.list]
    refine mapDll_congr fun z e he => ?_
    rw [entryIn, entryIn, hsame (h.node z e he).1]
  have hentry : entryIn (alloc heap label) ⟨heap.fresh, item⟩ = (⟨label, item⟩ : DllEntry β) := by
    rw [entryIn, OwnedHeap.alloc_self]
    rfl
  have hmap := @pushFront_map _ _ (entryIn (alloc heap label)) dll ⟨heap.fresh, item⟩
  rw [hlru, hentry, hpush] at hmap
  obtain ⟨⟨dll', x'⟩, hdll', heq⟩ := Option.map_eq_some_iff.mp hmap.symm
  cases heq
  obtain ⟨dll'', hdll'', _, hnew, hold⟩ :=
    pushFront_represents (represents_map.mp (h.list ▸ hrep)) (⟨heap.fresh, item⟩ : MemDllEntry β)
  cases hdll'.symm.trans hdll''
  have hcases : ∀ z e, dataAt dll' z = some e →
      (z = dll.fresh ∧ e = ⟨heap.fresh, item⟩) ∨ dataAt dll z = some e := by
    intro z e he
    by_cases hz : z = dll.fresh
    · rw [hz, hnew] at he
      exact Or.inl ⟨hz, (Option.some.inj he).symm⟩
    · rw [hold z hz] at he
      exact Or.inr he
  refine ⟨dll', hdll', rfl, h.shows.mono fun a ha => hsame (h.shows.keys_subset ha),
    fun z e he => ?_, fun y z e e' he he' hkey => ?_, fun a ha => ?_⟩
  · rw [OwnedHeap.allocated_alloc, Finset.mem_insert]
    rcases hcases z e he with ⟨_, rfl⟩ | he
    · exact ⟨Or.inl rfl, fun hmem => hne (h.shows.keys_subset hmem) rfl⟩
    · exact ⟨Or.inr (h.node z e he).1, (h.node z e he).2⟩
  · rcases hcases y e he with ⟨hy, rfl⟩ | he
    · rcases hcases z e' he' with ⟨hz, rfl⟩ | he'
      · rw [hy, hz]
      · exact absurd hkey.symm (hne (h.node z e' he').1)
    · rcases hcases z e' he' with ⟨hz, rfl⟩ | he'
      · exact absurd hkey (hne (h.node y e he).1)
      · exact h.apart y z e e' he he' hkey
  · obtain ⟨hbase, hown, hnode⟩ := h.others a ha
    have halloc : a ∈ allocated heap := OwnedHeap.mem_allocated_congr ha hbase
    refine ⟨(hsame halloc).trans hbase, hown, fun z e he => ?_⟩
    rcases hcases z e he with ⟨_, rfl⟩ | he
    · exact fun hkey => hne halloc hkey.symm
    · exact hnode z e he

/-- The entry popped leads to the slot deleted; its copy of the label is freed, and that of the
slot is not. -/
theorem Parts.evict {e : DllEntry β} (h : Parts base heap dll mem lru hm)
    (hrep : Represents lru (ys ++ [x]))
    (hpop : doublyLinkedListPopTail lru = some (some e, lru'))
    (hdel : Hash.hashmapDelete hm e.hmapKey = some (ok, hm')) :
    ∃ a dll' mem', doublyLinkedListPopTail dll = some (some ⟨a, e.data⟩, dll') ∧
      HashmapMemory.hashmapDelete heap mem (.block a) = some (ok, mem') ∧
      OwnedHeap.free heap a = some (release heap a) ∧ a ∈ allocated heap ∧
      Parts base (release heap a) dll' mem' lru' hm' := by
  have hrep' : Represents dll (ys ++ [x]) := represents_map.mp (h.list ▸ hrep)
  obtain ⟨nd, hnd⟩ := seg_mem hrep'.links (show x ∈ ys ++ [x] by simp)
  have hat : dataAt dll x = some nd.data := dataAt_eq.mpr ⟨nd, hnd, rfl⟩
  obtain ⟨dll', hdll', _, _, hold⟩ := popTail_represents hrep' hat
  have hgone := popTail_freed hrep' hdll'
  have hmap := @popTail_map _ _ (entryIn heap) dll
  rw [h.list, hpop, hdll'] at hmap
  simp only [Option.map_some, Option.some.injEq, Prod.mk.injEq] at hmap
  obtain ⟨rfl, rfl⟩ := hmap
  obtain ⟨halloc, hown⟩ := h.node x nd.data hat
  obtain ⟨text, htext⟩ := Option.isSome_iff_exists.mp (OwnedHeap.mem_allocated.mp halloc)
  have hread : (Sv.block nd.data.hmapKey).read heap = some (entryIn heap nd.data).hmapKey := by
    simp [Sv.read, entryIn, htext]
  obtain ⟨mem', hdelete, hshows, hsub, -⟩ :=
    HashmapMemory.hashmapDelete_shows h.shows hread hdel
  have hdll : ∀ z e, dataAt dll' z = some e → dataAt dll z = some e ∧ z ≠ x := by
    intro z e he
    have hz : z ≠ x := by
      rintro rfl
      rw [hgone] at he
      cases he
    exact ⟨(hold z hz).symm.trans he, hz⟩
  refine ⟨nd.data.hmapKey, dll', mem', hdll', hdelete, OwnedHeap.free_eq htext, halloc,
    h.mono (hshows.mono fun a ha => ?_) rfl (fun z e he => (hdll z e he).1)
      fun a _ hkeys hwhy => ⟨OwnedHeap.release_of_ne ?_, fun hmem => hkeys (hsub hmem)⟩⟩
  · exact OwnedHeap.release_of_ne fun he => hown (hsub (he ▸ ha))
  · rintro rfl
    rcases hwhy with ⟨z, e, he, hkey⟩ | hbase
    · obtain ⟨he, hz⟩ := hdll z e he
      exact hz (h.apart z x e nd.data he hat hkey)
    · exact (h.others _ hbase).2.2 x nd.data hat rfl

theorem Parts.index (h : Parts base heap dll mem lru hm)
    (hset : Hash.hashmapSet hm label x = some (ok, hm')) :
    ∃ heap' mem', HashmapMemory.hashmapSet heap mem (.outside label) (some x) =
        some (ok, heap', mem') ∧
      Kept heap (keys mem) heap' (keys mem') ∧ Parts base heap' dll mem' lru hm' := by
  have hread : (Sv.outside label).read heap = some label := rfl
  obtain ⟨heap', mem', hmem, hshows, hkept⟩ :=
    HashmapMemory.hashmapSet_shows h.shows hread (fun a _ hf => by cases hf) x hset
  refine ⟨heap', mem', hmem, hkept, h.mono hshows h.list (fun _ _ he => he) fun a ha hown _ => ?_⟩
  exact ⟨hkept.blocks_eq ha hown, (hkept.mem_allocated ha hown).2⟩

theorem Parts.move (h : Parts base heap dll mem lru hm)
    (hmove : doublyLinkedListMoveToFront lru x = some lru') :
    ∃ dll', doublyLinkedListMoveToFront dll x = some dll' ∧
      Parts base heap dll' mem lru' hm := by
  have hmap := @moveToFront_map _ _ (entryIn heap) dll x
  rw [h.list, hmove] at hmap
  obtain ⟨dll', hdll', hlist⟩ := Option.map_eq_some_iff.mp hmap.symm
  refine ⟨dll', hdll', h.mono h.shows hlist (fun z e he => ?_) fun a _ hown _ => ⟨rfl, hown⟩⟩
  rwa [moveToFront_data hdll' z] at he

end

/-! ## The operations -/

section
variable {base heap : OwnedHeap.Heap Bytes} {cache : MemLruCache β} {lru : LruCache β}
  {label : Bytes} {item : β} {held : List (ℕ × DllEntry β)}

theorem lruCacheGet_shows {found : Option (ℕ × β)} {lru' : LruCache β}
    (h : Parts base heap cache.dll cache.hmap lru.dll lru.hmap)
    (habs : Lru.lruCacheGet lru label = some (found, lru')) :
    ∃ dll, lruCacheGet heap cache label = some (found.map Prod.snd, { cache with dll := dll }) ∧
      Parts base heap dll cache.hmap lru'.dll lru'.hmap ∧ lru'.dll.length = lru.dll.length := by
  have hread : (Sv.outside label).read heap = some label := rfl
  have hget := HashmapMemory.hashmapGet_shows h.shows hread
  obtain ⟨o, ho, hrest⟩ := Option.bind_eq_some_iff.mp habs
  rw [ho] at hget
  cases o with
  | none =>
    cases hrest
    exact ⟨cache.dll, by simp [lruCacheGet, hget], h, rfl⟩
  | some node =>
    obtain ⟨dllA, hmove, hrest⟩ := Option.bind_eq_some_iff.mp hrest
    obtain ⟨nd, hnd, heq⟩ := Option.bind_eq_some_iff.mp hrest
    cases heq
    obtain ⟨dll, hdll, hparts⟩ := h.move hmove
    rw [← hparts.list] at hnd
    obtain ⟨nd', hnd', rfl⟩ := Option.map_eq_some_iff.mp hnd
    exact ⟨dll, by simp [lruCacheGet, hget, hdll, hnd', entryIn], hparts,
      (moveToFront_tail hmove).2.2⟩

theorem evictOver_shows {dll : DoublyLinkedList (MemDllEntry β)} {mem : MemHashmap ℕ}
    {dllA dllA' : DoublyLinkedList (DllEntry β)} {hm hm' : Hashmap ℕ} {size : ℕ}
    {evicted : Option (DllEntry β)} {xs : List ℕ} (h : Parts base heap dll mem dllA hm)
    (hrep : Represents dllA xs) (hne : xs ≠ [])
    (habs : Lru.evictOver size dllA hm = some (evicted, dllA', hm')) :
    ∃ heap' dll' mem', evictOver heap size dll mem =
        some (evicted.map DllEntry.data, heap', dll', mem') ∧
      Parts base heap' dll' mem' dllA' hm' ∧
      (allocated heap').card + dllA.length = (allocated heap).card + dllA'.length := by
  have hlength : dll.length = dllA.length := by rw [← h.list]; rfl
  unfold Lru.evictOver at habs
  split_ifs at habs with hover
  · obtain ⟨⟨popped, dllA'⟩, hpop, hrest⟩ := Option.bind_eq_some_iff.mp habs
    obtain ⟨e, hpopped, hrest⟩ := Option.bind_eq_some_iff.mp hrest
    obtain ⟨⟨ok, hm'⟩, hdel, heq⟩ := Option.bind_eq_some_iff.mp hrest
    cases hpopped
    cases heq
    obtain ⟨ys, x, rfl⟩ := (List.eq_nil_or_concat xs).resolve_left hne
    rw [List.concat_eq_append] at hrep
    obtain ⟨a, dll', mem', hpop', hdel', hfree, halloc, hparts⟩ := h.evict hrep hpop hdel
    refine ⟨release heap a, dll', mem', ?_, hparts, ?_⟩
    · rw [← hlength] at hover
      simp [evictOver, hover, hpop', hdel', hfree]
    · have hcard := Finset.card_erase_add_one halloc
      have hless : dllA'.length + 1 = dllA.length := by
        obtain ⟨nd, hnd⟩ := seg_mem hrep.links (show x ∈ ys ++ [x] by simp)
        obtain ⟨dll₁, hpop₁, hrep₁, _⟩ := popTail_represents hrep (dataAt_eq.mpr ⟨nd, hnd, rfl⟩)
        cases hpop.symm.trans hpop₁
        rw [hrep₁.length, hrep.length, List.length_append, List.length_singleton]
      rw [OwnedHeap.allocated_release]
      omega
  · cases habs
    rw [← hlength] at hover
    exact ⟨heap, dll, mem, by simp [evictOver, hover], h, rfl⟩

theorem evictOver_index {dll dll' : DoublyLinkedList (DllEntry β)} {hm hm' : Hashmap ℕ} {size : ℕ}
    {evicted : Option (DllEntry β)} (hp : Hash.Probed hm) (hno : ∀ x, ¬ Hash.Holds hm label x)
    (habs : Lru.evictOver size dll hm = some (evicted, dll', hm')) :
    Hash.Probed hm' ∧ ∀ x, ¬ Hash.Holds hm' label x := by
  unfold Lru.evictOver at habs
  split_ifs at habs
  · obtain ⟨⟨popped, dll'⟩, _, hrest⟩ := Option.bind_eq_some_iff.mp habs
    obtain ⟨e, _, hrest⟩ := Option.bind_eq_some_iff.mp hrest
    obtain ⟨⟨ok, hm'⟩, hdel, heq⟩ := Option.bind_eq_some_iff.mp hrest
    cases heq
    obtain ⟨ok', hm₁, hdel', hp', -, hholds, -⟩ := Hash.hashmapDelete_spec hp e.hmapKey
    cases hdel.symm.trans hdel'
    exact ⟨hp', fun x hx => hno x ((hholds label x).mp hx).2⟩
  · cases habs
    exact ⟨hp, hno⟩

theorem lruCacheAdd_shows {r : AddResult β}
    (h : Parts base heap cache.dll cache.hmap lru.dll lru.hmap) (hsize : cache.size = lru.size)
    (hheld : Held lru held) (hno : ∀ x, ¬ Hash.Holds lru.hmap label x)
    (hnew : ∃ x, Hash.Holds r.cache.hmap label x)
    (habs : Lru.lruCacheAdd lru label item = some r) :
    ∃ heap' cache', lruCacheAdd heap cache label item = some (r.evicted, heap', cache') ∧
      cache'.size = r.cache.size ∧
      Parts base heap' cache'.dll cache'.hmap r.cache.dll r.cache.hmap ∧
      (allocated heap').card + lru.dll.length =
        (allocated heap).card + 1 + r.cache.dll.length := by
  obtain ⟨found, hget, hrest⟩ := Option.bind_eq_some_iff.mp habs
  obtain ⟨⟨dll₁, newNode⟩, hpush, hrest⟩ := Option.bind_eq_some_iff.mp hrest
  obtain ⟨⟨evicted, dll₂, hm₁⟩, hevict, hrest⟩ := Option.bind_eq_some_iff.mp hrest
  obtain ⟨⟨indexed, hm₂⟩, hset, heq⟩ := Option.bind_eq_some_iff.mp hrest
  cases heq
  have hread : (Sv.outside label).read heap = some label := rfl
  have hget' := (HashmapMemory.hashmapGet_shows h.shows hread).trans hget
  -- the node with its copy of the label
  obtain ⟨d₁, hpush', hparts₁⟩ := h.push hheld.nodes hpush
  obtain ⟨dll₁', hpush₁, hrep, -⟩ :=
    pushFront_represents hheld.nodes (⟨label, item⟩ : DllEntry β)
  cases hpush.symm.trans hpush₁
  -- the eviction
  obtain ⟨heap₂, d₂, mem₂, hevict', hparts₂, hcard⟩ :=
    evictOver_shows hparts₁ hrep (by simp) hevict
  -- the slot of the index with another copy
  obtain ⟨heap₃, mem₃, hset', -, hparts₃⟩ := hparts₂.index hset
  obtain ⟨hp, hno₁⟩ := evictOver_index hheld.probed hno hevict
  obtain ⟨x, hx⟩ := hnew
  have hread₂ : (Sv.outside label).read heap₂ = some label := rfl
  have hcopy := HashmapMemory.hashmapSet_new hparts₂.shows hp hread₂ hno₁ hset hx hset'
  have hlength : dll₁.length = lru.dll.length + 1 := by
    rw [hrep.length, hheld.nodes.length, List.length_cons]
  rw [OwnedHeap.allocated_alloc, Finset.card_insert_of_notMem OwnedHeap.fresh_notMem] at hcard
  refine ⟨heap₃, ⟨cache.size, d₂, mem₃⟩, ?_, hsize, hparts₃, ?_⟩
  · rw [← hsize] at hevict'
    simp [lruCacheAdd, hget', hpush', hevict', hset']
  · change (allocated heap₃).card + lru.dll.length = (allocated heap).card + 1 + dll₂.length
    omega

end

/-! ## Runs -/

def memCall (s : OwnedHeap.Heap Bytes × MemLruCache β) :
    Op β → Option (Option β × OwnedHeap.Heap Bytes × MemLruCache β)
  | .add label item => lruCacheAdd s.1 s.2 label item
  | .get label => (lruCacheGet s.1 s.2 label).map fun r => (r.1, s.1, r.2)

/-- The strings that a cache with this history holds: two for each entry, and the copy of each
label evicted that its slot of the index pointed to. -/
def stringsOf (a : Recency β) : ℕ := a.entries.length + a.adds

/-- A cache in memory, beside the strings of `base`, that has come to hold these entries. -/
structure Mirrors (base : OwnedHeap.Heap Bytes) (c : ℕ)
    (s : OwnedHeap.Heap Bytes × MemLruCache β) (a : Recency β) (lru : LruCache β)
    (held : List (ℕ × DllEntry β)) : Prop where
  reflects : Reflects c lru a held
  size : s.2.size = lru.size
  parts : Parts base s.1 s.2.dll s.2.hmap lru.dll lru.hmap
  count : (allocated s.1).card = (allocated base).card + stringsOf a

section
variable {base : OwnedHeap.Heap Bytes} {c : ℕ} {s : OwnedHeap.Heap Bytes × MemLruCache β}
  {a : Recency β} {lru : LruCache β} {held : List (ℕ × DllEntry β)} {label : Bytes} {item : β}

theorem mirrors_create (base : OwnedHeap.Heap Bytes) (hash : Bytes → UInt64) (hc : 1 ≤ c) :
    Mirrors base c (base, (lruCacheCreateWith hash c : MemLruCache β)) ⟨[], 0⟩
      (Lru.lruCacheCreateWith hash c) [] :=
  ⟨reflects_create hash hc, rfl, parts_create base c hash, rfl⟩

theorem mem_next_add (hc : 1 ≤ c) (a : Recency β) (label : Bytes) (item : β) :
    label ∈ (a.next c (.add label item)).entries.map Prod.fst := by
  rw [Recency.next, keepRecent]
  split_ifs with hover
  · cases hentries : a.entries with
    | nil =>
      rw [hentries, List.length_singleton] at hover
      omega
    | cons p ps => simp
  · simp

theorem mirrors_get (h : Mirrors base c s a lru held)
    (hfits : Recency.Fits c a (.get label)) :
    ∃ t, memCall s (.get label) = some (a.answer c (.get label), t) ∧
      ∃ lru' held', Mirrors base c t (a.next c (.get label)) lru' held' := by
  obtain ⟨found, lru', hget, hfound, held', hreflects⟩ := reflects_get h.reflects hfits
  obtain ⟨dll, hmem, hparts, hlength⟩ := lruCacheGet_shows h.parts hget
  have hsize : lru'.size = lru.size := hreflects.size.trans h.reflects.size.symm
  refine ⟨(s.1, { s.2 with dll := dll }), ?_, lru', held', hreflects, h.size.trans hsize.symm,
    hparts, ?_⟩
  · rw [memCall, hmem, Option.map_some, hfound]
    rfl
  · have hcount := h.count
    have hbefore := h.reflects.length_eq
    have hafter := hreflects.length_eq
    have hadds : (a.next c (.get label)).adds = a.adds := rfl
    change (allocated s.1).card = _
    rw [stringsOf] at hcount ⊢
    omega

theorem mirrors_add (hc : 1 ≤ c) (h : Mirrors base c s a lru held)
    (hfits : Recency.Fits c a (.add label item)) :
    ∃ t, memCall s (.add label item) = some (a.answer c (.add label item), t) ∧
      ∃ lru' held', Mirrors base c t (a.next c (.add label item)) lru' held' := by
  obtain ⟨r, hadd, hev, held', hreflects⟩ := reflects_add hc h.reflects hfits
  have hno : ∀ x, ¬ Hash.Holds lru.hmap label x := fun x hx =>
    hfits.1 (h.reflects.mem_labels.mpr ⟨x, hx⟩)
  have hnew := hreflects.mem_labels.mp (mem_next_add hc a label item)
  obtain ⟨heap', cache', hmem, hsize, hparts, hcard⟩ :=
    lruCacheAdd_shows h.parts h.size h.reflects.held hno hnew hadd
  refine ⟨(heap', cache'), by rw [memCall, hmem, hev], r.cache, held', hreflects, hsize, hparts, ?_⟩
  have hcount := h.count
  have hbefore := h.reflects.length_eq
  have hafter := hreflects.length_eq
  have hadds : (a.next c (.add label item)).adds = a.adds + 1 := rfl
  change (allocated heap').card = _
  rw [stringsOf] at hcount ⊢
  omega

end

/-- For every capacity and hash function, beside whatever other strings, and all calls that fit:
the cache in memory answers as the list of recent labels demands and never reads or frees a
label that is not allocated. Every addition leaves one string that is never given back, every
entry has another, and the other strings are untouched. -/
theorem lru_in_memory (base : OwnedHeap.Heap Bytes) (hash : Bytes → UInt64) {c : ℕ} (hc : 1 ≤ c)
    (ops : List (Op β)) (hfits : Recency.AllFit c ⟨[], 0⟩ ops) :
    Follows memCall (fun a op _ => Recency.next c a op)
      (fun _ a op o t => o = Recency.answer c a op ∧
        (allocated t.1).card = (allocated base).card + stringsOf (a.next c op))
      (fun s => ∀ x ∈ allocated base, s.1.blocks x = base.blocks x)
      (base, lruCacheCreateWith hash c) ⟨[], 0⟩ ops := by
  refine follows_of_permitted (R := fun s a => ∃ lru held, Mirrors base c s a lru held) ?_ ?_ ops
    ⟨_, [], mirrors_create base hash hc⟩ (permitted_of_allFit hfits)
  · rintro s a ⟨lru, held, h⟩ x hx
    exact (h.parts.others x hx).1
  · rintro s a op ⟨lru, held, h⟩ hop
    cases op with
    | add label item =>
      obtain ⟨t, hcall, lru', held', h'⟩ := mirrors_add hc h hop
      exact ⟨_, t, hcall, trivial, ⟨rfl, h'.count⟩, lru', held', h'⟩
    | get label =>
      obtain ⟨t, hcall, lru', held', h'⟩ := mirrors_get h hop
      exact ⟨_, t, hcall, trivial, ⟨rfl, h'.count⟩, lru', held', h'⟩

/-- A cache of three beside one string: the fourth addition evicts the first label. -/
theorem lru_in_memory_three :
    Follows memCall (fun a op _ => Recency.next 3 a op)
      (fun _ a op o t => o = Recency.answer 3 a op ∧
        (allocated t.1).card =
          (allocated (alloc OwnedHeap.empty [120])).card + stringsOf (a.next 3 op))
      (fun s => ∀ x ∈ allocated (alloc OwnedHeap.empty [120]),
        s.1.blocks x = (alloc OwnedHeap.empty [120]).blocks x)
      (alloc OwnedHeap.empty [120], lruCacheCreateWith Hash.hashFnv1a 3) ⟨[], 0⟩
      [.add [97] 1, .add [98] 2, .add [99] 3, .get [98], .add [100] 4, .get [97], .get [100]] :=
  lru_in_memory (alloc OwnedHeap.empty [120]) Hash.hashFnv1a (by decide)
    [.add [97] 1, .add [98] 2, .add [99] 3, .get [98], .add [100] (4 : ℕ), .get [97], .get [100]]
    (by decide)

end Cerverus.CacheMemory
