import Cerverus.OwnedHeap
import Cerverus.Rehash

/-!
# The hashmap in memory

Each slot that is set points to an sds copy of its key. `hashmap_set` frees the copy of a key
that is set again and makes a new one, `hashmap_delete` clears the slot without freeing the
copy, `hashmap_rehash` fills another table from the copies of the old one and then destroys
it. A function returns `none` where it reads or frees a string that is not allocated.
-/
namespace Cerverus.HashmapMemory
open Hash (HashmapEntry Hashmap stopsAt tableSize liveBelow loadOne)
open OwnedHeap ProbeSequence Refinement

variable {β : Type}

/-- A `hashmap_entry`; `isSet` is its `exists`, and `data` is `none` where the bytes are zero. -/
structure MemEntry (β : Type) where
  isSet : Bool
  key : Option ℕ
  isTombstone : Bool
  data : Option β

def zeroed : MemEntry β := ⟨false, none, false, none⟩

structure MemHashmap (β : Type) where
  size : ℕ
  hash : Bytes → UInt64
  entries : ℕ → MemEntry β

/-- What the pointer of a `sv_t` points to: bytes of the caller, or an sds string. -/
inductive Sv
  | outside (bytes : Bytes)
  | block (a : ℕ)

def Sv.read (heap : Heap Bytes) : Sv → Option Bytes
  | .outside bytes => some bytes
  | .block a => heap.blocks a

def hashmapCreate (size load : ℕ) (hash : Bytes → UInt64) : MemHashmap β :=
  { size := tableSize size load, hash := hash, entries := fun _ => zeroed }

/-- The probing loop: the key of a slot that is set is read through its pointer. -/
def search (heap : Heap Bytes) (entries : ℕ → MemEntry β) (key : Bytes) :
    List ℕ → Option (Option ℕ)
  | [] => some none
  | j :: js =>
    if (entries j).isSet then
      ((entries j).key.bind heap.blocks).bind fun k =>
        if k = key then some (some j) else search heap entries key js
    else if (entries j).isTombstone then search heap entries key js
    else some (some j)

def probe (heap : Heap Bytes) (mem : MemHashmap β) (sv : Sv) : Option (Option ℕ) :=
  if mem.size = 0 then none
  else (sv.read heap).bind fun key =>
    search heap mem.entries key (probeSeq mem.size ((mem.hash key).toNat % mem.size))

def setEntry (mem : MemHashmap β) (j : ℕ) (e : MemEntry β) : MemHashmap β :=
  { mem with entries := Function.update mem.entries j e }

def freeKey (heap : Heap Bytes) : Option ℕ → Option (Heap Bytes)
  | none => some heap
  | some a => free heap a

/-- The two ends of `hashmap_set`: the old key is freed before the new one is read. -/
def storeAt (heap : Heap Bytes) (mem : MemHashmap β) (j : ℕ) (sv : Sv) (element : Option β) :
    Option (Heap Bytes × MemHashmap β) := do
  let heap ← freeKey heap (mem.entries j).key
  let key ← sv.read heap
  let entry := { mem.entries j with data := element, key := some heap.fresh, isSet := true }
  some (alloc heap key, setEntry mem j entry)

def hashmapSet (heap : Heap Bytes) (mem : MemHashmap β) (sv : Sv) (element : Option β) :
    Option (Bool × Heap Bytes × MemHashmap β) :=
  (probe heap mem sv).bind fun
    | none => some (false, heap, mem)
    | some j => (storeAt heap mem j sv element).map fun r => (true, r)

/-- The data of a slot that is set has been written. -/
def hashmapGet (heap : Heap Bytes) (mem : MemHashmap β) (sv : Sv) : Option (Option β) :=
  (probe heap mem sv).bind fun
    | none => some none
    | some j => if (mem.entries j).isSet then (mem.entries j).data.map some else some none

def hashmapDelete (heap : Heap Bytes) (mem : MemHashmap β) (sv : Sv) :
    Option (Bool × MemHashmap β) :=
  (probe heap mem sv).map fun
    | none => (false, mem)
    | some j =>
      if (mem.entries j).isSet then (true, setEntry mem j { zeroed with isTombstone := true })
      else (false, mem)

def freeKeys (mem : MemHashmap β) : List ℕ → Heap Bytes → Option (Heap Bytes)
  | [], heap => some heap
  | j :: js, heap =>
    if (mem.entries j).isSet then (freeKey heap (mem.entries j).key).bind (freeKeys mem js)
    else freeKeys mem js heap

def hashmapDestroy (heap : Heap Bytes) (mem : MemHashmap β) : Option (Heap Bytes) :=
  freeKeys mem (List.range mem.size) heap

/-- The loop of `hashmap_rehash`, which ignores what `hashmap_set` returns. -/
def reinsert (mem : MemHashmap β) :
    List ℕ → Heap Bytes × MemHashmap β → Option (Heap Bytes × MemHashmap β)
  | [], r => some r
  | i :: is, r =>
    if (mem.entries i).isSet then
      (mem.entries i).key.bind fun a =>
        (hashmapSet r.1 r.2 (.block a) (mem.entries i).data).bind fun r => reinsert mem is r.2
    else reinsert mem is r

def hashmapRehash (heap : Heap Bytes) (mem : MemHashmap β) :
    Option (Heap Bytes × MemHashmap β) :=
  (reinsert mem (List.range mem.size) (heap, hashmapCreate mem.size loadOne mem.hash)).bind
    fun r => (hashmapDestroy r.1 mem).map fun heap => (heap, r.2)

/-! ## What a table in memory shows -/

def SlotShows (heap : Heap Bytes) (e : MemEntry β) : HashmapEntry β → Prop
  | .empty => e = zeroed
  | .live k d => ∃ a, e = ⟨true, some a, false, some d⟩ ∧ heap.blocks a = some k
  | .tombstone => e = { zeroed with isTombstone := true }

def keysAt (mem : MemHashmap β) (js : Finset ℕ) : Finset ℕ :=
  js.biUnion fun j => (mem.entries j).key.toFinset

def keys (mem : MemHashmap β) : Finset ℕ := keysAt mem (Finset.range mem.size)

/-- The table in memory is the table of the model, and no two slots share a key copy. -/
structure Shows (heap : Heap Bytes) (mem : MemHashmap β) (hm : Hashmap β) : Prop where
  size : mem.size = hm.size
  hash : mem.hash = hm.hash
  slots : ∀ j < mem.size, SlotShows heap (mem.entries j) (hm.entries j)
  apart : ∀ i < mem.size, ∀ j < mem.size, ∀ a,
    (mem.entries i).key = some a → (mem.entries j).key = some a → i = j

section
variable {heap heap' : Heap Bytes} {mem mem' : MemHashmap β} {hm hm' : Hashmap β} {sv : Sv}
  {key : Bytes} {element : β} {j a : ℕ} {ok : Bool}

theorem mem_keys : a ∈ keys mem ↔ ∃ j < mem.size, (mem.entries j).key = some a := by
  simp [keys, keysAt]

theorem shows_create (heap : Heap Bytes) (size load : ℕ) (hash : Bytes → UInt64) :
    Shows heap (hashmapCreate size load hash : MemHashmap β) (Hash.hashmapCreate size load hash) :=
  ⟨rfl, rfl, fun _ _ => rfl, fun _ _ _ _ _ h => by cases h⟩

theorem keys_create (size load : ℕ) (hash : Bytes → UInt64) :
    keys (hashmapCreate size load hash : MemHashmap β) = ∅ := by
  ext a
  simp [mem_keys, hashmapCreate, zeroed]

theorem SlotShows.cases {e : MemEntry β} {m : HashmapEntry β} (h : SlotShows heap e m) :
    (m = .empty ∧ e = zeroed) ∨ (m = .tombstone ∧ e = { zeroed with isTombstone := true }) ∨
      ∃ a k d, m = .live k d ∧ e = ⟨true, some a, false, some d⟩ ∧ heap.blocks a = some k := by
  cases m with
  | empty => exact Or.inl ⟨rfl, h⟩
  | tombstone => exact Or.inr (Or.inl ⟨rfl, h⟩)
  | live k d =>
    obtain ⟨a, he, ha⟩ := h
    exact Or.inr (Or.inr ⟨a, k, d, rfl, he, ha⟩)

theorem SlotShows.of_key {e : MemEntry β} {m : HashmapEntry β} (h : SlotShows heap e m)
    (ha : e.key = some a) :
    ∃ k d, m = .live k d ∧ e = ⟨true, some a, false, some d⟩ ∧ heap.blocks a = some k := by
  rcases h.cases with ⟨_, rfl⟩ | ⟨_, rfl⟩ | ⟨b, k, d, hm, rfl, hb⟩
  · cases ha
  · cases ha
  · cases ha
    exact ⟨k, d, hm, rfl, hb⟩

theorem SlotShows.mono {e : MemEntry β} {m : HashmapEntry β} (h : SlotShows heap e m)
    (hsame : ∀ a, e.key = some a → heap'.blocks a = heap.blocks a) : SlotShows heap' e m := by
  cases m with
  | empty => exact h
  | tombstone => exact h
  | live k d =>
    obtain ⟨a, rfl, ha⟩ := h
    exact ⟨a, rfl, (hsame a rfl).trans ha⟩

theorem Shows.keys_subset (h : Shows heap mem hm) : keys mem ⊆ allocated heap := by
  intro a ha
  obtain ⟨j, hj, hkey⟩ := mem_keys.mp ha
  obtain ⟨k, d, _, _, hb⟩ := (h.slots j hj).of_key hkey
  exact mem_allocated_of hb

/-- What happens to blocks that are not keys of the table does not show. -/
theorem Shows.mono (h : Shows heap mem hm)
    (hsame : ∀ a ∈ keys mem, heap'.blocks a = heap.blocks a) : Shows heap' mem hm :=
  ⟨h.size, h.hash, fun j hj => (h.slots j hj).mono fun a ha => hsame a (mem_keys.mpr ⟨j, hj, ha⟩),
    h.apart⟩

theorem Shows.card_keys (h : Shows heap mem hm) : (keys mem).card = liveBelow hm hm.size := by
  have hcard : ∀ j < mem.size,
      (mem.entries j).key.toFinset.card = if (hm.entries j).isLive then 1 else 0 := by
    intro j hj
    rcases (h.slots j hj).cases with ⟨hm, he⟩ | ⟨hm, he⟩ | ⟨a, k, d, hm, he, _⟩
    · rw [hm, he]
      rfl
    · rw [hm, he]
      rfl
    · rw [hm, he]
      rfl
  have hdisj : ((Finset.range mem.size : Finset ℕ) : Set ℕ).PairwiseDisjoint
      fun j => (mem.entries j).key.toFinset := by
    intro i hi j hj hij
    rw [Function.onFun, Finset.disjoint_left]
    intro a hai haj
    rw [Option.mem_toFinset] at hai haj
    exact hij (h.apart i (by simpa using hi) j (by simpa using hj) a hai haj)
  rw [keys, keysAt, Finset.card_biUnion hdisj, liveBelow, Finset.card_filter, ← h.size]
  exact Finset.sum_congr rfl fun j hj => hcard j (Finset.mem_range.mp hj)

/-! ## Probing -/

theorem search_eq {js : List ℕ} (h : ∀ j ∈ js, SlotShows heap (mem.entries j) (hm.entries j)) :
    search heap mem.entries key js = some (js.find? fun j => stopsAt key (hm.entries j)) := by
  induction js with
  | nil => rfl
  | cons j js ih =>
    have hrest := ih fun i hi => h i (List.mem_cons_of_mem j hi)
    rw [search]
    rcases (h j List.mem_cons_self).cases with ⟨hm', he⟩ | ⟨hm', he⟩ | ⟨a, k, d, hm', he, ha⟩
    · simp [hm', he, stopsAt, zeroed]
    · simpa [hm', he, stopsAt, zeroed] using hrest
    · by_cases hk : k = key
      · simp [hm', he, stopsAt, ha, hk]
      · simpa [hm', he, stopsAt, ha, hk] using hrest

theorem probe_eq (h : Shows heap mem hm) (hkey : sv.read heap = some key) :
    probe heap mem sv = Hash.probe hm key := by
  rw [probe, Hash.probe, hkey, h.size, h.hash]
  split_ifs with h0
  · rfl
  · rw [Option.bind_some]
    refine search_eq fun j hj => h.slots j ?_
    rw [h.size]
    exact (mem_probeSeq _).mp hj

/-! ## One slot rewritten -/

theorem keys_setEntry (h : Shows heap mem hm) (hj : j < mem.size) (e : MemEntry β) :
    keys (setEntry mem j e) = (keys mem \ (mem.entries j).key.toFinset) ∪ e.key.toFinset := by
  ext a
  rw [Finset.mem_union, Finset.mem_sdiff, mem_keys, mem_keys, Option.mem_toFinset,
    Option.mem_toFinset]
  constructor
  · rintro ⟨i, hi, ha⟩
    change (Function.update mem.entries j e i).key = some a at ha
    by_cases hij : i = j
    · subst hij
      rw [Function.update_self] at ha
      exact Or.inr ha
    · rw [Function.update_of_ne hij] at ha
      exact Or.inl ⟨⟨i, hi, ha⟩, fun haj => hij (h.apart i hi j hj a ha haj)⟩
  · rintro (⟨⟨i, hi, ha⟩, hne⟩ | ha)
    · have hij : i ≠ j := fun hij => hne (hij ▸ ha)
      exact ⟨i, hi, by simp only [setEntry, Function.update_of_ne hij, ha]⟩
    · exact ⟨j, hj, by simpa only [setEntry, Function.update_self] using Option.mem_def.mp ha⟩

/-- A slot rewritten with a key that no other slot has; the keys of the others are as they
were. -/
theorem Shows.setEntry (h : Shows heap mem hm) (hj : j < mem.size) {e : MemEntry β}
    {m : HashmapEntry β} (hslot : SlotShows heap' e m)
    (hapart : ∀ i < mem.size, i ≠ j → ∀ a, (mem.entries i).key = some a →
      heap'.blocks a = heap.blocks a ∧ e.key ≠ some a) :
    Shows heap' (setEntry mem j e) (Hash.setEntry hm j m) := by
  refine ⟨h.size, h.hash, fun i hi => ?_, fun i hi i' hi' a ha ha' => ?_⟩
  · change SlotShows heap' (Function.update mem.entries j e i) (Function.update hm.entries j m i)
    by_cases hij : i = j
    · subst hij
      rw [Function.update_self, Function.update_self]
      exact hslot
    · rw [Function.update_of_ne hij, Function.update_of_ne hij]
      exact (h.slots i hi).mono fun a ha => (hapart i hi hij a ha).1
  · change (Function.update mem.entries j e i).key = some a at ha
    change (Function.update mem.entries j e i').key = some a at ha'
    by_cases hij : i = j
    · by_cases hij' : i' = j
      · rw [hij, hij']
      · rw [hij, Function.update_self] at ha
        rw [Function.update_of_ne hij'] at ha'
        exact absurd ha (hapart i' hi' hij' a ha').2
    · rw [Function.update_of_ne hij] at ha
      by_cases hij' : i' = j
      · rw [hij', Function.update_self] at ha'
        exact absurd ha' (hapart i hi hij a ha).2
      · rw [Function.update_of_ne hij'] at ha'
        exact h.apart i hi i' hi' a ha ha'

/-- The key copy of a slot that stops the search is freed, if there is one. -/
theorem freeKey_spec (h : Shows heap mem hm) (hj : j < mem.size) :
    ∃ heap₁, freeKey heap (mem.entries j).key = some heap₁ ∧
      Kept heap (keys mem) heap₁ (keys mem \ (mem.entries j).key.toFinset) ∧
      ∀ a, (mem.entries j).key ≠ some a → heap₁.blocks a = heap.blocks a := by
  cases hkey : (mem.entries j).key with
  | none => exact ⟨heap, rfl, by simpa using Kept.refl, fun _ _ => rfl⟩
  | some b =>
    obtain ⟨k, d, _, _, hb⟩ := (h.slots j hj).of_key hkey
    refine ⟨release heap b, free_eq hb, ?_, fun a ha => release_of_ne fun hab => ha (by rw [hab])⟩
    rw [Option.toFinset_some, Finset.sdiff_singleton_eq_erase]
    exact kept_release (mem_keys.mpr ⟨j, hj, hkey⟩)

theorem storeAt_spec (h : Shows heap mem hm) (hj : j < mem.size)
    (hstop : stopsAt key (hm.entries j) = true) (hkey : sv.read heap = some key)
    (hsv : ∀ a ∈ keys mem, sv ≠ .block a) (d : β) :
    ∃ heap' mem', storeAt heap mem j sv (some d) = some (heap', mem') ∧
      Shows heap' mem' (Hash.setEntry hm j (.live key d)) ∧
      Kept heap (keys mem) heap' (keys mem') := by
  obtain ⟨heap₁, hfree, hkept, hsame⟩ := freeKey_spec h hj
  have hkey₁ : sv.read heap₁ = some key := by
    cases sv with
    | outside bytes => exact hkey
    | block a =>
      refine (hsame a fun ha => ?_).trans hkey
      exact hsv a (mem_keys.mpr ⟨j, hj, ha⟩) rfl
  have htomb : (mem.entries j).isTombstone = false := by
    rcases (h.slots j hj).cases with ⟨_, he⟩ | ⟨hm', _⟩ | ⟨a, k, d, _, he, _⟩
    · rw [he]
      rfl
    · rw [hm'] at hstop
      cases hstop
    · rw [he]
  refine ⟨alloc heap₁ key, setEntry mem j ⟨true, some heap₁.fresh, false, some d⟩,
    by simp [storeAt, hfree, hkey₁, htomb], ?_, ?_⟩
  · refine h.setEntry hj ⟨heap₁.fresh, rfl, alloc_self⟩ fun i hi hij a ha => ?_
    have hne : (mem.entries j).key ≠ some a := fun ha' => hij (h.apart i hi j hj a ha ha')
    obtain ⟨k, d, _, _, hb⟩ := (h.slots i hi).of_key ha
    have hlt := lt_fresh ((hsame a hne).trans hb)
    exact ⟨(alloc_of_ne hlt.ne).trans (hsame a hne), fun he => hlt.ne (Option.some.inj he).symm⟩
  · rw [keys_setEntry h hj, Option.toFinset_some, Finset.union_comm, ← Finset.insert_eq]
    exact hkept.trans kept_alloc

/-! ## The operations -/

theorem hashmapSet_shows (h : Shows heap mem hm) (hkey : sv.read heap = some key)
    (hsv : ∀ a ∈ keys mem, sv ≠ .block a) (d : β)
    (hset : Hash.hashmapSet hm key d = some (ok, hm')) :
    ∃ heap' mem', hashmapSet heap mem sv (some d) = some (ok, heap', mem') ∧
      Shows heap' mem' hm' ∧ Kept heap (keys mem) heap' (keys mem') := by
  obtain ⟨o, ho, hr⟩ := Option.map_eq_some_iff.mp hset
  have hprobe := (probe_eq h hkey).trans ho
  cases o with
  | none =>
    cases hr
    exact ⟨heap, mem, by simp [hashmapSet, hprobe], h, .refl⟩
  | some j =>
    cases hr
    obtain ⟨hj, hstop⟩ := Hash.probe_some ho
    rw [← h.size] at hj
    obtain ⟨heap', mem', hstore, hshows, hkept⟩ := storeAt_spec h hj hstop hkey hsv d
    exact ⟨heap', mem', by simp [hashmapSet, hprobe, hstore], hshows, hkept⟩

theorem hashmapSet_new (h : Shows heap mem hm) (hp : Hash.Probed hm)
    (hkey : sv.read heap = some key) {d d' : β} (hno : ∀ d, ¬ Hash.Holds hm key d)
    (hset : Hash.hashmapSet hm key d = some (ok, hm')) (hnew : Hash.Holds hm' key d')
    (hmem : hashmapSet heap mem sv (some d) = some (ok, heap', mem')) :
    (allocated heap').card = (allocated heap).card + 1 := by
  obtain ⟨o, ho, hr⟩ := Option.map_eq_some_iff.mp hset
  cases o with
  | none =>
    cases hr
    exact absurd hnew (hno d')
  | some j =>
    have hj := (Hash.probe_some ho).1
    have hslot := h.slots j (h.size ▸ hj)
    rcases Hash.probe_live hp ho with ⟨held, he⟩ | ⟨he, _⟩
    · exact absurd ⟨j, hj, he⟩ (hno held)
    · rw [he] at hslot
      have hnone : (mem.entries j).key = none := congrArg MemEntry.key hslot
      rw [hashmapSet, probe_eq h hkey, ho, Option.bind_some] at hmem
      simp only [storeAt, hnone, freeKey, hkey, Option.bind_eq_bind, Option.bind_some,
        Option.map_some, Option.some.injEq, Prod.mk.injEq] at hmem
      rw [← hmem.2.1, allocated_alloc, Finset.card_insert_of_notMem fresh_notMem]

theorem hashmapGet_shows (h : Shows heap mem hm) (hkey : sv.read heap = some key) :
    hashmapGet heap mem sv = Hash.hashmapGet hm key := by
  rw [hashmapGet, Hash.hashmapGet, probe_eq h hkey]
  cases ho : Hash.probe hm key with
  | none => rfl
  | some o =>
    cases o with
    | none => rfl
    | some j =>
      rcases (h.slots j (h.size ▸ (Hash.probe_some ho).1)).cases with
        ⟨hm', he⟩ | ⟨hm', he⟩ | ⟨a, k, d, hm', he, _⟩
      · simp [hm', he, zeroed]
      · simp [hm', he, zeroed]
      · simp [hm', he]

theorem hashmapDelete_shows (h : Shows heap mem hm) (hkey : sv.read heap = some key)
    (hdel : Hash.hashmapDelete hm key = some (ok, hm')) :
    ∃ mem', hashmapDelete heap mem sv = some (ok, mem') ∧ Shows heap mem' hm' ∧
      keys mem' ⊆ keys mem ∧ (keys mem').card + (if ok then 1 else 0) = (keys mem).card := by
  obtain ⟨o, ho, hr⟩ := Option.map_eq_some_iff.mp hdel
  have hprobe := (probe_eq h hkey).trans ho
  cases o with
  | none =>
    cases hr
    exact ⟨mem, by simp [hashmapDelete, hprobe], h, Finset.Subset.refl _, rfl⟩
  | some j =>
    have hj : j < mem.size := h.size ▸ (Hash.probe_some ho).1
    rcases (h.slots j hj).cases with ⟨he, hslot⟩ | ⟨he, hslot⟩ | ⟨a, k, d, he, hslot, _⟩
    · simp only [he] at hr
      cases hr
      exact ⟨mem, by simp [hashmapDelete, hprobe, hslot, zeroed], h, Finset.Subset.refl _, rfl⟩
    · simp only [he] at hr
      cases hr
      exact ⟨mem, by simp [hashmapDelete, hprobe, hslot, zeroed], h, Finset.Subset.refl _, rfl⟩
    · simp only [he] at hr
      cases hr
      have hmem : a ∈ keys mem := mem_keys.mpr ⟨j, hj, by rw [hslot]⟩
      have hkeys : keys (setEntry mem j { zeroed with isTombstone := true }) =
          (keys mem).erase a := by
        rw [keys_setEntry h hj, hslot]
        ext b
        simp [zeroed, Finset.mem_erase, and_comm]
      refine ⟨setEntry mem j { zeroed with isTombstone := true },
        by simp [hashmapDelete, hprobe, hslot], ?_, ?_, ?_⟩
      · exact h.setEntry hj rfl fun i hi hij b hb => ⟨rfl, fun hf => by cases hf⟩
      · rw [hkeys]
        exact Finset.erase_subset a _
      · rw [hkeys, if_pos rfl]
        exact Finset.card_erase_add_one hmem

theorem freeKeys_shows (js : List ℕ) (hjs : ∀ j ∈ js, j < mem.size) (hnodup : js.Nodup)
    (hslots : ∀ j ∈ js, SlotShows heap (mem.entries j) (hm.entries j))
    (hapart : ∀ i < mem.size, ∀ j < mem.size, ∀ a,
      (mem.entries i).key = some a → (mem.entries j).key = some a → i = j) :
    ∃ heap', freeKeys mem js heap = some heap' ∧ Kept heap (keysAt mem js.toFinset) heap' ∅ := by
  induction js generalizing heap with
  | nil => exact ⟨heap, rfl, by simpa [keysAt] using Kept.refl⟩
  | cons j js ih =>
    obtain ⟨hnotin, hnodup⟩ := List.nodup_cons.mp hnodup
    have hrest : ∀ i ∈ js, i < mem.size := fun i hi => hjs i (List.mem_cons_of_mem j hi)
    have hslot := hslots j List.mem_cons_self
    have hunion : keysAt mem (j :: js).toFinset =
        (mem.entries j).key.toFinset ∪ keysAt mem js.toFinset := by
      rw [List.toFinset_cons, keysAt, Finset.biUnion_insert]
      rfl
    rw [hunion, freeKeys]
    cases hkey : (mem.entries j).key with
    | none =>
      have hset : (mem.entries j).isSet = false := by
        rcases hslot.cases with ⟨_, he⟩ | ⟨_, he⟩ | ⟨a, k, d, _, he, _⟩
        · rw [he]
          rfl
        · rw [he]
          rfl
        · rw [he] at hkey
          cases hkey
      obtain ⟨heap', hfree, hkept⟩ :=
        ih hrest hnodup fun i hi => hslots i (List.mem_cons_of_mem j hi)
      exact ⟨heap', by simp [hset, hfree], by simpa using hkept⟩
    | some a =>
      obtain ⟨k, d, _, he, ha⟩ := hslot.of_key hkey
      have hnot : a ∉ keysAt mem js.toFinset := by
        intro hmem
        obtain ⟨i, hi, hia⟩ := Finset.mem_biUnion.mp hmem
        rw [List.mem_toFinset] at hi
        have hij := hapart i (hrest i hi) j (hjs j List.mem_cons_self) a (by simpa using hia) hkey
        exact hnotin (hij ▸ hi)
      have hslots' : ∀ i ∈ js, SlotShows (release heap a) (mem.entries i) (hm.entries i) := by
        intro i hi
        refine (hslots i (List.mem_cons_of_mem j hi)).mono fun b hb => release_of_ne fun hba => ?_
        refine hnot (Finset.mem_biUnion.mpr ⟨i, List.mem_toFinset.mpr hi, ?_⟩)
        rw [← hba]
        simpa using hb
      obtain ⟨heap', hfree, hkept⟩ := ih hrest hnodup hslots'
      refine ⟨heap', by simp [he, freeKey, free_eq ha, hfree], ?_⟩
      have hrelease : Kept heap ({a} ∪ keysAt mem js.toFinset) (release heap a)
          (({a} ∪ keysAt mem js.toFinset).erase a) := kept_release (by simp)
      rw [← Finset.insert_eq, Finset.erase_insert hnot] at hrelease
      exact (Finset.insert_eq a _ ▸ hrelease).trans hkept

theorem hashmapDestroy_shows (h : Shows heap mem hm) :
    ∃ heap', hashmapDestroy heap mem = some heap' ∧ Kept heap (keys mem) heap' ∅ := by
  have hfree := freeKeys_shows (List.range mem.size) (fun j hj => List.mem_range.mp hj)
    List.nodup_range (fun j hj => h.slots j (List.mem_range.mp hj)) h.apart
  rwa [List.toFinset_range] at hfree

theorem reinsert_shows {new : MemHashmap β} {hmNew : Hashmap β} {oks : List Bool} (is : List ℕ)
    (his : ∀ i ∈ is, i < mem.size) (h : Shows heap mem hm) (hnew : Shows heap new hmNew)
    (hdisj : Disjoint (keys mem) (keys new))
    (hrun : Hash.reinsert hm is hmNew = some (oks, hm')) :
    ∃ heap' new', reinsert mem is (heap, new) = some (heap', new') ∧ Shows heap' new' hm' ∧
      Kept heap (keys new) heap' (keys new') := by
  induction is generalizing heap new hmNew oks with
  | nil =>
    cases hrun
    exact ⟨heap, new, rfl, hnew, .refl⟩
  | cons i is ih =>
    have hrest : ∀ j ∈ is, j < mem.size := fun j hj => his j (List.mem_cons_of_mem i hj)
    rw [Hash.reinsert] at hrun
    rw [reinsert]
    rcases (h.slots i (his i List.mem_cons_self)).cases with
      ⟨he, hslot⟩ | ⟨he, hslot⟩ | ⟨a, k, d, he, hslot, ha⟩
    · rw [he] at hrun
      simpa [hslot, zeroed] using ih hrest h hnew hdisj hrun
    · rw [he] at hrun
      simpa [hslot, zeroed] using ih hrest h hnew hdisj hrun
    · simp only [he] at hrun
      obtain ⟨⟨ok, hmNew₁⟩, hset₁, hrest₁⟩ := Option.bind_eq_some_iff.mp hrun
      obtain ⟨rest, hrest₂, heq⟩ := Option.map_eq_some_iff.mp hrest₁
      cases heq
      have hown : a ∈ keys mem := mem_keys.mpr ⟨i, his i List.mem_cons_self, by rw [hslot]⟩
      have hread : (Sv.block a).read heap = some k := ha
      have houtside : ∀ b ∈ keys new, Sv.block a ≠ .block b := by
        intro b hb hab
        cases hab
        exact Finset.disjoint_left.mp hdisj hown hb
      obtain ⟨heap₁, new₁, hstore, hshows, hkept⟩ :=
        hashmapSet_shows hnew hread houtside d hset₁
      have hkeep : ∀ b ∈ keys mem, heap₁.blocks b = heap.blocks b := fun b hb =>
        hkept.blocks_eq (h.keys_subset hb) (Finset.disjoint_left.mp hdisj hb)
      have hdisj₁ : Disjoint (keys mem) (keys new₁) := Finset.disjoint_left.mpr fun b hb =>
        (hkept.mem_allocated (h.keys_subset hb) (Finset.disjoint_left.mp hdisj hb)).2
      obtain ⟨heap', new', hre, hshows', hkept'⟩ :=
        ih hrest (h.mono hkeep) hshows hdisj₁ hrest₂
      exact ⟨heap', new', by simp [hslot, hstore, hre], hshows', hkept.trans hkept'⟩

theorem hashmapRehash_shows (h : Shows heap mem hm)
    (hrun : Hash.hashmapRehash hm = some hm') :
    ∃ heap' mem', hashmapRehash heap mem = some (heap', mem') ∧ Shows heap' mem' hm' ∧
      Kept heap (keys mem) heap' (keys mem') := by
  obtain ⟨⟨oks, hm'⟩, hre, rfl⟩ := Option.map_eq_some_iff.mp hrun
  rw [← h.size, ← h.hash] at hre
  have hnone := @keys_create β mem.size loadOne mem.hash
  obtain ⟨heap₁, new, hmem, hshows, hkept⟩ := reinsert_shows (List.range mem.size)
    (fun i hi => List.mem_range.mp hi) h (shows_create heap mem.size loadOne mem.hash)
    (by rw [hnone]; exact Finset.disjoint_empty_right _) hre
  rw [hnone] at hkept
  have hin : ∀ b ∈ keys mem, b ∈ allocated heap₁ ∧ b ∉ keys new := fun b hb =>
    hkept.mem_allocated (h.keys_subset hb) (Finset.notMem_empty b)
  have hold := h.mono fun b hb => hkept.blocks_eq (h.keys_subset hb) (Finset.notMem_empty b)
  obtain ⟨heap', hdestroy, hgone⟩ := hashmapDestroy_shows hold
  refine ⟨heap', new, by simp [hashmapRehash, hmem, hdestroy], hshows.mono fun b hb => ?_,
    hkept.replace hgone⟩
  exact hgone.blocks_eq (hshows.keys_subset hb) fun hmem => (hin b hmem).2 hb

end

/-! ## Runs -/

inductive MapCall (β : Type)
  | call (c : Hash.Call β)
  | rehash

/-- The keys of deleted slots are never freed. -/
def leaks : Hash.Answer β → ℕ
  | .deleted true => 1
  | _ => 0

/-- The table of the model, with the number of key copies lost so far. -/
def tableCall (t : Hashmap β × ℕ) :
    MapCall β → Option (Option (Hash.Answer β) × Hashmap β × ℕ)
  | .call c => (Hash.call t.1 c).map fun r => (some r.1, r.2, t.2 + leaks r.1)
  | .rehash => (Hash.hashmapRehash t.1).map fun hm => (none, hm, t.2)

/-- The keys that callers pass do not lie in the strings of the table. -/
def memCall (s : Heap Bytes × MemHashmap β) :
    MapCall β → Option (Option (Hash.Answer β) × Heap Bytes × MemHashmap β)
  | .call (.set key element) =>
    (hashmapSet s.1 s.2 (.outside key) (some element)).map fun r => (some (.stored r.1), r.2)
  | .call (.get key) => (hashmapGet s.1 s.2 (.outside key)).map fun d => (some (.found d), s)
  | .call (.delete key) =>
    (hashmapDelete s.1 s.2 (.outside key)).map fun r => (some (.deleted r.1), s.1, r.2)
  | .rehash => (hashmapRehash s.1 s.2).map fun r => (none, r)

/-- The strings allocated are those of `base`, untouched, the keys of the table, and the copies
lost. -/
structure Ledger (base : Heap Bytes) (s : Heap Bytes × MemHashmap β) (t : Hashmap β × ℕ) :
    Prop where
  shows : Shows s.1 s.2 t.1
  others : ∀ a ∈ allocated base, s.1.blocks a = base.blocks a ∧ a ∉ keys s.2
  count : (allocated s.1 \ keys s.2).card = (allocated base).card + t.2

section
variable {base heap heap' : Heap Bytes} {mem mem' : MemHashmap β} {hm hm' : Hashmap β} {lost : ℕ}

theorem ledger_create (base : Heap Bytes) (size load : ℕ) (hash : Bytes → UInt64) :
    Ledger base (base, (hashmapCreate size load hash : MemHashmap β))
      (Hash.hashmapCreate size load hash, 0) := by
  have hnone := @keys_create β size load hash
  exact ⟨shows_create base size load hash, by simp [hnone], by simp [hnone]⟩

theorem Ledger.kept (h : Ledger base (heap, mem) (hm, lost)) (hshows : Shows heap' mem' hm')
    (hkept : Kept heap (keys mem) heap' (keys mem')) :
    Ledger base (heap', mem') (hm', lost) := by
  refine ⟨hshows, fun a ha => ?_, ?_⟩
  · obtain ⟨hsame, hown⟩ := h.others a ha
    have halloc : a ∈ allocated heap := mem_allocated_congr ha hsame
    exact ⟨(hkept.blocks_eq halloc hown).trans hsame, (hkept.mem_allocated halloc hown).2⟩
  · rw [← h.count]
    exact congrArg Finset.card hkept.others

/-- Of a deleted key the copy is lost. -/
theorem Ledger.deleted {ok : Bool} (h : Ledger base (heap, mem) (hm, lost))
    (hshows : Shows heap mem' hm') (hsub : keys mem' ⊆ keys mem)
    (hcard : (keys mem').card + (if ok then 1 else 0) = (keys mem).card) :
    Ledger base (heap, mem') (hm', lost + leaks (.deleted ok : Hash.Answer β)) := by
  refine ⟨hshows, fun a ha => ⟨(h.others a ha).1, fun hmem => (h.others a ha).2 (hsub hmem)⟩, ?_⟩
  have hleaks : leaks (.deleted ok : Hash.Answer β) = if ok then 1 else 0 := by
    cases ok <;> rfl
  have hall : keys mem ⊆ allocated heap := h.shows.keys_subset
  have hle := Finset.card_le_card hall
  have hcount : (allocated heap \ keys mem).card = (allocated base).card + lost := h.count
  rw [Finset.card_sdiff_of_subset hall] at hcount
  change (allocated heap \ keys mem').card = (allocated base).card + (lost + _)
  rw [Finset.card_sdiff_of_subset hshows.keys_subset, hleaks]
  omega

theorem memCall_ledger (h : Ledger base (heap, mem) (hm, lost)) (c : MapCall β)
    {o : Option (Hash.Answer β)} {t : Hashmap β × ℕ}
    (hcall : tableCall (hm, lost) c = some (o, t)) :
    ∃ s, memCall (heap, mem) c = some (o, s) ∧ Ledger base s t := by
  have hread : ∀ key, (Sv.outside key).read heap = some key := fun _ => rfl
  cases c with
  | rehash =>
    obtain ⟨hm', hre, heq⟩ := Option.map_eq_some_iff.mp hcall
    cases heq
    obtain ⟨heap', mem', hmem, hshows, hkept⟩ := hashmapRehash_shows h.shows hre
    exact ⟨(heap', mem'), by simp [memCall, hmem], h.kept hshows hkept⟩
  | call c =>
    obtain ⟨⟨answer, hm'⟩, hc, heq⟩ := Option.map_eq_some_iff.mp hcall
    cases heq
    cases c with
    | set key element =>
      obtain ⟨⟨ok, hm'⟩, hset, heq⟩ := Option.map_eq_some_iff.mp hc
      cases heq
      obtain ⟨heap', mem', hmem, hshows, hkept⟩ :=
        hashmapSet_shows h.shows (hread key) (fun a _ hf => by cases hf) element hset
      exact ⟨(heap', mem'), by simp [memCall, hmem], h.kept hshows hkept⟩
    | get key =>
      obtain ⟨d, hget, heq⟩ := Option.map_eq_some_iff.mp hc
      cases heq
      have hmem := hashmapGet_shows h.shows (hread key)
      exact ⟨(heap, mem), by simp [memCall, hmem, hget], h⟩
    | delete key =>
      obtain ⟨⟨ok, hm'⟩, hdel, heq⟩ := Option.map_eq_some_iff.mp hc
      cases heq
      obtain ⟨mem', hmem, hshows, hsub, hcard⟩ :=
        hashmapDelete_shows h.shows (hread key) hdel
      exact ⟨(heap, mem'), by simp [memCall, hmem], h.deleted hshows hsub hcard⟩

/-- A table with slots, as many as `hashmap_rehash` will give the next. -/
structure Served (t : Hashmap β × ℕ) : Prop where
  probed : Hash.Probed t.1
  size : tableSize t.1.size loadOne = t.1.size

theorem tableCall_defined {t : Hashmap β × ℕ} (h : Served t) (c : MapCall β) :
    ∃ o t', tableCall t c = some (o, t') ∧ Served t' := by
  obtain ⟨hm, lost⟩ := t
  obtain ⟨hp, hsize⟩ := h
  cases c with
  | rehash =>
    obtain ⟨results, new, hrun, _, hre⟩ := Hash.reinsert_range hp hsize le_rfl
    refine ⟨none, (new, lost), by simp [tableCall, Hash.hashmapRehash, hrun], hre.probed, ?_⟩
    exact hre.size ▸ hsize
  | call c =>
    have hc : ∃ r, Hash.call hm c = some r := by
      cases c with
      | set key element =>
        obtain ⟨o, ho⟩ := Hash.probe_isSome hp.size_pos key
        simp [Hash.call, Hash.hashmapSet, ho]
      | get key =>
        obtain ⟨d, hd⟩ := Hash.hashmapGet_isSome hp key
        simp [Hash.call, hd]
      | delete key =>
        obtain ⟨o, ho⟩ := Hash.probe_isSome hp.size_pos key
        simp [Hash.call, Hash.hashmapDelete, ho]
    obtain ⟨⟨answer, hm'⟩, hc⟩ := hc
    obtain ⟨hp', hsize'⟩ := Hash.calls_probed hp ⟨c, answer, hc⟩
    refine ⟨some answer, (hm', lost + leaks answer), by simp [tableCall, hc], hp', ?_⟩
    exact hsize' ▸ hsize

end

/-- Whatever the hash function and the calls of a client, beside whatever other strings there
are: the table in memory answers as the table of the model, and never reads or frees a key that
is not allocated. Its keys and one copy for each successful deletion are all it has allocated,
destroying it frees the keys, and the other strings are as they were. -/
theorem hashmap_in_memory (base : Heap Bytes) {size load : ℕ} (hash : Bytes → UInt64)
    (calls : List (MapCall β)) (hs : 1 ≤ size) (hpos : 0 < load) (hl : load ≤ 2 ^ 53) :
    ∃ os hm lost heap mem heap',
      answers tableCall (Hash.hashmapCreate size load hash, 0) calls = some (os, hm, lost) ∧
      answers memCall (base, hashmapCreate size load hash) calls = some (os, heap, mem) ∧
      Shows heap mem hm ∧
      (allocated heap).card = (allocated base).card + liveBelow hm hm.size + lost ∧
      hashmapDestroy heap mem = some heap' ∧
      (allocated heap').card = (allocated base).card + lost ∧
      ∀ a ∈ allocated base, heap'.blocks a = base.blocks a := by
  obtain ⟨os, ⟨hm, lost⟩, habs, _⟩ := answers_defined
    (fun (t : Hashmap β × ℕ) c (ht : Served t) => tableCall_defined ht c) calls
    (s := (Hash.hashmapCreate size load hash, 0))
    ⟨Hash.probed_create hash hs hpos hl, Hash.tableSize_of_truncDouble _ _⟩
  obtain ⟨⟨heap, mem⟩, hmem, h⟩ := answers_of_simulation (R := Ledger base)
    (fun s t c o t' hr hc => memCall_ledger hr c hc) calls
    (ledger_create base size load hash) habs
  obtain ⟨heap', hdestroy, hkept⟩ := hashmapDestroy_shows h.shows
  have hall : keys mem ⊆ allocated heap := h.shows.keys_subset
  have hle := Finset.card_le_card hall
  have hcount : (allocated heap \ keys mem).card = (allocated base).card + lost := h.count
  rw [Finset.card_sdiff_of_subset hall] at hcount
  have hothers := congrArg Finset.card hkept.others
  rw [Finset.sdiff_empty, Finset.card_sdiff_of_subset hall] at hothers
  refine ⟨os, hm, lost, heap, mem, heap', habs, hmem, h.shows, ?_, hdestroy, by omega, ?_⟩
  · have hkeys : (keys mem).card = liveBelow hm hm.size := h.shows.card_keys
    omega
  · intro a ha
    obtain ⟨hsame, hown⟩ := h.others a ha
    exact (hkept.blocks_eq (mem_allocated_congr ha hsame) hown).trans hsame

/-- Beside one string: two keys that collide in two slots, one of them deleted, a third that
finds no slot, and then one. -/
theorem hashmap_in_memory_two_slots :
    ∃ os hm lost heap mem heap',
      answers tableCall (Hash.hashmapCreate 2 loadOne fun _ => 1, 0)
        [.call (.set [97] 1), .call (.set [98] 2), .call (.delete [97]), .call (.set [99] 3),
          .rehash, .call (.set [99] 3), .call (.get [98])] = some (os, hm, lost) ∧
      answers memCall (alloc empty [120], hashmapCreate 2 loadOne fun _ => 1)
        [.call (.set [97] 1), .call (.set [98] 2), .call (.delete [97]), .call (.set [99] 3),
          .rehash, .call (.set [99] 3), .call (.get [98])] = some (os, heap, mem) ∧
      Shows heap mem hm ∧
      (allocated heap).card = (allocated (alloc empty [120])).card + liveBelow hm hm.size + lost ∧
      hashmapDestroy heap mem = some heap' ∧
      (allocated heap').card = (allocated (alloc empty [120])).card + lost ∧
      ∀ a ∈ allocated (alloc empty [120]), heap'.blocks a = (alloc empty [120]).blocks a :=
  @hashmap_in_memory ℕ (alloc empty [120]) 2 loadOne (fun _ => 1) _ (by decide) (by decide)
    (by decide)

end Cerverus.HashmapMemory
