import Cerverus.LruNodes
import Cerverus.LruOrder

/-!
# The cache in order

Which nodes are still part of the cache, and when a node is not cut off from it: as long as no
look-up finds the last of several nodes, the list and the index have the same entries, and an
addition gives up none but the one it evicts.
-/
namespace Cerverus.Lru
open LinkedHeap Dll Hash

variable {β : Type}

/-- The list leads to the node from its head, or the index from a label. -/
def OfCache (cache : LruCache β) (x : ℕ) : Prop :=
  Leads cache.dll.heap cache.dll.head x ∨ ∃ label, Holds cache.hmap label x

/-- The look-up does not find the last of several nodes. -/
def SparesLookup (cache : LruCache β) (label : Bytes) : Prop :=
  ∀ x ∈ cache.dll.tail, hashmapGet cache.hmap label = some (some x) → cache.dll.head = some x

instance decidableSparesLookup (cache : LruCache β) (label : Bytes) :
    Decidable (SparesLookup cache label) :=
  inferInstanceAs (Decidable (∀ x ∈ cache.dll.tail, _ → _))

def SparesTails (cache : LruCache β) : List Bytes → Prop
  | [] => True
  | label :: labels =>
    SparesLookup cache label ∧ ∀ r ∈ lruCacheGet cache label, SparesTails r.2 labels

instance decidableSparesTails : ∀ (cache : LruCache β) (labels : List Bytes),
    Decidable (SparesTails cache labels)
  | _, [] => .isTrue trivial
  | cache, label :: labels =>
    have : ∀ r : Option (ℕ × β) × LruCache β, Decidable (SparesTails r.2 labels) :=
      fun r => decidableSparesTails r.2 labels
    inferInstanceAs (Decidable (_ ∧ ∀ r ∈ lruCacheGet cache label, _))

/-- The cache holds the entries, most recently used first, and no more than its size. -/
structure InOrder (cache : LruCache β) (entries : List (ℕ × DllEntry β)) : Prop where
  held : Held cache entries
  size_pos : 1 ≤ cache.size
  length : entries.length ≤ cache.size

theorem kept_or_leastRecent {α : Type} {c : ℕ} {held : List α} {p : α} (hp : p ∈ held) :
    p ∈ keepRecent c held ∨ leastRecent c held = some p := by
  unfold keepRecent leastRecent
  split_ifs with hfull
  · have hne : held ≠ [] := List.ne_nil_of_mem hp
    rw [← List.dropLast_append_getLast hne, List.mem_append, List.mem_singleton] at hp
    rw [List.getLast?_eq_some_getLast hne, Option.some.injEq]
    exact hp.imp_right Eq.symm
  · exact Or.inl hp

theorem inOrder_create (hash : Bytes → UInt64) {size : ℕ} (hsize : 1 ≤ size) :
    InOrder (lruCacheCreateWith hash size : LruCache β) [] :=
  ⟨held_create hash hsize, hsize, Nat.zero_le _⟩

section
variable {cache : LruCache β} {held : List (ℕ × DllEntry β)} {label : Bytes}

theorem InOrder.orderInv (h : InOrder cache held) :
    OrderInv ⟨cache, held, held.map fun p => p.2.data, [], []⟩ :=
  ⟨h.held, h.size_pos, h.length, rfl, by rw [List.append_nil]⟩

theorem ofCache_iff (h : InOrder cache held) {x : ℕ} {e : DllEntry β} :
    (OfCache cache x ∧ entryAt cache x = some e) ↔ (x, e) ∈ held := by
  have hentry : ∀ {e' : DllEntry β}, (x, e') ∈ held → entryAt cache x = some e' :=
    fun hmem => h.held.entries _ hmem
  constructor
  · intro hand
    obtain ⟨hof, he⟩ := hand
    have hmem : ∃ e', (x, e') ∈ held := by
      rcases hof with hlist | ⟨label, hindex⟩
      · obtain ⟨p, hp, rfl⟩ := List.mem_map.mp ((leads_seg h.held.nodes.links).mp hlist)
        exact ⟨p.2, hp⟩
      · obtain ⟨e', he', _⟩ := h.held.index label x hindex
        exact ⟨e', he'⟩
    obtain ⟨e', he'⟩ := hmem
    rw [hentry he'] at he
    exact Option.some.inj he ▸ he'
  · intro hmem
    exact ⟨Or.inl ((leads_seg h.held.nodes.links).mpr (List.mem_map_of_mem hmem)), hentry hmem⟩

theorem inOrder_get (h : InOrder cache held) (hspares : SparesLookup cache label) :
    ∃ r held', lruCacheGet cache label = some r ∧ InOrder r.2 held' ∧ held'.Perm held ∧
      ∀ p ∈ r.1, ∃ e, (p.1, e) ∈ held ∧ e.data = p.2 := by
  obtain ⟨o, ho⟩ := hashmapGet_isSome h.held.probed label
  cases o with
  | none =>
    have hget := lruCacheGet_absent h.held ((hashmapGet_eq_none h.held.probed).mp ho)
    exact ⟨_, held, hget, h, List.Perm.refl _, by simp⟩
  | some x =>
    obtain ⟨as, e, bs, rfl, hlast⟩ := found_split h.orderInv ho
    obtain ⟨dll, hget, hheld⟩ := lruCacheGet_found h.held
      ((hashmapGet_eq_some h.held.probed).mp ho) (hlast.mp hspares)
    have hperm : ((x, e) :: (as ++ bs)).Perm (as ++ (x, e) :: bs) := List.perm_middle.symm
    refine ⟨_, _, hget, ⟨hheld, h.size_pos, hperm.length_eq ▸ h.length⟩, hperm, fun p hp => ?_⟩
    cases hp
    exact ⟨e, List.mem_append_right _ List.mem_cons_self, rfl⟩

/-- An addition evicts the least recently used entry, if any. -/
theorem inOrder_add (h : InOrder cache held) (label : Bytes) (item : β) :
    ∃ r, lruCacheAdd cache label item = some r ∧
      InOrder r.cache (keepRecent cache.size ((r.newNode, ⟨label, item⟩) :: held)) ∧
      r.evicted =
        (leastRecent cache.size ((r.newNode, ⟨label, item⟩) :: held)).map fun p => p.2.data := by
  obtain ⟨t, hstep, hinv⟩ := orderInv_add h.orderInv label item
  obtain ⟨r, hadd, rfl⟩ := Option.map_eq_some_iff.mp hstep
  refine ⟨r, hadd, ⟨hinv.held, hinv.size_pos, hinv.length⟩, ?_⟩
  have hev : r.evicted.toList = ((leastRecent cache.size
      ((r.newNode, ⟨label, item⟩) :: held)).map fun p => p.2.data).toList := hinv.evicted
  ext b
  rw [← Option.mem_toList, hev, Option.mem_toList]

end

end Cerverus.Lru
