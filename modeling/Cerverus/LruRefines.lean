import Cerverus.LruOrder
import Cerverus.Refinement

/-!
# The cache as a list of recent labels

What a client of the cache sees: which item a look-up returns and which an addition evicts. The
pointers, the index and its tombstones do not show, as long as the client keeps to calls that
the index has slots for and that do not move the last node.
-/
namespace Cerverus.Lru
open Dll Hash Refinement

variable {β : Type}

/-- The labels and items, most recently used first, and the number of additions so far. -/
structure Recency (β : Type) where
  entries : List (Bytes × β)
  adds : ℕ
  deriving DecidableEq

/-- A look-up answers with the item it finds, an addition with the one it evicts. -/
def Op.call (cache : LruCache β) : Op β → Option (Option β × LruCache β)
  | .add label item => (lruCacheAdd cache label item).map fun r => (r.evicted, r.cache)
  | .get label => (lruCacheGet cache label).map fun r => (r.1.map Prod.snd, r.2)

def Recency.next (c : ℕ) (a : Recency β) : Op β → Recency β
  | .add label item => ⟨keepRecent c ((label, item) :: a.entries), a.adds + 1⟩
  | .get label => ⟨touch label a.entries, a.adds⟩

/-- The item of the label, or the item that has gone longest without use. -/
def Recency.answer (c : ℕ) (a : Recency β) : Op β → Option β
  | .add label item => (leastRecent c ((label, item) :: a.entries)).map Prod.snd
  | .get label => a.entries.lookup label

/-- A label is added only while it is absent and a slot of the index has never been used; a
look-up is not for the last of several labels. -/
def Recency.Fits (c : ℕ) (a : Recency β) : Op β → Prop
  | .add label _ => label ∉ a.entries.map Prod.fst ∧ a.adds < tableSize c loadPoint67
  | .get label => ∀ p ∈ a.entries.getLast?, p.1 = label → a.entries.length = 1

instance decidableFits (c : ℕ) (a : Recency β) : ∀ op, Decidable (Recency.Fits c a op)
  | .add _ _ => inferInstanceAs (Decidable (_ ∧ _))
  | .get _ => inferInstanceAs (Decidable (∀ p ∈ a.entries.getLast?, _ → _))

/-- The calls of a sequence fit, each after those before it. -/
def Recency.AllFit (c : ℕ) : Recency β → List (Op β) → Prop
  | _, [] => True
  | a, op :: ops => Recency.Fits c a op ∧ Recency.AllFit c (a.next c op) ops

instance decidableAllFit (c : ℕ) : ∀ (a : Recency β) (ops : List (Op β)),
    Decidable (Recency.AllFit c a ops)
  | _, [] => .isTrue trivial
  | a, op :: ops =>
    have := decidableAllFit c (a.next c op) ops
    inferInstanceAs (Decidable (_ ∧ _))

def entryOf (p : ℕ × DllEntry β) : Bytes × β := (p.2.hmapKey, p.2.data)

/-- The cache holds the entries, and its index knows their labels and no others. -/
structure Reflects (c : ℕ) (cache : LruCache β) (a : Recency β)
    (nodes : List (ℕ × DllEntry β)) : Prop where
  held : Held cache nodes
  entries : nodes.map entryOf = a.entries
  nodup : (a.entries.map Prod.fst).Nodup
  size : cache.size = c
  length : a.entries.length ≤ c
  known : ∀ p ∈ nodes, ∃ x, Holds cache.hmap p.2.hmapKey x
  slots : cache.hmap.size = tableSize c loadPoint67
  unused : emptySlots cache.hmap + a.adds = tableSize c loadPoint67

section
variable {c : ℕ} {cache : LruCache β} {a : Recency β} {held : List (ℕ × DllEntry β)}
  {label : Bytes} {item : β} {x : ℕ}

theorem reflects_create (hash : Bytes → UInt64) (hc : 1 ≤ c) :
    Reflects c (lruCacheCreateWith hash c : LruCache β) ⟨[], 0⟩ [] := by
  refine ⟨held_create hash hc, rfl, List.nodup_nil, rfl, Nat.zero_le _, by simp, rfl, ?_⟩
  simp [emptySlots, lruCacheCreateWith, hashmapCreate, HashmapEntry.isEmpty]

theorem lookup_of_split {as bs : List (Bytes × β)} (hno : label ∉ as.map Prod.fst) :
    (as ++ (label, item) :: bs).lookup label = some item := by
  induction as with
  | nil => exact List.lookup_cons_self
  | cons p as ih =>
    rw [List.map_cons, List.mem_cons, not_or] at hno
    rw [List.cons_append, List.lookup_cons, beq_false_of_ne hno.1]
    exact ih hno.2

theorem lookup_absent {entries : List (Bytes × β)} (hno : label ∉ entries.map Prod.fst) :
    entries.lookup label = none := by
  rw [List.lookup_eq_none_iff]
  intro p hp
  exact bne_iff_ne.mpr fun he => hno (List.mem_map.mpr ⟨p, hp, he.symm⟩)

theorem touch_absent {entries : List (Bytes × β)} (hno : label ∉ entries.map Prod.fst) :
    touch label entries = entries := by
  have hne : ∀ p ∈ entries, p.1 ≠ label := fun p hp he => hno (List.mem_map.mpr ⟨p, hp, he⟩)
  rw [touch, List.filter_eq_nil_iff.mpr fun p hp => by simpa using hne p hp,
    List.filter_eq_self.mpr fun p hp => by simpa using hne p hp, List.nil_append]

theorem Reflects.length_eq (h : Reflects c cache a held) : cache.dll.length = a.entries.length := by
  rw [h.held.length_eq, ← List.length_map entryOf, h.entries]

theorem Reflects.mem_labels (h : Reflects c cache a held) :
    label ∈ a.entries.map Prod.fst ↔ ∃ x, Holds cache.hmap label x := by
  rw [← h.entries, List.map_map, List.mem_map]
  constructor
  · rintro ⟨p, hp, rfl⟩
    exact h.known p hp
  · rintro ⟨x, hx⟩
    obtain ⟨e, he, hk⟩ := h.held.index label x hx
    exact ⟨(x, e), he, hk⟩

theorem reflects_get (h : Reflects c cache a held) (hfits : Recency.Fits c a (.get label)) :
    ∃ found cache', lruCacheGet cache label = some (found, cache') ∧
      found.map Prod.snd = a.entries.lookup label ∧
      ∃ held', Reflects c cache' (a.next c (.get label)) held' := by
  by_cases hmem : label ∈ a.entries.map Prod.fst
  · obtain ⟨x, hx⟩ := h.mem_labels.mp hmem
    obtain ⟨as, e, bs, rfl, rfl⟩ := h.held.split hx
    have hsplit : a.entries = as.map entryOf ++ (e.hmapKey, e.data) :: bs.map entryOf := by
      rw [← h.entries, List.map_append, List.map_cons]
      rfl
    have hnodup := h.nodup
    rw [hsplit] at hnodup
    have hlast : as = [] ∨ bs ≠ [] := by
      by_contra! hno
      obtain ⟨has, rfl⟩ := hno
      have hone : a.entries.length = 1 := hfits (e.hmapKey, e.data) (by rw [hsplit]; simp) rfl
      rw [hsplit, List.map_nil, List.length_append, List.length_map, List.length_singleton] at hone
      exact has (List.length_eq_zero_iff.mp (by omega))
    obtain ⟨dll, hget, hheld⟩ := lruCacheGet_found h.held hx hlast
    have hbefore : e.hmapKey ∉ (as.map entryOf).map Prod.fst := by
      rw [List.map_append, List.map_cons, List.nodup_middle, List.nodup_cons] at hnodup
      exact fun hin => hnodup.1 (List.mem_append_left _ hin)
    have hnext : a.next c (.get e.hmapKey) =
        ⟨(e.hmapKey, e.data) :: (as.map entryOf ++ bs.map entryOf), a.adds⟩ := by
      rw [Recency.next, hsplit, touch_split hnodup]
    have hperm : ((e.hmapKey, e.data) :: (as.map entryOf ++ bs.map entryOf)).Perm a.entries := by
      rw [hsplit]
      exact List.perm_middle.symm
    refine ⟨_, _, hget, ?_, (x, e) :: (as ++ bs), ?_⟩
    · rw [hsplit, lookup_of_split hbefore]
      rfl
    · rw [hnext]
      refine ⟨hheld, ?_, (hperm.map Prod.fst).nodup_iff.mpr h.nodup, h.size,
        hperm.length_eq.trans_le h.length, fun p hp => h.known p ?_, h.slots, h.unused⟩
      · rw [List.map_cons, List.map_append]
        rfl
      · exact List.perm_middle.symm.mem_iff.mp hp
  · have hno : ∀ x, ¬ Holds cache.hmap label x := fun x hx => hmem (h.mem_labels.mpr ⟨x, hx⟩)
    refine ⟨none, cache, lruCacheGet_absent h.held hno, (lookup_absent hmem).symm, held, ?_⟩
    have hsame : a.next c (.get label) = a := by rw [Recency.next, touch_absent hmem]
    rw [hsame]
    exact h

/-- The new label takes an unused slot of the index, whatever the eviction has left of it. -/
theorem reflects_add_of_index {r : AddResult β} {hmap₁ : Hashmap ℕ} {key : Option Bytes}
    (h : Reflects c cache a held) (hfits : Recency.Fits c a (.add label item))
    {kept : List (ℕ × DllEntry β)} (hkept : kept.Sublist held)
    (hgone : ∀ p ∈ kept, key ≠ some p.2.hmapKey)
    (hentries : (a.next c (.add label item)).entries = (label, item) :: kept.map entryOf)
    (hlength : kept.length + 1 ≤ c) (hsize : r.cache.size = cache.size)
    (hheld : Held r.cache ((r.newNode, ⟨label, item⟩) :: kept))
    (hindex : IndexAfter cache.hmap key hmap₁)
    (hset : hashmapSet hmap₁ label r.newNode = some (r.indexed, r.cache.hmap)) :
    Reflects c r.cache (a.next c (.add label item)) ((r.newNode, ⟨label, item⟩) :: kept) := by
  obtain ⟨hfresh, hslot⟩ := hfits
  obtain ⟨hp, hslots, hempty, hholds⟩ := hindex
  have hunused := h.unused
  have hnew : ∀ x, ¬ Holds hmap₁ label x := fun x hx =>
    hfresh (h.mem_labels.mpr ⟨x, ((hholds label x).mp hx).2⟩)
  have hkeys : (label :: (kept.map entryOf).map Prod.fst).Nodup := by
    have hsub : ((kept.map entryOf).map Prod.fst).Sublist (a.entries.map Prod.fst) := by
      rw [← h.entries]
      exact (hkept.map entryOf).map Prod.fst
    exact List.nodup_cons.mpr ⟨fun hin => hfresh (hsub.subset hin), h.nodup.sublist hsub⟩
  have hadds : (a.next c (.add label item)).adds = a.adds + 1 := rfl
  rcases hashmapSet_spec hp label r.newNode with
    ⟨hmap₂, hset', -, hslots₂, hholds₂, -, hless⟩ | ⟨-, -, hzero⟩
  · rw [hset'] at hset
    simp only [Option.some.injEq, Prod.mk.injEq] at hset
    obtain ⟨-, rfl⟩ := hset
    have hless := hless hnew
    refine ⟨hheld, by rw [hentries]; rfl, by rw [hentries]; exact hkeys, hsize.trans h.size, ?_,
      fun p hmem => ?_, (hslots₂.trans hslots).trans h.slots, by rw [hadds]; omega⟩
    · rw [hentries, List.length_cons, List.length_map]
      exact hlength
    · rcases List.mem_cons.mp hmem with rfl | hmem
      · exact ⟨r.newNode, (hholds₂ _ _).mpr (Or.inl ⟨rfl, rfl⟩)⟩
      · obtain ⟨x, hx⟩ := h.known p (hkept.subset hmem)
        have hne : p.2.hmapKey ≠ label := fun he => hfresh (h.mem_labels.mpr ⟨x, he ▸ hx⟩)
        exact ⟨x, (hholds₂ _ _).mpr (Or.inr ⟨hne, (hholds _ _).mpr ⟨hgone p hmem, hx⟩⟩)⟩
  · omega

theorem reflects_add (hc : 1 ≤ c) (h : Reflects c cache a held)
    (hfits : Recency.Fits c a (.add label item)) :
    ∃ r, lruCacheAdd cache label item = some r ∧
      r.evicted = a.answer c (.add label item) ∧
      ∃ held', Reflects c r.cache (a.next c (.add label item)) held' := by
  have hlength : held.length = a.entries.length := by rw [← h.entries, List.length_map]
  rcases h.length.lt_or_eq with hroom | hfull
  · obtain ⟨r, hadd, hnew, hev, hsize, hheld, hmap₁, hindex, hset⟩ :=
      lruCacheAdd_room h.held (by rw [h.size]; omega) label item
    rw [← hnew] at hheld hset
    refine ⟨r, hadd, ?_, _, reflects_add_of_index h hfits (List.Sublist.refl held)
      (fun p _ => by simp) ?_ (by omega) hsize hheld hindex hset⟩
    · rw [hev, Recency.answer, leastRecent_room _ hroom, Option.map_none]
    · rw [Recency.next, keepRecent_room _ hroom, h.entries]
  · have hne : held ≠ [] := List.ne_nil_of_length_pos (by omega)
    obtain ⟨ys, ⟨x, e⟩, hys⟩ := (List.eq_nil_or_concat held).resolve_left hne
    rw [List.concat_eq_append] at hys
    subst hys
    rw [List.length_append, List.length_singleton] at hlength
    obtain ⟨r, hadd, hnew, hev, hsize, hheld, hmap₁, hindex, hset⟩ :=
      lruCacheAdd_full h.held (by rw [h.size]; omega) label item
    rw [← hnew] at hheld hset
    have hsplit : a.entries = ys.map entryOf ++ [(e.hmapKey, e.data)] := by
      rw [← h.entries, List.map_append]
      rfl
    have hlen : (ys.map entryOf).length + 1 = c := by
      rw [List.length_map]
      omega
    have hnodup := h.nodup
    rw [hsplit, List.map_append, List.map_singleton] at hnodup
    refine ⟨r, hadd, ?_, _, reflects_add_of_index h hfits (List.sublist_append_left ys _)
      (fun p hp he => ?_) ?_ (by omega) hsize hheld hindex hset⟩
    · rw [hev, Recency.answer, hsplit, leastRecent_full _ _ hlen, Option.map_some]
    · have hin : e.hmapKey ∈ (ys.map entryOf).map Prod.fst :=
        List.mem_map.mpr ⟨entryOf p, List.mem_map_of_mem hp, (Option.some.inj he).symm⟩
      exact List.disjoint_of_nodup_append hnodup hin (List.mem_singleton_self _)
    · rw [Recency.next, hsplit, keepRecent_full _ _ hlen]

end

theorem permitted_of_allFit {c : ℕ} {a : Recency β} {ops : List (Op β)}
    (h : Recency.AllFit c a ops) :
    Permitted (fun a op _ => Recency.next c a op) (fun (_ : Op β) (_ : Option β) => True)
      (Recency.Fits c) a ops := by
  induction ops generalizing a with
  | nil => trivial
  | cons op ops ih => exact ⟨h.1, fun _ _ => ih h.2⟩

/-- For every capacity and hash function, and all calls that fit: each look-up returns the item
last added under its label unless that has been evicted, and each addition to a full cache
evicts the item that has gone longest without use. -/
theorem lru_follows_recency (hash : Bytes → UInt64) {c : ℕ} (hc : 1 ≤ c) (ops : List (Op β))
    (hfits : Recency.AllFit c ⟨[], 0⟩ ops) :
    Follows Op.call (fun a op _ => Recency.next c a op)
      (fun _ a op o _ => o = Recency.answer c a op) (fun cache => cache.dll.length ≤ c)
      (lruCacheCreateWith hash c) ⟨[], 0⟩ ops := by
  refine follows_of_permitted (R := fun cache a => ∃ held, Reflects c cache a held) ?_ ?_ ops
    ⟨[], reflects_create hash hc⟩ (permitted_of_allFit hfits)
  · rintro cache a ⟨held, h⟩
    rw [h.length_eq]
    exact h.length
  · rintro cache a op ⟨held, h⟩ hop
    cases op with
    | add label item =>
      obtain ⟨r, hadd, hev, hnext⟩ := reflects_add hc h hop
      exact ⟨r.evicted, r.cache, by rw [Op.call, hadd, Option.map_some], trivial, hev, hnext⟩
    | get label =>
      obtain ⟨found, cache', hget, hfound, hnext⟩ := reflects_get h hop
      exact ⟨_, cache', by rw [Op.call, hget, Option.map_some], trivial, hfound, hnext⟩

/-- A cache of three: the fourth addition evicts the first, and takes the last slot. -/
theorem lru_follows_recency_three :
    Follows Op.call (fun a op _ => Recency.next 3 a op)
      (fun _ a op o _ => o = Recency.answer 3 a op) (fun cache => cache.dll.length ≤ 3)
      (lruCacheCreateWith hashFnv1a 3) ⟨[], 0⟩
      [.add [97] 1, .add [98] 2, .add [99] 3, .get [98], .add [100] 4, .get [97], .get [100]] :=
  lru_follows_recency hashFnv1a (by decide)
    [.add [97] 1, .add [98] 2, .add [99] 3, .get [98], .add [100] (4 : ℕ), .get [97], .get [100]]
    (by decide)

end Cerverus.Lru
