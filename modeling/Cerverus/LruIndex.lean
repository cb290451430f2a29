import Cerverus.LruOrder

/-!
# The index of the cache

An addition of a label the index does not know uses up a slot for good: a deletion leaves a
tombstone, which no insertion reuses. `freshAdds` counts such additions from the labels
alone, and the index serves every addition exactly as long as there are slots for them.
-/
namespace Cerverus.Lru
open Dll Hash GuardedRun

variable {β : Type}

/-! ## The labels alone -/

/-- The labels of the entries held, most recent first, and those among them the index knows. -/
structure Labels where
  held : List Bytes
  known : List Bytes
  deriving DecidableEq

/-- The labels after the eviction of an addition, before the new label is set. -/
def Labels.push (c : ℕ) (l : Labels) (label : Bytes) : Labels :=
  let held := label :: l.held
  { held := keepRecent c held
    known := match leastRecent c held with
      | none => l.known
      | some k => l.known.filter (· ≠ k) }

def Labels.add (c : ℕ) (l : Labels) (label : Bytes) : Labels :=
  { held := (l.push c label).held, known := label :: (l.push c label).known }

/-- The additions whose label the index does not know when they set it. -/
def freshFrom (c : ℕ) (l : Labels) : List Bytes → ℕ
  | [] => 0
  | label :: labels =>
    (if label ∈ (l.push c label).known then 0 else 1) + freshFrom c (l.add c label) labels

def freshAdds (c : ℕ) (labels : List Bytes) : ℕ := freshFrom c ⟨[], []⟩ labels

theorem known_push_subset (c : ℕ) (l : Labels) (label : Bytes) :
    (l.push c label).known ⊆ l.known := by
  intro k hk
  simp only [Labels.push] at hk
  split at hk
  · exact hk
  · exact List.mem_of_mem_filter hk

theorem freshFrom_nodup (c : ℕ) {l : Labels} {labels : List Bytes} (hnd : labels.Nodup)
    (hdisj : ∀ k ∈ labels, k ∉ l.known) : freshFrom c l labels = labels.length := by
  induction labels generalizing l with
  | nil => rfl
  | cons label labels ih =>
    obtain ⟨hnew, hnd⟩ := List.nodup_cons.mp hnd
    have hno : label ∉ (l.push c label).known := fun hk =>
      hdisj label List.mem_cons_self (known_push_subset c l label hk)
    have htail : ∀ k ∈ labels, k ∉ (l.add c label).known := by
      intro k hk hknown
      rcases List.mem_cons.mp hknown with rfl | hknown
      · exact hnew hk
      · exact hdisj k (List.mem_cons_of_mem _ hk) (known_push_subset c l label hknown)
    rw [freshFrom, if_neg hno, ih hnd htail, List.length_cons, add_comm]

/-! ## Runs of additions -/

/-- The cache and the last addition: its label, its item, and the result of `hashmap_set`. -/
structure IndexState (β : Type) where
  cache : LruCache β
  last : Option (Bytes × β × Bool)

def indexStart (hash : Bytes → UInt64) (c : ℕ) : IndexState β := ⟨lruCacheCreateWith hash c, none⟩

def indexStep (s : IndexState β) (a : Bytes × β) : Option (IndexState β) :=
  (lruCacheAdd s.cache a.1 a.2).map fun r => ⟨r.cache, some (a.1, a.2, r.indexed)⟩

/-- The last addition was entered in the index, and a look-up of its label returns its
item. -/
def Indexed (s : IndexState β) : Prop :=
  ∀ label item ok, s.last = some (label, item, ok) →
    ok = true ∧ ∃ x cache', lruCacheGet s.cache label = some (some (x, item), cache')

/-- `N` slots, `used` of them no longer empty. -/
structure IndexInv (c N : ℕ) (l : Labels) (used : ℕ) (cache : LruCache β) : Prop where
  held : ∃ held, Held cache held ∧ held.map (fun p => p.2.hmapKey) = l.held
  size : cache.size = c
  size_pos : 1 ≤ c
  length : l.held.length ≤ c
  known : ∀ k, (∃ x, Holds cache.hmap k x) ↔ k ∈ l.known
  slots : cache.hmap.size = N
  empty : emptySlots cache.hmap + used = N

theorem indexInv_create (hash : Bytes → UInt64) {c : ℕ} (hc : 1 ≤ c) :
    IndexInv c (tableSize c loadPoint67) ⟨[], []⟩ 0 (lruCacheCreateWith hash c : LruCache β) := by
  refine ⟨⟨[], held_create hash hc, rfl⟩, rfl, hc, Nat.zero_le _, ?_, rfl, ?_⟩
  · intro k
    constructor
    · intro hex
      obtain ⟨x, j, _, he⟩ := hex
      cases he
    · simp
  · simp [emptySlots, lruCacheCreateWith, hashmapCreate, HashmapEntry.isEmpty]

section
variable {c N used : ℕ} {l : Labels} {cache : LruCache β}

theorem add_index (h : IndexInv c N l used cache) (label : Bytes) (item : β) :
    ∃ r held', lruCacheAdd cache label item = some r ∧ r.cache.size = c ∧
      Held r.cache ((r.newNode, ⟨label, item⟩) :: held') ∧
      label :: held'.map (fun p => p.2.hmapKey) = (l.push c label).held ∧
      (l.push c label).held.length ≤ c ∧
      ∃ hmap₁, Probed hmap₁ ∧ hmap₁.size = N ∧ emptySlots hmap₁ + used = N ∧
        (∀ k, (∃ x, Holds hmap₁ k x) ↔ k ∈ (l.push c label).known) ∧
        hashmapSet hmap₁ label r.newNode = some (r.indexed, r.cache.hmap) := by
  obtain ⟨held, hheld, hmap⟩ := h.held
  have hlen : held.length = l.held.length := by rw [← hmap, List.length_map]
  have hle := h.length
  rcases hle.lt_or_eq with hroom | hfull
  · obtain ⟨r, hr, hnew, _, hsize, hheld', hmap₁, ⟨hp, hslots, hempty, hidx⟩, hset⟩ :=
      lruCacheAdd_room hheld (by rw [h.size]; omega) label item
    simp only [Labels.push, keepRecent_room _ hroom, leastRecent_room _ hroom]
    refine ⟨r, held, hr, hsize.trans h.size, hnew ▸ hheld', by rw [hmap], hroom, hmap₁, hp,
      hslots.trans h.slots, hempty ▸ h.empty, fun k => ?_, hnew ▸ hset⟩
    simp only [hidx, ← h.known]
    simp
  · have hne : held ≠ [] := by
      intro heq
      subst heq
      have := h.size_pos
      simp only [List.length_nil] at hlen
      omega
    obtain ⟨ys, ⟨x, e⟩, hys⟩ := (List.eq_nil_or_concat held).resolve_left hne
    rw [List.concat_eq_append] at hys
    subst hys
    rw [List.length_append, List.length_singleton] at hlen
    obtain ⟨r, hr, hnew, _, hsize, hheld', hmap₁, ⟨hp, hslots, hempty, hidx⟩, hset⟩ :=
      lruCacheAdd_full hheld (by rw [h.size]; omega) label item
    rw [List.map_append, List.map_singleton] at hmap
    have hfull' : (ys.map fun p => p.2.hmapKey).length + 1 = c := by
      rw [List.length_map]
      omega
    simp only [Labels.push, ← hmap, keepRecent_full _ _ hfull', leastRecent_full _ _ hfull']
    refine ⟨r, ys, hr, hsize.trans h.size, hnew ▸ hheld', rfl, hfull'.le, hmap₁,
      hp, hslots.trans h.slots, hempty ▸ h.empty, fun k => ?_, hnew ▸ hset⟩
    simp only [hidx, List.mem_filter, ← h.known, ne_eq, Option.some.injEq, decide_not,
      Bool.not_eq_true', decide_eq_false_iff_not]
    constructor
    · intro hex
      obtain ⟨y, hk, hy⟩ := hex
      exact ⟨⟨y, hy⟩, fun he => hk he.symm⟩
    · intro hex
      obtain ⟨⟨y, hy⟩, hk⟩ := hex
      exact ⟨y, fun he => hk he.symm, hy⟩

/-- What an addition does to the index: a known label keeps the slots, a fresh one takes an
empty slot, and without one the addition is not entered. -/
theorem indexInv_add (h : IndexInv c N l used cache) (label : Bytes) (item : β) :
    ∃ r, lruCacheAdd cache label item = some r ∧
      ((r.indexed = true ∧
          (∃ x cache', lruCacheGet r.cache label = some (some (x, item), cache')) ∧
          ∃ fresh, fresh = (if label ∈ (l.push c label).known then 0 else 1) ∧
            IndexInv c N (l.add c label) (used + fresh) r.cache) ∨
        (r.indexed = false ∧ label ∉ (l.push c label).known ∧ used = N)) := by
  obtain ⟨r, held', hr, hsize, hheld, hlabels, hlen, hmap₁, hp, hslots, hempty, hknown, hset⟩ :=
    add_index h label item
  refine ⟨r, hr, ?_⟩
  rcases hashmapSet_spec hp label r.newNode with
    ⟨hmap₂, hset', hp₂, hslots₂, hholds, hsame, hless⟩ | ⟨hset', hno, hzero⟩
  · rw [hset'] at hset
    simp only [Option.some.injEq, Prod.mk.injEq] at hset
    obtain ⟨hok, rfl⟩ := hset
    have hnew : Holds r.cache.hmap label r.newNode := (hholds _ _).mpr (Or.inl ⟨rfl, rfl⟩)
    refine Or.inl ⟨hok.symm, ?_, _, rfl, ⟨_, hheld, hlabels⟩, hsize, h.size_pos, hlen, ?_,
      hslots₂.trans hslots, ?_⟩
    · rw [← List.nil_append (_ :: _)] at hheld
      obtain ⟨dll, hget, _⟩ := lruCacheGet_found hheld hnew (Or.inl rfl)
      exact ⟨_, _, hget⟩
    · intro k
      simp only [Labels.add, List.mem_cons, ← hknown, hholds]
      by_cases hk : k = label
      · simp [hk]
      · simp [hk]
    · split_ifs with hmem
      · rw [hsame ((hknown label).mpr hmem)]
        omega
      · have := hless fun d hd => hmem ((hknown label).mp ⟨d, hd⟩)
        omega
  · rw [hset'] at hset
    simp only [Option.some.injEq, Prod.mk.injEq] at hset
    refine Or.inr ⟨hset.1.symm, fun hmem => ?_, by omega⟩
    obtain ⟨x, hx⟩ := (hknown label).mpr hmem
    exact hno x hx

end

theorem indexed_iff_freshFrom {c N used : ℕ} {l : Labels} {s : IndexState β}
    (h : IndexInv c N l used s.cache) (hused : used ≤ N) (hs : Indexed s)
    (ops : List (Bytes × β)) :
    ((run indexStep s ops).isSome ∧ Along indexStep Indexed s ops) ↔
      used + freshFrom c l (ops.map Prod.fst) ≤ N := by
  induction ops generalizing used l s with
  | nil => simp [run, Along, freshFrom, hs, hused]
  | cons a ops ih =>
    obtain ⟨label, item⟩ := a
    obtain ⟨r, hr, hcases⟩ := indexInv_add h label item
    have hstep : indexStep s (label, item) = some ⟨r.cache, some (label, item, r.indexed)⟩ := by
      simp [indexStep, hr]
    rw [run_cons _ hstep, along_cons _ hstep, List.map_cons, freshFrom]
    rcases hcases with ⟨hok, hget, fresh, hfresh, hinv⟩ | ⟨hok, hnew, hfull⟩
    · have hs' : Indexed (⟨r.cache, some (label, item, r.indexed)⟩ : IndexState β) := by
        intro label' item' ok heq
        cases heq
        exact ⟨hok, hget⟩
      have hused' : used + fresh ≤ N := by
        have := hinv.empty
        omega
      rw [← hfresh, ← add_assoc, ← ih hinv hused' hs']
      simp [hs]
    · constructor
      · intro hex
        obtain ⟨_, _, halong⟩ := hex
        have hlast := (along_head halong label item r.indexed rfl).1
        rw [hok] at hlast
        cases hlast
      · intro hle
        rw [if_neg hnew] at hle
        omega

theorem indexed_start (hash : Bytes → UInt64) (c : ℕ) :
    Indexed (indexStart hash c : IndexState β) := by
  intro label item ok heq
  cases heq

/-- Every addition of a run is entered in the index and found again by the next look-up,
exactly when the run makes no more fresh additions than the index has slots. -/
theorem indexed_iff_freshAdds (hash : Bytes → UInt64) {c : ℕ} (hc : 1 ≤ c)
    (ops : List (Bytes × β)) :
    ((run indexStep (indexStart hash c) ops).isSome ∧
        Along indexStep Indexed (indexStart hash c) ops) ↔
      freshAdds c (ops.map Prod.fst) ≤ tableSize c loadPoint67 := by
  have h := indexed_iff_freshFrom (s := indexStart hash c) (indexInv_create hash hc)
    (Nat.zero_le _) (indexed_start hash c) ops
  rwa [zero_add] at h

theorem indexed_two_adds :
    (run indexStep (indexStart hashFnv1a 2) [([97], 1), ([98], 2)]).isSome ∧
      Along indexStep Indexed (indexStart hashFnv1a 2) [([97], 1), ([98], (2 : ℕ))] :=
  (indexed_iff_freshAdds hashFnv1a (by decide) _).mpr (by decide)

/-- In a cache of one, the only slot is a tombstone once the second label is set. -/
theorem second_label_not_indexed :
    (run indexStep (indexStart hashFnv1a 1) [([97], 1), ([98], (2 : ℕ))]).map IndexState.last =
        some (some ([98], 2, false)) ∧
      ¬ Along indexStep Indexed (indexStart hashFnv1a 1) [([97], 1), ([98], (2 : ℕ))] := by
  have hrun : (run indexStep (indexStart hashFnv1a 1) [([97], 1), ([98], (2 : ℕ))]).map
      IndexState.last = some (some ([98], 2, false)) := by decide +kernel
  refine ⟨hrun, fun halong => ?_⟩
  obtain ⟨s, hs, hlast⟩ := Option.map_eq_some_iff.mp hrun
  exact Bool.noConfusion (along_run halong hs [98] 2 false hlast).1

/-- With labels all distinct, every addition is fresh. -/
theorem indexed_iff_length (hash : Bytes → UInt64) {c : ℕ} (hc : 1 ≤ c) {ops : List (Bytes × β)}
    (hnd : (ops.map Prod.fst).Nodup) :
    ((run indexStep (indexStart hash c) ops).isSome ∧
        Along indexStep Indexed (indexStart hash c) ops) ↔
      ops.length ≤ tableSize c loadPoint67 := by
  have h := indexed_iff_freshFrom (s := indexStart hash c) (indexInv_create hash hc)
    (Nat.zero_le _) (indexed_start hash c) ops
  rwa [zero_add, freshFrom_nodup c hnd (by simp), List.length_map] at h

end Cerverus.Lru
