import Cerverus.Hashmap
import Cerverus.Refinement

/-!
# The hashmap as a finite map

The calls of a client on a table, and the finite map they go through it to. Collisions and
tombstones do not show: they only decide when an insertion of a new key fails.
-/
namespace Cerverus.Hash
open Refinement

variable {β : Type}

def freshTable (size : ℕ) (hash : Bytes → UInt64) : Hashmap β := ⟨size, hash, fun _ => .empty⟩

theorem hashmapCreate_eq (size load : ℕ) (hash : Bytes → UInt64) :
    (hashmapCreate size load hash : Hashmap β) = freshTable (tableSize size load) hash := rfl

inductive Call (β : Type)
  | set (key : Bytes) (element : β)
  | get (key : Bytes)
  | delete (key : Bytes)

inductive Answer (β : Type)
  | stored (ok : Bool)
  | found (data : Option β)
  | deleted (ok : Bool)

def call (hm : Hashmap β) : Call β → Option (Answer β × Hashmap β)
  | .set key element => (hashmapSet hm key element).map fun r => (.stored r.1, r.2)
  | .get key => (hashmapGet hm key).map fun data => (.found data, hm)
  | .delete key => (hashmapDelete hm key).map fun r => (.deleted r.1, r.2)

abbrev FiniteMap (β : Type) := Finmap fun _ : Bytes => β

/-- A set that returns true updates its key, a delete removes it. -/
def next (m : FiniteMap β) : Call β → Answer β → FiniteMap β
  | .set key element, .stored true => m.insert key element
  | .delete key, .deleted true => m.erase key
  | _, _ => m

/-- A get returns the value in the map; a set that returns false leaves the table as it was, and
happens only for a new key when no slot is empty; a delete returns true for the keys present. -/
def Meets (hm : Hashmap β) (m : FiniteMap β) : Call β → Answer β → Hashmap β → Prop
  | .set key _, .stored ok, hm' =>
    ok = false → hm' = hm ∧ key ∉ m ∧ ∀ j < hm.size, hm.entries j ≠ .empty
  | .get key, .found data, hm' => data = m.lookup key ∧ hm' = hm
  | .delete key, .deleted ok, hm' => (ok = true ↔ key ∈ m) ∧ (ok = false → hm' = hm)
  | _, _, _ => False

/-- No key is live in two slots. -/
def LiveOnce (hm : Hashmap β) : Prop :=
  ∀ i < hm.size, ∀ j < hm.size, ∀ key d d',
    hm.entries i = .live key d → hm.entries j = .live key d' → i = j

structure Represents (hm : Hashmap β) (m : FiniteMap β) : Prop where
  probed : Probed hm
  lookup : ∀ key d, m.lookup key = some d ↔ Holds hm key d

section
variable {hm : Hashmap β} {m : FiniteMap β} {key : Bytes}

theorem liveOnce_of_probed (hp : Probed hm) : LiveOnce hm := by
  intro i hi j hj key d d' he he'
  have hij := (hp.found i hi key d he).symm.trans (hp.found j hj key d' he')
  simpa using hij

theorem emptySlots_eq_zero : emptySlots hm = 0 ↔ ∀ j < hm.size, hm.entries j ≠ .empty := by
  rw [emptySlots, Finset.card_eq_zero, Finset.filter_eq_empty_iff]
  constructor
  · intro h j hj he
    exact h (Finset.mem_range.mpr hj) (by rw [he]; rfl)
  · intro h j hj hempty
    have he := h j (Finset.mem_range.mp hj)
    cases hj : hm.entries j with
    | empty => exact he hj
    | live k d => simp [hj, HashmapEntry.isEmpty] at hempty
    | tombstone => simp [hj, HashmapEntry.isEmpty] at hempty

theorem represents_fresh {size : ℕ} (hash : Bytes → UInt64) (h : 1 ≤ size) :
    Represents (freshTable size hash : Hashmap β) ∅ := by
  refine ⟨⟨h, fun j _ key d he => by cases he⟩, fun key d => ?_⟩
  constructor
  · intro hl
    simp at hl
  · intro hd
    obtain ⟨j, _, he⟩ := hd
    cases he

theorem notMem_iff (h : Represents hm m) : key ∉ m ↔ ∀ d, ¬ Holds hm key d := by
  rw [Finmap.mem_iff, not_exists]
  exact forall_congr' fun d => not_congr (h.lookup key d)

theorem represents_insert (h : Represents hm m) {hm' : Hashmap β} {element : β}
    (hp : Probed hm')
    (hh : ∀ k d, Holds hm' k d ↔ (k = key ∧ d = element) ∨ (k ≠ key ∧ Holds hm k d)) :
    Represents hm' (m.insert key element) := by
  refine ⟨hp, fun k d => ?_⟩
  rw [hh]
  by_cases hk : k = key
  · subst hk
    simp [Finmap.lookup_insert, eq_comm]
  · rw [Finmap.lookup_insert_of_ne _ hk, h.lookup]
    simp [hk]

theorem represents_erase (h : Represents hm m) {hm' : Hashmap β} (hp : Probed hm')
    (hh : ∀ k d, Holds hm' k d ↔ k ≠ key ∧ Holds hm k d) : Represents hm' (m.erase key) := by
  refine ⟨hp, fun k d => ?_⟩
  rw [hh]
  by_cases hk : k = key
  · subst hk
    simp [Finmap.lookup_erase]
  · rw [Finmap.lookup_erase_ne hk, h.lookup]
    simp [hk]

theorem hashmapDelete_answer (hp : Probed hm) {ok : Bool} {hm' : Hashmap β}
    (h : hashmapDelete hm key = some (ok, hm')) :
    (ok = true ↔ ∃ d, Holds hm key d) ∧ (ok = false → hm' = hm) := by
  obtain ⟨o, ho, hr⟩ := Option.map_eq_some_iff.mp h
  cases o with
  | none =>
    cases hr
    refine ⟨⟨fun hf => (by cases hf), fun hd => ?_⟩, fun _ => rfl⟩
    obtain ⟨d, hd⟩ := hd
    exact absurd hd (not_holds_of_probe_none ho d)
  | some j =>
    rcases probe_live hp ho with ⟨d, he⟩ | ⟨he, hno⟩
    · simp only [he] at hr
      cases hr
      exact ⟨⟨fun _ => ⟨d, j, (probe_some ho).1, he⟩, fun _ => rfl⟩, fun hf => (by cases hf)⟩
    · simp only [he] at hr
      cases hr
      refine ⟨⟨fun hf => (by cases hf), fun hd => ?_⟩, fun _ => rfl⟩
      obtain ⟨d, hd⟩ := hd
      exact absurd hd (hno d)

theorem call_set (h : Represents hm m) (key : Bytes) (element : β) :
    ∃ o hm', call hm (.set key element) = some (o, hm') ∧
      Meets hm m (.set key element) o hm' ∧ Represents hm' (next m (.set key element) o) := by
  rcases hashmapSet_spec h.probed key element with ⟨hm', hset, hp, _, hh, _⟩ | ⟨hset, hno, hfull⟩
  · refine ⟨.stored true, hm', by simp [call, hset], fun hf => (by cases hf), ?_⟩
    exact represents_insert h hp hh
  · refine ⟨.stored false, hm, by simp [call, hset], fun _ => ⟨rfl, ?_, ?_⟩, h⟩
    · exact (notMem_iff h).mpr hno
    · exact emptySlots_eq_zero.mp hfull

theorem call_get (h : Represents hm m) (key : Bytes) :
    ∃ o hm', call hm (.get key) = some (o, hm') ∧
      Meets hm m (.get key) o hm' ∧ Represents hm' (next m (.get key) o) := by
  obtain ⟨data, hget⟩ := hashmapGet_isSome h.probed key
  refine ⟨.found data, hm, by simp [call, hget], ⟨?_, rfl⟩, h⟩
  cases data with
  | some d => exact ((h.lookup key d).mpr ((hashmapGet_eq_some h.probed).mp hget)).symm
  | none =>
    have hmem := (notMem_iff h).mpr ((hashmapGet_eq_none h.probed).mp hget)
    exact (Finmap.lookup_eq_none.mpr hmem).symm

theorem call_delete (h : Represents hm m) (key : Bytes) :
    ∃ o hm', call hm (.delete key) = some (o, hm') ∧
      Meets hm m (.delete key) o hm' ∧ Represents hm' (next m (.delete key) o) := by
  obtain ⟨ok, hm', hdel, hp, _, hh, _⟩ := hashmapDelete_spec h.probed key
  obtain ⟨hok, hsame⟩ := hashmapDelete_answer h.probed hdel
  have hmem : (∃ d, Holds hm key d) ↔ key ∈ m := by
    rw [Finmap.mem_iff]
    exact exists_congr fun d => (h.lookup key d).symm
  refine ⟨.deleted ok, hm', by simp [call, hdel], ⟨hok.trans hmem, hsame⟩, ?_⟩
  cases ok with
  | true => exact represents_erase h hp hh
  | false => exact hsame rfl ▸ h

end

/-- From a fresh table, whatever the hash function, every sequence of calls is carried out as a
finite map demands, and no key is ever live twice. -/
theorem hashmap_refines_finmap (size : ℕ) (hash : Bytes → UInt64) (calls : List (Call β))
    (h : 1 ≤ size) :
    Follows call next Meets LiveOnce (freshTable size hash : Hashmap β) ∅ calls := by
  refine follows_of_simulation (R := Represents) ?_ ?_ calls (represents_fresh hash h)
  · intro hm m hr
    exact liveOnce_of_probed hr.probed
  · intro hm m c hr
    cases c with
    | set key element => exact call_set hr key element
    | get key => exact call_get hr key
    | delete key => exact call_delete hr key

/-- Two keys that collide in a table of two slots, and a third that finds no slot once one of
them is deleted. -/
theorem hashmap_refines_two_slots : Follows call next Meets LiveOnce
    (freshTable 2 fun _ => 1 : Hashmap ℕ) ∅
    [.set [97] 1, .set [98] 2, .get [98], .delete [97], .set [99] 3, .get [98]] :=
  hashmap_refines_finmap 2 (fun _ => 1) _ (by decide)

end Cerverus.Hash
