import Cerverus.Bytes
import Cerverus.ProbeSequence

/-!
# The hashmap

Open addressing with linear probing. Deleting a key leaves a tombstone, which no insertion
ever reuses. A function returns `none` where the C code computes `hash(key) % 0`.
-/
namespace Cerverus.Hash
open ProbeSequence

/-! ## The table size

`hashmap_create` computes `size / load` in doubles and truncates. A load is kept as its
mantissa, in units of `2 ^ -53`. -/

def roundHalfEven (num den : ℕ) : ℕ :=
  if den < 2 * (num % den) ∨ (2 * (num % den) = den ∧ num / den % 2 = 1) then num / den + 1
  else num / den

/-- The double nearest to `num / den`, truncated. -/
def truncDouble (num den : ℕ) : ℕ :=
  let e := Nat.log2 (num / den)
  if e ≤ 52 then roundHalfEven (num * 2 ^ (52 - e)) den / 2 ^ (52 - e)
  else roundHalfEven num (den * 2 ^ (e - 52)) * 2 ^ (e - 52)

/-- The double written `.67`. -/
def loadPoint67 : ℕ := 6034823500676465

def tableSize (size load : ℕ) : ℕ := truncDouble (truncDouble size 1 * 2 ^ 53) load

theorem le_roundHalfEven (num den : ℕ) : num / den ≤ roundHalfEven num den := by
  unfold roundHalfEven
  split_ifs <;> omega

theorem truncDouble_pos {num den : ℕ} (h : 1 ≤ num / den) : 1 ≤ truncDouble num den := by
  have hlog : 2 ^ Nat.log2 (num / den) ≤ num / den := Nat.log2_self_le (by omega)
  simp only [truncDouble]
  split_ifs with he
  · rw [Nat.le_div_iff_mul_le (by positivity), one_mul]
    refine le_trans ?_ (le_roundHalfEven _ _)
    have hden : 0 < den := Nat.pos_of_ne_zero fun h0 => by simp [h0] at h
    rw [Nat.le_div_iff_mul_le hden, mul_comm num]
    exact Nat.mul_le_mul_left _ ((Nat.div_pos_iff.mp h).2)
  · have hround : 2 ^ 52 ≤ roundHalfEven num (den * 2 ^ (Nat.log2 (num / den) - 52)) := by
      refine le_trans ?_ (le_roundHalfEven _ _)
      rw [← Nat.div_div_eq_div_mul, Nat.le_div_iff_mul_le (by positivity), ← pow_add]
      exact le_trans (Nat.pow_le_pow_right (by norm_num) (by omega)) hlog
    exact Nat.mul_pos (lt_of_lt_of_le (by norm_num) hround) (by positivity)

theorem tableSize_pos {size load : ℕ} (hs : 1 ≤ size) (hpos : 0 < load) (hl : load ≤ 2 ^ 53) :
    1 ≤ tableSize size load := by
  apply truncDouble_pos
  have h : 1 ≤ truncDouble size 1 := truncDouble_pos (by simpa using hs)
  rw [Nat.le_div_iff_mul_le hpos, one_mul]
  nlinarith

/-- Rounding to a double loses at most the 53rd bit. -/
theorem le_truncDouble {num den : ℕ} (hden : 0 < den) :
    num / den ≤ truncDouble num den + num / den / 2 ^ 52 := by
  simp only [truncDouble]
  split_ifs with he
  · have hround := le_roundHalfEven (num * 2 ^ (52 - Nat.log2 (num / den))) den
    have hmul : num / den * 2 ^ (52 - Nat.log2 (num / den)) ≤
        num * 2 ^ (52 - Nat.log2 (num / den)) / den := by
      rw [Nat.le_div_iff_mul_le hden, mul_right_comm]
      exact Nat.mul_le_mul_right _ (Nat.div_mul_le_self num den)
    refine le_trans ?_ (Nat.le_add_right _ _)
    exact (Nat.le_div_iff_mul_le (by positivity)).mpr (hmul.trans hround)
  · -- the step between two doubles is at most `num / den / 2 ^ 52`
    have hq : num / den ≠ 0 := fun h0 => by simp [h0] at he
    have hunit : 2 ^ (Nat.log2 (num / den) - 52) ≤ num / den / 2 ^ 52 := by
      rw [Nat.le_div_iff_mul_le (by positivity), ← pow_add,
        Nat.sub_add_cancel (by omega)]
      exact Nat.log2_self_le hq
    have hround := le_roundHalfEven num (den * 2 ^ (Nat.log2 (num / den) - 52))
    rw [← Nat.div_div_eq_div_mul] at hround
    have hmod := Nat.div_add_mod (num / den) (2 ^ (Nat.log2 (num / den) - 52))
    have hlt : num / den % 2 ^ (Nat.log2 (num / den) - 52) <
        2 ^ (Nat.log2 (num / den) - 52) := Nat.mod_lt _ (by positivity)
    have hscale := Nat.mul_le_mul_right (2 ^ (Nat.log2 (num / den) - 52)) hround
    rw [mul_comm] at hmod
    omega

theorem le_tableSize (n : ℕ) : n ≤ tableSize n loadPoint67 := by
  have hsize := @le_truncDouble n 1 (by omega)
  have hload := @le_truncDouble (truncDouble n 1 * 2 ^ 53) loadPoint67 (by decide)
  simp only [tableSize]
  generalize truncDouble (truncDouble n 1 * 2 ^ 53) loadPoint67 = t at *
  generalize truncDouble n 1 = d at *
  simp only [loadPoint67] at hload
  omega

/-! ## The table -/

/-- `exists` and `is_tombstone` are never both set; the other three combinations. -/
inductive HashmapEntry (β : Type)
  | empty
  | live (key : Bytes) (data : β)
  | tombstone
  deriving DecidableEq, Repr

structure Hashmap (β : Type) where
  size : ℕ
  hash : Bytes → UInt64
  entries : ℕ → HashmapEntry β

variable {β : Type}

def hashFnv1a (key : Bytes) : UInt64 :=
  key.foldl (fun hash c => (hash ^^^ c.toUInt64) * 1099511628211) 14695981039346656037

def hashmapCreate (size load : ℕ) (hash : Bytes → UInt64) : Hashmap β :=
  { size := tableSize size load, hash := hash, entries := fun _ => .empty }

/-- Where the probing loops stop: a slot never used, or the key itself. -/
def stopsAt (key : Bytes) : HashmapEntry β → Bool
  | .empty => true
  | .live k _ => k == key
  | .tombstone => false

/-- The slot where the loop over `(start + i) % size` stops, if it does; `none` outside when
`hash(key) % size` divides by zero. -/
def probe (hm : Hashmap β) (key : Bytes) : Option (Option ℕ) :=
  if hm.size = 0 then none
  else some ((probeSeq hm.size ((hm.hash key).toNat % hm.size)).find?
    fun j => stopsAt key (hm.entries j))

def setEntry (hm : Hashmap β) (j : ℕ) (e : HashmapEntry β) : Hashmap β :=
  { hm with entries := Function.update hm.entries j e }

def hashmapSet (hm : Hashmap β) (key : Bytes) (element : β) : Option (Bool × Hashmap β) :=
  (probe hm key).map fun
    | none => (false, hm)
    | some j => (true, setEntry hm j (.live key element))

def hashmapGet (hm : Hashmap β) (key : Bytes) : Option (Option β) :=
  (probe hm key).map fun
    | none => none
    | some j =>
      match hm.entries j with
      | .live _ data => some data
      | _ => none

def hashmapDelete (hm : Hashmap β) (key : Bytes) : Option (Bool × Hashmap β) :=
  (probe hm key).map fun
    | none => (false, hm)
    | some j =>
      match hm.entries j with
      | .live _ _ => (true, setEntry hm j .tombstone)
      | _ => (false, hm)

/-! ## What the table holds -/

def HashmapEntry.isEmpty : HashmapEntry β → Bool
  | .empty => true
  | _ => false

def Holds (hm : Hashmap β) (key : Bytes) (data : β) : Prop :=
  ∃ j < hm.size, hm.entries j = .live key data

/-- Every key in the table is where a search for it ends. -/
structure Probed (hm : Hashmap β) : Prop where
  size_pos : 0 < hm.size
  found : ∀ j < hm.size, ∀ key data, hm.entries j = .live key data →
    probe hm key = some (some j)

def emptySlots (hm : Hashmap β) : ℕ :=
  ((Finset.range hm.size).filter fun j => (hm.entries j).isEmpty).card

theorem probe_some {hm : Hashmap β} {key : Bytes} {j : ℕ}
    (h : probe hm key = some (some j)) : j < hm.size ∧ stopsAt key (hm.entries j) = true := by
  unfold probe at h
  split_ifs at h
  have hf := Option.some.inj h
  have hs := (List.find?_eq_some_iff_append.mp hf).1
  exact ⟨(mem_probeSeq _).mp (List.mem_of_find?_eq_some hf), hs⟩

theorem probe_none {hm : Hashmap β} {key : Bytes} (h : probe hm key = some none) {j : ℕ}
    (hj : j < hm.size) : stopsAt key (hm.entries j) = false := by
  unfold probe at h
  split_ifs at h
  have hf := List.find?_eq_none.mp (Option.some.inj h) j ((mem_probeSeq _).mpr hj)
  simpa using hf

theorem probe_isSome {hm : Hashmap β} (h : 0 < hm.size) (key : Bytes) :
    ∃ o, probe hm key = some o := by
  unfold probe
  rw [if_neg (by omega)]
  exact ⟨_, rfl⟩

/-- Changing entries so that fewer of them stop the search for `key` keeps its outcome, as
long as the slot found still stops it. -/
theorem probe_shrink {hm : Hashmap β} {entries : ℕ → HashmapEntry β} {key : Bytes} {j : ℕ}
    (h : probe hm key = some (some j)) (hj : stopsAt key (entries j) = true)
    (hle : ∀ x, stopsAt key (entries x) = true → stopsAt key (hm.entries x) = true) :
    probe { hm with entries := entries } key = some (some j) := by
  unfold probe at h ⊢
  split_ifs at h with h0
  rw [if_neg h0, find?_shrink (Option.some.inj h) hj hle]

theorem stopsAt_live {key k : Bytes} {d : β} : stopsAt key (.live k d) = true ↔ k = key := by
  simp [stopsAt]

theorem probed_create {size load : ℕ} (hash : Bytes → UInt64) (hs : 1 ≤ size)
    (hpos : 0 < load) (hl : load ≤ 2 ^ 53) : Probed (hashmapCreate size load hash : Hashmap β) :=
  ⟨tableSize_pos hs hpos hl, fun _ _ _ _ h => by cases h⟩

section
variable {hm hm' : Hashmap β} {key : Bytes}

theorem hashmapGet_eq_some (hp : Probed hm) {d : β} :
    hashmapGet hm key = some (some d) ↔ Holds hm key d := by
  constructor
  · intro h
    obtain ⟨o, ho, hg⟩ := Option.map_eq_some_iff.mp h
    cases o with
    | none => cases hg
    | some j =>
      obtain ⟨hj, hs⟩ := probe_some ho
      cases he : hm.entries j with
      | live k d' =>
        simp only [he, Option.some.injEq] at hg
        rw [he, stopsAt_live] at hs
        exact ⟨j, hj, by rw [he, hs, hg]⟩
      | _ => simp [he] at hg
  · intro hex
    obtain ⟨j, hj, he⟩ := hex
    simp [hashmapGet, hp.found j hj key d he, he]

theorem hashmapGet_isSome (hp : Probed hm) (key : Bytes) : ∃ o, hashmapGet hm key = some o := by
  obtain ⟨o, ho⟩ := probe_isSome hp.size_pos key
  simp [hashmapGet, ho]

theorem hashmapGet_eq_none (hp : Probed hm) :
    hashmapGet hm key = some none ↔ ∀ d, ¬ Holds hm key d := by
  obtain ⟨o, ho⟩ := hashmapGet_isSome hp key
  cases o with
  | none =>
    refine ⟨fun _ d hd => ?_, fun _ => ho⟩
    rw [(hashmapGet_eq_some hp).mpr hd] at ho
    cases ho
  | some d =>
    refine ⟨fun h => ?_, fun h => absurd ((hashmapGet_eq_some hp).mp ho) (h d)⟩
    rw [h] at ho
    cases ho

/-- One slot rewritten, seen from every key: the others see it stop no more searches than
before, and its own key is still found there. -/
theorem probed_setEntry (hp : Probed hm) {j : ℕ} {e : HashmapEntry β}
    (hself : ∀ k d, e = .live k d → probe hm k = some (some j))
    (hother : ∀ k, stopsAt k e = true → stopsAt k (hm.entries j) = true) :
    Probed (setEntry hm j e) := by
  refine ⟨hp.size_pos, fun i hi k d he => ?_⟩
  have hle : ∀ x, stopsAt k (Function.update hm.entries j e x) = true →
      stopsAt k (hm.entries x) = true := by
    intro x hx
    by_cases hxj : x = j
    · subst x
      rw [Function.update_self] at hx
      exact hother k hx
    · rwa [Function.update_of_ne hxj] at hx
  have hstop : stopsAt k (Function.update hm.entries j e i) = true := by
    change Function.update hm.entries j e i = _ at he
    rw [he]
    exact stopsAt_live.mpr rfl
  by_cases hij : i = j
  · subst i
    change Function.update hm.entries j e j = _ at he
    rw [Function.update_self] at he
    exact probe_shrink (hself k d he) hstop hle
  · change Function.update hm.entries j e i = _ at he
    rw [Function.update_of_ne hij] at he
    exact probe_shrink (hp.found i hi k d he) hstop hle

theorem holds_setEntry {j : ℕ} (hj : j < hm.size) (e : HashmapEntry β) {k : Bytes} {d : β} :
    Holds (setEntry hm j e) k d ↔
      e = .live k d ∨ ∃ i < hm.size, i ≠ j ∧ hm.entries i = .live k d := by
  constructor
  · intro hex
    obtain ⟨i, hi, he⟩ := hex
    change Function.update hm.entries j e i = _ at he
    by_cases hij : i = j
    · subst i
      rw [Function.update_self] at he
      exact Or.inl he
    · rw [Function.update_of_ne hij] at he
      exact Or.inr ⟨i, hi, hij, he⟩
  · intro hor
    rcases hor with he | ⟨i, hi, hij, he⟩
    · exact ⟨j, hj, (Function.update_self _ _ _).trans he⟩
    · exact ⟨i, hi, (Function.update_of_ne hij _ _).trans he⟩

theorem emptySlots_setEntry {j : ℕ} (hj : j < hm.size) {e : HashmapEntry β}
    (he : e.isEmpty = false) :
    emptySlots (setEntry hm j e) + (if (hm.entries j).isEmpty then 1 else 0) = emptySlots hm := by
  have herase : (Finset.range hm.size).filter (fun i => (Function.update hm.entries j e i).isEmpty)
      = ((Finset.range hm.size).filter fun i => (hm.entries i).isEmpty).erase j := by
    ext i
    by_cases hij : i = j
    · subst i
      simp [he]
    · simp [hij]
  change (Finset.card (Finset.filter _ _)) + _ = _
  rw [show (setEntry hm j e).entries = Function.update hm.entries j e from rfl,
    show (setEntry hm j e).size = hm.size from rfl, herase]
  split_ifs with hempty
  · have hmem : j ∈ (Finset.range hm.size).filter fun i => (hm.entries i).isEmpty := by
      simp [hj, hempty]
    exact Finset.card_erase_add_one hmem
  · rw [Finset.erase_eq_of_notMem (by simp [hempty])]
    rfl

theorem probe_live (hp : Probed hm) {j : ℕ} (ho : probe hm key = some (some j)) :
    (∃ d, hm.entries j = .live key d) ∨
      (hm.entries j = .empty ∧ ∀ d, ¬ Holds hm key d) := by
  obtain ⟨_, hs⟩ := probe_some ho
  cases he : hm.entries j with
  | empty =>
    refine Or.inr ⟨rfl, ?_⟩
    intro d hex
    obtain ⟨i, hi, hi'⟩ := hex
    have hij := (hp.found i hi key d hi').symm.trans ho
    simp only [Option.some.injEq] at hij
    rw [hij, he] at hi'
    cases hi'
  | live k d =>
    rw [he, stopsAt_live] at hs
    exact Or.inl ⟨d, by rw [hs]⟩
  | tombstone =>
    rw [he] at hs
    cases hs

theorem holds_others (hp : Probed hm) {j : ℕ} (ho : probe hm key = some (some j)) {k : Bytes}
    {d : β} : (∃ i < hm.size, i ≠ j ∧ hm.entries i = .live k d) ↔ k ≠ key ∧ Holds hm k d := by
  constructor
  · intro hex
    obtain ⟨i, hi, hij, he⟩ := hex
    refine ⟨fun hk => hij ?_, i, hi, he⟩
    subst hk
    have h := (hp.found i hi k d he).symm.trans ho
    simpa using h
  · intro hex
    obtain ⟨hk, i, hi, he⟩ := hex
    refine ⟨i, hi, fun hij => hk ?_, he⟩
    subst hij
    rcases probe_live hp ho with ⟨d', he'⟩ | ⟨he', _⟩
    · rw [he] at he'
      cases he'
      rfl
    · rw [he] at he'
      cases he'

theorem not_holds_of_probe_none (ho : probe hm key = some none) (d : β) : ¬ Holds hm key d := by
  intro hex
  obtain ⟨j, hj, he⟩ := hex
  have hs := probe_none ho hj
  rw [he, stopsAt_live.mpr rfl] at hs
  cases hs

/-- An insertion either rewrites the key's slot, or uses up a slot never used before; it fails
only when there is none left. -/
theorem hashmapSet_spec (hp : Probed hm) (key : Bytes) (element : β) :
    (∃ hm', hashmapSet hm key element = some (true, hm') ∧ Probed hm' ∧ hm'.size = hm.size ∧
      (∀ k d, Holds hm' k d ↔ (k = key ∧ d = element) ∨ (k ≠ key ∧ Holds hm k d)) ∧
      ((∃ d, Holds hm key d) → emptySlots hm' = emptySlots hm) ∧
      ((∀ d, ¬ Holds hm key d) → emptySlots hm' + 1 = emptySlots hm)) ∨
    (hashmapSet hm key element = some (false, hm) ∧ (∀ d, ¬ Holds hm key d) ∧
      emptySlots hm = 0) := by
  obtain ⟨o, ho⟩ := probe_isSome hp.size_pos key
  cases o with
  | none =>
    refine Or.inr ⟨by simp [hashmapSet, ho], not_holds_of_probe_none ho, ?_⟩
    apply Finset.card_eq_zero.mpr
    apply Finset.filter_eq_empty_iff.mpr
    intro j hj hempty
    have hs := probe_none ho (Finset.mem_range.mp hj)
    cases he : hm.entries j with
    | empty => simp [he, stopsAt] at hs
    | live k d => simp [he, HashmapEntry.isEmpty] at hempty
    | tombstone => simp [he, HashmapEntry.isEmpty] at hempty
  | some j =>
    obtain ⟨hj, hs⟩ := probe_some ho
    have hempty := emptySlots_setEntry hj (e := .live key element) rfl
    refine Or.inl ⟨setEntry hm j (.live key element), by simp [hashmapSet, ho], ?_, rfl, ?_, ?_, ?_⟩
    · apply probed_setEntry hp
      · intro k d he
        cases he
        exact ho
      · intro k hk
        rw [stopsAt_live] at hk
        exact hk ▸ hs
    · intro k d
      rw [holds_setEntry hj, holds_others hp ho]
      simp [eq_comm]
    · intro hex
      obtain ⟨d, hd⟩ := hex
      rcases probe_live hp ho with ⟨d', he'⟩ | ⟨_, hno⟩
      · simpa [he', HashmapEntry.isEmpty] using hempty
      · exact absurd hd (hno d)
    · intro hno
      rcases probe_live hp ho with ⟨d', he'⟩ | ⟨he', _⟩
      · exact absurd ⟨j, hj, he'⟩ (hno d')
      · simpa [he', HashmapEntry.isEmpty] using hempty

theorem hashmapSet_isSome (hp : Probed hm) (key : Bytes) (element : β) :
    ∃ b hm', hashmapSet hm key element = some (b, hm') := by
  rcases hashmapSet_spec hp key element with ⟨hm', hset, _⟩ | ⟨hset, _⟩
  · exact ⟨true, hm', hset⟩
  · exact ⟨false, hm, hset⟩

theorem hashmapDelete_spec (hp : Probed hm) (key : Bytes) :
    ∃ b hm', hashmapDelete hm key = some (b, hm') ∧ Probed hm' ∧ hm'.size = hm.size ∧
      (∀ k d, Holds hm' k d ↔ k ≠ key ∧ Holds hm k d) ∧ emptySlots hm' = emptySlots hm := by
  have hskip : (∀ d, ¬ Holds hm key d) → ∀ k d, Holds hm k d ↔ k ≠ key ∧ Holds hm k d := by
    intro hno k d
    refine ⟨fun h => ⟨fun hk => hno d (hk ▸ h), h⟩, And.right⟩
  obtain ⟨o, ho⟩ := probe_isSome hp.size_pos key
  cases o with
  | none =>
    exact ⟨false, hm, by simp [hashmapDelete, ho], hp, rfl,
      hskip (not_holds_of_probe_none ho), rfl⟩
  | some j =>
    obtain ⟨hj, hs⟩ := probe_some ho
    rcases probe_live hp ho with ⟨d', he'⟩ | ⟨he', hno⟩
    · refine ⟨true, setEntry hm j .tombstone, by simp [hashmapDelete, ho, he'], ?_, rfl, ?_, ?_⟩
      · apply probed_setEntry hp
        · intro k d he
          cases he
        · intro k hk
          cases hk
      · intro k d
        rw [holds_setEntry hj, holds_others hp ho]
        simp
      · simpa [he', HashmapEntry.isEmpty] using emptySlots_setEntry hj (e := .tombstone) rfl
    · exact ⟨false, hm, by simp [hashmapDelete, ho, he'], hp, rfl, hskip hno, rfl⟩

end

end Cerverus.Hash
