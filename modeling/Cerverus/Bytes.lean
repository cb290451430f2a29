import Mathlib

/-!
# Byte strings

The strings of the server (`sds`, `sv_t`) as lists of bytes, with the library functions
applied to them. Positions are offsets from the start.
-/
namespace Cerverus

abbrev Bytes := List UInt8

/-- `sdssplitlen` with a separator of one byte: no token at all for an empty string. -/
def sdssplitlen (s : Bytes) (sep : UInt8) : List Bytes :=
  if s = [] then [] else s.splitOn sep

def memchr (s : Bytes) (c : UInt8) : Option ℕ := s.findIdx? (· == c)

def memmem (needle : Bytes) : Bytes → Option ℕ
  | [] => if needle = [] then some 0 else none
  | c :: s => if needle.isPrefixOf (c :: s) then some 0 else (memmem needle s).map (· + 1)

section
variable {needle s : Bytes} {i k : ℕ}

theorem memmem_eq_some :
    memmem needle s = some i ↔ needle <+: s.drop i ∧ i ≤ s.length ∧
      ∀ j < i, ¬ needle <+: s.drop j := by
  induction s generalizing i with
  | nil =>
    by_cases h : needle = []
    · simp only [memmem, h, if_true, Option.some.injEq, List.nil_prefix, List.length_nil, true_and,
        not_true, imp_false, not_lt, Nat.le_zero]
      constructor
      · intro heq
        subst heq
        exact ⟨rfl, Nat.zero_le⟩
      · intro hex
        obtain ⟨hi, _⟩ := hex
        exact hi.symm
    · simp [memmem, h]
  | cons c s ih =>
    rw [memmem]
    split_ifs with h
    · rw [List.isPrefixOf_iff_prefix] at h
      constructor
      · intro hi
        cases hi
        exact ⟨h, Nat.zero_le _, fun j hj => absurd hj (Nat.not_lt_zero j)⟩
      · intro hex
        obtain ⟨_, _, hmin⟩ := hex
        rcases Nat.eq_zero_or_pos i with rfl | hi
        · rfl
        · exact absurd h (hmin 0 hi)
    · rw [List.isPrefixOf_iff_prefix] at h
      constructor
      · intro hi
        obtain ⟨i', hi', rfl⟩ := Option.map_eq_some_iff.mp hi
        obtain ⟨hp, hle, hmin⟩ := ih.mp hi'
        refine ⟨hp, Nat.succ_le_succ hle, fun j hj => ?_⟩
        cases j with
        | zero => exact h
        | succ j => exact hmin j (by omega)
      · intro hex
        obtain ⟨hp, hle, hmin⟩ := hex
        cases i with
        | zero => exact absurd hp h
        | succ i =>
          have hi := ih.mpr ⟨hp, Nat.le_of_succ_le_succ hle, fun j hj => hmin (j + 1) (by omega)⟩
          simp [hi]

theorem memmem_isSome {j : ℕ} (h : needle <+: s.drop j) : ∃ i, memmem needle s = some i := by
  induction s generalizing j with
  | nil =>
    rw [List.drop_nil, List.prefix_nil] at h
    exact ⟨0, by simp [memmem, h]⟩
  | cons c s ih =>
    rw [memmem]
    split_ifs with hp
    · exact ⟨0, rfl⟩
    · cases j with
      | zero => exact absurd (List.isPrefixOf_iff_prefix.mpr h) hp
      | succ j =>
        obtain ⟨i, hi⟩ := ih h
        exact ⟨i + 1, by rw [hi]; rfl⟩

theorem memmem_le (h : memmem needle s = some i) : i + needle.length ≤ s.length := by
  obtain ⟨hp, hle, _⟩ := memmem_eq_some.mp h
  have := hp.length_le
  rw [List.length_drop] at this
  omega

theorem prefix_drop_take (hk : i + needle.length ≤ k) :
    needle <+: (s.take k).drop i ↔ needle <+: s.drop i := by
  rw [List.drop_take]
  constructor
  · intro h
    exact h.trans (List.take_prefix _ _)
  · intro h
    exact List.prefix_take_iff.mpr ⟨h, by omega⟩

theorem memmem_take (hn : needle ≠ []) :
    memmem needle (s.take k) = some i ↔ memmem needle s = some i ∧ i + needle.length ≤ k := by
  have hpos : 0 < needle.length := List.length_pos_iff.mpr hn
  constructor
  · intro h
    have hle := memmem_le h
    rw [List.length_take] at hle
    obtain ⟨hp, _, hmin⟩ := memmem_eq_some.mp h
    refine ⟨memmem_eq_some.mpr ⟨(prefix_drop_take (by omega)).mp hp, by omega, fun j hj hpj => ?_⟩,
      by omega⟩
    exact hmin j hj ((prefix_drop_take (by omega)).mpr hpj)
  · intro hex
    obtain ⟨h, hk⟩ := hex
    have hle := memmem_le h
    obtain ⟨hp, _, hmin⟩ := memmem_eq_some.mp h
    refine memmem_eq_some.mpr ⟨(prefix_drop_take hk).mpr hp, ?_, fun j hj hpj => ?_⟩
    · rw [List.length_take]
      omega
    · exact hmin j hj ((prefix_drop_take (by omega)).mp hpj)

/-- The first place where the needle's first byte occurs is where the needle occurs first. -/
theorem memmem_of_notMem {c : UInt8} (hc : c ∉ s) (needle rest : Bytes) :
    memmem (c :: needle) (s ++ (c :: needle ++ rest)) = some s.length := by
  induction s with
  | nil => simp [memmem]
  | cons d s ih =>
    rw [List.mem_cons, not_or] at hc
    have hno : (c :: needle).isPrefixOf (d :: (s ++ (c :: needle ++ rest))) = false := by
      simp [List.isPrefixOf, hc.1]
    rw [List.cons_append, memmem, hno, if_neg (by simp), ih hc.2]
    rfl

theorem memchr_eq_none {c : UInt8} (hc : c ∉ s) : memchr s c = none := by
  apply List.findIdx?_eq_none_iff.mpr
  intro x hx
  simp only [beq_eq_false_iff_ne, ne_eq]
  intro heq
  subst heq
  exact hc hx

theorem memchr_of_notMem {c : UInt8} {rest : Bytes} (hc : c ∉ s) :
    memchr (s ++ c :: rest) c = some s.length := by
  have hnone : s.findIdx? (· == c) = none := memchr_eq_none hc
  simp [memchr, List.findIdx?_append, hnone, List.findIdx?_cons]

end

end Cerverus
