import Mathlib

/-!
# Linear probing

The slots of a table of size `n` in the order they are looked at from `start`, and what a
search along them finds when the searched-for predicate changes.
-/
namespace Cerverus.ProbeSequence

/-- `(start + i) % n` for `i = 0, .., n - 1`. -/
def probeSeq (n start : ℕ) : List ℕ := (List.range n).map fun i => (start + i) % n

theorem mem_probeSeq {n : ℕ} (start : ℕ) {j : ℕ} : j ∈ probeSeq n start ↔ j < n := by
  simp only [probeSeq, List.mem_map, List.mem_range]
  constructor
  · intro hex
    obtain ⟨i, hi, rfl⟩ := hex
    exact Nat.mod_lt _ (by omega)
  · intro hj
    have hs : start % n < n := Nat.mod_lt _ (by omega)
    rcases le_total (start % n) j with hle | hle
    · refine ⟨j - start % n, by omega, ?_⟩
      rw [Nat.add_mod, Nat.mod_eq_of_lt (show j - start % n < n by omega),
        Nat.add_sub_cancel' hle, Nat.mod_eq_of_lt hj]
    · rcases hle.lt_or_eq with hlt | rfl
      · refine ⟨n - start % n + j, by omega, ?_⟩
        rw [Nat.add_mod, Nat.mod_eq_of_lt (show n - start % n + j < n by omega),
          show start % n + (n - start % n + j) = n + j by omega, Nat.add_mod_left,
          Nat.mod_eq_of_lt hj]
      · exact ⟨0, by omega, by simp⟩

/-- A search whose predicate shrinks, but not at the element found, finds the same one. -/
theorem find?_shrink {α : Type*} {p q : α → Bool} {l : List α} {a : α}
    (h : l.find? p = some a) (hq : q a = true) (hqp : ∀ x, q x = true → p x = true) :
    l.find? q = some a := by
  obtain ⟨hp, as, bs, rfl, has⟩ := List.find?_eq_some_iff_append.mp h
  refine List.find?_eq_some_iff_append.mpr ⟨hq, as, bs, rfl, fun x hx => ?_⟩
  have hpx := has x hx
  by_contra hqx
  simp only [Bool.not_eq_true', Bool.not_eq_false] at hqx hpx
  rw [hqp x hqx] at hpx
  cases hpx

end Cerverus.ProbeSequence
