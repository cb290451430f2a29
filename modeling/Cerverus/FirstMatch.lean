import Mathlib

/-!
# First-match tables

A table lists entries in the order they were made; an entry binds a path of keys to a
value, or to nothing. A search for a list of queries goes down one key at a time and always
takes the key entered first among those that match. Nothing here depends on what keys are.
-/
namespace Cerverus.FirstMatch

abbrev Table (τ κ : Type*) := List (List τ × Option κ)

section
variable {τ κ : Type*} {rs : Table τ κ} {r : List τ × Option κ}

/-- What the last entry of the empty path binds it to. -/
def valueHere (rs : Table τ κ) : Option κ :=
  rs.foldl (fun v r => if r.1 = [] then r.2 else v) none

theorem valueHere_snoc :
    valueHere (rs ++ [r]) = if r.1 = [] then r.2 else valueHere rs := by
  simp [valueHere]

theorem mem_of_valueHere {v : κ} (h : valueHere rs = some v) : ([], some v) ∈ rs := by
  induction rs using List.reverseRecOn with
  | nil => cases h
  | append_singleton rs r ih =>
    rw [valueHere_snoc] at h
    split_ifs at h with he
    · obtain ⟨q, w⟩ := r
      simp only at he h
      simp [he, h]
    · exact List.mem_append_left _ (ih h)

theorem valueHere_last {v : Option κ} {rs' : Table τ κ} (hlast : ∀ e ∈ rs', e.1 ≠ []) :
    valueHere (rs ++ ([], v) :: rs') = v := by
  induction rs' using List.reverseRecOn with
  | nil => simp [valueHere_snoc]
  | append_singleton rs' e ih =>
    rw [← List.cons_append, ← List.append_assoc, valueHere_snoc, if_neg (hlast e (by simp))]
    exact ih fun e' he' => hlast e' (List.mem_append_left _ he')

end

section
variable {τ κ σ : Type*} [DecidableEq τ]

def addKey (ts : List τ) : List τ → List τ
  | [] => ts
  | t :: _ => if t ∈ ts then ts else ts ++ [t]

/-- The first keys of the entries, each once, in the order they were first entered. -/
def nextKeys (rs : Table τ κ) : List τ := rs.foldl (fun ts r => addKey ts r.1) []

def strip (t : τ) (r : List τ × Option κ) : Option (List τ × Option κ) :=
  match r.1 with
  | [] => none
  | u :: p => if u = t then some (p, r.2) else none

def below (t : τ) (rs : Table τ κ) : Table τ κ := rs.filterMap (strip t)

def under : List τ → Table τ κ → Table τ κ
  | [], rs => rs
  | t :: p, rs => under p (below t rs)

/-- Each key of the path is the first entered of those that match the query in its place. -/
def FirstMatches (m : τ → σ → Bool) : Table τ κ → List τ → List σ → Prop
  | _, [], _ => True
  | _, _ :: _, [] => False
  | rs, t :: p, s :: ss => (nextKeys rs).find? (m · s) = some t ∧ FirstMatches m (below t rs) p ss

instance decidableFirstMatches (m : τ → σ → Bool) :
    ∀ (rs : Table τ κ) (p : List τ) (ss : List σ), Decidable (FirstMatches m rs p ss)
  | _, [], _ => .isTrue trivial
  | _, _ :: _, [] => .isFalse id
  | rs, t :: p, _ :: ss =>
    have := decidableFirstMatches m (below t rs) p ss
    inferInstanceAs (Decidable (_ ∧ _))

variable {rs : Table τ κ} {r : List τ × Option κ} {t : τ}

theorem nextKeys_snoc : nextKeys (rs ++ [r]) = addKey (nextKeys rs) r.1 := by
  simp [nextKeys]

theorem below_snoc : below t (rs ++ [r]) = below t rs ++ (strip t r).toList := by
  rw [below, List.filterMap_append, below]
  cases h : strip t r <;> simp [h]

theorem nextKeys_nodup (rs : Table τ κ) : (nextKeys rs).Nodup := by
  induction rs using List.reverseRecOn with
  | nil => exact List.nodup_nil
  | append_singleton rs r ih =>
    rw [nextKeys_snoc]
    cases r.1 with
    | nil => exact ih
    | cons t p =>
      rw [addKey]
      split_ifs with h
      · exact ih
      · rw [List.nodup_append]
        refine ⟨ih, List.nodup_singleton t, fun a ha b hb heq => ?_⟩
        subst heq
        exact h (List.mem_singleton.mp hb ▸ ha)

theorem mem_nextKeys : t ∈ nextKeys rs ↔ ∃ p v, (t :: p, v) ∈ rs := by
  induction rs using List.reverseRecOn with
  | nil => simp [nextKeys]
  | append_singleton rs r ih =>
    rw [nextKeys_snoc]
    obtain ⟨q, v⟩ := r
    cases q with
    | nil => simp [addKey, ih]
    | cons u q =>
      simp only [addKey]
      split_ifs with h
      · rw [ih]
        constructor
        · intro hex
          obtain ⟨p, w, hp⟩ := hex
          exact ⟨p, w, List.mem_append_left _ hp⟩
        · intro hex
          obtain ⟨p, w, hp⟩ := hex
          rcases List.mem_append.mp hp with hp | hp
          · exact ⟨p, w, hp⟩
          · simp only [List.mem_singleton, Prod.mk.injEq, List.cons.injEq] at hp
            obtain ⟨⟨rfl, _⟩, _⟩ := hp
            exact ih.mp h
      · rw [List.mem_append, ih, List.mem_singleton]
        constructor
        · intro hor
          rcases hor with ⟨p, w, hp⟩ | rfl
          · exact ⟨p, w, List.mem_append_left _ hp⟩
          · exact ⟨q, v, by simp⟩
        · intro hex
          obtain ⟨p, w, hp⟩ := hex
          rcases List.mem_append.mp hp with hp | hp
          · exact Or.inl ⟨p, w, hp⟩
          · simp only [List.mem_singleton, Prod.mk.injEq, List.cons.injEq] at hp
            exact Or.inr hp.1.1

theorem mem_below {p : List τ} {v : Option κ} : (p, v) ∈ below t rs ↔ (t :: p, v) ∈ rs := by
  simp only [below, List.mem_filterMap, strip]
  constructor
  · intro hex
    obtain ⟨⟨q, w⟩, hq, hs⟩ := hex
    cases q with
    | nil => cases hs
    | cons u q =>
      simp only [Option.ite_none_right_eq_some, Option.some.injEq, Prod.mk.injEq] at hs
      obtain ⟨rfl, rfl, rfl⟩ := hs
      exact hq
  · intro h
    exact ⟨_, h, by simp⟩

theorem mem_under {q p : List τ} {v : Option κ} : (p, v) ∈ under q rs ↔ (q ++ p, v) ∈ rs := by
  induction q generalizing rs with
  | nil => rfl
  | cons t q ih => rw [under, ih, mem_below, List.cons_append]

theorem below_eq_nil (h : t ∉ nextKeys rs) : below t rs = [] := by
  apply List.eq_nil_iff_forall_not_mem.mpr
  intro hex hp
  obtain ⟨p, v⟩ := hex
  exact h (mem_nextKeys.mpr ⟨p, v, mem_below.mp hp⟩)

theorem under_append {q : List τ} {rs' : Table τ κ} :
    under q (rs ++ rs') = under q rs ++ under q rs' := by
  induction q generalizing rs rs' with
  | nil => rfl
  | cons t q ih => rw [under, below, List.filterMap_append, ← below, ← below, ih, ← under, ← under]

theorem under_single (q : List τ) (v : Option κ) : under q [(q, v)] = [([], v)] := by
  induction q with
  | nil => rfl
  | cons t q ih => simpa [under, below, strip] using ih

/-- The entry made last for a path decides its value. -/
theorem valueHere_under_last {q : List τ} {v : Option κ} {rs' : Table τ κ}
    (hlast : ∀ e ∈ rs', e.1 ≠ q) : valueHere (under q (rs ++ (q, v) :: rs')) = v := by
  rw [← List.singleton_append, under_append, under_append, under_single]
  apply valueHere_last
  intro hex he hp
  obtain ⟨p, w⟩ := hex
  have hmem : (q ++ p, w) ∈ rs' := mem_under.mp he
  exact hlast _ hmem (by rw [show p = [] from hp, List.append_nil])

theorem firstMatches_length {m : τ → σ → Bool} {p : List τ} {ss : List σ}
    (h : FirstMatches m rs p ss) : p.length ≤ ss.length := by
  induction p generalizing rs ss with
  | nil => exact Nat.zero_le _
  | cons t p ih =>
    cases ss with
    | nil => cases h
    | cons s ss => exact Nat.succ_le_succ (ih h.2)

/-- Going down by first matches leaves no choice. -/
theorem firstMatches_isPrefix {m : τ → σ → Bool} {p q : List τ} {ss : List σ}
    (hp : FirstMatches m rs p ss) (hq : FirstMatches m rs q ss) (hle : p.length ≤ q.length) :
    p <+: q := by
  induction p generalizing rs q ss with
  | nil => exact List.nil_prefix
  | cons t p ih =>
    cases q with
    | nil => cases hle
    | cons u q =>
      cases ss with
      | nil => cases hp
      | cons s ss =>
        have hut : t = u := Option.some.inj (hp.1.symm.trans hq.1)
        subst hut
        exact List.cons_prefix_cons.mpr ⟨rfl, ih hp.2 hq.2 (Nat.le_of_succ_le_succ hle)⟩

theorem firstMatches_forall₂ {m : τ → σ → Bool} {p : List τ} {ss : List σ}
    (h : FirstMatches m rs p ss) (hlen : p.length = ss.length) :
    List.Forall₂ (fun t s => m t s = true) p ss := by
  induction p generalizing rs ss with
  | nil =>
    cases ss with
    | nil => exact .nil
    | cons s ss => cases hlen
  | cons t p ih =>
    cases ss with
    | nil => cases hlen
    | cons s ss =>
      have hm := (List.find?_eq_some_iff_append.mp h.1).1
      exact .cons (by simpa using hm) (ih h.2 (by simpa using hlen))

end

end Cerverus.FirstMatch
