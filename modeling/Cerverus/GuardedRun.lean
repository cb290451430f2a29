import Mathlib

/-!
# Runs of a partial step function

A run feeds a list of inputs to `step`; a step may be refused. `Along` says a property
holds in every state visited, `Guarded` that every step taken meets a condition on its
input and the state before it. The rules below turn step lemmas into facts about runs.
-/
namespace Cerverus.GuardedRun

variable {σ α : Type*} (step : σ → α → Option σ)

/-- The state after the inputs, if no step is refused. -/
def run : σ → List α → Option σ
  | s, [] => some s
  | s, a :: as =>
    match step s a with
    | none => none
    | some t => run t as

/-- `P` holds in every state the run visits, up to the first refused step. -/
def Along (P : σ → Prop) : σ → List α → Prop
  | s, [] => P s
  | s, a :: as => P s ∧
    match step s a with
    | none => True
    | some t => Along P t as

/-- Every step taken by the run, up to the first refused one, meets `C`. -/
def Guarded (C : σ → α → Prop) : σ → List α → Prop
  | _, [] => True
  | s, a :: as =>
    match step s a with
    | none => True
    | some t => C s a ∧ Guarded C t as

theorem guarded_some {C : σ → α → Prop} {s t : σ} {a : α} (as : List α)
    (h : step s a = some t) : Guarded step C s (a :: as) ↔ C s a ∧ Guarded step C t as := by
  simp only [Guarded, h]

theorem guarded_none {C : σ → α → Prop} {s : σ} {a : α} (as : List α)
    (h : step s a = none) : Guarded step C s (a :: as) := by
  simp only [Guarded, h]

instance decidableGuarded (C : σ → α → Prop) [∀ s a, Decidable (C s a)] :
    ∀ s as, Decidable (Guarded step C s as)
  | _, [] => .isTrue trivial
  | s, a :: as =>
    match h : step s a with
    | none => .isTrue (guarded_none step as h)
    | some t =>
      have := decidableGuarded C t as
      decidable_of_iff _ (guarded_some step as h).symm

variable {step} {P I : σ → Prop} {C : σ → α → Prop}

theorem run_cons {s t : σ} {a : α} (as : List α) (h : step s a = some t) :
    run step s (a :: as) = run step t as := by
  simp only [run, h]

theorem run_append (s : σ) (as bs : List α) :
    run step s (as ++ bs) = (run step s as).bind fun t => run step t bs := by
  induction as generalizing s with
  | nil => rfl
  | cons a as ih =>
    rw [List.cons_append]
    cases hs : step s a with
    | none => simp [run, hs]
    | some t => rw [run_cons _ hs, run_cons _ hs, ih]

theorem along_cons {s t : σ} {a : α} (as : List α) (h : step s a = some t) :
    Along step P s (a :: as) ↔ P s ∧ Along step P t as := by
  simp only [Along, h]

theorem along_head {s : σ} {as : List α} (h : Along step P s as) : P s := by
  cases as with
  | nil => exact h
  | cons a as => exact h.1

theorem along_run {s t : σ} {as : List α} (h : Along step P s as)
    (hr : run step s as = some t) : P t := by
  induction as generalizing s with
  | nil =>
    simp only [run, Option.some.injEq] at hr
    exact hr ▸ h
  | cons a as ih =>
    cases hs : step s a with
    | none => simp [run, hs] at hr
    | some u =>
      rw [run_cons as hs] at hr
      exact ih ((along_cons as hs).mp h).2 hr

theorem along_mono {Q : σ → Prop} (hPQ : ∀ s, P s → Q s) {s : σ} {as : List α}
    (h : Along step P s as) : Along step Q s as := by
  induction as generalizing s with
  | nil => exact hPQ s h
  | cons a as ih =>
    refine ⟨hPQ s h.1, ?_⟩
    have ht := h.2
    cases hs : step s a with
    | none => trivial
    | some t => rw [hs] at ht; exact ih ht

/-- The run rule: what every guarded step preserves holds along every guarded run. -/
theorem along_of_guarded
    (hstep : ∀ s a t, I s → C s a → step s a = some t → I t)
    {s : σ} {as : List α} (hs : I s) (hg : Guarded step C s as) : Along step I s as := by
  induction as generalizing s with
  | nil => exact hs
  | cons a as ih =>
    refine ⟨hs, ?_⟩
    cases ht : step s a with
    | none => trivial
    | some t =>
      obtain ⟨hc, hg'⟩ := (guarded_some step as ht).mp hg
      exact ih (hstep s a t hs hc ht) hg'

theorem along_of_invariant (hstep : ∀ s a t, I s → step s a = some t → I t) {s : σ}
    {as : List α} (hs : I s) : Along step I s as := by
  induction as generalizing s with
  | nil => exact hs
  | cons a as ih =>
    refine ⟨hs, ?_⟩
    cases ht : step s a with
    | none => trivial
    | some t => exact ih (hstep s a t hs ht)

theorem run_preserves (hstep : ∀ s a t, I s → step s a = some t → I t) {s t : σ} {as : List α}
    (hs : I s) (hr : run step s as = some t) : I t :=
  along_run (along_of_invariant hstep hs) hr

/-- If every step from the invariant is defined and keeps it, so is every run. -/
theorem run_defined (hstep : ∀ s a, I s → ∃ t, step s a = some t ∧ I t) {s : σ} {as : List α}
    (hs : I s) : ∃ t, run step s as = some t ∧ I t := by
  induction as generalizing s with
  | nil => exact ⟨s, rfl, hs⟩
  | cons a as ih =>
    obtain ⟨u, hu, hi⟩ := hstep s a hs
    rw [run_cons as hu]
    exact ih hi

theorem run_isSome_of_guarded (hdef : ∀ s a, I s → (step s a).isSome)
    (hstep : ∀ s a t, I s → C s a → step s a = some t → I t)
    {s : σ} {as : List α} (hs : I s) (hg : Guarded step C s as) : (run step s as).isSome := by
  induction as generalizing s with
  | nil => rfl
  | cons a as ih =>
    obtain ⟨t, ht⟩ := Option.isSome_iff_exists.mp (hdef s a hs)
    obtain ⟨hc, hg'⟩ := (guarded_some step as ht).mp hg
    rw [run_cons as ht]
    exact ih (hstep s a t hs hc ht) hg'

theorem guarded_of_invariant (hstep : ∀ s a t, I s → step s a = some t → C s a ∧ I t)
    {s : σ} {as : List α} (hs : I s) : Guarded step C s as := by
  induction as generalizing s with
  | nil => trivial
  | cons a as ih =>
    cases ht : step s a with
    | none => exact guarded_none step as ht
    | some t =>
      obtain ⟨hc, hi⟩ := hstep s a t hs ht
      exact (guarded_some step as ht).mpr ⟨hc, ih hi⟩

/-- The converse: if leaving the guard breaks `P` at once, `P` along the run forces it. -/
theorem guarded_of_along
    (hstep : ∀ s a t, I s → C s a → step s a = some t → I t)
    (hbreak : ∀ s a t, I s → step s a = some t → P t → C s a)
    {s : σ} {as : List α} (hs : I s) (hp : Along step P s as) : Guarded step C s as := by
  induction as generalizing s with
  | nil => trivial
  | cons a as ih =>
    cases ht : step s a with
    | none => exact guarded_none step as ht
    | some t =>
      obtain ⟨_, hp'⟩ := (along_cons as ht).mp hp
      have hc : C s a := hbreak s a t hs ht (along_head hp')
      exact (guarded_some step as ht).mpr ⟨hc, ih (hstep s a t hs hc ht) hp'⟩

/-- Along runs from `I`, the property is exactly the guard. -/
theorem along_iff_guarded
    (hstep : ∀ s a t, I s → C s a → step s a = some t → I t)
    (himp : ∀ s, I s → P s)
    (hbreak : ∀ s a t, I s → step s a = some t → P t → C s a)
    {s : σ} {as : List α} (hs : I s) : Along step P s as ↔ Guarded step C s as :=
  ⟨guarded_of_along hstep hbreak hs, fun hg => along_mono himp (along_of_guarded hstep hs hg)⟩

theorem guarded_iff_guarded {D : σ → α → Prop}
    (hstep : ∀ s a t, I s → C s a → step s a = some t → I t)
    (hiff : ∀ s a t, I s → step s a = some t → (D s a ↔ C s a))
    {s : σ} {as : List α} (hs : I s) : Guarded step D s as ↔ Guarded step C s as := by
  induction as generalizing s with
  | nil => exact Iff.rfl
  | cons a as ih =>
    cases ht : step s a with
    | none => exact iff_of_true (guarded_none step as ht) (guarded_none step as ht)
    | some t =>
      rw [guarded_some step as ht, guarded_some step as ht, hiff s a t hs ht]
      exact and_congr_right fun hc => ih (hstep s a t hs hc ht)

/-- If every guarded step uses up one unit of `m`, paid for by a growth of `g`, so long a run
uses up that many. -/
theorem length_add_le {m g : σ → ℕ}
    (hstep : ∀ s a t, C s a → step s a = some t → 1 + m t + g s ≤ m s + g t)
    {s t : σ} {as : List α} (hg : Guarded step C s as) (hr : run step s as = some t) :
    as.length + m t + g s ≤ m s + g t := by
  induction as generalizing s with
  | nil =>
    cases hr
    simp
  | cons a as ih =>
    cases hu : step s a with
    | none => simp [run, hu] at hr
    | some u =>
      rw [run_cons as hu] at hr
      obtain ⟨hc, hg'⟩ := (guarded_some step as hu).mp hg
      have hone := hstep s a u hc hu
      have hrest := ih hg' hr
      rw [List.length_cons]
      omega

/-! ## History -/

section
variable {γ : Type*} {note : σ → α → γ → γ}

/-- The same steps, with a record kept beside the state. -/
def watched (step : σ → α → Option σ) (note : σ → α → γ → γ) (w : σ × γ) (a : α) :
    Option (σ × γ) :=
  (step w.1 a).map fun t => (t, note w.1 a w.2)

theorem watched_eq_some {w w' : σ × γ} {a : α} :
    watched step note w a = some w' ↔ step w.1 a = some w'.1 ∧ w'.2 = note w.1 a w.2 := by
  obtain ⟨t, r⟩ := w'
  simp only [watched, Option.map_eq_some_iff, Prod.mk.injEq]
  constructor
  · intro hex
    obtain ⟨u, hu, rfl, rfl⟩ := hex
    exact ⟨hu, rfl⟩
  · intro hex
    obtain ⟨ht, hr⟩ := hex
    exact ⟨t, ht, rfl, hr.symm⟩

/-- A property of the state alone does not see the record. -/
theorem along_watched {s : σ} {r : γ} {as : List α} :
    Along (watched step note) (fun w => P w.1) (s, r) as ↔ Along step P s as := by
  induction as generalizing s r with
  | nil => exact Iff.rfl
  | cons a as ih =>
    cases ht : step s a with
    | none => simp only [Along, watched, ht, Option.map_none]
    | some t => simp only [Along, watched, ht, Option.map_some, ih]

theorem guarded_watched {s : σ} {r : γ} {as : List α} :
    Guarded (watched step note) (fun w => C w.1) (s, r) as ↔ Guarded step C s as := by
  induction as generalizing s r with
  | nil => exact Iff.rfl
  | cons a as ih =>
    cases ht : step s a with
    | none => simp only [Guarded, watched, ht, Option.map_none]
    | some t => simp only [Guarded, watched, ht, Option.map_some, ih]

end

end Cerverus.GuardedRun
