import Mathlib

/-!
# Refinement of an abstract object

An object answers calls and changes its state; `none` is a call it cannot carry out. `next`
is how an abstract state changes with a call and its answer, and `Meets` what an answer has to
be. A simulation relation turns facts about one call into facts about every sequence of calls.
-/
namespace Cerverus.Refinement

variable {σ α ι ω : Type*} (call : σ → ι → Option (ω × σ)) (next : α → ι → ω → α)
  (Meets : σ → α → ι → ω → σ → Prop) (P : σ → Prop)

/-- Every call of the sequence is carried out and meets its specification, beside the abstract
states that follow from the answers; `P` holds in every state. -/
def Follows : σ → α → List ι → Prop
  | s, _, [] => P s
  | s, a, i :: is => P s ∧
    ∃ o t, call s i = some (o, t) ∧ Meets s a i o t ∧ Follows t (next a i o) is

/-- Whatever answers may come, each call is one that `C` permits where it is made. -/
def Permitted (May : ι → ω → Prop) (C : α → ι → Prop) : α → List ι → Prop
  | _, [] => True
  | a, i :: is => C a i ∧ ∀ o, May i o → Permitted May C (next a i o) is

instance decidablePermitted [Fintype ω] (May : ι → ω → Prop) [∀ i o, Decidable (May i o)]
    (C : α → ι → Prop) [∀ a i, Decidable (C a i)] :
    ∀ a is, Decidable (Permitted next May C a is)
  | _, [] => .isTrue trivial
  | a, i :: is =>
    have (o : ω) : Decidable (Permitted next May C (next a i o) is) :=
      decidablePermitted May C (next a i o) is
    inferInstanceAs (Decidable (_ ∧ _))

variable {call next Meets P}

theorem follows_of_simulation {R : σ → α → Prop} (hP : ∀ s a, R s a → P s)
    (hcall : ∀ s a i, R s a →
      ∃ o t, call s i = some (o, t) ∧ Meets s a i o t ∧ R t (next a i o))
    {s : σ} {a : α} (is : List ι) (h : R s a) : Follows call next Meets P s a is := by
  induction is generalizing s a with
  | nil => exact hP s a h
  | cons i is ih =>
    obtain ⟨o, t, ht, hmeets, hrel⟩ := hcall s a i h
    exact ⟨hP s a h, o, t, ht, hmeets, ih hrel⟩

theorem follows_of_permitted {R : σ → α → Prop} {May : ι → ω → Prop} {C : α → ι → Prop}
    (hP : ∀ s a, R s a → P s)
    (hcall : ∀ s a i, R s a → C a i →
      ∃ o t, call s i = some (o, t) ∧ May i o ∧ Meets s a i o t ∧ R t (next a i o))
    {s : σ} {a : α} (is : List ι) (h : R s a) (hc : Permitted next May C a is) :
    Follows call next Meets P s a is := by
  induction is generalizing s a with
  | nil => exact hP s a h
  | cons i is ih =>
    obtain ⟨hi, his⟩ := hc
    obtain ⟨o, t, ht, hmay, hmeets, hrel⟩ := hcall s a i h hi
    exact ⟨hP s a h, o, t, ht, hmeets, ih hrel (his o hmay)⟩

/-! ## Two objects beside each other -/

/-- The answers to a sequence of calls, and the state after it. -/
def answers (call : σ → ι → Option (ω × σ)) : σ → List ι → Option (List ω × σ)
  | s, [] => some ([], s)
  | s, i :: is => (call s i).bind fun r => (answers call r.2 is).map fun rest =>
    (r.1 :: rest.1, rest.2)

/-- An object that can do what another does, call by call, gives the same answers. -/
theorem answers_of_simulation {absCall : α → ι → Option (ω × α)} {R : σ → α → Prop}
    (hcall : ∀ s a i o a', R s a → absCall a i = some (o, a') →
      ∃ s', call s i = some (o, s') ∧ R s' a')
    {s : σ} {a a' : α} {os : List ω} (is : List ι) (h : R s a)
    (hrun : answers absCall a is = some (os, a')) :
    ∃ s', answers call s is = some (os, s') ∧ R s' a' := by
  induction is generalizing s a os with
  | nil =>
    cases hrun
    exact ⟨s, rfl, h⟩
  | cons i is ih =>
    obtain ⟨⟨o, a₁⟩, ha, hrest⟩ := Option.bind_eq_some_iff.mp hrun
    obtain ⟨⟨os₁, a₂⟩, htail, heq⟩ := Option.map_eq_some_iff.mp hrest
    cases heq
    obtain ⟨s₁, hs, hrel⟩ := hcall s a i o a₁ h ha
    obtain ⟨s', hs', hrel'⟩ := ih hrel htail
    exact ⟨s', by simp [answers, hs, hs'], hrel'⟩

theorem answers_defined {I : σ → Prop} (hcall : ∀ s i, I s → ∃ o t, call s i = some (o, t) ∧ I t)
    {s : σ} (is : List ι) (h : I s) : ∃ os t, answers call s is = some (os, t) ∧ I t := by
  induction is generalizing s with
  | nil => exact ⟨[], s, rfl, h⟩
  | cons i is ih =>
    obtain ⟨o, t, ht, hI⟩ := hcall s i h
    obtain ⟨os, u, hu, hI'⟩ := ih hI
    exact ⟨o :: os, u, by simp [answers, ht, hu], hI'⟩

end Cerverus.Refinement
