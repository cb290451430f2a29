import Mathlib

/-!
# The lives of resumable functions

A trace records, for functions that may suspend themselves, when each is called, when it waits
and when it is over, by its own end or by passing its caller on. A life is orderly if the
function is called only when it is new or waits, and waits or ends only when it runs.
-/
namespace Cerverus.Lifecycle

inductive Event (ι : Type*)
  | called (i : ι)
  | waited (i : ι)
  | ended (i : ι)
  | passed (i : ι)
  deriving DecidableEq, Repr

inductive Life
  | new
  | running
  | waiting
  | finished
  deriving DecidableEq, Repr

variable {ι : Type*}

def Event.subject : Event ι → ι
  | .called i => i
  | .waited i => i
  | .ended i => i
  | .passed i => i

/-- `none` where the event is out of order. -/
def Life.next : Life → Event ι → Option Life
  | .new, .called _ => some .running
  | .waiting, .called _ => some .running
  | .running, .waited _ => some .waiting
  | .running, .ended _ => some .finished
  | .running, .passed _ => some .finished
  | _, _ => none

theorem next_eq_some {l l' : Life} {e : Event ι} (h : l.next e = some l') :
    (e = .called e.subject ∧ (l = .new ∨ l = .waiting) ∧ l' = .running) ∨
      (l = .running ∧ ((e = .waited e.subject ∧ l' = .waiting) ∨
        ((e = .ended e.subject ∨ e = .passed e.subject) ∧ l' = .finished))) := by
  cases l with
  | new =>
    cases e with
    | called i => exact Or.inl ⟨rfl, Or.inl rfl, (Option.some.inj h).symm⟩
    | _ => cases h
  | running =>
    cases e with
    | called i => cases h
    | waited i => exact Or.inr ⟨rfl, Or.inl ⟨rfl, (Option.some.inj h).symm⟩⟩
    | ended i => exact Or.inr ⟨rfl, Or.inr ⟨Or.inl rfl, (Option.some.inj h).symm⟩⟩
    | passed i => exact Or.inr ⟨rfl, Or.inr ⟨Or.inr rfl, (Option.some.inj h).symm⟩⟩
  | waiting =>
    cases e with
    | called i => exact Or.inl ⟨rfl, Or.inr rfl, (Option.some.inj h).symm⟩
    | _ => cases h
  | finished => cases e <;> cases h

variable [DecidableEq ι]

def Life.after (i : ι) (l : Option Life) (e : Event ι) : Option Life :=
  if e.subject = i then l.bind (·.next e) else l

/-- The life of `i` after the trace, if it has been orderly. -/
def life (i : ι) (trace : List (Event ι)) : Option Life :=
  trace.foldl (Life.after i) (some .new)

section
variable {i : ι} {trace later : List (Event ι)} {e : Event ι} {l l' : Life}

theorem life_snoc : life i (trace ++ [e]) = Life.after i (life i trace) e := by
  simp [life]

theorem life_other (h : e.subject ≠ i) : life i (trace ++ [e]) = life i trace := by
  rw [life_snoc, Life.after, if_neg h]

theorem life_own (h : e.subject = i) :
    life i (trace ++ [e]) = some l' ↔ ∃ l, life i trace = some l ∧ l.next e = some l' := by
  rw [life_snoc, Life.after, if_pos h, Option.bind_eq_some_iff]

theorem after_none (trace : List (Event ι)) : trace.foldl (Life.after i) none = none := by
  induction trace with
  | nil => rfl
  | cons e trace ih =>
    rw [List.foldl_cons, Life.after, Option.bind_none, ite_self, ih]

theorem life_append : life i (trace ++ later) = later.foldl (Life.after i) (life i trace) :=
  List.foldl_append

theorem life_before (h : life i (trace ++ later) = some l) : ∃ l', life i trace = some l' := by
  rw [life_append] at h
  rcases hl : life i trace with _ | l'
  · rw [hl, after_none] at h
    cases h
  · exact ⟨l', rfl⟩

/-- Whoever is over is never called again. -/
theorem finished_silent (hfinished : life i trace = some .finished)
    (h : life i (trace ++ later) = some l) : ∀ e ∈ later, e.subject ≠ i := by
  induction later generalizing trace with
  | nil => simp
  | cons e later ih =>
    rw [List.append_cons] at h
    have hsubject : e.subject ≠ i := by
      intro heq
      obtain ⟨l', hl'⟩ := life_before h
      obtain ⟨before, hbefore, hnext⟩ := (life_own heq).mp hl'
      cases hfinished.symm.trans hbefore
      cases e <;> cases hnext
    have hstill := (life_other hsubject).trans hfinished
    exact List.forall_mem_cons.mpr ⟨hsubject, ih hstill h⟩

theorem ended_silent (h : life i (trace ++ .ended i :: later) = some l) :
    ∀ e ∈ later, e.subject ≠ i := by
  rw [List.append_cons] at h
  obtain ⟨l', hl'⟩ := life_before h
  obtain ⟨before, _, hnext⟩ := (life_own (show (Event.ended i).subject = i from rfl)).mp hl'
  rcases next_eq_some hnext with ⟨heq, _⟩ | ⟨_, ⟨heq, _⟩ | ⟨_, rfl⟩⟩
  · cases heq
  · cases heq
  · exact finished_silent hl' h

theorem new_silent (h : life i trace = some .new) : ∀ e ∈ trace, e.subject ≠ i := by
  induction trace using List.reverseRecOn with
  | nil => simp
  | append_singleton trace e ih =>
    have hsubject : e.subject ≠ i := by
      intro heq
      obtain ⟨before, _, hnext⟩ := (life_own heq).mp h
      rcases next_eq_some hnext with ⟨_, _, hnew⟩ | ⟨_, ⟨_, hnew⟩ | ⟨_, hnew⟩⟩ <;> cases hnew
    rw [life_other hsubject] at h
    intro e' he'
    rcases List.mem_append.mp he' with he' | he'
    · exact ih h e' he'
    · rw [List.mem_singleton.mp he']
      exact hsubject

/-- Every call of an orderly life is over or waits, but for one that still runs: whoever waits has
been called once for each time it has waited, and whoever is over once more. -/
theorem calls_eq (h : life i trace = some l) :
    trace.count (.called i) =
      trace.count (.waited i) + (if l = .running ∨ l = .finished then 1 else 0) := by
  induction trace using List.reverseRecOn generalizing l with
  | nil =>
    cases h
    rfl
  | append_singleton trace e ih =>
    rw [List.count_append, List.count_append, List.count_singleton, List.count_singleton]
    by_cases hsubject : e.subject = i
    · obtain ⟨before, hbefore, hnext⟩ := (life_own hsubject).mp h
      have hcount := ih hbefore
      rw [hsubject.symm] at hcount ⊢
      rcases next_eq_some hnext with ⟨he, hl, rfl⟩ | ⟨rfl, ⟨he, rfl⟩ | ⟨he, rfl⟩⟩
      · rcases hl with rfl | rfl <;> rw [he] <;> simpa [Event.subject] using hcount
      · rw [he]
        simpa [Event.subject] using hcount
      · rcases he with he | he <;> rw [he] <;> simpa [Event.subject] using hcount
    · rw [life_other hsubject] at h
      have hcalled : e ≠ .called i := fun heq => hsubject (by rw [heq]; rfl)
      have hwaited : e ≠ .waited i := fun heq => hsubject (by rw [heq]; rfl)
      simpa [hcalled, hwaited] using ih h

end

end Cerverus.Lifecycle
