import Cerverus.SpliceAll

/-!
# Progress of a transfer

The file may be shorter than its cached size when it is filled from. A fill brings something
unless nothing is asked for or nothing is left of the file from `off_in` on, a drain takes
something unless nothing is asked for.
-/
namespace Cerverus.SpliceAll
open GuardedRun

/-- The most that the splice in flight can move, of a file of `length` bytes. -/
def available (length : ℕ) (s : Transfer) : ℕ :=
  if s.ctx.isDraining then requested s
  else min (requested s) (length - s.ctx.offIn.toNat)

/-- A splice moves something if there is something to move. -/
def Moves (length : ℕ) (s : Transfer) (r : ℕ) : Prop :=
  r ≤ available length s ∧ (r = 0 → available length s = 0)

instance decidableMoves (length : ℕ) (s : Transfer) (r : ℕ) : Decidable (Moves length s r) :=
  inferInstanceAs (Decidable (_ ∧ _))

def fileStep (length : ℕ) (s : Transfer) (r : ℕ) : Option Transfer :=
  if Moves length s r then step s r else none

/-- What the machine goes by: `nbytes`, `in_pipe` and `is_draining`. -/
structure Phase where
  nbytes : UInt32
  inPipe : UInt64
  isDraining : Bool
  deriving DecidableEq, Repr

def phase (s : Transfer) : Phase := ⟨s.ctx.nbytes, s.ctx.inPipe, s.ctx.isDraining⟩

def startBytes (fdIn fdOut : ℕ) (pipe : ℕ × ℕ) (nbytes : UInt32) : Transfer :=
  start ⟨fdIn, fdOut, 0, pipe, nbytes, 0, false⟩

theorem startBytes_eq (fdIn fdOut : ℕ) (pipe : ℕ × ℕ) (stxSize : UInt64) :
    start (sendfileContext fdIn fdOut stxSize pipe) =
      startBytes fdIn fdOut pipe stxSize.toUInt32 := rfl

/-- Every completion goes down in a well-founded order of the phases or resumes the coroutine;
so no phase comes back, and after a bounded number of completions the coroutine has been
resumed. -/
structure Progresses (length : ℕ) (init : Transfer) : Prop where
  measure : ∃ below : Phase → Phase → Prop, WellFounded below ∧
    ∀ rs s r t, run (fileStep length) init rs = some s → fileStep length s r = some t →
      t.resumed = false → below (phase t) (phase s)
  resumes : ∃ bound, ∀ rs s, run (fileStep length) init rs = some s → s.resumed = false →
    rs.length < bound ∧ ∃ r, (fileStep length s r).isSome

/-- What a completion must not do: fill more than remains, or find the pipe empty when it drains
with bytes remaining. -/
def GoesOn (s : Transfer) (r : ℕ) : Prop :=
  if s.ctx.isDraining then s.ctx.inPipe = 0 → s.ctx.nbytes = 0 else r ≤ s.ctx.nbytes.toNat

/-- Bytes count twice before they are filled; of two equal counts, draining comes later. -/
def weight (p : Phase) : ℕ :=
  2 * (2 * p.nbytes.toNat + p.inPipe.toNat) + if p.isDraining then 0 else 1

section
variable {length : ℕ} {s t : Transfer} {r : ℕ}

theorem fileStep_eq (h : fileStep length s r = some t) : Moves length s r ∧ step s r = some t := by
  unfold fileStep at h
  split_ifs at h with hm
  exact ⟨hm, h⟩

theorem step_isSome (hrun : s.resumed = false) (hle : r ≤ requested s) : (step s r).isSome := by
  simp only [step, hrun, Bool.false_eq_true, false_or]
  rw [if_neg (not_lt.mpr hle)]
  rfl

theorem fileStep_isSome (h : s.resumed = false) :
    ∃ r, (fileStep length s r).isSome := by
  have hle : available length s ≤ requested s := by
    unfold available
    split_ifs
    · exact le_rfl
    · exact min_le_left _ _
  refine ⟨available length s, ?_⟩
  simp [fileStep, Moves, step, h, hle]

/-- Nothing is left of the counts that a wrap could add. -/
def Bounded (s : Transfer) : Prop := s.ctx.nbytes.toNat + s.ctx.inPipe.toNat < 2 ^ 32

/-- A fill of no more than remains moves bytes on to where they count once. -/
theorem weight_fill (hb : Bounded s) (hd : s.ctx.isDraining = false)
    (hle : r ≤ s.ctx.nbytes.toNat) (h : step s r = some t) :
    Bounded t ∧ weight (phase t) < weight (phase s) := by
  obtain ⟨_, _, hdt, _, hn, hp, _⟩ := step_fill h hd
  unfold Bounded at *
  have hn' : t.ctx.nbytes.toNat = s.ctx.nbytes.toNat - r := by
    rw [hn, UInt32.toNat_sub, UInt32.toNat_ofNat']
    omega
  have hp' : t.ctx.inPipe.toNat = s.ctx.inPipe.toNat + r := by
    rw [hp, UInt64.toNat_add, UInt64.toNat_ofNat']
    omega
  refine ⟨by omega, ?_⟩
  simp only [weight, phase, hd, hdt, hn', hp', if_true, Bool.false_eq_true, if_false]
  omega

theorem weight_drain (hb : Bounded s) (hd : s.ctx.isDraining = true)
    (hpos : r = 0 → available length s = 0) (hgo : s.ctx.inPipe = 0 → s.ctx.nbytes = 0)
    (h : step s r = some t) :
    Bounded t ∧ (t.resumed = false → weight (phase t) < weight (phase s)) := by
  obtain ⟨hr, _, hn, hp, _, hresumed, hfill⟩ := step_drain h hd
  unfold Bounded at *
  simp only [available, hd, if_true, requested_drain hd] at hpos
  have hp' : t.ctx.inPipe.toNat = s.ctx.inPipe.toNat - r := by
    rw [hp, UInt64.toNat_sub, UInt64.toNat_ofNat']
    omega
  have hn' : t.ctx.nbytes.toNat = s.ctx.nbytes.toNat := congrArg UInt32.toNat hn
  refine ⟨by omega, fun hrunning => ?_⟩
  have hsome : r ≠ 0 := by
    intro hzero
    have hempty : s.ctx.inPipe = 0 := by
      have hmod := hpos hzero
      rw [← UInt64.toNat_inj, UInt64.toNat_zero]
      omega
    have hdone : t.ctx.inPipe = 0 ∧ t.ctx.nbytes = 0 := by
      refine ⟨?_, hn.trans (hgo hempty)⟩
      rw [← UInt64.toNat_inj, hp', hempty]
      simp
    rw [hresumed.mpr hdone] at hrunning
    cases hrunning
  simp only [weight, phase, hd, hfill hrunning, hn', hp', if_true, Bool.false_eq_true, if_false]
  omega

theorem weight_lt (hb : Bounded s) (hg : GoesOn s r) (h : fileStep length s r = some t) :
    Bounded t ∧ (t.resumed = false → weight (phase t) < weight (phase s)) := by
  obtain ⟨⟨_, hpos⟩, hstep⟩ := fileStep_eq h
  unfold GoesOn at hg
  cases hd : s.ctx.isDraining with
  | false =>
    simp only [hd, Bool.false_eq_true, if_false] at hg
    obtain ⟨hb', hlt⟩ := weight_fill hb hd hg hstep
    exact ⟨hb', fun _ => hlt⟩
  | true =>
    simp only [hd, if_true] at hg
    exact weight_drain hb hd hpos hg hstep

/-- Along a run whose completions all go on, every completion uses up some of the weight. -/
theorem length_add_weight {rs : List ℕ} (hb : Bounded s)
    (hg : Guarded (fileStep length) GoesOn s rs) (h : run (fileStep length) s rs = some t)
    (ht : t.resumed = false) :
    rs.length + weight (phase t) ≤ weight (phase s) := by
  induction rs generalizing s with
  | nil =>
    cases h
    simp
  | cons r rs ih =>
    cases hu : fileStep length s r with
    | none => simp [run, hu] at h
    | some u =>
      rw [run_cons rs hu] at h
      obtain ⟨hr, hg'⟩ := (guarded_some _ rs hu).mp hg
      obtain ⟨hbu, hlt⟩ := weight_lt hb hr hu
      have hrunning : u.resumed = false := by
        cases rs with
        | nil =>
          cases h
          exact ht
        | cons r' rs =>
          cases hv : fileStep length u r' with
          | none => simp [run, hv] at h
          | some v => exact step_not_resumed (fileStep_eq hv).2
      have hrest := ih hbu hg' h
      have hlt' := hlt hrunning
      rw [List.length_cons]
      omega

/-! ## Transfers byte by byte -/

/-- At most one byte is moved at a time, and there is one as long as bytes remain. -/
structure Small (length : ℕ) (s : Transfer) : Prop where
  offset : s.ctx.offIn = 0
  one : min s.ctx.nbytes.toNat length ≤ 1
  left : s.ctx.nbytes ≠ 0 → 1 ≤ length
  filling : s.resumed = false → s.ctx.isDraining = false → s.ctx.inPipe = 0
  draining : s.ctx.isDraining = true → s.ctx.inPipe.toNat ≤ 1 ∧
    (s.ctx.inPipe = 0 → s.ctx.nbytes = 0)

theorem small_fill (hs : Small length s) (hd : s.ctx.isDraining = false)
    (h : fileStep length s r = some t) : r ≤ s.ctx.nbytes.toNat ∧ Small length t := by
  obtain ⟨⟨hle, hpos⟩, hstep⟩ := fileStep_eq h
  obtain ⟨_, _, hdt, hoff, hn, hp, _⟩ := step_fill hstep hd
  have hempty : s.ctx.inPipe = 0 := hs.filling (step_not_resumed hstep) hd
  have hzero : s.ctx.inPipe.toNat = 0 := by rw [hempty]; rfl
  have hmost : available length s = min (min s.ctx.nbytes.toNat 65536) length := by
    rw [available, if_neg (by simp [hd]), requested_fill hd, fillLength_of_le (by omega), hzero,
      hs.offset]
    rfl
  have hone := hs.one
  have hlt := s.ctx.nbytes.toNat_lt
  have hn' : t.ctx.nbytes.toNat = s.ctx.nbytes.toNat - r := by
    rw [hn, UInt32.toNat_sub, UInt32.toNat_ofNat']
    omega
  have hp' : t.ctx.inPipe.toNat = r := by
    rw [hp, hempty, zero_add, UInt64.toNat_ofNat']
    omega
  have hnone : ∀ u : Transfer, u.ctx.nbytes = 0 ↔ u.ctx.nbytes.toNat = 0 := fun u => by
    rw [← UInt32.toNat_inj]
    rfl
  refine ⟨by omega, hoff.trans hs.offset, by omega, fun hne => hs.left fun h0 => hne ?_,
    fun _ hf => (by rw [hdt] at hf; cases hf), fun _ => ⟨by omega, fun h0 => ?_⟩⟩
  · rw [hnone] at h0 ⊢
    omega
  · have hr : r = 0 := by
      rw [h0] at hp'
      exact hp'.symm
    have hleft := hs.left
    have hmost' := hpos hr
    rw [ne_eq, hnone] at hleft
    rw [hnone]
    omega

theorem small_drain (hs : Small length s) (hd : s.ctx.isDraining = true)
    (h : fileStep length s r = some t) : Small length t := by
  obtain ⟨⟨hle, hpos⟩, hstep⟩ := fileStep_eq h
  obtain ⟨hr, hoff, hn, hp, _, hresumed, hfill⟩ := step_drain hstep hd
  obtain ⟨hone, _⟩ := hs.draining hd
  have hmost : available length s = s.ctx.inPipe.toNat % 2 ^ 32 := by
    rw [available, if_pos hd, requested_drain hd]
  have hempty : t.ctx.inPipe = 0 := by
    rw [← UInt64.toNat_inj, hp, UInt64.toNat_sub, UInt64.toNat_ofNat']
    simp only [UInt64.toNat_zero]
    omega
  refine ⟨hoff.trans hs.offset, hn ▸ hs.one, hn ▸ hs.left, fun _ _ => hempty, fun hdt => ?_⟩
  have hdone : t.resumed = true := by
    by_contra hres
    rw [hfill (by simpa using hres)] at hdt
    cases hdt
  exact ⟨by simp [hempty], fun _ => (hresumed.mp hdone).2⟩

theorem small_step (hs : Small length s) (h : fileStep length s r = some t) :
    GoesOn s r ∧ Small length t := by
  cases hd : s.ctx.isDraining with
  | false =>
    obtain ⟨hr, ht⟩ := small_fill hs hd h
    exact ⟨by simpa [GoesOn, hd] using hr, ht⟩
  | true => exact ⟨by simpa [GoesOn, hd] using (hs.draining hd).2, small_drain hs hd h⟩

theorem progresses_of_small (hs : Small length s) (hb : Bounded s) : Progresses length s := by
  have hstep : ∀ s r t, Small length s ∧ Bounded s → fileStep length s r = some t →
      GoesOn s r ∧ Small length t ∧ Bounded t := by
    intro s r t hex h
    obtain ⟨hgo, ht⟩ := small_step hex.1 h
    exact ⟨hgo, ht, (weight_lt hex.2 hgo h).1⟩
  refine ⟨⟨InvImage (· < ·) weight, InvImage.wf _ wellFounded_lt, ?_⟩, weight (phase s) + 1, ?_⟩
  · intro rs u r t hrun h hrunning
    have hinv : Small length u ∧ Bounded u :=
      run_preserves (fun s r t hex h => (hstep s r t hex h).2) ⟨hs, hb⟩ hrun
    exact (weight_lt hinv.2 (hstep u r t hinv h).1 h).2 hrunning
  · intro rs u hrun hrunning
    have hguard : Guarded (fileStep length) GoesOn s rs :=
      guarded_of_invariant (I := fun s => Small length s ∧ Bounded s) hstep ⟨hs, hb⟩
    have hle := length_add_weight hb hguard hrun hrunning
    exact ⟨by omega, fileStep_isSome hrunning⟩

/-! ## Transfers that come back -/

theorem transGen_of_run {init : Transfer} {below : Phase → Phase → Prop} {rs rs' : List ℕ}
    (hbelow : ∀ rs s r t, run (fileStep length) init rs = some s →
      fileStep length s r = some t → t.resumed = false → below (phase t) (phase s))
    (hs : run (fileStep length) init rs = some s) (ht : run (fileStep length) s rs' = some t)
    (hne : rs' ≠ []) (hrunning : t.resumed = false) :
    Relation.TransGen below (phase t) (phase s) := by
  induction rs' generalizing s rs with
  | nil => exact absurd rfl hne
  | cons r rs' ih =>
    cases hu : fileStep length s r with
    | none => simp [run, hu] at ht
    | some u =>
      rw [run_cons rs' hu] at ht
      have hrun : run (fileStep length) init (rs ++ [r]) = some u := by
        rw [run_append, hs, Option.bind_some, run_cons [] hu]
        rfl
      cases rs' with
      | nil =>
        cases ht
        exact .single (hbelow rs s r t hs hu hrunning)
      | cons r' rs' =>
        have hrest := ih hrun ht (by simp)
        cases hv : fileStep length u r' with
        | none => simp [run, hv] at ht
        | some v =>
          have hurunning := step_not_resumed (fileStep_eq hv).2
          exact hrest.tail (hbelow rs s r u hs hu hurunning)

theorem not_progresses_of_cycle {init : Transfer} {rs rs' : List ℕ}
    (hs : run (fileStep length) init rs = some s) (ht : run (fileStep length) s rs' = some t)
    (hne : rs' ≠ []) (hrunning : t.resumed = false) (hphase : phase t = phase s) :
    ¬ Progresses length init := by
  intro hprog
  obtain ⟨below, hwf, hbelow⟩ := hprog.measure
  have htrans := transGen_of_run hbelow hs ht hne hrunning
  rw [hphase] at htrans
  exact hwf.transGen.irrefl.irrefl _ htrans

structure At (s : Transfer) (nbytes : UInt32) (inPipe : UInt64) (isDraining : Bool) : Prop where
  running : s.resumed = false
  offset : s.ctx.offIn = 0
  phase : phase s = ⟨nbytes, inPipe, isDraining⟩

section
variable {n : UInt32} {p : UInt64}

theorem fill_at (length r : ℕ) (h : At s n p false)
    (hle : r ≤ (2 ^ 64 - p.toNat + min n.toNat 65536) % 2 ^ 64 % 2 ^ 32) (hlen : r ≤ length)
    (hpos : r = 0 → length = 0) :
    ∃ t, fileStep length s r = some t ∧ At t (n - UInt32.ofNat r) (p + UInt64.ofNat r) true := by
  obtain ⟨hrun, hoff, hphase⟩ := h
  obtain ⟨hn, hp, hd⟩ := Phase.mk.inj hphase
  have hreq : requested s = (2 ^ 64 - p.toNat + min n.toNat 65536) % 2 ^ 64 % 2 ^ 32 := by
    rw [requested_fill hd, fillLength_toNat, hn, hp]
  have hmost : available length s = min (requested s) length := by
    rw [available, if_neg (by simp [hd]), hoff]
    rfl
  have hmoves : Moves length s r := by
    unfold Moves
    omega
  obtain ⟨t, ht⟩ := Option.isSome_iff_exists.mp (step_isSome hrun (show r ≤ requested s by omega))
  obtain ⟨_, hres, hdt, hoff', hn', hp', _⟩ := step_fill ht hd
  refine ⟨t, by rw [fileStep, if_pos hmoves, ht], hres, hoff'.trans hoff, ?_⟩
  rw [SpliceAll.phase, hn', hp', hdt, hn, hp]

theorem drain_at (length r : ℕ) (h : At s n p true) (hle : r ≤ p.toNat % 2 ^ 32)
    (hpos : r = 0 → p.toNat % 2 ^ 32 = 0) (hmore : p - UInt64.ofNat r = 0 → n ≠ 0) :
    ∃ t, fileStep length s r = some t ∧ At t n (p - UInt64.ofNat r) false := by
  obtain ⟨hrun, hoff, hphase⟩ := h
  obtain ⟨hn, hp, hd⟩ := Phase.mk.inj hphase
  have hreq : requested s = p.toNat % 2 ^ 32 := by rw [requested_drain hd, hp]
  have hmoves : Moves length s r := by
    rw [Moves, available, if_pos hd]
    omega
  obtain ⟨t, ht⟩ := Option.isSome_iff_exists.mp (step_isSome hrun (show r ≤ requested s by omega))
  obtain ⟨_, hoff', hn', hp', _, hresumed, hfill⟩ := step_drain ht hd
  have hres : t.resumed = false := by
    by_contra hres
    obtain ⟨hempty, hnone⟩ := hresumed.mp (by simpa using hres)
    rw [hp', hp] at hempty
    rw [hn', hn] at hnone
    exact hmore hempty hnone
  refine ⟨t, by rw [fileStep, if_pos hmoves, ht], hres, hoff'.trans hoff, ?_⟩
  rw [SpliceAll.phase, hn', hp', hfill hres, hn, hp]

theorem byte_round (hlen : 1 ≤ length) (h : At s n 0 false) (hn : 2 ≤ n.toNat) :
    ∃ t, run (fileStep length) s [1, 1] = some t ∧ At t (n - 1) 0 false := by
  have hlt := n.toNat_lt
  obtain ⟨m, hm, hm'⟩ := fill_at length 1 h (by simp; omega) hlen (by simp)
  have hmore : n - UInt32.ofNat 1 ≠ 0 := by
    intro hzero
    have hnat := congrArg UInt32.toNat hzero
    rw [UInt32.toNat_sub] at hnat
    simp at hnat
    omega
  obtain ⟨t, ht, ht'⟩ := drain_at length 1 hm' (by simp) (by simp)
    fun _ => hmore
  refine ⟨t, ?_, ht'⟩
  rw [run_cons _ hm, run_cons _ ht]
  rfl

theorem down_to_two (hlen : 1 ≤ length) (h : At s n 0 false) (hn : 2 ≤ n.toNat) :
    ∃ rs t, run (fileStep length) s rs = some t ∧ At t 2 0 false := by
  induction hsize : n.toNat using Nat.strong_induction_on generalizing n s with
  | _ k ih =>
    by_cases htwo : n.toNat = 2
    · have heq : n = 2 := UInt32.toNat_inj.mp htwo
      exact ⟨[], s, rfl, heq ▸ h⟩
    · obtain ⟨t, ht, ht'⟩ := byte_round hlen h hn
      have hless : (n - 1).toNat = n.toNat - 1 := by
        rw [UInt32.toNat_sub]
        have hlt := n.toNat_lt
        simp
        omega
      obtain ⟨rs, u, hu, hu'⟩ := ih (n - 1).toNat (by omega) ht' (by omega) rfl
      refine ⟨[1, 1] ++ rs, u, ?_, hu'⟩
      rw [run_append, ht, Option.bind_some, hu]

/-- A short last drain makes the next fill wrap `nbytes`; after that many bytes more, the
transfer is where it was. -/
theorem wraps_around (hlen : 2 ≤ length) (h : At s 2 0 false) :
    ∃ rs t, run (fileStep length) s rs = some t ∧ rs ≠ [] ∧ At t 2 0 false := by
  obtain ⟨s₁, h₁, hat₁⟩ := fill_at length 2 h (by decide) hlen (by simp)
  obtain ⟨s₂, h₂, hat₂⟩ := drain_at length 1 hat₁ (by decide) (by simp)
    fun hzero => absurd hzero (by decide)
  obtain ⟨s₃, h₃, hat₃⟩ := fill_at length 1 hat₂ (by decide) (by omega) (by simp)
  obtain ⟨s₄, h₄, hat₄⟩ := drain_at length 2 hat₃ (by decide) (by simp)
    fun _ => by decide
  obtain ⟨rs, t, hrun, hat⟩ := down_to_two (show 1 ≤ length by omega) hat₄ (by decide)
  refine ⟨[2, 1, 1, 2] ++ rs, t, ?_, by simp, hat⟩
  rw [run_append, run_cons _ h₁, run_cons _ h₂, run_cons _ h₃, run_cons _ h₄]
  exact hrun

end

end

theorem at_startBytes (fdIn fdOut : ℕ) (pipe : ℕ × ℕ) (nbytes : UInt32) :
    At (startBytes fdIn fdOut pipe nbytes) nbytes 0 false := ⟨rfl, rfl, rfl⟩

theorem not_progresses_empty (fdIn fdOut : ℕ) (pipe : ℕ × ℕ) {nbytes : UInt32}
    (h : nbytes ≠ 0) : ¬ Progresses 0 (startBytes fdIn fdOut pipe nbytes) := by
  obtain ⟨m, hm, hm'⟩ := fill_at 0 0 (at_startBytes fdIn fdOut pipe nbytes) (Nat.zero_le _) le_rfl
    fun _ => rfl
  obtain ⟨t, ht, ht'⟩ := drain_at 0 0 hm' (Nat.zero_le _) (by simp) fun _ => by simpa using h
  have hstart : run (fileStep 0) (startBytes fdIn fdOut pipe nbytes) [] =
      some (startBytes fdIn fdOut pipe nbytes) := rfl
  have hcycle : run (fileStep 0) (startBytes fdIn fdOut pipe nbytes) [0, 0] = some t := by
    rw [run_cons _ hm, run_cons _ ht]
    rfl
  refine not_progresses_of_cycle hstart hcycle (by simp) ht'.running ?_
  rw [ht'.phase, (at_startBytes fdIn fdOut pipe nbytes).phase]
  simp

theorem bounded_startBytes (fdIn fdOut : ℕ) (pipe : ℕ × ℕ) (nbytes : UInt32) :
    Bounded (startBytes fdIn fdOut pipe nbytes) := by
  simpa [Bounded, startBytes, start] using nbytes.toNat_lt

/-- Whatever partial transfers the kernel makes, the machine makes progress if and only if there
is nothing to move, or the file is not empty and never more than one byte can be moved at a
time. -/
theorem progresses_iff_small (fdIn fdOut : ℕ) (pipe : ℕ × ℕ) (nbytes : UInt32) (length : ℕ) :
    Progresses length (startBytes fdIn fdOut pipe nbytes) ↔
      nbytes = 0 ∨ 1 ≤ length ∧ (nbytes = 1 ∨ length = 1) := by
  have hlt := nbytes.toNat_lt
  have hsize : ∀ m : UInt32, nbytes = m ↔ nbytes.toNat = m.toNat := fun m => UInt32.toNat_inj.symm
  constructor
  · intro hprog
    by_contra hcond
    have hzero : nbytes ≠ 0 := fun h => hcond (Or.inl h)
    by_cases hempty : length = 0
    · subst hempty
      exact not_progresses_empty fdIn fdOut pipe hzero hprog
    · have hlen : 2 ≤ length := by
        by_contra hlen
        exact hcond (Or.inr ⟨by omega, Or.inr (by omega)⟩)
      have hn : 2 ≤ nbytes.toNat := by
        by_contra hn
        rw [ne_eq, hsize] at hzero
        rw [hsize, hsize] at hcond
        simp at hzero hcond
        omega
      obtain ⟨rs, s, hs, hat⟩ := down_to_two (show 1 ≤ length by omega)
        (at_startBytes fdIn fdOut pipe nbytes) hn
      obtain ⟨rs', t, ht, hne, hat'⟩ := wraps_around hlen hat
      exact not_progresses_of_cycle hs ht hne hat'.running (hat'.phase.trans hat.phase.symm) hprog
  · intro hcond
    refine progresses_of_small ⟨rfl, ?_, fun hne => ?_, fun _ _ => rfl, fun hd => by cases hd⟩
      (bounded_startBytes fdIn fdOut pipe nbytes)
    · change min nbytes.toNat length ≤ 1
      rw [hsize, hsize] at hcond
      simp at hcond
      omega
    · exact (hcond.resolve_left hne).1

/-- For every `nbytes` and every actual length: all runs make progress exactly in these cases,
and any one run does as long as no fill takes more than remains and no drain finds the pipe
empty with bytes remaining. -/
theorem progresses_iff (fdIn fdOut : ℕ) (pipe : ℕ × ℕ) (nbytes : UInt32) (length : ℕ) :
    (Progresses length (startBytes fdIn fdOut pipe nbytes) ↔
      nbytes = 0 ∨ 1 ≤ length ∧ (nbytes = 1 ∨ length = 1)) ∧
    ∀ rs s, Guarded (fileStep length) GoesOn (startBytes fdIn fdOut pipe nbytes) rs →
      run (fileStep length) (startBytes fdIn fdOut pipe nbytes) rs = some s →
      s.resumed = false →
      rs.length + weight (phase s) ≤ 4 * nbytes.toNat + 1 ∧
        ∃ r, (fileStep length s r).isSome := by
  refine ⟨progresses_iff_small fdIn fdOut pipe nbytes length, fun rs s hg hrun hrunning => ?_⟩
  have hle := length_add_weight (bounded_startBytes fdIn fdOut pipe nbytes) hg hrun hrunning
  have hstart : weight (phase (startBytes fdIn fdOut pipe nbytes)) = 4 * nbytes.toNat + 1 := by
    simp only [weight, phase, startBytes, start, UInt64.toNat_zero, Bool.false_eq_true, if_false]
    omega
  exact ⟨hstart ▸ hle, fileStep_isSome hrunning⟩

/-- Three bytes are cached, but the file is empty by now: the second completion brings back the
first phase. -/
theorem shrunken_file_cycles :
    (run (fileStep 0) (startBytes 5 6 (7, 8) 3) [0, 0]).map phase =
        some (phase (startBytes 5 6 (7, 8) 3)) ∧
      ¬ Progresses 0 (startBytes 5 6 (7, 8) 3) :=
  ⟨by decide +kernel, not_progresses_empty 5 6 (7, 8) (by decide)⟩

end Cerverus.SpliceAll
