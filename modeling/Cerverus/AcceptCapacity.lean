import Cerverus.GuardedRun
import Cerverus.Stranded

/-!
# Accept capacity

`server_run` submits eight accepts. A completed accept is submitted again, except after an
error, and no other callback submits one.
-/
namespace Cerverus.EventLoop
open Hash Lru Http SpliceAll GuardedRun

def AcceptsEight (s : LoopState) : Prop := s.inFlight.count .accept = 8

def AcceptSucceeds (s : LoopState) (c : Completion) : Prop :=
  s.inFlight[c.index]? = some .accept → 0 ≤ c.res

instance decidableAcceptSucceeds (s : LoopState) (c : Completion) :
    Decidable (AcceptSucceeds s c) :=
  inferInstanceAs (Decidable (_ → _))

section
variable {cache cache' : LruCache FileT} {label : OpenFileLabel} {pt : Coroutine}
  {ctxs : List Context}

theorem count_accept_advance (hadv : Advance cache label pt cache' ctxs) :
    ctxs.count .accept = 0 := by
  cases hadv with
  | hit get raw => rfl
  | start get name => rfl
  | opened get => rfl
  | @added _ cache₁ r get add raw =>
    cases hev : r.evicted with
    | none => rfl
    | some file => rfl

theorem count_accept_startAll {pts : List Coroutine} (h : StartAll cache pts cache' ctxs) :
    ctxs.count .accept = 0 := by
  induction h with
  | nil => rfl
  | cons first rest ih => rw [List.count_append, count_accept_advance first, ih]

end

section
variable {rtr : Router} {s t : LoopState} {c : Completion} {ctx : Context}

theorem count_accept_submitAll {ctxs : List Context} (h : ctxs.count .accept = 0) :
    (submitAll s ctxs).inFlight.count .accept = s.inFlight.count .accept := by
  rw [submitAll, List.count_append, h, Nat.add_zero]

theorem count_accept_effect (heff : Effect rtr s c ctx t) (hne : ctx ≠ .accept) :
    t.inFlight.count .accept = s.inFlight.count .accept := by
  cases heff with
  | acceptFailed => exact absurd rfl hne
  | accepted => exact absurd rfl hne
  | recvDropped => rfl
  | recvMore => exact count_accept_submitAll rfl
  | routed hres hout hhit hstart => exact count_accept_submitAll (count_accept_startAll hstart)
  | openFailed hres hadv => exact count_accept_submitAll (count_accept_advance hadv)
  | opened hfd hadv => exact count_accept_submitAll (count_accept_advance hadv)
  | statx hadv => exact count_accept_submitAll (count_accept_advance hadv)
  | sendMore => exact count_accept_submitAll rfl
  | sent hcb hpipe => exact count_accept_submitAll rfl
  | spliceMore hfd => exact count_accept_submitAll rfl
  | splicedFile hcb => exact count_accept_submitAll rfl
  | closed => rfl

theorem count_accept_completion (s : LoopState) (c : Completion) :
    (handleAcceptCompletion s c).inFlight.count .accept =
      s.inFlight.count .accept + if c.res < 0 then 0 else 1 := by
  unfold handleAcceptCompletion
  split_ifs with hres
  · rfl
  · simp [handleAcceptSubmission, handleRecvSubmission, submit]

/-- A step loses an accept exactly when it is the completion of one that failed. -/
theorem count_accept_step (hs : step rtr s c = some t) :
    t.inFlight.count .accept +
        (if s.inFlight[c.index]? = some .accept ∧ c.res < 0 then 1 else 0) =
      s.inFlight.count .accept := by
  obtain ⟨ctx, hget, hperm, hallow, hcomplete⟩ := step_complete hs
  have hrest := hperm.count_eq Context.accept
  rw [List.count_append, List.count_singleton] at hrest
  by_cases hctx : ctx = .accept
  · subst hctx
    cases hcomplete
    rw [count_accept_completion, hget]
    by_cases hres : c.res < 0
    · simp [hres, hrest]
    · simp [hres, hrest]
  · have heff : Effect rtr { s with inFlight := s.inFlight.eraseIdx c.index } c ctx t :=
      complete_effect hallow hcomplete
    rw [count_accept_effect heff hctx, hget]
    simp [hctx, hrest]

end

/-- For every router, along every run, eight accepts stay in flight if and only if none of them
fails. -/
theorem acceptsEight_iff (rtr : Router) (others : List ℕ) (cs : List Completion) :
    Along (step rtr) AcceptsEight (serverStart others) cs ↔
      Guarded (step rtr) AcceptSucceeds (serverStart others) cs := by
  refine along_iff_guarded (I := AcceptsEight) ?_ (fun s h => h) ?_ ?_
  · intro s c t h hok hs
    have hcount := count_accept_step hs
    rw [if_neg (fun hex => absurd (hok hex.1) (not_le.mpr hex.2))] at hcount
    exact hcount.trans h
  · intro s c t h hs ht hget
    by_contra hres
    have hcount := count_accept_step hs
    rw [if_pos ⟨hget, not_le.mp hres⟩] at hcount
    unfold AcceptsEight at h ht
    omega
  · exact List.count_replicate_self

/-- `EMFILE` from one accept. -/
theorem seven_accepts_after_error :
    (run (step bareRouter) (serverStart baseDescriptors) [answer 0 (-24)]).map
        (fun s => s.inFlight.count .accept) = some 7 ∧
      ¬ Along (step bareRouter) AcceptsEight (serverStart baseDescriptors) [answer 0 (-24)] := by
  have hrun : (run (step bareRouter) (serverStart baseDescriptors) [answer 0 (-24)]).map
      (fun s => s.inFlight.count .accept) = some 7 := by decide +kernel
  refine ⟨hrun, fun halong => ?_⟩
  obtain ⟨s, hs, hcount⟩ := Option.map_eq_some_iff.mp hrun
  have height : AcceptsEight s := along_run halong hs
  unfold AcceptsEight at height
  omega

end Cerverus.EventLoop
