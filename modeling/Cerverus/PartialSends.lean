import Cerverus.EventLoop
import Cerverus.GuardedRun

/-!
# Partial sends

A `send` may take only the first bytes of the buffer. The completion cuts them off and submits
the rest in a new context, until nothing is left.
-/
namespace Cerverus.PartialSends
open GuardedRun EventLoop

/-- `sdsrange` of the vendored library: the bytes from `start` to `stop`, both inclusive and
counted from the end where negative. -/
def sdsrange (s : Bytes) (start stop : ℤ) : Bytes :=
  if s.length = 0 then s
  else
    let start := if start < 0 then max (s.length + start) 0 else start
    let stop := if stop < 0 then max (s.length + stop) 0 else stop
    let newlen := if stop < start then 0 else stop - start + 1
    let newlen :=
      if newlen = 0 then newlen
      else if s.length ≤ start then 0
      else if s.length ≤ stop then s.length - 1 - start + 1
      else newlen
    (s.drop start.toNat).take newlen.toNat

theorem sdsrange_from {s : Bytes} {k : ℕ} (hk : k ≤ s.length) : sdsrange s k (-1) = s.drop k := by
  unfold sdsrange
  by_cases hs : s.length = 0
  · simp [List.length_eq_zero_iff.mp hs]
  · have hstart : ¬ (k : ℤ) < 0 := not_lt.mpr (Int.natCast_nonneg k)
    have hstop : max ((s.length : ℤ) + -1) 0 = s.length - 1 := by omega
    simp only [hs, if_false, hstart, hstop, show ((-1 : ℤ) < 0) = True by simp, if_true,
      Int.toNat_natCast]
    by_cases hall : k = s.length
    · subst hall
      simp
    · rw [if_neg (by omega), if_neg (by omega), if_neg (by omega), if_neg (by omega)]
      apply List.take_of_length_le
      rw [List.length_drop]
      omega

variable {π : Type}

/-- The context of a `send`; `pt` is the protothread that waits, if any. -/
structure SendContext (π : Type) where
  buffer : Bytes
  clientFd : ℕ
  pt : Option π

/-- The context submitted; all of its buffer is asked for. -/
def handleSendSubmission (buffer : Bytes) (clientFd : ℕ) (pt : Option π) : SendContext π :=
  ⟨buffer, clientFd, pt⟩

/-- What a completion does: submit the rest, or free the context and resume who waits. -/
inductive Outcome (π : Type)
  | submitted (ctx : SendContext π)
  | exits (pt : Option π)

def handleSendCompletion (res : ℤ) (ctx : SendContext π) : Outcome π :=
  if res < 0 then .exits ctx.pt
  else
    let buffer := sdsrange ctx.buffer res (-1)
    if 0 < buffer.length then .submitted (handleSendSubmission buffer ctx.clientFd ctx.pt)
    else .exits ctx.pt

/-- `async_io_send_buffer` submits a copy of the buffer. -/
def asyncIoSendBuffer (buffer : Bytes) (clientFd : ℕ) (pt : π) : SendContext π :=
  handleSendSubmission buffer clientFd (some pt)

/-! ## Rounds -/

inductive SendEvent (π : Type)
  | took (bytes : Bytes)
  | resumed (pt : π)

def taken : List (SendEvent π) → Bytes
  | [] => []
  | .took bytes :: es => bytes ++ taken es
  | .resumed _ :: es => taken es

def resumptions : List (SendEvent π) → List π
  | [] => []
  | .took _ :: es => resumptions es
  | .resumed pt :: es => pt :: resumptions es

structure SendState (π : Type) where
  inFlight : Option (SendContext π)
  events : List (SendEvent π)

def sendStart (buffer : Bytes) (clientFd : ℕ) (pt : π) : SendState π :=
  ⟨some (asyncIoSendBuffer buffer clientFd pt), []⟩

/-- The kernel takes between one byte and all that was submitted. -/
def sendStep (s : SendState π) (res : ℕ) : Option (SendState π) :=
  match s.inFlight with
  | none => none
  | some ctx =>
    if 1 ≤ res ∧ res ≤ ctx.buffer.length then
      let events := s.events ++ [.took (ctx.buffer.take res)]
      match handleSendCompletion res ctx with
      | .submitted ctx => some ⟨some ctx, events⟩
      | .exits pt => some ⟨none, events ++ pt.toList.map .resumed⟩
    else none

theorem taken_append (as bs : List (SendEvent π)) : taken (as ++ bs) = taken as ++ taken bs := by
  induction as with
  | nil => rfl
  | cons e as ih => cases e <;> simp [taken, ih]

theorem resumptions_append (as bs : List (SendEvent π)) :
    resumptions (as ++ bs) = resumptions as ++ resumptions bs := by
  induction as with
  | nil => rfl
  | cons e as ih => cases e <;> simp [resumptions, ih]

/-- After `rounds` completions: what was taken and what is in flight make up the buffer, and the
waiter has been resumed only if nothing is in flight, after the last byte. -/
structure Conveyed (buffer : Bytes) (clientFd : ℕ) (pt : π) (rounds : ℕ) (s : SendState π) :
    Prop where
  sending : ∀ ctx ∈ s.inFlight, ctx.buffer ≠ [] ∧ ctx.clientFd = clientFd ∧ ctx.pt = some pt ∧
    taken s.events ++ ctx.buffer = buffer ∧ rounds + ctx.buffer.length ≤ buffer.length ∧
    resumptions s.events = []
  done : s.inFlight = none → taken s.events = buffer ∧ rounds ≤ buffer.length ∧
    ∃ before, s.events = before ++ [.resumed pt] ∧ resumptions before = []

theorem conveyed_start {buffer : Bytes} (clientFd : ℕ) (pt : π) (h : buffer ≠ []) :
    Conveyed buffer clientFd pt 0 (sendStart buffer clientFd pt) := by
  constructor
  · intro ctx hctx
    cases hctx
    exact ⟨h, rfl, rfl, rfl, (Nat.zero_add _).le, rfl⟩
  · intro hnone
    cases hnone

section
variable {buffer : Bytes} {clientFd : ℕ} {pt : π} {rounds : ℕ} {s t : SendState π}

theorem handleSendCompletion_eq {res : ℕ} (ctx : SendContext π) (h : res ≤ ctx.buffer.length) :
    handleSendCompletion res ctx =
      if ctx.buffer.drop res = [] then .exits ctx.pt
      else .submitted ⟨ctx.buffer.drop res, ctx.clientFd, ctx.pt⟩ := by
  have hres : ¬ (res : ℤ) < 0 := not_lt.mpr (Int.natCast_nonneg res)
  simp only [handleSendCompletion, hres, if_false, sdsrange_from h, handleSendSubmission]
  by_cases hdrop : ctx.buffer.drop res = []
  · simp [hdrop]
  · rw [if_neg hdrop, if_pos (List.length_pos_iff.mpr hdrop)]

/-- A round moves the bytes taken out of the buffer in flight, which gets shorter. -/
theorem conveyed_step (h : Conveyed buffer clientFd pt rounds s) {res : ℕ}
    (hs : sendStep s res = some t) : Conveyed buffer clientFd pt (rounds + 1) t := by
  unfold sendStep at hs
  cases hctx : s.inFlight with
  | none => rw [hctx] at hs; cases hs
  | some ctx =>
    obtain ⟨hne, hfd, hpt, hsplit, hlen, hno⟩ := h.sending ctx hctx
    rw [hctx] at hs
    dsimp only at hs
    split_ifs at hs with hres
    rw [handleSendCompletion_eq ctx hres.2] at hs
    have hcut := List.take_append_drop res ctx.buffer
    have hlen' := List.length_drop (l := ctx.buffer) (i := res)
    by_cases hdrop : ctx.buffer.drop res = []
    · rw [if_pos hdrop] at hs
      cases hs
      rw [hdrop, List.append_nil] at hcut
      refine ⟨fun ctx hctx => (by cases hctx), fun _ => ⟨?_, by omega, _, by rw [hpt]; rfl, ?_⟩⟩
      · rw [hpt, taken_append, taken_append, hcut]
        simpa [taken] using hsplit
      · simp [resumptions_append, hno, resumptions]
    · rw [if_neg hdrop] at hs
      cases hs
      refine ⟨fun ctx' hctx' => ?_, fun hnone => (by cases hnone)⟩
      cases hctx'
      refine ⟨hdrop, hfd, hpt, ?_, by dsimp only; omega, ?_⟩
      · rw [taken_append, ← hsplit]
        simp [taken]
      · simp [resumptions_append, hno, resumptions]

theorem conveyed_run (h : Conveyed buffer clientFd pt rounds s) {rs : List ℕ}
    (hs : run sendStep s rs = some t) : Conveyed buffer clientFd pt (rounds + rs.length) t := by
  induction rs generalizing s rounds with
  | nil =>
    cases hs
    exact h
  | cons r rs ih =>
    cases hu : sendStep s r with
    | none => simp [run, hu] at hs
    | some u =>
      rw [run_cons rs hu] at hs
      have hrest := ih (conveyed_step h hu) hs
      rwa [List.length_cons, Nat.add_comm rs.length, ← Nat.add_assoc]

theorem sendStep_isSome {ctx : SendContext π} (hctx : s.inFlight = some ctx) {res : ℕ}
    (hpos : 1 ≤ res) (hle : res ≤ ctx.buffer.length) : (sendStep s res).isSome := by
  unfold sendStep
  rw [hctx]
  dsimp only
  rw [if_pos ⟨hpos, hle⟩]
  cases handleSendCompletion res ctx <;> rfl

end

/-- For every buffer and every way the kernel splits it, nothing is lost or sent twice: at any
time what was taken and what is in flight make up the buffer, each round shortens it, and the
waiter is resumed exactly once, after the last byte. -/
theorem sends_all {buffer : Bytes} (hne : buffer ≠ []) (clientFd : ℕ) (pt : π) {rs : List ℕ}
    {s : SendState π} (hs : run sendStep (sendStart buffer clientFd pt) rs = some s) :
    Conveyed buffer clientFd pt rs.length s ∧
      ∀ ctx ∈ s.inFlight, ∀ res, 1 ≤ res → res ≤ ctx.buffer.length → (sendStep s res).isSome := by
  have hconveyed := conveyed_run (conveyed_start clientFd pt hne) hs
  rw [Nat.zero_add] at hconveyed
  exact ⟨hconveyed, fun ctx hctx res hpos hle => sendStep_isSome hctx hpos hle⟩

theorem sends_three_bytes :
    Conveyed [1, 2, 3] 5 9 2 ⟨none, [.took [1], .took [2, 3], .resumed 9]⟩ ∧
      ∀ ctx ∈ (none : Option (SendContext ℕ)), ∀ res, 1 ≤ res → res ≤ ctx.buffer.length →
        (sendStep ⟨none, [.took [1], .took [2, 3], .resumed 9]⟩ res).isSome :=
  sends_all (by decide) 5 9
    (show run sendStep (sendStart [1, 2, 3] 5 9) [1, 2] =
      some ⟨none, [.took [1], .took [2, 3], .resumed 9]⟩ from rfl)

/-! ## In the event loop -/

/-- The completion of the event loop: the rest is submitted for the same coroutine, or the
coroutine that waits goes on. -/
theorem eventLoop_handleSendCompletion (s : LoopState) (buffer : Bytes) (pt : Coroutine)
    (c : Completion) (h : c.res ≤ buffer.length) :
    EventLoop.handleSendCompletion s buffer pt c =
      match handleSendCompletion c.res ⟨buffer, pt.client.fd, some pt⟩ with
      | .submitted ctx => EventLoop.handleSendSubmission s ctx.buffer pt
      | .exits _ => afterSendBuffer s pt c.pipe := by
  by_cases hneg : c.res < 0
  · simp [EventLoop.handleSendCompletion, handleSendCompletion, hneg]
  · obtain ⟨k, hk⟩ := Int.eq_ofNat_of_zero_le (not_lt.mp hneg)
    rw [hk] at h
    have hle : k ≤ buffer.length := by exact_mod_cast h
    rw [hk, handleSendCompletion_eq _ hle]
    simp only [EventLoop.handleSendCompletion, hk]
    by_cases hdrop : buffer.drop k = []
    · simp [hdrop]
    · simp [hdrop]

end Cerverus.PartialSends
