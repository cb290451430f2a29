import Cerverus.Response
import Cerverus.SpliceAll

/-!
# The declared length

`route_callback_send_file` prints the 64-bit size as a signed number, `async_io_sendfile` stores
the same size in the `unsigned int` field `nbytes`. What a transfer then drains if the kernel
always moves all it is asked for.
-/
namespace Cerverus.SpliceAll
open Http

/-- The transfer goes on by whole requests until it resumes the coroutine. -/
inductive Completes : Transfer → Transfer → Prop
  | resumed {s : Transfer} : s.resumed = true → Completes s s
  | moved {s t u : Transfer} : step s (requested s) = some t → Completes t u → Completes s u

/-- A fill is next, into an empty pipe. -/
structure Filling (s : Transfer) : Prop where
  running : s.resumed = false
  filling : s.ctx.isDraining = false
  empty : s.ctx.inPipe = 0

/-- The bytes drained before the coroutine is resumed are the size, and the header says so. -/
def LengthsAgree (fdIn fdOut : ℕ) (pipe : ℕ × ℕ) (stxSize : UInt64) : Prop :=
  ∃ t, Completes (start (sendfileContext fdIn fdOut stxSize pipe)) t ∧
    t.drained = stxSize.toNat ∧
    ∀ name res, fileResponse name stxSize = some res →
      ⟨contentLengthName, decimal t.drained⟩ ∈ res.headers

section
variable {s t u : Transfer}

theorem completes_unique (ht : Completes s t) (hu : Completes s u) : t = u := by
  induction ht with
  | resumed hres =>
    cases hu with
    | resumed _ => rfl
    | moved hstep _ => rw [step_not_resumed hstep] at hres; cases hres
  | moved hstep _ ih =>
    cases hu with
    | resumed hres => rw [step_not_resumed hstep] at hres; cases hres
    | moved hstep' hu =>
      rw [hstep] at hstep'
      cases hstep'
      exact ih hu

theorem step_requested (h : s.resumed = false) : (step s (requested s)).isSome := by
  simp [step, h]

/-- A fill and a drain of all it brought: a chunk of at most `SPLICE_MAX_SIZE`. -/
theorem filling_round (h : Filling s) :
    ∃ m t, step s (requested s) = some m ∧ step m (requested m) = some t ∧
      t.ctx.nbytes.toNat = s.ctx.nbytes.toNat - min s.ctx.nbytes.toNat 65536 ∧
      t.drained = s.drained + min s.ctx.nbytes.toNat 65536 ∧
      (t.resumed = true ↔ t.ctx.nbytes = 0) ∧ (t.resumed = false → Filling t) := by
  have hempty : s.ctx.inPipe.toNat = 0 := by rw [h.empty]; rfl
  have hreq : requested s = min s.ctx.nbytes.toNat 65536 := by
    rw [requested_fill h.filling, fillLength_of_le (by omega), hempty, Nat.sub_zero]
  obtain ⟨m, hm⟩ := Option.isSome_iff_exists.mp (step_requested h.running)
  obtain ⟨_, hmres, hmdrain, _, hmn, hmp, hmoves⟩ := step_fill hm h.filling
  have hlt := s.ctx.nbytes.toNat_lt
  have hmn' : m.ctx.nbytes.toNat = s.ctx.nbytes.toNat - min s.ctx.nbytes.toNat 65536 := by
    rw [hmn, UInt32.toNat_sub, UInt32.toNat_ofNat', hreq]
    omega
  have hmp' : m.ctx.inPipe.toNat = min s.ctx.nbytes.toNat 65536 := by
    rw [hmp, UInt64.toNat_add, UInt64.toNat_ofNat', hreq, hempty]
    omega
  have hmreq : requested m = min s.ctx.nbytes.toNat 65536 := by
    rw [requested_drain hmdrain, hmp']
    omega
  obtain ⟨t, ht⟩ := Option.isSome_iff_exists.mp (step_requested hmres)
  obtain ⟨_, _, htn, htp, htmoves, hresumed, hfill⟩ := step_drain ht hmdrain
  have htp' : t.ctx.inPipe = 0 := by
    rw [htp, hmreq, ← hmp', UInt64.ofNat_toNat, sub_self]
  refine ⟨m, t, hm, ht, by rw [htn, hmn'], ?_, ?_, fun hres => ⟨hres, hfill hres, htp'⟩⟩
  · rw [Transfer.drained, htmoves, hmoves, hmreq]
    simp [Transfer.drained, Move.drained]
  · rw [hresumed, htp']
    simp

theorem filling_completes (h : Filling s) :
    ∃ t, Completes s t ∧ t.drained = s.drained + s.ctx.nbytes.toNat := by
  induction hsize : s.ctx.nbytes.toNat using Nat.strong_induction_on generalizing s with
  | _ n ih =>
    obtain ⟨m, t, hm, ht, hn, hdrained, hresumed, hfill⟩ := filling_round h
    by_cases hsmall : n ≤ 65536
    · have hzero : t.ctx.nbytes = 0 := by
        rw [← UInt32.toNat_inj, hn, hsize, min_eq_left hsmall, Nat.sub_self]
        rfl
      refine ⟨t, .moved hm (.moved ht (.resumed (hresumed.mpr hzero))), ?_⟩
      rw [hdrained, hsize, min_eq_left hsmall]
    · have hrunning : t.resumed = false := by
        by_contra hres
        have hzero := hresumed.mp (by simpa using hres)
        have hnone : t.ctx.nbytes.toNat = 0 := by rw [hzero]; rfl
        omega
      obtain ⟨u, hu, hdrained'⟩ := ih t.ctx.nbytes.toNat (by omega) (hfill hrunning) rfl
      exact ⟨u, .moved hm (.moved ht hu), by omega⟩

end

/-- The coroutine is resumed after the size modulo `2 ^ 32`. -/
theorem sendfile_completes (fdIn fdOut : ℕ) (pipe : ℕ × ℕ) (stxSize : UInt64) :
    ∃ t, Completes (start (sendfileContext fdIn fdOut stxSize pipe)) t ∧
      t.drained = stxSize.toNat % 2 ^ 32 := by
  obtain ⟨t, ht, hdrained⟩ := filling_completes
    (s := start (sendfileContext fdIn fdOut stxSize pipe)) ⟨rfl, rfl, rfl⟩
  refine ⟨t, ht, ?_⟩
  rw [hdrained]
  simp [start, Transfer.drained, sendfileContext]

theorem fileResponse_contentLength {name : Bytes} {stxSize : UInt64} {res : Response}
    (h63 : stxSize.toNat < 2 ^ 63) (h : fileResponse name stxSize = some res) :
    ⟨contentLengthName, decimal stxSize.toNat⟩ ∈ res.headers := by
  simp only [fileResponse, Option.bind_eq_bind, Option.bind_eq_some_iff, Option.some.injEq] at h
  obtain ⟨type, _, rfl⟩ := h
  have hsize : stxSize.toInt64.toInt = (stxSize.toNat : ℤ) := by
    change stxSize.toBitVec.toInt = (stxSize.toBitVec.toNat : ℤ)
    exact BitVec.toInt_eq_toNat_of_lt (by change 2 * stxSize.toNat < _; omega)
  rw [hsize]
  exact List.mem_append_right _ (List.mem_singleton_self _)

/-- For every size below `2 ^ 63`, as many bytes as the header declares are drained before the
coroutine is resumed if and only if the size fits into `nbytes`. -/
theorem lengthsAgree_iff (fdIn fdOut : ℕ) (pipe : ℕ × ℕ) {stxSize : UInt64}
    (h63 : stxSize.toNat < 2 ^ 63) :
    LengthsAgree fdIn fdOut pipe stxSize ↔ stxSize.toNat < 2 ^ 32 := by
  obtain ⟨t, ht, hdrained⟩ := sendfile_completes fdIn fdOut pipe stxSize
  constructor
  · intro hex
    obtain ⟨u, hu, hsize, _⟩ := hex
    rw [completes_unique hu ht, hdrained] at hsize
    omega
  · intro h32
    have hsize : t.drained = stxSize.toNat := by omega
    exact ⟨t, ht, hsize, fun name res hres => hsize ▸ fileResponse_contentLength h63 hres⟩

theorem lengthsAgree_largest : LengthsAgree 5 6 (7, 8) (2 ^ 32 - 1) :=
  (lengthsAgree_iff 5 6 (7, 8) (by decide)).mpr (by decide)

/-- Of a file of 4 GiB nothing is drained. -/
theorem lengthsDisagree_4GiB :
    (∃ t, Completes (start (sendfileContext 5 6 (2 ^ 32) (7, 8))) t ∧ t.drained = 0) ∧
      ¬ LengthsAgree 5 6 (7, 8) (2 ^ 32) := by
  obtain ⟨t, ht, hdrained⟩ := sendfile_completes 5 6 (7, 8) (2 ^ 32)
  have hzero : t.drained = 0 := hdrained.trans (by decide)
  refine ⟨⟨t, ht, hzero⟩, fun hex => ?_⟩
  obtain ⟨u, hu, hsize, _⟩ := hex
  rw [completes_unique hu ht, hzero] at hsize
  revert hsize
  decide

end Cerverus.SpliceAll
