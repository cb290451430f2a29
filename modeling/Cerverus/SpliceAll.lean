import Cerverus.GuardedRun

/-!
# The splice_all machine

`async_io_sendfile` moves a file into a socket through a pipe: the machine alternates a
fill splice (file to pipe) with a drain splice (pipe to socket) until both `nbytes` and
`in_pipe` are zero. Lengths are computed in C's mixed unsigned arithmetic, kept here as
`UInt32` and `UInt64`. A short drain leaves bytes in the pipe, and the next fill length
`MIN(nbytes, SPLICE_MAX_SIZE) - in_pipe` is then computed without checking that it is
not negative.
-/
namespace Cerverus.SpliceAll
open GuardedRun

def spliceMaxSize : UInt32 := 64 * 1024

structure SpliceAllContext where
  fdIn : ℕ
  fdOut : ℕ
  offIn : UInt64
  pipe : ℕ × ℕ
  nbytes : UInt32
  inPipe : UInt64
  isDraining : Bool
  deriving DecidableEq, Repr

/-- The arguments of `io_uring_prep_splice`; the offset -1 is `none`. -/
structure SpliceRequest where
  fdIn : ℕ
  offIn : Option UInt64
  fdOut : ℕ
  offOut : Option UInt64
  nbytes : UInt32
  deriving DecidableEq, Repr

/-- `MIN(nbytes, SPLICE_MAX_SIZE) - in_pipe`: a `size_t` difference, then an `unsigned int`. -/
def fillLength (ctx : SpliceAllContext) : UInt32 :=
  ((if ctx.nbytes < spliceMaxSize then ctx.nbytes else spliceMaxSize).toUInt64
    - ctx.inPipe).toUInt32

def handleSpliceAllSubmission (ctx : SpliceAllContext) : SpliceRequest :=
  if ctx.isDraining then
    ⟨ctx.pipe.1, none, ctx.fdOut, none, ctx.inPipe.toUInt32⟩
  else
    ⟨ctx.fdIn, some ctx.offIn, ctx.pipe.2, none, fillLength ctx⟩

/-- The updated context, and whether the waiting protothread is resumed (otherwise the
updated context is submitted again). A negative result resumes it through `op_exit`. -/
def handleSpliceAllCompletion (res : ℤ) (ctx : SpliceAllContext) : SpliceAllContext × Bool :=
  if res < 0 then (ctx, true)
  else if ctx.isDraining then
    let inPipe := ctx.inPipe - UInt64.ofNat res.toNat
    if inPipe = 0 ∧ ctx.nbytes = 0 then ({ ctx with inPipe := inPipe }, true)
    else ({ ctx with inPipe := inPipe, isDraining := false }, false)
  else
    ({ ctx with
        nbytes := ctx.nbytes - UInt32.ofNat res.toNat
        inPipe := ctx.inPipe + UInt64.ofNat res.toNat
        isDraining := true }, false)

/-- The context `async_io_sendfile` submits first: `nbytes` takes the 64-bit `stx_size`. -/
def sendfileContext (fdIn fdOut : ℕ) (stxSize : UInt64) (pipe : ℕ × ℕ) : SpliceAllContext :=
  { fdIn := fdIn, fdOut := fdOut, offIn := 0, pipe := pipe, nbytes := stxSize.toUInt32,
    inPipe := 0, isDraining := false }

theorem fillLength_toNat (ctx : SpliceAllContext) :
    (fillLength ctx).toNat =
      (2 ^ 64 - ctx.inPipe.toNat + min ctx.nbytes.toNat 65536) % 2 ^ 64 % 2 ^ 32 := by
  simp only [fillLength, UInt64.toNat_toUInt32, UInt64.toNat_sub, UInt32.toNat_toUInt64,
    UInt32.lt_iff_toNat_lt, show spliceMaxSize.toNat = 65536 from rfl]
  split_ifs with h
  · rw [min_eq_left h.le]
  · rw [min_eq_right (not_lt.mp h)]
    rfl

theorem fillLength_of_le {ctx : SpliceAllContext}
    (h : ctx.inPipe.toNat ≤ min ctx.nbytes.toNat 65536) :
    (fillLength ctx).toNat = min ctx.nbytes.toNat 65536 - ctx.inPipe.toNat := by
  rw [fillLength_toNat]
  omega

/-- With less remaining than in the pipe, the difference wraps to a number near `2 ^ 32`. -/
theorem fillLength_of_lt {ctx : SpliceAllContext} (hp : ctx.inPipe.toNat ≤ 65536)
    (h : ctx.nbytes.toNat < ctx.inPipe.toNat) :
    (fillLength ctx).toNat = 2 ^ 32 - (ctx.inPipe.toNat - ctx.nbytes.toNat) := by
  rw [fillLength_toNat, min_eq_left (by omega)]
  omega

/-! ## The machine driven by kernel results -/

/-- What one completed splice moved. -/
inductive Move
  | fill (start len : ℕ)
  | drain (len : ℕ)
  deriving DecidableEq, Repr

def Move.filled : Move → ℕ
  | .fill _ n => n
  | .drain _ => 0

def Move.drained : Move → ℕ
  | .fill _ _ => 0
  | .drain n => n

/-- The context in flight, whether the coroutine has been resumed, and the splices
completed so far, oldest first. -/
structure Transfer where
  ctx : SpliceAllContext
  resumed : Bool
  moves : List Move
  deriving DecidableEq, Repr

def Transfer.filled (s : Transfer) : ℕ := (s.moves.map Move.filled).sum

def Transfer.drained (s : Transfer) : ℕ := (s.moves.map Move.drained).sum

def requested (s : Transfer) : ℕ := (handleSpliceAllSubmission s.ctx).nbytes.toNat

def start (ctx : SpliceAllContext) : Transfer := ⟨ctx, false, []⟩

def completedMove (ctx : SpliceAllContext) (res : ℕ) : Move :=
  if ctx.isDraining then .drain res else .fill ctx.offIn.toNat res

/-- One completion. The kernel moves at most what was asked, and nothing after the
coroutine has been resumed. -/
def step (s : Transfer) (res : ℕ) : Option Transfer :=
  if s.resumed ∨ requested s < res then none
  else
    let next := handleSpliceAllCompletion res s.ctx
    some ⟨next.1, next.2, s.moves ++ [completedMove s.ctx res]⟩

theorem handleSpliceAllCompletion_fill {ctx : SpliceAllContext} (r : ℕ)
    (h : ctx.isDraining = false) :
    handleSpliceAllCompletion r ctx =
      ({ ctx with
          nbytes := ctx.nbytes - UInt32.ofNat r
          inPipe := ctx.inPipe + UInt64.ofNat r
          isDraining := true }, false) := by
  have hr : ¬ (r : ℤ) < 0 := not_lt.mpr (Int.natCast_nonneg r)
  simp [handleSpliceAllCompletion, h, hr]

theorem handleSpliceAllCompletion_drain {ctx : SpliceAllContext} (r : ℕ)
    (h : ctx.isDraining = true) :
    handleSpliceAllCompletion r ctx =
      if ctx.inPipe - UInt64.ofNat r = 0 ∧ ctx.nbytes = 0 then
        ({ ctx with inPipe := ctx.inPipe - UInt64.ofNat r }, true)
      else ({ ctx with inPipe := ctx.inPipe - UInt64.ofNat r, isDraining := false }, false) := by
  have hr : ¬ (r : ℤ) < 0 := not_lt.mpr (Int.natCast_nonneg r)
  simp [handleSpliceAllCompletion, h, hr]

theorem requested_fill {s : Transfer} (h : s.ctx.isDraining = false) :
    requested s = (fillLength s.ctx).toNat := by
  simp [requested, handleSpliceAllSubmission, h]

theorem requested_drain {s : Transfer} (h : s.ctx.isDraining = true) :
    requested s = s.ctx.inPipe.toNat % 2 ^ 32 := by
  simp [requested, handleSpliceAllSubmission, h]

theorem step_fill {s t : Transfer} {r : ℕ} (h : step s r = some t)
    (hd : s.ctx.isDraining = false) :
    r ≤ (fillLength s.ctx).toNat ∧ t.resumed = false ∧ t.ctx.isDraining = true ∧
      t.ctx.offIn = s.ctx.offIn ∧
      t.ctx.nbytes = s.ctx.nbytes - UInt32.ofNat r ∧
      t.ctx.inPipe = s.ctx.inPipe + UInt64.ofNat r ∧
      t.moves = s.moves ++ [.fill s.ctx.offIn.toNat r] := by
  unfold step at h
  split_ifs at h with hg
  simp only [Option.some.injEq] at h
  rw [requested_fill hd] at hg
  subst t
  rw [handleSpliceAllCompletion_fill r hd]
  simp only [completedMove, hd, Bool.false_eq_true, if_false, and_self, and_true]
  omega

/-- A drain takes its result out of `in_pipe`; it resumes the coroutine when nothing is
left on either side, and turns back to filling otherwise. -/
theorem step_drain {s t : Transfer} {r : ℕ} (h : step s r = some t)
    (hd : s.ctx.isDraining = true) :
    r ≤ s.ctx.inPipe.toNat % 2 ^ 32 ∧ t.ctx.offIn = s.ctx.offIn ∧
      t.ctx.nbytes = s.ctx.nbytes ∧
      t.ctx.inPipe = s.ctx.inPipe - UInt64.ofNat r ∧
      t.moves = s.moves ++ [.drain r] ∧
      (t.resumed = true ↔ t.ctx.inPipe = 0 ∧ t.ctx.nbytes = 0) ∧
      (t.resumed = false → t.ctx.isDraining = false) := by
  unfold step at h
  split_ifs at h with hg
  simp only [Option.some.injEq] at h
  rw [requested_drain hd] at hg
  have hr : r ≤ s.ctx.inPipe.toNat % 2 ^ 32 := by omega
  subst t
  rw [handleSpliceAllCompletion_drain r hd]
  refine ⟨hr, ?_⟩
  by_cases hz : s.ctx.inPipe - UInt64.ofNat r = 0 ∧ s.ctx.nbytes = 0
  · simp [completedMove, hd, hz]
  · simp [completedMove, hd, hz]

theorem step_not_resumed {s t : Transfer} {r : ℕ} (h : step s r = some t) :
    s.resumed = false := by
  unfold step at h
  split_ifs at h with hg
  simpa using fun hr => hg (Or.inl hr)

/-! ## Accounting -/

/-- What the byte counts promise in one state: the fill length in flight fits both the
remaining bytes and the free room of the pipe, no result the kernel may give wraps an
update, and the three counts add up to the initial one. -/
structure Accounted (total : ℕ) (s : Transfer) : Prop where
  fillFits : s.resumed = false → s.ctx.isDraining = false →
    requested s ≤ s.ctx.nbytes.toNat ∧ requested s + s.ctx.inPipe.toNat ≤ 65536
  noWrap : s.resumed = false → ∀ r ≤ requested s,
    if s.ctx.isDraining then r ≤ s.ctx.inPipe.toNat else r ≤ s.ctx.nbytes.toNat
  balance : s.ctx.nbytes.toNat + s.ctx.inPipe.toNat + s.drained = total

/-- The guard on a drain: it leaves no more bytes in the pipe than the file still has to
fill. A fill is never at fault. -/
def DrainKeepsUp (s : Transfer) (r : ℕ) : Prop :=
  s.ctx.isDraining = true → s.ctx.inPipe.toNat - r ≤ s.ctx.nbytes.toNat

instance (s : Transfer) (r : ℕ) : Decidable (DrainKeepsUp s r) :=
  inferInstanceAs (Decidable (_ → _))

/-- The invariant behind `Accounted`: while filling, what is in the pipe is covered by
what remains; while draining, the pipe holds at most `SPLICE_MAX_SIZE`. -/
structure Covered (total : ℕ) (s : Transfer) : Prop where
  pipeBound : s.ctx.inPipe.toNat ≤ 65536
  cover : s.resumed = false → s.ctx.isDraining = false →
    s.ctx.inPipe.toNat ≤ s.ctx.nbytes.toNat
  balance : s.ctx.nbytes.toNat + s.ctx.inPipe.toNat + s.drained = total

theorem covered_start (ctx : SpliceAllContext) (hp : ctx.inPipe = 0) :
    Covered ctx.nbytes.toNat (start ctx) := by
  constructor <;> simp [start, hp, Transfer.drained]

theorem covered_step {total : ℕ} {s t : Transfer} {r : ℕ} (hi : Covered total s)
    (hc : DrainKeepsUp s r) (h : step s r = some t) : Covered total t := by
  have hp := hi.pipeBound
  have hres := step_not_resumed h
  have hbal := hi.balance
  cases hd : s.ctx.isDraining with
  | false =>
    obtain ⟨hr, _, hdt, _, hn, hin, hm⟩ := step_fill h hd
    have hcov := hi.cover hres hd
    rw [fillLength_of_le (by omega)] at hr
    have hn' : t.ctx.nbytes.toNat = s.ctx.nbytes.toNat - r := by
      rw [hn, UInt32.toNat_sub, UInt32.toNat_ofNat']
      have := s.ctx.nbytes.toNat_lt
      omega
    have hin' : t.ctx.inPipe.toNat = s.ctx.inPipe.toNat + r := by
      rw [hin, UInt64.toNat_add, UInt64.toNat_ofNat']
      omega
    have hdr : t.drained = s.drained := by simp [Transfer.drained, hm, Move.drained]
    refine ⟨by omega, by simp [hdt], by omega⟩
  | true =>
    obtain ⟨hr, _, hn, hin, hm, _, _⟩ := step_drain h hd
    have hkeep := hc hd
    have hin' : t.ctx.inPipe.toNat = s.ctx.inPipe.toNat - r := by
      rw [hin, UInt64.toNat_sub, UInt64.toNat_ofNat']
      omega
    have hdr : t.drained = s.drained + r := by simp [Transfer.drained, hm, Move.drained]
    refine ⟨by omega, fun _ _ => ?_, ?_⟩
    · rw [hn, hin']
      exact hkeep
    · rw [hn, hin', hdr]
      omega

theorem accounted_of_covered {total : ℕ} {s : Transfer} (hi : Covered total s) :
    Accounted total s := by
  have hp := hi.pipeBound
  refine ⟨fun hres hd => ?_, fun hres r hr => ?_, hi.balance⟩
  · have hcov := hi.cover hres hd
    rw [requested_fill hd, fillLength_of_le (by omega)]
    omega
  · cases hd : s.ctx.isDraining with
    | false =>
      have hcov := hi.cover hres hd
      rw [requested_fill hd, fillLength_of_le (by omega)] at hr
      simp
      omega
    | true =>
      rw [requested_drain hd] at hr
      simp
      omega

/-- A drain that falls behind is answered by a fill whose length has wrapped. -/
theorem drainKeepsUp_of_accounted {total : ℕ} {s t : Transfer} {r : ℕ} (hi : Covered total s)
    (h : step s r = some t) (ht : Accounted total t) : DrainKeepsUp s r := by
  intro hd
  obtain ⟨hr, _, hn, hin, _, hresumed, hfill⟩ := step_drain h hd
  have hp := hi.pipeBound
  have hin' : t.ctx.inPipe.toNat = s.ctx.inPipe.toNat - r := by
    rw [hin, UInt64.toNat_sub, UInt64.toNat_ofNat']
    omega
  by_contra hlt
  rw [not_le, ← hin', ← hn] at hlt
  have hres : t.resumed = false := by
    by_contra hne
    have hz := hresumed.mp (by simpa using hne)
    rw [hz.1] at hlt
    simp at hlt
  obtain ⟨hle, _⟩ := ht.fillFits hres (hfill hres)
  rw [requested_fill (hfill hres), fillLength_of_lt (by omega) hlt] at hle
  omega

/-- For every size and every sequence of results, the byte accounting of a transfer holds
in every state reached exactly when no drain leaves more in the pipe than the file still
has to fill. -/
theorem accounted_iff_drainKeepsUp (fdIn fdOut : ℕ) (stxSize : UInt64) (pipe : ℕ × ℕ)
    (rs : List ℕ) :
    Along step (Accounted stxSize.toUInt32.toNat)
        (start (sendfileContext fdIn fdOut stxSize pipe)) rs ↔
      Guarded step DrainKeepsUp (start (sendfileContext fdIn fdOut stxSize pipe)) rs :=
  along_iff_guarded (fun _ _ _ hi hc h => covered_step hi hc h)
    (fun _ hi => accounted_of_covered hi)
    (fun _ _ _ hi h ht => drainKeepsUp_of_accounted hi h ht)
    (covered_start (sendfileContext fdIn fdOut stxSize pipe) rfl)

/-- Two bytes filled, one drained: the next fill asks for `2 ^ 32 - 1` bytes although
none remain. -/
theorem accounted_fails_short_last_drain :
    ¬ Along step (Accounted 2) (start (sendfileContext 5 6 2 (7, 8))) [2, 1] := by
  intro h
  have ht := along_run h (t := ⟨⟨5, 6, 0, (7, 8), 0, 1, false⟩, false,
    [.fill 0 2, .drain 1]⟩) rfl
  exact absurd (ht.fillFits rfl rfl).1 (by decide)

end Cerverus.SpliceAll
