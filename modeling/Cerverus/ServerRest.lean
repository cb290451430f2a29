import Cerverus.Descriptors
import Cerverus.GuardedRun
import Cerverus.LoopReplies
import Cerverus.Stranded

/-!
# How long the server can stay busy

Between two accepted connections the loop has only so much to do: a request waits for at most
`MAX_HEADER_BYTES` bytes, a response has a short header, and a transfer moves each byte of the
file into the pipe and out of it once. So if the kernel moves bytes whenever it is asked to,
the number of completions is bounded by the number of connections.
-/
namespace Cerverus.EventLoop
open Hash Lru Http SpliceAll GuardedRun

/-! ## The length of a response header -/

/-- The header of a file's response is never longer. -/
def maxResponseBytes : ℕ := 97

theorem length_cString (s : Bytes) : (cString s).length ≤ s.length :=
  (List.takeWhile_sublist _).length_le

theorem length_contentTypeValHelper (ext : Bytes) : (contentTypeValHelper ext).length ≤ 24 := by
  have htable : ∀ e ∈ contentTypes, e.2.length ≤ 24 := by decide
  unfold contentTypeValHelper
  cases hfind : contentTypes.find? fun e => e.1 == ext with
  | none => decide
  | some e => exact htable e (List.mem_of_find?_eq_some hfind)

theorem length_decimal {n : ℤ} (h : n.natAbs < 10 ^ 19) : (decimal n).length ≤ 20 := by
  have hdigits := Nat.toDigits_length 10 n.natAbs 19 (by decide) h
  unfold decimal
  split_ifs <;> simp only [List.length_cons, List.length_map] <;> omega

theorem length_contentLength (stxSize : UInt64) :
    (decimal stxSize.toInt64.toInt).length ≤ 20 := by
  apply length_decimal
  have hlo := stxSize.toInt64.le_toInt
  have hhi := stxSize.toInt64.toInt_lt
  omega

theorem length_responseSerialize {name : Bytes} {stxSize : UInt64} {res : Response}
    (h : fileResponse name stxSize = some res) :
    (responseSerialize res).length ≤ maxResponseBytes := by
  simp only [fileResponse, Option.bind_eq_bind, Option.bind_eq_some_iff, Option.some.injEq] at h
  obtain ⟨ext, _, rfl⟩ := h
  have htype := (length_cString _).trans (length_contentTypeValHelper ext)
  have hlength := (length_cString _).trans (length_contentLength stxSize)
  have hline : (cString (serializeHttpVersion .v1p1) ++ [32] ++ decimal 200 ++ [32] ++
      cString okPhrase ++ crlf).length = 17 := by decide
  have hnames : (cString contentTypeName).length = 12 ∧
      (cString contentLengthName).length = 14 := by decide
  simp only [responseSerialize, responseAddHeader, responseCreate, serializeHeader,
    List.nil_append, List.map_append, List.map_cons, List.map_nil, List.flatten_append,
    List.flatten_cons, List.flatten_nil, List.length_append, Option.getD_none, hnames] at *
  simp only [maxResponseBytes, crlf, List.length_cons, List.length_nil] at *
  omega

/-! ## Weights -/

/-- `nbytes` is 32 bits wide. -/
def maxTransferBytes : ℕ := 2 ^ 32 - 1

/-- What is left of a transfer: bytes count twice before they are in the pipe. -/
def transferWork (ctx : SpliceAllContext) : ℕ :=
  2 * (2 * ctx.nbytes.toNat + ctx.inPipe.toNat) + if ctx.isDraining then 0 else 1

/-- A response from the suspension of its `send` on. -/
def responseWork (length : ℕ) (stxSize : UInt64) : ℕ := length + 4 * stxSize.toUInt32.toNat + 4

def maxResponseWork : ℕ := maxResponseBytes + 4 * maxTransferBytes + 4

/-- An `openat` is followed by a `statx`, that by a response and by the `close` of a file that
is evicted. -/
def openWork : ℕ := maxResponseWork + 3

/-- How many completions an operation can lead to. -/
def Context.work : Context → ℕ
  | .accept => 1
  | .recv _ buffer => (maxHeaderBytes - buffer.content.length) + 2 * openWork + 1
  | .openat _ => openWork
  | .statx _ => maxResponseWork + 2
  | .send buffer pt => responseWork buffer.length pt.file.stxSize
  | .spliceAll ctx _ => transferWork ctx + 2
  | .close _ _ => 1

def workOf (ctxs : List Context) : ℕ := (ctxs.map Context.work).sum

def connectionWork : ℕ := maxHeaderBytes + 2 * openWork + 2

/-- A completion that moves bytes where bytes are asked for: a fill does not bring more than
`nbytes`, and only an empty transfer is filled or drained by nothing. -/
def MovesBytes (ctx : Context) (c : Completion) : Prop :=
  match ctx with
  | .send _ _ => c.res ≠ 0
  | .spliceAll ctx _ => 0 ≤ c.res →
    if ctx.isDraining then c.res = 0 → ctx.inPipe = 0 ∧ ctx.nbytes = 0
    else c.res ≤ ctx.nbytes.toNat ∧ (c.res = 0 → ctx.nbytes = 0)
  | _ => True

instance decidableMovesBytes (c : Completion) : (ctx : Context) → Decidable (MovesBytes ctx c)
  | .send _ _ => inferInstanceAs (Decidable (c.res ≠ 0))
  | .spliceAll ctx _ =>
    inferInstanceAs (Decidable (0 ≤ c.res →
      if ctx.isDraining then c.res = 0 → ctx.inPipe = 0 ∧ ctx.nbytes = 0
      else c.res ≤ ctx.nbytes.toNat ∧ (c.res = 0 → ctx.nbytes = 0)))
  | .accept | .recv _ _ | .openat _ | .statx _ | .close _ _ => inferInstanceAs (Decidable True)

def KeepsMoving (s : LoopState) (c : Completion) : Prop :=
  ∀ ctx ∈ s.inFlight[c.index]?, MovesBytes ctx c

instance decidableKeepsMoving (s : LoopState) (c : Completion) : Decidable (KeepsMoving s c) :=
  match h : s.inFlight[c.index]? with
  | none => .isTrue fun ctx hctx => by simp [h] at hctx
  | some ctx =>
    decidable_of_iff (MovesBytes ctx c)
      ⟨fun hm ctx' hctx' => by rw [h] at hctx'; exact Option.some.inj hctx' ▸ hm,
        fun hall => hall ctx h⟩

theorem workOf_append (as bs : List Context) : workOf (as ++ bs) = workOf as + workOf bs := by
  simp [workOf]

theorem workOf_singleton (ctx : Context) : workOf [ctx] = ctx.work := by
  simp [workOf]

theorem workOf_perm {as bs : List Context} (h : as.Perm bs) : workOf as = workOf bs :=
  (h.map Context.work).sum_eq

/-! ## What each completion uses up -/

section
variable {rtr : Router} {nextConn : ℕ} {c : Completion} {ctx : Context} {ctxs : List Context}
  {label : OpenFileLabel} {pt : Coroutine} {pts : List Coroutine} {cache cache' : LruCache FileT}

theorem work_response {name : Bytes} {stxSize : UInt64} {res : Response}
    (h : fileResponse name stxSize = some res) :
    responseWork (responseSerialize res).length stxSize ≤ maxResponseWork := by
  have hlength := length_responseSerialize h
  have hsize := stxSize.toUInt32.toNat_lt
  unfold responseWork maxResponseWork maxTransferBytes
  omega

theorem work_closeEvicted (evicted : Option FileT) : workOf (closeEvicted evicted) ≤ 1 := by
  cases evicted with
  | none => simp [closeEvicted, workOf]
  | some file => simp [closeEvicted, workOf, Context.work]

/-- What a coroutine may still need from an entry of `async_io_open_file` on. -/
def OpenFileLabel.work : OpenFileLabel → ℕ
  | .start => openWork
  | .afterOpenat => maxResponseWork + 2
  | .afterStatx => maxResponseWork + 1

theorem work_proceeds (h : Proceeds cache label pt cache' ctxs) : workOf ctxs ≤ label.work := by
  cases h with
  | hit hget hres =>
    have hsend := work_response hres
    rw [workOf_singleton]
    cases label <;> simp only [OpenFileLabel.work, Context.work, openWork] <;> omega
  | start hget hname => rw [workOf_singleton]; exact le_rfl
  | opened hget => rw [workOf_singleton]; exact le_rfl
  | @added _ _ r _ hget hadd hres =>
    have hsend := work_response hres
    have hclose := work_closeEvicted r.evicted
    rw [workOf_append, workOf_singleton]
    simp only [OpenFileLabel.work, Context.work]
    omega

theorem work_proceedAll (h : ProceedAll cache pts cache' ctxs) :
    workOf ctxs ≤ pts.length * openWork := by
  induction h with
  | nil => simp [workOf]
  | cons first _ ih =>
    have hfirst : _ ≤ openWork := work_proceeds first
    rw [workOf_append, List.length_cons, Nat.add_mul, Nat.one_mul]
    omega

theorem length_started {request : Request} {client : Client} {hit : Bool} (memory : FileT)
    (h : publicHit rtr request = some hit) :
    (fileCoroutines request client hit ++
      handlerCoroutines rtr request client memory).length ≤ 2 := by
  have hfiles : (fileCoroutines request client hit).length ≤ 1 := by
    unfold fileCoroutines
    cases hit with
    | false => split_ifs <;> simp_all
    | true => simp [not_index_of_hit h]
  have hhandler : (handlerCoroutines rtr request client memory).length ≤ 1 := by
    unfold handlerCoroutines
    split_ifs <;> simp
  rw [List.length_append]
  omega

theorem work_splice {ctx : SpliceAllContext} (hmoves : MovesBytes (.spliceAll ctx pt) c)
    (hallow : c.res ≤ (SpliceAll.handleSpliceAllSubmission ctx).nbytes.toNat)
    (hmore : (SpliceAll.handleSpliceAllCompletion c.res ctx).2 = false) :
    transferWork (SpliceAll.handleSpliceAllCompletion c.res ctx).1 + 1 ≤ transferWork ctx := by
  by_cases hres : c.res < 0
  · simp [SpliceAll.handleSpliceAllCompletion, hres] at hmore
  · have hmoves := hmoves (not_lt.mp hres)
    obtain ⟨r, hr⟩ := Int.eq_ofNat_of_zero_le (not_lt.mp hres)
    rw [hr] at hmoves hallow hmore ⊢
    cases hd : ctx.isDraining with
    | false =>
      obtain ⟨hle, hzero⟩ : (r : ℤ) ≤ ctx.nbytes.toNat ∧ ((r : ℤ) = 0 → ctx.nbytes = 0) := by
        simpa [hd] using hmoves
      rw [handleSpliceAllCompletion_fill r hd]
      simp only [transferWork, hd, if_true, Bool.false_eq_true, if_false]
      have hn : (ctx.nbytes - UInt32.ofNat r).toNat = ctx.nbytes.toNat - r := by
        rw [UInt32.toNat_sub, UInt32.toNat_ofNat']
        have := ctx.nbytes.toNat_lt
        omega
      have hp : (ctx.inPipe + UInt64.ofNat r).toNat ≤ ctx.inPipe.toNat + r := by
        rw [UInt64.toNat_add, UInt64.toNat_ofNat']
        omega
      omega
    | true =>
      obtain hzero : (r : ℤ) = 0 → ctx.inPipe = 0 ∧ ctx.nbytes = 0 := by
        simpa [hd] using hmoves
      have hle : r ≤ ctx.inPipe.toNat := by
        simp only [SpliceAll.handleSpliceAllSubmission, hd, if_true, UInt64.toNat_toUInt32,
          Nat.cast_le] at hallow
        omega
      rw [handleSpliceAllCompletion_drain r hd] at hmore ⊢
      have hp : (ctx.inPipe - UInt64.ofNat r).toNat = ctx.inPipe.toNat - r := by
        rw [UInt64.toNat_sub, UInt64.toNat_ofNat']
        have := ctx.inPipe.toNat_lt
        omega
      have hpos : r ≠ 0 := by
        rintro rfl
        obtain ⟨hempty, hnone⟩ := hzero rfl
        simp [hempty, hnone] at hmore
      split_ifs at hmore ⊢
      simp only [transferWork, hd, if_true, Bool.false_eq_true, if_false]
      omega

/-- A completion leads to less than the operation it answers, but for a new connection. -/
theorem work_reply (hreply : Reply rtr nextConn cache c ctx cache' ctxs)
    {opened : ℕ → Option Handle} (hallow : Allows opened ctx c) (hmoves : MovesBytes ctx c) :
    1 + workOf ctxs ≤ ctx.work + ctx.admits c * connectionWork := by
  cases hreply with
  | acceptFailed => simp [workOf, Context.work]
  | accepted hres =>
    have hfirst : firstBuffer.content = [] := rfl
    simp only [workOf, Context.work, Context.admits, not_lt.mpr hres, if_false, List.map_cons,
      List.map_nil, List.sum_cons, List.sum_nil, hfirst, List.length_nil, connectionWork]
    omega
  | dropped => simp [workOf, Context.work, Context.admits]
  | @recvMore client buffer buffer' hpos hout =>
    obtain ⟨hcontent, hshort⟩ := Http.content_waiting hout
    obtain ⟨hbytes, _⟩ := hallow hpos
    rw [hcontent, List.length_append] at hshort
    rw [workOf_singleton]
    simp only [Context.work, hcontent, List.length_append]
    omega
  | @routed client buffer request hit _ ctxs hpos hout hhit hall =>
    have hwork := work_proceedAll hall
    have hcount : (fileCoroutines request client hit ++
        handlerCoroutines rtr request client c.memory).length ≤ 2 := length_started c.memory hhit
    have hmul := Nat.mul_le_mul_right openWork hcount
    simp only [Context.work, Context.admits]
    omega
  | openFailed hres hp =>
    have hwork : _ ≤ maxResponseWork + 2 := work_proceeds hp
    simp only [Context.work, openWork]
    omega
  | opened hres hp =>
    have hwork : _ ≤ maxResponseWork + 2 := work_proceeds hp
    simp only [Context.work, openWork]
    omega
  | statx hp =>
    have hwork : _ ≤ maxResponseWork + 1 := work_proceeds hp
    simp only [Context.work]
    omega
  | sendMore hres hdrop =>
    have hpos : c.res ≠ 0 := hmoves
    have hrest := List.length_pos_iff.mpr hdrop
    rw [List.length_drop] at hrest
    rw [workOf_singleton]
    simp only [Context.work, responseWork, List.length_drop]
    omega
  | sent hcb hover =>
    rw [workOf_singleton]
    simp only [Context.work, responseWork, transferWork, sendfileContext, UInt64.toNat_zero,
      Bool.false_eq_true, if_false]
    omega
  | spliceMore hmore =>
    have hless := work_splice hmoves hallow hmore
    rw [workOf_singleton]
    simp only [Context.work]
    omega
  | splicedFile hdone hcb =>
    rw [workOf_singleton]
    simp only [Context.work]
    omega
  | closed => simp [workOf, Context.work]

end

/-! ## Runs -/

section
variable {rtr : Router} {s t : LoopState} {c : Completion}

/-- The step lemma: a completion is paid for by the operation it answers, or by the connection
it adds. -/
theorem work_step (hmoves : KeepsMoving s c) (h : step rtr s c = some t) :
    1 + workOf t.inFlight + s.nextConn * connectionWork ≤
      workOf s.inFlight + t.nextConn * connectionWork := by
  obtain ⟨rest, ctx, ctxs, hctx, hperm, hallow, hreply, hnew, hnext⟩ := step_reply h
  have hless := work_reply hreply hallow (hmoves ctx hctx)
  have hold := workOf_perm hperm
  rw [workOf_append, workOf_singleton] at hold
  rw [hnew, workOf_append, hnext, hold, Nat.add_mul]
  omega

theorem work_serverStart (others : List ℕ) : workOf (serverStart others).inFlight = 8 := rfl

/-- From any state, a run in which the kernel moves bytes is no longer than what the operations
in flight and the connections it accepts can lead to. -/
theorem length_run_le {cs : List Completion} (hg : Guarded (step rtr) KeepsMoving s cs)
    (hr : run (step rtr) s cs = some t) :
    cs.length + workOf t.inFlight + s.nextConn * connectionWork ≤
      workOf s.inFlight + t.nextConn * connectionWork :=
  length_add_le (fun _ _ _ hmoves h => work_step hmoves h) hg hr

/-- The server comes to rest: with the connections it has accepted, it is through after a number
of completions linear in how many they are. -/
theorem server_comes_to_rest (rtr : Router) (others : List ℕ) {cs : List Completion}
    {t : LoopState} (hg : Guarded (step rtr) KeepsMoving (serverStart others) cs)
    (hr : run (step rtr) (serverStart others) cs = some t) :
    cs.length + workOf t.inFlight ≤ 8 + t.nextConn * connectionWork := by
  have hlength := length_run_le hg hr
  rw [work_serverStart] at hlength
  have hnone : (serverStart others).nextConn = 0 := rfl
  rwa [hnone, Nat.zero_mul, Nat.add_zero] at hlength

/-- The index page takes eight completions and leaves eight accepts waiting. -/
theorem server_comes_to_rest_indexPage :
    ∃ t, run (step bareRouter) (serverStart baseDescriptors) indexPage = some t ∧
      indexPage.length + workOf t.inFlight ≤ 8 + t.nextConn * connectionWork := by
  have hrun : (run (step bareRouter) (serverStart baseDescriptors) indexPage).isSome := by
    decide +kernel
  obtain ⟨t, ht⟩ := Option.isSome_iff_exists.mp hrun
  exact ⟨t, ht, server_comes_to_rest bareRouter baseDescriptors (by decide +kernel) ht⟩

end

end Cerverus.EventLoop
