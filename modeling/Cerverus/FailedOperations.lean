import Cerverus.ConcurrentOpens

/-!
# Failed operations

After an error `op_exit` resumes the coroutine as after a success, and nothing tells it which
it was. So each failed `openat`, `statx` or `pipe2` is followed by the operation that would
have followed its success.
-/
namespace Cerverus.EventLoop
open Hash Lru Http SpliceAll GuardedRun

/-- A connection has at most one coroutine of each callback. -/
abbrev CoroutineId := ℕ × RouteCallback

def Coroutine.id (pt : Coroutine) : CoroutineId := (pt.client.conn, pt.callback)

/-- A `send` after which `async_io_sendfile` calls `pipe2`. -/
def SendOver (buffer : Bytes) (c : Completion) : Prop :=
  c.res < 0 ∨ buffer.drop c.res.toNat = []

instance decidableSendOver (buffer : Bytes) (c : Completion) : Decidable (SendOver buffer c) :=
  inferInstanceAs (Decidable (_ ∨ _))

def failure (ctx : Context) (c : Completion) : Option Coroutine :=
  match ctx with
  | .openat pt | .statx pt => if c.res < 0 then some pt else none
  | .send buffer pt => if SendOver buffer c ∧ c.pipe = none then some pt else none
  | _ => none

/-- The path and the descriptor of a successful `openat`. -/
def obtains (ctx : Context) (c : Completion) : Option (Bytes × ℕ) :=
  match ctx with
  | .openat pt => if c.res < 0 then none else some (pt.path, c.res.toNat)
  | _ => none

/-- The path, the descriptor and the size of a successful `statx`. -/
def fills (ctx : Context) (c : Completion) : Option (Bytes × ℕ × UInt64) :=
  match ctx with
  | .statx pt => if c.res < 0 then none else some (pt.path, pt.file.fd, c.stxSize)
  | _ => none

/-- How the operations of a run have ended. -/
structure OperationRecord where
  failed : List CoroutineId
  obtained : List (Bytes × ℕ)
  filled : List (Bytes × ℕ × UInt64)

def recordContext (ctx : Context) (c : Completion) (r : OperationRecord) : OperationRecord :=
  { failed := r.failed ++ ((failure ctx c).map Coroutine.id).toList
    obtained := r.obtained ++ (obtains ctx c).toList
    filled := r.filled ++ (fills ctx c).toList }

def recordCompletion (s : LoopState) (c : Completion) (r : OperationRecord) : OperationRecord :=
  match s.inFlight[c.index]? with
  | none => r
  | some ctx => recordContext ctx c r

def recordedStep (rtr : Router) :
    LoopState × OperationRecord → Completion → Option (LoopState × OperationRecord) :=
  watched (step rtr) recordCompletion

def recordedStart (others : List ℕ) : LoopState × OperationRecord :=
  (serverStart others, ⟨[], [], []⟩)

/-- A coroutine with a failure behind it does not go on to a `statx`, a response or a transfer,
and every cached file has a descriptor some `openat` of its path returned and a size some
`statx` of it filled in. -/
structure FailuresStop (w : LoopState × OperationRecord) : Prop where
  stopped : ∀ ctx ∈ w.1.inFlight, ∀ pt ∈ ctx.transfer, pt.id ∉ w.2.failed
  cached : ∀ x e, entryAt w.1.fileCache x = some e → (e.hmapKey, e.data.fd) ∈ w.2.obtained ∧
    (e.hmapKey, e.data.fd, e.data.stxSize) ∈ w.2.filled

/-- The completion is not that of a failed `openat` or `statx`, and no `pipe2` after it fails. -/
def Succeeds (w : LoopState × OperationRecord) (c : Completion) : Prop :=
  (w.1.inFlight[c.index]?.bind fun ctx => failure ctx c) = none

instance decidableSucceeds (w : LoopState × OperationRecord) (c : Completion) :
    Decidable (Succeeds w c) :=
  inferInstanceAs (Decidable (_ = none))

/-- What the record says about the cache and about the coroutines about to add to it. -/
structure Recorded (r : OperationRecord) (cache : LruCache FileT) (ctxs : List Context) : Prop where
  wired : Wired cache
  cached : ∀ x e, entryAt cache x = some e → (e.hmapKey, e.data.fd) ∈ r.obtained ∧
    (e.hmapKey, e.data.fd, e.data.stxSize) ∈ r.filled
  opening : ∀ pt, .statx pt ∈ ctxs → (pt.path, pt.file.fd) ∈ r.obtained

section
variable {r r' : OperationRecord} {cache cache' : LruCache FileT} {ctx : Context}
  {ctxs new : List Context} {label : OpenFileLabel} {pt : Coroutine}

theorem Recorded.mono (h : Recorded r cache ctxs) (hobtained : r.obtained ⊆ r'.obtained)
    (hfilled : r.filled ⊆ r'.filled) : Recorded r' cache ctxs :=
  ⟨h.wired, fun x e he => ⟨hobtained (h.cached x e he).1, hfilled (h.cached x e he).2⟩,
    fun pt hmem => hobtained (h.opening pt hmem)⟩

theorem recorded_submit (h : Recorded r cache ctxs) (hno : ∀ pt, .statx pt ∉ new) :
    Recorded r cache (ctxs ++ new) := by
  refine ⟨h.wired, h.cached, fun pt hmem => ?_⟩
  rcases List.mem_append.mp hmem with hmem | hmem
  · exact h.opening pt hmem
  · exact absurd hmem (hno pt)

theorem recorded_get {path : Bytes} {o : Option (ℕ × FileT)} (h : Recorded r cache ctxs)
    (hget : lruCacheGet cache path = some (o, cache')) : Recorded r cache' ctxs := by
  obtain ⟨hw, hentries, _⟩ := wired_get h.wired hget
  exact ⟨hw, hentries ▸ h.cached, h.opening⟩

theorem recorded_add {res : AddResult FileT} (h : Recorded r cache ctxs)
    (hadd : lruCacheAdd cache pt.path pt.file = some res)
    (hobtained : (pt.path, pt.file.fd) ∈ r.obtained)
    (hfilled : (pt.path, pt.file.fd, pt.file.stxSize) ∈ r.filled) : Recorded r res.cache ctxs := by
  obtain ⟨hw, _, hadded⟩ := wired_add h.wired hadd
  refine ⟨hw, fun x e he => ?_, h.opening⟩
  cases hadded with
  | room hnone hentries =>
    rw [hentries] at he
    split_ifs at he
    · cases he
      exact ⟨hobtained, hfilled⟩
    · exact h.cached x e he
  | evicted tail k file hfile hne htail hentries =>
    rw [hentries] at he
    split_ifs at he
    · cases he
      exact ⟨hobtained, hfilled⟩
    · exact h.cached x e he

theorem recorded_advance (hadv : Advance cache label pt cache' new) (h : Recorded r cache ctxs)
    (hobtained : label ≠ .start → (pt.path, pt.file.fd) ∈ r.obtained)
    (hfilled : label = .afterStatx → (pt.path, pt.file.fd, pt.file.stxSize) ∈ r.filled) :
    Recorded r cache' (ctxs ++ new) := by
  cases hadv with
  | hit get raw => exact recorded_submit (recorded_get h get) fun _ hmem => by simp at hmem
  | start get name => exact recorded_submit (recorded_get h get) fun _ hmem => by simp at hmem
  | opened get =>
    have hget := recorded_get h get
    refine ⟨hget.wired, hget.cached, fun q hmem => ?_⟩
    rcases List.mem_append.mp hmem with hmem | hmem
    · exact hget.opening q hmem
    · cases List.mem_singleton.mp hmem
      exact hobtained fun hl => by cases hl
  | added get add raw =>
    have hadd := recorded_add (recorded_get h get) add (hobtained fun hl => by cases hl)
      (hfilled rfl)
    refine recorded_submit hadd fun q hmem => ?_
    rcases List.mem_append.mp hmem with hmem | hmem
    · simp [closeEvicted] at hmem
    · simp at hmem

theorem recorded_startAll {pts : List Coroutine} (hs : StartAll cache pts cache' new)
    (h : Recorded r cache ctxs) : Recorded r cache' (ctxs ++ new) := by
  induction hs generalizing ctxs with
  | nil => rwa [List.append_nil]
  | cons first rest ih =>
    rw [← List.append_assoc]
    exact ih (recorded_advance first h (absurd rfl) fun hl => by cases hl)

theorem recorded_context (h : Recorded r cache ctxs) (ctx : Context) (c : Completion) :
    Recorded (recordContext ctx c r) cache ctxs :=
  h.mono (List.subset_append_left _ _) (List.subset_append_left _ _)

theorem Recorded.sub (h : Recorded r cache ctxs) {ctxs' : List Context} (hsub : ctxs' ⊆ ctxs) :
    Recorded r cache ctxs' :=
  ⟨h.wired, h.cached, fun pt hmem => h.opening pt (hsub hmem)⟩

end

section
variable {rtr : Router} {r : OperationRecord} {s t : LoopState} {c : Completion} {ctx : Context}
  {pt : Coroutine}

theorem openat_succeeded (h : handleOpenatCompletion s pt c = some t) (hres : 0 ≤ c.res) :
    ∃ cache' ctxs, Advance s.fileCache .afterOpenat
        { pt with file := { pt.file with fd := c.res.toNat } } cache' ctxs ∧
      t.fileCache = cache' ∧ t.inFlight = s.inFlight ++ ctxs := by
  rw [handleOpenatCompletion, if_neg (not_lt.mpr hres)] at h
  obtain ⟨cache', ctxs, hadv, rfl⟩ := asyncIoOpenFile_advance h
  exact ⟨cache', ctxs, hadv, rfl, rfl⟩

/-- A completion that succeeds leaves behind what the record says. -/
theorem recorded_complete (h : Recorded r s.fileCache (s.inFlight ++ [ctx]))
    (hallow : Allows s.opened ctx c) (hc : complete rtr s ctx c = some t)
    (hok : failure ctx c = none) :
    Recorded (recordContext ctx c r) t.fileCache t.inFlight := by
  have hrec := recorded_context h ctx c
  have hrest : Recorded (recordContext ctx c r) s.fileCache s.inFlight :=
    hrec.sub (List.subset_append_left _ _)
  have heff : Effect rtr s c ctx t := complete_effect hallow hc
  cases heff with
  | acceptFailed => exact hrest
  | accepted fd hfd => exact recorded_submit hrest fun _ hmem => by simp at hmem
  | recvDropped => exact hrest
  | recvMore hout => exact recorded_submit hrest fun _ hmem => by simp at hmem
  | routed hres hout hhit hstart => exact recorded_startAll hstart hrest
  | openFailed hres hadv => simp [failure, hres] at hok
  | @opened pt fd cache' ctxs hfd hadv =>
    have hres : 0 ≤ c.res := by simpa [failure] using hok
    obtain ⟨cache₁, ctxs₁, hadv₁, hcache, hctxs⟩ := openat_succeeded hc hres
    rw [hcache, hctxs]
    refine recorded_advance hadv₁ hrest (fun _ => ?_) fun hl => by cases hl
    simp [recordContext, obtains, not_lt.mpr hres]
  | @statx pt cache' ctxs hadv =>
    have hres : 0 ≤ c.res := by simpa [failure] using hok
    refine recorded_advance hadv hrest (fun _ => hrec.opening pt (by simp)) fun _ => ?_
    simp [recordContext, fills, statxResult, not_lt.mpr hres]
  | sendMore => exact recorded_submit hrest fun _ hmem => by simp at hmem
  | sent hcb hpipe => exact recorded_submit hrest fun _ hmem => by simp at hmem
  | spliceMore hfd => exact recorded_submit hrest fun _ hmem => by simp at hmem
  | splicedFile hcb => exact recorded_submit hrest fun _ hmem => by simp at hmem
  | closed => exact hrest

/-- A coroutine that is resumed in its open steps submits another operation at once. -/
theorem advance_goes_on {cache cache' : LruCache FileT} {label : OpenFileLabel}
    {ctxs : List Context} (hadv : Advance cache label pt cache' ctxs) (hne : label ≠ .start) :
    ∃ ctx ∈ ctxs, ∃ q ∈ ctx.transfer, q.id = pt.id := by
  cases hadv with
  | hit get raw => exact ⟨_, List.mem_singleton_self _, _, rfl, rfl⟩
  | start get name => exact absurd rfl hne
  | opened get => exact ⟨_, List.mem_singleton_self _, _, rfl, rfl⟩
  | added get add raw =>
    exact ⟨_, List.mem_append_right _ (List.mem_singleton_self _), _, rfl, rfl⟩

theorem openFile_goes_on {label : OpenFileLabel} (hopen : asyncIoOpenFile s label pt = some t)
    (hne : label ≠ .start) : ∃ ctx ∈ t.inFlight, ∃ q ∈ ctx.transfer, q.id = pt.id := by
  obtain ⟨cache', ctxs, hadv, rfl⟩ := asyncIoOpenFile_advance hopen
  obtain ⟨ctx, hmem, hq⟩ := advance_goes_on hadv hne
  exact ⟨ctx, List.mem_append_right _ hmem, hq⟩

theorem failure_goes_on (hc : complete rtr s ctx c = some t) (hfail : failure ctx c = some pt) :
    ∃ ctx' ∈ t.inFlight, ∃ q ∈ ctx'.transfer, q.id = pt.id := by
  cases ctx with
  | openat q =>
    simp only [failure, Option.ite_none_right_eq_some, Option.some.injEq] at hfail
    obtain ⟨hres, rfl⟩ := hfail
    have hopen : asyncIoOpenFile s .afterOpenat q = some t := by
      simpa [complete, handleOpenatCompletion, hres] using hc
    exact openFile_goes_on hopen fun hl => by cases hl
  | statx q =>
    simp only [failure, Option.ite_none_right_eq_some, Option.some.injEq] at hfail
    obtain ⟨hres, rfl⟩ := hfail
    have hopen : asyncIoOpenFile s .afterStatx (statxResult q c) = some t := hc
    obtain ⟨ctx', hmem, hq⟩ := openFile_goes_on hopen fun hl => by cases hl
    exact ⟨ctx', hmem, hq⟩
  | send buffer q =>
    simp only [failure, Option.ite_none_right_eq_some, Option.some.injEq] at hfail
    obtain ⟨⟨hsent, hpipe⟩, rfl⟩ := hfail
    have ht : afterSendBuffer s q none = some t := by
      have hc' : handleSendCompletion s buffer q c = some t := hc
      rw [← hc', handleSendCompletion, hpipe]
      split_ifs with hres
      · rfl
      · simp [Or.resolve_left hsent hres]
    unfold afterSendBuffer at ht
    split at ht
    · cases ht
      exact ⟨_, List.mem_append_right _ (List.mem_singleton_self _), q, rfl, rfl⟩
    · cases ht
  | accept => cases hfail
  | recv client buffer => cases hfail
  | spliceAll ctx q => cases hfail
  | close fd q => cases hfail

end

structure AllSucceeded (w : LoopState × OperationRecord) : Prop where
  failed : w.2.failed = []
  recorded : Recorded w.2 w.1.fileCache w.1.inFlight

section
variable {rtr : Router} {w w' : LoopState × OperationRecord} {c : Completion}

theorem recordedStep_complete (hs : recordedStep rtr w c = some w') :
    ∃ ctx, w.1.inFlight[c.index]? = some ctx ∧
      w.1.inFlight.Perm (w.1.inFlight.eraseIdx c.index ++ [ctx]) ∧ Allows w.1.opened ctx c ∧
      complete rtr { w.1 with inFlight := w.1.inFlight.eraseIdx c.index } ctx c = some w'.1 ∧
      w'.2 = recordContext ctx c w.2 := by
  obtain ⟨hstep, hnote⟩ := watched_eq_some.mp hs
  obtain ⟨ctx, hget, hperm, hallow, hc⟩ := step_complete hstep
  refine ⟨ctx, hget, hperm, hallow, hc, ?_⟩
  rw [hnote, recordCompletion, hget]

theorem allSucceeded_step (hs : recordedStep rtr w c = some w') (h : AllSucceeded w)
    (hok : Succeeds w c) : AllSucceeded w' := by
  obtain ⟨ctx, hget, hperm, hallow, hc, hnote⟩ := recordedStep_complete hs
  have hnone : failure ctx c = none := by simpa [Succeeds, hget] using hok
  refine ⟨?_, ?_⟩
  · rw [hnote, recordContext, h.failed, hnone]
    rfl
  · have hrec : Recorded w.2 w.1.fileCache (w.1.inFlight.eraseIdx c.index ++ [ctx]) :=
      h.recorded.sub hperm.symm.subset
    rw [hnote]
    exact recorded_complete (s := { w.1 with inFlight := w.1.inFlight.eraseIdx c.index })
      hrec hallow hc hnone

theorem failuresStop_of_allSucceeded (h : AllSucceeded w) : FailuresStop w := by
  refine ⟨fun _ _ pt _ hmem => ?_, h.recorded.cached⟩
  rw [h.failed] at hmem
  cases hmem

theorem succeeds_of_failuresStop (hs : recordedStep rtr w c = some w') (h : FailuresStop w') :
    Succeeds w c := by
  obtain ⟨ctx, hget, _, _, hc, hnote⟩ := recordedStep_complete hs
  cases hfail : failure ctx c with
  | none => simp [Succeeds, hget, hfail]
  | some pt =>
    obtain ⟨ctx', hmem, q, hq, hid⟩ := failure_goes_on hc hfail
    refine absurd ?_ (h.stopped ctx' hmem q hq)
    rw [hnote, hid]
    simp [recordContext, hfail]

end

/-- For every router, along every run, failed operations are not used as if they had succeeded
if and only if none fails. -/
theorem failuresStop_iff (rtr : Router) (others : List ℕ) (cs : List Completion) :
    Along (recordedStep rtr) FailuresStop (recordedStart others) cs ↔
      Guarded (recordedStep rtr) Succeeds (recordedStart others) cs := by
  refine along_iff_guarded (I := AllSucceeded) (fun w c w' h hok hs => ?_) ?_ ?_ ?_
  · exact allSucceeded_step hs h hok
  · exact fun w h => failuresStop_of_allSucceeded h
  · exact fun w c w' _ hs h => succeeds_of_failuresStop hs h
  · refine ⟨rfl, wired_start others, fun x e he => (by cases he), fun pt hmem => ?_⟩
    cases List.eq_of_mem_replicate hmem

/-- The index page is missing: `openat` fails with `ENOENT`, and `statx` then asks for
descriptor 0. -/
def missingIndex : List Completion :=
  [answer 0 5, recvAnswer 7 getIndex, answer 8 (-2), { answer 8 0 with stxSize := 3 }]

/-- The response is being sent, and the cache holds descriptor 0 as the index page. -/
theorem failure_cached :
    (run (recordedStep bareRouter) (recordedStart baseDescriptors) missingIndex).map (fun w =>
        (w.2.failed, cachedFds w.1.fileCache,
          w.1.inFlight.filterMap fun ctx => ctx.transfer.map Coroutine.id)) =
      some ([(0, .routeCallbackSendFile)], [0], [(0, .routeCallbackSendFile)]) ∧
      ¬ Along (recordedStep bareRouter) FailuresStop (recordedStart baseDescriptors)
        missingIndex := by
  have hrun : (run (recordedStep bareRouter) (recordedStart baseDescriptors) missingIndex).map
      (fun w => (w.2.failed, cachedFds w.1.fileCache,
        w.1.inFlight.filterMap fun ctx => ctx.transfer.map Coroutine.id)) =
      some ([(0, .routeCallbackSendFile)], [0], [(0, .routeCallbackSendFile)]) := by
    decide +kernel
  refine ⟨hrun, fun halong => ?_⟩
  obtain ⟨w, hw, hw'⟩ := Option.map_eq_some_iff.mp hrun
  simp only [Prod.mk.injEq] at hw'
  obtain ⟨hfailed, _, hids⟩ := hw'
  have hmem : (0, RouteCallback.routeCallbackSendFile) ∈
      w.1.inFlight.filterMap fun ctx => ctx.transfer.map Coroutine.id := by
    rw [hids]
    exact List.mem_singleton_self _
  obtain ⟨ctx, hctx, hid⟩ := List.mem_filterMap.mp hmem
  obtain ⟨pt, hpt, hid⟩ := Option.map_eq_some_iff.mp hid
  refine (along_run halong hw).stopped ctx hctx pt hpt ?_
  rw [hid, hfailed]
  exact List.mem_singleton_self _

end Cerverus.EventLoop
