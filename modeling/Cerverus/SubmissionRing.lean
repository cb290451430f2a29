import Cerverus.GuardedRun
import Cerverus.Stranded

/-!
# The submission ring

Every submission function takes an entry of the ring, prepares it and submits it. The kernel
thread consumes the oldest entries at its own pace, also while a callback is running, and an
operation completes only after its entry was consumed. The wrapper logs that the ring has no
free entry and hands the null entry on; nothing tests it before it is written to.
-/
namespace Cerverus.EventLoop
open Hash Lru Http SpliceAll GuardedRun

def ringEntries : ℕ := 64

/-- The loop with its ring: the entries not consumed are those of the last `unconsumed`
operations in flight. `nullEntry` holds the context whose null entry was written to. -/
structure Uring where
  loop : LoopState
  unconsumed : ℕ
  nullEntry : Option Context

/-- The place of the new entry behind those not consumed; null if there is no room. -/
def ioUringGetSqeWrapper (s : Uring) : Option ℕ :=
  if s.unconsumed < ringEntries then some s.unconsumed else none

/-- The body shared by the submission functions: they differ in what they prepare. -/
def opSubmit (s : Uring) (ctx : Context) : Uring :=
  match ioUringGetSqeWrapper s with
  | some _ => { s with loop := submit s.loop ctx, unconsumed := s.unconsumed + 1 }
  | none => { s with nullEntry := some ctx }

def consume (s : Uring) (n : ℕ) : Option Uring :=
  if n ≤ s.unconsumed then some { s with unconsumed := s.unconsumed - n } else none

/-- The submissions of a callback, up to the first null entry. `drains` are the numbers of
entries consumed before each. -/
def submitEach : Uring → List ℕ → List Context → Option Uring
  | s, _, [] => some s
  | s, drains, ctx :: ctxs =>
    (consume s (drains.headD 0)).bind fun s =>
      match (opSubmit s ctx).nullEntry with
      | some _ => some (opSubmit s ctx)
      | none => submitEach (opSubmit s ctx) drains.tail ctxs

/-- A completion that `async_io_process` takes from the queue, with the numbers of entries
consumed before it and before each submission of its callback. -/
structure Turn where
  taken : ℕ
  completion : Completion
  drains : List ℕ

/-- Once a null entry was written to, nothing further is defined. -/
def turn (rtr : Router) (s : Uring) (e : Turn) : Option Uring :=
  if s.nullEntry.isSome then none
  else (consume s e.taken).bind fun u =>
    if e.completion.index + u.unconsumed < s.loop.inFlight.length then
      (step rtr s.loop e.completion).bind fun t =>
        let rest := s.loop.inFlight.eraseIdx e.completion.index
        submitEach { u with loop := { t with inFlight := rest, log := s.loop.log } } e.drains
          (t.inFlight.drop rest.length)
    else none

/-- The eight accepts of `server_run` have just been submitted. -/
def ringStart (others : List ℕ) : Uring := ⟨serverStart others, 8, none⟩

def NoNullEntry (s : Uring) : Prop := s.nullEntry = none

/-! ## The demand of a completion -/

def startedResponses (rtr : Router) (request : Request) : ℕ :=
  (if request.uri = [47] then 1 else 0) + (if publicHit rtr request = some true then 1 else 0) +
    if (handlerOf rtr request).isSome then 1 else 0

/-- The operations a completion makes its callback submit. -/
def demand (rtr : Router) (s : LoopState) (c : Completion) : Context → ℕ
  | .accept => if c.res < 0 then 0 else 2
  | .recv _ buffer =>
    if c.res ≤ 0 then 0
    else match Http.handleRecvCompletion buffer c.bytes with
      | .waiting _ => 1
      | .rejected => 0
      | .routed request => startedResponses rtr request
  | .openat _ => 1
  | .statx pt => if (evictedBy s.fileCache (statxResult pt c)).isSome then 2 else 1
  | .send _ _ => 1
  | .spliceAll _ _ => 1
  | .close _ _ => 0

def turnDemand (rtr : Router) (s : LoopState) (c : Completion) : ℕ :=
  ((s.inFlight[c.index]?).map (demand rtr s c)).getD 0

/-- Before each submission the kernel has made room for it. -/
def Room (rtr : Router) (s : Uring) (e : Turn) : Prop :=
  ∀ k < turnDemand rtr s.loop e.completion,
    s.unconsumed + k < ringEntries + e.taken + (e.drains.take (k + 1)).sum

instance decidableRoom (rtr : Router) (s : Uring) (e : Turn) : Decidable (Room rtr s e) :=
  inferInstanceAs (Decidable (∀ k < turnDemand rtr s.loop e.completion, _))

/-- `n` operations were submitted, and nothing else in flight or in the log changed. -/
def Submits (s t : LoopState) (n : ℕ) : Prop :=
  ∃ ctxs, ctxs.length = n ∧ t = submitAll { t with inFlight := s.inFlight, log := s.log } ctxs

section
variable {rtr : Router} {s t : LoopState} {c : Completion}

theorem submits_submitAll {s' : LoopState} (ctxs : List Context) (hf : s'.inFlight = s.inFlight)
    (hl : s'.log = s.log) : Submits s (submitAll s' ctxs) ctxs.length :=
  ⟨ctxs, rfl, by simp [submitAll, hf, hl]⟩

theorem submits_none {s' : LoopState} (hf : s'.inFlight = s.inFlight) (hl : s'.log = s.log) :
    Submits s s' 0 :=
  ⟨[], rfl, by simp [submitAll, ← hf, ← hl]⟩

theorem submits_advance {label : OpenFileLabel} {pt : Coroutine}
    (h : asyncIoOpenFile s label pt = some t) :
    Submits s t (if label = .afterStatx ∧ (evictedBy s.fileCache pt).isSome then 2 else 1) := by
  obtain ⟨cache', ctxs, hadv, rfl⟩ := asyncIoOpenFile_advance h
  have hlen : ctxs.length =
      if label = .afterStatx ∧ (evictedBy s.fileCache pt).isSome then 2 else 1 := by
    cases hadv with
    | hit get raw => simp [evictedBy, get]
    | start get name => simp
    | opened get => simp
    | @added _ cache₁ r get add raw =>
      cases hev : r.evicted <;> simp [evictedBy, get, add, hev, closeEvicted]
  rw [← hlen]
  exact submits_submitAll ctxs rfl rfl

theorem length_startAll {cache cache' : LruCache FileT} {pts : List Coroutine}
    {ctxs : List Context} (h : StartAll cache pts cache' ctxs) : ctxs.length = pts.length := by
  induction h with
  | nil => rfl
  | cons first rest ih => cases first <;> simp [ih]

theorem submits_routed {request : Request} {client : Client} {memory : FileT}
    (h : routerHandleRequest rtr s request client memory = some t) :
    Submits s t (startedResponses rtr request) := by
  obtain ⟨hit, hhit, cache', ctxs, hstart, rfl⟩ := routerHandleRequest_starts h
  have hlen : ctxs.length = startedResponses rtr request := by
    rw [length_startAll hstart, startedResponses, fileCoroutines, handlerCoroutines,
      List.length_append, List.length_append, hhit]
    congr 2 <;> split_ifs <;> simp_all
  rw [← hlen]
  exact submits_submitAll ctxs rfl rfl

theorem submits_single (ctx : Context) : Submits s (submit s ctx) 1 := by
  rw [submit_eq]
  exact submits_submitAll [ctx] rfl rfl

theorem submits_sent {pt : Coroutine} {pipe : Option (ℕ × ℕ)}
    (h : afterSendBuffer s pt pipe = some t) : Submits s t 1 := by
  unfold afterSendBuffer at h
  split at h
  · cases h
    simp only [asyncIoSendfile, handleSpliceAllSubmission, submit_eq]
    exact submits_submitAll [_] rfl rfl
  · cases h

theorem submits_recv {client : Client} {buffer : Sds}
    (h : handleRecvCompletion rtr s client buffer c = some t) :
    Submits s t (demand rtr s c (.recv client buffer)) := by
  simp only [handleRecvCompletion] at h
  simp only [demand]
  split_ifs at h ⊢
  · cases h
    exact submits_none rfl rfl
  · cases hout : Http.handleRecvCompletion buffer c.bytes with
    | waiting buffer' =>
      rw [hout] at h
      cases h
      exact submits_single _
    | rejected =>
      rw [hout] at h
      cases h
      exact submits_none rfl rfl
    | routed request =>
      rw [hout] at h
      exact submits_routed h

theorem submits_spliced {ctx : SpliceAllContext} {pt : Coroutine}
    (h : handleSpliceAllCompletion s ctx pt c = some t) : Submits s t 1 := by
  unfold handleSpliceAllCompletion at h
  dsimp only at h
  split_ifs at h
  · unfold afterSendfile at h
    split at h
    · cases h
      exact submits_single _
    · cases h
  · cases h
    exact submits_single _

theorem complete_submits {ctx : Context} (h : complete rtr s ctx c = some t) :
    Submits s t (demand rtr s c ctx) := by
  cases ctx with
  | accept =>
    cases h
    simp only [demand, handleAcceptCompletion]
    split_ifs
    · exact submits_none rfl rfl
    · simp only [handleAcceptSubmission, handleRecvSubmission, submit_eq, submitAll_append]
      exact submits_submitAll [_, _] rfl rfl
  | recv client buffer =>
    exact submits_recv h
  | openat pt =>
    simp only [complete, handleOpenatCompletion] at h
    split_ifs at h
    · simpa [demand] using submits_advance h
    · obtain ⟨ctxs, hlen, heq⟩ := submits_advance h
      exact ⟨ctxs, by simpa [demand] using hlen, heq⟩
  | statx pt =>
    simp only [complete, handleStatxCompletion] at h
    simpa [demand] using submits_advance h
  | send buffer pt =>
    simp only [complete, handleSendCompletion] at h
    split_ifs at h
    · exact submits_sent h
    · cases h
      exact submits_single _
    · exact submits_sent h
  | spliceAll ctx pt => exact submits_spliced h
  | close fd pt =>
    cases h
    exact submits_none rfl rfl

end

/-! ## The ring -/

section
variable {rtr : Router} {s t : Uring} {e : Turn}

theorem consume_eq {n : ℕ} (h : consume s n = some t) :
    n ≤ s.unconsumed ∧ t = { s with unconsumed := s.unconsumed - n } := by
  unfold consume at h
  split_ifs at h with hn
  exact ⟨hn, (Option.some.inj h).symm⟩

theorem opSubmit_room (h : s.unconsumed < ringEntries) (ctx : Context) :
    opSubmit s ctx = { s with loop := submit s.loop ctx, unconsumed := s.unconsumed + 1 } := by
  simp [opSubmit, ioUringGetSqeWrapper, h]

theorem opSubmit_full (h : ¬ s.unconsumed < ringEntries) (ctx : Context) :
    opSubmit s ctx = { s with nullEntry := some ctx } := by
  simp [opSubmit, ioUringGetSqeWrapper, h]

theorem sum_take_succ (drains : List ℕ) (k : ℕ) :
    (drains.take (k + 1)).sum = drains.headD 0 + (drains.tail.take k).sum := by
  cases drains <;> simp

theorem submitEach_spec {drains : List ℕ} {ctxs : List Context}
    (h : submitEach s drains ctxs = some t) (hs : s.nullEntry = none) :
    (t.nullEntry = none ↔
      ∀ k < ctxs.length, s.unconsumed + k < ringEntries + (drains.take (k + 1)).sum) ∧
    (t.nullEntry = none → t.loop = submitAll s.loop ctxs) := by
  induction ctxs generalizing s drains with
  | nil =>
    cases h
    exact ⟨by simp [hs], fun _ => by simp [submitAll]⟩
  | cons ctx ctxs ih =>
    obtain ⟨u, hu, h⟩ := Option.bind_eq_some_iff.mp h
    obtain ⟨hle, rfl⟩ := consume_eq hu
    by_cases hroom : s.unconsumed - drains.headD 0 < ringEntries
    · rw [opSubmit_room hroom] at h
      simp only [hs] at h
      obtain ⟨hiff, hloop⟩ := ih h rfl
      refine ⟨hiff.trans ⟨fun hall k hk => ?_, fun hall k hk => ?_⟩, fun hnull => ?_⟩
      · rw [sum_take_succ]
        cases k with
        | zero =>
          rw [List.take_zero, List.sum_nil]
          omega
        | succ k =>
          have hk' := hall k (by simpa using hk)
          dsimp only at hk'
          omega
      · have hk' := hall (k + 1) (by simpa using hk)
        rw [sum_take_succ] at hk'
        dsimp only
        omega
      · rw [hloop hnull, submit_eq, submitAll_append]
        rfl
    · rw [opSubmit_full hroom] at h
      cases h
      refine ⟨⟨fun hnull => (by cases hnull), fun hall => ?_⟩, fun hnull => (by cases hnull)⟩
      have hzero := hall 0 (by simp)
      rw [sum_take_succ, List.take_zero, List.sum_nil] at hzero
      omega

/-- What a turn does: the null entry stays away exactly if there is room, and then the loop
takes its step. -/
theorem turn_spec (h : turn rtr s e = some t) :
    s.nullEntry = none ∧ (t.nullEntry = none ↔ Room rtr s e) ∧
      (t.nullEntry = none → step rtr s.loop e.completion = some t.loop) := by
  unfold turn at h
  split_ifs at h with hs
  have hs : s.nullEntry = none := by simpa using hs
  obtain ⟨u, hu, h⟩ := Option.bind_eq_some_iff.mp h
  obtain ⟨hle, rfl⟩ := consume_eq hu
  split_ifs at h with hidx
  obtain ⟨l, hl, h⟩ := Option.bind_eq_some_iff.mp h
  obtain ⟨ctx, hctx, _, _, hcomplete⟩ := step_complete hl
  obtain ⟨ctxs, hlen, heq⟩ := complete_submits hcomplete
  have hnew : l.inFlight.drop (s.loop.inFlight.eraseIdx e.completion.index).length = ctxs := by
    rw [heq]
    exact List.drop_left
  dsimp only at h
  rw [hnew] at h
  obtain ⟨hiff, hloop⟩ := submitEach_spec h hs
  have hdemand : turnDemand rtr s.loop e.completion = ctxs.length := by
    rw [turnDemand, hctx, hlen]
    rfl
  refine ⟨hs, hiff.trans ?_, fun hnull => ?_⟩
  · rw [Room, hdemand]
    exact forall₂_congr fun k _ => by
      dsimp only
      omega
  · rw [hl, hloop hnull, ← heq]

/-- As long as no null entry was written to, the loop runs as if the ring had no bound. -/
theorem run_loop {es : List Turn} (hg : Guarded (turn rtr) (Room rtr) s es)
    (h : run (turn rtr) s es = some t) :
    run (step rtr) s.loop (es.map Turn.completion) = some t.loop := by
  induction es generalizing s with
  | nil =>
    cases h
    rfl
  | cons e es ih =>
    cases hu : turn rtr s e with
    | none => simp [run, hu] at h
    | some u =>
      rw [run_cons es hu] at h
      obtain ⟨hroom, hg'⟩ := (guarded_some (turn rtr) es hu).mp hg
      obtain ⟨_, hiff, hstep⟩ := turn_spec hu
      rw [List.map_cons, run_cons _ (hstep (hiff.mpr hroom))]
      exact ih hg' h

end

/-- For every router, in every run, the null entry is never handed on exactly if every
completion finds room for what its callback submits; then all of it is queued. -/
theorem submissions_handled_iff_room (rtr : Router) (others : List ℕ) (es : List Turn) :
    (Along (turn rtr) NoNullEntry (ringStart others) es ↔
      Guarded (turn rtr) (Room rtr) (ringStart others) es) ∧
    ∀ s, Guarded (turn rtr) (Room rtr) (ringStart others) es →
      run (turn rtr) (ringStart others) es = some s →
      run (step rtr) (serverStart others) (es.map Turn.completion) = some s.loop := by
  refine ⟨along_iff_guarded (I := NoNullEntry) ?_ (fun _ h => h) ?_ rfl, fun s hg hrun => ?_⟩
  · intro s e t _ hroom hturn
    exact (turn_spec hturn).2.1.mpr hroom
  · intro s e t _ hturn hnull
    exact (turn_spec hturn).2.1.mp hnull
  · exact run_loop hg hrun

/-! ## A burst -/

/-- A client is accepted while the kernel keeps up. -/
def welcome (n : ℕ) : Turn := ⟨if n = 0 then 8 else 1, answer (7 + n) (5 + n), [0, 1]⟩

/-- One byte of a request arrives while the kernel thread sleeps. -/
def oneByte (n : ℕ) : Turn := ⟨if n = 0 then 1 else 0, recvAnswer 7 [71], []⟩

/-- 65 clients connect, and then each sends its first byte. -/
def burst : List Turn := (List.range 65).map welcome ++ (List.range 65).map oneByte

/-- The submission for the last of them gets no entry, and the null entry is written to. -/
theorem burst_null_entry :
    (run (turn bareRouter) (ringStart baseDescriptors) burst).map
        (fun s => (s.unconsumed, s.nullEntry.isSome)) = some (64, true) ∧
      ¬ Along (turn bareRouter) NoNullEntry (ringStart baseDescriptors) burst := by
  have hrun : (run (turn bareRouter) (ringStart baseDescriptors) burst).map
      (fun s => (s.unconsumed, s.nullEntry.isSome)) = some (64, true) := by decide +kernel
  refine ⟨hrun, fun halong => ?_⟩
  obtain ⟨s, hs, hs'⟩ := Option.map_eq_some_iff.mp hrun
  have hnull : s.nullEntry.isSome = true := congrArg Prod.snd hs'
  rw [along_run halong hs] at hnull
  cases hnull

end Cerverus.EventLoop
