import Cerverus.GuardedRun
import Cerverus.LoopReplies
import Cerverus.Stranded

/-!
# The memory of the contexts

The ring holds addresses: `new_ctx` allocates a `logical_async_context`, `user_data` points to
it, and a completion callback reads it through that pointer and frees it, or does not. Here
the contexts lie in memory, and `malloc` may hand out any address that is not in use, one just
freed included.
-/
namespace Cerverus.EventLoop
open Hash Lru Http SpliceAll GuardedRun

/-! ## Callbacks do not look at what is in flight -/

/-- The state with more operations in flight, submitted earlier. -/
def LoopState.below (older : List Context) (s : LoopState) : LoopState :=
  { s with inFlight := older ++ s.inFlight }

section
variable {older : List Context} {s : LoopState} {label : OpenFileLabel} {pt : Coroutine}

theorem submit_below (s : LoopState) (ctx : Context) :
    submit (s.below older) ctx = (submit s ctx).below older := by
  simp [submit, LoopState.below]

theorem afterOpenFile_below (s : LoopState) (pt : Coroutine) :
    afterOpenFile (s.below older) pt = (afterOpenFile s pt).map (LoopState.below older) := by
  unfold afterOpenFile
  cases fileResponse pt.file.name pt.file.stxSize with
  | none => rfl
  | some res => exact congrArg some (submit_below s _)

theorem cacheFile_below (s : LoopState) (pt : Coroutine) :
    cacheFile (s.below older) pt = (cacheFile s pt).map (LoopState.below older) := by
  have hcache : (s.below older).fileCache = s.fileCache := rfl
  unfold cacheFile
  rw [hcache]
  cases lruCacheAdd s.fileCache pt.path pt.file with
  | none => rfl
  | some r =>
    cases hev : r.evicted with
    | none => simp [hev, LoopState.below]
    | some file =>
      simp only [Option.bind_eq_bind, Option.bind_some, hev, fileEvictionHandler,
        handleCloseSubmission, submit_below]
      rfl

theorem asyncIoOpenFile_below (s : LoopState) (label : OpenFileLabel) (pt : Coroutine) :
    asyncIoOpenFile (s.below older) label pt =
      (asyncIoOpenFile s label pt).map (LoopState.below older) := by
  have hcache : (s.below older).fileCache = s.fileCache := rfl
  unfold asyncIoOpenFile
  rw [hcache]
  cases lruCacheGet s.fileCache pt.path with
  | none => rfl
  | some r =>
    obtain ⟨found, cache'⟩ := r
    have hset : ({ s.below older with fileCache := cache' } : LoopState) =
        LoopState.below older { s with fileCache := cache' } := rfl
    simp only [Option.bind_some, hset]
    cases found with
    | some p => exact afterOpenFile_below _ _
    | none =>
      cases label with
      | start =>
        cases (sdssplitlen pt.path 47).getLast? with
        | none => rfl
        | some name => exact congrArg some (submit_below _ _)
      | afterOpenat => exact congrArg some (submit_below _ _)
      | afterStatx =>
        simp only [Option.bind_eq_bind, cacheFile_below]
        cases cacheFile { s with fileCache := cache' } pt with
        | none => rfl
        | some s' => exact afterOpenFile_below s' pt

theorem routerHandleRequest_below (rtr : Router) (s : LoopState) (request : Request)
    (client : Client) (memory : FileT) :
    routerHandleRequest rtr (s.below older) request client memory =
      (routerHandleRequest rtr s request client memory).map (LoopState.below older) := by
  have hindex : ∀ s : LoopState, sendIndex (s.below older) request client =
      (sendIndex s request client).map (LoopState.below older) := by
    intro s
    unfold sendIndex
    split_ifs
    · exact asyncIoOpenFile_below s _ _
    · rfl
  have hpublic : ∀ s : LoopState, sendPublic rtr (s.below older) request client =
      (sendPublic rtr s request client).map (LoopState.below older) := by
    intro s
    unfold sendPublic
    cases publicHit rtr request with
    | none => rfl
    | some hit =>
      simp only [Option.bind_some]
      split_ifs
      · exact asyncIoOpenFile_below s _ _
      · rfl
  have hhandler : ∀ s : LoopState, runHandler rtr (s.below older) request client memory =
      (runHandler rtr s request client memory).map (LoopState.below older) := by
    intro s
    unfold runHandler
    split
    · rfl
    · exact asyncIoOpenFile_below s _ _
    · rfl
  simp only [routerHandleRequest, Option.bind_eq_bind, hindex]
  cases sendIndex s request client with
  | none => rfl
  | some s₁ =>
    simp only [Option.map_some, Option.bind_some, hpublic]
    cases sendPublic rtr s₁ request client with
    | none => rfl
    | some s₂ => exact hhandler s₂

theorem asyncIoSendfile_below (s : LoopState) (pt : Coroutine) (pipe : Option (ℕ × ℕ)) :
    asyncIoSendfile (s.below older) pt pipe = (asyncIoSendfile s pt pipe).below older := by
  cases pipe with
  | none => exact submit_below s _
  | some p =>
    obtain ⟨a, b⟩ := p
    exact submit_below
      { s with
        opened := Function.update (Function.update s.opened a (some .pipe)) b (some .pipe) } _

theorem afterSendBuffer_below (s : LoopState) (pt : Coroutine) (pipe : Option (ℕ × ℕ)) :
    afterSendBuffer (s.below older) pt pipe =
      (afterSendBuffer s pt pipe).map (LoopState.below older) := by
  unfold afterSendBuffer
  split
  · exact congrArg some (asyncIoSendfile_below s pt pipe)
  · rfl

theorem complete_below (rtr : Router) (s : LoopState) (ctx : Context) (c : Completion) :
    complete rtr (s.below older) ctx c = (complete rtr s ctx c).map (LoopState.below older) := by
  cases ctx with
  | accept =>
    refine congrArg some ?_
    unfold handleAcceptCompletion
    split_ifs
    · rfl
    · simp only [handleAcceptSubmission, handleRecvSubmission, ← submit_below]
      rfl
  | recv client buffer =>
    simp only [complete, handleRecvCompletion]
    split_ifs
    · rfl
    · split
      · exact congrArg some (submit_below s _)
      · rfl
      · exact routerHandleRequest_below rtr s _ client c.memory
  | openat pt =>
    simp only [complete, handleOpenatCompletion]
    split_ifs
    · exact asyncIoOpenFile_below s _ _
    · exact asyncIoOpenFile_below
        { s with opened := Function.update s.opened c.res.toNat (some (.file pt.path)) } _ _
  | statx pt => exact asyncIoOpenFile_below s .afterStatx _
  | send buffer pt =>
    simp only [complete, handleSendCompletion]
    split_ifs
    · exact afterSendBuffer_below s pt _
    · exact congrArg some (submit_below s _)
    · exact afterSendBuffer_below s pt _
  | spliceAll ctx pt =>
    simp only [complete, handleSpliceAllCompletion]
    split_ifs
    · unfold afterSendfile
      split
      · exact congrArg some (submit_below s _)
      · rfl
    · exact congrArg some (submit_below s _)
  | close fd pt => rfl

end

/-! ## Addresses -/

abbrev Contexts := ℕ → Option Context

/-- What a callback does with its context: nothing, or `cmem_free` before or after it submits
others. -/
inductive Release
  | never
  | first
  | last
  deriving DecidableEq, Repr

/-- `op_exit` frees before it resumes the coroutine, and so do the completions of `statx`,
`close` and a finished `send`. A `recv` that waits copies its context first. The others that
succeed do not free. -/
def release (ctx : Context) (c : Completion) : Release :=
  match ctx with
  | .accept | .openat _ | .spliceAll _ _ => if c.res < 0 then .first else .never
  | .recv _ buffer =>
    if c.res ≤ 0 then .first
    else
      match Http.handleRecvCompletion buffer c.bytes with
      | .waiting _ => .last
      | .rejected => .first
      | .routed _ => .never
  | .send buffer _ => if 0 ≤ c.res ∧ buffer.drop c.res.toNat ≠ [] then .never else .first
  | .statx _ | .close _ _ => .first

/-- `malloc` does not return memory in use. -/
def cmemNew (contexts : Contexts) (a : ℕ) (ctx : Context) : Option Contexts :=
  if contexts a = none then some (Function.update contexts a (some ctx)) else none

/-- A block that is not in use must not be freed. -/
def cmemFree (contexts : Contexts) (a : ℕ) : Option Contexts :=
  if contexts a = none then none else some (Function.update contexts a none)

def freeWhen (now : Release) (ctx : Context) (c : Completion) (contexts : Contexts) (a : ℕ) :
    Option Contexts :=
  if release ctx c = now then cmemFree contexts a else some contexts

/-- The contexts of several submissions, each at the address `malloc` returns for it. -/
def newContexts (contexts : Contexts) : List ℕ → List Context → Option Contexts
  | [], [] => some contexts
  | a :: as, ctx :: ctxs =>
    (cmemNew contexts a ctx).bind fun contexts => newContexts contexts as ctxs
  | _, _ => none

/-- The ring and the memory; `loop.inFlight` is what a running callback has submitted. -/
structure MemoryState where
  loop : LoopState
  ring : List ℕ
  contexts : Contexts

/-- `async_io_process` with one completion, and the addresses `malloc` returns to its callback.
The context is read through the pointer in the ring. -/
def memoryStep (rtr : Router) (m : MemoryState) (e : Completion × List ℕ) :
    Option MemoryState := do
  let a ← m.ring[e.1.index]?
  let ctx ← m.contexts a
  if Allows m.loop.opened ctx e.1 then do
    let loop ← complete rtr m.loop ctx e.1
    let contexts ← freeWhen .first ctx e.1 m.contexts a
    let contexts ← newContexts contexts e.2 loop.inFlight
    let contexts ← freeWhen .last ctx e.1 contexts a
    some
      { loop := { loop with inFlight := [] }
        ring := m.ring.eraseIdx e.1.index ++ e.2
        contexts := contexts }
  else none

def memoryStart (others addrs : List ℕ) : Option MemoryState :=
  (newContexts (fun _ => none) addrs (serverStart others).inFlight).map fun contexts =>
    { loop := { serverStart others with inFlight := [] }, ring := addrs, contexts := contexts }

/-- The addresses in the ring are different and point to the operations in flight. -/
structure Represents (m : MemoryState) (s : LoopState) : Prop where
  loop : m.loop.below s.inFlight = s
  held : m.ring.map m.contexts = s.inFlight.map some
  distinct : m.ring.Nodup

/-- What `malloc` may return. -/
structure Fresh (contexts : Contexts) (addrs : List ℕ) (ctxs : List Context) : Prop where
  count : addrs.length = ctxs.length
  distinct : addrs.Nodup
  unused : ∀ a ∈ addrs, contexts a = none

section
variable {contexts contexts' : Contexts} {addrs : List ℕ} {ctxs : List Context} {a : ℕ}
  {ctx : Context}

theorem cmemNew_eq_some : cmemNew contexts a ctx = some contexts' ↔
    contexts a = none ∧ contexts' = Function.update contexts a (some ctx) := by
  unfold cmemNew
  split_ifs with hnone
  · simp [hnone, eq_comm]
  · simp [hnone]

theorem cmemFree_eq_some : cmemFree contexts a = some contexts' ↔
    contexts a ≠ none ∧ contexts' = Function.update contexts a none := by
  unfold cmemFree
  split_ifs with hnone
  · simp [hnone]
  · simp [hnone, eq_comm]

theorem newContexts_eq_some (h : newContexts contexts addrs ctxs = some contexts') :
    Fresh contexts addrs ctxs ∧ addrs.map contexts' = ctxs.map some ∧
      ∀ b, b ∉ addrs → contexts' b = contexts b := by
  induction addrs generalizing contexts ctxs with
  | nil =>
    cases ctxs with
    | nil =>
      cases h
      exact ⟨⟨rfl, List.nodup_nil, by simp⟩, rfl, fun _ _ => rfl⟩
    | cons ctx ctxs => cases h
  | cons a as ih =>
    cases ctxs with
    | nil => cases h
    | cons ctx ctxs =>
      obtain ⟨mid, hmid, h⟩ := Option.bind_eq_some_iff.mp h
      obtain ⟨hfree, rfl⟩ := cmemNew_eq_some.mp hmid
      obtain ⟨hfresh, hfilled, hframe⟩ := ih h
      have hnot : a ∉ as := by
        intro hmem
        have hunused := hfresh.unused a hmem
        simp at hunused
      refine ⟨⟨?_, List.nodup_cons.mpr ⟨hnot, hfresh.distinct⟩, fun b hb => ?_⟩, ?_, fun b hb => ?_⟩
      · simp [hfresh.count]
      · rcases List.mem_cons.mp hb with rfl | hb
        · exact hfree
        · have hunused := hfresh.unused b hb
          have hne : b ≠ a := fun he => hnot (he ▸ hb)
          rwa [Function.update_of_ne hne] at hunused
      · rw [List.map_cons, List.map_cons, hfilled, hframe a hnot, Function.update_self]
      · rw [List.mem_cons, not_or] at hb
        rw [hframe b hb.2, Function.update_of_ne hb.1]

theorem newContexts_isSome (h : Fresh contexts addrs ctxs) :
    ∃ contexts', newContexts contexts addrs ctxs = some contexts' := by
  induction addrs generalizing contexts ctxs with
  | nil =>
    cases ctxs with
    | nil => exact ⟨contexts, rfl⟩
    | cons ctx ctxs => cases h.count
  | cons a as ih =>
    cases ctxs with
    | nil => cases h.count
    | cons ctx ctxs =>
      obtain ⟨hnot, hdistinct⟩ := List.nodup_cons.mp h.distinct
      have hnew : cmemNew contexts a ctx = some (Function.update contexts a (some ctx)) :=
        cmemNew_eq_some.mpr ⟨h.unused a (List.mem_cons_self ..), rfl⟩
      have hrest : Fresh (Function.update contexts a (some ctx)) as ctxs := by
        refine ⟨Nat.succ.inj h.count, hdistinct, fun b hb => ?_⟩
        have hne : b ≠ a := fun he => hnot (he ▸ hb)
        rw [Function.update_of_ne hne]
        exact h.unused b (List.mem_cons_of_mem _ hb)
      obtain ⟨contexts', hsome⟩ := ih hrest
      exact ⟨contexts', by simp only [newContexts, hnew, Option.bind_some, hsome]⟩

theorem freeWhen_eq_some {now : Release} {c : Completion}
    (h : freeWhen now ctx c contexts a = some contexts') :
    contexts' = if release ctx c = now then Function.update contexts a none else contexts := by
  unfold freeWhen at h
  split_ifs at h ⊢
  · exact (cmemFree_eq_some.mp h).2
  · exact (Option.some.inj h).symm

/-- A callback that frees its context before or after it allocates others leaves those of the
other operations as they are, and out of the addresses it gets. -/
theorem exchanged {contexts₁ contexts₂ contexts₃ : Contexts} {c : Completion}
    (hlive : contexts a ≠ none) (hfirst : freeWhen .first ctx c contexts a = some contexts₁)
    (hnew : newContexts contexts₁ addrs ctxs = some contexts₂)
    (hlast : freeWhen .last ctx c contexts₂ a = some contexts₃) :
    (∀ b, b ≠ a → contexts b ≠ none → b ∉ addrs ∧ contexts₃ b = contexts b) ∧
      addrs.map contexts₃ = ctxs.map some := by
  obtain ⟨hfresh, hfilled, hframe⟩ := newContexts_eq_some hnew
  have h₁ := freeWhen_eq_some hfirst
  have h₃ := freeWhen_eq_some hlast
  constructor
  · intro b hb hbusy
    have hold : contexts₁ b = contexts b := by
      rw [h₁]
      split_ifs
      · exact Function.update_of_ne hb _ _
      · rfl
    have hnot : b ∉ addrs := fun hmem => hbusy (hold ▸ hfresh.unused b hmem)
    refine ⟨hnot, ?_⟩
    rw [h₃, ← hold, ← hframe b hnot]
    split_ifs
    · exact Function.update_of_ne hb _ _
    · rfl
  · rw [← hfilled]
    refine List.map_congr_left fun b hb => ?_
    rw [h₃]
    split_ifs with hrel
    · have hsame : contexts₁ = contexts := by rw [h₁, hrel]; rfl
      have hne : b ≠ a := fun he => hlive (hsame ▸ he ▸ hfresh.unused b hb)
      exact Function.update_of_ne hne _ _
    · rfl

theorem exchange_isSome {c : Completion} (hctx : contexts a = some ctx)
    (hcount : addrs.length = ctxs.length) (hdistinct : addrs.Nodup)
    (hunused : ∀ b ∈ addrs, contexts b = none ∨ b = a ∧ release ctx c = .first) :
    ∃ contexts₁ contexts₂ contexts₃, freeWhen .first ctx c contexts a = some contexts₁ ∧
      newContexts contexts₁ addrs ctxs = some contexts₂ ∧
      freeWhen .last ctx c contexts₂ a = some contexts₃ := by
  have hlive : contexts a ≠ none := hctx ▸ Option.some_ne_none ctx
  have hfree : cmemFree contexts a = some (Function.update contexts a none) :=
    cmemFree_eq_some.mpr ⟨hlive, rfl⟩
  by_cases hrel : release ctx c = .first
  · have hfresh : Fresh (Function.update contexts a none) addrs ctxs := by
      refine ⟨hcount, hdistinct, fun b hb => ?_⟩
      by_cases hba : b = a
      · rw [hba, Function.update_self]
      · rw [Function.update_of_ne hba]
        exact (hunused b hb).resolve_right fun hand => hba hand.1
    obtain ⟨contexts₂, hnew⟩ := newContexts_isSome hfresh
    exact ⟨_, contexts₂, contexts₂, by simp [freeWhen, hrel, hfree], hnew, by simp [freeWhen, hrel]⟩
  · have hfresh : Fresh contexts addrs ctxs :=
      ⟨hcount, hdistinct, fun b hb => (hunused b hb).resolve_right fun hand => hrel hand.2⟩
    obtain ⟨contexts₂, hnew⟩ := newContexts_isSome hfresh
    have hnot : a ∉ addrs := fun hmem => hlive (hfresh.unused a hmem)
    have hstill : contexts₂ a ≠ none := (newContexts_eq_some hnew).2.2 a hnot ▸ hlive
    have hlast : ∃ contexts₃, freeWhen .last ctx c contexts₂ a = some contexts₃ := by
      unfold freeWhen
      split_ifs
      · exact ⟨_, cmemFree_eq_some.mpr ⟨hstill, rfl⟩⟩
      · exact ⟨_, rfl⟩
    obtain ⟨contexts₃, hlast⟩ := hlast
    exact ⟨contexts, contexts₂, contexts₃, by simp [freeWhen, hrel], hnew, hlast⟩

end

/-! ## Steps -/

section
variable {rtr : Router} {m m' : MemoryState} {s s' : LoopState} {c : Completion}
  {addrs : List ℕ}

theorem memoryStep_cases (h : memoryStep rtr m (c, addrs) = some m') :
    ∃ a ctx loop contexts₁ contexts₂ contexts₃,
      m.ring[c.index]? = some a ∧ m.contexts a = some ctx ∧ Allows m.loop.opened ctx c ∧
      complete rtr m.loop ctx c = some loop ∧
      freeWhen .first ctx c m.contexts a = some contexts₁ ∧
      newContexts contexts₁ addrs loop.inFlight = some contexts₂ ∧
      freeWhen .last ctx c contexts₂ a = some contexts₃ ∧
      m' = ⟨{ loop with inFlight := [] }, m.ring.eraseIdx c.index ++ addrs, contexts₃⟩ := by
  simp only [memoryStep, Option.bind_eq_bind, Option.bind_eq_some_iff] at h
  obtain ⟨a, ha, ctx, hctx, h⟩ := h
  split_ifs at h with hallow
  simp only [Option.bind_eq_some_iff, Option.some.injEq] at h
  obtain ⟨loop, hloop, contexts₁, hfirst, contexts₂, hnew, contexts₃, hlast, rfl⟩ := h
  exact ⟨a, ctx, loop, contexts₁, contexts₂, contexts₃, ha, hctx, hallow, hloop, hfirst, hnew,
    hlast, rfl⟩

theorem Represents.quiet (h : Represents m s) : m.loop.inFlight = [] := by
  have hflight := congrArg LoopState.inFlight h.loop
  simpa [LoopState.below] using hflight

theorem Represents.get (h : Represents m s) {i a : ℕ} (ha : m.ring[i]? = some a) :
    m.contexts a = s.inFlight[i]? ∧ m.contexts a ≠ none := by
  have hget := congrArg (fun l => l[i]?) h.held
  simp only [List.getElem?_map, ha, Option.map_some] at hget
  cases hs : s.inFlight[i]? with
  | none => simp [hs] at hget
  | some ctx =>
    rw [hs] at hget
    simp only [Option.map_some, Option.some.injEq] at hget
    rw [hget]
    exact ⟨rfl, Option.some_ne_none ctx⟩

theorem Represents.live (h : Represents m s) {a : ℕ} (ha : a ∈ m.ring) : m.contexts a ≠ none := by
  obtain ⟨i, hi⟩ := List.mem_iff_getElem?.mp ha
  exact (h.get hi).2

/-- A callback on the ring does what it does on the operations themselves. -/
theorem Represents.complete (h : Represents m s) (ctx : Context) :
    EventLoop.complete rtr { s with inFlight := s.inFlight.eraseIdx c.index } ctx c =
      (EventLoop.complete rtr m.loop ctx c).map
        (LoopState.below (s.inFlight.eraseIdx c.index)) := by
  rw [← complete_below]
  have hfields := h.loop
  have hsame : m.loop.below (s.inFlight.eraseIdx c.index) =
      { s with inFlight := s.inFlight.eraseIdx c.index } := by
    rw [← hfields]
    simp [LoopState.below, h.quiet]
  rw [hsame]

theorem represents_step (h : Represents m s) (hm : memoryStep rtr m (c, addrs) = some m') :
    ∃ s', step rtr s c = some s' ∧ Represents m' s' := by
  obtain ⟨a, ctx, loop, contexts₁, contexts₂, contexts₃, ha, hctx, hallow, hloop, hfirst, hnew,
    hlast, rfl⟩ := memoryStep_cases hm
  obtain ⟨hget, hlive⟩ := h.get ha
  obtain ⟨hothers, hfilled⟩ := exchanged hlive hfirst hnew hlast
  obtain ⟨hfresh, _⟩ := newContexts_eq_some hnew
  have hrest : ∀ b ∈ m.ring.eraseIdx c.index, b ∉ addrs ∧ contexts₃ b = m.contexts b := by
    intro b hb
    have hne : b ≠ a := by
      rintro rfl
      obtain ⟨hlt, hat⟩ := List.getElem?_eq_some_iff.mp ha
      rw [List.mem_eraseIdx_iff_getElem] at hb
      obtain ⟨j, hj, hji, hjb⟩ := hb
      exact hji ((h.distinct.getElem_inj_iff).mp (hjb.trans hat.symm))
    exact hothers b hne (h.live (List.eraseIdx_subset hb))
  refine ⟨loop.below (s.inFlight.eraseIdx c.index), ?_, ?_⟩
  · have hallow' : Allows s.opened ctx c := by
      rw [← h.loop]
      exact hallow
    unfold step
    rw [← hget, hctx]
    dsimp only
    rw [if_pos hallow', h.complete, hloop, Option.map_some]
  · refine ⟨?_, ?_, ?_⟩
    · simp [LoopState.below]
    · rw [List.map_append, hfilled, List.map_congr_left fun b hb => (hrest b hb).2,
        ← List.eraseIdx_map, h.held, List.eraseIdx_map, ← List.map_append]
      rfl
    · exact List.Nodup.append (h.distinct.eraseIdx _) hfresh.distinct
        fun b hb hmem => (hrest b hb).1 hmem

theorem Represents.length (h : Represents m s) : m.ring.length = s.inFlight.length := by
  simpa using congrArg List.length h.held

/-- The context answered, freed before its callback allocates others. -/
def FreedFirst (m : MemoryState) (c : Completion) (a : ℕ) : Prop :=
  m.ring[c.index]? = some a ∧ ∃ ctx ∈ m.contexts a, release ctx c = .first

/-- What `malloc` may return while the loop goes on to `s'`. -/
structure Available (m : MemoryState) (s' : LoopState) (c : Completion) (addrs : List ℕ) :
    Prop where
  count : (m.ring.eraseIdx c.index).length + addrs.length = s'.inFlight.length
  distinct : addrs.Nodup
  unused : ∀ a ∈ addrs, m.contexts a = none ∨ FreedFirst m c a

/-- The memory refuses a completion only where the loop does, or `malloc` breaks its promise. -/
theorem memoryStep_isSome (h : Represents m s) : (memoryStep rtr m (c, addrs)).isSome ↔
    ∃ s', step rtr s c = some s' ∧ Available m s' c addrs := by
  constructor
  · intro hsome
    obtain ⟨m', hm⟩ := Option.isSome_iff_exists.mp hsome
    obtain ⟨s', hs, h'⟩ := represents_step h hm
    obtain ⟨a, ctx, loop, contexts₁, contexts₂, contexts₃, ha, hctx, _, _, hfirst, hnew, _, rfl⟩ :=
      memoryStep_cases hm
    obtain ⟨hfresh, _⟩ := newContexts_eq_some hnew
    refine ⟨s', hs, ?_, hfresh.distinct, fun b hb => ?_⟩
    · rw [← h'.length, List.length_append]
    · have hnone := hfresh.unused b hb
      rw [freeWhen_eq_some hfirst] at hnone
      split_ifs at hnone with hrel
      · by_cases hba : b = a
        · subst hba
          exact Or.inr ⟨ha, ctx, hctx, hrel⟩
        · rw [Function.update_of_ne hba] at hnone
          exact Or.inl hnone
      · exact Or.inl hnone
  · intro hex
    obtain ⟨s', hs, havail⟩ := hex
    obtain ⟨ctx, hctx, _, hallow, hcomplete⟩ := step_complete hs
    have hlt : c.index < m.ring.length := by
      rw [h.length]
      exact (List.getElem?_eq_some_iff.mp hctx).1
    obtain ⟨a, ha⟩ : ∃ a, m.ring[c.index]? = some a := ⟨_, List.getElem?_eq_getElem hlt⟩
    have hheld : m.contexts a = some ctx := (h.get ha).1.trans hctx
    rw [h.complete, Option.map_eq_some_iff] at hcomplete
    obtain ⟨loop, hloop, rfl⟩ := hcomplete
    have hcount : addrs.length = loop.inFlight.length := by
      have hsum := havail.count
      simp only [LoopState.below, List.length_append, List.length_eraseIdx, h.length] at hsum
      omega
    have hunused : ∀ b ∈ addrs, m.contexts b = none ∨ b = a ∧ release ctx c = .first := by
      intro b hb
      rcases havail.unused b hb with hnone | ⟨hb', ctx', hctx', hrel⟩
      · exact Or.inl hnone
      · cases ha.symm.trans hb'
        cases hheld.symm.trans hctx'
        exact Or.inr ⟨rfl, hrel⟩
    obtain ⟨contexts₁, contexts₂, contexts₃, hfirst, hnew, hlast⟩ :=
      exchange_isSome hheld hcount havail.distinct hunused
    have hallow' : Allows m.loop.opened ctx c := by
      rw [← h.loop] at hallow
      exact hallow
    simp [memoryStep, ha, hheld, hallow', hloop, hfirst, hnew, hlast]

/-! ## Runs -/

theorem represents_start {others : List ℕ} (h : memoryStart others addrs = some m) :
    Represents m (serverStart others) := by
  obtain ⟨contexts, hnew, rfl⟩ := Option.map_eq_some_iff.mp h
  obtain ⟨hfresh, hfilled, _⟩ := newContexts_eq_some hnew
  exact ⟨rfl, hfilled, hfresh.distinct⟩

theorem represents_run {es : List (Completion × List ℕ)} (h : Represents m s)
    (hr : run (memoryStep rtr) m es = some m') :
    ∃ s', run (step rtr) s (es.map Prod.fst) = some s' ∧ Represents m' s' := by
  induction es generalizing m s with
  | nil =>
    cases hr
    exact ⟨s, rfl, h⟩
  | cons e es ih =>
    obtain ⟨c, addrs⟩ := e
    cases hu : memoryStep rtr m (c, addrs) with
    | none => simp [run, hu] at hr
    | some u =>
      obtain ⟨s₁, hs₁, h₁⟩ := represents_step h hu
      rw [run_cons es hu] at hr
      obtain ⟨s', hs', h'⟩ := ih h₁ hr
      exact ⟨s', by rw [List.map_cons, run_cons _ hs₁, hs'], h'⟩

/-- No completion reads a context that has been freed and none is freed twice: whatever order
the operations complete in and whatever addresses `malloc` reuses, the addresses in the ring
are different and hold the operations in flight, and the next completion goes through exactly
when the loop itself can take it. -/
theorem contexts_stay_valid (rtr : Router) {others addrs : List ℕ} {m₀ m : MemoryState}
    {es : List (Completion × List ℕ)} (hstart : memoryStart others addrs = some m₀)
    (hr : run (memoryStep rtr) m₀ es = some m) :
    ∃ s, run (step rtr) (serverStart others) (es.map Prod.fst) = some s ∧ Represents m s ∧
      ∀ c addrs, (memoryStep rtr m (c, addrs)).isSome ↔
        ∃ s', step rtr s c = some s' ∧ Available m s' c addrs := by
  obtain ⟨s, hs, h⟩ := represents_run (represents_start hstart) hr
  exact ⟨s, hs, h, fun _ _ => memoryStep_isSome h⟩

end

/-! ## What is never freed -/

def inUse (contexts : Contexts) : Set ℕ := {a | contexts a ≠ none}

/-- One more context is kept, if the one answered is not freed. -/
def noteKept (m : MemoryState) (e : Completion × List ℕ) (kept : ℕ) : ℕ :=
  match (m.ring[e.1.index]?).bind m.contexts with
  | none => kept
  | some ctx => if release ctx e.1 = .never then kept + 1 else kept

section
variable {contexts contexts' : Contexts} {addrs : List ℕ} {ctxs : List Context} {a : ℕ}
  {ctx : Context} {c : Completion} {n : ℕ}

structure Counted (contexts : Contexts) (n : ℕ) : Prop where
  finite : (inUse contexts).Finite
  count : (inUse contexts).ncard = n

theorem counted_free (h : Counted contexts n) (hlive : contexts a ≠ none) :
    Counted (Function.update contexts a none) (n - 1) := by
  have hset : inUse (Function.update contexts a none) = inUse contexts \ {a} := by
    ext b
    by_cases hba : b = a
    · simp [inUse, hba]
    · simp [inUse, hba]
  have hmem : a ∈ inUse contexts := hlive
  refine ⟨hset ▸ h.finite.sdiff, ?_⟩
  rw [hset, Set.ncard_sdiff_singleton_of_mem hmem, h.count]

theorem counted_new (h : Counted contexts n) (hfree : contexts a = none) :
    Counted (Function.update contexts a (some ctx)) (n + 1) := by
  have hset : inUse (Function.update contexts a (some ctx)) = insert a (inUse contexts) := by
    ext b
    by_cases hba : b = a
    · simp [inUse, hba]
    · simp [inUse, hba]
  have hmem : a ∉ inUse contexts := fun hlive => hlive hfree
  refine ⟨hset ▸ h.finite.insert a, ?_⟩
  rw [hset, Set.ncard_insert_of_notMem hmem h.finite, h.count]

theorem counted_newContexts (h : Counted contexts n)
    (hnew : newContexts contexts addrs ctxs = some contexts') :
    Counted contexts' (n + addrs.length) := by
  induction addrs generalizing contexts ctxs n with
  | nil =>
    cases ctxs with
    | nil =>
      cases hnew
      exact h
    | cons ctx ctxs => cases hnew
  | cons a as ih =>
    cases ctxs with
    | nil => cases hnew
    | cons ctx ctxs =>
      obtain ⟨mid, hmid, hnew⟩ := Option.bind_eq_some_iff.mp hnew
      obtain ⟨hfree, rfl⟩ := cmemNew_eq_some.mp hmid
      have hrest := ih (counted_new h hfree) hnew
      rwa [Nat.add_assoc, Nat.add_comm 1, ← List.length_cons] at hrest

theorem counted_freeWhen {now : Release} (h : Counted contexts n)
    (hfree : freeWhen now ctx c contexts a = some contexts') :
    Counted contexts' (if release ctx c = now then n - 1 else n) := by
  unfold freeWhen at hfree
  split_ifs at hfree ⊢
  · obtain ⟨hlive, rfl⟩ := cmemFree_eq_some.mp hfree
    exact counted_free h hlive
  · exact Option.some.inj hfree ▸ h

theorem release_of_admits (h : ctx.admits c ≠ 0) : release ctx c = .never := by
  cases ctx with
  | accept =>
    unfold Context.admits at h
    split_ifs at h with hres
    · simp at h
    · simp [release, hres]
  | _ => exact absurd rfl h

end

section
variable {rtr : Router} {w w' : MemoryState × ℕ} {e : Completion × List ℕ}

/-- The contexts in use are those in flight and those that were not freed, of which there is
one for every connection. -/
structure Ledger (w : MemoryState × ℕ) : Prop where
  represents : ∃ s, Represents w.1 s
  counted : Counted w.1.contexts (w.1.ring.length + w.2)
  accepted : w.1.loop.nextConn ≤ w.2

theorem ledger_step (h : Ledger w) (hs : watched (memoryStep rtr) noteKept w e = some w') :
    Ledger w' := by
  obtain ⟨m, k⟩ := w
  obtain ⟨m', k'⟩ := w'
  obtain ⟨c, addrs⟩ := e
  obtain ⟨hm, hk⟩ : memoryStep rtr m (c, addrs) = some m' ∧ k' = noteKept m (c, addrs) k :=
    watched_eq_some.mp hs
  obtain ⟨s, hrep⟩ := h.represents
  obtain ⟨s', _, hrep'⟩ := represents_step hrep hm
  obtain ⟨a, ctx, loop, contexts₁, contexts₂, contexts₃, ha, hctx, hallow, hloop, hfirst, hnew,
    hlast, hm'⟩ := memoryStep_cases hm
  have hnext := complete_nextConn hallow hloop
  have hcount := counted_freeWhen (counted_newContexts (counted_freeWhen h.counted hfirst) hnew)
    hlast
  have hlt := (List.getElem?_eq_some_iff.mp ha).1
  have hkept : k' = if release ctx c = .never then k + 1 else k := by
    rw [hk]
    simp only [noteKept, ha, Option.bind_some, hctx]
  have hadmits : ctx.admits c ≤ if release ctx c = .never then 1 else 0 := by
    by_cases hzero : ctx.admits c = 0
    · rw [hzero]
      exact Nat.zero_le _
    · rw [if_pos (release_of_admits hzero)]
      cases ctx with
      | accept => unfold Context.admits; split_ifs <;> decide
      | _ => exact Nat.zero_le _
  have haccepted : m.loop.nextConn ≤ k := h.accepted
  subst hm' hkept
  refine ⟨⟨s', hrep'⟩, ?_, ?_⟩
  · simp only [List.length_append, List.length_eraseIdx, hlt, if_true] at hcount ⊢
    convert hcount using 1
    cases release ctx c <;> simp <;> omega
  · simp only [hnext] at haccepted ⊢
    cases hrel : release ctx c <;> simp [hrel] at hadmits ⊢ <;> omega

theorem ledger_start {others addrs : List ℕ} {m : MemoryState}
    (h : memoryStart others addrs = some m) : Ledger (m, 0) := by
  have hrep := represents_start h
  obtain ⟨contexts, hnew, rfl⟩ := Option.map_eq_some_iff.mp h
  have hnone : inUse (fun _ => none) = ∅ := by
    ext b
    simp [inUse]
  have hempty : Counted (fun _ => none) 0 :=
    ⟨hnone ▸ Set.finite_empty, by rw [hnone, Set.ncard_empty]⟩
  have hcount := counted_newContexts hempty hnew
  rw [Nat.zero_add] at hcount
  exact ⟨⟨_, hrep⟩, hcount, le_rfl⟩

/-- What the server never gives back: the contexts in use are those in flight and one for every
completion that did not free its own, so at least one for every connection accepted. -/
theorem contexts_in_use (rtr : Router) {others addrs : List ℕ} {m₀ m : MemoryState} {kept : ℕ}
    {es : List (Completion × List ℕ)} (hstart : memoryStart others addrs = some m₀)
    (hr : run (watched (memoryStep rtr) noteKept) (m₀, 0) es = some (m, kept)) :
    (inUse m.contexts).Finite ∧ (inUse m.contexts).ncard = m.ring.length + kept ∧
      m.loop.nextConn ≤ kept := by
  have h : Ledger (m, kept) :=
    run_preserves (fun _ _ _ hl hs => ledger_step hl hs) (ledger_start hstart) hr
  exact ⟨h.counted.finite, h.counted.count, h.accepted⟩

end

/-! ## A connection that asks for the index page -/

/-- The addresses returned while it is served; those of freed contexts are used again. -/
def indexPageMemory : List (Completion × List ℕ) :=
  indexPage.zip [[8, 9], [10], [11], [11], [11], [12], [13], []]

theorem contexts_stay_valid_indexPage :
    ∃ m₀ m s, memoryStart baseDescriptors (List.range 8) = some m₀ ∧
      run (memoryStep bareRouter) m₀ indexPageMemory = some m ∧
      run (step bareRouter) (serverStart baseDescriptors) indexPage = some s ∧
      Represents m s := by
  have hrun : ((memoryStart baseDescriptors (List.range 8)).bind fun m₀ =>
      run (memoryStep bareRouter) m₀ indexPageMemory).isSome := by decide +kernel
  obtain ⟨m, hm⟩ := Option.isSome_iff_exists.mp hrun
  obtain ⟨m₀, hstart, hm⟩ := Option.bind_eq_some_iff.mp hm
  obtain ⟨s, hs, hrep, _⟩ := contexts_stay_valid bareRouter hstart hm
  exact ⟨m₀, m, s, hstart, hm, hs, hrep⟩

/-- Five of its contexts are never freed. -/
theorem contexts_in_use_indexPage :
    ∃ m₀ m, memoryStart baseDescriptors (List.range 8) = some m₀ ∧
      run (watched (memoryStep bareRouter) noteKept) (m₀, 0) indexPageMemory = some (m, 5) ∧
      (inUse m.contexts).ncard = 13 := by
  have hrun : ((memoryStart baseDescriptors (List.range 8)).bind fun m₀ =>
      run (watched (memoryStep bareRouter) noteKept) (m₀, 0) indexPageMemory).map
        (fun w => (w.1.ring.length, w.2)) = some (8, 5) := by decide +kernel
  obtain ⟨w, hw, hw'⟩ := Option.map_eq_some_iff.mp hrun
  obtain ⟨m₀, hstart, hw⟩ := Option.bind_eq_some_iff.mp hw
  obtain ⟨m, kept⟩ := w
  have hring : m.ring.length = 8 := congrArg Prod.fst hw'
  have hkept : kept = 5 := congrArg Prod.snd hw'
  subst hkept
  obtain ⟨_, hcount, _⟩ := contexts_in_use bareRouter hstart hw
  exact ⟨m₀, m, hstart, hw, by rw [hcount, hring]⟩

end Cerverus.EventLoop
