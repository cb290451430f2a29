import Cerverus.LoopEffects
import Cerverus.ResumptionCauses

/-!
# The coroutines of the loop on the heap

`Cerverus.EventLoop` holds a coroutine by value in the context of the operation it awaits. Here
its `route_callback_send_file` and the child it waits for are protothreads of the heap, and a
callback of the loop is the chain of their activations.
-/
namespace Cerverus.Protothread
open GuardedRun (Along along_of_invariant)
open Hash Lru Http SpliceAll
open EventLoop (FileT Coroutine LoopState OpenFileLabel)

/-- The locals of a route are those of the coroutine. -/
structure Shows (locals : SendFileLocals) (pt : Coroutine) : Prop where
  callback : pt.callback = .routeCallbackSendFile
  clientFd : locals.clientFd = pt.client.fd
  path : locals.path = pt.path
  file : locals.file = pt.file

/-- The coroutine awaits the operation of a context, and so does the child of the route `p`. -/
inductive Stands (p : ℕ) (pt : Coroutine) :
    Label → PtFn → Label → Operation → Locals → EventLoop.Context → Prop
  | openat : Stands p pt .openFile .asyncIoOpenFile .openat (.openat p)
      (.openFile ⟨pt.path, p⟩) (.openat pt)
  | statx : Stands p pt .openFile .asyncIoOpenFile .statx (.statx p)
      (.openFile ⟨pt.path, p⟩) (.statx pt)
  | send (buffer : Bytes) (own : SendBufferLocals) : Stands p pt .sendBuffer .asyncIoSendBuffer
      .send (.send buffer pt.client.fd) (.sendBuffer own) (.send buffer pt)
  | spliceAll (ctx : SpliceAllContext) (own : SendfileLocals) : Stands p pt .sendfile
      .asyncIoSendfile .spliceAll (.spliceAll ctx) (.sendfile own) (.spliceAll ctx pt)

/-- A context with its protothreads is a context of the loop. -/
inductive Carries (heap : Heap) : Context → EventLoop.Context → Prop
  | child {p c : ℕ} {label wait : Label} {fn : PtFn} {op : Operation} {childLocals : Locals}
      {locals : SendFileLocals} {pt : Coroutine} {lctx : EventLoop.Context}
      (stands : Stands p pt label fn wait op childLocals lctx)
      (child : heap c = some ⟨some wait, some fn, some p, some childLocals⟩)
      (route : RouteAt heap p label locals) (link : locals.child label = some c)
      (shows : Shows locals pt) : Carries heap ⟨op, some c⟩ lctx
  | close {p : ℕ} {locals : SendFileLocals} {pt : Coroutine} (route : RouteAt heap p .close locals)
      (shows : Shows locals pt) :
      Carries heap ⟨.close pt.client.fd, some p⟩ (.close pt.client.fd (some pt))
  | evicted (fd : ℕ) : Carries heap ⟨.close fd, none⟩ (.close fd none)

/-- Not one of the operations that the loop itself waits for. -/
def inCoroutine : EventLoop.Context → Bool
  | .accept | .recv _ _ => false
  | _ => true

/-- The state has the cache of the loop, and its coroutines on the heap. -/
structure Same (s : State) (ls : LoopState) : Prop where
  cache : s.fileCache = ls.fileCache
  inFlight : List.Forall₂ (Carries s.heap) s.inFlight (ls.inFlight.filter inCoroutine)

/-- So it is beside the protothreads of the callback that is going on. -/
structure Beside (s : State) (ls : LoopState) (owned : List ℕ) : Prop extends Same s ls where
  apart : ∀ ctx ∈ s.inFlight, ∀ q ∈ threads s.heap ctx, q ∉ owned ∧ q < s.fresh

/-- A callback has led to the same, or neither has a defined result. -/
inductive Agree : Result State → Option LoopState → Prop
  | both {s : State} {ls : LoopState} (same : Same s ls) : Agree (.ok s) (some ls)
  | neither : Agree (.error .outside) none

section
variable {s s' : State} {ls : LoopState} {heap heap' : Heap} {ctx : Context}
  {lctx : EventLoop.Context} {owned owned' : List ℕ} {c p n : ℕ} {label wait : Label} {fn : PtFn}
  {op : Operation} {st st' : ProtothreadState} {childLocals : Locals} {locals : SendFileLocals}
  {pt : Coroutine} {pipe : Option (ℕ × ℕ)}

theorem agree_defined {α : Type} {a : Option α} {f : α → Result State} {g : α → Option LoopState}
    (h : ∀ x ∈ a, Agree (f x) (g x)) : Agree (defined a >>= f) (a.bind g) := by
  cases a with
  | none => exact .neither
  | some x => exact h x rfl

theorem Stands.inCoroutine (h : Stands p pt label fn wait op childLocals lctx) :
    inCoroutine lctx = true := by
  cases h <;> rfl

/-! ## Frames -/

theorem Carries.frame (h : Carries heap ctx lctx)
    (hsame : ∀ q ∈ threads heap ctx, heap' q = heap q) : Carries heap' ctx lctx := by
  cases h with
  | child stands child route link shows =>
    rw [threads_child child rfl] at hsame
    simp only [List.mem_cons, List.not_mem_nil, or_false, forall_eq_or_imp, forall_eq] at hsame
    exact .child stands (hsame.1.trans child) (hsame.2.trans route) link shows
  | close route shows =>
    rw [threads_route route] at hsame
    exact .close ((hsame _ (List.mem_singleton_self _)).trans route) shows
  | evicted fd => exact .evicted fd

theorem threads_congr (hsame : ∀ q ∈ threads heap ctx, heap' q = heap q) :
    threads heap' ctx = threads heap ctx := by
  unfold threads at hsame ⊢
  cases hpt : ctx.pt with
  | none => rfl
  | some q =>
    rw [hpt] at hsame
    simp only [hsame q List.mem_cons_self]

/-- What happens to the protothreads of the callback does not concern the others, and it may use
addresses that are new. -/
theorem Beside.frame (h : Beside s ls owned) (hin : s'.inFlight = s.inFlight)
    (hcache : s'.fileCache = s.fileCache) (hfresh : s.fresh ≤ s'.fresh)
    (hown : ∀ q ∈ owned', q ∈ owned ∨ s.fresh ≤ q)
    (hheap : ∀ q, q ∉ owned → q < s.fresh → s'.heap q = s.heap q) : Beside s' ls owned' := by
  have hsame : ∀ ctx ∈ s.inFlight, ∀ q ∈ threads s.heap ctx, s'.heap q = s.heap q := by
    intro ctx hctx q hq
    obtain ⟨hno, hlt⟩ := h.apart ctx hctx q hq
    exact hheap q hno hlt
  refine ⟨⟨hcache.trans h.cache, ?_⟩, fun ctx hctx q hq => ?_⟩
  · rw [hin]
    refine ((List.forall₂_and_left _ _).mpr ⟨hsame, h.inFlight⟩).imp ?_
    exact fun ctx lctx hboth => hboth.2.frame hboth.1
  · rw [hin] at hctx
    rw [threads_congr (hsame ctx hctx)] at hq
    obtain ⟨hno, hlt⟩ := h.apart ctx hctx q hq
    refine ⟨fun hmem => ?_, hlt.trans_le hfresh⟩
    rcases hown q hmem with hold | hnew
    · exact hno hold
    · exact absurd hlt (not_lt.mpr hnew)

theorem Beside.write (h : Beside s ls owned) (hp : p ∈ owned) (st : ProtothreadState) :
    Beside (s.write p st) ls owned :=
  h.frame rfl rfl le_rfl (fun _ => Or.inl)
    fun _ hq _ => Function.update_of_ne (ne_of_mem_of_not_mem hp hq).symm _ _

theorem Beside.log (h : Beside s ls owned) (e : Lifecycle.Event ℕ) : Beside (s.log e) ls owned :=
  h.frame rfl rfl le_rfl (fun _ => Or.inl) fun _ _ _ => rfl

theorem Beside.free (h : Beside s ls [c, p]) :
    Beside { s with heap := Function.update s.heap c none } ls [p] := by
  refine h.frame rfl rfl le_rfl (fun q hq => Or.inl (List.mem_cons_of_mem _ hq)) fun q hq _ => ?_
  exact Function.update_of_ne (ne_of_mem_of_not_mem List.mem_cons_self hq).symm _ _

theorem Beside.create (h : Beside s ls owned) (caller : Option ℕ) (locals : Locals) :
    Beside (s.create caller locals) ls (s.fresh :: owned) := by
  refine h.frame rfl rfl (Nat.le_succ _) (fun q hq => ?_) fun q _ hlt =>
    Function.update_of_ne hlt.ne _ _
  rcases List.mem_cons.mp hq with rfl | hq
  · exact Or.inr le_rfl
  · exact Or.inl hq

theorem Beside.cached (h : Beside s ls owned) (cache : LruCache FileT) :
    Beside { s with fileCache := cache } { ls with fileCache := cache } owned :=
  ⟨⟨rfl, h.inFlight⟩, h.apart⟩

theorem Beside.withOpened (h : Beside s ls owned) (opened : ℕ → Option EventLoop.Handle) :
    Beside s { ls with opened := opened } owned :=
  ⟨⟨h.cache, h.inFlight⟩, h.apart⟩

theorem Same.submit {q : Option ℕ} (h : Same s ls) (hcarries : Carries s.heap ⟨op, q⟩ lctx)
    (hin : inCoroutine lctx = true) : Same (s.submit op q) (EventLoop.submit ls lctx) := by
  refine ⟨h.cache, ?_⟩
  change List.Forall₂ _ (s.inFlight ++ [_]) ((ls.inFlight ++ [lctx]).filter inCoroutine)
  rw [List.filter_append, List.filter_cons_of_pos hin, List.filter_nil]
  exact List.rel_append h.inFlight (.cons hcarries .nil)

theorem Beside.evict (h : Beside s ls owned) (file : FileT) :
    Beside (s.submit (.close file.fd) none) (EventLoop.fileEvictionHandler ls file) owned := by
  refine ⟨h.toSame.submit (.evicted file.fd) rfl, fun ctx hctx q hq => ?_⟩
  rcases List.mem_append.mp hctx with hctx | hctx
  · exact h.apart ctx hctx q hq
  · rw [List.mem_singleton.mp hctx] at hq
    cases hq

/-! ## A route and its child -/

/-- The route waits for the child, with the locals of the coroutine. -/
structure Joined (s : State) (ls : LoopState) (c p : ℕ) (label : Label) (st : ProtothreadState)
    (locals : SendFileLocals) (pt : Coroutine) : Prop where
  beside : Beside s ls [c, p]
  ne : c ≠ p
  lt : p < s.fresh
  child : s.heap c = some st
  route : RouteAt s.heap p label locals
  link : locals.child label = some c
  shows : Shows locals pt

theorem Joined.write (h : Joined s ls c p label st locals pt) (st' : ProtothreadState) :
    Joined (s.write c st') ls c p label st' locals pt :=
  ⟨h.beside.write (by simp) _, h.ne, h.lt, Function.update_self _ _ _,
    (Function.update_of_ne h.ne.symm _ _).trans h.route, h.link, h.shows⟩

theorem Joined.log (h : Joined s ls c p label st locals pt) (e : Lifecycle.Event ℕ) :
    Joined (s.log e) ls c p label st locals pt :=
  ⟨h.beside.log e, h.ne, h.lt, h.child, h.route, h.link, h.shows⟩

theorem Joined.cached (h : Joined s ls c p label st locals pt) (cache : LruCache FileT) :
    Joined { s with fileCache := cache } { ls with fileCache := cache } c p label st locals pt :=
  ⟨h.beside.cached cache, h.ne, h.lt, h.child, h.route, h.link, h.shows⟩

theorem Joined.withOpened (h : Joined s ls c p label st locals pt)
    (opened : ℕ → Option EventLoop.Handle) :
    Joined s { ls with opened := opened } c p label st locals pt :=
  ⟨h.beside.withOpened opened, h.ne, h.lt, h.child, h.route, h.link, h.shows⟩

theorem Joined.evict (h : Joined s ls c p label st locals pt) (file : FileT) :
    Joined (s.submit (.close file.fd) none) (EventLoop.fileEvictionHandler ls file) c p label st
      locals pt :=
  ⟨h.beside.evict file, h.ne, h.lt, h.child, h.route, h.link, h.shows⟩

/-- A write through the `file_t *` of the child changes the file of the coroutine. -/
theorem Joined.setFile (h : Joined s ls c p label st locals pt) (f : FileT → FileT) :
    ∃ t locals', setFile s p f = .ok t ∧
      Joined t ls c p label st locals' { pt with file := f pt.file } := by
  refine ⟨_, { locals with file := f locals.file }, setFile_route h.route f, ?_⟩
  constructor
  · exact h.beside.write (by simp) _
  · exact h.ne
  · exact h.lt
  · exact (Function.update_of_ne h.ne _ _).trans h.child
  · exact Function.update_self _ _ _
  · rw [child_withFile]
    exact h.link
  · exact ⟨h.shows.callback, h.shows.clientFd, h.shows.path, congrArg f h.shows.file⟩

theorem Joined.submits
    (h : Joined s ls c p label ⟨some wait, some fn, some p, some childLocals⟩ locals pt)
    (hstands : Stands p pt label fn wait op childLocals lctx) :
    Agree (.ok (s.submit op (some c))) (some (EventLoop.submit ls lctx)) :=
  .both (h.beside.submit (.child hstands h.child h.route h.link h.shows) hstands.inCoroutine)

theorem Joined.waits (h : Joined s ls c p label st locals pt)
    (hstands : Stands p pt label fn wait op childLocals lctx) (hself : st'.self = some fn)
    (hcaller : st'.caller = some p) (hlocals : st'.locals = some childLocals) :
    Agree (.ok ((ptWait s c st' wait).submit op (some c))) (some (EventLoop.submit ls lctx)) := by
  obtain ⟨resumeLabel, self, caller, childLocals'⟩ := st'
  simp only at hself hcaller hlocals
  subst hself hcaller hlocals
  exact ((h.write _).log (.waited c)).submits hstands

/-! ## Chains of activations -/

theorem chain_call (pipe : Option (ℕ × ℕ)) (n : ℕ) (s : State) (call : Call) :
    chain pipe (n + 1) (s, some call) = activate pipe s call >>= chain pipe n := rfl

theorem chain_none (pipe : Option (ℕ × ℕ)) (n : ℕ) (s : State) :
    chain pipe n (s, none) = .ok s := by
  cases n <;> rfl

theorem Beside.starts (h : Beside s ls [p]) (hlt : p < s.fresh) (resumeLabel : Option Label)
    (label : Label) (locals : SendFileLocals) (childLocals : Locals) (hshows : Shows locals pt)
    (hlink : locals.child label = some s.fresh) :
    Joined (ptWait (s.create (some p) childLocals) p
      ⟨resumeLabel, some .routeCallbackSendFile, none, some (.route locals)⟩ label) ls s.fresh p
      label ⟨none, none, some p, some childLocals⟩ locals pt := by
  constructor
  · exact ((h.create (some p) childLocals).write (by simp) _).log _
  · exact hlt.ne'
  · exact hlt.trans (Nat.lt_succ_self _)
  · exact (Function.update_of_ne hlt.ne' _ _).trans (Function.update_self _ _ _)
  · exact Function.update_self _ _ _
  · exact hlink
  · exact hshows

theorem Joined.ends (h : Joined s ls c p label st locals pt) (st' : ProtothreadState)
    (hcaller : st'.caller = some p) :
    ∃ t st'', ptEnd s c st' = .ok (t, some ⟨.routeCallbackSendFile, p⟩) ∧
      Joined t ls c p label st'' locals pt := by
  obtain ⟨resumeLabel, self, caller, childLocals⟩ := st'
  simp only at hcaller
  subst hcaller
  have h' := (h.write ⟨none, self, some p, childLocals⟩).log (.ended c)
  refine ⟨_, _, ?_, h'⟩
  simp only [ptEnd, callSelf_route h'.route, ok_bind]

theorem destroy_eq (h : s.heap c = some st) :
    destroy s (some c) = .ok { s with heap := Function.update s.heap c none } := by
  simp [destroy, load_of_heap h]

/-- What an activation of the route starts with, when its child is over. -/
theorem Joined.activate_route (h : Joined s ls c p label st locals pt) (pipe : Option (ℕ × ℕ)) :
    activate pipe s ⟨.routeCallbackSendFile, p⟩ = routeCallbackSendFile (s.log (.called p)) p ∧
      load (s.log (.called p)) p =
        .ok ⟨some label, some .routeCallbackSendFile, none, some (.route locals)⟩ ∧
      destroy (s.log (.called p)) (some c) =
        .ok { s.log (.called p) with heap := Function.update s.heap c none } ∧
      Beside { s.log (.called p) with heap := Function.update s.heap c none } ls [p] :=
  ⟨rfl, load_of_heap h.route, destroy_eq h.child, (h.beside.log (.called p)).free⟩

theorem Joined.sendBuffer {raw : Bytes} (h : Joined s ls c p .sendBuffer
    ⟨none, none, some p, some (.sendBuffer ⟨raw, pt.client.fd⟩)⟩ locals pt) (n : ℕ) :
    Agree (chain pipe (n + 1) (s, some ⟨.asyncIoSendBuffer, c⟩))
      (some (EventLoop.handleSendSubmission ls raw pt)) := by
  have h' := h.log (.called c)
  have hrun : activate pipe s ⟨.asyncIoSendBuffer, c⟩ =
      asyncIoSendBuffer (s.log (.called c)) c := rfl
  rw [chain_call, hrun, asyncIoSendBuffer, load_of_heap h'.child, ok_bind]
  simp only [sendBufferLocals, ok_bind, chain_none]
  exact h'.waits (.send raw _) rfl rfl rfl

theorem Joined.sendfile (h : Joined s ls c p .sendfile
    ⟨none, none, some p, some (.sendfile ⟨pt.client.fd, p, none⟩)⟩ locals pt) (n : ℕ) :
    Agree (chain pipe (n + 1) (s, some ⟨.asyncIoSendfile, c⟩))
      (some (EventLoop.asyncIoSendfile ls pt pipe)) := by
  have h' := h.log (.called c)
  have hrun : activate pipe s ⟨.asyncIoSendfile, c⟩ =
      asyncIoSendfile pipe (s.log (.called c)) c := rfl
  rw [chain_call, hrun, asyncIoSendfile, load_of_heap h'.child, ok_bind]
  simp only [sendfileLocals, ok_bind, chain_none, getFile_route h'.route, h.shows.file]
  exact (h'.withOpened _).waits (.spliceAll _ _) rfl rfl rfl

theorem Joined.opened (h : Joined s ls c p .openFile st locals pt) (n : ℕ) :
    Agree (chain pipe (n + 2) (s, some ⟨.routeCallbackSendFile, p⟩))
      (EventLoop.afterOpenFile ls pt) := by
  obtain ⟨hrun, hload, hdestroy, hbeside⟩ := h.activate_route pipe
  have hlink : locals.openFileState = some c := h.link
  rw [chain_call, hrun, routeCallbackSendFile, hload, ok_bind]
  simp only [routeLocals, ok_bind, sendFileOpened]
  rw [hlink, hdestroy, ok_bind, h.shows.file, h.shows.clientFd, bind_assoc]
  refine agree_defined fun res _ => ?_
  have hnext := hbeside.starts h.lt (some .openFile) .sendBuffer
    ⟨pt.client.fd, locals.path, pt.file, responseSerialize res, some c, some s.fresh,
      locals.sendfileState⟩ (.sendBuffer ⟨responseSerialize res, pt.client.fd⟩)
    ⟨h.shows.callback, rfl, h.shows.path, rfl⟩ rfl
  exact hnext.sendBuffer n

theorem Joined.sent (h : Joined s ls c p .sendBuffer st locals pt) (n : ℕ) :
    Agree (chain pipe (n + 2) (s, some ⟨.routeCallbackSendFile, p⟩))
      (EventLoop.afterSendBuffer ls pt pipe) := by
  obtain ⟨hrun, hload, hdestroy, hbeside⟩ := h.activate_route pipe
  have hlink : locals.sendBufferState = some c := h.link
  rw [chain_call, hrun, routeCallbackSendFile, hload, ok_bind]
  simp only [routeLocals, ok_bind, sendFileSent]
  rw [hlink, hdestroy, ok_bind, h.shows.clientFd, EventLoop.afterSendBuffer, h.shows.callback]
  have hnext := hbeside.starts h.lt (some .sendBuffer) .sendfile
    ⟨pt.client.fd, locals.path, locals.file, locals.rawRes, locals.openFileState, some c,
      some s.fresh⟩ (.sendfile ⟨pt.client.fd, p, none⟩)
    ⟨h.shows.callback, rfl, h.shows.path, h.shows.file⟩ rfl
  exact hnext.sendfile n

theorem Joined.spliced (h : Joined s ls c p .sendfile st locals pt) (n : ℕ) :
    Agree (chain pipe (n + 1) (s, some ⟨.routeCallbackSendFile, p⟩))
      (EventLoop.afterSendfile ls pt) := by
  obtain ⟨hrun, hload, hdestroy, hbeside⟩ := h.activate_route pipe
  have hlink : locals.sendfileState = some c := h.link
  rw [chain_call, hrun, routeCallbackSendFile, hload, ok_bind]
  simp only [routeLocals, ok_bind, sendFileSpliced]
  rw [hlink, hdestroy, ok_bind, h.shows.clientFd, EventLoop.afterSendfile, h.shows.callback]
  have hwrite := (hbeside.write (List.mem_singleton_self p) ⟨some .close,
    some .routeCallbackSendFile, none, some (.route locals)⟩).log (.waited p)
  simp only [ok_bind, chain_none]
  exact .both (hwrite.submit (.close (Function.update_self _ _ _) h.shows) rfl)

def resumedAt : OpenFileLabel → Option Label
  | .start => none
  | .afterOpenat => some .openat
  | .afterStatx => some .statx

theorem Joined.hits (h : Joined s ls c p .openFile st locals pt) (hcaller : st.caller = some p)
    (path : Bytes) (file : FileT) (n : ℕ) :
    Agree (openFileHit s c st ⟨path, p⟩ file >>= chain pipe (n + 2))
      (EventLoop.afterOpenFile ls { pt with file := file }) := by
  obtain ⟨t, locals', hset, h'⟩ := h.setFile fun _ => file
  have hpassed := h'.log (.passed c)
  rw [openFileHit, hset, ok_bind, hcaller]
  dsimp only
  rw [callSelf_route hpassed.route]
  exact hpassed.opened n

theorem Joined.caches (h : Joined s ls c p .openFile st locals pt) (hcaller : st'.caller = some p)
    (n : ℕ) :
    Agree (openFileEnd s c st' ⟨pt.path, p⟩ >>= chain pipe (n + 2))
      ((EventLoop.cacheFile ls pt).bind fun ls => EventLoop.afterOpenFile ls pt) := by
  rw [openFileEnd, getFile_route h.route, ok_bind, h.shows.file, h.beside.cache,
    EventLoop.cacheFile, bind_assoc, Option.bind_eq_bind, Option.bind_assoc]
  refine agree_defined fun r _ => ?_
  dsimp only
  cases r.evicted with
  | none =>
    obtain ⟨t, st'', hend, h'⟩ := (h.cached r.cache).ends st' hcaller
    rw [Option.elim_none, hend]
    exact h'.opened n
  | some file =>
    obtain ⟨t, st'', hend, h'⟩ := ((h.evict file).cached r.cache).ends st' hcaller
    have hsame : ({ s with fileCache := r.cache } : State).submit (.close file.fd) none =
        { s.submit (.close file.fd) none with fileCache := r.cache } := rfl
    rw [Option.elim_some, hsame, hend]
    exact h'.opened n

theorem Joined.openFile (h : Joined s ls c p .openFile st locals pt) (hcaller : st.caller = some p)
    (hlocals : st.locals = some (.openFile ⟨pt.path, p⟩)) {at' : OpenFileLabel}
    (hlabel : st.resumeLabel = resumedAt at') (n : ℕ) :
    Agree (chain pipe (n + 3) (s, some ⟨.asyncIoOpenFile, c⟩))
      (EventLoop.asyncIoOpenFile ls at' pt) := by
  have hcalled := h.log (.called c)
  have hrun : activate pipe s ⟨.asyncIoOpenFile, c⟩ =
      asyncIoOpenFile (s.log (.called c)) c := rfl
  have hopen : openFileLocals st = .ok ⟨pt.path, p⟩ := by simp [openFileLocals, hlocals]
  rw [chain_call, hrun, asyncIoOpenFile, load_of_heap hcalled.child, ok_bind, hopen, ok_bind,
    bind_assoc, hcalled.beside.cache]
  refine agree_defined fun r _ => ?_
  have h' := hcalled.cached r.2
  dsimp only
  cases r.1 with
  | some hit => exact h'.hits hcaller pt.path hit.2 n
  | none =>
    rw [openFileMiss]
    cases at' with
    | start =>
      simp only [hlabel, resumedAt]
      rw [bind_assoc]
      refine agree_defined fun name _ => ?_
      obtain ⟨t, locals', hset, h''⟩ := h'.setFile fun file => { file with name := name }
      rw [hset, ok_bind, ok_bind, chain_none]
      exact h''.waits .openat rfl hcaller hlocals
    | afterOpenat =>
      simp only [hlabel, resumedAt, ok_bind, chain_none]
      exact h'.waits .statx rfl hcaller hlocals
    | afterStatx =>
      simp only [hlabel, resumedAt]
      refine h'.caches ?_ n
      exact hcaller

/-! ## Callbacks -/

/-- What a completion of the loop contributes to the callback of the operation `i`. -/
def completionOf (c : EventLoop.Completion) (i : ℕ) : Completion := ⟨i, c.res, c.stxSize, c.pipe⟩

theorem completionOf_res (c : EventLoop.Completion) (i : ℕ) : (completionOf c i).res = c.res := rfl

theorem completionOf_stxSize (c : EventLoop.Completion) (i : ℕ) :
    (completionOf c i).stxSize = c.stxSize := rfl

theorem Joined.resumes
    (h : Joined s ls c p label ⟨some wait, some fn, some p, some childLocals⟩ locals pt) :
    (callSelf s (some c) >>= fun call => .ok (s, some call)) =
      (.ok (s, some ⟨fn, c⟩) : Result (State × Option Call)) := by
  simp [callSelf, load_of_heap h.child]

/-- A new route, up to the first operation of its child. -/
theorem start_agree (h : Beside s ls []) (client : EventLoop.Client) (path : Bytes) :
    Agree (step s (.start client.fd path))
      (EventLoop.prepRouteCallbackSendFile ls client path) := by
  let locals : SendFileLocals := ⟨client.fd, path, ⟨0, [], 0⟩, [], none, none, none⟩
  let pt : Coroutine := ⟨.routeCallbackSendFile, client, path, ⟨0, [], 0⟩⟩
  let t := (s.create none (.route locals)).log (.called s.fresh)
  have hbeside : Beside t ls [s.fresh] := (h.create none (.route locals)).log _
  have hload : load t s.fresh = .ok ⟨none, none, none, some (.route locals)⟩ :=
    load_of_heap (Function.update_self _ _ _)
  have hstep : step s (.start client.fd path) =
      routeCallbackSendFile t s.fresh >>= chain none 3 := rfl
  have hnext := hbeside.starts (Nat.lt_succ_self _) none .openFile
    { locals with openFileState := some t.fresh } (.openFile ⟨path, s.fresh⟩)
    (show Shows { locals with openFileState := some t.fresh } pt from ⟨rfl, rfl, rfl, rfl⟩) rfl
  have hopen : Agree (chain none 3 _) _ :=
    hnext.openFile rfl rfl (show none = resumedAt .start from rfl) 0
  rw [hstep, routeCallbackSendFile, hload, ok_bind]
  exact hopen

section
variable {rtr : EventLoop.Router} {cqe : EventLoop.Completion} {i : ℕ}

theorem Joined.openatCompletes (h : Joined s ls c p .openFile
    ⟨some .openat, some .asyncIoOpenFile, some p, some (.openFile ⟨pt.path, p⟩)⟩ locals pt) :
    Agree (complete s ⟨.openat p, some c⟩ (completionOf cqe i) >>= chain cqe.pipe chainLimit)
      (EventLoop.handleOpenatCompletion ls pt cqe) := by
  rw [complete, completionOf_res, EventLoop.handleOpenatCompletion]
  by_cases hres : cqe.res < 0
  · rw [if_pos hres, if_pos hres, opExit]
    dsimp only
    rw [h.resumes]
    exact h.openFile rfl rfl (show some Label.openat = resumedAt .afterOpenat from rfl) 1
  · obtain ⟨t, locals', hset, h'⟩ := h.setFile fun file => { file with fd := cqe.res.toNat }
    rw [if_neg hres, if_neg hres]
    dsimp only
    rw [handleOpenatCompletion, completionOf_res, hset, ok_bind, h'.resumes]
    exact (h'.withOpened _).openFile rfl rfl
      (show some Label.openat = resumedAt .afterOpenat from rfl) 1

theorem Joined.statxCompletes (h : Joined s ls c p .openFile
    ⟨some .statx, some .asyncIoOpenFile, some p, some (.openFile ⟨pt.path, p⟩)⟩ locals pt) :
    Agree (complete s ⟨.statx p, some c⟩ (completionOf cqe i) >>= chain cqe.pipe chainLimit)
      (EventLoop.handleStatxCompletion ls pt cqe) := by
  rw [complete, completionOf_res, EventLoop.handleStatxCompletion, EventLoop.statxResult]
  by_cases hres : cqe.res < 0
  · rw [if_pos hres, if_pos hres, opExit]
    dsimp only
    rw [h.resumes]
    exact h.openFile rfl rfl (show some Label.statx = resumedAt .afterStatx from rfl) 1
  · obtain ⟨t, locals', hset, h'⟩ := h.setFile fun file => { file with stxSize := cqe.stxSize }
    rw [if_neg hres, if_neg hres]
    dsimp only
    rw [handleStatxCompletion, completionOf_stxSize, hset, ok_bind, h'.resumes]
    exact h'.openFile rfl rfl (show some Label.statx = resumedAt .afterStatx from rfl) 1

theorem Joined.sendBufferEnds {own : SendBufferLocals} (h : Joined s ls c p .sendBuffer
    ⟨some .send, some .asyncIoSendBuffer, some p, some (.sendBuffer own)⟩ locals pt) (n : ℕ) :
    Agree (chain pipe (n + 3) (s, some ⟨.asyncIoSendBuffer, c⟩))
      (EventLoop.afterSendBuffer ls pt pipe) := by
  have hcalled := h.log (.called c)
  have hrun : activate pipe s ⟨.asyncIoSendBuffer, c⟩ =
      asyncIoSendBuffer (s.log (.called c)) c := rfl
  rw [chain_call, hrun, asyncIoSendBuffer, load_of_heap hcalled.child, ok_bind]
  simp only [sendBufferLocals, ok_bind]
  obtain ⟨t, st'', hend, h'⟩ := hcalled.ends
    ⟨some .send, some .asyncIoSendBuffer, some p, some (.sendBuffer own)⟩ rfl
  rw [hend]
  exact h'.sent n

theorem Joined.sendfileEnds {own : SendfileLocals} (h : Joined s ls c p .sendfile
    ⟨some .spliceAll, some .asyncIoSendfile, some p, some (.sendfile own)⟩ locals pt) (n : ℕ) :
    Agree (chain pipe (n + 2) (s, some ⟨.asyncIoSendfile, c⟩))
      (EventLoop.afterSendfile ls pt) := by
  have hcalled := h.log (.called c)
  have hrun : activate pipe s ⟨.asyncIoSendfile, c⟩ =
      asyncIoSendfile pipe (s.log (.called c)) c := rfl
  rw [chain_call, hrun, asyncIoSendfile, load_of_heap hcalled.child, ok_bind]
  simp only [sendfileLocals, ok_bind]
  obtain ⟨t, st'', hend, h'⟩ := hcalled.ends
    ⟨some .spliceAll, some .asyncIoSendfile, some p, some (.sendfile own)⟩ rfl
  rw [hend]
  exact h'.spliced n

theorem Joined.sendCompletes {buffer : Bytes} {own : SendBufferLocals}
    (h : Joined s ls c p .sendBuffer
      ⟨some .send, some .asyncIoSendBuffer, some p, some (.sendBuffer own)⟩ locals pt) :
    Agree (complete s ⟨.send buffer pt.client.fd, some c⟩ (completionOf cqe i) >>=
        chain cqe.pipe chainLimit)
      (EventLoop.handleSendCompletion ls buffer pt cqe) := by
  rw [complete, completionOf_res, EventLoop.handleSendCompletion]
  by_cases hres : cqe.res < 0
  · rw [if_pos hres, if_pos hres, opExit]
    dsimp only
    rw [h.resumes]
    exact h.sendBufferEnds 1
  · rw [if_neg hres, if_neg hres]
    dsimp only
    rw [handleSendCompletion, completionOf_res]
    by_cases hrest : buffer.drop cqe.res.toNat ≠ []
    · rw [if_pos hrest, if_pos hrest]
      exact h.submits (.send _ own)
    · rw [if_neg hrest, if_neg hrest, opExit]
      dsimp only
      rw [h.resumes]
      exact h.sendBufferEnds 1

theorem Joined.spliceCompletes {ctx : SpliceAllContext} {own : SendfileLocals}
    (h : Joined s ls c p .sendfile
      ⟨some .spliceAll, some .asyncIoSendfile, some p, some (.sendfile own)⟩ locals pt) :
    Agree (complete s ⟨.spliceAll ctx, some c⟩ (completionOf cqe i) >>= chain cqe.pipe chainLimit)
      (EventLoop.handleSpliceAllCompletion ls ctx pt cqe) := by
  rw [complete, completionOf_res, EventLoop.handleSpliceAllCompletion]
  by_cases hres : cqe.res < 0
  · have hover : (SpliceAll.handleSpliceAllCompletion cqe.res ctx).2 = true := by
      rw [SpliceAll.handleSpliceAllCompletion, if_pos hres]
    rw [if_pos hres, opExit]
    dsimp only
    rw [if_pos hover, h.resumes]
    exact h.sendfileEnds 2
  · rw [if_neg hres]
    dsimp only
    rw [handleSpliceAllCompletion, completionOf_res]
    by_cases hover : (SpliceAll.handleSpliceAllCompletion cqe.res ctx).2 = true
    · rw [if_pos hover, if_pos hover, h.resumes]
      exact h.sendfileEnds 2
    · rw [if_neg hover, if_neg hover]
      exact h.submits (.spliceAll _ own)

theorem Carries.completes (hcarries : Carries s.heap ctx lctx)
    (h : Beside s ls (threads s.heap ctx)) (hnodup : (threads s.heap ctx).Nodup)
    (hlt : ∀ q ∈ threads s.heap ctx, q < s.fresh) (rtr : EventLoop.Router)
    (cqe : EventLoop.Completion) (i : ℕ) :
    Agree (complete s ctx (completionOf cqe i) >>= chain cqe.pipe chainLimit)
      (EventLoop.complete rtr ls lctx cqe) := by
  cases hcarries with
  | child stands child route link shows =>
    rw [threads_child child rfl] at h hnodup hlt
    have hjoined := Joined.mk h (by simpa using hnodup) (hlt _ (by simp)) child route link shows
    cases stands with
    | openat => exact hjoined.openatCompletes
    | statx => exact hjoined.statxCompletes
    | send buffer own => exact hjoined.sendCompletes
    | spliceAll ctx own => exact hjoined.spliceCompletes
  | @close p locals pt route shows =>
    rw [threads_route route] at h
    have hcall := callSelf_route route
    have hload : load (s.log (.called p)) p = .ok _ := load_of_heap route
    have hend : (Except.ok (s, some ⟨.routeCallbackSendFile, p⟩) >>= chain cqe.pipe chainLimit :
        Result State) = routeCallbackSendFile (s.log (.called p)) p >>= chain cqe.pipe 3 := rfl
    rw [complete_close, opExit]
    dsimp only
    rw [hcall, ok_bind, hend, routeCallbackSendFile, hload, ok_bind]
    simp only [routeLocals, ok_bind, ptEnd, chain_none]
    exact .both ((((h.log _).write (by simp) _).log _).withOpened _).toSame
  | evicted fd =>
    rw [complete_close]
    exact .both (h.withOpened _).toSame

/-! ## The loop -/

theorem filter_eraseIdx {α : Type} {P : α → Bool} {l : List α} {i : ℕ} {a : α}
    (h : l[i]? = some a) (ha : P a = true) :
    ∃ j, (l.filter P)[j]? = some a ∧ (l.eraseIdx i).filter P = (l.filter P).eraseIdx j := by
  induction l generalizing i with
  | nil => cases h
  | cons x xs ih =>
    cases i with
    | zero =>
      cases h
      exact ⟨0, by simp [ha]⟩
    | succ i =>
      obtain ⟨j, hj, herase⟩ := ih h
      cases hx : P x with
      | true => exact ⟨j + 1, by simp [hx, hj, herase]⟩
      | false => exact ⟨j, by simp [hx, hj, herase]⟩

theorem filter_eraseIdx_of_neg {α : Type} {P : α → Bool} {l : List α} {i : ℕ} {a : α}
    (h : l[i]? = some a) (ha : P a = false) : (l.eraseIdx i).filter P = l.filter P := by
  induction l generalizing i with
  | nil => cases h
  | cons x xs ih =>
    cases i with
    | zero =>
      cases h
      simp [ha]
    | succ i => simp [List.filter_cons, ih h]

/-- Callbacks on the heap lead to the coroutines of the loop. -/
def OnHeap (cache : LruCache FileT) (ls : LoopState) : Prop :=
  ∃ callbacks s, run (start cache) callbacks = .ok s ∧ Same s ls

section
variable {cache : LruCache FileT} {callbacks : List Callback} {ls' : LoopState}

theorem run_snoc {t u : State} {callback : Callback} (hrun : run s callbacks = .ok t)
    (hstep : step t callback = .ok u) : run s (callbacks ++ [callback]) = .ok u := by
  induction callbacks generalizing s with
  | nil =>
    cases hrun
    rw [List.nil_append, run, hstep]
    rfl
  | cons first callbacks ih =>
    rw [run] at hrun
    cases hs : step s first with
    | error fault =>
      rw [hs] at hrun
      cases hrun
    | ok s' =>
      rw [hs] at hrun
      rw [List.cons_append, run, hs]
      exact ih hrun

theorem mid_of_run (hrun : run (start cache) callbacks = .ok s) : Mid s [] := by
  have hyields := run_mid (mid_start cache) callbacks
  rw [hrun] at hyields
  exact hyields

theorem onHeap_callback {callback : Callback} (hrun : run (start cache) callbacks = .ok s)
    (hagree : Agree (step s callback) (some ls')) : OnHeap cache ls' := by
  cases hstep : step s callback with
  | error fault =>
    rw [hstep] at hagree
    cases hagree
  | ok t =>
    rw [hstep] at hagree
    cases hagree with
    | both hsame => exact ⟨_, t, run_snoc hrun hstep, hsame⟩

theorem Mid.below (h : Mid s owned) (hctx : ctx ∈ s.inFlight) {q : ℕ}
    (hq : q ∈ threads s.heap ctx) : q < s.fresh := by
  by_contra hge
  have hsus := (h.tasks ctx hctx).suspended hq
  simp [Suspended, (h.unused q (not_lt.mp hge)).2.1] at hsus

theorem beside_of_mid (hm : Mid s []) (h : Same s ls) : Beside s ls [] :=
  ⟨h, fun _ hctx _ hq => ⟨List.not_mem_nil, hm.below hctx hq⟩⟩

theorem beside_take (hm : Mid s []) (h : Same s ls) {i : ℕ} (hi : s.inFlight[i]? = some ctx)
    (hcache : ls'.fileCache = ls.fileCache)
    (herase : ls'.inFlight.filter inCoroutine = (ls.inFlight.filter inCoroutine).eraseIdx i) :
    Beside { s with inFlight := s.inFlight.eraseIdx i } ls' (threads s.heap ctx) := by
  obtain ⟨hmid, _⟩ := hm.take hi
  refine ⟨⟨h.cache.trans hcache.symm, ?_⟩, fun ctx' hctx' q hq => ⟨fun hmem => ?_, ?_⟩⟩
  · rw [herase, List.eraseIdx_eq_take_drop_succ, List.eraseIdx_eq_take_drop_succ]
    exact List.rel_append (List.forall₂_take _ h.inFlight) (List.forall₂_drop _ h.inFlight)
  · exact hmid.notMem hmem (List.mem_flatMap.mpr ⟨ctx', hctx', hq⟩)
  · exact hmid.below hctx' hq

theorem onHeap_complete {rtr : EventLoop.Router} {c : EventLoop.Completion}
    (h : OnHeap cache ls) (hctx : ls.inFlight[c.index]? = some lctx)
    (hin : inCoroutine lctx = true)
    (hs : EventLoop.complete rtr { ls with inFlight := ls.inFlight.eraseIdx c.index } lctx c =
      some ls') : OnHeap cache ls' := by
  obtain ⟨callbacks, s, hrun, hsame⟩ := h
  have hm := mid_of_run hrun
  obtain ⟨i, hi, herase⟩ := filter_eraseIdx hctx hin
  obtain ⟨hlt, hget⟩ := List.getElem?_eq_some_iff.mp hi
  have hlt' : i < s.inFlight.length := hsame.inFlight.length_eq.symm ▸ hlt
  have hcarries : Carries s.heap s.inFlight[i] lctx := hget ▸ hsame.inFlight.get hlt' hlt
  have hi' := List.getElem?_eq_getElem hlt'
  have hbeside : Beside { s with inFlight := s.inFlight.eraseIdx i }
      { ls with inFlight := ls.inFlight.eraseIdx c.index } (threads s.heap s.inFlight[i]) :=
    beside_take hm hsame hi' rfl herase
  have hnodup : (threads s.heap s.inFlight[i]).Nodup :=
    (List.nodup_append.mp (hm.take hi').1.apart).1
  have hagree := hcarries.completes (s := { s with inFlight := s.inFlight.eraseIdx i }) hbeside
    hnodup (fun q hq => hm.below (List.getElem_mem hlt') hq) rtr c i
  have hstep : step s (.complete (completionOf c i)) =
      complete { s with inFlight := s.inFlight.eraseIdx i } s.inFlight[i] (completionOf c i) >>=
        chain c.pipe chainLimit := by
    rw [step, show (completionOf c i).index = i from rfl, hi']
    rfl
  rw [hs, ← hstep] at hagree
  exact onHeap_callback hrun hagree

theorem onHeap_start (h : OnHeap cache ls) {client : EventLoop.Client} {path : Bytes}
    (hs : EventLoop.prepRouteCallbackSendFile ls client path = some ls') : OnHeap cache ls' := by
  obtain ⟨callbacks, s, hrun, hsame⟩ := h
  have hagree := start_agree (beside_of_mid (mid_of_run hrun) hsame) client path
  rw [hs] at hagree
  exact onHeap_callback hrun hagree

/-- What the loop waits for itself does not concern the coroutines. -/
theorem OnHeap.congr (h : OnHeap cache ls) (hcache : ls'.fileCache = ls.fileCache)
    (hin : ls'.inFlight.filter inCoroutine = ls.inFlight.filter inCoroutine) :
    OnHeap cache ls' := by
  obtain ⟨callbacks, s, hrun, hsame⟩ := h
  exact ⟨callbacks, s, hrun, hsame.cache.trans hcache.symm, hin ▸ hsame.inFlight⟩

theorem onHeap_request {rtr : EventLoop.Router} {request : Request} {client : EventLoop.Client}
    {memory : FileT} (hno : EventLoop.handlerOf rtr request ≠ some .routeCallbackTest)
    (h : OnHeap cache ls)
    (hs : EventLoop.routerHandleRequest rtr ls request client memory = some ls') :
    OnHeap cache ls' := by
  obtain ⟨ls₁, hindex, hs⟩ := Option.bind_eq_some_iff.mp hs
  obtain ⟨ls₂, hpublic, hhandler⟩ := Option.bind_eq_some_iff.mp hs
  have h₁ : OnHeap cache ls₁ := by
    rw [EventLoop.sendIndex] at hindex
    split_ifs at hindex with huri
    · exact onHeap_start h hindex
    · cases hindex
      exact h
  have h₂ : OnHeap cache ls₂ := by
    obtain ⟨hit, _, hpublic⟩ := Option.bind_eq_some_iff.mp hpublic
    split_ifs at hpublic
    · exact onHeap_start h₁ hpublic
    · cases hpublic
      exact h₁
  rw [EventLoop.runHandler] at hhandler
  cases hcallback : EventLoop.handlerOf rtr request with
  | none =>
    rw [hcallback] at hhandler
    cases hhandler
    exact h₂
  | some callback =>
    rw [hcallback] at hhandler
    cases callback with
    | routeCallbackSendFile => cases hhandler
    | routeCallbackTest => exact absurd hcallback hno

theorem onHeap_step {rtr : EventLoop.Router} {c : EventLoop.Completion}
    (hno : ∀ request, EventLoop.handlerOf rtr request ≠ some .routeCallbackTest)
    (h : OnHeap cache ls) (hs : EventLoop.step rtr ls c = some ls') : OnHeap cache ls' := by
  obtain ⟨lctx, hctx, _, _, hs⟩ := EventLoop.step_complete hs
  cases hin : inCoroutine lctx with
  | true => exact onHeap_complete h hctx hin hs
  | false =>
    have herased : OnHeap cache { ls with inFlight := ls.inFlight.eraseIdx c.index } :=
      h.congr rfl (filter_eraseIdx_of_neg hctx hin)
    cases lctx with
    | accept =>
      have hs := Option.some.inj hs
      rw [← hs, EventLoop.handleAcceptCompletion]
      split_ifs
      · exact herased
      · exact herased.congr rfl (by
          simp [EventLoop.handleAcceptSubmission, EventLoop.handleRecvSubmission,
            EventLoop.submit, inCoroutine])
    | recv client buffer =>
      change EventLoop.handleRecvCompletion rtr _ client buffer c = some ls' at hs
      unfold EventLoop.handleRecvCompletion at hs
      split_ifs at hs with hres
      · cases hs
        exact herased
      · cases hout : Http.handleRecvCompletion buffer c.bytes with
        | waiting buffer' =>
          rw [hout] at hs
          cases hs
          exact herased.congr rfl (by simp [EventLoop.submit, inCoroutine])
        | rejected =>
          rw [hout] at hs
          cases hs
          exact herased
        | routed request =>
          rw [hout] at hs
          exact onHeap_request (hno request) herased hs
    | _ => cases hin

end

end

end

/-- In a server whose routes do not lead to `route_callback_test`, in every state of every run,
callbacks on the heap have led to the same file cache, and to the coroutines that are in flight. -/
theorem coroutines_on_heap {rtr : EventLoop.Router}
    (hno : ∀ request, EventLoop.handlerOf rtr request ≠ some .routeCallbackTest)
    (others : List ℕ) (cs : List EventLoop.Completion) :
    Along (EventLoop.step rtr) (OnHeap (lruCacheCreate 16)) (EventLoop.serverStart others) cs := by
  refine along_of_invariant (fun ls c ls' h hs => onHeap_step hno h hs) ?_
  exact ⟨[], start (lruCacheCreate 16), rfl, rfl, .nil⟩

end Cerverus.Protothread
