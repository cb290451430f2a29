import Cerverus.ProtothreadTasks

/-!
# One cause of resumption

A callback is followed through its chain of activations: a child that runs while its route
waits for it goes back to wait, or hands over to the route, which starts its next child.
-/
namespace Cerverus.Protothread
open Hash Lru Http SpliceAll Lifecycle
open EventLoop (FileT)

@[simp] theorem ok_bind {α β : Type} (a : α) (f : α → Result β) :
    ((Except.ok a : Result α) >>= f) = f a := rfl

/-! ## The chain -/

/-- A child of the route `p`, before its first call. -/
inductive Fresh (p : ℕ) : Label → PtFn → Locals → Prop
  | openFile (path : Bytes) : Fresh p .openFile .asyncIoOpenFile (.openFile ⟨path, p⟩)
  | sendBuffer (locals : SendBufferLocals) :
      Fresh p .sendBuffer .asyncIoSendBuffer (.sendBuffer locals)
  | sendfile (fd : ℕ) : Fresh p .sendfile .asyncIoSendfile (.sendfile ⟨fd, p, none⟩)

/-- How many activations a new child can lead to. -/
def Label.depth : Label → ℕ
  | .openFile => 3
  | _ => 1

/-- The call that comes next, the protothreads it is about, and a bound on the activations to come:
a child whose operation is over, a new child, a route whose child is over, a new route, and a route
that has been closed. -/
inductive Pending (s : State) : Call → List ℕ → ℕ → Prop
  | resumed {p c : ℕ} {label wait : Label} {fn : PtFn} {op : Operation} {childLocals : Locals}
      {locals : SendFileLocals} (phase : Phase p label fn wait op childLocals)
      (child : s.heap c = some ⟨some wait, some fn, some p, some childLocals⟩)
      (route : RouteAt s.heap p label locals) (link : locals.child label = some c)
      (life : life c s.trace = some .waiting) (waiting : Lifecycle.life p s.trace = some .waiting) :
      Pending s ⟨fn, c⟩ [c, p] 3
  | fresh {p c : ℕ} {label : Label} {fn : PtFn} {childLocals : Locals} {locals : SendFileLocals}
      (phase : Fresh p label fn childLocals)
      (child : s.heap c = some ⟨none, none, some p, some childLocals⟩)
      (route : RouteAt s.heap p label locals) (link : locals.child label = some c)
      (life : life c s.trace = some .new) (waiting : Lifecycle.life p s.trace = some .waiting) :
      Pending s ⟨fn, c⟩ [c, p] label.depth
  | returned {p c : ℕ} {label : Label} {st : ProtothreadState} {locals : SendFileLocals}
      (child : s.heap c = some st) (route : RouteAt s.heap p label locals)
      (link : locals.child label = some c) (life : life c s.trace = some .finished)
      (waiting : Lifecycle.life p s.trace = some .waiting) :
      Pending s ⟨.routeCallbackSendFile, p⟩ [c, p] 2
  | first {p : ℕ} {locals : SendFileLocals}
      (route : s.heap p = some ⟨none, none, none, some (.route locals)⟩)
      (life : life p s.trace = some .new) : Pending s ⟨.routeCallbackSendFile, p⟩ [p] 4
  | closed {p : ℕ} {locals : SendFileLocals} (route : RouteAt s.heap p .close locals)
      (waiting : life p s.trace = some .waiting) : Pending s ⟨.routeCallbackSendFile, p⟩ [p] 1

/-- After an activation, the chain is over or goes on for fewer activations. -/
inductive Continues (k : ℕ) : State × Option Call → Prop
  | done {s : State} (mid : Mid s []) : Continues k (s, none)
  | call {s : State} {call : Call} {owned : List ℕ} {k' : ℕ} (mid : Mid s owned)
      (pending : Pending s call owned k') (lt : k' < k) : Continues k (s, some call)

structure Paired (s : State) (c p : ℕ) (label : Label) (st : ProtothreadState)
    (locals : SendFileLocals) : Prop where
  mid : Mid s [c, p]
  child : s.heap c = some st
  route : RouteAt s.heap p label locals
  link : locals.child label = some c
  waiting : life p s.trace = some .waiting

structure Active (s : State) (c p : ℕ) (label : Label) (st : ProtothreadState)
    (locals : SendFileLocals) : Prop extends Paired s c p label st locals where
  caller : st.caller = some p
  running : life c s.trace = some .running

/-- The operation is over, and the child is to be called. -/
structure Resumable (s : State) (c p : ℕ) (label wait : Label) (fn : PtFn) (op : Operation)
    (childLocals : Locals) (locals : SendFileLocals) : Prop extends
    Paired s c p label ⟨some wait, some fn, some p, some childLocals⟩ locals where
  phase : Phase p label fn wait op childLocals
  life : life c s.trace = some .waiting

section
variable {s : State} {c p k : ℕ} {label wait : Label} {fn : PtFn} {op : Operation}
  {st st' : ProtothreadState} {childLocals : Locals} {locals : SendFileLocals}

theorem Mid.ne (h : Mid s [c, p]) : c ≠ p := by
  have := (List.nodup_append.mp h.apart).1
  simpa using this

theorem load_of_heap (h : s.heap p = some st) : load s p = .ok st := by
  rw [load, h]
  rfl

theorem callSelf_route (h : RouteAt s.heap p label locals) :
    callSelf s (some p) = .ok ⟨.routeCallbackSendFile, p⟩ := by
  simp [callSelf, load_of_heap h]

theorem life_event {i : ℕ} {e : Event ℕ} {l : Life} (h : life i s.trace = some l)
    (he : e.subject = i) : life i (s.log e).trace = l.next e := by
  rw [State.log, life_snoc, Life.after, if_pos he, h]
  rfl

theorem life_log {i : ℕ} {e : Event ℕ} (he : e.subject ≠ i) :
    life i (s.log e).trace = life i s.trace :=
  life_other he

theorem Paired.write (h : Paired s c p label st locals) (st' : ProtothreadState) :
    Paired (s.write c st') c p label st' locals := by
  constructor
  · exact h.mid.write (by simp) _
  · exact Function.update_self _ _ _
  · exact (Function.update_of_ne h.mid.ne.symm _ _).trans h.route
  · exact h.link
  · exact h.waiting

theorem Paired.log (h : Paired s c p label st locals) {e : Event ℕ} (he : e.subject = c) :
    Paired (s.log e) c p label st locals :=
  ⟨h.mid.log (by simp [he]), h.child, h.route, h.link,
    (life_log (he ▸ h.mid.ne)).trans h.waiting⟩

theorem Paired.returns (h : Paired s c p label st locals)
    (hlife : life c s.trace = some .finished) :
    Yields (Continues 3) (callSelf s (some p) >>= fun call => .ok (s, some call)) := by
  rw [callSelf_route h.route]
  exact .call h.mid (.returned h.child h.route h.link hlife h.waiting) (by decide)

theorem Active.ends (h : Active s c p label st locals) (hcaller : st'.caller = some p) :
    Yields (Continues 3) (ptEnd s c st') := by
  obtain ⟨resumeLabel, self, caller, childLocals⟩ := st'
  simp only at hcaller
  subst hcaller
  have hpaired := (h.toPaired.write ⟨none, self, some p, childLocals⟩).log (e := .ended c) rfl
  exact hpaired.returns (life_event h.running rfl)

theorem setFile_route (h : RouteAt s.heap p label locals) (f : FileT → FileT) :
    setFile s p f = .ok (s.write p ⟨some label, some .routeCallbackSendFile, none,
      some (.route { locals with file := f locals.file })⟩) := by
  simp [setFile, load_of_heap h, routeLocals]

theorem getFile_route (h : RouteAt s.heap p label locals) : getFile s p = .ok locals.file := by
  simp [getFile, load_of_heap h, routeLocals]

theorem child_withFile (locals : SendFileLocals) (file : FileT) (label : Label) :
    SendFileLocals.child { locals with file := file } label = locals.child label := by
  cases label <;> rfl

theorem Paired.setFile (h : Paired s c p label st locals) (f : FileT → FileT) :
    ∃ t locals', setFile s p f = .ok t ∧ Paired t c p label st locals' ∧ t.trace = s.trace := by
  refine ⟨_, { locals with file := f locals.file }, setFile_route h.route f, ?_, rfl⟩
  constructor
  · exact h.mid.write (by simp) _
  · exact (Function.update_of_ne h.mid.ne _ _).trans h.child
  · exact Function.update_self _ _ _
  · rw [child_withFile]
    exact h.link
  · exact h.waiting

theorem Active.setFile (h : Active s c p label st locals) (f : FileT → FileT) :
    ∃ t locals', setFile s p f = .ok t ∧ Active t c p label st locals' := by
  obtain ⟨t, locals', hset, hpaired, htrace⟩ := h.toPaired.setFile f
  exact ⟨t, locals', hset, hpaired, h.caller, htrace ▸ h.running⟩

theorem Active.cache (h : Active s c p label st locals) (cache : LruCache FileT) :
    Active { s with fileCache := cache } c p label st locals :=
  ⟨⟨h.mid.cache cache, h.child, h.route, h.link, h.waiting⟩, h.caller, h.running⟩

theorem Active.evict (h : Active s c p label st locals) (fd : ℕ) :
    Active (s.submit (.close fd) none) c p label st locals :=
  ⟨⟨h.mid.evict fd, h.child, h.route, h.link, h.waiting⟩, h.caller, h.running⟩

theorem Resumable.submits {op' : Operation}
    (h : Resumable s c p label wait fn op childLocals locals)
    (phase : Phase p label fn wait op' childLocals) :
    Continues k (s.submit op' (some c), none) := by
  have hthreads : threads s.heap ⟨op', some c⟩ = [c, p] := threads_child h.child rfl
  have htask : Task s.heap ⟨op', some c⟩ := .child phase h.child h.route h.link
  refine .done (h.mid.submit htask hthreads fun q hq => ⟨?_, htask.suspended (hthreads ▸ hq)⟩)
  rcases List.mem_cons.mp hq with rfl | hq
  · exact h.life
  · rw [List.mem_singleton.mp hq]
    exact h.waiting

theorem Active.waits (h : Active s c p label st locals)
    (phase : Phase p label fn wait op childLocals) (hself : st'.self = some fn)
    (hcaller : st'.caller = some p) (hlocals : st'.locals = some childLocals) :
    Continues k ((ptWait s c st' wait).submit op (some c), none) := by
  obtain ⟨resumeLabel, self, caller, childLocals'⟩ := st'
  simp only at hself hcaller hlocals
  subst hself hcaller hlocals
  have hpaired := (h.toPaired.write ⟨some wait, some fn, some p, some childLocals⟩).log
    (e := .waited c) rfl
  have hlife : life c ((s.write c ⟨some wait, some fn, some p, some childLocals⟩).log
      (.waited c)).trace = some .waiting := life_event h.running rfl
  exact Resumable.submits ⟨hpaired, phase, hlife⟩ phase

/-- A hit in the cache passes the call on to the route. -/
theorem Active.hits (h : Active s c p label st locals) (path : Bytes) (file : FileT) :
    Yields (Continues 3) (openFileHit s c st ⟨path, p⟩ file) := by
  obtain ⟨t, locals', hset, h'⟩ := h.setFile fun _ => file
  rw [openFileHit, hset, ok_bind, h.caller]
  exact (h'.toPaired.log (e := .passed c) rfl).returns (life_event h'.running rfl)

/-! ## The children -/

theorem active_resumed (h : Mid s [c, p]) (child : s.heap c = some st)
    (hcaller : st.caller = some p) (route : RouteAt s.heap p label locals)
    (link : locals.child label = some c) {l : Life} (hlife : life c s.trace = some l)
    (hl : l.next (.called c) = some .running)
    (waiting : life p s.trace = some .waiting) :
    Active (s.log (.called c)) c p label st locals := by
  refine ⟨⟨h.log (by simp [Event.subject]), child, route, link, ?_⟩, hcaller, ?_⟩
  · exact (life_log (e := .called c) h.ne).trans waiting
  · exact (life_event hlife rfl).trans hl

theorem activate_openFile_end {path : Bytes} (h : Active s c p .openFile st locals)
    (hcaller : st'.caller = some p) : Yields (Continues 3) (openFileEnd s c st' ⟨path, p⟩) := by
  rw [openFileEnd, getFile_route h.route, ok_bind]
  refine yields_defined fun r _ => ?_
  dsimp only
  rcases r.evicted with _ | file
  · exact (h.cache r.cache).ends hcaller
  · exact ((h.cache r.cache).evict file.fd).ends hcaller

theorem activate_openFile {path : Bytes} (h : Active s c p .openFile st locals)
    (hlocals : st.locals = some (.openFile ⟨path, p⟩))
    (hlabel : st.resumeLabel = none ∨ st.resumeLabel = some .openat ∨
      st.resumeLabel = some .statx) :
    Yields (Continues 3) (asyncIoOpenFile s c) := by
  have hopen : openFileLocals st = .ok ⟨path, p⟩ := by simp [openFileLocals, hlocals]
  rw [asyncIoOpenFile, load_of_heap h.child, ok_bind, hopen, ok_bind]
  refine yields_defined fun r _ => ?_
  have h' := h.cache r.2
  dsimp only
  rcases r.1 with _ | ⟨_, file⟩
  · rw [openFileMiss]
    rcases hlabel with hl | hl | hl
    · rw [hl]
      refine yields_defined fun name _ => ?_
      obtain ⟨t, locals', hset, h''⟩ := h'.setFile fun file => { file with name := name }
      rw [hset]
      exact h''.waits (.openat path) rfl h.caller hlocals
    · rw [hl]
      exact h'.waits (.statx path) rfl h.caller hlocals
    · rw [hl]
      exact activate_openFile_end h' h.caller
  · exact h'.hits path file

theorem activate_sendBuffer {own : SendBufferLocals} (h : Active s c p .sendBuffer st locals)
    (hlocals : st.locals = some (.sendBuffer own)) :
    (st.resumeLabel = none → Yields (Continues 1) (asyncIoSendBuffer s c)) ∧
      (st.resumeLabel = some .send → Yields (Continues 3) (asyncIoSendBuffer s c)) := by
  have hown : sendBufferLocals st = .ok own := by simp [sendBufferLocals, hlocals]
  rw [asyncIoSendBuffer, load_of_heap h.child, ok_bind, hown, ok_bind]
  constructor
  · intro hl
    simp only [hl]
    exact h.waits (.send _ _ own) rfl h.caller hlocals
  · intro hl
    simp only [hl]
    exact h.ends h.caller

theorem activate_sendfile {own : SendfileLocals} {pipe : Option (ℕ × ℕ)}
    (h : Active s c p .sendfile st locals) (hlocals : st.locals = some (.sendfile own)) :
    (st.resumeLabel = none → own.file = p → Yields (Continues 1) (asyncIoSendfile pipe s c)) ∧
      (st.resumeLabel = some .spliceAll → Yields (Continues 3) (asyncIoSendfile pipe s c)) := by
  have hown : sendfileLocals st = .ok own := by simp [sendfileLocals, hlocals]
  rw [asyncIoSendfile, load_of_heap h.child, ok_bind, hown, ok_bind]
  constructor
  · intro hl hfile
    subst hfile
    simp only [hl, getFile_route h.route, ok_bind]
    exact h.waits (.spliceAll _ _) rfl h.caller rfl
  · intro hl
    simp only [hl]
    exact h.ends h.caller

theorem activate_resumed {pipe : Option (ℕ × ℕ)} (h : Mid s [c, p])
    (phase : Phase p label fn wait op childLocals)
    (child : s.heap c = some ⟨some wait, some fn, some p, some childLocals⟩)
    (route : RouteAt s.heap p label locals) (link : locals.child label = some c)
    (hlife : life c s.trace = some .waiting) (waiting : life p s.trace = some .waiting) :
    Yields (Continues 3) (activate pipe s ⟨fn, c⟩) := by
  have hactive := active_resumed h child rfl route link hlife rfl waiting
  cases phase with
  | openat path => exact activate_openFile hactive rfl (Or.inr (Or.inl rfl))
  | statx path => exact activate_openFile hactive rfl (Or.inr (Or.inr rfl))
  | send buffer fd own => exact (activate_sendBuffer hactive rfl).2 rfl
  | spliceAll ctx own => exact (activate_sendfile hactive rfl).2 rfl

theorem activate_fresh {pipe : Option (ℕ × ℕ)} (h : Mid s [c, p])
    (phase : Fresh p label fn childLocals)
    (child : s.heap c = some ⟨none, none, some p, some childLocals⟩)
    (route : RouteAt s.heap p label locals) (link : locals.child label = some c)
    (hlife : life c s.trace = some .new) (waiting : life p s.trace = some .waiting) :
    Yields (Continues label.depth) (activate pipe s ⟨fn, c⟩) := by
  have hactive := active_resumed h child rfl route link hlife rfl waiting
  cases phase with
  | openFile path => exact activate_openFile hactive rfl (Or.inl rfl)
  | sendBuffer own => exact (activate_sendBuffer hactive rfl).1 rfl
  | sendfile fd => exact (activate_sendfile hactive rfl).1 rfl rfl

/-! ## The route -/

theorem route_waits (h : Mid s [p]) (running : life p s.trace = some .running)
    (phase : Fresh p label fn childLocals) (link : locals.child label = some s.fresh)
    (lt : label.depth < k) {resumeLabel : Option Label} :
    Continues k (ptWait (s.create (some p) childLocals) p
      ⟨resumeLabel, some .routeCallbackSendFile, none, some (.route locals)⟩ label,
      some ⟨fn, s.fresh⟩) := by
  have hcreate := h.create (some p) childLocals
  have hne := hcreate.ne
  have hnew : life s.fresh s.trace = some .new := (h.unused s.fresh le_rfl).2.2
  refine .call ((hcreate.write (by simp) _).log (by simp [Event.subject]))
    (.fresh phase ?_ ?_ link ?_ ?_) lt
  · exact (Function.update_of_ne hne _ _).trans (Function.update_self _ _ _)
  · exact Function.update_self _ _ _
  · exact (life_log (e := .waited p) hne.symm).trans hnew
  · exact life_event (e := .waited p) running rfl

theorem route_closes (h : Mid s [p]) (running : life p s.trace = some .running) (fd : ℕ)
    {resumeLabel : Option Label} :
    Continues k ((ptWait s p
      ⟨resumeLabel, some .routeCallbackSendFile, none, some (.route locals)⟩ .close).submit
        (.close fd) (some p), none) := by
  let t := ptWait s p ⟨resumeLabel, some .routeCallbackSendFile, none, some (.route locals)⟩ .close
  have hmid : Mid t [p] := (h.write (by simp) _).log (by simp [Event.subject])
  have hroute : RouteAt t.heap p .close locals := Function.update_self _ _ _
  have htask : Task t.heap ⟨.close fd, some p⟩ := .close hroute
  have hlife : life p t.trace = some .waiting := life_event running rfl
  refine .done (hmid.submit htask (threads_route hroute) fun q hq => ?_)
  rw [List.mem_singleton.mp hq]
  exact ⟨hlife, htask.suspended (by rw [threads_route hroute]; exact List.mem_singleton_self p)⟩

theorem destroy_child (h : Mid s [c, p]) (child : s.heap c = some st)
    (hover : life c s.trace = some .finished) :
    ∃ t, destroy s (some c) = .ok t ∧ Mid t [p] ∧ t.trace = s.trace := by
  refine ⟨{ s with heap := Function.update s.heap c none }, ?_, ?_, rfl⟩
  · simp [destroy, load_of_heap child]
  · exact (h.free (by simp)).drop hover (by simp [Suspended])

theorem activate_route (pipe : Option (ℕ × ℕ)) (hst : s.heap p = some st) :
    activate pipe s ⟨.routeCallbackSendFile, p⟩ =
        routeCallbackSendFile (s.log (.called p)) p ∧
      load (s.log (.called p)) p = .ok st :=
  ⟨rfl, load_of_heap hst⟩

theorem activate_returned {pipe : Option (ℕ × ℕ)} (h : Mid s [c, p]) (child : s.heap c = some st)
    (route : RouteAt s.heap p label locals) (link : locals.child label = some c)
    (hover : life c s.trace = some .finished) (waiting : life p s.trace = some .waiting) :
    Yields (Continues 2) (activate pipe s ⟨.routeCallbackSendFile, p⟩) := by
  let s₁ := s.log (.called p)
  have hmid : Mid s₁ [c, p] := h.log (by simp [Event.subject])
  have hrunning : life p s₁.trace = some .running := life_event waiting rfl
  have hover₁ : life c s₁.trace = some .finished :=
    (life_log (e := .called p) h.ne.symm).trans hover
  obtain ⟨t, hdestroy, hmid', htrace⟩ := destroy_child (s := s₁) hmid child hover₁
  rw [← htrace] at hrunning
  obtain ⟨hrun, hload⟩ : activate pipe s ⟨.routeCallbackSendFile, p⟩ =
      routeCallbackSendFile s₁ p ∧ load s₁ p = .ok _ := activate_route pipe route
  rw [hrun, routeCallbackSendFile, hload, ok_bind]
  cases label with
  | openFile =>
    simp only [routeLocals, ok_bind, sendFileOpened]
    rw [show locals.openFileState = some c from link, hdestroy, ok_bind]
    refine yields_defined fun res _ => ?_
    exact route_waits hmid' hrunning (.sendBuffer _) rfl (by decide)
  | sendBuffer =>
    simp only [routeLocals, ok_bind, sendFileSent]
    rw [show locals.sendBufferState = some c from link, hdestroy, ok_bind]
    exact route_waits hmid' hrunning (.sendfile _) rfl (by decide)
  | sendfile =>
    simp only [routeLocals, ok_bind, sendFileSpliced]
    rw [show locals.sendfileState = some c from link, hdestroy, ok_bind]
    exact route_closes hmid' hrunning locals.clientFd
  | _ => cases link

theorem activate_first {pipe : Option (ℕ × ℕ)} (h : Mid s [p])
    (route : s.heap p = some ⟨none, none, none, some (.route locals)⟩)
    (hlife : life p s.trace = some .new) :
    Yields (Continues 4) (activate pipe s ⟨.routeCallbackSendFile, p⟩) := by
  have hmid : Mid (s.log (.called p)) [p] := h.log (by simp [Event.subject])
  have hrunning : life p (s.log (.called p)).trace = some .running := life_event hlife rfl
  obtain ⟨hrun, hload⟩ := activate_route pipe route
  rw [hrun, routeCallbackSendFile, hload, ok_bind]
  exact route_waits hmid hrunning (.openFile _) rfl (by decide)

/-- `PT_END` of the route: it has no caller. -/
theorem activate_closed {pipe : Option (ℕ × ℕ)} (h : Mid s [p])
    (route : RouteAt s.heap p .close locals) (waiting : life p s.trace = some .waiting) :
    Yields (Continues 1) (activate pipe s ⟨.routeCallbackSendFile, p⟩) := by
  have hmid : Mid (s.log (.called p)) [p] := h.log (by simp [Event.subject])
  have hrunning : life p (s.log (.called p)).trace = some .running := life_event waiting rfl
  obtain ⟨hrun, hload⟩ := activate_route pipe route
  rw [hrun, routeCallbackSendFile, hload, ok_bind]
  let t := ((s.log (.called p)).write p
    ⟨none, some .routeCallbackSendFile, none, none⟩).log (.ended p)
  have hover : life p t.trace = some .finished := life_event hrunning rfl
  have hsus : ¬ Suspended t.heap p := by simp [Suspended, t, State.log, State.write]
  have hend : Mid t [p] := (hmid.write (by simp) _).log (by simp [Event.subject])
  exact .done (hend.drop hover hsus)

/-! ## The chain of activations -/

theorem activate_pending {call : Call} {owned : List ℕ} {pipe : Option (ℕ × ℕ)} (h : Mid s owned)
    (hp : Pending s call owned k) : Yields (Continues k) (activate pipe s call) := by
  cases hp with
  | resumed phase child route link life waiting =>
    exact activate_resumed h phase child route link life waiting
  | fresh phase child route link life waiting =>
    exact activate_fresh h phase child route link life waiting
  | returned child route link life waiting =>
    exact activate_returned h child route link life waiting
  | first route life => exact activate_first h route life
  | closed route waiting => exact activate_closed h route waiting

theorem pending_pos {call : Call} {owned : List ℕ} (h : Pending s call owned k) : 0 < k := by
  cases h with
  | @fresh p c label => cases label <;> decide
  | _ => decide

/-- The chain ends before the limit, with everybody waiting as they should. -/
theorem chain_continues {pipe : Option (ℕ × ℕ)} {n : ℕ} {r : State × Option Call}
    (h : Continues k r) (hk : k ≤ n + 1) : Yields (Mid · []) (chain pipe n r) := by
  induction n generalizing k r with
  | zero =>
    cases h with
    | done mid => exact mid
    | call mid pending lt =>
      have := pending_pos pending
      omega
  | succ n ih =>
    cases h with
    | done mid => exact mid
    | call mid pending lt =>
      rw [chain]
      exact (activate_pending mid pending).bind fun r hr => ih hr (by omega)

/-! ## Completions -/

theorem Resumable.calls (h : Resumable s c p label wait fn op childLocals locals) :
    Yields (Continues 4) (callSelf s (some c) >>= fun call => .ok (s, some call)) := by
  have hcall : callSelf s (some c) = .ok ⟨fn, c⟩ := by simp [callSelf, load_of_heap h.child]
  rw [hcall]
  exact .call h.mid (.resumed h.phase h.child h.route h.link h.life h.waiting) (by decide)

theorem Resumable.setFile (h : Resumable s c p label wait fn op childLocals locals)
    (f : FileT → FileT) :
    ∃ t locals', setFile s p f = .ok t ∧ Resumable t c p label wait fn op childLocals locals' := by
  obtain ⟨t, locals', hset, hpaired, htrace⟩ := h.toPaired.setFile f
  exact ⟨t, locals', hset, hpaired, h.phase, htrace ▸ h.life⟩

theorem complete_resumable (h : Resumable s c p label wait fn op childLocals locals)
    (cqe : Completion) : Yields (Continues 4) (complete s ⟨op, some c⟩ cqe) := by
  rw [complete]
  split_ifs
  · exact h.calls
  · cases h.phase with
    | openat path =>
      obtain ⟨t, locals', hset, h'⟩ := h.setFile fun file => { file with fd := cqe.res.toNat }
      simp only [handleOpenatCompletion, hset, ok_bind]
      exact h'.calls
    | statx path =>
      obtain ⟨t, locals', hset, h'⟩ := h.setFile fun file => { file with stxSize := cqe.stxSize }
      simp only [handleStatxCompletion, hset, ok_bind]
      exact h'.calls
    | send buffer fd own =>
      simp only [handleSendCompletion]
      split_ifs
      · exact h.submits (.send _ _ own)
      · exact h.calls
    | spliceAll ctx own =>
      simp only [handleSpliceAllCompletion]
      split_ifs
      · exact h.calls
      · exact h.submits (.spliceAll _ own)

theorem complete_close (s : State) (fd : ℕ) (pt : Option ℕ) (cqe : Completion) :
    complete s ⟨.close fd, pt⟩ cqe = opExit s ⟨.close fd, pt⟩ := by
  rw [complete]
  split_ifs <;> rfl

theorem complete_continues (h : Mid s []) {ctx : Context} (cqe : Completion)
    (hi : s.inFlight[cqe.index]? = some ctx) :
    Yields (Continues 4)
      (complete { s with inFlight := s.inFlight.eraseIdx cqe.index } ctx cqe) := by
  obtain ⟨hmid, hlife⟩ := h.take hi
  have htask := h.tasks ctx (List.mem_of_getElem? hi)
  cases htask with
  | child phase child route link =>
    rw [threads_child child rfl] at hmid hlife
    have hpaired := Paired.mk hmid child route link (hlife _ (by simp))
    exact complete_resumable ⟨hpaired, phase, hlife _ (by simp)⟩ cqe
  | close route =>
    rw [threads_route route] at hmid hlife
    rw [complete_close, opExit]
    dsimp only
    have hcall : callSelf { s with inFlight := s.inFlight.eraseIdx cqe.index } (some _) = _ :=
      callSelf_route route
    rw [hcall]
    exact .call hmid (.closed route (hlife _ (by simp))) (by decide)
  | evicted fd =>
    rw [complete_close]
    exact .done hmid

/-! ## Runs -/

theorem step_mid (h : Mid s []) (callback : Callback) : Yields (Mid · []) (step s callback) := by
  cases callback with
  | start clientFd path =>
    have hcreate := h.create none (.route ⟨clientFd, path, ⟨0, [], 0⟩, [], none, none, none⟩)
    have hnew : life s.fresh s.trace = some .new := (h.unused s.fresh le_rfl).2.2
    have hfirst : Continues 5 (prepRouteCallbackSendFile s clientFd path) :=
      .call hcreate (.first (Function.update_self _ _ _) hnew) (by decide)
    exact chain_continues hfirst le_rfl
  | complete c =>
    refine yields_defined fun ctx hi => ?_
    exact (complete_continues h c hi).bind fun r hr => chain_continues hr (by decide)

theorem run_mid (h : Mid s []) (callbacks : List Callback) :
    Yields (Mid · []) (run s callbacks) := by
  induction callbacks generalizing s with
  | nil => exact h
  | cons callback callbacks ih => exact (step_mid h callback).bind fun t ht => ih ht

theorem mid_start (cache : LruCache FileT) : Mid (start cache) [] := by
  constructor
  · simp [start]
  · simp [start]
  · simp [start, Suspended]
  · intro p _
    exact ⟨.new, rfl, by decide, by simp [start, Suspended]⟩
  · intro p _
    exact ⟨List.not_mem_nil, rfl, rfl⟩

end

inductive Cause
  | operation (index : ℕ)
  | child (pt : ℕ)
  deriving DecidableEq, Repr

/-- The context of the operation carries `p`, or the child is suspended and its caller is `p`. -/
def Awaits (s : State) (p : ℕ) : Cause → Prop
  | .operation i => s.inFlight[i]?.bind Context.pt = some p
  | .child q => Suspended s.heap q ∧ (s.heap q).bind ProtothreadState.caller = some p

/-- Each suspended protothread has one cause of resumption, and nothing else has any. Calls and
waits take turns: each wait has been left by one call, up to the one that is going on, and after
its end a protothread is never called again. -/
structure OneCause (s : State) : Prop where
  one : ∀ p, Suspended s.heap p → ∃! cause, Awaits s p cause
  suspended : ∀ p cause, Awaits s p cause → Suspended s.heap p
  orderly : ∀ p, ∃ l, life p s.trace = some l ∧ (l = .waiting ↔ Suspended s.heap p)
  left : ∀ p, .called p ∈ s.trace → s.trace.count (.called p) =
    s.trace.count (.waited p) + if Suspended s.heap p then 0 else 1
  ended : ∀ p before later, s.trace = before ++ .ended p :: later → ∀ e ∈ later, e.subject ≠ p
  kept : ∀ p, Suspended s.heap p → ∃ ctx ∈ s.inFlight, p ∈ threads s.heap ctx

section
variable {s : State} {p : ℕ}

theorem flatMap_index {α β : Type} {f : α → List β} {xs : List α} {i j : ℕ} {a b : α} {x : β}
    (h : (xs.flatMap f).Nodup) (hi : xs[i]? = some a) (hj : xs[j]? = some b) (ha : x ∈ f a)
    (hb : x ∈ f b) : i = j := by
  have hpair := List.pairwise_iff_getElem.mp (List.nodup_flatMap.mp h).2
  obtain ⟨hi', rfl⟩ := List.getElem?_eq_some_iff.mp hi
  obtain ⟨hj', rfl⟩ := List.getElem?_eq_some_iff.mp hj
  rcases lt_trichotomy i j with hlt | heq | hgt
  · exact absurd hb (hpair i j hi' hj' hlt ha)
  · exact heq
  · exact absurd ha (hpair j i hj' hi' hgt hb)

/-- Where a cause comes from: an operation in flight, and the protothread or its child. -/
theorem Mid.cause (h : Mid s []) {cause : Cause} (hawaits : Awaits s p cause) :
    ∃ i ctx, s.inFlight[i]? = some ctx ∧ p ∈ threads s.heap ctx ∧
      ((cause = .operation i ∧ ctx.pt = some p) ∨
        ∃ q, q ≠ p ∧ cause = .child q ∧ ctx.pt = some q) := by
  cases cause with
  | operation i =>
    obtain ⟨ctx, hctx, hpt⟩ := Option.bind_eq_some_iff.mp hawaits
    exact ⟨i, ctx, hctx, by simp [threads, hpt], Or.inl ⟨rfl, hpt⟩⟩
  | child q =>
    obtain ⟨hsus, hcaller⟩ := hawaits
    obtain ⟨ctx, hctx, hmem⟩ := List.mem_flatMap.mp (h.kept q List.not_mem_nil hsus)
    obtain ⟨i, hi⟩ := List.mem_iff_getElem?.mp hctx
    have hnodup := (List.nodup_flatMap.mp (by simpa using h.apart)).1 ctx hctx
    have htask := h.tasks ctx hctx
    cases htask with
    | child phase child route link =>
      rw [threads_child child rfl] at hmem hnodup
      rcases List.mem_cons.mp hmem with rfl | hmem
      · rw [child] at hcaller
        cases hcaller
        have hne : q ≠ p := by simpa using hnodup
        exact ⟨i, _, hi, by rw [threads_child child rfl]; simp, Or.inr ⟨q, hne, rfl, rfl⟩⟩
      · unfold RouteAt at route
        rw [List.mem_singleton.mp hmem, route] at hcaller
        cases hcaller
    | close route =>
      rw [threads_route route, List.mem_singleton] at hmem
      unfold RouteAt at route
      rw [hmem, route] at hcaller
      cases hcaller
    | evicted fd => cases hmem

theorem Mid.awaited (h : Mid s []) (hp : Suspended s.heap p) : ∃ cause, Awaits s p cause := by
  obtain ⟨ctx, hctx, hmem⟩ := List.mem_flatMap.mp (h.kept p List.not_mem_nil hp)
  obtain ⟨i, hi⟩ := List.mem_iff_getElem?.mp hctx
  have htask := h.tasks ctx hctx
  have hsus (q) (hq : q ∈ threads s.heap ctx) : Suspended s.heap q := htask.suspended hq
  cases htask with
  | @child _ c _ _ _ _ _ _ phase child route link =>
    rw [threads_child child rfl] at hmem hsus
    rcases List.mem_cons.mp hmem with rfl | hmem
    · exact ⟨.operation i, by simp [Awaits, hi]⟩
    · rw [List.mem_singleton.mp hmem]
      exact ⟨.child c, hsus c (by simp), by rw [child]; rfl⟩
  | close route =>
    rw [threads_route route, List.mem_singleton] at hmem
    exact ⟨.operation i, by simp [Awaits, hi, hmem]⟩
  | evicted fd => cases hmem

theorem Mid.one (h : Mid s []) (hp : Suspended s.heap p) : ∃! cause, Awaits s p cause := by
  obtain ⟨cause, hcause⟩ := h.awaited hp
  refine ⟨cause, hcause, fun cause' hcause' => ?_⟩
  obtain ⟨i, ctx, hi, hmem, hor⟩ := h.cause hcause
  obtain ⟨j, ctx', hj, hmem', hor'⟩ := h.cause hcause'
  have hij : i = j := flatMap_index (by simpa using h.apart) hi hj hmem hmem'
  subst hij
  cases hi.symm.trans hj
  rcases hor with ⟨rfl, hpt⟩ | ⟨q, hne, rfl, hpt⟩
  · rcases hor' with ⟨rfl, _⟩ | ⟨q', hne', _, hpt'⟩
    · rfl
    · exact absurd (Option.some.inj (hpt'.symm.trans hpt)) hne'
  · rcases hor' with ⟨_, hpt'⟩ | ⟨q', _, rfl, hpt'⟩
    · exact absurd (Option.some.inj (hpt.symm.trans hpt')) hne
    · rw [Option.some.inj (hpt.symm.trans hpt')]

theorem oneCause_of_mid (h : Mid s []) : OneCause s := by
  constructor
  · exact fun p hp => h.one hp
  · intro p cause hawaits
    obtain ⟨i, ctx, hi, hmem, _⟩ := h.cause hawaits
    exact (h.tasks ctx (List.mem_of_getElem? hi)).suspended hmem
  · intro p
    obtain ⟨l, hl, _, hwaiting⟩ := h.orderly p List.not_mem_nil
    exact ⟨l, hl, hwaiting⟩
  · intro p hcalled
    obtain ⟨l, hl, hrunning, hwaiting⟩ := h.orderly p List.not_mem_nil
    rw [calls_eq hl]
    cases l with
    | new => exact absurd rfl (new_silent hl _ hcalled)
    | running => exact absurd rfl hrunning
    | waiting => simp [hwaiting.mp rfl]
    | finished =>
      have hsus : ¬ Suspended s.heap p := fun hsus => by cases hwaiting.mpr hsus
      simp [hsus]
  · intro p before later htrace
    obtain ⟨l, hl, _⟩ := h.orderly p List.not_mem_nil
    rw [htrace] at hl
    exact ended_silent hl
  · exact fun p hp => List.mem_flatMap.mp (h.kept p List.not_mem_nil hp)

end

/-- In every run, whatever files are cached and whatever the operations return, each suspended
protothread has exactly one cause of resumption between two callbacks. Only `outside` can end a
run: where the cache follows a null or freed node, for a path that is empty or a name without an
extension, neither of which the code allows for, and for an operation that is not in flight. -/
theorem one_cause_of_resumption (cache : LruCache FileT) (callbacks : List Callback) :
    Yields OneCause (run (start cache) callbacks) :=
  (run_mid (mid_start cache) callbacks).mono fun _ h => oneCause_of_mid h

-- Two coroutines open the same file. When the second open returns the file is cached: the child 3
-- passes the call on to the route 2, inside the `PT_WAIT` that 2 is in.
example : (run (start (lruCacheCreate 16)) [.start 5 [97, 46, 98], .start 6 [97, 46, 98],
      .complete ⟨0, 0, 0, none⟩, .complete ⟨1, 0, 0, none⟩,
      .complete ⟨0, 0, 0, none⟩]).toOption.map (fun s => s.trace.drop 16) =
    some [.called 3, .passed 3, .called 2, .waited 2, .called 5, .waited 5] := by
  decide +kernel

end Cerverus.Protothread
