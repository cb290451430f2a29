import Cerverus.Protothreads

/-!
# Who waits for an operation

The invariant gives to each operation in flight the protothreads that wait for it, and no
protothread to two of them. Inside a callback, those of the chain of activations are taken out.
-/
namespace Cerverus.Protothread
open Hash Lru Http SpliceAll Lifecycle
open EventLoop (FileT)

def Suspended (heap : Heap) (p : ℕ) : Prop :=
  ((heap p).bind ProtothreadState.resumeLabel).isSome = true

instance decidableSuspended (heap : Heap) (p : ℕ) : Decidable (Suspended heap p) :=
  inferInstanceAs (Decidable (_ = _))

/-- The protothreads that wait for an operation: the one its context carries, and its caller. -/
def threads (heap : Heap) (ctx : Context) : List ℕ :=
  match ctx.pt with
  | none => []
  | some p => p :: ((heap p).bind ProtothreadState.caller).toList

/-- The outcome is a state with the property, or undefined for a reason that has nothing to do with
protothreads. -/
def Yields {α : Type} (P : α → Prop) : Result α → Prop
  | .ok a => P a
  | .error fault => fault = .outside

section
variable {α β : Type} {P : α → Prop} {Q : β → Prop} {r : Result α} {f : α → Result β}

theorem Yields.bind (h : Yields P r) (hf : ∀ a, P a → Yields Q (f a)) : Yields Q (r.bind f) := by
  cases r with
  | ok a => exact hf a h
  | error fault => exact h

theorem Yields.mono {P' : α → Prop} (h : Yields P r) (hP : ∀ a, P a → P' a) : Yields P' r := by
  cases r with
  | ok a => exact hP a h
  | error fault => exact h

theorem yields_defined {a : Option α} (hf : ∀ x ∈ a, Yields Q (f x)) :
    Yields Q (defined a >>= f) := by
  cases a with
  | none => rfl
  | some x => exact hf x rfl

end

/-! ## The invariant -/

def RouteAt (heap : Heap) (p : ℕ) (label : Label) (locals : SendFileLocals) : Prop :=
  heap p = some ⟨some label, some .routeCallbackSendFile, none, some (.route locals)⟩

/-- The child that is waited for at the label. -/
def SendFileLocals.child (locals : SendFileLocals) : Label → Option ℕ
  | .openFile => locals.openFileState
  | .sendBuffer => locals.sendBufferState
  | .sendfile => locals.sendfileState
  | _ => none

/-- A route `p` waits at a label for a child, that runs a function and waits in it at a label for
an operation, with locals of its own. -/
inductive Phase (p : ℕ) : Label → PtFn → Label → Operation → Locals → Prop
  | openat (path : Bytes) :
      Phase p .openFile .asyncIoOpenFile .openat (.openat p) (.openFile ⟨path, p⟩)
  | statx (path : Bytes) :
      Phase p .openFile .asyncIoOpenFile .statx (.statx p) (.openFile ⟨path, p⟩)
  | send (buffer : Bytes) (fd : ℕ) (locals : SendBufferLocals) :
      Phase p .sendBuffer .asyncIoSendBuffer .send (.send buffer fd) (.sendBuffer locals)
  | spliceAll (ctx : SpliceAllContext) (locals : SendfileLocals) :
      Phase p .sendfile .asyncIoSendfile .spliceAll (.spliceAll ctx) (.sendfile locals)

/-- The protothreads of an operation in flight are where they should be. -/
inductive Task (heap : Heap) : Context → Prop
  | child {p c : ℕ} {label wait : Label} {fn : PtFn} {op : Operation} {childLocals : Locals}
      {locals : SendFileLocals} (phase : Phase p label fn wait op childLocals)
      (child : heap c = some ⟨some wait, some fn, some p, some childLocals⟩)
      (route : RouteAt heap p label locals) (link : locals.child label = some c) :
      Task heap ⟨op, some c⟩
  | close {p fd : ℕ} {locals : SendFileLocals} (route : RouteAt heap p .close locals) :
      Task heap ⟨.close fd, some p⟩
  | evicted (fd : ℕ) : Task heap ⟨.close fd, none⟩

/-- The invariant, with some protothreads taken out. -/
structure Mid (s : State) (owned : List ℕ) : Prop where
  tasks : ∀ ctx ∈ s.inFlight, Task s.heap ctx
  apart : (owned ++ s.inFlight.flatMap (threads s.heap)).Nodup
  kept : ∀ p ∉ owned, Suspended s.heap p → p ∈ s.inFlight.flatMap (threads s.heap)
  orderly : ∀ p ∉ owned, ∃ l, life p s.trace = some l ∧ l ≠ .running ∧
    (l = .waiting ↔ Suspended s.heap p)
  unused : ∀ p, s.fresh ≤ p → p ∉ owned ∧ s.heap p = none ∧ life p s.trace = some .new

section
variable {s s' : State} {heap heap' : Heap} {ctx : Context} {owned : List ℕ} {p q : ℕ}

theorem threads_child {c : ℕ} {op : Operation} {st : ProtothreadState} (h : heap c = some st)
    (hcaller : st.caller = some p) : threads heap ⟨op, some c⟩ = [c, p] := by
  simp [threads, h, hcaller]

theorem threads_route {label : Label} {op : Operation} {locals : SendFileLocals}
    (h : RouteAt heap p label locals) : threads heap ⟨op, some p⟩ = [p] := by
  unfold RouteAt at h
  simp [threads, h]

theorem Task.frame (h : Task heap ctx) (hsame : ∀ q ∈ threads heap ctx, heap' q = heap q) :
    Task heap' ctx ∧ threads heap' ctx = threads heap ctx := by
  cases h with
  | child phase child route link =>
    rw [threads_child child rfl] at hsame ⊢
    simp only [List.mem_cons, List.not_mem_nil, or_false, forall_eq_or_imp, forall_eq] at hsame
    have child' := hsame.1.trans child
    exact ⟨.child phase child' (hsame.2.trans route) link, threads_child child' rfl⟩
  | close route =>
    rw [threads_route route] at hsame ⊢
    have route' : RouteAt heap' _ _ _ := (hsame _ (List.mem_singleton_self _)).trans route
    exact ⟨.close route', threads_route route'⟩
  | evicted fd => exact ⟨.evicted fd, rfl⟩

theorem Task.suspended (h : Task heap ctx) (hp : p ∈ threads heap ctx) : Suspended heap p := by
  cases h with
  | child phase child route link =>
    rw [threads_child child rfl] at hp
    rw [Suspended]
    unfold RouteAt at route
    rcases List.mem_cons.mp hp with rfl | hp
    · rw [child]
      rfl
    · rw [List.mem_singleton.mp hp, route]
      rfl
  | close route =>
    rw [threads_route route, List.mem_singleton] at hp
    unfold RouteAt at route
    rw [Suspended, hp, route]
    rfl
  | evicted fd => cases hp

theorem Mid.lt (h : Mid s owned) (hp : p ∈ owned) : p < s.fresh := by
  by_contra hge
  exact (h.unused p (not_lt.mp hge)).1 hp

theorem Mid.notMem (h : Mid s owned) (hp : p ∈ owned) :
    p ∉ s.inFlight.flatMap (threads s.heap) :=
  fun hmem => List.disjoint_of_nodup_append h.apart hp hmem

/-- What happens to the protothreads that are taken out does not concern the others. -/
theorem Mid.frame (h : Mid s owned) (hin : s'.inFlight = s.inFlight) (hfresh : s'.fresh = s.fresh)
    (hheap : ∀ q ∉ owned, s'.heap q = s.heap q)
    (hlife : ∀ q ∉ owned, life q s'.trace = life q s.trace) : Mid s' owned := by
  have htask (ctx) (hctx : ctx ∈ s.inFlight) :
      Task s'.heap ctx ∧ threads s'.heap ctx = threads s.heap ctx := by
    refine (h.tasks ctx hctx).frame fun q hq => hheap q fun hmem => ?_
    exact h.notMem hmem (List.mem_flatMap.mpr ⟨ctx, hctx, hq⟩)
  have hthreads : s'.inFlight.flatMap (threads s'.heap) = s.inFlight.flatMap (threads s.heap) := by
    rw [hin]
    exact List.flatMap_congr fun ctx hctx => (htask ctx hctx).2
  constructor
  · intro ctx hctx
    rw [hin] at hctx
    exact (htask ctx hctx).1
  · rw [hthreads]
    exact h.apart
  · intro p hp hsus
    rw [hthreads]
    rw [Suspended, hheap p hp] at hsus
    exact h.kept p hp hsus
  · intro p hp
    rw [hlife p hp, Suspended, hheap p hp]
    exact h.orderly p hp
  · intro p hp
    rw [hfresh] at hp
    obtain ⟨hno, hnone, hnew⟩ := h.unused p hp
    exact ⟨hno, (hheap p hno).trans hnone, (hlife p hno).trans hnew⟩

theorem Mid.write (h : Mid s owned) (hp : p ∈ owned) (st : ProtothreadState) :
    Mid (s.write p st) owned :=
  h.frame rfl rfl (fun _ hq => Function.update_of_ne (ne_of_mem_of_not_mem hp hq).symm _ _)
    fun _ _ => rfl

theorem Mid.log (h : Mid s owned) {e : Event ℕ} (he : e.subject ∈ owned) : Mid (s.log e) owned :=
  h.frame rfl rfl (fun _ _ => rfl) fun _ hq => life_other (ne_of_mem_of_not_mem he hq)

theorem Mid.cache (h : Mid s owned) (cache : LruCache FileT) :
    Mid { s with fileCache := cache } owned :=
  h.frame rfl rfl (fun _ _ => rfl) fun _ _ => rfl

theorem Mid.free (h : Mid s owned) (hp : p ∈ owned) :
    Mid { s with heap := Function.update s.heap p none } owned :=
  h.frame rfl rfl (fun _ hq => Function.update_of_ne (ne_of_mem_of_not_mem hp hq).symm _ _)
    fun _ _ => rfl

theorem Mid.drop (h : Mid s (p :: owned)) (hlife : life p s.trace = some .finished)
    (hsus : ¬ Suspended s.heap p) : Mid s owned := by
  constructor
  · exact h.tasks
  · exact (List.nodup_cons.mp h.apart).2
  · intro q hq hq'
    refine h.kept q (fun hmem => ?_) hq'
    rcases List.mem_cons.mp hmem with rfl | hmem
    · exact hsus hq'
    · exact hq hmem
  · intro q hq
    by_cases heq : q = p
    · subst heq
      exact ⟨.finished, hlife, by decide, by simp [hsus]⟩
    · exact h.orderly q (by simp [heq, hq])
  · intro q hq
    obtain ⟨hno, hrest⟩ := h.unused q hq
    exact ⟨fun hmem => hno (List.mem_cons_of_mem _ hmem), hrest⟩

theorem Mid.create (h : Mid s owned) (caller : Option ℕ) (locals : Locals) :
    Mid (s.create caller locals) (s.fresh :: owned) := by
  obtain ⟨hno, hnone, hnew⟩ := h.unused s.fresh le_rfl
  have hmem : s.fresh ∉ s.inFlight.flatMap (threads s.heap) := by
    intro hmem
    obtain ⟨ctx, hctx, hthread⟩ := List.mem_flatMap.mp hmem
    have hsus := (h.tasks ctx hctx).suspended hthread
    simp [Suspended, hnone] at hsus
  have hfresh : Mid { s with fresh := s.fresh + 1 } (s.fresh :: owned) := by
    constructor
    · exact h.tasks
    · rw [List.cons_append, List.nodup_cons, List.mem_append, not_or]
      exact ⟨⟨hno, hmem⟩, h.apart⟩
    · intro q hq hq'
      exact h.kept q (fun hmem => hq (List.mem_cons_of_mem _ hmem)) hq'
    · intro q hq
      exact h.orderly q fun hmem => hq (List.mem_cons_of_mem _ hmem)
    · intro q hq
      have hlt : s.fresh < q := hq
      obtain ⟨hno, hrest⟩ := h.unused q hlt.le
      exact ⟨by simp [hno, hlt.ne'], hrest⟩
  refine hfresh.frame rfl rfl (fun q hq => ?_) fun _ _ => rfl
  exact Function.update_of_ne (ne_of_mem_of_not_mem (List.mem_cons_self) hq).symm _ _

theorem Mid.tasks_submit (h : Mid s owned) {op : Operation} {pt : Option ℕ}
    (htask : Task s.heap ⟨op, pt⟩) : ∀ ctx ∈ (s.submit op pt).inFlight, Task s.heap ctx := by
  intro ctx hctx
  rcases List.mem_append.mp hctx with hctx | hctx
  · exact h.tasks ctx hctx
  · rw [List.mem_singleton.mp hctx]
    exact htask

/-- The protothreads that are taken out go back with an operation that they wait for. -/
theorem Mid.submit (h : Mid s owned) {op : Operation} {pt : Option ℕ}
    (htask : Task s.heap ⟨op, pt⟩) (hthreads : threads s.heap ⟨op, pt⟩ = owned)
    (hwaits : ∀ p ∈ owned, life p s.trace = some .waiting ∧ Suspended s.heap p) :
    Mid (s.submit op pt) [] := by
  have hflat : (s.submit op pt).inFlight.flatMap (threads s.heap) =
      s.inFlight.flatMap (threads s.heap) ++ owned := by
    simp [State.submit, hthreads]
  constructor
  · exact h.tasks_submit htask
  · rw [List.nil_append]
    refine hflat ▸ List.nodup_append_comm.mp h.apart
  · intro q _ hq
    refine hflat ▸ List.mem_append.mpr ?_
    by_cases hmem : q ∈ owned
    · exact Or.inr hmem
    · exact Or.inl (h.kept q hmem hq)
  · intro q _
    by_cases hmem : q ∈ owned
    · obtain ⟨hlife, hsus⟩ := hwaits q hmem
      exact ⟨.waiting, hlife, by decide, by simp only [true_iff]; exact hsus⟩
    · exact h.orderly q hmem
  · intro q hq
    exact ⟨List.not_mem_nil, (h.unused q hq).2⟩

theorem Mid.evict (h : Mid s owned) (fd : ℕ) : Mid (s.submit (.close fd) none) owned := by
  have hflat : (s.submit (.close fd) none).inFlight.flatMap (threads s.heap) =
      s.inFlight.flatMap (threads s.heap) := by
    simp [State.submit, threads]
  constructor
  · exact h.tasks_submit (.evicted fd)
  · exact hflat ▸ h.apart
  · exact hflat ▸ h.kept
  · exact h.orderly
  · exact h.unused

theorem Mid.take (h : Mid s []) {i : ℕ} (hi : s.inFlight[i]? = some ctx) :
    Mid { s with inFlight := s.inFlight.eraseIdx i } (threads s.heap ctx) ∧
      ∀ p ∈ threads s.heap ctx, life p s.trace = some .waiting := by
  obtain ⟨hlt, hget⟩ := List.getElem?_eq_some_iff.mp hi
  have hperm : s.inFlight.Perm (ctx :: s.inFlight.eraseIdx i) := by
    rw [← hget]
    exact (List.getElem_cons_eraseIdx_perm hlt).symm
  have hflat : (s.inFlight.flatMap (threads s.heap)).Perm
      (threads s.heap ctx ++ (s.inFlight.eraseIdx i).flatMap (threads s.heap)) := by
    have := hperm.flatMap_right (threads s.heap)
    rwa [List.flatMap_cons] at this
  have htask := h.tasks ctx (List.mem_of_getElem? hi)
  refine ⟨?_, fun p hp => ?_⟩
  · constructor
    · intro ctx hctx
      exact h.tasks ctx (List.mem_of_mem_eraseIdx hctx)
    · exact hflat.nodup_iff.mp (by simpa using h.apart)
    · intro p hp hsus
      have hmem := hflat.mem_iff.mp (h.kept p List.not_mem_nil hsus)
      exact (List.mem_append.mp hmem).resolve_left hp
    · intro p _
      exact h.orderly p List.not_mem_nil
    · intro p hp
      have hunused := (h.unused p hp).2
      refine ⟨fun hmem => ?_, hunused⟩
      have hsus := htask.suspended hmem
      simp [Suspended, hunused.1] at hsus
  · obtain ⟨l, hl, _, hwaits⟩ := h.orderly p List.not_mem_nil
    rw [hl, hwaits.mpr (htask.suspended hp)]

end

end Cerverus.Protothread
