import Cerverus.EventLoop

/-!
# What a completion does

Every way a completion callback can go, said once: the context it answers, and the state as
the submissions it makes from the state before. The invariants of the loop are derived from
these cases.
-/
namespace Cerverus.EventLoop
open Hash Lru Http SpliceAll

section
variable {α β : Type} {f : α → Option β} {xs : List α} {x : α}

theorem mem_filterMap_snoc {b : β} :
    b ∈ (xs ++ [x]).filterMap f ↔ b ∈ xs.filterMap f ∨ f x = some b := by
  simp

theorem nodup_filterMap_snoc : ((xs ++ [x]).filterMap f).Nodup ↔
    (xs.filterMap f).Nodup ∧ ∀ b ∈ f x, b ∉ xs.filterMap f := by
  rw [List.filterMap_append, List.nodup_append_comm]
  cases hx : f x with
  | none => simp [hx]
  | some b =>
    rw [List.filterMap_cons_some hx, List.filterMap_nil, List.singleton_append, List.nodup_cons]
    simp [and_comm]

end

def submitAll (s : LoopState) (ctxs : List Context) : LoopState :=
  { s with
    inFlight := s.inFlight ++ ctxs
    log := s.log ++ ctxs.filterMap (Context.submission s.opened) }

theorem submit_eq (s : LoopState) (ctx : Context) : submit s ctx = submitAll s [ctx] := by
  cases h : ctx.submission s.opened <;> simp [submit, submitAll, h]

theorem submitAll_append (s : LoopState) (as bs : List Context) :
    submitAll (submitAll s as) bs = submitAll s (as ++ bs) := by
  simp [submitAll]

theorem submitAll_submitAll (s : LoopState) (cache : LruCache FileT) (as bs : List Context) :
    submitAll { submitAll s as with fileCache := cache } bs =
      submitAll { s with fileCache := cache } (as ++ bs) := by
  simp [submitAll]

/-! ## Coroutines -/

def closeEvicted (evicted : Option FileT) : List Context :=
  (evicted.map fun file => .close file.fd none).toList

/-- What a coroutine does from an entry of `async_io_open_file` to its next suspension: the
cache it leaves and the operations it submits. -/
inductive Advance (cache : LruCache FileT) :
    OpenFileLabel → Coroutine → LruCache FileT → List Context → Prop
  | hit {label : OpenFileLabel} {pt : Coroutine} {cache' : LruCache FileT} {x : ℕ} {file : FileT}
      (get : lruCacheGet cache pt.path = some (some (x, file), cache')) (raw : Bytes) :
      Advance cache label pt cache' [.send raw { pt with file := file }]
  | start {pt : Coroutine} {cache' : LruCache FileT}
      (get : lruCacheGet cache pt.path = some (none, cache')) (name : Bytes) :
      Advance cache .start pt cache' [.openat { pt with file := { pt.file with name := name } }]
  | opened {pt : Coroutine} {cache' : LruCache FileT}
      (get : lruCacheGet cache pt.path = some (none, cache')) :
      Advance cache .afterOpenat pt cache' [.statx pt]
  | added {pt : Coroutine} {cache' : LruCache FileT} {r : AddResult FileT}
      (get : lruCacheGet cache pt.path = some (none, cache'))
      (add : lruCacheAdd cache' pt.path pt.file = some r) (raw : Bytes) :
      Advance cache .afterStatx pt r.cache (closeEvicted r.evicted ++ [.send raw pt])

theorem afterOpenFile_eq {s t : LoopState} {pt : Coroutine} (h : afterOpenFile s pt = some t) :
    ∃ raw, t = submitAll s [.send raw pt] := by
  simp only [afterOpenFile, Option.bind_eq_bind, Option.bind_eq_some_iff, Option.some.injEq] at h
  obtain ⟨res, _, rfl⟩ := h
  exact ⟨_, submit_eq s _⟩

theorem cacheFile_eq {s t : LoopState} {pt : Coroutine} (h : cacheFile s pt = some t) :
    ∃ r, lruCacheAdd s.fileCache pt.path pt.file = some r ∧
      t = submitAll { s with fileCache := r.cache } (closeEvicted r.evicted) := by
  simp only [cacheFile, Option.bind_eq_bind, Option.bind_eq_some_iff, Option.some.injEq] at h
  obtain ⟨r, hr, rfl⟩ := h
  refine ⟨r, hr, ?_⟩
  cases r.evicted with
  | none => simp [closeEvicted, submitAll]
  | some file =>
    simp only [fileEvictionHandler, handleCloseSubmission, submit_eq]
    rfl

theorem asyncIoOpenFile_advance {s t : LoopState} {label : OpenFileLabel} {pt : Coroutine}
    (h : asyncIoOpenFile s label pt = some t) :
    ∃ cache' ctxs, Advance s.fileCache label pt cache' ctxs ∧
      t = submitAll { s with fileCache := cache' } ctxs := by
  obtain ⟨⟨found, cache'⟩, hget, h⟩ := Option.bind_eq_some_iff.mp h
  cases found with
  | some p =>
    obtain ⟨raw, rfl⟩ := afterOpenFile_eq h
    exact ⟨_, _, .hit hget raw, rfl⟩
  | none =>
    cases label with
    | start =>
      obtain ⟨name, _, hs⟩ := Option.bind_eq_some_iff.mp h
      cases hs
      exact ⟨_, _, .start hget name, submit_eq _ _⟩
    | afterOpenat =>
      cases h
      exact ⟨_, _, .opened hget, submit_eq _ _⟩
    | afterStatx =>
      obtain ⟨s', hs', h⟩ := Option.bind_eq_some_iff.mp h
      obtain ⟨r, hr, rfl⟩ := cacheFile_eq hs'
      obtain ⟨raw, rfl⟩ := afterOpenFile_eq h
      refine ⟨_, _, .added hget hr raw, ?_⟩
      exact submitAll_submitAll { s with fileCache := cache' } r.cache _ _

inductive StartAll : LruCache FileT → List Coroutine → LruCache FileT → List Context → Prop
  | nil {cache : LruCache FileT} : StartAll cache [] cache []
  | cons {cache cache₁ cache₂ : LruCache FileT} {pt : Coroutine} {pts : List Coroutine}
      {ctxs₁ ctxs₂ : List Context} (first : Advance cache .start pt cache₁ ctxs₁)
      (rest : StartAll cache₁ pts cache₂ ctxs₂) : StartAll cache (pt :: pts) cache₂ (ctxs₁ ++ ctxs₂)

theorem startAll_append {cache cache₁ cache₂ : LruCache FileT} {as bs : List Coroutine}
    {ctxs₁ ctxs₂ : List Context} (h₁ : StartAll cache as cache₁ ctxs₁)
    (h₂ : StartAll cache₁ bs cache₂ ctxs₂) : StartAll cache (as ++ bs) cache₂ (ctxs₁ ++ ctxs₂) := by
  induction h₁ with
  | nil => exact h₂
  | cons first _ ih =>
    rw [List.append_assoc]
    exact .cons first (ih h₂)

def fileCoroutine (client : Client) (path : Bytes) : Coroutine :=
  ⟨.routeCallbackSendFile, client, path, ⟨0, [], 0⟩⟩

def testCoroutine (client : Client) (memory : FileT) : Coroutine :=
  ⟨.routeCallbackTest, client, publicRoot ++ testName, memory⟩

def fileCoroutines (request : Request) (client : Client) (hit : Bool) : List Coroutine :=
  (if request.uri = [47] then [fileCoroutine client (publicRoot ++ indexName)] else []) ++
    if hit then [fileCoroutine client (publicRoot ++ request.uri)] else []

def handlerCoroutines (rtr : Router) (request : Request) (client : Client) (memory : FileT) :
    List Coroutine :=
  if (handlerOf rtr request).isSome then [testCoroutine client memory] else []

def Starts (s t : LoopState) (pts : List Coroutine) : Prop :=
  ∃ cache' ctxs, StartAll s.fileCache pts cache' ctxs ∧
    t = submitAll { s with fileCache := cache' } ctxs

theorem starts_nil (s : LoopState) : Starts s s [] :=
  ⟨s.fileCache, [], .nil, by simp [submitAll]⟩

theorem starts_single {s t : LoopState} {pt : Coroutine}
    (h : asyncIoOpenFile s .start pt = some t) : Starts s t [pt] := by
  obtain ⟨cache', ctxs, hadv, rfl⟩ := asyncIoOpenFile_advance h
  exact ⟨cache', ctxs ++ [], .cons hadv .nil, by rw [List.append_nil]⟩

theorem starts_trans {s t u : LoopState} {as bs : List Coroutine} (h₁ : Starts s t as)
    (h₂ : Starts t u bs) : Starts s u (as ++ bs) := by
  obtain ⟨cache₁, ctxs₁, hs₁, rfl⟩ := h₁
  obtain ⟨cache₂, ctxs₂, hs₂, rfl⟩ := h₂
  exact ⟨cache₂, ctxs₁ ++ ctxs₂, startAll_append hs₁ hs₂,
    submitAll_submitAll { s with fileCache := cache₁ } cache₂ _ _⟩

theorem routerHandleRequest_starts {rtr : Router} {s t : LoopState} {request : Request}
    {client : Client} {memory : FileT}
    (h : routerHandleRequest rtr s request client memory = some t) :
    ∃ hit, publicHit rtr request = some hit ∧
      Starts s t (fileCoroutines request client hit ++
        handlerCoroutines rtr request client memory) := by
  simp only [routerHandleRequest, Option.bind_eq_bind, Option.bind_eq_some_iff] at h
  obtain ⟨s₁, h₁, s₂, h₂, h₃⟩ := h
  simp only [sendPublic, Option.bind_eq_some_iff] at h₂
  obtain ⟨hit, hhit, h₂⟩ := h₂
  have hindex : Starts s s₁
      (if request.uri = [47] then [fileCoroutine client (publicRoot ++ indexName)] else []) := by
    unfold sendIndex at h₁
    split_ifs at h₁ ⊢
    · exact starts_single h₁
    · exact Option.some.inj h₁ ▸ starts_nil s
  have hpublic : Starts s₁ s₂
      (if hit then [fileCoroutine client (publicRoot ++ request.uri)] else []) := by
    split_ifs at h₂ ⊢
    · exact starts_single h₂
    · exact Option.some.inj h₂ ▸ starts_nil s₁
  have hhandler : Starts s₂ t (handlerCoroutines rtr request client memory) := by
    unfold runHandler at h₃
    unfold handlerCoroutines
    split at h₃
    · rename_i hnone
      rw [hnone]
      exact Option.some.inj h₃ ▸ starts_nil s₂
    · rename_i htest
      rw [htest]
      exact starts_single h₃
    · cases h₃
  exact ⟨hit, hhit, starts_trans (starts_trans hindex hpublic) hhandler⟩

/-! ## Completions -/

/-- The descriptors after `pipe2`, if the callback got to it. -/
def PipeOpened (opened opened' : ℕ → Option Handle) : Prop :=
  opened' = opened ∨ ∃ a b, a ≠ b ∧ opened a = none ∧ opened b = none ∧
    opened' = Function.update (Function.update opened a (some .pipe)) b (some .pipe)

/-- How the completion of a context can change the state it was taken out of. -/
inductive Effect (rtr : Router) (s : LoopState) (c : Completion) : Context → LoopState → Prop
  | acceptFailed : c.res < 0 → Effect rtr s c .accept s
  | accepted (fd : ℕ) : s.opened fd = none → Effect rtr s c .accept
      (submitAll
        { s with
          opened := Function.update s.opened fd (some (.client s.nextConn))
          nextConn := s.nextConn + 1 }
        [.recv ⟨fd, s.nextConn⟩ (Http.handleRecvSubmission sdsempty), .accept])
  | recvDropped {client : Client} {buffer : Sds} :
      (0 < c.res → Http.handleRecvCompletion buffer c.bytes = .rejected) →
      Effect rtr s c (.recv client buffer) s
  | recvMore {client : Client} {buffer buffer' : Sds} :
      Http.handleRecvCompletion buffer c.bytes = .waiting buffer' →
      Effect rtr s c (.recv client buffer) (submitAll s [.recv client buffer'])
  | routed {client : Client} {buffer : Sds} {request : Request} {hit : Bool}
      {cache' : LruCache FileT} {ctxs : List Context} : 0 < c.res →
      Http.handleRecvCompletion buffer c.bytes = .routed request →
      publicHit rtr request = some hit →
      StartAll s.fileCache (fileCoroutines request client hit ++
        handlerCoroutines rtr request client c.memory) cache' ctxs →
      Effect rtr s c (.recv client buffer) (submitAll { s with fileCache := cache' } ctxs)
  | openFailed {pt : Coroutine} {cache' : LruCache FileT} {ctxs : List Context} : c.res < 0 →
      Advance s.fileCache .afterOpenat pt cache' ctxs →
      Effect rtr s c (.openat pt) (submitAll { s with fileCache := cache' } ctxs)
  | opened {pt : Coroutine} {fd : ℕ} {cache' : LruCache FileT} {ctxs : List Context} :
      s.opened fd = none →
      Advance s.fileCache .afterOpenat { pt with file := { pt.file with fd := fd } } cache' ctxs →
      Effect rtr s c (.openat pt)
        (submitAll
          { s with
            fileCache := cache'
            opened := Function.update s.opened fd (some (.file pt.path)) } ctxs)
  | statx {pt : Coroutine} {cache' : LruCache FileT} {ctxs : List Context} :
      Advance s.fileCache .afterStatx (statxResult pt c) cache' ctxs →
      Effect rtr s c (.statx pt) (submitAll { s with fileCache := cache' } ctxs)
  | sendMore {pt : Coroutine} {buffer buffer' : Bytes} :
      Effect rtr s c (.send buffer pt) (submitAll s [.send buffer' pt])
  | sent {pt : Coroutine} {buffer : Bytes} {opened' : ℕ → Option Handle} {pipe : ℕ × ℕ} :
      pt.callback = .routeCallbackSendFile → PipeOpened s.opened opened' →
      Effect rtr s c (.send buffer pt)
        (submitAll { s with opened := opened' }
          [.spliceAll (sendfileContext pt.file.fd pt.client.fd pt.file.stxSize pipe) pt])
  | spliceMore {pt : Coroutine} {ctx ctx' : SpliceAllContext} : ctx'.fdIn = ctx.fdIn →
      Effect rtr s c (.spliceAll ctx pt) (submitAll s [.spliceAll ctx' pt])
  | splicedFile {pt : Coroutine} {ctx : SpliceAllContext} :
      pt.callback = .routeCallbackSendFile →
      Effect rtr s c (.spliceAll ctx pt) (submitAll s [.close pt.client.fd (some pt)])
  | closed {fd : ℕ} {pt : Option Coroutine} :
      Effect rtr s c (.close fd pt) { s with opened := Function.update s.opened fd none }

section
variable {rtr : Router} {s t : LoopState} {c : Completion}

theorem accept_effect (hallow : Allows s.opened .accept c) :
    Effect rtr s c .accept (handleAcceptCompletion s c) := by
  unfold handleAcceptCompletion
  split_ifs with hres
  · exact .acceptFailed hres
  · have h : Effect rtr s c .accept _ := .accepted c.res.toNat (hallow (not_lt.mp hres))
    simp only [handleAcceptSubmission, handleRecvSubmission, submit_eq]
    rw [submitAll_append]
    exact h

theorem recv_effect {client : Client} {buffer : Sds}
    (h : handleRecvCompletion rtr s client buffer c = some t) :
    Effect rtr s c (.recv client buffer) t := by
  unfold handleRecvCompletion at h
  split_ifs at h with hres
  · cases h
    exact .recvDropped fun hpos => absurd hpos (not_lt.mpr hres)
  · split at h
    · rename_i buffer' hout
      cases h
      rw [submit_eq]
      exact .recvMore hout
    · rename_i hout
      cases h
      exact .recvDropped fun _ => hout
    · rename_i request hout
      obtain ⟨hit, hhit, cache', ctxs, hstart, rfl⟩ := routerHandleRequest_starts h
      exact .routed (not_le.mp hres) hout hhit hstart

theorem openat_effect {pt : Coroutine} (hallow : Allows s.opened (.openat pt) c)
    (h : handleOpenatCompletion s pt c = some t) : Effect rtr s c (.openat pt) t := by
  unfold handleOpenatCompletion at h
  split_ifs at h with hres
  · obtain ⟨cache', ctxs, hadv, rfl⟩ := asyncIoOpenFile_advance h
    exact .openFailed hres hadv
  · obtain ⟨cache', ctxs, hadv, rfl⟩ := asyncIoOpenFile_advance h
    exact .opened (hallow (not_lt.mp hres)) hadv

theorem statx_effect {pt : Coroutine} (h : handleStatxCompletion s pt c = some t) :
    Effect rtr s c (.statx pt) t := by
  obtain ⟨cache', ctxs, hadv, rfl⟩ := asyncIoOpenFile_advance h
  exact .statx hadv

theorem sent_effect {pt : Coroutine} {buffer : Bytes}
    (hpipe : ∀ p ∈ c.pipe, p.1 ≠ p.2 ∧ s.opened p.1 = none ∧ s.opened p.2 = none)
    (h : afterSendBuffer s pt c.pipe = some t) : Effect rtr s c (.send buffer pt) t := by
  unfold afterSendBuffer at h
  split at h
  · rename_i hcb
    cases h
    simp only [asyncIoSendfile, handleSpliceAllSubmission, submit_eq]
    apply Effect.sent hcb
    cases hp : c.pipe with
    | none => exact Or.inl rfl
    | some p =>
      obtain ⟨hne, ha, hb⟩ := hpipe p hp
      exact Or.inr ⟨p.1, p.2, hne, ha, hb, rfl⟩
  · cases h

theorem send_effect {pt : Coroutine} {buffer : Bytes}
    (hallow : Allows s.opened (.send buffer pt) c)
    (h : handleSendCompletion s buffer pt c = some t) : Effect rtr s c (.send buffer pt) t := by
  unfold handleSendCompletion at h
  split_ifs at h with hres
  · exact sent_effect hallow.2 h
  · simp only [ne_eq, ite_not] at h
    split_ifs at h
    · exact sent_effect hallow.2 h
    · cases h
      rw [handleSendSubmission, submit_eq]
      exact .sendMore

theorem handleSpliceAllCompletion_fdIn (res : ℤ) (ctx : SpliceAllContext) :
    (SpliceAll.handleSpliceAllCompletion res ctx).1.fdIn = ctx.fdIn := by
  unfold SpliceAll.handleSpliceAllCompletion
  split_ifs
  · rfl
  · dsimp only
    split_ifs <;> rfl
  · rfl

theorem splice_effect {pt : Coroutine} {ctx : SpliceAllContext}
    (h : handleSpliceAllCompletion s ctx pt c = some t) : Effect rtr s c (.spliceAll ctx pt) t := by
  unfold handleSpliceAllCompletion at h
  dsimp only at h
  split_ifs at h
  · unfold afterSendfile at h
    split at h
    · rename_i hcb
      cases h
      rw [handleCloseSubmission, submit_eq]
      exact .splicedFile hcb
    · cases h
  · cases h
    rw [handleSpliceAllSubmission, submit_eq]
    exact .spliceMore (handleSpliceAllCompletion_fdIn c.res ctx)

theorem complete_effect {ctx : Context} (hallow : Allows s.opened ctx c)
    (h : complete rtr s ctx c = some t) : Effect rtr s c ctx t := by
  cases ctx with
  | accept => exact Option.some.inj h ▸ accept_effect hallow
  | recv client buffer => exact recv_effect h
  | openat pt => exact openat_effect hallow h
  | statx pt => exact statx_effect h
  | send buffer pt => exact send_effect hallow h
  | spliceAll ctx pt => exact splice_effect h
  | close fd pt => exact Option.some.inj h ▸ .closed

theorem step_complete (h : step rtr s c = some t) :
    ∃ ctx, s.inFlight[c.index]? = some ctx ∧
      s.inFlight.Perm (s.inFlight.eraseIdx c.index ++ [ctx]) ∧ Allows s.opened ctx c ∧
      complete rtr { s with inFlight := s.inFlight.eraseIdx c.index } ctx c = some t := by
  unfold step at h
  split at h
  · cases h
  · rename_i ctx hctx
    split_ifs at h with hallow
    obtain ⟨hlt, hget⟩ := List.getElem?_eq_some_iff.mp hctx
    have hperm := (List.getElem_cons_eraseIdx_perm hlt).symm
    rw [hget] at hperm
    exact ⟨ctx, hctx, hperm.trans (List.perm_append_singleton _ _).symm, hallow, h⟩

/-- The completion has one of the effects on the rest. -/
theorem step_effect (h : step rtr s c = some t) :
    ∃ rest ctx, s.inFlight.Perm (rest ++ [ctx]) ∧ s.inFlight[c.index]? = some ctx ∧
      Effect rtr { s with inFlight := rest } c ctx t := by
  obtain ⟨ctx, hctx, hperm, hallow, hcomplete⟩ := step_complete h
  exact ⟨_, ctx, hperm, hctx, complete_effect hallow hcomplete⟩

end

end Cerverus.EventLoop
