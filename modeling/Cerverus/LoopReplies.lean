import Cerverus.LoopEffects

/-!
# What a completion submits

Every completion callback appends to the operations in flight. Here the operations it submits
are told in full: the response that is serialized, what is left of a buffer, where a splice
goes on.
-/
namespace Cerverus.EventLoop
open Hash Lru Http SpliceAll

/-- What a coroutine submits from an entry of `async_io_open_file` to its next suspension, and
the cache it leaves. -/
inductive Proceeds (cache : LruCache FileT) :
    OpenFileLabel → Coroutine → LruCache FileT → List Context → Prop
  | hit {label : OpenFileLabel} {pt : Coroutine} {cache' : LruCache FileT} {x : ℕ} {file : FileT}
      {res : Response} : lruCacheGet cache pt.path = some (some (x, file), cache') →
      fileResponse file.name file.stxSize = some res →
      Proceeds cache label pt cache' [.send (responseSerialize res) { pt with file := file }]
  | start {pt : Coroutine} {cache' : LruCache FileT} {name : Bytes} :
      lruCacheGet cache pt.path = some (none, cache') →
      (sdssplitlen pt.path 47).getLast? = some name →
      Proceeds cache .start pt cache' [.openat { pt with file := { pt.file with name := name } }]
  | opened {pt : Coroutine} {cache' : LruCache FileT} :
      lruCacheGet cache pt.path = some (none, cache') →
      Proceeds cache .afterOpenat pt cache' [.statx pt]
  | added {pt : Coroutine} {cache' : LruCache FileT} {r : AddResult FileT} {res : Response} :
      lruCacheGet cache pt.path = some (none, cache') →
      lruCacheAdd cache' pt.path pt.file = some r →
      fileResponse pt.file.name pt.file.stxSize = some res →
      Proceeds cache .afterStatx pt r.cache
        (closeEvicted r.evicted ++ [.send (responseSerialize res) pt])

inductive ProceedAll :
    LruCache FileT → List Coroutine → LruCache FileT → List Context → Prop
  | nil {cache : LruCache FileT} : ProceedAll cache [] cache []
  | cons {cache cache₁ cache₂ : LruCache FileT} {pt : Coroutine} {pts : List Coroutine}
      {ctxs₁ ctxs₂ : List Context} : Proceeds cache .start pt cache₁ ctxs₁ →
      ProceedAll cache₁ pts cache₂ ctxs₂ → ProceedAll cache (pt :: pts) cache₂ (ctxs₁ ++ ctxs₂)

/-- The operations a completion submits and the cache it leaves, by the context it answers. -/
inductive Reply (rtr : Router) (nextConn : ℕ) (cache : LruCache FileT) (c : Completion) :
    Context → LruCache FileT → List Context → Prop
  | acceptFailed : c.res < 0 → Reply rtr nextConn cache c .accept cache []
  | accepted : 0 ≤ c.res → Reply rtr nextConn cache c .accept cache
      [.recv ⟨c.res.toNat, nextConn⟩ firstBuffer, .accept]
  | dropped {client : Client} {buffer : Sds} :
      (0 < c.res → Http.handleRecvCompletion buffer c.bytes = .rejected) →
      Reply rtr nextConn cache c (.recv client buffer) cache []
  | recvMore {client : Client} {buffer buffer' : Sds} : 0 < c.res →
      Http.handleRecvCompletion buffer c.bytes = .waiting buffer' →
      Reply rtr nextConn cache c (.recv client buffer) cache [.recv client buffer']
  | routed {client : Client} {buffer : Sds} {request : Request} {hit : Bool}
      {cache' : LruCache FileT} {ctxs : List Context} : 0 < c.res →
      Http.handleRecvCompletion buffer c.bytes = .routed request →
      publicHit rtr request = some hit →
      ProceedAll cache (fileCoroutines request client hit ++
        handlerCoroutines rtr request client c.memory) cache' ctxs →
      Reply rtr nextConn cache c (.recv client buffer) cache' ctxs
  | openFailed {pt : Coroutine} {cache' : LruCache FileT} {ctxs : List Context} : c.res < 0 →
      Proceeds cache .afterOpenat pt cache' ctxs →
      Reply rtr nextConn cache c (.openat pt) cache' ctxs
  | opened {pt : Coroutine} {cache' : LruCache FileT} {ctxs : List Context} : 0 ≤ c.res →
      Proceeds cache .afterOpenat { pt with file := { pt.file with fd := c.res.toNat } } cache'
        ctxs →
      Reply rtr nextConn cache c (.openat pt) cache' ctxs
  | statx {pt : Coroutine} {cache' : LruCache FileT} {ctxs : List Context} :
      Proceeds cache .afterStatx (statxResult pt c) cache' ctxs →
      Reply rtr nextConn cache c (.statx pt) cache' ctxs
  | sendMore {buffer : Bytes} {pt : Coroutine} : 0 ≤ c.res → buffer.drop c.res.toNat ≠ [] →
      Reply rtr nextConn cache c (.send buffer pt) cache [.send (buffer.drop c.res.toNat) pt]
  | sent {buffer : Bytes} {pt : Coroutine} : pt.callback = .routeCallbackSendFile →
      c.res < 0 ∨ buffer.drop c.res.toNat = [] →
      Reply rtr nextConn cache c (.send buffer pt) cache
        [.spliceAll (sendfileContext pt.file.fd pt.client.fd pt.file.stxSize
          (c.pipe.getD (0, 0))) pt]
  | spliceMore {ctx : SpliceAllContext} {pt : Coroutine} :
      (SpliceAll.handleSpliceAllCompletion c.res ctx).2 = false →
      Reply rtr nextConn cache c (.spliceAll ctx pt) cache
        [.spliceAll (SpliceAll.handleSpliceAllCompletion c.res ctx).1 pt]
  | splicedFile {ctx : SpliceAllContext} {pt : Coroutine} :
      (SpliceAll.handleSpliceAllCompletion c.res ctx).2 = true →
      pt.callback = .routeCallbackSendFile →
      Reply rtr nextConn cache c (.spliceAll ctx pt) cache [.close pt.client.fd (some pt)]
  | closed {fd : ℕ} {pt : Option Coroutine} : Reply rtr nextConn cache c (.close fd pt) cache []

def Context.admits (ctx : Context) (c : Completion) : ℕ :=
  match ctx with
  | .accept => if c.res < 0 then 0 else 1
  | _ => 0

section
variable {rtr : Router} {s t : LoopState} {c : Completion} {label : OpenFileLabel}
  {pt : Coroutine}

structure Leaves (s t : LoopState) (cache' : LruCache FileT) (ctxs : List Context) : Prop where
  inFlight : t.inFlight = s.inFlight ++ ctxs
  cache : t.fileCache = cache'

theorem leaves_nil (s : LoopState) : Leaves s s s.fileCache [] :=
  ⟨(List.append_nil _).symm, rfl⟩

theorem leaves_trans {u : LoopState} {cache₁ cache₂ : LruCache FileT} {as bs : List Context}
    (h₁ : Leaves s t cache₁ as) (h₂ : Leaves t u cache₂ bs) : Leaves s u cache₂ (as ++ bs) :=
  ⟨by rw [h₂.inFlight, h₁.inFlight, List.append_assoc], h₂.cache⟩

theorem afterOpenFile_leaves (h : afterOpenFile s pt = some t) :
    ∃ res, fileResponse pt.file.name pt.file.stxSize = some res ∧
      Leaves s t s.fileCache [.send (responseSerialize res) pt] := by
  simp only [afterOpenFile, Option.bind_eq_bind, Option.bind_eq_some_iff, Option.some.injEq] at h
  obtain ⟨res, hres, rfl⟩ := h
  exact ⟨res, hres, rfl, rfl⟩

theorem asyncIoOpenFile_proceeds (h : asyncIoOpenFile s label pt = some t) :
    ∃ cache' ctxs, Proceeds s.fileCache label pt cache' ctxs ∧ Leaves s t cache' ctxs := by
  obtain ⟨⟨found, cache'⟩, hget, h⟩ := Option.bind_eq_some_iff.mp h
  cases found with
  | some p =>
    obtain ⟨res, hres, ht⟩ := afterOpenFile_leaves h
    exact ⟨_, _, .hit hget hres, ht.inFlight, ht.cache⟩
  | none =>
    cases label with
    | start =>
      obtain ⟨name, hname, hs⟩ := Option.bind_eq_some_iff.mp h
      cases hs
      exact ⟨_, _, .start hget hname, rfl, rfl⟩
    | afterOpenat =>
      cases h
      exact ⟨_, _, .opened hget, rfl, rfl⟩
    | afterStatx =>
      obtain ⟨s', hs', h⟩ := Option.bind_eq_some_iff.mp h
      obtain ⟨r, hadd, rfl⟩ := cacheFile_eq hs'
      obtain ⟨res, hres, ht⟩ := afterOpenFile_leaves h
      exact ⟨_, _, .added hget hadd hres, ht.inFlight.trans (List.append_assoc _ _ _), ht.cache⟩

theorem proceedAll_append {cache cache₁ cache₂ : LruCache FileT} {as bs : List Coroutine}
    {ctxs₁ ctxs₂ : List Context} (h₁ : ProceedAll cache as cache₁ ctxs₁)
    (h₂ : ProceedAll cache₁ bs cache₂ ctxs₂) :
    ProceedAll cache (as ++ bs) cache₂ (ctxs₁ ++ ctxs₂) := by
  induction h₁ with
  | nil => exact h₂
  | cons first _ ih =>
    rw [List.append_assoc]
    exact .cons first (ih h₂)

def Started (s t : LoopState) (pts : List Coroutine) : Prop :=
  ∃ cache' ctxs, ProceedAll s.fileCache pts cache' ctxs ∧ Leaves s t cache' ctxs

theorem started_nil (s : LoopState) : Started s s [] := ⟨_, [], .nil, leaves_nil s⟩

theorem started_single (h : asyncIoOpenFile s .start pt = some t) : Started s t [pt] := by
  obtain ⟨cache', ctxs, hp, ht⟩ := asyncIoOpenFile_proceeds h
  exact ⟨cache', ctxs ++ [], .cons hp .nil, by rw [List.append_nil]; exact ht⟩

theorem started_trans {u : LoopState} {as bs : List Coroutine} (h₁ : Started s t as)
    (h₂ : Started t u bs) : Started s u (as ++ bs) := by
  obtain ⟨cache₁, ctxs₁, hp₁, ht₁⟩ := h₁
  obtain ⟨cache₂, ctxs₂, hp₂, ht₂⟩ := h₂
  rw [ht₁.cache] at hp₂
  exact ⟨cache₂, ctxs₁ ++ ctxs₂, proceedAll_append hp₁ hp₂, leaves_trans ht₁ ht₂⟩

theorem routerHandleRequest_started {request : Request} {client : Client} {memory : FileT}
    (h : routerHandleRequest rtr s request client memory = some t) :
    ∃ hit, publicHit rtr request = some hit ∧
      Started s t (fileCoroutines request client hit ++
        handlerCoroutines rtr request client memory) := by
  simp only [routerHandleRequest, Option.bind_eq_bind, Option.bind_eq_some_iff] at h
  obtain ⟨s₁, h₁, s₂, h₂, h₃⟩ := h
  simp only [sendPublic, Option.bind_eq_some_iff] at h₂
  obtain ⟨hit, hhit, h₂⟩ := h₂
  have hindex : Started s s₁
      (if request.uri = [47] then [fileCoroutine client (publicRoot ++ indexName)] else []) := by
    unfold sendIndex at h₁
    split_ifs at h₁ ⊢
    · exact started_single h₁
    · exact Option.some.inj h₁ ▸ started_nil s
  have hpublic : Started s₁ s₂
      (if hit then [fileCoroutine client (publicRoot ++ request.uri)] else []) := by
    split_ifs at h₂ ⊢
    · exact started_single h₂
    · exact Option.some.inj h₂ ▸ started_nil s₁
  have hhandler : Started s₂ t (handlerCoroutines rtr request client memory) := by
    unfold runHandler at h₃
    unfold handlerCoroutines
    split at h₃
    · rename_i hnone
      rw [hnone]
      exact Option.some.inj h₃ ▸ started_nil s₂
    · rename_i htest
      rw [htest]
      exact started_single h₃
    · cases h₃
  exact ⟨hit, hhit, started_trans (started_trans hindex hpublic) hhandler⟩

theorem sent_reply {buffer : Bytes} (hover : c.res < 0 ∨ buffer.drop c.res.toNat = [])
    (h : afterSendBuffer s pt c.pipe = some t) :
    ∃ ctxs, Reply rtr s.nextConn s.fileCache c (.send buffer pt) s.fileCache ctxs ∧
      Leaves s t s.fileCache ctxs := by
  unfold afterSendBuffer at h
  split at h
  · rename_i hcb
    cases h
    exact ⟨_, .sent hcb hover, rfl, rfl⟩
  · cases h

theorem send_reply {buffer : Bytes} (h : handleSendCompletion s buffer pt c = some t) :
    ∃ ctxs, Reply rtr s.nextConn s.fileCache c (.send buffer pt) s.fileCache ctxs ∧
      Leaves s t s.fileCache ctxs := by
  unfold handleSendCompletion at h
  split_ifs at h with hres
  · exact sent_reply (Or.inl hres) h
  · dsimp only at h
    split_ifs at h with hdrop
    · cases h
      exact ⟨_, .sendMore (not_lt.mp hres) hdrop, rfl, rfl⟩
    · exact sent_reply (Or.inr (not_not.mp hdrop)) h

theorem splice_reply {ctx : SpliceAllContext}
    (h : handleSpliceAllCompletion s ctx pt c = some t) :
    ∃ ctxs, Reply rtr s.nextConn s.fileCache c (.spliceAll ctx pt) s.fileCache ctxs ∧
      Leaves s t s.fileCache ctxs := by
  unfold handleSpliceAllCompletion at h
  dsimp only at h
  split_ifs at h with hdone
  · unfold afterSendfile at h
    split at h
    · rename_i hcb
      cases h
      exact ⟨_, .splicedFile hdone hcb, rfl, rfl⟩
    · cases h
  · cases h
    exact ⟨_, .spliceMore (Bool.eq_false_of_not_eq_true hdone), rfl, rfl⟩

theorem recv_reply {client : Client} {buffer : Sds}
    (h : handleRecvCompletion rtr s client buffer c = some t) :
    ∃ cache' ctxs, Reply rtr s.nextConn s.fileCache c (.recv client buffer) cache' ctxs ∧
      Leaves s t cache' ctxs := by
  unfold handleRecvCompletion at h
  split_ifs at h with hres
  · cases h
    exact ⟨_, [], .dropped fun hpos => absurd hpos (not_lt.mpr hres), leaves_nil s⟩
  · split at h
    · rename_i buffer' hout
      cases h
      exact ⟨_, _, .recvMore (not_le.mp hres) hout, rfl, rfl⟩
    · rename_i hout
      cases h
      exact ⟨_, [], .dropped fun _ => hout, leaves_nil s⟩
    · rename_i request hout
      obtain ⟨hit, hhit, cache', ctxs, hall, ht⟩ := routerHandleRequest_started h
      exact ⟨cache', ctxs, .routed (not_le.mp hres) hout hhit hall, ht⟩

theorem openat_reply (h : handleOpenatCompletion s pt c = some t) :
    ∃ cache' ctxs, Reply rtr s.nextConn s.fileCache c (.openat pt) cache' ctxs ∧
      Leaves s t cache' ctxs := by
  unfold handleOpenatCompletion at h
  split_ifs at h with hres
  · obtain ⟨cache', ctxs, hp, ht⟩ := asyncIoOpenFile_proceeds h
    exact ⟨cache', ctxs, .openFailed hres hp, ht⟩
  · obtain ⟨cache', ctxs, hp, ht⟩ := asyncIoOpenFile_proceeds h
    exact ⟨cache', ctxs, .opened (not_lt.mp hres) hp, ht.inFlight, ht.cache⟩

theorem accept_reply (s : LoopState) (c : Completion) :
    ∃ ctxs, Reply rtr s.nextConn s.fileCache c .accept s.fileCache ctxs ∧
      Leaves s (handleAcceptCompletion s c) s.fileCache ctxs := by
  unfold handleAcceptCompletion
  split_ifs with hres
  · exact ⟨[], .acceptFailed hres, leaves_nil s⟩
  · exact ⟨_, .accepted (not_lt.mp hres), List.append_assoc _ _ _, rfl⟩

/-- A callback leaves the operations in flight and appends what it submits. -/
theorem complete_reply {ctx : Context} (h : complete rtr s ctx c = some t) :
    ∃ cache' ctxs, Reply rtr s.nextConn s.fileCache c ctx cache' ctxs ∧
      Leaves s t cache' ctxs := by
  cases ctx with
  | accept => exact Option.some.inj h ▸ ⟨_, accept_reply s c⟩
  | recv client buffer => exact recv_reply h
  | openat pt => exact openat_reply h
  | statx pt =>
    have hopen : asyncIoOpenFile s .afterStatx (statxResult pt c) = some t := h
    obtain ⟨cache', ctxs, hp, ht⟩ := asyncIoOpenFile_proceeds hopen
    exact ⟨cache', ctxs, .statx hp, ht⟩
  | send buffer pt => exact ⟨_, send_reply h⟩
  | spliceAll ctx pt => exact ⟨_, splice_reply h⟩
  | close fd pt => exact ⟨_, [], .closed, Option.some.inj h ▸ ⟨(List.append_nil _).symm, rfl⟩⟩

theorem complete_nextConn {ctx : Context} (hallow : Allows s.opened ctx c)
    (h : complete rtr s ctx c = some t) : t.nextConn = s.nextConn + ctx.admits c := by
  cases ctx with
  | accept =>
    cases h
    unfold handleAcceptCompletion Context.admits
    split_ifs <;> rfl
  | _ => cases complete_effect hallow h <;> rfl

theorem step_reply (h : step rtr s c = some t) :
    ∃ rest ctx ctxs, s.inFlight[c.index]? = some ctx ∧ s.inFlight.Perm (rest ++ [ctx]) ∧
      Allows s.opened ctx c ∧ Reply rtr s.nextConn s.fileCache c ctx t.fileCache ctxs ∧
      t.inFlight = rest ++ ctxs ∧ t.nextConn = s.nextConn + ctx.admits c := by
  obtain ⟨ctx, hctx, hperm, hallow, hcomplete⟩ := step_complete h
  obtain ⟨cache', ctxs, hreply, hleaves⟩ := complete_reply hcomplete
  exact ⟨_, ctx, ctxs, hctx, hperm, hallow, hleaves.cache ▸ hreply, hleaves.inFlight,
    complete_nextConn (s := { s with inFlight := s.inFlight.eraseIdx c.index }) hallow hcomplete⟩

end

end Cerverus.EventLoop
