import Cerverus.GuardedRun
import Cerverus.LoopEffects

/-!
# Who closes a descriptor

Each context in flight may have one descriptor in its care: the client it receives on, the
client of a coroutine that closes it, or the descriptor it is closing. No two contexts care
for the same one, and a client in somebody's care is open.
-/
namespace Cerverus.EventLoop
open Hash Lru Http SpliceAll GuardedRun

/-- `route_callback_send_file` closes its client before it ends, `route_callback_test` does
not. -/
def Coroutine.keeps (pt : Coroutine) : Option ℕ :=
  match pt.callback with
  | .routeCallbackSendFile => some pt.client.fd
  | .routeCallbackTest => none

def Context.keeps : Context → Option ℕ
  | .accept => none
  | .recv client _ => some client.fd
  | .openat pt => pt.keeps
  | .statx pt => pt.keeps
  | .send _ pt => pt.keeps
  | .spliceAll _ pt => pt.keeps
  | .close fd _ => some fd

def Context.evicts : Context → Bool
  | .close _ none => true
  | _ => false

def Handle.isClient : Handle → Bool
  | .client _ => true
  | _ => false

def Coroutine.Backed (opened : ℕ → Option Handle) (pt : Coroutine) : Prop :=
  pt.callback = .routeCallbackSendFile → opened pt.client.fd = some (.client pt.client.conn)

/-- What the descriptor in the care of a context refers to. -/
def Context.Backed (opened : ℕ → Option Handle) : Context → Prop
  | .accept => True
  | .recv client _ => opened client.fd = some (.client client.conn)
  | .openat pt => pt.Backed opened
  | .statx pt => pt.Backed opened
  | .send _ pt => pt.Backed opened
  | .spliceAll _ pt => pt.Backed opened
  | .close fd (some pt) => fd = pt.client.fd ∧ opened fd = some (.client pt.client.conn)
  | .close fd none => ∃ h ∈ opened fd, h.isClient = false

structure DescriptorsOk (opened : ℕ → Option Handle) (ctxs : List Context) : Prop where
  nodup : (ctxs.filterMap Context.keeps).Nodup
  backed : ∀ ctx ∈ ctxs, ctx.Backed opened

section
variable {opened opened' : ℕ → Option Handle} {ctx : Context} {ctxs : List Context} {fd : ℕ}

theorem Coroutine.client_of_keeps {pt : Coroutine} (h : pt.Backed opened)
    (hk : pt.keeps = some fd) : ∃ n, opened fd = some (.client n) := by
  unfold Coroutine.keeps at hk
  split at hk
  · rename_i hcb
    cases hk
    exact ⟨_, h hcb⟩
  · cases hk

/-- A descriptor in somebody's care is an open client, or is being closed after an eviction. -/
theorem client_of_keeps (h : ctx.Backed opened) (hk : ctx.keeps = some fd) :
    (∃ n, opened fd = some (.client n)) ∨ ctx = .close fd none := by
  cases ctx with
  | accept => cases hk
  | recv client buffer =>
    cases hk
    exact Or.inl ⟨_, h⟩
  | openat pt => exact Or.inl (Coroutine.client_of_keeps h hk)
  | statx pt => exact Or.inl (Coroutine.client_of_keeps h hk)
  | send buffer pt => exact Or.inl (Coroutine.client_of_keeps h hk)
  | spliceAll ctx pt => exact Or.inl (Coroutine.client_of_keeps h hk)
  | close f pt =>
    cases hk
    cases pt with
    | none => exact Or.inr rfl
    | some pt => exact Or.inl ⟨_, h.2⟩

theorem opened_of_keeps (h : ctx.Backed opened) (hk : ctx.keeps = some fd) : opened fd ≠ none := by
  rcases client_of_keeps h hk with ⟨n, hn⟩ | rfl
  · simp [hn]
  · obtain ⟨handle, hf, _⟩ := h
    simp [show opened fd = some handle from hf]

theorem Coroutine.backed_congr {pt : Coroutine} (h : pt.Backed opened)
    (hsame : ∀ fd ∈ pt.keeps, opened' fd = opened fd) : pt.Backed opened' := by
  intro hcb
  rw [hsame pt.client.fd (by simp [Coroutine.keeps, hcb])]
  exact h hcb

theorem backed_congr (h : ctx.Backed opened) (hsame : ∀ fd ∈ ctx.keeps, opened' fd = opened fd) :
    ctx.Backed opened' := by
  cases ctx with
  | accept => trivial
  | recv client buffer => exact (hsame client.fd rfl).trans h
  | openat pt => exact Coroutine.backed_congr h hsame
  | statx pt => exact Coroutine.backed_congr h hsame
  | send buffer pt => exact Coroutine.backed_congr h hsame
  | spliceAll ctx pt => exact Coroutine.backed_congr h hsame
  | close f pt =>
    cases pt with
    | none =>
      obtain ⟨handle, hf, hno⟩ := h
      exact ⟨handle, (hsame f rfl).trans hf, hno⟩
    | some pt => exact ⟨h.1, (hsame f rfl).trans h.2⟩

theorem descriptorsOk_congr (h : DescriptorsOk opened ctxs)
    (hsame : ∀ fd ∈ ctxs.filterMap Context.keeps, opened' fd = opened fd) :
    DescriptorsOk opened' ctxs :=
  ⟨h.nodup, fun ctx hc => backed_congr (h.backed ctx hc) fun fd hk =>
    hsame fd (List.mem_filterMap.mpr ⟨ctx, hc, hk⟩)⟩

theorem DescriptorsOk.isOpen (h : DescriptorsOk opened ctxs)
    (hfd : fd ∈ ctxs.filterMap Context.keeps) : opened fd ≠ none := by
  obtain ⟨ctx, hc, hk⟩ := List.mem_filterMap.mp hfd
  exact opened_of_keeps (h.backed ctx hc) hk

theorem descriptorsOk_update (h : DescriptorsOk opened ctxs) (hfd : opened fd = none)
    (handle : Option Handle) : DescriptorsOk (Function.update opened fd handle) ctxs := by
  apply descriptorsOk_congr h
  intro f hf
  apply Function.update_of_ne
  intro heq
  subst heq
  exact h.isOpen hf hfd

theorem descriptorsOk_push (h : DescriptorsOk opened ctxs) (hb : ctx.Backed opened)
    (hk : ∀ fd ∈ ctx.keeps, fd ∉ ctxs.filterMap Context.keeps) :
    DescriptorsOk opened (ctxs ++ [ctx]) := by
  refine ⟨nodup_filterMap_snoc.mpr ⟨h.nodup, hk⟩, fun ctx' hc' => ?_⟩
  rcases List.mem_append.mp hc' with hc' | hc'
  · exact h.backed ctx' hc'
  · exact List.mem_singleton.mp hc' ▸ hb

theorem descriptorsOk_remove (h : DescriptorsOk opened (ctxs ++ [ctx])) :
    DescriptorsOk opened ctxs ∧ ctx.Backed opened ∧
      ∀ fd ∈ ctx.keeps, fd ∉ ctxs.filterMap Context.keeps := by
  obtain ⟨hnd, hk⟩ := nodup_filterMap_snoc.mp h.nodup
  exact ⟨⟨hnd, fun c hc => h.backed c (List.mem_append_left _ hc)⟩,
    h.backed ctx (List.mem_append_right _ (List.mem_singleton_self ctx)), hk⟩

/-- A descriptor that an eviction may close: open, no client, and not being closed yet. -/
structure IdleFile (opened : ℕ → Option Handle) (ctxs : List Context) (fd : ℕ) : Prop where
  handle : ∃ h ∈ opened fd, h.isClient = false
  idle : .close fd none ∉ ctxs

instance decidableIdleFile (opened : ℕ → Option Handle) (ctxs : List Context) (fd : ℕ) :
    Decidable (IdleFile opened ctxs fd) :=
  decidable_of_iff ((∃ h ∈ opened fd, h.isClient = false) ∧ .close fd none ∉ ctxs)
    ⟨fun h => ⟨h.1, h.2⟩, fun h => ⟨h.handle, h.idle⟩⟩

theorem IdleFile.notMem (h : IdleFile opened ctxs fd) (hok : DescriptorsOk opened ctxs) :
    fd ∉ ctxs.filterMap Context.keeps := by
  intro hmem
  obtain ⟨handle, hopen, hno⟩ := h.handle
  obtain ⟨ctx, hc, hk⟩ := List.mem_filterMap.mp hmem
  rcases client_of_keeps (hok.backed ctx hc) hk with ⟨n, hn⟩ | rfl
  · rw [Option.mem_def, hn] at hopen
    cases hopen
    cases hno
  · exact h.idle hc

/-! ## Steps -/

theorem descriptorsOk_resume {pt : Coroutine} (h : DescriptorsOk opened ctxs)
    (hb : pt.Backed opened) (hk : ∀ fd ∈ pt.keeps, fd ∉ ctxs.filterMap Context.keeps)
    (hctx : pt.Backed opened → ctx.Backed opened) (hkeeps : ctx.keeps = pt.keeps) :
    DescriptorsOk opened (ctxs ++ [ctx]) :=
  descriptorsOk_push h (hctx hb) (hkeeps ▸ hk)

variable {cache cache' : LruCache FileT} {label : OpenFileLabel} {pt : Coroutine}
  {new : List Context}

def evictedBy (cache : LruCache FileT) (pt : Coroutine) : Option FileT :=
  match lruCacheGet cache pt.path with
  | some (none, cache') => (lruCacheAdd cache' pt.path pt.file).bind AddResult.evicted
  | _ => none

theorem descriptorsOk_advance (hadv : Advance cache label pt cache' new)
    (h : DescriptorsOk opened ctxs) (hb : pt.Backed opened)
    (hk : ∀ fd ∈ pt.keeps, fd ∉ ctxs.filterMap Context.keeps)
    (hidle : label = .afterStatx → ∀ file ∈ evictedBy cache pt, IdleFile opened ctxs file.fd) :
    DescriptorsOk opened (ctxs ++ new) := by
  cases hadv with
  | hit get raw => exact descriptorsOk_resume h hb hk id rfl
  | start get name => exact descriptorsOk_resume h hb hk id rfl
  | opened get => exact descriptorsOk_resume h hb hk id rfl
  | @added _ cache₁ r get add raw =>
    cases hev : r.evicted with
    | none => exact descriptorsOk_resume h hb hk id rfl
    | some file =>
      have hfile := hidle rfl file (by simp [evictedBy, get, add, hev])
      have hpush : DescriptorsOk opened (ctxs ++ [.close file.fd none]) :=
        descriptorsOk_push h hfile.handle fun fd hfd => by
          cases hfd
          exact hfile.notMem h
      rw [closeEvicted, ← List.append_assoc]
      refine descriptorsOk_resume hpush hb (fun fd hfd hmem => ?_) id rfl
      rcases mem_filterMap_snoc.mp hmem with hmem | hclose
      · exact hk fd hfd hmem
      · obtain ⟨handle, hopen, hno⟩ := hfile.handle
        obtain ⟨n, hn⟩ := Coroutine.client_of_keeps hb hfd
        rw [Option.mem_def, Option.some.inj hclose, hn] at hopen
        cases hopen
        cases hno

theorem advance_start (hadv : Advance cache .start pt cache' new) :
    ∃ ctx, new = [ctx] ∧ ctx.keeps = pt.keeps ∧
      ∀ opened, pt.Backed opened → ctx.Backed opened := by
  cases hadv with
  | hit get raw => exact ⟨_, rfl, rfl, fun _ => id⟩
  | start get name => exact ⟨_, rfl, rfl, fun _ => id⟩

theorem descriptorsOk_startAll {pts : List Coroutine} (hs : StartAll cache pts cache' new)
    (h : DescriptorsOk opened ctxs) (hb : ∀ pt ∈ pts, pt.Backed opened)
    (hnd : (pts.filterMap Coroutine.keeps).Nodup)
    (hk : ∀ fd ∈ pts.filterMap Coroutine.keeps, fd ∉ ctxs.filterMap Context.keeps) :
    DescriptorsOk opened (ctxs ++ new) := by
  induction hs generalizing ctxs with
  | nil => rwa [List.append_nil]
  | @cons _ _ _ pt pts _ _ first rest ih =>
    obtain ⟨ctx, rfl, hkeeps, hback⟩ := advance_start first
    rw [← List.append_assoc]
    have hpt : ∀ fd ∈ pt.keeps, fd ∉ ctxs.filterMap Context.keeps := fun fd hfd =>
      hk fd (List.mem_filterMap.mpr ⟨pt, List.mem_cons_self, hfd⟩)
    have hpush := descriptorsOk_resume h (hb pt List.mem_cons_self) hpt (hback opened) hkeeps
    refine ih hpush (fun q hq => hb q (List.mem_cons_of_mem _ hq)) ?_ fun fd hfd hmem => ?_
    · cases hc : pt.keeps with
      | none => rwa [List.filterMap_cons_none hc] at hnd
      | some f =>
        rw [List.filterMap_cons_some hc] at hnd
        exact (List.nodup_cons.mp hnd).2
    · rcases mem_filterMap_snoc.mp hmem with hmem | hctx
      · obtain ⟨q, hq, hqk⟩ := List.mem_filterMap.mp hfd
        exact hk fd (List.mem_filterMap.mpr ⟨q, List.mem_cons_of_mem _ hq, hqk⟩) hmem
      · rw [List.filterMap_cons_some (hkeeps.symm.trans hctx)] at hnd
        exact (List.nodup_cons.mp hnd).1 hfd

end

section
variable {rtr : Router} {request : Request} {client : Client} {hit : Bool}

theorem not_index_of_hit (h : publicHit rtr request = some true) : request.uri ≠ [47] := by
  intro huri
  have hno : (memchr [47] 46).isSome = false := by decide
  simp [publicHit, huri, hno] at h

/-- A request is served by at most one coroutine that closes its client. -/
theorem keeps_started (hhit : publicHit rtr request = some hit) (memory : FileT) :
    (fileCoroutines request client hit ++ handlerCoroutines rtr request client memory).filterMap
      Coroutine.keeps = if request.uri = [47] ∨ hit = true then [client.fd] else [] := by
  have hhandler : (handlerCoroutines rtr request client memory).filterMap Coroutine.keeps = [] := by
    unfold handlerCoroutines
    split_ifs
    · rfl
    · rfl
  rw [List.filterMap_append, hhandler, List.append_nil, fileCoroutines]
  cases hit with
  | false =>
    by_cases huri : request.uri = [47]
    · simp [huri, fileCoroutine, Coroutine.keeps]
    · simp [huri]
  | true => simp [not_index_of_hit hhit, fileCoroutine, Coroutine.keeps]

theorem backed_started {opened : ℕ → Option Handle}
    (h : opened client.fd = some (.client client.conn)) (memory : FileT) :
    ∀ pt ∈ fileCoroutines request client hit ++ handlerCoroutines rtr request client memory,
      pt.Backed opened := by
  intro pt hpt hcb
  have hclient : pt.client = client := by
    simp only [fileCoroutines, handlerCoroutines, List.mem_append] at hpt
    rcases hpt with (hpt | hpt) | hpt
    · split_ifs at hpt
      · rw [List.mem_singleton.mp hpt]
        rfl
      · cases hpt
    · split_ifs at hpt
      · rw [List.mem_singleton.mp hpt]
        rfl
      · cases hpt
    · split_ifs at hpt
      · rw [List.mem_singleton.mp hpt]
        rfl
      · cases hpt
  rw [hclient]
  exact h

end

/-- The file a completion evicts from the cache. -/
def evictedFile (s : LoopState) (c : Completion) : Option FileT :=
  match s.inFlight[c.index]? with
  | some (.statx pt) => evictedBy s.fileCache (statxResult pt c)
  | _ => none

def EvictsIdle (s : LoopState) (c : Completion) : Prop :=
  ∀ file ∈ evictedFile s c, IdleFile s.opened s.inFlight file.fd

instance decidableEvictsIdle (s : LoopState) (c : Completion) : Decidable (EvictsIdle s c) :=
  inferInstanceAs (Decidable (∀ file ∈ evictedFile s c, _))

section
variable {rtr : Router} {s t : LoopState} {c : Completion} {ctx : Context}

theorem descriptorsOk_pipe {opened opened' : ℕ → Option Handle} {ctxs : List Context}
    (h : DescriptorsOk opened ctxs) (hp : PipeOpened opened opened') :
    DescriptorsOk opened' ctxs := by
  rcases hp with rfl | ⟨a, b, hne, ha, hb, rfl⟩
  · exact h
  · refine descriptorsOk_update (descriptorsOk_update h ha _) ?_ _
    rwa [Function.update_of_ne hne.symm]

theorem descriptorsOk_effect (heff : Effect rtr s c ctx t)
    (hall : DescriptorsOk s.opened (s.inFlight ++ [ctx]))
    (hidle : ∀ pt, ctx = .statx pt → ∀ file ∈ evictedBy s.fileCache (statxResult pt c),
      IdleFile s.opened s.inFlight file.fd) :
    DescriptorsOk t.opened t.inFlight := by
  obtain ⟨h, hb, hk⟩ := descriptorsOk_remove hall
  cases heff with
  | acceptFailed => exact h
  | accepted fd hfd =>
    have hupd := descriptorsOk_update h hfd (some (.client s.nextConn))
    have hrecv : DescriptorsOk _
        (s.inFlight ++ [.recv ⟨fd, s.nextConn⟩ (Http.handleRecvSubmission sdsempty)]) :=
      descriptorsOk_push hupd (Function.update_self _ _ _) fun f hf hmem => by
        cases hf
        exact h.isOpen hmem hfd
    have haccept : DescriptorsOk _ (_ ++ [.accept]) :=
      descriptorsOk_push hrecv trivial fun f hf => by cases hf
    rwa [List.append_assoc] at haccept
  | recvDropped => exact h
  | recvMore hout => exact descriptorsOk_push h hb hk
  | @routed client buffer request hit cache' ctxs hres hout hhit hstart =>
    have hkeeps := @keeps_started _ _ client _ hhit c.memory
    refine descriptorsOk_startAll hstart h (backed_started hb c.memory) ?_ ?_
    · rw [hkeeps]
      split_ifs
      · exact List.nodup_singleton _
      · exact List.nodup_nil
    · rw [hkeeps]
      intro fd hfd
      split_ifs at hfd
      · rw [List.mem_singleton.mp hfd]
        exact hk client.fd rfl
      · cases hfd
  | openFailed hres hadv =>
    exact descriptorsOk_advance hadv h hb hk fun hl => by cases hl
  | @opened pt fd cache' ctxs hfd hadv =>
    have hupd := descriptorsOk_update hall hfd (some (.file pt.path))
    obtain ⟨h, hb, hk⟩ := descriptorsOk_remove hupd
    exact descriptorsOk_advance hadv h hb hk fun hl => by cases hl
  | @statx pt cache' ctxs hadv =>
    exact descriptorsOk_advance hadv h hb hk fun _ => hidle pt rfl
  | sendMore => exact descriptorsOk_resume h hb hk id rfl
  | sent hcb hpipe =>
    obtain ⟨h, hb, hk⟩ := descriptorsOk_remove (descriptorsOk_pipe hall hpipe)
    exact descriptorsOk_resume h hb hk id rfl
  | spliceMore hfd => exact descriptorsOk_resume h hb hk id rfl
  | @splicedFile pt splice hcb =>
    refine descriptorsOk_push h ⟨rfl, hb hcb⟩ fun fd hfd => hk fd ?_
    simpa [Context.keeps, Coroutine.keeps, hcb] using hfd
  | @closed fd pt =>
    apply descriptorsOk_congr h
    intro f hf
    apply Function.update_of_ne
    intro heq
    subst heq
    exact hk f rfl hf

theorem descriptorsOk_perm {opened : ℕ → Option Handle} {ctxs ctxs' : List Context}
    (h : DescriptorsOk opened ctxs) (hp : ctxs.Perm ctxs') : DescriptorsOk opened ctxs' :=
  ⟨(hp.filterMap Context.keeps).nodup_iff.mp h.nodup,
    fun ctx hc => h.backed ctx (hp.mem_iff.mpr hc)⟩

/-- Every step that evicts only idle files keeps every descriptor in one hand at most. -/
theorem descriptorsOk_step (hs : step rtr s c = some t) (h : DescriptorsOk s.opened s.inFlight)
    (hidle : EvictsIdle s c) : DescriptorsOk t.opened t.inFlight := by
  obtain ⟨rest, ctx, hperm, hget, heff⟩ := step_effect hs
  refine descriptorsOk_effect heff (descriptorsOk_perm h hperm) fun pt hpt file hfile => ?_
  have hevict := hidle file (by simpa [evictedFile, hget, hpt] using hfile)
  refine ⟨hevict.handle, fun hmem => hevict.idle ?_⟩
  exact hperm.mem_iff.mpr (List.mem_append_left _ hmem)

theorem descriptorsOk_start (others : List ℕ) :
    DescriptorsOk (serverStart others).opened (serverStart others).inFlight := by
  constructor
  · exact List.nodup_nil
  · intro ctx hc
    rw [List.eq_of_mem_replicate hc]
    trivial

end

end Cerverus.EventLoop
