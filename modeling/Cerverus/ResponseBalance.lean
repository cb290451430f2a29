import Cerverus.FailedOperations

/-!
# Descriptor balance of a response

What `route_callback_send_file` and its children open, and what of it is closed when it ends.
The pipe of `async_io_sendfile` never is.
-/
namespace Cerverus.EventLoop
open Hash Lru Http SpliceAll GuardedRun

/-- Who opened the files and the pipes that are still open, the connections whose descriptor
was closed, once for each time, and those whose response is over. -/
structure Accounts where
  files : ℕ → Option CoroutineId
  pipes : ℕ → Option CoroutineId
  closed : List ℕ
  ended : List ℕ

/-- The connection whose descriptor a `close` closes: the one of the coroutine that asked for it,
otherwise that of an evicted descriptor in use. -/
def closedConn (opened : ℕ → Option Handle) (fd : ℕ) (pt : Option Coroutine) : Option ℕ :=
  match pt with
  | some pt => some pt.client.conn
  | none =>
    match opened fd with
    | some (.client n) => some n
    | _ => none

def openPipe (pipes : ℕ → Option CoroutineId) (id : CoroutineId) (pipe : Option (ℕ × ℕ)) :
    ℕ → Option CoroutineId :=
  match pipe with
  | none => pipes
  | some (a, b) => Function.update (Function.update pipes a (some id)) b (some id)

def accountContext (opened : ℕ → Option Handle) (ctx : Context) (c : Completion) (r : Accounts) :
    Accounts :=
  match ctx with
  | .openat pt =>
    if c.res < 0 then r
    else { r with files := Function.update r.files c.res.toNat (some pt.id) }
  | .send buffer pt =>
    if SendOver buffer c then { r with pipes := openPipe r.pipes pt.id c.pipe } else r
  | .close fd pt =>
    { files := Function.update r.files fd none
      pipes := Function.update r.pipes fd none
      closed := r.closed ++ (closedConn opened fd pt).toList
      ended := r.ended ++ (pt.map fun pt => pt.client.conn).toList }
  | _ => r

def accountCompletion (s : LoopState) (c : Completion) (r : Accounts) : Accounts :=
  match s.inFlight[c.index]? with
  | none => r
  | some ctx => accountContext s.opened ctx c r

/-- The steps of the loop, with the accounts. -/
def accountedStep (rtr : Router) :
    LoopState × Accounts → Completion → Option (LoopState × Accounts) :=
  watched (step rtr) accountCompletion

def accountedStart (others : List ℕ) : LoopState × Accounts :=
  (serverStart others, ⟨fun _ => none, fun _ => none, [], []⟩)

/-- For a connection whose response is over: its descriptor was closed once and is not open any
more, no pipe of the response is open, and a file it opened is closed, being closed, or in the
cache. -/
structure Balanced (s : LoopState) (r : Accounts) (n : ℕ) : Prop where
  once : r.closed.count n = 1
  client : ∀ fd, s.opened fd ≠ some (.client n)
  pipes : ∀ fd, r.pipes fd ≠ some (n, .routeCallbackSendFile)
  files : ∀ fd, r.files fd = some (n, .routeCallbackSendFile) →
    Accounted s.fileCache s.inFlight (fun _ => False) fd

def ResponsesBalanced (w : LoopState × Accounts) : Prop := ∀ n ∈ w.2.ended, Balanced w.1 w.2 n

def Coroutine.SendsFile (pt : Coroutine) : Prop := pt.callback = .routeCallbackSendFile

instance decidableSendsFile (pt : Coroutine) : Decidable pt.SendsFile :=
  inferInstanceAs (Decidable (_ = _))

/-- No pipe is opened for the coroutine, and none of its opens finds its path cached. -/
def BalancedContext (cache : LruCache FileT) (ctx : Context) (c : Completion) : Prop :=
  match ctx with
  | .openat pt | .statx pt => pt.SendsFile → ¬ Cached cache pt.path
  | .send buffer pt => pt.SendsFile → SendOver buffer c → c.pipe = none
  | _ => True

instance decidableBalancedContext (cache : LruCache FileT) (ctx : Context) (c : Completion) :
    Decidable (BalancedContext cache ctx c) :=
  Context.casesOn (motive := fun ctx => Decidable (BalancedContext cache ctx c)) ctx
    (.isTrue trivial) (fun _ _ => .isTrue trivial)
    (fun pt => inferInstanceAs (Decidable (pt.SendsFile → ¬ Cached cache pt.path)))
    (fun pt => inferInstanceAs (Decidable (pt.SendsFile → ¬ Cached cache pt.path)))
    (fun buffer pt =>
      inferInstanceAs (Decidable (pt.SendsFile → SendOver buffer c → c.pipe = none)))
    (fun _ _ => .isTrue trivial) fun _ _ => .isTrue trivial

/-- The condition on a step: besides, an eviction closes an open file that is not being closed
yet, and no look-up finds the last of several cached files. -/
def KeepsBalance (rtr : Router) (w : LoopState × Accounts) (c : Completion) : Prop :=
  (∀ ctx ∈ w.1.inFlight[c.index]?, BalancedContext w.1.fileCache ctx c) ∧
    EvictsIdle w.1 c ∧ LooksUpSparing rtr w.1 c

instance decidableKeepsBalance (rtr : Router) (w : LoopState × Accounts) (c : Completion) :
    Decidable (KeepsBalance rtr w c) :=
  inferInstanceAs (Decidable (_ ∧ _ ∧ _))

/-! ## Connections -/

/-- Open clients have different connections, none of them closed before. -/
structure ConnsOk (opened : ℕ → Option Handle) (next : ℕ) (closed : List ℕ) : Prop where
  lt : ∀ fd n, opened fd = some (.client n) → n < next
  unclosed : ∀ fd n, opened fd = some (.client n) → n ∉ closed
  inj : ∀ fd fd' n, opened fd = some (.client n) → opened fd' = some (.client n) → fd = fd'
  nodup : closed.Nodup
  closedLt : ∀ n ∈ closed, n < next

section
variable {opened opened' : ℕ → Option Handle} {next n fd : ℕ} {closed : List ℕ}

theorem connsOk_sub (h : ConnsOk opened next closed)
    (hsub : ∀ fd n, opened' fd = some (.client n) → opened fd = some (.client n)) :
    ConnsOk opened' next closed :=
  ⟨fun fd n hfd => h.lt fd n (hsub fd n hfd), fun fd n hfd => h.unclosed fd n (hsub fd n hfd),
    fun fd fd' n hfd hfd' => h.inj fd fd' n (hsub fd n hfd) (hsub fd' n hfd'), h.nodup, h.closedLt⟩

theorem connsOk_accepted (h : ConnsOk opened next closed) :
    ConnsOk (Function.update opened fd (some (.client next))) (next + 1) closed := by
  have hcases : ∀ f m, Function.update opened fd (some (.client next)) f = some (.client m) →
      (f = fd ∧ m = next) ∨ opened f = some (.client m) := by
    intro f m hf
    by_cases hfd : f = fd
    · rw [hfd, Function.update_self] at hf
      cases hf
      exact Or.inl ⟨hfd, rfl⟩
    · rw [Function.update_of_ne hfd] at hf
      exact Or.inr hf
  refine ⟨fun f m hf => ?_, fun f m hf hmem => ?_, fun f f' m hf hf' => ?_, h.nodup,
    fun m hm => (h.closedLt m hm).trans (Nat.lt_succ_self _)⟩
  · rcases hcases f m hf with ⟨_, rfl⟩ | hold
    · exact Nat.lt_succ_self _
    · exact (h.lt f m hold).trans (Nat.lt_succ_self _)
  · rcases hcases f m hf with ⟨_, rfl⟩ | hold
    · exact absurd (h.closedLt _ hmem) (lt_irrefl _)
    · exact h.unclosed f m hold hmem
  · rcases hcases f m hf with ⟨rfl, rfl⟩ | hold
    · rcases hcases f' m hf' with ⟨rfl, _⟩ | hold'
      · rfl
      · exact absurd (h.lt f' m hold') (lt_irrefl _)
    · rcases hcases f' m hf' with ⟨rfl, rfl⟩ | hold'
      · exact absurd (h.lt f m hold) (lt_irrefl _)
      · exact h.inj f f' m hold hold'

theorem connsOk_closed (h : ConnsOk opened next closed) (hfd : opened fd = some (.client n)) :
    ConnsOk (Function.update opened fd none) next (closed ++ [n]) := by
  have hold : ∀ f m, Function.update opened fd none f = some (.client m) →
      f ≠ fd ∧ opened f = some (.client m) :=
    fun f m hf => opened_of_update hf fun heq => by cases heq
  refine ⟨fun f m hf => h.lt f m (hold f m hf).2, fun f m hf hmem => ?_,
    fun f f' m hf hf' => h.inj f f' m (hold f m hf).2 (hold f' m hf').2, ?_, fun m hm => ?_⟩
  · obtain ⟨hne, hf'⟩ := hold f m hf
    rcases List.mem_append.mp hmem with hmem | hmem
    · exact h.unclosed f m hf' hmem
    · rw [List.mem_singleton.mp hmem] at hf'
      exact hne (h.inj f fd n hf' hfd)
  · rw [List.nodup_append_comm, List.singleton_append, List.nodup_cons]
    exact ⟨h.unclosed fd n hfd, h.nodup⟩
  · rcases List.mem_append.mp hm with hm | hm
    · exact h.closedLt m hm
    · rw [List.mem_singleton.mp hm]
      exact h.lt fd n hfd

end

/-! ## Steps -/

/-- What the accounts say about the loop, as long as the condition is met. -/
structure BalanceInv (s : LoopState) (r : Accounts) : Prop where
  desc : DescriptorsOk s.opened s.inFlight
  cache : ∃ held, InOrder s.fileCache held
  conns : ConnsOk s.opened s.nextConn r.closed
  ended : r.ended ⊆ r.closed
  pipes : ∀ fd n, r.pipes fd ≠ some (n, .routeCallbackSendFile)
  files : ∀ fd n, r.files fd = some (n, .routeCallbackSendFile) →
    Accounted s.fileCache s.inFlight (fun pt => pt.id = (n, .routeCallbackSendFile)) fd

section
variable {rtr : Router} {s t : LoopState} {c : Completion} {ctx : Context} {r : Accounts} {n : ℕ}

theorem balanced_of_inv (h : BalanceInv s r) (hn : n ∈ r.ended) : Balanced s r n := by
  have hclosed := h.ended hn
  refine ⟨List.count_eq_one_of_mem h.conns.nodup hclosed, fun fd hfd => ?_, fun fd => h.pipes fd n,
    fun fd hfd => ?_⟩
  · exact h.conns.unclosed fd n hfd hclosed
  · cases h.files fd n hfd with
    | cached x e hof he hefd => exact .cached x e hof he hefd
    | closing pt hmem => exact .closing pt hmem
    | opening pt hid hmem hptfd =>
      -- such a coroutine would still have its client open
      obtain ⟨hconn, hcb⟩ := Prod.mk.inj hid
      have hopen := h.desc.backed _ hmem hcb
      rw [hconn] at hopen
      exact absurd hclosed (h.conns.unclosed _ n hopen)

theorem accountContext_quiet (opened : ℕ → Option Handle) (c : Completion)
    (hno : ∀ fd pt, ctx ≠ .close fd pt) :
    (accountContext opened ctx c r).closed = r.closed ∧
      (accountContext opened ctx c r).ended = r.ended := by
  cases ctx with
  | close fd pt => exact absurd rfl (hno fd pt)
  | openat pt =>
    simp only [accountContext]
    split_ifs <;> exact ⟨rfl, rfl⟩
  | send buffer pt =>
    simp only [accountContext]
    split_ifs <;> exact ⟨rfl, rfl⟩
  | _ => exact ⟨rfl, rfl⟩

theorem connsOk_effect (heff : Effect rtr s c ctx t) (hno : ∀ fd pt, ctx ≠ .close fd pt)
    (h : ConnsOk s.opened s.nextConn r.closed) : ConnsOk t.opened t.nextConn r.closed := by
  cases heff with
  | accepted fd hfd => exact connsOk_accepted h
  | opened hf hadv =>
    exact connsOk_sub h fun fd n hfd => (opened_of_update hfd fun heq => by cases heq).2
  | sent hcb hpipe =>
    exact connsOk_sub h fun fd n hfd => opened_of_pipeOpened hpipe hfd fun heq => by cases heq
  | closed => exact absurd rfl (hno _ _)
  | _ => exact h

theorem connsOk_close {opened : ℕ → Option Handle} {next fd : ℕ} {pt : Option Coroutine}
    (h : ConnsOk opened next r.closed) (hb : (Context.close fd pt).Backed opened) :
    ConnsOk (Function.update opened fd none) next
      (r.closed ++ (closedConn opened fd pt).toList) := by
  cases pt with
  | some pt =>
    have hfd : opened fd = some (.client pt.client.conn) := hb.2
    exact connsOk_closed h hfd
  | none =>
    obtain ⟨handle, hfd, hno⟩ := hb
    have hnone : closedConn opened fd none = none := by
      rw [closedConn, show opened fd = some handle from hfd]
      cases handle with
      | client n => cases hno
      | _ => rfl
    rw [hnone, Option.toList_none, List.append_nil]
    exact connsOk_sub h fun f n hf => (opened_of_update hf fun heq => by cases heq).2

theorem inOpenFile_balanced (h : BalancedContext s.fileCache ctx c) :
    ∀ pt ∈ ctx.inOpenFile, pt.SendsFile → ¬ Cached s.fileCache pt.path := by
  intro pt hpt
  cases ctx with
  | openat q =>
    cases hpt
    exact h
  | statx q =>
    cases hpt
    exact h
  | _ => cases hpt

theorem files_complete {held : List (ℕ × DllEntry FileT)} (hallow : Allows s.opened ctx c)
    (hc : complete rtr s ctx c = some t) (ho : InOrder s.fileCache held)
    (hspares : SparesTails s.fileCache (ctx.lookups rtr c))
    (hbal : BalancedContext s.fileCache ctx c)
    (h : ∀ fd n, r.files fd = some (n, .routeCallbackSendFile) →
      Accounted s.fileCache (s.inFlight ++ [ctx])
        (fun pt => pt.id = (n, .routeCallbackSendFile)) fd) :
    ∀ fd n, (accountContext s.opened ctx c r).files fd = some (n, .routeCallbackSendFile) →
      Accounted t.fileCache t.inFlight
        (fun pt => pt.id = (n, .routeCallbackSendFile)) fd := by
  intro fd n hfd
  have heff : Effect rtr s c ctx t := complete_effect hallow hc
  have hmiss := inOpenFile_balanced hbal
  have hold (hf : r.files fd = some (n, .routeCallbackSendFile))
      (hclose : ∀ pt, ctx ≠ .close fd pt) :
      Accounted t.fileCache t.inFlight
        (fun pt => pt.id = (n, .routeCallbackSendFile)) fd :=
    accounted_effect heff ho hspares (fun _ _ => Iff.rfl)
      (fun pt hpt hid => hmiss pt hpt (Prod.mk.inj hid).2) hclose (h fd n hf)
  cases ctx with
  | openat pt =>
    simp only [accountContext] at hfd
    split_ifs at hfd with hres
    · exact hold hfd fun _ hctx => by cases hctx
    · change Function.update r.files c.res.toNat (some pt.id) fd = _ at hfd
      by_cases hnew : fd = c.res.toNat
      · have hid : pt.id = (n, .routeCallbackSendFile) := by
          rw [hnew, Function.update_self] at hfd
          exact Option.some.inj hfd
        obtain ⟨cache', ctxs, hadv, hcache, hctxs⟩ := openat_succeeded hc (not_lt.mp hres)
        rw [hcache, hctxs]
        exact accounted_advance hadv ho hspares.1
          (fun _ _ => hmiss pt rfl (Prod.mk.inj hid).2)
          (Or.inr ⟨fun hl => (by cases hl), hid, hnew⟩)
      · rw [Function.update_of_ne hnew] at hfd
        exact hold hfd fun _ hctx => by cases hctx
  | send buffer pt =>
    refine hold ?_ fun _ hctx => by cases hctx
    simp only [accountContext] at hfd
    split_ifs at hfd <;> exact hfd
  | close f pt =>
    change Function.update r.files f none fd = _ at hfd
    have hne : fd ≠ f := by
      intro heq
      rw [heq, Function.update_self] at hfd
      cases hfd
    rw [Function.update_of_ne hne] at hfd
    refine hold hfd fun q hctx => ?_
    cases hctx
    exact hne rfl
  | _ => exact hold hfd fun _ hctx => by cases hctx

theorem pipes_accountContext {opened : ℕ → Option Handle} {cache : LruCache FileT}
    (hbal : BalancedContext cache ctx c)
    (h : ∀ fd n, r.pipes fd ≠ some (n, .routeCallbackSendFile)) :
    ∀ fd n, (accountContext opened ctx c r).pipes fd ≠ some (n, .routeCallbackSendFile) := by
  have hupdate : ∀ (pipes : ℕ → Option CoroutineId) (o : Option CoroutineId) f,
      (∀ fd n, pipes fd ≠ some (n, .routeCallbackSendFile)) →
      (∀ n, o ≠ some (n, .routeCallbackSendFile)) →
      ∀ fd n, Function.update pipes f o fd ≠ some (n, .routeCallbackSendFile) := by
    intro pipes o f hp ho fd n
    by_cases hfd : fd = f
    · rw [hfd, Function.update_self]
      exact ho n
    · rw [Function.update_of_ne hfd]
      exact hp fd n
  cases ctx with
  | close f pt => exact hupdate _ _ _ h fun n hn => by cases hn
  | openat pt =>
    simp only [accountContext]
    split_ifs <;> exact h
  | send buffer pt =>
    simp only [accountContext]
    split_ifs with hover
    · cases hpipe : c.pipe with
      | none => exact h
      | some p =>
        have hid : ∀ n, some pt.id ≠ some (n, .routeCallbackSendFile) := by
          intro n hn
          have hnone := hbal (Prod.mk.inj (Option.some.inj hn)).2 hover
          rw [hpipe] at hnone
          cases hnone
        exact hupdate _ _ _ (hupdate _ _ _ h hid) hid
    · exact h
  | _ => exact h

theorem balanceInv_complete (hallow : Allows s.opened ctx c) (hc : complete rtr s ctx c = some t)
    (hbal : BalancedContext s.fileCache ctx c)
    (hspares : SparesTails s.fileCache (ctx.lookups rtr c))
    (hidle : ∀ pt, ctx = .statx pt → ∀ file ∈ evictedBy s.fileCache (statxResult pt c),
      IdleFile s.opened s.inFlight file.fd)
    (h : BalanceInv { s with inFlight := s.inFlight ++ [ctx] } r) :
    BalanceInv t (accountContext s.opened ctx c r) := by
  have heff : Effect rtr s c ctx t := complete_effect hallow hc
  have hconns : ConnsOk t.opened t.nextConn (accountContext s.opened ctx c r).closed ∧
      (accountContext s.opened ctx c r).ended ⊆ (accountContext s.opened ctx c r).closed := by
    by_cases hclose : ∃ fd pt, ctx = .close fd pt
    · obtain ⟨fd, pt, rfl⟩ := hclose
      cases hc
      refine ⟨connsOk_close h.conns (descriptorsOk_remove h.desc).2.1, ?_⟩
      intro n hn
      rcases List.mem_append.mp hn with hn | hn
      · exact List.mem_append_left _ (h.ended hn)
      · refine List.mem_append_right _ ?_
        cases pt with
        | none => cases hn
        | some pt => exact hn
    · have hno : ∀ fd pt, ctx ≠ .close fd pt := fun fd pt hctx => hclose ⟨fd, pt, hctx⟩
      obtain ⟨hclosed, hended⟩ := accountContext_quiet (r := r) s.opened c hno
      rw [hclosed, hended]
      exact ⟨connsOk_effect heff hno h.conns, h.ended⟩
  obtain ⟨held, ho⟩ := h.cache
  exact ⟨descriptorsOk_effect heff h.desc hidle, inOrder_effect heff ho hspares, hconns.1,
    hconns.2, pipes_accountContext hbal h.pipes, files_complete hallow hc ho hspares hbal h.files⟩

end

section
variable {rtr : Router} {w w' : LoopState × Accounts} {c : Completion}

theorem balanceInv_step (hs : accountedStep rtr w c = some w') (h : BalanceInv w.1 w.2)
    (hok : KeepsBalance rtr w c) : BalanceInv w'.1 w'.2 := by
  obtain ⟨hstep, hnote⟩ := watched_eq_some.mp hs
  obtain ⟨ctx, hget, hperm, hallow, hc⟩ := step_complete hstep
  obtain ⟨hbal, hidle, hspares⟩ := hok
  rw [hnote, accountCompletion, hget]
  refine balanceInv_complete (s := { w.1 with inFlight := w.1.inFlight.eraseIdx c.index })
    hallow hc (hbal ctx hget) (hspares ctx hget) (fun pt hpt file hfile => ?_) ?_
  · have hevict := hidle file (by simpa [evictedFile, hget, hpt] using hfile)
    exact ⟨hevict.handle, fun hmem => hevict.idle (hperm.mem_iff.mpr (List.mem_append_left _ hmem))⟩
  · exact ⟨descriptorsOk_perm h.desc hperm, h.cache, h.conns, h.ended, h.pipes,
      fun fd n hfd => (h.files fd n hfd).mono hperm.subset⟩

end

theorem balanceInv_start (others : List ℕ) :
    BalanceInv (accountedStart others).1 (accountedStart others).2 := by
  have hclient : ∀ fd n, (serverStart others).opened fd ≠ some (.client n) := by
    intro fd n hfd
    change (if fd ∈ others then some Handle.other else none) = _ at hfd
    split_ifs at hfd
    cases hfd
  refine ⟨descriptorsOk_start others, ⟨[], inOrder_start others⟩, ⟨?_, ?_, ?_, List.nodup_nil, ?_⟩,
    List.nil_subset _, fun _ _ hp => (by cases hp), fun _ _ hf => by cases hf⟩
  · exact fun fd n hfd => absurd hfd (hclient fd n)
  · exact fun fd n hfd => absurd hfd (hclient fd n)
  · exact fun fd _ n hfd => absurd hfd (hclient fd n)
  · exact fun n hn => by cases hn

/-- For every router, in every run that opens no pipe for a response, whose opens are resumed
before their path is cached, whose evictions close idle files, and whose look-ups spare the last
of several cached files, every response is balanced when it is over. -/
theorem responsesBalanced_of_keepsBalance (rtr : Router) (others : List ℕ) {cs : List Completion}
    (hg : Guarded (accountedStep rtr) (KeepsBalance rtr) (accountedStart others) cs) :
    Along (accountedStep rtr) ResponsesBalanced (accountedStart others) cs := by
  have hinv : Along (accountedStep rtr) (fun w => BalanceInv w.1 w.2) (accountedStart others) cs :=
    along_of_guarded (fun w c w' h hok hs => balanceInv_step hs h hok) (balanceInv_start others) hg
  exact along_mono (fun w h n hn => balanced_of_inv h hn) hinv

/-! ## Runs -/

/-- The index page, with `pipe2` failing and both splices failing. -/
def pipelessIndex : List Completion :=
  [answer 0 5, recvAnswer 7 getIndex, answer 8 6, { answer 8 0 with stxSize := 3 },
    answer 8 63, answer 8 (-22), answer 8 0]

theorem responsesBalanced_pipeless :
    (run (accountedStep bareRouter) (accountedStart baseDescriptors) pipelessIndex).map
        (fun w => w.2.ended) = some [0] ∧
      Along (accountedStep bareRouter) ResponsesBalanced (accountedStart baseDescriptors)
        pipelessIndex :=
  ⟨by decide +kernel,
    responsesBalanced_of_keepsBalance bareRouter baseDescriptors (by decide +kernel)⟩

/-- The index page is delivered, and both ends of its pipe stay open. -/
theorem pipe_left_open :
    (run (accountedStep bareRouter) (accountedStart baseDescriptors) indexPage).map
        (fun w => (w.2.ended, w.2.pipes 7, w.2.pipes 8)) =
      some ([0], some (0, .routeCallbackSendFile), some (0, .routeCallbackSendFile)) ∧
      ¬ Along (accountedStep bareRouter) ResponsesBalanced (accountedStart baseDescriptors)
        indexPage := by
  have hrun : (run (accountedStep bareRouter) (accountedStart baseDescriptors) indexPage).map
      (fun w => (w.2.ended, w.2.pipes 7, w.2.pipes 8)) =
      some ([0], some (0, .routeCallbackSendFile), some (0, .routeCallbackSendFile)) := by
    decide +kernel
  refine ⟨hrun, fun halong => ?_⟩
  obtain ⟨w, hw, hw'⟩ := Option.map_eq_some_iff.mp hrun
  simp only [Prod.mk.injEq] at hw'
  obtain ⟨hended, hpipe, _⟩ := hw'
  have hbal : Balanced w.1 w.2 0 := along_run halong hw 0 (by rw [hended]; simp)
  exact hbal.pipes 7 hpipe

end Cerverus.EventLoop
