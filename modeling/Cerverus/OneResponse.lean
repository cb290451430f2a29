import Cerverus.Stranded

/-!
# One response at a time

`router_handle_request` runs its three cases one after the other, so a request may start two
coroutines for one connection. As long as it starts at most one, a connection is in one hand
from its `accept` on, and its `close` is the last operation submitted for it.
-/
namespace Cerverus.EventLoop
open Hash Lru Http SpliceAll GuardedRun

def Context.response : Context → Option Coroutine
  | .accept => none
  | .recv _ _ => none
  | .openat pt => some pt
  | .statx pt => some pt
  | .send _ pt => some pt
  | .spliceAll _ pt => some pt
  | .close _ pt => pt

def responseConn (ctx : Context) : Option ℕ := ctx.response.map fun pt => pt.client.conn

/-- At most one response for an open connection, and nothing submitted for a connection after
its `close`. -/
structure OneResponse (s : LoopState) : Prop where
  single : ∀ fd n, s.opened fd = some (.client n) →
    (s.inFlight.filterMap responseConn).count n ≤ 1
  closeLast : s.log.Pairwise fun e e' => ∀ n, e = .close n → e'.conn ≠ n

/-- A request that starts a file coroutine has no handler. -/
def StartsOne (rtr : Router) : RecvOutcome → Prop
  | .routed request => Served rtr request → handlerOf rtr request = none
  | _ => True

def AnswersOnce (rtr : Router) (s : LoopState) (c : Completion) : Prop :=
  match s.inFlight[c.index]? with
  | some (.recv _ buffer) => 0 < c.res → StartsOne rtr (Http.handleRecvCompletion buffer c.bytes)
  | _ => True

instance decidableStartsOne (rtr : Router) : DecidablePred (StartsOne rtr)
  | .waiting _ => .isTrue trivial
  | .rejected => .isTrue trivial
  | .routed request =>
    inferInstanceAs (Decidable (Served rtr request → handlerOf rtr request = none))

def Context.received : Context → Option Sds
  | .recv _ buffer => some buffer
  | _ => none

theorem answersOnce_iff {rtr : Router} {s : LoopState} {c : Completion} :
    AnswersOnce rtr s c ↔ ∀ buffer ∈ s.inFlight[c.index]?.bind Context.received,
      0 < c.res → StartsOne rtr (Http.handleRecvCompletion buffer c.bytes) := by
  unfold AnswersOnce
  cases hctx : s.inFlight[c.index]? with
  | none => simp
  | some ctx => cases ctx <;> simp [Context.received]

instance decidableAnswersOnce (rtr : Router) (s : LoopState) (c : Completion) :
    Decidable (AnswersOnce rtr s c) :=
  decidable_of_iff _ answersOnce_iff.symm

/-! ## Turns -/

def Context.conn : Context → Option ℕ
  | .recv client _ => some client.conn
  | ctx => responseConn ctx

def Context.active : Context → Option ℕ
  | .close _ _ => none
  | ctx => ctx.conn

/-- Each connection is in one hand at most, and in none but its `close` once that has been
submitted. -/
structure Turns (log : List Submission) (next : ℕ) (ctxs : List Context) : Prop where
  nodup : (ctxs.filterMap Context.conn).Nodup
  bound : ∀ n ∈ ctxs.filterMap Context.conn, n < next
  logBound : ∀ e ∈ log, e.conn < next
  running : ∀ n ∈ ctxs.filterMap Context.active, .close n ∉ log
  closeLast : log.Pairwise fun e e' => ∀ n, e = .close n → e'.conn ≠ n

/-- A connection in nobody's hand whose `close` has not been submitted. -/
structure Free (log : List Submission) (next : ℕ) (ctxs : List Context) (n : ℕ) : Prop where
  bound : n < next
  unheld : n ∉ ctxs.filterMap Context.conn
  notClosed : .close n ∉ log

section
variable {log : List Submission} {next : ℕ} {ctx : Context} {ctxs new : List Context} {n : ℕ}

theorem conn_of_active (h : ctx.active = some n) : ctx.conn = some n := by
  cases ctx with
  | close fd pt => cases h
  | _ => exact h

/-- What is submitted for a connection is submitted by a context that works for it, except by
an eviction. -/
theorem conn_of_submission {opened : ℕ → Option Handle} {e : Submission}
    (hevict : ctx.evicts = false) (h : ctx.submission opened = some e) :
    ctx.conn = some e.conn := by
  cases ctx with
  | close fd pt =>
    cases pt with
    | none => cases hevict
    | some pt =>
      cases h
      rfl
  | send buffer pt =>
    cases h
    rfl
  | spliceAll splice pt =>
    cases h
    rfl
  | _ => cases h

theorem active_of_close {opened : ℕ → Option Handle}
    (h : ctx.submission opened = some (.close n)) : ctx.active = none := by
  cases ctx with
  | close fd pt => rfl
  | _ => cases h

theorem turns_remove (h : Turns log next (ctxs ++ [ctx])) :
    Turns log next ctxs ∧ ∀ n ∈ ctx.active, Free log next ctxs n := by
  obtain ⟨hnd, hunheld⟩ := nodup_filterMap_snoc.mp h.nodup
  refine ⟨⟨hnd, fun n hn => h.bound n (mem_filterMap_snoc.mpr (Or.inl hn)), h.logBound,
    fun n hn => h.running n (mem_filterMap_snoc.mpr (Or.inl hn)), h.closeLast⟩, fun n hn => ?_⟩
  have hconn := conn_of_active hn
  exact ⟨h.bound n (mem_filterMap_snoc.mpr (Or.inr hconn)), hunheld n hconn,
    h.running n (mem_filterMap_snoc.mpr (Or.inr hn))⟩

section
variable {opened : ℕ → Option Handle}

/-- A context that may be submitted for its connection. -/
structure MaySubmit (log : List Submission) (next : ℕ) (ctxs : List Context) (ctx : Context) :
    Prop where
  free : ∀ n ∈ ctx.conn, Free log next ctxs n
  answers : ctx.evicts = false

theorem MaySubmit.logged (h : MaySubmit log next ctxs ctx) {e : Submission}
    (he : ctx.submission opened = some e) : Free log next ctxs e.conn :=
  h.free e.conn (conn_of_submission h.answers he)

theorem mem_logged {e : Submission} :
    e ∈ log ++ [ctx].filterMap (Context.submission opened) ↔
      e ∈ log ∨ ctx.submission opened = some e := by
  simp

theorem running_push (h : Turns log next ctxs) (hmay : MaySubmit log next ctxs ctx)
    (hn : n ∈ (ctxs ++ [ctx]).filterMap Context.active) :
    .close n ∉ log ++ [ctx].filterMap (Context.submission opened) := by
  intro hclose
  rcases mem_logged.mp hclose with hold | hnew
  · rcases mem_filterMap_snoc.mp hn with hn | hn
    · exact h.running n hn hold
    · exact (hmay.free n (conn_of_active hn)).notClosed hold
  · rcases mem_filterMap_snoc.mp hn with hn | hn
    · obtain ⟨c, hc, hactive⟩ := List.mem_filterMap.mp hn
      exact (hmay.logged hnew).unheld (List.mem_filterMap.mpr ⟨c, hc, conn_of_active hactive⟩)
    · cases (active_of_close hnew).symm.trans hn

theorem closeLast_push (h : Turns log next ctxs) (hmay : MaySubmit log next ctxs ctx) :
    (log ++ [ctx].filterMap (Context.submission opened)).Pairwise
      fun e e' => ∀ n, e = .close n → e'.conn ≠ n := by
  rw [List.pairwise_append]
  refine ⟨h.closeLast, ?_, fun e he e' he' n hclose hn => ?_⟩
  · cases hs : ctx.submission opened <;> simp [hs]
  · subst hclose
    have hfree := hmay.logged (show ctx.submission opened = some e' by simpa using he')
    exact (hn ▸ hfree).notClosed he

theorem turns_push (opened : ℕ → Option Handle) (h : Turns log next ctxs)
    (hmay : MaySubmit log next ctxs ctx) :
    Turns (log ++ [ctx].filterMap (Context.submission opened)) next (ctxs ++ [ctx]) := by
  refine ⟨nodup_filterMap_snoc.mpr ⟨h.nodup, fun n hn => (hmay.free n hn).unheld⟩, fun n hn => ?_,
    fun e he => ?_, fun n hn => running_push h hmay hn, closeLast_push h hmay⟩
  · rcases mem_filterMap_snoc.mp hn with hn | hn
    · exact h.bound n hn
    · exact (hmay.free n hn).bound
  · rcases mem_logged.mp he with he | he
    · exact h.logBound e he
    · exact (hmay.logged he).bound

theorem turns_silent (h : Turns log next ctxs) (hconn : ctx.conn = none)
    (hactive : ctx.active = none) : Turns log next (ctxs ++ [ctx]) := by
  have hconns : (ctxs ++ [ctx]).filterMap Context.conn = ctxs.filterMap Context.conn := by
    simp [hconn]
  have hactives : (ctxs ++ [ctx]).filterMap Context.active = ctxs.filterMap Context.active := by
    simp [hactive]
  exact ⟨hconns ▸ h.nodup, hconns ▸ h.bound, h.logBound, hactives ▸ h.running, h.closeLast⟩

theorem turns_perm {ctxs' : List Context} (h : Turns log next ctxs) (hp : ctxs.Perm ctxs') :
    Turns log next ctxs' :=
  ⟨(hp.filterMap Context.conn).nodup_iff.mp h.nodup,
    fun n hn => h.bound n ((hp.filterMap Context.conn).mem_iff.mpr hn), h.logBound,
    fun n hn => h.running n ((hp.filterMap Context.active).mem_iff.mpr hn), h.closeLast⟩

theorem turns_resume (opened : ℕ → Option Handle) {ctx' : Context}
    (h : Turns log next (ctxs ++ [ctx])) (hconn : ctx'.conn = ctx.active)
    (hno : ctx'.evicts = false) :
    Turns (log ++ [ctx'].filterMap (Context.submission opened)) next (ctxs ++ [ctx']) := by
  obtain ⟨hrest, hfree⟩ := turns_remove h
  exact turns_push opened hrest ⟨fun n hn => hfree n (hconn ▸ hn), hno⟩

theorem turns_mono (h : Turns log next ctxs) {next' : ℕ} (hle : next ≤ next') :
    Turns log next' ctxs :=
  ⟨h.nodup, fun n hn => (h.bound n hn).trans_le hle, fun e he => (h.logBound e he).trans_le hle,
    h.running, h.closeLast⟩

theorem turns_accept (h : Turns log next ctxs) (fd : ℕ) (buffer : Sds) :
    Turns log (next + 1) (ctxs ++ [.recv ⟨fd, next⟩ buffer, .accept]) := by
  have hfree : Free log (next + 1) ctxs next :=
    ⟨Nat.lt_succ_self next, fun hn => lt_irrefl _ (h.bound _ hn),
      fun hn => lt_irrefl next (h.logBound (.close next) hn)⟩
  have hrecv : MaySubmit log (next + 1) ctxs (.recv ⟨fd, next⟩ buffer) :=
    ⟨fun n hn => Option.some.inj hn ▸ hfree, rfl⟩
  have hpush : Turns (log ++ []) (next + 1) (ctxs ++ [.recv ⟨fd, next⟩ buffer]) :=
    turns_push (fun _ => none) (turns_mono h (Nat.le_succ next)) hrecv
  have haccept : Turns _ _ (_ ++ [.accept]) := turns_silent hpush rfl rfl
  rwa [List.append_nil, List.append_assoc] at haccept

end

end

/-! ## Steps -/

section
variable {opened : ℕ → Option Handle} {log : List Submission} {next : ℕ} {ctx : Context}
  {ctxs new : List Context} {cache cache' : LruCache FileT} {label : OpenFileLabel}
  {pt : Coroutine}

theorem turns_advance (hadv : Advance cache label pt cache' new)
    (h : Turns log next (ctxs ++ [ctx])) (hconn : ctx.active = some pt.client.conn)
    (hidle : label = .afterStatx → ∀ file ∈ evictedBy cache pt,
      ∃ h ∈ opened file.fd, h.isClient = false) :
    Turns (log ++ new.filterMap (Context.submission opened)) next (ctxs ++ new) := by
  cases hadv with
  | hit get raw => exact turns_resume _ h hconn.symm rfl
  | start get name => exact turns_resume _ h hconn.symm rfl
  | opened get => exact turns_resume _ h hconn.symm rfl
  | @added _ cache₁ r get add raw =>
    cases hev : r.evicted with
    | none => exact turns_resume _ h hconn.symm rfl
    | some file =>
      have hfile := hidle rfl file (by simp [evictedBy, get, add, hev])
      have hperm : (ctxs ++ [ctx] ++ [Context.close file.fd none]).Perm
          (ctxs ++ [.close file.fd none] ++ [ctx]) := by
        rw [List.append_assoc, List.append_assoc]
        exact (List.Perm.swap _ _ []).append_left ctxs
      have hturns := turns_perm (turns_silent h rfl rfl) hperm
      have hsend : Turns _ _ (_ ++ [.send raw pt]) := turns_resume opened hturns hconn.symm rfl
      rw [List.append_assoc] at hsend
      have hnone : (Context.close file.fd none).submission opened = none := by
        obtain ⟨handle, hopen, hno⟩ := hfile
        rw [Option.mem_def] at hopen
        cases handle with
        | client n => cases hno
        | _ => simp [Context.submission, hopen]
      rw [closeEvicted, Option.map_some, Option.toList_some, List.singleton_append,
        List.filterMap_cons_none hnone]
      exact hsend

end

section
variable {rtr : Router} {s t : LoopState} {c : Completion} {ctx : Context} {request : Request}
  {client : Client} {hit : Bool}

/-- A request that starts a file coroutine has started no other, and has no handler. -/
theorem started_cases (hhit : publicHit rtr request = some hit)
    (hone : Served rtr request → handlerOf rtr request = none) (memory : FileT) :
    fileCoroutines request client hit ++ handlerCoroutines rtr request client memory = [] ∨
      ∃ pt, fileCoroutines request client hit ++ handlerCoroutines rtr request client memory =
        [pt] ∧ pt.client = client := by
  by_cases huri : request.uri = [47]
  · have hmiss : hit = false := by
      cases hit with
      | false => rfl
      | true => exact absurd huri (not_index_of_hit hhit)
    refine Or.inr ⟨fileCoroutine client (publicRoot ++ indexName), ?_, rfl⟩
    simp [fileCoroutines, handlerCoroutines, huri, hmiss, hone (Or.inl huri)]
  · cases hit with
    | true =>
      refine Or.inr ⟨fileCoroutine client (publicRoot ++ request.uri), ?_, rfl⟩
      simp [fileCoroutines, handlerCoroutines, huri, hone (Or.inr hhit)]
    | false =>
      cases hh : handlerOf rtr request with
      | none => exact Or.inl (by simp [fileCoroutines, handlerCoroutines, huri, hh])
      | some callback =>
        refine Or.inr ⟨testCoroutine client memory, ?_, rfl⟩
        simp [fileCoroutines, handlerCoroutines, huri, hh]

theorem startAll_nil {cache cache' : LruCache FileT} {new : List Context}
    (h : StartAll cache [] cache' new) : new = [] := by
  cases h
  rfl

theorem startAll_single {cache cache' : LruCache FileT} {pt : Coroutine} {new : List Context}
    (h : StartAll cache [pt] cache' new) : Advance cache .start pt cache' new := by
  cases h with
  | cons first rest =>
    cases rest
    rwa [List.append_nil]

theorem turns_effect (heff : Effect rtr s c ctx t)
    (h : Turns s.log s.nextConn (s.inFlight ++ [ctx]))
    (honce : ∀ client buffer, ctx = .recv client buffer → 0 < c.res →
      StartsOne rtr (Http.handleRecvCompletion buffer c.bytes))
    (hidle : ∀ pt, ctx = .statx pt → ∀ file ∈ evictedBy s.fileCache (statxResult pt c),
      ∃ h ∈ s.opened file.fd, h.isClient = false) :
    Turns t.log t.nextConn t.inFlight := by
  cases heff with
  | acceptFailed => exact (turns_remove h).1
  | accepted fd hfd =>
    have haccept := turns_accept (turns_remove h).1 fd (Http.handleRecvSubmission sdsempty)
    rw [← List.append_nil s.log] at haccept
    exact haccept
  | recvDropped => exact (turns_remove h).1
  | recvMore hout => exact turns_resume _ h rfl rfl
  | @routed client buffer request hit cache' ctxs hres hout hhit hstart =>
    have hone := honce client buffer rfl hres
    rw [hout] at hone
    rcases started_cases hhit hone c.memory with hnil | ⟨pt, hpt, hclient⟩
    · rw [hnil] at hstart
      rw [startAll_nil hstart]
      simpa [submitAll] using (turns_remove h).1
    · rw [hpt] at hstart
      exact turns_advance (startAll_single hstart) h (by rw [hclient]; rfl)
        fun hl => by cases hl
  | openFailed hres hadv => exact turns_advance hadv h rfl fun hl => by cases hl
  | opened hfd hadv => exact turns_advance hadv h rfl fun hl => by cases hl
  | @statx pt cache' ctxs hadv => exact turns_advance hadv h rfl fun _ => hidle pt rfl
  | sendMore => exact turns_resume _ h rfl rfl
  | sent hcb hpipe => exact turns_resume _ h rfl rfl
  | spliceMore hfd => exact turns_resume _ h rfl rfl
  | splicedFile hcb => exact turns_resume _ h rfl rfl
  | closed => exact (turns_remove h).1

theorem turns_step (hs : step rtr s c = some t) (h : Turns s.log s.nextConn s.inFlight)
    (honce : AnswersOnce rtr s c) (hidle : EvictsIdle s c) :
    Turns t.log t.nextConn t.inFlight := by
  obtain ⟨rest, ctx, hperm, hget, heff⟩ := step_effect hs
  refine turns_effect heff (turns_perm h hperm) (fun client buffer hctx => ?_)
    fun pt hpt file hfile => ?_
  · simpa [AnswersOnce, hget, hctx] using honce
  · exact (hidle file (by simpa [evictedFile, hget, hpt] using hfile)).handle

theorem turns_start (others : List ℕ) :
    Turns (serverStart others).log (serverStart others).nextConn (serverStart others).inFlight := by
  constructor
  · exact List.nodup_nil
  · simp [serverStart, Context.conn, responseConn, Context.response]
  · simp [serverStart]
  · simp [serverStart]
  · exact List.Pairwise.nil

theorem filterMap_response_sublist (ctxs : List Context) :
    (ctxs.filterMap responseConn).Sublist (ctxs.filterMap Context.conn) := by
  induction ctxs with
  | nil => exact List.Sublist.refl _
  | cons ctx ctxs ih =>
    cases ctx with
    | recv client buffer => exact ih.cons _
    | accept => exact ih
    | close fd pt =>
      cases pt with
      | none => exact ih
      | some pt => exact ih.cons_cons _
    | _ => exact ih.cons_cons _

theorem oneResponse_of_turns (h : Turns s.log s.nextConn s.inFlight) : OneResponse s :=
  ⟨fun _ n _ => List.nodup_iff_count_le_one.mp ((filterMap_response_sublist _).nodup h.nodup) n,
    h.closeLast⟩

/-- For every router, in every run in which no request starts both a file coroutine and a
handler and whose evictions close idle files, a connection has one response at a time and
its `close` comes last. -/
theorem oneResponse_of_answersOnce (rtr : Router) (others : List ℕ) {cs : List Completion}
    (hg : Guarded (step rtr) (fun s c => AnswersOnce rtr s c ∧ EvictsIdle s c)
      (serverStart others) cs) : Along (step rtr) OneResponse (serverStart others) cs := by
  have hinv : Along (step rtr) (fun s => Turns s.log s.nextConn s.inFlight)
      (serverStart others) cs := by
    refine along_of_guarded ?_ (turns_start others) hg
    intro s c t h hex hs
    obtain ⟨honce, hidle⟩ := hex
    exact turns_step hs h honce hidle
  exact along_mono (fun s h => oneResponse_of_turns h) hinv

end

/-! ## Runs -/

theorem oneResponse_indexPage :
    (run (step bareRouter) (serverStart baseDescriptors) indexPage).isSome ∧
      Along (step bareRouter) OneResponse (serverStart baseDescriptors) indexPage :=
  ⟨by decide +kernel, oneResponse_of_answersOnce bareRouter baseDescriptors (by decide +kernel)⟩

/-- The bare router with the callback of the tests registered for the index page. -/
def indexRouteRouter : Router :=
  routerAddRoute bareRouter (Routing.routeCreate .get [47] (some .routeCallbackTest))

/-- The index page and the handler are both sent to the connection. -/
theorem two_responses_index :
    (run (step indexRouteRouter) (serverStart baseDescriptors)
        [answer 0 5, recvAnswer 7 getIndex]).map
        (fun s => (s.opened 5, (s.inFlight.filterMap responseConn).count 0)) =
      some (some (.client 0), 2) ∧
      ¬ Along (step indexRouteRouter) OneResponse (serverStart baseDescriptors)
        [answer 0 5, recvAnswer 7 getIndex] := by
  have hrun : (run (step indexRouteRouter) (serverStart baseDescriptors)
      [answer 0 5, recvAnswer 7 getIndex]).map
      (fun s => (s.opened 5, (s.inFlight.filterMap responseConn).count 0)) =
        some (some (.client 0), 2) := by decide +kernel
  refine ⟨hrun, fun halong => ?_⟩
  obtain ⟨s, hs, hs'⟩ := Option.map_eq_some_iff.mp hrun
  have hopen : s.opened 5 = some (.client 0) := congrArg Prod.fst hs'
  have hcount : (s.inFlight.filterMap responseConn).count 0 = 2 := congrArg Prod.snd hs'
  have hle := (along_run halong hs).single 5 0 hopen
  omega

end Cerverus.EventLoop
