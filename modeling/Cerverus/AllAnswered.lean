import Cerverus.Wire

/-!
# No connection is forgotten

`Wire` says what a connection is sent as long as it is served. Here it is shown that the server
does not stop serving it before: a connection with no operation in flight has been sent its
whole answer.
-/
namespace Cerverus.EventLoop
open Hash Lru Http SpliceAll GuardedRun

/-- The connection has an operation in flight, or all it is owed. -/
def Settled (rtr : Router) (contents : Bytes → Bytes) (r : Conversations) (w : Wire)
    (ctxs : List Context) (n : ℕ) : Prop :=
  n ∈ ctxs.filterMap Context.conn ∨ w.sent n = answerTo rtr contents (r.received n)

/-- Every buffer in flight waits for the end of its header block. -/
def BuffersWait (ctxs : List Context) : Prop :=
  ∀ client buffer, .recv client buffer ∈ ctxs → Http.Waiting buffer

section
variable {rtr : Router} {contents : Bytes → Bytes} {r r' : Conversations} {w w' : Wire}
  {opened : ℕ → Option Handle} {ctx : Context} {ctxs new : List Context} {c : Completion}
  {cache cache' : LruCache FileT} {label : OpenFileLabel} {pt : Coroutine} {n : ℕ}

/-! ## What ends without a coroutine -/

theorem answerTo_waiting {buffer : Sds} (hw : Http.Waiting buffer) :
    answerTo rtr contents buffer.content = [] := by
  unfold answerTo
  rw [requestParse, hw.unfinished]
  simp only [not_le.mpr hw.length, if_false]

/-- A request is rejected only because it does not parse: the buffer is too small for more than
`MAX_REQUEST`. -/
theorem answerTo_rejected {buffer : Sds} {bytes : Bytes} (hw : Http.Waiting buffer)
    (hfit : bytes.length ≤ sdsavail buffer)
    (hout : Http.handleRecvCompletion buffer bytes = .rejected) :
    answerTo rtr contents (buffer.content ++ bytes) = [] := by
  have hinvalid : requestParse (buffer.content ++ bytes) = .invalid := by
    unfold Http.handleRecvCompletion at hout
    dsimp only at hout
    split_ifs at hout with hbad
    · refine hbad.resolve_right ?_
      have hshort := hw.length
      rw [sdsavail, hw.alloc, recvChunk] at hfit
      rw [maxHeaderBytes] at hshort
      rw [List.length_append, maxRequest]
      omega
    · split at hout <;> cases hout
  simp only [answerTo, hinvalid]

theorem answerTo_unserved {buffer : Sds} {bytes : Bytes} {request : Request} {client : Client}
    {memory : FileT} {hit : Bool}
    (hout : Http.handleRecvCompletion buffer bytes = .routed request)
    (hhit : publicHit rtr request = some hit)
    (hnone : fileCoroutines request client hit ++
      handlerCoroutines rtr request client memory = []) :
    answerTo rtr contents (buffer.content ++ bytes) = [] := by
  obtain ⟨consumed, hparse⟩ := parsed_of_routed hout
  have hserved : servedPath rtr request = none := by
    obtain ⟨hfiles, hhandler⟩ := List.append_eq_nil_iff.mp hnone
    unfold fileCoroutines at hfiles
    unfold handlerCoroutines at hhandler
    obtain ⟨hindex, hpublic⟩ := List.append_eq_nil_iff.mp hfiles
    have hindex' : request.uri ≠ [47] := fun huri => by simp [huri] at hindex
    have hpublic' : hit ≠ true := fun htrue => by simp [htrue] at hpublic
    have hhandler' : ¬ (handlerOf rtr request).isSome := fun hsome => by simp [hsome] at hhandler
    unfold servedPath
    rw [if_neg hindex', hhit, if_neg fun he => hpublic' (Option.some.inj he), if_neg hhandler']
  simp only [answerTo, hparse, hserved, Option.map_none, Option.getD_none]

/-! ## What goes on -/

theorem conn_proceeds (hp : Proceeds cache label pt cache' new) :
    pt.client.conn ∈ new.filterMap Context.conn := by
  have hone : ∀ {x : Context}, x.conn = some pt.client.conn →
      pt.client.conn ∈ [x].filterMap Context.conn := fun {x} hx =>
    List.mem_filterMap.mpr ⟨x, List.mem_singleton_self x, hx⟩
  cases hp with
  | hit hget hres => exact hone rfl
  | start hget hname => exact hone rfl
  | opened hget => exact hone rfl
  | added hget hadd hres =>
    rw [List.filterMap_append]
    exact List.mem_append_right _ (hone rfl)

theorem conn_proceedAll {pts : List Coroutine} (hp : ProceedAll cache pts cache' new)
    (hclients : ∀ pt ∈ pts, pt.client.conn = n) (hne : pts ≠ []) :
    n ∈ new.filterMap Context.conn := by
  cases hp with
  | nil => exact absurd rfl hne
  | cons first _ =>
    rw [List.filterMap_append]
    exact List.mem_append_left _ (hclients _ List.mem_cons_self ▸ conn_proceeds first)

theorem settled_own {next : ℕ} (hreply : Reply rtr next cache c ctx cache' new)
    (hallow : Allows opened ctx c) (hb : Backing rtr contents opened ctx c)
    (htalk : Talking rtr r next (ctxs ++ [ctx])) (hwait : BuffersWait (ctxs ++ [ctx]))
    (h : Answering rtr contents opened cache r w (ctxs ++ [ctx])) (hn : ctx.conn = some n) :
    Settled rtr contents (noteContext ctx c r) (wireContext contents opened ctx c w) new n := by
  have hlast : ctx ∈ ctxs ++ [ctx] := List.mem_append_right _ (List.mem_singleton_self _)
  have hone : ∀ {x : Context}, new = [x] → x.conn = ctx.conn →
      Settled rtr contents (noteContext ctx c r) (wireContext contents opened ctx c w) new n := by
    intro x hx hconn
    subst hx
    exact Or.inl (List.mem_filterMap.mpr ⟨x, List.mem_singleton_self x, hconn.trans hn⟩)
  cases hreply with
  | acceptFailed => cases hn
  | accepted hres => cases hn
  | @dropped client buffer hout =>
    cases hn
    have hsent : w.sent client.conn = [] := h.each _ hlast
    obtain ⟨_, hcontent, _⟩ := htalk.waiting client buffer hlast
    have hw := hwait client buffer hlast
    refine Or.inr (hsent.trans ?_)
    unfold noteContext
    dsimp only
    split_ifs with hpos
    · simp only [noteBytes, Function.update_self, ← hcontent]
      exact (answerTo_rejected hw (hallow hpos).2 (hout hpos)).symm
    · rw [← hcontent]
      exact (answerTo_waiting hw).symm
  | recvMore hpos hout => exact hone rfl rfl
  | @routed client buffer request hit _ _ hpos hout hhit hall =>
    cases hn
    by_cases hnone : fileCoroutines request client hit ++
        handlerCoroutines rtr request client c.memory = []
    · have hsent : w.sent client.conn = [] := h.each _ hlast
      obtain ⟨_, hcontent, _⟩ := htalk.waiting client buffer hlast
      refine Or.inr (hsent.trans ?_)
      simp only [noteContext, hpos, if_true, noteBytes, Function.update_self, ← hcontent]
      exact (answerTo_unserved hout hhit hnone).symm
    · exact Or.inl (conn_proceedAll hall
        (fun pt hpt => congrArg Client.conn (started_answers hhit pt hpt).1) hnone)
  | openFailed hres hp =>
    cases hn
    exact Or.inl (conn_proceeds hp)
  | opened hres hp =>
    cases hn
    have hconn := conn_proceeds hp
    exact Or.inl hconn
  | statx hp =>
    cases hn
    have hconn := conn_proceeds hp
    exact Or.inl hconn
  | sendMore hres hrest => exact hone rfl rfl
  | sent hcb hover => exact hone rfl rfl
  | spliceMore hmore => exact hone rfl rfl
  | splicedFile hdone hcb => exact hone rfl rfl
  | @closed fd pt =>
    cases pt with
    | none => cases hn
    | some pt =>
      cases hn
      obtain ⟨howes, hall⟩ := h.each _ hlast
      exact Or.inr (hall.trans howes.symm)

theorem buffersWait_reply {next : ℕ} (hreply : Reply rtr next cache c ctx cache' new)
    (hallow : Allows opened ctx c) (h : BuffersWait (ctxs ++ [ctx])) :
    BuffersWait (ctxs ++ new) := by
  have hrest : BuffersWait ctxs := fun client buffer hmem =>
    h client buffer (List.mem_append_left _ hmem)
  have hnone : (∀ x ∈ new, x.recvConn = none) → BuffersWait (ctxs ++ new) := by
    intro hnew client buffer hmem
    rcases List.mem_append.mp hmem with hmem | hmem
    · exact hrest client buffer hmem
    · cases hnew _ hmem
  have hone : ∀ {x : Context}, new = [x] → x.recvConn = none → BuffersWait (ctxs ++ new) := by
    intro x hx hrecv
    subst hx
    exact hnone fun y hy => List.mem_singleton.mp hy ▸ hrecv
  cases hreply with
  | acceptFailed => exact hnone (by simp)
  | accepted hres =>
    intro client buffer hmem
    rcases List.mem_append.mp hmem with hmem | hmem
    · exact hrest client buffer hmem
    · have hrecv : Context.recv client buffer = .recv ⟨c.res.toNat, next⟩ firstBuffer := by
        simpa using hmem
      cases hrecv
      exact waiting_firstBuffer
  | dropped => exact hnone (by simp)
  | @recvMore client buffer buffer' hpos hout =>
    intro client' buffer'' hmem
    rcases List.mem_append.mp hmem with hmem | hmem
    · exact hrest client' buffer'' hmem
    · cases List.mem_singleton.mp hmem
      exact waiting_completion
        (h client buffer (List.mem_append_right _ (List.mem_singleton_self _))) (hallow hpos).2 hout
  | routed hpos hout hhit hall => exact hnone fun x hx => (response_proceedAll hall x hx).1
  | openFailed hres hp => exact hnone fun x hx => (response_proceeds hp x hx).1
  | opened hres hp => exact hnone fun x hx => (response_proceeds hp x hx).1
  | statx hp => exact hnone fun x hx => (response_proceeds hp x hx).1
  | sendMore hres hrest => exact hone rfl rfl
  | sent hcb hover => exact hone rfl rfl
  | spliceMore hmore => exact hone rfl rfl
  | splicedFile hdone hcb => exact hone rfl rfl
  | closed => exact hnone (by simp)

/-- The step lemma: only the connection of the operation, or a new one, is concerned. -/
theorem settled_reply {next : ℕ} (hreply : Reply rtr next cache c ctx cache' new)
    (hallow : Allows opened ctx c) (hb : Backing rtr contents opened ctx c)
    (htalk : Talking rtr r next (ctxs ++ [ctx])) (hwait : BuffersWait (ctxs ++ [ctx]))
    (h : Answering rtr contents opened cache r w (ctxs ++ [ctx]))
    (hsettled : ∀ n < next, Settled rtr contents r w (ctxs ++ [ctx]) n) :
    ∀ n < next + ctx.admits c, Settled rtr contents (noteContext ctx c r)
      (wireContext contents opened ctx c w) (ctxs ++ new) n := by
  have hlast : ctx ∈ ctxs ++ [ctx] := List.mem_append_right _ (List.mem_singleton_self _)
  intro n hn
  unfold Settled
  rw [List.filterMap_append, List.mem_append, or_assoc]
  by_cases hown : ctx.conn = some n
  · exact Or.inr (settled_own hreply hallow hb htalk hwait h hown)
  · by_cases hold : n < next
    · have hsame := sameFor_wireContext c hown (h.clients ctx hlast) (h.each ctx hlast)
      rw [hsame.sent, hsame.received]
      rcases hsettled n hold with hmem | hall
      · rw [List.filterMap_append, List.mem_append] at hmem
        rcases hmem with hmem | hmem
        · exact Or.inl hmem
        · obtain ⟨x, hx, hconn⟩ := List.mem_filterMap.mp hmem
          exact absurd (List.mem_singleton.mp hx ▸ hconn) hown
      · exact Or.inr (Or.inr hall)
    · -- the connection just accepted
      cases hreply with
      | accepted hres =>
        have hnext : n = next := by
          simp only [Context.admits, not_lt.mpr hres, if_false] at hn
          omega
        subst hnext
        exact Or.inr (Or.inl (by simp [Context.conn, responseConn, Context.response]))
      | acceptFailed hres =>
        simp only [Context.admits, hres, if_true] at hn
        omega
      | _ =>
        simp only [Context.admits] at hn
        omega

end

/-! ## Runs -/

section
variable {rtr : Router} {contents : Bytes → Bytes} {c : Completion}
  {w w' : LoopState × Conversations × Wire}

/-- The loop serves, and has not forgotten a connection. -/
structure Attending (rtr : Router) (contents : Bytes → Bytes)
    (w : LoopState × Conversations × Wire) : Prop where
  serving : Serving rtr contents w
  waiting : BuffersWait w.1.inFlight
  settled : ∀ n < w.1.nextConn, Settled rtr contents w.2.1 w.2.2 w.1.inFlight n

theorem attending_step (hs : watched (step rtr) (noteWire contents) w c = some w')
    (hsmooth : RunsSmoothly rtr contents w.1 c) (h : Attending rtr contents w) :
    Attending rtr contents w' := by
  obtain ⟨hstep, hnote⟩ := watched_eq_some.mp hs
  obtain ⟨rest, ctx, new, hctx, hperm, hallow, hreply, hnew, hnext⟩ := step_reply hstep
  have hrecord : w'.2 = (noteContext ctx c w.2.1, wireContext contents w.1.opened ctx c w.2.2) := by
    rw [hnote, noteWire, hctx]
  have hwait : BuffersWait (rest ++ [ctx]) := fun client buffer hmem =>
    h.waiting client buffer (hperm.mem_iff.mpr hmem)
  refine ⟨serving_step hs hsmooth h.serving, ?_, ?_⟩
  · rw [hnew]
    exact buffersWait_reply hreply hallow hwait
  · rw [hnext, hnew, hrecord]
    refine settled_reply hreply hallow (backing_of_serving h.serving hctx hsmooth)
      (h.serving.talking.perm hperm) hwait (h.serving.answering.perm hperm) fun n hn => ?_
    exact (h.settled n hn).imp_left ((hperm.filterMap Context.conn).mem_iff.mp ·)

theorem attending_start (rtr : Router) (contents : Bytes → Bytes) (others : List ℕ) :
    Attending rtr contents
      (serverStart others, ⟨fun _ => [], []⟩, ⟨fun _ => [], fun _ => []⟩) := by
  refine ⟨serving_start rtr contents others, fun client buffer hmem => ?_, fun n hn => ?_⟩
  · cases List.eq_of_mem_replicate hmem
  · exact absurd hn (Nat.not_lt_zero n)

/-- In every run in which each request starts one coroutine, evictions spare the files in use,
nothing fails and every splice moves all there is, each connection accepted has an operation in
flight or has been sent the whole answer to what it has sent. When nothing is in flight but
accepts, every client has been answered. -/
theorem clients_answered (rtr : Router) (contents : Bytes → Bytes) (others : List ℕ)
    {cs : List Completion}
    (hg : Guarded (step rtr) (RunsSmoothly rtr contents) (serverStart others) cs) :
    Along (watched (step rtr) (noteWire contents))
      (fun w => ∀ n < w.1.nextConn, n ∈ w.1.inFlight.filterMap Context.conn ∨
        w.2.2.sent n = answerTo rtr contents (w.2.1.received n))
      (serverStart others, ⟨fun _ => [], []⟩, ⟨fun _ => [], fun _ => []⟩) cs :=
  along_mono (fun _ h => h.settled)
    (along_of_guarded (fun _ _ _ h hsmooth hs => attending_step hs hsmooth h)
      (attending_start rtr contents others) (guarded_watched.mpr hg))

/-- The client that asks for the index page has it when the server is back to its accepts. -/
theorem clients_answered_indexPage :
    ∃ w, run (watched (step bareRouter) (noteWire indexContents))
        (serverStart baseDescriptors, ⟨fun _ => [], []⟩, ⟨fun _ => [], fun _ => []⟩) indexPage =
        some w ∧
      w.1.inFlight.filterMap Context.conn = [] ∧
      w.2.2.sent 0 = answerTo bareRouter indexContents (w.2.1.received 0) := by
  have hrun : ((run (watched (step bareRouter) (noteWire indexContents))
      (serverStart baseDescriptors, ⟨fun _ => [], []⟩, ⟨fun _ => [], fun _ => []⟩)
      indexPage).map fun w => (w.1.nextConn, w.1.inFlight.filterMap Context.conn)) =
        some (1, []) := by decide +kernel
  obtain ⟨w, hw, hend⟩ := Option.map_eq_some_iff.mp hrun
  have hnext : w.1.nextConn = 1 := congrArg Prod.fst hend
  have hnone : w.1.inFlight.filterMap Context.conn = [] := congrArg Prod.snd hend
  have hall := along_run
    (clients_answered bareRouter indexContents baseDescriptors (by decide +kernel)) hw 0
    (by rw [hnext]; exact Nat.one_pos)
  rw [hnone] at hall
  exact ⟨w, hw, hnone, hall.resolve_left List.not_mem_nil⟩

end

end Cerverus.EventLoop
