import Cerverus.LoopReplies
import Cerverus.OneResponse
import Cerverus.PublicListing
import Cerverus.TableSizes

/-!
# Which request a response answers

Connections are served at the same time, and what is in flight for one completes between what
is in flight for another. Kept beside the loop: the bytes each connection has sent, and the
connections that have had a request routed.
-/
namespace Cerverus.EventLoop
open Hash Lru Http SpliceAll GuardedRun

structure Conversations where
  received : ℕ → Bytes
  routed : List ℕ

def noteBytes (n : ℕ) (buffer : Sds) (bytes : Bytes) (r : Conversations) : Conversations :=
  { received := Function.update r.received n (r.received n ++ bytes)
    routed :=
      match Http.handleRecvCompletion buffer bytes with
      | .routed _ => r.routed ++ [n]
      | _ => r.routed }

def noteContext (ctx : Context) (c : Completion) (r : Conversations) : Conversations :=
  match ctx with
  | .recv client buffer => if 0 < c.res then noteBytes client.conn buffer c.bytes r else r
  | _ => r

def noteReceived (s : LoopState) (c : Completion) (r : Conversations) : Conversations :=
  match s.inFlight[c.index]? with
  | none => r
  | some ctx => noteContext ctx c r

/-- The coroutine is one that the request starts. -/
def Coroutine.Answers (rtr : Router) (request : Request) (pt : Coroutine) : Prop :=
  match pt.callback with
  | .routeCallbackSendFile => request.uri = [47] ∧ pt.path = publicRoot ++ indexName ∨
      publicHit rtr request = some true ∧ pt.path = publicRoot ++ request.uri
  | .routeCallbackTest => (handlerOf rtr request).isSome ∧ pt.path = publicRoot ++ testName

/-- The bytes parse to a request the coroutine answers. -/
def AnswersBytes (rtr : Router) (bytes : Bytes) (pt : Coroutine) : Prop :=
  ∃ consumed request, requestParse bytes = .parsed consumed request ∧ pt.Answers rtr request

def Context.recvConn : Context → Option ℕ
  | .recv client _ => some client.conn
  | _ => none

/-- The same, said of the operations in flight alone and made inductive. -/
structure Talking (rtr : Router) (r : Conversations) (next : ℕ) (ctxs : List Context) : Prop where
  distinct : (ctxs.filterMap Context.recvConn).Nodup
  waiting : ∀ client buffer, .recv client buffer ∈ ctxs →
    client.conn < next ∧ buffer.content = r.received client.conn ∧ client.conn ∉ r.routed
  answers : ∀ ctx ∈ ctxs, ∀ pt ∈ ctx.response,
    pt.client.conn ∈ r.routed ∧ AnswersBytes rtr (r.received pt.client.conn) pt
  once : r.routed.Nodup
  bound : ∀ n ∈ r.routed, n < next
  fresh : ∀ n, next ≤ n → r.received n = []

section
variable {rtr : Router} {r : Conversations} {next : ℕ} {ctxs new : List Context} {ctx : Context}
  {label : OpenFileLabel} {pt : Coroutine} {cache cache' : LruCache FileT}

theorem Talking.perm {ctxs' : List Context} (h : Talking rtr r next ctxs)
    (hp : ctxs.Perm ctxs') : Talking rtr r next ctxs' :=
  ⟨(hp.filterMap Context.recvConn).nodup_iff.mp h.distinct,
    fun client buffer hmem => h.waiting client buffer (hp.mem_iff.mpr hmem),
    fun ctx hmem => h.answers ctx (hp.mem_iff.mpr hmem), h.once, h.bound, h.fresh⟩

theorem Talking.sublist {ctxs' : List Context} (h : Talking rtr r next ctxs)
    (hs : ctxs'.Sublist ctxs) : Talking rtr r next ctxs' :=
  ⟨h.distinct.sublist (hs.filterMap _),
    fun client buffer hmem => h.waiting client buffer (hs.subset hmem),
    fun ctx hmem => h.answers ctx (hs.subset hmem), h.once, h.bound, h.fresh⟩

theorem Talking.push (h : Talking rtr r next ctxs) (hrecv : ∀ ctx ∈ new, ctx.recvConn = none)
    (hnew : ∀ ctx ∈ new, ∀ pt ∈ ctx.response,
      pt.client.conn ∈ r.routed ∧ AnswersBytes rtr (r.received pt.client.conn) pt) :
    Talking rtr r next (ctxs ++ new) := by
  have hnone : new.filterMap Context.recvConn = [] := List.filterMap_eq_nil_iff.mpr hrecv
  refine ⟨?_, fun client buffer hmem => ?_, fun ctx hmem => ?_, h.once, h.bound, h.fresh⟩
  · rw [List.filterMap_append, hnone, List.append_nil]
    exact h.distinct
  · rcases List.mem_append.mp hmem with hmem | hmem
    · exact h.waiting client buffer hmem
    · cases hrecv _ hmem
  · rcases List.mem_append.mp hmem with hmem | hmem
    · exact h.answers ctx hmem
    · exact hnew ctx hmem

theorem response_proceeds (h : Proceeds cache label pt cache' ctxs) :
    ∀ ctx ∈ ctxs, ctx.recvConn = none ∧
      ∀ q ∈ ctx.response, q.client = pt.client ∧ q.callback = pt.callback ∧ q.path = pt.path := by
  have hclose : ∀ (evicted : Option FileT), ∀ ctx ∈ closeEvicted evicted,
      ctx.recvConn = none ∧ ctx.response = none := by
    intro evicted ctx hmem
    cases evicted with
    | none => cases hmem
    | some file =>
      rw [List.mem_singleton.mp hmem]
      exact ⟨rfl, rfl⟩
  have hsame : ∀ {ctx : Context} {q : Coroutine}, ctx.recvConn = none → ctx.response = some q →
      (q.client = pt.client ∧ q.callback = pt.callback ∧ q.path = pt.path) → ∀ x ∈ [ctx],
        x.recvConn = none ∧ ∀ q ∈ x.response,
          q.client = pt.client ∧ q.callback = pt.callback ∧ q.path = pt.path := by
    intro ctx q hnone hresponse hq x hx
    rw [List.mem_singleton.mp hx]
    refine ⟨hnone, fun q' hq' => ?_⟩
    rw [hresponse, Option.mem_some_iff] at hq'
    exact hq' ▸ hq
  cases h with
  | hit hget hres => exact hsame rfl rfl ⟨rfl, rfl, rfl⟩
  | start hget hname => exact hsame rfl rfl ⟨rfl, rfl, rfl⟩
  | opened hget => exact hsame rfl rfl ⟨rfl, rfl, rfl⟩
  | added hget hadd hres =>
    intro ctx hmem
    rcases List.mem_append.mp hmem with hmem | hmem
    · obtain ⟨hnone, hno⟩ := hclose _ ctx hmem
      refine ⟨hnone, fun q hq => ?_⟩
      rw [hno] at hq
      cases hq
    · exact hsame rfl rfl ⟨rfl, rfl, rfl⟩ ctx hmem

theorem Answers.congr {request : Request} {pt q : Coroutine} (h : pt.Answers rtr request)
    (hcb : q.callback = pt.callback) (hpath : q.path = pt.path) : q.Answers rtr request := by
  unfold Coroutine.Answers at h ⊢
  rw [hcb, hpath]
  exact h

theorem Talking.resume (h : Talking rtr r next (ctxs ++ [ctx])) (hpt : ctx.response = some pt)
    (hnew : ∀ ctx ∈ new, ctx.recvConn = none ∧
      ∀ q ∈ ctx.response, q.client = pt.client ∧ q.callback = pt.callback ∧ q.path = pt.path) :
    Talking rtr r next (ctxs ++ new) := by
  obtain ⟨hrouted, consumed, request, hparse, hanswers⟩ :=
    h.answers ctx (List.mem_append_right _ (List.mem_singleton_self _)) pt hpt
  refine (h.sublist (List.sublist_append_left _ _)).push (fun ctx hmem => (hnew ctx hmem).1)
    fun ctx' hmem q hq => ?_
  obtain ⟨hclient, hcb, hpath⟩ := (hnew ctx' hmem).2 q hq
  rw [hclient]
  exact ⟨hrouted, consumed, request, hparse, Answers.congr hanswers hcb hpath⟩

theorem Talking.goOn {ctx' : Context} (h : Talking rtr r next (ctxs ++ [ctx]))
    (hpt : ctx.response = some pt) (hnone : ctx'.recvConn = none)
    (hpt' : ctx'.response = some pt) : Talking rtr r next (ctxs ++ [ctx']) := by
  refine h.resume hpt fun x hx => ?_
  rw [List.mem_singleton.mp hx]
  refine ⟨hnone, fun q hq => ?_⟩
  rw [hpt', Option.mem_some_iff] at hq
  exact hq ▸ ⟨rfl, rfl, rfl⟩

/-- More bytes for a connection that is still waiting concern nobody else. -/
theorem Talking.note {client : Client} {buffer : Sds} {routed : List ℕ} {bytes : Bytes}
    (h : Talking rtr r next (ctxs ++ [.recv client buffer]))
    (hrouted : routed = r.routed ∨ routed = r.routed ++ [client.conn]) :
    Talking rtr ⟨Function.update r.received client.conn bytes, routed⟩ next ctxs := by
  obtain ⟨hlt, _, hnot⟩ :=
    h.waiting client buffer (List.mem_append_right _ (List.mem_singleton_self _))
  have hmem : ∀ n, n ≠ client.conn → (n ∈ routed ↔ n ∈ r.routed) := by
    intro n hn
    rcases hrouted with rfl | rfl
    · exact Iff.rfl
    · simp [hn]
  obtain ⟨hdistinct, hother⟩ := nodup_filterMap_snoc.mp h.distinct
  refine ⟨hdistinct, fun client' buffer' hmem' => ?_, fun ctx hctx pt hpt => ?_, ?_, ?_, ?_⟩
  · obtain ⟨hlt', hcontent, hnot'⟩ := h.waiting client' buffer' (List.mem_append_left _ hmem')
    have hne : client'.conn ≠ client.conn := by
      intro he
      exact hother client.conn rfl (List.mem_filterMap.mpr ⟨_, hmem', congrArg some he⟩)
    refine ⟨hlt', ?_, fun hin => hnot' ((hmem _ hne).mp hin)⟩
    dsimp only
    rw [hcontent, Function.update_of_ne hne]
  · obtain ⟨hin, hanswers⟩ := h.answers ctx (List.mem_append_left _ hctx) pt hpt
    have hne : pt.client.conn ≠ client.conn := fun he => hnot (he ▸ hin)
    dsimp only
    rw [Function.update_of_ne hne]
    exact ⟨(hmem _ hne).mpr hin, hanswers⟩
  · rcases hrouted with rfl | rfl
    · exact h.once
    · exact List.nodup_append.mpr ⟨h.once, List.nodup_singleton _, by
        intro a ha b hb hab
        rw [List.mem_singleton.mp hb] at hab
        exact hnot (hab ▸ ha)⟩
  · intro n hn
    by_cases hc : n = client.conn
    · rw [hc]
      exact hlt
    · exact h.bound n ((hmem n hc).mp hn)
  · intro n hn
    have hne : n ≠ client.conn := fun he => absurd hlt (not_lt.mpr (he ▸ hn))
    dsimp only
    rw [Function.update_of_ne hne]
    exact h.fresh n hn

theorem Talking.accept (h : Talking rtr r next ctxs) (fd : ℕ) :
    Talking rtr r (next + 1) (ctxs ++ [.recv ⟨fd, next⟩ firstBuffer, .accept]) := by
  have hless : ∀ n ∈ ctxs.filterMap Context.recvConn, n < next := by
    intro n hn
    obtain ⟨ctx, hmem, hctx⟩ := List.mem_filterMap.mp hn
    cases ctx with
    | recv client buffer =>
      cases hctx
      exact (h.waiting client buffer hmem).1
    | _ => cases hctx
  have hnew : ([.recv ⟨fd, next⟩ firstBuffer, .accept] : List Context).filterMap
      Context.recvConn = [next] := rfl
  refine ⟨?_, fun client buffer hmem => ?_, fun ctx hmem pt hpt => ?_, h.once, ?_, ?_⟩
  · rw [List.filterMap_append, hnew]
    exact List.nodup_append.mpr ⟨h.distinct, List.nodup_singleton _, fun a ha b hb hab =>
      absurd (hless a ha) (by rw [hab, List.mem_singleton.mp hb]; exact lt_irrefl _)⟩
  · rcases List.mem_append.mp hmem with hmem | hmem
    · obtain ⟨hlt, hrest⟩ := h.waiting client buffer hmem
      exact ⟨Nat.lt_succ_of_lt hlt, hrest⟩
    · have hrecv : Context.recv client buffer = .recv ⟨fd, next⟩ firstBuffer := by
        simpa using hmem
      cases hrecv
      exact ⟨Nat.lt_succ_self next, (h.fresh next le_rfl).symm,
        fun hin => lt_irrefl _ (h.bound next hin)⟩
  · rcases List.mem_append.mp hmem with hmem | hmem
    · exact h.answers ctx hmem pt hpt
    · rcases List.mem_pair.mp hmem with rfl | rfl <;> cases hpt
  · exact fun n hn => Nat.lt_succ_of_lt (h.bound n hn)
  · exact fun n hn => h.fresh n (Nat.le_of_succ_le hn)

theorem Talking.wait {client : Client} {buffer buffer' : Sds} {bytes : Bytes}
    (h : Talking rtr r next (ctxs ++ [.recv client buffer])) (hcontent : buffer'.content = bytes) :
    Talking rtr ⟨Function.update r.received client.conn bytes, r.routed⟩ next
      (ctxs ++ [.recv client buffer']) := by
  obtain ⟨hlt, _, hnot⟩ :=
    h.waiting client buffer (List.mem_append_right _ (List.mem_singleton_self _))
  have hrest : Talking rtr ⟨Function.update r.received client.conn bytes, r.routed⟩ next ctxs :=
    h.note (Or.inl rfl)
  refine ⟨?_, fun client' buffer'' hmem => ?_, fun ctx hmem pt hpt => ?_, hrest.once, hrest.bound,
    hrest.fresh⟩
  · have hdistinct := h.distinct
    rw [List.filterMap_append] at hdistinct ⊢
    exact hdistinct
  · rcases List.mem_append.mp hmem with hmem | hmem
    · exact hrest.waiting client' buffer'' hmem
    · cases List.mem_singleton.mp hmem
      refine ⟨hlt, ?_, hnot⟩
      dsimp only
      rw [hcontent, Function.update_self]
  · rcases List.mem_append.mp hmem with hmem | hmem
    · exact hrest.answers ctx hmem pt hpt
    · rw [List.mem_singleton.mp hmem] at hpt
      cases hpt

theorem response_proceedAll {pts : List Coroutine} (h : ProceedAll cache pts cache' ctxs) :
    ∀ ctx ∈ ctxs, ctx.recvConn = none ∧ ∀ q ∈ ctx.response,
      ∃ pt ∈ pts, q.client = pt.client ∧ q.callback = pt.callback ∧ q.path = pt.path := by
  induction h with
  | nil => simp
  | cons first _ ih =>
    intro ctx hmem
    rcases List.mem_append.mp hmem with hmem | hmem
    · obtain ⟨hnone, hq⟩ := response_proceeds first ctx hmem
      exact ⟨hnone, fun q hresponse => ⟨_, List.mem_cons_self .., hq q hresponse⟩⟩
    · obtain ⟨hnone, hq⟩ := ih ctx hmem
      refine ⟨hnone, fun q hresponse => ?_⟩
      obtain ⟨pt, hpt, hsame⟩ := hq q hresponse
      exact ⟨pt, List.mem_cons_of_mem _ hpt, hsame⟩

theorem started_answers {request : Request} {client : Client} {hit : Bool} {memory : FileT}
    (hhit : publicHit rtr request = some hit) :
    ∀ pt ∈ fileCoroutines request client hit ++ handlerCoroutines rtr request client memory,
      pt.client = client ∧ pt.Answers rtr request := by
  intro pt hpt
  rcases List.mem_append.mp hpt with hfile | hhandler
  · unfold fileCoroutines at hfile
    rcases List.mem_append.mp hfile with hindex | hpublic
    · split_ifs at hindex with huri
      · rw [List.mem_singleton.mp hindex]
        exact ⟨rfl, Or.inl ⟨huri, rfl⟩⟩
      · cases hindex
    · split_ifs at hpublic with htrue
      · rw [List.mem_singleton.mp hpublic]
        exact ⟨rfl, Or.inr ⟨htrue ▸ hhit, rfl⟩⟩
      · cases hpublic
  · unfold handlerCoroutines at hhandler
    split_ifs at hhandler with hsome
    · rw [List.mem_singleton.mp hhandler]
      exact ⟨rfl, hsome, rfl⟩
    · cases hhandler

theorem parsed_of_routed {buffer : Sds} {bytes : Bytes} {request : Request}
    (h : Http.handleRecvCompletion buffer bytes = .routed request) :
    ∃ consumed, requestParse (buffer.content ++ bytes) = .parsed consumed request := by
  unfold Http.handleRecvCompletion at h
  dsimp only at h
  split_ifs at h
  split at h
  · rename_i consumed request' hparse
    cases h
    exact ⟨consumed, hparse⟩
  · cases h

/-- The step lemma, for each way a completion can go. -/
theorem talking_reply {c : Completion} (hreply : Reply rtr next cache c ctx cache' new)
    (h : Talking rtr r next (ctxs ++ [ctx])) :
    Talking rtr (noteContext ctx c r) (next + ctx.admits c) (ctxs ++ new) := by
  have hrest : Talking rtr r next ctxs := h.sublist (List.sublist_append_left _ _)
  cases hreply with
  | acceptFailed hres =>
    simp only [noteContext, Context.admits, hres, if_true, Nat.add_zero, List.append_nil]
    exact hrest
  | accepted hres =>
    simp only [noteContext, Context.admits, not_lt.mpr hres, if_false]
    exact hrest.accept _
  | @dropped client buffer hout =>
    rw [List.append_nil]
    unfold noteContext
    dsimp only
    split_ifs with hpos
    · rw [noteBytes, hout hpos]
      exact h.note (Or.inl rfl)
    · exact hrest
  | @recvMore client buffer buffer' hpos hout =>
    obtain ⟨_, hcontent, _⟩ :=
      h.waiting client buffer (List.mem_append_right _ (List.mem_singleton_self _))
    simp only [noteContext, hpos, if_true, noteBytes, hout, Context.admits, Nat.add_zero]
    exact h.wait (by rw [(Http.content_waiting hout).1, hcontent])
  | @routed client buffer request hit _ _ hpos hout hhit hall =>
    obtain ⟨_, hcontent, _⟩ :=
      h.waiting client buffer (List.mem_append_right _ (List.mem_singleton_self _))
    obtain ⟨consumed, hparse⟩ := parsed_of_routed hout
    have hstarted := response_proceedAll hall
    simp only [noteContext, hpos, if_true, noteBytes, hout, Context.admits, Nat.add_zero]
    refine (h.note (Or.inr rfl)).push (fun ctx' hmem => (hstarted ctx' hmem).1)
      fun ctx' hmem q hq => ?_
    obtain ⟨pt, hpt, hclient, hcb, hpath⟩ := (hstarted ctx' hmem).2 q hq
    obtain ⟨hclient', hanswers⟩ := started_answers hhit pt hpt
    dsimp only
    rw [hclient, hclient', Function.update_self, ← hcontent]
    exact ⟨List.mem_append_right _ (List.mem_singleton_self _), consumed, request, hparse,
      Answers.congr hanswers hcb hpath⟩
  | openFailed hres hp => exact h.resume rfl fun ctx' hmem => response_proceeds hp ctx' hmem
  | opened hres hp => exact h.resume rfl fun ctx' hmem => response_proceeds hp ctx' hmem
  | statx hp => exact h.resume rfl fun ctx' hmem => response_proceeds hp ctx' hmem
  | sendMore hres hdrop => exact h.goOn rfl rfl rfl
  | sent hcb hover => exact h.goOn rfl rfl rfl
  | spliceMore hmore => exact h.goOn rfl rfl rfl
  | splicedFile hdone hcb => exact h.goOn rfl rfl rfl
  | closed =>
    rw [List.append_nil]
    exact hrest

end

/-! ## Runs -/

section
variable {rtr : Router} {w w' : LoopState × Conversations} {c : Completion}

theorem talking_step (hs : watched (step rtr) noteReceived w c = some w')
    (h : Talking rtr w.2 w.1.nextConn w.1.inFlight) :
    Talking rtr w'.2 w'.1.nextConn w'.1.inFlight := by
  obtain ⟨hstep, hnote⟩ := watched_eq_some.mp hs
  obtain ⟨_, ctx, new, hctx, hperm, _, hreply, hnew, hnext⟩ := step_reply hstep
  have hreceived : w'.2 = noteContext ctx c w.2 := by
    rw [hnote, noteReceived, hctx]
  rw [hnext, hnew, hreceived]
  exact talking_reply hreply (h.perm hperm)

theorem talking_start (rtr : Router) (others : List ℕ) :
    Talking rtr ⟨fun _ => [], []⟩ (serverStart others).nextConn (serverStart others).inFlight := by
  refine ⟨List.nodup_nil, fun client buffer hmem => ?_, fun ctx hmem pt hpt => ?_,
    List.nodup_nil, by simp, fun _ _ => rfl⟩
  · cases List.eq_of_mem_replicate hmem
  · rw [List.eq_of_mem_replicate hmem] at hpt
    cases hpt

theorem talking_along (rtr : Router) (others : List ℕ) (cs : List Completion) :
    Along (watched (step rtr) noteReceived)
      (fun w => Talking rtr w.2 w.1.nextConn w.1.inFlight)
      (serverStart others, ⟨fun _ => [], []⟩) cs :=
  along_of_invariant (fun _ _ _ h hs => talking_step hs h) (talking_start rtr others)

end

/-! ## What is opened -/

def Public (files : List Bytes) (path : Bytes) : Prop :=
  path = publicRoot ++ indexName ∨ path = publicRoot ++ testName ∨
    ∃ file ∈ files, path = publicRoot ++ file

section
variable {rtr : Router} {files : List Bytes}

theorem public_of_answers {n : ℕ} {request : Request} {pt : Coroutine}
    (hl : Listed rtr.publicDirectoryHmap files n) (h : pt.Answers rtr request) :
    Public files pt.path := by
  unfold Coroutine.Answers at h
  cases hcb : pt.callback with
  | routeCallbackTest =>
    rw [hcb] at h
    exact Or.inr (Or.inl h.2)
  | routeCallbackSendFile =>
    rw [hcb] at h
    rcases h with ⟨_, hpath⟩ | ⟨hhit, hpath⟩
    · exact Or.inl hpath
    · rw [publicHit_listed hl, Option.some.injEq, decide_eq_true_eq] at hhit
      exact Or.inr (Or.inr ⟨request.uri, hhit.2.1, hpath⟩)

/-- Whatever is sent to a server over a public directory, it opens the index page, the page of
`route_callback_test` and files of the listing, and nothing else. -/
theorem opens_confined (hne : files ≠ []) (hnodup : files.Nodup)
    (routes : List (Route RouteCallback)) (others : List ℕ) (cs : List Completion) :
    ∃ rtr, routerCreate files = some rtr ∧
      Along (step (routes.foldl routerAddRoute rtr))
        (fun s => ∀ pt, .openat pt ∈ s.inFlight → Public files pt.path)
        (serverStart others) cs := by
  have hcreate := listed_create hashFnv1a (List.length_pos_iff.mpr hne)
  obtain ⟨hm, hlist, hl⟩ := listPublic_listed (n := 0) hcreate hnodup
  refine ⟨⟨hm, Routing.trieCreate⟩, by simp [routerCreate, hlist], ?_⟩
  have htalking := talking_along (routes.foldl routerAddRoute ⟨hm, Routing.trieCreate⟩) others cs
  refine along_watched.mp (along_mono (fun w h => ?_) htalking)
  intro pt hmem
  obtain ⟨_, _, _, _, hanswers⟩ := h.answers _ hmem pt rfl
  exact public_of_answers (by rw [foldl_routerAddRoute_hmap]; exact hl) hanswers

/-- Two public files and a request for the index page. -/
theorem opens_confined_indexPage : ∃ rtr, routerCreate [indexName, testName] = some rtr ∧
    Along (step ([].foldl routerAddRoute rtr))
      (fun s => ∀ pt, .openat pt ∈ s.inFlight → Public [indexName, testName] pt.path)
      (serverStart baseDescriptors) indexPage :=
  opens_confined (List.cons_ne_nil _ _) (by decide) [] baseDescriptors indexPage

end

end Cerverus.EventLoop
