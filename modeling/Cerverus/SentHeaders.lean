import Cerverus.Descriptors
import Cerverus.FailedOperations
import Cerverus.LoopReplies

/-!
# Headers on their way out

A response is serialized once and sent in as many pieces as the kernel likes, while other
coroutines, maybe one for the same connection, send theirs. Kept beside the loop: what the
kernel has taken from each coroutine, and whose `send` has failed.
-/
namespace Cerverus.EventLoop
open Hash Lru Http SpliceAll GuardedRun

structure SendRecord where
  taken : CoroutineId → Bytes
  cut : List CoroutineId

def noteTaken (ctx : Context) (c : Completion) (r : SendRecord) : SendRecord :=
  match ctx with
  | .send buffer pt =>
    if c.res < 0 then { r with cut := r.cut ++ [pt.id] }
    else { r with
      taken := Function.update r.taken pt.id (r.taken pt.id ++ buffer.take c.res.toNat) }
  | _ => r

def noteSent (s : LoopState) (c : Completion) (r : SendRecord) : SendRecord :=
  match s.inFlight[c.index]? with
  | none => r
  | some ctx => noteTaken ctx c r

structure Unsent (r : SendRecord) (id : CoroutineId) : Prop where
  taken : r.taken id = []
  uncut : id ∉ r.cut

/-- The kernel has taken `bytes` short of the response. -/
def ShortOf (r : SendRecord) (pt : Coroutine) (bytes : Bytes) : Prop :=
  ∃ res, fileResponse pt.file.name pt.file.stxSize = some res ∧
    r.taken pt.id ++ bytes = responseSerialize res

/-- Nothing is taken from a coroutine before its response, which is taken in order; the file
follows the whole of it, or a failed `send`. -/
def SentSoFar (r : SendRecord) : Context → Prop
  | .accept | .close _ none => True
  | .recv client _ => ∀ callback, Unsent r (client.conn, callback)
  | .openat pt | .statx pt => Unsent r pt.id
  | .send buffer pt => buffer ≠ [] ∧ pt.id ∉ r.cut ∧ ShortOf r pt buffer
  | .spliceAll _ pt | .close _ (some pt) => pt.id ∈ r.cut ∨ ShortOf r pt []

/-- The coroutines a context stands for: a connection that waits, those it may start. -/
def Context.ids : Context → List CoroutineId
  | .recv client _ =>
    [(client.conn, .routeCallbackSendFile), (client.conn, .routeCallbackTest)]
  | .openat pt | .statx pt | .send _ pt | .spliceAll _ pt | .close _ (some pt) => [pt.id]
  | .accept | .close _ none => []

structure Sending (r : SendRecord) (next : ℕ) (ctxs : List Context) : Prop where
  distinct : (ctxs.flatMap Context.ids).Nodup
  bound : ∀ id ∈ ctxs.flatMap Context.ids, id.1 < next
  fresh : ∀ id : CoroutineId, next ≤ id.1 → Unsent r id
  each : ∀ ctx ∈ ctxs, SentSoFar r ctx

section
variable {rtr : Router} {r r' : SendRecord} {next : ℕ} {ctxs new : List Context} {ctx : Context}
  {label : OpenFileLabel} {pt : Coroutine} {cache cache' : LruCache FileT}

/-- The records say the same of a coroutine. -/
structure SameOf (r r' : SendRecord) (id : CoroutineId) : Prop where
  taken : r'.taken id = r.taken id
  cut : id ∈ r'.cut ↔ id ∈ r.cut

theorem Unsent.congr {id : CoroutineId} (h : Unsent r id) (hs : SameOf r r' id) : Unsent r' id :=
  ⟨hs.taken.trans h.taken, fun hmem => h.uncut (hs.cut.mp hmem)⟩

theorem ShortOf.congr {bytes : Bytes} (h : ShortOf r pt bytes) (hs : SameOf r r' pt.id) :
    ShortOf r' pt bytes := by
  obtain ⟨res, hres, hsplit⟩ := h
  exact ⟨res, hres, by rw [hs.taken, hsplit]⟩

theorem SentSoFar.congr (h : SentSoFar r ctx) (hs : ∀ id ∈ ctx.ids, SameOf r r' id) :
    SentSoFar r' ctx := by
  cases ctx with
  | accept => trivial
  | recv client buffer =>
    intro callback
    refine (h callback).congr (hs _ ?_)
    cases callback <;> simp [Context.ids]
  | openat pt => exact Unsent.congr h (hs _ (List.mem_singleton_self _))
  | statx pt => exact Unsent.congr h (hs _ (List.mem_singleton_self _))
  | send buffer pt =>
    have hsame := hs pt.id (List.mem_singleton_self _)
    obtain ⟨hne, huncut, hshort⟩ := h
    exact ⟨hne, fun hmem => huncut (hsame.cut.mp hmem), hshort.congr hsame⟩
  | spliceAll ctx pt =>
    have hsame := hs pt.id (List.mem_singleton_self _)
    exact h.imp hsame.cut.mpr fun hshort => hshort.congr hsame
  | close fd pt =>
    cases pt with
    | none => trivial
    | some pt =>
      have hsame := hs pt.id (List.mem_singleton_self _)
      exact h.imp hsame.cut.mpr fun hshort => hshort.congr hsame

theorem Sending.perm {ctxs' : List Context} (h : Sending r next ctxs) (hp : ctxs.Perm ctxs') :
    Sending r next ctxs' := by
  have hids := hp.flatMap_right Context.ids
  exact ⟨hids.nodup_iff.mp h.distinct, fun id hid => h.bound id (hids.mem_iff.mpr hid), h.fresh,
    fun ctx hmem => h.each ctx (hp.mem_iff.mpr hmem)⟩

/-- A context makes way for operations of its own coroutines, and nothing is noted of others. -/
theorem Sending.replace (h : Sending r next (ctxs ++ [ctx]))
    (hids : (new.flatMap Context.ids).Sublist ctx.ids) (hsame : ∀ id ∉ ctx.ids, SameOf r r' id)
    (hnew : ∀ x ∈ new, SentSoFar r' x) : Sending r' next (ctxs ++ new) := by
  have hall : (ctxs ++ [ctx]).flatMap Context.ids = ctxs.flatMap Context.ids ++ ctx.ids := by
    simp
  have hdistinct := h.distinct
  rw [hall] at hdistinct
  have hsub : ((ctxs ++ new).flatMap Context.ids).Sublist
      ((ctxs ++ [ctx]).flatMap Context.ids) := by
    rw [hall, List.flatMap_append]
    exact (List.Sublist.refl _).append hids
  refine ⟨h.distinct.sublist hsub, fun id hid => h.bound id (hsub.subset hid), fun id hid => ?_,
    fun x hx => ?_⟩
  · refine (h.fresh id hid).congr (hsame id fun hmem => ?_)
    have hlt := h.bound id (hall ▸ List.mem_append_right _ hmem)
    exact absurd hlt (not_lt.mpr hid)
  · rcases List.mem_append.mp hx with hx | hx
    · refine (h.each x (List.mem_append_left _ hx)).congr fun id hid => hsame id fun hmem => ?_
      have hin : id ∈ ctxs.flatMap Context.ids := List.mem_flatMap.mpr ⟨x, hx, hid⟩
      exact List.disjoint_of_nodup_append hdistinct hin hmem
    · exact hnew x hx

theorem responseSerialize_ne_nil (res : Response) : responseSerialize res ≠ [] := by
  simp [responseSerialize, crlf]

theorem sentSoFar_response {res : Response} (h : Unsent r pt.id)
    (hres : fileResponse pt.file.name pt.file.stxSize = some res) :
    SentSoFar r (.send (responseSerialize res) pt) :=
  ⟨responseSerialize_ne_nil res, h.uncut, res, hres, by rw [h.taken, List.nil_append]⟩

theorem sentSoFar_proceeds (hp : Proceeds cache label pt cache' ctxs) (h : Unsent r pt.id) :
    ctxs.flatMap Context.ids = [pt.id] ∧ ∀ x ∈ ctxs, SentSoFar r x := by
  have hone : ∀ {x : Context}, SentSoFar r x → ∀ y ∈ [x], SentSoFar r y :=
    fun hx y hy => List.mem_singleton.mp hy ▸ hx
  cases hp with
  | @hit _ _ _ _ file _ hget hres =>
    have hsend : SentSoFar r (.send _ { pt with file := file }) := sentSoFar_response h hres
    exact ⟨rfl, hone hsend⟩
  | @start _ _ name hget hname =>
    have hopen : SentSoFar r (.openat { pt with file := { pt.file with name := name } }) := h
    exact ⟨rfl, hone hopen⟩
  | opened hget =>
    have hstatx : SentSoFar r (.statx pt) := h
    exact ⟨rfl, hone hstatx⟩
  | @added _ _ r _ hget hadd hres =>
    have hsend := sentSoFar_response h hres
    cases r.evicted with
    | none => exact ⟨rfl, hone hsend⟩
    | some file =>
      refine ⟨rfl, fun x hx => ?_⟩
      rcases List.mem_cons.mp hx with rfl | hx
      · trivial
      · exact hone hsend x hx

theorem sentSoFar_proceedAll {pts : List Coroutine} (hp : ProceedAll cache pts cache' ctxs)
    (h : ∀ pt ∈ pts, Unsent r pt.id) :
    ctxs.flatMap Context.ids = pts.map Coroutine.id ∧ ∀ x ∈ ctxs, SentSoFar r x := by
  induction hp with
  | nil => exact ⟨rfl, by simp⟩
  | cons first _ ih =>
    obtain ⟨hids, heach⟩ := sentSoFar_proceeds first (h _ (List.mem_cons_self ..))
    obtain ⟨hids', heach'⟩ := ih fun pt hpt => h pt (List.mem_cons_of_mem _ hpt)
    refine ⟨?_, fun x hx => ?_⟩
    · rw [List.flatMap_append, hids, hids']
      rfl
    · rcases List.mem_append.mp hx with hx | hx
      · exact heach x hx
      · exact heach' x hx

theorem ids_started {request : Request} {client : Client} {hit : Bool} (memory : FileT)
    (hhit : publicHit rtr request = some hit) :
    ((fileCoroutines request client hit ++ handlerCoroutines rtr request client memory).map
      Coroutine.id).Sublist
      [(client.conn, .routeCallbackSendFile), (client.conn, .routeCallbackTest)] := by
  have hfile : ((fileCoroutines request client hit).map Coroutine.id).Sublist
      [(client.conn, .routeCallbackSendFile)] := by
    unfold fileCoroutines
    cases hit with
    | true =>
      rw [if_neg (not_index_of_hit hhit)]
      exact List.Sublist.refl _
    | false =>
      by_cases huri : request.uri = [47]
      · simp [huri, fileCoroutine, Coroutine.id]
      · simp [huri]
  have hhandler : ((handlerCoroutines rtr request client memory).map Coroutine.id).Sublist
      [(client.conn, .routeCallbackTest)] := by
    unfold handlerCoroutines
    split_ifs
    · exact List.Sublist.refl _
    · exact List.nil_sublist _
  rw [List.map_append]
  exact hfile.append hhandler

theorem sameOf_refl (id : CoroutineId) : SameOf r r id := ⟨rfl, Iff.rfl⟩

theorem sameOf_noteTaken (c : Completion) {id : CoroutineId} (h : id ∉ ctx.ids) :
    SameOf r (noteTaken ctx c r) id := by
  cases ctx with
  | send buffer pt =>
    have hne : id ≠ pt.id := fun he => h (he ▸ List.mem_singleton_self _)
    unfold noteTaken
    dsimp only
    split_ifs
    · exact ⟨rfl, by simp [hne]⟩
    · exact ⟨Function.update_of_ne hne _ _, Iff.rfl⟩
  | _ => exact sameOf_refl id

theorem noteTaken_took {buffer : Bytes} {c : Completion} (hres : 0 ≤ c.res) :
    (noteTaken (.send buffer pt) c r).taken pt.id = r.taken pt.id ++ buffer.take c.res.toNat ∧
      (noteTaken (.send buffer pt) c r).cut = r.cut := by
  simp only [noteTaken, not_lt.mpr hres, if_false, Function.update_self]
  exact ⟨trivial, trivial⟩

/-- The bytes a `send` takes move from what is left to what is taken. -/
theorem shortOf_took {buffer : Bytes} {c : Completion} (h : ShortOf r pt buffer)
    (hres : 0 ≤ c.res) :
    ShortOf (noteTaken (.send buffer pt) c r) pt (buffer.drop c.res.toNat) := by
  obtain ⟨res, hfile, hsplit⟩ := h
  refine ⟨res, hfile, ?_⟩
  rw [(noteTaken_took hres).1, List.append_assoc, List.take_append_drop, hsplit]

theorem sending_start (others : List ℕ) :
    Sending ⟨fun _ => [], []⟩ (serverStart others).nextConn (serverStart others).inFlight := by
  refine ⟨List.nodup_nil, fun id hid => ?_, fun id _ => ⟨rfl, List.not_mem_nil⟩, fun ctx hmem => ?_⟩
  · cases hid
  · rw [List.eq_of_mem_replicate hmem]
    trivial

theorem Sending.accept (h : Sending r next ctxs) (fd : ℕ) :
    Sending r (next + 1) (ctxs ++ [.recv ⟨fd, next⟩ firstBuffer, .accept]) := by
  have hnew : ([.recv ⟨fd, next⟩ firstBuffer, .accept] : List Context).flatMap Context.ids =
      [(next, .routeCallbackSendFile), (next, .routeCallbackTest)] := rfl
  have hnext : ∀ id ∈ [(next, RouteCallback.routeCallbackSendFile),
      (next, RouteCallback.routeCallbackTest)], id.1 = next := by simp
  refine ⟨?_, fun id hid => ?_, fun id hid => h.fresh id (Nat.le_of_succ_le hid), fun x hx => ?_⟩
  · rw [List.flatMap_append, hnew]
    refine List.nodup_append.mpr ⟨h.distinct, by simp, fun a ha b hb hab => ?_⟩
    have hlt := h.bound a ha
    rw [hab, hnext b hb] at hlt
    exact lt_irrefl _ hlt
  · rw [List.flatMap_append, hnew] at hid
    rcases List.mem_append.mp hid with hid | hid
    · exact Nat.lt_succ_of_lt (h.bound id hid)
    · rw [hnext id hid]
      exact Nat.lt_succ_self next
  · rcases List.mem_append.mp hx with hx | hx
    · exact h.each x hx
    · rcases List.mem_pair.mp hx with rfl | rfl
      · exact fun callback => h.fresh _ le_rfl
      · trivial

/-- The step lemma, for each way a completion can go. -/
theorem sending_reply {c : Completion} (hreply : Reply rtr next cache c ctx cache' new)
    (h : Sending r next (ctxs ++ [ctx])) :
    Sending (noteTaken ctx c r) (next + ctx.admits c) (ctxs ++ new) := by
  have hctx : SentSoFar r ctx := h.each ctx (List.mem_append_right _ (List.mem_singleton_self _))
  have hsame : ∀ id ∉ ctx.ids, SameOf r (noteTaken ctx c r) id :=
    fun id hid => sameOf_noteTaken c hid
  have hdrop : Sending (noteTaken ctx c r) next (ctxs ++ []) :=
    h.replace (List.nil_sublist _) hsame (by simp)
  have hone : ∀ {x : Context}, x.ids = ctx.ids → SentSoFar (noteTaken ctx c r) x →
      Sending (noteTaken ctx c r) next (ctxs ++ [x]) := by
    intro x hids hx
    refine h.replace ?_ hsame fun y hy => List.mem_singleton.mp hy ▸ hx
    rw [List.flatMap_singleton, hids]
  have hopen : ∀ {label : OpenFileLabel} (pt : Coroutine), ctx.ids = [pt.id] →
      noteTaken ctx c r = r → Unsent r pt.id → Proceeds cache label pt cache' new →
        Sending (noteTaken ctx c r) next (ctxs ++ new) := by
    intro label pt hids hnote hunsent hp
    obtain ⟨hnew, heach⟩ := sentSoFar_proceeds hp hunsent
    refine h.replace ?_ hsame ?_
    · rw [hnew, hids]
    · rw [hnote]
      exact heach
  cases hreply with
  | acceptFailed hres =>
    simp only [Context.admits, hres, if_true, Nat.add_zero]
    exact hdrop
  | accepted hres =>
    rw [List.append_nil] at hdrop
    simp only [Context.admits, not_lt.mpr hres, if_false]
    exact hdrop.accept _
  | dropped => exact hdrop
  | recvMore hpos hout => exact hone rfl hctx
  | @routed client buffer request hit _ _ hpos hout hhit hall =>
    have hunsent : ∀ pt ∈ fileCoroutines request client hit ++
        handlerCoroutines rtr request client c.memory, Unsent r pt.id := by
      intro pt hpt
      have hid := (ids_started c.memory hhit).subset (List.mem_map_of_mem hpt)
      rcases List.mem_pair.mp hid with hid | hid
      · exact hid ▸ hctx _
      · exact hid ▸ hctx _
    obtain ⟨hids, heach⟩ := sentSoFar_proceedAll hall hunsent
    exact h.replace (hids ▸ ids_started c.memory hhit) hsame heach
  | openFailed hres hp => exact hopen _ rfl rfl hctx hp
  | @opened pt _ _ hres hp =>
    exact hopen { pt with file := { pt.file with fd := c.res.toNat } } rfl rfl hctx hp
  | @statx pt _ _ hp => exact hopen (statxResult pt c) rfl rfl hctx hp
  | @sendMore buffer pt hres hrest =>
    obtain ⟨_, huncut, hshort⟩ := hctx
    refine hone rfl ⟨hrest, ?_, shortOf_took hshort hres⟩
    rw [(noteTaken_took hres).2]
    exact huncut
  | @sent buffer pt hcb hover =>
    obtain ⟨_, _, hshort⟩ := hctx
    refine hone rfl ?_
    by_cases hres : c.res < 0
    · left
      simp [noteTaken, hres]
    · right
      have hall := hover.resolve_left hres
      exact hall ▸ shortOf_took hshort (not_lt.mp hres)
  | spliceMore hmore => exact hone rfl hctx
  | splicedFile hdone hcb => exact hone rfl hctx
  | closed => exact hdrop

end

/-! ## Runs -/

theorem sending_step {rtr : Router} {w w' : LoopState × SendRecord} {c : Completion}
    (hs : watched (step rtr) noteSent w c = some w')
    (h : Sending w.2 w.1.nextConn w.1.inFlight) : Sending w'.2 w'.1.nextConn w'.1.inFlight := by
  obtain ⟨hstep, hnote⟩ := watched_eq_some.mp hs
  obtain ⟨_, ctx, new, hctx, hperm, _, hreply, hnew, hnext⟩ := step_reply hstep
  have htaken : w'.2 = noteTaken ctx c w.2 := by
    rw [hnote, noteSent, hctx]
  rw [hnext, hnew, htaken]
  exact sending_reply hreply (h.perm hperm)

/-- However the sends of all coroutines interleave, at any time what the kernel has taken of a
coroutine's response and what is in flight make up the response, no coroutine is in flight
twice, and a file is spliced only after the whole header or a failed `send`. -/
theorem headers_sent_whole (rtr : Router) (others : List ℕ) (cs : List Completion) :
    Along (watched (step rtr) noteSent)
      (fun w => (∀ ctx ∈ w.1.inFlight, SentSoFar w.2 ctx) ∧
        (w.1.inFlight.flatMap Context.ids).Nodup)
      (serverStart others, ⟨fun _ => [], []⟩) cs :=
  along_mono (fun _ h => ⟨h.each, h.distinct⟩)
    (along_of_invariant (I := fun w => Sending w.2 w.1.nextConn w.1.inFlight)
      (fun _ _ _ h hs => sending_step hs h) (sending_start others))

end Cerverus.EventLoop
