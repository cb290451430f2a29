import Cerverus.Descriptors

/-!
# Stranded connections

An open client stays in somebody's care as long as every request is answered by a file
coroutine: a `recv` that fails, a request that is refused, and a request for which the router
starts no such coroutine leave the client open with nobody to close it.
-/
namespace Cerverus.EventLoop
open Hash Lru Http SpliceAll GuardedRun

/-- Every open client has exactly one context that receives on it, answers it and then closes
it, or is closing it. -/
def NoStranded (s : LoopState) : Prop :=
  ∀ fd n, s.opened fd = some (.client n) → (s.inFlight.filterMap Context.keeps).count fd = 1

def Served (rtr : Router) (request : Request) : Prop :=
  request.uri = [47] ∨ publicHit rtr request = some true

def KeptOrServed (rtr : Router) : RecvOutcome → Prop
  | .waiting _ => True
  | .rejected => False
  | .routed request => Served rtr request

/-- A `recv` brings bytes, and they do not end in a refusal or in a request not served. -/
def HandsOn (rtr : Router) (s : LoopState) (c : Completion) : Prop :=
  match s.inFlight[c.index]? with
  | some (.recv _ buffer) => 0 < c.res ∧ KeptOrServed rtr (Http.handleRecvCompletion buffer c.bytes)
  | _ => True

instance decidableServed (rtr : Router) (request : Request) : Decidable (Served rtr request) :=
  inferInstanceAs (Decidable (_ ∨ _))

instance decidableKeptOrServed (rtr : Router) : DecidablePred (KeptOrServed rtr)
  | .waiting _ => .isTrue trivial
  | .rejected => .isFalse id
  | .routed request => decidableServed rtr request

instance decidableHandsOn (rtr : Router) (s : LoopState) (c : Completion) :
    Decidable (HandsOn rtr s c) := by
  unfold HandsOn
  split <;> infer_instance

def Covered (opened : ℕ → Option Handle) (ctxs : List Context) : Prop :=
  ∀ fd n, opened fd = some (.client n) → fd ∈ ctxs.filterMap Context.keeps

theorem noStranded_of_covered {s : LoopState} (hok : DescriptorsOk s.opened s.inFlight)
    (h : Covered s.opened s.inFlight) : NoStranded s := fun fd n hfd =>
  List.count_eq_one_of_mem hok.nodup (h fd n hfd)

section
variable {opened : ℕ → Option Handle} {ctx : Context} {ctxs new : List Context}
  {cache cache' : LruCache FileT} {label : OpenFileLabel} {pt : Coroutine} {fd : ℕ}

/-- What was in the care of one context passes to others. -/
theorem covered_replace (h : Covered opened (ctxs ++ [ctx]))
    (hnew : ∀ fd ∈ ctx.keeps, fd ∈ new.filterMap Context.keeps) : Covered opened (ctxs ++ new) := by
  intro fd n hfd
  rw [List.filterMap_append, List.mem_append]
  rcases mem_filterMap_snoc.mp (h fd n hfd) with hmem | hk
  · exact Or.inl hmem
  · exact Or.inr (hnew fd hk)

theorem covered_resume {ctx' : Context} (h : Covered opened (ctxs ++ [ctx]))
    (hkeeps : ctx'.keeps = ctx.keeps) : Covered opened (ctxs ++ [ctx']) :=
  covered_replace h fun _ hfd =>
    List.mem_filterMap.mpr ⟨ctx', List.mem_singleton_self ctx', hkeeps.trans hfd⟩

theorem covered_drop (h : Covered opened (ctxs ++ [ctx])) (hnone : ctx.keeps = none) :
    Covered opened ctxs := by
  have hrep : Covered opened (ctxs ++ []) := covered_replace h fun fd hfd => by
    rw [hnone] at hfd
    cases hfd
  rwa [List.append_nil] at hrep

theorem covered_update {handle : Handle} (h : Covered opened ctxs) (hno : handle.isClient = false) :
    Covered (Function.update opened fd (some handle)) ctxs := by
  intro f n hf
  by_cases hfd : f = fd
  · subst hfd
    rw [Function.update_self] at hf
    cases hf
    cases hno
  · rw [Function.update_of_ne hfd] at hf
    exact h f n hf

theorem covered_pipe {opened' : ℕ → Option Handle} (h : Covered opened ctxs)
    (hp : PipeOpened opened opened') : Covered opened' ctxs := by
  rcases hp with rfl | ⟨a, b, _, _, _, rfl⟩
  · exact h
  · exact covered_update (covered_update h rfl) rfl

theorem mem_keeps_advance (hadv : Advance cache label pt cache' new) (hk : fd ∈ pt.keeps) :
    fd ∈ new.filterMap Context.keeps := by
  cases hadv with
  | hit get raw => exact List.mem_filterMap.mpr ⟨_, List.mem_singleton_self _, hk⟩
  | start get name => exact List.mem_filterMap.mpr ⟨_, List.mem_singleton_self _, hk⟩
  | opened get => exact List.mem_filterMap.mpr ⟨_, List.mem_singleton_self _, hk⟩
  | added get add raw =>
    exact List.mem_filterMap.mpr
      ⟨_, List.mem_append_right _ (List.mem_singleton_self _), hk⟩

theorem keeps_startAll {pts : List Coroutine} (h : StartAll cache pts cache' new) :
    new.filterMap Context.keeps = pts.filterMap Coroutine.keeps := by
  induction h with
  | nil => rfl
  | cons first rest ih =>
    obtain ⟨ctx, rfl, hkeeps, _⟩ := advance_start first
    rw [List.filterMap_append, ih, List.filterMap_cons, List.filterMap_cons, hkeeps]
    cases Coroutine.keeps _ <;> rfl

end

section
variable {rtr : Router} {s t : LoopState} {c : Completion} {ctx : Context}

theorem covered_effect (heff : Effect rtr s c ctx t)
    (h : Covered s.opened (s.inFlight ++ [ctx]))
    (hon : ∀ client buffer, ctx = .recv client buffer →
      0 < c.res ∧ KeptOrServed rtr (Http.handleRecvCompletion buffer c.bytes)) :
    Covered t.opened t.inFlight := by
  cases heff with
  | acceptFailed => exact covered_drop h rfl
  | accepted fd hfd =>
    intro f n hf
    change Function.update s.opened fd _ f = _ at hf
    by_cases hfd : f = fd
    · subst hfd
      have hrecv : .recv ⟨f, s.nextConn⟩ (Http.handleRecvSubmission sdsempty) ∈
          s.inFlight ++ [.recv ⟨f, s.nextConn⟩ (Http.handleRecvSubmission sdsempty), .accept] := by
        simp
      exact List.mem_filterMap.mpr ⟨_, hrecv, rfl⟩
    · rw [Function.update_of_ne hfd] at hf
      obtain ⟨x, hx, hk⟩ := List.mem_filterMap.mp (covered_drop h rfl f n hf)
      exact List.mem_filterMap.mpr ⟨x, List.mem_append_left _ hx, hk⟩
  | recvDropped hrej =>
    obtain ⟨hpos, hkept⟩ := hon _ _ rfl
    rw [hrej hpos] at hkept
    exact hkept.elim
  | recvMore hout => exact covered_resume h rfl
  | @routed client buffer request hit cache' ctxs hres hout hhit hstart =>
    obtain ⟨_, hserved⟩ := hon _ _ rfl
    rw [hout] at hserved
    have hserved' : request.uri = [47] ∨ hit = true := by
      rcases hserved with huri | hpub
      · exact Or.inl huri
      · rw [hhit] at hpub
        exact Or.inr (Option.some.inj hpub)
    refine covered_replace h fun fd hfd => ?_
    rw [keeps_startAll hstart, @keeps_started _ _ client _ hhit c.memory, if_pos hserved']
    cases hfd
    exact List.mem_singleton_self _
  | openFailed hres hadv => exact covered_replace h fun fd hfd => mem_keeps_advance hadv hfd
  | opened hfd hadv =>
    exact covered_update (covered_replace h fun fd hfd => mem_keeps_advance hadv hfd) rfl
  | statx hadv => exact covered_replace h fun fd hfd => mem_keeps_advance hadv hfd
  | sendMore => exact covered_resume h rfl
  | sent hcb hpipe => exact covered_resume (covered_pipe h hpipe) rfl
  | spliceMore hfd => exact covered_resume h rfl
  | splicedFile hcb => exact covered_resume h (by simp [Context.keeps, Coroutine.keeps, hcb])
  | @closed fd pt =>
    intro f n hf
    change Function.update s.opened fd none f = _ at hf
    by_cases hfd : f = fd
    · subst hfd
      rw [Function.update_self] at hf
      cases hf
    · rw [Function.update_of_ne hfd] at hf
      rcases mem_filterMap_snoc.mp (h f n hf) with hmem | hk
      · exact hmem
      · exact absurd (Option.some.inj hk).symm hfd

theorem covered_perm {opened : ℕ → Option Handle} {ctxs ctxs' : List Context}
    (h : Covered opened ctxs) (hp : ctxs.Perm ctxs') : Covered opened ctxs' := fun fd n hfd =>
  (hp.filterMap Context.keeps).mem_iff.mp (h fd n hfd)

theorem covered_step (hs : step rtr s c = some t) (h : Covered s.opened s.inFlight)
    (hon : HandsOn rtr s c) : Covered t.opened t.inFlight := by
  obtain ⟨rest, ctx, hperm, hget, heff⟩ := step_effect hs
  refine covered_effect heff (covered_perm h hperm) fun client buffer hctx => ?_
  simpa [HandsOn, hget, hctx] using hon

theorem covered_start (others : List ℕ) :
    Covered (serverStart others).opened (serverStart others).inFlight := by
  intro fd n hfd
  simp only [serverStart] at hfd
  split_ifs at hfd
  cases hfd

/-- For every router, in every run whose requests are all served and whose evictions close idle
files, every open client has exactly one hand that closes it. -/
theorem noStranded_of_handsOn (rtr : Router) (others : List ℕ) {cs : List Completion}
    (hg : Guarded (step rtr) (fun s c => HandsOn rtr s c ∧ EvictsIdle s c) (serverStart others)
      cs) : Along (step rtr) NoStranded (serverStart others) cs := by
  have hinv : Along (step rtr)
      (fun s => DescriptorsOk s.opened s.inFlight ∧ Covered s.opened s.inFlight)
      (serverStart others) cs := by
    refine along_of_guarded ?_ ⟨descriptorsOk_start others, covered_start others⟩ hg
    intro s c t hex hex' hs
    obtain ⟨hok, hcov⟩ := hex
    obtain ⟨hon, hidle⟩ := hex'
    exact ⟨descriptorsOk_step hs hok hidle, covered_step hs hcov hon⟩
  exact along_mono (fun s h => noStranded_of_covered h.1 h.2) hinv

end

/-! ## Runs of a small server -/

def bareRouter : Router :=
  { publicDirectoryHmap := hashmapCreate 0 loadPoint67 hashFnv1a
    routingTable := Routing.trieCreate }

/-- The descriptors open before the first connection. -/
def baseDescriptors : List ℕ := [0, 1, 2, 3, 4]

def answer (index : ℕ) (res : ℤ) : Completion := ⟨index, res, [], 0, none, ⟨0, [], 0⟩⟩

def recvAnswer (index : ℕ) (bytes : Bytes) : Completion :=
  { answer index bytes.length with bytes := bytes }

/-- `GET / HTTP/1.1` with no headers. -/
def getIndex : Bytes := [71, 69, 84, 32, 47, 32] ++ httpVersion1p1Literal ++ crlfcrlf

/-- A connection that asks for the index page, from its `accept` to its `close`. -/
def indexPage : List Completion :=
  [answer 0 5, recvAnswer 7 getIndex, answer 8 6, { answer 8 0 with stxSize := 3 },
    { answer 8 63 with pipe := some (7, 8) }, answer 8 3, answer 8 3, answer 8 0]

theorem noStranded_indexPage :
    (run (step bareRouter) (serverStart baseDescriptors) indexPage).isSome ∧
      Along (step bareRouter) NoStranded (serverStart baseDescriptors) indexPage :=
  ⟨by decide +kernel, noStranded_of_handsOn bareRouter baseDescriptors (by decide +kernel)⟩

/-- The peer closes before it sends anything: nobody is left to close the descriptor. -/
theorem stranded_after_eof :
    (run (step bareRouter) (serverStart baseDescriptors) [answer 0 5, answer 7 0]).map
        (fun s => (s.opened 5, (s.inFlight.filterMap Context.keeps).count 5)) =
      some (some (.client 0), 0) ∧
      ¬ Along (step bareRouter) NoStranded (serverStart baseDescriptors)
        [answer 0 5, answer 7 0] := by
  have hrun : (run (step bareRouter) (serverStart baseDescriptors) [answer 0 5, answer 7 0]).map
      (fun s => (s.opened 5, (s.inFlight.filterMap Context.keeps).count 5)) =
        some (some (.client 0), 0) := by decide +kernel
  refine ⟨hrun, fun halong => ?_⟩
  obtain ⟨s, hs, hs'⟩ := Option.map_eq_some_iff.mp hrun
  have hopen : s.opened 5 = some (.client 0) := congrArg Prod.fst hs'
  have hcount : (s.inFlight.filterMap Context.keeps).count 5 = 0 := congrArg Prod.snd hs'
  rw [along_run halong hs 5 0 hopen] at hcount
  cases hcount

end Cerverus.EventLoop
