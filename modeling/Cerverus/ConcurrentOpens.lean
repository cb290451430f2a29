import Cerverus.CacheOrder
import Cerverus.FileTransfers

/-!
# Concurrent opens

`async_io_open_file` looks into the cache again each time it is resumed. When another coroutine
has added the path in the meantime, it goes on with that file and forgets its own descriptor.
A file is lost, too, when its node is cut off from the list, which takes a look-up that finds
the last of several files.
-/
namespace Cerverus.EventLoop
open Hash Lru Http SpliceAll GuardedRun

/-- Besides the completions, an open started by anyone, for any path. -/
inductive OpenEvent
  | start (pt : Coroutine)
  | complete (c : Completion)
  deriving DecidableEq, Repr

def openStep (rtr : Router) (s : LoopState) : OpenEvent → Option LoopState
  | .start pt => asyncIoOpenFile s .start pt
  | .complete c => step rtr s c

/-- A node of the cache has the descriptor, or one of the coroutines `who` between its `openat`
and its `statx`, or it is being closed. -/
inductive Accounted (cache : LruCache FileT) (ctxs : List Context) (who : Coroutine → Prop)
    (fd : ℕ) : Prop
  | cached (x : ℕ) (e : DllEntry FileT) : OfCache cache x → entryAt cache x = some e →
      e.data.fd = fd → Accounted cache ctxs who fd
  | opening (pt : Coroutine) : who pt → .statx pt ∈ ctxs → pt.file.fd = fd →
      Accounted cache ctxs who fd
  | closing (pt : Option Coroutine) : .close fd pt ∈ ctxs → Accounted cache ctxs who fd

/-- Every descriptor that an `openat` has returned and nobody closes is held by a node of the
cache or by a coroutine in its open steps for that path. -/
def NoFileLost (s : LoopState) : Prop :=
  ∀ fd path, s.opened fd = some (.file path) →
    Accounted s.fileCache s.inFlight (fun pt => pt.path = path) fd

/-- The coroutine of a context in its open steps. -/
def Context.inOpenFile : Context → Option Coroutine
  | .openat pt => some pt
  | .statx pt => some pt
  | _ => none

/-- An `openat` or a `statx` completes while the path is still not in the cache. -/
def StillUncached (s : LoopState) : OpenEvent → Prop
  | .start _ => True
  | .complete c => ∀ pt ∈ s.inFlight[c.index]?.bind Context.inOpenFile, ¬ Cached s.fileCache pt.path

instance decidableStillUncached (s : LoopState) (e : OpenEvent) :
    Decidable (StillUncached s e) := by
  cases e <;> unfold StillUncached <;> infer_instance

def startedCoroutines (rtr : Router) (request : Request) (client : Client) (memory : FileT) :
    List Coroutine :=
  fileCoroutines request client ((publicHit rtr request).getD false) ++
    handlerCoroutines rtr request client memory

/-- The paths a completion looks up in the cache, in order. -/
def Context.lookups (rtr : Router) (ctx : Context) (c : Completion) : List Bytes :=
  match ctx with
  | .openat pt | .statx pt => [pt.path]
  | .recv client buffer =>
    if c.res ≤ 0 then []
    else
      match Http.handleRecvCompletion buffer c.bytes with
      | .routed request => (startedCoroutines rtr request client c.memory).map Coroutine.path
      | _ => []
  | _ => []

def LooksUpSparing (rtr : Router) (s : LoopState) (c : Completion) : Prop :=
  ∀ ctx ∈ s.inFlight[c.index]?, SparesTails s.fileCache (ctx.lookups rtr c)

instance decidableLooksUpSparing (rtr : Router) (s : LoopState) (c : Completion) :
    Decidable (LooksUpSparing rtr s c) :=
  inferInstanceAs (Decidable (∀ ctx ∈ s.inFlight[c.index]?, SparesTails _ _))

def OpensSparing (rtr : Router) (s : LoopState) : OpenEvent → Prop
  | .start pt => SparesLookup s.fileCache pt.path
  | .complete c => LooksUpSparing rtr s c

instance decidableOpensSparing (rtr : Router) (s : LoopState) :
    (e : OpenEvent) → Decidable (OpensSparing rtr s e)
  | .start pt => inferInstanceAs (Decidable (SparesLookup s.fileCache pt.path))
  | .complete c => inferInstanceAs (Decidable (LooksUpSparing rtr s c))

def KeepsFiles (rtr : Router) (s : LoopState) (e : OpenEvent) : Prop :=
  StillUncached s e ∧ OpensSparing rtr s e

instance decidableKeepsFiles (rtr : Router) (s : LoopState) (e : OpenEvent) :
    Decidable (KeepsFiles rtr s e) :=
  inferInstanceAs (Decidable (_ ∧ _))

section
variable {opened : ℕ → Option Handle} {held held' : List (ℕ × DllEntry FileT)}
  {ctxs ctxs' new : List Context} {ctx : Context} {cache cache' : LruCache FileT}
  {label : OpenFileLabel} {pt : Coroutine} {who : Coroutine → Prop} {fd : ℕ}

theorem Accounted.mono (h : Accounted cache ctxs who fd) (hctxs : ctxs ⊆ ctxs') :
    Accounted cache ctxs' who fd := by
  cases h with
  | cached x e hof he hfd => exact .cached x e hof he hfd
  | opening pt hwho hmem hfd => exact .opening pt hwho (hctxs hmem) hfd
  | closing pt hmem => exact .closing pt (hctxs hmem)

theorem Accounted.submit (h : Accounted cache ctxs who fd) :
    Accounted cache (ctxs ++ new) who fd :=
  h.mono (List.subset_append_left _ _)

theorem Accounted.remove (h : Accounted cache (ctxs ++ [ctx]) who fd) :
    Accounted cache ctxs who fd ∨ (∃ pt, ctx = .statx pt ∧ who pt ∧ fd = pt.file.fd) ∨
      ∃ pt, ctx = .close fd pt := by
  cases h with
  | cached x e hof he hfd => exact Or.inl (.cached x e hof he hfd)
  | opening pt hwho hmem hfd =>
    rcases List.mem_append.mp hmem with hmem | hmem
    · exact Or.inl (.opening pt hwho hmem hfd)
    · exact Or.inr (Or.inl ⟨pt, (List.mem_singleton.mp hmem).symm, hwho, hfd.symm⟩)
  | closing pt hmem =>
    rcases List.mem_append.mp hmem with hmem | hmem
    · exact Or.inl (.closing pt hmem)
    · exact Or.inr (Or.inr ⟨pt, (List.mem_singleton.mp hmem).symm⟩)

theorem accounted_of_mem (h : InOrder cache held) {p : ℕ × DllEntry FileT} (hp : p ∈ held)
    (hfd : p.2.data.fd = fd) : Accounted cache ctxs who fd := by
  obtain ⟨hof, he⟩ := (ofCache_iff h).mpr hp
  exact .cached p.1 p.2 hof he hfd

theorem Accounted.reordered (h : Accounted cache ctxs who fd) (ho : InOrder cache held)
    (ho' : InOrder cache' held') (hperm : held'.Perm held) : Accounted cache' ctxs who fd := by
  cases h with
  | cached x e hof he hfd =>
    exact accounted_of_mem ho' (hperm.mem_iff.mpr ((ofCache_iff ho).mp ⟨hof, he⟩)) hfd
  | opening pt hwho hmem hfd => exact .opening pt hwho hmem hfd
  | closing pt hmem => exact .closing pt hmem

theorem accounted_added {r : AddResult FileT} (ho : InOrder cache held)
    (hadd : lruCacheAdd cache pt.path pt.file = some r)
    (h : Accounted cache ctxs who fd ∨ fd = pt.file.fd) :
    (∃ held', InOrder r.cache held') ∧
      Accounted r.cache (ctxs ++ closeEvicted r.evicted) who fd := by
  obtain ⟨r', hadd', ho', hev⟩ := inOrder_add ho pt.path pt.file
  cases hadd.symm.trans hadd'
  refine ⟨⟨_, ho'⟩, ?_⟩
  have hentry : ∀ p ∈ (r.newNode, ⟨pt.path, pt.file⟩) :: held, p.2.data.fd = fd →
      Accounted r.cache (ctxs ++ closeEvicted r.evicted) who fd := by
    intro p hp hfd
    rcases kept_or_leastRecent hp with hkept | hgone
    · exact accounted_of_mem ho' hkept hfd
    · refine .closing none (List.mem_append_right _ ?_)
      rw [hev, hgone, ← hfd]
      exact List.mem_singleton_self _
  rcases h with h | hnew
  · cases h with
    | cached x e hof he hfd =>
      exact hentry (x, e) (List.mem_cons_of_mem _ ((ofCache_iff ho).mp ⟨hof, he⟩)) hfd
    | opening q hwho hmem hfd => exact .opening q hwho (List.mem_append_left _ hmem) hfd
    | closing q hmem => exact .closing q (List.mem_append_left _ hmem)
  · exact hentry _ List.mem_cons_self hnew.symm

/-- A coroutine that is resumed before its path is cached hands its descriptor on. -/
theorem accounted_advance (hadv : Advance cache label pt cache' new) (ho : InOrder cache held)
    (hspares : SparesLookup cache pt.path)
    (hmiss : label ≠ .start → who pt → ¬ Cached cache pt.path)
    (h : Accounted cache ctxs who fd ∨ (label ≠ .start ∧ who pt ∧ fd = pt.file.fd)) :
    Accounted cache' (ctxs ++ new) who fd := by
  obtain ⟨r, held₁, hget, ho₁, hperm, _⟩ := inOrder_get ho hspares
  cases hadv with
  | hit get raw =>
    cases hget.symm.trans get
    rcases h with h | ⟨hne, hwho, _⟩
    · exact (h.reordered ho ho₁ hperm).submit
    · exact absurd ((cached_iff_get get).mpr rfl) (hmiss hne hwho)
  | start get name =>
    cases hget.symm.trans get
    rcases h with h | ⟨hne, _⟩
    · exact (h.reordered ho ho₁ hperm).submit
    · exact absurd rfl hne
  | opened get =>
    cases hget.symm.trans get
    rcases h with h | ⟨_, hwho, hfd⟩
    · exact (h.reordered ho ho₁ hperm).submit
    · exact .opening pt hwho (List.mem_append_right _ (List.mem_singleton_self _)) hfd.symm
  | added get add raw =>
    cases hget.symm.trans get
    rw [← List.append_assoc]
    exact (accounted_added ho₁ add
      (h.imp (·.reordered ho ho₁ hperm) fun hex => hex.2.2)).2.submit

theorem inOrder_advance (hadv : Advance cache label pt cache' new) (ho : InOrder cache held)
    (hspares : SparesLookup cache pt.path) : ∃ held', InOrder cache' held' := by
  obtain ⟨r, held₁, hget, ho₁, _, _⟩ := inOrder_get ho hspares
  cases hadv with
  | hit get raw =>
    cases hget.symm.trans get
    exact ⟨held₁, ho₁⟩
  | start get name =>
    cases hget.symm.trans get
    exact ⟨held₁, ho₁⟩
  | opened get =>
    cases hget.symm.trans get
    exact ⟨held₁, ho₁⟩
  | added get add raw =>
    cases hget.symm.trans get
    obtain ⟨r', hadd', ho', _⟩ := inOrder_add ho₁ pt.path pt.file
    cases add.symm.trans hadd'
    exact ⟨_, ho'⟩

theorem get_of_advance_start (hadv : Advance cache .start pt cache' new) :
    ∃ o, lruCacheGet cache pt.path = some (o, cache') := by
  cases hadv with
  | hit get raw => exact ⟨_, get⟩
  | start get name => exact ⟨_, get⟩

theorem inOrder_startAll {pts : List Coroutine} (hs : StartAll cache pts cache' new)
    (ho : InOrder cache held) (hspares : SparesTails cache (pts.map Coroutine.path)) :
    ∃ held', InOrder cache' held' := by
  induction hs generalizing held with
  | nil => exact ⟨held, ho⟩
  | cons first rest ih =>
    obtain ⟨o, hget⟩ := get_of_advance_start first
    obtain ⟨held₁, ho₁⟩ := inOrder_advance first ho hspares.1
    exact ih ho₁ (hspares.2 _ hget)

theorem accounted_startAll {pts : List Coroutine} (hs : StartAll cache pts cache' new)
    (ho : InOrder cache held) (hspares : SparesTails cache (pts.map Coroutine.path))
    (h : Accounted cache ctxs who fd) : Accounted cache' (ctxs ++ new) who fd := by
  induction hs generalizing ctxs held with
  | nil => exact h.submit
  | cons first rest ih =>
    obtain ⟨o, hget⟩ := get_of_advance_start first
    obtain ⟨held₁, ho₁⟩ := inOrder_advance first ho hspares.1
    rw [← List.append_assoc]
    exact ih ho₁ (hspares.2 _ hget)
      (accounted_advance first ho hspares.1 (absurd rfl) (Or.inl h))

theorem wired_advance (hadv : Advance cache label pt cache' new) (hw : Wired cache) :
    Wired cache' := by
  cases hadv with
  | hit get raw => exact (wired_get hw get).1
  | start get name => exact (wired_get hw get).1
  | opened get => exact (wired_get hw get).1
  | added get add raw => exact (wired_add (wired_get hw get).1 add).1

theorem wired_startAll {pts : List Coroutine} (hs : StartAll cache pts cache' new)
    (hw : Wired cache) : Wired cache' := by
  induction hs with
  | nil => exact hw
  | cons first rest ih => exact ih (wired_advance first hw)

theorem opened_of_update {f : ℕ} {new : Option Handle} {handle : Handle}
    (h : Function.update opened f new fd = some handle) (hne : new ≠ some handle) :
    fd ≠ f ∧ opened fd = some handle := by
  by_cases hfd : fd = f
  · rw [hfd, Function.update_self] at h
    exact absurd h hne
  · rw [Function.update_of_ne hfd] at h
    exact ⟨hfd, h⟩

theorem opened_of_pipeOpened {opened' : ℕ → Option Handle} {handle : Handle}
    (hp : PipeOpened opened opened') (h : opened' fd = some handle) (hne : handle ≠ .pipe) :
    opened fd = some handle := by
  have hpipe : some Handle.pipe ≠ some handle := fun heq => hne (Option.some.inj heq).symm
  rcases hp with rfl | ⟨a, b, _, _, _, rfl⟩
  · exact h
  · exact (opened_of_update (opened_of_update h hpipe).2 hpipe).2

end

section
variable {rtr : Router} {s t : LoopState} {c : Completion} {ctx : Context}

theorem wired_effect (heff : Effect rtr s c ctx t) (hw : Wired s.fileCache) :
    Wired t.fileCache := by
  cases heff with
  | routed hres hout hhit hstart => exact wired_startAll hstart hw
  | openFailed hres hadv => exact wired_advance hadv hw
  | opened hf hadv => exact wired_advance hadv hw
  | statx hadv => exact wired_advance hadv hw
  | _ => exact hw

theorem wired_openStep {e : OpenEvent} (hs : openStep rtr s e = some t) (hw : Wired s.fileCache) :
    Wired t.fileCache := by
  cases e with
  | start pt =>
    have hopen : asyncIoOpenFile s .start pt = some t := hs
    obtain ⟨cache', ctxs, hadv, rfl⟩ := asyncIoOpenFile_advance hopen
    exact wired_advance hadv hw
  | complete c =>
    obtain ⟨rest, ctx, hperm, hget, heff⟩ := step_effect hs
    exact wired_effect heff hw

theorem lookups_routed {client : Client} {buffer : Sds} {request : Request} {hit : Bool}
    (hres : 0 < c.res) (hout : Http.handleRecvCompletion buffer c.bytes = .routed request)
    (hhit : publicHit rtr request = some hit) :
    Context.lookups rtr (.recv client buffer) c =
      (fileCoroutines request client hit ++ handlerCoroutines rtr request client c.memory).map
        Coroutine.path := by
  simp only [Context.lookups, if_neg (not_le.mpr hres), hout, startedCoroutines, hhit,
    Option.getD_some]

theorem inOrder_effect {held : List (ℕ × DllEntry FileT)} (heff : Effect rtr s c ctx t)
    (ho : InOrder s.fileCache held) (hspares : SparesTails s.fileCache (ctx.lookups rtr c)) :
    ∃ held', InOrder t.fileCache held' := by
  cases heff with
  | routed hres hout hhit hstart =>
    exact inOrder_startAll hstart ho (lookups_routed hres hout hhit ▸ hspares)
  | openFailed hres hadv => exact inOrder_advance hadv ho hspares.1
  | opened hf hadv => exact inOrder_advance hadv ho hspares.1
  | statx hadv => exact inOrder_advance hadv ho hspares.1
  | _ => exact ⟨held, ho⟩

/-- A descriptor stays accounted for unless its close completes. Who has it is told by
everything but the file. -/
theorem accounted_effect {held : List (ℕ × DllEntry FileT)} {who : Coroutine → Prop} {fd : ℕ}
    (heff : Effect rtr s c ctx t) (ho : InOrder s.fileCache held)
    (hspares : SparesTails s.fileCache (ctx.lookups rtr c))
    (hfile : ∀ pt file, who { pt with file := file } ↔ who pt)
    (hmiss : ∀ pt ∈ ctx.inOpenFile, who pt → ¬ Cached s.fileCache pt.path)
    (hclose : ∀ pt, ctx ≠ .close fd pt)
    (h : Accounted s.fileCache (s.inFlight ++ [ctx]) who fd) :
    Accounted t.fileCache t.inFlight who fd := by
  rcases h.remove with hrest | ⟨q, rfl, hwho, hfd⟩ | ⟨q, hctx⟩
  · cases heff with
    | acceptFailed => exact hrest
    | recvDropped => exact hrest
    | routed hres hout hhit hstart =>
      exact accounted_startAll hstart ho (lookups_routed hres hout hhit ▸ hspares) hrest
    | @openFailed pt cache' ctxs hres hadv =>
      exact accounted_advance hadv ho hspares.1 (fun _ => hmiss pt rfl) (Or.inl hrest)
    | @opened pt f cache' ctxs hf hadv =>
      exact accounted_advance hadv ho hspares.1
        (fun _ hq => hmiss pt rfl ((hfile _ _).mp hq)) (Or.inl hrest)
    | @statx pt cache' ctxs hadv =>
      exact accounted_advance hadv ho hspares.1
        (fun _ hq => hmiss pt rfl ((hfile _ _).mp hq)) (Or.inl hrest)
    | closed => exact hrest
    | _ => exact hrest.submit
  · cases heff with
    | statx hadv =>
      refine accounted_advance hadv ho hspares.1
        (fun _ hq => hmiss q rfl ((hfile _ _).mp hq))
        (Or.inr ⟨fun hl => ?_, (hfile _ _).mpr hwho, hfd⟩)
      cases hl
  · exact absurd hctx (hclose q)

theorem noFileLost_effect {held : List (ℕ × DllEntry FileT)} (heff : Effect rtr s c ctx t)
    (ho : InOrder s.fileCache held) (hspares : SparesTails s.fileCache (ctx.lookups rtr c))
    (h : ∀ fd path, s.opened fd = some (.file path) →
      Accounted s.fileCache (s.inFlight ++ [ctx]) (fun pt => pt.path = path) fd)
    (hmiss : ∀ pt ∈ ctx.inOpenFile, ¬ Cached s.fileCache pt.path) : NoFileLost t := by
  intro fd path hfd
  have hold (hf : s.opened fd = some (.file path)) (hclose : ∀ pt, ctx ≠ .close fd pt) :
      Accounted t.fileCache t.inFlight (fun pt => pt.path = path) fd :=
    accounted_effect heff ho hspares (fun _ _ => Iff.rfl) (fun pt hpt _ => hmiss pt hpt) hclose
      (h fd path hf)
  cases heff with
  | accepted f hf =>
    exact hold (opened_of_update hfd fun heq => by cases heq).2 fun _ hc => by cases hc
  | @opened pt f cache' ctxs hf hadv =>
    by_cases hfd' : fd = f
    · have hpath : pt.path = path := by
        rw [hfd'] at hfd
        simpa [submitAll] using hfd
      refine accounted_advance hadv ho hspares.1 (fun _ _ => hmiss pt rfl)
        (Or.inr ⟨fun hl => ?_, hpath, hfd'⟩)
      cases hl
    · change Function.update s.opened f _ fd = _ at hfd
      rw [Function.update_of_ne hfd'] at hfd
      exact hold hfd fun _ hc => by cases hc
  | sent hcb hpipe =>
    exact hold (opened_of_pipeOpened hpipe hfd fun heq => by cases heq) fun _ hc => by cases hc
  | @closed f pt =>
    obtain ⟨hne, hf⟩ := opened_of_update hfd fun heq => by cases heq
    refine hold hf fun q hq => ?_
    cases hq
    exact hne rfl
  | _ => exact hold hfd fun _ hc => by cases hc

structure FilesKept (s : LoopState) : Prop where
  cache : ∃ held, InOrder s.fileCache held
  kept : NoFileLost s

theorem filesKept_step {e : OpenEvent} (hs : openStep rtr s e = some t) (h : FilesKept s)
    (hok : KeepsFiles rtr s e) : FilesKept t := by
  obtain ⟨⟨held, ho⟩, hkept⟩ := h
  obtain ⟨hmiss, hspares⟩ := hok
  cases e with
  | start pt =>
    have hopen : asyncIoOpenFile s .start pt = some t := hs
    obtain ⟨cache', ctxs, hadv, rfl⟩ := asyncIoOpenFile_advance hopen
    refine ⟨inOrder_advance hadv ho hspares, fun fd path hfd => ?_⟩
    exact accounted_advance hadv ho hspares (absurd rfl) (Or.inl (hkept fd path hfd))
  | complete c =>
    obtain ⟨rest, ctx, hperm, hget, heff⟩ := step_effect hs
    have hlook : SparesTails s.fileCache (ctx.lookups rtr c) := hspares ctx hget
    refine ⟨inOrder_effect heff ho hlook, noFileLost_effect heff ho hlook ?_ fun pt hpt => ?_⟩
    · exact fun fd path hfd => (hkept fd path hfd).mono hperm.subset
    · exact hmiss pt (by rw [hget]; exact hpt)

end

theorem wired_start (others : List ℕ) : Wired (serverStart others).fileCache :=
  wired_create hashFnv1a (by decide)

theorem inOrder_start (others : List ℕ) : InOrder (serverStart others).fileCache [] :=
  inOrder_create hashFnv1a (by decide)

/-- For every router, whatever opens are started besides, no descriptor of a file is lost in a
run in which no open finds its path cached when it is resumed, and none finds the last of
several cached files. -/
theorem noFileLost_of_keepsFiles (rtr : Router) (others : List ℕ) {es : List OpenEvent}
    (hg : Guarded (openStep rtr) (KeepsFiles rtr) (serverStart others) es) :
    Along (openStep rtr) NoFileLost (serverStart others) es := by
  have hstart : FilesKept (serverStart others) := by
    refine ⟨⟨[], inOrder_start others⟩, fun fd path hfd => ?_⟩
    change (if fd ∈ others then some Handle.other else none) = _ at hfd
    split_ifs at hfd
    cases hfd
  exact along_mono (fun s h => h.kept)
    (along_of_guarded (fun s e t h hok hs => filesKept_step hs h hok) hstart hg)

/-! ## Runs -/

def indexCoroutine : Coroutine := fileCoroutine ⟨5, 0⟩ (publicRoot ++ indexName)

/-- One open after the other. -/
def opensInTurn : List OpenEvent :=
  [.start indexCoroutine, .complete (answer 8 6), .complete { answer 8 0 with stxSize := 3 },
    .start indexCoroutine]

/-- Two clients ask for the index page before the first one's open is through. -/
def opensOverlap : List OpenEvent :=
  [.complete (answer 0 5), .complete (recvAnswer 7 getIndex), .complete (answer 0 6),
    .complete (recvAnswer 8 getIndex), .complete (answer 7 7),
    .complete { answer 9 0 with stxSize := 3 }, .complete (answer 8 8)]

theorem noFileLost_inTurn :
    (run (openStep bareRouter) (serverStart baseDescriptors) opensInTurn).isSome ∧
      Along (openStep bareRouter) NoFileLost (serverStart baseDescriptors) opensInTurn :=
  ⟨by decide +kernel, noFileLost_of_keepsFiles bareRouter baseDescriptors (by decide +kernel)⟩

def cachedFds (cache : LruCache FileT) : List ℕ :=
  (List.range cache.dll.fresh).filterMap fun x => (entryAt cache x).map fun e => e.data.fd

theorem mem_cachedFds {cache : LruCache FileT} (hw : Wired cache) {x : ℕ} {e : DllEntry FileT}
    (he : entryAt cache x = some e) : e.data.fd ∈ cachedFds cache := by
  have hlt : x < cache.dll.fresh := by
    by_contra hge
    have hnone := hw.links.fresh x (not_lt.mp hge)
    cases he.symm.trans hnone
  exact List.mem_filterMap.mpr ⟨x, List.mem_range.mpr hlt, by rw [he]; rfl⟩

/-- The open descriptor 8 of the index page is neither cached, nor used, nor being closed. -/
theorem file_lost_after_overlap :
    (run (openStep bareRouter) (serverStart baseDescriptors) opensOverlap).map (fun s =>
        (s.opened 8, cachedFds s.fileCache, s.inFlight.filterMap Context.statxFd,
          s.inFlight.filterMap Context.keeps)) =
      some (some (.file (publicRoot ++ indexName)), [7], [], [5, 6]) ∧
      ¬ Along (openStep bareRouter) NoFileLost (serverStart baseDescriptors) opensOverlap := by
  have hrun : (run (openStep bareRouter) (serverStart baseDescriptors) opensOverlap).map (fun s =>
      (s.opened 8, cachedFds s.fileCache, s.inFlight.filterMap Context.statxFd,
        s.inFlight.filterMap Context.keeps)) =
      some (some (.file (publicRoot ++ indexName)), [7], [], [5, 6]) := by decide +kernel
  refine ⟨hrun, fun halong => ?_⟩
  obtain ⟨s, hs, hs'⟩ := Option.map_eq_some_iff.mp hrun
  simp only [Prod.mk.injEq] at hs'
  obtain ⟨hopen, hcached, hstatx, hkeeps⟩ := hs'
  have hw : Wired s.fileCache :=
    run_preserves (fun _ _ _ h hstep => wired_openStep hstep h) (wired_start baseDescriptors) hs
  cases along_run halong hs 8 _ hopen with
  | cached x e hof he hfd =>
    have hmem := mem_cachedFds hw he
    rw [hcached, hfd] at hmem
    simp at hmem
  | opening pt hpath hmem hfd =>
    have hmem' : pt.file.fd ∈ s.inFlight.filterMap Context.statxFd :=
      List.mem_filterMap.mpr ⟨_, hmem, rfl⟩
    rw [hstatx] at hmem'
    cases hmem'
  | closing pt hmem =>
    have hmem' : 8 ∈ s.inFlight.filterMap Context.keeps := List.mem_filterMap.mpr ⟨_, hmem, rfl⟩
    rw [hkeeps] at hmem'
    simp at hmem'

end Cerverus.EventLoop
