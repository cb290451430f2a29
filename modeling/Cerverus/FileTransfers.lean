import Cerverus.LruNodes
import Cerverus.Stranded

/-!
# Descriptors of files

The cache hands out copies of a `file_t`, and an eviction closes the descriptor without
knowing who still has a copy. As long as it closes none that a coroutine is using, the
descriptor of every transfer stays open and stays that of its path.
-/
namespace Cerverus.EventLoop
open Hash Lru Http SpliceAll GuardedRun

/-- The coroutine of a context that has the descriptor of its file. -/
def Context.transfer : Context → Option Coroutine
  | .statx pt => some pt
  | .send _ pt => some pt
  | .spliceAll _ pt => some pt
  | _ => none

/-- A fill reads the open descriptor of its path, and no eviction is closing a descriptor in
use. -/
structure TransfersSafe (s : LoopState) : Prop where
  fill : ∀ ctx pt, .spliceAll ctx pt ∈ s.inFlight → ctx.isDraining = false →
    s.opened ctx.fdIn = some (.file pt.path)
  spared : ∀ ctx ∈ s.inFlight, ∀ pt ∈ ctx.transfer, .close pt.file.fd none ∉ s.inFlight

def Cached (cache : LruCache FileT) (path : Bytes) : Prop :=
  (hashmapGet cache.hmap path).join.isSome

/-- An `openat` returns a descriptor, unless the cache has got the file in the meantime. -/
def OpensOrCached (s : LoopState) (c : Completion) : Prop :=
  match s.inFlight[c.index]? with
  | some (.openat pt) => 0 ≤ c.res ∨ Cached s.fileCache pt.path
  | _ => True

/-- The file evicted has a descriptor that no coroutine in flight is using. -/
def SparesTransfers (s : LoopState) (c : Completion) : Prop :=
  ∀ file ∈ evictedFile s c, ∀ ctx ∈ s.inFlight, ∀ pt ∈ ctx.transfer, pt.file.fd ≠ file.fd

instance decidableCached (cache : LruCache FileT) (path : Bytes) : Decidable (Cached cache path) :=
  inferInstanceAs (Decidable (_ = true))

def Context.opening : Context → Option Coroutine
  | .openat pt => some pt
  | _ => none

theorem opensOrCached_iff {s : LoopState} {c : Completion} :
    OpensOrCached s c ↔ ∀ pt ∈ s.inFlight[c.index]?.bind Context.opening,
      0 ≤ c.res ∨ Cached s.fileCache pt.path := by
  unfold OpensOrCached
  cases hctx : s.inFlight[c.index]? with
  | none => simp
  | some ctx => cases ctx <;> simp [Context.opening]

instance decidableOpensOrCached (s : LoopState) (c : Completion) :
    Decidable (OpensOrCached s c) :=
  decidable_of_iff _ opensOrCached_iff.symm

instance decidableSparesTransfers (s : LoopState) (c : Completion) :
    Decidable (SparesTransfers s c) :=
  inferInstanceAs (Decidable (∀ file ∈ evictedFile s c, ∀ ctx ∈ s.inFlight,
    ∀ pt ∈ ctx.transfer, _))

/-! ## The invariant -/

/-- Open for the path, and not being closed after an eviction. -/
structure Usable (opened : ℕ → Option Handle) (ctxs : List Context) (path : Bytes) (fd : ℕ) :
    Prop where
  handle : opened fd = some (.file path)
  spared : .close fd none ∉ ctxs

def Context.statxFd : Context → Option ℕ
  | .statx pt => some pt.file.fd
  | _ => none

/-- Every descriptor in the cache or in use is usable, and none is in the cache twice, now or
after a pending addition. -/
structure FilesOk (opened : ℕ → Option Handle) (entries : ℕ → Option (DllEntry FileT))
    (ctxs : List Context) : Prop where
  cached : ∀ x e, entries x = some e → Usable opened ctxs e.hmapKey e.data.fd
  distinct : ∀ x y e e', entries x = some e → entries y = some e' →
    e.data.fd = e'.data.fd → x = y
  transfers : ∀ ctx ∈ ctxs, ∀ pt ∈ ctx.transfer, Usable opened ctxs pt.path pt.file.fd
  splices : ∀ ctx pt, .spliceAll ctx pt ∈ ctxs → ctx.fdIn = pt.file.fd
  uncached : ∀ fd ∈ ctxs.filterMap Context.statxFd, ∀ x e, entries x = some e → e.data.fd ≠ fd
  nodup : (ctxs.filterMap Context.statxFd).Nodup

structure Pending (opened : ℕ → Option Handle) (entries : ℕ → Option (DllEntry FileT))
    (ctxs : List Context) (pt : Coroutine) : Prop where
  usable : Usable opened ctxs pt.path pt.file.fd
  uncached : ∀ x e, entries x = some e → e.data.fd ≠ pt.file.fd
  unshared : pt.file.fd ∉ ctxs.filterMap Context.statxFd

theorem transfersSafe_of_filesOk {s : LoopState} {entries : ℕ → Option (DllEntry FileT)}
    (h : FilesOk s.opened entries s.inFlight) : TransfersSafe s := by
  refine ⟨fun ctx pt hmem _ => ?_, fun ctx hmem pt hpt => (h.transfers ctx hmem pt hpt).spared⟩
  rw [h.splices ctx pt hmem]
  exact (h.transfers _ hmem pt rfl).handle

section
variable {opened opened' : ℕ → Option Handle} {entries : ℕ → Option (DllEntry FileT)}
  {ctx : Context} {ctxs ctxs' : List Context} {path : Bytes} {fd : ℕ}

theorem Usable.mono (h : Usable opened ctxs path fd)
    (hopen : opened fd ≠ none → opened' fd = opened fd)
    (hctxs : .close fd none ∈ ctxs' → .close fd none ∈ ctxs) : Usable opened' ctxs' path fd :=
  ⟨(hopen (by simp [h.handle])).trans h.handle, fun hmem => h.spared (hctxs hmem)⟩

theorem filesOk_opened (h : FilesOk opened entries ctxs)
    (hopen : ∀ fd, opened fd ≠ none → opened' fd = opened fd) : FilesOk opened' entries ctxs :=
  ⟨fun x e he => (h.cached x e he).mono (hopen _) id, h.distinct,
    fun ctx hc pt hpt => (h.transfers ctx hc pt hpt).mono (hopen _) id, h.splices, h.uncached,
    h.nodup⟩

theorem filesOk_perm (h : FilesOk opened entries ctxs) (hp : ctxs.Perm ctxs') :
    FilesOk opened entries ctxs' :=
  ⟨fun x e he => (h.cached x e he).mono (fun _ => rfl) hp.mem_iff.mpr, h.distinct,
    fun ctx hc pt hpt =>
      (h.transfers ctx (hp.mem_iff.mpr hc) pt hpt).mono (fun _ => rfl) hp.mem_iff.mpr,
    fun ctx pt hc => h.splices ctx pt (hp.mem_iff.mpr hc),
    fun fd hfd => h.uncached fd ((hp.filterMap _).mem_iff.mpr hfd),
    (hp.filterMap _).nodup_iff.mp h.nodup⟩

theorem filesOk_remove (h : FilesOk opened entries (ctxs ++ [ctx])) :
    FilesOk opened entries ctxs ∧
      (∀ pt ∈ ctx.transfer, Usable opened ctxs pt.path pt.file.fd) ∧
      ∀ pt, ctx = .statx pt → Pending opened entries ctxs pt := by
  have hsub : ∀ {c}, c ∈ ctxs → c ∈ ctxs ++ [ctx] := List.mem_append_left _
  have hlast : ctx ∈ ctxs ++ [ctx] := List.mem_append_right _ (List.mem_singleton_self ctx)
  obtain ⟨hnd, hunshared⟩ := nodup_filterMap_snoc.mp h.nodup
  have husable : ∀ pt ∈ ctx.transfer, Usable opened ctxs pt.path pt.file.fd := fun pt hpt =>
    (h.transfers ctx hlast pt hpt).mono (fun _ => rfl) hsub
  refine ⟨⟨fun x e he => (h.cached x e he).mono (fun _ => rfl) hsub, h.distinct,
    fun c hc pt hpt => (h.transfers c (hsub hc) pt hpt).mono (fun _ => rfl) hsub,
    fun c pt hc => h.splices c pt (hsub hc),
    fun fd hfd => h.uncached fd (mem_filterMap_snoc.mpr (Or.inl hfd)), hnd⟩, husable, ?_⟩
  intro pt hctx
  subst hctx
  exact ⟨husable pt rfl, h.uncached _ (mem_filterMap_snoc.mpr (Or.inr rfl)), hunshared _ rfl⟩

theorem statx_of_statxFd (h : ctx.statxFd = some fd) : ∃ pt, ctx = .statx pt ∧ pt.file.fd = fd := by
  cases ctx with
  | statx pt => exact ⟨pt, rfl, Option.some.inj h⟩
  | _ => cases h

theorem filesOk_push (h : FilesOk opened entries ctxs) (hno : ctx.evicts = false)
    (husable : ∀ pt ∈ ctx.transfer, Usable opened ctxs pt.path pt.file.fd)
    (hsplice : ∀ splice pt, ctx = .spliceAll splice pt → splice.fdIn = pt.file.fd)
    (hpend : ∀ pt, ctx = .statx pt → Pending opened entries ctxs pt) :
    FilesOk opened entries (ctxs ++ [ctx]) := by
  have hclose : ∀ {fd}, .close fd none ∈ ctxs ++ [ctx] → .close fd none ∈ ctxs := by
    intro fd hmem
    rcases List.mem_append.mp hmem with hmem | hmem
    · exact hmem
    · rw [← List.mem_singleton.mp hmem] at hno
      cases hno
  refine ⟨fun x e he => (h.cached x e he).mono (fun _ => rfl) hclose, h.distinct,
    fun c hc pt hpt => ?_, fun splice pt hc => ?_, fun fd hfd => ?_,
    nodup_filterMap_snoc.mpr ⟨h.nodup, fun fd hfd => ?_⟩⟩
  · rcases List.mem_append.mp hc with hc | hc
    · exact (h.transfers c hc pt hpt).mono (fun _ => rfl) hclose
    · rw [List.mem_singleton.mp hc] at hpt
      exact (husable pt hpt).mono (fun _ => rfl) hclose
  · rcases List.mem_append.mp hc with hc | hc
    · exact h.splices splice pt hc
    · exact hsplice splice pt (List.mem_singleton.mp hc).symm
  · rcases mem_filterMap_snoc.mp hfd with hfd | hfd
    · exact h.uncached fd hfd
    · obtain ⟨pt, hctx, rfl⟩ := statx_of_statxFd hfd
      exact (hpend pt hctx).uncached
  · obtain ⟨pt, hctx, rfl⟩ := statx_of_statxFd hfd
    exact (hpend pt hctx).unshared

theorem filesOk_quiet (h : FilesOk opened entries ctxs) (hno : ctx.evicts = false)
    (hquiet : ctx.transfer = none) : FilesOk opened entries (ctxs ++ [ctx]) := by
  refine filesOk_push h hno (fun pt hpt => ?_) (fun splice pt hctx => ?_) fun pt hctx => ?_
  · rw [hquiet] at hpt
    cases hpt
  · rw [hctx] at hquiet
    cases hquiet
  · rw [hctx] at hquiet
    cases hquiet

theorem filesOk_room {entries' : ℕ → Option (DllEntry FileT)} {pt : Coroutine} {node : ℕ}
    (h : FilesOk opened entries ctxs) (hpend : Pending opened entries ctxs pt)
    (hentries : ∀ x, entries' x =
      if x = node then some ⟨pt.path, pt.file⟩ else entries x) :
    FilesOk opened entries' ctxs := by
  refine ⟨fun x e he => ?_, fun x y e e' he he' hfd => ?_, h.transfers, h.splices,
    fun fd hfd x e he => ?_, h.nodup⟩
  · rw [hentries] at he
    split_ifs at he
    · cases he
      exact hpend.usable
    · exact h.cached x e he
  · rw [hentries] at he he'
    split_ifs at he he' with hx hy
    · exact hx.trans hy.symm
    · cases he
      exact absurd hfd.symm (hpend.uncached y e' he')
    · cases he'
      exact absurd hfd (hpend.uncached x e he)
    · exact h.distinct x y e e' he he' hfd
  · rw [hentries] at he
    split_ifs at he
    · cases he
      intro heq
      subst heq
      exact hpend.unshared hfd
    · exact h.uncached fd hfd x e he

theorem filesOk_sub {entries' : ℕ → Option (DllEntry FileT)} (h : FilesOk opened entries ctxs)
    (hsub : ∀ x e, entries' x = some e → entries x = some e) : FilesOk opened entries' ctxs :=
  ⟨fun x e he => h.cached x e (hsub x e he),
    fun x y e e' he he' => h.distinct x y e e' (hsub x e he) (hsub y e' he'), h.transfers,
    h.splices, fun fd hfd x e he => h.uncached fd hfd x e (hsub x e he), h.nodup⟩

theorem filesOk_close (h : FilesOk opened entries ctxs)
    (hfree : ∀ x e, entries x = some e → e.data.fd ≠ fd)
    (hunused : ∀ ctx ∈ ctxs, ∀ pt ∈ ctx.transfer, pt.file.fd ≠ fd) :
    FilesOk opened entries (ctxs ++ [.close fd none]) := by
  have hother : ∀ {f}, f ≠ fd → .close f none ∈ ctxs ++ [.close fd none] →
      .close f none ∈ ctxs := by
    intro f hne hmem
    rcases List.mem_append.mp hmem with hmem | hmem
    · exact hmem
    · cases List.mem_singleton.mp hmem
      exact absurd rfl hne
  have hnone : (ctxs ++ [Context.close fd none]).filterMap Context.statxFd =
      ctxs.filterMap Context.statxFd := by simp [Context.statxFd]
  refine ⟨fun x e he => (h.cached x e he).mono (fun _ => rfl) (hother (hfree x e he)), h.distinct,
    fun ctx hc pt hpt => ?_, fun splice pt hc => ?_, hnone ▸ h.uncached, hnone ▸ h.nodup⟩
  · rcases List.mem_append.mp hc with hc | hc
    · exact (h.transfers ctx hc pt hpt).mono (fun _ => rfl) (hother (hunused ctx hc pt hpt))
    · rw [List.mem_singleton.mp hc] at hpt
      cases hpt
  · rcases List.mem_append.mp hc with hc | hc
    · exact h.splices splice pt hc
    · cases List.mem_singleton.mp hc

theorem filesOk_released (h : FilesOk opened entries ctxs)
    (hother : ∀ {path f}, Usable opened ctxs path f → f ≠ fd) :
    FilesOk (Function.update opened fd none) entries ctxs := by
  have hmono : ∀ {path f}, Usable opened ctxs path f →
      Usable (Function.update opened fd none) ctxs path f := fun hu =>
    hu.mono (fun _ => Function.update_of_ne (hother hu) _ _) id
  exact ⟨fun x e he => hmono (h.cached x e he), h.distinct,
    fun ctx hc pt hpt => hmono (h.transfers ctx hc pt hpt), h.splices, h.uncached, h.nodup⟩

end

/-! ## Steps -/

section
variable {opened : ℕ → Option Handle} {ctxs new : List Context} {cache cache' : LruCache FileT}
  {label : OpenFileLabel} {pt : Coroutine}

def CacheOk (opened : ℕ → Option Handle) (cache : LruCache FileT) (ctxs : List Context) : Prop :=
  Wired cache ∧ FilesOk opened (entryAt cache) ctxs

theorem cached_iff_get {path : Bytes} {o : Option (ℕ × FileT)}
    (hget : lruCacheGet cache path = some (o, cache')) : Cached cache path ↔ o.isSome := by
  simp only [lruCacheGet, Option.bind_eq_bind, Option.bind_eq_some_iff] at hget
  obtain ⟨found, hfound, hget⟩ := hget
  cases found with
  | none =>
    cases hget
    simp [Cached, hfound]
  | some item =>
    simp only [Option.bind_eq_some_iff, Option.some.injEq, Prod.mk.injEq] at hget
    obtain ⟨_, _, _, _, rfl, _⟩ := hget
    simp [Cached, hfound]

theorem not_cached_of_get {path : Bytes} (hget : lruCacheGet cache path = some (none, cache')) :
    ¬ Cached cache path := by
  rw [cached_iff_get hget]
  decide

theorem cacheOk_get {path : Bytes} {o : Option (ℕ × FileT)} (h : CacheOk opened cache ctxs)
    (hget : lruCacheGet cache path = some (o, cache')) :
    CacheOk opened cache' ctxs ∧ entryAt cache' = entryAt cache ∧
      ∀ x file, o = some (x, file) → Usable opened ctxs path file.fd := by
  obtain ⟨hw, hentries, hfound⟩ := wired_get h.1 hget
  refine ⟨⟨hw, hentries ▸ h.2⟩, hentries, fun x file ho => ?_⟩
  exact h.2.cached x _ (hfound x file ho)

theorem cacheOk_send (h : CacheOk opened cache ctxs) (raw : Bytes)
    (husable : Usable opened ctxs pt.path pt.file.fd) :
    CacheOk opened cache (ctxs ++ [.send raw pt]) :=
  ⟨h.1, filesOk_push h.2 rfl (fun _ hq => Option.some.inj hq ▸ husable)
    (fun _ _ hctx => by cases hctx) fun _ hctx => by cases hctx⟩

theorem cacheOk_added {r : AddResult FileT} (h : CacheOk opened cache ctxs)
    (hpend : Pending opened (entryAt cache) ctxs pt)
    (hadd : lruCacheAdd cache pt.path pt.file = some r)
    (hspare : ∀ file ∈ r.evicted, ∀ ctx ∈ ctxs, ∀ q ∈ ctx.transfer, q.file.fd ≠ file.fd) :
    CacheOk opened r.cache (ctxs ++ closeEvicted r.evicted) ∧
      Usable opened (ctxs ++ closeEvicted r.evicted) pt.path pt.file.fd := by
  obtain ⟨hw, _, hadded⟩ := wired_add h.1 hadd
  cases hadded with
  | room hnone hentries =>
    rw [hnone, closeEvicted, Option.map_none, Option.toList_none, List.append_nil]
    exact ⟨⟨hw, filesOk_room h.2 hpend hentries⟩, hpend.usable⟩
  | evicted tail k file hfile hne htail hentries =>
    let pushed : ℕ → Option (DllEntry FileT) :=
      fun x => if x = r.newNode then some ⟨pt.path, pt.file⟩ else entryAt cache x
    have hroom : FilesOk opened pushed ctxs := filesOk_room h.2 hpend fun _ => rfl
    have hpushed : pushed tail = some ⟨k, file⟩ := (if_neg hne).trans htail
    have hkept : ∀ x e, entryAt r.cache x = some e → x ≠ tail ∧ pushed x = some e := by
      intro x e he
      rw [hentries] at he
      split_ifs at he with hx hx'
      · exact ⟨hx, (if_pos hx').trans he⟩
      · exact ⟨hx, (if_neg hx').trans he⟩
    have hsub : FilesOk opened (entryAt r.cache) ctxs :=
      filesOk_sub hroom fun x e he => (hkept x e he).2
    have hfree : ∀ x e, entryAt r.cache x = some e → e.data.fd ≠ file.fd := fun x e he hfd =>
      (hkept x e he).1 (hroom.distinct x tail e _ (hkept x e he).2 hpushed hfd)
    rw [hfile, closeEvicted, Option.map_some, Option.toList_some]
    refine ⟨⟨hw, filesOk_close hsub hfree (hspare file hfile)⟩, hpend.usable.mono (fun _ => rfl) ?_⟩
    intro hmem
    rcases List.mem_append.mp hmem with hmem | hmem
    · exact hmem
    · have hclose : Context.close pt.file.fd none = .close file.fd none :=
        List.mem_singleton.mp hmem
      exact absurd (Context.close.inj hclose).1.symm (hpend.uncached tail _ htail)

theorem cacheOk_advance (hadv : Advance cache label pt cache' new)
    (h : CacheOk opened cache ctxs)
    (hpend : label ≠ .start → ¬ Cached cache pt.path → Pending opened (entryAt cache) ctxs pt)
    (hspare : label = .afterStatx → ∀ file ∈ evictedBy cache pt, ∀ ctx ∈ ctxs,
      ∀ q ∈ ctx.transfer, q.file.fd ≠ file.fd) : CacheOk opened cache' (ctxs ++ new) := by
  cases hadv with
  | hit get raw =>
    obtain ⟨hok, _, hfound⟩ := cacheOk_get h get
    exact cacheOk_send hok raw (hfound _ _ rfl)
  | start get name =>
    obtain ⟨hok, _⟩ := cacheOk_get h get
    exact ⟨hok.1, filesOk_quiet hok.2 rfl rfl⟩
  | opened get =>
    obtain ⟨hok, hentries, _⟩ := cacheOk_get h get
    have hp := hpend (fun hl => by cases hl) (not_cached_of_get get)
    refine ⟨hok.1, filesOk_push hok.2 rfl ?_ (fun _ _ hctx => by cases hctx) ?_⟩
    · intro q heq
      cases heq
      exact hp.usable
    · intro q heq
      cases heq
      rwa [hentries]
  | @added _ cache₁ r get add raw =>
    obtain ⟨hok, hentries, _⟩ := cacheOk_get h get
    have hp := hpend (fun hl => by cases hl) (not_cached_of_get get)
    rw [← hentries] at hp
    have hspare' : ∀ file ∈ r.evicted, ∀ ctx ∈ ctxs, ∀ q ∈ ctx.transfer, q.file.fd ≠ file.fd :=
      fun file hfile => hspare rfl file (by simpa [evictedBy, get, add] using hfile)
    obtain ⟨hadded, husable⟩ := cacheOk_added hok hp add hspare'
    rw [← List.append_assoc]
    exact cacheOk_send hadded raw husable

theorem cacheOk_startAll {pts : List Coroutine} (hs : StartAll cache pts cache' new)
    (h : CacheOk opened cache ctxs) : CacheOk opened cache' (ctxs ++ new) := by
  induction hs generalizing ctxs with
  | nil => rwa [List.append_nil]
  | cons first rest ih =>
    rw [← List.append_assoc]
    exact ih (cacheOk_advance first h (absurd rfl) fun hl => by cases hl)

end

section
variable {rtr : Router} {s t : LoopState} {c : Completion} {ctx : Context}

theorem opened_update {opened : ℕ → Option Handle} {fd : ℕ} (hfd : opened fd = none)
    (handle : Option Handle) :
    ∀ f, opened f ≠ none → Function.update opened fd handle f = opened f := by
  intro f hf
  apply Function.update_of_ne
  intro heq
  subst heq
  exact hf hfd

theorem opened_pipe {opened opened' : ℕ → Option Handle} (hp : PipeOpened opened opened') :
    ∀ f, opened f ≠ none → opened' f = opened f := by
  rcases hp with rfl | ⟨a, b, hne, ha, hb, rfl⟩
  · exact fun _ _ => rfl
  · intro f hf
    have hfa := opened_update ha (some .pipe) f hf
    rw [opened_update _ _ f (hfa ▸ hf), hfa]
    rwa [Function.update_of_ne hne.symm]

/-- A descriptor just returned by `openat` is in nobody's hands. -/
theorem pending_opened {opened : ℕ → Option Handle} {entries : ℕ → Option (DllEntry FileT)}
    {ctxs : List Context} {pt : Coroutine} {fd : ℕ} (h : FilesOk opened entries ctxs)
    (hd : DescriptorsOk opened ctxs) (hfd : opened fd = none) :
    Pending (Function.update opened fd (some (.file pt.path))) entries ctxs
      { pt with file := { pt.file with fd := fd } } := by
  refine ⟨⟨Function.update_self _ _ _, fun hmem => ?_⟩, fun x e he hef => ?_, fun hmem => ?_⟩
  · obtain ⟨handle, hopen, _⟩ := hd.backed _ hmem
    rw [Option.mem_def, hfd] at hopen
    cases hopen
  · have hopen := (h.cached x e he).handle
    rw [hef, hfd] at hopen
    cases hopen
  · obtain ⟨ctx, hctx, hstatx⟩ := List.mem_filterMap.mp hmem
    obtain ⟨q, rfl, hq⟩ := statx_of_statxFd hstatx
    have hopen := (h.transfers _ hctx q rfl).handle
    rw [hq, hfd] at hopen
    cases hopen

theorem cacheOk_effect (heff : Effect rtr s c ctx t)
    (hd : DescriptorsOk s.opened (s.inFlight ++ [ctx]))
    (h : CacheOk s.opened s.fileCache (s.inFlight ++ [ctx]))
    (hopens : ∀ pt, ctx = .openat pt → 0 ≤ c.res ∨ Cached s.fileCache pt.path)
    (hspare : ∀ pt, ctx = .statx pt → ∀ file ∈ evictedBy s.fileCache (statxResult pt c),
      ∀ ctx ∈ s.inFlight, ∀ q ∈ ctx.transfer, q.file.fd ≠ file.fd) :
    CacheOk t.opened t.fileCache t.inFlight := by
  obtain ⟨hw, hall⟩ := h
  obtain ⟨h, husable, hpend⟩ := filesOk_remove hall
  obtain ⟨hrest, hback, hkeeps⟩ := descriptorsOk_remove hd
  cases heff with
  | acceptFailed => exact ⟨hw, h⟩
  | accepted fd hfd =>
    have hopen := filesOk_opened h (opened_update hfd (some (.client s.nextConn)))
    have hrecv : FilesOk _ _
        (s.inFlight ++ [.recv ⟨fd, s.nextConn⟩ (Http.handleRecvSubmission sdsempty)]) :=
      filesOk_quiet hopen rfl rfl
    have haccept : FilesOk _ _ (_ ++ [.accept]) := filesOk_quiet hrecv rfl rfl
    rw [List.append_assoc] at haccept
    exact ⟨hw, haccept⟩
  | recvDropped => exact ⟨hw, h⟩
  | recvMore hout => exact ⟨hw, filesOk_quiet h rfl rfl⟩
  | routed hres hout hhit hstart => exact cacheOk_startAll hstart ⟨hw, h⟩
  | @openFailed pt cache' ctxs hres hadv =>
    refine cacheOk_advance hadv ⟨hw, h⟩ (fun _ hno => ?_)
      fun hl => by cases hl
    rcases hopens pt rfl with hpos | hcached
    · exact absurd hres (not_lt.mpr hpos)
    · exact absurd hcached hno
  | @opened pt fd cache' ctxs hfd hadv =>
    refine cacheOk_advance hadv ⟨hw, filesOk_opened h (opened_update hfd _)⟩ (fun _ _ => ?_)
      fun hl => by cases hl
    exact pending_opened h hrest hfd
  | @statx pt cache' ctxs hadv =>
    have hp := hpend pt rfl
    exact cacheOk_advance hadv ⟨hw, h⟩ (fun _ _ => ⟨hp.usable, hp.uncached, hp.unshared⟩)
      fun _ => hspare pt rfl
  | sendMore => exact cacheOk_send ⟨hw, h⟩ _ (husable _ rfl)
  | @sent pt buffer opened' pipe hcb hpipe =>
    have hopen := filesOk_opened h (opened_pipe hpipe)
    refine ⟨hw, filesOk_push hopen rfl ?_ ?_ fun _ hctx => by cases hctx⟩
    · intro q heq
      cases heq
      exact (husable pt rfl).mono (opened_pipe hpipe _) id
    · intro splice q heq
      cases heq
      rfl
  | @spliceMore pt ctx ctx' hfd =>
    refine ⟨hw, filesOk_push h rfl husable ?_ fun _ hctx => by cases hctx⟩
    intro splice q heq
    cases heq
    exact hfd.trans (hall.splices ctx pt (by simp))
  | splicedFile hcb => exact ⟨hw, filesOk_quiet h rfl rfl⟩
  | @closed fd pt =>
    refine ⟨hw, (filesOk_remove (filesOk_released hall fun {path f} hu => ?_)).1⟩
    intro heq
    subst heq
    cases pt with
    | none => exact hu.spared (by simp)
    | some pt =>
      have hclient := hback.2
      rw [hu.handle] at hclient
      cases hclient

/-- What an eviction closes was in the cache: it is open for its path, and not being closed. -/
theorem evictsIdle_of_cacheOk (h : CacheOk s.opened s.fileCache s.inFlight) : EvictsIdle s c := by
  intro file hfile
  unfold evictedFile at hfile
  split at hfile
  · unfold evictedBy at hfile
    split at hfile
    · rename_i pt _ _ cache' hget
      obtain ⟨hok, _⟩ := cacheOk_get h hget
      obtain ⟨r, hadd, hevicted⟩ := Option.bind_eq_some_iff.mp hfile
      obtain ⟨_, _, hadded⟩ := wired_add hok.1 hadd
      cases hadded with
      | room hnone => cases hnone.symm.trans hevicted
      | evicted tail k b hb hne htail hentries =>
        cases hb.symm.trans hevicted
        have husable := hok.2.cached tail _ htail
        exact ⟨⟨_, husable.handle, rfl⟩, husable.spared⟩
    · cases hfile
  · cases hfile

theorem cacheOk_step (hs : step rtr s c = some t) (hd : DescriptorsOk s.opened s.inFlight)
    (h : CacheOk s.opened s.fileCache s.inFlight) (hopens : OpensOrCached s c)
    (hspare : SparesTransfers s c) : CacheOk t.opened t.fileCache t.inFlight := by
  obtain ⟨rest, ctx, hperm, hget, heff⟩ := step_effect hs
  refine cacheOk_effect heff (descriptorsOk_perm hd hperm) ⟨h.1, filesOk_perm h.2 hperm⟩
    (fun pt hpt => ?_) fun pt hpt file hfile ctx' hctx' => ?_
  · simpa [OpensOrCached, hget, hpt] using hopens
  · refine hspare file (by simpa [evictedFile, hget, hpt] using hfile) ctx' ?_
    exact hperm.mem_iff.mpr (List.mem_append_left _ hctx')

theorem cacheOk_start (others : List ℕ) :
    CacheOk (serverStart others).opened (serverStart others).fileCache
      (serverStart others).inFlight := by
  refine ⟨wired_create hashFnv1a (by decide), ?_⟩
  have haccept : ∀ ctx ∈ (serverStart others).inFlight, ctx = .accept := fun ctx hc =>
    List.eq_of_mem_replicate hc
  refine ⟨fun _ _ he => ?_, fun _ _ _ _ he => ?_, fun ctx hc pt hpt => ?_, fun splice pt hc => ?_,
    fun fd hfd => ?_, List.nodup_nil⟩
  · cases he
  · cases he
  · rw [haccept ctx hc] at hpt
    cases hpt
  · cases haccept _ hc
  · cases hfd

/-- For every router, in every run whose opens succeed and whose evictions spare the descriptors
in use, every fill reads the open descriptor of its path. -/
theorem transfersSafe_of_spared (rtr : Router) (others : List ℕ) {cs : List Completion}
    (hg : Guarded (step rtr) (fun s c => OpensOrCached s c ∧ SparesTransfers s c)
      (serverStart others) cs) : Along (step rtr) TransfersSafe (serverStart others) cs := by
  have hinv : Along (step rtr)
      (fun s => DescriptorsOk s.opened s.inFlight ∧ CacheOk s.opened s.fileCache s.inFlight)
      (serverStart others) cs := by
    refine along_of_guarded ?_ ⟨descriptorsOk_start others, cacheOk_start others⟩ hg
    intro s c t hex hex' hs
    obtain ⟨hd, hok⟩ := hex
    obtain ⟨hopens, hspare⟩ := hex'
    exact ⟨descriptorsOk_step hs hd (evictsIdle_of_cacheOk hok),
      cacheOk_step hs hd hok hopens hspare⟩
  exact along_mono (fun s h => transfersSafe_of_filesOk h.2.2) hinv

end

/-! ## Runs -/

theorem transfersSafe_indexPage :
    (run (step bareRouter) (serverStart baseDescriptors) indexPage).isSome ∧
      Along (step bareRouter) TransfersSafe (serverStart baseDescriptors) indexPage :=
  ⟨by decide +kernel, transfersSafe_of_spared bareRouter baseDescriptors (by decide +kernel)⟩

def letterName (k : ℕ) : Bytes := [47, 97 + k.toUInt8, 46]

def lettersRouter : Router := (routerCreate ((List.range 17).map letterName)).getD bareRouter

/-- `GET /a. HTTP/1.1`, ... with no headers. -/
def getLetter (k : ℕ) : Bytes :=
  [71, 69, 84, 32] ++ letterName k ++ [32] ++ httpVersion1p1Literal ++ crlfcrlf

/-- Client `k` asks for file `k`, up to the suspension in `async_io_send_buffer`. -/
def askLetter (k : ℕ) : List Completion :=
  [answer (6 + k) (5 + 2 * k), recvAnswer (7 + k) (getLetter k), answer (8 + k) (6 + 2 * k),
    { answer (8 + k) 0 with stxSize := 3 }]

/-- The first client reads its headers only after sixteen others have asked for other files; the
pipe then gets the descriptor that the eviction has closed. -/
def slowFirst : List Completion :=
  (List.range 17).flatMap askLetter ++ [answer 24 0, { answer 7 78 with pipe := some (6, 39) }]

def firstLetter : Coroutine :=
  ⟨.routeCallbackSendFile, ⟨5, 0⟩, publicRoot ++ letterName 0, ⟨6, (letterName 0).drop 1, 3⟩⟩

theorem fill_of_evicted_descriptor :
    (run (step lettersRouter) (serverStart baseDescriptors) slowFirst).map
        (fun s => (s.opened 6, s.inFlight.getLast?)) =
      some (some .pipe, some (.spliceAll (sendfileContext 6 5 3 (6, 39)) firstLetter)) ∧
      ¬ Along (step lettersRouter) TransfersSafe (serverStart baseDescriptors) slowFirst := by
  have hrun : (run (step lettersRouter) (serverStart baseDescriptors) slowFirst).map
      (fun s => (s.opened 6, s.inFlight.getLast?)) =
        some (some .pipe, some (.spliceAll (sendfileContext 6 5 3 (6, 39)) firstLetter)) := by
    decide +kernel
  refine ⟨hrun, fun halong => ?_⟩
  obtain ⟨s, hs, hs'⟩ := Option.map_eq_some_iff.mp hrun
  have hopen : s.opened 6 = some .pipe := congrArg Prod.fst hs'
  have hlast := List.mem_of_getLast? (congrArg Prod.snd hs')
  have hfill := (along_run halong hs).fill _ _ hlast rfl
  cases hopen.symm.trans hfill

end Cerverus.EventLoop
