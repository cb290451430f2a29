import Cerverus.ListFiles
import Cerverus.RouterDispatch

/-!
# Extensions of the files sent

The router looks for a dot anywhere in the URI, `route_callback_send_file` in the name that
`async_io_open_file` splits off the path. They differ on a dot in the name of a directory.
-/
namespace Cerverus.FileExtensions
open Http Routing EventLoop ListFiles Dispatch Lru

/-- The tree below the public directory; no name that `readdir` delivers has a slash in it. -/
structure PublicTree where
  dir : DirStream
  names : ∀ path ∈ regularFiles dir, ∀ name ∈ path, 47 ∉ name

def memrchr (s : Bytes) (c : UInt8) : Option ℕ :=
  (memchr s.reverse c).map fun i => s.length - 1 - i

/-- The last of the `path_shards`. -/
def openedName (path : Bytes) : Option Bytes := (sdssplitlen path 47).getLast?

/-- The last component of the path has a dot, which `memrchr` finds, and the slice that follows
it is the rest of the name. -/
def HasExtension (path : Bytes) : Prop :=
  ∃ name dot type, openedName path = some name ∧ 46 ∈ name ∧ memrchr name 46 = some dot ∧
    extension name = some type ∧ name = name.take dot ++ 46 :: type

/-! ## The name that is opened -/

section
variable {names : List Bytes} {name path : Bytes}

theorem exists_extension (h : 46 ∈ name) :
    ∃ dot type, memrchr name 46 = some dot ∧ extension name = some type ∧
      name = name.take dot ++ 46 :: type := by
  obtain ⟨back, front, hsplit, hback⟩ :=
    List.eq_append_cons_of_mem (List.mem_reverse.mpr h)
  have hname : name = front.reverse ++ 46 :: back.reverse := by
    rw [← List.reverse_reverse name, hsplit]
    simp
  refine ⟨front.length, back.reverse, ?_, ?_, ?_⟩
  · rw [memrchr, hsplit, memchr_of_notMem hback, hname]
    simp
  · have hwhile : ∀ c ∈ back, (c ≠ 46 : Bool) = true := by
      intro c hc
      rw [decide_eq_true_eq]
      intro heq
      exact hback (heq ▸ hc)
    rw [extension, if_pos h, hsplit, List.takeWhile_append_of_pos hwhile,
      List.takeWhile_cons_of_neg (by simp), List.append_nil]
  · rw [hname, List.take_left' (by simp)]

theorem openedName_listed (hne : names ≠ []) (h : ∀ name ∈ names, 47 ∉ name) :
    openedName (publicRoot ++ listingEntry names) = names.getLast? := by
  have hpath : publicRoot ++ listingEntry names =
      [47].intercalate
        ([97, 115, 115, 101, 116, 115] :: [112, 117, 98, 108, 105, 99] :: names) := by
    rw [List.intercalate_cons_of_ne_nil (by simp), List.intercalate_cons_of_ne_nil hne]
    rfl
  have hslash : ∀ name ∈ [97, 115, 115, 101, 116, 115] :: [112, 117, 98, 108, 105, 99] :: names,
      (47 : UInt8) ∉ name := by
    simpa using h
  rw [openedName, sdssplitlen, if_neg (by simp [publicRoot]), hpath,
    List.splitOn_intercalate 47 hslash (by simp)]
  simp [List.getLast?_cons, List.getLast?_eq_getLast_of_ne_nil hne]

theorem mem_intercalate {c : UInt8} (hc : c ≠ 47) (names : List Bytes) :
    c ∈ [47].intercalate names ↔ ∃ name ∈ names, c ∈ name := by
  induction names with
  | nil => simp [List.intercalate]
  | cons name names ih =>
    by_cases hne : names = []
    · simp [hne, List.intercalate]
    · rw [List.intercalate_cons_of_ne_nil hne]
      simp [ih, hc]

theorem hasExtension_iff (h : openedName path = some name) : HasExtension path ↔ 46 ∈ name := by
  constructor
  · intro hex
    obtain ⟨name', _, _, hopened, hdot, _⟩ := hex
    rw [h] at hopened
    cases hopened
    exact hdot
  · intro hdot
    obtain ⟨dot, type, hfound, hext, hslice⟩ := exists_extension hdot
    exact ⟨name, dot, type, h, hdot, hfound, hext, hslice⟩

theorem fileResponse_isSome (name : Bytes) (stxSize : UInt64) :
    (fileResponse name stxSize).isSome ↔ 46 ∈ name := by
  rw [fileResponse, extension]
  split_ifs with h <;> simp [h]

/-- A path has an extension if and only if the response for its file can be built. -/
theorem hasExtension_iff_response :
    HasExtension path ↔
      ∃ name, openedName path = some name ∧ ∀ stxSize, (fileResponse name stxSize).isSome := by
  simp only [fileResponse_isSome, forall_const]
  constructor
  · intro hex
    obtain ⟨name, _, _, hopened, hdot, _⟩ := hex
    exact ⟨name, hopened, hdot⟩
  · intro hex
    obtain ⟨name, hopened, hdot⟩ := hex
    exact (hasExtension_iff hopened).mpr hdot

/-- The event loop opens a file that is not cached under that name. -/
theorem asyncIoOpenFile_name {s t : LoopState} {pt : Coroutine} {cache : LruCache FileT}
    (hmiss : lruCacheGet s.fileCache pt.path = some (none, cache))
    (h : asyncIoOpenFile s .start pt = some t) :
    ∃ name, openedName pt.path = some name ∧
      t = handleOpenatSubmission { s with fileCache := cache }
        { pt with file := { pt.file with name := name } } := by
  rw [asyncIoOpenFile, hmiss, Option.bind_some] at h
  obtain ⟨name, hname, ht⟩ := Option.bind_eq_some_iff.mp h
  exact ⟨name, hname, (Option.some.inj ht).symm⟩

theorem dot_mem_listingEntry (names : List Bytes) :
    46 ∈ listingEntry names ↔ ∃ name ∈ names, 46 ∈ name := by
  rw [listingEntry, List.mem_cons, mem_intercalate (by decide)]
  simp

theorem hasExtension_index : HasExtension (publicRoot ++ indexName) := by
  have hopened := openedName_listed (List.cons_ne_nil indexName.tail []) (by decide)
  exact (hasExtension_iff hopened).mpr (by decide)

end

/-! ## The files that are sent -/

variable {κ : Type}

/-- Every file the router starts to send for the request has an extension. -/
def ExtensionsFound (tree : PublicTree) (routes : List (Route κ)) (request : Request) : Prop :=
  ∀ started path,
    (routerWith (listing tree.dir) routes).bind (routerHandleRequest · request) = some started →
      .file path ∈ started → HasExtension path

/-- The request gets a listed file whose own name has no dot, below a directory whose name has
one. -/
def AsksBareName (tree : PublicTree) (request : Request) : Prop :=
  request.method = .get ∧ ∃ dirs name, dirs ++ [name] ∈ regularFiles tree.dir ∧
    isPublic (dirs ++ [name]) = true ∧ request.uri = listingEntry (dirs ++ [name]) ∧
    (∃ dir ∈ dirs, 46 ∈ dir) ∧ 46 ∉ name

section
variable {tree : PublicTree} {routes : List (Route κ)} {request : Request}

theorem openedName_file {dirs : List Bytes} {name : Bytes}
    (h : dirs ++ [name] ∈ regularFiles tree.dir) :
    openedName (publicRoot ++ listingEntry (dirs ++ [name])) = some name := by
  rw [openedName_listed (by simp) (tree.names _ h)]
  simp

theorem mem_listing {uri : Bytes} : uri ∈ listing tree.dir ↔
    ∃ dirs name, dirs ++ [name] ∈ regularFiles tree.dir ∧
      isPublic (dirs ++ [name]) = true ∧ uri = listingEntry (dirs ++ [name]) := by
  rw [listing, List.mem_map]
  constructor
  · intro hex
    obtain ⟨path, hpath, hentry⟩ := hex
    obtain ⟨hfile, hpub⟩ := List.mem_filter.mp hpath
    obtain ⟨dirs, name, rfl⟩ :=
      (List.eq_nil_or_concat path).resolve_left (regularFiles_ne_nil hfile)
    rw [List.concat_eq_append] at hfile hpub hentry
    exact ⟨dirs, name, hfile, hpub, hentry.symm⟩
  · intro hex
    obtain ⟨dirs, name, hfile, hpub, hentry⟩ := hex
    exact ⟨dirs ++ [name], List.mem_filter.mpr ⟨hfile, hpub⟩, hentry.symm⟩

theorem file_started {files : List Bytes} {started : List (Started κ)} {path : Bytes}
    (h : (routerWith files routes).bind (routerHandleRequest · request) = some started)
    (hmem : .file path ∈ started) :
    path = publicRoot ++ indexName ∨
      AsksPublic files request ∧ path = publicRoot ++ request.uri := by
  rw [routerHandleRequest_eq] at h
  by_cases hdiv : files = [] ∧ request.method = .get ∧ 46 ∈ request.uri
  · rw [if_pos hdiv] at h
    cases h
  · rw [if_neg hdiv] at h
    cases h
    rcases List.mem_append.mp hmem with hfile | hhandler
    · rcases List.mem_append.mp hfile with hindex | hpub
      · split_ifs at hindex with hasks
        · exact Or.inl (Started.file.inj (List.mem_singleton.mp hindex))
        · cases hindex
      · split_ifs at hpub with hasks
        · exact Or.inr ⟨hasks, Started.file.inj (List.mem_singleton.mp hpub)⟩
        · cases hpub
    · obtain ⟨callback, _, heq⟩ := List.mem_map.mp hhandler
      cases heq

theorem asksPublic_started {files : List Bytes} (routes : List (Route κ))
    (h : AsksPublic files request) :
    ∃ started : List (Started κ),
      (routerWith files routes).bind (routerHandleRequest · request) = some started ∧
        .file (publicRoot ++ request.uri) ∈ started := by
  have hne : files ≠ [] := List.ne_nil_of_mem h.2.2
  rw [routerHandleRequest_eq, if_neg fun hdiv => hne hdiv.1, if_pos h]
  exact ⟨_, rfl, by simp⟩

/-- For every tree below the public directory, every sequence of routes and every request: the
files sent all have an extension where the response looks for it, unless the request gets a file
with none below a directory with a dot. -/
theorem extensionsFound_iff (tree : PublicTree) (routes : List (Route κ)) (request : Request) :
    ExtensionsFound tree routes request ↔ ¬ AsksBareName tree request := by
  constructor
  · intro hfound hbare
    obtain ⟨hget, dirs, name, hfile, hpub, huri, ⟨dir, hdir, hdot⟩, hnone⟩ := hbare
    have hin : 46 ∈ request.uri := by
      rw [huri, dot_mem_listingEntry]
      exact ⟨dir, List.mem_append_left _ hdir, hdot⟩
    have hlisted : request.uri ∈ listing tree.dir := mem_listing.mpr ⟨dirs, name, hfile, hpub, huri⟩
    obtain ⟨started, hrun, hmem⟩ := asksPublic_started routes ⟨hget, hin, hlisted⟩
    have hext := hfound started _ hrun hmem
    rw [huri, hasExtension_iff (openedName_file hfile)] at hext
    exact hnone hext
  · intro hbare started path hrun hmem
    rcases file_started hrun hmem with rfl | ⟨hasks, rfl⟩
    · exact hasExtension_index
    · obtain ⟨hget, hin, hlisted⟩ := hasks
      obtain ⟨dirs, name, hfile, hpub, huri⟩ := mem_listing.mp hlisted
      rw [huri, hasExtension_iff (openedName_file hfile)]
      by_contra hnone
      rw [huri, dot_mem_listingEntry] at hin
      obtain ⟨dir, hdir, hdot⟩ := hin
      rcases List.mem_append.mp hdir with hdir | hname
      · exact hbare ⟨hget, dirs, name, hfile, hpub, huri, ⟨dir, hdir, hdot⟩, hnone⟩
      · rw [List.mem_singleton.mp hname] at hdot
        exact hnone hdot

end

/-- A file `c` in a directory `a.b`. -/
def dottedTree : PublicTree :=
  { dir := .dir [97, 46, 98] (.reg [99] .done) .done
    names := by decide }

/-- `GET /a.b/c` starts to send a file that has no extension. -/
theorem bare_name_sent :
    (routerWith (listing dottedTree.dir) ([] : List (Route ℕ))).bind
        (routerHandleRequest · ⟨.get, [47, 97, 46, 98, 47, 99], .v1p1, []⟩) =
      some [.file (publicRoot ++ [47, 97, 46, 98, 47, 99])] ∧
    ¬ ExtensionsFound dottedTree ([] : List (Route ℕ))
      ⟨.get, [47, 97, 46, 98, 47, 99], .v1p1, []⟩ := by
  have hrun : (routerWith (listing dottedTree.dir) ([] : List (Route ℕ))).bind
      (routerHandleRequest · ⟨.get, [47, 97, 46, 98, 47, 99], .v1p1, []⟩) =
      some [.file (publicRoot ++ [47, 97, 46, 98, 47, 99])] := by
    decide +kernel
  refine ⟨hrun, fun hfound => ?_⟩
  have hopened : openedName (publicRoot ++ [47, 97, 46, 98, 47, 99]) = some [99] := by decide
  have hext := hfound _ _ hrun List.mem_cons_self
  rw [hasExtension_iff hopened] at hext
  revert hext
  decide

end Cerverus.FileExtensions
