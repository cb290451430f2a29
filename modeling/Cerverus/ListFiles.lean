import Cerverus.Bytes
import Cerverus.GrowableArray

/-!
# Listing the public files

`recursive_walk` gets the array by value. When an addition moves it, only the call that made the
addition knows where it is; its callers go on with the handle that was freed.
-/
namespace Cerverus.ListFiles
open GrowableArray

/-- What `readdir` delivers for a directory, in its order, up to the end: regular files,
directories and anything else. -/
inductive DirStream
  | done
  | reg (name : Bytes) (rest : DirStream)
  | dir (name : Bytes) (sub rest : DirStream)
  | other (name : Bytes) (rest : DirStream)
  deriving DecidableEq, Repr

def isHidden (name : Bytes) : Bool := name.head? == some 46

def recursiveWalk : DirStream → Bytes → ArrayHeap Bytes → ℕ → Option (ArrayHeap Bytes)
  | .done, _, heap, _ => some heap
  | .reg name rest, pfx, heap, filesDarr =>
    if isHidden name then recursiveWalk rest pfx heap filesDarr
    else
      (arrayAdd heap filesDarr (pfx ++ name)).bind fun r => recursiveWalk rest pfx r.2 r.1
  | .dir name sub rest, pfx, heap, filesDarr =>
    if isHidden name then recursiveWalk rest pfx heap filesDarr
    else
      (recursiveWalk sub (pfx ++ name ++ [47]) heap filesDarr).bind fun heap =>
        recursiveWalk rest pfx heap filesDarr
  | .other _ rest, pfx, heap, filesDarr => recursiveWalk rest pfx heap filesDarr

/-- `_list_files`: the array it returns, and the heap it leaves. -/
def listFiles (dir : DirStream) : Option (ℕ × ArrayHeap Bytes) :=
  let created := arrayCreate emptyHeap 8
  (recursiveWalk dir [47] created.2 created.1).map fun heap => (created.1, heap)

/-! ## The listing -/

/-- The regular files, by their path components below the root. -/
def regularFiles : DirStream → List (List Bytes)
  | .done => []
  | .reg name rest => [name] :: regularFiles rest
  | .dir name sub rest => (regularFiles sub).map (name :: ·) ++ regularFiles rest
  | .other _ rest => regularFiles rest

/-- No component starts with a dot. -/
def isPublic (path : List Bytes) : Bool := path.all fun name => !isHidden name

/-- `/` followed by the components joined by `/`. -/
def listingEntry (path : List Bytes) : Bytes := 47 :: [47].intercalate path

def listing (dir : DirStream) : List Bytes := ((regularFiles dir).filter isPublic).map listingEntry

def entriesUnder (pfx : Bytes) (dir : DirStream) : List Bytes :=
  ((regularFiles dir).filter isPublic).map fun path => pfx ++ [47].intercalate path

section
variable {name pfx : Bytes} {sub rest : DirStream}

theorem regularFiles_ne_nil {dir : DirStream} {path : List Bytes} (h : path ∈ regularFiles dir) :
    path ≠ [] := by
  induction dir generalizing path with
  | done => cases h
  | reg name rest ih =>
    rcases List.mem_cons.mp h with rfl | h
    · simp
    · exact ih h
  | dir name sub rest ihsub ihrest =>
    rcases List.mem_append.mp h with h | h
    · obtain ⟨p, _, rfl⟩ := List.mem_map.mp h
      simp
    · exact ihrest h
  | other name rest ih => exact ih h

theorem entriesUnder_reg : entriesUnder pfx (.reg name rest) =
    (if isHidden name then [] else [pfx ++ name]) ++ entriesUnder pfx rest := by
  cases hh : isHidden name with
  | true => simp [entriesUnder, regularFiles, isPublic, hh]
  | false => simp [entriesUnder, regularFiles, isPublic, hh, List.intercalate]

theorem filter_isPublic_cons (paths : List (List Bytes)) :
    (paths.map (name :: ·)).filter isPublic =
      if isHidden name then [] else (paths.filter isPublic).map (name :: ·) := by
  have hcons : (isPublic ∘ (name :: ·)) = fun path => !isHidden name && isPublic path := rfl
  rw [List.filter_map, hcons]
  cases isHidden name <;> simp

theorem entriesUnder_dir : entriesUnder pfx (.dir name sub rest) =
    (if isHidden name then [] else entriesUnder (pfx ++ name ++ [47]) sub) ++
      entriesUnder pfx rest := by
  rw [entriesUnder, regularFiles, List.filter_append, List.map_append, filter_isPublic_cons]
  refine congrArg (· ++ _) ?_
  split_ifs
  · rfl
  · rw [List.map_map]
    refine List.map_congr_left fun path hpath => ?_
    have hne := regularFiles_ne_nil (List.mem_of_mem_filter hpath)
    simp only [Function.comp_apply, List.intercalate_cons_of_ne_nil hne, List.append_assoc]

theorem listing_eq (dir : DirStream) : listing dir = entriesUnder [47] dir := rfl

end

/-! ## The walk -/

section
variable {heap heap' : ArrayHeap Bytes} {filesDarr other size : ℕ} {elements : List Bytes}

theorem recursiveWalk_room (dir : DirStream) (pfx : Bytes)
    (h : Live heap filesDarr size elements)
    (hroom : elements.length + (entriesUnder pfx dir).length < size) :
    ∃ heap', recursiveWalk dir pfx heap filesDarr = some heap' ∧
      Live heap' filesDarr size (elements ++ entriesUnder pfx dir) := by
  induction dir generalizing pfx heap elements with
  | done => exact ⟨heap, rfl, by simpa [entriesUnder, regularFiles] using h⟩
  | reg name rest ih =>
    rw [entriesUnder_reg] at hroom ⊢
    cases hh : isHidden name with
    | true =>
      simp only [hh, if_true, List.nil_append] at hroom ⊢
      simpa [recursiveWalk, hh] using ih pfx h hroom
    | false =>
      simp only [hh, Bool.false_eq_true, if_false, List.singleton_append, List.length_cons]
        at hroom ⊢
      obtain ⟨heap₁, hadd, hlive⟩ := arrayAdd_room h (by omega) (pfx ++ name)
      have hrest : (elements ++ [pfx ++ name]).length + (entriesUnder pfx rest).length < size := by
        rw [List.length_append, List.length_singleton]
        omega
      obtain ⟨heap', hwalk, hlive'⟩ := ih pfx hlive hrest
      refine ⟨heap', by simp [recursiveWalk, hh, hadd, hwalk], ?_⟩
      rwa [List.append_assoc, List.singleton_append] at hlive'
  | dir name sub rest ihsub ihrest =>
    rw [entriesUnder_dir] at hroom ⊢
    cases hh : isHidden name with
    | true =>
      simp only [hh, if_true, List.nil_append] at hroom ⊢
      simpa [recursiveWalk, hh] using ihrest pfx h hroom
    | false =>
      simp only [hh, Bool.false_eq_true, if_false, List.length_append] at hroom ⊢
      obtain ⟨heap₁, hsub, hlive⟩ := ihsub (pfx ++ name ++ [47]) h (by omega)
      have hrest : (elements ++ entriesUnder (pfx ++ name ++ [47]) sub).length +
          (entriesUnder pfx rest).length < size := by
        rw [List.length_append]
        omega
      obtain ⟨heap', hwalk, hlive'⟩ := ihrest pfx hlive hrest
      refine ⟨heap', ?_, by rwa [List.append_assoc] at hlive'⟩
      rw [recursiveWalk, hh, if_neg (by simp), hsub, Option.bind_some, hwalk]
  | other name rest ih => exact ih pfx h hroom

theorem recursiveWalk_freed (dir : DirStream) (pfx : Bytes)
    (hw : recursiveWalk dir pfx heap filesDarr = some heap') (h : Freed heap other) :
    Freed heap' other := by
  induction dir generalizing pfx heap heap' filesDarr with
  | done => exact Option.some.inj hw ▸ h
  | reg name rest ih =>
    rw [recursiveWalk] at hw
    split_ifs at hw
    · exact ih pfx hw h
    · obtain ⟨r, hadd, hw⟩ := Option.bind_eq_some_iff.mp hw
      exact ih pfx hw (freed_add hadd h)
  | dir name sub rest ihsub ihrest =>
    rw [recursiveWalk] at hw
    split_ifs at hw
    · exact ihrest pfx hw h
    · obtain ⟨heap₁, hsub, hw⟩ := Option.bind_eq_some_iff.mp hw
      exact ihrest pfx hw (ihsub _ hsub h)
  | other name rest ih => exact ih pfx hw h

/-- A walk that takes up all the room frees the handle it was given. -/
theorem recursiveWalk_full (dir : DirStream) (pfx : Bytes)
    (h : Live heap filesDarr size elements)
    (hfull : size ≤ elements.length + (entriesUnder pfx dir).length)
    (hw : recursiveWalk dir pfx heap filesDarr = some heap') : Freed heap' filesDarr := by
  induction dir generalizing pfx heap heap' elements with
  | done =>
    have hroom := h.room
    simp only [entriesUnder, regularFiles, List.filter_nil, List.map_nil, List.length_nil] at hfull
    omega
  | reg name rest ih =>
    rw [entriesUnder_reg] at hfull
    rw [recursiveWalk] at hw
    split_ifs at hw hfull with hh
    · exact ih pfx h hfull hw
    · obtain ⟨r, hadd, hw⟩ := Option.bind_eq_some_iff.mp hw
      by_cases hmoves : size ≤ elements.length + 1
      · obtain ⟨heap₁, hadd', _, hfreed⟩ := arrayAdd_full h hmoves (pfx ++ name)
        cases hadd'.symm.trans hadd
        exact recursiveWalk_freed rest pfx hw hfreed
      · obtain ⟨heap₁, hadd', hlive⟩ := arrayAdd_room h (not_le.mp hmoves) (pfx ++ name)
        cases hadd'.symm.trans hadd
        refine ih pfx hlive ?_ hw
        simp only [List.length_append, List.length_singleton] at hfull ⊢
        omega
  | dir name sub rest ihsub ihrest =>
    rw [entriesUnder_dir] at hfull
    rw [recursiveWalk] at hw
    split_ifs at hw hfull with hh
    · exact ihrest pfx h hfull hw
    · obtain ⟨heap₁, hsub, hw⟩ := Option.bind_eq_some_iff.mp hw
      by_cases hmoves : size ≤ elements.length + (entriesUnder (pfx ++ name ++ [47]) sub).length
      · exact recursiveWalk_freed rest pfx hw (ihsub _ h hmoves hsub)
      · obtain ⟨heap₂, hsub', hlive⟩ := recursiveWalk_room sub _ h (not_le.mp hmoves)
        cases hsub'.symm.trans hsub
        refine ihrest pfx hlive ?_ hw
        rw [List.length_append] at hfull ⊢
        omega
  | other name rest ih => exact ih pfx h hfull hw

end

/-- The array returned is live and holds the listing if and only if there are at most seven files
to list: the eighth addition moves it. -/
theorem listFiles_exact_iff (dir : DirStream) :
    (∃ filesDarr heap header, listFiles dir = some (filesDarr, heap) ∧
        heap.arrays filesDarr = some header ∧ header.data = listing dir) ↔
      (listing dir).length ≤ 7 := by
  have hcreate : Live (arrayCreate (emptyHeap : ArrayHeap Bytes) 8).2 0 8 [] :=
    live_create emptyHeap (by decide)
  constructor
  · intro hex
    obtain ⟨filesDarr, heap, header, hlist, hheader, _⟩ := hex
    by_contra hlong
    obtain ⟨heap', hwalk, heq⟩ := Option.map_eq_some_iff.mp hlist
    cases heq
    have hfull : 8 ≤ ([] : List Bytes).length + (entriesUnder [47] dir).length := by
      rw [← listing_eq, List.length_nil]
      omega
    have hfreed := recursiveWalk_full dir [47] hcreate hfull hwalk
    cases hfreed.array.symm.trans hheader
  · intro hshort
    have hroom : ([] : List Bytes).length + (entriesUnder [47] dir).length < 8 := by
      rw [← listing_eq, List.length_nil]
      omega
    obtain ⟨heap', hwalk, hlive⟩ := recursiveWalk_room dir [47] hcreate hroom
    refine ⟨0, heap', _, ?_, hlive.array, List.nil_append _⟩
    exact Option.map_eq_some_iff.mpr ⟨heap', hwalk, rfl⟩

def letterFiles (n : ℕ) : DirStream :=
  (List.range n).foldr (fun k rest => .reg [97 + k.toUInt8] rest) .done

/-- Eight files in one directory: the array that is returned has been freed. -/
theorem eight_files_freed :
    (listFiles (letterFiles 8)).map (fun r => r.2.arrays r.1) = some none ∧
      ¬ ∃ filesDarr heap header, listFiles (letterFiles 8) = some (filesDarr, heap) ∧
        heap.arrays filesDarr = some header ∧ header.data = listing (letterFiles 8) := by
  have hfreed : (listFiles (letterFiles 8)).map (fun r => r.2.arrays r.1) = some none := by
    decide +kernel
  refine ⟨hfreed, fun hex => ?_⟩
  obtain ⟨filesDarr, heap, header, hlist, hheader, _⟩ := hex
  rw [hlist, Option.map_some, hheader] at hfreed
  cases hfreed

end Cerverus.ListFiles
