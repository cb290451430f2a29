import Cerverus.ConcurrentOpens
import Cerverus.RouterDispatch

/-!
# Table sizes

A table that `hashmap_create` gives at least one slot never divides by zero, as no operation
changes the number of slots. For an empty public directory it gives none, and the first `GET`
for a URI with a dot divides by zero.
-/
namespace Cerverus.EventLoop
open Hash Lru Http GuardedRun

/-! ## One table -/

section
variable {β : Type}

inductive TableOp (β : Type)
  | set (key : Bytes) (element : β)
  | get (key : Bytes)
  | delete (key : Bytes)

/-- The table after the operation; `none` if it computes `hash(key) % 0`. -/
def tableStep (hm : Hashmap β) : TableOp β → Option (Hashmap β)
  | .set key element => (hashmapSet hm key element).map Prod.snd
  | .get key => (hashmapGet hm key).map fun _ => hm
  | .delete key => (hashmapDelete hm key).map Prod.snd

/-- Every sequence of operations goes through. -/
def NeverModZero (hm : Hashmap β) : Prop := ∀ ops, (run tableStep hm ops).isSome

theorem tableStep_size {hm : Hashmap β} (h : 1 ≤ hm.size) (op : TableOp β) :
    ∃ hm', tableStep hm op = some hm' ∧ 1 ≤ hm'.size := by
  cases op with
  | set key element =>
    obtain ⟨o, ho⟩ := probe_isSome h key
    simp only [tableStep, hashmapSet, ho, Option.map_some]
    cases o with
    | none => exact ⟨_, rfl, h⟩
    | some j => exact ⟨_, rfl, h⟩
  | get key =>
    obtain ⟨o, ho⟩ := probe_isSome h key
    simp only [tableStep, hashmapGet, ho, Option.map_some]
    exact ⟨_, rfl, h⟩
  | delete key =>
    obtain ⟨o, ho⟩ := probe_isSome h key
    simp only [tableStep, hashmapDelete, ho, Option.map_some]
    cases o with
    | none => exact ⟨_, rfl, h⟩
    | some j =>
      refine ⟨_, rfl, ?_⟩
      dsimp only
      split <;> exact h

theorem neverModZero_of_size {hm : Hashmap β} (h : 1 ≤ hm.size) : NeverModZero hm := by
  intro ops
  obtain ⟨hm', hrun, _⟩ := @run_defined _ _ tableStep (fun hm : Hashmap β => 1 ≤ hm.size)
    (fun _ op h => tableStep_size h op) hm ops h
  exact Option.isSome_iff_exists.mpr ⟨hm', hrun⟩

end

/-! ## The two tables of the server -/

/-- `size / 0.67` without rounding, truncated. -/
def exactSize (size : ℕ) : ℕ := ⌊(size : ℚ) / (67 / 100)⌋₊

/-- The table has a slot, and one for every key that was asked for, whether the division is
exact or in doubles. -/
structure Covers (size : ℕ) : Prop where
  exact_pos : 1 ≤ exactSize size
  exact_le : size ≤ exactSize size
  pos : 1 ≤ tableSize size loadPoint67
  le : size ≤ tableSize size loadPoint67

theorem le_exactSize (size : ℕ) : size ≤ exactSize size := by
  refine Nat.le_floor ?_
  rw [le_div_iff₀ (by norm_num)]
  have hpos : (0 : ℚ) ≤ size := Nat.cast_nonneg size
  linarith

theorem covers_iff (size : ℕ) : Covers size ↔ 1 ≤ size := by
  constructor
  · intro h
    by_contra hzero
    have hsize : size = 0 := by omega
    have hpos := h.exact_pos
    rw [hsize, exactSize, Nat.cast_zero, zero_div, Nat.floor_zero] at hpos
    omega
  · intro h
    exact ⟨h.trans (le_exactSize size), le_exactSize size, h.trans (le_tableSize size),
      le_tableSize size⟩

/-- The server with a file cache of another capacity. -/
def serverStartWith (capacity : ℕ) (others : List ℕ) : LoopState :=
  { serverStart others with fileCache := lruCacheCreate capacity }

/-- `router_create` inserts all files, every request can be looked up among them, and the table
of the file cache is sound in every state of every run, whatever routes were added. -/
def TablesServe (files : List Bytes) (capacity : ℕ) : Prop :=
  ∃ rtr, routerCreate files = some rtr ∧ ∀ routes : List (Route RouteCallback),
    (∀ request, (publicHit (routes.foldl routerAddRoute rtr) request).isSome) ∧
    ∀ others completions, Along (step (routes.foldl routerAddRoute rtr))
      (fun s => NeverModZero s.fileCache.hmap) (serverStartWith capacity others) completions

section
variable {files : List Bytes} {rtr : Router} {request : Request}

theorem foldl_routerAddRoute_hmap (rtr : Router) (routes : List (Route RouteCallback)) :
    (routes.foldl routerAddRoute rtr).publicDirectoryHmap = rtr.publicDirectoryHmap := by
  induction routes generalizing rtr with
  | nil => rfl
  | cons rt routes ih => exact ih (routerAddRoute rtr rt)

theorem routerCreate_probed (hne : files ≠ []) :
    ∃ rtr, routerCreate files = some rtr ∧ Probed rtr.publicDirectoryHmap := by
  obtain ⟨hm, hlist, hp, _⟩ := Dispatch.listPublic_members files
    (listed_create hashFnv1a (List.length_pos_iff.mpr hne))
  exact ⟨⟨hm, Routing.trieCreate⟩, by simp [routerCreate, hlist], hp⟩

theorem publicHit_isSome (hp : Probed rtr.publicDirectoryHmap) (request : Request) :
    (publicHit rtr request).isSome := by
  unfold publicHit
  split_ifs
  · obtain ⟨o, ho⟩ := hashmapGet_isSome hp request.uri
    rw [ho]
    rfl
  · rfl

theorem cache_neverModZero (rtr : Router) {capacity : ℕ} (hc : 1 ≤ capacity) (others : List ℕ)
    (completions : List Completion) :
    Along (step rtr) (fun s => NeverModZero s.fileCache.hmap) (serverStartWith capacity others)
      completions := by
  have hwired : Along (step rtr) (fun s => Wired s.fileCache) (serverStartWith capacity others)
      completions := by
    refine along_of_invariant (fun s c t hw hs => ?_) (wired_create hashFnv1a hc)
    obtain ⟨rest, ctx, _, _, heff⟩ := step_effect hs
    exact wired_effect heff hw
  exact along_mono (fun s hw => neverModZero_of_size hw.probed.size_pos) hwired

theorem tablesServe_of_ne (hne : files ≠ []) {capacity : ℕ} (hc : 1 ≤ capacity) :
    TablesServe files capacity := by
  obtain ⟨rtr, hcreate, hp⟩ := routerCreate_probed hne
  refine ⟨rtr, hcreate, fun routes => ⟨fun request => ?_, fun others completions => ?_⟩⟩
  · exact publicHit_isSome ((foldl_routerAddRoute_hmap rtr routes).symm ▸ hp) request
  · exact cache_neverModZero _ hc others completions

/-- Without public files, a `GET` for `/.` divides by zero. -/
theorem publicHit_nil : ∃ rtr, routerCreate [] = some rtr ∧
    publicHit rtr ⟨.get, [47, 46], .v1p1, []⟩ = none :=
  ⟨_, rfl, rfl⟩

theorem not_tablesServe_nil (capacity : ℕ) : ¬ TablesServe [] capacity := by
  intro hserve
  obtain ⟨rtr, hcreate, hroutes⟩ := hserve
  obtain ⟨rtr', hcreate', hnone⟩ := publicHit_nil
  cases hcreate.symm.trans hcreate'
  have hsome := (hroutes []).1 ⟨.get, [47, 46], .v1p1, []⟩
  rw [List.foldl_nil, hnone] at hsome
  cases hsome

end

/-- For every capacity of at least 1, the tables have slots for what they are to hold, and no
request makes an operation divide by zero, if and only if there is a public file. -/
theorem tablesServe_iff (files : List Bytes) {capacity : ℕ} (hc : 1 ≤ capacity) :
    Covers files.length ∧ Covers capacity ∧ TablesServe files capacity ↔ files ≠ [] := by
  constructor
  · intro hall hnil
    rw [hnil] at hall
    exact not_tablesServe_nil capacity hall.2.2
  · intro hne
    exact ⟨(covers_iff _).mpr (List.length_pos_iff.mpr hne), (covers_iff _).mpr hc,
      tablesServe_of_ne hne hc⟩

/-- One public file, and the capacity the server uses. -/
theorem tablesServe_oneFile :
    Covers 1 ∧ Covers 16 ∧ TablesServe [indexName] 16 :=
  (tablesServe_iff [indexName] (by decide)).mpr (by decide)

/-- An empty public directory: no slots, and the first request with a dot divides by zero. -/
theorem emptyListing_divides : ¬ Covers 0 ∧ ∃ rtr, routerCreate [] = some rtr ∧
    publicHit rtr ⟨.get, [47, 46], .v1p1, []⟩ = none := by
  refine ⟨fun hcovers => ?_, publicHit_nil⟩
  exact absurd ((covers_iff 0).mp hcovers) (by decide)

end Cerverus.EventLoop
