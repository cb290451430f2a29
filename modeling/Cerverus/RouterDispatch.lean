import Cerverus.LoopEffects
import Cerverus.PublicListing
import Cerverus.Routing

/-!
# Which response a request gets

`router_handle_request` by the responses it starts, for callbacks of any kind. The index page,
the public file and the handler are tried one after the other; the response for none of them,
`prep_route_callback_send_404`, is called nowhere.
-/
namespace Cerverus.Dispatch
open Hash Http Routing EventLoop

variable {κ : Type}

/-- A response coroutine: `route_callback_send_file` for a path, a registered handler, or
`route_callback_send_404`. -/
inductive Started (κ : Type)
  | file (path : Bytes)
  | handler (callback : κ)
  | notFound
  deriving DecidableEq, Repr

structure Router (κ : Type) where
  publicDirectoryHmap : Hashmap Unit
  routingTable : HttpMethod → TrieNode κ

def routerCreate (publicFiles : List Bytes) : Option (Router κ) :=
  (listPublic (hashmapCreate publicFiles.length loadPoint67 hashFnv1a) publicFiles).map fun hmap =>
    { publicDirectoryHmap := hmap, routingTable := trieCreate }

def routerAddRoute (rtr : Router κ) (rt : Route κ) : Router κ :=
  { rtr with routingTable := trieAddRoute rtr.routingTable rt }

def routerWith (publicFiles : List Bytes) (routes : List (Route κ)) : Option (Router κ) :=
  (routerCreate publicFiles).map fun rtr => routes.foldl routerAddRoute rtr

def startIndex (request : Request) : List (Started κ) :=
  if request.uri = [47] then [.file (publicRoot ++ indexName)] else []

/-- `none` where the look-up divides by the size of an empty table. -/
def startPublic (rtr : Router κ) (request : Request) : Option (List (Started κ)) :=
  if request.method = .get ∧ (memchr request.uri 46).isSome then
    (hashmapGet rtr.publicDirectoryHmap request.uri).map fun found =>
      if found.isSome then [.file (publicRoot ++ request.uri)] else []
  else some []

def startHandler (rtr : Router κ) (request : Request) : List (Started κ) :=
  match trieFindHandler rtr.routingTable request.method request.uri with
  | some callback => [.handler callback]
  | none => []

/-- The responses started, in order. -/
def routerHandleRequest (rtr : Router κ) (request : Request) : Option (List (Started κ)) :=
  (startPublic rtr request).map fun fromTable =>
    startIndex request ++ fromTable ++ startHandler rtr request

/-! ## The order of precedence -/

def AsksIndex (request : Request) : Prop := request.uri = [47]

def AsksPublic (files : List Bytes) (request : Request) : Prop :=
  request.method = .get ∧ 46 ∈ request.uri ∧ request.uri ∈ files

instance decidableAsksIndex (request : Request) : Decidable (AsksIndex request) :=
  inferInstanceAs (Decidable (_ = _))

instance decidableAsksPublic (files : List Bytes) (request : Request) :
    Decidable (AsksPublic files request) :=
  inferInstanceAs (Decidable (_ ∧ _))

def handlerFor (routes : List (Route κ)) (request : Request) : Option κ :=
  trieFindHandler (routes.foldl trieAddRoute trieCreate) request.method request.uri

/-- The first that applies of the index page, the public file and the handler, and otherwise
the 404. -/
def firstApplicable (files : List Bytes) (routes : List (Route κ)) (request : Request) :
    Started κ :=
  if AsksIndex request then .file (publicRoot ++ indexName)
  else if AsksPublic files request then .file (publicRoot ++ request.uri)
  else match handlerFor routes request with
    | some callback => .handler callback
    | none => .notFound

/-- The router starts exactly the response the order of precedence calls for. -/
def StartsFirst (files : List Bytes) (routes : List (Route κ)) (request : Request) : Prop :=
  (routerWith files routes).bind (routerHandleRequest · request) =
    some [firstApplicable files routes request]

def LooksUp (files : List Bytes) (request : Request) : Prop :=
  files = [] → ¬ (request.method = .get ∧ 46 ∈ request.uri)

section
variable {files : List Bytes} {routes : List (Route κ)} {request : Request}

theorem listed_again {hm : Hashmap Unit} {file : Bytes} {n : ℕ} (h : Listed hm files n)
    (hmem : file ∈ files) :
    ∃ hm', hashmapSet hm file () = some (true, hm') ∧ Listed hm' files n := by
  have hin : Holds hm file () := (h.holds file).mpr hmem
  rcases hashmapSet_spec h.probed file () with ⟨hm', hset, hp, _, hh, hsame, _⟩ | ⟨_, habsent, _⟩
  · refine ⟨hm', hset, hp, fun key => ?_, ?_⟩
    · rw [hh, h.holds]
      by_cases hk : key = file <;> simp [hk, hmem]
    · rw [hsame ⟨(), hin⟩]
      exact h.room
  · exact absurd hin (habsent ())

theorem listPublic_members {hm : Hashmap Unit} {done : List Bytes} (files : List Bytes)
    (h : Listed hm done files.length) :
    ∃ hm', listPublic hm files = some hm' ∧ Probed hm' ∧
      ∀ key, Holds hm' key () ↔ key ∈ done ∨ key ∈ files := by
  induction files generalizing hm done with
  | nil => exact ⟨hm, rfl, h.probed, by simpa using h.holds⟩
  | cons file files ih =>
    by_cases hmem : file ∈ done
    · obtain ⟨hm', hset, hl⟩ := listed_again h hmem
      obtain ⟨hm'', hlist, hp, hh⟩ := ih ⟨hl.probed, hl.holds, Nat.le_of_succ_le hl.room⟩
      refine ⟨hm'', by simp [listPublic, hset, hlist], hp, fun key => (hh key).trans ?_⟩
      by_cases hk : key = file <;> simp [hk, hmem]
    · obtain ⟨hm', hset, hl⟩ := listed_set h hmem
      obtain ⟨hm'', hlist, hp, hh⟩ := ih hl
      refine ⟨hm'', by simp [listPublic, hset, hlist], hp, fun key => (hh key).trans ?_⟩
      simp [or_assoc]

theorem routerCreate_holds (hne : files ≠ []) :
    ∃ rtr : Router κ, routerCreate files = some rtr ∧ rtr.routingTable = trieCreate ∧
      Probed rtr.publicDirectoryHmap ∧
      ∀ key, Holds rtr.publicDirectoryHmap key () ↔ key ∈ files := by
  obtain ⟨hm, hlist, hp, hh⟩ :=
    listPublic_members files (listed_create hashFnv1a (List.length_pos_iff.mpr hne))
  exact ⟨⟨hm, trieCreate⟩, by simp [routerCreate, hlist], rfl, hp, by simpa using hh⟩

theorem routerCreate_nil : ∃ rtr : Router κ, routerCreate [] = some rtr ∧
    rtr.routingTable = trieCreate ∧ rtr.publicDirectoryHmap.size = 0 :=
  ⟨_, rfl, rfl, rfl⟩

theorem foldl_routerAddRoute (rtr : Router κ) (routes : List (Route κ)) :
    routes.foldl routerAddRoute rtr =
      { rtr with routingTable := routes.foldl trieAddRoute rtr.routingTable } := by
  induction routes generalizing rtr with
  | nil => rfl
  | cons rt routes ih => rw [List.foldl_cons, ih]; rfl

theorem startPublic_listed {rtr : Router κ} (hp : Probed rtr.publicDirectoryHmap)
    (hh : ∀ key, Holds rtr.publicDirectoryHmap key () ↔ key ∈ files) (request : Request) :
    startPublic rtr request = some
      (if AsksPublic files request then [.file (publicRoot ++ request.uri)] else []) := by
  simp only [startPublic, memchr_isSome]
  by_cases hdot : request.method = .get ∧ 46 ∈ request.uri
  · rw [if_pos hdot]
    by_cases hfile : request.uri ∈ files
    · rw [(hashmapGet_eq_some hp).mpr ((hh _).mpr hfile), if_pos ⟨hdot.1, hdot.2, hfile⟩]
      rfl
    · have habsent : ∀ d, ¬ Holds rtr.publicDirectoryHmap request.uri d :=
        fun d hd => hfile ((hh _).mp hd)
      rw [(hashmapGet_eq_none hp).mpr habsent, if_neg fun hasks => hfile hasks.2.2]
      rfl
  · rw [if_neg hdot, if_neg fun hasks => hdot ⟨hasks.1, hasks.2.1⟩]

/-- A look-up in the table of an empty listing divides by zero. -/
theorem startPublic_unlisted {rtr : Router κ} (hsize : rtr.publicDirectoryHmap.size = 0)
    (request : Request) :
    startPublic rtr request =
      if request.method = .get ∧ 46 ∈ request.uri then none else some [] := by
  simp only [startPublic, memchr_isSome, hashmapGet, probe, hsize, if_true, Option.map_none]

theorem startHandler_eq {rtr : Router κ} (htrie : rtr.routingTable = trieCreate)
    (routes : List (Route κ)) (request : Request) :
    startHandler (routes.foldl routerAddRoute rtr) request =
      (handlerFor routes request).toList.map .handler := by
  rw [startHandler, foldl_routerAddRoute, htrie, handlerFor]
  cases trieFindHandler (routes.foldl trieAddRoute trieCreate) request.method request.uri <;> rfl

theorem routerHandleRequest_eq (files : List Bytes) (routes : List (Route κ))
    (request : Request) :
    (routerWith files routes).bind (routerHandleRequest · request) =
      if files = [] ∧ request.method = .get ∧ 46 ∈ request.uri then none
      else some ((if AsksIndex request then [.file (publicRoot ++ indexName)] else []) ++
        (if AsksPublic files request then [.file (publicRoot ++ request.uri)] else []) ++
        (handlerFor routes request).toList.map .handler) := by
  by_cases hne : files = []
  · subst hne
    obtain ⟨rtr, hcreate, htrie, hsize⟩ := routerCreate_nil (κ := κ)
    have hsize' : (routes.foldl routerAddRoute rtr).publicDirectoryHmap.size = 0 := by
      rw [foldl_routerAddRoute]
      exact hsize
    have hpub := startPublic_unlisted hsize' request
    have hnone : ¬ AsksPublic [] request := fun hasks => by cases hasks.2.2
    simp only [routerWith, hcreate, Option.map_some, Option.bind_some, routerHandleRequest, hpub,
      startHandler_eq htrie, true_and, hnone, if_false, startIndex, AsksIndex]
    by_cases hdot : request.method = .get ∧ 46 ∈ request.uri
    · rw [if_pos hdot, if_pos hdot, Option.map_none]
    · rw [if_neg hdot, if_neg hdot, Option.map_some]
      rfl
  · obtain ⟨rtr, hcreate, htrie, hp, hh⟩ := routerCreate_holds (κ := κ) hne
    have htable : (routes.foldl routerAddRoute rtr).publicDirectoryHmap =
        rtr.publicDirectoryHmap := by
      rw [foldl_routerAddRoute]
    have hpub := startPublic_listed (htable ▸ hp) (htable ▸ hh) request
    simp only [routerWith, hcreate, Option.map_some, Option.bind_some, routerHandleRequest, hpub,
      startHandler_eq htrie, hne, false_and, if_false, startIndex, AsksIndex]
    rfl

/-- Neither of the first two cases is ever the other: `/` has no dot. -/
theorem not_asksPublic_of_asksIndex (h : AsksIndex request) : ¬ AsksPublic files request := by
  intro hasks
  have hdot := hasks.2.1
  rw [show request.uri = [47] from h] at hdot
  revert hdot
  decide

end

/-! ## In the event loop -/

/-- The coroutines of a response; the handlers of the repository share one. -/
def coroutinesOf (client : Client) (memory : FileT) : Started RouteCallback → List Coroutine
  | .file path => [fileCoroutine client path]
  | .handler _ => [testCoroutine client memory]
  | .notFound => []

theorem coroutinesOf_startIndex (client : Client) (memory : FileT) (request : Request) :
    (startIndex request).flatMap (coroutinesOf client memory) =
      if request.uri = [47] then [fileCoroutine client (publicRoot ++ indexName)] else [] := by
  unfold startIndex
  split_ifs <;> rfl

theorem coroutinesOf_startHandler (rtr : EventLoop.Router) (client : Client) (memory : FileT)
    (request : Request) :
    (startHandler ⟨rtr.publicDirectoryHmap, rtr.routingTable⟩ request).flatMap
      (coroutinesOf client memory) = handlerCoroutines rtr request client memory := by
  unfold startHandler handlerCoroutines handlerOf
  cases trieFindHandler rtr.routingTable request.method request.uri <;> rfl

/-- The loop submits the first operations of the responses the router starts, in order. -/
theorem routerHandleRequest_dispatch {rtr : EventLoop.Router} {s t : LoopState}
    {request : Request} {client : Client} {memory : FileT}
    (h : EventLoop.routerHandleRequest rtr s request client memory = some t) :
    ∃ started, routerHandleRequest ⟨rtr.publicDirectoryHmap, rtr.routingTable⟩ request =
        some started ∧ Starts s t (started.flatMap (coroutinesOf client memory)) := by
  obtain ⟨hit, hhit, hstarts⟩ := routerHandleRequest_starts h
  have hpub : startPublic ⟨rtr.publicDirectoryHmap, rtr.routingTable⟩ request =
      some (if hit then [(.file (publicRoot ++ request.uri) : Started RouteCallback)] else []) := by
    unfold publicHit at hhit
    unfold startPublic
    by_cases hdot : request.method = .get ∧ (memchr request.uri 46).isSome
    · rw [if_pos hdot] at hhit ⊢
      obtain ⟨found, hfound, rfl⟩ := Option.map_eq_some_iff.mp hhit
      rw [hfound, Option.map_some]
    · rw [if_neg hdot] at hhit ⊢
      cases hhit
      rfl
  refine ⟨_, by rw [routerHandleRequest, hpub, Option.map_some], ?_⟩
  rw [List.flatMap_append, List.flatMap_append, coroutinesOf_startIndex,
    coroutinesOf_startHandler]
  cases hit <;> exact hstarts

/-! ## The order kept -/

/-- For every listing, every sequence of routes and every request, the router starts exactly
the response that comes first if and only if exactly one of a file and a handler answers it,
and the look-up does not divide by zero. -/
theorem startsFirst_iff (files : List Bytes) (routes : List (Route κ)) (request : Request) :
    StartsFirst files routes request ↔
      LooksUp files request ∧
        (AsksIndex request ∨ AsksPublic files request ↔ handlerFor routes request = none) := by
  rw [StartsFirst, routerHandleRequest_eq, firstApplicable, LooksUp]
  by_cases hdiv : files = [] ∧ request.method = .get ∧ 46 ∈ request.uri
  · rw [if_pos hdiv]
    constructor
    · intro h
      cases h
    · intro h
      exact absurd hdiv.2 (h.1 hdiv.1)
  · have hlooks : files = [] → ¬ (request.method = .get ∧ 46 ∈ request.uri) :=
      fun hnil hdot => hdiv ⟨hnil, hdot⟩
    rw [if_neg hdiv, and_iff_right hlooks]
    by_cases hindex : AsksIndex request
    · have hpub : ¬ AsksPublic files request := not_asksPublic_of_asksIndex hindex
      cases handlerFor routes request <;> simp [hindex, hpub]
    · by_cases hpub : AsksPublic files request
      · cases handlerFor routes request <;> simp [hindex, hpub]
      · cases handlerFor routes request <;> simp [hindex, hpub]

/-- `GET /missing` starts nothing, although the 404 is what is left for it. -/
theorem nothing_started :
    (routerWith [indexName] ([] : List (Route ℕ))).bind
        (routerHandleRequest · ⟨.get, testName, .v1p1, []⟩) = some [] ∧
      firstApplicable [indexName] ([] : List (Route ℕ)) ⟨.get, testName, .v1p1, []⟩ =
        .notFound ∧
      ¬ StartsFirst [indexName] ([] : List (Route ℕ)) ⟨.get, testName, .v1p1, []⟩ := by
  have hnone : (routerWith [indexName] ([] : List (Route ℕ))).bind
      (routerHandleRequest · ⟨.get, testName, .v1p1, []⟩) = some [] := by decide +kernel
  refine ⟨hnone, by decide +kernel, fun hfirst => ?_⟩
  rw [StartsFirst, hnone] at hfirst
  simp at hfirst

end Cerverus.Dispatch
