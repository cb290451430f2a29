import Cerverus.RouteTrie

/-!
# Finding a handler

What `trie_find_handler` returns after any sequence of additions, in terms of the routes
alone.
-/
namespace Cerverus.Routing
open FirstMatch

variable {κ : Type}

structure Registration (κ : Type) where
  method : HttpMethod
  uri : Bytes
  callback : Option κ

def Registration.route (r : Registration κ) : Route κ := routeCreate r.method r.uri r.callback

def Registration.texts (r : Registration κ) : List Bytes := sdssplitlen r.uri 47

def trieOf (regs : List (Registration κ)) : HttpMethod → TrieNode κ :=
  (regs.map Registration.route).foldl trieAddRoute trieCreate

/-- As many segments as the URI, each dynamic or equal to the URI's. -/
def MatchesUri (rt : Route κ) (uri : Bytes) : Prop :=
  List.Forall₂ (fun (seg : RouteSegment) s => seg.isDynamic = true ∨ seg.pathSegment = s)
    rt.segments (sdssplitlen uri 47)

instance decidableMatchesUri (rt : Route κ) (uri : Bytes) : Decidable (MatchesUri rt uri) :=
  inferInstanceAs (Decidable (List.Forall₂ _ _ _))

def segMatches (text s : Bytes) : Bool := s == text || (segmentOf text).isDynamic

def tableOf (m : HttpMethod) (regs : List (Registration κ)) : Table Bytes κ :=
  (regs.filter (·.method = m)).map fun r => (r.texts, r.callback)

theorem trieOf_eq (regs : List (Registration κ)) (m : HttpMethod) :
    trieOf regs m = nodeOf rootSegment (tableOf m regs) := by
  induction regs using List.reverseRecOn with
  | nil => rfl
  | append_singleton regs r ih =>
    rw [trieOf] at ih
    rw [trieOf, List.map_append, List.foldl_append, tableOf, List.filter_append]
    by_cases hm : r.method = m
    · subst hm
      simp only [List.map_cons, List.map_nil, List.foldl_cons, List.foldl_nil, trieAddRoute,
        Registration.route, routeCreate, Function.update_self]
      rw [List.filter_cons_of_pos (by simp), List.map_append, List.filter_nil, List.map_singleton,
        ← tableOf, nodeOf_snoc, ← ih]
      rfl
    · simp only [List.map_cons, List.map_nil, List.foldl_cons, List.foldl_nil, trieAddRoute,
        Registration.route, routeCreate]
      rw [Function.update_of_ne (Ne.symm hm), ih, List.filter_cons_of_neg (by simpa using hm)]
      simp [tableOf]

theorem findSegments_leaf {n : TrieNode κ} (h : n.children = []) (ss : List Bytes) :
    findSegments ss n = n.callback := by
  induction ss with
  | nil => rfl
  | cons s ss ih => simp [findSegments, h, ih]

/-- The search goes down by first matches until the URI or the routes give out. -/
theorem findSegments_eq_some {seg : RouteSegment} {rs : Table Bytes κ} {ss : List Bytes} {c : κ} :
    findSegments ss (nodeOf seg rs) = some c ↔
      ∃ p, FirstMatches segMatches rs p ss ∧
        (p.length = ss.length ∨ nextKeys (under p rs) = []) ∧ valueHere (under p rs) = some c := by
  induction ss generalizing seg rs with
  | nil =>
    rw [findSegments, nodeOf_callback]
    constructor
    · intro h
      exact ⟨[], trivial, Or.inl rfl, h⟩
    · intro hex
      obtain ⟨p, hp, _, h⟩ := hex
      cases p with
      | nil => exact h
      | cons t p => cases hp
  | cons s ss ih =>
    by_cases hleaf : nextKeys rs = []
    · rw [findSegments_leaf (by simp [nodeOf_children, hleaf]), nodeOf_callback]
      constructor
      · intro h
        exact ⟨[], trivial, Or.inr hleaf, h⟩
      · intro hex
        obtain ⟨p, hp, _, h⟩ := hex
        cases p with
        | nil => exact h
        | cons t p => simp [FirstMatches, hleaf] at hp
    · have hfind : (nodeOf seg rs).children.find? (childMatches s) =
          ((nextKeys rs).find? (segMatches · s)).map fun t =>
            nodeOf (segmentOf t) (below t rs) := by
        rw [nodeOf_children, List.find?_map]
        congr 2
        funext t
        simp [childMatches, segMatches, nodeOf_segment, segmentOf]
      rw [findSegments, if_neg (by simpa [nodeOf_children] using hleaf), hfind]
      cases hnext : (nextKeys rs).find? (segMatches · s) with
      | none =>
        simp only [Option.map_none, reduceCtorEq, false_iff]
        intro hex
        obtain ⟨p, hp, hend, _⟩ := hex
        cases p with
        | nil => simp [under, hleaf] at hend
        | cons t p => simp [FirstMatches, hnext] at hp
      | some t =>
        simp only [Option.map_some, ih]
        constructor
        · intro hex
          obtain ⟨p, hp, hend, h⟩ := hex
          exact ⟨t :: p, ⟨hnext, hp⟩, by simpa [under] using hend, h⟩
        · intro hex
          obtain ⟨p, hp, hend, h⟩ := hex
          cases p with
          | nil => simp [under, hleaf] at hend
          | cons u p =>
            obtain ⟨hu, hp⟩ := hp
            rw [hnext] at hu
            cases hu
            exact ⟨p, hp, by simpa [under] using hend, h⟩

section
variable {regs : List (Registration κ)} {m : HttpMethod} {uri : Bytes}

theorem mem_tableOf {p : List Bytes} {v : Option κ} :
    (p, v) ∈ tableOf m regs ↔ ∃ r ∈ regs, r.method = m ∧ r.texts = p ∧ r.callback = v := by
  simp [tableOf, and_assoc]

theorem matchesUri_iff {r : Registration κ} :
    MatchesUri r.route uri ↔
      List.Forall₂ (fun t s => segMatches t s = true) r.texts (sdssplitlen uri 47) := by
  rw [MatchesUri, Registration.route, routeCreate, List.forall₂_map_left_iff]
  have hseg : ∀ t s : Bytes, ((segmentOf t).isDynamic = true ∨ (segmentOf t).pathSegment = s) ↔
      segMatches t s = true := by
    intro t s
    simp only [segMatches, Bool.or_eq_true, beq_iff_eq, eq_comm (a := s)]
    exact or_comm
  simp only [hseg, Registration.texts]

/-- A first-match path that ends before the URI does, where nothing goes on from it, and the
callback bound there. -/
structure StopsShort (m : HttpMethod) (regs : List (Registration κ)) (uri : Bytes)
    (p : List Bytes) (c : κ) : Prop where
  first : FirstMatches segMatches (tableOf m regs) p (sdssplitlen uri 47)
  short : p.length < (sdssplitlen uri 47).length
  leaf : nextKeys (under p (tableOf m regs)) = []
  callback : valueHere (under p (tableOf m regs)) = some c

def Sound (m : HttpMethod) (regs : List (Registration κ)) (uri : Bytes) (c : κ) : Prop :=
  ∃ r ∈ regs, r.method = m ∧ r.callback = some c ∧ MatchesUri r.route uri

theorem StopsShort.found {p : List Bytes} {c : κ} (h : StopsShort m regs uri p c) :
    trieFindHandler (trieOf regs) m uri = some c := by
  rw [trieFindHandler, trieOf_eq, findSegments_eq_some]
  exact ⟨p, h.first, Or.inr h.leaf, h.callback⟩

/-- A path as long as the URI is that of a matching route. -/
theorem sound_or_stopsShort {c : κ} (h : trieFindHandler (trieOf regs) m uri = some c) :
    Sound m regs uri c ∨ ∃ p, StopsShort m regs uri p c := by
  rw [trieFindHandler, trieOf_eq, findSegments_eq_some] at h
  obtain ⟨p, hp, hend, hc⟩ := h
  by_cases hlen : p.length = (sdssplitlen uri 47).length
  · obtain ⟨r, hr, hm, htexts, hcb⟩ := mem_tableOf.mp (mem_under.mp (mem_of_valueHere hc))
    rw [List.append_nil] at htexts
    exact Or.inl ⟨r, hr, hm, hcb, matchesUri_iff.mpr (htexts ▸ firstMatches_forall₂ hp hlen)⟩
  · exact Or.inr ⟨p, hp, lt_of_le_of_ne (firstMatches_length hp) hlen, hend.resolve_left hlen, hc⟩

/-- The callback found belongs to a matching route, exactly when that is so of the callback at
the end of a path that stops short of the URI. -/
theorem sound_iff_stopsShort (m : HttpMethod) (regs : List (Registration κ)) (uri : Bytes) :
    (∀ c, trieFindHandler (trieOf regs) m uri = some c → Sound m regs uri c) ↔
      ∀ p c, StopsShort m regs uri p c → Sound m regs uri c := by
  constructor
  · intro h p c hp
    exact h c hp.found
  · intro h c hfound
    rcases sound_or_stopsShort hfound with hsound | ⟨p, hp⟩
    · exact hsound
    · exact h p c hp

/-- Where no path that stops short of the URI has a callback, every callback found belongs to a
matching route. -/
theorem sound_of_noneStopsShort (h : ∀ p c, ¬ StopsShort m regs uri p c) {c : κ}
    (hfound : trieFindHandler (trieOf regs) m uri = some c) : Sound m regs uri c :=
  (sound_or_stopsShort hfound).resolve_right fun hex => hex.elim fun p hp => h p c hp

/-- So it is if no route of the method has fewer segments than the URI. -/
theorem sound_of_longRoutes
    (h : ∀ r ∈ regs, r.method = m → (sdssplitlen uri 47).length ≤ r.texts.length) {c : κ}
    (hfound : trieFindHandler (trieOf regs) m uri = some c) : Sound m regs uri c := by
  refine sound_of_noneStopsShort (fun p c hp => ?_) hfound
  obtain ⟨r, hr, hm, htexts, _⟩ :=
    mem_tableOf.mp (mem_under.mp (mem_of_valueHere hp.callback))
  rw [List.append_nil] at htexts
  exact absurd (htexts ▸ h r hr hm) (not_le.mpr hp.short)

/-- A path with nothing below it also answers for every longer URI. -/
theorem unsound_beyond_leaf :
    trieFindHandler (trieOf [⟨.get, [47, 116], some 0⟩]) .get [47, 116, 47, 117] = some 0 ∧
      ¬ Sound .get [⟨.get, [47, 116], some 0⟩] [47, 116, 47, 117] 0 := by
  refine ⟨by decide, ?_⟩
  intro hex
  obtain ⟨r, hr, _, _, hmatch⟩ := hex
  rw [List.mem_singleton] at hr
  subst hr
  exact absurd hmatch.length_eq (by decide)

/-- A route that matches, and is the first match at each of its segments, is found, if it was
the last to be added with its segments. -/
theorem found_of_firstMatches {as bs : List (Registration κ)} {r : Registration κ}
    (hm : r.method = m) (hmatch : MatchesUri r.route uri)
    (hlast : ∀ b ∈ bs, b.method = m → b.texts ≠ r.texts)
    (hfirst : FirstMatches segMatches (tableOf m (as ++ r :: bs)) r.texts (sdssplitlen uri 47)) :
    trieFindHandler (trieOf (as ++ r :: bs)) m uri = r.callback := by
  have hlen : r.texts.length = (sdssplitlen uri 47).length :=
    (matchesUri_iff.mp hmatch).length_eq
  have hvalue : valueHere (under r.texts (tableOf m (as ++ r :: bs))) = r.callback := by
    have htable : tableOf m (as ++ r :: bs) =
        tableOf m as ++ (r.texts, r.callback) :: tableOf m bs := by
      simp [tableOf, hm]
    rw [htable]
    apply valueHere_under_last
    intro hex he hp
    obtain ⟨p, v⟩ := hex
    obtain ⟨b, hb, hbm, hbt, _⟩ := mem_tableOf.mp he
    exact hlast b hb hbm (hbt.trans hp)
  apply Option.ext
  intro c
  rw [trieFindHandler, trieOf_eq, findSegments_eq_some, ← hvalue]
  constructor
  · intro hex
    obtain ⟨p, hp, hend, hc⟩ := hex
    obtain ⟨q, hq⟩ := firstMatches_isPrefix hp hfirst (hlen ▸ firstMatches_length hp)
    cases q with
    | nil => rwa [← hq, List.append_nil]
    | cons t q =>
      rcases hend with hend | hleaf
      · simp [← hq, ← hend] at hlen
      · have hmem : (t :: q, r.callback) ∈ under p (tableOf m (as ++ r :: bs)) :=
          mem_under.mpr (mem_tableOf.mpr ⟨r, by simp, hm, hq.symm, rfl⟩)
        have hnext := mem_nextKeys.mpr ⟨q, _, hmem⟩
        rw [hleaf] at hnext
        cases hnext
  · intro hc
    exact ⟨r.texts, hfirst, Or.inl hlen, hc⟩

theorem found_dynamic_first :
    trieFindHandler (trieOf ([] ++ ⟨.get, [47, 58, 97, 47, 120], some 0⟩ ::
      [⟨.get, [47, 98, 47, 121], some 1⟩])) .get [47, 98, 47, 120] = some 0 :=
  found_of_firstMatches rfl (by decide) (by decide) (by decide)

/-- A dynamic segment added first hides a static route that matches. -/
theorem hidden_by_dynamic :
    trieFindHandler (trieOf [⟨.get, [47, 58, 97, 47, 120], some 0⟩,
        ⟨.get, [47, 98, 47, 121], some 1⟩]) .get [47, 98, 47, 121] = none ∧
      MatchesUri (routeCreate .get [47, 98, 47, 121] (some 1)) [47, 98, 47, 121] :=
  ⟨by decide, by decide⟩

end

end Cerverus.Routing
