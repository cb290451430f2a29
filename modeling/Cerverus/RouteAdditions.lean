import Cerverus.RouteTrie

/-!
# What an added route changes

A search that goes down one node for each segment of the URI keeps its path and its callback
when a route is added, unless the route ends at that path.
-/
namespace Cerverus.Routing

variable {κ : Type}

def textsOf (segs : List RouteSegment) : List Bytes := segs.map (·.pathSegment)

def addRoutes (routes : List (Route κ)) : HttpMethod → TrieNode κ :=
  routes.foldl trieAddRoute trieCreate

def walked : List Bytes → TrieNode κ → List Bytes
  | [], _ => []
  | s :: ss, root =>
    if root.children.isEmpty then walked ss root
    else
      match root.children.find? (childMatches s) with
      | none => []
      | some child => child.segment.pathSegment :: walked ss child

def WalksEach (ss : List Bytes) (n : TrieNode κ) : Prop := (walked ss n).length = ss.length

instance decidableWalksEach (ss : List Bytes) (n : TrieNode κ) : Decidable (WalksEach ss n) :=
  inferInstanceAs (Decidable (_ = _))

/-- The children of every node have the property, as a list of segments. -/
inductive Everywhere (P : List RouteSegment → Prop) : TrieNode κ → Prop
  | node {n : TrieNode κ} : P (n.children.map (·.segment)) →
      (∀ c ∈ n.children, Everywhere P c) → Everywhere P n

def DistinctTexts (segs : List RouteSegment) : Prop := (textsOf segs).Nodup

def Static (segs : List RouteSegment) : Prop := ∀ seg ∈ segs, seg.isDynamic = false

/-! ## Changing one child -/

section
variable {text : Bytes} {f : TrieNode κ → TrieNode κ} {cs cs' : List (TrieNode κ)}

theorem updateChild_eq_some (h : updateChild text f cs = some cs') :
    ∃ as c bs, cs = as ++ c :: bs ∧ (∀ a ∈ as, text ≠ a.segment.pathSegment) ∧
      text = c.segment.pathSegment ∧ cs' = as ++ f c :: bs := by
  induction cs generalizing cs' with
  | nil => cases h
  | cons c cs ih =>
    rw [updateChild] at h
    split_ifs at h with htext
    · cases h
      exact ⟨[], c, cs, rfl, by simp, htext, rfl⟩
    · obtain ⟨ds, hds, hcs'⟩ := Option.map_eq_some_iff.mp h
      obtain ⟨as, d, bs, hcs, has, hd, heq⟩ := ih hds
      subst hcs' hcs heq
      exact ⟨c :: as, d, bs, rfl, List.forall_mem_cons.mpr ⟨htext, has⟩, hd, rfl⟩

theorem updateChild_eq_none (h : updateChild text f cs = none) :
    text ∉ textsOf (cs.map (·.segment)) := by
  induction cs with
  | nil => exact List.not_mem_nil
  | cons c cs ih =>
    rw [updateChild] at h
    split_ifs at h with htext
    have hrest := ih (Option.map_eq_none_iff.mp h)
    simp only [textsOf, List.map_cons, List.mem_cons, not_or]
    exact ⟨htext, hrest⟩

theorem updateChild_segments (hf : ∀ c, (f c).segment = c.segment)
    (h : updateChild text f cs = some cs') : cs'.map (·.segment) = cs.map (·.segment) := by
  obtain ⟨as, c, bs, rfl, _, _, rfl⟩ := updateChild_eq_some h
  simp [hf]

theorem mem_updateChild (h : updateChild text f cs = some cs') {c' : TrieNode κ}
    (hc' : c' ∈ cs') : ∃ c ∈ cs, c' = c ∨ c' = f c := by
  obtain ⟨as, c, bs, rfl, _, _, rfl⟩ := updateChild_eq_some h
  rcases List.mem_append.mp hc' with has | hcons
  · exact ⟨c', List.mem_append_left _ has, Or.inl rfl⟩
  · rcases List.mem_cons.mp hcons with rfl | hbs
    · exact ⟨c, by simp, Or.inr rfl⟩
    · exact ⟨c', by simp [hbs], Or.inl rfl⟩

theorem mem_texts {c : TrieNode κ} (h : c ∈ cs) :
    c.segment.pathSegment ∈ textsOf (cs.map (·.segment)) :=
  List.mem_map_of_mem (List.mem_map_of_mem h)

theorem childMatches_congr {c d : TrieNode κ} (h : c.segment = d.segment) (s : Bytes) :
    childMatches s c = childMatches s d := by
  rw [childMatches, childMatches, h]

/-- The child a segment leads to is found in its old place, changed or not. -/
theorem updateChild_find (hf : ∀ c, (f c).segment = c.segment)
    (hnd : DistinctTexts (cs.map (·.segment))) (h : updateChild text f cs = some cs')
    {s : Bytes} {child : TrieNode κ} (hfind : cs.find? (childMatches s) = some child) :
    cs'.find? (childMatches s) =
      some (if text = child.segment.pathSegment then f child else child) := by
  obtain ⟨as, c, bs, rfl, has, htext, rfl⟩ := updateChild_eq_some h
  rw [List.find?_append] at hfind ⊢
  cases hbefore : as.find? (childMatches s) with
  | some a =>
    rw [hbefore] at hfind
    cases hfind
    rw [if_neg (has _ (List.mem_of_find?_eq_some hbefore))]
    rfl
  | none =>
    rw [hbefore, Option.none_or, List.find?_cons] at hfind
    rw [Option.none_or, List.find?_cons, childMatches_congr (hf c)]
    cases hc : childMatches s c with
    | true =>
      rw [hc] at hfind
      cases hfind
      rw [if_pos htext]
    | false =>
      rw [hc] at hfind
      -- a later child has another text
      have hne : text ≠ child.segment.pathSegment := by
        intro heq
        have hmem := mem_texts (List.mem_of_find?_eq_some hfind)
        rw [DistinctTexts, textsOf, List.map_append, List.map_append] at hnd
        have hnot := (List.nodup_cons.mp (List.Nodup.of_append_right hnd)).1
        rw [← heq, htext] at hmem
        exact hnot hmem
      rw [if_neg hne]
      exact hfind

theorem updateChild_find_self (hf : ∀ c, (f c).segment = c.segment)
    (hst : Static (cs.map (·.segment))) (h : updateChild text f cs = some cs') :
    ∃ c ∈ cs, text = c.segment.pathSegment ∧
      cs'.find? (childMatches text) = some (f c) := by
  obtain ⟨as, c, bs, rfl, has, htext, rfl⟩ := updateChild_eq_some h
  have hbefore : as.find? (childMatches text) = none := by
    rw [List.find?_eq_none]
    intro a ha
    have hstatic : a.segment.isDynamic = false := hst _ (by simp [List.mem_map_of_mem ha])
    simp [childMatches, has a ha, hstatic]
  refine ⟨c, by simp, htext, ?_⟩
  rw [List.find?_append, hbefore, Option.none_or]
  exact List.find?_cons_of_pos (by simp [childMatches, hf, htext])

end

/-! ## One addition -/

section
variable {n : TrieNode κ} {callback : Option κ} {seg : RouteSegment} {segs : List RouteSegment}

theorem addSegments_cons (callback : Option κ) (seg : RouteSegment) (segs : List RouteSegment)
    (n : TrieNode κ) :
    (∃ cs, updateChild seg.pathSegment (addSegments callback segs) n.children = some cs ∧
        addSegments callback (seg :: segs) n = { n with children := cs }) ∨
      seg.pathSegment ∉ textsOf (n.children.map (·.segment)) ∧
        addSegments callback (seg :: segs) n =
          { n with
            children := n.children ++ [addSegments callback segs (trieNodeCreate seg)] } := by
  rw [addSegments]
  cases h : updateChild seg.pathSegment (addSegments callback segs) n.children with
  | some cs => exact Or.inl ⟨cs, rfl, rfl⟩
  | none => exact Or.inr ⟨updateChild_eq_none h, rfl⟩

theorem everywhere_addSegments {P : List RouteSegment → Prop} {R : RouteSegment → Prop}
    (hnil : P []) (hsnoc : ∀ l seg, R seg → P l → seg.pathSegment ∉ textsOf l → P (l ++ [seg]))
    (hsegs : ∀ seg ∈ segs, R seg) (h : Everywhere P n) :
    Everywhere P (addSegments callback segs n) := by
  induction segs generalizing n with
  | nil =>
    obtain ⟨hhere, hbelow⟩ := h
    exact .node hhere hbelow
  | cons seg segs ih =>
    obtain ⟨hseg, hsegs⟩ := List.forall_mem_cons.mp hsegs
    obtain ⟨hhere, hbelow⟩ := h
    rcases addSegments_cons callback seg segs n with ⟨cs, hcs, heq⟩ | ⟨hnew, heq⟩
    · rw [heq]
      refine .node ?_ ?_
      · rw [updateChild_segments (addSegments_segment callback segs) hcs]
        exact hhere
      · intro c' hc'
        obtain ⟨c, hc, hor⟩ := mem_updateChild hcs hc'
        rcases hor with rfl | rfl
        · exact hbelow _ hc
        · exact ih hsegs (hbelow c hc)
    · rw [heq]
      refine .node ?_ ?_
      · rw [List.map_append, List.map_singleton, addSegments_segment]
        exact hsnoc _ seg hseg hhere hnew
      · intro c hc
        rcases List.mem_append.mp hc with hc | hc
        · exact hbelow c hc
        · rw [List.mem_singleton.mp hc]
          refine ih hsegs (.node hnil ?_)
          intro c hc
          cases hc

theorem distinctTexts_addSegments (h : Everywhere DistinctTexts n) :
    Everywhere DistinctTexts (addSegments callback segs n) := by
  refine everywhere_addSegments (R := fun _ => True) List.nodup_nil ?_ (fun _ _ => trivial) h
  intro l seg _ hl hnew
  rw [DistinctTexts, textsOf, List.map_append, List.map_singleton, List.nodup_append]
  refine ⟨hl, List.nodup_singleton _, fun a ha b hb heq => ?_⟩
  subst heq
  exact hnew (List.mem_singleton.mp hb ▸ ha)

theorem static_addSegments (hsegs : Static segs) (h : Everywhere Static n) :
    Everywhere Static (addSegments callback segs n) := by
  refine everywhere_addSegments (by simp [Static]) ?_ hsegs h
  intro l seg hseg hl _ seg' hmem
  rcases List.mem_append.mp hmem with hmem | hmem
  · exact hl seg' hmem
  · rw [List.mem_singleton.mp hmem]
    exact hseg

theorem addSegments_find (callback : Option κ) (seg : RouteSegment) (segs : List RouteSegment)
    (hnd : DistinctTexts (n.children.map (·.segment))) {s : Bytes} {child : TrieNode κ}
    (hfind : n.children.find? (childMatches s) = some child) :
    (addSegments callback (seg :: segs) n).children.find? (childMatches s) =
      some (if seg.pathSegment = child.segment.pathSegment then addSegments callback segs child
        else child) := by
  rcases addSegments_cons callback seg segs n with ⟨cs, hcs, heq⟩ | ⟨hnew, heq⟩
  · rw [heq]
    exact updateChild_find (addSegments_segment callback segs) hnd hcs hfind
  · have hne : seg.pathSegment ≠ child.segment.pathSegment := by
      intro h
      exact hnew (h ▸ mem_texts (List.mem_of_find?_eq_some hfind))
    rw [heq, List.find?_append, hfind, if_neg hne]
    rfl

theorem addSegments_find_self (callback : Option κ) (seg : RouteSegment)
    (segs : List RouteSegment) (hst : Static (n.children.map (·.segment))) :
    ∃ c, (addSegments callback (seg :: segs) n).children.find? (childMatches seg.pathSegment) =
        some (addSegments callback segs c) ∧ c.segment.pathSegment = seg.pathSegment ∧
      (c ∈ n.children ∨ c = trieNodeCreate seg) := by
  rcases addSegments_cons callback seg segs n with ⟨cs, hcs, heq⟩ | ⟨hnew, heq⟩
  · obtain ⟨c, hc, htext, hfind⟩ :=
      updateChild_find_self (addSegments_segment callback segs) hst hcs
    rw [heq]
    exact ⟨c, hfind, htext.symm, Or.inl hc⟩
  · have hold : n.children.find? (childMatches seg.pathSegment) = none := by
      rw [List.find?_eq_none]
      intro c hc hmatch
      have hstatic : c.segment.isDynamic = false := hst _ (List.mem_map_of_mem hc)
      rw [childMatches, hstatic, Bool.or_false, beq_iff_eq] at hmatch
      exact hnew (hmatch ▸ mem_texts hc)
    refine ⟨trieNodeCreate seg, ?_, rfl, Or.inr rfl⟩
    rw [heq, List.find?_append, hold, Option.none_or]
    simp [childMatches, addSegments_segment, trieNodeCreate]

end

/-! ## Searching after an addition -/

section
variable {n : TrieNode κ} {s : Bytes} {ss : List Bytes}

theorem walked_length (ss : List Bytes) (n : TrieNode κ) : (walked ss n).length ≤ ss.length := by
  induction ss generalizing n with
  | nil => exact Nat.le_refl 0
  | cons s ss ih =>
    rw [walked]
    split_ifs with hleaf
    · exact (ih n).trans (Nat.le_succ _)
    · cases n.children.find? (childMatches s) with
      | none => exact Nat.zero_le _
      | some child => exact Nat.succ_le_succ (ih child)

theorem walked_of_find {child : TrieNode κ}
    (hfind : n.children.find? (childMatches s) = some child) :
    walked (s :: ss) n = child.segment.pathSegment :: walked ss child := by
  have hmem := List.mem_of_find?_eq_some hfind
  rw [walked, if_neg (by simpa using List.ne_nil_of_mem hmem), hfind]

theorem findSegments_of_find {child : TrieNode κ}
    (hfind : n.children.find? (childMatches s) = some child) :
    findSegments (s :: ss) n = findSegments ss child := by
  have hmem := List.mem_of_find?_eq_some hfind
  rw [findSegments, if_neg (by simpa using List.ne_nil_of_mem hmem), hfind]

theorem walksEach_cons (h : WalksEach (s :: ss) n) :
    ∃ child, n.children.find? (childMatches s) = some child ∧ WalksEach ss child := by
  rw [WalksEach, walked] at h
  split_ifs at h with hleaf
  · have hle := walked_length ss n
    rw [h] at hle
    exact absurd hle (Nat.not_succ_le_self _)
  · cases hfind : n.children.find? (childMatches s) with
    | none =>
      rw [hfind] at h
      cases h
    | some child =>
      rw [hfind] at h
      exact ⟨child, rfl, Nat.succ.inj h⟩

variable {callback : Option κ} {segs : List RouteSegment}

/-- A search that goes down one node for each segment goes down the same nodes after an
addition, and its callback changes only if the route ends there. -/
theorem addSegments_frame (hnd : Everywhere DistinctTexts n) (h : WalksEach ss n) :
    walked ss (addSegments callback segs n) = walked ss n ∧
      findSegments ss (addSegments callback segs n) =
        if textsOf segs = walked ss n then callback else findSegments ss n := by
  induction ss generalizing n segs with
  | nil =>
    cases segs with
    | nil => exact ⟨rfl, rfl⟩
    | cons seg segs =>
      refine ⟨rfl, ?_⟩
      rw [if_neg (by simp [textsOf, walked])]
      rcases addSegments_cons callback seg segs n with ⟨cs, _, heq⟩ | ⟨_, heq⟩ <;>
        rw [heq, findSegments, findSegments]
  | cons s ss ih =>
    obtain ⟨child, hfind, hrest⟩ := walksEach_cons h
    obtain ⟨hhere, hbelow⟩ := hnd
    have hchild := hbelow child (List.mem_of_find?_eq_some hfind)
    rw [walked_of_find hfind, findSegments_of_find hfind]
    cases segs with
    | nil =>
      have hsame : (addSegments callback [] n).children.find? (childMatches s) = some child := hfind
      rw [walked_of_find hsame, findSegments_of_find hsame]
      exact ⟨rfl, (if_neg (by simp [textsOf])).symm⟩
    | cons seg segs =>
      have hafter := addSegments_find callback seg segs hhere hfind
      rw [walked_of_find hafter, findSegments_of_find hafter]
      by_cases htext : seg.pathSegment = child.segment.pathSegment
      · obtain ⟨hwalked, hvalue⟩ := @ih child segs hchild hrest
        have hiff : textsOf (seg :: segs) = child.segment.pathSegment :: walked ss child ↔
            textsOf segs = walked ss child := by
          simp [textsOf, htext]
        simp only [if_pos htext, addSegments_segment, hwalked, hvalue, hiff, true_and]
      · simp only [if_neg htext, true_and]
        rw [if_neg]
        simp [textsOf, htext]

theorem addSegments_found (hst : Everywhere Static n) :
    walked (textsOf segs) (addSegments callback segs n) = textsOf segs ∧
      findSegments (textsOf segs) (addSegments callback segs n) = callback := by
  induction segs generalizing n with
  | nil => exact ⟨rfl, rfl⟩
  | cons seg segs ih =>
    obtain ⟨hhere, hbelow⟩ := hst
    obtain ⟨c, hfind, htext, hc⟩ := addSegments_find_self callback seg segs hhere
    have hchild : Everywhere Static c := by
      rcases hc with hc | rfl
      · exact hbelow c hc
      · exact .node (by simp [Static, trieNodeCreate]) (by simp [trieNodeCreate])
    obtain ⟨hwalked, hvalue⟩ := ih hchild
    simp only [textsOf, List.map_cons] at hwalked hvalue ⊢
    rw [walked_of_find hfind, findSegments_of_find hfind, addSegments_segment, htext, hwalked,
      hvalue]
    exact ⟨rfl, rfl⟩

end

/-! ## Sequences of additions -/

section
variable {routes : List (Route κ)}

theorem addRoutes_snoc (routes : List (Route κ)) (rt : Route κ) :
    addRoutes (routes ++ [rt]) = trieAddRoute (addRoutes routes) rt := by
  simp [addRoutes]

theorem everywhere_addRoutes {P : List RouteSegment → Prop} (hnil : P [])
    (hadd : ∀ rt ∈ routes, ∀ n : TrieNode κ, Everywhere P n →
      Everywhere P (addSegments rt.callback rt.segments n)) (m : HttpMethod) :
    Everywhere P (addRoutes routes m) := by
  induction routes using List.reverseRecOn generalizing m with
  | nil => exact .node hnil (by simp [addRoutes, trieCreate, trieNodeCreate])
  | append_singleton routes rt ih =>
    have hold := ih fun rt' hrt' => hadd rt' (List.mem_append_left _ hrt')
    rw [addRoutes_snoc, trieAddRoute]
    by_cases hm : m = rt.method
    · subst hm
      rw [Function.update_self]
      exact hadd rt (by simp) _ (hold _)
    · rw [Function.update_of_ne hm]
      exact hold m

theorem distinctTexts_addRoutes (routes : List (Route κ)) (m : HttpMethod) :
    Everywhere DistinctTexts (addRoutes routes m) :=
  everywhere_addRoutes (P := DistinctTexts) List.nodup_nil
    (fun _ _ _ h => distinctTexts_addSegments h) m

theorem static_addRoutes (hst : ∀ rt ∈ routes, Static rt.segments) (m : HttpMethod) :
    Everywhere Static (addRoutes routes m) :=
  everywhere_addRoutes (by simp [Static]) (fun rt hrt _ => static_addSegments (hst rt hrt)) m

def RunsTo (m : HttpMethod) (ss : List Bytes) (rt : Route κ) : Prop :=
  rt.method = m ∧ textsOf rt.segments = ss

instance decidableRunsTo (m : HttpMethod) (ss : List Bytes) (rt : Route κ) :
    Decidable (RunsTo m ss rt) :=
  inferInstanceAs (Decidable (_ ∧ _))

/-- One more route leaves a full walk as it is, and its callback too unless it runs to its
end. -/
theorem trieAddRoute_walk {m : HttpMethod} {ss : List Bytes} (rt : Route κ)
    (h : WalksEach ss (addRoutes routes m)) :
    walked ss (trieAddRoute (addRoutes routes) rt m) = walked ss (addRoutes routes m) ∧
      findSegments ss (trieAddRoute (addRoutes routes) rt m) =
        if RunsTo m (walked ss (addRoutes routes m)) rt then rt.callback
        else findSegments ss (addRoutes routes m) := by
  rw [trieAddRoute]
  by_cases hm : m = rt.method
  · subst hm
    rw [Function.update_self]
    simpa [RunsTo] using addSegments_frame (distinctTexts_addRoutes routes _) h
  · rw [Function.update_of_ne hm]
    exact ⟨rfl, (if_neg fun hr => hm hr.1.symm).symm⟩

/-- Without dynamic segments, the path of a registered route is walked to its end, where the
callback is the one registered last. -/
theorem static_lookup {m : HttpMethod} {ss : List Bytes} {last : Route κ}
    (hst : ∀ rt ∈ routes, Static rt.segments)
    (hlast : (routes.filter fun rt => RunsTo m ss rt).getLast? = some last) :
    walked ss (addRoutes routes m) = ss ∧ findSegments ss (addRoutes routes m) = last.callback := by
  induction routes using List.reverseRecOn with
  | nil => cases hlast
  | append_singleton routes rt ih =>
    have hold : ∀ rt' ∈ routes, Static rt'.segments :=
      fun rt' hrt' => hst rt' (List.mem_append_left _ hrt')
    rw [List.filter_append] at hlast
    rw [addRoutes_snoc]
    by_cases hr : RunsTo m ss rt
    · rw [List.filter_cons_of_pos (by simpa using hr)] at hlast
      simp only [List.filter_nil, List.getLast?_append, List.getLast?_singleton, Option.some_or,
        Option.some.injEq] at hlast
      subst hlast
      obtain ⟨hm, hss⟩ := hr
      subst hm
      subst hss
      rw [trieAddRoute, Function.update_self]
      exact addSegments_found (static_addRoutes hold _)
    · rw [List.filter_cons_of_neg (by simpa using hr), List.filter_nil, List.append_nil] at hlast
      obtain ⟨hwalked, hvalue⟩ := ih hold hlast
      have hfull : WalksEach ss (addRoutes routes m) := by rw [WalksEach, hwalked]
      obtain ⟨hwalked', hvalue'⟩ := trieAddRoute_walk rt hfull
      rw [hwalked] at hwalked' hvalue'
      rw [if_neg hr, hvalue] at hvalue'
      exact ⟨hwalked', hvalue'⟩

/-- An added route changes no other lookup that walks one node for each segment. Without
dynamic segments, a registered path finds what was registered for it last. The children of
every node keep distinct texts. -/
theorem trieAddRoute_frame (routes : List (Route κ)) :
    (∀ (m : HttpMethod) (uri : Bytes) (rt : Route κ),
      WalksEach (sdssplitlen uri 47) (addRoutes routes m) →
      trieFindHandler (trieAddRoute (addRoutes routes) rt) m uri =
        if RunsTo m (walked (sdssplitlen uri 47) (addRoutes routes m)) rt then rt.callback
        else trieFindHandler (addRoutes routes) m uri) ∧
    ((∀ rt ∈ routes, Static rt.segments) →
      ∀ (m : HttpMethod) (uri : Bytes) (last : Route κ),
        (routes.filter fun rt => RunsTo m (sdssplitlen uri 47) rt).getLast? = some last →
        trieFindHandler (addRoutes routes) m uri = last.callback) ∧
    ∀ m : HttpMethod, Everywhere DistinctTexts (addRoutes routes m) := by
  refine ⟨?_, ?_, distinctTexts_addRoutes routes⟩
  · intro m uri rt h
    exact (trieAddRoute_walk rt h).2
  · intro hst m uri last hlast
    exact (static_lookup hst hlast).2

/-- `/:a/x` still answers `/b/x` after `/b/x` is added; of two routes at `/x` the later one
answers. -/
theorem trieAddRoute_frame_dynamic :
    trieFindHandler (trieAddRoute (addRoutes [routeCreate .get [47, 58, 97, 47, 120] (some 0)])
        (routeCreate .get [47, 98, 47, 120] (some 1))) .get [47, 98, 47, 120] = some 0 ∧
      trieFindHandler (addRoutes [routeCreate .get [47, 120] (some 0),
        routeCreate .get [47, 120] (some 1)]) .get [47, 120] = some 1 :=
  ⟨(trieAddRoute_frame [routeCreate .get [47, 58, 97, 47, 120] (some 0)]).1 .get
      [47, 98, 47, 120] (routeCreate .get [47, 98, 47, 120] (some 1)) (by decide),
    (trieAddRoute_frame [routeCreate .get [47, 120] (some 0),
      routeCreate .get [47, 120] (some 1)]).2.1 (by simp only [Static]; decide) .get [47, 120]
      (routeCreate .get [47, 120] (some 1)) rfl⟩

end

end Cerverus.Routing
