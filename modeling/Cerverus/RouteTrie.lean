import Cerverus.FirstMatch
import Cerverus.NetworkTypes

/-!
# The route trie

One tree of segments for each method. `trieOf_eq` says what tree a sequence of additions
builds: below each text, the tree of the routes that go on from that text.
-/
namespace Cerverus.Routing
open FirstMatch

variable {κ : Type}

def segmentOf (text : Bytes) : RouteSegment := ⟨text, text.head? == some 58⟩

def routeCreate (method : HttpMethod) (uri : Bytes) (callback : Option κ) : Route κ :=
  { segments := (sdssplitlen uri 47).map segmentOf, method := method, callback := callback }

/-- A node with no children and no callback, as `trie_node_create` and `trie_add_route` make
them. -/
def trieNodeCreate (segment : RouteSegment) : TrieNode κ :=
  { children := [], segment := segment, callback := none }

/-- The segment of a root is never read. -/
def rootSegment : RouteSegment := ⟨[], false⟩

def trieCreate : HttpMethod → TrieNode κ := fun _ => trieNodeCreate rootSegment

/-- Change the first child with the text; `none` when there is none. -/
def updateChild (text : Bytes) (f : TrieNode κ → TrieNode κ) :
    List (TrieNode κ) → Option (List (TrieNode κ))
  | [] => none
  | c :: cs =>
    if text = c.segment.pathSegment then some (f c :: cs)
    else (updateChild text f cs).map (c :: ·)

/-- The loop of `trie_add_route`, from the node `current`. -/
def addSegments (callback : Option κ) : List RouteSegment → TrieNode κ → TrieNode κ
  | [], current => { current with callback := callback }
  | seg :: segs, current =>
    match updateChild seg.pathSegment (addSegments callback segs) current.children with
    | some children => { current with children := children }
    | none =>
      { current with
        children := current.children ++ [addSegments callback segs (trieNodeCreate seg)] }

def trieAddRoute (t : HttpMethod → TrieNode κ) (rt : Route κ) : HttpMethod → TrieNode κ :=
  Function.update t rt.method (addSegments rt.callback rt.segments (t rt.method))

/-- A static match, or a dynamic "match". -/
def childMatches (s : Bytes) (c : TrieNode κ) : Bool :=
  s == c.segment.pathSegment || c.segment.isDynamic

/-- The loops of `trie_find_handler`: with no children the inner loop does nothing, and the
next segment is looked up at the same node. -/
def findSegments : List Bytes → TrieNode κ → Option κ
  | [], root => root.callback
  | s :: ss, root =>
    if root.children.isEmpty then findSegments ss root
    else
      match root.children.find? (childMatches s) with
      | none => none
      | some child => findSegments ss child

def trieFindHandler (t : HttpMethod → TrieNode κ) (method : HttpMethod) (uri : Bytes) :
    Option κ :=
  findSegments (sdssplitlen uri 47) (t method)

/-! ## The tree of a table -/

def addEntry (n : TrieNode κ) (r : List Bytes × Option κ) : TrieNode κ :=
  addSegments r.2 (r.1.map segmentOf) n

/-- The node grown from a new node by adding the entries in order. -/
def nodeOf (segment : RouteSegment) (rs : Table Bytes κ) : TrieNode κ :=
  rs.foldl addEntry (trieNodeCreate segment)

theorem nodeOf_snoc (segment : RouteSegment) (rs : Table Bytes κ) (r : List Bytes × Option κ) :
    nodeOf segment (rs ++ [r]) = addEntry (nodeOf segment rs) r := by
  simp [nodeOf]

theorem addSegments_segment (callback : Option κ) (segs : List RouteSegment) (n : TrieNode κ) :
    (addSegments callback segs n).segment = n.segment := by
  cases segs with
  | nil => rfl
  | cons seg segs =>
    rw [addSegments]
    split <;> rfl

theorem nodeOf_segment (segment : RouteSegment) (rs : Table Bytes κ) :
    (nodeOf segment rs).segment = segment := by
  induction rs using List.reverseRecOn with
  | nil => rfl
  | append_singleton rs r ih => rw [nodeOf_snoc, addEntry, addSegments_segment, ih]

theorem updateChild_map {f : TrieNode κ → TrieNode κ} {g : Bytes → TrieNode κ}
    (hg : ∀ t, (g t).segment.pathSegment = t) (text : Bytes) {ts : List Bytes}
    (hnd : ts.Nodup) :
    updateChild text f (ts.map g) =
      if text ∈ ts then some (ts.map fun t => if t = text then f (g t) else g t) else none := by
  induction ts with
  | nil => rfl
  | cons t ts ih =>
    obtain ⟨hnot, hnd⟩ := List.nodup_cons.mp hnd
    rw [List.map_cons, updateChild, hg]
    by_cases ht : text = t
    · subst ht
      have hsame : ∀ u ∈ ts, (if u = text then f (g u) else g u) = g u := by
        intro u hu
        rw [if_neg]
        intro heq
        subst heq
        exact hnot hu
      simp [List.map_congr_left hsame]
    · rw [if_neg ht, ih hnd]
      by_cases hmem : text ∈ ts
      · simp [hmem, Ne.symm ht]
      · simp [hmem, ht]

/-- What the additions build: the value bound here, and below each text the node of the
entries that go on from it. -/
theorem nodeOf_eq (segment : RouteSegment) (rs : Table Bytes κ) :
    nodeOf segment rs =
      { children := (nextKeys rs).map fun t => nodeOf (segmentOf t) (below t rs)
        segment := segment
        callback := valueHere rs } := by
  induction rs using List.reverseRecOn with
  | nil => rfl
  | append_singleton rs r ih =>
    obtain ⟨p, v⟩ := r
    rw [nodeOf_snoc, ih]
    cases p with
    | nil =>
      have hbelow : ∀ t, below t (rs ++ [([], v)]) = below t rs := fun t => by
        simp [below_snoc, strip]
      simp [addEntry, addSegments, nextKeys_snoc, addKey, valueHere_snoc, hbelow]
    | cons u p =>
      have hothers : ∀ t, t ≠ u → below t (rs ++ [(u :: p, v)]) = below t rs := fun t ht => by
        simp [below_snoc, strip, ht.symm]
      have hself : below u (rs ++ [(u :: p, v)]) = below u rs ++ [(p, v)] := by
        simp [below_snoc, strip]
      have hgrown : nodeOf (segmentOf u) (below u (rs ++ [(u :: p, v)])) =
          addSegments v (p.map segmentOf) (nodeOf (segmentOf u) (below u rs)) := by
        rw [hself, nodeOf_snoc]
        rfl
      have hvalue : valueHere (rs ++ [(u :: p, v)]) = valueHere rs := by
        simp [valueHere_snoc]
      have htext : ∀ t, (nodeOf (segmentOf t) (below t rs)).segment.pathSegment = t := fun t => by
        rw [nodeOf_segment]
        rfl
      simp only [addEntry, List.map_cons, addSegments, hvalue]
      rw [show (segmentOf u).pathSegment = u from rfl,
        updateChild_map htext u (nextKeys_nodup rs), nextKeys_snoc, addKey]
      by_cases hu : u ∈ nextKeys rs
      · simp only [hu, if_true]
        congr 1
        apply List.map_congr_left
        intro t ht
        by_cases htu : t = u
        · subst htu
          rw [if_pos rfl, hgrown]
        · rw [if_neg htu, hothers t htu]
      · simp only [hu, if_false, List.map_append, List.map_singleton, hgrown, below_eq_nil hu]
        congr 2
        apply List.map_congr_left
        intro t ht
        rw [hothers]
        intro heq
        subst heq
        exact hu ht

theorem nodeOf_children (segment : RouteSegment) (rs : Table Bytes κ) :
    (nodeOf segment rs).children =
      (nextKeys rs).map fun t => nodeOf (segmentOf t) (below t rs) := by
  rw [nodeOf_eq]

theorem nodeOf_callback (segment : RouteSegment) (rs : Table Bytes κ) :
    (nodeOf segment rs).callback = valueHere rs := by
  rw [nodeOf_eq]

end Cerverus.Routing
