import Cerverus.GrowableArray
import Cerverus.GuardedRun
import Cerverus.RouteAdditions

/-!
# The route trie in memory

The children of a node lie in a dynamic array, by value, so an addition can move them while the
loop of `trie_add_route` holds a pointer to their parent. A function returns `none` where it
would follow a pointer into a freed array.
-/
namespace Cerverus.TrieMemory
open GrowableArray GuardedRun

variable {κ : Type}

/-- A `trie_node_t`: its children are an array of such nodes. -/
structure MemNode (κ : Type) where
  children : ℕ
  segment : RouteSegment
  callback : Option κ

structure Trie (κ : Type) where
  roots : HttpMethod → MemNode κ
  heap : ArrayHeap (MemNode κ)

inductive Place
  | root (method : HttpMethod)
  | child (darr index : ℕ)
  deriving DecidableEq, Repr

def load (t : Trie κ) : Place → Option (MemNode κ)
  | .root method => some (t.roots method)
  | .child darr index => (t.heap.arrays darr).bind fun header => header.data[index]?

def store (t : Trie κ) (p : Place) (n : MemNode κ) : Option (Trie κ) :=
  match p with
  | .root method => some { t with roots := Function.update t.roots method n }
  | .child darr index => (t.heap.arrays darr).bind fun header =>
    if index < header.data.length then
      let header := { header with data := header.data.set index n }
      let arrays := Function.update t.heap.arrays darr (some header)
      some { t with heap := { t.heap with arrays := arrays } }
    else none

/-- The segment of a root is never read. -/
def trieNodeCreate (heap : ArrayHeap (MemNode κ)) : MemNode κ × ArrayHeap (MemNode κ) :=
  let r := arrayCreate heap 2
  (⟨r.1, Routing.rootSegment, none⟩, r.2)

def methods : List HttpMethod :=
  [.get, .head, .options, .trace, .put, .delete, .post, .patch, .connect]

/-- One turn of the loop of `trie_create`. -/
def createRoot (t : Trie κ) (method : HttpMethod) : Trie κ :=
  let r := trieNodeCreate t.heap
  ⟨Function.update t.roots method r.1, r.2⟩

def trieCreate : Trie κ :=
  methods.foldl createRoot ⟨fun _ => ⟨0, Routing.rootSegment, none⟩, emptyHeap⟩

def findChild (text : Bytes) (children : List (MemNode κ)) : Option ℕ :=
  children.findIdx? fun c => text = c.segment.pathSegment

/-- The branch of `trie_add_route` that creates a child; the pointer is to the new child. -/
def attach (t : Trie κ) (current : Place) (seg : RouteSegment) : Option (Place × Trie κ) := do
  let node ← load t current
  let (children, heap) := arrayCreate t.heap 2
  let (darr, heap) ← arrayAdd heap node.children ⟨children, seg, none⟩
  let t ← store { t with heap := heap } current { node with children := darr }
  let header ← t.heap.arrays darr
  some (.child darr (header.data.length - 1), t)

/-- The loop of `trie_add_route`, from the node `current` points to. -/
def addFrom (callback : Option κ) : List RouteSegment → Trie κ → Place → Option (Trie κ)
  | [], t, current => do
    let node ← load t current
    store t current { node with callback := callback }
  | seg :: segs, t, current => do
    let node ← load t current
    let header ← t.heap.arrays node.children
    match findChild seg.pathSegment header.data with
    | some j => addFrom callback segs t (.child node.children j)
    | none => do
      let (next, t) ← attach t current seg
      addFrom callback segs t next

def trieAddRoute (t : Trie κ) (rt : Route κ) : Option (Trie κ) :=
  addFrom rt.callback rt.segments t (.root rt.method)

/-- A static match, or a dynamic "match". -/
def childMatches (s : Bytes) (c : MemNode κ) : Bool :=
  s == c.segment.pathSegment || c.segment.isDynamic

/-- The loops of `trie_find_handler`. -/
def findFrom (t : Trie κ) : List Bytes → Place → Option (Option κ)
  | [], root => (load t root).map MemNode.callback
  | s :: ss, root => do
    let node ← load t root
    let header ← t.heap.arrays node.children
    if header.data.isEmpty then findFrom t ss root
    else
      match header.data.findIdx? (childMatches s) with
      | none => some none
      | some j => findFrom t ss (.child node.children j)

def trieFindHandler (t : Trie κ) (method : HttpMethod) (uri : Bytes) : Option (Option κ) :=
  findFrom t (sdssplitlen uri 47) (.root method)

/-! ## The tree a node stands for -/

/-- The nodes and what lies below them are the trees; `used` are the arrays all that lies in. -/
inductive ChildrenShow (heap : ArrayHeap (MemNode κ)) :
    List (MemNode κ) → List (TrieNode κ) → List ℕ → Prop
  | nil : ChildrenShow heap [] [] []
  | cons {n : MemNode κ} {t : TrieNode κ} {ns items : List (MemNode κ)} {ts : List (TrieNode κ)}
      {size : ℕ} {below others : List ℕ} (live : Live heap n.children size items)
      (segment : n.segment = t.segment) (callback : n.callback = t.callback)
      (children : ChildrenShow heap items t.children below)
      (tail : ChildrenShow heap ns ts others) :
      ChildrenShow heap (n :: ns) (t :: ts) (n.children :: below ++ others)

structure NodeShows (heap : ArrayHeap (MemNode κ)) (n : MemNode κ) (t : TrieNode κ)
    (items : List (MemNode κ)) (below : List ℕ) : Prop where
  live : ∃ size, Live heap n.children size items
  segment : n.segment = t.segment
  callback : n.callback = t.callback
  children : ChildrenShow heap items t.children below

section
variable {heap heap' : ArrayHeap (MemNode κ)} {n : MemNode κ} {t : TrieNode κ}
  {ns items : List (MemNode κ)} {ts : List (TrieNode κ)} {used below : List ℕ}

theorem ChildrenShow.frame (h : ChildrenShow heap ns ts used)
    (hsame : ∀ a ∈ used, heap'.arrays a = heap.arrays a) (hfresh : heap.fresh ≤ heap'.fresh) :
    ChildrenShow heap' ns ts used := by
  induction h with
  | nil => exact .nil
  | cons live segment callback _ _ ihchildren ihtail =>
    have harray := (hsame _ List.mem_cons_self).trans live.array
    refine .cons ⟨harray, live.room, live.lt.trans_le hfresh⟩ segment callback
      (ihchildren fun a ha => hsame a ?_) (ihtail fun a ha => hsame a ?_)
    · exact List.mem_append_left _ (List.mem_cons_of_mem _ ha)
    · exact List.mem_append_right _ ha

theorem ChildrenShow.lt (h : ChildrenShow heap ns ts used) : ∀ a ∈ used, a < heap.fresh := by
  induction h with
  | nil => exact fun a ha => absurd ha List.not_mem_nil
  | cons live _ _ _ _ ihchildren ihtail =>
    intro a ha
    rcases List.mem_append.mp ha with ha | ha
    · rcases List.mem_cons.mp ha with rfl | ha
      · exact live.lt
      · exact ihchildren a ha
    · exact ihtail a ha

theorem ChildrenShow.segments (h : ChildrenShow heap ns ts used) :
    ns.map MemNode.segment = ts.map TrieNode.segment := by
  induction h with
  | nil => rfl
  | cons _ segment _ _ _ _ ih => rw [List.map_cons, List.map_cons, segment, ih]

theorem ChildrenShow.append {ns' : List (MemNode κ)} {ts' : List (TrieNode κ)} {used' : List ℕ}
    (h : ChildrenShow heap ns ts used) (h' : ChildrenShow heap ns' ts' used') :
    ChildrenShow heap (ns ++ ns') (ts ++ ts') (used ++ used') := by
  induction h with
  | nil => exact h'
  | cons live segment callback children _ _ ih =>
    rw [List.append_assoc]
    exact .cons live segment callback children ih

theorem NodeShows.single (h : NodeShows heap n t items below) :
    ChildrenShow heap [n] [t] (n.children :: below) := by
  obtain ⟨⟨size, live⟩, segment, callback, children⟩ := h
  have hsingle := ChildrenShow.cons live segment callback children .nil
  rwa [List.append_nil] at hsingle

theorem NodeShows.frame (h : NodeShows heap n t items below)
    (hsame : ∀ a ∈ n.children :: below, heap'.arrays a = heap.arrays a)
    (hfresh : heap.fresh ≤ heap'.fresh) : NodeShows heap' n t items below := by
  obtain ⟨⟨size, live⟩, segment, callback, children⟩ := h
  have harray := (hsame _ List.mem_cons_self).trans live.array
  exact ⟨⟨size, harray, live.room, live.lt.trans_le hfresh⟩, segment, callback,
    children.frame (fun a ha => hsame a (List.mem_cons_of_mem _ ha)) hfresh⟩

theorem NodeShows.lt (h : NodeShows heap n t items below) :
    ∀ a ∈ n.children :: below, a < heap.fresh := h.single.lt

theorem ChildrenShow.split {c : TrieNode κ} {ts' : List (TrieNode κ)}
    (h : ChildrenShow heap ns (ts ++ c :: ts') used) :
    ∃ before m behind used₁ items below used₂, ns = before ++ m :: behind ∧
      before.length = ts.length ∧ used = used₁ ++ (m.children :: below ++ used₂) ∧
      ChildrenShow heap before ts used₁ ∧ NodeShows heap m c items below ∧
      ChildrenShow heap behind ts' used₂ := by
  induction ts generalizing ns used with
  | nil =>
    cases h with
    | cons live segment callback children tail =>
      exact ⟨[], _, _, [], _, _, _, rfl, rfl, rfl, .nil,
        ⟨⟨_, live⟩, segment, callback, children⟩, tail⟩
  | cons t ts ih =>
    cases h with
    | cons live segment callback children tail =>
      obtain ⟨before, m, behind, used₁, items, below, used₂, rfl, hlen, rfl, hbefore, hm,
        hbehind⟩ := ih tail
      exact ⟨_ :: before, m, behind, _, items, below, used₂, rfl, congrArg Nat.succ hlen,
        (List.append_assoc _ _ _).symm, .cons live segment callback children hbefore, hm, hbehind⟩

end

/-! ## Additions -/

/-- The tree below the node `p` points to, which lies apart from it in arrays of its own. -/
structure Shows (t : Trie κ) (p : Place) (n : MemNode κ) (tree : TrieNode κ)
    (items : List (MemNode κ)) (below : List ℕ) : Prop where
  place : load t p = some n
  node : NodeShows t.heap n tree items below
  nodup : (n.children :: below).Nodup
  apart : ∀ a i, p = .child a i → a ∉ n.children :: below ∧ a < t.heap.fresh

/-- `t'` is `t` with `n` where `p` points to, but for the arrays `used` and new ones. -/
structure Replaced (t : Trie κ) (p : Place) (n : MemNode κ) (used : List ℕ) (t' : Trie κ) :
    Prop where
  roots : ∀ m, p ≠ .root m → t'.roots m = t.roots m
  arrays : ∀ a < t.heap.fresh, a ∉ used → (∀ i, p ≠ .child a i) →
    t'.heap.arrays a = t.heap.arrays a
  own : ∀ a i, p = .child a i → ∃ header, t.heap.arrays a = some header ∧
    t'.heap.arrays a = some { header with data := header.data.set i n }
  fresh : t.heap.fresh ≤ t'.heap.fresh

/-- The tree at `p` has become another one, in the arrays it had and new ones. -/
def Grown (t : Trie κ) (p : Place) (used : List ℕ) (tree : TrieNode κ) (t' : Trie κ) : Prop :=
  ∃ n items below, Shows t' p n tree items below ∧
    (∀ a ∈ n.children :: below, a ∈ used ∨ t.heap.fresh ≤ a) ∧ Replaced t p n used t'

section
variable {t t' t₁ t₂ : Trie κ} {p : Place} {n m n₁ n₂ : MemNode κ} {tree c : TrieNode κ}
  {items items₁ : List (MemNode κ)} {below below₁ used used₁ : List ℕ}
  {s₁ s₂ : List (TrieNode κ)}

theorem store_replaced (hp : load t p = some m) (n : MemNode κ) :
    ∃ t', store t p n = some t' ∧ load t' p = some n ∧ Replaced t p n [] t' := by
  cases p with
  | root method =>
    refine ⟨_, rfl, ?_, ⟨fun m hm => ?_, fun _ _ _ _ => rfl, fun a i h => (by cases h), le_rfl⟩⟩
    · exact congrArg some (Function.update_self _ _ _)
    · exact Function.update_of_ne (fun h => hm (by rw [h])) _ _
  | child darr index =>
    obtain ⟨header, hheader, hindex⟩ := Option.bind_eq_some_iff.mp hp
    have hlt := (List.getElem?_eq_some_iff.mp hindex).1
    let arrays := Function.update t.heap.arrays darr (some ⟨header.size, header.data.set index n⟩)
    refine ⟨⟨t.roots, arrays, t.heap.fresh⟩, ?_, ?_,
      ⟨fun _ _ => rfl, fun a _ _ ha => ?_, fun a i h => ?_, le_rfl⟩⟩
    · simp only [store, hheader, Option.bind_some, if_pos hlt, arrays]
    · simp [load, arrays, hlt]
    · exact Function.update_of_ne (fun h => ha index (congrArg (Place.child · index) h.symm)) _ _
    · cases h
      exact ⟨header, hheader, Function.update_self _ _ _⟩

theorem Replaced.mono (h : Replaced t p n used t') (hsub : ∀ a ∈ used, a ∈ used₁) :
    Replaced t p n used₁ t' :=
  ⟨h.roots, fun a hlt ha hp => h.arrays a hlt (fun hmem => ha (hsub a hmem)) hp, h.own, h.fresh⟩

theorem Replaced.trans (h : Replaced t p n₁ used t₁) (h' : Replaced t₁ p n₂ used₁ t₂)
    (hsub : ∀ a ∈ used₁, a ∈ used ∨ t.heap.fresh ≤ a) : Replaced t p n₂ used t₂ := by
  refine ⟨fun m hm => (h'.roots m hm).trans (h.roots m hm), fun a hlt ha hp => ?_,
    fun a i hp => ?_, h.fresh.trans h'.fresh⟩
  · have hnot : a ∉ used₁ := fun hmem =>
      (hsub a hmem).elim ha (fun hle => absurd hlt (not_lt.mpr hle))
    exact (h'.arrays a (hlt.trans_le h.fresh) hnot hp).trans (h.arrays a hlt ha hp)
  · obtain ⟨header, hheader, hset⟩ := h.own a i hp
    obtain ⟨header', hheader', hset'⟩ := h'.own a i hp
    rw [hset] at hheader'
    cases hheader'
    exact ⟨header, hheader, by rw [hset', List.set_set]⟩

theorem Grown.trans (hsub : ∀ a ∈ n₁.children :: below₁, a ∈ used ∨ t.heap.fresh ≤ a)
    (h : Replaced t p n₁ used t₁) (h' : Grown t₁ p (n₁.children :: below₁) c t₂) :
    Grown t p used c t₂ := by
  obtain ⟨n₂, items₂, below₂, hshows, hsub', hrep⟩ := h'
  refine ⟨n₂, items₂, below₂, hshows, fun a ha => ?_, h.trans hrep hsub⟩
  rcases hsub' a ha with hmem | hle
  · exact hsub a hmem
  · exact .inr (h.fresh.trans hle)

/-- Arrays in the middle give way to others, or to new ones. -/
theorem nodup_replaced {x k : ℕ} {l₁ l₂ own own' : List ℕ} (h : (x :: (l₁ ++ (own ++ l₂))).Nodup)
    (hown : own'.Nodup) (hlt : ∀ a ∈ x :: (l₁ ++ (own ++ l₂)), a < k)
    (hsub : ∀ a ∈ own', a ∈ own ∨ k ≤ a) : (x :: (l₁ ++ (own' ++ l₂))).Nodup := by
  have hout : ∀ a ∈ own', a ≠ x ∧ a ∉ l₁ ∧ a ∉ l₂ := by
    intro a ha
    rcases hsub a ha with hmem | hle
    · grind
    · have hnot : a ∉ x :: (l₁ ++ (own ++ l₂)) := fun hmem => absurd (hlt a hmem) (not_lt.mpr hle)
      grind
  grind

theorem mem_replaced {x k a : ℕ} {l₁ l₂ own own' : List ℕ} (hsub : ∀ a ∈ own', a ∈ own ∨ k ≤ a)
    (ha : a ∈ x :: (l₁ ++ (own' ++ l₂))) : a ∈ x :: (l₁ ++ (own ++ l₂)) ∨ k ≤ a := by
  by_cases hnew : a ∈ own'
  · rcases hsub a hnew with hold | hle
    · exact .inl (by grind)
    · exact .inr hle
  · exact .inl (by grind)

theorem load_congr (hroots : ∀ m, p = .root m → t'.roots m = t.roots m)
    (hcell : ∀ a i, p = .child a i → t'.heap.arrays a = t.heap.arrays a) :
    load t' p = load t p := by
  cases p with
  | root method => rw [load, load, hroots method rfl]
  | child a i => rw [load, load, hcell a i rfl]

theorem replaced_of_same (hplace : load t p = some n) (hroots : ∀ m, t'.roots m = t.roots m)
    (harrays : ∀ a < t.heap.fresh, a ∉ used → t'.heap.arrays a = t.heap.arrays a)
    (hcell : ∀ a i, p = .child a i → t'.heap.arrays a = t.heap.arrays a)
    (hfresh : t.heap.fresh ≤ t'.heap.fresh) : Replaced t p n used t' := by
  refine ⟨fun m _ => hroots m, fun a hlt hnot _ => harrays a hlt hnot, fun a i hp => ?_, hfresh⟩
  rw [hp] at hplace
  obtain ⟨header, hheader, hindex⟩ := Option.bind_eq_some_iff.mp hplace
  obtain ⟨hi, hget⟩ := List.getElem?_eq_some_iff.mp hindex
  refine ⟨header, hheader, ?_⟩
  rw [hcell a i hp, hheader, ← hget, List.set_getElem_self]

section
variable {before behind : List (MemNode κ)} {used₂ : List ℕ}

theorem Shows.child (h : Shows t p n tree (before ++ m :: behind)
      (used₁ ++ (m.children :: below₁ ++ used₂))) (hm : NodeShows t.heap m c items₁ below₁) :
    Shows t (.child n.children before.length) m c items₁ below₁ := by
  obtain ⟨size, live⟩ := h.node.live
  have hnodup := h.nodup
  refine ⟨?_, hm, by grind, fun a i ha => ?_⟩
  · rw [load, live.array, Option.bind_some, List.getElem?_append_right le_rfl, Nat.sub_self]
    rfl
  · cases ha
    exact ⟨by grind, live.lt⟩

theorem Replaced.array {size k : ℕ} (hrep : Replaced t (.child k before.length) n₁ used t')
    (harray : t.heap.arrays k = some ⟨size, before ++ m :: behind⟩) :
    t'.heap.arrays k = some ⟨size, before ++ n₁ :: behind⟩ := by
  obtain ⟨header, hheader, hown⟩ := hrep.own k before.length rfl
  rw [harray] at hheader
  cases hheader
  rw [hown, List.set_append_right _ _ le_rfl, Nat.sub_self]
  rfl

/-- What becomes of a child becomes of the tree, and nothing the pointer to the parent is followed
for has changed. -/
theorem Shows.regrow {c' : TrieNode κ} (h : Shows t p n tree (before ++ m :: behind)
      (used₁ ++ (m.children :: below₁ ++ used₂)))
    (hbefore : ChildrenShow t.heap before s₁ used₁) (hbehind : ChildrenShow t.heap behind s₂ used₂)
    (h' : Grown t (.child n.children before.length) (m.children :: below₁) c' t') :
    Grown t p (n.children :: (used₁ ++ (m.children :: below₁ ++ used₂)))
      { tree with children := s₁ ++ c' :: s₂ } t' := by
  have hltn := h.node.lt
  obtain ⟨hplace, ⟨⟨size, live⟩, segment, callback, children⟩, hnodup, hapart⟩ := h
  obtain ⟨m', items', below', hshows, hsub, hrep⟩ := h'
  -- the arrays of the other children are not touched
  have hsame : ∀ a < t.heap.fresh, a ≠ n.children → a ∉ m.children :: below₁ →
      t'.heap.arrays a = t.heap.arrays a := by
    intro a hlt hne hnot
    exact hrep.arrays a hlt hnot fun i heq => hne (by cases heq; rfl)
  have hbefore' : ChildrenShow t'.heap before s₁ used₁ :=
    hbefore.frame (fun a ha => hsame a (hbefore.lt a ha) (by grind) (by grind)) hrep.fresh
  have hbehind' : ChildrenShow t'.heap behind s₂ used₂ :=
    hbehind.frame (fun a ha => hsame a (hbehind.lt a ha) (by grind) (by grind)) hrep.fresh
  have hcell : ∀ a i, p = .child a i → t'.heap.arrays a = t.heap.arrays a := by
    intro a i ha
    obtain ⟨hnot, hlt⟩ := hapart a i ha
    exact hsame a hlt (by grind) (by grind)
  have hroots : ∀ method, t'.roots method = t.roots method :=
    fun method => hrep.roots method (by simp)
  have hlive : Live t'.heap n.children size (before ++ m' :: behind) := by
    refine ⟨hrep.array live.array, ?_, live.lt.trans_le hrep.fresh⟩
    have hroom := live.room
    rw [List.length_append, List.length_cons] at hroom ⊢
    exact hroom
  refine ⟨n, before ++ m' :: behind, used₁ ++ (m'.children :: below' ++ used₂), ⟨?_,
    ⟨⟨size, hlive⟩, segment, callback, hbefore'.append (hshows.node.single.append hbehind')⟩,
    nodup_replaced hnodup hshows.nodup hltn hsub, fun a i ha => ?_⟩,
    fun a ha => mem_replaced hsub ha,
    replaced_of_same hplace hroots (fun a hlt hnot => hsame a hlt (by grind) (by grind)) hcell
      hrep.fresh⟩
  · exact (load_congr (fun method _ => hroots method) hcell).trans hplace
  · obtain ⟨hnot, hlt⟩ := hapart a i ha
    refine ⟨fun hmem => ?_, hlt.trans_le hrep.fresh⟩
    rcases mem_replaced hsub hmem with hold | hle
    · exact hnot hold
    · exact absurd hlt (not_lt.mpr hle)

end

/-- The loop goes on at a child, and what becomes of it becomes of the tree. -/
theorem Shows.focus (h : Shows t p n tree items below) (hc : tree.children = s₁ ++ c :: s₂) :
    ∃ m items' below', items[s₁.length]? = some m ∧
      Shows t (.child n.children s₁.length) m c items' below' ∧
      ∀ c' t', Grown t (.child n.children s₁.length) (m.children :: below') c' t' →
        Grown t p (n.children :: below) { tree with children := s₁ ++ c' :: s₂ } t' := by
  have children := h.node.children
  rw [hc] at children
  obtain ⟨before, m, behind, used₁, items', below', used₂, rfl, hlen, rfl, hbefore, hm, hbehind⟩ :=
    children.split
  rw [← hlen]
  refine ⟨m, items', below', ?_, h.child hm, fun c' t' h' => h.regrow hbefore hbehind h'⟩
  rw [List.getElem?_append_right le_rfl, Nat.sub_self]
  rfl

/-! ## A new child -/

/-- The array of the children, which may have moved, has the new child, and that has an array. -/
structure Attached (heap : ArrayHeap (MemNode κ)) (children : ℕ) (items : List (MemNode κ))
    (seg : RouteSegment) (darr : ℕ) (heap' : ArrayHeap (MemNode κ)) : Prop where
  live : ∃ size, Live heap' darr size (items ++ [⟨heap.fresh, seg, none⟩])
  own : heap'.arrays heap.fresh = some ⟨2, []⟩
  others : ∀ a < heap.fresh, a ≠ children → heap'.arrays a = heap.arrays a
  handle : darr = children ∨ heap.fresh < darr
  fresh : heap.fresh < heap'.fresh

theorem attached_add {heap : ArrayHeap (MemNode κ)} {children size : ℕ}
    (live : Live heap children size items) (seg : RouteSegment) :
    ∃ darr heap', arrayAdd (arrayCreate heap 2).2 children ⟨heap.fresh, seg, none⟩ =
      some (darr, heap') ∧ Attached heap children items seg darr heap' := by
  let heap₁ := (arrayCreate heap 2).2
  have hfresh₁ : heap₁.fresh = heap.fresh + 1 := rfl
  have hold₁ : ∀ a < heap.fresh, heap₁.arrays a = heap.arrays a :=
    fun a hlt => Function.update_of_ne hlt.ne _ _
  have live₁ : Live heap₁ children size items :=
    ⟨(hold₁ _ live.lt).trans live.array, live.room, live.lt.trans (Nat.lt_succ_self _)⟩
  obtain ⟨darr, heap', size', hadd, live'⟩ := arrayAdd_live live₁ ⟨heap.fresh, seg, none⟩
  obtain ⟨hothers, hhandle, hfresh⟩ := added_add hadd
  refine ⟨darr, heap', hadd, ⟨size', live'⟩, ?_, fun a hlt hne => ?_, ?_, ?_⟩
  · exact (hothers _ (by omega) live.lt.ne').trans (Function.update_self _ _ _)
  · exact (hothers a (by omega) hne).trans (hold₁ a hlt)
  · exact hhandle.imp_right fun heq => by omega
  · omega

section
variable {seg : RouteSegment} {darr : ℕ} {heap' : ArrayHeap (MemNode κ)}

theorem Attached.mem (ha : Attached t.heap n.children items seg darr heap') {a : ℕ}
    (hmem : a ∈ darr :: (below ++ [t.heap.fresh])) :
    a ∈ n.children :: below ∨ t.heap.fresh ≤ a := by
  rcases List.mem_cons.mp hmem with rfl | hmem
  · rcases ha.handle with heq | hlt
    · exact .inl (heq ▸ List.mem_cons_self)
    · exact .inr hlt.le
  · rcases List.mem_append.mp hmem with hmem | hmem
    · exact .inl (List.mem_cons_of_mem _ hmem)
    · exact .inr (List.mem_singleton.mp hmem).ge

theorem Attached.nodup (ha : Attached t.heap n.children items seg darr heap')
    (hlt : ∀ a ∈ n.children :: below, a < t.heap.fresh) (h : (n.children :: below).Nodup) :
    (darr :: (below ++ [t.heap.fresh])).Nodup := by
  obtain ⟨hnot, hnodup⟩ := List.nodup_cons.mp h
  have hltbelow : ∀ a ∈ below, a < t.heap.fresh := fun a ha => hlt a (List.mem_cons_of_mem _ ha)
  have hltnode := hlt n.children List.mem_cons_self
  rw [List.nodup_cons, List.mem_append, List.mem_singleton]
  refine ⟨?_, List.nodup_append'.mpr ⟨hnodup, List.nodup_singleton _, ?_⟩⟩
  · rintro (hmem | heq)
    · rcases ha.handle with rfl | hdarr
      · exact hnot hmem
      · exact absurd (hltbelow _ hmem) hdarr.not_gt
    · have hhandle := ha.handle
      omega
  · rw [List.disjoint_singleton]
    exact fun hmem => lt_irrefl _ (hltbelow _ hmem)

theorem Attached.load_eq (ha : Attached t.heap n.children items seg darr heap')
    (h : Shows t p n tree items below) : load { t with heap := heap' } p = some n := by
  rw [← h.place]
  refine load_congr (fun _ _ => rfl) fun a i hp => ?_
  obtain ⟨hnot, hlt⟩ := h.apart a i hp
  exact ha.others a hlt fun heq => hnot (heq ▸ List.mem_cons_self)

theorem Attached.arrays_eq (ha : Attached t.heap n.children items seg darr heap')
    (h : Shows t p n tree items below) (hrep : Replaced { t with heap := heap' } p n₁ [] t') {a : ℕ}
    (hlt : a < heap'.fresh) (hmem : a ∈ darr :: (below ++ [t.heap.fresh])) :
    t'.heap.arrays a = heap'.arrays a := by
  refine hrep.arrays a hlt List.not_mem_nil fun i hp => ?_
  obtain ⟨hnot, hlt'⟩ := h.apart a i hp
  rcases ha.mem hmem with hold | hle
  · exact hnot hold
  · exact absurd hlt' (not_lt.mpr hle)

theorem Attached.node (ha : Attached t.heap n.children items seg darr heap')
    (h : Shows t p n tree items below)
    (hrep : Replaced { t with heap := heap' } p { n with children := darr } [] t') :
    NodeShows t'.heap { n with children := darr }
      { tree with children := tree.children ++ [Routing.trieNodeCreate seg] }
      (items ++ [⟨t.heap.fresh, seg, none⟩]) (below ++ [t.heap.fresh]) := by
  obtain ⟨size, live⟩ := ha.live
  have hnotmem := (List.nodup_cons.mp h.nodup).1
  have hbelow : ChildrenShow t'.heap items tree.children below := by
    refine h.node.children.frame (fun a hmem => ?_) (ha.fresh.le.trans hrep.fresh)
    have hlt := h.node.children.lt a hmem
    have hne : a ≠ n.children := ne_of_mem_of_not_mem hmem hnotmem
    exact (ha.arrays_eq h hrep (hlt.trans ha.fresh) (by simp [hmem])).trans (ha.others a hlt hne)
  have hchild : NodeShows t'.heap ⟨t.heap.fresh, seg, none⟩ (Routing.trieNodeCreate seg) [] [] := by
    refine ⟨⟨2, ?_, Nat.two_pos, ha.fresh.trans_le hrep.fresh⟩, rfl, rfl, .nil⟩
    exact (ha.arrays_eq h hrep ha.fresh (by simp)).trans ha.own
  refine ⟨⟨size, ?_, live.room, live.lt.trans_le hrep.fresh⟩, h.node.segment, h.node.callback,
    hbelow.append hchild.single⟩
  exact (ha.arrays_eq h hrep live.lt List.mem_cons_self).trans live.array

theorem Attached.replaced (ha : Attached t.heap n.children items seg darr heap')
    (h : Shows t p n tree items below) (hrep : Replaced { t with heap := heap' } p n₁ [] t') :
    Replaced t p n₁ (n.children :: below) t' := by
  refine ⟨hrep.roots, fun a hlt hnot hp => ?_, fun a i hp => ?_, ha.fresh.le.trans hrep.fresh⟩
  · have hne : a ≠ n.children := fun heq => hnot (heq ▸ List.mem_cons_self)
    exact (hrep.arrays a (hlt.trans ha.fresh) List.not_mem_nil hp).trans (ha.others a hlt hne)
  · obtain ⟨hnot, hlt⟩ := h.apart a i hp
    obtain ⟨header, hheader, hown⟩ := hrep.own a i hp
    refine ⟨header, ?_, hown⟩
    rw [← ha.others a hlt fun heq => hnot (heq ▸ List.mem_cons_self)]
    exact hheader

end

/-- A new child: the array of the children may move, and the pointer in the parent with it. -/
theorem attach_shows (h : Shows t p n tree items below) (seg : RouteSegment) :
    ∃ t₁ n₁ items₁ below₁,
      attach t p seg = some (.child n₁.children tree.children.length, t₁) ∧
      Shows t₁ p n₁
        { tree with children := tree.children ++ [Routing.trieNodeCreate seg] } items₁ below₁ ∧
      (∀ a ∈ n₁.children :: below₁, a ∈ n.children :: below ∨ t.heap.fresh ≤ a) ∧
      Replaced t p n₁ (n.children :: below) t₁ := by
  obtain ⟨size, live⟩ := h.node.live
  obtain ⟨darr, heap', hadd, ha⟩ := attached_add live seg
  obtain ⟨t₁, hstore, hplace, hrep⟩ := store_replaced (ha.load_eq h) { n with children := darr }
  have hnode := ha.node h hrep
  refine ⟨t₁, { n with children := darr }, items ++ [⟨t.heap.fresh, seg, none⟩],
    below ++ [t.heap.fresh], ?_, ⟨hplace, hnode, ha.nodup h.node.lt h.nodup, fun a i hp => ?_⟩,
    fun a hmem => ha.mem hmem, ha.replaced h hrep⟩
  · obtain ⟨size', live'⟩ := hnode.live
    have hlength : items.length = tree.children.length := by
      have hmap := congrArg List.length h.node.children.segments
      rwa [List.length_map, List.length_map] at hmap
    have hcreate : arrayCreate t.heap 2 = (t.heap.fresh, (arrayCreate t.heap 2).2) := rfl
    have harray : t₁.heap.arrays darr = some ⟨size', _⟩ := live'.array
    rw [attach, hcreate]
    simp only [h.place, hadd, hstore, harray, Option.bind_eq_bind, Option.bind_some,
      List.length_append, List.length_singleton, Nat.add_sub_cancel, hlength]
  · obtain ⟨hnot, hlt⟩ := h.apart a i hp
    refine ⟨fun hmem => ?_, (hlt.trans ha.fresh).trans_le hrep.fresh⟩
    rcases ha.mem hmem with hold | hle
    · exact hnot hold
    · exact absurd hlt (not_lt.mpr hle)

theorem findIdx?_cases {α : Type} (q : α → Bool) (l : List α) :
    l.findIdx? q = none ∧ (∀ c ∈ l, q c = false) ∨
      ∃ l₁ c l₂, l = l₁ ++ c :: l₂ ∧ (∀ d ∈ l₁, q d = false) ∧ q c = true ∧
        l.findIdx? q = some l₁.length := by
  induction l with
  | nil => exact .inl ⟨rfl, fun c hc => absurd hc List.not_mem_nil⟩
  | cons a l ih =>
    rw [List.findIdx?_cons]
    cases ha : q a with
    | true => exact .inr ⟨[], a, l, rfl, fun d hd => absurd hd List.not_mem_nil, ha, rfl⟩
    | false =>
      rcases ih with ⟨hnone, hall⟩ | ⟨l₁, c, l₂, rfl, hall, hc, hidx⟩
      · exact .inl ⟨by simp [hnone], List.forall_mem_cons.mpr ⟨ha, hall⟩⟩
      · exact .inr ⟨a :: l₁, c, l₂, rfl, List.forall_mem_cons.mpr ⟨ha, hall⟩, hc, by simp [hidx]⟩

theorem updateChild_none {text : Bytes} (f : TrieNode κ → TrieNode κ)
    (h : ∀ d ∈ s₁, decide (text = d.segment.pathSegment) = false) :
    Routing.updateChild text f s₁ = none := by
  induction s₁ with
  | nil => rfl
  | cons d s₁ ih =>
    obtain ⟨hd, hall⟩ := List.forall_mem_cons.mp h
    rw [Routing.updateChild, if_neg (of_decide_eq_false hd), ih hall]
    rfl

theorem updateChild_some {text : Bytes} (f : TrieNode κ → TrieNode κ)
    (h : ∀ d ∈ s₁, decide (text = d.segment.pathSegment) = false)
    (hc : text = c.segment.pathSegment) :
    Routing.updateChild text f (s₁ ++ c :: s₂) = some (s₁ ++ f c :: s₂) := by
  induction s₁ with
  | nil => rw [List.nil_append, Routing.updateChild, if_pos hc]; rfl
  | cons d s₁ ih =>
    obtain ⟨hd, hall⟩ := List.forall_mem_cons.mp h
    rw [List.cons_append, Routing.updateChild, if_neg (of_decide_eq_false hd), ih hall]
    rfl

theorem ChildrenShow.findIdx? {heap : ArrayHeap (MemNode κ)} {ns : List (MemNode κ)}
    {ts : List (TrieNode κ)} (h : ChildrenShow heap ns ts used) (q : RouteSegment → Bool) :
    (ns.findIdx? fun n => q n.segment) = ts.findIdx? fun t => q t.segment := by
  have hmap := congrArg (List.findIdx? q) h.segments
  rwa [List.findIdx?_map, List.findIdx?_map] at hmap

/-- The loop of `trie_add_route` in memory does to the tree what it should. -/
theorem addFrom_grown (callback : Option κ) (segs : List RouteSegment)
    (h : Shows t p n tree items below) :
    ∃ t', addFrom callback segs t p = some t' ∧
      Grown t p (n.children :: below) (Routing.addSegments callback segs tree) t' := by
  induction segs generalizing t p n tree items below with
  | nil =>
    obtain ⟨t', hstore, hplace, hrep⟩ := store_replaced h.place { n with callback := callback }
    have hnode : NodeShows t'.heap n tree items below :=
      h.node.frame (fun a ha => hrep.arrays a (h.node.lt a ha) List.not_mem_nil
        fun i hp => (h.apart a i hp).1 ha) hrep.fresh
    refine ⟨t', by simp only [addFrom, h.place, hstore, Option.bind_eq_bind, Option.bind_some],
      _, items, below, ⟨hplace, ⟨hnode.live, hnode.segment, rfl, hnode.children⟩, h.nodup,
        fun a i hp => ?_⟩, fun a ha => .inl ha, hrep.mono fun a ha => absurd ha List.not_mem_nil⟩
    exact ⟨(h.apart a i hp).1, (h.apart a i hp).2.trans_le hrep.fresh⟩
  | cons seg segs ih =>
    obtain ⟨size, live⟩ := h.node.live
    have hfind : findChild seg.pathSegment items =
        tree.children.findIdx? fun c => decide (seg.pathSegment = c.segment.pathSegment) :=
      h.node.children.findIdx? fun s => decide (seg.pathSegment = s.pathSegment)
    rcases findIdx?_cases (fun c : TrieNode κ => decide (seg.pathSegment = c.segment.pathSegment))
      tree.children with ⟨hnone, hall⟩ | ⟨s₁, c, s₂, hc, hall, htext, hsome⟩
    · obtain ⟨t₁, n₁, items₁, below₁, hattach, hshows, hsub, hrep⟩ := attach_shows h seg
      obtain ⟨m, items', below', -, hchild, hfocus⟩ := hshows.focus (rfl : _ = _ ++ _ :: [])
      obtain ⟨t', hadd, hgrown⟩ := ih hchild
      refine ⟨t', ?_, ?_⟩
      · simp only [addFrom, h.place, live.array, hfind, hnone, hattach, hadd, Option.bind_eq_bind,
          Option.bind_some]
      · rw [Routing.addSegments, updateChild_none _ hall]
        exact Grown.trans hsub hrep (hfocus _ t' hgrown)
    · obtain ⟨m, items', below', -, hchild, hfocus⟩ := h.focus hc
      obtain ⟨t', hadd, hgrown⟩ := ih hchild
      refine ⟨t', ?_, ?_⟩
      · simp only [addFrom, h.place, live.array, hfind, hsome, hadd, Option.bind_eq_bind,
          Option.bind_some]
      · rw [Routing.addSegments, hc, updateChild_some _ hall (of_decide_eq_true htext)]
        exact hfocus _ t' hgrown

theorem findFrom_shows (ss : List Bytes) (h : Shows t p n tree items below) :
    findFrom t ss p = some (Routing.findSegments ss tree) := by
  induction ss generalizing p n tree items below with
  | nil =>
    rw [findFrom, h.place, Option.map_some, h.node.callback]
    rfl
  | cons s ss ih =>
    obtain ⟨size, live⟩ := h.node.live
    have hlength : items.length = tree.children.length := by
      have hmap := congrArg List.length h.node.children.segments
      rwa [List.length_map, List.length_map] at hmap
    have hempty : items.isEmpty = tree.children.isEmpty := by
      rw [Bool.eq_iff_iff, List.isEmpty_iff_length_eq_zero, List.isEmpty_iff_length_eq_zero,
        hlength]
    have hfind : items.findIdx? (childMatches s) =
        tree.children.findIdx? (Routing.childMatches s) :=
      h.node.children.findIdx? fun seg => s == seg.pathSegment || seg.isDynamic
    simp only [findFrom, h.place, live.array, hempty, hfind, Option.bind_eq_bind, Option.bind_some]
    rw [Routing.findSegments]
    split_ifs with he
    · exact ih h
    · rcases findIdx?_cases (Routing.childMatches s) tree.children with
        ⟨hnone, hall⟩ | ⟨s₁, c, s₂, hc, hall, hmatch, hsome⟩
      · have hno : tree.children.find? (Routing.childMatches s) = none :=
          List.find?_eq_none.mpr fun c hc => by simp [hall c hc]
        simp only [hnone, hno]
      · have hfirst : tree.children.find? (Routing.childMatches s) = some c := by
          rw [hc, List.find?_append, List.find?_eq_none.mpr fun d hd => by simp [hall d hd],
            List.find?_cons_of_pos hmatch]
          rfl
        obtain ⟨m, items', below', -, hchild, -⟩ := h.focus hc
        simp only [hsome, hfirst]
        exact ih hchild

end

/-! ## The whole trie -/

/-- Below each root lies the tree of its method, and no two of them share an array. -/
structure TrieShows (t : Trie κ) (trees : HttpMethod → TrieNode κ)
    (items : HttpMethod → List (MemNode κ)) (below : HttpMethod → List ℕ) : Prop where
  roots : ∀ m, Shows t (.root m) (t.roots m) (trees m) (items m) (below m)
  disjoint : ∀ m m', m ≠ m' → ∀ a ∈ (t.roots m).children :: below m,
    a ∉ (t.roots m').children :: below m'

section
variable {t : Trie κ} {trees : HttpMethod → TrieNode κ} {items : HttpMethod → List (MemNode κ)}
  {below : HttpMethod → List ℕ}

theorem roots_trieCreate (m : HttpMethod) :
    (trieCreate : Trie κ).roots m = ⟨methods.idxOf m, Routing.rootSegment, none⟩ := by
  cases m <;> rfl

theorem arrays_trieCreate (m : HttpMethod) :
    (trieCreate : Trie κ).heap.arrays (methods.idxOf m) = some ⟨2, []⟩ := by
  cases m <;> rfl

theorem trieShows_trieCreate :
    TrieShows (trieCreate : Trie κ) Routing.trieCreate (fun _ => []) fun _ => [] := by
  refine ⟨fun m => ⟨rfl, ?_, List.nodup_singleton _, fun a i hp => by cases hp⟩,
    fun m m' hne a ha ha' => hne ?_⟩
  · rw [roots_trieCreate]
    refine ⟨⟨2, arrays_trieCreate m, Nat.two_pos, ?_⟩, rfl, rfl, .nil⟩
    have hlt : methods.idxOf m < 9 := by cases m <;> decide
    exact hlt
  · rw [roots_trieCreate, List.mem_singleton] at ha ha'
    have hinj : methods.idxOf m = methods.idxOf m' := ha.symm.trans ha'
    revert hinj
    cases m <;> cases m' <;> decide

theorem trieAddRoute_shows (h : TrieShows t trees items below) (rt : Route κ) :
    ∃ t' items' below', trieAddRoute t rt = some t' ∧
      TrieShows t' (Routing.trieAddRoute trees rt) items' below' := by
  obtain ⟨t', hadd, n, items₁, below₁, hshows, hsub, hrep⟩ :=
    addFrom_grown rt.callback rt.segments (h.roots rt.method)
  have hn : t'.roots rt.method = n := Option.some.inj hshows.place
  -- the roots and arrays of the other methods are as they were
  have hother : ∀ m, m ≠ rt.method → t'.roots m = t.roots m ∧
      NodeShows t'.heap (t.roots m) (trees m) (items m) (below m) := by
    intro m hm
    have hlt := (h.roots m).node.lt
    refine ⟨hrep.roots m fun heq => hm (by cases heq; rfl),
      (h.roots m).node.frame (fun a ha => ?_) hrep.fresh⟩
    exact hrep.arrays a (hlt a ha) (h.disjoint m rt.method hm a ha) fun i heq => by cases heq
  have happart : ∀ m, m ≠ rt.method → ∀ a ∈ n.children :: below₁,
      a ∉ (t.roots m).children :: below m := by
    intro m hm a ha hmem
    rcases hsub a ha with hold | hle
    · exact h.disjoint m rt.method hm a hmem hold
    · exact absurd ((h.roots m).node.lt a hmem) (not_lt.mpr hle)
  refine ⟨t', Function.update items rt.method items₁, Function.update below rt.method below₁, hadd,
    fun m => ?_, fun m m' hne a ha => ?_⟩
  · by_cases hm : m = rt.method
    · subst hm
      rw [Routing.trieAddRoute, Function.update_self, Function.update_self, Function.update_self,
        hn]
      exact hshows
    · obtain ⟨hroot, hnode⟩ := hother m hm
      rw [Routing.trieAddRoute, Function.update_of_ne hm, Function.update_of_ne hm,
        Function.update_of_ne hm, hroot]
      exact ⟨congrArg some hroot, hnode, (h.roots m).nodup, fun a i hp => by cases hp⟩
  · by_cases hm : m = rt.method
    · subst hm
      rw [Function.update_self, hn] at ha
      rw [Function.update_of_ne hne.symm, (hother m' hne.symm).1]
      exact happart m' hne.symm a ha
    · rw [Function.update_of_ne hm, (hother m hm).1] at ha
      by_cases hm' : m' = rt.method
      · subst hm'
        rw [Function.update_self, hn]
        exact fun hmem => happart m hm a hmem ha
      · rw [Function.update_of_ne hm', (hother m' hm').1]
        exact h.disjoint m m' hne a ha

theorem run_shows (routes : List (Route κ)) (h : TrieShows t trees items below) :
    ∃ t' items' below', run trieAddRoute t routes = some t' ∧
      TrieShows t' (routes.foldl Routing.trieAddRoute trees) items' below' := by
  induction routes generalizing t trees items below with
  | nil => exact ⟨t, items, below, rfl, h⟩
  | cons rt routes ih =>
    obtain ⟨t₁, items₁, below₁, hadd, hshows⟩ := trieAddRoute_shows h rt
    obtain ⟨t', items', below', hrun, hshows'⟩ := ih hshows
    exact ⟨t', items', below', (run_cons routes hadd).trans hrun, hshows'⟩

end

/-- Whatever routes are added, no pointer is followed into an array that an addition has moved
and freed, every node keeps an array of its own, and look-ups in memory find what they find in
the tree of the routes. -/
theorem trie_in_memory (routes : List (Route κ)) :
    ∃ t items below, run trieAddRoute trieCreate routes = some t ∧
      TrieShows t (Routing.addRoutes routes) items below ∧
      ∀ method uri, trieFindHandler t method uri =
        some (Routing.trieFindHandler (Routing.addRoutes routes) method uri) := by
  obtain ⟨t, items, below, hrun, hshows⟩ := run_shows routes trieShows_trieCreate
  exact ⟨t, items, below, hrun, hshows, fun method uri =>
    findFrom_shows (sdssplitlen uri 47) (hshows.roots method)⟩

end Cerverus.TrieMemory
