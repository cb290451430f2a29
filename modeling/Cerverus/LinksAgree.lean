import Cerverus.DoublyLinkedList

/-!
# Links that agree

With a wrong `tail` the list no longer represents any sequence, but each link to an allocated
node is still answered by the link back. That is enough to know what `pop_tail` frees: the
node that `tail` names, and no other.
-/
namespace Cerverus.LinkedHeap

variable {α : Type} {h h' : Heap α} {a : ℕ} {p n : Option ℕ}

def prevOf (h : Heap α) (x : ℕ) : Option ℕ := (h x).bind Node.prev

def nextOf (h : Heap α) (x : ℕ) : Option ℕ := (h x).bind Node.next

def dataOf (h : Heap α) (x : ℕ) : Option α := (h x).map Node.data

theorem setPrev_links (hs : setPrev h a p = some h') :
    dataOf h' = dataOf h ∧ (∀ x, nextOf h' x = nextOf h x) ∧
      ∀ x, prevOf h' x = if a = x then p else prevOf h x := by
  obtain ⟨nd, hnd, rfl⟩ := Option.map_eq_some_iff.mp hs
  refine ⟨funext fun x => ?_, fun x => ?_, fun x => ?_⟩
  all_goals
    by_cases hx : x = a
    · subst hx
      simp [prevOf, nextOf, dataOf, hnd]
    · simp [prevOf, nextOf, dataOf, hx, Ne.symm hx]

theorem setNext_links (hs : setNext h a n = some h') :
    dataOf h' = dataOf h ∧ (∀ x, nextOf h' x = if a = x then n else nextOf h x) ∧
      ∀ x, prevOf h' x = prevOf h x := by
  obtain ⟨nd, hnd, rfl⟩ := Option.map_eq_some_iff.mp hs
  refine ⟨funext fun x => ?_, fun x => ?_, fun x => ?_⟩
  all_goals
    by_cases hx : x = a
    · subst hx
      simp [prevOf, nextOf, dataOf, hnd]
    · simp [prevOf, nextOf, dataOf, hx, Ne.symm hx]

theorem setPrevIf_links {o : Option ℕ} (hs : setPrevIf h o p = some h') :
    dataOf h' = dataOf h ∧ (∀ x, nextOf h' x = nextOf h x) ∧
      ∀ x, prevOf h' x = if o = some x then p else prevOf h x := by
  cases o with
  | none =>
    cases hs
    exact ⟨rfl, fun _ => rfl, fun _ => rfl⟩
  | some a => simpa using setPrev_links hs

theorem prevOf_none {x : ℕ} (hx : dataOf h x = none) : prevOf h x = none := by
  rw [dataOf, Option.map_eq_none_iff] at hx
  simp [prevOf, hx]

theorem update_links (h : Heap α) (a : ℕ) (o : Option (Node α)) :
    (∀ x, dataOf (Function.update h a o) x = if x = a then o.map Node.data else dataOf h x) ∧
      (∀ x, nextOf (Function.update h a o) x = if x = a then o.bind Node.next else nextOf h x) ∧
      ∀ x, prevOf (Function.update h a o) x = if x = a then o.bind Node.prev else prevOf h x := by
  refine ⟨fun x => ?_, fun x => ?_, fun x => ?_⟩
  all_goals
    by_cases hx : x = a
    · subst hx
      simp [prevOf, nextOf, dataOf]
    · simp [prevOf, nextOf, dataOf, hx]

end Cerverus.LinkedHeap

namespace Cerverus.Dll
open LinkedHeap

variable {α : Type} {dll dll' : DoublyLinkedList α}

structure LinksAgree (dll : DoublyLinkedList α) : Prop where
  back : ∀ x y, nextOf dll.heap x = some y → prevOf dll.heap y = some x
  forth : ∀ x y, prevOf dll.heap x = some y → (dataOf dll.heap y).isSome →
    nextOf dll.heap y = some x
  first : ∀ x, dll.head = some x → (dataOf dll.heap x).isSome ∧ prevOf dll.heap x = none
  fresh : ∀ x, dll.fresh ≤ x → dataOf dll.heap x = none
  prevLt : ∀ x y, prevOf dll.heap x = some y → y < dll.fresh
  empty : dll.head = none → dll.length = 0

theorem linksAgree_create : LinksAgree (doublyLinkedListCreate : DoublyLinkedList α) := by
  constructor <;> simp [doublyLinkedListCreate, prevOf, nextOf, dataOf]

/-! ## push_front -/

structure Pushed (dll dll' : DoublyLinkedList α) (a : α) : Prop where
  head : dll'.head = some dll.fresh
  length : dll'.length = dll.length + 1
  fresh : dll'.fresh = dll.fresh + 1
  data : ∀ x, dataOf dll'.heap x = if x = dll.fresh then some a else dataOf dll.heap x
  next : ∀ x, nextOf dll'.heap x = if x = dll.fresh then dll.head else nextOf dll.heap x
  prev : ∀ x, prevOf dll'.heap x =
    if dll.head = some x then some dll.fresh
    else if x = dll.fresh then none else prevOf dll.heap x

theorem pushFront_pushed {a : α} {x : ℕ}
    (hs : doublyLinkedListPushFront dll a = some (dll', x)) :
    x = dll.fresh ∧ Pushed dll dll' a := by
  obtain ⟨hdata, hnext, hprev⟩ := update_links dll.heap dll.fresh (some ⟨none, dll.head, a⟩)
  unfold doublyLinkedListPushFront at hs
  cases hhead : dll.head with
  | none =>
    rw [hhead] at hs hdata hnext hprev
    cases hs
    exact ⟨rfl, rfl, rfl, rfl, by simpa using hdata, by simpa [hhead] using hnext, by
      simpa [hhead] using hprev⟩
  | some next =>
    simp only [hhead, Option.bind_eq_bind, Option.bind_eq_some_iff, Option.some.injEq] at hs
    obtain ⟨heap, hset, hs⟩ := hs
    cases hs
    obtain ⟨hdata', hnext', hprev'⟩ := setPrev_links hset
    rw [hhead] at hdata hnext hprev
    refine ⟨rfl, rfl, rfl, rfl, fun x => ?_, fun x => ?_, fun x => ?_⟩
    · rw [hdata']
      simpa using hdata x
    · rw [hnext' x, hhead]
      simpa using hnext x
    · rw [hprev' x, hprev x, hhead]
      simp

theorem linksAgree_pushed {a : α} (h : LinksAgree dll) (hp : Pushed dll dll' a) :
    LinksAgree dll' := by
  have hfresh := h.fresh dll.fresh le_rfl
  have hhead : dll.head ≠ some dll.fresh := fun he => by
    have hlive := (h.first _ he).1
    rw [hfresh] at hlive
    cases hlive
  refine ⟨fun x y hxy => ?_, fun x y hxy hy => ?_, fun x hx => ?_, fun x hx => ?_,
    fun x y hxy => ?_, fun he => ?_⟩
  · rw [hp.next] at hxy
    rw [hp.prev]
    split_ifs at hxy with hx
    · rw [if_pos hxy, hx]
    · have hback := h.back x y hxy
      rw [if_neg, if_neg, hback]
      · intro heq
        subst heq
        rw [prevOf_none hfresh] at hback
        cases hback
      · intro he
        rw [(h.first y he).2] at hback
        cases hback
  · rw [hp.prev] at hxy
    rw [hp.next]
    split_ifs at hxy with hx hx'
    · cases hxy
      rw [if_pos rfl, hx]
    · have hlt := h.prevLt x y hxy
      rw [hp.data, if_neg hlt.ne] at hy
      rw [if_neg hlt.ne, h.forth x y hxy hy]
  · rw [hp.head] at hx
    cases hx
    rw [hp.data, hp.prev, if_pos rfl, if_neg hhead, if_pos rfl]
    exact ⟨rfl, rfl⟩
  · rw [hp.fresh] at hx
    rw [hp.data, if_neg (by omega)]
    exact h.fresh x (by omega)
  · rw [hp.prev] at hxy
    rw [hp.fresh]
    split_ifs at hxy
    · cases hxy
      exact Nat.lt_succ_self _
    · exact (h.prevLt x y hxy).trans (Nat.lt_succ_self _)
  · rw [hp.head] at he
    cases he

/-! ## move_to_front -/

structure Moved (dll dll' : DoublyLinkedList α) (node p front : ℕ) : Prop where
  old : dll.head = some front
  ne : front ≠ node
  prevNode : prevOf dll.heap node = some p
  live : (dataOf dll.heap node).isSome ∧ (dataOf dll.heap p).isSome
  head : dll'.head = some node
  length : dll'.length = dll.length
  fresh : dll'.fresh = dll.fresh
  data : dataOf dll'.heap = dataOf dll.heap
  next : ∀ x, nextOf dll'.heap x =
    if node = x then some front else if p = x then nextOf dll.heap node else nextOf dll.heap x
  prev : ∀ x, prevOf dll'.heap x =
    if node = x then none else if front = x then some node
    else if nextOf dll.heap node = some x then some p else prevOf dll.heap x

theorem moveToFront_moved {node : ℕ} (hs : doublyLinkedListMoveToFront dll node = some dll') :
    dll' = dll ∨ ∃ p front, Moved dll dll' node p front := by
  unfold doublyLinkedListMoveToFront at hs
  split_ifs at hs with hhead
  · exact Or.inl (Option.some.inj hs).symm
  · simp only [Option.bind_eq_bind, Option.bind_eq_some_iff, Option.some.injEq] at hs
    obtain ⟨nd, hnd, p, hp, h₁, hs₁, h₂, hs₂, h₃, hs₃, front, hhd, h₄, hs₄, h₅, hs₅, rfl⟩ := hs
    have hnext : nextOf dll.heap node = nd.next := by simp [nextOf, hnd]
    obtain ⟨d₁, n₁, p₁⟩ := setNext_links hs₁
    obtain ⟨d₂, n₂, p₂⟩ := setPrevIf_links hs₂
    obtain ⟨d₃, n₃, p₃⟩ := setNext_links hs₃
    obtain ⟨d₄, n₄, p₄⟩ := setPrev_links hs₄
    obtain ⟨d₅, n₅, p₅⟩ := setPrev_links hs₅
    refine Or.inr ⟨p, front, hhd, fun he => hhead (he ▸ hhd), by simp [prevOf, hnd, hp],
      ⟨by simp [dataOf, hnd], ?_⟩, rfl, rfl, rfl, ?_, fun x => ?_, fun x => ?_⟩
    · obtain ⟨nd', hnd', _⟩ := Option.map_eq_some_iff.mp hs₁
      simp [dataOf, hnd']
    · rw [d₅, d₄, d₃, d₂, d₁]
    · simp only [n₅, n₄, n₃, n₂, n₁, hnext, hhd]
    · simp only [p₅, p₄, p₃, p₂, p₁, hnext]

theorem LinksAgree.lt_fresh (h : LinksAgree dll) {x : ℕ} (hx : (dataOf dll.heap x).isSome) :
    x < dll.fresh := by
  by_contra hle
  rw [h.fresh x (not_lt.mp hle)] at hx
  cases hx

theorem linksAgree_moved {node p front : ℕ} (h : LinksAgree dll)
    (hm : Moved dll dll' node p front) : LinksAgree dll' := by
  have hforth := h.forth node p hm.prevNode hm.live.2
  have hfirst := (h.first front hm.old).2
  refine ⟨fun x y hxy => ?_, fun x y hxy hy => ?_, fun x hx => ?_, fun x hx => ?_,
    fun x y hxy => ?_, fun he => ?_⟩
  · rw [hm.next] at hxy
    rw [hm.prev]
    split_ifs at hxy with hnode hp
    · cases hxy
      rw [if_neg hm.ne.symm, if_pos rfl, hnode]
    · have hback := h.back node y hxy
      grind [hm.prevNode]
    · have hback := h.back x y hxy
      grind [hm.prevNode, h.back node y]
  · rw [hm.prev] at hxy
    rw [hm.data] at hy
    rw [hm.next]
    split_ifs at hxy with hnode hfront hnext
    · cases hxy
      rw [if_pos rfl, hfront]
    · cases hxy
      grind
    · have hy' := h.forth x y hxy hy
      grind
  · rw [hm.head] at hx
    cases hx
    rw [hm.data, hm.prev, if_pos rfl]
    exact ⟨hm.live.1, rfl⟩
  · rw [hm.fresh] at hx
    rw [hm.data]
    exact h.fresh x hx
  · rw [hm.prev] at hxy
    rw [hm.fresh]
    split_ifs at hxy
    · exact Option.some.inj hxy ▸ h.lt_fresh hm.live.1
    · exact Option.some.inj hxy ▸ h.lt_fresh hm.live.2
    · exact h.prevLt x y hxy
  · rw [hm.head] at he
    cases he

/-! ## pop_tail -/

structure Popped (dll dll' : DoublyLinkedList α) (tail : ℕ) : Prop where
  ne : dll.head ≠ some tail
  nonempty : dll.head ≠ none
  head : dll'.head = dll.head
  fresh : dll'.fresh = dll.fresh
  data : ∀ x, dataOf dll'.heap x = if x = tail then none else dataOf dll.heap x
  next : ∀ x, nextOf dll'.heap x =
    if x = tail ∨ prevOf dll.heap tail = some x then none else nextOf dll.heap x
  prev : ∀ x, prevOf dll'.heap x = if x = tail then none else prevOf dll.heap x

theorem popTail_popped {o : Option α} (h : LinksAgree dll) (hlen : 1 < dll.length)
    (hs : doublyLinkedListPopTail dll = some (o, dll')) :
    ∃ tail, o = dataOf dll.heap tail ∧ o.isSome ∧ Popped dll dll' tail := by
  unfold doublyLinkedListPopTail at hs
  rw [if_neg (by omega)] at hs
  simp only [Option.bind_eq_bind, Option.bind_eq_some_iff, if_pos hlen, Option.some.injEq,
    Prod.mk.injEq] at hs
  obtain ⟨tail, htail, last, hlast, newTail, hprev, nd, hnd, h₁, hs₁, h₂, hs₂, rfl, rfl⟩ := hs
  have hprevTail : prevOf dll.heap tail = some newTail := by simp [prevOf, hlast, hprev]
  have hnext : nd.next = some tail := by
    have hforth := h.forth tail newTail hprevTail (by simp [dataOf, hnd])
    simpa [nextOf, hnd] using hforth
  rw [hnext] at hs₁
  obtain ⟨_, _, rfl⟩ := Option.map_eq_some_iff.mp (show free dll.heap tail = some h₁ from hs₁)
  obtain ⟨d₁, n₁, p₁⟩ := update_links dll.heap tail none
  obtain ⟨d₂, n₂, p₂⟩ := setNext_links hs₂
  refine ⟨tail, by simp [dataOf, hlast], rfl, fun hhead => ?_, fun hnone => ?_, rfl, rfl,
    fun x => ?_, fun x => ?_, fun x => ?_⟩
  · rw [(h.first tail hhead).2] at hprevTail
    cases hprevTail
  · have hzero := h.empty hnone
    omega
  · rw [d₂, d₁]
    rfl
  · rw [n₂, n₁, hprevTail]
    grind
  · rw [p₂, p₁]
    rfl

theorem linksAgree_popped {tail : ℕ} (h : LinksAgree dll) (hp : Popped dll dll' tail) :
    LinksAgree dll' := by
  refine ⟨fun x y hxy => ?_, fun x y hxy hy => ?_, fun x hx => ?_, fun x hx => ?_,
    fun x y hxy => ?_, fun he => ?_⟩
  · rw [hp.next] at hxy
    rw [hp.prev]
    split_ifs at hxy with hx
    have hback := h.back x y hxy
    grind
  · rw [hp.prev] at hxy
    rw [hp.data] at hy
    rw [hp.next]
    split_ifs at hxy with hx
    split_ifs at hy with hy'
    · cases hy
    · have hforth := h.forth x y hxy hy
      grind [h.forth tail y]
  · rw [hp.head] at hx
    have hne : x ≠ tail := by
      intro heq
      subst heq
      exact hp.ne hx
    rw [hp.data, hp.prev, if_neg hne, if_neg hne]
    exact h.first x hx
  · rw [hp.fresh] at hx
    rw [hp.data, h.fresh x hx, ite_self]
  · rw [hp.prev] at hxy
    rw [hp.fresh]
    split_ifs at hxy
    exact h.prevLt x y hxy
  · exact absurd (hp.head.symm.trans he) hp.nonempty

end Cerverus.Dll
