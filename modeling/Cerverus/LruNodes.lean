import Cerverus.LinksAgree
import Cerverus.LruCache

/-!
# The nodes of the cache

Whatever the list has come to, a label in the index leads to a node of that label or to one
that was freed, and an addition that evicts hands out the data of the one node it frees.
-/
namespace Cerverus.Lru
open LinkedHeap Dll Hash

variable {β : Type}

/-- The entry at an address, in the list or no longer. -/
def entryAt (cache : LruCache β) : ℕ → Option (DllEntry β) := dataOf cache.dll.heap

/-- The address of a node of that label, or of one that was freed. -/
structure Keyed (dll : DoublyLinkedList (DllEntry β)) (k : Bytes) (x : ℕ) : Prop where
  lt : x < dll.fresh
  key : ∀ e, dataOf dll.heap x = some e → e.hmapKey = k

structure Wired (cache : LruCache β) : Prop where
  links : LinksAgree cache.dll
  probed : Probed cache.hmap
  keyed : ∀ k x, Holds cache.hmap k x → Keyed cache.dll k x
  size_pos : 1 ≤ cache.size

theorem wired_create (hash : Bytes → UInt64) {size : ℕ} (h : 1 ≤ size) :
    Wired (lruCacheCreateWith hash size : LruCache β) :=
  ⟨linksAgree_create, probed_create hash h (by decide) (by decide),
    (fun _ _ ⟨_, _, he⟩ => by cases he), h⟩

section
variable {cache cache' : LruCache β} {label : Bytes}

theorem wired_get {o : Option (ℕ × β)} (h : Wired cache)
    (hs : lruCacheGet cache label = some (o, cache')) :
    Wired cache' ∧ entryAt cache' = entryAt cache ∧
      ∀ x b, o = some (x, b) → entryAt cache x = some ⟨label, b⟩ := by
  simp only [lruCacheGet, Option.bind_eq_bind, Option.bind_eq_some_iff] at hs
  obtain ⟨found, hfound, hs⟩ := hs
  cases found with
  | none =>
    cases hs
    exact ⟨h, rfl, fun _ _ ho => by cases ho⟩
  | some item =>
    simp only [Option.bind_eq_some_iff, Option.some.injEq, Prod.mk.injEq] at hs
    obtain ⟨dll, hmove, nd, hnd, rfl, rfl⟩ := hs
    have hholds := (hashmapGet_eq_some h.probed).mp hfound
    have hmoved : LinksAgree dll ∧ dll.fresh = cache.dll.fresh ∧
        dataOf dll.heap = dataOf cache.dll.heap := by
      rcases moveToFront_moved hmove with rfl | ⟨p, front, hm⟩
      · exact ⟨h.links, rfl, rfl⟩
      · exact ⟨linksAgree_moved h.links hm, hm.fresh, hm.data⟩
    obtain ⟨hlinks, hfresh, hdata⟩ := hmoved
    refine ⟨⟨hlinks, h.probed, fun k x hx => ?_, h.size_pos⟩, hdata, ?_⟩
    · obtain ⟨hlt, hkey⟩ := h.keyed k x hx
      exact ⟨hfresh ▸ hlt, hdata ▸ hkey⟩
    · intro x b heq
      cases heq
      have hentry : entryAt cache item = some nd.data := by
        rw [entryAt, ← hdata, dataOf, hnd]
        rfl
      rw [hentry, ← (h.keyed label item hholds).key nd.data hentry]

/-- What an addition does to the entries: the new one is at a new address, and the one evicted
is gone. -/
inductive Added (cache : LruCache β) (label : Bytes) (item : β) (r : AddResult β) : Prop
  | room : r.evicted = none →
      (∀ x, entryAt r.cache x =
        if x = r.newNode then some ⟨label, item⟩ else entryAt cache x) →
      Added cache label item r
  | evicted (tail : ℕ) (k : Bytes) (b : β) : r.evicted = some b → tail ≠ r.newNode →
      entryAt cache tail = some ⟨k, b⟩ →
      (∀ x, entryAt r.cache x =
        if x = tail then none
        else if x = r.newNode then some ⟨label, item⟩ else entryAt cache x) →
      Added cache label item r

section
variable {dll dll' : DoublyLinkedList (DllEntry β)} {hmap hmap' : Hashmap ℕ} {e : DllEntry β}
  {k : Bytes} {x : ℕ}

theorem keyed_pushed (h : Keyed dll k x) (hp : Pushed dll dll' e) : Keyed dll' k x := by
  constructor
  · rw [hp.fresh]
    exact h.lt.trans (Nat.lt_succ_self _)
  · intro e' he'
    rw [hp.data, if_neg h.lt.ne] at he'
    exact h.key e' he'

theorem keyed_new (hp : Pushed dll dll' e) : Keyed dll' e.hmapKey dll.fresh := by
  constructor
  · rw [hp.fresh]
    exact Nat.lt_succ_self _
  · intro e' he'
    rw [hp.data, if_pos rfl] at he'
    cases he'
    rfl

theorem keyed_popped {tail : ℕ} (h : Keyed dll k x) (hp : Popped dll dll' tail) :
    Keyed dll' k x := by
  refine ⟨hp.fresh ▸ h.lt, fun e' he' => ?_⟩
  rw [hp.data] at he'
  split_ifs at he' with hx
  exact h.key e' he'

theorem keyed_hashmapSet {ok : Bool} {node : ℕ} (hp : Probed hmap)
    (hs : hashmapSet hmap label node = some (ok, hmap')) (hnew : Keyed dll label node)
    (hold : ∀ k x, Holds hmap k x → Keyed dll k x) :
    Probed hmap' ∧ ∀ k x, Holds hmap' k x → Keyed dll k x := by
  rcases hashmapSet_spec hp label node with ⟨hmap₁, hset, hp₁, _, hholds, _⟩ | ⟨hset, _⟩
  · rw [hset] at hs
    cases hs
    refine ⟨hp₁, fun k x hx => ?_⟩
    rcases (hholds k x).mp hx with ⟨rfl, rfl⟩ | ⟨_, hx⟩
    · exact hnew
    · exact hold k x hx
  · rw [hset] at hs
    cases hs
    exact ⟨hp, hold⟩

end

theorem evictOver_cases {size : ℕ} {dll dll' : DoublyLinkedList (DllEntry β)}
    {hmap hmap' : Hashmap ℕ} {evicted : Option (DllEntry β)} (hsize : 1 ≤ size)
    (hlinks : LinksAgree dll) (hs : evictOver size dll hmap = some (evicted, dll', hmap')) :
    (evicted = none ∧ dll' = dll ∧ hmap' = hmap) ∨
      ∃ tail e ok, evicted = some e ∧ dataOf dll.heap tail = some e ∧ Popped dll dll' tail ∧
        hashmapDelete hmap e.hmapKey = some (ok, hmap') := by
  unfold evictOver at hs
  split_ifs at hs with hfull
  · simp only [Option.bind_eq_bind, Option.bind_eq_some_iff, Option.some.injEq,
      Prod.mk.injEq] at hs
    obtain ⟨⟨popped, dll₁⟩, hpop, e, rfl, ⟨ok, hmap₁⟩, hdel, rfl, rfl, rfl⟩ := hs
    obtain ⟨tail, hdata, _, hpopped⟩ := popTail_popped hlinks (by omega) hpop
    exact Or.inr ⟨tail, e, ok, rfl, hdata.symm, hpopped, hdel⟩
  · cases hs
    exact Or.inl ⟨rfl, rfl, rfl⟩

/-- An addition hands out the data of the one node it frees. -/
theorem wired_add {item : β} {r : AddResult β} (h : Wired cache)
    (hs : lruCacheAdd cache label item = some r) :
    Wired r.cache ∧ entryAt cache r.newNode = none ∧ Added cache label item r := by
  simp only [lruCacheAdd, Option.bind_eq_bind, Option.bind_eq_some_iff, Option.some.injEq] at hs
  obtain ⟨_, _, ⟨dll, node⟩, hpush, ⟨evicted, dll', hmap⟩, hevict, ⟨ok, hmap'⟩, hset, rfl⟩ := hs
  obtain ⟨rfl, hpushed⟩ := pushFront_pushed hpush
  have hlinks := linksAgree_pushed h.links hpushed
  have hfree : entryAt cache cache.dll.fresh = none := h.links.fresh _ le_rfl
  rcases evictOver_cases h.size_pos hlinks hevict with
    ⟨rfl, rfl, rfl⟩ | ⟨tail, e, ok', rfl, hdata, hpopped, hdel⟩
  · obtain ⟨hp, hk⟩ := keyed_hashmapSet h.probed hset (keyed_new hpushed) fun k x hx =>
      keyed_pushed (h.keyed k x hx) hpushed
    exact ⟨⟨hlinks, hp, hk, h.size_pos⟩, hfree, .room rfl hpushed.data⟩
  · obtain ⟨ok₁, hmap₁, hdel', hp₁, _, hholds, _⟩ := hashmapDelete_spec h.probed e.hmapKey
    rw [hdel'] at hdel
    cases hdel
    have hnew := keyed_popped (keyed_new hpushed) hpopped
    obtain ⟨hp, hk⟩ := keyed_hashmapSet hp₁ hset hnew fun k x hx =>
      keyed_popped (keyed_pushed (h.keyed k x ((hholds k x).mp hx).2) hpushed) hpopped
    have hne : tail ≠ cache.dll.fresh := fun he => hpopped.ne (he ▸ hpushed.head)
    rw [hpushed.data, if_neg hne] at hdata
    refine ⟨⟨linksAgree_popped hlinks hpopped, hp, hk, h.size_pos⟩, hfree,
      .evicted tail e.hmapKey e.data rfl hne hdata fun x => ?_⟩
    have hentry := hpopped.data x
    rw [hpushed.data] at hentry
    exact hentry

end

end Cerverus.Lru
