import Cerverus.HashmapRefines

/-!
# Rehashing

The live entries, put one by one in the order of their slots into a fresh table of load 1.
The layout changes; what the table holds does not, and no tombstone is left.
-/
namespace Cerverus.Hash

variable {β : Type}

/-! ## The size of the new table -/

theorem roundHalfEven_of_dvd {num den : ℕ} (hden : 0 < den) (h : den ∣ num) :
    roundHalfEven num den = num / den := by
  have hmod : num % den = 0 := Nat.mod_eq_zero_of_dvd h
  rw [roundHalfEven, if_neg]
  omega

theorem roundHalfEven_le (num den : ℕ) : roundHalfEven num den ≤ num / den + 1 := by
  unfold roundHalfEven
  split_ifs <;> omega

theorem truncDouble_exact {r k : ℕ} (hr : r ≤ 2 ^ 53) :
    truncDouble (r * 2 ^ k) 1 = r * 2 ^ k := by
  simp only [truncDouble, Nat.div_one, one_mul]
  split_ifs with he
  · rw [roundHalfEven_of_dvd one_pos (one_dvd _), Nat.div_one]
    exact Nat.mul_div_cancel _ (by positivity)
  · have hdvd : 2 ^ (Nat.log2 (r * 2 ^ k) - 52) ∣ r * 2 ^ k := by
      by_cases hlow : Nat.log2 (r * 2 ^ k) - 52 ≤ k
      · exact Dvd.dvd.mul_left (Nat.pow_dvd_pow 2 hlow) r
      · -- only the power of two itself has its highest bit so far up
        have hne : r * 2 ^ k ≠ 0 := fun h0 => by simp [h0] at he
        have hge : 2 ^ (53 + k) ≤ r * 2 ^ k :=
          (Nat.pow_le_pow_right (by norm_num) (by omega)).trans (Nat.log2_self_le hne)
        rw [pow_add] at hge
        have hr' : r = 2 ^ 53 := le_antisymm hr (Nat.le_of_mul_le_mul_right hge (by positivity))
        rw [hr', ← pow_add, Nat.log2_two_pow]
        exact Nat.pow_dvd_pow 2 (by omega)
    rw [roundHalfEven_of_dvd (by positivity) hdvd, Nat.div_mul_cancel hdvd]

theorem exists_truncDouble (num den : ℕ) :
    ∃ r k, r ≤ 2 ^ 53 ∧ truncDouble num den = r * 2 ^ k := by
  have hlog : num / den < 2 ^ (Nat.log2 (num / den) + 1) := Nat.lt_log2_self
  simp only [truncDouble]
  split_ifs with he
  · refine ⟨_, 0, ?_, (mul_one _).symm⟩
    have hscaled : num * 2 ^ (52 - Nat.log2 (num / den)) / den < 2 ^ 53 := by
      rcases Nat.eq_zero_or_pos den with hden | hden
      · simp [hden]
      · rw [Nat.div_lt_iff_lt_mul hden] at hlog ⊢
        have h53 : (2 : ℕ) ^ 53 =
            2 ^ (Nat.log2 (num / den) + 1) * 2 ^ (52 - Nat.log2 (num / den)) := by
          rw [← pow_add]
          congr 1
          omega
        rw [h53, mul_right_comm]
        exact Nat.mul_lt_mul_of_pos_right hlog (by positivity)
    exact (Nat.div_le_self _ _).trans ((roundHalfEven_le _ _).trans hscaled)
  · refine ⟨_, Nat.log2 (num / den) - 52, (roundHalfEven_le _ _).trans ?_, rfl⟩
    rw [← Nat.div_div_eq_div_mul]
    apply Nat.succ_le_of_lt
    rw [Nat.div_lt_iff_lt_mul (by positivity), ← pow_add]
    refine hlog.trans_le (Nat.pow_le_pow_right (by norm_num) ?_)
    omega

theorem roundHalfEven_scale (num den : ℕ) {c : ℕ} (hc : 0 < c) :
    roundHalfEven (num * c) (den * c) = roundHalfEven num den := by
  have hlt : den * c < 2 * (num % den * c) ↔ den < 2 * (num % den) := by
    rw [← mul_assoc]
    exact Nat.mul_lt_mul_right hc
  have heq : 2 * (num % den * c) = den * c ↔ 2 * (num % den) = den := by
    rw [← mul_assoc]
    exact Nat.mul_left_inj hc.ne'
  simp only [roundHalfEven, Nat.mul_mod_mul_right, Nat.mul_div_mul_right _ _ hc, hlt, heq]

theorem truncDouble_scale (num den : ℕ) {c : ℕ} (hc : 0 < c) :
    truncDouble (num * c) (den * c) = truncDouble num den := by
  simp only [truncDouble, Nat.mul_div_mul_right _ _ hc, mul_right_comm _ c,
    roundHalfEven_scale _ _ hc]

/-- The double written `1`. -/
def loadOne : ℕ := 2 ^ 53

/-- At load 1 a size that `hashmap_create` has computed is computed again. -/
theorem tableSize_of_truncDouble (num den : ℕ) :
    tableSize (truncDouble num den) loadOne = truncDouble num den := by
  obtain ⟨r, k, hr, heq⟩ := exists_truncDouble num den
  have hscale := truncDouble_scale (truncDouble num den) 1 (c := 2 ^ 53) (by positivity)
  rw [one_mul] at hscale
  rw [tableSize, loadOne, heq, truncDouble_exact hr, ← heq, hscale, heq, truncDouble_exact hr]

/-! ## The loop -/

def HashmapEntry.isLive : HashmapEntry β → Bool
  | .live _ _ => true
  | _ => false

/-- The loop of `hashmap_rehash` over the slots, with what `hashmap_set` returns each time. -/
def reinsert (hm : Hashmap β) : List ℕ → Hashmap β → Option (List Bool × Hashmap β)
  | [], new => some ([], new)
  | i :: is, new =>
    match hm.entries i with
    | .live key data =>
      (hashmapSet new key data).bind fun r =>
        (reinsert hm is r.2).map fun rest => (r.1 :: rest.1, rest.2)
    | _ => reinsert hm is new

def hashmapRehash (hm : Hashmap β) : Option (Hashmap β) :=
  (reinsert hm (List.range hm.size) (hashmapCreate hm.size loadOne hm.hash)).map (·.2)

def liveBelow (hm : Hashmap β) (n : ℕ) : ℕ :=
  ((Finset.range n).filter fun j => (hm.entries j).isLive).card

structure Reinserted (hm : Hashmap β) (n : ℕ) (new : Hashmap β) : Prop where
  probed : Probed new
  size : new.size = hm.size
  hash : new.hash = hm.hash
  holds : ∀ key data, Holds new key data ↔ ∃ j < n, hm.entries j = .live key data
  clean : ∀ j, new.entries j ≠ .tombstone
  count : emptySlots new + liveBelow hm n = hm.size

section
variable {hm new : Hashmap β} {n : ℕ}

theorem liveBelow_succ (hm : Hashmap β) (n : ℕ) :
    liveBelow hm (n + 1) = liveBelow hm n + if (hm.entries n).isLive then 1 else 0 := by
  rw [liveBelow, Finset.range_add_one, Finset.filter_insert, liveBelow]
  split_ifs
  · rw [Finset.card_insert_of_notMem (by simp)]
  · rfl

theorem liveBelow_le (hm : Hashmap β) (n : ℕ) : liveBelow hm n ≤ n :=
  (Finset.card_filter_le _ _).trans (Finset.card_range n).le

theorem emptySlots_add_liveBelow (hclean : ∀ j, hm.entries j ≠ .tombstone) :
    emptySlots hm + liveBelow hm hm.size = hm.size := by
  have hlive : ∀ j, (hm.entries j).isLive = true ↔ ¬ (hm.entries j).isEmpty = true := by
    intro j
    cases he : hm.entries j with
    | empty => simp [HashmapEntry.isLive, HashmapEntry.isEmpty]
    | live key data => simp [HashmapEntry.isLive, HashmapEntry.isEmpty]
    | tombstone => exact absurd he (hclean j)
  simp only [emptySlots, liveBelow, hlive]
  rw [Finset.card_filter_add_card_filter_not, Finset.card_range]

theorem reinsert_append (hm : Hashmap β) (is js : List ℕ) (new : Hashmap β) :
    reinsert hm (is ++ js) new =
      (reinsert hm is new).bind fun r =>
        (reinsert hm js r.2).map fun rest => (r.1 ++ rest.1, rest.2) := by
  induction is generalizing new with
  | nil => simp [reinsert]
  | cons i is ih =>
    rw [List.cons_append, reinsert, reinsert]
    cases hm.entries i with
    | live key data =>
      simp only [ih]
      cases hashmapSet new key data with
      | none => rfl
      | some r =>
        simp only [Option.bind_some]
        cases reinsert hm is r.2 with
        | none => rfl
        | some rest => simp [Function.comp_def]
    | empty => exact ih new
    | tombstone => exact ih new

theorem hashmapSet_frame {key : Bytes} {element : β} {ok : Bool}
    (h : hashmapSet hm key element = some (ok, new)) :
    new.hash = hm.hash ∧ ∀ j, new.entries j = .tombstone → hm.entries j = .tombstone := by
  obtain ⟨o, _, hr⟩ := Option.map_eq_some_iff.mp h
  cases o with
  | none =>
    cases hr
    exact ⟨rfl, fun _ he => he⟩
  | some i =>
    cases hr
    refine ⟨rfl, fun j he => ?_⟩
    change Function.update hm.entries i _ j = _ at he
    by_cases hij : j = i
    · subst hij
      rw [Function.update_self] at he
      cases he
    · rwa [Function.update_of_ne hij] at he

theorem reinserted_start (hp : Probed hm) (hsize : tableSize hm.size loadOne = hm.size) :
    Reinserted hm 0 (hashmapCreate hm.size loadOne hm.hash) := by
  rw [hashmapCreate_eq, hsize]
  refine ⟨(represents_fresh hm.hash hp.size_pos).probed, rfl, rfl, ?_,
    fun j he => (by cases he), ?_⟩
  · intro key data
    simp [Holds, freshTable]
  · simp [emptySlots, liveBelow, freshTable, HashmapEntry.isEmpty]

/-- A live slot is re-inserted: its key is not in the new table yet, and not all of that is
taken. -/
theorem reinserted_live (hp : Probed hm) (h : Reinserted hm n new) (hn : n < hm.size)
    {key : Bytes} {data : β} (he : hm.entries n = .live key data) :
    ∃ new', hashmapSet new key data = some (true, new') ∧ Reinserted hm (n + 1) new' := by
  have habsent : ∀ d, ¬ Holds new key d := by
    intro d hd
    obtain ⟨j, hj, he'⟩ := (h.holds key d).mp hd
    exact hj.ne (liveOnce_of_probed hp j (hj.trans hn) n hn key d data he' he)
  have hcount := h.count
  have hlive := liveBelow_le hm n
  rcases hashmapSet_spec h.probed key data with
    ⟨new', hset, hp', hsize, hholds, _, hempty⟩ | ⟨_, _, hfull⟩
  · obtain ⟨hhash, htomb⟩ := hashmapSet_frame hset
    refine ⟨new', hset, hp', hsize.trans h.size, hhash.trans h.hash, ?_,
      fun j hj => h.clean j (htomb j hj), ?_⟩
    · intro k d
      rw [hholds, h.holds]
      constructor
      · intro hor
        rcases hor with ⟨rfl, rfl⟩ | ⟨_, j, hj, he'⟩
        · exact ⟨n, Nat.lt_succ_self n, he⟩
        · exact ⟨j, hj.trans (Nat.lt_succ_self n), he'⟩
      · intro hex
        obtain ⟨j, hj, he'⟩ := hex
        rcases Nat.lt_succ_iff_lt_or_eq.mp hj with hlt | rfl
        · refine Or.inr ⟨fun hk => ?_, j, hlt, he'⟩
          subst hk
          exact habsent d ((h.holds k d).mpr ⟨j, hlt, he'⟩)
        · rw [he] at he'
          cases he'
          exact Or.inl ⟨rfl, rfl⟩
    · have hone := hempty habsent
      rw [liveBelow_succ, he]
      simp only [HashmapEntry.isLive, if_true]
      omega
  · omega

theorem reinserted_other (h : Reinserted hm n new) (he : (hm.entries n).isLive = false) :
    Reinserted hm (n + 1) new := by
  refine ⟨h.probed, h.size, h.hash, ?_, h.clean, ?_⟩
  · intro key data
    rw [h.holds]
    constructor
    · intro hex
      obtain ⟨j, hj, he'⟩ := hex
      exact ⟨j, hj.trans (Nat.lt_succ_self n), he'⟩
    · intro hex
      obtain ⟨j, hj, he'⟩ := hex
      rcases Nat.lt_succ_iff_lt_or_eq.mp hj with hlt | rfl
      · exact ⟨j, hlt, he'⟩
      · rw [he'] at he
        cases he
  · rw [liveBelow_succ, he]
    exact h.count

theorem reinsert_range (hp : Probed hm) (hsize : tableSize hm.size loadOne = hm.size)
    (hn : n ≤ hm.size) :
    ∃ results new,
      reinsert hm (List.range n) (hashmapCreate hm.size loadOne hm.hash) = some (results, new) ∧
      (∀ ok ∈ results, ok = true) ∧ Reinserted hm n new := by
  induction n with
  | zero => exact ⟨[], _, rfl, by simp, reinserted_start hp hsize⟩
  | succ n ih =>
    obtain ⟨results, new, hrun, hok, hinv⟩ := ih (Nat.le_of_succ_le hn)
    rw [List.range_succ, reinsert_append, hrun, Option.bind_some, reinsert]
    cases he : hm.entries n with
    | live key data =>
      obtain ⟨new', hset, hinv'⟩ := reinserted_live hp hinv hn he
      refine ⟨results ++ [true], new', by simp [hset, reinsert], ?_, hinv'⟩
      intro ok hmem
      rcases List.mem_append.mp hmem with hmem | hmem
      · exact hok ok hmem
      · exact List.mem_singleton.mp hmem
    | empty =>
      exact ⟨results, new, by simp [reinsert], hok, reinserted_other hinv (by rw [he]; rfl)⟩
    | tombstone =>
      exact ⟨results, new, by simp [reinsert], hok, reinserted_other hinv (by rw [he]; rfl)⟩

end

/-! ## Reachable tables -/

def Calls (hm hm' : Hashmap β) : Prop := ∃ c answer, call hm c = some (answer, hm')

structure Rehashed (hm new : Hashmap β) : Prop where
  size : new.size = hm.size
  get : ∀ key, hashmapGet new key = hashmapGet hm key
  clean : ∀ j < new.size, new.entries j ≠ .tombstone
  live : liveBelow new new.size = liveBelow hm hm.size
  set : liveBelow new new.size < new.size → ∀ key element, hashmapGet new key = some none →
    ∃ new', hashmapSet new key element = some (true, new')

section
variable {hm hm' new : Hashmap β}

theorem calls_probed (hp : Probed hm) (h : Calls hm hm') : Probed hm' ∧ hm'.size = hm.size := by
  obtain ⟨c, answer, hcall⟩ := h
  cases c with
  | set key element =>
    obtain ⟨r, hset, hr⟩ := Option.map_eq_some_iff.mp hcall
    cases hr
    rcases hashmapSet_spec hp key element with ⟨hm', hset', hp', hsize, _⟩ | ⟨hset', _⟩
    · cases hset.symm.trans hset'
      exact ⟨hp', hsize⟩
    · cases hset.symm.trans hset'
      exact ⟨hp, rfl⟩
  | get key =>
    obtain ⟨data, _, hr⟩ := Option.map_eq_some_iff.mp hcall
    cases hr
    exact ⟨hp, rfl⟩
  | delete key =>
    obtain ⟨r, hdel, hr⟩ := Option.map_eq_some_iff.mp hcall
    cases hr
    obtain ⟨ok, hm', hdel', hp', hsize, _⟩ := hashmapDelete_spec hp key
    cases hdel.symm.trans hdel'
    exact ⟨hp', hsize⟩

theorem reachable_probed {n : ℕ} {hash : Bytes → UInt64} (hn : 1 ≤ n)
    (h : Relation.ReflTransGen Calls (freshTable n hash) hm) : Probed hm ∧ hm.size = n := by
  induction h with
  | refl => exact ⟨(represents_fresh hash hn).probed, rfl⟩
  | tail _ hcall ih =>
    obtain ⟨hp, hsize⟩ := calls_probed ih.1 hcall
    exact ⟨hp, hsize.trans ih.2⟩

theorem hashmapGet_congr (hp : Probed hm) (hp' : Probed new)
    (h : ∀ key data, Holds new key data ↔ Holds hm key data) (key : Bytes) :
    hashmapGet new key = hashmapGet hm key := by
  obtain ⟨data, hget⟩ := hashmapGet_isSome hp key
  rw [hget]
  cases data with
  | some d => exact (hashmapGet_eq_some hp').mpr ((h key d).mpr ((hashmapGet_eq_some hp).mp hget))
  | none =>
    refine (hashmapGet_eq_none hp').mpr fun d hd => ?_
    exact (hashmapGet_eq_none hp).mp hget d ((h key d).mp hd)

theorem rehashed_of_reinserted (hp : Probed hm) (h : Reinserted hm hm.size new) :
    Rehashed hm new := by
  have hcount := emptySlots_add_liveBelow h.clean
  have hold := h.count
  rw [h.size] at hcount
  refine ⟨h.size, hashmapGet_congr hp h.probed h.holds, fun j _ => h.clean j, ?_, ?_⟩
  · rw [h.size]
    omega
  · intro hroom key element habsent
    rcases hashmapSet_spec h.probed key element with ⟨new', hset, _⟩ | ⟨_, _, hfull⟩
    · exact ⟨new', hset⟩
    · rw [h.size] at hroom
      omega

/-- Whatever the hash function, and whatever calls were made on a table of the size
`hashmap_create` computed as a quotient of doubles: rehashing puts every live entry into a table
of the same size, which answers the same, has no tombstone, and takes new keys until every slot
is live. -/
theorem rehash_preserves {num den : ℕ} {hash : Bytes → UInt64}
    (hsize : 1 ≤ truncDouble num den)
    (hreach : Relation.ReflTransGen Calls (freshTable (truncDouble num den) hash) hm) :
    ∃ results new,
      reinsert hm (List.range hm.size) (hashmapCreate hm.size loadOne hm.hash) =
        some (results, new) ∧
      hashmapRehash hm = some new ∧ (∀ ok ∈ results, ok = true) ∧ Rehashed hm new := by
  obtain ⟨hp, hn⟩ := reachable_probed hsize hreach
  have hsame : tableSize hm.size loadOne = hm.size := by
    rw [hn]
    exact tableSize_of_truncDouble num den
  obtain ⟨results, new, hrun, hok, hinv⟩ := reinsert_range hp hsame le_rfl
  exact ⟨results, new, hrun, by rw [hashmapRehash, hrun]; rfl, hok, rehashed_of_reinserted hp hinv⟩

def oneKeyTable : Hashmap ℕ :=
  setEntry (freshTable (truncDouble 2 1) fun _ => 1) 1 (.live [97] 1)

/-- Two keys that collide in two slots. -/
def fullTable : Hashmap ℕ := setEntry oneKeyTable 0 (.live [98] 2)

/-- A tombstone where the first of them was. -/
def clutteredTable : Hashmap ℕ := setEntry fullTable 1 .tombstone

theorem rehash_preserves_cluttered :
    ∃ results new,
      reinsert clutteredTable (List.range clutteredTable.size)
        (hashmapCreate clutteredTable.size loadOne clutteredTable.hash) = some (results, new) ∧
      hashmapRehash clutteredTable = some new ∧ (∀ ok ∈ results, ok = true) ∧
      Rehashed clutteredTable new := by
  have hone : Calls (freshTable (truncDouble 2 1) fun _ => 1) oneKeyTable :=
    ⟨.set [97] 1, .stored true, rfl⟩
  have htwo : Calls oneKeyTable fullTable :=
    ⟨.set [98] 2, .stored true, by simp only [call]; rfl⟩
  have hdelete : Calls fullTable clutteredTable := ⟨.delete [97], .deleted true, rfl⟩
  exact @rehash_preserves ℕ clutteredTable 2 1 _ (by decide)
    (((Relation.ReflTransGen.single hone).tail htwo).tail hdelete)

end

end Cerverus.Hash
