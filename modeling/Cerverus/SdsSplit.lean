import Cerverus.ByteBlock
import Cerverus.Bytes

/-!
# Splitting a string

`sdssplitlen` for separators of any length. The tokens are written into an array of slots that
grows with them; `ok n` says whether the `n`-th allocation succeeds. A function returns `none`
where it would write past the slots, free a token that is not there or count past an `int`, and
`some none` for a null pointer.
-/
namespace Cerverus.SdsSplit
open ByteBlock

structure Tokens where
  tokens : Block Bytes
  slots : ℕ
  elements : ℕ
  allocations : ℕ

/-- Where `goto cleanup` leads. -/
def cleanup (s : Tokens) : Option (Option (Block Bytes × ℕ)) :=
  (read s.tokens 0 s.elements).bind fun cells => (cells.mapM id).map fun _ => none

/-- Room for the next element and the final one; the answer is no where memory runs out. -/
def growSlots (ok : ℕ → Bool) (s : Tokens) : Option (Bool × Tokens) :=
  if s.slots < s.elements + 2 then
    let slots := s.slots * 2
    if 2 ^ 31 ≤ slots then none
    else if ok s.allocations then
      some (true, ⟨realloc s.tokens slots, slots, s.elements, s.allocations + 1⟩)
    else some (false, { s with slots := slots, allocations := s.allocations + 1 })
  else some (true, s)

def addToken (ok : ℕ → Bool) (s : Tokens) (token : Bytes) : Option (Bool × Tokens) :=
  if ok s.allocations then
    (write s.tokens s.elements [some token]).map fun tokens =>
      (true, ⟨tokens, s.slots, s.elements + 1, s.allocations + 1⟩)
  else some (false, { s with allocations := s.allocations + 1 })

/-- The comparison of the source, which has a case of its own for one byte. -/
def IsAt (sep s : Bytes) (j : ℕ) : Prop :=
  sep.length = 1 ∧ s[j]? = sep[0]? ∨ (s.drop j).take sep.length = sep

instance (sep s : Bytes) (j : ℕ) : Decidable (IsAt sep s j) := inferInstanceAs (Decidable (_ ∨ _))

/-- The loop, from the byte `j` with a token that has begun at `start`, and what follows it. -/
def splitLoop (ok : ℕ → Bool) (str sep : Bytes) (j start : ℕ) (s : Tokens) :
    Option (Option (Block Bytes × ℕ)) :=
  if j < str.length - (sep.length - 1) then
    (growSlots ok s).bind fun r =>
      if r.1 then
        if IsAt sep str j then
          (addToken ok r.2 ((str.drop start).take (j - start))).bind fun r =>
            if r.1 then splitLoop ok str sep (j + (sep.length - 1) + 1) (j + sep.length) r.2
            else cleanup r.2
        else splitLoop ok str sep (j + 1) start r.2
      else cleanup r.2
  else
    (addToken ok s (str.drop start)).bind fun r =>
      if r.1 then some (some (r.2.tokens, r.2.elements)) else cleanup r.2
termination_by str.length - j

/-- The array of tokens and their number. -/
def sdssplitlen (ok : ℕ → Bool) (str sep : Bytes) : Option (Option (Block Bytes × ℕ)) :=
  if sep.length < 1 ∨ str.length = 0 then some none
  else if ok 0 then splitLoop ok str sep 0 0 ⟨malloc 5, 5, 0, 1⟩
  else some none

/-! ## What a split is -/

/-- Each token ends where the separator occurs first. -/
inductive Splits (sep : Bytes) : Bytes → List Bytes → Prop
  | last {s : Bytes} (hno : memmem sep s = none) : Splits sep s [s]
  | cons {s : Bytes} {i : ℕ} {tokens : List Bytes} (hfirst : memmem sep s = some i)
      (rest : Splits sep (s.drop (i + sep.length)) tokens) : Splits sep s (s.take i :: tokens)

section
variable {sep s : Bytes} {tokens : List Bytes}

theorem Splits.ne_nil (h : Splits sep s tokens) : tokens ≠ [] := by
  cases h <;> exact List.cons_ne_nil _ _

theorem Splits.intercalate (h : Splits sep s tokens) : sep.intercalate tokens = s := by
  induction h with
  | last _ => exact List.intercalate_singleton
  | @cons s i tokens hfirst rest ih =>
    obtain ⟨⟨tail, htail⟩, _, _⟩ := memmem_eq_some.mp hfirst
    rw [List.intercalate_cons_of_ne_nil rest.ne_nil, ih]
    have hdrop : s.drop (i + sep.length) = tail := by
      rw [← List.drop_drop, ← htail, List.drop_left]
    rw [hdrop, List.append_assoc, htail, List.take_append_drop]

theorem Splits.no_separator (h : Splits sep s tokens) (hsep : sep ≠ []) :
    ∀ token ∈ tokens, memmem sep token = none := by
  induction h with
  | last hno => exact List.forall_mem_singleton.mpr hno
  | @cons s i tokens hfirst _ ih =>
    refine List.forall_mem_cons.mpr ⟨?_, ih⟩
    have hpos := List.length_pos_iff.mpr hsep
    by_contra hsome
    obtain ⟨k, hk⟩ := Option.ne_none_iff_exists'.mp hsome
    obtain ⟨hfirst', hle⟩ := (memmem_take hsep).mp hk
    rw [hfirst] at hfirst'
    cases hfirst'
    omega

theorem memmem_singleton_none {c : UInt8} (h : memmem [c] s = none) : c ∉ s := by
  intro hmem
  obtain ⟨before, behind, rfl⟩ := List.append_of_mem hmem
  have hpre : [c] <+: (before ++ c :: behind).drop before.length := by
    rw [List.drop_left]
    exact ⟨behind, rfl⟩
  obtain ⟨i, hi⟩ := memmem_isSome hpre
  rw [h] at hi
  cases hi

/-- For one byte, the tokens are those of the model of the callers. -/
theorem Splits.eq_splitOn {c : UInt8} (h : Splits [c] s tokens) : tokens = s.splitOn c := by
  have hno : ∀ token ∈ tokens, c ∉ token := fun token ht =>
    memmem_singleton_none (h.no_separator (List.cons_ne_nil _ _) token ht)
  rw [← h.intercalate, List.splitOn_intercalate c hno h.ne_nil]

end

/-! ## The loop -/

/-- The slots that are filled, with room for one more token. -/
structure Holds (s : Tokens) (tokens : List Bytes) : Prop where
  filled : StartsWith s.tokens tokens
  elements : s.elements = tokens.length
  slots : s.tokens.length = s.slots
  room : tokens.length < s.slots

/-- The tokens, or a null pointer where memory has run out. -/
def Yields (ok : ℕ → Bool) (Q : List Bytes → Prop) (result : Option (Option (Block Bytes × ℕ))) :
    Prop :=
  (∃ block tokens, result = some (some (block, tokens.length)) ∧ StartsWith block tokens ∧
    Q tokens) ∨ result = some none ∧ ∃ n, ok n = false

section
variable {ok : ℕ → Bool} {str sep : Bytes} {s : Tokens} {tokens : List Bytes} {j start : ℕ}

theorem cleanup_eq (hs : StartsWith s.tokens tokens) (he : s.elements = tokens.length) :
    cleanup s = some none := by
  have hread := hs.read 0 tokens.length (Nat.zero_add _).le
  rw [List.drop_zero, List.take_length] at hread
  rw [cleanup, he, hread, Option.bind_some, mapM_known]
  rfl

theorem growSlots_spec (ok : ℕ → Bool) (h : Holds s tokens) (hsmall : tokens.length + 2 ≤ 2 ^ 30) :
    (∃ s', growSlots ok s = some (true, s') ∧ Holds s' tokens ∧ tokens.length + 1 < s'.slots) ∨
      ∃ s', growSlots ok s = some (false, s') ∧ cleanup s' = some none ∧ ∃ n, ok n = false := by
  have hroom := h.room
  by_cases hfull : s.slots < s.elements + 2
  · have hint : ¬ 2 ^ 31 ≤ s.slots * 2 := by
      have helements := h.elements
      omega
    simp only [growSlots, if_pos hfull, if_neg hint]
    cases hok : ok s.allocations with
    | true =>
      refine .inl ⟨_, rfl, ⟨h.filled.realloc (by omega), h.elements, length_realloc _ _, ?_⟩, ?_⟩
      · dsimp only
        omega
      · dsimp only
        omega
    | false => exact .inr ⟨_, rfl, cleanup_eq h.filled h.elements, _, hok⟩
  · have helements := h.elements
    exact .inl ⟨s, by rw [growSlots, if_neg hfull], h, by omega⟩

theorem addToken_spec (ok : ℕ → Bool) (h : Holds s tokens) (token : Bytes) :
    (∃ s', addToken ok s token = some (true, s') ∧ StartsWith s'.tokens (tokens ++ [token]) ∧
      s'.elements = (tokens ++ [token]).length ∧ s'.tokens.length = s'.slots ∧
      s'.slots = s.slots) ∨
      ∃ s', addToken ok s token = some (false, s') ∧ cleanup s' = some none ∧
        ∃ n, ok n = false := by
  unfold addToken
  cases hok : ok s.allocations with
  | true =>
    obtain ⟨block, hw⟩ := write_isSome s.tokens s.elements [some token] (by
      rw [h.slots, h.elements, List.length_singleton]
      exact h.room)
    have hw' := hw
    rw [h.elements] at hw'
    refine .inl ⟨⟨block, s.slots, s.elements + 1, s.allocations + 1⟩, ?_, h.filled.append hw', ?_,
      (length_write hw).trans h.slots, rfl⟩
    · simp only [hw, if_true, Option.map_some]
    · rw [List.length_append, List.length_singleton, ← h.elements]
  | false => exact .inr ⟨_, rfl, cleanup_eq h.filled h.elements, _, hok⟩

theorem isAt_iff : IsAt sep str j ↔ sep <+: str.drop j := by
  have hstarts : (str.drop j).take sep.length = sep ↔ sep <+: str.drop j := by
    rw [List.prefix_iff_eq_take]
    exact eq_comm
  constructor
  · rintro (⟨hone, hbyte⟩ | heq)
    · obtain ⟨c, rfl⟩ := List.length_eq_one_iff.mp hone
      obtain ⟨hlt, hget⟩ := List.getElem?_eq_some_iff.mp (hbyte.trans rfl)
      rw [List.drop_eq_getElem_cons hlt, hget]
      exact ⟨_, rfl⟩
    · exact hstarts.mp heq
  · exact fun h => .inr (hstarts.mpr h)

theorem Yields.imp {Q Q' : List Bytes → Prop} {result : Option (Option (Block Bytes × ℕ))}
    (h : Yields ok Q result) (himp : ∀ tokens, Q tokens → Q' tokens) : Yields ok Q' result := by
  rcases h with ⟨block, tokens, hres, hstarts, hq⟩ | hnull
  · exact .inl ⟨block, tokens, hres, hstarts, himp tokens hq⟩
  · exact .inr hnull

theorem Yields.null {Q : List Bytes → Prop} {result : Option (Option (Block Bytes × ℕ))}
    (hres : result = some none) (hno : ∃ n, ok n = false) : Yields ok Q result :=
  .inr ⟨hres, hno⟩

theorem drop_scanned (hstart : start ≤ j) : (str.drop start).drop (j - start) = str.drop j := by
  rw [List.drop_drop, Nat.add_sub_cancel' hstart]

/-- The separator does not occur between `start` and `j`. -/
def Scanned (str sep : Bytes) (start j : ℕ) : Prop :=
  ∀ i < j - start, ¬ sep <+: (str.drop start).drop i

theorem scanned_self (start : ℕ) : Scanned str sep start start := by
  intro i hi
  omega

theorem Scanned.succ (h : Scanned str sep start j) (hstart : start ≤ j)
    (hat : ¬ IsAt sep str j) : Scanned str sep start (j + 1) := by
  intro i hi
  by_cases hlast : i = j - start
  · rw [hlast, drop_scanned hstart]
    exact fun hpre => hat (isAt_iff.mpr hpre)
  · exact h i (by omega)

theorem length_of_isAt (hsep : sep ≠ []) (hat : IsAt sep str j) :
    j + sep.length ≤ str.length := by
  have hpos := List.length_pos_iff.mpr hsep
  have hle := (isAt_iff.mp hat).length_le
  rw [List.length_drop] at hle
  omega

/-- The separator occurs first where the scan finds it. -/
theorem Scanned.memmem_eq (h : Scanned str sep start j) (hsep : sep ≠ []) (hstart : start ≤ j)
    (hat : IsAt sep str j) : memmem sep (str.drop start) = some (j - start) := by
  have hle := length_of_isAt hsep hat
  refine memmem_eq_some.mpr ⟨?_, ?_, h⟩
  · rw [drop_scanned hstart]
    exact isAt_iff.mp hat
  · rw [List.length_drop]
    omega

theorem Scanned.memmem_none (h : Scanned str sep start j) (hsep : sep ≠ [])
    (hj : ¬ j < str.length - (sep.length - 1)) : memmem sep (str.drop start) = none := by
  have hpos := List.length_pos_iff.mpr hsep
  by_contra hsome
  obtain ⟨i, hi⟩ := Option.ne_none_iff_exists'.mp hsome
  have hle := memmem_le hi
  rw [List.length_drop] at hle
  exact h i (by omega) (memmem_eq_some.mp hi).1

theorem addToken_last (ok : ℕ → Bool) (h : Holds s tokens) {token : Bytes}
    (hnone : memmem sep token = none) :
    Yields ok (fun all => ∃ more, all = tokens ++ more ∧ Splits sep token more)
      ((addToken ok s token).bind fun r =>
        if r.1 then some (some (r.2.tokens, r.2.elements)) else cleanup r.2) := by
  rcases addToken_spec ok h token with
    ⟨s₂, hadd, hfilled, helements, -, -⟩ | ⟨s₂, hadd, hclean, hno⟩
  · rw [hadd, Option.bind_some, if_pos rfl, helements]
    exact .inl ⟨s₂.tokens, _, rfl, hfilled, [token], rfl, .last hnone⟩
  · rw [hadd, Option.bind_some, if_neg Bool.false_ne_true]
    exact .null hclean hno

/-- A token that is not the final one, given what the rest of the loop does. -/
theorem addToken_next (ok : ℕ → Bool) (h : Holds s tokens) (hroom : tokens.length + 1 < s.slots)
    {text : Bytes} {i : ℕ} (hfirst : memmem sep text = some i)
    {rest : Tokens → Option (Option (Block Bytes × ℕ))}
    (hrest : ∀ s', Holds s' (tokens ++ [text.take i]) →
      Yields ok (fun all => ∃ more, all = (tokens ++ [text.take i]) ++ more ∧
        Splits sep (text.drop (i + sep.length)) more) (rest s')) :
    Yields ok (fun all => ∃ more, all = tokens ++ more ∧ Splits sep text more)
      ((addToken ok s (text.take i)).bind fun r => if r.1 then rest r.2 else cleanup r.2) := by
  rcases addToken_spec ok h (text.take i) with
    ⟨s₂, hadd, hfilled, helements, hslots, hsame⟩ | ⟨s₂, hadd, hclean, hno⟩
  · rw [hadd, Option.bind_some, if_pos rfl]
    have h₂ : Holds s₂ (tokens ++ [text.take i]) := by
      refine ⟨hfilled, helements, hslots, ?_⟩
      rw [List.length_append, List.length_singleton, hsame]
      exact hroom
    refine (hrest s₂ h₂).imp fun all hall => ?_
    obtain ⟨more, rfl, hsplits⟩ := hall
    exact ⟨_ :: more, List.append_assoc _ _ _, .cons hfirst hsplits⟩
  · rw [hadd, Option.bind_some, if_neg Bool.false_ne_true]
    exact .null hclean hno

theorem splitLoop_spec (ok : ℕ → Bool) (j start : ℕ) (hsep : sep ≠ [])
    (hlen : str.length + 2 ≤ 2 ^ 30) (h : Holds s tokens) (hstart : start ≤ j)
    (hcount : tokens.length ≤ start) (hbound : start ≤ str.length)
    (hscan : Scanned str sep start j) :
    Yields ok (fun all => ∃ more, all = tokens ++ more ∧ Splits sep (str.drop start) more)
      (splitLoop ok str sep j start s) := by
  have hpos := List.length_pos_iff.mpr hsep
  induction hn : str.length - j using Nat.strong_induction_on generalizing j start s tokens with
  | h n ih =>
  rw [splitLoop]
  by_cases hj : j < str.length - (sep.length - 1)
  · rw [if_pos hj]
    rcases growSlots_spec ok h (by omega) with ⟨s₁, hgrow, h₁, hroom⟩ | ⟨s₁, hgrow, hclean, hno⟩
    · rw [hgrow, Option.bind_some, if_pos rfl]
      by_cases hat : IsAt sep str j
      · rw [if_pos hat]
        have hle := length_of_isAt hsep hat
        have hnext : j + (sep.length - 1) + 1 = j + sep.length := by omega
        refine addToken_next ok h₁ hroom (hscan.memmem_eq hsep hstart hat) fun s₂ h₂ => ?_
        rw [← List.drop_drop, drop_scanned hstart, List.drop_drop, hnext]
        refine ih _ (by omega) _ _ h₂ le_rfl ?_ hle (scanned_self _) rfl
        rw [List.length_append, List.length_singleton]
        omega
      · rw [if_neg hat]
        exact ih _ (by omega) _ _ h₁ (by omega) hcount hbound (hscan.succ hstart hat) rfl
    · rw [hgrow, Option.bind_some, if_neg Bool.false_ne_true]
      exact .null hclean hno
  · rw [if_neg hj]
    exact addToken_last ok h (hscan.memmem_none hsep hj)

end

/-- An empty string or an empty separator gives a null pointer. On others that are not too long
for the slots to be counted, whatever allocation fails, the loop stays inside its slots and frees
only tokens it has made, and a null pointer means that memory ran out; otherwise the tokens with
the separator between them are the string, no token has the separator in it, and for a separator
of one byte they are the tokens the callers are modelled with. -/
theorem sdssplitlen_splits (ok : ℕ → Bool) (str sep : Bytes) :
    (str = [] ∨ sep = [] → sdssplitlen ok str sep = some none) ∧
      (str ≠ [] → sep ≠ [] → str.length + 2 ≤ 2 ^ 30 →
        Yields ok (fun tokens => sep.intercalate tokens = str ∧
          (∀ token ∈ tokens, memmem sep token = none) ∧
          ∀ c, sep = [c] → tokens = Cerverus.sdssplitlen str c) (sdssplitlen ok str sep)) := by
  constructor
  · intro hempty
    have hargs : sep.length < 1 ∨ str.length = 0 := by
      rw [Nat.lt_one_iff, List.length_eq_zero_iff, List.length_eq_zero_iff]
      exact hempty.symm
    rw [sdssplitlen, if_pos hargs]
  intro hstr hsep hlen
  have hargs : ¬ (sep.length < 1 ∨ str.length = 0) := by
    rw [not_or, not_lt, List.length_eq_zero_iff]
    exact ⟨List.length_pos_iff.mpr hsep, hstr⟩
  rw [sdssplitlen, if_neg hargs]
  cases hok : ok 0 with
  | false => exact .null rfl ⟨0, hok⟩
  | true =>
    have hfirst : Holds ⟨malloc 5, 5, 0, 1⟩ [] :=
      ⟨List.nil_prefix, rfl, length_malloc 5, by decide⟩
    refine (splitLoop_spec ok 0 0 hsep hlen hfirst le_rfl le_rfl (Nat.zero_le _)
      (scanned_self 0)).imp fun tokens hall => ?_
    obtain ⟨more, rfl, hsplits⟩ := hall
    rw [List.drop_zero] at hsplits
    refine ⟨hsplits.intercalate, hsplits.no_separator hsep, ?_⟩
    rintro c rfl
    rw [Cerverus.sdssplitlen, if_neg hstr]
    exact hsplits.eq_splitOn

/-- `/a//b` at its slashes. -/
theorem sdssplitlen_splits_path : Yields (fun _ => true)
    (fun tokens => List.intercalate [47] tokens = [47, 97, 47, 47, 98] ∧
      (∀ token ∈ tokens, memmem [47] token = none) ∧
      ∀ c, [47] = [c] → tokens = Cerverus.sdssplitlen [47, 97, 47, 47, 98] c)
    (sdssplitlen (fun _ => true) [47, 97, 47, 47, 98] [47]) :=
  (sdssplitlen_splits _ _ _).2 (by decide) (by decide) (by decide)

end Cerverus.SdsSplit
