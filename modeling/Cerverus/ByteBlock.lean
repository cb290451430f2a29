import Mathlib

/-!
# Blocks of memory

A block is what `malloc` returns: cells that hold nothing until they are written. Reading or
writing past the end is refused. `StartsWith` is what is known of a block that is filled from
the front.
-/
namespace Cerverus.ByteBlock

variable {α : Type*}

/-- The cells of a block; `none` is one that has not been written. -/
abbrev Block (α : Type*) := List (Option α)

def malloc (n : ℕ) : Block α := List.replicate n none

/-- The cells both sizes have are kept. -/
def realloc (b : Block α) (n : ℕ) : Block α := b.take n ++ malloc (n - b.length)

/-- `memcpy` or `memmove` into the block. -/
def write (b : Block α) (off : ℕ) (src : Block α) : Option (Block α) :=
  if off + src.length ≤ b.length then some (b.take off ++ src ++ b.drop (off + src.length))
  else none

def read (b : Block α) (off len : ℕ) : Option (Block α) :=
  if off + len ≤ b.length then some ((b.drop off).take len) else none

def StartsWith (b : Block α) (s : List α) : Prop := s.map some <+: b

section
variable {b b' src : Block α} {s t : List α} {off len n k : ℕ}

@[simp] theorem length_malloc (n : ℕ) : (malloc n : Block α).length = n := List.length_replicate

@[simp] theorem length_realloc (b : Block α) (n : ℕ) : (realloc b n).length = n := by
  simp only [realloc, List.length_append, List.length_take, length_malloc]
  omega

theorem write_eq_some : write b off src = some b' ↔ off + src.length ≤ b.length ∧
    b' = b.take off ++ src ++ b.drop (off + src.length) := by
  unfold write
  split_ifs with h
  · simp [h, eq_comm]
  · simp [h]

theorem write_isSome (b : Block α) (off : ℕ) (src : Block α) (h : off + src.length ≤ b.length) :
    ∃ b', write b off src = some b' :=
  ⟨_, write_eq_some.mpr ⟨h, rfl⟩⟩

theorem length_write (h : write b off src = some b') : b'.length = b.length := by
  obtain ⟨hle, rfl⟩ := write_eq_some.mp h
  simp only [List.length_append, List.length_take, List.length_drop]
  omega

theorem StartsWith.length_le (h : StartsWith b s) : s.length ≤ b.length := by
  have hle := List.IsPrefix.length_le h
  rwa [List.length_map] at hle

theorem StartsWith.of_append (h : StartsWith b (s ++ t)) : StartsWith b s := by
  unfold StartsWith at h
  rw [List.map_append] at h
  exact (List.prefix_append _ _).trans h

/-- What is written into or behind the known part, and what is known before it. -/
theorem StartsWith.write (h : StartsWith b s) (hk : k ≤ s.length)
    (hw : ByteBlock.write b k (t.map some) = some b') : StartsWith b' (s.take k ++ t) := by
  obtain ⟨_, rfl⟩ := write_eq_some.mp hw
  obtain ⟨rest, rfl⟩ := h
  have htake : (s.map some ++ rest).take k = (s.take k).map some := by
    rw [List.take_append_of_le_length (by rwa [List.length_map]), List.map_take]
  unfold StartsWith
  rw [htake, List.map_append]
  exact List.prefix_append _ _

theorem StartsWith.append (h : StartsWith b s)
    (hw : ByteBlock.write b s.length (t.map some) = some b') : StartsWith b' (s ++ t) := by
  have hw' := h.write le_rfl hw
  rwa [List.take_length] at hw'

theorem StartsWith.overwrite (h : StartsWith b s) (hk : k + t.length ≤ s.length)
    (hw : ByteBlock.write b k (t.map some) = some b') :
    StartsWith b' (s.take k ++ t ++ s.drop (k + t.length)) := by
  obtain ⟨_, rfl⟩ := write_eq_some.mp hw
  obtain ⟨rest, rfl⟩ := h
  unfold StartsWith
  rw [List.take_append_of_le_length (by rw [List.length_map]; omega), List.length_map,
    List.drop_append_of_le_length (by rwa [List.length_map]), List.map_append, List.map_append,
    List.map_take, List.map_drop, ← List.append_assoc]
  exact List.prefix_append _ _

theorem startsWith_write (hw : ByteBlock.write b 0 (t.map some) = some b') : StartsWith b' t := by
  have h : StartsWith b ([] : List α) := List.nil_prefix
  exact h.append hw

theorem StartsWith.realloc (h : StartsWith b s) (hn : s.length ≤ n) :
    StartsWith (ByteBlock.realloc b n) s := by
  obtain ⟨rest, rfl⟩ := h
  unfold StartsWith ByteBlock.realloc
  rw [List.take_append, List.take_of_length_le (by rwa [List.length_map]), List.append_assoc]
  exact List.prefix_append _ _

theorem StartsWith.read (h : StartsWith b s) (off len : ℕ) (hle : off + len ≤ s.length) :
    ByteBlock.read b off len = some (((s.drop off).take len).map some) := by
  have hb := h.length_le
  obtain ⟨rest, rfl⟩ := h
  unfold ByteBlock.read
  rw [if_pos (hle.trans hb), List.drop_append_of_le_length (by rw [List.length_map]; omega),
    List.take_append_of_le_length (by rw [List.length_drop, List.length_map]; omega),
    List.map_take, List.map_drop]

theorem mapM_known (s : List α) : (s.map some).mapM id = some s := by
  have hpure : s.mapM (fun a => (pure a : Option α)) = pure (s.map id) := List.mapM_pure
  rw [List.mapM_map]
  exact hpure.trans (by rw [List.map_id]; rfl)

end

end Cerverus.ByteBlock
