import Cerverus.ByteBlock
import Cerverus.Response

/-!
# Numbers as strings

`sdsll2str` writes the digits of a number from the last one on and then reverses them in place.
A function returns `none` where it would write past the buffer.
-/
namespace Cerverus.SdsNumbers
open ByteBlock

/-- `SDS_LLSTR_SIZE`. -/
def sdsLlstrSize : ℕ := 21

/-- The absolute value, which `-value` does not give for the least number. -/
def magnitude (value : ℤ) : ℕ :=
  if value < 0 then if value ≠ -2 ^ 63 then (-value).toNat else 2 ^ 63 - 1 + 1 else value.toNat

/-- The `do` loop over the digits. -/
def writeDigits (v p : ℕ) (buf : Block UInt8) : Option (ℕ × Block UInt8) :=
  (write buf p [some (48 + v % 10).toUInt8]).bind fun buf =>
    if v / 10 = 0 then some (p + 1, buf) else writeDigits (v / 10) (p + 1) buf
termination_by v
decreasing_by omega

/-- The loop that reverses the string. -/
def reverseLoop (s p : ℕ) (buf : Block UInt8) : Option (Block UInt8) :=
  if s < p then
    (read buf s 1).bind fun aux => (read buf p 1).bind fun last =>
      (write buf s last).bind fun buf => (write buf p aux).bind fun buf =>
        reverseLoop (s + 1) (p - 1) buf
  else some buf
termination_by p - s

def writeSign (value : ℤ) (p : ℕ) (buf : Block UInt8) : Option (ℕ × Block UInt8) :=
  if value < 0 then (write buf p [some 45]).map fun buf => (p + 1, buf) else some (p, buf)

/-- The length of the string, and what has become of the buffer. -/
def sdsll2str (buf : Block UInt8) (value : ℤ) : Option (ℕ × Block UInt8) := do
  let (p, buf) ← writeDigits (magnitude value) 0 buf
  let (p, buf) ← writeSign value p buf
  let buf ← write buf p [some 0]
  let buf ← reverseLoop 0 (p - 1) buf
  some (p, buf)

/-- The digits of a number as `Http.decimal` has them. -/
def digits (v : ℕ) : Bytes := (Nat.toDigits 10 v).map fun c => c.toNat.toUInt8

section
variable {buf : Block UInt8} {s pre post : Bytes} {value : ℤ} {v : ℕ}

theorem digits_of_lt (hv : v < 10) : digits v = [(48 + v).toUInt8] := by
  rw [digits, Nat.toDigits_of_lt_base hv]
  revert hv v
  decide

theorem digits_eq (v : ℕ) :
    digits v = if v / 10 = 0 then [(48 + v % 10).toUInt8]
      else digits (v / 10) ++ [(48 + v % 10).toUInt8] := by
  have hlast := digits_of_lt (Nat.mod_lt v (by decide))
  by_cases hv : v / 10 = 0
  · have hlt : v < 10 := by omega
    rw [if_pos hv, Nat.mod_eq_of_lt hlt, digits_of_lt hlt]
  · rw [if_neg hv, ← hlast]
    have hsplit := Nat.toDigits_of_base_le (b := 10) (n := v) (by decide) (by omega)
    rw [digits, hsplit, List.map_append, digits, digits, Nat.toDigits_of_lt_base
      (Nat.mod_lt v (by decide))]

theorem writeDigits_spec (buf : Block UInt8) (hs : StartsWith buf s)
    (hroom : s.length + (digits v).length ≤ buf.length) :
    ∃ buf', writeDigits v s.length buf = some (s.length + (digits v).length, buf') ∧
      StartsWith buf' (s ++ (digits v).reverse) ∧ buf'.length = buf.length := by
  induction v using Nat.strong_induction_on generalizing buf s with
  | h v ih =>
    have hdigits := digits_eq v
    have hpos : 0 < (digits v).length := by
      rw [hdigits]
      split_ifs <;> simp
    obtain ⟨buf₁, hw⟩ := write_isSome buf s.length
      [some (48 + v % 10).toUInt8] (by rw [List.length_singleton]; omega)
    have hs₁ : StartsWith buf₁ (s ++ [(48 + v % 10).toUInt8]) := hs.append hw
    have hlen₁ := length_write hw
    rw [writeDigits, hw, Option.bind_some]
    by_cases hv : v / 10 = 0
    · rw [if_pos hv] at hdigits ⊢
      rw [hdigits]
      exact ⟨buf₁, rfl, hs₁, hlen₁⟩
    · rw [if_neg hv] at hdigits ⊢
      rw [hdigits, List.length_append, List.length_singleton] at hroom
      have hlength : (s ++ [(48 + v % 10).toUInt8]).length = s.length + 1 := by
        rw [List.length_append, List.length_singleton]
      obtain ⟨buf', hloop, hs', hlen'⟩ := ih (v / 10) (by omega) _ hs₁
        (by rw [hlength, hlen₁]; omega)
      rw [hlength] at hloop
      refine ⟨buf', ?_, ?_, hlen'.trans hlen₁⟩
      · rw [hloop, hdigits, List.length_append, List.length_singleton]
        congr 2
        omega
      · rw [hdigits, List.reverse_append, ← List.append_assoc]
        exact hs'

/-- A turn of the loop exchanges the two bytes at the ends. -/
theorem reverseLoop_turn (pre mid post : Bytes) (a b : UInt8)
    (hs : StartsWith buf (pre ++ (a :: (mid ++ [b]) ++ post))) :
    ∃ buf', reverseLoop pre.length (pre.length + mid.length + 1) buf =
        reverseLoop (pre.length + 1) (pre.length + mid.length) buf' ∧
      StartsWith buf' ((pre ++ [b]) ++ (mid ++ a :: post)) ∧ buf'.length = buf.length := by
  obtain ⟨p, hp⟩ : ∃ p, pre.length + mid.length + 1 = p := ⟨_, rfl⟩
  have hstr : pre ++ (a :: (mid ++ [b]) ++ post) = (pre ++ a :: mid) ++ b :: post := by simp
  have hlength : (pre ++ a :: mid).length = p := by
    rw [List.length_append, List.length_cons]
    omega
  have hlength₁ : (pre ++ b :: mid).length = p := by
    rw [List.length_append, List.length_cons]
    omega
  have hbound : p + 1 ≤ (pre ++ (a :: (mid ++ [b]) ++ post)).length := by
    rw [hstr, List.length_append, hlength, List.length_cons]
    omega
  have hbuf := hs.length_le
  have hfirst : read buf pre.length 1 = some [some a] := by
    rw [hs.read _ _ (by omega), List.drop_left]
    rfl
  have hsecond : read buf p 1 = some [some b] := by
    rw [hs.read _ _ hbound, hstr, ← hlength, List.drop_left]
    rfl
  obtain ⟨buf₁, hw₁⟩ := write_isSome buf pre.length [some b] (by
    rw [List.length_singleton]
    omega)
  have hs₁ : StartsWith buf₁ ((pre ++ b :: mid) ++ b :: post) := by
    have hover := hs.overwrite (k := pre.length) (t := [b])
      (by rw [List.length_singleton]; omega) hw₁
    rw [List.take_left, List.length_singleton, ← List.drop_drop, List.drop_left] at hover
    have heq : pre ++ [b] ++ (a :: (mid ++ [b]) ++ post).drop 1 =
        (pre ++ b :: mid) ++ b :: post := by simp
    rwa [heq] at hover
  have hlen₁ := length_write hw₁
  obtain ⟨buf₂, hw₂⟩ := write_isSome buf₁ p [some a] (by
    rw [List.length_singleton]
    omega)
  have hs₂ : StartsWith buf₂ ((pre ++ [b]) ++ (mid ++ a :: post)) := by
    have hover := hs₁.overwrite (k := p) (t := [a]) (by
      rw [List.length_append, hlength₁, List.length_singleton, List.length_cons]
      omega) hw₂
    rw [← hlength₁, List.take_left, List.length_singleton, ← List.drop_drop, List.drop_left]
      at hover
    have heq : pre ++ b :: mid ++ [a] ++ (b :: post).drop 1 =
        (pre ++ [b]) ++ (mid ++ a :: post) := by simp
    rwa [heq] at hover
  refine ⟨buf₂, ?_, hs₂, (length_write hw₂).trans hlen₁⟩
  rw [hp, reverseLoop, if_pos (by omega), hfirst, Option.bind_some, hsecond, Option.bind_some, hw₁,
    Option.bind_some, hw₂, Option.bind_some, Nat.eq_sub_of_add_eq hp]

theorem reverseLoop_spec (pre mid post : Bytes) (hs : StartsWith buf (pre ++ (mid ++ post))) :
    ∃ buf', reverseLoop pre.length (pre.length + mid.length - 1) buf = some buf' ∧
      StartsWith buf' (pre ++ (mid.reverse ++ post)) ∧ buf'.length = buf.length := by
  induction mid using List.bidirectionalRec generalizing buf pre post with
  | nil =>
    refine ⟨buf, ?_, hs, rfl⟩
    rw [reverseLoop, if_neg (by rw [List.length_nil]; omega)]
  | singleton a =>
    refine ⟨buf, ?_, hs, rfl⟩
    rw [reverseLoop, if_neg (by rw [List.length_singleton]; omega)]
  | cons_append a mid b ih =>
    obtain ⟨buf₁, hturn, hs₁, hlen₁⟩ := reverseLoop_turn pre mid post a b hs
    obtain ⟨buf', hloop, hs', hlen'⟩ := ih _ _ hs₁
    have hnext : (pre ++ [b]).length + mid.length - 1 = pre.length + mid.length := by
      rw [List.length_append, List.length_singleton]
      omega
    rw [hnext, List.length_append, List.length_singleton] at hloop
    have hlast : pre.length + (a :: (mid ++ [b])).length - 1 = pre.length + mid.length + 1 := by
      rw [List.length_cons, List.length_append, List.length_singleton]
      omega
    have hreverse : pre ++ ((a :: (mid ++ [b])).reverse ++ post) =
        (pre ++ [b]) ++ (mid.reverse ++ a :: post) := by simp
    rw [hlast, hreverse]
    exact ⟨buf', hturn.trans hloop, hs', hlen'.trans hlen₁⟩

theorem magnitude_eq (value : ℤ) : magnitude value = value.natAbs := by
  unfold magnitude
  split_ifs <;> omega

theorem length_digits (hv : v < 10 ^ 19) : (digits v).length ≤ 19 := by
  rw [digits, List.length_map]
  exact (Nat.length_toDigits_le_iff (by decide) (by decide)).mpr hv

theorem decimal_eq (value : ℤ) :
    Http.decimal value = (if value < 0 then [45] else []) ++ digits value.natAbs := by
  unfold Http.decimal digits
  split_ifs <;> rfl

end

/-- Every `long long`, the least one included, fits the buffer with its terminator, and the
string in it is the number in decimal. -/
theorem sdsll2str_decimal (value : ℤ) (hlo : -2 ^ 63 ≤ value) (hhi : value < 2 ^ 63) :
    ∃ buf, sdsll2str (malloc sdsLlstrSize) value = some ((Http.decimal value).length, buf) ∧
      StartsWith buf (Http.decimal value ++ [0]) ∧ buf.length = sdsLlstrSize := by
  have hsize : (malloc sdsLlstrSize : Block UInt8).length = 21 := length_malloc _
  have hdigits := length_digits (v := value.natAbs) (by omega)
  obtain ⟨buf₁, hwrite, hs₁, hlen₁⟩ := writeDigits_spec (malloc sdsLlstrSize) (s := [])
    (v := value.natAbs) List.nil_prefix (by rw [List.length_nil, hsize]; omega)
  rw [List.length_nil, Nat.zero_add] at hwrite
  rw [List.nil_append] at hs₁
  -- what has been written, sign included, is the number backwards
  obtain ⟨buf₂, hsign, hs₂, hlen₂⟩ : ∃ buf₂,
      writeSign value (digits value.natAbs).length buf₁ =
        some ((Http.decimal value).length, buf₂) ∧
      StartsWith buf₂ (Http.decimal value).reverse ∧ buf₂.length = 21 := by
    rw [decimal_eq, writeSign]
    split_ifs with hneg
    · obtain ⟨buf₂, hw⟩ := write_isSome buf₁ (digits value.natAbs).length
        [some 45] (by rw [List.length_singleton, hlen₁, hsize]; omega)
      have hw' := hw
      rw [← List.length_reverse] at hw'
      refine ⟨buf₂, by rw [hw, Option.map_some, List.length_append, List.length_singleton,
        Nat.add_comm], ?_, (length_write hw).trans (hlen₁.trans hsize)⟩
      rw [List.reverse_append]
      exact hs₁.append hw'
    · exact ⟨buf₁, rfl, hs₁, hlen₁.trans hsize⟩
  have hlength : (Http.decimal value).length ≤ 20 := by
    rw [decimal_eq, List.length_append]
    split_ifs <;> simp only [List.length_singleton, List.length_nil] <;> omega
  obtain ⟨buf₃, hw⟩ := write_isSome buf₂ (Http.decimal value).length
    [some 0] (by rw [List.length_singleton, hlen₂]; omega)
  have hw' := hw
  rw [← List.length_reverse] at hw'
  obtain ⟨buf, hloop, hs, hlen⟩ := reverseLoop_spec []
    (Http.decimal value).reverse [0] (hs₂.append hw')
  rw [List.length_nil, Nat.zero_add, List.length_reverse] at hloop
  rw [List.reverse_reverse, List.nil_append] at hs
  refine ⟨buf, ?_, hs, hlen.trans ((length_write hw).trans hlen₂)⟩
  simp only [sdsll2str, magnitude_eq, hwrite, hsign, hw, hloop, Option.bind_eq_bind,
    Option.bind_some]

theorem sdsll2str_decimal_least : ∃ buf,
    sdsll2str (malloc sdsLlstrSize) (-2 ^ 63) = some ((Http.decimal (-2 ^ 63)).length, buf) ∧
    StartsWith buf (Http.decimal (-2 ^ 63) ++ [0]) ∧ buf.length = sdsLlstrSize :=
  sdsll2str_decimal (-2 ^ 63) (by decide) (by decide)

end Cerverus.SdsNumbers
