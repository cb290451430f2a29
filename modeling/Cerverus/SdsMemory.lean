import Cerverus.ByteBlock
import Cerverus.PartialSends
import Cerverus.Refinement

/-!
# Dynamic strings in memory

A string is a header of one of five sizes with its bytes behind it. The fields of the header
are as wide as its size allows and are cut to that width, and sums of lengths are taken modulo
`2 ^ 64`. A function returns `none` where an assertion fails or memory is accessed out of
bounds, and `some none` for a null pointer, when `ok` says that there is no memory.
-/
namespace Cerverus.SdsMemory
open ByteBlock Refinement

inductive SdsType
  | type5
  | type8
  | type16
  | type32
  | type64
  deriving DecidableEq, Repr

/-- The width of `len` and `alloc`; a string of type 5 has its length in its flags. -/
def SdsType.bits : SdsType → ℕ
  | .type5 => 5
  | .type8 => 8
  | .type16 => 16
  | .type32 => 32
  | .type64 => 64

def sdsHdrSize : SdsType → ℕ
  | .type5 => 1
  | .type8 => 3
  | .type16 => 5
  | .type32 => 9
  | .type64 => 17

def sdsReqType (stringSize : ℕ) : SdsType :=
  if stringSize < 2 ^ 5 then .type5
  else if stringSize < 2 ^ 8 then .type8
  else if stringSize < 2 ^ 16 then .type16
  else if stringSize < 2 ^ 32 then .type32
  else .type64

/-- `buf` is what was allocated behind the header. -/
structure Sdshdr where
  type : SdsType
  len : ℕ
  alloc : ℕ
  buf : Block UInt8
  deriving DecidableEq, Repr

def sdsMaxPrealloc : ℕ := 1024 * 1024

def sdslen (s : Sdshdr) : ℕ := s.len

/-- The difference is a `uint32_t` for type 32 and becomes a `size_t` otherwise. -/
def sdsavail (s : Sdshdr) : ℕ :=
  match s.type with
  | .type5 => 0
  | .type32 => (s.alloc + 2 ^ 32 - s.len) % 2 ^ 32
  | _ => (s.alloc + 2 ^ 64 - s.len) % 2 ^ 64

def sdsalloc (s : Sdshdr) : ℕ :=
  match s.type with
  | .type5 => s.len
  | _ => s.alloc

def sdssetlen (s : Sdshdr) (newlen : ℕ) : Sdshdr := { s with len := newlen % 2 ^ s.type.bits }

def sdssetalloc (s : Sdshdr) (newlen : ℕ) : Sdshdr :=
  match s.type with
  | .type5 => s
  | _ => { s with alloc := newlen % 2 ^ s.type.bits }

/-- What `malloc(hdrlen + n + 1)` leaves behind the header. -/
def mallocBuf (type : SdsType) (n : ℕ) : Block UInt8 :=
  malloc ((sdsHdrSize type + n + 1) % 2 ^ 64 - sdsHdrSize type)

/-- The same size from `realloc`. -/
def reallocBuf (type : SdsType) (buf : Block UInt8) (n : ℕ) : Block UInt8 :=
  realloc buf ((sdsHdrSize type + n + 1) % 2 ^ 64 - sdsHdrSize type)

/-- Bytes into the string, and a NUL behind them; the length is set to where that is. -/
def terminate (s : Sdshdr) (buf : Block UInt8) (off : ℕ) (t : Bytes) : Option Sdshdr := do
  let buf ← write buf off (t.map some)
  let buf ← write buf (off + t.length) [some 0]
  some (sdssetlen { s with buf := buf } (off + t.length))

def sdsnewlen (init : Bytes) (ok : Bool) : Option (Option Sdshdr) :=
  let initlen := init.length
  let type := sdsReqType initlen
  let type := if type = .type5 ∧ initlen = 0 then .type8 else type
  if ok then do
    let s := sdssetalloc ⟨type, 0, 0, []⟩ initlen
    let s ← terminate s (mallocBuf type initlen) 0 init
    some (some s)
  else some none

def sdsempty (ok : Bool) : Option (Option Sdshdr) := sdsnewlen [] ok

def bytesOf (s : Sdshdr) : Option Bytes := (read s.buf 0 (sdslen s)).bind fun cells => cells.mapM id

def sdsdup (s : Sdshdr) (ok : Bool) : Option (Option Sdshdr) := do
  let init ← bytesOf s
  sdsnewlen init ok

def sdsclear (s : Sdshdr) : Option Sdshdr := terminate s s.buf 0 []

/-- The new header and the string with its terminator behind it. -/
def moveTo (type : SdsType) (s : Sdshdr) (n : ℕ) : Option Sdshdr := do
  let cells ← read s.buf 0 (sdslen s + 1)
  let buf ← write (mallocBuf type n) 0 cells
  some (sdssetalloc (sdssetlen ⟨type, 0, 0, buf⟩ (sdslen s)) n)

def sdsMakeRoomFor (s : Sdshdr) (addlen : ℕ) (ok : Bool) : Option (Option Sdshdr) :=
  if addlen ≤ sdsavail s then some (some s)
  else
    let reqlen := (sdslen s + addlen) % 2 ^ 64
    let newlen :=
      (if reqlen < sdsMaxPrealloc then reqlen * 2 else reqlen + sdsMaxPrealloc) % 2 ^ 64
    let type := sdsReqType newlen
    let type := if type = .type5 then .type8 else type
    if (sdsHdrSize type + newlen + 1) % 2 ^ 64 ≤ reqlen then none
    else if ok then
      if s.type = type then
        some (some (sdssetalloc { s with buf := reallocBuf type s.buf newlen } newlen))
      else (moveTo type s newlen).map some
    else some none

/-- Where `type > SDS_TYPE_8`, a smaller type is not worth a copy. -/
def sdsRemoveFreeSpace (s : Sdshdr) (ok : Bool) : Option (Option Sdshdr) :=
  if sdsavail s = 0 then some (some s)
  else
    let type := sdsReqType (sdslen s)
    if ok then
      if s.type = type ∨ type ∈ [.type16, .type32, .type64] then
        some (some (sdssetalloc { s with buf := reallocBuf s.type s.buf (sdslen s) } (sdslen s)))
      else (moveTo type s (sdslen s)).map some
    else some none

/-- The assertions of `sdsIncrLen`, with its casts. -/
def IncrFits (s : Sdshdr) (incr : ℤ) : Prop :=
  match s.type with
  | .type5 => 0 < incr ∧ s.len + incr < 32 ∨ incr < 0 ∧ -incr % 2 ^ 32 ≤ s.len
  | .type8 | .type16 =>
    0 ≤ incr ∧ incr ≤ s.alloc - s.len ∨ incr < 0 ∧ -incr % 2 ^ 32 ≤ s.len
  | .type32 =>
    0 ≤ incr ∧ incr % 2 ^ 32 ≤ (s.alloc - s.len) % 2 ^ 32 ∨ incr < 0 ∧ -incr % 2 ^ 32 ≤ s.len
  | .type64 =>
    0 ≤ incr ∧ incr % 2 ^ 64 ≤ (s.alloc - s.len) % 2 ^ 64 ∨ incr < 0 ∧ -incr % 2 ^ 64 ≤ s.len

instance decidableIncrFits (s : Sdshdr) (incr : ℤ) : Decidable (IncrFits s incr) := by
  unfold IncrFits
  split <;> infer_instance

def sdsIncrLen (s : Sdshdr) (incr : ℤ) : Option Sdshdr :=
  if IncrFits s incr then do
    let len := ((s.len + incr) % 2 ^ s.type.bits).toNat
    let buf ← write s.buf len [some 0]
    some { s with len := len, buf := buf }
  else none

def sdscatlen (s : Sdshdr) (t : Bytes) (ok : Bool) : Option (Option Sdshdr) := do
  let curlen := sdslen s
  match ← sdsMakeRoomFor s t.length ok with
  | none => some none
  | some s => (terminate s s.buf curlen t).map some

def sdsgrowzero (s : Sdshdr) (len : ℕ) (ok : Bool) : Option (Option Sdshdr) := do
  let curlen := sdslen s
  if len ≤ curlen then some (some s)
  else
    match ← sdsMakeRoomFor s (len - curlen) ok with
    | none => some none
    | some s => (terminate s s.buf curlen (List.replicate (len - curlen) 0)).map some

def sdscpylen (s : Sdshdr) (t : Bytes) (ok : Bool) : Option (Option Sdshdr) := do
  match ← if sdsalloc s < t.length then sdsMakeRoomFor s (t.length - sdslen s) ok
      else some (some s) with
  | none => some none
  | some s => (terminate s s.buf 0 t).map some

/-- `start` and `stop` are counted from the end where negative. -/
def sdsrange (s : Sdshdr) (start stop : ℤ) : Option Sdshdr :=
  let len := sdslen s
  if len = 0 then some s
  else do
    let start := if start < 0 then max (len + start) 0 else start
    let stop := if stop < 0 then max (len + stop) 0 else stop
    let newlen := if stop < start then 0 else stop - start + 1
    let newlen :=
      if newlen = 0 then newlen
      else if len ≤ start then 0
      else if len ≤ stop then len - 1 - start + 1
      else newlen
    let buf ←
      (if start = 0 ∨ newlen = 0 then some s.buf
      else (read s.buf start.toNat newlen.toNat).bind fun cells => write s.buf 0 cells)
    let buf ← write buf newlen.toNat [some 0]
    some (sdssetlen { s with buf := buf } newlen.toNat)

/-! ## The string a header stands for -/

/-- The fields agree with the string and with the size of the block, and the string is followed
by a NUL. -/
structure Represents (h : Sdshdr) (s : Bytes) : Prop where
  len : h.len = s.length
  bits : s.length < 2 ^ h.type.bits
  room : h.type ≠ .type5 → s.length ≤ h.alloc ∧ h.alloc < 2 ^ h.type.bits ∧
    h.buf.length = h.alloc + 1
  holds : StartsWith h.buf (s ++ [0])
  size : sdsHdrSize h.type + h.buf.length < 2 ^ 64

structure HasRoom (h : Sdshdr) (n : ℕ) : Prop where
  bits : n < 2 ^ h.type.bits
  alloc : h.type ≠ .type5 → n ≤ h.alloc
  buf : n + 1 ≤ h.buf.length

section
variable {h h' : Sdshdr} {s t : Bytes} {n off : ℕ} {type : SdsType} {buf : Block UInt8}

theorem bits_le (type : SdsType) : type.bits ≤ 64 := by cases type <;> decide

theorem sdsHdrSize_le (type : SdsType) : sdsHdrSize type ≤ 17 := by cases type <;> decide

theorem lt_sdsReqType (hn : n < 2 ^ 64) : n < 2 ^ (sdsReqType n).bits := by
  unfold sdsReqType
  split_ifs <;> assumption

theorem lt_type8 (hn : n < 2 ^ 64) :
    n < 2 ^ (if sdsReqType n = .type5 then SdsType.type8 else sdsReqType n).bits := by
  have hlt := lt_sdsReqType hn
  split_ifs with h5
  · rw [h5] at hlt
    exact hlt.trans (by decide)
  · exact hlt

theorem sdsalloc_of_ne (h5 : h.type ≠ .type5) : sdsalloc h = h.alloc := by
  unfold sdsalloc
  split
  · contradiction
  · rfl

theorem sdssetalloc_of_ne (h5 : h.type ≠ .type5) :
    sdssetalloc h n = { h with alloc := n % 2 ^ h.type.bits } := by
  unfold sdssetalloc
  split
  · contradiction
  · rfl

theorem sdsavail_eq (hr : Represents h s) :
    sdsavail h = if h.type = .type5 then 0 else h.alloc - s.length := by
  obtain ⟨hlen, hbits, hroom, _, _⟩ := hr
  have h64 : h.type ≠ .type5 → h.alloc < 2 ^ 64 := fun h5 =>
    (hroom h5).2.1.trans_le (Nat.pow_le_pow_right (by decide) (bits_le _))
  unfold sdsavail
  split
  · rename_i h5
    rw [if_pos h5]
  · rename_i h32
    obtain ⟨hle, hlt, _⟩ := hroom (by rw [h32]; decide)
    rw [h32] at hlt
    simp only [SdsType.bits] at hlt
    rw [if_neg (by rw [h32]; decide), hlen]
    omega
  · rename_i h5 _
    obtain ⟨hle, _, _⟩ := hroom h5
    have hlt := h64 h5
    rw [if_neg h5, hlen]
    omega

theorem length_mallocBuf (hn : sdsHdrSize type + n + 1 < 2 ^ 64) :
    (mallocBuf type n).length = n + 1 := by
  rw [mallocBuf, length_malloc, Nat.mod_eq_of_lt hn]
  omega

theorem length_reallocBuf (hn : sdsHdrSize type + n + 1 < 2 ^ 64) :
    (reallocBuf type buf n).length = n + 1 := by
  rw [reallocBuf, length_realloc, Nat.mod_eq_of_lt hn]
  omega

/-- Bytes written behind or into a known string, and the terminator. -/
theorem terminate_spec (off : ℕ) (buf : Block UInt8) (hs : StartsWith buf s) (hoff : off ≤ s.length)
    (hroom : off + t.length + 1 ≤ buf.length) (hbits : off + t.length < 2 ^ h.type.bits) :
    ∃ buf', terminate h buf off t = some { h with len := off + t.length, buf := buf' } ∧
      StartsWith buf' (s.take off ++ t ++ [0]) ∧ buf'.length = buf.length := by
  obtain ⟨buf₁, h₁⟩ := write_isSome buf off (t.map some) (by
    rw [List.length_map]
    omega)
  have hlen₁ := length_write h₁
  have hs₁ := hs.write hoff h₁
  have hlen : (s.take off ++ t).length = off + t.length := by
    rw [List.length_append, List.length_take, min_eq_left hoff]
  obtain ⟨buf₂, h₂⟩ := write_isSome buf₁ (off + t.length) [some 0] (by
    rw [hlen₁, List.length_singleton]
    omega)
  have hs₂ : StartsWith buf₂ (s.take off ++ t ++ [0]) := by
    rw [← hlen] at h₂
    exact hs₁.append h₂
  refine ⟨buf₂, ?_, hs₂, (length_write h₂).trans hlen₁⟩
  simp only [terminate, h₁, h₂, Option.bind_eq_bind, Option.bind_some, sdssetlen,
    Nat.mod_eq_of_lt hbits]

theorem represents_terminate (off : ℕ) (hr : Represents h s) (hoff : off ≤ s.length)
    (hroom : HasRoom h (off + t.length)) :
    ∃ h', terminate h h.buf off t = some h' ∧ Represents h' (s.take off ++ t) := by
  obtain ⟨buf', hterm, hs, hlen⟩ :=
    terminate_spec off h.buf (h := h) hr.holds.of_append hoff hroom.buf hroom.bits
  have hlength : (s.take off ++ t).length = off + t.length := by
    rw [List.length_append, List.length_take, min_eq_left hoff]
  refine ⟨_, hterm, ?_, ?_, fun h5 => ?_, hs, ?_⟩
  · exact hlength.symm
  · rw [hlength]
    exact hroom.bits
  · obtain ⟨_, halloc, hbuf⟩ := hr.room h5
    exact ⟨by rw [hlength]; exact hroom.alloc h5, halloc, hlen.trans hbuf⟩
  · dsimp only
    rw [hlen]
    exact hr.size

/-! ## Creation and room -/

theorem HasRoom.mono {m : ℕ} (hroom : HasRoom h n) (hm : m ≤ n) : HasRoom h m :=
  ⟨hm.trans_lt hroom.bits, fun h5 => hm.trans (hroom.alloc h5),
    (Nat.add_le_add_right hm 1).trans hroom.buf⟩

theorem Represents.hasRoom (hr : Represents h s) : HasRoom h s.length := by
  have hbuf := hr.holds.length_le
  rw [List.length_append, List.length_singleton] at hbuf
  exact ⟨hr.bits, fun h5 => (hr.room h5).1, hbuf⟩

theorem Represents.hasRoom_alloc (hr : Represents h s) (h5 : h.type ≠ .type5) :
    HasRoom h h.alloc := by
  obtain ⟨_, halloc, hbuf⟩ := hr.room h5
  exact ⟨halloc, fun _ => le_rfl, hbuf.ge⟩

theorem sdsnewlen_spec (init : Bytes) (hn : init.length + 18 < 2 ^ 64) :
    ∃ h, sdsnewlen init true = some (some h) ∧ Represents h init := by
  have hbits : init.length < 2 ^ (sdsReqType init.length).bits := lt_sdsReqType (by omega)
  obtain ⟨type, htype⟩ : ∃ type, (if sdsReqType init.length = .type5 ∧ init.length = 0
      then SdsType.type8 else sdsReqType init.length) = type := ⟨_, rfl⟩
  have hlt : init.length < 2 ^ type.bits := by
    rw [← htype]
    split_ifs with hempty
    · rw [hempty.2]
      decide
    · exact hbits
  have hhdr := sdsHdrSize_le type
  have hbuf : (mallocBuf type init.length).length = init.length + 1 :=
    length_mallocBuf (by omega)
  obtain ⟨s, hs⟩ : ∃ s, sdssetalloc ⟨type, 0, 0, []⟩ init.length = s := ⟨_, rfl⟩
  have hstype : s.type = type := by
    rw [← hs]
    unfold sdssetalloc
    split <;> rfl
  obtain ⟨buf', hterm, hstarts, hlen⟩ := terminate_spec 0 (h := s) (s := [])
    (mallocBuf type init.length) (t := init) List.nil_prefix le_rfl
    (by rw [hbuf, Nat.zero_add]) (by rwa [hstype, Nat.zero_add])
  refine ⟨{ s with len := 0 + init.length, buf := buf' }, ?_, ?_⟩
  · simp only [sdsnewlen, htype, hs, hterm, if_true, Option.bind_eq_bind, Option.bind_some]
  · refine ⟨Nat.zero_add _, by rwa [hstype], fun h5 => ?_, hstarts, ?_⟩
    · have halloc : s.alloc = init.length := by
        have h5' : type ≠ .type5 := by rwa [← hstype]
        rw [← hs, sdssetalloc_of_ne h5']
        exact Nat.mod_eq_of_lt hlt
      exact ⟨halloc.ge, by rwa [halloc, hstype], by rw [halloc]; exact hlen.trans hbuf⟩
    · dsimp only
      rw [hlen, hbuf, hstype]
      omega

theorem moveTo_spec (type : SdsType) (hr : Represents h s) (hn : s.length ≤ n)
    (hbits : n < 2 ^ type.bits) (hsize : n + 18 < 2 ^ 64) :
    ∃ h', moveTo type h n = some h' ∧ Represents h' s ∧ h'.type = type ∧
      (type ≠ .type5 → h'.alloc = n) := by
  have hhdr := sdsHdrSize_le type
  have hbuf : (mallocBuf type n).length = n + 1 := length_mallocBuf (by omega)
  have hread : read h.buf 0 (sdslen h + 1) = some ((s ++ [0]).map some) := by
    have hlen : sdslen h + 1 = (s ++ [0]).length := by
      rw [List.length_append, List.length_singleton, sdslen, hr.len]
    rw [hlen, hr.holds.read _ _ (by omega), List.drop_zero, List.take_length]
  obtain ⟨buf', hw⟩ := write_isSome (mallocBuf type n) 0
    ((s ++ [0]).map some) (by
      rw [List.length_map, List.length_append, List.length_singleton, hbuf]
      omega)
  have hlen' := (length_write hw).trans hbuf
  obtain ⟨moved, hmoved⟩ : ∃ moved, sdssetlen ⟨type, 0, 0, buf'⟩ (sdslen h) = moved := ⟨_, rfl⟩
  have hfields : moved = ⟨type, s.length, 0, buf'⟩ := by
    rw [← hmoved, sdssetlen, sdslen, hr.len, Nat.mod_eq_of_lt (hn.trans_lt hbits)]
  refine ⟨sdssetalloc moved n, ?_, ?_, ?_, fun h5 => ?_⟩
  · simp only [moveTo, hread, hw, hmoved, Option.bind_eq_bind, Option.bind_some]
  · by_cases h5 : type = .type5
    · subst h5
      rw [hfields]
      refine ⟨rfl, hn.trans_lt hbits, fun h5 => absurd rfl h5, startsWith_write hw, ?_⟩
      simp only [sdssetalloc, hlen', sdsHdrSize]
      omega
    · rw [hfields, sdssetalloc_of_ne h5]
      refine ⟨rfl, hn.trans_lt hbits, fun _ => ?_, startsWith_write hw, ?_⟩
      · dsimp only
        rw [Nat.mod_eq_of_lt hbits]
        exact ⟨hn, hbits, hlen'⟩
      · dsimp only
        rw [hlen']
        omega
  · rw [hfields]
    unfold sdssetalloc
    split <;> rfl
  · rw [hfields, sdssetalloc_of_ne h5]
    exact Nat.mod_eq_of_lt hbits

theorem represents_realloc (hr : Represents h s) (hn : s.length ≤ n)
    (hbits : n < 2 ^ h.type.bits) (hsize : n + 18 < 2 ^ 64) (h5 : h.type ≠ .type5) :
    Represents (sdssetalloc { h with buf := reallocBuf h.type h.buf n } n) s ∧
      (sdssetalloc { h with buf := reallocBuf h.type h.buf n } n).alloc = n := by
  have hhdr := sdsHdrSize_le h.type
  have hbuf : (reallocBuf h.type h.buf n).length = n + 1 := length_reallocBuf (by omega)
  have hstarts : StartsWith (reallocBuf h.type h.buf n) (s ++ [0]) := by
    refine hr.holds.realloc ?_
    rw [List.length_append, List.length_singleton]
    omega
  rw [sdssetalloc_of_ne (h := { h with buf := reallocBuf h.type h.buf n }) h5]
  simp only [Nat.mod_eq_of_lt hbits, and_true]
  exact ⟨hr.len, hr.bits, fun _ => ⟨hn, hbits, hbuf⟩, hstarts, by dsimp only; omega⟩

/-- An operation that may have to allocate leaves a string, or a null pointer where there is
no memory. -/
def Yields (ok : Bool) (Q : Sdshdr → Prop) (result : Option (Option Sdshdr)) : Prop :=
  (∃ h, result = some (some h) ∧ Q h) ∨ result = some none ∧ ok = false

/-- What `sdsMakeRoomFor` asks for covers what it was asked for, and nothing wraps. -/
theorem newlen_bounds {reqlen newlen : ℕ} (hreq : reqlen + 2 ^ 20 + 18 < 2 ^ 64)
    (hnew : (if reqlen < sdsMaxPrealloc then reqlen * 2 else reqlen + sdsMaxPrealloc) % 2 ^ 64 =
      newlen) :
    reqlen ≤ newlen ∧ newlen + 18 < 2 ^ 64 := by
  unfold sdsMaxPrealloc at hnew
  split_ifs at hnew <;> omega

theorem sdsMakeRoomFor_spec (ok : Bool) (hr : Represents h s)
    (hsize : s.length + n + 2 ^ 20 + 18 < 2 ^ 64) :
    Yields ok (fun h' => Represents h' s ∧ HasRoom h' (s.length + n)) (sdsMakeRoomFor h n ok) := by
  have havail := sdsavail_eq hr
  have hlen : sdslen h = s.length := hr.len
  by_cases hle : n ≤ sdsavail h
  · refine .inl ⟨h, by rw [sdsMakeRoomFor, if_pos hle], hr, ?_⟩
    by_cases h5 : h.type = .type5
    · rw [if_pos h5] at havail
      have hzero : n = 0 := by omega
      rw [hzero]
      exact hr.hasRoom
    · have hroom := (hr.room h5).1
      rw [if_neg h5] at havail
      exact (hr.hasRoom_alloc h5).mono (by omega)
  · have hreq : (sdslen h + n) % 2 ^ 64 = s.length + n := by
      rw [hlen]
      exact Nat.mod_eq_of_lt (by omega)
    obtain ⟨newlen, hnew⟩ : ∃ newlen, (if s.length + n < sdsMaxPrealloc then (s.length + n) * 2
        else s.length + n + sdsMaxPrealloc) % 2 ^ 64 = newlen := ⟨_, rfl⟩
    obtain ⟨hcovers, hfits⟩ := newlen_bounds hsize hnew
    obtain ⟨type, htype⟩ : ∃ type, (if sdsReqType newlen = .type5 then SdsType.type8
        else sdsReqType newlen) = type := ⟨_, rfl⟩
    have hbits : newlen < 2 ^ type.bits := htype ▸ lt_type8 (by omega)
    have h5 : type ≠ .type5 := by
      rw [← htype]
      split_ifs with h
      · decide
      · exact h
    have hhdr := sdsHdrSize_le type
    have hassert : ¬ (sdsHdrSize type + newlen + 1) % 2 ^ 64 ≤ s.length + n := by
      rw [Nat.mod_eq_of_lt (by omega)]
      omega
    simp only [sdsMakeRoomFor, if_neg hle, hreq, hnew, htype, if_neg hassert]
    cases ok with
    | false => exact .inr ⟨rfl, rfl⟩
    | true =>
      simp only [if_true]
      by_cases hsame : h.type = type
      · subst hsame
        rw [if_pos rfl]
        obtain ⟨hr', halloc⟩ := represents_realloc hr (n := newlen) (by omega) hbits hfits h5
        refine .inl ⟨_, rfl, hr', (hr'.hasRoom_alloc ?_).mono (by omega)⟩
        rw [sdssetalloc_of_ne (h := { h with buf := reallocBuf h.type h.buf newlen }) h5]
        exact h5
      · rw [if_neg hsame]
        obtain ⟨h', hmoved, hr', htype', halloc⟩ :=
          moveTo_spec _ hr (n := newlen) (by omega) hbits hfits
        have h5' : h'.type ≠ .type5 := by rwa [htype']
        refine .inl ⟨h', by rw [hmoved]; rfl, hr', (hr'.hasRoom_alloc h5').mono ?_⟩
        have hcap := halloc h5
        omega

theorem sdsRemoveFreeSpace_spec {ok : Bool} (hr : Represents h s)
    (hsize : s.length + 18 < 2 ^ 64) :
    Yields ok (fun h' => Represents h' s) (sdsRemoveFreeSpace h ok) := by
  have havail := sdsavail_eq hr
  have hlen : sdslen h = s.length := hr.len
  by_cases hzero : sdsavail h = 0
  · exact .inl ⟨h, by rw [sdsRemoveFreeSpace, if_pos hzero], hr⟩
  · have h5 : h.type ≠ .type5 := fun h5 => hzero (by rw [havail, if_pos h5])
    simp only [sdsRemoveFreeSpace, if_neg hzero, hlen]
    cases ok with
    | false => exact .inr ⟨rfl, rfl⟩
    | true =>
      simp only [if_true]
      split_ifs with hkeep
      · exact .inl ⟨_, rfl, (represents_realloc hr le_rfl hr.bits hsize h5).1⟩
      · obtain ⟨h', hmoved, hr', -, -⟩ :=
          moveTo_spec _ hr le_rfl (lt_sdsReqType (by omega)) hsize
        exact .inl ⟨h', by rw [hmoved]; rfl, hr'⟩

/-! ## Operations on the bytes -/

theorem incrFits_of_room (hr : Represents h s) (hroom : HasRoom h (s.length + n))
    (h5 : h.type = .type5 → 0 < n) : IncrFits h n := by
  have hlen := hr.len
  have hbits := hroom.bits
  have halloc := hroom.alloc
  unfold IncrFits
  split
  · rename_i htype
    have hpos := h5 htype
    rw [htype] at hbits
    simp only [SdsType.bits] at hbits
    exact .inl ⟨by omega, by omega⟩
  · rename_i htype
    have hle := halloc (by rw [htype]; decide)
    exact .inl ⟨by omega, by omega⟩
  · rename_i htype
    have hle := halloc (by rw [htype]; decide)
    exact .inl ⟨by omega, by omega⟩
  · rename_i htype
    have h5' : h.type ≠ .type5 := by rw [htype]; decide
    have hle := halloc h5'
    have hlt := (hr.room h5').2.1
    rw [htype] at hlt
    simp only [SdsType.bits] at hlt
    exact .inl ⟨by omega, by omega⟩
  · rename_i htype
    have h5' : h.type ≠ .type5 := by rw [htype]; decide
    have hle := halloc h5'
    have hlt := (hr.room h5').2.1
    rw [htype] at hlt
    simp only [SdsType.bits] at hlt
    exact .inl ⟨by omega, by omega⟩

theorem incrFits_of_le (hr : Represents h s) (hn : n ≤ s.length) (hpos : 0 < n) :
    IncrFits h (-n) := by
  have hlen := hr.len
  have hbits := hr.bits
  unfold IncrFits
  split <;> rename_i htype <;> rw [htype] at hbits <;> simp only [SdsType.bits] at hbits <;>
    exact .inr ⟨by omega, by omega⟩

theorem sdsIncrLen_spec {incr : ℤ} (buf : Block UInt8) (hr : Represents h s)
    (hfits : IncrFits h incr) (hlen : s.length + incr = t.length)
    (hroom : HasRoom h t.length) (hstarts : StartsWith buf t) (hbuf : buf.length = h.buf.length) :
    ∃ h', sdsIncrLen { h with buf := buf } incr = some h' ∧ Represents h' t := by
  have hnew : ((h.len + incr) % 2 ^ h.type.bits).toNat = t.length := by
    have hlt : (t.length : ℤ) < 2 ^ h.type.bits := by exact_mod_cast hroom.bits
    rw [hr.len, hlen, Int.emod_eq_of_lt (Int.natCast_nonneg _) hlt, Int.toNat_natCast]
  obtain ⟨buf', hw⟩ := write_isSome buf t.length [some 0] (by
    rw [hbuf, List.length_singleton]
    exact hroom.buf)
  have hstarts' : StartsWith buf' (t ++ [0]) := hstarts.append hw
  have hlen' := (length_write hw).trans hbuf
  refine ⟨{ h with len := t.length, buf := buf' }, ?_, rfl, hroom.bits, fun h5 => ?_, hstarts', ?_⟩
  · have hfits' : IncrFits { h with buf := buf } incr := hfits
    simp only [sdsIncrLen, if_pos hfits', hnew, hw, Option.bind_eq_bind, Option.bind_some]
  · obtain ⟨-, halloc, hbuf'⟩ := hr.room h5
    exact ⟨hroom.alloc h5, halloc, hlen'.trans hbuf'⟩
  · dsimp only
    rw [hlen']
    exact hr.size

theorem sdsclear_spec (hr : Represents h s) :
    ∃ h', sdsclear h = some h' ∧ Represents h' [] := by
  have hzero :=
    represents_terminate 0 (t := []) hr (Nat.zero_le _) (hr.hasRoom.mono (Nat.zero_le _))
  rwa [List.take_zero, List.nil_append] at hzero

theorem sdscatlen_spec (ok : Bool) (hr : Represents h s)
    (hsize : s.length + t.length + 2 ^ 20 + 18 < 2 ^ 64) :
    Yields ok (fun h' => Represents h' (s ++ t)) (sdscatlen h t ok) := by
  have hlen : sdslen h = s.length := hr.len
  rcases sdsMakeRoomFor_spec ok hr hsize with ⟨h₁, hmake, hr₁, hroom⟩ | ⟨hmake, hok⟩
  · obtain ⟨h', hterm, hr'⟩ := represents_terminate _ hr₁ le_rfl hroom
    rw [List.take_length] at hr'
    refine .inl ⟨h', ?_, hr'⟩
    simp only [sdscatlen, hmake, hlen, hterm, Option.bind_eq_bind, Option.bind_some,
      Option.map_some]
  · refine .inr ⟨?_, hok⟩
    simp only [sdscatlen, hmake, Option.bind_eq_bind, Option.bind_some]

theorem sdsgrowzero_spec {ok : Bool} (hr : Represents h s) (hn : n + 2 ^ 20 + 18 < 2 ^ 64) :
    Yields ok (fun h' => Represents h' (s ++ List.replicate (n - s.length) 0))
      (sdsgrowzero h n ok) := by
  have hlen : sdslen h = s.length := hr.len
  by_cases hle : n ≤ s.length
  · refine .inl ⟨h, by rw [sdsgrowzero, hlen, if_pos hle], ?_⟩
    rw [Nat.sub_eq_zero_of_le hle, List.replicate_zero, List.append_nil]
    exact hr
  · rcases sdsMakeRoomFor_spec ok hr (n := n - s.length) (by omega) with
      ⟨h₁, hmake, hr₁, hroom⟩ | ⟨hmake, hok⟩
    · obtain ⟨h', hterm, hr'⟩ := represents_terminate _ (t := List.replicate (n - s.length) 0) hr₁
        le_rfl (by rwa [List.length_replicate])
      rw [List.take_length] at hr'
      refine .inl ⟨h', ?_, hr'⟩
      simp only [sdsgrowzero, hlen, if_neg hle, hmake, hterm, Option.bind_eq_bind,
        Option.bind_some, Option.map_some]
    · refine .inr ⟨?_, hok⟩
      simp only [sdsgrowzero, hlen, if_neg hle, hmake, Option.bind_eq_bind, Option.bind_some]

theorem sdscpylen_spec {ok : Bool} (hr : Represents h s) (hsize : t.length + 2 ^ 20 + 18 < 2 ^ 64) :
    Yields ok (fun h' => Represents h' t) (sdscpylen h t ok) := by
  have hlen : sdslen h = s.length := hr.len
  have hcopy : ∀ {h₁}, Represents h₁ s → HasRoom h₁ t.length →
      ∃ h', terminate h₁ h₁.buf 0 t = some h' ∧ Represents h' t := by
    intro h₁ hr₁ hroom
    have hterm := represents_terminate 0 (t := t) hr₁ (Nat.zero_le _)
      (by rwa [Nat.zero_add])
    rwa [List.take_zero, List.nil_append] at hterm
  by_cases hlt : sdsalloc h < t.length
  · have hs : s.length ≤ t.length := by
      by_cases h5 : h.type = .type5
      · rw [sdsalloc, h5, hr.len] at hlt
        exact hlt.le
      · rw [sdsalloc_of_ne h5] at hlt
        exact ((hr.room h5).1.trans_lt hlt).le
    have hadd : s.length + (t.length - s.length) = t.length := by omega
    rcases sdsMakeRoomFor_spec ok hr (n := t.length - s.length) (by omega) with
      ⟨h₁, hmake, hr₁, hroom⟩ | ⟨hmake, hok⟩
    · rw [hadd] at hroom
      obtain ⟨h', hterm, hr'⟩ := hcopy hr₁ hroom
      refine .inl ⟨h', ?_, hr'⟩
      simp only [sdscpylen, hlen, if_pos hlt, hmake, hterm, Option.bind_eq_bind,
        Option.bind_some, Option.map_some]
    · refine .inr ⟨?_, hok⟩
      simp only [sdscpylen, hlen, if_pos hlt, hmake, Option.bind_eq_bind, Option.bind_some]
  · have hroom : HasRoom h t.length := by
      by_cases h5 : h.type = .type5
      · rw [sdsalloc, h5, hr.len, not_lt] at hlt
        exact hr.hasRoom.mono hlt
      · rw [sdsalloc_of_ne h5, not_lt] at hlt
        exact (hr.hasRoom_alloc h5).mono hlt
    obtain ⟨h', hterm, hr'⟩ := hcopy hr hroom
    refine .inl ⟨h', ?_, hr'⟩
    simp only [sdscpylen, if_neg hlt, hterm, Option.bind_eq_bind, Option.bind_some,
      Option.map_some]

/-- The bytes kept are moved to the front, where they are not there already. -/
theorem moved_front {a m : ℤ} (hs : StartsWith buf s) (ha : 0 ≤ a)
    (hm : m = 0 ∨ 0 < m ∧ a + m ≤ s.length) :
    ∃ buf', (if a = 0 ∨ m = 0 then some buf
        else (read buf a.toNat m.toNat).bind fun cells => write buf 0 cells) = some buf' ∧
      StartsWith buf' ((s.drop a.toNat).take m.toNat) ∧ buf'.length = buf.length := by
  by_cases hstays : a = 0 ∨ m = 0
  · refine ⟨buf, if_pos hstays, ?_, rfl⟩
    have hpre : (s.drop a.toNat).take m.toNat <+: s := by
      rcases hstays with h0 | h0
      · rw [h0, Int.toNat_zero, List.drop_zero]
        exact List.take_prefix _ _
      · rw [h0, Int.toNat_zero, List.take_zero]
        exact List.nil_prefix
    exact (hpre.map some).trans hs
  · have hm' : 0 < m ∧ a + m ≤ s.length := hm.resolve_left fun h0 => hstays (.inr h0)
    have hread := hs.read a.toNat m.toNat (by omega)
    have hbuf := hs.length_le
    obtain ⟨buf', hw⟩ := write_isSome buf 0
      (((s.drop a.toNat).take m.toNat).map some) (by
        rw [List.length_map, List.length_take, List.length_drop]
        omega)
    refine ⟨buf', ?_, startsWith_write hw, length_write hw⟩
    rw [if_neg hstays, hread, Option.bind_some, hw]

theorem sdsrange_spec (hr : Represents h s) (start stop : ℤ) :
    ∃ h', sdsrange h start stop = some h' ∧
      Represents h' (PartialSends.sdsrange s start stop) := by
  have hlen : sdslen h = s.length := hr.len
  by_cases hzero : s.length = 0
  · exact ⟨h, by rw [sdsrange, hlen, if_pos hzero], by rwa [PartialSends.sdsrange, if_pos hzero]⟩
  · obtain ⟨a, ha⟩ : ∃ a, (if start < 0 then max ((s.length : ℤ) + start) 0 else start) = a :=
      ⟨_, rfl⟩
    obtain ⟨b, hb⟩ : ∃ b, (if stop < 0 then max ((s.length : ℤ) + stop) 0 else stop) = b :=
      ⟨_, rfl⟩
    obtain ⟨m, hm⟩ : ∃ m, (if (if b < a then 0 else b - a + 1) = 0
        then (if b < a then 0 else b - a + 1)
        else if (s.length : ℤ) ≤ a then 0
        else if (s.length : ℤ) ≤ b then (s.length : ℤ) - 1 - a + 1
        else (if b < a then 0 else b - a + 1)) = m := ⟨_, rfl⟩
    have ha0 : 0 ≤ a := by
      rw [← ha]
      split_ifs <;> omega
    have hm0 : m = 0 ∨ 0 < m ∧ a + m ≤ s.length := by
      rw [← hm]
      split_ifs <;> omega
    have hkept : PartialSends.sdsrange s start stop = (s.drop a.toNat).take m.toNat := by
      simp only [PartialSends.sdsrange, if_neg hzero, ha, hb, hm]
    have hlength : ((s.drop a.toNat).take m.toNat).length = m.toNat := by
      rw [List.length_take, List.length_drop]
      omega
    have hroom : HasRoom h m.toNat := hr.hasRoom.mono (by omega)
    obtain ⟨buf₁, hmove, hstarts, hlen₁⟩ := moved_front (a := a) (m := m) hr.holds.of_append ha0 hm0
    obtain ⟨buf₂, hw⟩ := write_isSome buf₁ m.toNat [some 0] (by
      rw [hlen₁, List.length_singleton]
      exact hroom.buf)
    have hstarts₂ : StartsWith buf₂ ((s.drop a.toNat).take m.toNat ++ [0]) := by
      refine hstarts.append ?_
      rwa [hlength]
    have hlen₂ := (length_write hw).trans hlen₁
    refine ⟨{ h with len := m.toNat, buf := buf₂ }, ?_, ?_⟩
    · simp only [sdsrange, hlen, if_neg hzero, ha, hb, hm, hmove, hw, Option.bind_eq_bind,
        Option.bind_some, sdssetlen, Nat.mod_eq_of_lt hroom.bits]
    · rw [hkept]
      refine ⟨hlength.symm, by rw [hlength]; exact hroom.bits, fun h5 => ?_, hstarts₂, ?_⟩
      · obtain ⟨-, halloc, hbuf⟩ := hr.room h5
        exact ⟨by rw [hlength]; exact hroom.alloc h5, halloc, hlen₂.trans hbuf⟩
      · dsimp only
        rw [hlen₂]
        exact hr.size

theorem bytesOf_eq (hr : Represents h s) : bytesOf h = some s := by
  have hread : read h.buf 0 (sdslen h) = some (s.map some) := by
    rw [sdslen, hr.len, hr.holds.of_append.read _ _ (Nat.zero_add _).le, List.drop_zero,
      List.take_length]
  rw [bytesOf, hread, Option.bind_some, mapM_known]

theorem sdsdup_spec (hr : Represents h s) (hsize : s.length + 18 < 2 ^ 64) :
    ∃ h', sdsdup h true = some (some h') ∧ Represents h' s := by
  obtain ⟨h', hnew, hr'⟩ := sdsnewlen_spec _ hsize
  refine ⟨h', ?_, hr'⟩
  simp only [sdsdup, bytesOf_eq hr, hnew, Option.bind_eq_bind, Option.bind_some]

theorem sdsIncrLen_fields {incr : ℤ} (hi : sdsIncrLen h incr = some h') :
    h'.type = h.type ∧ h'.alloc = h.alloc := by
  unfold sdsIncrLen at hi
  split_ifs at hi
  obtain ⟨buf', _, hbuf⟩ := Option.bind_eq_some_iff.mp hi
  cases hbuf
  exact ⟨rfl, rfl⟩

end

/-! ## Runs -/

/-- The calls a caller makes on its string. `fill` makes room for `size` bytes, has `t` written
behind the string, as a `read` does, and adds them to it; `trim` takes bytes off the end. -/
inductive SdsOp
  | makeRoomFor (addlen : ℕ)
  | removeFreeSpace
  | fill (size : ℕ) (t : Bytes)
  | trim (n : ℕ)
  | catlen (t : Bytes)
  | cpylen (t : Bytes)
  | growzero (len : ℕ)
  | range (start stop : ℤ)
  | clear
  deriving DecidableEq, Repr

/-- A caller keeps its string where the result is a null pointer; the answer says whether it is
not. -/
def kept (s : Sdshdr) : Option Sdshdr → Bool × Sdshdr
  | none => (false, s)
  | some s => (true, s)

def sdsFill (s : Sdshdr) (size : ℕ) (t : Bytes) (ok : Bool) : Option (Option Sdshdr) := do
  match ← sdsMakeRoomFor s size ok with
  | none => some none
  | some s =>
    let buf ← write s.buf (sdslen s) (t.map some)
    (sdsIncrLen { s with buf := buf } t.length).map some

def SdsOp.call (s : Sdshdr) : SdsOp × Bool → Option (Bool × Sdshdr)
  | (.makeRoomFor addlen, ok) => (sdsMakeRoomFor s addlen ok).map (kept s)
  | (.removeFreeSpace, ok) => (sdsRemoveFreeSpace s ok).map (kept s)
  | (.fill size t, ok) => (sdsFill s size t ok).map (kept s)
  | (.trim n, _) => (sdsIncrLen s (-n)).map (true, ·)
  | (.catlen t, ok) => (sdscatlen s t ok).map (kept s)
  | (.cpylen t, ok) => (sdscpylen s t ok).map (kept s)
  | (.growzero len, ok) => (sdsgrowzero s len ok).map (kept s)
  | (.range start stop, _) => (sdsrange s start stop).map (true, ·)
  | (.clear, _) => (sdsclear s).map (true, ·)

/-- What a call that got its memory does to the string. -/
def SdsOp.apply (s : Bytes) : SdsOp → Bytes
  | .makeRoomFor _ | .removeFreeSpace => s
  | .fill _ t | .catlen t => s ++ t
  | .trim n => s.take (s.length - n)
  | .cpylen t => t
  | .growzero len => s ++ List.replicate (len - s.length) 0
  | .range start stop => PartialSends.sdsrange s start stop
  | .clear => []

def SdsOp.next (s : Bytes) (op : SdsOp × Bool) (done : Bool) : Bytes :=
  if done then op.1.apply s else s

/-- Where a size with the preallocation and the largest header is still a `size_t`. -/
def Allocatable (n : ℕ) : Prop := n + 2 ^ 20 + 18 < 2 ^ 64

instance (n : ℕ) : Decidable (Allocatable n) := inferInstanceAs (Decidable (_ < _))

/-- What a caller has to see to. -/
def SdsOp.Fits (s : Bytes) : SdsOp × Bool → Prop
  | (.makeRoomFor addlen, _) => Allocatable (s.length + addlen)
  | (.removeFreeSpace, _) => Allocatable s.length
  | (.fill size t, _) => Allocatable (s.length + size) ∧ 0 < t.length ∧ t.length ≤ size
  | (.trim n, _) => 0 < n ∧ n ≤ s.length
  | (.catlen t, _) => Allocatable (s.length + t.length)
  | (.cpylen t, _) => Allocatable t.length
  | (.growzero len, _) => Allocatable len
  | (.range _ _, _) | (.clear, _) => True

instance decidableFits (s : Bytes) (op : SdsOp × Bool) : Decidable (SdsOp.Fits s op) := by
  unfold SdsOp.Fits
  split <;> infer_instance

/-- Only a call without memory is not carried out. -/
def SdsOp.May (op : SdsOp × Bool) (done : Bool) : Prop := op.2 = true → done = true

instance (op : SdsOp × Bool) (done : Bool) : Decidable (SdsOp.May op done) :=
  inferInstanceAs (Decidable (_ → _))

/-- The string in memory is the one the calls so far make. -/
def SdsOp.Meets (_ : Sdshdr) (s : Bytes) (op : SdsOp × Bool) (done : Bool) (h' : Sdshdr) : Prop :=
  SdsOp.May op done ∧ Represents h' (SdsOp.next s op done)

section
variable {h : Sdshdr} {s t : Bytes} {n : ℕ} {ok : Bool}

theorem Allocatable.lt (hn : Allocatable n) : n + 18 < 2 ^ 64 := by
  unfold Allocatable at hn
  omega

theorem sdsFill_spec (hr : Represents h s) (hsize : Allocatable (s.length + n))
    (hpos : 0 < t.length) (hle : t.length ≤ n) :
    Yields ok (fun h' => Represents h' (s ++ t)) (sdsFill h n t ok) := by
  rcases sdsMakeRoomFor_spec ok hr hsize with ⟨h₁, hmake, hr₁, hroom⟩ | ⟨hmake, hok⟩
  · have hroom' : HasRoom h₁ (s.length + t.length) := hroom.mono (by omega)
    have hlen : sdslen h₁ = s.length := hr₁.len
    obtain ⟨buf, hw⟩ := write_isSome h₁.buf s.length (t.map some) (by
      rw [List.length_map]
      exact (Nat.le_succ _).trans hroom'.buf)
    obtain ⟨h', hincr, hr'⟩ := sdsIncrLen_spec _ (t := s ++ t) hr₁
      (incrFits_of_room hr₁ hroom' fun _ => hpos) (by rw [List.length_append]; push_cast; rfl)
      (by rwa [List.length_append]) (hr₁.holds.of_append.append hw) (length_write hw)
    refine .inl ⟨h', ?_, hr'⟩
    simp only [sdsFill, hmake, hlen, hw, hincr, Option.bind_eq_bind, Option.bind_some,
      Option.map_some]
  · refine .inr ⟨?_, hok⟩
    simp only [sdsFill, hmake, Option.bind_eq_bind, Option.bind_some]

theorem trim_spec (hr : Represents h s) (hpos : 0 < n) (hle : n ≤ s.length) :
    ∃ h', sdsIncrLen h (-n) = some h' ∧ Represents h' (s.take (s.length - n)) := by
  have hlength : (s.take (s.length - n)).length = s.length - n := by
    rw [List.length_take]
    omega
  have hpre : StartsWith h.buf (s.take (s.length - n)) :=
    ((List.take_prefix _ _).map some).trans hr.holds.of_append
  exact sdsIncrLen_spec h.buf hr (incrFits_of_le hr hle hpos)
    (by rw [hlength]; omega) (by rw [hlength]; exact hr.hasRoom.mono (Nat.sub_le _ _)) hpre rfl

/-- A call that may have to allocate, as a caller sees it. -/
theorem meets_of_yields (op : SdsOp) {result : Option (Option Sdshdr)} (hr : Represents h s)
    (hy : Yields ok (fun h' => Represents h' (op.apply s)) result) :
    ∃ done h', result.map (kept h) = some (done, h') ∧ SdsOp.Meets h s (op, ok) done h' := by
  rcases hy with ⟨h', rfl, hr'⟩ | ⟨rfl, rfl⟩
  · exact ⟨true, h', rfl, fun _ => rfl, hr'⟩
  · exact ⟨false, h, rfl, fun hok => hok, hr⟩

theorem meets_of_inPlace (op : SdsOp) {result : Option Sdshdr}
    (hy : ∃ h', result = some h' ∧ Represents h' (op.apply s)) :
    ∃ done h', result.map (true, ·) = some (done, h') ∧ SdsOp.Meets h s (op, ok) done h' := by
  obtain ⟨h', rfl, hr'⟩ := hy
  exact ⟨true, h', rfl, fun _ => rfl, hr'⟩

theorem call_meets (hr : Represents h s) (op : SdsOp × Bool) (hfits : SdsOp.Fits s op) :
    ∃ done h', SdsOp.call h op = some (done, h') ∧ SdsOp.Meets h s op done h' := by
  obtain ⟨op, ok⟩ := op
  cases op with
  | makeRoomFor addlen =>
    refine meets_of_yields (.makeRoomFor addlen) hr ?_
    rcases sdsMakeRoomFor_spec ok hr hfits with ⟨h', hmake, hr', -⟩ | hnull
    · exact .inl ⟨h', hmake, hr'⟩
    · exact .inr hnull
  | removeFreeSpace =>
    exact meets_of_yields .removeFreeSpace hr
      (sdsRemoveFreeSpace_spec hr (Allocatable.lt hfits))
  | fill size t =>
    exact meets_of_yields (.fill size t) hr (sdsFill_spec hr hfits.1 hfits.2.1 hfits.2.2)
  | trim n => exact meets_of_inPlace (.trim n) (trim_spec hr hfits.1 hfits.2)
  | catlen t => exact meets_of_yields (.catlen t) hr (sdscatlen_spec ok hr hfits)
  | cpylen t => exact meets_of_yields (.cpylen t) hr (sdscpylen_spec hr hfits)
  | growzero len => exact meets_of_yields (.growzero len) hr (sdsgrowzero_spec hr hfits)
  | range start stop => exact meets_of_inPlace (.range start stop) (sdsrange_spec hr start stop)
  | clear => exact meets_of_inPlace .clear (sdsclear_spec hr)

end

/-- Whatever calls are made on a new string and wherever memory runs out, no assertion fails, no
call reads or writes outside the string's memory, and the string in memory, its length and its
terminator are always those of the bytes the calls so far make. -/
theorem sds_follows_bytes (init : Bytes) (hinit : Allocatable init.length)
    (ops : List (SdsOp × Bool))
    (hops : Permitted SdsOp.next SdsOp.May SdsOp.Fits init ops) :
    ∃ h, sdsnewlen init true = some (some h) ∧
      Follows SdsOp.call SdsOp.next SdsOp.Meets (fun _ => True) h init ops := by
  obtain ⟨h, hnew, hr⟩ := sdsnewlen_spec _ hinit.lt
  refine ⟨h, hnew, follows_of_permitted (R := Represents) (fun _ _ _ => trivial) ?_ ops hr hops⟩
  intro h s op hr hfits
  obtain ⟨done, h', hcall, hmay, hr'⟩ := call_meets hr op hfits
  exact ⟨done, h', hcall, hmay, ⟨hmay, hr'⟩, hr'⟩

theorem sds_follows_bytes_abc : ∃ h, sdsnewlen [97, 98, 99] true = some (some h) ∧
    Follows SdsOp.call SdsOp.next SdsOp.Meets (fun _ => True) h [97, 98, 99]
      [(.fill 40 [100, 101], true), (.catlen [102], false), (.range 1 (-2), true),
        (.removeFreeSpace, true), (.growzero 9, true), (.trim 2, true)] :=
  sds_follows_bytes [97, 98, 99] (by decide) _ (by decide)

end Cerverus.SdsMemory
