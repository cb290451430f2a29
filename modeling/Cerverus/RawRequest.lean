import Cerverus.GrowableArray
import Cerverus.RequestGrammar

/-!
# Parsing in place

`request_parse` as it works on `req->_raw`: pointers are offsets into it, and the request is
made of slices of it. The functions of `Cerverus.Http` on byte strings say what each step finds.
-/
namespace Cerverus.Http.Slices
open GrowableArray

structure Sv where
  ptr : ℕ
  len : ℕ
  deriving DecidableEq, Repr

def Sv.bytes (raw : Bytes) (sv : Sv) : Bytes := (raw.drop sv.ptr).take sv.len

/-- `header_t`, with the `sv` side of its union. -/
structure RawHeader where
  name : Sv
  value : Sv
  deriving DecidableEq, Repr

/-- `request_t` without `_raw`; `none` is `http_method_unknown` and `http_version_unknown`. -/
structure RawRequest where
  method : Option HttpMethod
  uri : Sv
  version : Option HttpVersion
  headers : ℕ
  body : Sv
  deriving DecidableEq, Repr

def memchrAt (raw : Bytes) (c : UInt8) (ptr len : ℕ) : Option ℕ :=
  (memchr (Sv.bytes raw ⟨ptr, len⟩) c).map (ptr + ·)

def memmemAt (raw needle : Bytes) (ptr len : ℕ) : Option ℕ :=
  (memmem needle (Sv.bytes raw ⟨ptr, len⟩)).map (ptr + ·)

def parseStatusLine (raw : Bytes) (req : RawRequest) (line : Sv) : Bool × RawRequest :=
  let stop := line.ptr + line.len
  match memchrAt raw 32 line.ptr line.len with
  | none => (false, req)
  | some sp1 =>
    match memchrAt raw 32 (sp1 + 1) (stop - (sp1 + 1)) with
    | none => (false, req)
    | some sp2 =>
      let method : Sv := ⟨line.ptr, sp1 - line.ptr⟩
      let uri : Sv := ⟨sp1 + 1, sp2 - (sp1 + 1)⟩
      let version : Sv := ⟨sp2 + 1, stop - (sp2 + 1)⟩
      if method.len = 0 ∨ uri.len = 0 then (false, req)
      else if (memchrAt raw 32 version.ptr version.len).isSome then (false, req)
      else
        let req :=
          { req with
            method := parseHttpMethod (method.bytes raw)
            uri := uri
            version := parseHttpVersion (version.bytes raw) }
        (req.method.isSome && req.version.isSome, req)

def isBlankAt (raw : Bytes) (ptr : ℕ) : Bool := raw[ptr]?.any isBlank

/-- The loop that moves `v` forward. -/
def skipBlank (raw : Bytes) (v ve : ℕ) : ℕ :=
  if v < ve ∧ isBlankAt raw v = true then skipBlank raw (v + 1) ve else v
  termination_by ve - v

/-- The loop that moves `ve` back. -/
def dropBlank (raw : Bytes) (v : ℕ) : ℕ → ℕ
  | 0 => 0
  | ve + 1 => if v < ve + 1 ∧ isBlankAt raw ve = true then dropBlank raw v ve else ve + 1

/-- The header of the line `[p, eol)`; `none` where `parse_headers` returns `false`. -/
def headerAt (raw : Bytes) (p eol : ℕ) : Option RawHeader :=
  (memchrAt raw 58 p (eol - p)).bind fun colon =>
    if colon = p then none
    else
      let v := skipBlank raw (colon + 1) eol
      let ve := dropBlank raw v eol
      some ⟨⟨p, colon - p⟩, ⟨v, ve - v⟩⟩

def eolAt (raw : Bytes) (p stop : ℕ) : ℕ := (memmemAt raw crlf p (stop - p)).getD stop

theorem le_eolAt {raw : Bytes} {p stop : ℕ} (h : p ≤ stop) : p ≤ eolAt raw p stop := by
  rw [eolAt, memmemAt]
  rcases memmem crlf (Sv.bytes raw ⟨p, stop - p⟩) with _ | i
  · exact h
  · exact Nat.le_add_right p i

/-- The loop of `parse_headers`, with the array `req->headers` that it adds to. -/
def parseHeadersLoop (raw : Bytes) (p stop : ℕ) (heap : ArrayHeap RawHeader) (darr : ℕ) :
    Option (Bool × ℕ × ArrayHeap RawHeader) :=
  if _ : p < stop then
    match headerAt raw p (eolAt raw p stop) with
    | none => some (false, darr, heap)
    | some h =>
      (arrayAdd heap darr h).bind fun r =>
        parseHeadersLoop raw (eolAt raw p stop + 2) stop r.2 r.1
  else some (true, darr, heap)
  termination_by stop - p
  decreasing_by
    have := @le_eolAt raw p stop (Nat.le_of_lt ‹p < stop›)
    omega

def parseHeaders (raw : Bytes) (req : RawRequest) (rawHdrs : Sv) (heap : ArrayHeap RawHeader) :
    Option (Bool × RawRequest × ArrayHeap RawHeader) :=
  let created := arrayCreate heap 16
  (parseHeadersLoop raw rawHdrs.ptr (rawHdrs.ptr + rawHdrs.len) created.2 created.1).map fun r =>
    (r.1, { req with headers := r.2.1 }, r.2.2)

/-- The conversion of a `size_t` to `int`. -/
def toInt (n : ℕ) : ℤ := Int.bmod n (2 ^ 32)

/-- The `int` that is returned, and the request and the heap it leaves. -/
def requestParse (raw : Bytes) (req : RawRequest) (heap : ArrayHeap RawHeader) :
    Option (ℤ × RawRequest × ArrayHeap RawHeader) :=
  match memmemAt raw crlfcrlf 0 raw.length with
  | none => some (if maxHeaderBytes ≤ raw.length then -1 else 0, req, heap)
  | some hdrEnd =>
    match memmemAt raw crlf 0 (hdrEnd + 2) with
    | none => some (-1, req, heap)
    | some lineEnd =>
      let status := parseStatusLine raw req ⟨0, lineEnd⟩
      if status.1 = false then some (-1, status.2, heap)
      else
        (parseHeaders raw status.2 ⟨lineEnd + 2, hdrEnd + 2 - (lineEnd + 2)⟩ heap).map fun r =>
          if r.1 = false then (-1, r.2)
          else (toInt (hdrEnd + 4), { r.2.1 with body := ⟨hdrEnd + 4, 0⟩ }, r.2.2)

/-! ## Slices -/

section
variable {raw : Bytes} {c : UInt8} {needle : Bytes} {p stop v ve len k : ℕ}

theorem bytes_length (h : p + len ≤ raw.length) : (Sv.bytes raw ⟨p, len⟩).length = len := by
  simp only [Sv.bytes, List.length_take, List.length_drop]
  omega

theorem bytes_drop : (Sv.bytes raw ⟨p, len⟩).drop k = Sv.bytes raw ⟨p + k, len - k⟩ := by
  simp only [Sv.bytes, List.drop_take, List.drop_drop]

theorem bytes_take (h : k ≤ len) : (Sv.bytes raw ⟨p, len⟩).take k = Sv.bytes raw ⟨p, k⟩ := by
  simp only [Sv.bytes, List.take_take, min_eq_left h]

theorem bytes_cons (hv : v < ve) (hve : ve ≤ raw.length) :
    Sv.bytes raw ⟨v, ve - v⟩ = raw[v] :: Sv.bytes raw ⟨v + 1, ve - (v + 1)⟩ := by
  have hlen : ve - v = ve - (v + 1) + 1 := by omega
  simp only [Sv.bytes]
  rw [List.drop_eq_getElem_cons (by omega), hlen, List.take_succ_cons]

theorem bytes_concat (hv : v ≤ ve) (hve : ve < raw.length) :
    Sv.bytes raw ⟨v, ve + 1 - v⟩ = Sv.bytes raw ⟨v, ve - v⟩ ++ [raw[ve]] := by
  have hlen : ve + 1 - v = ve - v + 1 := by omega
  have hget : (raw.drop v)[ve - v]? = some raw[ve] := by
    rw [List.getElem?_drop, show v + (ve - v) = ve by omega, List.getElem?_eq_getElem hve]
  simp only [Sv.bytes]
  rw [hlen, List.take_add_one, hget]
  rfl

theorem isBlankAt_eq (h : v < raw.length) : isBlankAt raw v = isBlank raw[v] := by
  simp [isBlankAt, h]

theorem skipBlank_spec (hv : v ≤ ve) (hve : ve ≤ raw.length) :
    v ≤ skipBlank raw v ve ∧ skipBlank raw v ve ≤ ve ∧
      Sv.bytes raw ⟨skipBlank raw v ve, ve - skipBlank raw v ve⟩ =
        (Sv.bytes raw ⟨v, ve - v⟩).dropWhile isBlank := by
  induction hn : ve - v generalizing v with
  | zero =>
    have hnot : ¬ (v < ve ∧ isBlankAt raw v = true) := by omega
    rw [skipBlank, if_neg hnot, hn]
    exact ⟨le_rfl, hv, by simp [Sv.bytes]⟩
  | succ n ih =>
    have hlt : v < ve := by omega
    rw [← hn, bytes_cons hlt hve, skipBlank, isBlankAt_eq (by omega)]
    split_ifs with hblank
    · obtain ⟨hge, hle, hbytes⟩ := @ih (v + 1) hlt (by omega)
      rw [List.dropWhile_cons_of_pos hblank.2, hbytes]
      exact ⟨by omega, hle, by rw [show n = ve - (v + 1) by omega]⟩
    · rw [List.dropWhile_cons_of_neg (fun h => hblank ⟨hlt, h⟩), ← bytes_cons hlt hve]
      exact ⟨le_rfl, hv, rfl⟩

theorem dropBlank_spec (hv : v ≤ ve) (hve : ve ≤ raw.length) :
    v ≤ dropBlank raw v ve ∧ dropBlank raw v ve ≤ ve ∧
      Sv.bytes raw ⟨v, dropBlank raw v ve - v⟩ =
        ((Sv.bytes raw ⟨v, ve - v⟩).reverse.dropWhile isBlank).reverse := by
  induction ve with
  | zero => exact ⟨hv, le_rfl, by simp [Sv.bytes, dropBlank]⟩
  | succ ve ih =>
    rw [dropBlank, isBlankAt_eq (by omega)]
    split_ifs with hblank
    · obtain ⟨hlt, hb⟩ := hblank
      obtain ⟨hge, hle, hbytes⟩ := ih (by omega) (by omega)
      refine ⟨hge, by omega, ?_⟩
      rw [hbytes, bytes_concat (by omega) (by omega), List.reverse_append, List.reverse_singleton,
        List.singleton_append, List.dropWhile_cons_of_pos hb]
    · refine ⟨hv, le_rfl, ?_⟩
      rcases Nat.lt_or_ge v (ve + 1) with hlt | hge
      · rw [bytes_concat (by omega) (by omega), List.reverse_append, List.reverse_singleton,
          List.singleton_append, List.dropWhile_cons_of_neg (fun h => hblank ⟨hlt, h⟩)]
        simp
      · simp [Sv.bytes, show ve + 1 - v = 0 by omega]

end

/-! ## The status line -/

def Sv.Inside (sv : Sv) (stop : ℕ) : Prop := sv.ptr + sv.len ≤ stop

theorem Sv.Inside.mono {sv : Sv} {stop stop' : ℕ} (h : sv.Inside stop) (hle : stop ≤ stop') :
    sv.Inside stop' :=
  Nat.le_trans h hle

section
variable {raw : Bytes} {req : RawRequest} {line : Sv}

theorem memchr_lt {l : Bytes} {c : UInt8} {i : ℕ} (h : memchr l c = some i) : i < l.length := by
  obtain ⟨l, r, rfl, _, rfl⟩ := memchr_eq_some.mp h
  simp

theorem bytes_eq_nil {sv : Sv} (h : sv.Inside raw.length) : sv.bytes raw = [] ↔ sv.len = 0 := by
  rw [← List.length_eq_zero_iff, bytes_length h]

theorem parseStatusLine_spec (hline : line.Inside raw.length) :
    (parseStatusLine raw req line).1 = (Http.parseStatusLine (line.bytes raw)).isSome ∧
      ∀ method uri version, Http.parseStatusLine (line.bytes raw) = some (method, uri, version) →
        (parseStatusLine raw req line).2.method = some method ∧
          (parseStatusLine raw req line).2.uri.bytes raw = uri ∧
          (parseStatusLine raw req line).2.version = some version ∧
          (parseStatusLine raw req line).2.uri.Inside (line.ptr + line.len) := by
  obtain ⟨ptr, len⟩ := line
  simp only [Sv.Inside] at hline
  rw [parseStatusLine, Http.parseStatusLine, memchrAt]
  rcases hsp1 : memchr (Sv.bytes raw ⟨ptr, len⟩) 32 with _ | i
  · simp
  · have hi := memchr_lt hsp1
    rw [bytes_length hline] at hi
    have hrest : (Sv.bytes raw ⟨ptr, len⟩).drop (i + 1) =
        Sv.bytes raw ⟨ptr + i + 1, ptr + len - (ptr + i + 1)⟩ := by
      rw [bytes_drop, ← add_assoc, show len - (i + 1) = ptr + len - (ptr + i + 1) by omega]
    simp only [Option.map_some, memchrAt, Option.bind_eq_bind, Option.bind_some, hrest]
    rcases hsp2 : memchr (Sv.bytes raw ⟨ptr + i + 1, ptr + len - (ptr + i + 1)⟩) 32 with _ | j
    · simp
    · have hj := memchr_lt hsp2
      rw [bytes_length (by omega)] at hj
      have hname : (Sv.bytes raw ⟨ptr, len⟩).take i = Sv.bytes raw ⟨ptr, i⟩ := bytes_take hi.le
      have huri : (Sv.bytes raw ⟨ptr + i + 1, ptr + len - (ptr + i + 1)⟩).take j =
          Sv.bytes raw ⟨ptr + i + 1, j⟩ := bytes_take hj.le
      have hversion : (Sv.bytes raw ⟨ptr + i + 1, ptr + len - (ptr + i + 1)⟩).drop (j + 1) =
          Sv.bytes raw ⟨ptr + i + 1 + j + 1, ptr + len - (ptr + i + 1 + j + 1)⟩ := by
        rw [bytes_drop, ← add_assoc, Nat.sub_sub, ← add_assoc]
      have hnil : Sv.bytes raw ⟨ptr, i⟩ = [] ↔ i = 0 :=
        bytes_eq_nil (show ptr + i ≤ raw.length by omega)
      have hnil' : Sv.bytes raw ⟨ptr + i + 1, j⟩ = [] ↔ j = 0 :=
        bytes_eq_nil (show ptr + i + 1 + j ≤ raw.length by omega)
      simp only [Option.map_some, Option.bind_some, hname, huri, hversion, hnil, hnil',
        Nat.add_sub_cancel_left, Option.isSome_map]
      split_ifs with hempty hfourth
      · simp
      · simp
      · rcases hmethod : parseHttpMethod (Sv.bytes raw ⟨ptr, i⟩) with _ | m
        · simp
        · rcases hv : parseHttpVersion
            (Sv.bytes raw ⟨ptr + i + 1 + j + 1, ptr + len - (ptr + i + 1 + j + 1)⟩) with _ | v
          · simp
          · refine ⟨rfl, fun method uri version heq => ?_⟩
            cases heq
            refine ⟨rfl, rfl, rfl, ?_⟩
            simp only [Sv.Inside]
            omega

end

/-! ## Header lines -/

def RawHeader.Inside (hdr : RawHeader) (stop : ℕ) : Prop :=
  hdr.name.Inside stop ∧ hdr.value.Inside stop

/-- The header that the slices show. -/
def RawHeader.read (raw : Bytes) (hdr : RawHeader) : Header :=
  ⟨hdr.name.bytes raw, hdr.value.bytes raw⟩

section
variable {raw : Bytes} {p eol stop : ℕ}

theorem headerAt_spec (hp : p ≤ eol) (heol : eol ≤ raw.length) :
    (headerAt raw p eol).map (RawHeader.read raw) = parseHeaderLine (Sv.bytes raw ⟨p, eol - p⟩) ∧
      ∀ hdr ∈ headerAt raw p eol, hdr.Inside eol := by
  rw [headerAt, memchrAt, parseHeaderLine]
  rcases hcolon : memchr (Sv.bytes raw ⟨p, eol - p⟩) 58 with _ | i
  · simp
  · have hi := memchr_lt hcolon
    rw [bytes_length (by omega)] at hi
    rcases i with _ | i
    · simp
    · obtain ⟨hge, hle, hskip⟩ := @skipBlank_spec raw (p + (i + 1) + 1) eol (by omega) heol
      obtain ⟨hge', hle', hdrop⟩ := dropBlank_spec hle heol
      have hname : (Sv.bytes raw ⟨p, eol - p⟩).take (i + 1) = Sv.bytes raw ⟨p, i + 1⟩ :=
        bytes_take (by omega)
      have hvalue : (Sv.bytes raw ⟨p, eol - p⟩).drop (i + 1 + 1) =
          Sv.bytes raw ⟨p + (i + 1) + 1, eol - (p + (i + 1) + 1)⟩ := by
        rw [bytes_drop, add_assoc p, show eol - p - (i + 1 + 1) = eol - (p + (i + 1 + 1)) by omega]
      have hne : p + (i + 1) ≠ p := by omega
      simp only [Option.map_some, Option.bind_some, if_neg hne, RawHeader.read, Option.some.injEq,
        Header.mk.injEq, hname, hvalue, trim, Option.mem_def, forall_eq']
      refine ⟨⟨by rw [Nat.add_sub_cancel_left], by rw [hdrop, hskip]⟩, ?_, ?_⟩
      · simp only [Sv.Inside]
        omega
      · simp only [Sv.Inside]
        omega

theorem eolAt_eq (hp : p ≤ stop) (hstop : stop ≤ raw.length) :
    eolAt raw p stop = p + (memmem crlf (Sv.bytes raw ⟨p, stop - p⟩)).getD
      (Sv.bytes raw ⟨p, stop - p⟩).length ∧ eolAt raw p stop ≤ stop := by
  have hlen : (Sv.bytes raw ⟨p, stop - p⟩).length = stop - p := bytes_length (by omega)
  rw [eolAt, memmemAt, hlen]
  rcases heol : memmem crlf (Sv.bytes raw ⟨p, stop - p⟩) with _ | i
  · simp only [Option.map_none, Option.getD_none]
    omega
  · have := memmem_le heol
    rw [hlen] at this
    refine ⟨rfl, ?_⟩
    simp only [Option.map_some, Option.getD_some]
    omega

/-- The loop takes the headers that `parseHeaders` finds, adds a slice pair for each one in
order, and goes on with the array that it has now. -/
theorem parseHeadersLoop_spec {heap : ArrayHeap RawHeader} {darr size : ℕ}
    {els : List RawHeader} (hstop : stop ≤ raw.length) (hlive : Live heap darr size els) :
    ∃ ok darr' heap', parseHeadersLoop raw p stop heap darr = some (ok, darr', heap') ∧
      ok = (Http.parseHeaders (Sv.bytes raw ⟨p, stop - p⟩)).isSome ∧
      ∀ hdrs ∈ Http.parseHeaders (Sv.bytes raw ⟨p, stop - p⟩), ∃ size' added,
        Live heap' darr' size' (els ++ added) ∧ added.map (RawHeader.read raw) = hdrs ∧
          ∀ hdr ∈ added, hdr.Inside stop := by
  induction hn : stop - p using Nat.strong_induction_on generalizing p heap darr size els with
  | _ n ih =>
    rw [← hn, parseHeadersLoop, Http.parseHeaders]
    by_cases hp : p < stop
    · have hlen : (Sv.bytes raw ⟨p, stop - p⟩).length = stop - p := bytes_length (by omega)
      have hne : Sv.bytes raw ⟨p, stop - p⟩ ≠ [] := by
        intro hnil
        rw [hnil, List.length_nil] at hlen
        omega
      obtain ⟨heol, hle⟩ := eolAt_eq hp.le hstop
      have hge := @le_eolAt raw _ _ hp.le
      obtain ⟨hread, hinside⟩ := headerAt_spec hge (hle.trans hstop)
      have hline : (Sv.bytes raw ⟨p, stop - p⟩).take (eolAt raw p stop - p) =
          Sv.bytes raw ⟨p, eolAt raw p stop - p⟩ := bytes_take (by omega)
      have hrest : (Sv.bytes raw ⟨p, stop - p⟩).drop (eolAt raw p stop - p + 2) =
          Sv.bytes raw ⟨eolAt raw p stop + 2, stop - (eolAt raw p stop + 2)⟩ := by
        rw [bytes_drop, show p + (eolAt raw p stop - p + 2) = eolAt raw p stop + 2 by omega,
          show stop - p - (eolAt raw p stop - p + 2) = stop - (eolAt raw p stop + 2) by omega]
      have hi := (Nat.sub_eq_of_eq_add' heol).symm
      rw [dif_pos hp, dif_neg hne]
      simp only [hi, hline, hrest]
      rcases hhdr : headerAt raw p (eolAt raw p stop) with _ | hdr
      · rw [hhdr, Option.map_none] at hread
        simp [← hread]
      · rw [hhdr, Option.map_some] at hread
        obtain ⟨darr₁, heap₁, size₁, hadd, hlive₁⟩ := arrayAdd_live hlive hdr
        obtain ⟨ok, darr', heap', hloop, hok, hadded⟩ :=
          @ih _ (by omega) (eolAt raw p stop + 2) heap₁ darr₁ size₁ _ hlive₁ rfl
        simp only [← hread, hadd, Option.bind_some]
        refine ⟨ok, darr', heap', hloop, by rw [hok, Option.isSome_map], fun hdrs hmem => ?_⟩
        obtain ⟨rest, hrest', rfl⟩ := Option.map_eq_some_iff.mp hmem
        obtain ⟨size', added, hlive', hmap, hin⟩ := hadded rest hrest'
        refine ⟨size', hdr :: added, ?_, by rw [List.map_cons, hmap], ?_⟩
        · rwa [List.append_assoc, List.singleton_append] at hlive'
        · refine List.forall_mem_cons.mpr ⟨?_, hin⟩
          have hinside := hinside hdr hhdr
          exact ⟨hinside.1.mono hle, hinside.2.mono hle⟩
    · have hnil : Sv.bytes raw ⟨p, stop - p⟩ = [] := by
        simp [Sv.bytes, show stop - p = 0 by omega]
      rw [dif_neg hp, dif_pos hnil]
      refine ⟨true, darr, heap, rfl, rfl, fun hdrs hmem => ?_⟩
      cases hmem
      exact ⟨size, [], by rwa [List.append_nil], rfl, by simp⟩

end

/-! ## The request -/

/-- `hdrEnd` is the index of the first `CRLFCRLF`. -/
def HeaderEnd (raw : Bytes) (hdrEnd : ℕ) : Prop :=
  crlfcrlf <+: raw.drop hdrEnd ∧ ∀ j < hdrEnd, ¬ crlfcrlf <+: raw.drop j

/-- The header block ends with the first half of the first `CRLFCRLF`. -/
def headerBlock (raw : Bytes) (hdrEnd : ℕ) : Bytes := raw.take (hdrEnd + 2)

/-- The request has a method, a URI and headers that are live in the heap, all lying in the
header block. -/
structure Shows (raw : Bytes) (stop : ℕ) (req : RawRequest) (heap : ArrayHeap RawHeader)
    (method : HttpMethod) (uri : Bytes) (headers : List Header) : Prop where
  method : req.method = some method
  uri : req.uri.bytes raw = uri
  uriInside : req.uri.Inside stop
  version : req.version = some .v1p1
  headers : ∃ size added, Live heap req.headers size added ∧
    added.map (RawHeader.read raw) = headers ∧ ∀ hdr ∈ added, hdr.Inside stop

section
variable {raw : Bytes} {req : RawRequest} {heap : ArrayHeap RawHeader} {hdrEnd : ℕ}

theorem memmem_headerEnd : memmem crlfcrlf raw = some hdrEnd ↔ HeaderEnd raw hdrEnd := by
  rw [memmem_eq_some]
  constructor
  · intro h
    exact ⟨h.1, h.2.2⟩
  · intro h
    refine ⟨h.1, ?_, h.2⟩
    have := h.1.length_le
    simp only [crlfcrlf, List.length_cons, List.length_nil, List.length_drop] at this
    omega

theorem headerEnd_le (h : HeaderEnd raw hdrEnd) : hdrEnd + 4 ≤ raw.length :=
  memmem_le (memmem_headerEnd.mpr h)

theorem toInt_eq {n : ℕ} (h : n < 2 ^ 31) : toInt n = n := by
  refine Int.bmod_eq_of_le_mul_two ?_ ?_
  · push_cast
    omega
  · push_cast
    omega

theorem crlf_suffix_headerBlock (h : HeaderEnd raw hdrEnd) :
    crlf <:+ headerBlock raw hdrEnd := by
  obtain ⟨rest, hrest⟩ := h.1
  refine ⟨raw.take hdrEnd, ?_⟩
  rw [headerBlock, List.take_add, ← hrest]
  rfl

/-- The header block has a first line, and the parser works on what comes before and after its
end. -/
theorem exists_lineEnd (h : HeaderEnd raw hdrEnd) :
    ∃ lineEnd ≤ hdrEnd, memmemAt raw crlf 0 (hdrEnd + 2) = some lineEnd ∧
      parseHeaderBlock (headerBlock raw hdrEnd) =
        (Http.parseStatusLine (Sv.bytes raw ⟨0, lineEnd⟩)).bind fun s =>
          (Http.parseHeaders (Sv.bytes raw ⟨lineEnd + 2, hdrEnd + 2 - (lineEnd + 2)⟩)).bind
            fun hdrs => some ⟨s.1, s.2.1, s.2.2, hdrs⟩ := by
  have hdrop : crlf <+: (headerBlock raw hdrEnd).drop ((headerBlock raw hdrEnd).length - 2) :=
    List.suffix_iff_eq_drop.mp (crlf_suffix_headerBlock h) ▸ List.prefix_rfl
  obtain ⟨lineEnd, hline⟩ := memmem_isSome hdrop
  have hle := memmem_le hline
  simp only [headerBlock, List.length_take, crlf, List.length_cons, List.length_nil] at hle
  have hblock : headerBlock raw hdrEnd = Sv.bytes raw ⟨0, hdrEnd + 2⟩ := by
    simp [headerBlock, Sv.bytes]
  have hfirst : (headerBlock raw hdrEnd).take lineEnd = Sv.bytes raw ⟨0, lineEnd⟩ := by
    rw [hblock, bytes_take (by omega)]
  have hrest : (headerBlock raw hdrEnd).drop (lineEnd + 2) =
      Sv.bytes raw ⟨lineEnd + 2, hdrEnd + 2 - (lineEnd + 2)⟩ := by
    rw [hblock, bytes_drop, Nat.zero_add]
  refine ⟨lineEnd, by omega, ?_, ?_⟩
  · simpa [memmemAt, Sv.bytes, headerBlock] using hline
  · simp only [parseHeaderBlock, hline, hfirst, hrest, Option.bind_eq_bind, Option.bind_some]

theorem requestParse_block (hlen : raw.length < 2 ^ 31) (h : HeaderEnd raw hdrEnd) :
    ∃ result req' heap', requestParse raw req heap = some (result, req', heap') ∧
      ((parseHeaderBlock (headerBlock raw hdrEnd) = none ∧ result = -1) ∨
        ∃ method uri headers, IsRequest (headerBlock raw hdrEnd) method uri headers ∧
          result = hdrEnd + 4 ∧ Shows raw (hdrEnd + 2) req' heap' method uri headers) := by
  have hle := headerEnd_le h
  have hend := crlf_suffix_headerBlock h
  have hfirst : memmemAt raw crlfcrlf 0 raw.length = some hdrEnd := by
    simp [memmemAt, Sv.bytes, memmem_headerEnd.mpr h]
  obtain ⟨lineEnd, hlineEnd, hcrlf, hparse⟩ := exists_lineEnd h
  have hstop : lineEnd + 2 + (hdrEnd + 2 - (lineEnd + 2)) = hdrEnd + 2 := by omega
  obtain ⟨hok, hstatus⟩ := @parseStatusLine_spec raw req ⟨0, lineEnd⟩
    (show 0 + lineEnd ≤ raw.length by omega)
  have hlive := @live_create RawHeader 16 heap (by decide)
  obtain ⟨ok, darr, heap', hloop, hokh, hheaders⟩ :=
    @parseHeadersLoop_spec raw (lineEnd + 2) (hdrEnd + 2) _ _ _ _ (by omega) hlive
  simp only [requestParse, hfirst, hcrlf]
  rcases hs : Http.parseStatusLine (Sv.bytes raw ⟨0, lineEnd⟩) with _ | ⟨method, uri, version⟩
  · rw [hs] at hok hparse
    simp only [hok, Option.isSome_none, if_true]
    exact ⟨-1, _, heap, rfl, Or.inl ⟨hparse, rfl⟩⟩
  · obtain ⟨hmethod, huri, hversion, hinside⟩ := hstatus _ _ _ hs
    rw [hs] at hok hparse
    simp only [hok, Option.isSome_some, Bool.true_eq_false, if_false, parseHeaders, hstop, hloop,
      Option.map_some]
    rcases hh : Http.parseHeaders (Sv.bytes raw ⟨lineEnd + 2, hdrEnd + 2 - (lineEnd + 2)⟩)
      with _ | hdrs
    · rw [hh] at hokh hparse
      simp only [hokh, Option.isSome_none, if_true]
      exact ⟨-1, _, heap', rfl, Or.inl ⟨hparse, rfl⟩⟩
    · obtain ⟨size, added, hlive', hmap, hin⟩ := hheaders hdrs hh
      rw [hh] at hokh hparse
      simp only [hokh, Option.isSome_some, Bool.true_eq_false, if_false]
      refine ⟨_, _, heap', rfl, Or.inr ⟨method, uri, hdrs, ?_, ?_, ?_⟩⟩
      · exact (parseHeaderBlock_eq_some hend).mp hparse
      · rw [toInt_eq (by omega)]
        push_cast
        rfl
      · cases version
        have hline : 0 + lineEnd ≤ hdrEnd + 2 := by omega
        exact ⟨hmethod, huri, hinside.mono hline, hversion, size, added, hlive', hmap, hin⟩

theorem requestParse_noEnd (h : memmem crlfcrlf raw = none) :
    requestParse raw req heap =
      some (if maxHeaderBytes ≤ raw.length then -1 else 0, req, heap) := by
  simp [requestParse, memmemAt, Sv.bytes, h]

theorem not_isRequest {method : HttpMethod} {uri : Bytes} {headers : List Header}
    (hend : HeaderEnd raw hdrEnd) (h : parseHeaderBlock (headerBlock raw hdrEnd) = none) :
    ¬ IsRequest (headerBlock raw hdrEnd) method uri headers := by
  intro hrequest
  have hparse : parseHeaderBlock (headerBlock raw hdrEnd) = some ⟨method, uri, .v1p1, headers⟩ :=
    (parseHeaderBlock_eq_some (crlf_suffix_headerBlock hend)).mpr hrequest
  cases hparse.symm.trans h

/-- The parser accepts its grammar and nothing else. It asks for more as long as there is no
end of the headers in fewer than 4096 bytes, and refuses everything else. -/
theorem requestParse_exact (raw : Bytes) (hlen : raw.length < 2 ^ 31) (req : RawRequest)
    (heap : ArrayHeap RawHeader) :
    ∃ result req' heap', requestParse raw req heap = some (result, req', heap') ∧
      (result = 0 ↔ (∀ hdrEnd, ¬ HeaderEnd raw hdrEnd) ∧ raw.length < 4096) ∧
      (∀ hdrEnd : ℕ, result = hdrEnd + 4 ↔ HeaderEnd raw hdrEnd ∧
        ∃ method uri headers, IsRequest (headerBlock raw hdrEnd) method uri headers) ∧
      (result ≠ 0 → (∀ hdrEnd : ℕ, result ≠ hdrEnd + 4) → result = -1) ∧
      ∀ (hdrEnd : ℕ) method uri headers, result = hdrEnd + 4 →
        IsRequest (headerBlock raw hdrEnd) method uri headers →
        Shows raw (hdrEnd + 2) req' heap' method uri headers := by
  rcases hfirst : memmem crlfcrlf raw with _ | hdrEnd
  · have hno (hdrEnd : ℕ) : ¬ HeaderEnd raw hdrEnd := by
      intro h
      cases (memmem_headerEnd.mpr h).symm.trans hfirst
    refine ⟨_, req, heap, requestParse_noEnd hfirst, ?_⟩
    rw [maxHeaderBytes]
    split_ifs with hlong
    · refine ⟨by simp [hlong], fun k => ?_, fun _ _ => rfl, fun k _ _ _ hk => by omega⟩
      simp only [hno, false_and, iff_false]
      omega
    · refine ⟨by simp [hno, not_le.mp hlong], fun k => ?_, fun h => absurd rfl h,
        fun k _ _ _ hk => by omega⟩
      simp only [hno, false_and, iff_false]
      omega
  · have hend := memmem_headerEnd.mp hfirst
    have hunique (k : ℕ) (hk : HeaderEnd raw k) : k = hdrEnd :=
      Option.some.inj ((memmem_headerEnd.mpr hk).symm.trans hfirst)
    obtain ⟨result, req', heap', hresult, hcases⟩ := @requestParse_block raw req heap _ hlen hend
    refine ⟨result, req', heap', hresult, ?_⟩
    rcases hcases with ⟨hrefused, rfl⟩ | ⟨method, uri, headers, hrequest, rfl, hshows⟩
    · refine ⟨⟨by omega, fun h => absurd hend (h.1 hdrEnd)⟩, fun k => ⟨by omega, fun h => ?_⟩,
        fun _ _ => rfl, fun k _ _ _ hk => by omega⟩
      obtain ⟨hk, method, uri, headers, hrequest⟩ := h
      cases hunique k hk
      exact absurd hrequest (not_isRequest hend hrefused)
    · refine ⟨⟨by omega, fun h => absurd hend (h.1 hdrEnd)⟩, fun k => ⟨fun hk => ?_, fun h => ?_⟩,
        fun _ h => absurd rfl (h hdrEnd), fun k method' uri' headers' hk h' => ?_⟩
      · have hk : hdrEnd = k := by omega
        subst hk
        exact ⟨hend, method, uri, headers, hrequest⟩
      · rw [hunique k h.1]
      · have hk : hdrEnd = k := by omega
        subst hk
        obtain ⟨rfl, rfl, rfl⟩ :=
          isRequest_unique (crlf_suffix_headerBlock hend) hrequest h'
        exact hshows

end

/-- `GET / HTTP/1.1` with one header, `a: b`. -/
def smallRequest : Bytes :=
  [71, 69, 84, 32, 47, 32, 72, 84, 84, 80, 47, 49, 46, 49, 13, 10, 97, 58, 32, 98, 13, 10, 13, 10]

theorem isRequest_small :
    IsRequest (headerBlock smallRequest 20) .get [47] [⟨[97], [98]⟩] := by
  have hline : Http.parseStatusLine (smallRequest.take 14) = some (.get, [47], .v1p1) := by decide
  refine ⟨smallRequest.take 14, [[97, 58, 32, 98]], by decide, by decide, by decide, ?_, ?_⟩
  · exact parseStatusLine_sound hline
  · exact .cons (parseHeaderLine_eq_some.mp (by decide)) .nil

theorem requestParse_exact_small :
    smallRequest.length < 2 ^ 31 ∧
      ∃ req heap, requestParse smallRequest ⟨none, ⟨0, 0⟩, none, 0, ⟨0, 0⟩⟩ emptyHeap =
          some (24, req, heap) ∧
        Shows smallRequest 22 req heap .get [47] [⟨[97], [98]⟩] := by
  have hlen : smallRequest.length < 2 ^ 31 := by decide
  have hend : HeaderEnd smallRequest 20 := memmem_headerEnd.mp (by decide)
  obtain ⟨result, req, heap, hresult, _, hparsed, _, hshows⟩ :=
    requestParse_exact smallRequest hlen ⟨none, ⟨0, 0⟩, none, 0, ⟨0, 0⟩⟩ emptyHeap
  have h24 : result = (20 : ℕ) + 4 := (hparsed 20).mpr ⟨hend, _, _, _, isRequest_small⟩
  have hread := hshows 20 _ _ _ h24 isRequest_small
  rw [h24] at hresult
  exact ⟨hlen, req, heap, hresult, hread⟩

end Cerverus.Http.Slices
