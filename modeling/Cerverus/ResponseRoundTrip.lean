import Cerverus.GrowableArray
import Cerverus.RawRequest
import Cerverus.Response

/-!
# Reading a response back

A serialized response is a sequence of lines without `CR`, an empty line and the body. So the
first `CRLFCRLF` is the one before the body, and `parse_headers` finds the headers again.
-/
namespace Cerverus.Http
open GrowableArray GuardedRun

/-- Free of `CR`, `LF` and NUL. -/
structure Plain (s : Bytes) : Prop where
  cr : 13 ∉ s
  lf : 10 ∉ s
  nul : 0 ∉ s

/-- A header that can be read back: its name is not empty and has no colon, and its value does
not start or end with a space or a tab. -/
structure Readable (h : Header) : Prop where
  name_ne : h.name ≠ []
  name : Plain h.name
  colon : 58 ∉ h.name
  value : Plain h.value
  first : ∀ c ∈ h.value.head?, isBlank c = false
  last : ∀ c ∈ h.value.getLast?, isBlank c = false

/-- The status line, without its line end. -/
def responseLine (res : Response) : Bytes :=
  httpVersion1p1Literal ++ [32] ++ decimal res.statusCode ++ [32] ++ res.reasonPhrase

def headerLine (h : Header) : Bytes := h.name ++ [58, 32] ++ h.value

section
variable {s t line : Bytes} {lines : List Bytes} {h : Header} {res : Response}

theorem cString_eq (hnul : 0 ∉ s) : cString s = s := by
  rw [cString, List.takeWhile_eq_self_iff]
  intro c hc
  rw [decide_eq_true_eq]
  intro heq
  exact hnul (heq ▸ hc)

theorem notMem_decimal (n : ℤ) : 13 ∉ decimal n := by
  have hdigits : (13 : UInt8) ∉ (Nat.toDigits 10 n.natAbs).map fun c => c.toNat.toUInt8 := by
    intro hmem
    obtain ⟨c, hc, hcr⟩ := List.mem_map.mp hmem
    have hdigit := Nat.isDigit_of_mem_toDigits (by decide) (by decide) hc
    rw [Char.isDigit_iff_toNat] at hdigit
    have htoNat := congrArg UInt8.toNat hcr
    rw [Nat.toUInt8, UInt8.toNat_ofNat'] at htoNat
    simp only [show '0'.toNat = 48 from rfl, show '9'.toNat = 57 from rfl] at hdigit
    have hthirteen : (13 : UInt8).toNat = 13 := rfl
    omega
  rw [decimal]
  split_ifs
  · rw [List.mem_cons, not_or]
    exact ⟨by decide, hdigits⟩
  · exact hdigits

theorem notMem_responseLine (hreason : Plain res.reasonPhrase) : 13 ∉ responseLine res := by
  have hliteral : (13 : UInt8) ∉ httpVersion1p1Literal := by decide
  simp only [responseLine, List.mem_append, List.mem_singleton, not_or]
  exact ⟨⟨⟨⟨hliteral, by decide⟩, notMem_decimal _⟩, by decide⟩, hreason.cr⟩

theorem notMem_headerLine (hh : Readable h) : 13 ∉ headerLine h := by
  simp only [headerLine, List.mem_append, not_or]
  exact ⟨⟨hh.name.cr, by decide⟩, hh.value.cr⟩

theorem responseSerialize_eq (hreason : Plain res.reasonPhrase)
    (hheaders : ∀ h ∈ res.headers, Readable h) :
    responseSerialize res = terminated (responseLine res :: res.headers.map headerLine) ++
      (crlf ++ res.body.getD []) := by
  have hlines : res.headers.map serializeHeader =
      (res.headers.map headerLine).map (· ++ crlf) := by
    rw [List.map_map]
    refine List.map_congr_left fun h hmem => ?_
    have hh := hheaders h hmem
    rw [serializeHeader, cString_eq hh.name.nul, cString_eq hh.value.nul]
    rfl
  have hversion : cString (serializeHttpVersion res.version) = httpVersion1p1Literal := by
    cases res.version
    decide
  rw [responseSerialize, cString_eq hreason.nul, hlines, hversion]
  simp [terminated, responseLine]

/-! ## The first empty line -/

theorem memmem_skip (hs : 13 ∉ s) (needle : Bytes) :
    memmem (13 :: needle) (s ++ t) = (memmem (13 :: needle) t).map (s.length + ·) := by
  induction s with
  | nil => simp
  | cons c s ih =>
    rw [List.mem_cons, not_or] at hs
    have hno : (13 :: needle).isPrefixOf (c :: (s ++ t)) = false := by
      simp [List.isPrefixOf, hs.1]
    rw [List.cons_append, memmem, hno, if_neg Bool.false_ne_true, ih hs.2, Option.map_map]
    refine congrArg (fun f => Option.map f _) (funext fun i => ?_)
    rw [List.length_cons, Function.comp_apply]
    omega

theorem memmem_crlf_line (hline : 13 ∉ line) (hne : line ≠ []) :
    memmem crlfcrlf (crlf ++ (line ++ t)) = (memmem crlfcrlf (line ++ t)).map (2 + ·) := by
  cases line with
  | nil => exact absurd rfl hne
  | cons c line =>
    rw [List.mem_cons, not_or] at hline
    have hno : crlfcrlf.isPrefixOf (13 :: 10 :: (c :: line ++ t)) = false := by
      simp [crlfcrlf, List.isPrefixOf, hline.1]
    have hno' : crlfcrlf.isPrefixOf (10 :: (c :: line ++ t)) = false := by
      simp [crlfcrlf, List.isPrefixOf]
    change memmem crlfcrlf (13 :: 10 :: (c :: line ++ t)) = _
    rw [memmem, hno, if_neg Bool.false_ne_true, memmem, hno', if_neg Bool.false_ne_true,
      Option.map_map]
    refine congrArg (fun f => Option.map f _) (funext fun i => ?_)
    rw [Function.comp_apply]
    omega

/-- The first `CRLFCRLF` is the end of the last line. -/
theorem memmem_terminated (hline : 13 ∉ line) (hlines : ∀ l ∈ lines, 13 ∉ l ∧ l ≠ [])
    (rest : Bytes) :
    memmem crlfcrlf (terminated (line :: lines) ++ (crlf ++ rest)) =
      some ((terminated (line :: lines)).length - 2) := by
  induction lines generalizing line with
  | nil =>
    have hfound : memmem crlfcrlf (crlf ++ (crlf ++ rest)) = some 0 := rfl
    rw [terminated_cons, List.append_assoc, crlfcrlf, memmem_skip hline]
    change (memmem crlfcrlf (crlf ++ (crlf ++ rest))).map _ = _
    rw [hfound]
    simp [terminated, crlf]
  | cons next lines ih =>
    obtain ⟨⟨hnext, hne⟩, hlines⟩ := List.forall_mem_cons.mp hlines
    have htail : terminated (next :: lines) ++ (crlf ++ rest) =
        next ++ (crlf ++ terminated lines ++ (crlf ++ rest)) := by
      rw [terminated_cons, List.append_assoc]
    have hlen : 2 ≤ (terminated (next :: lines)).length := by
      simp only [terminated_cons, crlf, List.length_append, List.length_cons, List.length_nil]
      omega
    rw [terminated_cons, List.append_assoc, crlfcrlf, memmem_skip hline]
    change (memmem crlfcrlf (crlf ++ terminated (next :: lines) ++ (crlf ++ rest))).map _ = _
    rw [List.append_assoc, htail, memmem_crlf_line hnext hne, ← htail, ih hnext hlines,
      Option.map_some, Option.map_some, List.length_append, List.length_append]
    refine congrArg some ?_
    simp only [crlf, List.length_cons, List.length_nil]
    omega

/-! ## The headers -/

theorem isLine_of_notMem (hcr : 13 ∉ line) : IsLine line := by
  intro hin
  exact hcr (hin.subset (by decide))

theorem headerLine_reads (hh : Readable h) : HeaderLine (headerLine h) h := by
  refine ⟨hh.name_ne, hh.colon, 32 :: h.value, by simp [headerLine], ⟨[32], [], ?_⟩, hh.first,
    hh.last⟩
  refine ⟨by simp, fun c hc => ?_, fun c hc => absurd hc List.not_mem_nil⟩
  rw [List.mem_singleton.mp hc]
  rfl

theorem forall_headerLine {hdrs : List Header} (hheaders : ∀ h ∈ hdrs, Readable h) :
    List.Forall₂ HeaderLine (hdrs.map headerLine) hdrs := by
  rw [List.forall₂_map_left_iff]
  exact List.forall₂_same.mpr fun h hmem => headerLine_reads (hheaders h hmem)

theorem block_eq {rest : Bytes} :
    ((terminated (line :: lines) ++ rest).drop (line.length + 2)).take
      ((terminated (line :: lines)).length - (line.length + 2)) = terminated lines := by
  have hdrop : (terminated (line :: lines) ++ rest).drop (line.length + 2) =
      terminated lines ++ rest := by
    simp [terminated_cons, crlf]
  have hlen : (terminated (line :: lines)).length - (line.length + 2) =
      (terminated lines).length := by
    simp only [terminated_cons, crlf, List.length_append, List.length_cons, List.length_nil]
    omega
  rw [hdrop, hlen, List.take_left]

theorem parseHeaders_readsBack {raw : Bytes} {hdrs : List Header} {block : Slices.Sv}
    (hheaders : ∀ h ∈ hdrs, Readable h) (hinside : block.Inside raw.length)
    (hblock : block.bytes raw = terminated (hdrs.map headerLine)) (req : Slices.RawRequest)
    (heap : ArrayHeap Slices.RawHeader) :
    ∃ req' heap' header, Slices.parseHeaders raw req block heap = some (true, req', heap') ∧
      heap'.arrays req'.headers = some header ∧
      header.data.map (Slices.RawHeader.read raw) = hdrs := by
  have hlines : ∀ l ∈ hdrs.map headerLine, IsLine l := by
    intro l hl
    obtain ⟨h, hmem, rfl⟩ := List.mem_map.mp hl
    exact isLine_of_notMem (notMem_headerLine (hheaders h hmem))
  have hparse : parseHeaders (block.bytes raw) = some hdrs := by
    rw [hblock]
    exact (parseHeaders_terminated hlines).mpr (forall_headerLine hheaders)
  have hlive := live_create heap (show 0 < 16 by decide)
  obtain ⟨ok, darr, heap', hloop, hok, hadded⟩ :=
    @Slices.parseHeadersLoop_spec raw block.ptr (block.ptr + block.len) _ _ _ _ hinside hlive
  rw [Nat.add_sub_cancel_left] at hok hadded
  obtain ⟨size, added, hlive', hread, _⟩ := hadded hdrs hparse
  have htrue : ok = true := by rw [hok, hparse]; rfl
  refine ⟨{ req with headers := darr }, heap', ⟨size, added⟩, ?_, hlive'.array, hread⟩
  simp only [Slices.parseHeaders, hloop, Option.map_some, htrue]

end

/-- `response_create` and a `response_add_header` for each header leave them in the array; in
what `response_serialize` makes of the response, the first `CRLFCRLF` is followed by the body,
and `parse_headers` on the bytes from the end of the first line to it returns the headers. -/
theorem response_readsBack (res : Response) (hreason : Plain res.reasonPhrase)
    (hheaders : ∀ h ∈ res.headers, Readable h) (heap : ArrayHeap Header)
    (req : Slices.RawRequest) (heap' : ArrayHeap Slices.RawHeader) :
    (∃ t header, run addStep (created heap 16) res.headers = some t ∧
      t.1.arrays t.2 = some header ∧ header.data = res.headers ∧
      header.data = (res.headers.foldl responseAddHeader responseCreate).headers) ∧
    ∃ lineEnd hdrEnd, memmem crlf (responseSerialize res) = some lineEnd ∧
      memmem crlfcrlf (responseSerialize res) = some hdrEnd ∧
      (responseSerialize res).drop (hdrEnd + 4) = res.body.getD [] ∧
      ∃ req' heap'' header, Slices.parseHeaders (responseSerialize res) req
          ⟨lineEnd + 2, hdrEnd + 2 - (lineEnd + 2)⟩ heap' = some (true, req', heap'') ∧
        heap''.arrays req'.headers = some header ∧
        header.data.map (Slices.RawHeader.read (responseSerialize res)) = res.headers := by
  have hline := notMem_responseLine hreason
  have hlines : ∀ l ∈ res.headers.map headerLine, 13 ∉ l ∧ l ≠ [] := by
    intro l hl
    obtain ⟨h, hmem, rfl⟩ := List.mem_map.mp hl
    refine ⟨notMem_headerLine (hheaders h hmem), ?_⟩
    simp [headerLine]
  rw [responseSerialize_eq hreason hheaders]
  set lines := res.headers.map headerLine
  set body := res.body.getD []
  have hlen : (responseLine res).length + 2 ≤ (terminated (responseLine res :: lines)).length := by
    simp only [terminated_cons, crlf, List.length_append, List.length_cons, List.length_nil]
    omega
  have hhdr : (terminated (responseLine res :: lines)).length - 2 + 2 =
      (terminated (responseLine res :: lines)).length := by omega
  refine ⟨?_, (responseLine res).length, (terminated (responseLine res :: lines)).length - 2, ?_,
    memmem_terminated hline hlines body, ?_, ?_⟩
  · obtain ⟨t, size, hrun, hlive, _⟩ := @run_live _ 16 heap (by decide) res.headers
    refine ⟨t, _, hrun, hlive.array, rfl, ?_⟩
    rw [foldl_responseAddHeader]
    rfl
  · rw [terminated_cons, List.append_assoc, List.append_assoc]
    exact memmem_line (isLine_of_notMem hline) _
  · have hdrop : (terminated (responseLine res :: lines)).length - 2 + 4 =
        (terminated (responseLine res :: lines) ++ crlf).length := by
      simp only [crlf, List.length_append, List.length_cons, List.length_nil]
      omega
    rw [hdrop, ← List.append_assoc, List.drop_left]
  · rw [hhdr]
    let block : Slices.Sv := ⟨(responseLine res).length + 2,
      (terminated (responseLine res :: lines)).length - ((responseLine res).length + 2)⟩
    have hinside :
        block.Inside (terminated (responseLine res :: lines) ++ (crlf ++ body)).length := by
      change (responseLine res).length + 2 + ((terminated (responseLine res :: lines)).length -
        ((responseLine res).length + 2)) ≤ _
      rw [List.length_append]
      omega
    have hblock : block.bytes (terminated (responseLine res :: lines) ++ (crlf ++ body)) =
        terminated lines := block_eq
    exact parseHeaders_readsBack hheaders hinside hblock req heap'

/-- Two headers, one of them with an empty value, and a body that looks like an empty line. -/
def twoHeaders : Response :=
  { version := .v1p1
    statusCode := 200
    reasonPhrase := okPhrase
    headers := [⟨[65], [98]⟩, ⟨[67], []⟩]
    body := some crlfcrlf }

theorem twoHeaders_readable : Plain twoHeaders.reasonPhrase ∧
    ∀ h ∈ twoHeaders.headers, Readable h := by
  have hfirst : Readable ⟨[65], [98]⟩ := by
    refine ⟨by decide, ⟨by decide, by decide, by decide⟩, by decide, ⟨by decide, by decide,
      by decide⟩, fun c hc => ?_, fun c hc => ?_⟩
    · cases hc
      rfl
    · cases hc
      rfl
  have hsecond : Readable ⟨[67], []⟩ := by
    refine ⟨by decide, ⟨by decide, by decide, by decide⟩, by decide, ⟨by decide, by decide,
      by decide⟩, fun c hc => ?_, fun c hc => ?_⟩
    · cases hc
    · cases hc
  refine ⟨⟨by decide, by decide, by decide⟩, fun h hmem => ?_⟩
  rcases List.mem_cons.mp hmem with rfl | hmem
  · exact hfirst
  · exact List.mem_singleton.mp hmem ▸ hsecond

/-- They are read back from a response of 34 bytes. -/
theorem twoHeaders_readsBack : (responseSerialize twoHeaders).length = 34 ∧
    ∃ lineEnd hdrEnd, memmem crlf (responseSerialize twoHeaders) = some lineEnd ∧
      memmem crlfcrlf (responseSerialize twoHeaders) = some hdrEnd ∧
      (responseSerialize twoHeaders).drop (hdrEnd + 4) = crlfcrlf ∧
      ∃ req heap header, Slices.parseHeaders (responseSerialize twoHeaders)
          ⟨none, ⟨0, 0⟩, none, 0, ⟨0, 0⟩⟩ ⟨lineEnd + 2, hdrEnd + 2 - (lineEnd + 2)⟩ emptyHeap =
            some (true, req, heap) ∧
        heap.arrays req.headers = some header ∧
        header.data.map (Slices.RawHeader.read (responseSerialize twoHeaders)) =
          [⟨[65], [98]⟩, ⟨[67], []⟩] := by
  obtain ⟨hreason, hheaders⟩ := twoHeaders_readable
  exact ⟨by decide, (response_readsBack twoHeaders hreason hheaders emptyHeap
    ⟨none, ⟨0, 0⟩, none, 0, ⟨0, 0⟩⟩ emptyHeap).2⟩

end Cerverus.Http
