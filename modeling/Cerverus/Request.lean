import Cerverus.NetworkTypes

/-!
# Parsing a request

`none` stands for `http_method_unknown`, `http_version_unknown`, and `false` of the two
helpers.
-/
namespace Cerverus.Http

def crlf : Bytes := [13, 10]

def crlfcrlf : Bytes := [13, 10, 13, 10]

def maxHeaderBytes : ℕ := 4096

/-- `GET`, `HEAD`, `OPTIONS`, `TRACE`, `PUT`, `DELETE`, `POST`, `PATCH`, `CONNECT`. -/
def methodTable : List (Bytes × HttpMethod) :=
  [([71, 69, 84], .get), ([72, 69, 65, 68], .head), ([79, 80, 84, 73, 79, 78, 83], .options),
    ([84, 82, 65, 67, 69], .trace), ([80, 85, 84], .put), ([68, 69, 76, 69, 84, 69], .delete),
    ([80, 79, 83, 84], .post), ([80, 65, 84, 67, 72], .patch),
    ([67, 79, 78, 78, 69, 67, 84], .connect)]

def parseHttpMethod (m : Bytes) : Option HttpMethod :=
  (methodTable.find? fun e => e.1 == m).map Prod.snd

/-- `HTTP/1.1`. -/
def httpVersion1p1Literal : Bytes := [72, 84, 84, 80, 47, 49, 46, 49]

def parseHttpVersion (v : Bytes) : Option HttpVersion :=
  if v = httpVersion1p1Literal then some .v1p1 else none

def parseStatusLine (line : Bytes) : Option (HttpMethod × Bytes × HttpVersion) := do
  let sp1 ← memchr line 32
  let rest := line.drop (sp1 + 1)
  let sp2 ← memchr rest 32
  let method := line.take sp1
  let uri := rest.take sp2
  let version := rest.drop (sp2 + 1)
  if method = [] ∨ uri = [] then none
  else if (memchr version 32).isSome then none
  else do
    let method ← parseHttpMethod method
    let version ← parseHttpVersion version
    some (method, uri, version)

def isBlank (c : UInt8) : Bool := c == 32 || c == 9

/-- The two trimming loops around a header's value. -/
def trim (v : Bytes) : Bytes := ((v.dropWhile isBlank).reverse.dropWhile isBlank).reverse

def parseHeaderLine (line : Bytes) : Option Header :=
  match memchr line 58 with
  | none => none
  | some 0 => none
  | some colon => some ⟨line.take colon, trim (line.drop (colon + 1))⟩

/-- The loop of `parse_headers` over what is left of the header block. -/
def parseHeaders (p : Bytes) : Option (List Header) :=
  if _ : p = [] then some []
  else
    let eol := (memmem crlf p).getD p.length
    match parseHeaderLine (p.take eol) with
    | none => none
    | some hdr => (parseHeaders (p.drop (eol + 2))).map (hdr :: ·)
  termination_by p.length
  decreasing_by
    have := List.length_pos_iff.mpr ‹p ≠ []›
    simp only [List.length_drop]
    omega

/-- The header block `raw[0, hdrEnd + 2)`, its last line end included. -/
def parseHeaderBlock (block : Bytes) : Option Request := do
  let lineEnd ← memmem crlf block
  let (method, uri, version) ← parseStatusLine (block.take lineEnd)
  let headers ← parseHeaders (block.drop (lineEnd + 2))
  some ⟨method, uri, version, headers⟩

/-- The results `-1`, `0` and the number of bytes consumed, which comes with the request. -/
inductive ParseResult
  | invalid
  | unfinished
  | parsed (consumed : ℕ) (request : Request)
  deriving DecidableEq, Repr

def requestParse (raw : Bytes) : ParseResult :=
  match memmem crlfcrlf raw with
  | none => if maxHeaderBytes ≤ raw.length then .invalid else .unfinished
  | some hdrEnd =>
    match parseHeaderBlock (raw.take (hdrEnd + 2)) with
    | none => .invalid
    | some request => .parsed (hdrEnd + 4) request

end Cerverus.Http
