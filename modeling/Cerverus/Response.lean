import Cerverus.Request

/-!
# Responses

`sdscatprintf` writes a `%s` up to its first NUL byte.
-/
namespace Cerverus.Http

def cString (s : Bytes) : Bytes := s.takeWhile (· ≠ 0)

/-- `%i` and `sdsfromlonglong`. -/
def decimal (n : ℤ) : Bytes :=
  let digits := (Nat.toDigits 10 n.natAbs).map fun c => c.toNat.toUInt8
  if n < 0 then 45 :: digits else digits

def serializeHttpVersion : HttpVersion → Bytes
  | .v1p1 => httpVersion1p1Literal

def responseCreate : Response :=
  { version := .v1p1, statusCode := 0, reasonPhrase := [], headers := [], body := none }

def responseAddHeader (res : Response) (h : Header) : Response :=
  { res with headers := res.headers ++ [h] }

theorem foldl_responseAddHeader (hdrs : List Header) (res : Response) :
    hdrs.foldl responseAddHeader res = { res with headers := res.headers ++ hdrs } := by
  induction hdrs generalizing res with
  | nil => rw [List.foldl_nil, List.append_nil]
  | cons h hdrs ih =>
    rw [List.foldl_cons, ih]
    simp only [responseAddHeader, List.append_assoc, List.singleton_append]

def serializeHeader (h : Header) : Bytes := cString h.name ++ [58, 32] ++ cString h.value ++ crlf

def responseSerialize (res : Response) : Bytes :=
  cString (serializeHttpVersion res.version) ++ [32] ++ decimal res.statusCode ++ [32] ++
    cString res.reasonPhrase ++ crlf ++ (res.headers.map serializeHeader).flatten ++ crlf ++
    res.body.getD []

/-- The extensions `html`, `css`, `js`, `json`, `jpg`, `jpeg`, `png`, `gif`, `webp`, `svg`,
`ico`. -/
def contentTypes : List (Bytes × Bytes) :=
  [([104, 116, 109, 108], [116, 101, 120, 116, 47, 104, 116, 109, 108]),
    ([99, 115, 115], [116, 101, 120, 116, 47, 99, 115, 115]),
    ([106, 115], [116, 101, 120, 116, 47, 106, 97, 118, 97, 115, 99, 114, 105, 112, 116]),
    ([106, 115, 111, 110],
      [97, 112, 112, 108, 105, 99, 97, 116, 105, 111, 110, 47, 106, 115, 111, 110]),
    ([106, 112, 103], [105, 109, 97, 103, 101, 47, 106, 112, 101, 103]),
    ([106, 112, 101, 103], [105, 109, 97, 103, 101, 47, 106, 112, 101, 103]),
    ([112, 110, 103], [105, 109, 97, 103, 101, 47, 112, 110, 103]),
    ([103, 105, 102], [105, 109, 97, 103, 101, 47, 103, 105, 102]),
    ([119, 101, 98, 112], [105, 109, 97, 103, 101, 47, 119, 101, 98, 112]),
    ([115, 118, 103], [105, 109, 97, 103, 101, 47, 115, 118, 103, 43, 120, 109, 108]),
    ([105, 99, 111], [105, 109, 97, 103, 101, 47, 120, 45, 105, 99, 111, 110])]

/-- `application/octet-stream`. -/
def octetStream : Bytes :=
  [97, 112, 112, 108, 105, 99, 97, 116, 105, 111, 110, 47, 111, 99, 116, 101, 116, 45, 115, 116,
    114, 101, 97, 109]

def contentTypeValHelper (ext : Bytes) : Bytes :=
  ((contentTypes.find? fun e => e.1 == ext).map Prod.snd).getD octetStream

/-- What follows the last dot of the name; `none` where `memrchr` finds none and the code goes
on from a null pointer. -/
def extension (name : Bytes) : Option Bytes :=
  if 46 ∈ name then some (name.reverse.takeWhile (· ≠ 46)).reverse else none

/-- `OK`. -/
def okPhrase : Bytes := [79, 75]

/-- `Content-Type`. -/
def contentTypeName : Bytes := [67, 111, 110, 116, 101, 110, 116, 45, 84, 121, 112, 101]

/-- `Content-Length`. -/
def contentLengthName : Bytes :=
  [67, 111, 110, 116, 101, 110, 116, 45, 76, 101, 110, 103, 116, 104]

/-- The response a file callback sends ahead of the file; `stx_size` is printed as a signed
number. -/
def fileResponse (name : Bytes) (stxSize : UInt64) : Option Response := do
  let type ← extension name
  let res := { responseCreate with statusCode := 200, reasonPhrase := okPhrase }
  let res := responseAddHeader res ⟨contentTypeName, contentTypeValHelper type⟩
  some (responseAddHeader res ⟨contentLengthName, decimal stxSize.toInt64.toInt⟩)

end Cerverus.Http
