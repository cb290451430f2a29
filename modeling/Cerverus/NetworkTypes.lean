import Cerverus.Bytes

/-!
# Network types

A type parameter `κ` stands for the callbacks, `pt_fn` in the code; a null callback is
`none`.
-/
namespace Cerverus

/-- The methods below `http_method_unknown`. -/
inductive HttpMethod
  | get
  | head
  | options
  | trace
  | put
  | delete
  | post
  | patch
  | connect
  deriving DecidableEq, Repr

inductive HttpVersion
  | v1p1
  deriving DecidableEq, Repr

structure Header where
  name : Bytes
  value : Bytes
  deriving DecidableEq, Repr

/-- The fields `request_parse` sets; the body is always empty. -/
structure Request where
  method : HttpMethod
  uri : Bytes
  version : HttpVersion
  headers : List Header
  deriving DecidableEq, Repr

structure Response where
  version : HttpVersion
  statusCode : ℤ
  reasonPhrase : Bytes
  headers : List Header
  body : Option Bytes
  deriving DecidableEq, Repr

structure RouteSegment where
  pathSegment : Bytes
  isDynamic : Bool
  deriving DecidableEq, Repr

structure Route (κ : Type) where
  segments : List RouteSegment
  method : HttpMethod
  callback : Option κ

structure TrieNode (κ : Type) where
  children : List (TrieNode κ)
  segment : RouteSegment
  callback : Option κ

end Cerverus
