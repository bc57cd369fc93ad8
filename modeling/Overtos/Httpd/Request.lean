import Overtos.Lib.CString
import Overtos.Types

/-! Requests of the HTTP server: the parser of a request's head, and the route table. -/
namespace Overtos.Httpd
open CStr

structure Req where
  method : Bytes := []
  path : Bytes := []
  query : Option Bytes := none
  segments : List Bytes := []
  body : Option Bytes := none
  deriving DecidableEq, Repr

def maxSegments : ℕ := 8

def splitSegments : ℕ → Bytes → List Bytes
  | 0, _ => []
  | room + 1, p =>
    if p = [] then [] else
    match cut 0x2f p with
    | none => [p]
    | some (segment, rest) => segment :: splitSegments room rest

def parsePathSegments (path : Bytes) : List Bytes :=
  splitSegments maxSegments (if path.head? = some 0x2f then path.tail else path)

def findContentLength (arch : Arch) (maxBody : ℕ) (head : Bytes) : ℤ :=
  match (strstr head (ascii "Content-Length:")).or (strstr head (ascii "content-length:")) with
  | none => 0
  | some i =>
    match strtoul arch.bits ((head.drop (i + 15)).dropWhile (· = 0x20)) with
    | none => -1
    | some (v, erange) => if erange ∨ maxBody < v then -1 else (BitVec.ofNat 32 v).toInt

def parseRequest (arch : Arch) (maxBody : ℕ) (buf : Bytes) : ℤ × Req :=
  match cut 0x20 buf with
  | none => (0, {})
  | some (method, rest) =>
    let method := ofArray (method.take 7)
    match cut 0x20 rest with
    | none => (0, { method })
    | some (path, _) =>
      let path := ofArray (path.take 255)
      let (path, query) := match cut 0x3f path with
        | none => (path, none)
        | some (path, query) => (path, some query)
      (findContentLength arch maxBody (ofArray buf),
        { method, path, query, segments := parsePathSegments path })

structure Route (Handler : Type*) where
  method : Bytes
  path : Bytes
  handler : Handler

variable {Handler : Type*}

def maxRoutes : ℕ := 16

def oveHttpdRoute (routes : List (Route Handler)) (method path : CString) (handler : Handler) :
    Rc × List (Route Handler) :=
  if maxRoutes ≤ routes.length then (.errNoMemory, routes)
  else (.ok, routes ++ [⟨ofArray (strncpy 7 method ++ [0]), ofArray (strncpy 63 path ++ [0]),
    handler⟩])

def Route.covers (r : Route Handler) (req : Req) : Bool :=
  r.method = req.method ∧ r.path.isPrefixOf req.path ∧
    (req.path.length = r.path.length ∨ req.path[r.path.length]? = some 0x2f ∨
      req.path[r.path.length]? = some 0x3f ∨ r.path.getLast? = some 0x2f)

def better (req : Req) (best : Option (Route Handler) × ℕ) (r : Route Handler) :
    Option (Route Handler) × ℕ :=
  if r.covers req ∧ best.2 < r.path.length then (some r, r.path.length) else best

def matchRoute (routes : List (Route Handler)) (req : Req) : Option (Route Handler) :=
  (routes.foldl (better req) (none, 0)).1

end Overtos.Httpd
