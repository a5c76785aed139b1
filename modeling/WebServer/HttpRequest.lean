import WebServer.Bytes
import WebServer.KeyedList

/-!
# Requests

The request object filled by the parser. Its header map is keyed by the field
name exactly as it was received.
-/

namespace WebServer

inductive HttpMethod where
  | get | post | put | delete | head | unknown
  deriving DecidableEq

structure HttpRequest where
  method : Str := []
  path : Str := []
  version : Str := []
  body : Str := []
  methodType : HttpMethod := .unknown
  headers : List (Str × Str) := []
  deriving DecidableEq

namespace HttpRequest

/-- `Reset`: no field keeps a value of the previous request. -/
def reset : HttpRequest := {}

def getHeader (r : HttpRequest) (key : Str) : Str := (r.headers.lookup key).getD []

def isKeepAlive (r : HttpRequest) : Bool :=
  if r.version = lit "HTTP/1.1" then
    match r.headers.lookup (lit "Connection") with
    | none => true
    | some value => value ≠ lit "close"
  else if r.version = lit "HTTP/1.0" then
    match r.headers.lookup (lit "Connection") with
    | none => false
    | some value => value = lit "keep-alive"
  else false

def setBody (r : HttpRequest) (body : Str) : HttpRequest := { r with body := body }

def setHeader (r : HttpRequest) (key value : Str) : HttpRequest :=
  { r with headers := KeyedList.put r.headers key value }

/-- `stream >> old`: skip blanks and read up to the next one. A stream with
nothing left fails and leaves the old value in place. -/
def extract (stream old : Str) : Str × Str :=
  let rest := stream.dropWhile isSpace
  if rest = [] then (old, []) else (rest.takeWhile (!isSpace ·), rest.dropWhile (!isSpace ·))

/-- HEAD is not among the methods the source tells apart. -/
def methodOf (method : Str) : HttpMethod :=
  if method = lit "GET" then .get
  else if method = lit "POST" then .post
  else if method = lit "PUT" then .put
  else if method = lit "DELETE" then .delete
  else .unknown

/-- The private `ParseRequestLine`. -/
def parseRequestLine (r : HttpRequest) (line : Str) : Bool × HttpRequest :=
  let (method, rest) := extract line r.method
  let (path, rest) := extract rest r.path
  let (version, _) := extract rest r.version
  let r' := { r with method, path, version, methodType := methodOf method }
  (!(method.isEmpty || path.isEmpty || version.isEmpty), r')

def parseStartLine (r : HttpRequest) (line : Str) : Bool × HttpRequest := r.parseRequestLine line

/-- `ContentLength`; `none` stands for the exceptions of `std::stoul`. -/
def contentLength (r : HttpRequest) : Option Nat :=
  match r.headers.lookup (lit "Content-Length") with
  | none => some 0
  | some value => stoul value

end HttpRequest

end WebServer
