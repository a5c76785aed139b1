import WebServer.Buffer
import WebServer.HttpRequest
import WebServer.Resumable

/-!
# Incremental request parser

`parseRequest` is the nested loop of the source over the read buffer. `move` is
one turn of it over the readable bytes alone: a line of the head, the body, or
the end. The buffer may compact, grow and rewind underneath; the parser sees
only the bytes between its cursors, which is what `parseRequest_drives` says.
-/

namespace WebServer

open Resumable

inductive ParseState where
  | requestLine | headers | body | finish
  deriving DecidableEq

inductive ParseResult where
  | complete | incomplete | error
  deriving DecidableEq

structure HttpContext where
  request : HttpRequest := {}
  state : ParseState := .requestLine
  complete : Bool := false
  contentLength : Nat := 0
  deriving DecidableEq

/-- 1 MiB -/
def maxBodySize : Nat := 1 * 1024 * 1024

/-- The local `ReadLine`: a line without its CR LF. -/
def readLine (b : Buffer) : Option (Str × Buffer) :=
  match b.findCRLF with
  | none => none
  | some len => some (b.peekReadable.take len, b.consume (len + 2))

abbrev Outcome := ParseResult × HttpContext × Buffer

namespace HttpContext

/-- `Reset` -/
def reset : HttpContext := {}

def parseRequestLine (ctx : HttpContext) (b : Buffer) : Outcome :=
  match readLine b with
  | none => (.incomplete, ctx, b)
  | some (line, b') =>
    let (ok, request) := ctx.request.parseStartLine line
    if ok then (.complete, { ctx with request, state := .headers }, b')
    else (.error, { ctx with request }, b')

/-- The value after the colon loses its leading spaces, unless it is all spaces. -/
def headerValue (value : Str) : Str :=
  let trimmed := value.dropWhile (· = space)
  if trimmed = [] then value else trimmed

def parseHeaderLine (ctx : HttpContext) (line : Str) : Bool × HttpContext :=
  match splitAtByte colon line with
  | none => (false, ctx)
  | some (key, rest) =>
    let value := headerValue rest
    let ctx := { ctx with request := ctx.request.setHeader key value }
    if lower key = lit "content-length" then
      match stoul value with
      | none => (false, ctx)
      | some n => (true, { ctx with contentLength := n })
    else (true, ctx)

/-- The loop of `ParseHeaders`; each turn takes at least the two bytes of a CR LF. -/
def parseHeadersLoop : Nat → HttpContext → Buffer → Outcome
  | 0, ctx, b => (.error, ctx, b)
  | fuel + 1, ctx, b =>
    match readLine b with
    | none => (.incomplete, ctx, b)
    | some (line, b') =>
      if line = [] then
        (.complete, { ctx with state := if 0 < ctx.contentLength then .body else .finish }, b')
      else
        let (ok, ctx') := ctx.parseHeaderLine line
        if ok then parseHeadersLoop fuel ctx' b' else (.error, ctx', b')

def parseHeaders (ctx : HttpContext) (b : Buffer) : Outcome :=
  parseHeadersLoop (b.readableBytes + 1) ctx b

def parseBody (ctx : HttpContext) (b : Buffer) : Outcome :=
  if maxBodySize < ctx.contentLength then (.error, ctx, b)
  else if b.readableBytes < ctx.contentLength then (.incomplete, ctx, b)
  else
    let request := ctx.request.setBody (b.peekReadable.take ctx.contentLength)
    (.complete, { ctx with request, state := .finish }, b.consume ctx.contentLength)

/-- The `while(true)` of `ParseRequest`. Every turn that does not return moves to
a later state, so four turns are enough (`parseRequest_drives`). -/
def parseLoop : Nat → HttpContext → Buffer → Outcome
  | 0, ctx, b => (.error, ctx, b)
  | fuel + 1, ctx, b =>
    match ctx.state with
    | .requestLine =>
      match ctx.parseRequestLine b with
      | (.complete, ctx', b') => parseLoop fuel ctx' b'
      | out => out
    | .headers =>
      match ctx.parseHeaders b with
      | (.complete, ctx', b') => parseLoop fuel ctx' b'
      | out => out
    | .body =>
      match ctx.parseBody b with
      | (.complete, ctx', b') => parseLoop fuel ctx' b'
      | out => out
    | .finish => (.complete, { ctx with complete := true }, b)

def parseRequest (ctx : HttpContext) (b : Buffer) : Outcome := parseLoop 4 ctx b

/-! ## One turn over the readable bytes -/

def startMove (ctx : HttpContext) (input : Str) (n : Nat) : Move HttpContext Bool :=
  let (ok, request) := ctx.request.parseStartLine (input.take n)
  if ok then .advance { ctx with request, state := .headers } (n + 2)
  else .halt false { ctx with request } (n + 2)

def headerMove (ctx : HttpContext) (input : Str) (n : Nat) : Move HttpContext Bool :=
  if input.take n = [] then
    .advance { ctx with state := if 0 < ctx.contentLength then .body else .finish } (n + 2)
  else
    let (ok, ctx') := ctx.parseHeaderLine (input.take n)
    if ok then .advance ctx' (n + 2) else .halt false ctx' (n + 2)

def bodyMove (ctx : HttpContext) (input : Str) : Move HttpContext Bool :=
  if maxBodySize < ctx.contentLength then .halt false ctx 0
  else if input.length < ctx.contentLength then .wait
  else
    let request := ctx.request.setBody (input.take ctx.contentLength)
    .advance { ctx with request, state := .finish } ctx.contentLength

/-- The answer of a halt is `true` for Complete and `false` for Error. -/
def move (ctx : HttpContext) (input : Str) : Move HttpContext Bool :=
  match ctx.state with
  | .requestLine =>
    match findCrlf input with
    | none => .wait
    | some n => startMove ctx input n
  | .headers =>
    match findCrlf input with
    | none => .wait
    | some n => headerMove ctx input n
  | .body => bodyMove ctx input
  | .finish => .halt true { ctx with complete := true } 0

end HttpContext

end WebServer
