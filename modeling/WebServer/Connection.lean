import WebServer.HttpContext
import WebServer.Reply

/-!
# Connections

The connection object and its handlers, one definition for each method. A handler
returns the connection it leaves and the effects it had, in order: bytes received
and sent, what the parser answered, the response appended, file transfers, and
the functors it put in the queue of its loop.

The results of the system calls are inputs. A loop over `recv`, `send` or
`sendfile` is given the counts of the calls that succeed and the error that ends
it; `sendfile` answering zero for ever, where the source does not return, is left to
the sendfile calls. Effects only record: no handler reads them.
-/

namespace WebServer

inductive ConnState where
  | connected | reading | processing | writing | closed
  deriving DecidableEq

inductive WriteResult where
  | complete | again | error
  deriving DecidableEq

inductive ReadResult where
  | success | closed | error
  deriving DecidableEq

inductive ProcessResult where
  | complete | incomplete | error
  deriving DecidableEq

inductive WriteState where
  | idle | pending | writing
  deriving DecidableEq

/-- `again` is EAGAIN or EWOULDBLOCK. -/
inductive Errno where
  | again | other
  deriving DecidableEq

/-- The bytes of one `recv` into an array of 4096; none when the peer has closed. -/
structure Packet where
  data : Str
  fits : data.length ≤ 4096

/-- The packets that `Read` is handed, and the error after them. -/
structure Arrival where
  packets : List Packet
  errno : Errno

/-- The counts of successive calls of `send` or `sendfile`, and the error after
them. A call accepts at most what it was offered. -/
structure Transfers where
  counts : List Nat
  errno : Errno

/-- The functors that a connection queues; each of them holds the connection. -/
inductive Callback where
  | trySend | processInWorker | handleClose | removeConnection
  deriving DecidableEq

/-- Where an open `sendFileFd_` is let go. -/
inductive Discard where
  | drained | failed | reset | overwritten | closed
  deriving DecidableEq

inductive Effect where
  | received (data : Str)
  | parsed (result : ParseResult)
  | opened (path : Str)
  | responded (bytes : Str) (file : Option Nat)
  | sent (bytes : Str)
  | transferred (offset count : Nat)
  | discarded (why : Discard) (left : Nat)
  | finished (unsent : Nat)
  | queued (cb : Callback)
  | removal (fd : Int)
  deriving DecidableEq

structure Channel where
  fd : Int
  epollIn : Bool := false
  epollOut : Bool := false

structure Connection where
  fd : Int
  state : ConnState := .connected
  resourceDir : Str
  router : Option Router
  channel : Channel
  readBuffer : Buffer := .new 1024
  writeBuffer : Buffer := .new 1024
  response : HttpResponse := {}
  context : HttpContext := {}
  writeState : WriteState := .idle
  sendFileFd : Int := -1
  sendFileLen : Nat := 0

namespace Connection

def new (fd : Int) (resourceDir : Str) (router : Option Router) : Connection :=
  { fd, resourceDir, router, channel := { fd } }

/-- A new connection with bytes in its read buffer. -/
def receiving (resourceDir : Str) (router : Option Router) (bytes : Str) : Connection :=
  { new 5 resourceDir router with readBuffer := (Buffer.new 1024).append bytes }

/-- `Reuse` keeps only the storage of the two buffers. -/
def reuse (c : Connection) (fd : Int) (resourceDir : Str) (router : Option Router) : Connection :=
  { fd, resourceDir, router
    state := .connected
    channel := { fd }
    readBuffer := c.readBuffer.clear
    writeBuffer := c.writeBuffer.clear
    response := .reset
    context := .reset
    writeState := .idle
    sendFileFd := -1
    sendFileLen := 0 }

/-! ## Reading and writing -/

/-- 2 MiB -/
def maxReadBufferSize : Nat := 2 * 1024 * 1024

def readLoop (errno : Errno) : List Packet → Buffer → ReadResult × Buffer × List Effect
  | [], b =>
    if maxReadBufferSize ≤ b.readableBytes then (.error, b, [])
    else (if errno = .again then .success else .error, b, [])
  | p :: rest, b =>
    if maxReadBufferSize ≤ b.readableBytes then (.error, b, [])
    else if p.data = [] then (.closed, b, [])
    else
      let (result, b', fx) := readLoop errno rest (b.append p.data)
      (result, b', .received p.data :: fx)

def read (c : Connection) (arrival : Arrival) : ReadResult × Connection × List Effect :=
  let (result, readBuffer, fx) := readLoop arrival.errno arrival.packets c.readBuffer
  (result, { c with readBuffer }, fx)

/-- The loop of `Write`; a count of zero ends it as if all had been sent. -/
def writeLoop (errno : Errno) : List Nat → Buffer → WriteResult × Buffer × List Effect
  | [], b =>
    if b.readableBytes = 0 then (.complete, b, [])
    else (if errno = .again then .again else .error, b, [])
  | n :: rest, b =>
    if b.readableBytes = 0 then (.complete, b, [])
    else if n = 0 then (.complete, b, [])
    else
      let (bytes, b') := b.retrieve (min n b.readableBytes)
      let (result, b'', fx) := writeLoop errno rest b'
      (result, b'', .sent bytes :: fx)

def write (c : Connection) (sends : Transfers) : WriteResult × Connection × List Effect :=
  let (result, writeBuffer, fx) := writeLoop sends.errno sends.counts c.writeBuffer
  (result, { c with writeBuffer }, fx)

/-- The loop over `sendfile`, from the given offset with the given length left. -/
def sendfileLoop (errno : Errno) : List Nat → Nat → Nat → WriteResult × Nat × List Effect
  | [], _, left =>
    if left = 0 then (.complete, left, [])
    else (if errno = .again then .again else .error, left, [])
  | n :: rest, offset, left =>
    if left = 0 then (.complete, left, [])
    else
      let count := min n left
      let (result, left', fx) := sendfileLoop errno rest (offset + count) (left - count)
      (result, left', .transferred offset count :: fx)

/-- `Close`, when the last reference goes. -/
def close (c : Connection) : Connection × List Effect :=
  let (c, fx) := if 0 ≤ c.sendFileFd then
    ({ c with sendFileFd := -1 }, [Effect.discarded .closed c.sendFileLen]) else (c, [])
  ({ c with fd := -1 }, fx)

/-! ## Events of interest -/

def enableReadEvent (c : Connection) : Connection :=
  { c with channel := { c.channel with epollIn := true } }

def enableWriteEvent (c : Connection) : Connection :=
  { c with channel := { c.channel with epollOut := true } }

def disableWriteEvent (c : Connection) : Connection :=
  { c with channel := { c.channel with epollOut := false } }

/-! ## Processing -/

def hasPendingRequest (c : Connection) : Bool := 0 < c.readBuffer.readableBytes

def isKeepAlive (c : Connection) : Bool := c.context.request.isKeepAlive

def badRequest (r : HttpResponse) : HttpResponse :=
  ((r.setStatus 400 (lit "Bad Request")).setText (lit "400 Bad Request")).setKeepAlive false

/-- Store a reply: its bytes behind what is still unsent, its file over any other. -/
def store (c : Connection) (env : Env) (p : Reply) : Connection × List Effect :=
  let c := { c with response := p.response, writeBuffer := c.writeBuffer.append p.bytes }
  let fx := p.opened.map .opened ++ [.responded p.bytes (p.file.map (·.size))]
  match p.file with
  | none => (c, fx)
  | some file =>
    ({ c with sendFileFd := env.nextFd, sendFileLen := file.size },
      fx ++ if 0 ≤ c.sendFileFd then [.discarded .overwritten c.sendFileLen] else [])

def process (c : Connection) (env : Env) : ProcessResult × Connection × List Effect :=
  let (result, context, readBuffer) := c.context.parseRequest c.readBuffer
  let c := { c with context, readBuffer }
  match result with
  | .incomplete => (.incomplete, c, [.parsed .incomplete])
  | .error => (.error, { c with response := badRequest c.response }, [.parsed .error])
  | .complete =>
    let (c, fx) := c.store env (reply env c.resourceDir c.router c.context.request c.response)
    (.complete, c, .parsed .complete :: fx)

def processInWorker (c : Connection) (env : Env) : Connection × List Effect :=
  match c.process env with
  | (.incomplete, c, fx) => ({ c with state := .connected }, fx)
  | (.error, c, fx) => ({ c with state := .closed }, fx ++ [.queued .handleClose])
  | (.complete, c, fx) => ({ c with state := .writing }, fx ++ [.queued .trySend])

/-! ## The end of a response -/

def handleClose (c : Connection) : Connection × List Effect := (c, [.queued .removeConnection])

def resetForNextRequest (c : Connection) : Connection × List Effect :=
  let c := { c with context := .reset, response := .reset, writeBuffer := c.writeBuffer.retrieveAll.2 }
  let (c, fx) := if 0 ≤ c.sendFileFd then
    ({ c with sendFileFd := -1, sendFileLen := 0 }, [Effect.discarded .reset c.sendFileLen])
    else (c, [])
  (enableReadEvent { c with state := .connected }, fx)

def onResponseFinished (c : Connection) : Bool × Connection × List Effect :=
  let entered := Effect.finished c.writeBuffer.readableBytes
  if c.isKeepAlive then
    let (c, fx) := c.resetForNextRequest
    (true, c, entered :: fx ++ if c.hasPendingRequest then [.queued .processInWorker] else [])
  else (false, { c with state := .closed }, [entered])

def handleWriteResult (c : Connection) (result : WriteResult) : Connection × List Effect :=
  match result with
  | .complete => c.onResponseFinished.2
  | .again => (c.enableWriteEvent, [])
  | .error => c.handleClose

/-! ## Handlers -/

def trySend (c : Connection) (sends : Transfers) : Connection × List Effect :=
  let (result, c, fx) := c.write sends
  let (c, fx') := c.handleWriteResult result
  (c, fx ++ fx')

/-- The end of `HandleWrite` once buffer and file are through. -/
def writeDone (c : Connection) : Connection × List Effect :=
  handleWriteResult (disableWriteEvent { c with writeState := .idle }) .complete

/-- The file part of `HandleWrite`; the offset starts at zero in every call. -/
def sendFile (c : Connection) (files : Transfers) : Connection × List Effect :=
  if 0 ≤ c.sendFileFd then
    let (result, sendFileLen, fx) := sendfileLoop files.errno files.counts 0 c.sendFileLen
    let c := { c with sendFileLen }
    match result with
    | .again => ({ c.enableWriteEvent with writeState := .pending }, fx)
    | .error =>
      let (c, fx') := handleWriteResult { c with sendFileFd := -1 } .error
      (c, fx ++ .discarded .failed sendFileLen :: fx')
    | .complete =>
      let (c, fx') := writeDone { c with sendFileFd := -1 }
      (c, fx ++ .discarded .drained sendFileLen :: fx')
  else c.writeDone

def handleWrite (c : Connection) (sends files : Transfers) : Connection × List Effect :=
  let (result, c, fx) := write { c with writeState := .writing } sends
  if c.writeBuffer.readableBytes = 0 then
    let (c, fx') := c.sendFile files
    (c, fx ++ fx')
  else
    let (c, fx') := handleWriteResult (enableWriteEvent { c with writeState := .pending }) result
    (c, fx ++ fx')

def handleRead (c : Connection) (env : Env) (arrival : Arrival) : Connection × List Effect :=
  let (result, c, fx) := c.read arrival
  match result with
  | .success =>
    if c.state = .connected then
      let (c, fx') := processInWorker { c with state := .processing } env
      (c, fx ++ fx')
    else (c, fx)
  | _ =>
    let (c, fx') := c.handleClose
    (c, fx ++ fx')

/-- Run a queued functor. Only the one that sends looks at the state first. -/
def call (c : Connection) (cb : Callback) (env : Env) (sends : Transfers) :
    Connection × List Effect :=
  match cb with
  | .trySend => if c.state = .closed then (c, []) else c.trySend sends
  | .processInWorker => c.processInWorker env
  | .handleClose => c.handleClose
  | .removeConnection => (c, [.removal c.fd])

end Connection

end WebServer
