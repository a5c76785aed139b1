import WebServer.HttpResponse
import WebServer.StaticFiles

/-!
# The reply to a parsed request

The part of `Process` that follows the parser: routing, the path check, the size
limit, sendfile, the file read into memory and the error page, in the order of
the source. A reply is what these branches leave behind: the response object, the
bytes for the write buffer, the file left to sendfile, and the files opened.

The file system and zlib stand for the outside world and stay fixed while one
request is answered. A handler fills the response and may open files; what else it
does is not modelled here.
-/

namespace WebServer

/-- The world one call of `Process` sees. `nextFd` is the number that `open` returns. -/
structure Env where
  fs : FileSystem
  zlib : Zlib
  order : HeaderOrder
  nextFd : Nat

/-- A finite file system, no compression, and headers in the order of insertion. -/
def Env.table (entries : List Entry) : Env :=
  { fs := .table entries, zlib := .failing, order := .insertion, nextFd := 7 }

structure Reply where
  response : HttpResponse
  bytes : Str
  file : Option OpenFile
  opened : List Str

/-- 10 MiB -/
def maxFileSize : Nat := 10 * 1024 * 1024

def clientGzip (req : HttpRequest) : Bool :=
  contains (req.getHeader (lit "Accept-Encoding")) (lit "gzip")

/-- The compression step that ends both the routed and the in-memory branch. -/
def gzipBody (env : Env) (req : HttpRequest) (r : HttpResponse) : HttpResponse :=
  if clientGzip req ∧ GzipUtil.shouldCompress (r.getHeader (lit "Content-Type")) ∧ r.body ≠ [] then
    match GzipUtil.compress env.zlib r.body with
    | none => r
    | some compressed => (r.setBody compressed).setHeader (lit "Content-Encoding") (lit "gzip")
  else r

/-- `writeBuffer_.Append(response_.ToString())` -/
def writeAll (env : Env) (r : HttpResponse) (opened : List Str) : Reply :=
  let (resp, r) := r.toString env.order
  { response := r, bytes := resp, file := none, opened }

/-- The early exits 403 and 413. -/
def refuse (env : Env) (code : Int) (status text : Str) (r : HttpResponse) : Reply :=
  writeAll env (((r.setStatus code status).setText text).setKeepAlive false) []

/-- The branch behind `Route`; `opened` lists what the handler opened. -/
def routedReply (env : Env) (req : HttpRequest) (r : HttpResponse) (opened : List Str) : Reply :=
  writeAll env (gzipBody env req (r.setKeepAlive req.isKeepAlive)) opened

/-- `path == "/"` stands for the index page. -/
def indexed (path : Str) : Str := if path = [slash] then lit "/index.html" else path

/-- The condition of the branch that may use sendfile. -/
def isStaticFile (env : Env) (req : HttpRequest) (filename : Str) : Bool :=
  req.method ≠ lit "HEAD" ∧ FileUtil.exists_ env.fs filename ∧
    FileUtil.isRegularFile env.fs filename

def compressible (req : HttpRequest) (path : Str) : Bool :=
  clientGzip req ∧ GzipUtil.shouldCompress (MimeType.getMime path)

/-- The gzip branch reads the file once and falls through to `readReply`. -/
def readForGzip (env : Env) (filename path : Str) (r : HttpResponse) : HttpResponse × List Str :=
  match FileUtil.readFile env.fs filename with
  | some content =>
    (((r.setStatus 200 (lit "OK")).setBody content).setHeader (lit "Content-Type")
      (MimeType.getMime path), [filename])
  | none => ((r.setStatus 404 (lit "Not Found")).setText (lit "404 Not Found"), [])

def errorPage (dir : Str) : Str := dir ++ lit "/404.html"

/-- The file, else the 404 page, else a text. -/
def readOrError (env : Env) (dir filename path : Str) (r : HttpResponse) :
    HttpResponse × List Str :=
  match FileUtil.readFile env.fs filename with
  | some content =>
    (((r.setStatus 200 (lit "OK")).setBody content).setHeader (lit "Content-Type")
      (MimeType.getMime path), [filename])
  | none =>
    match FileUtil.readFile env.fs (errorPage dir) with
    | some page =>
      (((r.setStatus 404 (lit "Not Found")).setBody page).setHeader (lit "Content-Type")
        (lit "text/html"), [errorPage dir])
    | none => ((r.setStatus 404 (lit "Not Found")).setText (lit "404 Not Found"), [])

/-- The in-memory branch; `opened` lists the files opened before it. -/
def readReply (env : Env) (dir filename path : Str) (req : HttpRequest) (r : HttpResponse)
    (opened : List Str) : Reply :=
  let (r, more) := readOrError env dir filename path r
  let r := r.setKeepAlive req.isKeepAlive
  let r := if req.method = lit "HEAD" then r.clearBody else r
  writeAll env (gzipBody env req r) (opened ++ more)

/-- The sendfile branch: the head goes to the buffer, the file stays open. -/
def sendfileReply (env : Env) (filename path : Str) (file : OpenFile) (req : HttpRequest)
    (r : HttpResponse) : Reply :=
  let r := r.setStatus 200 (lit "OK")
  let r := r.setHeader (lit "Content-Type") (MimeType.getMime path)
  let r := r.setHeader (lit "Content-Length") (toDec file.size)
  let r := r.setKeepAlive req.isKeepAlive
  let (headers, r) := r.headersOnly env.order
  { response := r, bytes := headers, file := some file, opened := [filename] }

/-- From the size limit on; `path` is the checked path. -/
def fileReply (env : Env) (dir path : Str) (req : HttpRequest) (r : HttpResponse) : Reply :=
  let filename := dir ++ path
  if maxFileSize < FileUtil.fileSize env.fs filename then
    refuse env 413 (lit "Payload Too Large") (lit "File Too Large") r
  else if isStaticFile env req filename then
    if compressible req path then
      let (r, opened) := readForGzip env filename path r
      readReply env dir filename path req r opened
    else
      match FileUtil.openFile env.fs filename with
      | some file => sendfileReply env filename path file req r
      | none => readReply env dir filename path req r []
  else readReply env dir filename path req r []

def staticReply (env : Env) (dir : Str) (req : HttpRequest) (r : HttpResponse) : Reply :=
  let safePath := PathUtil.safePath env.fs dir req.path
  if safePath = [] then refuse env 403 (lit "Forbidden") (lit "403 Forbidden") r
  else fileReply env dir (indexed safePath) req r

/-- What `Process` does with a complete request. -/
def reply (env : Env) (dir : Str) (router : Option Router) (req : HttpRequest)
    (r : HttpResponse) : Reply :=
  match router.bind (·.route req r) with
  | some (r, opened) => routedReply env req r opened
  | none => staticReply env dir req r

end WebServer
