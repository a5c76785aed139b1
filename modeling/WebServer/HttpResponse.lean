import WebServer.HttpRequest

/-!
# Responses and the router

The response object with its header map, its serialisation, and the router that
lets handlers fill it. The iteration order of `unordered_map` is a parameter, given
anew for each response: any rearrangement of the entries.
-/

namespace WebServer

open KeyedList

/-- The order in which the header map is iterated. It depends on the entries and on how
many the map once held, for `clear` keeps its buckets. -/
structure HeaderOrder where
  order : List (Str × Str) → List (Str × Str)
  perm : ∀ entries, (order entries).Perm entries

/-- Iteration in the order of insertion. -/
def HeaderOrder.insertion : HeaderOrder := ⟨id, fun _ => List.Perm.refl _⟩

structure HttpResponse where
  statusCode : Int := 200
  keepAlive : Bool := false
  contentLengthSet : Bool := false
  status : Str := lit "OK"
  body : Str := []
  headers : Dict Str Str := .empty

namespace HttpResponse

/-- `Reset` restores what the constructor sets. The buckets that the map keeps show in its
order only. -/
def reset : HttpResponse := {}

def setStatus (r : HttpResponse) (code : Int) (status : Str) : HttpResponse :=
  { r with statusCode := code, status }

def setHeader (r : HttpResponse) (key value : Str) : HttpResponse :=
  { r with headers := r.headers.insert key value }

/-- The body also writes its own length into the header map. -/
def setBody (r : HttpResponse) (body : Str) : HttpResponse :=
  { r with
    body
    headers := r.headers.insert (lit "Content-Length") (toDec body.length)
    contentLengthSet := true }

def setText (r : HttpResponse) (text : Str) : HttpResponse :=
  (r.setHeader (lit "Content-Type") (lit "text/plain")).setBody text

def setHtml (r : HttpResponse) (html : Str) : HttpResponse :=
  (r.setHeader (lit "Content-Type") (lit "text/html")).setBody html

def setKeepAlive (r : HttpResponse) (keepAlive : Bool) : HttpResponse := { r with keepAlive }

def clearBody (r : HttpResponse) : HttpResponse := { r with body := [] }

def getHeader (r : HttpResponse) (key : Str) : Str := (r.headers.find key).getD []

def connectionValue (keepAlive : Bool) : Str :=
  if keepAlive then lit "keep-alive" else lit "close"

def buildDefaultHeaders (r : HttpResponse) : HttpResponse :=
  let r := if r.headers.find (lit "Content-Type") = none then
    r.setHeader (lit "Content-Type") (lit "text/plain") else r
  let r := if r.contentLengthSet then r else
    r.setHeader (lit "Content-Length") (toDec r.body.length)
  r.setHeader (lit "Connection") (connectionValue r.keepAlive)

def statusLine (r : HttpResponse) : Str :=
  lit "HTTP/1.1 " ++ intDec r.statusCode ++ [space] ++ r.status ++ crlf

def headerLine (h : Str × Str) : Str := h.1 ++ [colon, space] ++ h.2 ++ crlf

/-- The header lines that the loop of the serialisation writes, one per entry. -/
def lines (o : HeaderOrder) (r : HttpResponse) : List (Str × Str) := o.order r.headers.pairs

/-- The head with its blank line, from the headers as they stand. -/
def head (o : HeaderOrder) (r : HttpResponse) : Str :=
  r.statusLine ++ (r.lines o).flatMap headerLine ++ crlf

/-- `ToString` fills in the default headers and writes head and body. -/
def toString (o : HeaderOrder) (r : HttpResponse) : Str × HttpResponse :=
  let r := r.buildDefaultHeaders
  (r.head o ++ r.body, r)

def headersOnly (o : HeaderOrder) (r : HttpResponse) : Str × HttpResponse :=
  let r := r.buildDefaultHeaders
  (r.head o, r)

end HttpResponse

/-- What a handler makes of the response, and the files it opens to do so. -/
structure Handler where
  respond : HttpRequest → HttpResponse → HttpResponse
  opens : HttpRequest → List Str := fun _ => []

structure Router where
  getHandlers : Dict Str Handler := .empty
  postHandlers : Dict Str Handler := .empty

namespace Router

def get (r : Router) (path : Str) (handler : Handler) : Router :=
  { r with getHandlers := r.getHandlers.insert path handler }

def post (r : Router) (path : Str) (handler : Handler) : Router :=
  { r with postHandlers := r.postHandlers.insert path handler }

/-- The handler for a request, by its method type and exact path. -/
def handlerFor (r : Router) (req : HttpRequest) : Option Handler :=
  match req.methodType with
  | .get => r.getHandlers.find req.path
  | .post => r.postHandlers.find req.path
  | _ => none

/-- `Route`: `none` when no handler takes the request. -/
def route (r : Router) (req : HttpRequest) (resp : HttpResponse) :
    Option (HttpResponse × List Str) :=
  (r.handlerFor req).map fun handler => (handler.respond req resp, handler.opens req)

end Router

end WebServer
