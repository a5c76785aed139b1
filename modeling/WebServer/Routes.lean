import WebServer.Accounts
import WebServer.StaticFiles

/-!
# The routes of the server

The four routes that the constructor of `Server` enters, with the verdicts of the two
account handlers left open: what the database answers may be anything, as long as it is
the same for the same request. The handler of the register page is the only one that
opens a file.
-/

namespace WebServer

open KeyedList

namespace Server

def hello : Handler := { respond := fun _ resp => resp.setHtml (lit "<h1>Hello Router</h1>") }

/-- A handler that answers with a verdict. -/
def account (verdict : HttpRequest → Verdict) : Handler :=
  { respond := fun req resp => (verdict req).respond resp }

def registerFile (resourceDir : Str) : Str := resourceDir ++ lit "/register.html"

def registerPage (fs : FileSystem) (resourceDir : Str) : Handler where
  respond := fun _ resp =>
    match FileUtil.readFile fs (registerFile resourceDir) with
    | some content =>
      ((resp.setStatus 200 (lit "OK")).setBody content).setHeader (lit "Content-Type")
        (lit "text/html")
    | none => (resp.setStatus 404 (lit "Not Found")).setText (lit "Register page not found")
  opens := fun _ =>
    if (FileUtil.openFile fs (registerFile resourceDir)).isSome then [registerFile resourceDir]
    else []

def routes (fs : FileSystem) (resourceDir : Str) (login register : HttpRequest → Verdict) :
    Router :=
  let router : Router := {}
  let router := router.get (lit "/hello") hello
  let router := router.post (lit "/login") (account login)
  let router := router.post (lit "/register") (account register)
  router.get (lit "/register") (registerPage fs resourceDir)

/-- The handler that takes a request. -/
inductive Routed (fs : FileSystem) (resourceDir : Str) (login register : HttpRequest → Verdict)
    (req : HttpRequest) : Handler → Prop
  | registerPage (method : req.methodType = .get) (path : req.path = lit "/register") :
    Routed fs resourceDir login register req (registerPage fs resourceDir)
  | hello (method : req.methodType = .get) (path : req.path = lit "/hello") :
    Routed fs resourceDir login register req hello
  | register (method : req.methodType = .post) (path : req.path = lit "/register") :
    Routed fs resourceDir login register req (account register)
  | login (method : req.methodType = .post) (path : req.path = lit "/login") :
    Routed fs resourceDir login register req (account login)

variable {fs : FileSystem} {resourceDir : Str} {login register : HttpRequest → Verdict}
  {req : HttpRequest}

theorem routed_of_routes {handler : Handler}
    (h : (routes fs resourceDir login register).handlerFor req = some handler) :
    Routed fs resourceDir login register req handler := by
  rw [Router.handlerFor] at h
  cases hmethod : req.methodType <;> simp only [hmethod, reduceCtorEq] at h
  case get =>
    simp only [routes, Router.get, Router.post, Dict.find_insert] at h
    split at h
    · next hpath =>
      obtain rfl := Option.some.inj h
      exact .registerPage hmethod hpath
    · split at h
      · next hpath =>
        obtain rfl := Option.some.inj h
        exact .hello hmethod hpath
      · cases h
  case post =>
    simp only [routes, Router.get, Router.post, Dict.find_insert] at h
    split at h
    · next hpath =>
      obtain rfl := Option.some.inj h
      exact .register hmethod hpath
    · split at h
      · next hpath =>
        obtain rfl := Option.some.inj h
        exact .login hmethod hpath
      · cases h

/-- The register page is asked for. -/
def AsksRegisterPage (req : HttpRequest) : Prop :=
  req.methodType = .get ∧ req.path = lit "/register"

theorem routes_registerPage (h : AsksRegisterPage req) :
    (routes fs resourceDir login register).handlerFor req =
      some (registerPage fs resourceDir) := by
  rw [Router.handlerFor, h.1, h.2]
  simp only [routes, Router.get, Router.post, Dict.find_insert_self]

/-- What the handlers open: the register page, when it is asked for and can be opened. -/
theorem mem_opens {file : Str} :
    (∃ handler, (routes fs resourceDir login register).handlerFor req = some handler ∧
      file ∈ handler.opens req) ↔
    AsksRegisterPage req ∧ file = registerFile resourceDir ∧
      (FileUtil.openFile fs (registerFile resourceDir)).isSome := by
  have hpage : file ∈ (registerPage fs resourceDir).opens req ↔
      file = registerFile resourceDir ∧
        (FileUtil.openFile fs (registerFile resourceDir)).isSome := by
    show file ∈ (if _ then _ else _) ↔ _
    split
    · next hopens => simp [hopens]
    · next hopens => simp [hopens]
  constructor
  · rintro ⟨handler, hrouted, hfile⟩
    cases routed_of_routes hrouted with
    | registerPage method path => exact ⟨⟨method, path⟩, hpage.mp hfile⟩
    | hello => cases hfile
    | register => cases hfile
    | login => cases hfile
  · rintro ⟨hasks, hfile⟩
    exact ⟨_, routes_registerPage hasks, hpage.mpr hfile⟩

end Server

end WebServer
