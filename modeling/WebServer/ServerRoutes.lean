import WebServer.ClientReader
import WebServer.EndToEnd
import WebServer.Routes

/-!
# The routes of the server, as a client sees them

Every reply from memory that the four routes or the file system give is a tidy response
whose texts have no line ends, so that a client reads the connection back response by
response.
-/

namespace WebServer

open KeyedList HttpResponse ClientResponse StreamReader

/-! ## Handlers that print -/

/-- A status code is printed as a number without a sign. -/
def HttpResponse.Setter.Prints : Setter → Prop
  | .setStatus code status => 0 ≤ code ∧ findCrlf status = none
  | .setHeader key value _ => OneLine key value
  | .setText _ | .setHtml _ | .setBody _ => True

theorem fits_of_prints {setter : Setter} (prints : setter.Prints) : setter.Fits := by
  cases setter with
  | setStatus code status => exact prints.2
  | setHeader key value other => exact prints
  | setText text => exact prints
  | setHtml html => exact prints
  | setBody body => exact prints

/-- The handler only sets, and what it sets can be printed. -/
def OnlyPrints (handler : Handler) : Prop :=
  ∀ req r, ∃ setters : List Setter, (∀ s ∈ setters, s.Prints) ∧
    handler.respond req r = setters.foldl Setter.apply r

def RouterOnlyPrints (router : Option Router) : Prop :=
  ∀ req handler, router.bind (·.handlerFor req) = some handler → OnlyPrints handler

/-- A response ready to be written. -/
structure Presentable (r : HttpResponse) : Prop extends r.Tidy where
  code : 0 ≤ r.statusCode

theorem presentable_setter {r : HttpResponse} (h : Presentable r) {setter : Setter}
    (prints : setter.Prints) : Presentable (setter.apply r) := by
  refine ⟨tidy_setter h.toTidy (fits_of_prints prints), ?_⟩
  cases setter with
  | setStatus code status => exact prints.1
  | setText text => exact h.code
  | setHtml html => exact h.code
  | setBody body => exact h.code
  | setHeader key value => exact h.code

theorem presentable_handler {handler : Handler} (only : OnlyPrints handler) {r : HttpResponse}
    (h : Presentable r) (req : HttpRequest) : Presentable (handler.respond req r) := by
  obtain ⟨setters, hprints, hsetters⟩ := only req r
  rw [hsetters]
  clear hsetters
  induction setters generalizing r with
  | nil => exact h
  | cons setter rest ih =>
    obtain ⟨hfirst, hrest⟩ := List.forall_mem_cons.mp hprints
    exact ih (presentable_setter h hfirst) hrest

theorem presentable_keepAlive {r : HttpResponse} (h : Presentable r) (keepAlive : Bool) :
    Presentable (r.setKeepAlive keepAlive) := ⟨tidy_setKeepAlive h.toTidy keepAlive, h.code⟩

theorem presentable_gzip {r : HttpResponse} (h : Presentable r) (env : Env) (req : HttpRequest) :
    Presentable (gzipBody env req r) := by
  refine ⟨tidy_gzipBody h.toTidy env req, ?_⟩
  rcases gzipBody_cases env req r with hsame | ⟨compressed, hbody⟩
  · rw [hsame]
    exact h.code
  · rw [hbody]
    exact h.code

theorem presentable_text {r : HttpResponse} (h : Presentable r) {code : Int} {status : Str}
    (hcode : 0 ≤ code) (hstatus : findCrlf status = none) (text : Str) :
    Presentable ((r.setStatus code status).setText text) :=
  ⟨tidy_setText (clean_setStatus h.toClean code hstatus) text, hcode⟩

theorem presentable_page {r : HttpResponse} (h : Presentable r) {code : Int} {status type : Str}
    (hcode : 0 ≤ code) (hstatus : findCrlf status = none) (htype : findCrlf type = none)
    (body : Str) :
    Presentable (((r.setStatus code status).setBody body).setHeader (lit "Content-Type") type) :=
  ⟨tidy_page h.toClean code hstatus htype body, hcode⟩

/-! ## Replies from memory -/

/-- The reply is a presentable response written out. -/
def Printed (env : Env) (p : Reply) : Prop :=
  ∃ r opened, Presentable r ∧ p = writeAll env r opened

theorem printed_refuse {r : HttpResponse} (h : Presentable r) (env : Env) {code : Int}
    {status : Str} (hcode : 0 ≤ code) (hstatus : findCrlf status = none) (text : Str) :
    Printed env (refuse env code status text r) :=
  ⟨_, [], presentable_keepAlive (presentable_text h hcode hstatus text) false, rfl⟩

theorem presentable_readOrError {r : HttpResponse} (h : Presentable r) (env : Env)
    (dir filename path : Str) : Presentable (readOrError env dir filename path r).1 := by
  rw [readOrError]
  split
  · exact presentable_page h (by decide) (by decide) (getMime_whole path) _
  · split
    · exact presentable_page h (by decide) (by decide) (by decide) _
    · exact presentable_text h (by decide) (by decide) _

theorem presentable_readForGzip {r : HttpResponse} (h : Presentable r) (env : Env)
    (filename path : Str) : Presentable (readForGzip env filename path r).1 := by
  rw [readForGzip]
  split
  · exact presentable_page h (by decide) (by decide) (getMime_whole path) _
  · exact presentable_text h (by decide) (by decide) _

theorem printed_readReply {r : HttpResponse} (h : Presentable r) (env : Env)
    (dir filename path : Str) {req : HttpRequest} (notHead : req.method ≠ lit "HEAD")
    (opened : List Str) : Printed env (readReply env dir filename path req r opened) := by
  have hread := presentable_keepAlive (presentable_readOrError h env dir filename path)
    req.isKeepAlive
  refine ⟨_, opened ++ (readOrError env dir filename path r).2, presentable_gzip hread env req, ?_⟩
  simp only [readReply, if_neg notHead]

theorem printed_static {r : HttpResponse} (h : Presentable r) (env : Env) (dir : Str)
    {req : HttpRequest} (notHead : req.method ≠ lit "HEAD")
    (inMemory : (staticReply env dir req r).file = none) :
    Printed env (staticReply env dir req r) := by
  simp only [staticReply, fileReply] at inMemory ⊢
  split
  · exact printed_refuse h env (by decide) (by decide) _
  · next hsafe =>
    rw [if_neg hsafe] at inMemory
    split
    · exact printed_refuse h env (by decide) (by decide) _
    · next hsmall =>
      rw [if_neg hsmall] at inMemory
      split
      · next hstatic =>
        rw [if_pos hstatic] at inMemory
        split
        · exact printed_readReply (presentable_readForGzip h env _ _) env dir _ _ notHead _
        · next hplain =>
          rw [if_neg hplain] at inMemory
          split
          · next file hfile =>
            rw [hfile] at inMemory
            cases inMemory
          · exact printed_readReply h env dir _ _ notHead _
      · exact printed_readReply h env dir _ _ notHead _

theorem presentable_reset : Presentable .reset := ⟨tidy_reset, by decide⟩

theorem printed_reply {router : Option Router} (handlers : RouterOnlyPrints router) (env : Env)
    (dir : Str) {req : HttpRequest} (notHead : req.method ≠ lit "HEAD")
    (inMemory : (reply env dir router req .reset).file = none) :
    Printed env (reply env dir router req .reset) := by
  cases hhandler : router.bind (·.handlerFor req) with
  | some handler =>
    have hreply : reply env dir router req .reset =
        routedReply env req (handler.respond req .reset) (handler.opens req) := by
      simp only [reply, route_eq, hhandler, Option.map_some]
    rw [hreply]
    exact ⟨_, _, presentable_gzip (presentable_keepAlive
      (presentable_handler (handlers req handler hhandler) presentable_reset req) _) env req, rfl⟩
  | none =>
    rw [reply_unrouted hhandler] at inMemory ⊢
    exact printed_static presentable_reset env dir notHead inMemory

/-- What a client should read of a reply from memory. -/
def Reply.seen (env : Env) (p : Reply) : ClientResponse :=
  ⟨p.response.statusCode.toNat, p.response.status, p.response.lines env.order, p.response.body⟩

theorem readResponse_reply {env : Env} {p : Reply} (h : Printed env p) (rest : Str) :
    readResponse (p.bytes ++ rest) = some (p.seen env, rest) := by
  obtain ⟨r, opened, hpresentable, rfl⟩ := h
  have hread := readResponse_written hpresentable.toTidy hpresentable.code env.order rest
  have hbody := buildDefaultHeaders_body r
  have hseen : (writeAll env r opened).seen env = r.seen env.order := by
    show ClientResponse.mk _ _ _ r.buildDefaultHeaders.body = ClientResponse.mk _ _ _ r.body
    rw [hbody]
    rfl
  rw [hseen]
  exact hread

/-! ## The routes -/

namespace Server

theorem onlyPrints_account (verdict : HttpRequest → Verdict) : OnlyPrints (account verdict) :=
  fun req _ => ⟨[.setHtml (buildAlertPage (verdict req).message (verdict req).success)],
    List.forall_mem_singleton.mpr trivial, rfl⟩

theorem onlyPrints_hello : OnlyPrints hello :=
  fun _ _ => ⟨[.setHtml (lit "<h1>Hello Router</h1>")], List.forall_mem_singleton.mpr trivial, rfl⟩

theorem onlyPrints_registerPage (fs : FileSystem) (resourceDir : Str) :
    OnlyPrints (registerPage fs resourceDir) := by
  intro req r
  cases hread : FileUtil.readFile fs (registerFile resourceDir) with
  | some content =>
    refine ⟨[.setStatus 200 (lit "OK"), .setBody content,
      .setHeader (lit "Content-Type") (lit "text/html") (by decide)], ?_, ?_⟩
    · intro s hs
      simp only [List.mem_cons, List.not_mem_nil, or_false] at hs
      rcases hs with rfl | rfl | rfl
      · exact ⟨by decide, by decide⟩
      · trivial
      · exact ⟨by decide, by decide, by decide⟩
    · simp only [registerPage, hread]
      rfl
  | none =>
    refine ⟨[.setStatus 404 (lit "Not Found"), .setText (lit "Register page not found")], ?_, ?_⟩
    · intro s hs
      simp only [List.mem_cons, List.not_mem_nil, or_false] at hs
      rcases hs with rfl | rfl
      · exact ⟨by decide, by decide⟩
      · trivial
    · simp only [registerPage, hread]
      rfl

theorem routes_print (fs : FileSystem) (resourceDir : Str)
    (login register : HttpRequest → Verdict) :
    RouterOnlyPrints (some (routes fs resourceDir login register)) := by
  intro req handler h
  cases routed_of_routes h with
  | registerPage => exact onlyPrints_registerPage fs resourceDir
  | hello => exact onlyPrints_hello
  | register => exact onlyPrints_account register
  | login => exact onlyPrints_account login

end Server

/-! ## The client of the routes -/

section
variable {env : Env} {dir : Str} {login register : HttpRequest → Verdict}

/-- The answer to the message as its client should see it. -/
def Message.seen (m : Message env dir (some (Server.routes env.fs dir login register))) :
    ClientResponse :=
  (reply env dir (some (Server.routes env.fs dir login register)) m.context.request .reset).seen env

/-- A client that asks for bodies reads a run of answers back one by one. -/
theorem readAll_answers
    {msgs : List (Message env dir (some (Server.routes env.fs dir login register)))}
    (bodies : ∀ m ∈ msgs, m.context.request.method ≠ lit "HEAD") :
    readAll readResponse (answers msgs) = msgs.map Message.seen := by
  have hreads : ∀ m ∈ msgs, ∀ rest,
      readResponse (m.response ++ rest) = some (m.seen, rest) := by
    intro m hm rest
    have hprinted := printed_reply (Server.routes_print env.fs dir login register) env dir
      (bodies m hm) m.inMemory
    exact readResponse_reply hprinted rest
  have hall := readAll_encoded readResponse_steadfast hreads []
  rw [List.append_nil] at hall
  rw [answers, hall, readAll_none rfl, List.append_nil]

end

end WebServer
