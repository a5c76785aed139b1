import WebServer.Connection

/-!
# The branches of `Process`

Which branch answers a request is decided by the request, the file system and the
router before anything is written. `reply_cases` says once which reply each branch
gives; the properties of single requests are read off it. `Ready` is the state in
which the constructor and `Reuse` hand out a connection.
-/

namespace WebServer

open KeyedList

/-! ## Conditions of the branches -/

section
variable (env : Env) (dir : Str) (router : Option Router) (req : HttpRequest)

/-- No handler takes the request. -/
def Unrouted : Prop := router.bind (·.handlerFor req) = none

/-- The path below the resource directory that the request stands for. -/
def servedPath : Str := indexed (PathUtil.safePath env.fs dir req.path)

/-- The path check refuses, or the file is above the size limit. -/
def Refused : Prop :=
  Unrouted router req ∧
    (PathUtil.safePath env.fs dir req.path = [] ∨
      maxFileSize < FileUtil.fileSize env.fs (dir ++ servedPath env dir req))

/-- The request gets past the router, the path check and the size limit. -/
structure Served : Prop where
  unrouted : Unrouted router req
  allowed : PathUtil.safePath env.fs dir req.path ≠ []
  small : FileUtil.fileSize env.fs (dir ++ servedPath env dir req) ≤ maxFileSize

/-- The file is left to sendfile. -/
structure BySendfile (file : OpenFile) : Prop where
  served : Served env dir router req
  static : isStaticFile env req (dir ++ servedPath env dir req) = true
  plain : compressible req (servedPath env dir req) = false
  opens : FileUtil.openFile env.fs (dir ++ servedPath env dir req) = some file

/-- Some file is left to sendfile. -/
def LeavesFile : Prop := ∃ file, BySendfile env dir router req file

/-- What the gzip branch leaves to the in-memory branch that follows it. -/
def Loaded (r : HttpResponse) (loaded : HttpResponse × List Str) : Prop :=
  loaded = (r, []) ∨
    loaded = readForGzip env (dir ++ servedPath env dir req) (servedPath env dir req) r

end

theorem leavesFile_iff {env : Env} {dir : Str} {router : Option Router} {req : HttpRequest} :
    LeavesFile env dir router req ↔
      ((router.bind (·.handlerFor req)).isNone ∧ PathUtil.safePath env.fs dir req.path ≠ [] ∧
        FileUtil.fileSize env.fs (dir ++ servedPath env dir req) ≤ maxFileSize) ∧
      isStaticFile env req (dir ++ servedPath env dir req) = true ∧
      compressible req (servedPath env dir req) = false ∧
      (FileUtil.openFile env.fs (dir ++ servedPath env dir req)).isSome := by
  constructor
  · rintro ⟨file, ⟨hunrouted, hallowed, hsmall⟩, hstatic, hplain, hopens⟩
    exact ⟨⟨Option.isNone_iff_eq_none.mpr hunrouted, hallowed, hsmall⟩, hstatic, hplain,
      Option.isSome_iff_exists.mpr ⟨file, hopens⟩⟩
  · rintro ⟨⟨hunrouted, hallowed, hsmall⟩, hstatic, hplain, hopens⟩
    obtain ⟨file, hfile⟩ := Option.isSome_iff_exists.mp hopens
    exact ⟨file, ⟨Option.isNone_iff_eq_none.mp hunrouted, hallowed, hsmall⟩, hstatic, hplain, hfile⟩

instance (env : Env) (dir : Str) (router : Option Router) (req : HttpRequest) :
    Decidable (LeavesFile env dir router req) := decidable_of_iff _ leavesFile_iff.symm

theorem not_refused {env : Env} {dir : Str} {router : Option Router} {req : HttpRequest}
    (h : Served env dir router req) : ¬Refused env dir router req := by
  rintro ⟨-, empty | large⟩
  · exact h.allowed empty
  · exact Nat.not_lt.mpr h.small large

/-- The replies of `fileReply`, once the size limit is passed. -/
theorem fileReply_cases {env : Env} {dir : Str} {router : Option Router} {req : HttpRequest}
    (r : HttpResponse) (h : Served env dir router req) :
    let path := servedPath env dir req
    (∃ file, BySendfile env dir router req file ∧
      fileReply env dir path req r = sendfileReply env (dir ++ path) path file req r) ∨
    ((∀ file, ¬BySendfile env dir router req file) ∧
      ∃ loaded, Loaded env dir req r loaded ∧
        fileReply env dir path req r =
          readReply env dir (dir ++ path) path req loaded.1 loaded.2) := by
  intro path
  have hsmall : ¬maxFileSize < FileUtil.fileSize env.fs (dir ++ path) := Nat.not_lt.mpr h.small
  simp only [fileReply, if_neg hsmall]
  by_cases hstatic : isStaticFile env req (dir ++ path) = true
  · by_cases hgzip : compressible req path = true
    · simp only [if_pos hstatic, if_pos hgzip]
      refine Or.inr ⟨?_, _, Or.inr rfl, rfl⟩
      intro file hfile
      exact absurd hgzip (by simp [path, hfile.plain])
    · simp only [if_pos hstatic, if_neg hgzip]
      cases hopen : FileUtil.openFile env.fs (dir ++ path) with
      | some file => exact Or.inl ⟨file, ⟨h, hstatic, by simpa using hgzip, hopen⟩, rfl⟩
      | none =>
        refine Or.inr ⟨?_, _, Or.inl rfl, rfl⟩
        intro file hfile
        have himpossible : none = some file := hopen.symm.trans hfile.opens
        cases himpossible
  · simp only [if_neg hstatic]
    refine Or.inr ⟨?_, _, Or.inl rfl, rfl⟩
    intro file hfile
    exact hstatic hfile.static

theorem route_eq (router : Option Router) (req : HttpRequest) (r : HttpResponse) :
    router.bind (·.route req r) =
      (router.bind (·.handlerFor req)).map fun handler =>
        (handler.respond req r, handler.opens req) := by
  cases router <;> rfl

theorem reply_unrouted {env : Env} {dir : Str} {router : Option Router} {req : HttpRequest}
    (h : Unrouted router req) (r : HttpResponse) :
    reply env dir router req r = staticReply env dir req r := by
  rw [Unrouted] at h
  simp only [reply, route_eq, h, Option.map_none]

/-- The reply of each branch, with the condition that selects it. -/
theorem reply_cases (env : Env) (dir : Str) (router : Option Router) (req : HttpRequest)
    (r : HttpResponse) :
    let path := servedPath env dir req
    (∃ handler, router.bind (·.handlerFor req) = some handler ∧
      reply env dir router req r =
        routedReply env req (handler.respond req r) (handler.opens req)) ∨
    (Refused env dir router req ∧ ∃ code status text, findCrlf status = none ∧
      reply env dir router req r = refuse env code status text r) ∨
    (∃ file, BySendfile env dir router req file ∧
      reply env dir router req r = sendfileReply env (dir ++ path) path file req r) ∨
    (Served env dir router req ∧ (∀ file, ¬BySendfile env dir router req file) ∧
      ∃ loaded, Loaded env dir req r loaded ∧ reply env dir router req r =
        readReply env dir (dir ++ path) path req loaded.1 loaded.2) := by
  intro path
  cases hhandler : router.bind (·.handlerFor req) with
  | some handler =>
    refine Or.inl ⟨handler, rfl, ?_⟩
    simp only [reply, route_eq, hhandler, Option.map_some]
  | none =>
    rw [reply_unrouted hhandler, staticReply]
    by_cases hsafe : PathUtil.safePath env.fs dir req.path = []
    · refine Or.inr (Or.inl ⟨⟨hhandler, Or.inl hsafe⟩, 403, lit "Forbidden",
        lit "403 Forbidden", by decide, ?_⟩)
      exact if_pos hsafe
    · simp only [if_neg hsafe]
      by_cases hlarge : maxFileSize < FileUtil.fileSize env.fs (dir ++ path)
      · refine Or.inr (Or.inl ⟨⟨hhandler, Or.inr hlarge⟩, 413, lit "Payload Too Large",
          lit "File Too Large", by decide, ?_⟩)
        exact if_pos hlarge
      · have hserved : Served env dir router req := ⟨hhandler, hsafe, Nat.not_lt.mp hlarge⟩
        rcases fileReply_cases r hserved with hfile | ⟨hnone, hread⟩
        · exact Or.inr (Or.inr (Or.inl hfile))
        · exact Or.inr (Or.inr (Or.inr ⟨hserved, hnone, hread⟩))

/-- A reply leaves a file only by the sendfile branch. -/
theorem reply_file {env : Env} {dir : Str} {router : Option Router} {req : HttpRequest}
    {r : HttpResponse} {file : OpenFile} (h : (reply env dir router req r).file = some file) :
    LeavesFile env dir router req := by
  rcases reply_cases env dir router req r with
    ⟨handler, -, hreply⟩ | ⟨-, code, status, text, -, hreply⟩ | ⟨served, hserved, -⟩ |
    ⟨-, -, loaded, -, hreply⟩
  · rw [hreply] at h
    cases h
  · rw [hreply] at h
    cases h
  · exact ⟨served, hserved⟩
  · rw [hreply] at h
    cases h

/-! ## Processing a complete request -/

namespace Connection

/-- Nothing is left of an earlier response. -/
structure Ready (c : Connection) : Prop where
  response : c.response = .reset
  noFile : c.sendFileFd = -1
  readBuffer : c.readBuffer.Wf
  writeBuffer : c.writeBuffer.Wf

theorem ready_new (fd : Int) (resourceDir : Str) (router : Option Router) :
    (new fd resourceDir router).Ready :=
  ⟨rfl, rfl, Buffer.new_wf 1024, Buffer.new_wf 1024⟩

theorem ready_receiving (resourceDir : Str) (router : Option Router) (bytes : Str) :
    (receiving resourceDir router bytes).Ready :=
  ⟨rfl, rfl, Buffer.append_wf (Buffer.new_wf 1024) bytes, Buffer.new_wf 1024⟩

theorem ready_reuse (c : Connection) (fd : Int) (resourceDir : Str) (router : Option Router) :
    (c.reuse fd resourceDir router).Ready :=
  ⟨rfl, rfl, Buffer.clear_wf _, Buffer.clear_wf _⟩

theorem ready_enableReadEvent {c : Connection} (h : c.Ready) : c.enableReadEvent.Ready :=
  ⟨h.response, h.noFile, h.readBuffer, h.writeBuffer⟩

theorem store_response (c : Connection) (env : Env) (p : Reply) :
    (c.store env p).1.response = p.response := by
  cases h : p.file <;> simp [store, h]

theorem store_context (c : Connection) (env : Env) (p : Reply) :
    (c.store env p).1.context = c.context := by
  cases h : p.file <;> simp [store, h]

theorem store_router (c : Connection) (env : Env) (p : Reply) :
    (c.store env p).1.router = c.router := by
  cases h : p.file <;> simp [store, h]

theorem store_writeBuffer (c : Connection) (env : Env) (p : Reply) :
    (c.store env p).1.writeBuffer = c.writeBuffer.append p.bytes := by
  cases h : p.file <;> simp [store, h]

/-- What the parser answers to the bytes a connection holds. -/
def parsed (c : Connection) : Outcome := c.context.parseRequest c.readBuffer

theorem parsed_eq {c : Connection} {result : ParseResult} (h : c.parsed.1 = result) :
    c.parsed = (result, c.parsed.2.1, c.parsed.2.2) := h ▸ rfl

/-- The connection that `Process` leaves after a complete request. -/
theorem process_complete {c : Connection} {env : Env} {ctx : HttpContext} {rest : Buffer}
    (parsed : c.parsed = (.complete, ctx, rest)) :
    c.process env =
      (.complete,
        ({ c with context := ctx, readBuffer := rest }.store env
          (reply env c.resourceDir c.router ctx.request c.response)).1,
        .parsed .complete :: ({ c with context := ctx, readBuffer := rest }.store env
          (reply env c.resourceDir c.router ctx.request c.response)).2) := by
  simp only [process, show c.context.parseRequest c.readBuffer = _ from parsed]

end Connection

end WebServer
