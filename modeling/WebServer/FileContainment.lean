import WebServer.PathTests
import WebServer.ReplyCases
import WebServer.Routes

/-!
# Files opened while answering

The path check is made on the resource directory followed by the normalised path,
and the same string is opened, so a checked file is contained. Three names are
opened without a check of their own: the index page, put in the place of `/`, the
error page, and the page that the register route reads. `realpath` is an oracle that
resolves symbolic links.
-/

namespace WebServer

/-- A resolved name equal to the resolved directory, or below it at a slash. -/
def Under (dir name : Str) : Prop :=
  name = dir ∨ (dir ++ [slash]) <+: name ∨ (dir = [slash] ∧ [slash] <+: name)

/-- The file resolves to a place in the directory. -/
def Contained (fs : FileSystem) (dir file : Str) : Prop :=
  ∃ root name, fs.realpath (cStr dir) = some root ∧ fs.realpath (cStr file) = some name ∧
    Under root name

/-- A path that passes the check names a contained file. -/
theorem safePath_contained {fs : FileSystem} {dir path : Str}
    (h : PathUtil.safePath fs dir path ≠ []) :
    Contained fs dir (dir ++ PathUtil.safePath fs dir path) := by
  have hpasses := PathUtil.passes_of_safePath h
  have hunder := PathUtil.under_directory hpasses.starts hpasses.boundary
  rw [PathUtil.safePath_of_passes hpasses]
  refine ⟨_, _, PathUtil.getAbsolutePath_some hpasses.resolved,
    PathUtil.getAbsolutePath_some hpasses.found, ?_⟩
  rcases hunder with hsame | hbehind
  · exact .inl hsame
  · exact .inr (.inl hbehind)

/-! ## What is opened -/

def indexPage (dir : Str) : Str := dir ++ lit "/index.html"

theorem readFile_isSome (fs : FileSystem) (path : Str) :
    (FileUtil.readFile fs path).isSome = (FileUtil.openFile fs path).isSome :=
  Option.isSome_map

theorem mem_readForGzip {env : Env} {filename path opened : Str} {r : HttpResponse} :
    opened ∈ (readForGzip env filename path r).2 ↔
      opened = filename ∧ (FileUtil.openFile env.fs filename).isSome := by
  rw [readForGzip, ← readFile_isSome]
  cases hread : FileUtil.readFile env.fs filename <;> simp

theorem mem_readOrError {env : Env} {dir filename path opened : Str} {r : HttpResponse} :
    opened ∈ (readOrError env dir filename path r).2 ↔
      (opened = filename ∧ (FileUtil.openFile env.fs filename).isSome) ∨
      (opened = errorPage dir ∧ FileUtil.openFile env.fs filename = none ∧
        (FileUtil.openFile env.fs (errorPage dir)).isSome) := by
  rw [readOrError, ← Option.isSome_eq_false_iff.trans Option.isNone_iff_eq_none,
    ← readFile_isSome, ← readFile_isSome]
  cases hread : FileUtil.readFile env.fs filename with
  | some content => simp
  | none =>
    cases hpage : FileUtil.readFile env.fs (errorPage dir) <;> simp

/-- What the handler opens; without one the file asked for when it can be opened, else
the error page. -/
theorem mem_opened {env : Env} {dir : Str} {router : Option Router} {req : HttpRequest}
    {r : HttpResponse} {opened : Str} :
    opened ∈ (reply env dir router req r).opened ↔
      (∃ handler, router.bind (·.handlerFor req) = some handler ∧ opened ∈ handler.opens req) ∨
      Served env dir router req ∧
        ((opened = dir ++ servedPath env dir req ∧
          (FileUtil.openFile env.fs (dir ++ servedPath env dir req)).isSome) ∨
        (opened = errorPage dir ∧
          FileUtil.openFile env.fs (dir ++ servedPath env dir req) = none ∧
          (FileUtil.openFile env.fs (errorPage dir)).isSome)) := by
  have hnone : Unrouted router req →
      ¬∃ handler, router.bind (·.handlerFor req) = some handler ∧ opened ∈ handler.opens req := by
    rintro hunrouted ⟨handler, hrouted, -⟩
    exact Option.some_ne_none _ (hrouted.symm.trans hunrouted)
  rcases reply_cases env dir router req r with
    ⟨handler, hrouted, hreply⟩ | ⟨hrefused, code, status, text, -, hreply⟩ |
    ⟨file, hfile, hreply⟩ | ⟨hserved, -, loaded, hloaded, hreply⟩
  · rw [hreply]
    show opened ∈ handler.opens req ↔ _
    constructor
    · exact fun hopened => Or.inl ⟨handler, hrouted, hopened⟩
    · rintro (⟨other, hother, hopened⟩ | ⟨hserved, -⟩)
      · obtain rfl := Option.some.inj (hother.symm.trans hrouted)
        exact hopened
      · exact absurd (hrouted.symm.trans hserved.unrouted) (Option.some_ne_none _)
  · rw [hreply]
    refine iff_of_false (List.not_mem_nil) ?_
    rintro (hhandler | ⟨hserved, -⟩)
    · exact hnone hrefused.1 hhandler
    · exact not_refused hserved hrefused
  · rw [hreply, or_iff_right (hnone hfile.served.unrouted), hfile.opens]
    have hsingle : opened ∈ (sendfileReply env (dir ++ servedPath env dir req)
        (servedPath env dir req) file req r).opened ↔ opened = dir ++ servedPath env dir req :=
      List.mem_singleton
    rw [hsingle]
    simp [hfile.served]
  · rw [hreply, or_iff_right (hnone hserved.unrouted)]
    have hmem : opened ∈ (readReply env dir (dir ++ servedPath env dir req)
        (servedPath env dir req) req loaded.1 loaded.2).opened ↔
        opened ∈ loaded.2 ∨ opened ∈ (readOrError env dir (dir ++ servedPath env dir req)
          (servedPath env dir req) loaded.1).2 := List.mem_append
    rw [hmem, mem_readOrError]
    constructor
    · rintro (hearly | hlate)
      · refine ⟨hserved, Or.inl ?_⟩
        rcases hloaded with hsame | hread
        · rw [hsame] at hearly
          cases hearly
        · rw [hread] at hearly
          exact mem_readForGzip.mp hearly
      · exact ⟨hserved, hlate⟩
    · exact fun hopened => Or.inr hopened.2

/-- What must hold of the pages that are opened unchecked. -/
structure PagesContained (env : Env) (dir : Str) (router : Option Router) (req : HttpRequest) :
    Prop where
  index : Served env dir router req → PathUtil.safePath env.fs dir req.path = [slash] →
    (FileUtil.openFile env.fs (indexPage dir)).isSome → Contained env.fs dir (indexPage dir)
  error : Served env dir router req →
    FileUtil.openFile env.fs (dir ++ servedPath env dir req) = none →
    (FileUtil.openFile env.fs (errorPage dir)).isSome → Contained env.fs dir (errorPage dir)
  register : Server.AsksRegisterPage req →
    (FileUtil.openFile env.fs (Server.registerFile dir)).isSome →
    Contained env.fs dir (Server.registerFile dir)

/-- The file asked for is contained, unless it is the index page in the place of `/`. -/
theorem served_contained {env : Env} {dir : Str} {router : Option Router} {req : HttpRequest}
    (pages : PagesContained env dir router req) (served : Served env dir router req)
    (opens : (FileUtil.openFile env.fs (dir ++ servedPath env dir req)).isSome) :
    Contained env.fs dir (dir ++ servedPath env dir req) := by
  by_cases hroot : PathUtil.safePath env.fs dir req.path = [slash]
  · have hname : dir ++ servedPath env dir req = indexPage dir := by
      rw [servedPath, indexed, if_pos hroot, indexPage]
    rw [hname] at opens ⊢
    exact pages.index served hroot opens
  · have hname : servedPath env dir req = PathUtil.safePath env.fs dir req.path := by
      rw [servedPath, indexed, if_neg hroot]
    rw [hname]
    exact safePath_contained served.allowed

/-- Every file that a reply opens is contained exactly when these pages are, in the router of
the server. -/
theorem reply_contained_iff (env : Env) (dir : Str) (login register : HttpRequest → Verdict)
    (req : HttpRequest) (r : HttpResponse) :
    let router := some (Server.routes env.fs dir login register)
    (∀ file ∈ (reply env dir router req r).opened, Contained env.fs dir file) ↔
      PagesContained env dir router req := by
  intro router
  simp only [mem_opened]
  constructor
  · intro hall
    refine ⟨?_, ?_, ?_⟩
    · intro hserved hroot hopens
      have hname : dir ++ servedPath env dir req = indexPage dir := by
        rw [servedPath, indexed, if_pos hroot, indexPage]
      exact hall _ (Or.inr ⟨hserved, Or.inl ⟨hname.symm, hname ▸ hopens⟩⟩)
    · intro hserved hmissing hopens
      exact hall _ (Or.inr ⟨hserved, Or.inr ⟨rfl, hmissing, hopens⟩⟩)
    · intro hasks hopens
      exact hall _ (Or.inl (Server.mem_opens.mpr ⟨hasks, rfl, hopens⟩))
  · rintro hpages file (hhandler | ⟨hserved, ⟨rfl, hopens⟩ | ⟨rfl, hmissing, hopens⟩⟩)
    · obtain ⟨hasks, rfl, hopens⟩ := Server.mem_opens.mp hhandler
      exact hpages.register hasks hopens
    · exact served_contained hpages hserved hopens
    · exact hpages.error hserved hmissing hopens

namespace Connection

theorem mem_opened_process {c : Connection} {env : Env} (file : Str) :
    Effect.opened file ∈ (c.process env).2.2 ↔ c.parsed.1 = .complete ∧
      file ∈ (reply env c.resourceDir c.router c.parsed.2.1.request c.response).opened := by
  rcases hparsed : c.parsed with ⟨result, ctx, rest⟩
  have hparse : c.context.parseRequest c.readBuffer = (result, ctx, rest) := hparsed
  cases result with
  | incomplete => simp [process, hparse]
  | error => simp [process, hparse]
  | complete =>
    rw [process_complete hparsed]
    generalize reply env c.resourceDir c.router ctx.request c.response = p
    cases hfile : p.file with
    | none => simp [store, hfile]
    | some left =>
      simp only [store, hfile, List.mem_cons, List.mem_append, List.mem_map]
      by_cases hopen : 0 ≤ c.sendFileFd <;> simp [hopen]

/-- On a connection of the server every file opened is contained exactly when the index page,
the error page and the register page are contained where they are used. -/
theorem opened_contained_iff (env : Env) (conn : Connection)
    (login register : HttpRequest → Verdict) :
    let router := some (Server.routes env.fs conn.resourceDir login register)
    let c := { conn with router }
    (∀ file, Effect.opened file ∈ (c.process env).2.2 → Contained env.fs c.resourceDir file) ↔
      (c.parsed.1 = .complete →
        PagesContained env c.resourceDir router c.parsed.2.1.request) := by
  intro router c
  simp only [mem_opened_process]
  have hreply := reply_contained_iff env c.resourceDir login register c.parsed.2.1.request
    c.response
  constructor
  · intro hall hcomplete
    exact hreply.mp fun file hfile => hall file ⟨hcomplete, hfile⟩
  · rintro hpages file ⟨hcomplete, hfile⟩
    exact hreply.mpr (hpages hcomplete) file hfile

/-- The index page is a link out of the directory. Asked for by its name it is
refused; asked for as `/` it is opened. -/
theorem index_link_opened :
    let env := Env.table [⟨lit "/w", lit "/w", none⟩, ⟨lit "/w/", lit "/w", none⟩,
      ⟨lit "/w/index.html", lit "/etc/passwd", some (lit "root")⟩]
    let router := some (Server.routes env.fs (lit "/w") (fun _ => .wrongPassword)
      (fun _ => .registered))
    let named := receiving (lit "/w") router (lit "GET /index.html HTTP/1.1\r\n\r\n")
    let root := receiving (lit "/w") router (lit "GET / HTTP/1.1\r\n\r\n")
    (named.process env).2.1.response.statusCode = 403 ∧
      ∃ file, Effect.opened file ∈ (root.process env).2.2 ∧
        ¬Contained env.fs root.resourceDir file := by
  intro env router named root
  refine ⟨by decide +kernel, lit "/w/index.html", by decide +kernel, ?_⟩
  rintro ⟨dir, name, hdir, hname, hunder⟩
  have hw : env.fs.realpath (cStr root.resourceDir) = some (lit "/w") := by decide +kernel
  have hetc : env.fs.realpath (cStr (lit "/w/index.html")) = some (lit "/etc/passwd") := by
    decide +kernel
  obtain rfl := Option.some.inj (hdir.symm.trans hw)
  obtain rfl := Option.some.inj (hname.symm.trans hetc)
  revert hunder
  unfold Under
  decide +kernel

end Connection

end WebServer
