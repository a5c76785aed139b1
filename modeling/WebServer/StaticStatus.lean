import WebServer.FileContainment

/-!
# The status of a static file

Which check decides the status of a request that no route takes: the path check, the
size, or the open. The path check asks `realpath` about the file itself, so it refuses
what does not exist; and what is not a regular file is opened like one. Assumed of the
file system is only what ties its answers about one name together.
-/

namespace WebServer

open PathUtil

/-! ## Which check decides -/

theorem buildDefaultHeaders_status (r : HttpResponse) :
    r.buildDefaultHeaders.statusCode = r.statusCode := by
  simp only [HttpResponse.buildDefaultHeaders]
  split <;> split <;> rfl

theorem writeAll_status (env : Env) (r : HttpResponse) (opened : List Str) :
    (writeAll env r opened).response.statusCode = r.statusCode := buildDefaultHeaders_status r

theorem gzipBody_status (env : Env) (req : HttpRequest) (r : HttpResponse) :
    (gzipBody env req r).statusCode = r.statusCode := by
  simp only [gzipBody]
  split
  · split <;> rfl
  · rfl

theorem readOrError_status (env : Env) (dir filename path : Str) (r : HttpResponse) :
    (readOrError env dir filename path r).1.statusCode =
      if (FileUtil.openFile env.fs filename).isSome then 200 else 404 := by
  rw [← readFile_isSome]
  simp only [readOrError]
  cases FileUtil.readFile env.fs filename with
  | some content => rfl
  | none => cases FileUtil.readFile env.fs (errorPage dir) <;> rfl

theorem readReply_status (env : Env) (dir filename path : Str) (req : HttpRequest)
    (r : HttpResponse) (opened : List Str) :
    (readReply env dir filename path req r opened).response.statusCode =
      if (FileUtil.openFile env.fs filename).isSome then 200 else 404 := by
  rw [← readOrError_status env dir filename path r]
  simp only [readReply, writeAll_status, gzipBody_status]
  split <;> rfl

theorem sendfileReply_status (env : Env) (filename path : Str) (file : OpenFile)
    (req : HttpRequest) (r : HttpResponse) :
    (sendfileReply env filename path file req r).response.statusCode = 200 :=
  buildDefaultHeaders_status _

/-- Every way through `fileReply` agrees on the status. -/
theorem fileReply_status (env : Env) (dir path : Str) (req : HttpRequest) (r : HttpResponse) :
    (fileReply env dir path req r).response.statusCode =
      if maxFileSize < FileUtil.fileSize env.fs (dir ++ path) then 413
      else if (FileUtil.openFile env.fs (dir ++ path)).isSome then 200 else 404 := by
  simp only [fileReply]
  by_cases hlarge : maxFileSize < FileUtil.fileSize env.fs (dir ++ path)
  · rw [if_pos hlarge, if_pos hlarge, refuse, writeAll_status]
    rfl
  · rw [if_neg hlarge, if_neg hlarge]
    split
    · split
      · rw [readReply_status]
      · cases hopen : FileUtil.openFile env.fs (dir ++ path) with
        | some file => exact sendfileReply_status env (dir ++ path) path file req r
        | none =>
          have hread := readReply_status env dir (dir ++ path) path req r []
          rwa [hopen] at hread
    · rw [readReply_status]

theorem reply_status {env : Env} {dir : Str} {router : Option Router} {req : HttpRequest}
    (unrouted : Unrouted router req) (r : HttpResponse) :
    (reply env dir router req r).response.statusCode =
      if safePath env.fs dir req.path = [] then 403
      else if maxFileSize < FileUtil.fileSize env.fs (dir ++ servedPath env dir req) then 413
      else if (FileUtil.openFile env.fs (dir ++ servedPath env dir req)).isSome then 200
      else 404 := by
  rw [reply_unrouted unrouted, staticReply]
  by_cases hsafe : safePath env.fs dir req.path = []
  · simp only [if_pos hsafe]
    exact writeAll_status env _ []
  · simp only [if_neg hsafe]
    exact fileReply_status env dir (servedPath env dir req) req r

/-! ## What the path check asks -/

/-- The path of the request, decoded and normalised. -/
def normalPath (req : HttpRequest) : Str := normalizePath (urlDecode req.path)

/-- The path contains NUL or two dots in a row. -/
def Suspect (req : HttpRequest) : Prop :=
  0 ∈ req.path ∨ 0 ∈ urlDecode req.path ∨ contains (normalPath req) [dot, dot] = true

instance (req : HttpRequest) : Decidable (Suspect req) := by
  unfold Suspect
  infer_instance

/-- A file system whose answers fit together, with a resource directory in it: a name
resolves exactly when something is there, and only what is there can be opened. -/
structure Rooted (fs : FileSystem) (dir root : Str) : Prop where
  resolves : fs.realpath (cStr dir) = some root
  itself : fs.realpath (cStr (dir ++ [slash])) = some root
  notRoot : root ≠ [slash]
  absolute : ∀ path name, fs.realpath path = some name → name.head? = some slash
  known : ∀ path, (fs.realpath path).isSome = (fs.stat path).isSome
  opens : ∀ path, (fs.openRead path).isSome → (fs.stat path).isSome

theorem rooted_table {entries : List Entry} {dir root : Str}
    (absolute : ∀ e ∈ entries, e.target.head? = some slash)
    (resolves : (FileSystem.table entries).realpath (cStr dir) = some root)
    (itself : (FileSystem.table entries).realpath (cStr (dir ++ [slash])) = some root)
    (notRoot : root ≠ [slash]) : Rooted (.table entries) dir root := by
  refine ⟨resolves, itself, notRoot, ?_, ?_, ?_⟩
  · intro path name hname
    obtain ⟨e, he, rfl⟩ := Option.map_eq_some_iff.mp hname
    exact absolute e (List.mem_of_find?_eq_some he)
  · intro path
    simp only [FileSystem.table, Option.isSome_map]
  · intro path hopen
    simp only [FileSystem.table, Option.isSome_map] at hopen ⊢
    exact hopen

variable {fs : FileSystem} {dir root : Str} {req : HttpRequest}

/-- Nothing there: refused. -/
theorem safePath_missing (h : fs.realpath (cStr (dir ++ normalPath req)) = none) :
    safePath fs dir req.path = [] := by
  by_contra hpassed
  apply (passes_of_safePath hpassed).found
  change getAbsolutePath fs (dir ++ normalPath req) = []
  rw [getAbsolutePath, h, Option.getD_none]

/-- The last two tests pass for what lies in the directory. -/
theorem tests_of_under {name : Str} (notRoot : root ≠ [slash]) (h : Under root name) :
    find root name = some 0 ∧
      ¬(root.length < name.length ∧ name[root.length]? ≠ some slash) := by
  rcases h with rfl | ⟨rest, rfl⟩ | ⟨hslash, -⟩
  · refine ⟨?_, fun hlonger => Nat.lt_irrefl _ hlonger.1⟩
    have hfind := find_append name []
    rwa [List.append_nil] at hfind
  · rw [List.append_assoc]
    refine ⟨find_append root _, fun hnext => hnext.2 ?_⟩
    simp
  · exact absurd hslash notRoot

theorem safePath_inside (h : Rooted fs dir root) (clean : ¬Suspect req) {name : Str}
    (found : fs.realpath (cStr (dir ++ normalPath req)) = some name) (inside : Under root name) :
    safePath fs dir req.path = normalPath req := by
  simp only [Suspect, not_or] at clean
  obtain ⟨hraw, hdecoded, hdots⟩ := clean
  obtain ⟨hstarts, hslash⟩ := tests_of_under h.notRoot inside
  have hnonempty : ∀ path name, fs.realpath path = some name → name ≠ [] := by
    rintro path name hname rfl
    cases h.absolute path [] hname
  have hroot : getAbsolutePath fs dir = root := getAbsolutePath_eq h.resolves
  have hname : getAbsolutePath fs (dir ++ normalOf req.path) = name := getAbsolutePath_eq found
  have hpasses : Passes fs dir req.path := by
    refine ⟨hraw, hdecoded, hdots, ?_, ?_, ?_, ?_⟩
    · rw [hroot]
      exact hnonempty _ _ h.resolves
    · rw [hname]
      exact hnonempty _ _ found
    · rwa [hroot, hname]
    · rwa [hroot, hname]
  exact safePath_of_passes hpasses

theorem normalPath_ne_nil (req : HttpRequest) : normalPath req ≠ [] := by
  intro hnil
  have hhead := normalizePath_head (urlDecode req.path)
  rw [show normalizePath (urlDecode req.path) = [] from hnil] at hhead
  cases hhead

/-! ## The status -/

/-- The path resolves to a name outside of the resource directory. -/
def Outside (fs : FileSystem) (dir root : Str) (req : HttpRequest) : Prop :=
  ∃ name, fs.realpath (cStr (dir ++ normalPath req)) = some name ∧ ¬Under root name

/-- What is found at the path is reached without a symbolic link. -/
def Linkless (fs : FileSystem) (dir root path : Str) : Prop :=
  ∀ name, fs.realpath (cStr (dir ++ path)) = some name → name = root ++ path

/-- The status wanted for what is at the name: nothing for a file that may not be read. -/
def Wanted (fs : FileSystem) (filename : Str) (code : Int) : Prop :=
  match fs.stat (cStr filename) with
  | none => code = 404
  | some st =>
    if st.regular then
      (maxFileSize < st.size → code = 413) ∧
        (st.size ≤ maxFileSize → (fs.openRead (cStr filename)).isSome → code = 200)
    else code = 404

/-- The status follows what is at the path, and 403 is for suspect and outside paths only. -/
structure StatusRight (fs : FileSystem) (dir root : Str) (req : HttpRequest) (code : Int) :
    Prop where
  wanted : ¬Suspect req → Linkless fs dir root (indexed (normalPath req)) →
    Wanted fs (dir ++ indexed (normalPath req)) code
  forbidden : code = 403 → Suspect req ∨ Outside fs dir root req

/-- What is no regular file is wanted to be not found. -/
theorem not_right_other {code : Int} (hcode : code ≠ 404) (clean : ¬Suspect req)
    (linkless : Linkless fs dir root (indexed (normalPath req)))
    (other : (fs.stat (cStr (dir ++ indexed (normalPath req)))).map (·.regular) = some false) :
    ¬StatusRight fs dir root req code := by
  rintro ⟨hwanted, -⟩
  obtain ⟨st, hst, hregular⟩ := Option.map_eq_some_iff.mp other
  have hwant := hwanted clean linkless
  rw [Wanted, hst] at hwant
  dsimp only at hwant
  rw [hregular, if_neg Bool.false_ne_true] at hwant
  exact hcode hwant

/-- What is not there is not wanted to be forbidden. -/
theorem not_right_missing (clean : ¬Suspect req)
    (missing : fs.realpath (cStr (dir ++ normalPath req)) = none) :
    ¬StatusRight fs dir root req 403 := by
  rintro ⟨-, hforbidden⟩
  rcases hforbidden rfl with hsuspect | ⟨name, hname, -⟩
  · exact clean hsuspect
  · exact Option.some_ne_none _ (hname.symm.trans missing)

/-- Something is at the path, and if it is no regular file it cannot be opened, and it does
not claim to be large. -/
structure Decided (fs : FileSystem) (dir root : Str) (req : HttpRequest) : Prop where
  exists_ : ¬Suspect req → (fs.stat (cStr (dir ++ normalPath req))).isSome
  other : ¬Suspect req → Linkless fs dir root (indexed (normalPath req)) →
    ∀ st, fs.stat (cStr (dir ++ indexed (normalPath req))) = some st → st.regular = false →
      st.size ≤ maxFileSize ∧ fs.openRead (cStr (dir ++ indexed (normalPath req))) = none

/-- Something at a path without links passes the check. -/
theorem safePath_linkless (h : Rooted fs dir root) (clean : ¬Suspect req)
    (linkless : Linkless fs dir root (indexed (normalPath req)))
    (found : (fs.stat (cStr (dir ++ normalPath req))).isSome) :
    safePath fs dir req.path = normalPath req := by
  by_cases hindex : normalPath req = [slash]
  · exact safePath_inside h clean (hindex ▸ h.itself) (Or.inl rfl)
  · rw [← h.known] at found
    obtain ⟨name, hname⟩ := Option.isSome_iff_exists.mp found
    rw [indexed, if_neg hindex] at linkless
    obtain ⟨rest, hrest⟩ : ∃ rest, normalPath req = slash :: rest := by
      have hhead : (normalPath req).head? = some slash := normalizePath_head (urlDecode req.path)
      exact ⟨_, (List.eq_cons_of_mem_head? hhead)⟩
    refine safePath_inside h clean hname (Or.inr (Or.inl ⟨rest, ?_⟩))
    rw [linkless name hname, hrest]
    simp

/-- The answer for a path that passes the check. -/
def answered (fs : FileSystem) (filename : Str) : Int :=
  if maxFileSize < FileUtil.fileSize fs filename then 413
  else if (FileUtil.openFile fs filename).isSome then 200 else 404

theorem reply_status_allowed {env : Env} {router : Option Router}
    (unrouted : Unrouted router req) (r : HttpResponse)
    (allowed : safePath env.fs dir req.path = normalPath req) :
    (reply env dir router req r).response.statusCode =
      answered env.fs (dir ++ indexed (normalPath req)) := by
  rw [reply_status unrouted, servedPath, allowed, if_neg (normalPath_ne_nil req), answered]

theorem answered_ne (fs : FileSystem) (filename : Str) : answered fs filename ≠ 403 := by
  rw [answered]
  split
  · decide
  · split <;> decide

/-- The status wanted, except for what is no regular file but can be opened or is large. -/
theorem wanted_answered_iff (h : Rooted fs dir root) (filename : Str) :
    Wanted fs filename (answered fs filename) ↔
      ∀ st, fs.stat (cStr filename) = some st → st.regular = false →
        st.size ≤ maxFileSize ∧ fs.openRead (cStr filename) = none := by
  rw [Wanted, answered, FileUtil.fileSize, FileUtil.openFile]
  cases hstat : fs.stat (cStr filename) with
  | none =>
    have hclosed : fs.openRead (cStr filename) = none := by
      by_contra hopen
      have hthere := h.opens _ (Option.isSome_iff_ne_none.mpr hopen)
      rw [hstat] at hthere
      cases hthere
    simp [hclosed, maxFileSize]
  | some st =>
    dsimp only
    cases hregular : st.regular with
    | true =>
      rw [if_pos rfl]
      refine iff_of_true ⟨fun hlarge => if_pos hlarge, fun hsmall hopen => ?_⟩ ?_
      · rw [if_neg (Nat.not_lt.mpr hsmall), if_pos hopen]
      · rintro st' hst' hother
        obtain rfl := Option.some.inj hst'
        exact absurd (hregular.symm.trans hother) Bool.false_ne_true.symm
    | false =>
      rw [if_neg Bool.false_ne_true]
      constructor
      · rintro hcode st' hst' -
        obtain rfl := Option.some.inj hst'
        by_cases hlarge : maxFileSize < st.size
        · rw [if_pos hlarge] at hcode
          exact absurd hcode (by decide)
        · rw [if_neg hlarge] at hcode
          refine ⟨Nat.not_lt.mp hlarge, ?_⟩
          by_contra hopen
          rw [if_pos (Option.isSome_iff_ne_none.mpr hopen)] at hcode
          exact absurd hcode (by decide)
      · intro hother
        obtain ⟨hsmall, hclosed⟩ := hother st rfl hregular
        rw [if_neg (Nat.not_lt.mpr hsmall), hclosed]
        rfl

/-- The status of an unrouted request is as wanted, and 403 only for suspect and outside
paths, exactly when something is at its path, and what is no regular file cannot be
opened and is not large. -/
theorem reply_status_right_iff {env : Env} {router : Option Router} (h : Rooted env.fs dir root)
    (unrouted : Unrouted router req) (r : HttpResponse) :
    StatusRight env.fs dir root req (reply env dir router req r).response.statusCode ↔
      Decided env.fs dir root req := by
  constructor
  · intro hright
    have hexists : ¬Suspect req → (env.fs.stat (cStr (dir ++ normalPath req))).isSome := by
      intro clean
      by_contra hnone
      have hmissing : env.fs.realpath (cStr (dir ++ normalPath req)) = none := by
        rw [← h.known] at hnone
        simpa using hnone
      rw [reply_status unrouted, if_pos (safePath_missing hmissing)] at hright
      exact not_right_missing clean hmissing hright
    refine ⟨hexists, ?_⟩
    intro clean linkless
    have hallowed := safePath_linkless h clean linkless (hexists clean)
    have hwanted := hright.wanted clean linkless
    rw [reply_status_allowed unrouted r hallowed] at hwanted
    exact (wanted_answered_iff h _).mp hwanted
  · intro hdecided
    constructor
    · intro clean linkless
      have hallowed := safePath_linkless h clean linkless (hdecided.exists_ clean)
      rw [reply_status_allowed unrouted r hallowed]
      exact (wanted_answered_iff h _).mpr (hdecided.other clean linkless)
    · intro hcode
      by_cases hsuspect : Suspect req
      · exact Or.inl hsuspect
      · have hthere := hdecided.exists_ hsuspect
        rw [← h.known] at hthere
        obtain ⟨name, hname⟩ := Option.isSome_iff_exists.mp hthere
        refine Or.inr ⟨name, hname, ?_⟩
        intro hunder
        rw [reply_status_allowed unrouted r (safePath_inside h hsuspect hname hunder)] at hcode
        exact answered_ne _ _ hcode

namespace Connection

/-- The same of `Process`, for the request that the parser completes. -/
theorem status_right_iff {c : Connection} {env : Env}
    (h : Rooted env.fs c.resourceDir root) (complete : c.parsed.1 = .complete)
    (unrouted : Unrouted c.router c.parsed.2.1.request) :
    StatusRight env.fs c.resourceDir root c.parsed.2.1.request
        (c.process env).2.1.response.statusCode ↔
      Decided env.fs c.resourceDir root c.parsed.2.1.request := by
  rw [process_complete (parsed_eq complete)]
  simp only [store_response]
  exact reply_status_right_iff h unrouted c.response

/-- A page in memory: what is there is a regular file that can be read. -/
theorem status_right_page :
    let env := Env.table [⟨lit "/w", lit "/w", none⟩, ⟨lit "/w/", lit "/w", none⟩,
      ⟨lit "/w/a.txt", lit "/w/a.txt", some (lit "hello")⟩]
    let c := receiving (lit "/w") none (lit "GET /b/../a%2Etxt HTTP/1.1\r\n\r\n")
    StatusRight env.fs c.resourceDir (lit "/w") c.parsed.2.1.request
      (c.process env).2.1.response.statusCode := by
  intro env c
  have hregular : (env.fs.stat (cStr (c.resourceDir ++ normalPath c.parsed.2.1.request))).map
      (·.regular) = some true := by
    decide +kernel
  obtain ⟨found, hfound, hfile⟩ := Option.map_eq_some_iff.mp hregular
  have hindex : indexed (normalPath c.parsed.2.1.request) = normalPath c.parsed.2.1.request := by
    decide +kernel
  have hrooted : Rooted env.fs c.resourceDir (lit "/w") :=
    rooted_table (by decide) (by decide +kernel) (by decide +kernel) (by decide)
  refine (status_right_iff (c := c) hrooted (by decide +kernel) rfl).mpr
    ⟨fun _ => Option.isSome_iff_exists.mpr ⟨found, hfound⟩, ?_⟩
  intro _ _ st hst hother
  rw [hindex, hfound] at hst
  obtain rfl := Option.some.inj hst
  exact absurd (hfile.symm.trans hother) Bool.false_ne_true.symm

/-- A path at which there is nothing is forbidden instead of not found, and a directory is
answered like an empty file. -/
theorem status_wrong :
    let env := Env.table [⟨lit "/w", lit "/w", none⟩, ⟨lit "/w/", lit "/w", none⟩,
      ⟨lit "/w/sub", lit "/w/sub", none⟩]
    let missing := receiving (lit "/w") none (lit "GET /a.html HTTP/1.1\r\n\r\n")
    let directory := receiving (lit "/w") none (lit "GET /sub HTTP/1.1\r\n\r\n")
    Rooted env.fs (lit "/w") (lit "/w") ∧
      ((missing.process env).2.1.response.statusCode = 403 ∧
        ¬StatusRight env.fs (lit "/w") (lit "/w") missing.parsed.2.1.request 403) ∧
      (directory.process env).2.1.response.statusCode = 200 ∧
        ¬StatusRight env.fs (lit "/w") (lit "/w") directory.parsed.2.1.request 200 := by
  intro env missing directory
  have hreal : env.fs.realpath (cStr (lit "/w" ++
      indexed (normalPath directory.parsed.2.1.request))) = some (lit "/w/sub") := by
    decide +kernel
  have hlinkless : Linkless env.fs (lit "/w") (lit "/w")
      (indexed (normalPath directory.parsed.2.1.request)) := by
    intro name hname
    obtain rfl := Option.some.inj (hname.symm.trans hreal)
    decide +kernel
  exact ⟨rooted_table (by decide) (by decide +kernel) (by decide +kernel) (by decide),
    ⟨by decide +kernel, not_right_missing (by decide +kernel) (by decide +kernel)⟩,
    by decide +kernel,
    not_right_other (by decide) (by decide +kernel) hlinkless (by decide +kernel)⟩

end Connection

end WebServer
