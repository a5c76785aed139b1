import WebServer.ConnectionRuns
import WebServer.HeadLines

/-!
# Framing of one response

`Content-Length` is written by `SetBody`, by `SetHeader` and by
`BuildDefaultHeaders`, the last only while `contentLengthSet_` is false. A
response is tidy when a set flag means that the header holds the length of the
body. Every setter keeps that, so the head always announces the length of the
body in the response object. That is the length of what follows on every branch
but one: sendfile leaves the body empty.

`Process` is not always handed a response that was reset. `Composed` says what is
left of an earlier one in any run: the response is tidy, or the parser has finished
with a request that no handler takes, and then every branch but sendfile writes a
new body.

The head is what stands in the bytes before their first blank line, and its lines are
the pieces between the line ends there. One header of the map is one line only while no
text that a handler sets brings a line end of its own.
-/

namespace WebServer

open KeyedList

namespace HttpResponse

/-- What a handler may do to a response, short of setting `Content-Length` itself. -/
inductive Setter where
  | setStatus (code : Int) (status : Str)
  | setText (text : Str)
  | setHtml (html : Str)
  | setBody (body : Str)
  | setHeader (key value : Str) (other : isContentLength key = false)

def Setter.apply (r : HttpResponse) : Setter → HttpResponse
  | .setStatus code status => r.setStatus code status
  | .setText text => r.setText text
  | .setHtml html => r.setHtml html
  | .setBody body => r.setBody body
  | .setHeader key value _ => r.setHeader key value

/-- The texts that a setter brings into the head stay on their lines. -/
def Setter.Fits : Setter → Prop
  | .setStatus _ status => findCrlf status = none
  | .setHeader key value _ => OneLine key value
  | .setText _ | .setHtml _ | .setBody _ => True

/-- The handler reaches its result by a sequence of such setters, chosen as it likes. -/
def OnlySets (handler : Handler) : Prop :=
  ∀ req r, ∃ setters : List Setter, (∀ s ∈ setters, s.Fits) ∧
    handler.respond req r = setters.foldl Setter.apply r

/-! ## Tidy responses -/

/-- A body comes with the flag, the texts of the head stay on their lines, and the length
has no other spelling in the map. -/
structure Clean (r : HttpResponse) : Prop where
  empty : r.contentLengthSet = false → r.body = []
  status : findCrlf r.status = none
  fields : ∀ name value, r.headers.find name = some value → OneLine name value
  spelled : ∀ name value, r.headers.find name = some value → isContentLength name = true →
    name = lit "Content-Length"

structure Tidy (r : HttpResponse) : Prop extends Clean r where
  announced : r.contentLengthSet = true →
    r.headers.find (lit "Content-Length") = some (toDec r.body.length)

theorem tidy_reset : Tidy reset := by
  refine ⟨⟨fun _ => rfl, by decide, ?_, ?_⟩, ?_⟩
  · intro name value hfind
    cases hfind
  · intro name value hfind
    cases hfind
  · intro hset
    cases hset

theorem clean_setStatus {r : HttpResponse} (h : r.Clean) (code : Int) {status : Str}
    (hstatus : findCrlf status = none) : (r.setStatus code status).Clean :=
  ⟨h.empty, hstatus, h.fields, h.spelled⟩

theorem tidy_setStatus {r : HttpResponse} (h : r.Tidy) (code : Int) {status : Str}
    (hstatus : findCrlf status = none) : (r.setStatus code status).Tidy :=
  ⟨clean_setStatus h.toClean code hstatus, h.announced⟩

theorem clean_setKeepAlive {r : HttpResponse} (h : r.Clean) (keepAlive : Bool) :
    (r.setKeepAlive keepAlive).Clean := ⟨h.empty, h.status, h.fields, h.spelled⟩

theorem tidy_setKeepAlive {r : HttpResponse} (h : r.Tidy) (keepAlive : Bool) :
    (r.setKeepAlive keepAlive).Tidy := ⟨clean_setKeepAlive h.toClean keepAlive, h.announced⟩

theorem clean_clearBody {r : HttpResponse} (h : r.Clean) : r.clearBody.Clean :=
  ⟨fun _ => rfl, h.status, h.fields, h.spelled⟩

theorem clean_setHeader {r : HttpResponse} (h : r.Clean) {key value : Str}
    (fits : OneLine key value)
    (hkey : isContentLength key = true → key = lit "Content-Length") :
    (r.setHeader key value).Clean := by
  refine ⟨h.empty, h.status, ?_, ?_⟩
  · intro name v hfind
    by_cases same : name = key
    · obtain rfl : v = value := by
        rw [same] at hfind
        exact Option.some.inj (hfind.symm.trans (Dict.find_insert_self _ _ _))
      exact same ▸ fits
    · exact h.fields name v ((Dict.find_insert_ne r.headers same value).symm.trans hfind)
  · intro name v hfind hname
    by_cases same : name = key
    · exact same ▸ hkey (same ▸ hname)
    · exact h.spelled name v ((Dict.find_insert_ne r.headers same value).symm.trans hfind) hname

theorem oneLine_length (n : Nat) : OneLine (lit "Content-Length") (toDec n) :=
  ⟨by decide, by decide, findCrlf_toDec n⟩

theorem clean_setLength {r : HttpResponse} (h : r.Clean) (n : Nat) :
    (r.setHeader (lit "Content-Length") (toDec n)).Clean :=
  clean_setHeader h (oneLine_length n) fun _ => rfl

theorem clean_setType {r : HttpResponse} (h : r.Clean) {type : Str}
    (htype : findCrlf type = none) : (r.setHeader (lit "Content-Type") type).Clean :=
  clean_setHeader h ⟨by decide, by decide, htype⟩ fun hlen => absurd hlen (by decide)

theorem tidy_setHeader {r : HttpResponse} (h : r.Tidy) {key value : Str}
    (fits : OneLine key value) (hkey : isContentLength key = false) :
    (r.setHeader key value).Tidy := by
  have hne : lit "Content-Length" ≠ key := by
    rintro rfl
    exact absurd hkey (by decide)
  constructor
  · exact clean_setHeader h.toClean fits fun hlen => absurd hlen (by simp [hkey])
  · intro hset
    exact (Dict.find_insert_ne r.headers hne value).trans (h.announced hset)

theorem tidy_setType {r : HttpResponse} (h : r.Tidy) {type : Str}
    (htype : findCrlf type = none) : (r.setHeader (lit "Content-Type") type).Tidy :=
  tidy_setHeader h ⟨by decide, by decide, htype⟩ (by decide)

theorem tidy_setBody {r : HttpResponse} (h : r.Clean) (body : Str) : (r.setBody body).Tidy := by
  have hlength := clean_setLength h body.length
  refine ⟨⟨?_, hlength.status, hlength.fields, hlength.spelled⟩,
    fun _ => Dict.find_insert_self _ _ _⟩
  intro hset
  cases hset

theorem tidy_setText {r : HttpResponse} (h : r.Clean) (text : Str) : (r.setText text).Tidy :=
  tidy_setBody (clean_setType h (by decide)) text

theorem tidy_setHtml {r : HttpResponse} (h : r.Clean) (html : Str) : (r.setHtml html).Tidy :=
  tidy_setBody (clean_setType h (by decide)) html

/-- A status, a body and the type of the body. -/
theorem tidy_page {r : HttpResponse} (h : r.Clean) (code : Int) {status type : Str}
    (hstatus : findCrlf status = none) (htype : findCrlf type = none) (body : Str) :
    (((r.setStatus code status).setBody body).setHeader (lit "Content-Type") type).Tidy :=
  tidy_setType (tidy_setBody (clean_setStatus h code hstatus) body) htype

theorem tidy_setter {r : HttpResponse} (h : r.Tidy) {setter : Setter} (fits : setter.Fits) :
    (setter.apply r).Tidy := by
  cases setter with
  | setStatus code status => exact tidy_setStatus h code fits
  | setText text => exact tidy_setText h.toClean text
  | setHtml html => exact tidy_setHtml h.toClean html
  | setBody body => exact tidy_setBody h.toClean body
  | setHeader key value other => exact tidy_setHeader h fits other

theorem tidy_handler {handler : Handler} (only : OnlySets handler) {r : HttpResponse}
    (h : r.Tidy) (req : HttpRequest) : (handler.respond req r).Tidy := by
  obtain ⟨setters, hfits, hsetters⟩ := only req r
  rw [hsetters]
  clear hsetters
  induction setters generalizing r with
  | nil => exact h
  | cons setter rest ih =>
    obtain ⟨hfirst, hrest⟩ := List.forall_mem_cons.mp hfits
    exact ih (tidy_setter h hfirst) hrest

/-- No type of the table brings a line end. -/
theorem getMime_whole (path : Str) : findCrlf (MimeType.getMime path) = none := by
  have hmap : ∀ entry ∈ MimeType.mimeMap, findCrlf entry.2 = none := by decide
  have hdefault : findCrlf (lit "application/octet-stream") = none := by decide
  rw [MimeType.getMime]
  cases MimeType.extension path with
  | none => exact hdefault
  | some ext =>
    show findCrlf ((MimeType.mimeMap.lookup ext).getD _) = none
    cases hfound : MimeType.mimeMap.lookup ext with
    | none => exact hdefault
    | some type =>
      obtain ⟨before, behind, hmem, -⟩ := List.lookup_eq_some_iff.mp hfound
      exact hmap (ext, type) (hmem ▸ List.mem_append_right _ List.mem_cons_self)

/-- The compression step keeps the response or gives it a new body. -/
theorem gzipBody_cases (env : Env) (req : HttpRequest) (r : HttpResponse) :
    gzipBody env req r = r ∨ ∃ compressed,
      gzipBody env req r =
        (r.setBody compressed).setHeader (lit "Content-Encoding") (lit "gzip") := by
  rw [gzipBody]
  split
  · split
    · exact Or.inl rfl
    · exact Or.inr ⟨_, rfl⟩
  · exact Or.inl rfl

theorem tidy_encoded {r : HttpResponse} (h : r.Clean) (compressed : Str) :
    ((r.setBody compressed).setHeader (lit "Content-Encoding") (lit "gzip")).Tidy :=
  tidy_setHeader (tidy_setBody h compressed) ⟨by decide, by decide, by decide⟩ (by decide)

theorem clean_gzipBody {r : HttpResponse} (h : r.Clean) (env : Env) (req : HttpRequest) :
    (gzipBody env req r).Clean := by
  rcases gzipBody_cases env req r with hsame | ⟨compressed, hbody⟩
  · rw [hsame]
    exact h
  · rw [hbody]
    exact (tidy_encoded h compressed).toClean

theorem tidy_gzipBody {r : HttpResponse} (h : r.Tidy) (env : Env) (req : HttpRequest) :
    (gzipBody env req r).Tidy := by
  rcases gzipBody_cases env req r with hsame | ⟨compressed, hbody⟩
  · rw [hsame]
    exact h
  · rw [hbody]
    exact tidy_encoded h.toClean compressed

theorem tidy_readForGzip {r : HttpResponse} (h : r.Clean) (env : Env) (filename path : Str) :
    (readForGzip env filename path r).1.Tidy := by
  rw [readForGzip]
  split
  · exact tidy_page h _ (by decide) (getMime_whole path) _
  · exact tidy_setText (clean_setStatus h _ (by decide)) _

theorem clean_loaded {env : Env} {dir : Str} {req : HttpRequest} {r : HttpResponse}
    {loaded : HttpResponse × List Str} (h : r.Clean) (hloaded : Loaded env dir req r loaded) :
    loaded.1.Clean := by
  rcases hloaded with hsame | hread
  · exact hsame ▸ h
  · exact hread ▸ (tidy_readForGzip h env _ _).toClean

theorem tidy_readOrError {r : HttpResponse} (h : r.Clean) (env : Env) (dir filename path : Str) :
    (readOrError env dir filename path r).1.Tidy := by
  rw [readOrError]
  split
  · exact tidy_page h _ (by decide) (getMime_whole path) _
  · split
    · exact tidy_page h _ (by decide) (by decide) _
    · exact tidy_setText (clean_setStatus h _ (by decide)) _

/-- The response after the first default header. -/
def typed (r : HttpResponse) : HttpResponse :=
  if r.headers.find (lit "Content-Type") = none then
    r.setHeader (lit "Content-Type") (lit "text/plain") else r

theorem buildDefaultHeaders_eq (r : HttpResponse) : r.buildDefaultHeaders =
    (if r.contentLengthSet then r.typed else
      r.typed.setHeader (lit "Content-Length") (toDec r.body.length)).setHeader
        (lit "Connection") (connectionValue r.keepAlive) := by
  by_cases hnone : r.headers.find (lit "Content-Type") = none <;>
    cases hset : r.contentLengthSet <;> simp [buildDefaultHeaders, typed, hnone, hset, setHeader]

theorem clean_typed {r : HttpResponse} (h : r.Clean) : r.typed.Clean := by
  rw [typed]
  split
  · exact clean_setType h (by decide)
  · exact h

theorem typed_find (r : HttpResponse) :
    r.typed.headers.find (lit "Content-Length") = r.headers.find (lit "Content-Length") := by
  rw [typed]
  split
  · exact Dict.find_insert_ne _ (by decide) _
  · rfl

theorem buildDefaultHeaders_body (r : HttpResponse) : r.buildDefaultHeaders.body = r.body := by
  by_cases hnone : r.headers.find (lit "Content-Type") = none <;>
    cases hset : r.contentLengthSet <;> simp [buildDefaultHeaders, hnone, hset, setHeader]

theorem buildDefaultHeaders_flag (r : HttpResponse) :
    r.buildDefaultHeaders.contentLengthSet = r.contentLengthSet := by
  by_cases hnone : r.headers.find (lit "Content-Type") = none <;>
    cases hset : r.contentLengthSet <;> simp [buildDefaultHeaders, hnone, hset, setHeader]

/-- What the default headers leave under `Content-Length`. -/
theorem buildDefaultHeaders_find (r : HttpResponse) :
    r.buildDefaultHeaders.headers.find (lit "Content-Length") =
      if r.contentLengthSet then r.headers.find (lit "Content-Length")
      else some (toDec r.body.length) := by
  have hne : lit "Content-Length" ≠ lit "Connection" := by decide
  rw [buildDefaultHeaders_eq]
  refine (Dict.find_insert_ne _ hne _).trans ?_
  by_cases hset : r.contentLengthSet = true
  · rw [if_pos hset, if_pos hset, typed_find]
  · rw [if_neg hset, if_neg hset]
    exact Dict.find_insert_self _ _ _

theorem clean_buildDefaultHeaders {r : HttpResponse} (h : r.Clean) :
    r.buildDefaultHeaders.Clean := by
  have hvalue : findCrlf (connectionValue r.keepAlive) = none := by
    cases r.keepAlive <;> decide
  rw [buildDefaultHeaders_eq]
  refine clean_setHeader ?_ ⟨by decide, by decide, hvalue⟩ fun hlen => absurd hlen (by decide)
  split
  · exact clean_typed h
  · exact clean_setLength (clean_typed h) _

theorem tidy_buildDefaultHeaders {r : HttpResponse} (h : r.Tidy) :
    r.buildDefaultHeaders.Tidy := by
  refine ⟨clean_buildDefaultHeaders h.toClean, ?_⟩
  intro hset
  rw [buildDefaultHeaders_flag] at hset
  rw [buildDefaultHeaders_find, if_pos hset, buildDefaultHeaders_body]
  exact h.announced hset

/-- The serialised head of a clean response announces one length. -/
theorem clean_lines {r : HttpResponse} (h : r.Clean) {announced : Str}
    (found : r.buildDefaultHeaders.headers.find (lit "Content-Length") = some announced)
    (o : HeaderOrder) :
    contentLengthLines (r.buildDefaultHeaders.lines o) = [(lit "Content-Length", announced)] :=
  Dict.filter_single r.buildDefaultHeaders.headers isContentLength (by decide) found
    (clean_buildDefaultHeaders h).spelled (o.perm _)

/-- If the response is tidy, that is the length of its body. -/
theorem tidy_lines {r : HttpResponse} (h : r.Tidy) (o : HeaderOrder) :
    contentLengthLines (r.buildDefaultHeaders.lines o) =
      [(lit "Content-Length", toDec r.body.length)] := by
  refine clean_lines h.toClean ?_ o
  rw [buildDefaultHeaders_find]
  by_cases hset : r.contentLengthSet = true
  · rw [if_pos hset, h.announced hset]
  · rw [if_neg hset]

end HttpResponse

open HttpResponse

/-- Every handler that the router has only sets, and sets texts without line ends. -/
def RouterOnlySets (router : Option Router) : Prop :=
  ∀ req handler, router.bind (·.handlerFor req) = some handler → OnlySets handler

/-! ## Framing of a reply -/

/-- The response that the sendfile branch serialises. -/
def sendfileFilled (path : Str) (file : OpenFile) (req : HttpRequest) (r : HttpResponse) :
    HttpResponse :=
  (((r.setStatus 200 (lit "OK")).setHeader (lit "Content-Type") (MimeType.getMime path)).setHeader
    (lit "Content-Length") (toDec file.size)).setKeepAlive req.isKeepAlive

theorem clean_sendfileFilled {r : HttpResponse} (h : r.Clean) (path : Str) (file : OpenFile)
    (req : HttpRequest) : (sendfileFilled path file req r).Clean :=
  clean_setKeepAlive (clean_setLength (clean_setType (clean_setStatus h _ (by decide))
    (getMime_whole path)) _) _

/-- The length of the file stands in the head only if the flag was set before. -/
theorem sendfileFilled_lines {r : HttpResponse} (h : r.Clean) (path : Str) (file : OpenFile)
    (req : HttpRequest) (o : HeaderOrder) :
    contentLengthLines ((sendfileFilled path file req r).buildDefaultHeaders.lines o) =
      [(lit "Content-Length", toDec (if r.contentLengthSet then file.size else 0))] := by
  refine clean_lines (clean_sendfileFilled h path file req) ?_ o
  rw [buildDefaultHeaders_find]
  by_cases hset : r.contentLengthSet = true
  · have hflag : (sendfileFilled path file req r).contentLengthSet = true := hset
    rw [if_pos hset, if_pos hflag]
    exact Dict.find_insert_self _ _ _
  · have hflag : ¬(sendfileFilled path file req r).contentLengthSet = true := hset
    have hbody : (sendfileFilled path file req r).body = [] := h.empty (by simpa using hset)
    rw [if_neg hset, if_neg hflag, hbody, List.length_nil]

/-- What a reply leaves of the response; `Unrouted` requests keep it from being tidy. -/
theorem clean_reply {router : Option Router} (handlers : RouterOnlySets router)
    {r : HttpResponse} (h : r.Clean) {req : HttpRequest} (tidy : ¬Unrouted router req → r.Tidy)
    (env : Env) (dir : Str) :
    (reply env dir router req r).response.Clean ∧
      ((reply env dir router req r).response.Tidy ∨ Unrouted router req) := by
  rcases reply_cases env dir router req r with
    ⟨handler, hrouted, hreply⟩ | ⟨hrefused, code, status, text, hstatus, hreply⟩ |
    ⟨file, hfile, hreply⟩ | ⟨hserved, -, loaded, hloaded, hreply⟩
  · have htidy : r.Tidy := tidy fun hnone => Option.some_ne_none _ (hrouted.symm.trans hnone)
    have hhandled := tidy_handler (handlers _ _ hrouted) htidy req
    have hbuilt := tidy_buildDefaultHeaders (tidy_gzipBody (tidy_setKeepAlive hhandled
      req.isKeepAlive) env req)
    rw [hreply]
    exact ⟨hbuilt.toClean, Or.inl hbuilt⟩
  · rw [hreply]
    exact ⟨clean_buildDefaultHeaders (clean_setKeepAlive
      (tidy_setText (clean_setStatus h code hstatus) text).toClean false), Or.inr hrefused.1⟩
  · rw [hreply]
    exact ⟨clean_buildDefaultHeaders (clean_sendfileFilled h _ file req),
      Or.inr hfile.served.unrouted⟩
  · rw [hreply]
    refine ⟨clean_buildDefaultHeaders (clean_gzipBody ?_ env req), Or.inr hserved.unrouted⟩
    have hread := clean_setKeepAlive (tidy_readOrError (clean_loaded h hloaded) env dir
      (dir ++ servedPath env dir req) (servedPath env dir req)).toClean req.isKeepAlive
    split
    · exact clean_clearBody hread
    · exact hread

namespace Connection

/-- What a call of `Process` appended has one `Content-Length` line before its first blank
line, and that is the number of bytes behind the blank line plus those left to sendfile. -/
def Framed (c c' : Connection) : Prop :=
  ∃ written status lines tail,
    c'.writeBuffer.peekReadable = c.writeBuffer.peekReadable ++ written ∧
    readLines written.length written = some (status :: lines, tail) ∧
    lines.filterMap lengthText =
      [space :: toDec (tail.length + if 0 ≤ c'.sendFileFd then c'.sendFileLen else 0)]

/-- A reply is framed exactly when the length that its head announces is right. -/
theorem framed_store {c : Connection} (hwf : c.writeBuffer.Wf) {env : Env} {p : Reply}
    (h : p.response.Clean) {tail : Str} {announced : Nat}
    (bytes : p.bytes = p.response.head env.order ++ tail)
    (length : contentLengthLines (p.response.lines env.order) =
      [(lit "Content-Length", toDec announced)]) :
    Framed c (c.store env p).1 ↔ announced = tail.length +
      if 0 ≤ (c.store env p).1.sendFileFd then (c.store env p).1.sendFileLen else 0 := by
  have happended : (c.store env p).1.writeBuffer.peekReadable =
      c.writeBuffer.peekReadable ++ (p.response.head env.order ++ tail) := by
    rw [store_writeBuffer, Buffer.append_peekReadable hwf, bytes]
  have hread := readLines_head h.status h.fields env.order tail
  have hfields : ∀ f ∈ p.response.lines env.order, OneLine f.1 f.2 := by
    rintro ⟨name, value⟩ hf
    exact h.fields name value ((Dict.mem_pairs_iff _ _ _).mp ((env.order.perm _).mem_iff.mp hf))
  have htexts : ((p.response.lines env.order).map fieldText).filterMap lengthText =
      [space :: toDec announced] := by
    rw [lengthTexts_written hfields, length]
    rfl
  constructor
  · rintro ⟨written, status, lines, tail', hbytes, hlines, hlength⟩
    rw [happended] at hbytes
    obtain rfl := List.append_cancel_left hbytes
    rw [hread] at hlines
    obtain ⟨hhead, rfl⟩ := Prod.mk.inj (Option.some.inj hlines)
    obtain ⟨-, rfl⟩ := List.cons.inj hhead
    rw [htexts] at hlength
    exact toDec_inj (List.cons.inj (List.singleton_inj.mp hlength)).2
  · intro hlength
    exact ⟨_, _, _, tail, happended, hread, by rw [htexts, hlength]⟩

/-- A reply from memory is framed unless an older file still has bytes left. -/
theorem framed_writeAll {c : Connection} (hwf : c.writeBuffer.Wf) {r : HttpResponse}
    (h : r.Tidy) (env : Env) (opened : List Str) :
    Framed c (c.store env (writeAll env r opened)).1 ↔
      (0 ≤ c.sendFileFd → c.sendFileLen = 0) := by
  have hbytes : (writeAll env r opened).bytes =
      (writeAll env r opened).response.head env.order ++ r.body := by
    simp only [writeAll, HttpResponse.toString, buildDefaultHeaders_body]
  have hkept : (c.store env (writeAll env r opened)).1.sendFileFd = c.sendFileFd ∧
      (c.store env (writeAll env r opened)).1.sendFileLen = c.sendFileLen := ⟨rfl, rfl⟩
  have hclean : (writeAll env r opened).response.Clean := clean_buildDefaultHeaders h.toClean
  rw [framed_store hwf hclean hbytes (tidy_lines h env.order), hkept.1, hkept.2]
  by_cases hopen : 0 ≤ c.sendFileFd
  · rw [if_pos hopen]
    exact ⟨fun hlength _ => by omega, fun hleft => by rw [hleft hopen, Nat.add_zero]⟩
  · rw [if_neg hopen]
    exact iff_of_true rfl fun hyes => absurd hyes hopen

/-- The sendfile branch announces nothing, unless the flag was set before. -/
theorem framed_sendfileReply {c : Connection} (hwf : c.writeBuffer.Wf) {r : HttpResponse}
    (h : r.Clean) (env : Env) (filename path : Str) (file : OpenFile) (req : HttpRequest) :
    Framed c (c.store env (sendfileReply env filename path file req r)).1 ↔
      file.size = 0 ∨ r.contentLengthSet = true := by
  have hbytes : (sendfileReply env filename path file req r).bytes =
      (sendfileReply env filename path file req r).response.head env.order ++ [] :=
    (List.append_nil _).symm
  have hopen : (0 : Int) ≤ env.nextFd := Int.natCast_nonneg _
  have hkept : (c.store env (sendfileReply env filename path file req r)).1.sendFileFd =
      env.nextFd ∧ (c.store env (sendfileReply env filename path file req r)).1.sendFileLen =
        file.size := ⟨rfl, rfl⟩
  have hclean : (sendfileReply env filename path file req r).response.Clean :=
    clean_buildDefaultHeaders (clean_sendfileFilled h path file req)
  rw [framed_store hwf hclean hbytes (sendfileFilled_lines h path file req env.order), hkept.1,
    hkept.2, if_pos hopen, List.length_nil, Nat.zero_add]
  by_cases hset : r.contentLengthSet = true
  · rw [if_pos hset]
    exact iff_of_true rfl (Or.inr hset)
  · rw [if_neg hset]
    exact ⟨fun hlength => Or.inl hlength.symm, fun hsize => (hsize.resolve_right hset).symm⟩

/-! ## What is left of an earlier response -/

/-- The response that `Process` is handed, and how it fits the parser. -/
structure Composed (c : Connection) : Prop where
  handlers : RouterOnlySets c.router
  clean : c.response.Clean
  tidy : c.response.Tidy ∨
    c.context.state = .finish ∧ Unrouted c.router c.context.request

/-- What must hold when `Process` takes up a request: a nonempty file for sendfile finds
the flag set, and no other reply finds a file with bytes left. -/
structure Measured (env : Env) (c : Connection) (req : HttpRequest) : Prop where
  sendfile : ∀ file, BySendfile env c.resourceDir c.router req file →
    file.size = 0 ∨ c.response.contentLengthSet = true
  memory : ¬LeavesFile env c.resourceDir c.router req → 0 ≤ c.sendFileFd → c.sendFileLen = 0

/-- A finished parser answers with the request it has. -/
theorem parsed_finish {c : Connection} (h : c.context.state = .finish) :
    c.parsed = (.complete, { c.context with complete := true }, c.readBuffer) := by
  simp [parsed, HttpContext.parseRequest, HttpContext.parseLoop, h]

/-- If the response is not tidy, the request taken up is one that no handler takes. -/
theorem tidy_of_routed {c : Connection} (h : Composed c) {ctx : HttpContext} {rest : Buffer}
    (parsed : c.parsed = (.complete, ctx, rest)) (routed : ¬Unrouted c.router ctx.request) :
    c.response.Tidy := by
  rcases h.tidy with htidy | ⟨hfinish, hunrouted⟩
  · exact htidy
  · rw [parsed_finish hfinish] at parsed
    obtain rfl := (Prod.mk.inj (Prod.mk.inj parsed).2).1
    exact absurd hunrouted routed

theorem framed_iff {env : Env} {c : Connection} {ctx : HttpContext} {rest : Buffer}
    (hwf : c.writeBuffer.Wf) (h : Composed c) (parsed : c.parsed = (.complete, ctx, rest))
    (notHead : ctx.request.method ≠ lit "HEAD") :
    Framed c (c.process env).2.1 ↔ Measured env c ctx.request := by
  rw [process_complete parsed]
  have hmemory : ∀ {r : HttpResponse} (opened : List Str), r.Tidy →
      ¬LeavesFile env c.resourceDir c.router ctx.request →
      (Framed c ({ c with context := ctx, readBuffer := rest }.store env
        (writeAll env r opened)).1 ↔ Measured env c ctx.request) := by
    intro r opened htidy hnone
    refine (framed_writeAll (c := { c with context := ctx, readBuffer := rest })
      hwf htidy env opened).trans ?_
    exact ⟨fun hleft => ⟨fun file hfile => absurd ⟨file, hfile⟩ hnone, fun _ => hleft⟩,
      fun hmeasured => hmeasured.memory hnone⟩
  rcases reply_cases env c.resourceDir c.router ctx.request c.response with
    ⟨handler, hrouted, hreply⟩ | ⟨hrefused, code, status, text, hstatus, hreply⟩ |
    ⟨file, hfile, hreply⟩ | ⟨hserved, hnone, loaded, hloaded, hreply⟩
  · rw [hreply]
    have hnot : ¬Unrouted c.router ctx.request :=
      fun hnone => Option.some_ne_none _ (hrouted.symm.trans hnone)
    have htidy := tidy_of_routed h parsed hnot
    have hhandled := tidy_handler (h.handlers _ _ hrouted) htidy ctx.request
    refine hmemory _ (tidy_gzipBody (tidy_setKeepAlive hhandled _) env _) ?_
    rintro ⟨file, hfile⟩
    exact hnot hfile.served.unrouted
  · rw [hreply]
    have htext := tidy_setText (clean_setStatus h.clean code hstatus) text
    refine hmemory _ (tidy_setKeepAlive htext false) ?_
    rintro ⟨file, hfile⟩
    exact not_refused hfile.served hrefused
  · rw [hreply]
    refine (framed_sendfileReply (c := { c with context := ctx, readBuffer := rest })
      hwf h.clean env _ _ file ctx.request).trans ?_
    constructor
    · intro hsize
      refine ⟨?_, fun hnone => absurd ⟨file, hfile⟩ hnone⟩
      intro other hother
      obtain rfl : other = file := Option.some.inj (hother.opens.symm.trans hfile.opens)
      exact hsize
    · exact fun hmeasured => hmeasured.sendfile file hfile
  · rw [hreply]
    simp only [readReply, if_neg notHead]
    refine hmemory _ (tidy_gzipBody (tidy_setKeepAlive
      (tidy_readOrError (clean_loaded h.clean hloaded) env _ _ _) _) env _) ?_
    rintro ⟨file, hfile⟩
    exact hnone file hfile

/-! ## Every run keeps the response composed -/

theorem composed_ready {c : Connection} (ready : c.Ready) (handlers : RouterOnlySets c.router) :
    Composed c :=
  ⟨handlers, ready.response ▸ tidy_reset.toClean, Or.inl (ready.response ▸ tidy_reset)⟩

theorem composed_onResponseFinished {c : Connection} (h : Composed c) :
    Composed c.onResponseFinished.2.1 := by
  have hend := onResponseFinished_end c
  generalize c.onResponseFinished.2 = out at hend ⊢
  cases hend with
  | kept =>
    by_cases hopen : 0 ≤ c.sendFileFd
    · simp only [resetForNextRequest, if_pos hopen]
      exact ⟨h.handlers, tidy_reset.toClean, Or.inl tidy_reset⟩
    · simp only [resetForNextRequest, if_neg hopen]
      exact ⟨h.handlers, tidy_reset.toClean, Or.inl tidy_reset⟩
  | closed => exact ⟨h.handlers, h.clean, h.tidy⟩

theorem composed_writeDone {c : Connection} (h : Composed c) : Composed c.writeDone.1 :=
  composed_onResponseFinished (c := disableWriteEvent { c with writeState := .idle })
    ⟨h.handlers, h.clean, h.tidy⟩

theorem composed_sendFile {c : Connection} (h : Composed c) (files : Transfers) :
    Composed (c.sendFile files).1 := by
  have hend := sendFile_end c files
  generalize c.sendFile files = out at hend ⊢
  cases hend with
  | noFile => exact composed_writeDone h
  | waiting => exact ⟨h.handlers, h.clean, h.tidy⟩
  | failed => exact ⟨h.handlers, h.clean, h.tidy⟩
  | drained => exact composed_writeDone ⟨h.handlers, h.clean, h.tidy⟩

theorem composed_handleWrite {c : Connection} (hwf : c.writeBuffer.Wf) (h : Composed c)
    (sends files : Transfers) : Composed (c.handleWrite sends files).1 := by
  have hend := handleWrite_end hwf sends files
  generalize c.handleWrite sends files = out at hend ⊢
  cases hend with
  | drained b => exact composed_sendFile (c := c.writing b) ⟨h.handlers, h.clean, h.tidy⟩ files
  | stalled b =>
    exact composed_onResponseFinished (c := c.unfinished b) ⟨h.handlers, h.clean, h.tidy⟩
  | waiting => exact ⟨h.handlers, h.clean, h.tidy⟩
  | failed => exact ⟨h.handlers, h.clean, h.tidy⟩

theorem composed_trySend {c : Connection} (hwf : c.writeBuffer.Wf) (h : Composed c)
    (sends : Transfers) : Composed (c.trySend sends).1 := by
  have hend := trySend_end hwf sends
  generalize c.trySend sends = out at hend ⊢
  cases hend with
  | finished => exact composed_onResponseFinished ⟨h.handlers, h.clean, h.tidy⟩
  | waiting => exact ⟨h.handlers, h.clean, h.tidy⟩
  | failed => exact ⟨h.handlers, h.clean, h.tidy⟩

theorem tidy_of_unfinished {c : Connection} (h : Composed c) (hparsed : c.parsed.1 ≠ .complete) :
    c.response.Tidy := by
  rcases h.tidy with htidy | ⟨hfinish, -⟩
  · exact htidy
  · rw [parsed_finish hfinish] at hparsed
    exact absurd rfl hparsed

theorem composed_processInWorker {c : Connection} (hwf : c.readBuffer.Wf) (h : Composed c)
    (env : Env) : Composed (c.processInWorker env).1 := by
  have hend := processInWorker_end hwf env
  generalize c.processInWorker env = out at hend ⊢
  cases hend with
  | incomplete ctx rest _ hparsed =>
    have htidy : c.response.Tidy := tidy_of_unfinished h (by simp [hparsed])
    exact ⟨h.handlers, h.clean, Or.inl htidy⟩
  | error ctx rest _ hparsed =>
    have hbad : (badRequest c.response).Tidy :=
      tidy_setKeepAlive (tidy_setText (clean_setStatus h.clean _ (by decide)) _) false
    exact ⟨h.handlers, hbad.toClean, Or.inl hbad⟩
  | complete ctx rest _ hparsed =>
    have hfinish : ctx.state = .finish := HttpContext.parseRequest_accepts hwf hparsed
    obtain ⟨hclean, htidy⟩ := clean_reply h.handlers h.clean (tidy_of_routed h hparsed) env
      c.resourceDir
    generalize reply env c.resourceDir c.router ctx.request c.response = p at hclean htidy ⊢
    have hrouter := store_router { c with context := ctx, readBuffer := rest } env p
    have hresponse := store_response { c with context := ctx, readBuffer := rest } env p
    have hcontext := store_context { c with context := ctx, readBuffer := rest } env p
    refine ⟨hrouter.symm ▸ h.handlers, hresponse.symm ▸ hclean, ?_⟩
    rcases htidy with htidy | hunrouted
    · exact Or.inl (hresponse.symm ▸ htidy)
    · exact Or.inr ⟨hcontext.symm ▸ hfinish, by simpa only [hrouter, hcontext] using hunrouted⟩

theorem composed_handleRead {c : Connection} (hwf : c.readBuffer.Wf) (h : Composed c) (env : Env)
    (arrival : Arrival) : Composed (c.handleRead env arrival).1 := by
  have hend := handleRead_end hwf env arrival
  generalize c.handleRead env arrival = out at hend ⊢
  cases hend with
  | closing => exact ⟨h.handlers, h.clean, h.tidy⟩
  | reading => exact ⟨h.handlers, h.clean, h.tidy⟩
  | processing b packets hb =>
    exact composed_processInWorker (c := { c with readBuffer := b, state := .processing }) hb
      ⟨h.handlers, h.clean, h.tidy⟩ env

theorem composed_call {c : Connection} (hwf : BuffersWf c) (h : Composed c) (cb : Callback)
    (env : Env) (sends : Transfers) : Composed (c.call cb env sends).1 := by
  cases cb with
  | trySend =>
    by_cases hclosed : c.state = .closed
    · simpa only [call, if_pos hclosed] using h
    · simpa only [call, if_neg hclosed] using composed_trySend hwf.write h sends
  | processInWorker => exact composed_processInWorker hwf.read h env
  | handleClose => exact h
  | removeConnection => exact h

theorem composed_close {c : Connection} (h : Composed c) : Composed c.close.1 := by
  by_cases hopen : 0 ≤ c.sendFileFd
  · rw [close, if_pos hopen]
    exact ⟨h.handlers, h.clean, h.tidy⟩
  · rw [close, if_neg hopen]
    exact ⟨h.handlers, h.clean, h.tidy⟩

end Connection

open Connection

namespace Sys

theorem composed_step {s t : Sys} {a : Act} (hwf : BuffersWf s.conn) (h : Composed s.conn)
    (hstep : s.step a = some t) : Composed t.conn := by
  cases taken_of_step hstep with
  | readable env arrival => exact composed_handleRead hwf.read h env arrival
  | writable sends files => exact composed_handleWrite hwf.write h sends files
  | hangup => exact h
  | swap => exact h
  | run env sends cb rest => exact composed_call hwf h cb env sends
  | release => exact composed_close h

theorem composed_run {c : Connection} (fresh : Fresh c) (handlers : RouterOnlySets c.router)
    {as : List Act} {s : Sys} (run : exec (start c) as = some s) :
    BuffersWf s.conn ∧ Composed s.conn :=
  GuardedRuns.invariant_of_run (fun s => BuffersWf s.conn ∧ Composed s.conn)
    (fun _ _ _ h hstep => ⟨buffersWf_step h.1 hstep, composed_step h.1 h.2 hstep⟩)
    ⟨⟨fresh.ready.readBuffer, fresh.ready.writeBuffer⟩, composed_ready fresh.ready handlers⟩ run

/-- In every state of every run, whatever has been read since, a call of `Process` that
completes a request frames its response exactly when the request is measured. -/
theorem process_framed_iff {c : Connection} (fresh : Fresh c) (handlers : RouterOnlySets c.router)
    {as : List Act} {s : Sys} (run : exec (start c) as = some s) {taken : Connection}
    (since : taken = { s.conn with readBuffer := taken.readBuffer, state := taken.state })
    {env : Env} {ctx : HttpContext} {rest : Buffer}
    (parsed : taken.parsed = (.complete, ctx, rest)) (notHead : ctx.request.method ≠ lit "HEAD") :
    (taken.process env).1 = .complete ∧
      (Framed taken (taken.process env).2.1 ↔ Measured env taken ctx.request) := by
  obtain ⟨hwf, hcomposed⟩ := composed_run fresh handlers run
  have hwrite : taken.writeBuffer.Wf := by
    rw [since]
    exact hwf.write
  have htaken : Composed taken := by
    rw [since]
    exact ⟨hcomposed.handlers, hcomposed.clean, hcomposed.tidy⟩
  constructor
  · rw [process_complete parsed]
  · exact framed_iff hwrite htaken parsed notHead

/-- A request for a file that does not exist, answered from memory. -/
theorem process_framed_missing :
    let env := Env.table [⟨lit "/w", lit "/w", none⟩, ⟨lit "/w/a", lit "/w/a", none⟩]
    let c := { enableReadEvent (new 5 (lit "/w") (some {})) with
      readBuffer := (Buffer.new 1024).append (lit "GET /a HTTP/1.1\r\n\r\n")
      state := .processing }
    (c.process env).1 = .complete ∧ Framed c (c.process env).2.1 := by
  intro env c
  have hcomplete : c.parsed.1 = .complete := by decide +kernel
  have handlers : RouterOnlySets c.router := by
    intro req handler h
    obtain ⟨method, path, version, body, methodType, headers⟩ := req
    cases methodType <;> cases h
  have notHead : c.parsed.2.1.request.method ≠ lit "HEAD" := by decide +kernel
  have measured : Measured env c c.parsed.2.1.request := by
    constructor
    · intro file hfile
      exact absurd hfile.static (by decide +kernel)
    · intro _ hopen
      exact absurd hopen (by decide)
  have hfresh := fresh_new 5 (lit "/w") (some {})
  obtain ⟨hresult, hiff⟩ := @process_framed_iff _ hfresh handlers [] _ rfl c rfl env _ _
    (parsed_eq hcomplete) notHead
  exact ⟨hresult, hiff.mpr measured⟩

end Sys

namespace Connection

/-- A five-byte file served by sendfile is announced with length zero. -/
theorem process_sendfile_unframed :
    let env := Env.table
      [⟨lit "/w", lit "/w", none⟩, ⟨lit "/w/a.bin", lit "/w/a.bin", some (lit "hello")⟩]
    let c := receiving (lit "/w") none (lit "GET /a.bin HTTP/1.1\r\n\r\n")
    c.Ready ∧ (c.process env).1 = .complete ∧
      (c.process env).2.1.context.request.method = lit "GET" ∧
      ¬Framed c (c.process env).2.1 := by
  intro env c
  refine ⟨ready_receiving _ _ _, by decide +kernel, by decide +kernel, ?_⟩
  rintro ⟨written, status, lines, tail, hbytes, hlines, hlength⟩
  have hwritten : (c.process env).2.1.writeBuffer.peekReadable = written := hbytes
  have hannounced : (readLines written.length written).map (fun out =>
      (out.1.tail.filterMap lengthText, out.2.length)) = some ([space :: toDec 0], 0) := by
    rw [← hwritten]
    decide +kernel
  have hleft : (0 : Int) ≤ (c.process env).2.1.sendFileFd ∧
      (c.process env).2.1.sendFileLen = 5 := by decide +kernel
  rw [hlines] at hannounced
  obtain ⟨htexts, htail⟩ := Prod.mk.inj (Option.some.inj hannounced)
  have hboth : [space :: toDec 0] = [space :: toDec 5] := by
    rw [if_pos hleft.1, hleft.2, show tail.length = 0 from htail] at hlength
    exact htexts.symm.trans hlength
  exact absurd hboth (by decide)

/-- A text with a line end of its own puts a second length on the wire. -/
example :
    let c := receiving (lit "/w") (some (Router.get {} (lit "/x")
      { respond := fun _ r => r.setHeader (lit "X") (lit "a\r\nContent-Length: 7") }))
      (lit "GET /x HTTP/1.1\r\n\r\n")
    let written := (c.process (Env.table [])).2.1.writeBuffer.peekReadable
    (readLines written.length written).map (fun out => out.1.tail.filterMap lengthText) =
      some [lit " 7", lit " 0"] := by
  decide +kernel

end Connection

end WebServer
