import WebServer.ParserStream

/-!
# Requests on the wire

The written form of a request and its reading back. A wire request carries the
conditions on its fields, so that everything it encodes is well formed; several
of them may stand one after another on the same connection, followed by any
bytes. No claim is made here about byte strings of another shape.
-/

namespace WebServer

open Resumable HttpContext

/-- Not empty and free of the blanks that end a word. -/
def IsToken (s : Str) : Prop := s ≠ [] ∧ ∀ b ∈ s, isSpace b = false

def IsFieldName (s : Str) : Prop :=
  s ≠ [] ∧ ∀ b ∈ s, b < 128 ∧ b ≠ colon ∧ b ≠ cr ∧ b ≠ lf

instance (s : Str) : Decidable (IsToken s) :=
  decidable_of_iff (s ≠ [] ∧ s.all (fun b => !isSpace b) = true) (by simp [IsToken])

instance (s : Str) : Decidable (IsFieldName s) :=
  decidable_of_iff
    (s ≠ [] ∧ s.all (fun b => decide (b < 128 ∧ b ≠ colon ∧ b ≠ cr ∧ b ≠ lf)) = true)
    (by simp [IsFieldName])

def IsFieldValue (s : Str) : Prop := s ≠ [] ∧ cr ∉ s ∧ lf ∉ s ∧ s.head? ≠ some space

/-- The field name in any letter case. -/
def isContentLength (field : Str × Str) : Bool := lower field.1 = lit "content-length"

structure WireRequest where
  method : Str
  target : Str
  version : Str
  fields : List (Str × Str)
  body : Str
  method_token : IsToken method
  target_token : IsToken target
  version_token : IsToken version
  names : ∀ f ∈ fields, IsFieldName f.1
  values : ∀ f ∈ fields, IsFieldValue f.2
  distinct : KeyedList.Keyed fields
  body_size : body.length ≤ maxBodySize
  framed : (fields.filter isContentLength = [] ∧ body = []) ∨
    ∃ name, fields.filter isContentLength = [(name, toDec body.length)]

namespace WireRequest

def startLine (r : WireRequest) : Str :=
  r.method ++ [space] ++ r.target ++ [space] ++ r.version

/-- `name: value` -/
def fieldLine (f : Str × Str) : Str := f.1 ++ [colon, space] ++ f.2

def encode (r : WireRequest) : Str :=
  r.startLine ++ crlf ++ r.fields.flatMap (fun f => fieldLine f ++ crlf) ++ crlf ++ r.body

/-- The request object that the parser should build. -/
def request (r : WireRequest) : HttpRequest where
  method := r.method
  path := r.target
  version := r.version
  body := r.body
  methodType := HttpRequest.methodOf r.method
  headers := r.fields

end WireRequest

open WireRequest

theorem take_line (line more : Str) : (line ++ crlf ++ more).take line.length = line := by
  rw [List.append_assoc, List.take_left]

theorem drop_line (line more : Str) : (line ++ crlf ++ more).drop (line.length + 2) = more := by
  have hl : line.length + 2 = (line ++ crlf).length := by simp [crlf]
  rw [hl, List.drop_left]

theorem extract_token {tok : Str} (h : IsToken tok) (rest old : Str)
    (ended : rest = [] ∨ rest.head? = some space) :
    HttpRequest.extract (tok ++ rest) old = (tok, rest) := by
  obtain ⟨hne, hns⟩ := h
  have hdrop : (tok ++ rest).dropWhile isSpace = tok ++ rest := by
    cases tok with
    | nil => exact False.elim (hne rfl)
    | cons b bs => simp [hns b List.mem_cons_self]
  have hall : ∀ b ∈ tok, (!isSpace b) = true := fun b hb => by simp [hns b hb]
  have htake : (tok ++ rest).takeWhile (!isSpace ·) = tok ∧
      (tok ++ rest).dropWhile (!isSpace ·) = rest := by
    rw [List.takeWhile_append_of_pos hall, List.dropWhile_append_of_pos hall]
    rcases ended with rfl | hsp
    · simp
    · obtain ⟨rest', rfl⟩ : ∃ rest', rest = space :: rest' := by
        cases rest with
        | nil => cases hsp
        | cons b bs => exact ⟨bs, by rw [Option.some.inj hsp]⟩
      have hb : isSpace space = true := by decide
      simp [hb]
  have hnil : tok ++ rest ≠ [] := by simp [hne]
  simp only [HttpRequest.extract, hdrop, if_neg hnil, htake.1, htake.2]

theorem extract_space (s old : Str) :
    HttpRequest.extract (space :: s) old = HttpRequest.extract s old := by
  have hb : isSpace space = true := by decide
  simp [HttpRequest.extract, hb]

theorem parseStartLine_startLine (r : WireRequest) (old : HttpRequest) :
    old.parseStartLine r.startLine =
      (true, { old with method := r.method, path := r.target, version := r.version,
                        methodType := HttpRequest.methodOf r.method }) := by
  have h1 : HttpRequest.extract r.startLine old.method =
      (r.method, space :: (r.target ++ space :: r.version)) := by
    have hs : r.startLine = r.method ++ space :: (r.target ++ space :: r.version) := by
      simp [startLine]
    rw [hs]
    exact extract_token r.method_token _ _ (Or.inr rfl)
  have h2 : HttpRequest.extract (space :: (r.target ++ space :: r.version)) old.path =
      (r.target, space :: r.version) := by
    rw [extract_space]
    exact extract_token r.target_token _ _ (Or.inr rfl)
  have h3 : HttpRequest.extract (space :: r.version) old.version = (r.version, []) := by
    have ht := extract_token r.version_token [] old.version (Or.inl rfl)
    rw [List.append_nil] at ht
    rw [extract_space, ht]
  simp [HttpRequest.parseStartLine, HttpRequest.parseRequestLine, h1, h2, h3,
    r.method_token.1, r.target_token.1, r.version_token.1]

theorem cr_not_mem_token {tok : Str} (h : IsToken tok) : cr ∉ tok := by
  intro hmem
  have hs : isSpace cr = true := by decide
  have := h.2 cr hmem
  rw [hs] at this
  cases this

theorem cr_not_mem_startLine (r : WireRequest) : cr ∉ r.startLine := by
  have hsp : cr ≠ space := by decide
  simp [startLine, cr_not_mem_token r.method_token, cr_not_mem_token r.target_token,
    cr_not_mem_token r.version_token, hsp]

/-- A field line as the parser may meet it; a content-length line holds a number. -/
structure GoodField (f : Str × Str) : Prop where
  name : IsFieldName f.1
  value : IsFieldValue f.2
  number : isContentLength f = true → ∃ n, stoul f.2 = some n

theorem cr_not_mem_fieldLine {f : Str × Str} (h : GoodField f) : cr ∉ fieldLine f := by
  have hname : cr ∉ f.1 := fun hmem => (h.name.2 cr hmem).2.2.1 rfl
  have hc : cr ≠ colon := by decide
  have hs : cr ≠ space := by decide
  simp [fieldLine, hname, h.value.2.1, hc, hs]

theorem fieldLine_ne_nil {f : Str × Str} : fieldLine f ≠ [] := by
  simp [fieldLine]

theorem splitAtByte_fieldLine {f : Str × Str} (h : GoodField f) :
    splitAtByte colon (fieldLine f) = some (f.1, space :: f.2) := by
  have hname : colon ∉ f.1 := fun hmem => (h.name.2 colon hmem).2.1 rfl
  have hline : fieldLine f = f.1 ++ colon :: space :: f.2 := by simp [fieldLine]
  rw [hline, splitAtByte_first hname]

theorem headerValue_space {value : Str} (h : IsFieldValue value) :
    headerValue (space :: value) = value := by
  obtain ⟨hne, _, _, hhead⟩ := h
  cases value with
  | nil => exact False.elim (hne rfl)
  | cons b bs =>
    have hb : b ≠ space := fun hb => hhead (by rw [hb]; rfl)
    simp [headerValue, hb]

/-- The number a field declares as the body length, if it does. -/
def declare (n : Nat) (f : Str × Str) : Nat :=
  if isContentLength f then (stoul f.2).getD 0 else n

theorem parseHeaderLine_fieldLine {f : Str × Str} (h : GoodField f) (ctx : HttpContext) :
    ctx.parseHeaderLine (fieldLine f) =
      (true, { ctx with request := ctx.request.setHeader f.1 f.2,
                        contentLength := declare ctx.contentLength f }) := by
  simp only [parseHeaderLine, splitAtByte_fieldLine h, headerValue_space h.value]
  by_cases hcl : lower f.1 = lit "content-length"
  · have hfield : isContentLength f = true := by simp [isContentLength, hcl]
    obtain ⟨n, hn⟩ := h.number hfield
    simp [hcl, hn, declare, hfield]
  · have hfield : isContentLength f = false := by simp [isContentLength, hcl]
    simp [hcl, declare, hfield]

theorem leads_fieldLine {ctx : HttpContext} (hs : ctx.state = .headers) {f : Str × Str}
    (h : GoodField f) (more : Str) :
    Leads move ctx (fieldLine f ++ crlf ++ more)
      { ctx with request := ctx.request.setHeader f.1 f.2,
                 contentLength := declare ctx.contentLength f } more := by
  have hm : move ctx (fieldLine f ++ crlf ++ more) =
      .advance { ctx with request := ctx.request.setHeader f.1 f.2,
                          contentLength := declare ctx.contentLength f }
        ((fieldLine f).length + 2) := by
    have hcrlf := findCrlf_line (findCrlf_noCr (cr_not_mem_fieldLine h)) more
    simp only [move, hs, hcrlf, headerMove, take_line,
      if_neg fieldLine_ne_nil, parseHeaderLine_fieldLine h]
    rfl
  have lead := leads_advance hm
  rwa [drop_line] at lead

/-- All field lines of a head, by induction on the fields still to be read. -/
theorem leads_fields {fields : List (Str × Str)} {ctx : HttpContext}
    (hs : ctx.state = .headers) (good : ∀ f ∈ fields, GoodField f) (more : Str) :
    Leads move ctx (fields.flatMap (fun f => fieldLine f ++ crlf) ++ more)
      { ctx with
        request := { ctx.request with
          headers := fields.foldl (fun m p => KeyedList.put m p.1 p.2) ctx.request.headers }
        contentLength := fields.foldl declare ctx.contentLength } more := by
  induction fields generalizing ctx with
  | nil => exact leads_refl move ctx more
  | cons f rest ih =>
    have first := leads_fieldLine hs (good f List.mem_cons_self)
      (rest.flatMap (fun f => fieldLine f ++ crlf) ++ more)
    rw [List.flatMap_cons, List.append_assoc]
    refine leads_trans first ?_
    exact ih (by exact hs) fun g hg => good g (List.mem_cons_of_mem _ hg)

theorem goodField (r : WireRequest) {f : Str × Str} (hf : f ∈ r.fields) : GoodField f where
  name := r.names f hf
  value := r.values f hf
  number hcl := by
    have hmem : f ∈ r.fields.filter isContentLength := List.mem_filter.mpr ⟨hf, hcl⟩
    rcases r.framed with ⟨hnone, _⟩ | ⟨name, hone⟩
    · rw [hnone] at hmem
      cases hmem
    · rw [hone, List.mem_singleton] at hmem
      have hsize := r.body_size
      simp only [maxBodySize] at hsize
      exact ⟨r.body.length, by rw [hmem]; exact stoul_toDec (by omega)⟩

/-- Only the content-length fields matter for the declared length. -/
theorem foldl_declare (fields : List (Str × Str)) (n : Nat) :
    fields.foldl declare n =
      (fields.filter isContentLength).foldl (fun _ f => (stoul f.2).getD 0) n := by
  rw [List.foldl_filter]
  rfl

theorem declared_length (r : WireRequest) : r.fields.foldl declare 0 = r.body.length := by
  rw [foldl_declare]
  rcases r.framed with ⟨hnone, hbody⟩ | ⟨name, hone⟩
  · rw [hnone, hbody]
    rfl
  · have hsize := r.body_size
    simp only [maxBodySize] at hsize
    have hn : stoul (toDec r.body.length) = some r.body.length := stoul_toDec (by omega)
    simp [hone, hn]

/-- The context after the last field line. -/
def headRead (r : WireRequest) : HttpContext where
  request := { r.request with body := [] }
  state := .headers
  contentLength := r.body.length

/-- The context after the blank line, and after the body if there is one. -/
def bodyRead (r : WireRequest) : HttpContext where
  request := r.request
  state := .finish
  contentLength := r.body.length

/-- The context in which `ParseRequest` leaves a complete request. -/
def parsed (r : WireRequest) : HttpContext := { bodyRead r with complete := true }

theorem drives_bodyRead (r : WireRequest) (t : Str) :
    Drives move (bodyRead r) t (some true) (parsed r) t := by
  have hm : move (bodyRead r) t = .halt true (parsed r) 0 := rfl
  exact .halt hm

theorem leads_body (r : WireRequest) (t : Str) :
    Leads move { headRead r with state := .body } (r.body ++ t) (bodyRead r) t := by
  have hm : move { headRead r with state := .body } (r.body ++ t) =
      .advance (bodyRead r) r.body.length := by
    have enough : ¬ (r.body ++ t).length < r.body.length := by
      rw [List.length_append]
      omega
    simp only [move, bodyMove, headRead, if_neg (Nat.not_lt.mpr r.body_size), if_neg enough,
      List.take_left]
    rfl
  have lead := leads_advance hm
  rwa [List.drop_left] at lead

/-- The blank line, the body if there is one, and the end. -/
theorem drives_tail (r : WireRequest) (t : Str) :
    Drives move (headRead r) (crlf ++ (r.body ++ t)) (some true) (parsed r) t := by
  have blank : move (headRead r) (crlf ++ (r.body ++ t)) =
      .advance { headRead r with state := if 0 < r.body.length then .body else .finish } 2 := by
    have hcrlf := @findCrlf_line [] rfl (r.body ++ t)
    simp only [List.nil_append, List.length_nil] at hcrlf
    simp only [move, headRead, hcrlf, headerMove, List.take_zero, if_true]
    rfl
  refine .advance blank ?_
  have hdrop : (crlf ++ (r.body ++ t)).drop 2 = r.body ++ t := rfl
  rw [hdrop]
  by_cases hbody : 0 < r.body.length
  · rw [if_pos hbody]
    exact leads_body r t _ _ _ (drives_bodyRead r t)
  · have hnil : r.body = [] := List.length_eq_zero_iff.mp (by omega)
    have hctx : { headRead r with state := .finish } = bodyRead r := by
      simp [headRead, bodyRead, WireRequest.request, hnil]
    rw [if_neg hbody, hctx, hnil, List.nil_append]
    exact drives_bodyRead r t

/-- One encoded request is read completely and exactly, whatever follows it. -/
theorem drives_encode (r : WireRequest) (t : Str) :
    Drives move reset (r.encode ++ t) (some true) (parsed r) t := by
  let fieldBytes := r.fields.flatMap (fun f => fieldLine f ++ crlf)
  have hinput : r.encode ++ t = r.startLine ++ crlf ++ (fieldBytes ++ (crlf ++ (r.body ++ t))) := by
    simp [encode, fieldBytes]
  have start : move reset (r.encode ++ t) =
      .advance { request := { method := r.method, path := r.target, version := r.version,
                              methodType := HttpRequest.methodOf r.method }
                 state := .headers } (r.startLine.length + 2) := by
    have hcrlf := findCrlf_line (findCrlf_noCr (cr_not_mem_startLine r))
      (fieldBytes ++ (crlf ++ (r.body ++ t)))
    rw [hinput]
    simp only [move, reset, hcrlf, startMove, take_line, parseStartLine_startLine]
    rfl
  refine .advance start ?_
  rw [hinput, drop_line]
  apply leads_fields rfl (fun f (hf : f ∈ r.fields) => goodField r hf)
  have hheaders : r.fields.foldl (fun m p => KeyedList.put m p.1 p.2) [] = r.fields :=
    KeyedList.foldl_put_distinct (by simpa using r.distinct)
  simp only [hheaders, declared_length]
  exact drives_tail r t

/-- Run ParseRequest, take the request and reset, `n` times in a row. -/
def takeRequests : Nat → HttpContext → Buffer → List (ParseResult × HttpRequest) × Buffer
  | 0, _, b => ([], b)
  | n + 1, ctx, b =>
    let (result, ctx', b') := ctx.parseRequest b
    let (later, last) := takeRequests n reset b'
    ((result, ctx'.request) :: later, last)

theorem takeRequests_encoded (requests : List WireRequest) {b : Buffer} (hb : b.Wf) (t : Str)
    (input : b.peekReadable = requests.flatMap encode ++ t) :
    (takeRequests requests.length reset b).1 =
        requests.map (fun r => (ParseResult.complete, r.request)) ∧
      (takeRequests requests.length reset b).2.peekReadable = t := by
  induction requests generalizing b with
  | nil => exact ⟨rfl, input⟩
  | cons r rest ih =>
    rw [List.flatMap_cons, List.append_assoc] at input
    have hd := drives_encode r (rest.flatMap encode ++ t)
    rw [← input] at hd
    obtain ⟨hr, hctx, hunread⟩ := parseRequest_unique (r := .complete) hb hd
    obtain ⟨hw, _⟩ := parseRequest_drives reset hb
    obtain ⟨hlist, hrest⟩ := ih hw hunread
    simp only [List.length_cons, takeRequests, hr, hctx, hlist, List.map_cons]
    exact ⟨rfl, hrest⟩

/-- A pipeline of encoded requests and any trailing bytes: each call answers with
Complete and the original request, and the trailing bytes stay unread. -/
theorem decode_encode_pipeline (initSize : Nat) (requests : List WireRequest) (t : Str) :
    let input := (Buffer.new initSize).append (requests.flatMap encode ++ t)
    (takeRequests requests.length reset input).1 =
        requests.map (fun r => (ParseResult.complete, r.request)) ∧
      (takeRequests requests.length reset input).2.peekReadable = t := by
  have hb := Buffer.new_wf initSize
  refine takeRequests_encoded requests (Buffer.append_wf hb _) t ?_
  rw [Buffer.append_peekReadable hb, Buffer.new_peekReadable, List.nil_append]

/-- A form and a page behind it in one buffer, with the first byte of a third request. -/
theorem decode_encode_pipeline_two :
    let form := lit "POST /login HTTP/1.1\r\ncontent-length: 3\r\n\r\na=b"
    let page := lit "GET / HTTP/1.1\r\nHost: h\r\n\r\n"
    ∃ r r' : WireRequest, r.encode = form ∧ r'.encode = page ∧
      let input := (Buffer.new 1024).append (form ++ page ++ lit "G")
      (takeRequests 2 reset input).1 = [(.complete, r.request), (.complete, r'.request)] ∧
        (takeRequests 2 reset input).2.peekReadable = lit "G" := by
  intro form page
  let posted : WireRequest :=
    { method := lit "POST", target := lit "/login", version := lit "HTTP/1.1"
      fields := [(lit "content-length", lit "3")], body := lit "a=b"
      method_token := by decide
      target_token := by decide
      version_token := by decide
      names := by decide
      values := by unfold IsFieldValue; decide
      distinct := by unfold KeyedList.Keyed; decide
      body_size := by decide
      framed := Or.inr ⟨lit "content-length", by decide⟩ }
  let asked : WireRequest :=
    { method := lit "GET", target := lit "/", version := lit "HTTP/1.1"
      fields := [(lit "Host", lit "h")], body := []
      method_token := by decide
      target_token := by decide
      version_token := by decide
      names := by decide
      values := by unfold IsFieldValue; decide
      distinct := by unfold KeyedList.Keyed; decide
      body_size := by decide
      framed := Or.inl (by decide) }
  have hform : posted.encode = form := by decide
  have hpage : asked.encode = page := by decide
  refine ⟨posted, asked, hform, hpage, ?_⟩
  have hread := decode_encode_pipeline 1024 [posted, asked] (lit "G")
  simpa [hform, hpage] using hread

end WebServer
