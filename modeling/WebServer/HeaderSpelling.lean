import WebServer.MessageLength
import WebServer.RequestEncoding
import WebServer.Reply

/-!
# The spelling of header fields

Field names are case insensitive, and blanks around a field value mean nothing. Two
blocks of the same fields may therefore differ in both and should be read the same. The
parser compares the name of the length in lower case, but it stores every name as it was
written, and of the blanks around a value it removes the leading spaces only; `Connection`
and `Accept-Encoding` are looked up by exact name and compared by exact value.

A reading is what later code can see of a parsed head. It is computed here from the fields
alone, so that two blocks can be compared field by field. Lines without a colon are no
fields and do not occur.
-/

namespace WebServer

open Resumable KeyedList HttpContext

/-- One field line: a name, and a value with spaces or tabs around it. -/
structure HeaderField where
  name : Str
  before : Str
  value : Str
  after : Str
  name_plain : colon ∉ name ∧ findCrlf name = none
  blanks_before : ∀ b ∈ before, isBlank b = true
  blanks_after : ∀ b ∈ after, isBlank b = true
  value_plain : findCrlf value = none

namespace HeaderField

/-- What stands behind the colon. -/
def text (f : HeaderField) : Str := f.before ++ f.value ++ f.after

def line (f : HeaderField) : Str := f.name ++ colon :: f.text

/-- The same field in another spelling. -/
def Respelled (f g : HeaderField) : Prop := lower f.name = lower g.name ∧ f.value = g.value

/-- `ParseHeaderLine` refuses a length without a number. -/
def refused (f : HeaderField) : Bool := isLengthName f.name && (stoul f.value).isNone

/-- The declared length behind the field. -/
def lengthAfter (n : Nat) (f : HeaderField) : Nat :=
  if isLengthName f.name then (stoul f.value).getD n else n

end HeaderField

open HeaderField

/-- The field lines and the blank line. -/
def block (fs : List HeaderField) : Str := fs.flatMap (fun f => f.line ++ crlf) ++ crlf

/-- The fields that are stored: up to a refused one, that one included. -/
def taken : List HeaderField → List HeaderField
  | [] => []
  | f :: fs => if f.refused then [f] else f :: taken fs

/-- The fields behind the first refused one. -/
def untaken : List HeaderField → List HeaderField
  | [] => []
  | f :: fs => if f.refused then fs else untaken fs

/-- The value stored last under exactly this name. -/
def lastValue (name : Str) (fs : List HeaderField) : Option Str :=
  fs.foldl (fun old f => if name = f.name then some (headerValue f.text) else old) none

/-! ## One field line -/

/-- Blanks in front of a number are skipped, and blanks behind it end it. -/
theorem stoul_blanks {before value after : Str} (hbefore : ∀ b ∈ before, isBlank b = true)
    (hafter : ∀ b ∈ after, isBlank b = true) : stoul (before ++ value ++ after) = stoul value := by
  have hspaces : ∀ s : Str, (∀ b ∈ s, isBlank b = true) → ∀ b ∈ s, isSpace b = true :=
    fun s hs b hb => (blank_is (hs b hb)).1
  have hstop : after.takeWhile isDigit = [] := by
    cases after with
    | nil => rfl
    | cons b rest =>
      exact List.takeWhile_cons_of_neg (by simp [(blank_is (hafter b List.mem_cons_self)).2])
  have hdigits : ∀ s : Str, (s ++ after).takeWhile isDigit = s.takeWhile isDigit := by
    intro s
    induction s with
    | nil => exact hstop
    | cons b rest ih =>
      by_cases hb : isDigit b = true
      · rw [List.cons_append, List.takeWhile_cons_of_pos hb, List.takeWhile_cons_of_pos hb, ih]
      · rw [List.cons_append, List.takeWhile_cons_of_neg hb, List.takeWhile_cons_of_neg hb]
  have hdrop : (before ++ value ++ after).dropWhile isSpace = (value ++ after).dropWhile isSpace := by
    rw [List.append_assoc, List.dropWhile_append_of_pos (hspaces before hbefore)]
  cases hvalue : value.dropWhile isSpace with
  | nil =>
    have hnone : (value ++ after).dropWhile isSpace = [] := by
      rw [List.dropWhile_append, hvalue]
      exact List.dropWhile_eq_nil_iff.mpr (hspaces after hafter)
    simp only [stoul, hdrop, hvalue, hnone]
  | cons b rest =>
    have hsome : (value ++ after).dropWhile isSpace = b :: rest ++ after := by
      rw [List.dropWhile_append, hvalue]
      rfl
    have hsigned := hdigits rest
    have hplain := hdigits (b :: rest)
    simp only [List.cons_append] at hsome hplain
    simp only [stoul, hdrop, hvalue, hsome, List.head?_cons, List.tail_cons]
    by_cases hsign : some b = some 45 ∨ some b = some 43
    · simp only [if_pos hsign, hsigned]
    · simp only [if_neg hsign, hplain]

namespace HeaderField

theorem stoul_text (f : HeaderField) : stoul (headerValue f.text) = stoul f.value := by
  rw [stoul_headerValue]
  exact stoul_blanks f.blanks_before f.blanks_after

theorem splitAtByte_line (f : HeaderField) : splitAtByte colon f.line = some (f.name, f.text) :=
  splitAtByte_first f.name_plain.1 f.text

theorem line_ne_nil (f : HeaderField) : f.line ≠ [] := by
  simp [line]

theorem blank_plain {s : Str} (h : ∀ b ∈ s, isBlank b = true) : cr ∉ s ∧ s.head? ≠ some lf := by
  have hne : ∀ b : Byte, isBlank b = true → b ≠ cr ∧ b ≠ lf := by
    intro b hb
    simp only [isBlank, Bool.or_eq_true, beq_iff_eq] at hb
    rcases hb with rfl | rfl <;> decide
  refine ⟨fun hmem => (hne cr (h cr hmem)).1 rfl, ?_⟩
  intro hhead
  exact (hne lf (h lf (List.mem_of_mem_head? hhead))).2 rfl

/-- Behind bytes without a CR a line feed of the value makes no pair. -/
theorem findCrlf_behind {s t : Str} (noCr : cr ∉ s) (ht : findCrlf t = none) :
    findCrlf (s ++ t) = none := by
  induction s with
  | nil => exact ht
  | cons a rest ih =>
    have ha : a ≠ cr := (List.ne_of_not_mem_cons noCr).symm
    have hmiss := ih (List.not_mem_of_not_mem_cons noCr)
    rw [List.cons_append]
    cases hmore : rest ++ t with
    | nil => rfl
    | cons b more =>
      rw [hmore] at hmiss
      rw [findCrlf, if_neg fun hit => ha hit.1, hmiss]
      rfl

/-- A field line ends at the CR LF pair behind it. -/
theorem line_whole (f : HeaderField) : findCrlf f.line = none := by
  have hafter := blank_plain f.blanks_after
  have hvalue : findCrlf (f.value ++ f.after) = none :=
    findCrlf_join f.value_plain (findCrlf_noCr hafter.1) hafter.2
  have hlead : cr ∉ colon :: f.before :=
    List.not_mem_cons_of_ne_of_not_mem (by decide) (blank_plain f.blanks_before).1
  have hrest : findCrlf (colon :: f.text) = none := by
    rw [text, List.append_assoc]
    exact findCrlf_behind hlead hvalue
  refine findCrlf_join f.name_plain.2 hrest ?_
  simp [colon, lf]

/-- What a field line leaves in the context, refused or not. -/
def take (ctx : HttpContext) (f : HeaderField) : HttpContext :=
  { ctx with request := ctx.request.setHeader f.name (headerValue f.text),
             contentLength := f.lengthAfter ctx.contentLength }

theorem parseHeaderLine_line (ctx : HttpContext) (f : HeaderField) :
    ctx.parseHeaderLine f.line = (!f.refused, f.take ctx) := by
  simp only [parseHeaderLine, splitAtByte_line, stoul_text, refused, take, lengthAfter, isLengthName]
  by_cases hname : lower f.name = lit "content-length"
  · cases hvalue : stoul f.value with
    | none => simp [hname]
    | some n => simp [hname]
  · simp [hname]

/-- One turn of the parser on a field line. -/
theorem move_line {ctx : HttpContext} (hs : ctx.state = .headers) (f : HeaderField) (more : Str) :
    move ctx (f.line ++ crlf ++ more) =
      if f.refused then .halt false (f.take ctx) (f.line.length + 2)
      else .advance (f.take ctx) (f.line.length + 2) := by
  have hcrlf := findCrlf_line (line_whole f) more
  simp only [move, hs, hcrlf, headerMove, take_line, if_neg (line_ne_nil f), parseHeaderLine_line]
  cases f.refused <;> rfl

end HeaderField

/-! ## A whole block -/

/-- The context behind the stored fields. -/
def storedIn (ctx : HttpContext) (fs : List HeaderField) : HttpContext :=
  (taken fs).foldl (fun ctx f => f.take ctx) ctx

/-- The context behind an accepted request line. -/
def headOf (request : HttpRequest) : HttpContext := { reset with request, state := .headers }

/-- The context behind the blank line. -/
def closeHead (ctx : HttpContext) : HttpContext :=
  { ctx with state := if 0 < ctx.contentLength then .body else .finish }

theorem block_cons (f : HeaderField) (fs : List HeaderField) (more : Str) :
    block (f :: fs) ++ more = f.line ++ crlf ++ (block fs ++ more) := by
  simp [block]

theorem storedIn_cons (ctx : HttpContext) (f : HeaderField) (fs : List HeaderField) :
    storedIn ctx (f :: fs) = if f.refused then f.take ctx else storedIn (f.take ctx) fs := by
  unfold storedIn
  rw [taken]
  split <;> rfl

/-- A refused field ends the parse; the lines behind it stay unread. -/
theorem drives_refused {fs : List HeaderField} {ctx : HttpContext} (hs : ctx.state = .headers)
    (more : Str) (hrefused : fs.any (·.refused) = true) :
    Drives move ctx (block fs ++ more) (some false) (storedIn ctx fs)
      (block (untaken fs) ++ more) := by
  induction fs generalizing ctx with
  | nil => cases hrefused
  | cons f rest ih =>
    have hmove := move_line hs f (block rest ++ more)
    rw [block_cons, storedIn_cons, untaken]
    by_cases hf : f.refused = true
    · rw [if_pos hf] at hmove
      have hhalt := Drives.halt hmove
      rw [drop_line] at hhalt
      rw [if_pos hf, if_pos hf]
      exact hhalt
    · rw [if_neg hf] at hmove
      have hrest : rest.any (·.refused) = true := by simpa [hf] using hrefused
      have hnext : (f.take ctx).state = .headers := hs
      have hdrives := ih hnext hrest
      rw [← drop_line f.line (block rest ++ more)] at hdrives
      rw [if_neg hf, if_neg hf]
      exact .advance hmove hdrives

/-- A block without a refused field is taken up to its blank line. -/
theorem leads_block {fs : List HeaderField} {ctx : HttpContext} (hs : ctx.state = .headers)
    (more : Str) (hnone : fs.any (·.refused) = false) :
    Leads move ctx (block fs ++ more) (closeHead (storedIn ctx fs)) more := by
  induction fs generalizing ctx with
  | nil =>
    have hcrlf := @findCrlf_line [] rfl more
    have hmove : move ctx (crlf ++ more) = .advance (closeHead ctx) 2 := by
      simp only [List.nil_append, List.length_nil] at hcrlf
      simp only [move, hs, hcrlf, headerMove, List.take_zero, if_true]
      rfl
    exact leads_advance hmove
  | cons f rest ih =>
    obtain ⟨hf, hrest⟩ := Bool.or_eq_false_iff.mp hnone
    have hmove := move_line hs f (block rest ++ more)
    rw [if_neg (Bool.eq_false_iff.mp hf)] at hmove
    have hlead := leads_advance hmove
    rw [drop_line] at hlead
    have hnext : (f.take ctx).state = .headers := hs
    rw [block_cons, storedIn_cons, if_neg (Bool.eq_false_iff.mp hf)]
    exact leads_trans hlead (ih hnext hrest)

/-- The stored header map read back; its keys are compared byte by byte. -/
theorem lookup_setHeader (r : HttpRequest) (key value name : Str) :
    (r.setHeader key value).headers.lookup name =
      if name = key then some value else r.headers.lookup name :=
  lookup_put_lawful r.headers key name value

/-- What the stored fields leave of the context. -/
theorem storedIn_kept (ctx : HttpContext) (fs : List HeaderField) :
    (storedIn ctx fs).request.version = ctx.request.version ∧
      (storedIn ctx fs).request.body = ctx.request.body ∧
      (storedIn ctx fs).contentLength = (taken fs).foldl lengthAfter ctx.contentLength := by
  unfold storedIn
  induction taken fs generalizing ctx with
  | nil => exact ⟨rfl, rfl, rfl⟩
  | cons f rest ih => exact ih (f.take ctx)

theorem lookup_storedIn (ctx : HttpContext) (fs : List HeaderField) (name : Str)
    (hnew : ctx.request.headers = []) :
    (storedIn ctx fs).request.headers.lookup name = lastValue name (taken fs) := by
  have hfold : ∀ (l : List HeaderField) (ctx : HttpContext),
      (l.foldl (fun ctx f => f.take ctx) ctx).request.headers.lookup name =
        l.foldl (fun old f => if name = f.name then some (headerValue f.text) else old)
          (ctx.request.headers.lookup name) := by
    intro l
    induction l with
    | nil => exact fun _ => rfl
    | cons f rest ih =>
      intro ctx
      rw [List.foldl_cons, List.foldl_cons, ih]
      exact congrArg (rest.foldl _) (lookup_setHeader ctx.request f.name (headerValue f.text) name)
  rw [storedIn, hfold, hnew]
  rfl

/-! ## Readings -/

/-- What later code can see of a parsed request. -/
structure Reading where
  result : ParseResult
  body : Str
  unread : Str
  keepAlive : Bool
  acceptEncoding : Str

def reading (out : Outcome) : Reading where
  result := out.1
  body := out.2.1.request.body
  unread := out.2.2.peekReadable
  keepAlive := out.2.1.request.isKeepAlive
  acceptEncoding := out.2.1.request.getHeader (lit "Accept-Encoding")

/-- `IsKeepAlive` of the version and the stored value. -/
def persistent (version : Str) (connection : Option Str) : Bool :=
  if version = lit "HTTP/1.1" then connection ≠ some (lit "close")
  else if version = lit "HTTP/1.0" then connection = some (lit "keep-alive")
  else false

theorem isKeepAlive_persistent (r : HttpRequest) :
    r.isKeepAlive = persistent r.version (r.headers.lookup (lit "Connection")) := by
  unfold HttpRequest.isKeepAlive persistent
  cases r.headers.lookup (lit "Connection") <;> simp

/-- The result, the body and the unread bytes behind a head that declares `n`. -/
def behindHead (n : Nat) (more : Str) : ParseResult × Str × Str :=
  if maxBodySize < n then (.error, [], more)
  else if more.length < n then (.incomplete, [], more)
  else (.complete, more.take n, more.drop n)

/-- The same with the fields of the head. -/
def behindFields (fs : List HeaderField) (more : Str) : ParseResult × Str × Str :=
  if fs.any (·.refused) then (.error, [], block (untaken fs) ++ more)
  else behindHead ((taken fs).foldl lengthAfter 0) more

/-- The reading of a request with these fields. -/
def readFields (start : Str) (fs : List HeaderField) (more : Str) : Reading :=
  let (accepted, request) := reset.request.parseStartLine start
  let (result, body, unread) :=
    if accepted then behindFields fs more else (.error, [], block fs ++ more)
  let seen := if accepted then taken fs else []
  { result, body, unread
    keepAlive := persistent request.version (lastValue (lit "Connection") seen)
    acceptEncoding := (lastValue (lit "Accept-Encoding") seen).getD [] }

/-- After the blank line the length alone decides. -/
theorem drives_behind {ctx : HttpContext} (more : Str) (hbody : ctx.request.body = []) :
    ∃ ctx', Drives move (closeHead ctx) more (answer (behindHead ctx.contentLength more).1) ctx'
        (behindHead ctx.contentLength more).2.2 ∧
      ctx'.request.body = (behindHead ctx.contentLength more).2.1 ∧
      ctx'.request.version = ctx.request.version ∧
      ctx'.request.headers = ctx.request.headers := by
  unfold behindHead
  by_cases hlength : 0 < ctx.contentLength
  · have hmove : move (closeHead ctx) more = bodyMove (closeHead ctx) more := by
      simp only [move, closeHead, if_pos hlength]
    rw [bodyMove] at hmove
    by_cases hlarge : maxBodySize < ctx.contentLength
    · rw [if_pos (show maxBodySize < (closeHead ctx).contentLength from hlarge)] at hmove
      rw [if_pos hlarge]
      exact ⟨closeHead ctx, .halt hmove, hbody, rfl, rfl⟩
    · rw [if_neg (show ¬maxBodySize < (closeHead ctx).contentLength from hlarge)] at hmove
      rw [if_neg hlarge]
      by_cases hshort : more.length < ctx.contentLength
      · rw [if_pos (show more.length < (closeHead ctx).contentLength from hshort)] at hmove
        rw [if_pos hshort]
        exact ⟨closeHead ctx, .wait hmove, hbody, rfl, rfl⟩
      · rw [if_neg (show ¬more.length < (closeHead ctx).contentLength from hshort)] at hmove
        rw [if_neg hshort]
        let read : HttpContext :=
          { closeHead ctx with
            request := ctx.request.setBody (more.take ctx.contentLength), state := .finish }
        have hfinish : move read (more.drop ctx.contentLength) =
            .halt true { read with complete := true } 0 := rfl
        exact ⟨_, .advance hmove (.halt hfinish), rfl, rfl, rfl⟩
  · have hzero : ctx.contentLength = 0 := Nat.eq_zero_of_not_pos hlength
    have hmove : move (closeHead ctx) more = .halt true { closeHead ctx with complete := true } 0 := by
      simp only [move, closeHead, if_neg hlength]
    rw [hzero, if_neg (by decide), if_neg (Nat.not_lt_zero _)]
    refine ⟨_, .halt hmove, ?_, rfl, rfl⟩
    rw [List.take_zero]
    exact hbody

/-- `ParseRequest` on a request with these fields, whatever its buffer looks like. -/
theorem reading_parseRequest {start : Str} (whole : findCrlf start = none) (fs : List HeaderField)
    (more : Str) {b : Buffer} (hb : b.Wf)
    (input : b.peekReadable = start ++ crlf ++ (block fs ++ more)) :
    reading (reset.parseRequest b) = readFields start fs more := by
  have hcrlf := findCrlf_line whole (block fs ++ more)
  have hmove : move reset b.peekReadable = startMove reset b.peekReadable start.length := by
    simp only [move, input, hcrlf]
    rfl
  have hends : ∀ r ctx ys, Drives move reset b.peekReadable (answer r) ctx ys →
      reading (reset.parseRequest b) =
        ⟨r, ctx.request.body, ys, persistent ctx.request.version
          (ctx.request.headers.lookup (lit "Connection")),
          (ctx.request.headers.lookup (lit "Accept-Encoding")).getD []⟩ := by
    intro r ctx ys hdrives
    obtain ⟨hr, hctx, hys⟩ := parseRequest_unique hb hdrives
    simp only [reading, hr, hctx, hys, isKeepAlive_persistent, HttpRequest.getHeader]
  rw [startMove, input, take_line, ← input] at hmove
  unfold readFields
  rcases hparsed : reset.request.parseStartLine start with ⟨accepted, request⟩
  have hnew : request.body = [] ∧ request.headers = [] :=
    ⟨(congrArg (fun out => out.2.body) hparsed).symm,
      (congrArg (fun out => out.2.headers) hparsed).symm⟩
  rw [hparsed] at hmove
  cases accepted with
  | false =>
    have hdrives := Drives.halt hmove
    rw [input, drop_line, ← input] at hdrives
    rw [hends .error _ _ hdrives]
    simp only [hnew.1, hnew.2]
    rfl
  | true =>
    have hlead : Leads move reset b.peekReadable (headOf request) (block fs ++ more) := by
      have hline := leads_advance hmove
      rw [input, drop_line, ← input] at hline
      exact hline
    have hheaders : (headOf request).state = .headers := rfl
    obtain ⟨hversion, hbody, hlength⟩ := storedIn_kept (headOf request) fs
    have hlookup := fun name => lookup_storedIn (headOf request) fs name hnew.2
    simp only [if_true, behindFields]
    by_cases hrefused : fs.any (·.refused) = true
    · have hdrives := hlead _ _ _ (drives_refused hheaders more hrefused)
      rw [if_pos hrefused, hends .error _ _ hdrives, hversion, hbody, hlookup, hlookup]
      simp only [headOf, hnew.1]
    · have hblock := leads_block hheaders more (Bool.eq_false_iff.mpr hrefused)
      obtain ⟨ctx', hbehind, hbody', hversion', hstored⟩ := drives_behind more (hbody.trans hnew.1)
      have hdrives := hlead _ _ _ (hblock _ _ _ hbehind)
      rw [if_neg hrefused, hends _ _ _ hdrives, hversion', hbody', hstored, hversion, hlookup,
        hlookup, hlength]
      rfl

/-! ## Two spellings -/

theorem refused_respelled {f g : HeaderField} (h : Respelled f g) : f.refused = g.refused := by
  rw [refused, refused, isLengthName, isLengthName, h.1, h.2]

theorem lengthAfter_respelled {f g : HeaderField} (h : Respelled f g) (n : Nat) :
    f.lengthAfter n = g.lengthAfter n := by
  rw [lengthAfter, lengthAfter, isLengthName, isLengthName, h.1, h.2]

theorem any_respelled {fs gs : List HeaderField} (h : List.Forall₂ Respelled fs gs) :
    fs.any (·.refused) = gs.any (·.refused) := by
  induction h with
  | nil => rfl
  | cons hfg _ ih => rw [List.any_cons, List.any_cons, ih, refused_respelled hfg]

theorem taken_respelled {fs gs : List HeaderField} (h : List.Forall₂ Respelled fs gs) :
    List.Forall₂ Respelled (taken fs) (taken gs) := by
  induction h with
  | nil => exact .nil
  | cons hfg hrest ih =>
    rw [taken, taken, refused_respelled hfg]
    split
    · exact .cons hfg .nil
    · exact .cons hfg ih

theorem length_respelled {fs gs : List HeaderField} (h : List.Forall₂ Respelled fs gs) (n : Nat) :
    fs.foldl lengthAfter n = gs.foldl lengthAfter n := by
  induction h generalizing n with
  | nil => rfl
  | cons hfg _ ih => rw [List.foldl_cons, List.foldl_cons, lengthAfter_respelled hfg, ih]

/-- The length is the same in every spelling; only the lines behind a refused field differ. -/
theorem behind_respelled {fs gs : List HeaderField} (h : List.Forall₂ Respelled fs gs)
    (more : Str) : behindFields fs more = behindFields gs more ↔
      block (untaken fs) = block (untaken gs) := by
  have hlength := length_respelled (taken_respelled h) 0
  unfold behindFields
  rw [any_respelled h, hlength]
  by_cases hrefused : gs.any (·.refused) = true
  · rw [if_pos hrefused, if_pos hrefused]
    simp
  · have hnone : ∀ l : List HeaderField, ¬l.any (·.refused) = true → untaken l = [] := by
      intro l
      induction l with
      | nil => exact fun _ => rfl
      | cons f rest ih =>
        intro hl
        simp only [List.any_cons, Bool.or_eq_true, not_or] at hl
        rw [untaken, if_neg hl.1, ih hl.2]
    rw [if_neg hrefused, if_neg hrefused, hnone gs hrefused,
      hnone fs (by rwa [any_respelled h])]
    simp

/-- What the spelling must not change: the lines that stay unread, and the values stored
last under exactly the names that are looked up. -/
structure SeenAlike (start : Str) (fs gs : List HeaderField) : Prop where
  unread : (reset.request.parseStartLine start).1 = false → block fs = block gs
  behind : (reset.request.parseStartLine start).1 = true → block (untaken fs) = block (untaken gs)
  encoding : (reset.request.parseStartLine start).1 = true →
    (lastValue (lit "Accept-Encoding") (taken fs)).getD [] =
      (lastValue (lit "Accept-Encoding") (taken gs)).getD []
  close : (reset.request.parseStartLine start).1 = true →
    (reset.request.parseStartLine start).2.version = lit "HTTP/1.1" →
    (lastValue (lit "Connection") (taken fs) = some (lit "close") ↔
      lastValue (lit "Connection") (taken gs) = some (lit "close"))
  keepAlive : (reset.request.parseStartLine start).1 = true →
    (reset.request.parseStartLine start).2.version = lit "HTTP/1.0" →
    (lastValue (lit "Connection") (taken fs) = some (lit "keep-alive") ↔
      lastValue (lit "Connection") (taken gs) = some (lit "keep-alive"))

/-- `IsKeepAlive` looks for one value only, and which one depends on the version. -/
theorem persistent_alike (version : Str) (old new : Option Str) :
    persistent version old = persistent version new ↔
      (version = lit "HTTP/1.1" → (old = some (lit "close") ↔ new = some (lit "close"))) ∧
        (version = lit "HTTP/1.0" →
          (old = some (lit "keep-alive") ↔ new = some (lit "keep-alive"))) := by
  unfold persistent
  have hne : lit "HTTP/1.0" ≠ lit "HTTP/1.1" := by decide
  by_cases hnew : version = lit "HTTP/1.1"
  · subst hnew
    simp [hne.symm]
  · by_cases hold : version = lit "HTTP/1.0"
    · subst hold
      simp [hne]
    · simp [hnew, hold]

/-- Two spellings of one request are read alike exactly when the spelling keeps the names
and the blanks that later code looks at. -/
theorem read_alike_iff {start : Str} (whole : findCrlf start = none) {fs gs : List HeaderField}
    (respelled : List.Forall₂ Respelled fs gs) (more : Str) {b b' : Buffer} (hb : b.Wf)
    (hb' : b'.Wf) (input : b.peekReadable = start ++ crlf ++ (block fs ++ more))
    (input' : b'.peekReadable = start ++ crlf ++ (block gs ++ more)) :
    reading (reset.parseRequest b) = reading (reset.parseRequest b') ↔ SeenAlike start fs gs := by
  rw [reading_parseRequest whole fs more hb input, reading_parseRequest whole gs more hb' input']
  have hbehind := behind_respelled respelled more
  unfold readFields
  rcases hparsed : reset.request.parseStartLine start with ⟨accepted, request⟩
  cases accepted with
  | false =>
    constructor
    · intro hsame
      have hunread : block fs ++ more = block gs ++ more := congrArg Reading.unread hsame
      refine ⟨fun _ => List.append_cancel_right hunread, ?_, ?_, ?_, ?_⟩
      all_goals
        intro haccepted
        rw [hparsed] at haccepted
        cases haccepted
    · intro halike
      have hblock := halike.unread (congrArg Prod.fst hparsed)
      simp only [Bool.false_eq_true, if_false, hblock]
  | true =>
    simp only [if_true, Reading.mk.injEq, persistent_alike]
    constructor
    · rintro ⟨hresult, hbody, hunread, ⟨hclose, halive⟩, hencoding⟩
      have hsame : behindFields fs more = behindFields gs more :=
        Prod.ext hresult (Prod.ext hbody hunread)
      refine ⟨?_, fun _ => hbehind.mp hsame, fun _ => hencoding, ?_, ?_⟩
      · intro hrefused
        rw [hparsed] at hrefused
        cases hrefused
      · intro _ hversion
        exact hclose (by rwa [hparsed] at hversion)
      · intro _ hversion
        exact halive (by rwa [hparsed] at hversion)
    · intro halike
      have haccepted : (reset.request.parseStartLine start).1 = true := congrArg Prod.fst hparsed
      have hsame := hbehind.mpr (halike.behind haccepted)
      have hclose := halike.close haccepted
      have halive := halike.keepAlive haccepted
      rw [hparsed] at hclose halive
      exact ⟨congrArg (·.1) hsame, congrArg (·.2.1) hsame, congrArg (·.2.2) hsame,
        ⟨hclose, halive⟩, halike.encoding haccepted⟩

/-- The length in capitals and blanks around both values change nothing. -/
theorem read_alike_length :
    let start := lit "POST /a HTTP/1.1"
    let b := (Buffer.new 16).append (lit
      "POST /a HTTP/1.1\r\nContent-Length: 5\r\nAccept-Encoding: gzip\r\n\r\nhello")
    let b' := (Buffer.new 16).append (lit
      "POST /a HTTP/1.1\r\nCONTENT-LENGTH:\t5 \r\nAccept-Encoding:  gzip\r\n\r\nhello")
    findCrlf start = none ∧ reading (reset.parseRequest b) = reading (reset.parseRequest b') := by
  intro start b b'
  have hb : b.Wf := Buffer.append_wf (Buffer.new_wf 16) _
  have hb' : b'.Wf := Buffer.append_wf (Buffer.new_wf 16) _
  let length : HeaderField :=
    ⟨lit "Content-Length", lit " ", lit "5", [], by decide, by decide +kernel, by decide +kernel,
      by decide⟩
  let length' : HeaderField :=
    ⟨lit "CONTENT-LENGTH", lit "\t", lit "5", lit " ", by decide, by decide +kernel, by decide +kernel,
      by decide⟩
  let encoding : HeaderField :=
    ⟨lit "Accept-Encoding", lit " ", lit "gzip", [], by decide, by decide +kernel, by decide +kernel,
      by decide⟩
  let encoding' : HeaderField :=
    ⟨lit "Accept-Encoding", lit "  ", lit "gzip", [], by decide, by decide +kernel, by decide +kernel,
      by decide⟩
  have respelled : List.Forall₂ Respelled [length, encoding] [length', encoding'] :=
    .cons ⟨by decide, rfl⟩ (.cons ⟨rfl, rfl⟩ .nil)
  have whole : findCrlf start = none := by decide
  refine ⟨whole, (read_alike_iff whole respelled (lit "hello") hb hb' (by decide +kernel)
    (by decide +kernel)).mpr ?_⟩
  constructor
  · intro hrefused
    exact absurd hrefused (by decide +kernel)
  · exact fun _ => by decide +kernel
  · exact fun _ => by decide +kernel
  · exact fun _ _ => by decide +kernel
  · exact fun _ _ => by decide +kernel

/-- `connection: close` keeps the connection that `Connection: close` ends. -/
theorem spelling_changes_keepAlive :
    let start := lit "GET /a HTTP/1.1"
    let b := (Buffer.new 16).append (lit "GET /a HTTP/1.1\r\nConnection: close\r\n\r\n")
    let b' := (Buffer.new 16).append (lit "GET /a HTTP/1.1\r\nconnection: close\r\n\r\n")
    ∃ fs gs : List HeaderField, List.Forall₂ Respelled fs gs ∧ findCrlf start = none ∧
      b.Wf ∧ b.peekReadable = start ++ crlf ++ (block fs ++ []) ∧
      b'.Wf ∧ b'.peekReadable = start ++ crlf ++ (block gs ++ []) ∧
      (reading (reset.parseRequest b)).keepAlive = false ∧
      (reading (reset.parseRequest b')).keepAlive = true := by
  intro start b b'
  let connection : HeaderField :=
    ⟨lit "Connection", lit " ", lit "close", [], by decide, by decide +kernel, by decide +kernel,
      by decide⟩
  let connection' : HeaderField :=
    ⟨lit "connection", lit " ", lit "close", [], by decide, by decide +kernel, by decide +kernel,
      by decide⟩
  refine ⟨[connection], [connection'], .cons ⟨by decide, rfl⟩ .nil, by decide, ?_⟩
  have hb : b.Wf := Buffer.append_wf (Buffer.new_wf 16) _
  have hb' : b'.Wf := Buffer.append_wf (Buffer.new_wf 16) _
  refine ⟨hb, by decide +kernel, hb', by decide +kernel, by decide +kernel, by decide +kernel⟩

end WebServer
