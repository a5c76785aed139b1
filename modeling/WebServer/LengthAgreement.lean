import WebServer.HeaderSpelling
import WebServer.ParserChunking

/-!
# The length that a request states of itself

The body is framed by the last content-length line in any letter case, which the parser keeps
in its context. `ContentLength` of the request looks the length up again, in the header map and
under one spelling of the name. Both are read off the lines of the head here.
-/

namespace WebServer

open Resumable

/-- The spelling that `ContentLength` looks up. -/
def isExactLengthName (key : Str) : Bool := key = lit "Content-Length"

/-- The length stored under that spelling after a line, from the one before it. -/
def exactDeclared (n : Nat) (line : Str) : Nat :=
  match fieldValue isExactLengthName line with
  | none => n
  | some value => (stoul value).getD 0

/-- What `std::stoul` reads in the last line named exactly so; zero when there is none. -/
def exactLength (lines : List Str) : Nat := lines.foldl exactDeclared 0

namespace HttpContext

theorem parseHeaderLine_request {ctx : HttpContext} {line key rest : Str}
    (hsplit : splitAtByte colon line = some (key, rest)) :
    (ctx.parseHeaderLine line).2.request = ctx.request.setHeader key (headerValue rest) := by
  simp only [parseHeaderLine, hsplit]
  split
  · split <;> rfl
  · rfl

/-- A value stored under the exact name has been read as the length of the body. -/
theorem stoul_exact {line rest : Str} (good : ¬BadLine line)
    (hsplit : splitAtByte colon line = some (lit "Content-Length", rest)) :
    ∃ n, stoul rest = some n := by
  have hfield : fieldValue isLengthName line = some rest := by
    have hname : isLengthName (lit "Content-Length") = true := by decide
    simp [fieldValue, hsplit, hname]
  cases hread : stoul rest with
  | none => exact absurd (Or.inr ⟨rest, hfield, hread⟩) good
  | some n => exact ⟨n, rfl⟩

theorem parseHeaderLine_exact {ctx : HttpContext} {line : Str} {m : Nat}
    (stored : ctx.request.contentLength = some m) (taken : (ctx.parseHeaderLine line).1 = true) :
    (ctx.parseHeaderLine line).2.request.contentLength = some (exactDeclared m line) := by
  have good : ¬BadLine line := by
    intro hbad
    rw [(parseHeaderLine_takes ctx line).refused.mpr hbad] at taken
    cases taken
  cases hsplit : splitAtByte colon line with
  | none => exact absurd (Or.inl hsplit) good
  | some parts =>
    obtain ⟨key, rest⟩ := parts
    have hlookup := lookup_setHeader ctx.request key (headerValue rest) (lit "Content-Length")
    rw [parseHeaderLine_request hsplit, HttpRequest.contentLength, hlookup]
    by_cases hkey : key = lit "Content-Length"
    · subst hkey
      obtain ⟨n, hn⟩ := stoul_exact good hsplit
      simp [exactDeclared, fieldValue, hsplit, isExactLengthName, stoul_headerValue, hn]
    · rw [if_neg (Ne.symm hkey)]
      simp only [exactDeclared, fieldValue, hsplit, isExactLengthName, hkey]
      exact stored

/-- Past the head no header is stored. -/
theorem drives_pastHead {ctx ctx' : HttpContext} {s ys : Str} {r : Option Bool}
    (h : Drives move ctx s r ctx' ys) (hs : ctx.state = .body ∨ ctx.state = .finish) :
    ctx'.request.headers = ctx.request.headers := by
  induction h with
  | wait => rfl
  | halt hmove =>
    rcases hs with hs | hs
    · simp only [move, hs, bodyMove] at hmove
      split at hmove
      · cases hmove
        rfl
      · split at hmove <;> cases hmove
    · simp only [move, hs] at hmove
      cases hmove
      rfl
  | advance hmove _ ih =>
    rcases hs with hs | hs
    · simp only [move, hs, bodyMove] at hmove
      split at hmove
      · cases hmove
      · split at hmove
        · cases hmove
        · cases hmove
          exact ih (.inr rfl)
    · simp only [move, hs] at hmove
      cases hmove

theorem drives_exact {s rest : Str} {lines : List Str} (h : HeadLines s lines rest)
    {ctx ctx' : HttpContext} {ys : Str} {m : Nat} (hs : ctx.state = .headers)
    (stored : ctx.request.contentLength = some m)
    (hdrives : Drives move ctx s (some true) ctx' ys) :
    ctx'.request.contentLength = some (lines.foldl exactDeclared m) := by
  induction h generalizing ctx m with
  | @blank s n hcrlf hnone =>
    have hmove : move ctx s = .advance
        { ctx with state := if 0 < ctx.contentLength then .body else .finish } (n + 2) := by
      simp only [move, hs, hcrlf, headerMove, if_pos hnone]
    cases hdrives with
    | halt hmove' => rw [hmove] at hmove'; cases hmove'
    | advance hmove' hrest =>
      rw [hmove] at hmove'
      cases hmove'
      have hheaders := drives_pastHead hrest (by dsimp only; split <;> simp)
      rw [HttpRequest.contentLength, hheaders]
      exact stored
  | @line s rest n lines hcrlf hline _ ih =>
    have htakes := parseHeaderLine_takes ctx (s.take n)
    have hexact : (ctx.parseHeaderLine (s.take n)).1 = true → _ := parseHeaderLine_exact stored
    have hmove : move ctx s = headerMove ctx s n := by simp only [move, hs, hcrlf]
    rw [headerMove, if_neg hline] at hmove
    generalize ctx.parseHeaderLine (s.take n) = out at htakes hexact hmove
    obtain ⟨ok, ctx''⟩ := out
    cases ok with
    | false =>
      obtain ⟨hanswer, _⟩ := drives_unique hdrives (.halt hmove)
      cases hanswer
    | true =>
      cases hdrives with
      | halt hmove' => exact absurd (hmove.symm.trans hmove') (by simp)
      | advance hmove' hrest =>
        obtain ⟨rfl, rfl⟩ := Move.advance.inj (hmove.symm.trans hmove')
        exact ih (htakes.state.trans hs) (hexact rfl) hrest

/-- The length looked up in the header map, once a request is complete. -/
theorem contentLength_exact {b : Buffer} (hb : b.Wf) {start rest : Str} {lines : List Str}
    (head : Head b.peekReadable start lines rest)
    (complete : (reset.parseRequest b).1 = .complete) :
    (reset.parseRequest b).2.1.request.contentLength = some (exactLength lines) := by
  obtain ⟨n, hcrlf, _, hlines⟩ := head
  obtain ⟨n', request, hcrlf', hparsed, hrest⟩ := drives_start (drives_complete hb complete)
  obtain rfl := Option.some.inj (hcrlf.symm.trans hcrlf')
  have hempty : request.contentLength = some 0 :=
    (congrArg (fun out => out.2.contentLength) hparsed).symm
  exact drives_exact hlines rfl hempty hrest

theorem body_length {b : Buffer} (hb : b.Wf) {start rest : Str} {lines : List Str}
    (head : Head b.peekReadable start lines rest)
    (complete : (reset.parseRequest b).1 = .complete) :
    (reset.parseRequest b).2.1.request.body.length = lastLength lines := by
  have hend := parseRequest_head hb head
  generalize reset.parseRequest b = out at hend complete
  cases hend with
  | refused => cases complete
  | short => cases complete
  | whole ctx last hnot hlong hbody =>
    rw [hbody, List.length_take, Nat.min_eq_left hlong]

/-- For a request that is complete, in whatever pieces it has come, `ContentLength` answers the
size of the body exactly when the last line spelled Content-Length and the last line of that
name in any letter case give one number, a missing line counting as zero. -/
theorem contentLength_body_iff {b : Buffer} (hb : b.Wf) (first : Str) (more : List Str)
    (complete : (feed reset b (first :: more)).1 = .complete) :
    (feed reset b (first :: more)).2.1.request.contentLength =
        some (feed reset b (first :: more)).2.1.request.body.length ↔
      ∀ start lines rest, Head (b.peekReadable ++ (first :: more).flatten) start lines rest →
        exactLength lines = lastLength lines := by
  obtain ⟨hresult, hctx, _⟩ := feed_eq_parse reset hb first more
  have hwhole := Buffer.append_wf hb (first :: more).flatten
  have hinput := Buffer.append_peekReadable hb (first :: more).flatten
  rw [hresult] at complete
  rw [hctx, ← hinput]
  generalize b.append (first :: more).flatten = whole at hwhole complete
  obtain ⟨start, lines, rest, head⟩ := head_of_complete hwhole complete
  rw [contentLength_exact hwhole head complete, body_length hwhole head complete, Option.some.injEq]
  constructor
  · intro hequal start' lines' rest' head'
    obtain ⟨_, rfl, _⟩ := head_unique head head'
    exact hequal
  · intro hequal
    exact hequal start lines rest head

/-- The name in its usual spelling, and the body in two pieces. -/
theorem contentLength_body_usual :
    (feed reset (.new 16) [posted "Content-Length: 7", lit "42"]).1 = .complete ∧
      ∀ start lines rest,
        Head ((Buffer.new 16).peekReadable ++ [posted "Content-Length: 7", lit "42"].flatten)
          start lines rest → exactLength lines = lastLength lines := by
  have complete : (feed reset (.new 16) [posted "Content-Length: 7", lit "42"]).1 = .complete := by
    decide +kernel
  have hequal : (feed reset (.new 16)
      [posted "Content-Length: 7", lit "42"]).2.1.request.contentLength = some
        (feed reset (.new 16) [posted "Content-Length: 7", lit "42"]).2.1.request.body.length := by
    decide +kernel
  exact ⟨complete, (contentLength_body_iff (Buffer.new_wf 16) _ _ complete).mp hequal⟩

/-- In lower case the name frames a body of five bytes, and the request says zero. -/
theorem contentLength_lower_case :
    let request := (feed reset (.new 16) [posted "content-length: 5"]).2.1.request
    (feed reset (.new 16) [posted "content-length: 5"]).1 = .complete ∧
      request.contentLength = some 0 ∧ request.body.length = 5 := by
  decide +kernel

end HttpContext

end WebServer
