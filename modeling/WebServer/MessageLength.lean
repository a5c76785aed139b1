import Mathlib.Data.List.DropRight
import WebServer.ParserStream

/-!
# The length of a message

Where the body of a request ends depends on its content-length lines. The parser takes
the number that `std::stoul` finds in the last line of exactly that name. A strict
reading takes every line of that name, spaces around it allowed, and asks for digits
and one number. The two agree exactly on the heads described here.
-/

namespace WebServer

open Resumable

/-! ## Reading numbers -/

/-- Without the bytes at both ends that satisfy the test. -/
def trim (test : Byte → Bool) (s : Str) : Str := (s.dropWhile test).rdropWhile test

theorem trim_eq_self {test : Byte → Bool} {s : Str} (h : ∀ b ∈ s, test b = false) :
    trim test s = s := by
  have hleft : s.dropWhile test = s := by
    cases s with
    | nil => rfl
    | cons b rest =>
      exact List.dropWhile_cons_of_neg (Bool.eq_false_iff.mp (h b List.mem_cons_self))
  rw [trim, hleft, List.rdropWhile_eq_self_iff]
  intro hne
  exact Bool.eq_false_iff.mp (h _ (List.getLast_mem hne))

/-- What is trimmed away satisfies the test. -/
theorem trim_split (test : Byte → Bool) (s : Str) : ∃ before after,
    s = before ++ trim test s ++ after ∧ (∀ b ∈ before, test b = true) ∧
      ∀ b ∈ after, test b = true := by
  refine ⟨s.takeWhile test, (s.dropWhile test).rtakeWhile test, ?_, ?_, ?_⟩
  · rw [trim, List.append_assoc, List.rdropWhile_append_rtakeWhile, List.takeWhile_append_dropWhile]
  · intro b hb
    exact List.mem_takeWhile_imp hb
  · intro b hb
    exact List.mem_rtakeWhile_imp hb

def isBlank (b : Byte) : Bool := b == space || b == 9

/-- The number written by a value of digits only, blanks around them aside. -/
def strictValue (value : Str) : Option Nat :=
  let digits := trim isBlank value
  if digits ≠ [] ∧ digits.all isDigit then some (decVal digits) else none

theorem strictValue_some {value : Str} {n : Nat} (h : strictValue value = some n) :
    trim isBlank value ≠ [] ∧ (∀ b ∈ trim isBlank value, isDigit b = true) ∧
      decVal (trim isBlank value) = n := by
  simp only [strictValue] at h
  obtain ⟨⟨hne, hall⟩, hn⟩ := Option.ite_none_right_eq_some.mp h
  exact ⟨hne, List.all_eq_true.mp hall, Option.some.inj hn⟩

theorem blank_is {b : Byte} (h : isBlank b = true) : isSpace b = true ∧ isDigit b = false := by
  simp only [isBlank, Bool.or_eq_true, beq_iff_eq] at h
  rcases h with rfl | rfl <;> decide

/-- `std::stoul` agrees with a strict reading. -/
theorem stoul_strict {value : Str} {n : Nat} (h : strictValue value = some n)
    (small : n < 2 ^ 64) : stoul value = some n := by
  obtain ⟨hne, hdigits, rfl⟩ := strictValue_some h
  obtain ⟨before, after, hsplit, hbefore, hafter⟩ := trim_split isBlank value
  have hread := stoul_digits (fun b hb => (blank_is (hbefore b hb)).1) hne hdigits
    (fun b hb => (blank_is (hafter b hb)).2) small
  rwa [← hsplit] at hread

/-- The leading spaces that `ParseHeaderLine` removes do not matter to `std::stoul`. -/
theorem stoul_headerValue (value : Str) : stoul (HttpContext.headerValue value) = stoul value := by
  by_cases hnone : value.dropWhile (· = space) = []
  · simp only [HttpContext.headerValue, if_pos hnone]
  · have hsame : (value.dropWhile (· = space)).dropWhile isSpace = value.dropWhile isSpace := by
      have hspaces : ∀ b ∈ value.takeWhile (· = space), isSpace b = true := by
        intro b hb
        have hspace := List.mem_takeWhile_imp hb
        rw [decide_eq_true_eq] at hspace
        exact hspace ▸ rfl
      have hsplit : (value.takeWhile (· = space) ++ value.dropWhile (· = space)).dropWhile isSpace =
          (value.dropWhile (· = space)).dropWhile isSpace := List.dropWhile_append_of_pos hspaces
      rw [← hsplit, List.takeWhile_append_dropWhile]
    simp only [HttpContext.headerValue, if_neg hnone, stoul, hsame]

/-! ## Lines of a head -/

/-- The lines up to a blank one, and the bytes after it. -/
inductive HeadLines : Str → List Str → Str → Prop where
  | blank {s : Str} {n : Nat} : findCrlf s = some n → s.take n = [] →
      HeadLines s [] (s.drop (n + 2))
  | line {s rest : Str} {n : Nat} {lines : List Str} : findCrlf s = some n → s.take n ≠ [] →
      HeadLines (s.drop (n + 2)) lines rest → HeadLines s (s.take n :: lines) rest

/-- A stream with a complete head: its first line, its header lines, and what follows. -/
def Head (s start : Str) (lines : List Str) (rest : Str) : Prop :=
  ∃ n, findCrlf s = some n ∧ start = s.take n ∧ HeadLines (s.drop (n + 2)) lines rest

theorem headLines_unique {s rest rest' : Str} {lines lines' : List Str}
    (h : HeadLines s lines rest) (h' : HeadLines s lines' rest') :
    lines = lines' ∧ rest = rest' := by
  induction h generalizing lines' rest' with
  | blank hcrlf hnone =>
    cases h' with
    | blank hcrlf' =>
      obtain rfl := Option.some.inj (hcrlf.symm.trans hcrlf')
      exact ⟨rfl, rfl⟩
    | line hcrlf' hline =>
      obtain rfl := Option.some.inj (hcrlf.symm.trans hcrlf')
      exact absurd hnone hline
  | line hcrlf hline _ ih =>
    cases h' with
    | blank hcrlf' hnone =>
      obtain rfl := Option.some.inj (hcrlf.symm.trans hcrlf')
      exact absurd hnone hline
    | line hcrlf' _ hmore =>
      obtain rfl := Option.some.inj (hcrlf.symm.trans hcrlf')
      obtain ⟨rfl, rfl⟩ := ih hmore
      exact ⟨rfl, rfl⟩

theorem head_unique {s start start' rest rest' : Str} {lines lines' : List Str}
    (h : Head s start lines rest) (h' : Head s start' lines' rest') :
    start = start' ∧ lines = lines' ∧ rest = rest' := by
  obtain ⟨n, hcrlf, rfl, hlines⟩ := h
  obtain ⟨n', hcrlf', rfl, hlines'⟩ := h'
  obtain rfl := Option.some.inj (hcrlf.symm.trans hcrlf')
  exact ⟨rfl, headLines_unique hlines hlines'⟩

/-- The value of a line whose name passes the test. -/
def fieldValue (named : Str → Bool) (line : Str) : Option Str :=
  match splitAtByte colon line with
  | none => none
  | some (key, value) => if named key then some value else none

def isLengthName (key : Str) : Bool := lower key = lit "content-length"

/-- The name in any letter case, with spaces around it. -/
def isLooseLengthName (key : Str) : Bool := isLengthName (trim (· == space) key)

theorem loose_of_exact {key : Str} (h : isLengthName key = true) :
    isLooseLengthName key = true := by
  have hkey : lower key = lit "content-length" := of_decide_eq_true h
  have hnone : ∀ b ∈ key, (b == space) = false := by
    intro b hb
    have hlower : toLower b ∈ lit "content-length" := by
      rw [← hkey]
      exact List.mem_map_of_mem hb
    refine beq_eq_false_iff_ne.mpr ?_
    rintro rfl
    exact absurd hlower (by decide)
  rw [isLooseLengthName, trim_eq_self hnone]
  exact h

theorem fieldValue_loose {line value : Str} (h : fieldValue isLengthName line = some value) :
    fieldValue isLooseLengthName line = some value := by
  unfold fieldValue at h ⊢
  cases hsplit : splitAtByte colon line with
  | none => simp [hsplit] at h
  | some parts =>
    obtain ⟨key, rest⟩ := parts
    simp only [hsplit] at h ⊢
    obtain ⟨hname, hvalue⟩ := Option.ite_none_right_eq_some.mp h
    rw [if_pos (loose_of_exact hname), hvalue]

/-! ## What the parser makes of the lines -/

/-- A line that `ParseHeaderLine` refuses: no colon, or no number for `std::stoul`. -/
def BadLine (line : Str) : Prop :=
  splitAtByte colon line = none ∨
    ∃ value, fieldValue isLengthName line = some value ∧ stoul value = none

/-- The declared length after a line, from the one before it. -/
def declared (n : Nat) (line : Str) : Nat :=
  match fieldValue isLengthName line with
  | none => n
  | some value => (stoul value).getD 0

/-- What `std::stoul` reads in the last line named content-length; zero when there is none. -/
def lastLength (lines : List Str) : Nat := lines.foldl declared 0

/-- The parser refuses the head. -/
def HeadRefused (start : Str) (lines : List Str) : Prop :=
  (HttpRequest.reset.parseStartLine start).1 = false ∨ (∃ line ∈ lines, BadLine line) ∨
    maxBodySize < lastLength lines

namespace HttpContext

/-- The line stored, and the length taken from it. -/
structure TakesLine (ctx : HttpContext) (line : Str) (out : Bool × HttpContext) : Prop where
  refused : out.1 = false ↔ BadLine line
  state : out.2.state = ctx.state
  body : out.2.request.body = ctx.request.body
  length : out.1 = true → out.2.contentLength = declared ctx.contentLength line

theorem parseHeaderLine_takes (ctx : HttpContext) (line : Str) :
    TakesLine ctx line (ctx.parseHeaderLine line) := by
  cases hsplit : splitAtByte colon line with
  | none =>
    simp only [parseHeaderLine, hsplit]
    exact ⟨iff_of_true rfl (Or.inl hsplit), rfl, rfl, fun h => by cases h⟩
  | some parts =>
    obtain ⟨key, rest⟩ := parts
    have hvalue : fieldValue isLengthName line = if isLengthName key then some rest else none := by
      rw [fieldValue, hsplit]
    by_cases hname : lower key = lit "content-length"
    · have hfield : fieldValue isLengthName line = some rest := by
        rw [hvalue, isLengthName, hname]
        rfl
      cases hread : stoul rest with
      | none =>
        simp only [parseHeaderLine, hsplit, if_pos hname, stoul_headerValue, hread]
        exact ⟨iff_of_true rfl (Or.inr ⟨rest, hfield, hread⟩), rfl, rfl, fun h => by cases h⟩
      | some n =>
        simp only [parseHeaderLine, hsplit, if_pos hname, stoul_headerValue, hread]
        refine ⟨iff_of_false Bool.false_ne_true.symm ?_, rfl, rfl, fun _ => ?_⟩
        · rintro (hnone | ⟨value, hsome, hbad⟩)
          · exact Option.some_ne_none _ (hsplit.symm.trans hnone)
          · obtain rfl := Option.some.inj (hsome.symm.trans hfield)
            exact Option.some_ne_none _ (hread.symm.trans hbad)
        · rw [declared, hfield]
          simp [hread]
    · have hfield : fieldValue isLengthName line = none := by
        rw [hvalue, if_neg (by simpa [isLengthName] using hname)]
      simp only [parseHeaderLine, hsplit, if_neg hname]
      refine ⟨iff_of_false Bool.false_ne_true.symm ?_, rfl, rfl, fun _ => ?_⟩
      · rintro (hnone | ⟨value, hsome, -⟩)
        · exact Option.some_ne_none _ (hsplit.symm.trans hnone)
        · exact Option.some_ne_none _ (hsome.symm.trans hfield)
      · rw [declared, hfield]

/-- The lines of a head from the first on: one of them is refused, or all are taken. -/
theorem drives_headLines {s rest : Str} {lines : List Str} (h : HeadLines s lines rest)
    {ctx : HttpContext} (hs : ctx.state = .headers) :
    ((∃ line ∈ lines, BadLine line) ∧ ∃ ctx' ys, Drives move ctx s (some false) ctx' ys) ∨
      ((¬∃ line ∈ lines, BadLine line) ∧ ∃ ctx', ctx'.request.body = ctx.request.body ∧
        ctx'.contentLength = lines.foldl declared ctx.contentLength ∧
        ctx'.state = (if 0 < ctx'.contentLength then .body else .finish) ∧
        Leads move ctx s ctx' rest) := by
  induction h generalizing ctx with
  | @blank s n hcrlf hnone =>
    have hmove : move ctx s = .advance
        { ctx with state := if 0 < ctx.contentLength then .body else .finish } (n + 2) := by
      simp only [move, hs, hcrlf, headerMove, if_pos hnone]
    exact Or.inr ⟨by simp, { ctx with state := if 0 < ctx.contentLength then .body else .finish },
      rfl, rfl, rfl, leads_advance hmove⟩
  | @line s rest n lines hcrlf hline _ ih =>
    have htakes := parseHeaderLine_takes ctx (s.take n)
    have hmove : move ctx s = headerMove ctx s n := by simp only [move, hs, hcrlf]
    rw [headerMove, if_neg hline] at hmove
    generalize ctx.parseHeaderLine (s.take n) = out at htakes hmove
    obtain ⟨ok, ctx'⟩ := out
    obtain ⟨hrefused, hstate, hbody, hlength⟩ := htakes
    cases ok with
    | false =>
      exact Or.inl ⟨⟨s.take n, List.mem_cons_self, hrefused.mp rfl⟩, _, _, .halt hmove⟩
    | true =>
      have hgood : ¬BadLine (s.take n) := fun hbad => by cases hrefused.mpr hbad
      rcases ih (hstate.trans hs) with ⟨⟨line, hmem, hbad⟩, last, ys, hdrives⟩ | ⟨hall, last, hrest⟩
      · exact Or.inl ⟨⟨line, List.mem_cons_of_mem _ hmem, hbad⟩, last, ys, .advance hmove hdrives⟩
      · obtain ⟨hlast, hcount, hend, hleads⟩ := hrest
        refine Or.inr ⟨?_, last, hlast.trans hbody, ?_, hend, leads_trans (leads_advance hmove) hleads⟩
        · rintro ⟨line, hmem, hbad⟩
          rcases List.mem_cons.mp hmem with rfl | hmore
          · exact hgood hbad
          · exact hall ⟨line, hmore, hbad⟩
        · rw [hcount, hlength rfl, List.foldl_cons]

/-- How the parser ends on a stream with a complete head. -/
inductive HeadEnd (start : Str) (lines : List Str) (rest : Str) : Outcome → Prop where
  | refused (ctx : HttpContext) (b : Buffer) : HeadRefused start lines →
      HeadEnd start lines rest (.error, ctx, b)
  | short (ctx : HttpContext) (b : Buffer) : ¬HeadRefused start lines →
      rest.length < lastLength lines → HeadEnd start lines rest (.incomplete, ctx, b)
  | whole (ctx : HttpContext) (b : Buffer) : ¬HeadRefused start lines →
      lastLength lines ≤ rest.length → ctx.request.body = rest.take (lastLength lines) →
      HeadEnd start lines rest (.complete, ctx, b)

/-- After the blank line: the body is refused, waited for, or taken. -/
theorem drives_length {ctx : HttpContext} (rest : Str)
    (hs : ctx.state = (if 0 < ctx.contentLength then .body else .finish))
    (hbody : ctx.request.body = []) :
    ∃ r ctx' ys, Drives move ctx rest (answer r) ctx' ys ∧
      ((r = .error ∧ maxBodySize < ctx.contentLength) ∨
        (r = .incomplete ∧ ¬maxBodySize < ctx.contentLength ∧ rest.length < ctx.contentLength) ∨
        (r = .complete ∧ ¬maxBodySize < ctx.contentLength ∧ ctx.contentLength ≤ rest.length ∧
          ctx'.request.body = rest.take ctx.contentLength)) := by
  by_cases hlength : 0 < ctx.contentLength
  · rw [if_pos hlength] at hs
    have hmove : move ctx rest = bodyMove ctx rest := by simp only [move, hs]
    rw [bodyMove] at hmove
    by_cases hlarge : maxBodySize < ctx.contentLength
    · rw [if_pos hlarge] at hmove
      exact ⟨.error, _, _, .halt hmove, Or.inl ⟨rfl, hlarge⟩⟩
    · by_cases hshort : rest.length < ctx.contentLength
      · rw [if_neg hlarge, if_pos hshort] at hmove
        exact ⟨.incomplete, _, _, .wait hmove, Or.inr (Or.inl ⟨rfl, hlarge, hshort⟩)⟩
      · rw [if_neg hlarge, if_neg hshort] at hmove
        refine ⟨.complete, _, _, .advance hmove (.halt rfl), Or.inr (Or.inr ?_)⟩
        exact ⟨rfl, hlarge, Nat.le_of_not_lt hshort, rfl⟩
  · rw [if_neg hlength] at hs
    have hnone : ctx.contentLength = 0 := Nat.eq_zero_of_not_pos hlength
    have hmove : move ctx rest = .halt true { ctx with complete := true } 0 := by
      simp only [move, hs]
    refine ⟨.complete, _, _, .halt hmove, Or.inr (Or.inr ⟨rfl, ?_, ?_, ?_⟩)⟩
    · rw [hnone]
      decide
    · exact hnone ▸ Nat.zero_le _
    · rw [hnone, List.take_zero]
      exact hbody

theorem parseRequest_head {start rest : Str} {lines : List Str} {b : Buffer} (hb : b.Wf)
    (head : Head b.peekReadable start lines rest) :
    HeadEnd start lines rest (reset.parseRequest b) := by
  obtain ⟨n, hcrlf, rfl, hlines⟩ := head
  have hmove : move reset b.peekReadable = startMove reset b.peekReadable n := by
    simp only [move, hcrlf]
    rfl
  have hends : ∀ r ctx ys, Drives move reset b.peekReadable (answer r) ctx ys →
      ∃ last, reset.parseRequest b = (r, ctx, last) := by
    intro r ctx ys hdrives
    obtain ⟨hr, hctx, -⟩ := parseRequest_unique hb hdrives
    exact ⟨_, Prod.ext hr (Prod.ext hctx rfl)⟩
  rw [startMove] at hmove
  rcases hparsed : reset.request.parseStartLine (b.peekReadable.take n) with ⟨ok, request⟩
  have hstart : request.body = [] :=
    (congrArg (fun out => out.2.body) hparsed).symm
  rw [hparsed] at hmove
  cases ok with
  | false =>
    obtain ⟨last, hend⟩ := hends .error _ _ (.halt hmove)
    rw [hend]
    exact .refused _ _ (Or.inl (congrArg Prod.fst hparsed))
  | true =>
    have hheaders : ({ reset with request, state := .headers } : HttpContext).state = .headers := rfl
    rcases drives_headLines hlines hheaders with
      ⟨hbad, ctx', ys, hdrives⟩ | ⟨hall, ctx', hbody, hcount, hstate, hleads⟩
    · obtain ⟨last, hend⟩ := hends .error _ _ (.advance hmove hdrives)
      rw [hend]
      exact .refused _ _ (Or.inr (Or.inl hbad))
    · obtain ⟨r, ctx'', ys, hdrives, hresult⟩ := drives_length rest hstate (hbody.trans hstart)
      obtain ⟨last, hend⟩ := hends r _ _ (.advance hmove (hleads _ _ _ hdrives))
      have hlast : ctx'.contentLength = lastLength lines := hcount
      rw [hlast] at hresult
      have hnot : ¬maxBodySize < lastLength lines →
          ¬HeadRefused (b.peekReadable.take n) lines := by
        rintro hsmall (hbad | hline | hlarge)
        · exact Bool.false_ne_true (hbad.symm.trans (congrArg Prod.fst hparsed))
        · exact hall hline
        · exact hsmall hlarge
      rw [hend]
      rcases hresult with ⟨rfl, hlarge⟩ | ⟨rfl, hsmall, hshort⟩ | ⟨rfl, hsmall, hlong, hwhole⟩
      · exact .refused _ _ (Or.inr (Or.inr hlarge))
      · exact .short _ _ (hnot hsmall) hshort
      · exact .whole _ _ (hnot hsmall) hlong hwhole

/-- A stream without a complete head is not completed. -/
theorem headLines_of_drives {ctx ctx' : HttpContext} {s ys : Str}
    (h : Drives move ctx s (some true) ctx' ys) (hs : ctx.state = .headers) :
    ∃ lines rest, HeadLines s lines rest := by
  generalize hr : some true = r at h
  induction h with
  | wait => cases hr
  | @halt ctx s r ctx' n hmove =>
    obtain rfl := Option.some.inj hr
    cases hcrlf : findCrlf s with
    | none => simp [move, hs, hcrlf] at hmove
    | some len =>
      simp only [move, hs, hcrlf, headerMove] at hmove
      split at hmove
      · cases hmove
      · split at hmove <;> cases hmove
  | @advance ctx s next n r ctx' ys hmove _ ih =>
    cases hcrlf : findCrlf s with
    | none => simp [move, hs, hcrlf] at hmove
    | some len =>
      by_cases hblank : s.take len = []
      · exact ⟨[], _, .blank hcrlf hblank⟩
      · have htakes := parseHeaderLine_takes ctx (s.take len)
        simp only [move, hs, hcrlf, headerMove, if_neg hblank] at hmove
        generalize ctx.parseHeaderLine (s.take len) = out at htakes hmove
        obtain ⟨ok, ctx''⟩ := out
        cases ok with
        | false => cases hmove
        | true =>
          obtain ⟨rfl, rfl⟩ := Move.advance.inj hmove
          obtain ⟨lines, rest, hlines⟩ := ih (htakes.state.trans hs) hr
          exact ⟨_, rest, .line hcrlf hblank hlines⟩

/-- A request that is complete has an accepted first line, and the rest follows it. -/
theorem drives_start {s ys : Str} {ctx' : HttpContext}
    (h : Drives move reset s (some true) ctx' ys) : ∃ n request, findCrlf s = some n ∧
      reset.request.parseStartLine (s.take n) = (true, request) ∧
      Drives move { reset with request, state := .headers } (s.drop (n + 2)) (some true) ctx' ys := by
  cases hcrlf : findCrlf s with
  | none =>
    have hwait : move reset s = .wait := by
      simp only [move, hcrlf]
      rfl
    obtain ⟨hanswer, -⟩ := drives_unique h (.wait hwait)
    cases hanswer
  | some n =>
    have hmove : move reset s = startMove reset s n := by
      simp only [move, hcrlf]
      rfl
    rw [startMove] at hmove
    rcases hparsed : reset.request.parseStartLine (s.take n) with ⟨ok, request⟩
    rw [hparsed] at hmove
    cases ok with
    | false =>
      obtain ⟨hanswer, -⟩ := drives_unique h (.halt hmove)
      cases hanswer
    | true =>
      refine ⟨n, request, rfl, hparsed, ?_⟩
      cases h with
      | halt hmove' => exact absurd (hmove.symm.trans hmove') (by simp)
      | advance hmove' hrest =>
        obtain ⟨rfl, rfl⟩ := Move.advance.inj (hmove.symm.trans hmove')
        exact hrest

theorem drives_complete {b : Buffer} (hb : b.Wf)
    (complete : (reset.parseRequest b).1 = .complete) :
    Drives move reset b.peekReadable (some true) (reset.parseRequest b).2.1
      (reset.parseRequest b).2.2.peekReadable := by
  have hdrives := (parseRequest_drives reset hb).2
  rwa [complete] at hdrives

theorem head_of_complete {b : Buffer} (hb : b.Wf)
    (complete : (reset.parseRequest b).1 = .complete) :
    ∃ start lines rest, Head b.peekReadable start lines rest := by
  obtain ⟨n, request, hcrlf, _, hrest⟩ := drives_start (drives_complete hb complete)
  obtain ⟨lines, rest, hlines⟩ := headLines_of_drives hrest rfl
  exact ⟨_, lines, rest, n, hcrlf, rfl, hlines⟩

end HttpContext

/-! ## Agreement with a strict reading -/

/-- Every content-length line says `n`, and without one `n` is zero. -/
structure Declares (lines : List Str) (n : Nat) : Prop where
  said : ∀ line ∈ lines, ∀ value, fieldValue isLooseLengthName line = some value →
    strictValue value = some n
  unsaid : (∀ line ∈ lines, fieldValue isLooseLengthName line = none) → n = 0

/-- A request is complete only with one strictly declared length of at most 1 MiB, and its
body is that many bytes; a head that declares none is answered with Error. -/
structure Delimited (s : Str) (out : Outcome) : Prop where
  complete : out.1 = .complete → ∃ start lines rest n, Head s start lines rest ∧
    Declares lines n ∧ n ≤ maxBodySize ∧ n ≤ rest.length ∧ out.2.1.request.body = rest.take n
  violated : ∀ start lines rest, Head s start lines rest →
    (¬∃ n ≤ maxBodySize, Declares lines n) → out.1 = .error

/-- The head is refused anyway, or its content-length lines are digits of the number that
the last one of exactly that name gives. -/
def PlainLength (s : Str) : Prop :=
  ∀ start lines rest, Head s start lines rest → HeadRefused start lines ∨
    ∀ line ∈ lines, ∀ value, fieldValue isLooseLengthName line = some value →
      strictValue value = some (lastLength lines)

/-- Without a line of the exact name nothing is declared; with one, what all say. -/
theorem foldl_declared {n : Nat} {lines : List Str} (m : Nat)
    (said : ∀ line ∈ lines, ∀ value, fieldValue isLengthName line = some value →
      stoul value = some n) :
    lines.foldl declared m = n ∨
      ((∀ line ∈ lines, fieldValue isLengthName line = none) ∧ lines.foldl declared m = m) := by
  induction lines generalizing m with
  | nil => exact Or.inr ⟨by simp, rfl⟩
  | cons line rest ih =>
    obtain ⟨hline, hrest⟩ := List.forall_mem_cons.mp said
    rw [List.foldl_cons]
    cases hfield : fieldValue isLengthName line with
    | none =>
      have hsame : declared m line = m := by rw [declared, hfield]
      rw [hsame]
      rcases ih m hrest with hn | ⟨hnone, hm⟩
      · exact Or.inl hn
      · exact Or.inr ⟨List.forall_mem_cons.mpr ⟨hfield, hnone⟩, hm⟩
    | some value =>
      have hn : declared m line = n := by
        simp only [declared, hfield, hline value hfield, Option.getD_some]
      rw [hn]
      rcases ih n hrest with hlast | ⟨-, hlast⟩
      · exact Or.inl hlast
      · exact Or.inl hlast

theorem lastLength_of_declares {lines : List Str} {n : Nat} (h : Declares lines n)
    (small : n ≤ maxBodySize) : lastLength lines = n ∨
      ((∀ line ∈ lines, fieldValue isLengthName line = none) ∧ lastLength lines = 0) := by
  refine foldl_declared 0 ?_
  intro line hline value hvalue
  exact stoul_strict (h.said line hline value (fieldValue_loose hvalue))
    (small.trans_lt (by decide))

theorem declares_lastLength {lines : List Str}
    (plain : ∀ line ∈ lines, ∀ value, fieldValue isLooseLengthName line = some value →
      strictValue value = some (lastLength lines)) : Declares lines (lastLength lines) := by
  refine ⟨plain, ?_⟩
  intro hnone
  have hexact : ∀ line ∈ lines, fieldValue isLengthName line = none := by
    intro line hline
    by_contra hsome
    obtain ⟨value, hvalue⟩ := Option.ne_none_iff_exists'.mp hsome
    exact Option.some_ne_none _ ((fieldValue_loose hvalue).symm.trans (hnone line hline))
  have hfold := foldl_declared (n := 0) 0 (fun line hline value hvalue =>
    absurd (hvalue.symm.trans (hexact line hline)) (Option.some_ne_none _))
  rcases hfold with hzero | ⟨-, hzero⟩
  · exact hzero
  · exact hzero

theorem lastLength_small {start : Str} {lines : List Str} (h : ¬HeadRefused start lines) :
    lastLength lines ≤ maxBodySize := by
  apply Nat.le_of_not_lt
  intro hlarge
  exact h (Or.inr (Or.inr hlarge))

namespace HttpContext

/-- The parser delimits a stream as a strict reading does exactly when its length is plain. -/
theorem delimited_iff {b : Buffer} (hb : b.Wf) :
    Delimited b.peekReadable (reset.parseRequest b) ↔ PlainLength b.peekReadable := by
  constructor
  · intro hdelimited start lines rest head
    by_cases hrefused : HeadRefused start lines
    · exact Or.inl hrefused
    · have hend := parseRequest_head hb head
      generalize reset.parseRequest b = out at hdelimited hend
      cases hend with
      | refused ctx last hbad => exact absurd hbad hrefused
      | short ctx last _ hshort =>
        have hsome : ∃ n ≤ maxBodySize, Declares lines n := by
          by_contra hnone
          cases hdelimited.violated start lines rest head hnone
        obtain ⟨n, hsmall, hdeclares⟩ := hsome
        rcases lastLength_of_declares hdeclares hsmall with hlast | ⟨-, hzero⟩
        · exact Or.inr (hlast ▸ hdeclares.said)
        · omega
      | whole ctx last _ hlong hbody =>
        obtain ⟨start', lines', rest', n, head', hdeclares, hsmall, hn, hbody'⟩ :=
          hdelimited.complete rfl
        obtain ⟨rfl, rfl, rfl⟩ := head_unique head head'
        have hlength := congrArg List.length (hbody.symm.trans hbody')
        rw [List.length_take, List.length_take] at hlength
        have hlast : lastLength lines = n := by omega
        exact Or.inr (hlast ▸ hdeclares.said)
  · intro hplain
    constructor
    · intro hcomplete
      obtain ⟨start, lines, rest, head⟩ := head_of_complete hb hcomplete
      have hend := parseRequest_head hb head
      generalize reset.parseRequest b = out at hcomplete hend ⊢
      cases hend with
      | refused => cases hcomplete
      | short => cases hcomplete
      | whole ctx last hnot hlong hbody =>
        have hdeclares := declares_lastLength ((hplain start lines rest head).resolve_left hnot)
        exact ⟨start, lines, rest, lastLength lines, head, hdeclares, lastLength_small hnot, hlong,
          hbody⟩
    · intro start lines rest head hnone
      have hend := parseRequest_head hb head
      generalize reset.parseRequest b = out at hend ⊢
      rcases hplain start lines rest head with hrefused | hall
      · cases hend with
        | refused => rfl
        | short _ _ hnot => exact absurd hrefused hnot
        | whole _ _ hnot => exact absurd hrefused hnot
      · cases hend with
        | refused => rfl
        | short ctx last hnot hshort =>
          exact absurd ⟨_, lastLength_small hnot, declares_lastLength hall⟩ hnone
        | whole ctx last hnot hlong hbody =>
          exact absurd ⟨_, lastLength_small hnot, declares_lastLength hall⟩ hnone

/-- The stream of a request with one content-length line and five bytes after its head. -/
def posted (line : String) : Str :=
  lit "POST /a HTTP/1.1\r\n" ++ lit line ++ lit "\r\n\r\nhello"

theorem delimited_posted :
    let b := (Buffer.new 16).append (posted "content-LENGTH:\t 5 ")
    Delimited b.peekReadable (reset.parseRequest b) := by
  intro b
  have hb : b.Wf := Buffer.append_wf (Buffer.new_wf 16) _
  have hinput : b.peekReadable = posted "content-LENGTH:\t 5 " := by decide +kernel
  have hlines : HeadLines ((posted "content-LENGTH:\t 5 ").drop 18) [lit "content-LENGTH:\t 5 "]
      (lit "hello") :=
    .line (n := 19) (by decide) (by decide) (.blank (n := 0) (by decide) (by decide))
  have hhead : Head (posted "content-LENGTH:\t 5 ") (lit "POST /a HTTP/1.1")
      [lit "content-LENGTH:\t 5 "] (lit "hello") := ⟨16, by decide, by decide, hlines⟩
  refine (delimited_iff hb).mpr ?_
  intro start lines rest head
  rw [hinput] at head
  obtain ⟨rfl, rfl, rfl⟩ := head_unique hhead head
  refine Or.inr ?_
  intro line hline value hvalue
  obtain rfl := List.mem_singleton.mp hline
  have hfound : fieldValue isLooseLengthName (lit "content-LENGTH:\t 5 ") = some (lit "\t 5 ") := by
    decide +kernel
  obtain rfl := Option.some.inj (hfound.symm.trans hvalue)
  decide +kernel

/-- Letters behind the number are ignored: the request is complete with a body of five bytes. -/
theorem not_delimited_junk :
    let b := (Buffer.new 16).append (posted "Content-Length: 5abc")
    (reset.parseRequest b).1 = .complete ∧ (reset.parseRequest b).2.1.request.body = lit "hello" ∧
      ¬Delimited b.peekReadable (reset.parseRequest b) := by
  intro b
  have hinput : b.peekReadable = posted "Content-Length: 5abc" := by decide +kernel
  have hcomplete : (reset.parseRequest b).1 = .complete := by decide +kernel
  have hlines : HeadLines ((posted "Content-Length: 5abc").drop 18) [lit "Content-Length: 5abc"]
      (lit "hello") :=
    .line (n := 20) (by decide) (by decide) (.blank (n := 0) (by decide) (by decide))
  have hhead : Head (posted "Content-Length: 5abc") (lit "POST /a HTTP/1.1")
      [lit "Content-Length: 5abc"] (lit "hello") := ⟨16, by decide, by decide, hlines⟩
  refine ⟨hcomplete, by decide +kernel, ?_⟩
  intro hdelimited
  obtain ⟨start, lines, rest, n, head, hdeclares, -⟩ := hdelimited.complete hcomplete
  rw [hinput] at head
  obtain ⟨rfl, rfl, rfl⟩ := head_unique hhead head
  have hfound : fieldValue isLooseLengthName (lit "Content-Length: 5abc") = some (lit " 5abc") := by
    decide +kernel
  have hstrict := hdeclares.said _ List.mem_cons_self _ hfound
  have hjunk : strictValue (lit " 5abc") = none := by decide +kernel
  exact Option.some_ne_none _ (hstrict.symm.trans hjunk)

end HttpContext

end WebServer
