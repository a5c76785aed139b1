import WebServer.ParserStream

/-!
# The parser ends, and waits only for bytes

The two loops of `ParseRequest` with fuel that may run out: a fuel above the number of readable
bytes never does. A call that answers Incomplete has left no whole line and no whole body in the
buffer, so that no further call does anything before more bytes come.
-/

namespace WebServer

open Resumable

theorem findCrlf_none_iff_absent (s : Str) : findCrlf s = none ↔ ¬crlf <:+: s := by
  induction s with
  | nil => simp [findCrlf, crlf]
  | cons a s ih =>
    cases s with
    | nil =>
      have hlong : ¬crlf <:+: [a] := by
        intro h
        have hlength := h.length_le
        simp [crlf] at hlength
      simp [findCrlf, hlong]
    | cons b rest =>
      rw [List.infix_cons_iff, findCrlf]
      by_cases hcrlf : a = cr ∧ b = lf
      · obtain ⟨rfl, rfl⟩ := hcrlf
        simp [crlf]
      · have hhead : ¬crlf <+: a :: b :: rest := by
          rintro ⟨tail, htail⟩
          simp only [crlf, List.cons_append, List.nil_append, List.cons.injEq] at htail
          exact hcrlf ⟨htail.1.symm, htail.2.1.symm⟩
        rw [if_neg hcrlf, Option.map_eq_none_iff, ih]
        simp [hhead]

namespace HttpContext

/-- The loop of `ParseHeaders`; none when the fuel does not suffice. -/
def parseHeadersWithin : Nat → HttpContext → Buffer → Option Outcome
  | 0, _, _ => none
  | fuel + 1, ctx, b =>
    match readLine b with
    | none => some (.incomplete, ctx, b)
    | some (line, b') =>
      if line = [] then
        some (.complete, { ctx with state := if 0 < ctx.contentLength then .body else .finish }, b')
      else
        let (ok, ctx') := ctx.parseHeaderLine line
        if ok then parseHeadersWithin fuel ctx' b' else some (.error, ctx', b')

/-- The loop of `ParseRequest` over the same fuel. -/
def parseRequestWithin : Nat → HttpContext → Buffer → Option Outcome
  | 0, _, _ => none
  | fuel + 1, ctx, b =>
    match ctx.state with
    | .requestLine =>
      match ctx.parseRequestLine b with
      | (.complete, ctx', b') => parseRequestWithin fuel ctx' b'
      | out => some out
    | .headers =>
      match parseHeadersWithin fuel ctx b with
      | none => none
      | some (.complete, ctx', b') => parseRequestWithin fuel ctx' b'
      | some out => some out
    | .body =>
      match ctx.parseBody b with
      | (.complete, ctx', b') => parseRequestWithin fuel ctx' b'
      | out => some out
    | .finish => some (.complete, { ctx with complete := true }, b)

/-! ## The fuel suffices -/

theorem readLine_shorter {b b' : Buffer} (hb : b.Wf) {line : Str}
    (h : readLine b = some (line, b')) : b'.Wf ∧ b'.readableBytes < b.readableBytes := by
  obtain ⟨n, hn, _, hb', hpeek⟩ := readLine_some hb h
  have hlen := findCrlf_length hn
  refine ⟨hb', ?_⟩
  rw [← Buffer.peekReadable_length hb', hpeek, List.length_drop]
  rw [← Buffer.peekReadable_length hb]
  omega

theorem parseHeadersWithin_enough {fuel turns : Nat} {ctx : HttpContext} {b : Buffer} (hb : b.Wf)
    (enough : b.readableBytes < fuel) (turned : b.readableBytes < turns) :
    parseHeadersWithin fuel ctx b = some (parseHeadersLoop turns ctx b) := by
  induction fuel generalizing turns ctx b with
  | zero => omega
  | succ fuel ih =>
    cases turns with
    | zero => omega
    | succ turns =>
      unfold parseHeadersWithin parseHeadersLoop
      cases hline : readLine b with
      | none => rfl
      | some lb =>
        obtain ⟨line, b'⟩ := lb
        obtain ⟨hb', hshorter⟩ := readLine_shorter hb hline
        by_cases blank : line = []
        · simp only [if_pos blank]
        · simp only [if_neg blank]
          generalize ctx.parseHeaderLine line = parsed
          obtain ⟨ok, ctx'⟩ := parsed
          cases ok with
          | false => rfl
          | true => exact ih hb' (by omega) (by omega)

theorem parseRequestLine_shorter {ctx : HttpContext} {b : Buffer} (hb : b.Wf)
    (h : (ctx.parseRequestLine b).1 = .complete) :
    (ctx.parseRequestLine b).2.2.readableBytes < b.readableBytes := by
  unfold parseRequestLine at h ⊢
  cases hline : readLine b with
  | none =>
    simp only [hline] at h
    cases h
  | some lb =>
    obtain ⟨line, b'⟩ := lb
    obtain ⟨_, hshorter⟩ := readLine_shorter hb hline
    dsimp only
    generalize ctx.request.parseStartLine line = parsed
    obtain ⟨ok, request⟩ := parsed
    cases ok <;> exact hshorter

/-- What the loops may need, from each state on. -/
def need (ctx : HttpContext) (b : Buffer) : Nat :=
  match ctx.state with
  | .requestLine => b.readableBytes + 3
  | .headers => b.readableBytes + 2
  | .body => 1
  | .finish => 0

theorem need_later {ctx : HttpContext} {b : Buffer}
    (h : ctx.state = .body ∨ ctx.state = .finish) : need ctx b ≤ 1 ∧ rank ctx.state ≤ 1 := by
  rcases h with h | h
  · simp [need, rank, h]
  · simp [need, rank, h]

theorem parseRequestWithin_enough {fuel turns : Nat} {ctx : HttpContext} {b : Buffer}
    (hb : b.Wf) (enough : need ctx b < fuel) (turned : rank ctx.state < turns) :
    parseRequestWithin fuel ctx b = some (parseLoop turns ctx b) := by
  induction fuel generalizing turns ctx b with
  | zero => omega
  | succ fuel ih =>
    cases turns with
    | zero => omega
    | succ turns =>
      unfold parseRequestWithin parseLoop
      unfold need at enough
      cases hs : ctx.state with
      | requestLine =>
        simp only [hs, rank] at enough turned
        obtain ⟨⟨hb', _⟩, hstate⟩ := parseRequestLine_follows hb hs
        have hshorter : (ctx.parseRequestLine b).1 = .complete → _ := parseRequestLine_shorter hb
        dsimp only
        generalize ctx.parseRequestLine b = out at hb' hstate hshorter ⊢
        obtain ⟨result, ctx', b'⟩ := out
        cases result with
        | complete =>
          have hnext := hstate rfl
          have hless := hshorter rfl
          dsimp only at hnext hless
          apply ih hb'
          · simp only [need, hnext]
            omega
          · rw [hnext]
            simp only [rank]
            omega
        | incomplete => rfl
        | error => rfl
      | headers =>
        simp only [hs, rank] at enough turned
        obtain ⟨⟨hb', _⟩, hstate⟩ := parseHeadersLoop_follows hb hs (Nat.lt_succ_self _)
        have hheaders : parseHeadersWithin fuel ctx b = some (ctx.parseHeaders b) :=
          parseHeadersWithin_enough hb (by omega) (Nat.lt_succ_self _)
        rw [hheaders]
        change _ = some (match ctx.parseHeaders b with
          | (.complete, ctx', b') => parseLoop turns ctx' b'
          | out => out)
        unfold parseHeaders
        generalize parseHeadersLoop (b.readableBytes + 1) ctx b = out at hb' hstate ⊢
        obtain ⟨result, ctx', b'⟩ := out
        cases result with
        | complete =>
          have hnext : ctx'.state = .body ∨ ctx'.state = .finish := hstate rfl
          obtain ⟨hneed, hrank⟩ := need_later (b := b') hnext
          exact ih hb' (by omega) (by omega)
        | incomplete => rfl
        | error => rfl
      | body =>
        simp only [hs, rank] at enough turned
        obtain ⟨⟨hb', _⟩, hstate⟩ := parseBody_follows hb hs
        dsimp only
        generalize ctx.parseBody b = out at hb' hstate ⊢
        obtain ⟨result, ctx', b'⟩ := out
        cases result with
        | complete =>
          have hnext : ctx'.state = .finish := hstate rfl
          apply ih hb'
          · simp only [need, hnext]
            omega
          · simp only [hnext, rank]
            omega
        | incomplete => rfl
        | error => rfl
      | finish => rfl

/-- With more fuel than this `ParseRequest` returns, and always the same. -/
theorem parseRequest_ends (ctx : HttpContext) {b : Buffer} (hb : b.Wf) {fuel : Nat}
    (enough : b.readableBytes + 3 < fuel) :
    parseRequestWithin fuel ctx b = some (ctx.parseRequest b) := by
  apply parseRequestWithin_enough hb
  · unfold need
    cases ctx.state <;> dsimp only <;> omega
  · cases ctx.state <;> decide

/-! ## Waiting for bytes -/

/-- The parser needs bytes that have not come: the rest of a line, or of a body it will accept. -/
def Waits (ctx : HttpContext) (rest : Str) : Prop :=
  (ctx.state = .requestLine ∨ ctx.state = .headers) ∧ ¬crlf <:+: rest ∨
    ctx.state = .body ∧ rest.length < ctx.contentLength ∧ ctx.contentLength ≤ maxBodySize

theorem waits_of_move {ctx : HttpContext} {rest : Str} (h : move ctx rest = .wait) :
    Waits ctx rest := by
  unfold move at h
  cases hs : ctx.state with
  | requestLine =>
    cases hn : findCrlf rest with
    | none => exact .inl ⟨.inl hs, (findCrlf_none_iff_absent rest).mp hn⟩
    | some n =>
      have hused := used_startMove ctx rest n
      simp only [hs, hn] at h
      rw [h] at hused
      cases hused
  | headers =>
    cases hn : findCrlf rest with
    | none => exact .inl ⟨.inr hs, (findCrlf_none_iff_absent rest).mp hn⟩
    | some n =>
      have hused := used_headerMove ctx rest n
      simp only [hs, hn] at h
      rw [h] at hused
      cases hused
  | body =>
    simp only [hs, bodyMove] at h
    split at h
    · cases h
    · next small =>
      split at h
      · next short => exact .inr ⟨hs, short, by omega⟩
      · cases h
  | finish => simp [hs] at h

/-- Without more bytes a parser that waits goes on waiting, as it is. -/
theorem parseRequest_waits {ctx : HttpContext} {b : Buffer} (hb : b.Wf)
    (h : Waits ctx b.peekReadable) : ctx.parseRequest b = (.incomplete, ctx, b) := by
  rcases h with ⟨hs, hline⟩ | ⟨hs, hshort, hsmall⟩
  · have hread : readLine b = none := by
      have hfind : b.findCRLF = none := (findCrlf_none_iff_absent _).mpr hline
      simp [readLine, hfind]
    rcases hs with hs | hs
    · simp [parseRequest, parseLoop, hs, parseRequestLine, hread]
    · simp [parseRequest, parseLoop, hs, parseHeaders, parseHeadersLoop, hread]
  · rw [Buffer.peekReadable_length hb] at hshort
    have hlarge : ¬maxBodySize < ctx.contentLength := by omega
    simp [parseRequest, parseLoop, hs, parseBody, hlarge, hshort]

/-- From any context and on any buffer `ParseRequest` returns and consumes a prefix of the
readable bytes. After Incomplete it waits for the rest of a line or of a body, and a second call
answers Incomplete and changes neither context nor buffer. -/
theorem parseRequest_progress (ctx : HttpContext) {b : Buffer} (hb : b.Wf) :
    (∀ fuel, b.readableBytes + 3 < fuel →
        parseRequestWithin fuel ctx b = some (ctx.parseRequest b)) ∧
      (ctx.parseRequest b).2.2.peekReadable <:+ b.peekReadable ∧
      ∀ ctx' b', ctx.parseRequest b = (.incomplete, ctx', b') →
        Waits ctx' b'.peekReadable ∧ ctx'.parseRequest b' = (.incomplete, ctx', b') := by
  obtain ⟨hwf, hdrives⟩ := parseRequest_drives ctx hb
  refine ⟨?_, drives_suffix hdrives, ?_⟩
  · intro fuel enough
    exact parseRequest_ends ctx hb enough
  · intro ctx' b' h
    rw [h] at hwf hdrives
    have hwaits := waits_of_move (drives_wait hdrives)
    exact ⟨hwaits, parseRequest_waits hwf hwaits⟩

/-- Half a request line is left alone by a second call. -/
theorem parseRequest_progress_line :
    let b := (Buffer.new 32).append (lit "GET /index.html HT")
    ∃ ctx rest, parseRequest {} b = (.incomplete, ctx, rest) ∧ rest.peekReadable <:+ b.peekReadable ∧
      ctx.parseRequest rest = (.incomplete, ctx, rest) := by
  intro b
  have hb : b.Wf := Buffer.append_wf (Buffer.new_wf 32) _
  have hresult : (parseRequest {} b).1 = .incomplete := by decide +kernel
  obtain ⟨_, hsuffix, hwaits⟩ := parseRequest_progress {} hb
  generalize parseRequest {} b = outcome at hresult hsuffix hwaits
  obtain ⟨result, ctx, rest⟩ := outcome
  obtain rfl : result = .incomplete := hresult
  exact ⟨ctx, rest, rfl, hsuffix, (hwaits ctx rest rfl).2⟩
end HttpContext

end WebServer
