import WebServer.HttpContext

/-!
# The parser as a resumable consumer

The nested loops of `parseRequest` drive the single-turn function `move` until
it waits or halts, and `move` is stable under appending bytes. Everything that
depends on where the stream is cut follows from these two facts.
-/

namespace WebServer

open Resumable

namespace HttpContext

theorem startMove_extend (ctx : HttpContext) {xs : Str} {n : Nat} (h : n ≤ xs.length)
    (ys : Str) : startMove ctx (xs ++ ys) n = startMove ctx xs n := by
  simp only [startMove, List.take_append_of_le_length h]

theorem headerMove_extend (ctx : HttpContext) {xs : Str} {n : Nat} (h : n ≤ xs.length)
    (ys : Str) : headerMove ctx (xs ++ ys) n = headerMove ctx xs n := by
  simp only [headerMove, List.take_append_of_le_length h]

theorem bodyMove_extend (ctx : HttpContext) {xs : Str} (h : bodyMove ctx xs ≠ .wait)
    (ys : Str) : bodyMove ctx (xs ++ ys) = bodyMove ctx xs := by
  unfold bodyMove at h ⊢
  by_cases large : maxBodySize < ctx.contentLength
  · rw [if_pos large, if_pos large]
  · rw [if_neg large] at h ⊢
    rw [if_neg large]
    by_cases short : xs.length < ctx.contentLength
    · exact False.elim (h (if_pos short))
    · have hle : ctx.contentLength ≤ xs.length := Nat.le_of_not_lt short
      have long : ¬ (xs ++ ys).length < ctx.contentLength := by
        rw [List.length_append]
        omega
      rw [if_neg short, if_neg long, List.take_append_of_le_length hle]

/-- A turn that does not wait is unchanged when more bytes are there. -/
theorem move_extend (ctx : HttpContext) {xs : Str} (h : move ctx xs ≠ .wait) (ys : Str) :
    move ctx (xs ++ ys) = move ctx xs := by
  unfold move at h ⊢
  cases hs : ctx.state with
  | requestLine =>
    cases hn : findCrlf xs with
    | none => simp [hs, hn] at h
    | some n =>
      have hlen := findCrlf_length hn
      simp only [findCrlf_append hn ys]
      exact startMove_extend ctx (by omega) ys
  | headers =>
    cases hn : findCrlf xs with
    | none => simp [hs, hn] at h
    | some n =>
      have hlen := findCrlf_length hn
      simp only [findCrlf_append hn ys]
      exact headerMove_extend ctx (by omega) ys
  | body =>
    simp only [hs] at h
    exact bodyMove_extend ctx h ys
  | finish => rfl

/-- How many bytes a move takes. -/
def used : Move HttpContext Bool → Nat
  | .wait => 0
  | .advance _ n => n
  | .halt _ _ n => n

theorem used_startMove (ctx : HttpContext) (xs : Str) (n : Nat) :
    used (startMove ctx xs n) = n + 2 := by
  unfold startMove
  generalize ctx.request.parseStartLine (xs.take n) = parsed
  obtain ⟨ok, request⟩ := parsed
  cases ok <;> rfl

theorem used_headerMove (ctx : HttpContext) (xs : Str) (n : Nat) :
    used (headerMove ctx xs n) = n + 2 := by
  unfold headerMove
  generalize ctx.parseHeaderLine (xs.take n) = parsed
  obtain ⟨ok, ctx'⟩ := parsed
  split
  · rfl
  · cases ok <;> rfl

theorem used_move_le (ctx : HttpContext) (xs : Str) : used (move ctx xs) ≤ xs.length := by
  unfold move
  cases hs : ctx.state with
  | requestLine =>
    cases hn : findCrlf xs with
    | none => exact Nat.zero_le _
    | some n => exact (used_startMove ctx xs n).trans_le (findCrlf_length hn)
  | headers =>
    cases hn : findCrlf xs with
    | none => exact Nat.zero_le _
    | some n => exact (used_headerMove ctx xs n).trans_le (findCrlf_length hn)
  | body =>
    simp only [bodyMove]
    split
    · exact Nat.zero_le _
    · split
      · exact Nat.zero_le _
      · rename_i _ enough
        exact Nat.le_of_not_lt enough
  | finish => exact Nat.zero_le _

theorem move_stable : Stable move where
  advance_used s xs t n h := by
    have hu := used_move_le s xs
    rwa [h] at hu
  halt_used s xs r t n h := by
    have hu := used_move_le s xs
    rwa [h] at hu
  advance_extend s xs t n ys h := by
    rw [move_extend s (by simp [h]) ys, h]
  halt_extend s xs r t n ys h := by
    rw [move_extend s (by simp [h]) ys, h]

/-- `none` is Incomplete, `some true` Complete and `some false` Error. -/
def answer : ParseResult → Option Bool
  | .incomplete => none
  | .complete => some true
  | .error => some false

theorem answer_injective {r r' : ParseResult} (h : answer r = answer r') : r = r' := by
  cases r <;> cases r' <;> first | rfl | cases h

/-- What a sub-parser does to the readable bytes. Complete means that the loop
goes on from the new context; the other results end the call. -/
def Follows (ctx : HttpContext) (b : Buffer) (out : Outcome) : Prop :=
  out.2.2.Wf ∧
  match out.1 with
  | .complete => Leads move ctx b.peekReadable out.2.1 out.2.2.peekReadable
  | .incomplete => Drives move ctx b.peekReadable none out.2.1 out.2.2.peekReadable
  | .error => Drives move ctx b.peekReadable (some false) out.2.1 out.2.2.peekReadable

theorem readLine_some {b b' : Buffer} (hb : b.Wf) {line : Str}
    (h : readLine b = some (line, b')) :
    ∃ n, findCrlf b.peekReadable = some n ∧ line = b.peekReadable.take n ∧ b'.Wf ∧
      b'.peekReadable = b.peekReadable.drop (n + 2) := by
  unfold readLine at h
  cases hn : b.findCRLF with
  | none => simp [hn] at h
  | some n =>
    simp only [hn, Option.some.injEq, Prod.mk.injEq] at h
    obtain ⟨rfl, rfl⟩ := h
    exact ⟨n, hn, rfl, Buffer.consume_wf hb _, Buffer.consume_peekReadable hb _⟩

theorem readLine_none {b : Buffer} (h : readLine b = none) :
    findCrlf b.peekReadable = none := by
  unfold readLine at h
  cases hn : b.findCRLF with
  | none => exact hn
  | some n => simp [hn] at h

theorem parseRequestLine_follows {ctx : HttpContext} {b : Buffer} (hb : b.Wf)
    (hs : ctx.state = .requestLine) :
    Follows ctx b (ctx.parseRequestLine b) ∧
      ((ctx.parseRequestLine b).1 = .complete →
        (ctx.parseRequestLine b).2.1.state = .headers) := by
  unfold parseRequestLine
  cases hl : readLine b with
  | none =>
    have hm : move ctx b.peekReadable = .wait := by simp [move, hs, readLine_none hl]
    exact ⟨⟨hb, .wait hm⟩, fun h => by cases h⟩
  | some lb =>
    obtain ⟨line, b'⟩ := lb
    obtain ⟨n, hn, rfl, hb', hpeek⟩ := readLine_some hb hl
    have hm : move ctx b.peekReadable = startMove ctx b.peekReadable n := by
      simp [move, hs, hn]
    unfold startMove at hm
    dsimp only
    generalize ctx.request.parseStartLine (b.peekReadable.take n) = parsed at hm ⊢
    obtain ⟨ok, request⟩ := parsed
    cases ok with
    | true => exact ⟨⟨hb', hpeek ▸ leads_advance hm⟩, fun _ => rfl⟩
    | false => exact ⟨⟨hb', hpeek ▸ .halt hm⟩, fun h => by cases h⟩

theorem parseHeaderLine_state (ctx : HttpContext) (line : Str) :
    (ctx.parseHeaderLine line).2.state = ctx.state := by
  unfold parseHeaderLine
  cases splitAtByte colon line with
  | none => rfl
  | some kv =>
    dsimp only
    split
    · split <;> rfl
    · rfl

/-- The header loop, by induction on its fuel; each line read makes the readable
part shorter, so a fuel above its length never runs out. -/
theorem parseHeadersLoop_follows {fuel : Nat} {ctx : HttpContext} {b : Buffer} (hb : b.Wf)
    (hs : ctx.state = .headers) (enough : b.readableBytes < fuel) :
    Follows ctx b (parseHeadersLoop fuel ctx b) ∧
      ((parseHeadersLoop fuel ctx b).1 = .complete →
        (parseHeadersLoop fuel ctx b).2.1.state = .body ∨
        (parseHeadersLoop fuel ctx b).2.1.state = .finish) := by
  induction fuel generalizing ctx b with
  | zero => omega
  | succ fuel ih =>
    unfold parseHeadersLoop
    cases hl : readLine b with
    | none =>
      have hm : move ctx b.peekReadable = .wait := by simp [move, hs, readLine_none hl]
      exact ⟨⟨hb, .wait hm⟩, fun h => by cases h⟩
    | some lb =>
      obtain ⟨line, b'⟩ := lb
      obtain ⟨n, hn, rfl, hb', hpeek⟩ := readLine_some hb hl
      have hm : move ctx b.peekReadable = headerMove ctx b.peekReadable n := by
        simp [move, hs, hn]
      unfold headerMove at hm
      by_cases blank : b.peekReadable.take n = []
      · rw [if_pos blank] at hm
        simp only [if_pos blank]
        refine ⟨⟨hb', hpeek ▸ leads_advance hm⟩, fun _ => ?_⟩
        by_cases more : 0 < ctx.contentLength
        · exact Or.inl (if_pos more)
        · exact Or.inr (if_neg more)
      · rw [if_neg blank] at hm
        simp only [if_neg blank]
        have hkeep := parseHeaderLine_state ctx (b.peekReadable.take n)
        generalize ctx.parseHeaderLine (b.peekReadable.take n) = parsed at hm hkeep ⊢
        obtain ⟨ok, ctx'⟩ := parsed
        cases ok with
        | false => exact ⟨⟨hb', hpeek ▸ .halt hm⟩, fun h => by cases h⟩
        | true =>
          have shorter : b'.readableBytes < fuel := by
            have hlen := findCrlf_length hn
            rw [← Buffer.peekReadable_length hb', hpeek, List.length_drop]
            rw [← Buffer.peekReadable_length hb] at enough
            omega
          obtain ⟨⟨hw, hf⟩, hstate⟩ := ih hb' (hkeep.trans hs) shorter
          have first := leads_advance hm
          rw [← hpeek] at first
          refine ⟨⟨hw, ?_⟩, hstate⟩
          dsimp only at hf ⊢
          generalize parseHeadersLoop fuel ctx' b' = out at hf ⊢
          obtain ⟨r, ctx'', b''⟩ := out
          cases r with
          | complete => exact leads_trans first hf
          | incomplete => exact first _ _ _ hf
          | error => exact first _ _ _ hf

theorem parseBody_follows {ctx : HttpContext} {b : Buffer} (hb : b.Wf)
    (hs : ctx.state = .body) :
    Follows ctx b (ctx.parseBody b) ∧
      ((ctx.parseBody b).1 = .complete → (ctx.parseBody b).2.1.state = .finish) := by
  have hm : move ctx b.peekReadable = bodyMove ctx b.peekReadable := by simp [move, hs]
  unfold bodyMove at hm
  unfold parseBody
  rw [Buffer.peekReadable_length hb] at hm
  by_cases large : maxBodySize < ctx.contentLength
  · rw [if_pos large] at hm ⊢
    exact ⟨⟨hb, .halt hm⟩, fun h => by cases h⟩
  rw [if_neg large] at hm ⊢
  by_cases short : b.readableBytes < ctx.contentLength
  · rw [if_pos short] at hm ⊢
    exact ⟨⟨hb, .wait hm⟩, fun h => by cases h⟩
  · rw [if_neg short] at hm ⊢
    refine ⟨⟨Buffer.consume_wf hb _, ?_⟩, fun _ => rfl⟩
    have hlead := leads_advance hm
    rw [← Buffer.consume_peekReadable hb] at hlead
    exact hlead

/-- Turns left before the loop must return. -/
def rank : ParseState → Nat
  | .requestLine => 3
  | .headers => 2
  | .body => 1
  | .finish => 0

/-- One sub-parser followed by the rest of the loop. -/
theorem follows_loop {ctx : HttpContext} {b : Buffer} {out : Outcome} {fuel : Nat}
    (sub : Follows ctx b out)
    (rest : out.1 = .complete →
      (parseLoop fuel out.2.1 out.2.2).2.2.Wf ∧
      Drives move out.2.1 out.2.2.peekReadable (answer (parseLoop fuel out.2.1 out.2.2).1)
        (parseLoop fuel out.2.1 out.2.2).2.1
        (parseLoop fuel out.2.1 out.2.2).2.2.peekReadable) :
    let final := match out with
      | (.complete, ctx', b') => parseLoop fuel ctx' b'
      | out => out
    final.2.2.Wf ∧
      Drives move ctx b.peekReadable (answer final.1) final.2.1 final.2.2.peekReadable := by
  obtain ⟨r, ctx', b'⟩ := out
  obtain ⟨hw, hf⟩ := sub
  cases r with
  | complete =>
    obtain ⟨hw', hd⟩ := rest rfl
    exact ⟨hw', hf _ _ _ hd⟩
  | incomplete => exact ⟨hw, hf⟩
  | error => exact ⟨hw, hf⟩

theorem parseLoop_drives {fuel : Nat} {ctx : HttpContext} {b : Buffer} (hb : b.Wf)
    (enough : rank ctx.state < fuel) :
    (parseLoop fuel ctx b).2.2.Wf ∧
      Drives move ctx b.peekReadable (answer (parseLoop fuel ctx b).1)
        (parseLoop fuel ctx b).2.1 (parseLoop fuel ctx b).2.2.peekReadable := by
  induction fuel generalizing ctx b with
  | zero => omega
  | succ fuel ih =>
    unfold parseLoop
    cases hs : ctx.state with
    | requestLine =>
      obtain ⟨sub, next⟩ := parseRequestLine_follows hb hs
      refine follows_loop sub fun hc => ih sub.1 ?_
      rw [hs] at enough
      rw [next hc]
      simp only [rank] at enough ⊢
      omega
    | headers =>
      obtain ⟨sub, next⟩ := parseHeadersLoop_follows hb hs (Nat.lt_succ_self _)
      refine follows_loop sub fun hc => ih sub.1 ?_
      rw [hs] at enough
      rcases next hc with next | next <;>
        · simp only [parseHeaders, next, rank] at enough ⊢
          omega
    | body =>
      obtain ⟨sub, next⟩ := parseBody_follows hb hs
      refine follows_loop sub fun hc => ih sub.1 ?_
      rw [hs] at enough
      rw [next hc]
      simp only [rank] at enough ⊢
      omega
    | finish =>
      have hm : move ctx b.peekReadable = .halt true { ctx with complete := true } 0 := by
        simp [move, hs]
      refine ⟨hb, ?_⟩
      have hd := Drives.halt hm
      rw [List.drop_zero, hs] at hd
      exact hd

/-- `ParseRequest` terminates and drives the single-turn parser over the readable
bytes to its end. -/
theorem parseRequest_drives (ctx : HttpContext) {b : Buffer} (hb : b.Wf) :
    (ctx.parseRequest b).2.2.Wf ∧
      Drives move ctx b.peekReadable (answer (ctx.parseRequest b).1)
        (ctx.parseRequest b).2.1 (ctx.parseRequest b).2.2.peekReadable := by
  apply parseLoop_drives hb
  cases ctx.state <;> decide

/-- Any other account of the same bytes gives the result of `ParseRequest`. -/
theorem parseRequest_unique {ctx : HttpContext} {b : Buffer} (hb : b.Wf) {r : ParseResult}
    {ctx' : HttpContext} {rest : Str}
    (h : Drives move ctx b.peekReadable (answer r) ctx' rest) :
    (ctx.parseRequest b).1 = r ∧ (ctx.parseRequest b).2.1 = ctx' ∧
      (ctx.parseRequest b).2.2.peekReadable = rest := by
  obtain ⟨hr, hc, hu⟩ := drives_unique (parseRequest_drives ctx hb).2 h
  exact ⟨answer_injective hr, hc, hu⟩

/-- Only the end of a request is accepted. -/
theorem move_accepts {ctx ctx' : HttpContext} {xs : Str} {n : Nat}
    (h : move ctx xs = .halt true ctx' n) : ctx'.state = .finish := by
  unfold move at h
  cases hs : ctx.state with
  | requestLine =>
    cases hn : findCrlf xs with
    | none => simp [hs, hn] at h
    | some len =>
      simp only [hs, hn, startMove] at h
      split at h <;> cases h
  | headers =>
    cases hn : findCrlf xs with
    | none => simp [hs, hn] at h
    | some len =>
      simp only [hs, hn, headerMove] at h
      split at h
      · cases h
      · split at h <;> cases h
  | body =>
    simp only [hs, bodyMove] at h
    split at h
    · cases h
    · split at h <;> cases h
  | finish =>
    simp only [hs] at h
    cases h
    rfl

theorem drives_accepts {ctx ctx' : HttpContext} {xs ys : Str}
    (h : Drives move ctx xs (some true) ctx' ys) : ctx'.state = .finish := by
  generalize hr : some true = r at h
  induction h with
  | wait => cases hr
  | halt hm =>
    obtain rfl := Option.some.inj hr
    exact move_accepts hm
  | advance _ _ ih => exact ih hr

/-- A request that is complete leaves the parser at its end. -/
theorem parseRequest_accepts {ctx ctx' : HttpContext} {b rest : Buffer} (hb : b.Wf)
    (h : ctx.parseRequest b = (.complete, ctx', rest)) : ctx'.state = .finish := by
  have hdrives := (parseRequest_drives ctx hb).2
  rw [h] at hdrives
  exact drives_accepts hdrives

end HttpContext

end WebServer
