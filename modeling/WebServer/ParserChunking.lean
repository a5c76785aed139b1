import WebServer.ParserStream

/-!
# Independence of the parser from packet boundaries

Half packets and joined packets: the bytes of a request may arrive cut at any
place, inside a CR LF pair or inside the body. The parser is called after each
piece until it answers, and the pieces that come later stay in the buffer.
-/

namespace WebServer

open Resumable

namespace HttpContext

/-- Append the chunks one at a time and parse after each while the result is
Incomplete; the chunks after an answer are only appended. -/
def feed : HttpContext → Buffer → List Str → Outcome
  | ctx, b, [] => (.incomplete, ctx, b)
  | ctx, b, chunk :: rest =>
    match ctx.parseRequest (b.append chunk) with
    | (.incomplete, ctx', b') => feed ctx' b' rest
    | (r, ctx', b') => (r, ctx', rest.foldl Buffer.append b')

theorem foldl_append {b : Buffer} (hb : b.Wf) (chunks : List Str) :
    (chunks.foldl Buffer.append b).Wf ∧
      (chunks.foldl Buffer.append b).peekReadable = b.peekReadable ++ chunks.flatten := by
  induction chunks generalizing b with
  | nil => simpa using hb
  | cons chunk rest ih =>
    obtain ⟨hw, hpeek⟩ := ih (Buffer.append_wf hb chunk)
    refine ⟨hw, ?_⟩
    rw [List.foldl_cons, hpeek, Buffer.append_peekReadable hb, List.flatten_cons,
      List.append_assoc]

/-- An answer on the bytes so far, with the later chunks left in the buffer. -/
theorem drives_rest {ctx ctx' : HttpContext} {xs : Str} {b' : Buffer} {r : Bool}
    (hb' : b'.Wf) (h : Drives move ctx xs (some r) ctx' b'.peekReadable) (rest : List Str) :
    (rest.foldl Buffer.append b').Wf ∧
      Drives move ctx (xs ++ rest.flatten) (some r) ctx'
        (rest.foldl Buffer.append b').peekReadable := by
  obtain ⟨hw, hpeek⟩ := foldl_append hb' rest
  exact ⟨hw, hpeek ▸ drives_extend move_stable h rest.flatten⟩

/-- Induction on the chunks still to come; the parser state and the unread bytes
after each Incomplete call are where the next call resumes. -/
theorem feed_drives (ctx : HttpContext) {b : Buffer} (hb : b.Wf) (first : Str)
    (more : List Str) :
    (feed ctx b (first :: more)).2.2.Wf ∧
      Drives move ctx (b.peekReadable ++ (first :: more).flatten)
        (answer (feed ctx b (first :: more)).1) (feed ctx b (first :: more)).2.1
        (feed ctx b (first :: more)).2.2.peekReadable := by
  induction more generalizing ctx b first with
  | nil =>
    obtain ⟨hw, hd⟩ := parseRequest_drives ctx (Buffer.append_wf hb first)
    rw [Buffer.append_peekReadable hb] at hd
    simp only [feed, List.flatten_cons, List.flatten_nil, List.append_nil]
    generalize ctx.parseRequest (b.append first) = out at hw hd ⊢
    obtain ⟨r, ctx', b'⟩ := out
    cases r <;> exact ⟨hw, hd⟩
  | cons second more ih =>
    obtain ⟨hw, hd⟩ := parseRequest_drives ctx (Buffer.append_wf hb first)
    rw [Buffer.append_peekReadable hb] at hd
    rw [feed, List.flatten_cons, ← List.append_assoc]
    generalize ctx.parseRequest (b.append first) = out at hw hd ⊢
    obtain ⟨r, ctx', b'⟩ := out
    cases r with
    | incomplete =>
      obtain ⟨hw', hd'⟩ := ih ctx' hw second
      exact ⟨hw', drives_resume move_stable hd hd'⟩
    | complete => exact drives_rest hw hd (second :: more)
    | error => exact drives_rest hw hd (second :: more)

/-- From any parser state and buffer, cutting the input changes nothing. -/
theorem feed_eq_parse (ctx : HttpContext) {b : Buffer} (hb : b.Wf) (first : Str)
    (more : List Str) :
    let split := feed ctx b (first :: more)
    let whole := ctx.parseRequest (b.append (first :: more).flatten)
    split.1 = whole.1 ∧ split.2.1 = whole.2.1 ∧
      split.2.2.peekReadable = whole.2.2.peekReadable := by
  obtain ⟨_, split⟩ := feed_drives ctx hb first more
  rw [← Buffer.append_peekReadable hb] at split
  obtain ⟨hr, hc, hu⟩ := parseRequest_unique (Buffer.append_wf hb _) split
  exact ⟨hr.symm, hc.symm, hu.symm⟩

/-- A byte string given whole or as any nonempty list of chunks parses to the same
result and request, and leaves the same bytes unread. -/
theorem parse_chunk_independent (initSize : Nat) (first : Str) (more : List Str) :
    let split := feed reset (Buffer.new initSize) (first :: more)
    let whole := parseRequest reset ((Buffer.new initSize).append (first :: more).flatten)
    split.1 = whole.1 ∧ split.2.1.request = whole.2.1.request ∧
      split.2.2.peekReadable = whole.2.2.peekReadable := by
  obtain ⟨hr, hc, hu⟩ := feed_eq_parse reset (Buffer.new_wf initSize) first more
  exact ⟨hr, congrArg request hc, hu⟩

/-- A cut inside the CR LF that ends the head. -/
example :
    (feed reset (Buffer.new 8)
      [lit "GET /a HTTP/1.1\r", lit "\nHost: b\r\n\r", lit "\nrest"]).1 = .complete := by
  decide +kernel

end HttpContext

end WebServer
