import WebServer.ConnectionRuns
import WebServer.RequestEncoding

/-!
# Memory of one connection

The unread bytes are checked before every `recv` and the declared body before it is
taken. Between the two the parser moves line after line into the header map, which no
check looks at. The unread bytes and the rest of the request stay below constants, so
what a connection holds is bounded exactly as far as the headers it holds when the
parser is called.
-/

namespace WebServer

open Resumable Connection

/-- The bytes of the names and values in a header map. -/
def fieldBytes (headers : List (Str × Str)) : Nat :=
  (headers.map fun h => h.1.length + h.2.length).sum

theorem fieldBytes_put (headers : List (Str × Str)) (key value : Str) :
    fieldBytes (KeyedList.put headers key value) ≤
      fieldBytes headers + (key.length + value.length) := by
  induction headers with
  | nil => simp [fieldBytes, KeyedList.put]
  | cons h rest ih =>
    by_cases same : h.1 = key
    · simp only [KeyedList.put, if_pos same, fieldBytes, List.map_cons, List.sum_cons]
      omega
    · simp only [KeyedList.put, if_neg same, fieldBytes, List.map_cons, List.sum_cons] at ih ⊢
      omega

namespace HttpRequest

/-- The tokens of the request line, the headers and the body. -/
def heldBytes (r : HttpRequest) : Nat :=
  r.method.length + r.path.length + r.version.length + fieldBytes r.headers + r.body.length

theorem extract_length (stream old : Str) :
    (extract stream old).1.length ≤ max stream.length old.length ∧
      (extract stream old).2.length ≤ stream.length := by
  have hrest : (stream.dropWhile isSpace).length ≤ stream.length := List.length_dropWhile_le _ _
  simp only [extract]
  by_cases hnone : stream.dropWhile isSpace = []
  · rw [if_pos hnone]
    exact ⟨Nat.le_max_right _ _, Nat.zero_le _⟩
  · rw [if_neg hnone]
    exact ⟨((List.takeWhile_sublist _).length_le.trans hrest).trans (Nat.le_max_left _ _),
      (List.length_dropWhile_le _ _).trans hrest⟩

/-- No part of the request is longer than `unit`, but for the headers. -/
structure Fits (unit : Nat) (r : HttpRequest) : Prop where
  method : r.method.length ≤ unit
  path : r.path.length ≤ unit
  version : r.version.length ≤ unit
  body : r.body.length ≤ unit

theorem fits_parseStartLine {unit : Nat} {r : HttpRequest} (h : r.Fits unit) {line : Str}
    (short : line.length ≤ unit) :
    (r.parseStartLine line).2.Fits unit ∧ (r.parseStartLine line).2.headers = r.headers := by
  obtain ⟨hmethod, hrest⟩ := extract_length line r.method
  obtain ⟨hpath, hrest'⟩ := extract_length (extract line r.method).2 r.path
  obtain ⟨hversion, -⟩ := extract_length (extract (extract line r.method).2 r.path).2 r.version
  have hm := h.method
  have hp := h.path
  have hv := h.version
  refine ⟨⟨?_, ?_, ?_, h.body⟩, rfl⟩
  · exact hmethod.trans (max_le short hm)
  · exact hpath.trans (max_le (hrest.trans short) hp)
  · exact hversion.trans (max_le (hrest'.trans (hrest.trans short)) hv)

end HttpRequest

namespace HttpContext

theorem splitAtByte_length {b : Byte} {s key rest : Str} (h : splitAtByte b s = some (key, rest)) :
    key.length + rest.length ≤ s.length := by
  obtain ⟨-, hparts⟩ := Option.ite_none_right_eq_some.mp h
  obtain ⟨rfl, rfl⟩ := Prod.mk.inj (Option.some.inj hparts)
  have hsplit := congrArg List.length (List.takeWhile_append_dropWhile (p := (· ≠ b)) (l := s))
  rw [List.length_append] at hsplit
  rw [List.length_tail]
  omega

theorem headerValue_length (value : Str) : (headerValue value).length ≤ value.length := by
  simp only [headerValue]
  split
  · exact Nat.le_refl _
  · exact List.length_dropWhile_le _ _

/-- A header line adds at most its own length, and only to the headers. -/
theorem parseHeaderLine_fits {unit : Nat} {ctx : HttpContext} (h : ctx.request.Fits unit)
    (line : Str) : (ctx.parseHeaderLine line).2.request.Fits unit ∧
      fieldBytes (ctx.parseHeaderLine line).2.request.headers ≤
        fieldBytes ctx.request.headers + line.length := by
  cases hsplit : splitAtByte colon line with
  | none =>
    simp only [parseHeaderLine, hsplit]
    exact ⟨h, Nat.le_add_right _ _⟩
  | some parts =>
    obtain ⟨key, rest⟩ := parts
    have hline := splitAtByte_length hsplit
    have hvalue := headerValue_length rest
    have hput := fieldBytes_put ctx.request.headers key (headerValue rest)
    have hstored : (ctx.parseHeaderLine line).2.request =
        ctx.request.setHeader key (headerValue rest) := by
      simp only [parseHeaderLine, hsplit]
      split
      · split <;> rfl
      · rfl
    rw [hstored]
    refine ⟨⟨h.method, h.path, h.version, h.body⟩, ?_⟩
    exact hput.trans (by omega)

/-- The request under parse and the bytes still unread: the parser moves bytes from these
to that and makes none. -/
structure Holds (unit limit : Nat) (r : HttpRequest) (input : Str) : Prop where
  unread : input.length ≤ unit
  request : r.Fits unit
  headers : fieldBytes r.headers + input.length ≤ limit

/-- The request after a move and the bytes it used. -/
def taken : Move HttpContext Bool → Option (HttpRequest × Nat)
  | .wait => none
  | .advance ctx n => some (ctx.request, n)
  | .halt _ ctx n => some (ctx.request, n)

theorem taken_startMove (ctx : HttpContext) (input : Str) (n : Nat) :
    taken (startMove ctx input n) =
      some ((ctx.request.parseStartLine (input.take n)).2, n + 2) := by
  unfold startMove
  generalize ctx.request.parseStartLine (input.take n) = parsed
  obtain ⟨ok, request⟩ := parsed
  cases ok <;> rfl

theorem taken_headerMove (ctx : HttpContext) {input : Str} {n : Nat} (hline : input.take n ≠ []) :
    taken (headerMove ctx input n) =
      some ((ctx.parseHeaderLine (input.take n)).2.request, n + 2) := by
  unfold headerMove
  rw [if_neg hline]
  generalize ctx.parseHeaderLine (input.take n) = parsed
  obtain ⟨ok, ctx'⟩ := parsed
  cases ok <;> rfl

variable {unit limit : Nat}

/-- What the headers gain comes out of the bytes used. -/
theorem holds_drop {r r' : HttpRequest} {input : Str} {n : Nat} (h : Holds unit limit r input)
    (hn : n ≤ input.length) (hrequest : r'.Fits unit)
    (hheaders : fieldBytes r'.headers ≤ fieldBytes r.headers + n) :
    Holds unit limit r' (input.drop n) := by
  have hunread := h.unread
  have hlimit := h.headers
  refine ⟨?_, hrequest, ?_⟩ <;>
    · rw [List.length_drop]
      omega

theorem holds_move {ctx : HttpContext} {input : Str} (h : Holds unit limit ctx.request input)
    {r : HttpRequest} {n : Nat} (htaken : taken (move ctx input) = some (r, n)) :
    Holds unit limit r (input.drop n) := by
  have hunread := h.unread
  unfold move at htaken
  cases hs : ctx.state with
  | requestLine =>
    cases hcrlf : findCrlf input with
    | none => simp [hs, hcrlf, taken] at htaken
    | some len =>
      have hlen := findCrlf_length hcrlf
      have hshort : (input.take len).length ≤ unit := by
        rw [List.length_take]
        omega
      obtain ⟨hfits, hsame⟩ := HttpRequest.fits_parseStartLine h.request hshort
      simp only [hs, hcrlf, taken_startMove, Option.some.injEq, Prod.mk.injEq] at htaken
      obtain ⟨rfl, rfl⟩ := htaken
      exact holds_drop h hlen hfits (hsame ▸ Nat.le_add_right _ _)
  | headers =>
    cases hcrlf : findCrlf input with
    | none => simp [hs, hcrlf, taken] at htaken
    | some len =>
      have hlen := findCrlf_length hcrlf
      by_cases hblank : input.take len = []
      · simp only [hs, hcrlf, headerMove, if_pos hblank, taken, Option.some.injEq,
          Prod.mk.injEq] at htaken
        obtain ⟨rfl, rfl⟩ := htaken
        exact holds_drop h hlen h.request (Nat.le_add_right _ _)
      · obtain ⟨hfits, hgrown⟩ := parseHeaderLine_fits h.request (input.take len)
        rw [List.length_take] at hgrown
        simp only [hs, hcrlf, taken_headerMove ctx hblank, Option.some.injEq,
          Prod.mk.injEq] at htaken
        obtain ⟨rfl, rfl⟩ := htaken
        exact holds_drop h hlen hfits (by omega)
  | body =>
    simp only [hs, bodyMove] at htaken
    by_cases hlarge : maxBodySize < ctx.contentLength
    · simp only [if_pos hlarge, taken, Option.some.injEq, Prod.mk.injEq] at htaken
      obtain ⟨rfl, rfl⟩ := htaken
      exact h
    · by_cases hwait : input.length < ctx.contentLength
      · simp [if_neg hlarge, if_pos hwait, taken] at htaken
      · simp only [if_neg hlarge, if_neg hwait, taken, Option.some.injEq,
          Prod.mk.injEq] at htaken
        obtain ⟨rfl, rfl⟩ := htaken
        have hbody : (input.take ctx.contentLength).length ≤ unit := by
          rw [List.length_take]
          omega
        exact holds_drop h (Nat.le_of_not_lt hwait)
          ⟨h.request.method, h.request.path, h.request.version, hbody⟩ (Nat.le_add_right _ _)
  | finish =>
    simp only [hs, taken, Option.some.injEq, Prod.mk.injEq] at htaken
    obtain ⟨rfl, rfl⟩ := htaken
    exact h

/-- A call of the parser keeps the bounds. -/
theorem holds_parseRequest {ctx : HttpContext} {b : Buffer} (hb : b.Wf)
    (h : Holds unit limit ctx.request b.peekReadable) :
    Holds unit limit (ctx.parseRequest b).2.1.request (ctx.parseRequest b).2.2.peekReadable := by
  refine drives_invariant (fun ctx input => Holds unit limit ctx.request input) ?_ ?_
    (parseRequest_drives ctx hb).2 h
  · intro ctx input ctx' n hinv hmove
    exact holds_move hinv (by rw [hmove]; rfl)
  · intro ctx input r ctx' n hinv hmove
    exact holds_move hinv (by rw [hmove]; rfl)

end HttpContext

/-! ## The connection -/

namespace Connection

/-- The unread bytes, and those of the request being parsed. -/
def memory (c : Connection) : Nat :=
  c.readBuffer.readableBytes + c.context.request.heldBytes

/-- The most that can be unread: the limit of `Read` and one `recv` more. -/
def maxUnread : Nat := maxReadBufferSize + 4095

theorem readLoop_unread (errno : Errno) (packets : List Packet) {b : Buffer} (hb : b.Wf)
    (small : b.readableBytes ≤ maxUnread) :
    (readLoop errno packets b).2.1.Wf ∧
      (readLoop errno packets b).2.1.readableBytes ≤ maxUnread := by
  induction packets generalizing b with
  | nil =>
    by_cases hfull : maxReadBufferSize ≤ b.readableBytes
    · rw [readLoop, if_pos hfull]
      exact ⟨hb, small⟩
    · rw [readLoop, if_neg hfull]
      exact ⟨hb, small⟩
  | cons p rest ih =>
    by_cases hfull : maxReadBufferSize ≤ b.readableBytes
    · rw [readLoop, if_pos hfull]
      exact ⟨hb, small⟩
    · by_cases hclosed : p.data = []
      · rw [readLoop, if_neg hfull, if_pos hclosed]
        exact ⟨hb, small⟩
      · rw [readLoop, if_neg hfull, if_neg hclosed]
        have hwf := Buffer.append_wf hb p.data
        have hlength : (b.append p.data).readableBytes = b.readableBytes + p.data.length := by
          rw [← Buffer.peekReadable_length hwf, Buffer.append_peekReadable hb, List.length_append,
            Buffer.peekReadable_length hb]
        have hfits := p.fits
        have hroom : b.readableBytes + p.data.length ≤ maxUnread := by
          unfold maxUnread
          omega
        exact ih hwf (hlength.trans_le hroom)

/-- Everything but the headers is within `maxUnread`, and these within `limit` more. -/
structure Small (limit : Nat) (c : Connection) : Prop where
  buffers : BuffersWf c
  unread : c.readBuffer.readableBytes ≤ maxUnread
  request : c.context.request.Fits maxUnread
  headers : fieldBytes c.context.request.headers ≤ limit + maxUnread

/-- The handler leaves the read buffer, and the context or nothing of it. -/
structure Keeps (c d : Connection) : Prop where
  readBuffer : d.readBuffer = c.readBuffer
  context : d.context = c.context ∨ d.context = .reset

theorem keeps_finished (c : Connection) : Keeps c c.onResponseFinished.2.1 := by
  have hend := onResponseFinished_end c
  generalize c.onResponseFinished.2 = out at hend ⊢
  cases hend with
  | kept =>
    refine ⟨resetForNextRequest_readBuffer c, Or.inr ?_⟩
    by_cases hopen : 0 ≤ c.sendFileFd <;> simp [resetForNextRequest, enableReadEvent, hopen]
  | closed => exact ⟨rfl, Or.inl rfl⟩

theorem keeps_sendFile (c : Connection) (files : Transfers) : Keeps c (c.sendFile files).1 := by
  have hend := sendFile_end c files
  generalize c.sendFile files = out at hend ⊢
  cases hend with
  | noFile =>
    have hdone := keeps_finished (disableWriteEvent { c with writeState := .idle })
    exact ⟨hdone.readBuffer, hdone.context⟩
  | waiting => exact ⟨rfl, Or.inl rfl⟩
  | failed => exact ⟨rfl, Or.inl rfl⟩
  | drained =>
    have hdone := keeps_finished (disableWriteEvent
      { c with sendFileLen := 0, sendFileFd := -1, writeState := .idle })
    exact ⟨hdone.readBuffer, hdone.context⟩

theorem keeps_trySend {c : Connection} (hwf : c.writeBuffer.Wf) (sends : Transfers) :
    Keeps c (c.trySend sends).1 := by
  have hend := trySend_end hwf sends
  generalize c.trySend sends = out at hend ⊢
  cases hend with
  | finished b =>
    have hdone := keeps_finished { c with writeBuffer := b }
    exact ⟨hdone.readBuffer, hdone.context⟩
  | waiting => exact ⟨rfl, Or.inl rfl⟩
  | failed => exact ⟨rfl, Or.inl rfl⟩

theorem keeps_handleWrite {c : Connection} (hwf : c.writeBuffer.Wf) (sends files : Transfers) :
    Keeps c (c.handleWrite sends files).1 := by
  have hend := handleWrite_end hwf sends files
  generalize c.handleWrite sends files = out at hend ⊢
  cases hend with
  | drained b =>
    have hdone := keeps_sendFile (c.writing b) files
    exact ⟨hdone.readBuffer, hdone.context⟩
  | stalled b =>
    have hdone := keeps_finished (c.unfinished b)
    exact ⟨hdone.readBuffer, hdone.context⟩
  | waiting => exact ⟨rfl, Or.inl rfl⟩
  | failed => exact ⟨rfl, Or.inl rfl⟩

theorem keeps_close (c : Connection) : Keeps c c.close.1 := by
  by_cases hopen : 0 ≤ c.sendFileFd
  · simp only [close, if_pos hopen]
    exact ⟨rfl, Or.inl rfl⟩
  · simp only [close, if_neg hopen]
    exact ⟨rfl, Or.inl rfl⟩

variable {limit : Nat} {c d : Connection}

theorem small_keeps (h : Small limit c) (hwf : BuffersWf d) (keeps : Keeps c d) :
    Small limit d := by
  refine ⟨hwf, keeps.readBuffer ▸ h.unread, ?_, ?_⟩
  · rcases keeps.context with hsame | hreset
    · exact hsame ▸ h.request
    · rw [hreset]
      exact ⟨Nat.zero_le _, Nat.zero_le _, Nat.zero_le _, Nat.zero_le _⟩
  · rcases keeps.context with hsame | hreset
    · exact hsame ▸ h.headers
    · rw [hreset]
      exact Nat.zero_le _

theorem small_parsed (hwf : BuffersWf c)
    (h : HttpContext.Holds maxUnread (limit + maxUnread) c.context.request
      c.readBuffer.peekReadable) : Small limit c := by
  refine ⟨hwf, ?_, h.request, ?_⟩
  · rw [← Buffer.peekReadable_length hwf.read]
    exact h.unread
  · exact (Nat.le_add_right _ _).trans h.headers

theorem store_readBuffer (c : Connection) (env : Env) (p : Reply) :
    (c.store env p).1.readBuffer = c.readBuffer := by
  cases h : p.file <;> simp [store, h]

theorem small_processInWorker (h : Small limit c)
    (hlimit : fieldBytes c.context.request.headers ≤ limit) (env : Env) :
    Small limit (c.processInWorker env).1 := by
  have hwf := buffersWf_processInWorker h.buffers env
  have hunread := h.unread
  have hholds : HttpContext.Holds maxUnread (limit + maxUnread) c.context.request
      c.readBuffer.peekReadable := by
    have hlength := Buffer.peekReadable_length h.buffers.read
    exact ⟨hlength.trans_le hunread, h.request, by omega⟩
  have hparsed := HttpContext.holds_parseRequest h.buffers.read hholds
  have hend := processInWorker_end h.buffers.read env
  generalize c.processInWorker env = out at hend hwf ⊢
  rw [show c.context.parseRequest c.readBuffer = c.parsed from rfl] at hparsed
  cases hend with
  | incomplete ctx rest hrest heq =>
    rw [heq] at hparsed
    exact small_parsed hwf hparsed
  | error ctx rest hrest heq =>
    rw [heq] at hparsed
    exact small_parsed hwf hparsed
  | complete ctx rest hrest heq =>
    rw [heq] at hparsed
    refine small_parsed hwf ?_
    rw [store_context, store_readBuffer]
    exact hparsed

theorem small_handleRead (h : Small limit c) {arrival : Arrival} {env : Env}
    (hlimit : (c.read arrival).1 = .success → c.state = .connected →
      fieldBytes c.context.request.headers ≤ limit) :
    Small limit (c.handleRead env arrival).1 := by
  obtain ⟨hb, hunread⟩ := readLoop_unread arrival.errno arrival.packets h.buffers.read h.unread
  rcases hout : readLoop arrival.errno arrival.packets c.readBuffer with ⟨result, b, fx⟩
  rw [hout] at hb hunread
  have hread : c.read arrival = (result, { c with readBuffer := b }, fx) := by
    simp only [read, hout]
  have hstored : Small limit { c with readBuffer := b } :=
    ⟨⟨hb, h.buffers.write⟩, hunread, h.request, h.headers⟩
  rw [hread] at hlimit
  cases result with
  | success =>
    by_cases hstate : c.state = .connected
    · simp only [handleRead, hread, if_pos hstate]
      exact small_processInWorker (c := { c with readBuffer := b, state := .processing })
        ⟨⟨hb, h.buffers.write⟩, hunread, h.request, h.headers⟩ (hlimit rfl hstate) env
    · simp only [handleRead, hread, if_neg hstate]
      exact hstored
  | closed =>
    simp only [handleRead, hread]
    exact hstored
  | error =>
    simp only [handleRead, hread]
    exact hstored

theorem small_call (h : Small limit c) {cb : Callback}
    (hlimit : cb = .processInWorker → fieldBytes c.context.request.headers ≤ limit) (env : Env)
    (sends : Transfers) : Small limit (c.call cb env sends).1 := by
  have hwf := buffersWf_call h.buffers cb env sends
  cases cb with
  | trySend =>
    by_cases hclosed : c.state = .closed
    · simpa only [call, if_pos hclosed] using h
    · simp only [call, if_neg hclosed] at hwf ⊢
      exact small_keeps h hwf (keeps_trySend h.buffers.write sends)
  | processInWorker => exact small_processInWorker h (hlimit rfl) env
  | handleClose => exact h
  | removeConnection => exact h

theorem memory_of_small (h : Small limit c) : c.memory ≤ limit + 6 * maxUnread := by
  obtain ⟨-, hunread, ⟨hmethod, hpath, hversion, hbody⟩, hheaders⟩ := h
  simp only [memory, HttpRequest.heldBytes]
  omega

end Connection

/-! ## Runs -/

namespace Sys

/-- When the parser is called, the request holds at most `limit` bytes of headers. -/
def Limited (limit : Nat) (s : Sys) : Act → Prop
  | .readable _ arrival =>
    (s.conn.read arrival).1 = .success → s.conn.state = .connected →
      fieldBytes s.conn.context.request.headers ≤ limit
  | .run _ _ =>
    s.batch.head? = some .processInWorker → fieldBytes s.conn.context.request.headers ≤ limit
  | _ => True

instance (limit : Nat) (s : Sys) : (a : Act) → Decidable (Limited limit s a)
  | .readable _ _ => by unfold Limited; infer_instance
  | .run _ _ => by unfold Limited; infer_instance
  | .writable _ _ | .hangup | .swap | .release => .isTrue trivial

theorem small_step {limit : Nat} {s t : Sys} {a : Act} (h : Small limit s.conn)
    (limited : Limited limit s a) (hstep : s.step a = some t) : Small limit t.conn := by
  have hwf := buffersWf_step h.buffers hstep
  cases taken_of_step hstep with
  | readable env arrival => exact small_handleRead h limited
  | writable sends files =>
    exact small_keeps h hwf (keeps_handleWrite h.buffers.write sends files)
  | hangup => exact h
  | swap => exact h
  | run env sends cb rest hbatch =>
    refine small_call h ?_ env sends
    rintro rfl
    exact limited (by rw [hbatch]; rfl)
  | release => exact small_keeps h hwf (keeps_close s.conn)

theorem small_start {c : Connection} (fresh : Fresh c) (limit : Nat) : Small limit c := by
  have hnone : c.readBuffer.readableBytes = 0 :=
    (Buffer.readableBytes_eq_zero fresh.ready.readBuffer).mpr fresh.unread
  refine ⟨⟨fresh.ready.readBuffer, fresh.ready.writeBuffer⟩, hnone ▸ Nat.zero_le _, ?_, ?_⟩
  · rw [fresh.context]
    exact ⟨Nat.zero_le _, Nat.zero_le _, Nat.zero_le _, Nat.zero_le _⟩
  · rw [fresh.context]
    exact Nat.zero_le _

/-- As long as the parser is called with bounded headers, whatever the stream and however
it is cut, the memory of the connection stays below a constant. -/
theorem memory_bounded (limit : Nat) {c : Connection} (fresh : Fresh c) {as : List Act} {s : Sys}
    (run : exec (start c) as = some s)
    (limited : GuardedRuns.Guarded step (Limited limit) (start c) as) :
    s.conn.memory ≤ limit + 6 * maxUnread :=
  memory_of_small (GuardedRuns.invariant_of_guarded (fun s => Small limit s.conn)
    (fun _ _ _ h hok hstep => small_step h hok hstep) (small_start fresh limit) limited run)

/-- Two requests in three packets, with at most twenty bytes of headers at a time. -/
theorem memory_bounded_post :
    let env := Env.table [⟨lit "/w", lit "/w", none⟩]
    let c := enableReadEvent (new 5 (lit "/w") none)
    let as := [arrives env (lit "POST /a HTTP/1.1\r\nContent-Length: 2\r\n") (by decide),
      arrives env (lit "\r\nhiGET /b") (by decide), .swap, runs env, .swap, runs env,
      arrives env (lit " HTTP/1.1\r\n") (by decide)]
    ∃ s, exec (start c) as = some s ∧ s.conn.memory ≤ 20 + 6 * maxUnread := by
  intro env c as
  have hruns : (exec (start c) as).isSome := by decide +kernel
  obtain ⟨s, hs⟩ := Option.isSome_iff_exists.mp hruns
  exact ⟨s, hs, memory_bounded 20 (fresh_new 5 (lit "/w") none) hs (by decide +kernel)⟩

/-! ## Headers without end -/

theorem toDec_length {n : Nat} (h : n < 2 ^ 64) : (toDec n).length ≤ 20 := by
  rw [toDec, List.length_map]
  exact (Nat.length_toDigits_le_iff (by decide) (by decide)).mpr (h.trans (by decide))

/-- A header whose name is the number. -/
def numbered (n : Nat) : Str × Str := (toDec n, lit "x")

theorem not_contentLength_numbered (n : Nat) : isContentLength (numbered n) = false := by
  obtain ⟨b, rest, hb⟩ := List.exists_cons_of_ne_nil (toDec_ne_nil n)
  have hdigit := (isDigit_iff b).mp (isDigit_toDec (n := n) (by rw [hb]; exact List.mem_cons_self))
  have hlower : toLower b = b := by
    rw [toLower, if_neg]
    rintro ⟨hupper, -⟩
    rw [UInt8.le_iff_toNat_le] at hupper
    exact absurd (hupper.trans hdigit.2) (by decide)
  have hne : b ≠ 99 := by
    rintro rfl
    exact absurd hdigit.2 (by decide)
  rw [isContentLength, numbered, hb]
  refine decide_eq_false ?_
  intro hname
  exact hne (hlower.symm.trans (List.cons.inj hname).1)

theorem goodField_numbered (n : Nat) : GoodField (numbered n) := by
  refine ⟨⟨toDec_ne_nil n, ?_⟩, ?_, ?_⟩
  · intro b hb
    obtain ⟨hlo, hhi⟩ := (isDigit_iff b).mp (isDigit_toDec hb)
    refine ⟨UInt8.lt_iff_toNat_lt.mpr (Nat.lt_of_le_of_lt hhi (by decide)), ?_, ?_, ?_⟩ <;>
      · rintro rfl
        revert hlo hhi
        decide
  · change IsFieldValue (lit "x")
    exact ⟨by decide, by decide, by decide, by decide⟩
  · intro hlength
    exact absurd ((not_contentLength_numbered n).symm.trans hlength) Bool.false_ne_true

theorem numbered_new (n : Nat) : toDec n ∉ KeyedList.keys ((List.range n).map numbered) := by
  intro hmem
  obtain ⟨f, hf, hname⟩ := List.mem_map.mp hmem
  obtain ⟨k, hk, rfl⟩ := List.mem_map.mp hf
  obtain rfl : k = n := toDec_inj hname
  exact Nat.lt_irrefl k (List.mem_range.mp hk)

theorem fieldBytes_numbered (n : Nat) : n ≤ fieldBytes ((List.range n).map numbered) := by
  induction n with
  | zero => exact Nat.zero_le _
  | succ n ih =>
    simp only [fieldBytes] at ih
    simp only [fieldBytes, List.range_succ, List.map_append, List.sum_append, List.map_cons,
      List.map_nil, List.sum_cons, List.sum_nil, numbered]
    have hone : (lit "x").length = 1 := by decide
    omega

/-- The parser after a request line and the first `n` numbered headers. -/
def collected (n : Nat) : HttpContext where
  request := {
    method := lit "GET"
    path := lit "/"
    version := lit "HTTP/1.1"
    methodType := .get
    headers := (List.range n).map numbered }
  state := .headers

structure Collecting (n : Nat) (s : Sys) : Prop where
  buffers : BuffersWf s.conn
  batch : s.batch = []
  alive : s.alive = true
  state : s.conn.state = .connected
  unread : s.conn.readBuffer.peekReadable = []
  context : s.conn.context = collected n

/-- The parser takes one more numbered header and waits for the next line. -/
theorem drives_numbered (n : Nat) : Drives HttpContext.move (collected n)
    (WireRequest.fieldLine (numbered n) ++ crlf) none (collected (n + 1)) [] := by
  have hlead := leads_fieldLine (show (collected n).state = .headers from rfl) (goodField_numbered n) []
  have hnext : { collected n with
        request := (collected n).request.setHeader (numbered n).1 (numbered n).2
        contentLength := declare (collected n).contentLength (numbered n) } = collected (n + 1) := by
    have hput := KeyedList.put_new (numbered_new n) (lit "x")
    have hlength : declare (collected n).contentLength (numbered n) = 0 := by
      rw [declare, not_contentLength_numbered]
      rfl
    rw [hlength]
    simp only [collected, HttpRequest.setHeader, numbered] at hput ⊢
    rw [hput, List.range_succ, List.map_append]
    rfl
  rw [hnext, List.append_nil] at hlead
  exact hlead none _ _ (.wait rfl)

/-- A packet that finds the read buffer drained is read as it is. -/
theorem read_drained {c : Connection} (hb : c.readBuffer.Wf)
    (hunread : c.readBuffer.peekReadable = []) {data : Str} (hdata : data ≠ [])
    (fits : data.length ≤ 4096) :
    c.read ⟨[⟨data, fits⟩], .again⟩ =
      (.success, { c with readBuffer := c.readBuffer.append data }, [.received data]) := by
  have hbefore : c.readBuffer.readableBytes = 0 := (Buffer.readableBytes_eq_zero hb).mpr hunread
  have hafter : (c.readBuffer.append data).readableBytes = data.length := by
    rw [← Buffer.peekReadable_length (Buffer.append_wf hb data), Buffer.append_peekReadable hb,
      hunread, List.nil_append]
  have hlow : ¬maxReadBufferSize ≤ 0 := by decide
  have hroom : ¬maxReadBufferSize ≤ data.length := by
    unfold maxReadBufferSize
    omega
  simp only [Connection.read, readLoop, hbefore, if_neg hlow, if_neg hdata, hafter, if_neg hroom, if_true]

theorem collecting_next (env : Env) {n : Nat} (hn : n < 2 ^ 64) {s : Sys} (h : Collecting n s) :
    ∃ a t, s.step a = some t ∧ Collecting (n + 1) t := by
  let data := WireRequest.fieldLine (numbered n) ++ crlf
  have hfits : data.length ≤ 4096 := by
    have hname := toDec_length hn
    have hvalue : (lit "x").length = 1 := by decide
    simp only [data, WireRequest.fieldLine, numbered, crlf, List.length_append, List.length_cons,
      List.length_nil, hvalue]
    omega
  have hdata : data ≠ [] := by simp [data, crlf]
  have hread := read_drained h.buffers.read h.unread hdata hfits
  let c : Connection :=
    { s.conn with readBuffer := s.conn.readBuffer.append data, state := .processing }
  have hstep : s.step (arrives env data hfits) = some (s.after ((c.processInWorker env).1,
      [.received data] ++ (c.processInWorker env).2)) := by
    simp only [arrives, step, h.batch, h.alive, handleRead, hread, if_pos h.state, and_self, if_true]
    rfl
  have hb : c.readBuffer.Wf := Buffer.append_wf h.buffers.read data
  have hinput : c.readBuffer.peekReadable = data := by
    rw [Buffer.append_peekReadable h.buffers.read, h.unread, List.nil_append]
  have hdrives : Drives HttpContext.move c.context c.readBuffer.peekReadable
      (HttpContext.answer .incomplete) (collected (n + 1)) [] := by
    rw [hinput, show c.context = collected n from h.context]
    exact drives_numbered n
  obtain ⟨hresult, hctx, hrest⟩ := HttpContext.parseRequest_unique hb hdrives
  have hparsed := parsed_eq (c := c) hresult
  have hwf := buffersWf_step h.buffers hstep
  refine ⟨_, _, hstep, ?_⟩
  have hend := processInWorker_end (c := c) hb env
  generalize c.processInWorker env = out at hend hwf ⊢
  cases hend with
  | incomplete ctx rest _ heq =>
    obtain ⟨rfl, rfl⟩ : c.parsed.2.1 = ctx ∧ c.parsed.2.2 = rest := by
      rw [heq]
      exact ⟨rfl, rfl⟩
    exact ⟨hwf, h.batch, h.alive, rfl, hrest, hctx⟩
  | error ctx rest _ heq => exact absurd (hparsed.symm.trans heq) (by simp)
  | complete ctx rest _ heq => exact absurd (hparsed.symm.trans heq) (by simp)

/-- One request line, and then as many headers as one likes. -/
theorem collecting_run {n : Nat} (hn : n ≤ 2 ^ 64) : ∃ as s,
    exec (start (enableReadEvent (new 5 (lit "/w") none))) as = some s ∧ Collecting n s := by
  let env := Env.table [⟨lit "/w", lit "/w", none⟩]
  induction n with
  | zero =>
    have hfresh := fresh_new 5 (lit "/w") none
    have hfirst : (exec (start (enableReadEvent (new 5 (lit "/w") none)))
        [arrives env (lit "GET / HTTP/1.1\r\n") (by decide)]).map (fun s => (s.batch, s.alive,
          s.conn.state, s.conn.readBuffer.peekReadable, s.conn.context)) =
        some ([], true, .connected, [], collected 0) := by
      decide +kernel
    obtain ⟨s, hs, hparts⟩ := Option.map_eq_some_iff.mp hfirst
    simp only [Prod.mk.injEq] at hparts
    obtain ⟨hbatch, halive, hstate, hunread, hcontext⟩ := hparts
    exact ⟨_, s, hs, buffersWf_run hfresh hs, hbatch, halive, hstate, hunread, hcontext⟩
  | succ n ih =>
    obtain ⟨as, s, hs, hcollecting⟩ := ih (Nat.le_of_lt hn)
    obtain ⟨a, t, ht, hnext⟩ := collecting_next env hn hcollecting
    refine ⟨as ++ [a], t, ?_, hnext⟩
    exact (GuardedRuns.exec_append_iff step _ t as [a]).mpr ⟨s, hs, by simp [GuardedRuns.exec, ht]⟩

/-- No number that fits `size_t` bounds the memory of a connection: a client that sends
one header line after another and never the blank line gets beyond it. -/
theorem memory_unbounded :
    ¬∃ bound < 2 ^ 64, ∀ (c : Connection) (as : List Act) (s : Sys), Fresh c →
      exec (start c) as = some s → s.conn.memory ≤ bound := by
  rintro ⟨bound, hbound, hall⟩
  obtain ⟨as, s, hs, hcollecting⟩ := collecting_run (n := bound + 1) hbound
  have hle := hall _ as s (fresh_new 5 (lit "/w") none) hs
  have hheaders := fieldBytes_numbered (bound + 1)
  have hmemory : fieldBytes ((List.range (bound + 1)).map numbered) ≤ s.conn.memory := by
    rw [memory, hcollecting.context]
    simp only [collected, HttpRequest.heldBytes]
    omega
  omega

end Sys

end WebServer
