import WebServer.BufferQueue
import WebServer.ConnectionMemory
import WebServer.ServerSteps

/-!
# How far a buffer grows

`MakeSpace` compacts before it grows, so it only grows when the unread bytes and the new
ones do not fit the storage together: the storage then at most doubles what is needed,
wherever the write cursor stood. The read buffer of a connection is drained by its parser
and filled by `Read` only, which bounds what is needed, also when the object with its
storage goes through the pool from one connection to the next.
-/

namespace WebServer

open DataRefinement

namespace Buffer

/-! ## One operation -/

theorem compact_size {b : Buffer} (h : b.Wf) : b.compact.storage.length = b.storage.length := by
  have hcursors := h.cursors
  have hinside := h.inside
  have hlength := peekReadable_length h
  simp only [compact, readableBytes, List.length_append, List.length_drop] at hlength ⊢
  omega

theorem grow_size (b : Buffer) (len : Nat) :
    (b.grow len).storage.length = max (b.storage.length * 2) (b.writePos + len) := by
  simp only [grow, List.length_append, List.length_replicate]
  omega

/-- After the move to the front the room suffices, so the storage grows only when the unread
bytes and the new ones are more than it has. -/
theorem makeSpace_size {b : Buffer} (h : b.Wf) (len : Nat) :
    (b.makeSpace len).storage.length ≤ max b.storage.length (2 * (b.readableBytes + len)) := by
  have hcursors := h.cursors
  have hinside := h.inside
  unfold makeSpace
  by_cases room : len ≤ b.writableBytes
  · rw [if_pos room]
    exact Nat.le_max_left _ _
  · rw [if_neg room]
    by_cases front : len ≤ b.readPos + b.writableBytes
    · have hsize := compact_size h
      have hcursor : b.compact.writePos = b.readableBytes := rfl
      have moved : len ≤ b.compact.writableBytes := by
        simp only [writableBytes, readableBytes] at hcursor front ⊢
        omega
      rw [if_pos front]
      simp only [if_pos moved]
      omega
    · rw [if_neg front, grow_size]
      simp only [writableBytes, readableBytes] at front ⊢
      omega

theorem append_size {b : Buffer} (h : b.Wf) (data : Str) :
    (b.append data).storage.length = (b.makeSpace data.length).storage.length := by
  have hinside := append_inside h data
  simp only [append, List.length_append, List.length_take, List.length_drop]
  omega

theorem consume_storage (b : Buffer) (len : Nat) : (b.consume len).storage = b.storage := by
  unfold consume rewind
  split
  · rfl
  · rfl

/-! ## Any operations -/

/-- `ReadableBytes() + len` at an `Append(data, len)`. -/
def demand (b : Buffer) : BufferOp → Nat
  | .append data => b.readableBytes + data.length
  | _ => 0

/-- The largest demand of a run. -/
def peak (b : Buffer) : List BufferOp → Nat
  | [] => 0
  | op :: ops => max (b.demand op) (peak (b.apply op).1 ops)

theorem apply_wf {b : Buffer} (h : b.Wf) (op : BufferOp) : (b.apply op).1.Wf :=
  (apply_simulates b b.peekReadable op ⟨h, rfl⟩).1.1

theorem apply_size {b : Buffer} (h : b.Wf) (op : BufferOp) :
    (b.apply op).1.storage.length ≤ max b.storage.length (2 * b.demand op) := by
  cases op with
  | append data =>
    have hgrown := makeSpace_size h data.length
    have hsize := append_size h data
    exact hsize.trans_le hgrown
  | retrieve len =>
    have hsame := congrArg List.length (consume_storage b len)
    exact hsame.trans_le (Nat.le_max_left _ _)
  | retrieveAll => exact Nat.le_max_left _ _
  | consume len =>
    have hsame := congrArg List.length (consume_storage b len)
    exact hsame.trans_le (Nat.le_max_left _ _)
  | clear => exact Nat.le_max_left _ _

theorem run_size {b : Buffer} (h : b.Wf) (ops : List BufferOp) :
    (run apply b ops).1.storage.length ≤ max b.storage.length (2 * b.peak ops) := by
  induction ops generalizing b with
  | nil => exact Nat.le_max_left _ _
  | cons op ops ih =>
    have hfirst := apply_size h op
    have hrest := ih (apply_wf h op)
    have hpeak : max (b.demand op) ((b.apply op).1.peak ops) = b.peak (op :: ops) := rfl
    rw [run_cons]
    dsimp only
    omega

end Buffer

/-! ## The parser -/

namespace HttpContext

variable {P : Buffer → Prop}

/-- A turn that goes on continues with the buffer that its part of the parser left. -/
theorem turn_keeps {fuel : Nat} (ih : ∀ ctx b, P b → P (parseLoop fuel ctx b).2.2) {out : Outcome}
    (h : P out.2.2) :
    P (match out with
      | (.complete, ctx', b') => parseLoop fuel ctx' b'
      | out => out).2.2 := by
  obtain ⟨result, ctx, b⟩ := out
  cases result with
  | complete => exact ih ctx b h
  | incomplete => exact h
  | error => exact h

section
variable (consumed : ∀ b len, P b → P (b.consume len))
include consumed

theorem readLine_keeps {b b' : Buffer} {line : Str} (h : P b)
    (hline : readLine b = some (line, b')) : P b' := by
  unfold readLine at hline
  cases hfound : b.findCRLF with
  | none => simp [hfound] at hline
  | some len =>
    simp only [hfound, Option.some.injEq, Prod.mk.injEq] at hline
    obtain ⟨-, rfl⟩ := hline
    exact consumed b (len + 2) h

theorem parseRequestLine_keeps (ctx : HttpContext) {b : Buffer} (h : P b) :
    P (ctx.parseRequestLine b).2.2 := by
  unfold parseRequestLine
  cases hline : readLine b with
  | none => exact h
  | some got =>
    have hrest := readLine_keeps consumed h hline
    dsimp only
    split
    · exact hrest
    · exact hrest

theorem parseHeadersLoop_keeps (fuel : Nat) (ctx : HttpContext) {b : Buffer} (h : P b) :
    P (parseHeadersLoop fuel ctx b).2.2 := by
  induction fuel generalizing ctx b with
  | zero => exact h
  | succ fuel ih =>
    rw [parseHeadersLoop]
    cases hline : readLine b with
    | none => exact h
    | some got =>
      have hrest := readLine_keeps consumed h hline
      dsimp only
      split
      · exact hrest
      · split
        · exact ih _ hrest
        · exact hrest

theorem parseBody_keeps (ctx : HttpContext) {b : Buffer} (h : P b) :
    P (ctx.parseBody b).2.2 := by
  unfold parseBody
  split
  · exact h
  · split
    · exact h
    · exact consumed b ctx.contentLength h

/-- Of the buffer the parser only consumes. -/
theorem parseRequest_keeps (ctx : HttpContext) {b : Buffer} (h : P b) :
    P (ctx.parseRequest b).2.2 := by
  have hloop : ∀ fuel ctx b, P b → P (parseLoop fuel ctx b).2.2 := by
    intro fuel
    induction fuel with
    | zero => exact fun _ _ h => h
    | succ fuel ih =>
      intro ctx b h
      rw [parseLoop]
      cases ctx.state with
      | requestLine => exact turn_keeps ih (parseRequestLine_keeps consumed ctx h)
      | headers => exact turn_keeps ih (parseHeadersLoop_keeps consumed _ ctx h)
      | body => exact turn_keeps ih (parseBody_keeps consumed ctx h)
      | finish => exact h
  exact hloop 4 ctx b h

end

end HttpContext

/-! ## Connections -/

/-- The read buffer holds at most what `Read` may leave, in a storage of less than twice one
`recv` more. -/
structure Buffer.Contained (b : Buffer) : Prop where
  readable : b.readableBytes ≤ Connection.maxReadBufferSize + 4095
  size : b.storage.length < 2 * (Connection.maxReadBufferSize + 4096)

namespace Connection

theorem contained_consume {b : Buffer} (len : Nat) (h : b.Contained) :
    (b.consume len).Contained := by
  have hreadable := h.readable
  refine ⟨?_, ?_⟩
  · rw [Buffer.consume_readableBytes]
    omega
  · rw [Buffer.consume_storage]
    exact h.size

/-- A packet is only read below the limit. -/
theorem contained_append {b : Buffer} (hb : b.Wf) (h : b.Contained)
    (low : ¬maxReadBufferSize ≤ b.readableBytes) (p : Packet) : (b.append p.data).Contained := by
  have hfits := p.fits
  have hsize := h.size
  have hgrown := Buffer.makeSpace_size hb p.data.length
  have happended := Buffer.append_size hb p.data
  have hlength : (b.append p.data).readableBytes = b.readableBytes + p.data.length := by
    rw [← Buffer.peekReadable_length (Buffer.append_wf hb p.data), Buffer.append_peekReadable hb,
      List.length_append, Buffer.peekReadable_length hb]
  constructor
  · omega
  · omega

theorem contained_readLoop (errno : Errno) (packets : List Packet) {b : Buffer} (hb : b.Wf)
    (h : b.Contained) : (readLoop errno packets b).2.1.Wf ∧
      (readLoop errno packets b).2.1.Contained := by
  induction packets generalizing b with
  | nil =>
    rw [readLoop]
    split
    · exact ⟨hb, h⟩
    · exact ⟨hb, h⟩
  | cons p rest ih =>
    rw [readLoop]
    split
    · exact ⟨hb, h⟩
    next low =>
      split
      · exact ⟨hb, h⟩
      · exact ih (Buffer.append_wf hb p.data) (contained_append hb h low p)

/-- Both buffers are in order, and the read buffer is contained. -/
structure Roomy (c : Connection) : Prop where
  buffers : BuffersWf c
  contained : c.readBuffer.Contained

variable {c : Connection}

theorem roomy_keeps {d : Connection} (h : Roomy c) (hwf : BuffersWf d) (keeps : Keeps c d) :
    Roomy d := ⟨hwf, keeps.readBuffer ▸ h.contained⟩

theorem roomy_processInWorker (h : Roomy c) (env : Env) : Roomy (c.processInWorker env).1 := by
  have hwf := buffersWf_processInWorker h.buffers env
  have hparsed : c.parsed.2.2.Contained :=
    HttpContext.parseRequest_keeps (fun _ len => contained_consume len) c.context h.contained
  have hend := processInWorker_end h.buffers.read env
  generalize c.processInWorker env = out at hend hwf ⊢
  cases hend with
  | incomplete ctx rest _ heq =>
    rw [heq] at hparsed
    exact ⟨hwf, hparsed⟩
  | error ctx rest _ heq =>
    rw [heq] at hparsed
    exact ⟨hwf, hparsed⟩
  | complete ctx rest _ heq =>
    rw [heq] at hparsed
    refine ⟨hwf, ?_⟩
    rw [store_readBuffer]
    exact hparsed

theorem roomy_handleRead (h : Roomy c) (env : Env) (arrival : Arrival) :
    Roomy (c.handleRead env arrival).1 := by
  obtain ⟨hb, hcontained⟩ :=
    contained_readLoop arrival.errno arrival.packets h.buffers.read h.contained
  rcases hout : readLoop arrival.errno arrival.packets c.readBuffer with ⟨result, b, fx⟩
  rw [hout] at hb hcontained
  have hread : c.read arrival = (result, { c with readBuffer := b }, fx) := by
    simp only [read, hout]
  have hfilled : Roomy { c with readBuffer := b } := ⟨⟨hb, h.buffers.write⟩, hcontained⟩
  have hprocessed :
      Roomy (processInWorker { c with readBuffer := b, state := .processing } env).1 :=
    roomy_processInWorker (c := { c with readBuffer := b, state := .processing })
      ⟨⟨hb, h.buffers.write⟩, hcontained⟩ env
  cases result with
  | success =>
    by_cases hstate : c.state = .connected
    · simp only [handleRead, hread, if_pos hstate]
      exact hprocessed
    · simp only [handleRead, hread, if_neg hstate]
      exact hfilled
  | closed =>
    simp only [handleRead, hread]
    exact hfilled
  | error =>
    simp only [handleRead, hread]
    exact hfilled

theorem roomy_call (h : Roomy c) (cb : Callback) (env : Env) (sends : Transfers) :
    Roomy (c.call cb env sends).1 := by
  have hwf := buffersWf_call h.buffers cb env sends
  cases cb with
  | trySend =>
    by_cases hclosed : c.state = .closed
    · simpa only [call, if_pos hclosed] using h
    · simp only [call, if_neg hclosed] at hwf ⊢
      exact roomy_keeps h hwf (keeps_trySend h.buffers.write sends)
  | processInWorker => exact roomy_processInWorker h env
  | handleClose => exact h
  | removeConnection => exact h

theorem roomy_new (fd : Int) (dir : Str) (router : Option Router) : Roomy (new fd dir router) := by
  refine ⟨⟨Buffer.new_wf 1024, Buffer.new_wf 1024⟩, ?_, ?_⟩
  · exact Nat.zero_le _
  · have hsize : (Buffer.new 1024).storage.length = 1024 := List.length_replicate
    have hbound : 1024 < 2 * (maxReadBufferSize + 4096) := by decide
    exact hsize.trans_lt hbound

/-- The storage stays, and nothing in it is readable. -/
theorem roomy_reuse (h : Roomy c) (fd : Int) (dir : Str) (router : Option Router) :
    Roomy (c.reuse fd dir router) := by
  refine ⟨⟨Buffer.clear_wf c.readBuffer, Buffer.clear_wf c.writeBuffer⟩, Nat.zero_le _, ?_⟩
  exact h.contained.size

theorem lasting_roomy : Server.Lasting Roomy where
  new := roomy_new
  reuse _ fd dir router h := roomy_reuse h fd dir router
  enable _ h := ⟨⟨h.buffers.read, h.buffers.write⟩, h.contained⟩
  handleRead _ env arrival h := roomy_handleRead h env arrival
  handleWrite _ sends files h := roomy_keeps h (buffersWf_handleWrite h.buffers sends files)
    (keeps_handleWrite h.buffers.write sends files)
  call _ cb env sends h := roomy_call h cb env sends
  close c h := roomy_keeps h (buffersWf_close h.buffers) (keeps_close c)

end Connection

/-- The storage of a buffer is its initial size, or at most twice the largest demand so far.
`Read` leaves at most one `recv` above its limit unread, in less than twice that, and so it is
in every object of the server, however often the object has gone through a pool. -/
theorem buffer_growth :
    (∀ (initSize : Nat) (ops : List BufferOp),
      (run Buffer.apply (Buffer.new initSize) ops).1.storage.length ≤
        max initSize (2 * (Buffer.new initSize).peak ops)) ∧
    (∀ (c : Connection) (arrival : Arrival), c.readBuffer.Wf → c.readBuffer.Contained →
      (c.read arrival).2.1.readBuffer.Contained) ∧
    ∀ (dir : Str) (router : Option Router) (as : List ServerAct) (s : Server),
      Server.exec (Server.new dir router) as = some s →
        Server.Everywhere (fun c => c.readBuffer.Contained) s := by
  refine ⟨?_, ?_, ?_⟩
  · intro initSize ops
    have hrun := Buffer.run_size (Buffer.new_wf initSize) ops
    have hsize : (Buffer.new initSize).storage.length = initSize := List.length_replicate
    rwa [hsize] at hrun
  · intro c arrival hwf h
    exact (Connection.contained_readLoop arrival.errno arrival.packets hwf h).2
  · intro dir router as s hrun
    have hroomy := Server.everywhere_run Connection.lasting_roomy
      (Server.started_new dir router) hrun
    exact ⟨fun who m hm => (hroomy.live who m hm).contained,
      fun l o ho => (hroomy.pooled l o ho).contained⟩

/-- Five bytes in a storage of four, one packet to a new connection, and one to a server. -/
theorem buffer_growth_packet :
    let env := Env.table [⟨lit "/w", lit "/w", none⟩]
    let as := [ServerAct.accept 0 5, Server.arrives 0 env (lit "GET /a HTTP/1.1\r\n") (by decide)]
    let ops := [BufferOp.append [1, 2], .consume 1, .append [3, 4, 5, 6]]
    (run Buffer.apply (Buffer.new 4) ops).1.storage.length ≤ max 4 (2 * 5) ∧
      ((Connection.new 5 (lit "/w") none).read
        ⟨[⟨lit "GET /", by decide⟩], .again⟩).2.1.readBuffer.Contained ∧
      ∃ s, Server.exec (Server.new (lit "/w") none) as = some s ∧
        Server.Everywhere (fun c => c.readBuffer.Contained) s := by
  intro env as ops
  have hruns : (Server.exec (Server.new (lit "/w") none) as).isSome := by decide +kernel
  obtain ⟨s, hs⟩ := Option.isSome_iff_exists.mp hruns
  obtain ⟨hsize, hread, hserver⟩ := buffer_growth
  have hnew := Connection.roomy_new 5 (lit "/w") none
  refine ⟨hsize 4 ops, ?_, s, hs, ?_⟩
  · exact hread _ _ hnew.buffers.read hnew.contained
  · exact hserver (lit "/w") none as s hs

end WebServer
