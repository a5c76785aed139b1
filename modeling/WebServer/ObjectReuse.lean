import WebServer.ConnectionRuns
import WebServer.HeaderTable
import WebServer.RearrangedLogs

/-!
# A reused connection object

`Reuse` keeps the storage of the two buffers, with the old bytes in it, and the buckets of
the header map. Two connections are twins when they differ in no more than where their
readable bytes are stored and in the order of the header lines among the bytes to be sent.
Every handler keeps that and has the same effects on both but for these bytes, so that the
order of the header lines is all by which a reused object can be told from a new one.
-/

namespace WebServer

/-- The readable bytes are the same. -/
structure Buffer.Same (b b' : Buffer) : Prop where
  left : b.Wf
  right : b'.Wf
  bytes : b.peekReadable = b'.peekReadable

namespace Buffer.Same

variable {b b' : Buffer}

theorem readableBytes (h : b.Same b') : b.readableBytes = b'.readableBytes := by
  rw [← peekReadable_length h.left, ← peekReadable_length h.right, h.bytes]

theorem append (h : b.Same b') (data : Str) : (b.append data).Same (b'.append data) :=
  ⟨append_wf h.left data, append_wf h.right data, by
    rw [append_peekReadable h.left, append_peekReadable h.right, h.bytes]⟩

theorem consume (h : b.Same b') (len : Nat) : (b.consume len).Same (b'.consume len) :=
  ⟨consume_wf h.left len, consume_wf h.right len, by
    rw [consume_peekReadable h.left, consume_peekReadable h.right, h.bytes]⟩

theorem clear (b b' : Buffer) : b.clear.Same b'.clear :=
  ⟨clear_wf b, clear_wf b', by rw [clear_peekReadable, clear_peekReadable]⟩

end Buffer.Same

/-- The parser sees the readable bytes only. -/
theorem HttpContext.parseRequest_same (ctx : HttpContext) {b b' : Buffer} (h : b.Same b') :
    (ctx.parseRequest b).1 = (ctx.parseRequest b').1 ∧
      (ctx.parseRequest b).2.1 = (ctx.parseRequest b').2.1 ∧
      (ctx.parseRequest b).2.2.Same (ctx.parseRequest b').2.2 := by
  obtain ⟨hwf, -⟩ := parseRequest_drives ctx h.left
  obtain ⟨hwf', hdrives⟩ := parseRequest_drives ctx h.right
  rw [← h.bytes] at hdrives
  obtain ⟨hresult, hctx, hunread⟩ := parseRequest_unique h.left hdrives
  exact ⟨hresult, hctx, hwf, hwf', hunread⟩

namespace Buffer

/-- A well-formed buffer with these readable bytes. -/
structure Holds (b : Buffer) (s : Str) : Prop where
  wf : b.Wf
  bytes : b.peekReadable = s

variable {b : Buffer} {s : Str}

theorem Holds.readableBytes (h : b.Holds s) : b.readableBytes = s.length := by
  rw [← peekReadable_length h.wf, h.bytes]

theorem Holds.append (h : b.Holds s) (data : Str) : (b.append data).Holds (s ++ data) :=
  ⟨append_wf h.wf data, by rw [append_peekReadable h.wf, h.bytes]⟩

theorem Holds.consume (h : b.Holds s) (len : Nat) : (b.consume len).Holds (s.drop len) :=
  ⟨consume_wf h.wf len, by rw [consume_peekReadable h.wf, h.bytes]⟩

theorem holds_clear (b : Buffer) : b.clear.Holds [] := ⟨clear_wf b, clear_peekReadable b⟩

end Buffer

/-! ## Replies in another order -/

/-- The same world, but the header map is read in another order. -/
def Env.withOrder (env : Env) (o : HeaderOrder) : Env := { env with order := o }

section
variable {R : HeaderOrder → HeaderOrder → Prop} {env : Env} {o : HeaderOrder}

/-- The same reply, with its head written in another order. -/
structure Reply.Reordered (R : HeaderOrder → HeaderOrder → Prop) (p p' : Reply) : Prop where
  response : p'.response = p.response
  file : p'.file = p.file
  opened : p'.opened = p.opened
  bytes : Rearranged R p.bytes p'.bytes

theorem writeAll_reordered (h : R env.order o) (r : HttpResponse) (opened : List Str) :
    (writeAll env r opened).Reordered R (writeAll (env.withOrder o) r opened) :=
  ⟨rfl, rfl, rfl, r.buildDefaultHeaders, env.order, o, r.buildDefaultHeaders.body, h, rfl, rfl⟩

theorem sendfileReply_reordered (h : R env.order o) (filename path : Str) (file : OpenFile)
    (req : HttpRequest) (r : HttpResponse) :
    (sendfileReply env filename path file req r).Reordered R
      (sendfileReply (env.withOrder o) filename path file req r) :=
  ⟨rfl, rfl, rfl, (sendfileReply env filename path file req r).response, env.order, o, [], h,
    (List.append_nil _).symm, (List.append_nil _).symm⟩

theorem fileReply_reordered (h : R env.order o) (dir path : Str) (req : HttpRequest)
    (r : HttpResponse) :
    (fileReply env dir path req r).Reordered R
      (fileReply (env.withOrder o) dir path req r) := by
  have hread : ∀ r opened, (readReply env dir (dir ++ path) path req r opened).Reordered R
      (readReply (env.withOrder o) dir (dir ++ path) path req r opened) :=
    fun r opened => writeAll_reordered h _ _
  have hsame : (env.withOrder o).fs = env.fs := rfl
  have hstatic : isStaticFile (env.withOrder o) req (dir ++ path) =
      isStaticFile env req (dir ++ path) := rfl
  simp only [fileReply, hsame, hstatic]
  by_cases hlarge : maxFileSize < FileUtil.fileSize env.fs (dir ++ path)
  · rw [if_pos hlarge, if_pos hlarge]
    exact writeAll_reordered h _ _
  · rw [if_neg hlarge, if_neg hlarge]
    by_cases hfile : isStaticFile env req (dir ++ path) = true
    · rw [if_pos hfile, if_pos hfile]
      by_cases hgzip : compressible req path = true
      · rw [if_pos hgzip, if_pos hgzip]
        exact hread _ _
      · rw [if_neg hgzip, if_neg hgzip]
        cases FileUtil.openFile env.fs (dir ++ path) with
        | some file => exact sendfileReply_reordered h _ _ _ _ _
        | none => exact hread _ _
    · rw [if_neg hfile, if_neg hfile]
      exact hread _ _

theorem reply_reordered (h : R env.order o) (dir : Str) (router : Option Router)
    (req : HttpRequest) (r : HttpResponse) :
    (reply env dir router req r).Reordered R
      (reply (env.withOrder o) dir router req r) := by
  simp only [reply]
  cases router.bind (·.route req r) with
  | some routed => exact writeAll_reordered h _ _
  | none =>
    have hsame : (env.withOrder o).fs = env.fs := rfl
    simp only [staticReply, hsame]
    by_cases hsafe : PathUtil.safePath env.fs dir req.path = []
    · rw [if_pos hsafe, if_pos hsafe]
      exact writeAll_reordered h _ _
    · rw [if_neg hsafe, if_neg hsafe]
      exact fileReply_reordered h _ _ _ _

end

namespace Connection

/-- The connections differ in the storage of their buffers only. -/
inductive Alike (c : Connection) : Connection → Prop where
  | stored (readBuffer writeBuffer : Buffer) : c.readBuffer.Same readBuffer →
      c.writeBuffer.Same writeBuffer → Alike c { c with readBuffer, writeBuffer }

/-- `Reuse` leaves nothing else that a new connection does not have. -/
theorem alike_reuse (c : Connection) (fd : Int) (resourceDir : Str) (router : Option Router) :
    Alike (enableReadEvent (c.reuse fd resourceDir router))
      (enableReadEvent (new fd resourceDir router)) := by
  have hsame : ∀ b : Buffer, b.clear.Same (Buffer.new 1024) := fun b =>
    ⟨Buffer.clear_wf b, Buffer.new_wf 1024, by
      rw [Buffer.clear_peekReadable, Buffer.new_peekReadable]⟩
  exact .stored _ _ (hsame c.readBuffer) (hsame c.writeBuffer)

/-- Both buffers hold what is still to be sent. -/
structure Unsent (w : Wires) (b b' : Buffer) : Prop where
  even : w.Even
  left : b.Holds (w.first.drop w.taken)
  right : b'.Holds (w.second.drop w.taken)

theorem Unsent.readableBytes {w : Wires} {b b' : Buffer} (h : Unsent w b b') :
    b.readableBytes = b'.readableBytes := by
  rw [h.left.readableBytes, h.right.readableBytes, List.length_drop, List.length_drop,
    h.even.lengths]

/-- The connections differ in the storage of what they have read, and in the bytes they
have still to send. -/
inductive Twin (w : Wires) (c : Connection) : Connection → Prop where
  | stored (readBuffer writeBuffer : Buffer) : c.readBuffer.Same readBuffer →
      Unsent w c.writeBuffer writeBuffer → Twin w c { c with readBuffer, writeBuffer }

theorem twin_start {c c' : Connection} (h : Alike c c') (unsent : c.writeBuffer.peekReadable = []) :
    Twin ⟨[], [], 0⟩ c c' := by
  obtain ⟨rb, wb, hread, hwrite⟩ := h
  exact .stored _ _ hread ⟨⟨rfl, Nat.le_refl 0⟩, ⟨hwrite.left, unsent⟩,
    ⟨hwrite.right, hwrite.bytes.symm.trans unsent⟩⟩

section
variable {R : HeaderOrder → HeaderOrder → Prop} {w : Wires} {c c' : Connection}

/-- Twins afterwards, with effects that run alongside. -/
def TwinOut (R : HeaderOrder → HeaderOrder → Prop) (w : Wires)
    (out out' : Connection × List Effect) : Prop :=
  ∃ v, Alongside R w out.2 out'.2 v ∧ Twin v out.1 out'.1

theorem twinOut_append {v : Wires} {fx fx' : List Effect} {out out' : Connection × List Effect}
    (first : Alongside R w fx fx' v) (h : TwinOut R v out out') :
    TwinOut R w (out.1, fx ++ out.2) (out'.1, fx' ++ out'.2) := by
  obtain ⟨u, heffects, htwin⟩ := h
  exact ⟨u, first.append heffects, htwin⟩

/-- Effects without bytes, the same on both sides. -/
theorem twinOut_quiet {fx : List Effect} (quiet : ∀ e ∈ fx, e.carries = false)
    (h : Twin w c c') : TwinOut R w (c, fx) (c', fx) := ⟨w, .quiet w quiet, h⟩

theorem twinOut_silent (h : Twin w c c') : TwinOut R w (c, []) (c', []) := ⟨w, .nil w, h⟩

theorem twinOut_single (e : Effect) (quiet : e.carries = false) (h : Twin w c c') :
    TwinOut R w (c, [e]) (c', [e]) := ⟨w, .single w e quiet, h⟩

theorem readLoop_same (errno : Errno) (packets : List Packet) {b b' : Buffer} (h : b.Same b') :
    (readLoop errno packets b).1 = (readLoop errno packets b').1 ∧
      (readLoop errno packets b).2.1.Same (readLoop errno packets b').2.1 ∧
      (readLoop errno packets b).2.2 = (readLoop errno packets b').2.2 ∧
      ∀ e ∈ (readLoop errno packets b).2.2, e.carries = false := by
  induction packets generalizing b b' with
  | nil =>
    simp only [readLoop, h.readableBytes]
    split <;> exact ⟨rfl, h, rfl, List.forall_mem_nil _⟩
  | cons p rest ih =>
    simp only [readLoop, h.readableBytes]
    by_cases hfull : maxReadBufferSize ≤ b'.readableBytes
    · rw [if_pos hfull, if_pos hfull]
      exact ⟨rfl, h, rfl, List.forall_mem_nil _⟩
    · rw [if_neg hfull, if_neg hfull]
      by_cases hclosed : p.data = []
      · rw [if_pos hclosed, if_pos hclosed]
        exact ⟨rfl, h, rfl, List.forall_mem_nil _⟩
      · rw [if_neg hclosed, if_neg hclosed]
        obtain ⟨hresult, hsame, hfx, hquiet⟩ := ih (h.append p.data)
        exact ⟨hresult, hsame, congrArg (Effect.received p.data :: ·) hfx,
          List.forall_mem_cons.mpr ⟨rfl, hquiet⟩⟩

theorem writeLoop_unsent (errno : Errno) (counts : List Nat) {b b' : Buffer} (h : Unsent w b b') :
    (writeLoop errno counts b).1 = (writeLoop errno counts b').1 ∧
      ∃ v, Alongside R w (writeLoop errno counts b).2.2 (writeLoop errno counts b').2.2 v ∧
        Unsent v (writeLoop errno counts b).2.1 (writeLoop errno counts b').2.1 := by
  induction counts generalizing b b' w with
  | nil =>
    simp only [writeLoop, h.readableBytes]
    split <;> exact ⟨rfl, w, .nil w, h⟩
  | cons n rest ih =>
    simp only [writeLoop, Buffer.retrieve, h.readableBytes, h.left.bytes, h.right.bytes,
      Nat.min_assoc, Nat.min_self]
    by_cases hempty : b'.readableBytes = 0
    · rw [if_pos hempty, if_pos hempty]
      exact ⟨rfl, w, .nil w, h⟩
    · rw [if_neg hempty, if_neg hempty]
      by_cases hzero : n = 0
      · rw [if_pos hzero, if_pos hzero]
        exact ⟨rfl, w, .nil w, h⟩
      · rw [if_neg hzero, if_neg hzero]
        have hlength : b'.readableBytes = w.first.length - w.taken := by
          rw [← h.readableBytes, h.left.readableBytes, List.length_drop]
        have hwithin : w.taken + min n b'.readableBytes ≤ w.first.length := by
          have heven := h.even.within
          omega
        have hnext : Unsent ⟨w.first, w.second, w.taken + min n b'.readableBytes⟩
            (b.consume (min n b'.readableBytes)) (b'.consume (min n b'.readableBytes)) := by
          refine ⟨⟨h.even.lengths, hwithin⟩, ?_, ?_⟩
          · rw [← List.drop_drop]
            exact h.left.consume _
          · rw [← List.drop_drop]
            exact h.right.consume _
        obtain ⟨hresult, v, hfx, hunsent⟩ := ih hnext
        exact ⟨hresult, v, .sent _ hwithin hfx, hunsent⟩

theorem twin_fields (h : Twin w c c') :
    c.fd = c'.fd ∧ c.state = c'.state ∧ c.channel = c'.channel := by
  cases h
  exact ⟨rfl, rfl, rfl⟩

theorem twin_state (h : Twin w c c') (state : ConnState) :
    Twin w { c with state } { c' with state } := by
  obtain ⟨rb, wb, hread, hwrite⟩ := h
  exact .stored _ _ hread hwrite

theorem twin_read (h : Twin w c c') (arrival : Arrival) :
    (c.read arrival).1 = (c'.read arrival).1 ∧
      TwinOut R w (c.read arrival).2 (c'.read arrival).2 := by
  obtain ⟨rb, wb, hread, hwrite⟩ := h
  obtain ⟨hresult, hsame, hfx, hquiet⟩ := readLoop_same arrival.errno arrival.packets hread
  refine ⟨hresult, w, ?_, .stored _ _ hsame hwrite⟩
  show Alongside R w (readLoop _ _ _).2.2 (readLoop _ _ _).2.2 w
  rw [← hfx]
  exact .quiet w hquiet

theorem twin_write (h : Twin w c c') (sends : Transfers) :
    (c.write sends).1 = (c'.write sends).1 ∧
      TwinOut R w (c.write sends).2 (c'.write sends).2 := by
  obtain ⟨rb, wb, hread, hwrite⟩ := h
  obtain ⟨hresult, v, hfx, hunsent⟩ := writeLoop_unsent sends.errno sends.counts hwrite
  exact ⟨hresult, v, hfx, .stored _ _ hread hunsent⟩

theorem twin_store (h : Twin w c c') (env : Env) (o : HeaderOrder) {p p' : Reply}
    (reordered : p.Reordered R p') :
    TwinOut R w (c.store env p) (c'.store (env.withOrder o) p') := by
  obtain ⟨rb, wb, hread, hwrite⟩ := h
  obtain ⟨response, bytes, file, opened⟩ := p
  obtain ⟨response', bytes', file', opened'⟩ := p'
  obtain ⟨hresponse, hfile, hopened, hbytes⟩ := reordered
  obtain rfl : response' = response := hresponse
  obtain rfl : file' = file := hfile
  obtain rfl : opened' = opened := hopened
  have hunsent : Unsent ⟨w.first ++ bytes, w.second ++ bytes', w.taken⟩
      (c.writeBuffer.append bytes) (wb.append bytes') := by
    have hwithin := hwrite.even.within
    have hlengths := hwrite.even.lengths
    refine ⟨⟨?_, ?_⟩, ?_, ?_⟩
    · simp only [List.length_append, hlengths, rearranged_length hbytes]
    · show w.taken ≤ (w.first ++ bytes).length
      rw [List.length_append]
      omega
    · rw [List.drop_append_of_le_length hwithin]
      exact hwrite.left.append bytes
    · rw [List.drop_append_of_le_length (hlengths ▸ hwithin)]
      exact hwrite.right.append bytes'
  have hopens : ∀ e ∈ opened'.map Effect.opened, e.carries = false := by
    intro e he
    obtain ⟨name, -, rfl⟩ := List.mem_map.mp he
    rfl
  have hfx : Alongside R w
      (opened'.map .opened ++ [.responded bytes (file'.map (·.size))])
      (opened'.map .opened ++ [.responded bytes' (file'.map (·.size))])
      ⟨w.first ++ bytes, w.second ++ bytes', w.taken⟩ :=
    (Alongside.quiet w hopens).append (.responded _ hbytes (.nil _))
  cases file' with
  | none =>
    simp only [store]
    exact ⟨_, hfx, .stored _ _ hread hunsent⟩
  | some left =>
    simp only [store]
    refine ⟨_, hfx.append (.quiet _ ?_), .stored _ _ hread hunsent⟩
    intro e he
    split at he
    · obtain rfl := List.mem_singleton.mp he
      rfl
    · cases he

theorem twin_process (h : Twin w c c') {env : Env} {o : HeaderOrder}
    (allowed : R env.order o) :
    (c.process env).1 = (c'.process (env.withOrder o)).1 ∧
      TwinOut R w (c.process env).2 (c'.process (env.withOrder o)).2 := by
  obtain ⟨rb, wb, hread, hwrite⟩ := h
  obtain ⟨hresult, hctx, hrest⟩ := c.context.parseRequest_same hread
  simp only [process]
  generalize c.context.parseRequest c.readBuffer = out at hresult hctx hrest ⊢
  generalize c.context.parseRequest rb = out' at hresult hctx hrest ⊢
  obtain ⟨result, ctx, rest⟩ := out
  obtain ⟨result', ctx', rest'⟩ := out'
  obtain rfl : result = result' := hresult
  obtain rfl : ctx = ctx' := hctx
  cases result with
  | incomplete => exact ⟨rfl, twinOut_single _ rfl (.stored _ _ hrest hwrite)⟩
  | error => exact ⟨rfl, twinOut_single _ rfl (.stored _ _ hrest hwrite)⟩
  | complete =>
    have hparsed : Twin w { c with context := ctx, readBuffer := rest }
        { c with context := ctx, readBuffer := rest', writeBuffer := wb } :=
      .stored _ _ hrest hwrite
    have hstored := twin_store hparsed env o
      (reply_reordered allowed c.resourceDir c.router ctx.request c.response)
    exact ⟨rfl, twinOut_append (.single w (.parsed .complete) rfl) hstored⟩

theorem twin_processInWorker (h : Twin w c c') {env : Env} {o : HeaderOrder}
    (allowed : R env.order o) :
    TwinOut R w (c.processInWorker env) (c'.processInWorker (env.withOrder o)) := by
  obtain ⟨hresult, v, hfx, htwin⟩ := twin_process h allowed
  simp only [processInWorker]
  generalize c.process env = out at hresult hfx htwin ⊢
  generalize c'.process (env.withOrder o) = out' at hresult hfx htwin ⊢
  obtain ⟨result, d, fx⟩ := out
  obtain ⟨result', d', fx'⟩ := out'
  obtain rfl : result = result' := hresult
  cases result with
  | incomplete => exact ⟨v, hfx, twin_state htwin _⟩
  | error => exact ⟨v, hfx.append (.single v _ rfl), twin_state htwin _⟩
  | complete => exact ⟨v, hfx.append (.single v _ rfl), twin_state htwin _⟩

theorem twin_onResponseFinished (h : Twin w c c') :
    TwinOut R w c.onResponseFinished.2 c'.onResponseFinished.2 := by
  obtain ⟨rb, wb, hread, hwrite⟩ := h
  by_cases hkeep : c.isKeepAlive = true
  · have hkeep' : { c with readBuffer := rb, writeBuffer := wb }.isKeepAlive = true := hkeep
    have hcleared : Unsent ⟨w.first, w.second, w.first.length⟩ c.writeBuffer.retrieveAll.2
        wb.retrieveAll.2 := by
      refine ⟨⟨hwrite.even.lengths, Nat.le_refl _⟩, ?_, ?_⟩
      · rw [List.drop_length]
        exact Buffer.holds_clear _
      · show wb.clear.Holds (w.second.drop w.first.length)
        rw [hwrite.even.lengths, List.drop_length]
        exact Buffer.holds_clear _
    -- what the buffers still hold is dropped
    have hfx : ∀ fx : List Effect, (∀ e ∈ fx, e.carries = false) →
        Alongside R w fx fx ⟨w.first, w.second, w.first.length⟩ := fun fx hquiet =>
      .dropped hwrite.even.within (Nat.le_refl _) (.quiet _ hquiet)
    have hpending : ∀ p : Prop, ∀ [Decidable p], ∀ e ∈ (if p then [Effect.queued .processInWorker]
        else []), e.carries = false := by
      intro p _ e he
      split at he
      · obtain rfl := List.mem_singleton.mp he
        rfl
      · cases he
    simp only [onResponseFinished, if_pos hkeep, if_pos hkeep', hasPendingRequest,
      resetForNextRequest_readBuffer, hread.readableBytes, hwrite.readableBytes]
    by_cases hopen : 0 ≤ c.sendFileFd
    · simp only [resetForNextRequest, if_pos hopen]
      refine ⟨_, hfx _ ?_, .stored _ _ hread hcleared⟩
      exact List.forall_mem_cons.mpr ⟨rfl, List.forall_mem_cons.mpr ⟨rfl, hpending _⟩⟩
    · simp only [resetForNextRequest, if_neg hopen]
      refine ⟨_, hfx _ ?_, .stored _ _ hread hcleared⟩
      exact List.forall_mem_cons.mpr ⟨rfl, hpending _⟩
  · have hkeep' : ¬{ c with readBuffer := rb, writeBuffer := wb }.isKeepAlive = true := hkeep
    simp only [onResponseFinished, if_neg hkeep, if_neg hkeep', hwrite.readableBytes]
    exact twinOut_single _ rfl (.stored _ _ hread hwrite)

theorem twin_handleWriteResult (h : Twin w c c') (result : WriteResult) :
    TwinOut R w (c.handleWriteResult result) (c'.handleWriteResult result) := by
  cases result with
  | complete => exact twin_onResponseFinished h
  | again =>
    obtain ⟨rb, wb, hread, hwrite⟩ := h
    exact twinOut_silent (.stored _ _ hread hwrite)
  | error => exact twinOut_single _ rfl h

theorem twin_trySend (h : Twin w c c') (sends : Transfers) :
    TwinOut R w (c.trySend sends) (c'.trySend sends) := by
  obtain ⟨hresult, v, hfx, htwin⟩ := twin_write (R := R) h sends
  simp only [trySend]
  generalize c.write sends = out at hresult hfx htwin ⊢
  generalize c'.write sends = out' at hresult hfx htwin ⊢
  obtain ⟨result, d, fx⟩ := out
  obtain ⟨result', d', fx'⟩ := out'
  obtain rfl : result = result' := hresult
  exact twinOut_append hfx (twin_handleWriteResult htwin result)

theorem twin_writeDone (h : Twin w c c') : TwinOut R w c.writeDone c'.writeDone := by
  have hidle : Twin w (disableWriteEvent { c with writeState := .idle })
      (disableWriteEvent { c' with writeState := .idle }) := by
    obtain ⟨rb, wb, hread, hwrite⟩ := h
    exact .stored _ _ hread hwrite
  exact twin_handleWriteResult hidle .complete

theorem sendfileLoop_quiet (errno : Errno) (counts : List Nat) (offset left : Nat) :
    ∀ e ∈ (sendfileLoop errno counts offset left).2.2, e.carries = false := by
  induction counts generalizing offset left with
  | nil =>
    simp only [sendfileLoop]
    split <;> exact List.forall_mem_nil _
  | cons n rest ih =>
    simp only [sendfileLoop]
    split
    · exact List.forall_mem_nil _
    · exact List.forall_mem_cons.mpr ⟨rfl, ih _ _⟩

theorem twin_sendFile (h : Twin w c c') (files : Transfers) :
    TwinOut R w (c.sendFile files) (c'.sendFile files) := by
  have hdone : TwinOut R w c.writeDone c'.writeDone := twin_writeDone h
  obtain ⟨rb, wb, hread, hwrite⟩ := h
  by_cases hopen : 0 ≤ c.sendFileFd
  · simp only [sendFile, if_pos hopen]
    have hquiet := sendfileLoop_quiet files.errno files.counts 0 c.sendFileLen
    generalize sendfileLoop files.errno files.counts 0 c.sendFileLen = out at hquiet ⊢
    obtain ⟨result, left, fx⟩ := out
    cases result with
    | again => exact twinOut_quiet hquiet (.stored _ _ hread hwrite)
    | error =>
      have hfailed : Twin w { c with sendFileLen := left, sendFileFd := -1 }
          { c with sendFileLen := left, sendFileFd := -1, readBuffer := rb, writeBuffer := wb } :=
        .stored _ _ hread hwrite
      have hclosing := twinOut_append (.single w (.discarded .failed left) rfl)
        (twin_handleWriteResult (R := R) hfailed .error)
      exact twinOut_append (.quiet w hquiet) hclosing
    | complete =>
      have hsent : Twin w { c with sendFileLen := left, sendFileFd := -1 }
          { c with sendFileLen := left, sendFileFd := -1, readBuffer := rb, writeBuffer := wb } :=
        .stored _ _ hread hwrite
      have hending := twinOut_append (.single w (.discarded .drained left) rfl)
        (twin_writeDone (R := R) hsent)
      exact twinOut_append (.quiet w hquiet) hending
  · simp only [sendFile, if_neg hopen]
    exact hdone

theorem twin_handleWrite (h : Twin w c c') (sends files : Transfers) :
    TwinOut R w (c.handleWrite sends files) (c'.handleWrite sends files) := by
  have hwriting : Twin w { c with writeState := .writing } { c' with writeState := .writing } := by
    obtain ⟨rb, wb, hread, hwrite⟩ := h
    exact .stored _ _ hread hwrite
  obtain ⟨hresult, v, hfx, htwin⟩ := twin_write (R := R) hwriting sends
  simp only [handleWrite]
  generalize write { c with writeState := .writing } sends = out at hresult hfx htwin ⊢
  generalize write { c' with writeState := .writing } sends = out' at hresult hfx htwin ⊢
  obtain ⟨result, d, fx⟩ := out
  obtain ⟨result', d', fx'⟩ := out'
  obtain rfl : result = result' := hresult
  change Twin v d d' at htwin
  have hfile : TwinOut R v (d.sendFile files) (d'.sendFile files) := twin_sendFile htwin files
  have hpending : Twin v (enableWriteEvent { d with writeState := .pending })
      (enableWriteEvent { d' with writeState := .pending }) := by
    obtain ⟨rb, wb, hread, hwrite⟩ := htwin
    exact .stored _ _ hread hwrite
  obtain ⟨rb, wb, hread, hwrite⟩ := htwin
  by_cases hempty : d.writeBuffer.readableBytes = 0
  · have hempty' : wb.readableBytes = 0 := hwrite.readableBytes.symm.trans hempty
    simp only [if_pos hempty, if_pos hempty']
    exact twinOut_append hfx hfile
  · have hempty' : ¬wb.readableBytes = 0 := fun h => hempty (hwrite.readableBytes.trans h)
    simp only [if_neg hempty, if_neg hempty']
    exact twinOut_append hfx (twin_handleWriteResult hpending result)

theorem twin_handleRead (h : Twin w c c') {env : Env} {o : HeaderOrder}
    (allowed : R env.order o) (arrival : Arrival) :
    TwinOut R w (c.handleRead env arrival) (c'.handleRead (env.withOrder o) arrival) := by
  obtain ⟨hresult, v, hfx, htwin⟩ := twin_read (R := R) h arrival
  simp only [handleRead]
  generalize c.read arrival = out at hresult hfx htwin ⊢
  generalize c'.read arrival = out' at hresult hfx htwin ⊢
  obtain ⟨result, d, fx⟩ := out
  obtain ⟨result', d', fx'⟩ := out'
  obtain rfl : result = result' := hresult
  change Twin v d d' at htwin
  have hprocess := twin_processInWorker (twin_state htwin .processing) allowed
  have hstate := (twin_fields htwin).2.1
  have hclose : TwinOut R v d.handleClose d'.handleClose := twinOut_single _ rfl htwin
  cases result with
  | success =>
    by_cases hconnected : d.state = .connected
    · simp only [if_pos hconnected, if_pos (hstate ▸ hconnected)]
      exact twinOut_append hfx hprocess
    · simp only [if_neg hconnected, if_neg (hstate ▸ hconnected)]
      exact ⟨v, hfx, htwin⟩
  | closed => exact twinOut_append hfx hclose
  | error => exact twinOut_append hfx hclose

theorem twin_call (h : Twin w c c') (cb : Callback) {env : Env} {o : HeaderOrder}
    (allowed : R env.order o) (sends : Transfers) :
    TwinOut R w (c.call cb env sends) (c'.call cb (env.withOrder o) sends) := by
  obtain ⟨hfd, hstate, -⟩ := twin_fields h
  cases cb with
  | trySend =>
    simp only [call, hstate]
    by_cases hclosed : c'.state = .closed
    · simp only [if_pos hclosed]
      exact twinOut_silent h
    · simp only [if_neg hclosed]
      exact twin_trySend h sends
  | processInWorker => exact twin_processInWorker h allowed
  | handleClose => exact twinOut_single _ rfl h
  | removeConnection =>
    simp only [call, hfd]
    exact twinOut_single _ rfl h

theorem twin_close (h : Twin w c c') : TwinOut R w c.close c'.close := by
  obtain ⟨rb, wb, hread, hwrite⟩ := h
  by_cases hopen : 0 ≤ c.sendFileFd
  · simp only [close, if_pos hopen]
    exact twinOut_single _ rfl (.stored _ _ hread hwrite)
  · simp only [close, if_neg hopen]
    exact twinOut_silent (.stored _ _ hread hwrite)

end

end Connection

open Connection

/-- The order in which an act reads the header map. -/
def Act.order : Act → Option HeaderOrder
  | .readable env _ | .run env _ => some env.order
  | .writable _ _ | .hangup | .swap | .release => none

/-- The same act, with the header map read in another order. -/
def Act.withOrder (o : HeaderOrder) : Act → Act
  | .readable env arrival => .readable (env.withOrder o) arrival
  | .writable sends files => .writable sends files
  | .hangup => .hangup
  | .swap => .swap
  | .run env sends => .run (env.withOrder o) sends
  | .release => .release

/-- The acts differ in that order only, and the two orders are allowed beside each other. -/
inductive Act.Beside (R : HeaderOrder → HeaderOrder → Prop) (a : Act) : Act → Prop where
  | withOrder (o : HeaderOrder) : (∀ o', a.order = some o' → R o' o) → Beside R a (a.withOrder o)

theorem Act.withOrder_self (a : Act) : a.withOrder (a.order.getD .insertion) = a := by
  cases a <;> rfl

theorem Act.beside_self (a : Act) : a.Beside Eq a := by
  have hbeside : a.Beside Eq (a.withOrder (a.order.getD .insertion)) := by
    refine .withOrder _ ?_
    rintro o ho
    rw [ho]
    rfl
  rwa [a.withOrder_self] at hbeside

namespace Sys

/-- The connections are twins, and the records run alongside from the beginning. -/
structure TwinSys (R : HeaderOrder → HeaderOrder → Prop) (s t : Sys) : Prop where
  conn : ∃ w, Alongside R ⟨[], [], 0⟩ s.log t.log w ∧ Twin w s.conn t.conn
  pending : s.pending = t.pending
  batch : s.batch = t.batch
  alive : s.alive = t.alive

section
variable {R : HeaderOrder → HeaderOrder → Prop} {s t : Sys}

theorem twinSys_start {c c' : Connection} (h : Alike c c')
    (unsent : c.writeBuffer.peekReadable = []) : TwinSys R (start c) (start c') :=
  ⟨⟨_, .nil _, twin_start h unsent⟩, rfl, rfl, rfl⟩

theorem twinSys_after (h : TwinSys R s t) {out out' : Connection × List Effect}
    (hout : ∀ w, Twin w s.conn t.conn → TwinOut R w out out') :
    TwinSys R (s.after out) (t.after out') := by
  obtain ⟨w, hlog, htwin⟩ := h.conn
  obtain ⟨v, hfx, hnext⟩ := hout w htwin
  exact ⟨⟨v, hlog.append hfx, hnext⟩, by rw [after, after, h.pending, hfx.queued], h.batch, h.alive⟩

/-- A step that asks for something the two systems agree on. -/
theorem twinSys_ite {p q : Prop} [Decidable p] [Decidable q] (same : p ↔ q)
    (h : TwinSys R s t) :
    Option.Rel (TwinSys R) (if p then some s else none) (if q then some t else none) := by
  by_cases hp : p
  · rw [if_pos hp, if_pos (same.mp hp)]
    exact .some h
  · rw [if_neg hp, if_neg (fun hq => hp (same.mpr hq))]
    exact .none

theorem twinSys_step (s t : Sys) (a b : Act) (h : TwinSys R s t) (beside : a.Beside R b) :
    Option.Rel (TwinSys R) (s.step a) (t.step b) := by
  obtain ⟨o, hallowed⟩ := beside
  have hout : s.conn.channel = t.conn.channel := by
    obtain ⟨w, -, htwin⟩ := h.conn
    exact (twin_fields htwin).2.2
  cases a with
  | readable env arrival =>
    exact twinSys_ite (by rw [h.batch, h.alive])
      (twinSys_after h fun w htwin => twin_handleRead htwin (hallowed _ rfl) arrival)
  | writable sends files =>
    exact twinSys_ite (by rw [h.batch, h.alive, hout])
      (twinSys_after h fun w htwin => twin_handleWrite htwin sends files)
  | hangup =>
    exact twinSys_ite (by rw [h.batch, h.alive])
      (twinSys_after h fun w htwin => twinOut_single _ rfl htwin)
  | swap => exact twinSys_ite (by rw [h.batch]) ⟨h.conn, rfl, h.pending, h.alive⟩
  | run env sends =>
    show Option.Rel _ (step s (.run env sends)) (step t (.run (env.withOrder o) sends))
    simp only [step, h.batch]
    cases t.batch with
    | nil => exact .none
    | cons cb rest =>
      have htaken : TwinSys R { s with batch := rest } { t with batch := rest } :=
        ⟨h.conn, h.pending, rfl, h.alive⟩
      exact .some (twinSys_after htaken fun w htwin => twin_call htwin cb (hallowed _ rfl) sends)
  | release =>
    have hclosed : TwinSys R { s with alive := false } { t with alive := false } :=
      ⟨h.conn, h.pending, h.batch, rfl⟩
    exact twinSys_ite (by rw [functors, functors, h.pending, h.batch, h.alive])
      (twinSys_after hclosed fun w htwin => twin_close htwin)

end

/-- What anyone can see of a system besides its effects: the state, the interest in events,
the queued functors, and whether the connection is still open. -/
def condition (s : Sys) : ConnState × Channel × List Callback × List Callback × Bool :=
  (s.conn.state, s.conn.channel, s.pending, s.batch, s.alive)

/-- With the record of the effects. -/
def observed (s : Sys) : List Effect × ConnState × Channel × List Callback × List Callback × Bool :=
  (s.log, s.condition)

/-- The two look the same, but for the order of the header lines in the bytes. -/
structure Resembles (s t : Sys) : Prop where
  log : ∃ w, Alongside (fun _ _ => True) ⟨[], [], 0⟩ s.log t.log w
  condition : s.condition = t.condition

theorem twinSys_condition {R : HeaderOrder → HeaderOrder → Prop} {s t : Sys}
    (h : TwinSys R s t) : s.condition = t.condition := by
  obtain ⟨w, -, htwin⟩ := h.conn
  obtain ⟨-, hstate, hchannel⟩ := twin_fields htwin
  simp only [condition, hstate, hchannel, h.pending, h.batch, h.alive]

theorem resembles_of_twins {s t : Option Sys} (h : Option.Rel (TwinSys fun _ _ => True) s t) :
    Option.Rel Resembles s t := by
  cases h with
  | none => exact .none
  | some h =>
    obtain ⟨w, hlog, -⟩ := h.conn
    exact .some ⟨⟨w, hlog⟩, twinSys_condition h⟩

theorem observed_of_twins {s t : Option Sys} (h : Option.Rel (TwinSys Eq) s t) :
    s.map observed = t.map observed := by
  cases h with
  | none => rfl
  | some h =>
    obtain ⟨w, hlog, -⟩ := h.conn
    simp only [Option.map_some, observed, hlog.eq rfl, twinSys_condition h]

/-- The same run, with the header map read in an order of its own at each act. -/
def reordered (orders : Nat → HeaderOrder) (as : List Act) : List Act :=
  as.mapIdx fun i a => a.withOrder (orders i)

theorem beside_reordered (orders : Nat → HeaderOrder) (as : List Act) :
    List.Forall₂ (Act.Beside fun _ _ => True) as (reordered orders as) := by
  induction as generalizing orders with
  | nil => exact .nil
  | cons a as ih =>
    rw [reordered, List.mapIdx_cons]
    exact .cons (.withOrder _ fun _ _ => trivial) (ih fun i => orders (i + 1))

theorem beside_same (as : List Act) : List.Forall₂ (Act.Beside Eq) as as :=
  List.forall₂_same.mpr fun a _ => a.beside_self

/-- After `Close` and `Reuse`, whatever the object went through before, every later run is
possible exactly as for a new connection and looks the same at its end, but for the order of
header lines; where the two header maps are read in the same order it looks the same. -/
theorem reuse_observed (c : Connection) (fd : Int) (resourceDir : Str) (router : Option Router)
    (as : List Act) :
    let reused := start (enableReadEvent (c.close.1.reuse fd resourceDir router))
    let fresh := start (enableReadEvent (new fd resourceDir router))
    (∀ orders, Option.Rel Resembles (exec reused as) (exec fresh (reordered orders as))) ∧
      (exec reused as).map observed = (exec fresh as).map observed := by
  intro reused fresh
  have hstart : ∀ R, TwinSys R reused fresh := fun R =>
    twinSys_start (alike_reuse c.close.1 fd resourceDir router)
      (Sys.fresh_reuse c.close.1 fd resourceDir router).unsent
  constructor
  · intro orders
    exact resembles_of_twins
      (GuardedRuns.exec_related twinSys_step (hstart _) (beside_reordered orders as))
  · exact observed_of_twins (GuardedRuns.exec_related twinSys_step (hstart Eq) (beside_same as))

/-- A response with fourteen headers and more leaves 29 buckets in its object. The next
client is sent its header lines in another order than by a new object. -/
theorem reuse_reordered :
    let env := fun buckets => (Env.table []).withOrder (HeaderTable.order buckets)
    let many := fun (_ : HttpRequest) (resp : HttpResponse) =>
      (List.range 14).foldl (fun resp n => resp.setHeader (lit "X-" ++ toDec n) []) resp
    let router := some (Router.get {} (lit "/many") { respond := many })
    let earlier := (processInWorker (receiving (lit "/w") router
      (lit "GET /many HTTP/1.0\r\n\r\n")) (env 1)).1
    let request := fun buckets =>
      [arrives (env buckets) (lit "GET /a HTTP/1.0\r\n\r\n") (by decide), .swap,
        runs (env buckets)]
    let buckets := HeaderTable.bucketsAfter 1 earlier.response.headers.pairs
    buckets = 29 ∧
      (exec (start (enableReadEvent (earlier.close.1.reuse 6 (lit "/w") router)))
        (request buckets)).map (fun s => sentOf s.log) ≠
      (exec (start (enableReadEvent (new 6 (lit "/w") router))) (request 1)).map
        (fun s => sentOf s.log) := by
  decide +kernel

end Sys

end WebServer
