import WebServer.Pipelining

/-!
# The end of the stream

A client sends whole requests and closes its side; the server should answer them the
same way wherever the stream and its end are cut into EPOLLIN events. `Read` appends
what arrived and then reports the close, and `HandleRead` returns on the close before
it looks at the buffer: bytes that came in the same burst wait for a functor that only
an unfinished response leaves behind.

Any whole requests are admitted, kept alive or not, answered from memory or by a file;
of a file the head is what `TrySend` sends. Socket writes accept what they are given.
-/

namespace WebServer

open Connection Resumable HttpContext

/-- The functors that still do something for a request. -/
def working (fs : List Callback) : List Callback := fs.filter (· ≠ .removeConnection)

@[simp] theorem working_append (fs gs : List Callback) :
    working (fs ++ gs) = working fs ++ working gs := List.filter_append _ _

@[simp] theorem working_nil : working [] = [] := rfl

theorem working_removal (fs : List Callback) : working (.removeConnection :: fs) = working fs := rfl

theorem working_cons {cb : Callback} (h : cb ≠ .removeConnection) (fs : List Callback) :
    working (cb :: fs) = cb :: working fs := by
  rw [working, List.filter_cons_of_pos (by simpa using h), working]

/-- The requests that are answered: nothing follows one that is not kept alive. -/
def served : List WholeRequest → List WholeRequest
  | [] => []
  | r :: rest => if r.context.request.isKeepAlive then r :: served rest else [r]

theorem served_append {done : List WholeRequest}
    (kept : ∀ r ∈ done, r.context.request.isKeepAlive = true) (todo : List WholeRequest) :
    served (done ++ todo) = done ++ served todo := by
  induction done with
  | nil => rfl
  | cons r done ih =>
    obtain ⟨hr, hdone⟩ := List.forall_mem_cons.mp kept
    rw [List.cons_append, served, if_pos hr, ih hdone, List.cons_append]

section
variable (env : Env) (dir : Str) (router : Option Router)

/-- The serialised response to the request, or its head when a file follows. -/
def WholeRequest.response (r : WholeRequest) : Str :=
  (reply env dir router r.context.request .reset).bytes

/-- The requests that have been answered, and what is not sent of the last answer. -/
structure Answered (done : List WholeRequest) (unsent : Str) (log : List Effect) : Prop where
  sent : sentOf log ++ unsent = done.flatMap (·.response env dir router)
  responses : responsesOf log = done.map (·.response env dir router)

/-- No request has asked for the close yet, and nothing waits for EPOLLOUT. -/
structure Going (done : List WholeRequest) (c : Connection) : Prop where
  kept : ∀ r ∈ done, r.context.request.isKeepAlive = true
  home : c.resourceDir = dir ∧ c.router = router
  buffers : BuffersWf c
  noWrite : c.channel.epollOut = false

/-- Between two requests. Going on from the context and the unread bytes is going on
from the start of `tail`, the bytes received behind the finished requests. -/
structure Resting (done : List WholeRequest) (tail : Str) (c : Connection) (log : List Effect) :
    Prop extends Going dir router done c where
  response : c.response = .reset
  unsent : c.writeBuffer.peekReadable = []
  answered : Answered env dir router done [] log
  received : receivedOf log = wire done ++ tail
  resumes : ∀ more r u rest, Drives move c.context (c.readBuffer.peekReadable ++ more) r u rest →
    Drives move .reset (tail ++ more) r u rest

/-- The response to `r` is in the write buffer. -/
structure Replying (done : List WholeRequest) (r : WholeRequest) (c : Connection)
    (log : List Effect) : Prop extends Going dir router done c where
  state : c.state = .writing
  context : c.context = r.context
  answered : Answered env dir router (done ++ [r]) c.writeBuffer.peekReadable log
  received : receivedOf log = wire (done ++ [r]) ++ c.readBuffer.peekReadable

/-- A request that is not kept alive has been answered. -/
structure Over (done : List WholeRequest) (r : WholeRequest) (c : Connection)
    (log : List Effect) : Prop extends Going dir router done c where
  last : r.context.request.isKeepAlive = false
  state : c.state = .closed
  answered : Answered env dir router (done ++ [r]) [] log

/-- What drives the connection on is one functor, the next packet, or nothing any more. -/
inductive Stage (requests : List WholeRequest) :
    Connection → List Callback → List Effect → Prop where
  | idle {done todo : List WholeRequest} {tail : Str} {c : Connection} {log : List Effect} :
      requests = done ++ todo → Resting env dir router done tail c log → c.state = .connected →
      (∃ ctx rest, Drives move .reset tail none ctx rest) → Stage requests c [] log
  | queued {done todo : List WholeRequest} {tail : Str} {c : Connection} {log : List Effect} :
      requests = done ++ todo → Resting env dir router done tail c log → c.state = .connected →
      Stage requests c [.processInWorker] log
  | sending {done todo : List WholeRequest} {r : WholeRequest} {c : Connection}
      {log : List Effect} : requests = done ++ r :: todo →
      Replying env dir router done r c log → Stage requests c [.trySend] log
  | ended {done todo : List WholeRequest} {r : WholeRequest} {c : Connection}
      {log : List Effect} : requests = done ++ r :: todo → Over env dir router done r c log →
      Stage requests c [] log

end

/-! ## The steps of a handler -/

section
variable {env : Env} {dir : Str} {router : Option Router}

theorem answered_silent {done : List WholeRequest} {unsent : Str} {log fx : List Effect}
    (h : Answered env dir router done unsent log) (sent : sentOf fx = [])
    (responses : responsesOf fx = []) : Answered env dir router done unsent (log ++ fx) := by
  constructor
  · rw [sentOf_append, sent, List.append_nil]
    exact h.sent
  · rw [responsesOf_append, responses, List.append_nil]
    exact h.responses

/-- Packets are appended behind the unread bytes. -/
theorem resting_read {done : List WholeRequest} {tail : Str} {c : Connection} {log : List Effect}
    (h : Resting env dir router done tail c log) {b : Buffer} (hb : b.Wf) {packets : List Str}
    (bytes : b.peekReadable = c.readBuffer.peekReadable ++ packets.flatten) (state : ConnState)
    {fx : List Effect} (sent : sentOf fx = []) (responses : responsesOf fx = [])
    (received : receivedOf fx = packets.flatten) :
    Resting env dir router done (tail ++ packets.flatten) { c with readBuffer := b, state }
      (log ++ fx) := by
  refine ⟨⟨h.kept, h.home, ⟨hb, h.buffers.write⟩, h.noWrite⟩, h.response, h.unsent,
    answered_silent h.answered sent responses, ?_, ?_⟩
  · rw [receivedOf_append, received, h.received, List.append_assoc]
  · intro more r u rest hdrives
    rw [List.append_assoc]
    apply h.resumes
    rw [← List.append_assoc, ← bytes]
    exact hdrives

theorem replying_read {done : List WholeRequest} {r : WholeRequest} {c : Connection}
    {log : List Effect} (h : Replying env dir router done r c log) {b : Buffer} (hb : b.Wf)
    {packets : List Str}
    (bytes : b.peekReadable = c.readBuffer.peekReadable ++ packets.flatten)
    {fx : List Effect} (sent : sentOf fx = []) (responses : responsesOf fx = [])
    (received : receivedOf fx = packets.flatten) :
    Replying env dir router done r { c with readBuffer := b } (log ++ fx) := by
  refine ⟨⟨h.kept, h.home, ⟨hb, h.buffers.write⟩, h.noWrite⟩, h.state, h.context,
    answered_silent h.answered sent responses, ?_⟩
  rw [receivedOf_append, received, h.received, List.append_assoc, bytes]

theorem over_read {done : List WholeRequest} {r : WholeRequest} {c : Connection}
    {log : List Effect} (h : Over env dir router done r c log) {b : Buffer} (hb : b.Wf)
    {fx : List Effect} (sent : sentOf fx = []) (responses : responsesOf fx = []) :
    Over env dir router done r { c with readBuffer := b } (log ++ fx) :=
  ⟨⟨h.kept, h.home, ⟨hb, h.buffers.write⟩, h.noWrite⟩, h.last, h.state,
    answered_silent h.answered sent responses⟩

/-- The effects of storing a reply: one response, and nothing else that counts here. -/
theorem store_effects (c : Connection) (env : Env) (p : Reply) :
    receivedOf (c.store env p).2 = [] ∧ sentOf (c.store env p).2 = [] ∧
      responsesOf (c.store env p).2 = [p.bytes] ∧ queuedOf (c.store env p).2 = [] := by
  cases hfile : p.file with
  | none =>
    simp [store, hfile, receivedOf, responsesOf, queuedOf, sentOf, List.flatMap_map,
      List.filterMap_map]
  | some file =>
    by_cases hopen : 0 ≤ c.sendFileFd
    · simp [store, hfile, hopen, receivedOf, responsesOf, queuedOf, sentOf, List.flatMap_map,
        List.filterMap_map]
    · simp [store, hfile, hopen, receivedOf, responsesOf, queuedOf, sentOf, List.flatMap_map,
        List.filterMap_map]

/-- What `ProcessInWorker` records around the stored reply. -/
theorem processed_effects (fx : List Effect) :
    let all := .parsed .complete :: fx ++ [.queued .trySend]
    receivedOf all = receivedOf fx ∧ sentOf all = sentOf fx ∧ responsesOf all = responsesOf fx ∧
      queuedOf all = queuedOf fx ++ [.trySend] := by
  simp [receivedOf, sentOf, responsesOf, queuedOf, List.flatMap_append, List.filterMap_append]

/-- Storing a reply touches the response, the write buffer and the file. -/
theorem store_keeps (c : Connection) (env : Env) (p : Reply) :
    (c.store env p).1.readBuffer = c.readBuffer ∧ (c.store env p).1.channel = c.channel ∧
      (c.store env p).1.resourceDir = c.resourceDir ∧ (c.store env p).1.router = c.router := by
  cases hfile : p.file <;> simp [store, hfile]

/-- What the parser says about the bytes behind the finished requests. -/
theorem rest_parsed {done todo : List WholeRequest} {tail : Str} {c : Connection}
    {log : List Effect} (h : Resting env dir router done tail c log) (within : tail <+: wire todo) :
    (c.parsed.1 = .incomplete ∧
      Drives move .reset tail none c.parsed.2.1 c.parsed.2.2.peekReadable) ∨
    (c.parsed.1 = .complete ∧ ∃ r later, todo = r :: later ∧ c.parsed.2.1 = r.context ∧
      tail = r.bytes ++ c.parsed.2.2.peekReadable) := by
  have hdrives := (parseRequest_drives c.context h.buffers.read).2
  have hresumed := h.resumes [] _ _ _ (by rw [List.append_nil]; exact hdrives)
  have hparse : c.context.parseRequest c.readBuffer = c.parsed := rfl
  rw [List.append_nil, hparse] at hresumed
  cases hresult : c.parsed.1 with
  | incomplete =>
    rw [hresult] at hresumed
    exact Or.inl ⟨rfl, hresumed⟩
  | error =>
    rw [hresult] at hresumed
    obtain ⟨r, later, -, haccepted, -⟩ := head_request hresumed within
    cases haccepted
  | complete =>
    rw [hresult] at hresumed
    obtain ⟨r, later, htodo, -, hcontext, htail⟩ := head_request hresumed within
    exact Or.inr ⟨rfl, r, later, htodo, hcontext, htail⟩

/-- The reply to the next request is stored, with nothing unsent before it. -/
theorem replying_stored {done : List WholeRequest} {tail : Str} {c : Connection}
    {log : List Effect} (h : Resting env dir router done tail c log) {rest : Buffer}
    (hrest : rest.Wf) {r : WholeRequest} (htail : tail = r.bytes ++ rest.peekReadable) :
    let stored := ({ c with context := r.context, readBuffer := rest } : Connection).store env
      (reply env c.resourceDir c.router r.context.request c.response)
    let fx := .parsed .complete :: stored.2 ++ [.queued .trySend]
    Replying env dir router done r { stored.1 with state := .writing } (log ++ fx) ∧
      queuedOf fx = [.trySend] := by
  have hbytes : (reply env c.resourceDir c.router r.context.request c.response).bytes =
      r.response env dir router := by
    rw [h.home.1, h.home.2, h.response, WholeRequest.response]
  generalize reply env c.resourceDir c.router r.context.request c.response = p at hbytes ⊢
  intro stored fx
  obtain ⟨hreceived, hsent, hresponses, hqueued⟩ :=
    store_effects { c with context := r.context, readBuffer := rest } env p
  obtain ⟨hread, hchannel, hdir, hrouter⟩ :=
    store_keeps { c with context := r.context, readBuffer := rest } env p
  have hwrite := store_writeBuffer { c with context := r.context, readBuffer := rest } env p
  have hcontext := store_context { c with context := r.context, readBuffer := rest } env p
  obtain ⟨hreceived', hsent', hresponses', hqueued'⟩ := processed_effects stored.2
  rw [hreceived] at hreceived'
  rw [hsent] at hsent'
  rw [hresponses] at hresponses'
  rw [hqueued] at hqueued'
  refine ⟨?_, hqueued'⟩
  refine ⟨⟨h.kept, ⟨hdir.trans h.home.1, hrouter.trans h.home.2⟩, ⟨?_, ?_⟩, ?_⟩, rfl,
    hcontext, ⟨?_, ?_⟩, ?_⟩
  · exact hread ▸ hrest
  · exact hwrite ▸ Buffer.append_wf h.buffers.write _
  · exact (congrArg Channel.epollOut hchannel).trans h.noWrite
  · have hunsent : stored.1.writeBuffer.peekReadable = p.bytes := by
      rw [hwrite, Buffer.append_peekReadable h.buffers.write, h.unsent, List.nil_append]
    have hold := h.answered.sent
    rw [List.append_nil] at hold
    rw [sentOf_append, hsent', List.append_nil, hold, List.flatMap_append]
    exact congrArg (_ ++ ·) (hunsent.trans (hbytes.trans (List.append_nil _).symm))
  · rw [responsesOf_append, hresponses', h.answered.responses, List.map_append, hbytes]
    rfl
  · rw [receivedOf_append, hreceived', h.received, htail, List.append_nil, wire, wire,
      List.flatMap_append, List.append_assoc]
    exact congrArg (_ ++ ·) (congrArg₂ (· ++ ·) (List.append_nil _).symm
      (congrArg Buffer.peekReadable hread.symm))

/-- Processing waits for more or answers the next request. -/
theorem rest_processed {done todo : List WholeRequest} {tail : Str} {c : Connection}
    {log : List Effect} (h : Resting env dir router done tail c log) (within : tail <+: wire todo) :
    (c.parsed.1 = .incomplete ∧
      Resting env dir router done tail (c.processInWorker env).1 (log ++ (c.processInWorker env).2) ∧
      (c.processInWorker env).1.state = .connected ∧ queuedOf (c.processInWorker env).2 = [] ∧
      ∃ ctx rest, Drives move .reset tail none ctx rest) ∨
    (c.parsed.1 = .complete ∧ ∃ r later, todo = r :: later ∧
      Replying env dir router done r (c.processInWorker env).1
        (log ++ (c.processInWorker env).2) ∧
      queuedOf (c.processInWorker env).2 = [.trySend]) := by
  have hparsed := rest_parsed h within
  have hend := processInWorker_end h.buffers.read env
  generalize c.processInWorker env = out at hend ⊢
  cases hend with
  | incomplete ctx rest hrest hout =>
    rw [hout] at hparsed
    rcases hparsed with ⟨-, hwaits⟩ | ⟨himpossible, -⟩
    · refine Or.inl ⟨by rw [hout], ?_, rfl, rfl, ctx, _, hwaits⟩
      refine ⟨⟨h.kept, h.home, ⟨hrest, h.buffers.write⟩, h.noWrite⟩, h.response, h.unsent,
        answered_silent h.answered rfl rfl, ?_, ?_⟩
      · rw [receivedOf_append, h.received]
        exact List.append_nil _
      · intro more r u rest' hmore
        exact drives_resume move_stable hwaits hmore
    · cases himpossible
  | error ctx rest hrest hout =>
    rw [hout] at hparsed
    rcases hparsed with ⟨himpossible, -⟩ | ⟨himpossible, -⟩ <;> cases himpossible
  | complete ctx rest hrest hout =>
    rw [hout] at hparsed
    rcases hparsed with ⟨himpossible, -⟩ | ⟨-, r, later, htodo, hctx, htail⟩
    · cases himpossible
    · have hcontext : ctx = r.context := hctx
      subst hcontext
      obtain ⟨hreplying, hqueued⟩ := replying_stored h hrest htail
      exact Or.inr ⟨by rw [hout], r, later, htodo, hreplying, hqueued⟩

/-- A `TrySend` whose bytes are all accepted finishes the response. -/
theorem trySend_whole {c : Connection} (hwf : c.writeBuffer.Wf) {sends : Transfers}
    (accepted : covers sends.counts c.writeBuffer.readableBytes = true) :
    ∃ b chunks, Took c b chunks ∧ b.peekReadable = [] ∧
      c.trySend sends = ({ c with writeBuffer := b }.onResponseFinished.2.1,
        chunks.map .sent ++ { c with writeBuffer := b }.onResponseFinished.2.2) := by
  obtain ⟨hb, ⟨chunks, hfx, hbytes⟩, hdrained, hcomplete, -⟩ :=
    writeLoop_spec sends.errno sends.counts hwf
  rcases hout : writeLoop sends.errno sends.counts c.writeBuffer with ⟨result, b, fx⟩
  rw [hout] at hb hfx hbytes hdrained hcomplete
  obtain rfl : fx = chunks.map .sent := hfx
  obtain rfl : result = .complete := hcomplete.mpr (Or.inl accepted)
  refine ⟨b, chunks, ⟨hb, hbytes⟩, ?_, ?_⟩
  · exact (Buffer.readableBytes_eq_zero hb).mp (hdrained.mpr accepted)
  · simp only [trySend, write, hout, handleWriteResult]

/-- After the reset the connection rests, whatever file it had. -/
theorem reset_rests {done : List WholeRequest} {c : Connection} {log : List Effect}
    (going : Going dir router done c) (answered : Answered env dir router done [] log)
    (received : receivedOf log = wire done ++ c.readBuffer.peekReadable) {fx : List Effect}
    (sent : sentOf fx = []) (responses : responsesOf fx = []) (unread : receivedOf fx = []) :
    Resting env dir router done c.readBuffer.peekReadable c.resetForNextRequest.1 (log ++ fx) ∧
      c.resetForNextRequest.1.state = .connected := by
  have hfields : c.resetForNextRequest.1.resourceDir = c.resourceDir ∧
      c.resetForNextRequest.1.router = c.router ∧
      c.resetForNextRequest.1.channel.epollOut = c.channel.epollOut ∧
      c.resetForNextRequest.1.response = .reset ∧ c.resetForNextRequest.1.context = .reset ∧
      c.resetForNextRequest.1.writeBuffer = c.writeBuffer.clear ∧
      c.resetForNextRequest.1.state = .connected := by
    by_cases hopen : 0 ≤ c.sendFileFd <;>
      simp [resetForNextRequest, enableReadEvent, hopen, Buffer.retrieveAll]
  obtain ⟨hdir, hrouter, hout, hresponse, hcontext, hwrite, hstate⟩ := hfields
  have hread := resetForNextRequest_readBuffer c
  refine ⟨⟨⟨going.kept, ⟨hdir.trans going.home.1, hrouter.trans going.home.2⟩, ⟨?_, ?_⟩,
    hout.trans going.noWrite⟩, hresponse, ?_, answered_silent answered sent responses, ?_, ?_⟩,
    hstate⟩
  · exact hread.symm ▸ going.buffers.read
  · exact hwrite.symm ▸ Buffer.clear_wf _
  · exact hwrite.symm ▸ Buffer.clear_peekReadable _
  · rw [receivedOf_append, unread, List.append_nil, received]
  · rw [hcontext, hread]
    exact fun more r u rest hdrives => hdrives

/-- The effects of the end of a response that is kept alive. -/
theorem finished_effects (c : Connection) :
    let all := Effect.finished c.writeBuffer.readableBytes :: c.resetForNextRequest.2 ++
      if c.hasPendingRequest then [.queued .processInWorker] else []
    sentOf all = [] ∧ responsesOf all = [] ∧ receivedOf all = [] ∧
      working (queuedOf all) = if c.hasPendingRequest then [.processInWorker] else [] := by
  by_cases hopen : 0 ≤ c.sendFileFd <;> by_cases hpending : c.hasPendingRequest = true <;>
    simp [resetForNextRequest, hopen, hpending, sentOf, responsesOf, receivedOf, queuedOf, working]

/-- The end of a response: the connection rests, or it is over. -/
theorem stage_finished {requests done todo : List WholeRequest} {r : WholeRequest}
    {c : Connection} {log : List Effect} (split : requests = done ++ r :: todo)
    (h : Replying env dir router done r c log) (drained : c.writeBuffer.peekReadable = []) :
    Stage env dir router requests c.onResponseFinished.2.1
      (working (queuedOf c.onResponseFinished.2.2)) (log ++ c.onResponseFinished.2.2) := by
  have hanswered := h.answered
  rw [drained] at hanswered
  have hend := onResponseFinished_end c
  generalize c.onResponseFinished.2 = out at hend ⊢
  cases hend with
  | closed hclose =>
    have hlast : r.context.request.isKeepAlive = false := by
      rw [← h.context]
      exact hclose
    exact .ended split ⟨⟨h.kept, h.home, ⟨h.buffers.read, h.buffers.write⟩, h.noWrite⟩, hlast, rfl,
      answered_silent hanswered rfl rfl⟩
  | kept hkeep =>
    obtain ⟨hsent, hresponses, hreceived, hqueued⟩ := finished_effects c
    have hgoing : Going dir router (done ++ [r]) c := by
      refine ⟨?_, h.home, h.buffers, h.noWrite⟩
      rw [List.forall_mem_append, List.forall_mem_singleton, ← h.context]
      exact ⟨h.kept, hkeep⟩
    have hsplit : requests = (done ++ [r]) ++ todo := by
      rw [split, List.append_assoc]
      rfl
    obtain ⟨hrests, hstate⟩ := reset_rests hgoing hanswered h.received hsent hresponses hreceived
    by_cases hpending : c.hasPendingRequest = true
    · rw [hqueued]
      simp only [if_pos hpending] at hrests ⊢
      exact .queued hsplit hrests hstate
    · rw [hqueued]
      simp only [if_neg hpending] at hrests ⊢
      have hunread : c.readBuffer.peekReadable = [] := by
        have hzero : ¬0 < c.readBuffer.readableBytes := by simpa [hasPendingRequest] using hpending
        apply List.length_eq_zero_iff.mp
        rw [Buffer.peekReadable_length h.buffers.read]
        omega
      refine .idle hsplit hrests hstate ⟨.reset, [], ?_⟩
      rw [hunread]
      exact .wait rfl

theorem stage_trySend {requests done todo : List WholeRequest} {r : WholeRequest}
    {c : Connection} {log : List Effect} (split : requests = done ++ r :: todo)
    (h : Replying env dir router done r c log) {sends : Transfers}
    (accepted : covers sends.counts c.writeBuffer.readableBytes = true) :
    Stage env dir router requests (c.trySend sends).1 (working (queuedOf (c.trySend sends).2))
      (log ++ (c.trySend sends).2) := by
  obtain ⟨b, chunks, took, hempty, hsend⟩ := trySend_whole h.buffers.write accepted
  obtain ⟨hreceived, hresponses, hqueued⟩ := silent_sent chunks
  have hsent : Replying env dir router done r { c with writeBuffer := b }
      (log ++ chunks.map .sent) := by
    refine ⟨⟨h.kept, h.home, ⟨h.buffers.read, took.wf⟩, h.noWrite⟩, h.state, h.context,
      ⟨?_, ?_⟩, ?_⟩
    · rw [sentOf_append, sentOf_sent, List.append_assoc, took.bytes]
      exact h.answered.sent
    · rw [responsesOf_append, hresponses, List.append_nil, h.answered.responses]
    · rw [receivedOf_append, hreceived, List.append_nil]
      exact h.received
  rw [hsend, queuedOf_append, hqueued, List.nil_append, ← List.append_assoc]
  exact stage_finished split hsent hempty

theorem read_eq {c : Connection} (hwf : c.readBuffer.Wf) (arrival : Arrival) :
    ∃ (result : ReadResult) (b : Buffer) (packets : List Str), b.Wf ∧
      b.peekReadable = c.readBuffer.peekReadable ++ packets.flatten ∧
      c.read arrival = (result, { c with readBuffer := b }, packets.map .received) := by
  obtain ⟨hb, packets, hfx, hbytes⟩ := readLoop_spec arrival.errno arrival.packets hwf
  rcases hout : readLoop arrival.errno arrival.packets c.readBuffer with ⟨result, b, fx⟩
  rw [hout] at hb hfx hbytes
  obtain rfl : fx = packets.map .received := hfx
  exact ⟨result, b, packets, hb, hbytes, by simp only [Connection.read, hout]⟩

/-- The bytes behind the finished requests are the beginning of the others. -/
theorem rest_within {requests done todo : List WholeRequest} {tail : Str}
    (split : requests = done ++ todo) (within : wire done ++ tail <+: wire requests) :
    tail <+: wire todo := by
  rw [split, wire, wire, List.flatMap_append] at within
  exact (List.prefix_append_right_inj _).mp within

theorem stage_going {requests : List WholeRequest} {c : Connection} {fs : List Callback}
    {log : List Effect} (stage : Stage env dir router requests c fs log) :
    ∃ done, Going dir router done c := by
  cases stage with
  | idle _ h => exact ⟨_, h.toGoing⟩
  | queued _ h => exact ⟨_, h.toGoing⟩
  | sending _ h => exact ⟨_, h.toGoing⟩
  | ended _ h => exact ⟨_, h.toGoing⟩

/-- A removal by number does not concern the requests. -/
theorem stage_removal {requests : List WholeRequest} {c : Connection} {fs : List Callback}
    {log : List Effect} (stage : Stage env dir router requests c fs log) :
    Stage env dir router requests c fs (log ++ [.removal c.fd]) := by
  have hbytes : c.readBuffer.peekReadable = c.readBuffer.peekReadable ++ ([] : List Str).flatten := by
    rw [List.flatten_nil, List.append_nil]
  have hresting : ∀ done tail, Resting env dir router done tail c log →
      Resting env dir router done tail c (log ++ [.removal c.fd]) := by
    intro done tail h
    have hread : Resting env dir router done (tail ++ [].flatten) c (log ++ [.removal c.fd]) :=
      resting_read h h.buffers.read hbytes c.state rfl rfl rfl
    rw [List.flatten_nil, List.append_nil] at hread
    exact hread
  cases stage with
  | idle split h hstate hwaits => exact .idle split (hresting _ _ h) hstate hwaits
  | queued split h hstate => exact .queued split (hresting _ _ h) hstate
  | sending split h => exact .sending split (replying_read h h.buffers.read hbytes rfl rfl rfl)
  | ended split h => exact .ended split (over_read h h.buffers.read rfl rfl)

/-- A read that ends the stream, or that comes while a response is out: nothing is parsed. -/
theorem stage_received {requests : List WholeRequest} {c : Connection} {fs : List Callback}
    {log : List Effect} (stage : Stage env dir router requests c fs log) {b : Buffer} (hb : b.Wf)
    {packets : List Str}
    (bytes : b.peekReadable = c.readBuffer.peekReadable ++ packets.flatten) {fx : List Effect}
    (sent : sentOf fx = []) (responses : responsesOf fx = [])
    (received : receivedOf fx = packets.flatten)
    (within : receivedOf (log ++ fx) <+: wire requests)
    (nothing : fs = [] → c.state = .connected →
      (Connection.parsed { c with readBuffer := b }).1 ≠ .complete) :
    Stage env dir router requests { c with readBuffer := b } fs (log ++ fx) := by
  cases stage with
  | idle split h hstate =>
    have hrests := resting_read h hb bytes c.state sent responses received
    have hearlier := hrests.received ▸ within
    refine .idle split hrests hstate ?_
    rcases rest_parsed hrests (rest_within split hearlier) with ⟨-, hwaits⟩ | ⟨hcomplete, -⟩
    · exact ⟨_, _, hwaits⟩
    · exact absurd hcomplete (nothing rfl hstate)
  | queued split h hstate =>
    exact .queued split (resting_read h hb bytes c.state sent responses received) hstate
  | sending split h => exact .sending split (replying_read h hb bytes sent responses received)
  | ended split h => exact .ended split (over_read h hb sent responses)

/-- A read while nothing is out: what has been read is processed at once. -/
theorem stage_processing {requests : List WholeRequest} {c : Connection} {fs : List Callback}
    {log : List Effect} (stage : Stage env dir router requests c fs log)
    (connected : c.state = .connected) {b : Buffer} (hb : b.Wf) {packets : List Str}
    (bytes : b.peekReadable = c.readBuffer.peekReadable ++ packets.flatten) {fx : List Effect}
    (sent : sentOf fx = []) (responses : responsesOf fx = [])
    (received : receivedOf fx = packets.flatten)
    (within : receivedOf (log ++ fx ++
      (processInWorker { c with readBuffer := b, state := .processing } env).2) <+: wire requests)
    (free : (Connection.parsed { c with readBuffer := b }).1 = .complete →
      .processInWorker ∉ fs) :
    Stage env dir router requests
      (processInWorker { c with readBuffer := b, state := .processing } env).1
      (fs ++ working
        (queuedOf (processInWorker { c with readBuffer := b, state := .processing } env).2))
      (log ++ fx ++ (processInWorker { c with readBuffer := b, state := .processing } env).2) := by
  rw [receivedOf_append] at within
  have hearlier := (List.prefix_append _ _).trans within
  cases stage with
  | idle split h =>
    have hrests := resting_read h hb bytes .processing sent responses received
    rw [hrests.received] at hearlier
    rcases rest_processed hrests (rest_within split hearlier) with
      ⟨-, hafter, hconnected, hnone, hwaits⟩ | ⟨-, r, later, htodo, hreplying, htry⟩
    · rw [hnone]
      exact .idle split hafter hconnected hwaits
    · rw [htry]
      exact .sending (htodo ▸ split) hreplying
  | queued split h =>
    have hrests := resting_read h hb bytes .processing sent responses received
    rw [hrests.received] at hearlier
    rcases rest_processed hrests (rest_within split hearlier) with
      ⟨-, hafter, hconnected, hnone, -⟩ | ⟨hcomplete, -⟩
    · rw [hnone, working_nil, List.append_nil]
      exact .queued split hafter hconnected
    · exact absurd List.mem_cons_self (free hcomplete)
  | sending _ h => exact absurd (h.state.symm.trans connected) (by decide)
  | ended _ h => exact absurd (h.state.symm.trans connected) (by decide)

theorem stage_handleRead {requests : List WholeRequest} {c : Connection} {fs : List Callback}
    {log : List Effect} (stage : Stage env dir router requests c fs log) {arrival : Arrival}
    (within : receivedOf (log ++ (c.handleRead env arrival).2) <+: wire requests)
    (pickedUp : c.state = .connected → (c.read arrival).2.1.parsed.1 = .complete →
      ((c.read arrival).1 = .success ↔ .processInWorker ∉ fs)) :
    Stage env dir router requests (c.handleRead env arrival).1
      (fs ++ working (queuedOf (c.handleRead env arrival).2))
      (log ++ (c.handleRead env arrival).2) := by
  obtain ⟨_, hgoing⟩ := stage_going stage
  have hwf := hgoing.buffers
  obtain ⟨result, b, packets, hb, hbytes, hread⟩ := read_eq hwf.read arrival
  obtain ⟨hsent, hresponses, hqueued⟩ := received_only packets
  have hreceived := receivedOf_received packets
  rw [hread] at pickedUp
  have hclosing : result ≠ .success →
      c.handleRead env arrival = ({ c with readBuffer := b },
        packets.map .received ++ [.queued .removeConnection]) := by
    intro hresult
    cases result with
    | success => exact absurd rfl hresult
    | closed => simp only [handleRead, hread, handleClose]
    | error => simp only [handleRead, hread, handleClose]
  by_cases hresult : result = .success
  · by_cases hstate : c.state = .connected
    · have hprocess : c.handleRead env arrival =
          ((processInWorker { c with readBuffer := b, state := .processing } env).1,
            packets.map .received ++
              (processInWorker { c with readBuffer := b, state := .processing } env).2) := by
        simp only [handleRead, hread, hresult, if_pos hstate]
      rw [hprocess] at within ⊢
      rw [queuedOf_append, hqueued, List.nil_append, ← List.append_assoc]
      rw [← List.append_assoc] at within
      exact stage_processing stage hstate hb hbytes hsent hresponses hreceived within
        fun hcomplete => (pickedUp hstate hcomplete).mp hresult
    · have hkept : c.handleRead env arrival =
          ({ c with readBuffer := b }, packets.map .received) := by
        simp only [handleRead, hread, hresult, if_neg hstate]
      rw [hkept] at within ⊢
      rw [hqueued, working_nil, List.append_nil]
      exact stage_received stage hb hbytes hsent hresponses hreceived within
        (fun _ hconnected => absurd hconnected hstate)
  · rw [hclosing hresult] at within ⊢
    have hfunctors : working (queuedOf (packets.map .received ++ [.queued .removeConnection])) =
        [] := by
      rw [queuedOf_append, hqueued]
      rfl
    rw [hfunctors, List.append_nil]
    refine stage_received stage hb hbytes ?_ ?_ ?_ within ?_
    · rw [sentOf_append, hsent]
      rfl
    · rw [responsesOf_append, hresponses]
      rfl
    · rw [receivedOf_append, hreceived]
      exact List.append_nil _
    · intro hnone hconnected hcomplete
      have hqueue := mt (pickedUp hconnected hcomplete).mpr hresult
      rw [hnone] at hqueue
      exact hqueue (List.not_mem_nil)

end

/-! ## Runs -/

namespace Sys

/-- Every `TrySend` gets all its bytes accepted. -/
def Accepted (s : Sys) : Event → Prop
  | .run sends => s.batch.head? = some .trySend →
      covers sends.counts s.conn.writeBuffer.readableBytes = true
  | _ => True

/-- When an EPOLLIN event in state Connected completes a request, there is exactly one
way to it: the event goes on to process, or a queued `ProcessInWorker` will. -/
def PickedUp (s : Sys) : Event → Prop
  | .readable arrival => s.conn.state = .connected →
      (s.conn.read arrival).2.1.parsed.1 = .complete →
      ((s.conn.read arrival).1 = .success ↔ .processInWorker ∉ s.functors)
  | _ => True

instance (s : Sys) : (e : Event) → Decidable (Accepted s e)
  | .run _ => by unfold Accepted; infer_instance
  | .readable _ | .writable _ | .swap => .isTrue trivial

instance (s : Sys) : (e : Event) → Decidable (PickedUp s e)
  | .readable _ => by unfold PickedUp; infer_instance
  | .writable _ | .swap | .run _ => .isTrue trivial

section
variable {env : Env} {dir : Str} {router : Option Router}

theorem mem_working {cb : Callback} (h : cb ≠ .removeConnection) (fs : List Callback) :
    cb ∈ working fs ↔ cb ∈ fs := by
  simp [working, h]

/-- The last functor that works, whatever removals are queued around it. -/
theorem stage_call {requests : List WholeRequest} {c : Connection} {cb : Callback}
    {rest : List Callback} {log : List Effect}
    (stage : Stage env dir router requests c (working (cb :: rest)) log) {sends : Transfers}
    (within : receivedOf (log ++ (c.call cb env sends).2) <+: wire requests)
    (accepted : cb = .trySend → covers sends.counts c.writeBuffer.readableBytes = true) :
    Stage env dir router requests (c.call cb env sends).1
      (working rest ++ working (queuedOf (c.call cb env sends).2))
      (log ++ (c.call cb env sends).2) := by
  by_cases hremoval : cb = .removeConnection
  · subst hremoval
    rw [working_removal] at stage
    have hfunctors : working rest ++ working (queuedOf [Effect.removal c.fd]) = working rest :=
      List.append_nil _
    rw [call, hfunctors]
    exact stage_removal stage
  · rw [working_cons hremoval] at stage
    generalize working rest = fs at stage ⊢
    rw [receivedOf_append] at within
    have hearlier := (List.prefix_append _ _).trans within
    cases stage with
    | queued split h =>
      rw [h.received] at hearlier
      rcases rest_processed h (rest_within split hearlier) with
        ⟨-, hafter, hconnected, hnone, hwaits⟩ | ⟨-, r, later, htodo, hreplying, htry⟩
      · rw [call, hnone]
        exact .idle split hafter hconnected hwaits
      · rw [call, htry]
        exact .sending (htodo ▸ split) hreplying
    | sending split h =>
      have hopen : c.state ≠ .closed := by
        rw [h.state]
        decide
      rw [call, if_neg hopen]
      exact stage_trySend split h (accepted rfl)

theorem stage_step {requests : List WholeRequest} {s t : Sys} {e : Event}
    (stage : Stage env dir router requests s.conn (working s.functors) s.log)
    (accepted : Accepted s e) (pickedUp : PickedUp s e) (hstep : s.stepOn env e = some t)
    (within : receivedOf t.log <+: wire requests) :
    Stage env dir router requests t.conn (working t.functors) t.log := by
  have htaken := taken_of_step hstep
  cases e with
  | readable arrival =>
    cases htaken with
    | readable _ _ hbatch =>
      have hfunctors : (s.after (s.conn.handleRead env arrival)).functors =
          s.functors ++ queuedOf (s.conn.handleRead env arrival).2 :=
        functors_after s s.batch s.alive _
      rw [hfunctors, working_append]
      refine stage_handleRead stage within ?_
      intro hstate hcomplete
      rw [mem_working (by decide)]
      exact pickedUp hstate hcomplete
  | writable sends =>
    cases htaken with
    | writable _ _ hbatch hout =>
      obtain ⟨_, hgoing⟩ := stage_going stage
      exact absurd (hgoing.noWrite.symm.trans hout) Bool.false_ne_true
  | swap =>
    cases htaken with
    | swap hbatch => simpa [functors, hbatch] using stage
  | run sends =>
    cases htaken with
    | run _ _ cb rest hbatch =>
      rw [functors_after, working_append]
      have hfunctors : s.functors = cb :: (rest ++ s.pending) := by
        rw [functors, hbatch, List.cons_append]
      rw [hfunctors] at stage
      apply stage_call stage within
      intro htry
      exact accepted (by rw [hbatch, htry]; rfl)

theorem stage_start {requests : List WholeRequest} {c : Connection} (fresh : Fresh c)
    (home : c.resourceDir = dir ∧ c.router = router) :
    Stage env dir router requests (start c).conn (working (start c).functors) (start c).log := by
  have hresting : Resting env dir router [] [] c [] := by
    refine ⟨⟨List.forall_mem_nil _, home, ⟨fresh.ready.readBuffer, fresh.ready.writeBuffer⟩,
      fresh.noWrite⟩, fresh.ready.response, fresh.unsent, ⟨rfl, rfl⟩, rfl, ?_⟩
    rw [fresh.context, fresh.unread]
    exact fun more r u rest hdrives => hdrives
  exact .idle (List.nil_append requests).symm hresting fresh.state ⟨.reset, [], .wait rfl⟩

/-- The answers are those of the first served requests; `left` are the others. -/
theorem answered_served {requests done left : List WholeRequest} {unsent : Str}
    {log : List Effect} (split : served requests = done ++ left)
    (answered : Answered env dir router done unsent log) :
    sentOf log <+: (served requests).flatMap (·.response env dir router) ∧
      responsesOf log <+: (served requests).map (·.response env dir router) := by
  rw [split]
  constructor
  · rw [List.flatMap_append, ← answered.sent, List.append_assoc]
    exact List.prefix_append _ _
  · rw [List.map_append, answered.responses]
    exact List.prefix_append _ _

theorem served_last {done todo : List WholeRequest} {r : WholeRequest}
    (kept : ∀ r ∈ done, r.context.request.isKeepAlive = true) :
    ∃ left, served (done ++ r :: todo) = (done ++ [r]) ++ left ∧
      (r.context.request.isKeepAlive = false → left = []) := by
  rw [served_append kept, served]
  by_cases hkeep : r.context.request.isKeepAlive = true
  · rw [if_pos hkeep]
    exact ⟨served todo, List.append_cons _ _ _, fun hlast => absurd (hlast.symm.trans hkeep) (by decide)⟩
  · rw [if_neg hkeep]
    exact ⟨[], (List.append_nil _).symm, fun _ => rfl⟩

/-- What a stage says about the wire. -/
theorem stage_wire {requests : List WholeRequest} {c : Connection} {fs : List Callback}
    {log : List Effect} (stage : Stage env dir router requests c fs log) :
    sentOf log <+: (served requests).flatMap (·.response env dir router) ∧
      responsesOf log <+: (served requests).map (·.response env dir router) := by
  cases stage with
  | idle split h => exact answered_served (split ▸ served_append h.kept _) h.answered
  | queued split h => exact answered_served (split ▸ served_append h.kept _) h.answered
  | sending split h =>
    obtain ⟨left, hserved, -⟩ := served_last h.kept
    exact answered_served (split ▸ hserved) h.answered
  | ended split h =>
    obtain ⟨left, hserved, -⟩ := served_last h.kept
    exact answered_served (split ▸ hserved) h.answered

/-- With everything received and nothing queued, all that is served is answered. -/
theorem stage_quiet {requests : List WholeRequest} {c : Connection} {log : List Effect}
    (stage : Stage env dir router requests c [] log) (received : receivedOf log = wire requests) :
    sentOf log = (served requests).flatMap (·.response env dir router) ∧
      responsesOf log = (served requests).map (·.response env dir router) := by
  generalize hfunctors : ([] : List Callback) = fs at stage
  cases stage with
  | @idle done todo tail _ _ split h _ hwaits =>
    have htail : tail = wire todo := by
      rw [h.received, split, wire, wire, List.flatMap_append] at received
      exact List.append_cancel_left received
    obtain ⟨ctx, rest, hwaits⟩ := hwaits
    rw [htail] at hwaits
    obtain rfl := waits_only_end hwaits
    have hserved : served requests = done := by
      rw [split, served_append h.kept]
      exact List.append_nil _
    rw [hserved]
    exact ⟨(List.append_nil _).symm.trans h.answered.sent, h.answered.responses⟩
  | ended split h =>
    obtain ⟨left, hserved, hlast⟩ := served_last h.kept
    rw [split, hserved, hlast h.last, List.append_nil]
    exact ⟨(List.append_nil _).symm.trans h.answered.sent, h.answered.responses⟩
  | queued => cases hfunctors
  | sending => cases hfunctors

/-- However a stream of whole requests and its end are cut into EPOLLIN events: as long as
no event that completes a request is without a way to it, the requests are answered in
order, and once all is received and nothing is queued all of them are. -/
theorem answered_however_cut {requests : List WholeRequest} {c : Connection} (fresh : Fresh c)
    (home : c.resourceDir = dir ∧ c.router = router) {events : List Event} {s : Sys}
    (run : GuardedRuns.exec (stepOn env) (start c) events = some s)
    (received : receivedOf s.log <+: wire requests)
    (guarded : GuardedRuns.Guarded (stepOn env)
      (fun s e => Accepted s e ∧ PickedUp s e) (start c) events) :
    (sentOf s.log <+: (served requests).flatMap (·.response env dir router) ∧
      responsesOf s.log <+: (served requests).map (·.response env dir router)) ∧
    (s.functors = [] → receivedOf s.log = wire requests →
      sentOf s.log = (served requests).flatMap (·.response env dir router) ∧
        responsesOf s.log = (served requests).map (·.response env dir router)) := by
  have hstage := GuardedRuns.invariant_of_guarded
    (fun s => receivedOf s.log <+: wire requests →
      Stage env dir router requests s.conn (working s.functors) s.log)
    (fun _ _ _ h hok hstep hwithin => stage_step (h ((received_step hstep).trans hwithin))
      hok.1 hok.2 hstep hwithin)
    (fun _ => stage_start fresh home) guarded run received
  refine ⟨stage_wire hstage, ?_⟩
  intro hfunctors hall
  rw [hfunctors] at hstage
  exact stage_quiet hstage hall

end

/-- The second request ends in one burst with the stream, while the first is answered. -/
theorem answered_however_cut_pipelined :
    let env := Env.table []
    let router : Option Router :=
      some (Router.get {} (lit "/a") { respond := fun _ resp => resp.setText (lit "a") })
    let c := enableReadEvent (new 5 (lit "/w") router)
    let events : List Event :=
      [.readable ⟨[⟨lit "GET /a HTTP/1.1\r\n\r\nGET", by decide⟩], .again⟩,
        .readable ⟨[⟨lit " /a HTTP/1.1\r\n\r\n", by decide⟩, ⟨[], by decide⟩], .again⟩,
        .swap, .run ⟨[1000], .again⟩, .run ⟨[], .again⟩, .swap, .run ⟨[], .again⟩,
        .swap, .run ⟨[1000], .again⟩]
    ∃ (r : WholeRequest) (s : Sys), r.bytes = lit "GET /a HTTP/1.1\r\n\r\n" ∧
      GuardedRuns.exec (stepOn env) (start c) events = some s ∧
      sentOf s.log = r.response env (lit "/w") router ++ r.response env (lit "/w") router := by
  intro env router c events
  let r : WholeRequest :=
    ⟨lit "GET /a HTTP/1.1\r\n\r\n", _, by decide +kernel, rfl, by decide +kernel⟩
  have hquiet : (GuardedRuns.exec (stepOn env) (start c) events).map
      (fun s => (receivedOf s.log, s.functors)) = some (r.bytes ++ r.bytes, []) := by
    decide +kernel
  obtain ⟨s, hs, hparts⟩ := Option.map_eq_some_iff.mp hquiet
  obtain ⟨hreceived, hfunctors⟩ := Prod.mk.inj hparts
  have hwire : receivedOf s.log = wire [r, r] := by
    rw [hreceived]
    simp [wire]
  have hkeep : r.context.request.isKeepAlive = true := by decide +kernel
  have hserved : served [r, r] = [r, r] := by
    rw [served, if_pos hkeep, served, if_pos hkeep, served]
  have home : c.resourceDir = lit "/w" ∧ c.router = router := ⟨rfl, rfl⟩
  have hprefix : receivedOf s.log <+: wire [r, r] := by rw [hwire]
  obtain ⟨-, hall⟩ := answered_however_cut (fresh_new 5 (lit "/w") router) home hs hprefix
    (by decide +kernel)
  refine ⟨r, s, rfl, hs, ?_⟩
  rw [(hall hfunctors hwire).1, hserved]
  simp

/-- One request and the end of the stream: in two bursts the request is answered, in one
it is not even parsed. -/
theorem end_of_stream_drops_request :
    let env := Env.table []
    let router : Option Router :=
      some (Router.get {} (lit "/a") { respond := fun _ resp => resp.setText (lit "a") })
    let c := enableReadEvent (new 5 (lit "/w") router)
    let request := lit "GET /a HTTP/1.1\r\n\r\n"
    let apart : List Event :=
      [.readable ⟨[⟨request, by decide⟩], .again⟩, .swap, .run ⟨[1000], .again⟩,
        .readable ⟨[⟨[], by decide⟩], .again⟩, .swap, .run ⟨[], .again⟩]
    let together : List Event :=
      [.readable ⟨[⟨request, by decide⟩, ⟨[], by decide⟩], .again⟩, .swap, .run ⟨[], .again⟩]
    ∃ (r : WholeRequest) (s t : Sys), r.bytes = request ∧ Fresh c ∧
      GuardedRuns.exec (stepOn env) (start c) apart = some s ∧
      GuardedRuns.exec (stepOn env) (start c) together = some t ∧
      GuardedRuns.Guarded (stepOn env) Accepted (start c) together ∧
      s.functors = [] ∧ t.functors = [] ∧
      receivedOf s.log = wire [r] ∧ receivedOf t.log = wire [r] ∧
      responsesOf s.log = [r.response env (lit "/w") router] ∧
      responsesOf t.log = [] ∧ sentOf t.log = [] ∧ .parsed .complete ∉ t.log := by
  intro env router c request apart together
  let r : WholeRequest := ⟨request, _, by decide +kernel, rfl, by decide +kernel⟩
  have hapart : (GuardedRuns.exec (stepOn env) (start c) apart).map
      (fun s => (s.functors, receivedOf s.log, responsesOf s.log)) =
      some ([], wire [r], [r.response env (lit "/w") router]) := by
    decide +kernel
  have htogether : (GuardedRuns.exec (stepOn env) (start c) together).map
      (fun s => (s.functors, receivedOf s.log, responsesOf s.log, sentOf s.log,
        decide (.parsed .complete ∈ s.log))) = some ([], wire [r], [], [], false) := by
    decide +kernel
  obtain ⟨s, hs, hparts⟩ := Option.map_eq_some_iff.mp hapart
  obtain ⟨t, ht, hparts'⟩ := Option.map_eq_some_iff.mp htogether
  obtain ⟨hquiet, hparts⟩ := Prod.mk.inj hparts
  obtain ⟨hreceived, hresponses⟩ := Prod.mk.inj hparts
  obtain ⟨hquiet', hparts'⟩ := Prod.mk.inj hparts'
  obtain ⟨hreceived', hparts'⟩ := Prod.mk.inj hparts'
  obtain ⟨hresponses', hparts'⟩ := Prod.mk.inj hparts'
  obtain ⟨hsent', hparsed'⟩ := Prod.mk.inj hparts'
  exact ⟨r, s, t, rfl, fresh_new 5 (lit "/w") router, hs, ht, by decide +kernel, hquiet, hquiet',
    hreceived, hreceived', hresponses, hresponses', hsent', of_decide_eq_false hparsed'⟩

end Sys

end WebServer
