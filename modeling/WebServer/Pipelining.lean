import WebServer.ConnectionRuns
import WebServer.RequestStream

/-!
# Pipelined requests on one connection

A stream of keep-alive requests answered from memory, cut into packets anywhere, on a
connection that is not disturbed: no error, no close, no full buffer. Between two
responses the connection is idle, with at most one `ProcessInWorker` functor queued;
while a response is out it is answering, with either one `TrySend` functor queued or
EPOLLOUT enabled. These two phases cover every state of a run as long as no other
handler takes up the next request while a `ProcessInWorker` functor is queued. That
functor would then process the finished context again.

A request is any byte string that `ParseRequest` takes to the last byte.
-/

namespace WebServer

open Connection Resumable HttpContext

/-- A whole keep-alive request whose reply leaves no file. -/
structure Message (env : Env) (dir : Str) (router : Option Router) where
  bytes : Str
  context : HttpContext
  complete : (HttpContext.reset.parseRequest ((Buffer.new 1024).append bytes)).1 = .complete
  parses : (HttpContext.reset.parseRequest ((Buffer.new 1024).append bytes)).2.1 = context
  whole : (HttpContext.reset.parseRequest ((Buffer.new 1024).append bytes)).2.2.peekReadable = []
  keepAlive : context.request.isKeepAlive = true
  inMemory : (reply env dir router context.request .reset).file = none

section
variable {env : Env} {dir : Str} {router : Option Router}

namespace Message

/-- The serialised response of the message. -/
def response (m : Message env dir router) : Str :=
  (reply env dir router m.context.request .reset).bytes

/-- The message as a request of a stream, whatever it is answered with. -/
def request (m : Message env dir router) : WholeRequest :=
  ⟨m.bytes, m.context, m.complete, m.parses, m.whole⟩

end Message

/-- What the messages put on the wire. -/
def stream (msgs : List (Message env dir router)) : Str := msgs.flatMap (·.bytes)

/-- What their responses put on the wire. -/
def answers (msgs : List (Message env dir router)) : Str := msgs.flatMap (·.response)

theorem wire_requests (msgs : List (Message env dir router)) :
    wire (msgs.map (·.request)) = stream msgs := by
  simp only [wire, stream, List.flatMap_map, Message.request]

/-- An answer of the parser inside a stream of messages is the end of the first one. -/
theorem head_message {todo : List (Message env dir router)} {input rest : Str} {accepted : Bool}
    {ctx : HttpContext} (h : Drives move .reset input (some accepted) ctx rest)
    (within : input <+: stream todo) :
    ∃ m later, todo = m :: later ∧ accepted = true ∧ ctx = m.context ∧ input = m.bytes ++ rest := by
  rw [← wire_requests] at within
  obtain ⟨r, later, htodo, haccepted, hctx, hinput⟩ := head_request h within
  obtain ⟨m, more, rfl, rfl, -⟩ := List.map_eq_cons_iff.mp htodo
  exact ⟨m, more, rfl, haccepted, hctx, hinput⟩

/-- The parser does not wait at the end of a stream with a message in it. -/
theorem waits_only_empty {todo : List (Message env dir router)} {ctx : HttpContext} {rest : Str}
    (h : Drives move .reset (stream todo) none ctx rest) : todo = [] := by
  rw [← wire_requests] at h
  exact List.map_eq_nil_iff.mp (waits_only_end h)

/-! ## The two phases -/

/-- Between two responses. `tail` are the bytes received behind the finished messages;
going on from the context and the unread bytes is going on from the start of `tail`. -/
structure Between (done : List (Message env dir router)) (tail : Str) (c : Connection)
    (log : List Effect) : Prop where
  ready : c.Ready
  unsent : c.writeBuffer.peekReadable = []
  noWrite : c.channel.epollOut = false
  home : c.resourceDir = dir ∧ c.router = router
  sent : sentOf log = answers done
  responses : responsesOf log = done.map (·.response)
  received : receivedOf log = stream done ++ tail
  resumes : ∀ more r u rest, Drives move c.context (c.readBuffer.peekReadable ++ more) r u rest →
    Drives move .reset (tail ++ more) r u rest

/-- The response to `m` is in the write buffer or partly sent. -/
structure Answering (done : List (Message env dir router)) (m : Message env dir router)
    (c : Connection) (log : List Effect) : Prop where
  state : c.state = .writing
  context : c.context = m.context
  noFile : c.sendFileFd = -1
  buffers : BuffersWf c
  home : c.resourceDir = dir ∧ c.router = router
  sent : sentOf log ++ c.writeBuffer.peekReadable = answers (done ++ [m])
  responses : responsesOf log = (done ++ [m]).map (·.response)
  received : receivedOf log = stream (done ++ [m]) ++ c.readBuffer.peekReadable

/-- What drives the connection on: the next packet, one functor, or EPOLLOUT. -/
inductive Phase (msgs : List (Message env dir router)) :
    Connection → List Callback → List Effect → Prop where
  | idle {done todo : List (Message env dir router)} {tail : Str} {c : Connection}
      {log : List Effect} : msgs = done ++ todo → Between done tail c log →
      c.state = .connected →
      Drives move .reset tail none c.context c.readBuffer.peekReadable → Phase msgs c [] log
  | queued {done todo : List (Message env dir router)} {tail : Str} {c : Connection}
      {log : List Effect} : msgs = done ++ todo → Between done tail c log →
      c.state = .connected → Phase msgs c [.processInWorker] log
  | sending {done todo : List (Message env dir router)} {m : Message env dir router}
      {c : Connection} {log : List Effect} : msgs = done ++ m :: todo → Answering done m c log →
      c.channel.epollOut = false → Phase msgs c [.trySend] log
  | blocked {done todo : List (Message env dir router)} {m : Message env dir router}
      {c : Connection} {log : List Effect} : msgs = done ++ m :: todo → Answering done m c log →
      c.channel.epollOut = true → Phase msgs c [] log

theorem between_read {done : List (Message env dir router)} {tail : Str} {c : Connection}
    {log : List Effect} (h : Between done tail c log) {b : Buffer} (hb : b.Wf)
    {packets : List Str}
    (bytes : b.peekReadable = c.readBuffer.peekReadable ++ packets.flatten) (state : ConnState) :
    Between done (tail ++ packets.flatten) { c with readBuffer := b, state }
      (log ++ packets.map .received) := by
  obtain ⟨hsent, hresponses, -⟩ := received_only packets
  refine ⟨⟨h.ready.response, h.ready.noFile, hb, h.ready.writeBuffer⟩, h.unsent, h.noWrite,
    h.home, ?_, ?_, ?_, ?_⟩
  · rw [sentOf_append, hsent, List.append_nil, h.sent]
  · rw [responsesOf_append, hresponses, List.append_nil, h.responses]
  · rw [receivedOf_append, receivedOf_received, h.received, List.append_assoc]
  · intro more r u rest hdrives
    rw [List.append_assoc]
    refine h.resumes (packets.flatten ++ more) r u rest ?_
    rw [← List.append_assoc, ← bytes]
    exact hdrives

theorem answering_read {done : List (Message env dir router)} {m : Message env dir router}
    {c : Connection} {log : List Effect} (h : Answering done m c log) {b : Buffer} (hb : b.Wf)
    {packets : List Str}
    (bytes : b.peekReadable = c.readBuffer.peekReadable ++ packets.flatten) :
    Answering done m { c with readBuffer := b } (log ++ packets.map .received) := by
  obtain ⟨hsent, hresponses, -⟩ := received_only packets
  refine ⟨h.state, h.context, h.noFile, ⟨hb, h.buffers.write⟩, h.home, ?_, ?_, ?_⟩
  · rw [sentOf_append, hsent, List.append_nil]
    exact h.sent
  · rw [responsesOf_append, hresponses, List.append_nil, h.responses]
  · rw [receivedOf_append, receivedOf_received, h.received, List.append_assoc, bytes]

theorem answering_sent {done : List (Message env dir router)} {m : Message env dir router}
    {c : Connection} {log : List Effect} (h : Answering done m c log) {b : Buffer}
    {chunks : List Str} (took : Took c b chunks) (channel : Channel) (writeState : WriteState) :
    Answering done m { c with writeBuffer := b, channel, writeState }
      (log ++ chunks.map .sent) := by
  obtain ⟨hreceived, hresponses, -⟩ := silent_sent chunks
  refine ⟨h.state, h.context, h.noFile, ⟨h.buffers.read, took.wf⟩, h.home, ?_, ?_, ?_⟩
  · rw [sentOf_append, sentOf_sent, List.append_assoc, took.bytes]
    exact h.sent
  · rw [responsesOf_append, hresponses, List.append_nil, h.responses]
  · rw [receivedOf_append, hreceived, List.append_nil]
    exact h.received

/-- Processing the bytes between two responses waits for more or answers the next message. -/
theorem processed_cases {done todo : List (Message env dir router)} {tail : Str} {c : Connection}
    {log : List Effect} (h : Between done tail c log) (within : tail <+: stream todo) :
    (c.parsed.1 = .incomplete ∧
      Between done tail (c.processInWorker env).1 (log ++ (c.processInWorker env).2) ∧
      (c.processInWorker env).1.state = .connected ∧ queuedOf (c.processInWorker env).2 = [] ∧
      Drives move .reset tail none (c.processInWorker env).1.context
        (c.processInWorker env).1.readBuffer.peekReadable) ∨
    (c.parsed.1 = .complete ∧ ∃ m later, todo = m :: later ∧
      Answering done m (c.processInWorker env).1 (log ++ (c.processInWorker env).2) ∧
      (c.processInWorker env).1.channel.epollOut = false ∧
      queuedOf (c.processInWorker env).2 = [.trySend]) := by
  have hdrives := (parseRequest_drives c.context h.ready.readBuffer).2
  have hend := processInWorker_end h.ready.readBuffer env
  generalize c.processInWorker env = out at hend ⊢
  have hresumed := h.resumes [] _ _ _ (by rw [List.append_nil]; exact hdrives)
  rw [List.append_nil] at hresumed
  have hparse : c.context.parseRequest c.readBuffer = c.parsed := rfl
  rw [hparse] at hresumed
  cases hend with
  | incomplete ctx rest hrest hparsed =>
    rw [hparsed] at hresumed
    refine Or.inl ⟨by rw [hparsed], ?_, rfl, rfl, hresumed⟩
    refine ⟨⟨h.ready.response, h.ready.noFile, hrest, h.ready.writeBuffer⟩, h.unsent, h.noWrite,
      h.home, ?_, ?_, ?_, ?_⟩
    · simpa [sentOf] using h.sent
    · simpa [responsesOf] using h.responses
    · simpa [receivedOf] using h.received
    · intro more r u rest' hmore
      exact drives_resume move_stable hresumed hmore
  | error ctx rest hrest hparsed =>
    rw [hparsed] at hresumed
    obtain ⟨m, later, -, haccepted, -⟩ := head_message hresumed within
    cases haccepted
  | complete ctx rest hrest hparsed =>
    rw [hparsed] at hresumed
    obtain ⟨m, later, htodo, -, rfl, htail⟩ := head_message hresumed within
    have hreply : reply env c.resourceDir c.router m.context.request c.response =
        reply env dir router m.context.request .reset := by
      rw [h.home.1, h.home.2, h.ready.response]
    obtain ⟨hreceived, hsent, hresponses, hqueued⟩ :=
      answerEffects_spec (reply env dir router m.context.request .reset)
    refine Or.inr ⟨by rw [hparsed], m, later, htodo, ?_⟩
    rw [hreply, store_noFile m.inMemory]
    refine ⟨⟨rfl, rfl, h.ready.noFile, ⟨hrest, Buffer.append_wf h.ready.writeBuffer _⟩, h.home,
      ?_, ?_, ?_⟩, h.noWrite, hqueued⟩
    · refine (congrArg (· ++ _) (sentOf_append log _)).trans ?_
      refine (congrArg (sentOf log ++ · ++ _) hsent).trans ?_
      refine (congrArg (_ ++ ·) (Buffer.append_peekReadable h.ready.writeBuffer _)).trans ?_
      rw [h.sent, h.unsent]
      simp [answers, Message.response]
    · refine (responsesOf_append log _).trans ?_
      refine (congrArg (responsesOf log ++ ·) hresponses).trans ?_
      rw [h.responses]
      simp [Message.response]
    · refine (receivedOf_append log _).trans ?_
      refine (congrArg (receivedOf log ++ ·) hreceived).trans ?_
      rw [h.received, htail]
      simp [stream]

/-- Finishing a drained response goes back to the state between two responses. -/
theorem phase_finished {msgs done todo : List (Message env dir router)}
    {m : Message env dir router} {c : Connection} {log : List Effect}
    (split : msgs = done ++ m :: todo) (h : Answering done m c log)
    (drained : c.writeBuffer.peekReadable = []) (noWrite : c.channel.epollOut = false) :
    Phase msgs c.onResponseFinished.2.1 (queuedOf c.onResponseFinished.2.2)
      (log ++ c.onResponseFinished.2.2) := by
  have hend := onResponseFinished_end c
  generalize c.onResponseFinished.2 = out at hend ⊢
  cases hend with
  | closed hclose =>
    have hkeep : c.isKeepAlive = true := by rw [isKeepAlive, h.context, m.keepAlive]
    exact absurd (hclose.symm.trans hkeep) Bool.false_ne_true
  | kept hkeep =>
    have hfile : c.sendFileFd < 0 := by rw [h.noFile]; decide
    rw [resetForNextRequest_noFile hfile]
    have hsent := h.sent
    rw [drained, List.append_nil] at hsent
    have hsplit : msgs = (done ++ [m]) ++ todo := by rw [split, List.append_assoc]; rfl
    have hbetween : ∀ fx, sentOf fx = [] → responsesOf fx = [] → receivedOf fx = [] →
        Between (done ++ [m]) c.readBuffer.peekReadable (enableReadEvent { c with
          context := .reset
          response := .reset
          writeBuffer := c.writeBuffer.clear
          state := .connected }) (log ++ fx) := by
      intro fx hs hr hv
      refine ⟨⟨rfl, h.noFile, h.buffers.read, Buffer.clear_wf _⟩, Buffer.clear_peekReadable _,
        noWrite, h.home, ?_, ?_, ?_, fun more r u rest hdrives => hdrives⟩
      · rw [sentOf_append, hs, List.append_nil, hsent]
      · rw [responsesOf_append, hr, List.append_nil, h.responses]
      · rw [receivedOf_append, hv, List.append_nil, h.received]
    by_cases hpending : c.hasPendingRequest = true
    · rw [if_pos hpending]
      exact .queued hsplit (hbetween _ rfl rfl rfl) rfl
    · rw [if_neg hpending]
      have hunread : c.readBuffer.peekReadable = [] := by
        have hzero : ¬0 < c.readBuffer.readableBytes := by simpa [hasPendingRequest] using hpending
        exact List.length_eq_zero_iff.mp (by
          rw [Buffer.peekReadable_length h.buffers.read]; omega)
      refine .idle hsplit (hbetween _ rfl rfl rfl) rfl ?_
      have hwait : Drives move .reset ([] : Str) none .reset [] := .wait rfl
      exact hunread.symm ▸ hwait

theorem phase_trySend {msgs done todo : List (Message env dir router)}
    {m : Message env dir router} {c : Connection} {log : List Effect}
    (split : msgs = done ++ m :: todo) (h : Answering done m c log)
    (noWrite : c.channel.epollOut = false) {sends : Transfers} (errno : sends.errno = .again)
    (positive : ∀ n ∈ sends.counts, n ≠ 0) :
    Phase msgs (c.trySend sends).1 (queuedOf (c.trySend sends).2) (log ++ (c.trySend sends).2) := by
  have hend := trySend_end h.buffers.write sends
  generalize c.trySend sends = out at hend ⊢
  cases hend with
  | finished b chunks took done _ =>
    have hempty : b.readableBytes = 0 := by
      rcases done with hempty | hstalls
      · exact hempty
      · exact absurd ((stalls_positive positive _).symm.trans hstalls) Bool.false_ne_true
    have hfinished := phase_finished split (answering_sent h took c.channel c.writeState)
      ((Buffer.readableBytes_eq_zero took.wf).mp hempty) noWrite
    rw [queuedOf_append, (silent_sent chunks).2.2, List.nil_append, ← List.append_assoc]
    exact hfinished
  | waiting b chunks took _ =>
    rw [(silent_sent chunks).2.2]
    exact .blocked split (answering_sent h took { c.channel with epollOut := true } c.writeState) rfl
  | failed b chunks took _ hother =>
    exact absurd (errno.symm.trans hother) (by decide)

theorem phase_handleWrite {msgs done todo : List (Message env dir router)}
    {m : Message env dir router} {c : Connection} {log : List Effect}
    (split : msgs = done ++ m :: todo) (h : Answering done m c log) {sends files : Transfers}
    (errno : sends.errno = .again) (positive : ∀ n ∈ sends.counts, n ≠ 0) :
    Phase msgs (c.handleWrite sends files).1 (queuedOf (c.handleWrite sends files).2)
      (log ++ (c.handleWrite sends files).2) := by
  have hend := handleWrite_end h.buffers.write sends files
  generalize c.handleWrite sends files = out at hend ⊢
  cases hend with
  | drained b chunks took hempty _ =>
    have hfile : (c.writing b).sendFileFd < 0 := h.noFile ▸ (by decide : (-1 : Int) < 0)
    have hdone : (c.writing b).sendFile files = (c.writing b).writeDone := by
      rw [sendFile, if_neg (Int.not_le.mpr hfile)]
    have hfinished := phase_finished split
      (answering_sent h took { c.channel with epollOut := false } .idle)
      ((Buffer.readableBytes_eq_zero took.wf).mp hempty) rfl
    rw [hdone, queuedOf_append, (silent_sent chunks).2.2, List.nil_append, ← List.append_assoc]
    exact hfinished
  | stalled b chunks took _ hstalls =>
    exact absurd ((stalls_positive positive _).symm.trans hstalls) Bool.false_ne_true
  | waiting b chunks took _ =>
    rw [(silent_sent chunks).2.2]
    exact .blocked split (answering_sent h took { c.channel with epollOut := true } .pending) rfl
  | failed b chunks took _ hother =>
    exact absurd (errno.symm.trans hother) (by decide)

/-- The bytes behind the finished messages are the beginning of the others. -/
theorem tail_within {msgs done todo : List (Message env dir router)} {tail : Str}
    (split : msgs = done ++ todo) (within : stream done ++ tail <+: stream msgs) :
    tail <+: stream todo := by
  rw [split, stream, stream, List.flatMap_append] at within
  exact (List.prefix_append_right_inj _).mp within

end

/-! ## Runs -/

/-- What may happen to an undisturbed connection. -/
inductive Event where
  | readable (arrival : Arrival)
  | writable (sends : Transfers)
  | swap
  | run (sends : Transfers)

namespace Event

/-- The step of the system, in a world that does not change. -/
def act (env : Env) : Event → Act
  | .readable arrival => .readable env arrival
  | .writable sends => .writable sends ⟨[], .again⟩
  | .swap => .swap
  | .run sends => .run env sends

end Event

namespace Sys

def stepOn (env : Env) (s : Sys) (e : Event) : Option Sys := s.step (e.act env)

/-- Some calls of `send` accept at least one byte each, then EAGAIN. -/
def Flowing (sends : Transfers) : Prop := sends.errno = .again ∧ ∀ n ∈ sends.counts, n ≠ 0

/-- No peer close, no socket error, and never 2 MiB unread. -/
def Undisturbed (s : Sys) : Event → Prop
  | .readable arrival => (s.conn.read arrival).1 = .success
  | .writable sends => Flowing sends
  | .swap => True
  | .run sends => Flowing sends

/-- While a `ProcessInWorker` functor is queued, no packet handled in state Connected
completes the next request. -/
def NoRace (s : Sys) : Event → Prop
  | .readable arrival => .processInWorker ∈ s.functors → s.conn.state = .connected →
      (s.conn.read arrival).2.1.parsed.1 = .incomplete
  | _ => True

instance (sends : Transfers) : Decidable (Flowing sends) := by
  unfold Flowing
  infer_instance

instance (s : Sys) : (e : Event) → Decidable (Undisturbed s e)
  | .readable _ => by unfold Undisturbed; infer_instance
  | .writable sends => inferInstanceAs (Decidable (Flowing sends))
  | .run sends => inferInstanceAs (Decidable (Flowing sends))
  | .swap => .isTrue trivial

instance (s : Sys) : (e : Event) → Decidable (NoRace s e)
  | .readable _ => by unfold NoRace; infer_instance
  | .writable _ | .swap | .run _ => .isTrue trivial

section
variable {env : Env} {dir : Str} {router : Option Router}

/-- Processing from between two responses, with nothing else queued or only the functor
that has just processed an incomplete request. -/
theorem phase_processed {msgs done todo : List (Message env dir router)} {tail : Str}
    {c : Connection} {log : List Effect} (split : msgs = done ++ todo)
    (h : Between done tail c log) (within : tail <+: stream todo) :
    Phase msgs (c.processInWorker env).1 (queuedOf (c.processInWorker env).2)
      (log ++ (c.processInWorker env).2) := by
  rcases processed_cases h within with
    ⟨-, hbetween, hstate, hqueued, hwaits⟩ | ⟨-, m, later, htodo, hanswering, hout, hqueued⟩
  · rw [hqueued]
    exact .idle split hbetween hstate hwaits
  · rw [hqueued]
    exact .sending (htodo ▸ split) hanswering hout

theorem phase_handleRead {msgs : List (Message env dir router)} {c : Connection}
    {functors : List Callback} {log : List Effect} (phase : Phase msgs c functors log)
    {arrival : Arrival}
    (within : receivedOf (log ++ (c.handleRead env arrival).2) <+: stream msgs)
    (success : (c.read arrival).1 = .success)
    (noRace : .processInWorker ∈ functors → c.state = .connected →
      (c.read arrival).2.1.parsed.1 = .incomplete) :
    Phase msgs (c.handleRead env arrival).1 (functors ++ queuedOf (c.handleRead env arrival).2)
      (log ++ (c.handleRead env arrival).2) := by
  have hwf : BuffersWf c := by
    cases phase with
    | idle _ h => exact ⟨h.ready.readBuffer, h.ready.writeBuffer⟩
    | queued _ h => exact ⟨h.ready.readBuffer, h.ready.writeBuffer⟩
    | sending _ h => exact h.buffers
    | blocked _ h => exact h.buffers
  have hend := handleRead_end hwf.read env arrival
  generalize c.handleRead env arrival = out at hend within ⊢
  cases hend with
  | closing b packets _ _ hfailed => exact absurd success hfailed
  | reading b packets hb hbytes _ hstate =>
    obtain ⟨-, -, hqueued⟩ := received_only packets
    rw [hqueued, List.append_nil]
    cases phase with
    | idle _ _ hconnected => exact absurd hconnected hstate
    | queued _ _ hconnected => exact absurd hconnected hstate
    | sending split h hout => exact .sending split (answering_read h hb hbytes) hout
    | blocked split h hout => exact .blocked split (answering_read h hb hbytes) hout
  | processing b packets hb hbytes _ hconnected hread =>
    obtain ⟨-, -, hqueued⟩ := received_only packets
    rw [queuedOf_append, hqueued, List.nil_append, ← List.append_assoc]
    rw [← List.append_assoc, receivedOf_append] at within
    have hearlier := (List.prefix_append _ _).trans within
    cases phase with
    | idle split h =>
      have hbetween := between_read h hb hbytes .processing
      rw [hbetween.received] at hearlier
      rw [List.nil_append]
      exact phase_processed split hbetween (tail_within split hearlier)
    | queued split h =>
      have hbetween := between_read h hb hbytes .processing
      rw [hbetween.received] at hearlier
      rcases processed_cases hbetween (tail_within split hearlier) with
        ⟨-, hafter, hstate, hnone, -⟩ | ⟨hcomplete, -⟩
      · rw [hnone, List.append_nil]
        exact .queued split hafter hstate
      · have hincomplete := noRace (List.mem_singleton.mpr rfl) hconnected
        rw [hread] at hincomplete
        exact absurd (hincomplete.symm.trans hcomplete) (by decide)
    | sending _ h => exact absurd (h.state.symm.trans hconnected) (by decide)
    | blocked _ h => exact absurd (h.state.symm.trans hconnected) (by decide)

theorem phase_writable {msgs : List (Message env dir router)} {c : Connection}
    {functors : List Callback} {log : List Effect} (phase : Phase msgs c functors log)
    (waiting : c.channel.epollOut = true) {sends files : Transfers} (flowing : Flowing sends) :
    Phase msgs (c.handleWrite sends files).1
      (functors ++ queuedOf (c.handleWrite sends files).2)
      (log ++ (c.handleWrite sends files).2) := by
  cases phase with
  | idle _ h => exact absurd (h.noWrite.symm.trans waiting) Bool.false_ne_true
  | queued _ h => exact absurd (h.noWrite.symm.trans waiting) Bool.false_ne_true
  | sending _ _ hout => exact absurd (hout.symm.trans waiting) Bool.false_ne_true
  | blocked split h => exact phase_handleWrite split h flowing.1 flowing.2

theorem phase_call {msgs : List (Message env dir router)} {c : Connection} {cb : Callback}
    {rest : List Callback} {log : List Effect} (phase : Phase msgs c (cb :: rest) log)
    {sends : Transfers} (within : receivedOf (log ++ (c.call cb env sends).2) <+: stream msgs)
    (flowing : Flowing sends) :
    Phase msgs (c.call cb env sends).1 (rest ++ queuedOf (c.call cb env sends).2)
      (log ++ (c.call cb env sends).2) := by
  rw [receivedOf_append] at within
  have hearlier := (List.prefix_append _ _).trans within
  cases phase with
  | queued split h =>
    rw [h.received] at hearlier
    exact phase_processed split h (tail_within split hearlier)
  | sending split h hout =>
    have hopen : c.state ≠ .closed := by
      rw [h.state]
      decide
    rw [call, if_neg hopen]
    exact phase_trySend split h hout flowing.1 flowing.2

theorem phase_step {msgs : List (Message env dir router)} {s t : Sys} {e : Event}
    (phase : Phase msgs s.conn s.functors s.log) (undisturbed : Undisturbed s e)
    (noRace : NoRace s e) (hstep : s.stepOn env e = some t)
    (within : receivedOf t.log <+: stream msgs) : Phase msgs t.conn t.functors t.log := by
  have htaken := taken_of_step hstep
  cases e with
  | readable arrival =>
    cases htaken with
    | readable _ _ hbatch =>
      have hnext := phase_handleRead phase within undisturbed noRace
      have hfunctors : (s.after (s.conn.handleRead env arrival)).functors =
          s.functors ++ queuedOf (s.conn.handleRead env arrival).2 :=
        functors_after s s.batch s.alive _
      rw [hfunctors]
      exact hnext
  | writable sends =>
    cases htaken with
    | writable _ _ hbatch hout =>
      have hfunctors : (s.after (s.conn.handleWrite sends ⟨[], .again⟩)).functors =
          s.functors ++ queuedOf (s.conn.handleWrite sends ⟨[], .again⟩).2 :=
        functors_after s s.batch s.alive _
      rw [hfunctors]
      exact phase_writable phase hout undisturbed
  | swap =>
    cases htaken with
    | swap hbatch => simpa [functors, hbatch] using phase
  | run sends =>
    cases htaken with
    | run _ _ cb rest hbatch =>
      rw [functors_after]
      have hfunctors : s.functors = cb :: (rest ++ s.pending) := by
        rw [functors, hbatch, List.cons_append]
      rw [hfunctors] at phase
      exact phase_call phase within undisturbed

theorem phase_start {msgs : List (Message env dir router)} {c : Connection} (fresh : Fresh c)
    (home : c.resourceDir = dir ∧ c.router = router) :
    Phase msgs (start c).conn (start c).functors (start c).log := by
  have hdrives : Drives move .reset ([] : Str) none c.context c.readBuffer.peekReadable := by
    rw [fresh.context, fresh.unread]
    exact .wait rfl
  have hresumes : ∀ more r u rest,
      Drives move c.context (c.readBuffer.peekReadable ++ more) r u rest →
        Drives move .reset ([] ++ more) r u rest := by
    rw [fresh.context, fresh.unread]
    exact fun more r u rest hmore => hmore
  have hbetween : Between ([] : List (Message env dir router)) [] c [] :=
    ⟨fresh.ready, fresh.unsent, fresh.noWrite, home, rfl, rfl, rfl, hresumes⟩
  exact .idle (List.nil_append msgs).symm hbetween fresh.state hdrives

theorem received_step {s t : Sys} {a : Act} (hstep : s.step a = some t) :
    receivedOf s.log <+: receivedOf t.log := by
  have hlog : ∃ fx, t.log = s.log ++ fx := by
    cases taken_of_step hstep with
    | swap => exact ⟨[], (List.append_nil _).symm⟩
    | readable | writable | hangup | run | release => exact ⟨_, rfl⟩
  obtain ⟨fx, hfx⟩ := hlog
  rw [hfx, receivedOf_append]
  exact List.prefix_append _ _

theorem wire_prefix {msgs done todo : List (Message env dir router)} {log : List Effect}
    {unsent : Str} (split : msgs = done ++ todo) (sent : sentOf log ++ unsent = answers done)
    (responses : responsesOf log = done.map (·.response)) :
    sentOf log <+: answers msgs ∧ responsesOf log <+: msgs.map (·.response) := by
  have hsplit : answers msgs = answers done ++ answers todo := by
    rw [split, answers, List.flatMap_append, answers, answers]
  constructor
  · rw [hsplit, ← sent, List.append_assoc]
    exact List.prefix_append _ _
  · rw [split, responses, List.map_append]
    exact List.prefix_append _ _

/-- What a phase says about the wire. -/
theorem phase_wire {msgs : List (Message env dir router)} {c : Connection}
    {functors : List Callback} {log : List Effect} (phase : Phase msgs c functors log) :
    sentOf log <+: answers msgs ∧ responsesOf log <+: msgs.map (·.response) := by
  cases phase with
  | idle split h =>
    exact wire_prefix split ((List.append_nil _).trans h.sent) h.responses
  | queued split h =>
    exact wire_prefix split ((List.append_nil _).trans h.sent) h.responses
  | sending split h => exact wire_prefix (split.trans (List.append_cons _ _ _)) h.sent h.responses
  | blocked split h => exact wire_prefix (split.trans (List.append_cons _ _ _)) h.sent h.responses

/-- With everything received and nothing to drive the connection on, all is answered. -/
theorem phase_quiet {msgs : List (Message env dir router)} {c : Connection} {log : List Effect}
    (phase : Phase msgs c [] log) (noWrite : c.channel.epollOut = false)
    (received : receivedOf log = stream msgs) :
    sentOf log = answers msgs ∧ responsesOf log = msgs.map (·.response) := by
  generalize hfunctors : ([] : List Callback) = functors at phase
  cases phase with
  | @idle done todo tail _ _ split h _ hwaits =>
    have htail : tail = stream todo := by
      rw [h.received, split, stream, stream, List.flatMap_append] at received
      exact List.append_cancel_left received
    rw [htail] at hwaits
    obtain rfl := waits_only_empty hwaits
    rw [List.append_nil] at split
    rw [split]
    exact ⟨h.sent, h.responses⟩
  | queued => cases hfunctors
  | sending => cases hfunctors
  | blocked _ _ hout => exact absurd (noWrite.symm.trans hout) Bool.false_ne_true

/-- In a run of an undisturbed connection without the race, the bytes sent are always a
prefix of the answers in order, with one response for each request, and all of them
once nothing is left to be done. -/
theorem responses_in_order {msgs : List (Message env dir router)} {c : Connection}
    (fresh : Fresh c) (home : c.resourceDir = dir ∧ c.router = router) {events : List Event}
    {s : Sys} (run : GuardedRuns.exec (stepOn env) (start c) events = some s)
    (received : receivedOf s.log <+: stream msgs)
    (undisturbed : GuardedRuns.Guarded (stepOn env)
      (fun s e => Undisturbed s e ∧ NoRace s e) (start c) events) :
    (sentOf s.log <+: answers msgs ∧ responsesOf s.log <+: msgs.map (·.response)) ∧
      (s.functors = [] → s.conn.channel.epollOut = false → receivedOf s.log = stream msgs →
        sentOf s.log = answers msgs ∧ responsesOf s.log = msgs.map (·.response)) := by
  have hphase := GuardedRuns.invariant_of_guarded
    (fun s => receivedOf s.log <+: stream msgs → Phase msgs s.conn s.functors s.log)
    (fun _ _ _ h hok hstep hwithin => phase_step (h ((received_step hstep).trans hwithin))
      hok.1 hok.2 hstep hwithin)
    (fun _ => phase_start fresh home) undisturbed run received
  refine ⟨phase_wire hphase, ?_⟩
  intro hfunctors hout hall
  rw [hfunctors] at hphase
  exact phase_quiet hphase hout hall

end

/-- Two requests in two packets, the first response sent in two parts. -/
theorem responses_in_order_split :
    let env := Env.table []
    let router : Option Router :=
      some (Router.get {} (lit "/a") { respond := fun _ resp => resp.setText (lit "a") })
    let c := enableReadEvent (new 5 (lit "/w") router)
    let events : List Event :=
      [.readable ⟨[⟨lit "GET /", by decide⟩], .again⟩,
        .readable ⟨[⟨lit "a HTTP/1.1\r\n\r\nGET /a HTTP/1.1\r\n\r\n", by decide⟩], .again⟩,
        .swap, .run ⟨[10], .again⟩, .writable ⟨[1000], .again⟩, .swap, .run ⟨[], .again⟩,
        .swap, .run ⟨[1000], .again⟩]
    ∃ m : Message env (lit "/w") router, m.bytes = lit "GET /a HTTP/1.1\r\n\r\n" ∧
      ∃ s, GuardedRuns.exec (stepOn env) (start c) events = some s ∧
        sentOf s.log = m.response ++ m.response := by
  intro env router c events
  let m : Message env (lit "/w") router :=
    ⟨lit "GET /a HTTP/1.1\r\n\r\n", _, by decide +kernel, rfl, by decide +kernel,
      by decide +kernel, by decide +kernel⟩
  have hquiet : (GuardedRuns.exec (stepOn env) (start c) events).map
      (fun s => (receivedOf s.log, s.functors, s.conn.channel.epollOut)) =
      some (m.bytes ++ m.bytes, [], false) := by
    decide +kernel
  obtain ⟨s, hs, hparts⟩ := Option.map_eq_some_iff.mp hquiet
  obtain ⟨hreceived, hparts⟩ := Prod.mk.inj hparts
  obtain ⟨hfunctors, hout⟩ := Prod.mk.inj hparts
  have hstream : receivedOf s.log = stream [m, m] := by
    rw [hreceived]
    simp [stream]
  have hwithin : receivedOf s.log <+: stream [m, m] := by
    rw [hstream]
  have home : c.resourceDir = lit "/w" ∧ c.router = router := ⟨rfl, rfl⟩
  obtain ⟨-, hall⟩ := responses_in_order (fresh_new 5 (lit "/w") router) home hs hwithin
    (by decide +kernel)
  refine ⟨m, rfl, s, hs, ?_⟩
  rw [(hall hfunctors hout hstream).1]
  simp [answers]

/-- The end of the second request arrives while the functor for its beginning is queued:
the functor processes the finished context again, and the second response is sent twice. -/
theorem response_duplicated :
    let env := Env.table []
    let router : Option Router :=
      some (Router.get {} (lit "/a") { respond := fun _ resp => resp.setText (lit "a") })
    let c := enableReadEvent (new 5 (lit "/w") router)
    let events : List Event :=
      [.readable ⟨[⟨lit "GET /a HTTP/1.1\r\n\r\nGET", by decide⟩], .again⟩,
        .swap, .run ⟨[1000], .again⟩,
        .readable ⟨[⟨lit " /a HTTP/1.1\r\n\r\n", by decide⟩], .again⟩,
        .swap, .run ⟨[1000], .again⟩, .run ⟨[1000], .again⟩]
    ∃ (m : Message env (lit "/w") router) (s : Sys), m.bytes = lit "GET /a HTTP/1.1\r\n\r\n" ∧
      GuardedRuns.exec (stepOn env) (start c) events = some s ∧
      GuardedRuns.Guarded (stepOn env) Undisturbed (start c) events ∧
      receivedOf s.log = stream [m, m] ∧
      sentOf s.log = m.response ++ m.response ++ m.response ∧
      ¬sentOf s.log <+: answers [m, m] := by
  intro env router c events
  let m : Message env (lit "/w") router :=
    ⟨lit "GET /a HTTP/1.1\r\n\r\n", _, by decide +kernel, rfl, by decide +kernel,
      by decide +kernel, by decide +kernel⟩
  have hlog : (GuardedRuns.exec (stepOn env) (start c) events).map
      (fun s => (receivedOf s.log, sentOf s.log)) =
      some (stream [m, m], m.response ++ m.response ++ m.response) := by
    decide +kernel
  obtain ⟨s, hs, hparts⟩ := Option.map_eq_some_iff.mp hlog
  obtain ⟨hreceived, hsent⟩ := Prod.mk.inj hparts
  refine ⟨m, s, rfl, hs, by decide +kernel, hreceived, hsent, ?_⟩
  rw [hsent]
  decide +kernel

end Sys

end WebServer
