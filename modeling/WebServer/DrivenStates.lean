import WebServer.ParserProgress
import WebServer.Reactor

/-!
# What drives a connection on

A connection is left by a handler in a state that says what will go on with it: a functor
in the queue, or the bytes or the room that it waits for. A handler that gives a connection
up has put the functor that removes it into the queue. Both are said here of the handlers
alone; what the socket and epoll make of it is said about the reactor.
-/

namespace WebServer

open Connection HttpContext

/-! ## Effects inside the server -/

/-- Everything but the bytes received and the removals asked for. -/
def Effect.isPlain : Effect → Bool
  | .received _ | .removal _ => false
  | _ => true

def Plain (fx : List Effect) : Prop := ∀ e ∈ fx, e.isPlain = true

theorem plain_append {fx fx' : List Effect} (h : Plain fx) (h' : Plain fx') : Plain (fx ++ fx') :=
  List.forall_mem_append.mpr ⟨h, h'⟩

theorem plain_sent (chunks : List Str) : Plain (chunks.map .sent) := by
  intro e he
  obtain ⟨bytes, -, rfl⟩ := List.mem_map.mp he
  rfl

theorem plain_moves (moves : List (Nat × Nat)) :
    Plain (moves.map fun move => .transferred move.1 move.2) := by
  intro e he
  obtain ⟨move, -, rfl⟩ := List.mem_map.mp he
  rfl

theorem received_plain {fx : List Effect} (h : Plain fx) : receivedOf fx = [] := by
  apply List.flatMap_eq_nil_iff.mpr
  intro e he
  have hplain := h e he
  cases e with
  | received data => cases hplain
  | _ => rfl

namespace Connection

theorem plain_store (c : Connection) (env : Env) (p : Reply) : Plain (c.store env p).2 := by
  have hhead : ∀ size, Plain (p.opened.map .opened ++ [.responded p.bytes size]) := by
    intro size e he
    rcases List.mem_append.mp he with hopened | hresponded
    · obtain ⟨path, -, rfl⟩ := List.mem_map.mp hopened
      rfl
    · rw [List.mem_singleton.mp hresponded]
      rfl
  cases hfile : p.file with
  | none =>
    simp only [store, hfile]
    exact hhead none
  | some file =>
    simp only [store, hfile]
    refine plain_append (hhead _) ?_
    by_cases hopen : 0 ≤ c.sendFileFd <;> simp [hopen, Plain, Effect.isPlain]

theorem plain_processInWorker (c : Connection) (env : Env) : Plain (c.processInWorker env).2 := by
  rcases hparse : c.context.parseRequest c.readBuffer with ⟨result, ctx, rest⟩
  cases result with
  | incomplete => simp [processInWorker, process, hparse, Plain, Effect.isPlain]
  | error => simp [processInWorker, process, hparse, Plain, Effect.isPlain]
  | complete =>
    have hstore := plain_store { c with context := ctx, readBuffer := rest } env
      (reply env c.resourceDir c.router ctx.request c.response)
    simp only [processInWorker, process, hparse]
    exact plain_append (List.forall_mem_cons.mpr ⟨rfl, hstore⟩) (by simp [Plain, Effect.isPlain])

theorem plain_reset (c : Connection) : Plain c.resetForNextRequest.2 := by
  by_cases hopen : 0 ≤ c.sendFileFd <;>
    simp [resetForNextRequest, hopen, Plain, Effect.isPlain]

theorem plain_finished (c : Connection) : Plain c.onResponseFinished.2.2 := by
  have hend := onResponseFinished_end c
  have hreset := plain_reset c
  generalize c.onResponseFinished.2 = out at hend ⊢
  cases hend with
  | kept =>
    refine plain_append (List.forall_mem_cons.mpr ⟨rfl, hreset⟩) ?_
    by_cases hpending : c.hasPendingRequest = true <;> simp [hpending, Plain, Effect.isPlain]
  | closed => simp [Plain, Effect.isPlain]

theorem plain_trySend {c : Connection} (hwf : BuffersWf c) (sends : Transfers) :
    Plain (c.trySend sends).2 := by
  have hend := trySend_end hwf.write sends
  generalize c.trySend sends = out at hend ⊢
  cases hend with
  | finished b chunks => exact plain_append (plain_sent chunks) (plain_finished _)
  | waiting b chunks => exact plain_sent chunks
  | failed b chunks => exact plain_append (plain_sent chunks) (by simp [Plain, Effect.isPlain])

theorem plain_sendFile (c : Connection) (files : Transfers) : Plain (c.sendFile files).2 := by
  have hend := sendFile_end c files
  generalize c.sendFile files = out at hend ⊢
  cases hend with
  | noFile => exact plain_finished _
  | waiting moves => exact plain_moves moves
  | failed moves => exact plain_append (plain_moves moves) (by simp [Plain, Effect.isPlain])
  | drained moves =>
    exact plain_append (plain_moves moves) (List.forall_mem_cons.mpr ⟨rfl, plain_finished _⟩)

theorem plain_handleWrite {c : Connection} (hwf : BuffersWf c) (sends files : Transfers) :
    Plain (c.handleWrite sends files).2 := by
  have hend := handleWrite_end hwf.write sends files
  generalize c.handleWrite sends files = out at hend ⊢
  cases hend with
  | drained b chunks => exact plain_append (plain_sent chunks) (plain_sendFile _ files)
  | stalled b chunks => exact plain_append (plain_sent chunks) (plain_finished _)
  | waiting b chunks => exact plain_sent chunks
  | failed b chunks => exact plain_append (plain_sent chunks) (by simp [Plain, Effect.isPlain])

/-- What `HandleRead` does besides reading is plain. -/
theorem handleRead_effects (c : Connection) (env : Env) (arrival : Arrival) :
    ∃ fx, Plain fx ∧ (c.handleRead env arrival).2 = (c.read arrival).2.2 ++ fx := by
  rcases hread : c.read arrival with ⟨result, c', fx⟩
  have hclosing : Plain [.queued .removeConnection] := by simp [Plain, Effect.isPlain]
  cases result with
  | success =>
    by_cases hstate : c'.state = .connected
    · refine ⟨_, plain_processInWorker { c' with state := .processing } env, ?_⟩
      simp [handleRead, hread, hstate]
    · exact ⟨[], List.forall_mem_nil _, by simp [handleRead, hread, hstate]⟩
  | closed => exact ⟨_, hclosing, by simp [handleRead, hread, handleClose]⟩
  | error => exact ⟨_, hclosing, by simp [handleRead, hread, handleClose]⟩

theorem plain_call {c : Connection} (hwf : BuffersWf c) {cb : Callback}
    (h : cb ≠ .removeConnection) (env : Env) (sends : Transfers) :
    Plain (c.call cb env sends).2 := by
  cases cb with
  | trySend =>
    by_cases hclosed : c.state = .closed
    · rw [call, if_pos hclosed]
      exact List.forall_mem_nil _
    · rw [call, if_neg hclosed]
      exact plain_trySend hwf sends
  | processInWorker => exact plain_processInWorker c env
  | handleClose => simp [call, handleClose, Plain, Effect.isPlain]
  | removeConnection => exact absurd rfl h

theorem received_call {c : Connection} (hwf : BuffersWf c) (cb : Callback) (env : Env)
    (sends : Transfers) : receivedOf (c.call cb env sends).2 = [] := by
  by_cases h : cb = .removeConnection
  · rw [h]
    rfl
  · exact received_plain (plain_call hwf h env sends)

theorem plain_close (c : Connection) : Plain c.close.2 := by
  by_cases hopen : 0 ≤ c.sendFileFd <;> simp [close, hopen, Plain, Effect.isPlain]

end Connection

/-! ## Removal -/

/-- The connection is being removed, or its last reference is gone. -/
inductive Leaving (s : Sys) : Prop where
  | closing : .handleClose ∈ s.functors → Leaving s
  | removing : .removeConnection ∈ s.functors → Leaving s
  | removed (fd : Int) : .removal fd ∈ s.log → Leaving s
  | gone : s.alive = false → Leaving s

namespace Sys

theorem leaving_after {s : Sys} {out : Connection × List Effect} (h : Leaving s) :
    Leaving (s.after out) := by
  have hmem : ∀ cb ∈ s.functors, cb ∈ (s.after out).functors := by
    intro cb hcb
    have hfunctors : (s.after out).functors = s.functors ++ queuedOf out.2 :=
      functors_after s s.batch s.alive out
    rw [hfunctors]
    exact List.mem_append_left _ hcb
  cases h with
  | closing hcb => exact .closing (hmem _ hcb)
  | removing hcb => exact .removing (hmem _ hcb)
  | removed fd hfd => exact .removed fd (List.mem_append_left _ hfd)
  | gone hgone => exact .gone hgone

/-- A handler that queues `RemoveConnection` sets the removal going. -/
theorem leaving_queued {s : Sys} {out : Connection × List Effect}
    (h : .removeConnection ∈ queuedOf out.2) : Leaving (s.after out) := by
  have hfunctors : (s.after out).functors = s.functors ++ queuedOf out.2 :=
    functors_after s s.batch s.alive out
  apply Leaving.removing
  rw [hfunctors]
  exact List.mem_append_right _ h

/-- A functor that runs either keeps the removal going or is a part of it. -/
theorem leaving_run {s : Sys} {cb : Callback} {rest : List Callback} (hbatch : s.batch = cb :: rest)
    (h : Leaving s) (env : Env) (sends : Transfers) :
    Leaving (after { s with batch := rest } (s.conn.call cb env sends)) := by
  have hfunctors := functors_after s rest s.alive (s.conn.call cb env sends)
  have hsplit : s.functors = cb :: (rest ++ s.pending) := by
    rw [functors, hbatch, List.cons_append]
  have hlater : ∀ cb' ∈ rest ++ s.pending, cb' ∈
      (after { s with batch := rest } (s.conn.call cb env sends)).functors := by
    intro cb' hcb'
    rw [hfunctors]
    exact List.mem_append_left _ hcb'
  have hnew : ∀ cb' ∈ queuedOf (s.conn.call cb env sends).2, cb' ∈
      (after { s with batch := rest } (s.conn.call cb env sends)).functors := by
    intro cb' hcb'
    rw [hfunctors]
    exact List.mem_append_right _ hcb'
  cases h with
  | closing hcb =>
    rw [hsplit] at hcb
    rcases List.mem_cons.mp hcb with rfl | hcb
    · exact .removing (hnew _ (List.mem_singleton.mpr rfl))
    · exact .closing (hlater _ hcb)
  | removing hcb =>
    rw [hsplit] at hcb
    rcases List.mem_cons.mp hcb with rfl | hcb
    · exact .removed s.conn.fd (List.mem_append_right _ (List.mem_singleton.mpr rfl))
    · exact .removing (hlater _ hcb)
  | removed fd hfd => exact .removed fd (List.mem_append_left _ hfd)
  | gone hgone => exact .gone hgone

theorem leaving_step {s t : Sys} {a : Act} (h : Leaving s) (hstep : s.step a = some t) :
    Leaving t := by
  cases taken_of_step hstep with
  | readable env arrival => exact leaving_after h
  | writable sends files => exact leaving_after h
  | hangup => exact leaving_after h
  | swap hbatch =>
    cases h with
    | closing hcb => exact .closing (by simpa [functors, hbatch] using hcb)
    | removing hcb => exact .removing (by simpa [functors, hbatch] using hcb)
    | removed fd hfd => exact .removed fd hfd
    | gone hgone => exact .gone hgone
  | run env sends cb rest hbatch => exact leaving_run hbatch h env sends
  | release => exact .gone rfl

end Sys

/-! ## What drives a connection on -/

/-- Bytes of a response or of a file that are not out yet. -/
def Connection.Owes (c : Connection) : Prop :=
  c.writeBuffer.readableBytes ≠ 0 ∨ 0 ≤ c.sendFileFd ∧ c.sendFileLen ≠ 0

/-- Between two handlers: a functor in the queue, or what the connection waits for. -/
inductive Driven (c : Connection) (functors : List Callback) : Prop where
  | closed : c.state = .closed → Driven c functors
  | queued : c.state = .connected → .processInWorker ∈ functors → Driven c functors
  | waiting : c.state = .connected → Waits c.context c.readBuffer.peekReadable → Driven c functors
  | sending : c.state = .writing → .trySend ∈ functors → Driven c functors
  | blocked : c.state = .writing → c.channel.epollOut = true → c.Owes → Driven c functors

namespace Connection

theorem driven_mono {c : Connection} {functors functors' : List Callback} (h : Driven c functors)
    (sub : functors ⊆ functors') : Driven c functors' := by
  cases h with
  | closed hstate => exact .closed hstate
  | queued hstate hcb => exact .queued hstate (sub hcb)
  | waiting hstate hwaits => exact .waiting hstate hwaits
  | sending hstate hcb => exact .sending hstate (sub hcb)
  | blocked hstate hout howes => exact .blocked hstate hout howes

/-- A handler that stops for want of room: only `TrySend` functors may have been used up. -/
theorem driven_refused {c c' : Connection} {functors functors' : List Callback}
    (h : Driven c functors) (state : c'.state = c.state) (context : c'.context = c.context)
    (unread : c'.readBuffer = c.readBuffer) (watched : c'.channel.epollOut = true)
    (owes : c'.Owes) (kept : .processInWorker ∈ functors → .processInWorker ∈ functors') :
    Driven c' functors' := by
  cases h with
  | closed hstate => exact .closed (state.trans hstate)
  | queued hstate hcb => exact .queued (state.trans hstate) (kept hcb)
  | waiting hstate hwaits =>
    apply Driven.waiting (state.trans hstate)
    rw [context, unread]
    exact hwaits
  | sending hstate _ => exact .blocked (state.trans hstate) watched owes
  | blocked hstate _ _ => exact .blocked (state.trans hstate) watched owes

theorem waits_parsed {c : Connection} (hwf : c.readBuffer.Wf) {ctx : HttpContext} {rest : Buffer}
    (h : c.parsed = (.incomplete, ctx, rest)) : Waits ctx rest.peekReadable := by
  have hdrives := (parseRequest_drives c.context hwf).2
  have hparse : c.context.parseRequest c.readBuffer = (.incomplete, ctx, rest) := h
  rw [hparse] at hdrives
  exact waits_of_move (Resumable.drives_wait hdrives)

theorem driven_processed {c : Connection} (hwf : c.readBuffer.Wf) (env : Env) :
    Driven (c.processInWorker env).1 (queuedOf (c.processInWorker env).2) := by
  have hend := processInWorker_end hwf env
  generalize c.processInWorker env = out at hend ⊢
  cases hend with
  | incomplete ctx rest hrest hparsed => exact .waiting rfl (waits_parsed hwf hparsed)
  | error ctx rest hrest hparsed => exact .closed rfl
  | complete ctx rest hrest hparsed =>
    apply Driven.sending rfl
    rw [queuedOf_append]
    exact List.mem_append_right _ (List.mem_singleton.mpr rfl)

theorem waits_reset {b : Buffer} (h : b.peekReadable = []) : Waits .reset b.peekReadable := by
  rw [h]
  exact .inl ⟨.inl rfl, by decide⟩

theorem resetForNextRequest_starts (c : Connection) :
    c.resetForNextRequest.1.state = .connected ∧ c.resetForNextRequest.1.context = .reset := by
  by_cases h : 0 ≤ c.sendFileFd <;> simp [resetForNextRequest, enableReadEvent, h]

theorem driven_finished {c : Connection} (hwf : c.readBuffer.Wf) :
    Driven c.onResponseFinished.2.1 (queuedOf c.onResponseFinished.2.2) := by
  have hend := onResponseFinished_end c
  obtain ⟨hstate, hcontext⟩ := resetForNextRequest_starts c
  have hread := resetForNextRequest_readBuffer c
  generalize c.onResponseFinished.2 = out at hend ⊢
  cases hend with
  | closed => exact .closed rfl
  | kept =>
    by_cases hpending : c.hasPendingRequest = true
    · apply Driven.queued hstate
      rw [if_pos hpending, queuedOf_append]
      exact List.mem_append_right _ (List.mem_singleton.mpr rfl)
    · apply Driven.waiting hstate
      have hzero : ¬0 < c.readBuffer.readableBytes := by simpa [hasPendingRequest] using hpending
      have hempty : c.readBuffer.peekReadable = [] :=
        (Buffer.readableBytes_eq_zero hwf).mp (by omega)
      rw [hcontext, hread]
      exact waits_reset hempty

/-! ## What a handler that sends leaves behind -/

theorem finished_reading {c : Connection} (reading : c.channel.epollIn = true) :
    c.onResponseFinished.2.1.channel.epollIn = true := by
  by_cases hkeep : c.isKeepAlive = true
  · simp [onResponseFinished, hkeep, resetForNextRequest, enableReadEvent]
  · simpa [onResponseFinished, hkeep] using reading

theorem trySend_driven {c : Connection} {functors : List Callback} (hwf : BuffersWf c)
    (driven : Driven c (.trySend :: functors)) (sends : Transfers) :
    .removeConnection ∈ queuedOf (c.trySend sends).2 ∨
      Driven (c.trySend sends).1 (functors ++ queuedOf (c.trySend sends).2) := by
  have hend := trySend_end hwf.write sends
  generalize c.trySend sends = out at hend ⊢
  cases hend with
  | finished b chunks took =>
    right
    rw [queuedOf_append, (silent_sent chunks).2.2, List.nil_append]
    exact driven_mono (driven_finished (c := { c with writeBuffer := b }) hwf.read)
      (List.subset_append_right _ _)
  | waiting b chunks took hleft =>
    right
    refine driven_refused driven rfl rfl rfl rfl (.inl hleft) ?_
    intro hcb
    rcases List.mem_cons.mp hcb with hne | hcb
    · cases hne
    · exact List.mem_append_left _ hcb
  | failed b chunks took =>
    left
    rw [queuedOf_append]
    exact List.mem_append_right _ (List.mem_singleton.mpr rfl)

theorem trySend_reading {c : Connection} (hwf : BuffersWf c)
    (reading : c.channel.epollIn = true) (sends : Transfers) :
    (c.trySend sends).1.channel.epollIn = true := by
  have hend := trySend_end hwf.write sends
  generalize c.trySend sends = out at hend ⊢
  cases hend with
  | finished b => exact finished_reading (c := { c with writeBuffer := b }) reading
  | waiting => exact reading
  | failed => exact reading

/-- Without `UpdateChannel` the interest is what it was. -/
theorem trySend_channel {c : Connection} {sends : Transfers}
    (unset : (c.trySendTraffic sends).updated = false) :
    (c.trySend sends).1.channel = c.channel := by
  rcases hout : writeLoop sends.errno sends.counts c.writeBuffer with ⟨result, b, fx⟩
  simp only [trySendTraffic, write, hout] at unset
  simp only [trySend, write, hout]
  cases result with
  | complete =>
    have hclose : isKeepAlive { c with writeBuffer := b } = false := unset
    simp [handleWriteResult, onResponseFinished, hclose]
  | again => cases unset
  | error => rfl

theorem processInWorker_channel {c : Connection} (hwf : c.readBuffer.Wf) (env : Env) :
    (c.processInWorker env).1.channel = c.channel := by
  have hend := processInWorker_end hwf env
  generalize c.processInWorker env = out at hend ⊢
  cases hend with
  | incomplete => rfl
  | error => rfl
  | complete ctx rest =>
    show (store _ env _).1.channel = c.channel
    generalize reply env c.resourceDir c.router ctx.request c.response = p
    cases hfile : p.file <;> simp [store, hfile]

theorem handleRead_channel {c : Connection} (hwf : BuffersWf c) (env : Env) (arrival : Arrival) :
    (c.handleRead env arrival).1.channel = c.channel := by
  have hend := handleRead_end hwf.read env arrival
  generalize c.handleRead env arrival = out at hend ⊢
  cases hend with
  | closing => rfl
  | reading => rfl
  | processing b packets hb =>
    exact processInWorker_channel (c := { c with readBuffer := b, state := .processing }) hb env

/-- A functor that does not go through `UpdateChannel` leaves the interest as it was. -/
theorem call_channel {c : Connection} (hwf : BuffersWf c) {cb : Callback} (env : Env)
    {sends : Transfers} (unset : (c.callTraffic cb sends).updated = false) :
    (c.call cb env sends).1.channel = c.channel := by
  cases cb with
  | trySend =>
    by_cases hclosed : c.state = .closed
    · simp only [call, if_pos hclosed]
    · have htraffic : c.callTraffic .trySend sends = c.trySendTraffic sends := by
        simp [callTraffic, hclosed]
      simp only [call, if_neg hclosed]
      exact trySend_channel (htraffic ▸ unset)
  | processInWorker => exact processInWorker_channel hwf.read env
  | handleClose => rfl
  | removeConnection => rfl

/-- `HandleWrite` with nothing more to send and no file. -/
theorem driven_writeDone {c : Connection} {functors : List Callback} (hwf : c.readBuffer.Wf) :
    Driven c.writeDone.1 (functors ++ queuedOf c.writeDone.2) :=
  driven_mono (driven_finished (c := disableWriteEvent { c with writeState := .idle }) hwf)
    (List.subset_append_right _ _)

/-- The file part, after `Write` has emptied the buffer of `c`. -/
theorem sendFile_driven {c : Connection} {functors : List Callback} (hwf : c.readBuffer.Wf)
    (driven : Driven c functors) (b : Buffer) (files : Transfers) :
    .removeConnection ∈ queuedOf ((c.writing b).sendFile files).2 ∨
      Driven ((c.writing b).sendFile files).1
        (functors ++ queuedOf ((c.writing b).sendFile files).2) := by
  have hend := sendFile_end (c.writing b) files
  generalize (c.writing b).sendFile files = out at hend ⊢
  cases hend with
  | noFile => exact .inr (driven_writeDone (c := c.writing b) hwf)
  | waiting moves left hopen _ hleft =>
    exact .inr (driven_refused driven rfl rfl rfl rfl (.inr ⟨hopen, hleft⟩)
      (fun hcb => List.mem_append_left _ hcb))
  | failed moves left =>
    left
    rw [queuedOf_append]
    exact List.mem_append_right _ (List.mem_singleton.mpr rfl)
  | drained moves =>
    right
    have hdone : ∀ left : Connection, left.readBuffer = c.readBuffer →
        Driven left.writeDone.1 (functors ++ queuedOf left.writeDone.2) :=
      fun left hleft => driven_writeDone (hleft ▸ hwf)
    refine driven_mono (hdone { c.writing b with sendFileLen := 0, sendFileFd := -1 } rfl) ?_
    rw [queuedOf_append]
    exact List.append_subset.mpr ⟨List.subset_append_left _ _,
      fun cb hcb => List.mem_append_right _ (List.mem_append_right _ hcb)⟩

theorem handleWrite_driven {c : Connection} {functors : List Callback} (hwf : BuffersWf c)
    (driven : Driven c functors) {sends : Transfers} (positive : ∀ n ∈ sends.counts, n ≠ 0)
    (files : Transfers) :
    .removeConnection ∈ queuedOf (c.handleWrite sends files).2 ∨
      Driven (c.handleWrite sends files).1
        (functors ++ queuedOf (c.handleWrite sends files).2) := by
  have hend := handleWrite_end hwf.write sends files
  generalize c.handleWrite sends files = out at hend ⊢
  cases hend with
  | drained b chunks took =>
    rw [queuedOf_append, (silent_sent chunks).2.2, List.nil_append]
    exact sendFile_driven hwf.read driven b files
  | stalled b chunks took _ hstalls =>
    exact absurd ((stalls_positive positive _).symm.trans hstalls) Bool.false_ne_true
  | waiting b chunks took hleft =>
    right
    exact driven_refused driven rfl rfl rfl rfl (.inl hleft)
      (fun hcb => List.mem_append_left _ hcb)
  | failed b chunks took =>
    left
    rw [queuedOf_append]
    exact List.mem_append_right _ (List.mem_singleton.mpr rfl)

theorem writeDone_reading {c : Connection} (reading : c.channel.epollIn = true) :
    c.writeDone.1.channel.epollIn = true :=
  finished_reading (c := disableWriteEvent { c with writeState := .idle }) reading

theorem handleWrite_reading {c : Connection} (hwf : BuffersWf c)
    (reading : c.channel.epollIn = true) (sends files : Transfers) :
    (c.handleWrite sends files).1.channel.epollIn = true := by
  have hend := handleWrite_end hwf.write sends files
  generalize c.handleWrite sends files = out at hend ⊢
  cases hend with
  | drained b =>
    have hfile := sendFile_end (c.writing b) files
    show ((c.writing b).sendFile files).1.channel.epollIn = true
    generalize (c.writing b).sendFile files = out at hfile ⊢
    cases hfile with
    | noFile => exact writeDone_reading (c := c.writing b) reading
    | waiting => exact reading
    | failed => exact reading
    | drained =>
      exact writeDone_reading (c := { c.writing b with sendFileLen := 0, sendFileFd := -1 }) reading
  | stalled b => exact finished_reading (c := c.unfinished b) reading
  | waiting => exact reading
  | failed => exact reading

/-- `HandleWrite` skips `UpdateChannel` only when `sendfile` fails. -/
theorem handleWrite_channel {c : Connection} {sends files : Transfers}
    (unset : (c.handleWriteTraffic sends files).updated = false) :
    (c.handleWrite sends files).1.channel = c.channel := by
  rcases hout : writeLoop sends.errno sends.counts c.writeBuffer with ⟨result, b, fx⟩
  simp only [handleWriteTraffic, write, hout] at unset
  by_cases hfile : b.readableBytes = 0 ∧ 0 ≤ c.sendFileFd
  · rw [if_pos hfile] at unset
    rcases hloop : sendfileLoop files.errno files.counts 0 c.sendFileLen with ⟨end', left, moves⟩
    rw [hloop] at unset
    cases end' with
    | complete => cases unset
    | again => cases unset
    | error =>
      simp [handleWrite, write, hout, hfile.1, sendFile, hfile.2, hloop, handleWriteResult,
        handleClose]
  · rw [if_neg hfile] at unset
    cases unset

/-- `HandleWrite` sets the watch, or has given the connection up. -/
theorem handleWrite_unset {c : Connection} {sends files : Transfers}
    (unset : (c.handleWriteTraffic sends files).updated = false) :
    .removeConnection ∈ queuedOf (c.handleWrite sends files).2 := by
  rcases hout : writeLoop sends.errno sends.counts c.writeBuffer with ⟨result, b, fx⟩
  simp only [handleWriteTraffic, write, hout] at unset
  by_cases hfile : b.readableBytes = 0 ∧ 0 ≤ c.sendFileFd
  · rw [if_pos hfile] at unset
    rcases hloop : sendfileLoop files.errno files.counts 0 c.sendFileLen with ⟨end', left, moves⟩
    rw [hloop] at unset
    cases end' with
    | complete => cases unset
    | again => cases unset
    | error =>
      simp [handleWrite, write, hout, hfile.1, sendFile, hfile.2, hloop, handleWriteResult,
        handleClose, queuedOf]
  · rw [if_neg hfile] at unset
    cases unset

end Connection

end WebServer
