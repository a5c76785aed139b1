import WebServer.ParserStream
import WebServer.ReplyCases

/-!
# What the handlers do

One description for each loop over a system call and for each way a handler can
end, stated about the connection it leaves and the effects it had. Results about
runs read these and never unfold a handler.
-/

namespace WebServer

/-! ## Reading a list of effects -/

def receivedOf (fx : List Effect) : Str :=
  fx.flatMap fun | .received data => data | _ => []

def sentOf (fx : List Effect) : Str :=
  fx.flatMap fun | .sent bytes => bytes | _ => []

def responsesOf (fx : List Effect) : List Str :=
  fx.filterMap fun | .responded bytes _ => some bytes | _ => none

def queuedOf (fx : List Effect) : List Callback :=
  fx.filterMap fun | .queued cb => some cb | _ => none

@[simp] theorem receivedOf_append (fx fx' : List Effect) :
    receivedOf (fx ++ fx') = receivedOf fx ++ receivedOf fx' := List.flatMap_append

@[simp] theorem sentOf_append (fx fx' : List Effect) :
    sentOf (fx ++ fx') = sentOf fx ++ sentOf fx' := List.flatMap_append

@[simp] theorem responsesOf_append (fx fx' : List Effect) :
    responsesOf (fx ++ fx') = responsesOf fx ++ responsesOf fx' := List.filterMap_append

@[simp] theorem queuedOf_append (fx fx' : List Effect) :
    queuedOf (fx ++ fx') = queuedOf fx ++ queuedOf fx' := List.filterMap_append

/-- Effects that only concern bytes already answered: nothing is read, answered or queued. -/
def Silent (fx : List Effect) : Prop :=
  receivedOf fx = [] ∧ responsesOf fx = [] ∧ queuedOf fx = []

@[simp] theorem receivedOf_received (packets : List Str) :
    receivedOf (packets.map .received) = packets.flatten := by
  simp [receivedOf, List.flatMap_map, List.flatMap_id']

@[simp] theorem sentOf_sent (chunks : List Str) :
    sentOf (chunks.map .sent) = chunks.flatten := by
  simp [sentOf, List.flatMap_map, List.flatMap_id']

theorem silent_sent (chunks : List Str) : Silent (chunks.map .sent) := by
  simp [Silent, receivedOf, responsesOf, queuedOf, List.flatMap_map, List.filterMap_map]

/-- The effects of a request that is answered from memory. -/
def answerEffects (p : Reply) : List Effect :=
  .parsed .complete :: (p.opened.map .opened ++ [.responded p.bytes none]) ++ [.queued .trySend]

theorem answerEffects_spec (p : Reply) : receivedOf (answerEffects p) = [] ∧
    sentOf (answerEffects p) = [] ∧ responsesOf (answerEffects p) = [p.bytes] ∧
    queuedOf (answerEffects p) = [.trySend] := by
  simp [answerEffects, receivedOf, responsesOf, queuedOf, sentOf, List.flatMap_map,
    List.filterMap_map]

theorem received_only (packets : List Str) : sentOf (packets.map .received) = [] ∧
    responsesOf (packets.map .received) = [] ∧ queuedOf (packets.map .received) = [] := by
  simp [responsesOf, queuedOf, sentOf, List.flatMap_map, List.filterMap_map]

/-! ## The loops over system calls -/

/-- The calls accept all of `len` bytes. -/
def covers : List Nat → Nat → Bool
  | _, 0 => true
  | [], _ + 1 => false
  | n :: rest, len + 1 => n ≠ 0 && covers rest (len + 1 - n)

/-- A call answers zero while some of the `len` bytes are still to be accepted. -/
def stalls : List Nat → Nat → Bool
  | _, 0 => false
  | [], _ + 1 => false
  | n :: rest, len + 1 => n = 0 || stalls rest (len + 1 - n)

theorem stalls_positive {counts : List Nat} (h : ∀ n ∈ counts, n ≠ 0) (len : Nat) :
    stalls counts len = false := by
  induction counts generalizing len with
  | nil => cases len <;> rfl
  | cons n rest ih =>
    obtain ⟨hn, hrest⟩ := List.forall_mem_cons.mp h
    cases len with
    | zero => rfl
    | succ len => simp [stalls, hn, ih hrest]

namespace Connection

structure WriteSpec (errno : Errno) (counts : List Nat) (b : Buffer)
    (out : WriteResult × Buffer × List Effect) : Prop where
  wf : out.2.1.Wf
  chunks : ∃ chunks : List Str, out.2.2 = chunks.map .sent ∧
    chunks.flatten ++ out.2.1.peekReadable = b.peekReadable
  drained : out.2.1.readableBytes = 0 ↔ covers counts b.readableBytes = true
  complete : out.1 = .complete ↔
    covers counts b.readableBytes = true ∨ stalls counts b.readableBytes = true
  error : out.1 = .error → errno = .other

theorem writeLoop_spec (errno : Errno) (counts : List Nat) {b : Buffer} (hb : b.Wf) :
    WriteSpec errno counts b (writeLoop errno counts b) := by
  induction counts generalizing b with
  | nil =>
    by_cases hempty : b.readableBytes = 0
    · rw [writeLoop, if_pos hempty]
      exact ⟨hb, ⟨[], rfl, rfl⟩, by simp [hempty, covers], by simp [hempty, covers], by simp⟩
    · rw [writeLoop, if_neg hempty]
      obtain ⟨len, hlen⟩ := Nat.exists_eq_succ_of_ne_zero hempty
      refine ⟨hb, ⟨[], rfl, rfl⟩, by simp [hlen, covers], ?_, ?_⟩
      · simp only [hlen, covers, stalls]
        cases errno <;> simp
      · cases errno <;> simp
  | cons n rest ih =>
    by_cases hempty : b.readableBytes = 0
    · rw [writeLoop, if_pos hempty]
      exact ⟨hb, ⟨[], rfl, rfl⟩, by simp [hempty, covers], by simp [hempty, covers], by simp⟩
    · obtain ⟨len, hlen⟩ := Nat.exists_eq_succ_of_ne_zero hempty
      by_cases hzero : n = 0
      · rw [writeLoop, if_neg hempty, if_pos hzero]
        exact ⟨hb, ⟨[], rfl, rfl⟩, by simp [hlen, covers, hzero], by simp [hlen, stalls, hzero],
          by simp⟩
      · rw [writeLoop, if_neg hempty, if_neg hzero]
        have hwf := Buffer.consume_wf hb (min n b.readableBytes)
        obtain ⟨hrest, ⟨chunks, hfx, hbytes⟩, hdrained, hcomplete, herror⟩ := ih hwf
        have hleft : (b.consume (min n b.readableBytes)).readableBytes = b.readableBytes - n := by
          rw [← Buffer.peekReadable_length hwf, Buffer.consume_peekReadable hb,
            List.length_drop, Buffer.peekReadable_length hb]
          omega
        rw [hleft] at hdrained hcomplete
        have hcovers : covers (n :: rest) b.readableBytes = covers rest (b.readableBytes - n) := by
          simp [hlen, covers, hzero]
        have hstalls : stalls (n :: rest) b.readableBytes = stalls rest (b.readableBytes - n) := by
          simp [hlen, stalls, hzero]
        refine ⟨hrest, ⟨b.peekReadable.take (min n b.readableBytes) :: chunks, ?_, ?_⟩, ?_, ?_,
          herror⟩
        · simp only [Buffer.retrieve, hfx, List.map_cons, Nat.min_assoc, Nat.min_self]
        · rw [List.flatten_cons, List.append_assoc]
          exact (congrArg _ (hbytes.trans (Buffer.consume_peekReadable hb _))).trans
            (List.take_append_drop _ _)
        · rw [hcovers]
          exact hdrained
        · rw [hcovers, hstalls]
          exact hcomplete

structure ReadSpec (b : Buffer) (out : ReadResult × Buffer × List Effect) : Prop where
  wf : out.2.1.Wf
  packets : ∃ packets : List Str, out.2.2 = packets.map .received ∧
    out.2.1.peekReadable = b.peekReadable ++ packets.flatten

theorem readLoop_spec (errno : Errno) (packets : List Packet) {b : Buffer} (hb : b.Wf) :
    ReadSpec b (readLoop errno packets b) := by
  induction packets generalizing b with
  | nil =>
    by_cases hfull : maxReadBufferSize ≤ b.readableBytes
    · rw [readLoop, if_pos hfull]
      exact ⟨hb, [], rfl, (List.append_nil _).symm⟩
    · rw [readLoop, if_neg hfull]
      exact ⟨hb, [], rfl, (List.append_nil _).symm⟩
  | cons p rest ih =>
    by_cases hfull : maxReadBufferSize ≤ b.readableBytes
    · rw [readLoop, if_pos hfull]
      exact ⟨hb, [], rfl, (List.append_nil _).symm⟩
    · by_cases hclosed : p.data = []
      · rw [readLoop, if_neg hfull, if_pos hclosed]
        exact ⟨hb, [], rfl, (List.append_nil _).symm⟩
      · rw [readLoop, if_neg hfull, if_neg hclosed]
        obtain ⟨hwf, packets, hfx, hbytes⟩ := ih (Buffer.append_wf hb p.data)
        refine ⟨hwf, p.data :: packets, ?_, ?_⟩
        · simp only [hfx, List.map_cons]
        · exact hbytes.trans (by rw [Buffer.append_peekReadable hb, List.flatten_cons,
            List.append_assoc])

/-- The bytes moved and the bytes left add up, and only a finished loop leaves none. -/
structure SendfileSpec (counts : List Nat) (left : Nat) (out : WriteResult × Nat × List Effect) :
    Prop where
  moves : ∃ moves : List (Nat × Nat),
    out.2.2 = moves.map (fun move => .transferred move.1 move.2) ∧
    (moves.map Prod.snd).sum + out.2.1 = left
  complete : out.1 = .complete ↔ out.2.1 = 0
  left : out.2.1 = left - counts.sum

theorem sendfileLoop_spec (errno : Errno) (counts : List Nat) (offset left : Nat) :
    SendfileSpec counts left (sendfileLoop errno counts offset left) := by
  induction counts generalizing offset left with
  | nil =>
    by_cases hnone : left = 0
    · rw [sendfileLoop, if_pos hnone]
      exact ⟨⟨[], rfl, Nat.zero_add _⟩, iff_of_true rfl hnone, rfl⟩
    · rw [sendfileLoop, if_neg hnone]
      refine ⟨⟨[], rfl, Nat.zero_add _⟩, iff_of_false ?_ hnone, rfl⟩
      cases errno <;> simp
  | cons n rest ih =>
    by_cases hnone : left = 0
    · rw [sendfileLoop, if_pos hnone]
      have hleft : left = left - (n :: rest).sum := by omega
      exact ⟨⟨[], rfl, Nat.zero_add _⟩, iff_of_true rfl hnone, hleft⟩
    · rw [sendfileLoop, if_neg hnone]
      obtain ⟨⟨moves, hfx, hsum⟩, hcomplete, hleft⟩ := ih (offset + min n left) (left - min n left)
      refine ⟨⟨(offset, min n left) :: moves, ?_, ?_⟩, hcomplete, ?_⟩
      · simp only [hfx, List.map_cons]
      · rw [List.map_cons, List.sum_cons, Nat.add_assoc]
        exact (congrArg (min n left + ·) hsum).trans (Nat.add_sub_of_le (Nat.min_le_right _ _))
      · rw [List.sum_cons]
        exact hleft.trans (by omega)

/-! ## How a handler can end -/

structure BuffersWf (c : Connection) : Prop where
  read : c.readBuffer.Wf
  write : c.writeBuffer.Wf

/-- The chunks went out of the write buffer in order and left `b`. -/
structure Took (c : Connection) (b : Buffer) (chunks : List Str) : Prop where
  wf : b.Wf
  bytes : chunks.flatten ++ b.peekReadable = c.writeBuffer.peekReadable

inductive TrySendEnd (c : Connection) (sends : Transfers) : Connection × List Effect → Prop where
  | finished (b : Buffer) (chunks : List Str) : Took c b chunks →
      (b.readableBytes = 0 ∨ stalls sends.counts c.writeBuffer.readableBytes = true) →
      (b.readableBytes = 0 → covers sends.counts c.writeBuffer.readableBytes = true) →
      TrySendEnd c sends ({ c with writeBuffer := b }.onResponseFinished.2.1,
        chunks.map .sent ++ { c with writeBuffer := b }.onResponseFinished.2.2)
  | waiting (b : Buffer) (chunks : List Str) : Took c b chunks → b.readableBytes ≠ 0 →
      TrySendEnd c sends (enableWriteEvent { c with writeBuffer := b }, chunks.map .sent)
  | failed (b : Buffer) (chunks : List Str) : Took c b chunks → b.readableBytes ≠ 0 →
      sends.errno = .other →
      TrySendEnd c sends ({ c with writeBuffer := b },
        chunks.map .sent ++ [.queued .removeConnection])

theorem trySend_end {c : Connection} (hwf : c.writeBuffer.Wf) (sends : Transfers) :
    TrySendEnd c sends (c.trySend sends) := by
  obtain ⟨hb, ⟨chunks, hfx, hbytes⟩, hdrained, hcomplete, herror⟩ :=
    writeLoop_spec sends.errno sends.counts hwf
  rcases hout : writeLoop sends.errno sends.counts c.writeBuffer with ⟨result, b, fx⟩
  rw [hout] at hb hfx hbytes hdrained hcomplete herror
  obtain rfl : fx = chunks.map .sent := hfx
  have htook : Took c b chunks := ⟨hb, hbytes⟩
  have hsent : c.trySend sends = (({ c with writeBuffer := b }.handleWriteResult result).1,
      chunks.map .sent ++ ({ c with writeBuffer := b }.handleWriteResult result).2) := by
    simp only [trySend, write, hout]
  have hshort : result ≠ .complete → b.readableBytes ≠ 0 :=
    fun hne hzero => hne (hcomplete.mpr (Or.inl (hdrained.mp hzero)))
  rw [hsent]
  cases result with
  | complete =>
    refine .finished b chunks htook ?_ hdrained.mp
    rcases hcomplete.mp rfl with hcovers | hstalls
    · exact Or.inl (hdrained.mpr hcovers)
    · exact Or.inr hstalls
  | again =>
    simp only [handleWriteResult, List.append_nil]
    exact .waiting b chunks htook (hshort (by simp))
  | error => exact .failed b chunks htook (hshort (by simp)) (herror rfl)

inductive SendFileEnd (c : Connection) (files : Transfers) :
    Connection × List Effect → Prop where
  | noFile : c.sendFileFd < 0 → SendFileEnd c files c.writeDone
  | waiting (moves : List (Nat × Nat)) (left : Nat) : 0 ≤ c.sendFileFd →
      (moves.map Prod.snd).sum + left = c.sendFileLen → left ≠ 0 →
      SendFileEnd c files
        ({ enableWriteEvent { c with sendFileLen := left } with writeState := .pending },
          moves.map fun move => .transferred move.1 move.2)
  | failed (moves : List (Nat × Nat)) (left : Nat) : 0 ≤ c.sendFileFd →
      (moves.map Prod.snd).sum + left = c.sendFileLen → left ≠ 0 →
      SendFileEnd c files
        ({ c with sendFileLen := left, sendFileFd := -1 },
          (moves.map fun move => .transferred move.1 move.2) ++
            [.discarded .failed left, .queued .removeConnection])
  | drained (moves : List (Nat × Nat)) : 0 ≤ c.sendFileFd →
      (moves.map Prod.snd).sum = c.sendFileLen → c.sendFileLen ≤ files.counts.sum →
      SendFileEnd c files
        ((writeDone { c with sendFileLen := 0, sendFileFd := -1 }).1,
          (moves.map fun move => .transferred move.1 move.2) ++
            .discarded .drained 0 :: (writeDone { c with sendFileLen := 0, sendFileFd := -1 }).2)

theorem sendFile_end (c : Connection) (files : Transfers) :
    SendFileEnd c files (c.sendFile files) := by
  by_cases hopen : 0 ≤ c.sendFileFd
  · obtain ⟨⟨moves, hfx, hsum⟩, hcomplete, hleft⟩ :=
      sendfileLoop_spec files.errno files.counts 0 c.sendFileLen
    rcases hout : sendfileLoop files.errno files.counts 0 c.sendFileLen with ⟨result, left, fx⟩
    rw [hout] at hfx hsum hcomplete hleft
    obtain rfl : fx = moves.map fun move => .transferred move.1 move.2 := hfx
    cases result with
    | complete =>
      obtain rfl : left = 0 := hcomplete.mp rfl
      simp only [sendFile, if_pos hopen, hout]
      exact .drained moves hopen hsum (Nat.sub_eq_zero_iff_le.mp hleft.symm)
    | again =>
      simp only [sendFile, if_pos hopen, hout]
      exact .waiting moves left hopen hsum (fun hzero => by cases hcomplete.mpr hzero)
    | error =>
      simp only [sendFile, if_pos hopen, hout]
      exact .failed moves left hopen hsum (fun hzero => by cases hcomplete.mpr hzero)
  · rw [sendFile, if_neg hopen]
    exact .noFile (Int.not_le.mp hopen)

/-- The connection inside `HandleWrite` once some bytes are out. -/
def writing (c : Connection) (b : Buffer) : Connection :=
  { c with writeState := .writing, writeBuffer := b }

/-- The connection inside `HandleWrite` that goes on waiting for EPOLLOUT. -/
def unfinished (c : Connection) (b : Buffer) : Connection :=
  enableWriteEvent { c.writing b with writeState := .pending }

inductive HandleWriteEnd (c : Connection) (sends files : Transfers) :
    Connection × List Effect → Prop where
  | drained (b : Buffer) (chunks : List Str) : Took c b chunks → b.readableBytes = 0 →
      covers sends.counts c.writeBuffer.readableBytes = true →
      HandleWriteEnd c sends files (((c.writing b).sendFile files).1,
        chunks.map .sent ++ ((c.writing b).sendFile files).2)
  | stalled (b : Buffer) (chunks : List Str) : Took c b chunks → b.readableBytes ≠ 0 →
      stalls sends.counts c.writeBuffer.readableBytes = true →
      HandleWriteEnd c sends files ((c.unfinished b).onResponseFinished.2.1,
        chunks.map .sent ++ (c.unfinished b).onResponseFinished.2.2)
  | waiting (b : Buffer) (chunks : List Str) : Took c b chunks → b.readableBytes ≠ 0 →
      HandleWriteEnd c sends files (c.unfinished b, chunks.map .sent)
  | failed (b : Buffer) (chunks : List Str) : Took c b chunks → b.readableBytes ≠ 0 →
      sends.errno = .other →
      HandleWriteEnd c sends files
        (c.unfinished b, chunks.map .sent ++ [.queued .removeConnection])

theorem handleWrite_end {c : Connection} (hwf : c.writeBuffer.Wf) (sends files : Transfers) :
    HandleWriteEnd c sends files (c.handleWrite sends files) := by
  obtain ⟨hb, ⟨chunks, hfx, hbytes⟩, hdrained, hcomplete, herror⟩ :=
    writeLoop_spec sends.errno sends.counts hwf
  rcases hout : writeLoop sends.errno sends.counts c.writeBuffer with ⟨result, b, fx⟩
  rw [hout] at hb hfx hbytes hdrained hcomplete herror
  obtain rfl : fx = chunks.map .sent := hfx
  have htook : Took c b chunks := ⟨hb, hbytes⟩
  by_cases hempty : b.readableBytes = 0
  · simp only [handleWrite, write, hout, if_pos hempty]
    exact .drained b chunks htook hempty (hdrained.mp hempty)
  · simp only [handleWrite, write, hout, if_neg hempty]
    cases result with
    | complete =>
      refine .stalled b chunks htook hempty ?_
      rcases hcomplete.mp rfl with hcovers | hstalls
      · exact absurd (hdrained.mpr hcovers) hempty
      · exact hstalls
    | again =>
      simp only [handleWriteResult, List.append_nil]
      exact .waiting b chunks htook hempty
    | error => exact .failed b chunks htook hempty (herror rfl)

inductive HandleReadEnd (c : Connection) (env : Env) (arrival : Arrival) :
    Connection × List Effect → Prop where
  | closing (b : Buffer) (packets : List Str) : b.Wf →
      b.peekReadable = c.readBuffer.peekReadable ++ packets.flatten →
      (c.read arrival).1 ≠ .success →
      HandleReadEnd c env arrival
        ({ c with readBuffer := b }, packets.map .received ++ [.queued .removeConnection])
  | reading (b : Buffer) (packets : List Str) : b.Wf →
      b.peekReadable = c.readBuffer.peekReadable ++ packets.flatten →
      (c.read arrival).1 = .success → c.state ≠ .connected →
      HandleReadEnd c env arrival ({ c with readBuffer := b }, packets.map .received)
  | processing (b : Buffer) (packets : List Str) : b.Wf →
      b.peekReadable = c.readBuffer.peekReadable ++ packets.flatten →
      (c.read arrival).1 = .success → c.state = .connected →
      (c.read arrival).2.1 = { c with readBuffer := b } →
      HandleReadEnd c env arrival
        ((processInWorker { c with readBuffer := b, state := .processing } env).1,
          packets.map .received ++
            (processInWorker { c with readBuffer := b, state := .processing } env).2)

theorem handleRead_end {c : Connection} (hwf : c.readBuffer.Wf) (env : Env) (arrival : Arrival) :
    HandleReadEnd c env arrival (c.handleRead env arrival) := by
  obtain ⟨hb, packets, hfx, hbytes⟩ := readLoop_spec arrival.errno arrival.packets hwf
  rcases hout : readLoop arrival.errno arrival.packets c.readBuffer with ⟨result, b, fx⟩
  rw [hout] at hb hfx hbytes
  obtain rfl : fx = packets.map .received := hfx
  have hread : c.read arrival = (result, { c with readBuffer := b }, packets.map .received) := by
    simp only [read, hout]
  cases result with
  | success =>
    have hsuccess : (c.read arrival).1 = .success := by rw [hread]
    by_cases hstate : c.state = .connected
    · simp only [handleRead, hread, if_pos hstate]
      exact .processing b packets hb hbytes hsuccess hstate (by rw [hread])
    · simp only [handleRead, hread, if_neg hstate]
      exact .reading b packets hb hbytes hsuccess hstate
  | closed =>
    simp only [handleRead, hread]
    exact .closing b packets hb hbytes (by simp [hread])
  | error =>
    simp only [handleRead, hread]
    exact .closing b packets hb hbytes (by simp [hread])

inductive ProcessEnd (c : Connection) (env : Env) : Connection × List Effect → Prop where
  | incomplete (ctx : HttpContext) (rest : Buffer) : rest.Wf →
      c.parsed = (.incomplete, ctx, rest) →
      ProcessEnd c env
        ({ c with context := ctx, readBuffer := rest, state := .connected }, [.parsed .incomplete])
  | error (ctx : HttpContext) (rest : Buffer) : rest.Wf → c.parsed = (.error, ctx, rest) →
      ProcessEnd c env
        ({ c with
            context := ctx
            readBuffer := rest
            response := badRequest c.response
            state := .closed },
          [.parsed .error, .queued .handleClose])
  | complete (ctx : HttpContext) (rest : Buffer) : rest.Wf → c.parsed = (.complete, ctx, rest) →
      ProcessEnd c env
        ({ ({ c with context := ctx, readBuffer := rest }.store env
            (reply env c.resourceDir c.router ctx.request c.response)).1 with state := .writing },
          .parsed .complete :: ({ c with context := ctx, readBuffer := rest }.store env
            (reply env c.resourceDir c.router ctx.request c.response)).2 ++ [.queued .trySend])

theorem processInWorker_end {c : Connection} (hwf : c.readBuffer.Wf) (env : Env) :
    ProcessEnd c env (c.processInWorker env) := by
  have hrest := (c.context.parseRequest_drives hwf).1
  rcases hparsed : c.parsed with ⟨result, ctx, rest⟩
  have hparse : c.context.parseRequest c.readBuffer = (result, ctx, rest) := hparsed
  rw [hparse] at hrest
  cases result with
  | incomplete =>
    simp only [processInWorker, process, hparse]
    exact .incomplete ctx rest hrest hparsed
  | error =>
    simp only [processInWorker, process, hparse]
    exact .error ctx rest hrest hparsed
  | complete =>
    simp only [processInWorker, process, hparse]
    exact .complete ctx rest hrest hparsed

inductive FinishEnd (c : Connection) : Connection × List Effect → Prop where
  | kept : c.isKeepAlive = true →
      FinishEnd c (c.resetForNextRequest.1,
        .finished c.writeBuffer.readableBytes :: c.resetForNextRequest.2 ++
          if c.hasPendingRequest then [.queued .processInWorker] else [])
  | closed : c.isKeepAlive = false →
      FinishEnd c ({ c with state := .closed }, [.finished c.writeBuffer.readableBytes])

theorem resetForNextRequest_readBuffer (c : Connection) :
    c.resetForNextRequest.1.readBuffer = c.readBuffer := by
  by_cases h : 0 ≤ c.sendFileFd <;> simp [resetForNextRequest, enableReadEvent, h]

theorem resetForNextRequest_noFile {c : Connection} (h : c.sendFileFd < 0) :
    c.resetForNextRequest = (enableReadEvent { c with
      context := .reset
      response := .reset
      writeBuffer := c.writeBuffer.clear
      state := .connected }, []) := by
  simp only [resetForNextRequest, if_neg (Int.not_le.mpr h), Buffer.retrieveAll]

theorem store_noFile {c : Connection} {env : Env} {p : Reply} (h : p.file = none) :
    c.store env p = ({ c with response := p.response, writeBuffer := c.writeBuffer.append p.bytes },
      p.opened.map .opened ++ [.responded p.bytes none]) := by
  simp only [store, h, Option.map_none]

theorem onResponseFinished_end (c : Connection) : FinishEnd c c.onResponseFinished.2 := by
  by_cases hkeep : c.isKeepAlive = true
  · have hpending : c.resetForNextRequest.1.hasPendingRequest = c.hasPendingRequest := by
      rw [hasPendingRequest, resetForNextRequest_readBuffer, hasPendingRequest]
    simp only [onResponseFinished, if_pos hkeep, hpending]
    exact .kept hkeep
  · simp only [onResponseFinished, if_neg hkeep]
    exact .closed (by simpa using hkeep)

/-! ## The buffers stay well formed -/

theorem buffersWf_onResponseFinished {c : Connection} (h : BuffersWf c) :
    BuffersWf c.onResponseFinished.2.1 := by
  have hend := onResponseFinished_end c
  generalize c.onResponseFinished.2 = out at hend ⊢
  cases hend with
  | kept =>
    refine ⟨resetForNextRequest_readBuffer c ▸ h.read, ?_⟩
    by_cases hopen : 0 ≤ c.sendFileFd <;>
      simp [resetForNextRequest, enableReadEvent, hopen, Buffer.retrieveAll, Buffer.clear_wf]
  | closed => exact ⟨h.read, h.write⟩

theorem buffersWf_writeDone {c : Connection} (h : BuffersWf c) : BuffersWf c.writeDone.1 :=
  buffersWf_onResponseFinished (c := disableWriteEvent { c with writeState := .idle })
    ⟨h.read, h.write⟩

theorem buffersWf_sendFile {c : Connection} (h : BuffersWf c) (files : Transfers) :
    BuffersWf (c.sendFile files).1 := by
  have hend := sendFile_end c files
  generalize c.sendFile files = out at hend ⊢
  cases hend with
  | noFile => exact buffersWf_writeDone h
  | waiting => exact ⟨h.read, h.write⟩
  | failed => exact ⟨h.read, h.write⟩
  | drained => exact buffersWf_writeDone ⟨h.read, h.write⟩

theorem buffersWf_handleWrite {c : Connection} (h : BuffersWf c) (sends files : Transfers) :
    BuffersWf (c.handleWrite sends files).1 := by
  have hend := handleWrite_end h.write sends files
  generalize c.handleWrite sends files = out at hend ⊢
  cases hend with
  | drained b chunks took =>
    exact buffersWf_sendFile (c := c.writing b) ⟨h.read, took.wf⟩ files
  | stalled b chunks took =>
    exact buffersWf_onResponseFinished (c := c.unfinished b) ⟨h.read, took.wf⟩
  | waiting b chunks took => exact ⟨h.read, took.wf⟩
  | failed b chunks took => exact ⟨h.read, took.wf⟩

theorem buffersWf_trySend {c : Connection} (h : BuffersWf c) (sends : Transfers) :
    BuffersWf (c.trySend sends).1 := by
  have hend := trySend_end h.write sends
  generalize c.trySend sends = out at hend ⊢
  cases hend with
  | finished b chunks took => exact buffersWf_onResponseFinished ⟨h.read, took.wf⟩
  | waiting b chunks took => exact ⟨h.read, took.wf⟩
  | failed b chunks took => exact ⟨h.read, took.wf⟩

theorem buffersWf_processInWorker {c : Connection} (h : BuffersWf c) (env : Env) :
    BuffersWf (c.processInWorker env).1 := by
  have hend := processInWorker_end h.read env
  generalize c.processInWorker env = out at hend ⊢
  cases hend with
  | incomplete ctx rest hrest => exact ⟨hrest, h.write⟩
  | error ctx rest hrest => exact ⟨hrest, h.write⟩
  | complete ctx rest hrest =>
    constructor
    · generalize reply env c.resourceDir c.router ctx.request c.response = p
      cases hfile : p.file <;> simpa [store, hfile] using hrest
    · exact store_writeBuffer _ env _ ▸ Buffer.append_wf h.write _

theorem buffersWf_handleRead {c : Connection} (h : BuffersWf c) (env : Env) (arrival : Arrival) :
    BuffersWf (c.handleRead env arrival).1 := by
  have hend := handleRead_end h.read env arrival
  generalize c.handleRead env arrival = out at hend ⊢
  cases hend with
  | closing b packets hb => exact ⟨hb, h.write⟩
  | reading b packets hb => exact ⟨hb, h.write⟩
  | processing b packets hb =>
    exact buffersWf_processInWorker (c := { c with readBuffer := b, state := .processing })
      ⟨hb, h.write⟩ env

theorem buffersWf_call {c : Connection} (h : BuffersWf c) (cb : Callback) (env : Env)
    (sends : Transfers) : BuffersWf (c.call cb env sends).1 := by
  cases cb with
  | trySend =>
    by_cases hclosed : c.state = .closed
    · simpa only [call, if_pos hclosed] using h
    · simpa only [call, if_neg hclosed] using buffersWf_trySend h sends
  | processInWorker => exact buffersWf_processInWorker h env
  | handleClose => exact h
  | removeConnection => exact h

theorem buffersWf_close {c : Connection} (h : BuffersWf c) : BuffersWf c.close.1 := by
  by_cases hopen : 0 ≤ c.sendFileFd
  · simpa only [close, if_pos hopen] using ⟨h.read, h.write⟩
  · simpa only [close, if_neg hopen] using ⟨h.read, h.write⟩

end Connection

end WebServer
