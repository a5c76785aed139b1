import WebServer.ConnectionRuns

/-!
# The closed state

After a close the queue may still hold functors, and EPOLLOUT may still be reported.
The sending functor looks at the state before it acts; `ProcessInWorker` and
`HandleWrite` do not. `Harmless` excludes exactly the steps in which one of these two
works on a closed connection. File bytes moved by sendfile do not count as work
here, since they never pass through the write buffer.
-/

namespace WebServer

open Connection

/-- Parsing, answering, or sending from the write buffer. -/
def Effect.works : Effect → Bool
  | .parsed _ => true
  | .responded _ _ => true
  | .sent _ => true
  | _ => false

namespace Connection

theorem writeLoop_empty (errno : Errno) (counts : List Nat) {b : Buffer}
    (h : b.readableBytes = 0) : writeLoop errno counts b = (.complete, b, []) := by
  cases counts with
  | nil => rw [writeLoop, if_pos h]
  | cons n rest => rw [writeLoop, if_pos h]

theorem handleWrite_empty {c : Connection} (h : c.writeBuffer.readableBytes = 0)
    (sends files : Transfers) :
    c.handleWrite sends files = (c.writing c.writeBuffer).sendFile files := by
  simp only [handleWrite, write, writeLoop_empty sends.errno sends.counts h, if_pos h,
    List.nil_append]
  rfl

/-- The connection does no work and is closed afterwards. -/
structure Rests (c : Connection) (out : Connection × List Effect) : Prop where
  state : out.1.state = .closed
  writeBuffer : out.1.writeBuffer = c.writeBuffer
  idle : ∀ e ∈ out.2, e.works = false

theorem rests_writeDone {c : Connection} (hkeep : c.isKeepAlive = false) : Rests c c.writeDone := by
  have hend := onResponseFinished_end (disableWriteEvent { c with writeState := .idle })
  have hdone : c.writeDone =
      (disableWriteEvent { c with writeState := .idle }).onResponseFinished.2 := rfl
  rw [hdone]
  generalize (disableWriteEvent { c with writeState := .idle }).onResponseFinished.2 = out at hend ⊢
  cases hend with
  | kept hkept => exact absurd (hkeep.symm.trans hkept) Bool.false_ne_true
  | closed =>
    refine ⟨rfl, rfl, ?_⟩
    simp [Effect.works]

theorem rests_sendFile {c : Connection} (hclosed : c.state = .closed)
    (hkeep : c.isKeepAlive = false) (files : Transfers) : Rests c (c.sendFile files) := by
  have hmoves : ∀ moves : List (Nat × Nat), ∀ e ∈ moves.map
      (fun move => Effect.transferred move.1 move.2), e.works = false := by
    intro moves e he
    obtain ⟨move, -, rfl⟩ := List.mem_map.mp he
    rfl
  have hend := sendFile_end c files
  generalize c.sendFile files = out at hend ⊢
  cases hend with
  | noFile => exact rests_writeDone hkeep
  | waiting moves left => exact ⟨hclosed, rfl, hmoves moves⟩
  | failed moves left =>
    exact ⟨hclosed, rfl, List.forall_mem_append.mpr ⟨hmoves moves, by simp [Effect.works]⟩⟩
  | drained moves =>
    have hdone := rests_writeDone (c := { c with sendFileLen := 0, sendFileFd := -1 }) hkeep
    exact ⟨hdone.state, hdone.writeBuffer, List.forall_mem_append.mpr
      ⟨hmoves moves, List.forall_mem_cons.mpr ⟨rfl, hdone.idle⟩⟩⟩

theorem rests_handleWrite {c : Connection} (hclosed : c.state = .closed)
    (hempty : c.writeBuffer.readableBytes = 0) (hkeep : c.isKeepAlive = false)
    (sends files : Transfers) : Rests c (c.handleWrite sends files) := by
  rw [handleWrite_empty hempty]
  have hrests := rests_sendFile (c := c.writing c.writeBuffer) hclosed hkeep files
  exact ⟨hrests.state, hrests.writeBuffer, hrests.idle⟩

theorem rests_handleRead {c : Connection} (hwf : c.readBuffer.Wf) (hclosed : c.state = .closed)
    (env : Env) (arrival : Arrival) : Rests c (c.handleRead env arrival) := by
  have hpackets : ∀ packets : List Str, ∀ e ∈ packets.map Effect.received, e.works = false := by
    intro packets e he
    obtain ⟨data, -, rfl⟩ := List.mem_map.mp he
    rfl
  have hend := handleRead_end hwf env arrival
  generalize c.handleRead env arrival = out at hend ⊢
  cases hend with
  | closing b packets =>
    exact ⟨hclosed, rfl, List.forall_mem_append.mpr ⟨hpackets packets, by simp [Effect.works]⟩⟩
  | reading b packets => exact ⟨hclosed, rfl, hpackets packets⟩
  | processing b packets _ _ _ hconnected =>
    exact absurd (hclosed.symm.trans hconnected) (by decide)

theorem rests_close {c : Connection} (hclosed : c.state = .closed) : Rests c c.close := by
  by_cases hopen : 0 ≤ c.sendFileFd
  · rw [close, if_pos hopen]
    refine ⟨hclosed, rfl, ?_⟩
    simp [Effect.works]
  · rw [close, if_neg hopen]
    exact ⟨hclosed, rfl, by simp⟩

end Connection

namespace Sys

/-- In the closed state no `ProcessInWorker` functor is run, and `HandleWrite` finds
nothing to send and no request for keep-alive. -/
def Harmless (s : Sys) (a : Act) : Prop :=
  s.conn.state = .closed →
    match a with
    | .run _ _ => s.batch.head? ≠ some .processInWorker
    | .writable _ _ => s.conn.writeBuffer.readableBytes = 0 ∧ s.conn.isKeepAlive = false
    | _ => True

instance (s : Sys) : (a : Act) → Decidable (Harmless s a)
  | .writable _ _ => by unfold Harmless; infer_instance
  | .run _ _ => by unfold Harmless; infer_instance
  | .readable _ _ | .hangup | .swap | .release => .isTrue fun _ => trivial

/-- Nothing was done between two states of a closed connection. -/
structure Rested (s t : Sys) : Prop where
  state : t.conn.state = .closed
  writeBuffer : t.conn.writeBuffer = s.conn.writeBuffer
  log : ∃ fx, t.log = s.log ++ fx ∧ ∀ e ∈ fx, e.works = false

theorem rested_after {s : Sys} {batch : List Callback} {alive : Bool}
    {out : Connection × List Effect} (h : Rests s.conn out) :
    Rested s (after { s with batch, alive } out) :=
  ⟨h.state, h.writeBuffer, out.2, rfl, h.idle⟩

theorem rested_trans {s m t : Sys} (h : Rested s m) (h' : Rested m t) : Rested s t := by
  obtain ⟨fx, hlog, hidle⟩ := h.log
  obtain ⟨fx', hlog', hidle'⟩ := h'.log
  refine ⟨h'.state, h'.writeBuffer.trans h.writeBuffer, fx ++ fx', ?_, ?_⟩
  · rw [hlog', hlog, List.append_assoc]
  · exact List.forall_mem_append.mpr ⟨hidle, hidle'⟩

theorem rested_step {s t : Sys} {a : Act} (hwf : BuffersWf s.conn)
    (hclosed : s.conn.state = .closed) (harmless : Harmless s a) (hstep : s.step a = some t) :
    Rested s t := by
  have hrest : Rests s.conn (s.conn, []) := ⟨hclosed, rfl, by simp⟩
  cases taken_of_step hstep with
  | readable env arrival => exact rested_after (rests_handleRead hwf.read hclosed env arrival)
  | writable sends files =>
    obtain ⟨hempty, hkeep⟩ := harmless hclosed
    exact rested_after (rests_handleWrite hclosed hempty hkeep sends files)
  | hangup => exact rested_after ⟨hclosed, rfl, by simp [handleClose, Effect.works]⟩
  | swap => exact ⟨hclosed, rfl, [], (List.append_nil _).symm, by simp⟩
  | run env sends cb rest hbatch =>
    have hhead : s.batch.head? ≠ some .processInWorker := harmless hclosed
    cases cb with
    | trySend =>
      rw [call, if_pos hclosed]
      exact rested_after hrest
    | processInWorker => exact absurd (by rw [hbatch]; rfl) hhead
    | handleClose => exact rested_after ⟨hclosed, rfl, by simp [call, handleClose, Effect.works]⟩
    | removeConnection => exact rested_after ⟨hclosed, rfl, by simp [call, Effect.works]⟩
  | release => exact rested_after (rests_close hclosed)

/-- In a run whose steps are harmless, a connection that is closed stays closed, and no
step after that parses, answers or sends from the write buffer. -/
theorem closed_stays {c : Connection} (fresh : Fresh c) {as bs : List Act} {s t : Sys}
    (first : exec (start c) as = some s) (closed : s.conn.state = .closed)
    (rest : exec s bs = some t)
    (harmless : GuardedRuns.Guarded step Harmless (start c) (as ++ bs)) : Rested s t := by
  have hlater := GuardedRuns.guarded_append_right harmless first
  have hinv := GuardedRuns.invariant_of_guarded (fun m => BuffersWf m.conn ∧ Rested s m)
    (fun m a m' hm hok hstep => ⟨buffersWf_step hm.1 hstep,
      rested_trans hm.2 (rested_step hm.1 hm.2.state hok hstep)⟩)
    ⟨buffersWf_run fresh first, closed, rfl, [], (List.append_nil _).symm, by simp⟩ hlater rest
  exact hinv.2

/-- After the answer to an HTTP/1.0 request, more bytes and a hang-up change nothing. -/
theorem closed_stays_http10 :
    let env := Env.table [⟨lit "/w", lit "/w", none⟩]
    let c := enableReadEvent (new 5 (lit "/w") none)
    let as := [arrives env (lit "GET /a HTTP/1.0\r\n\r\n") (by decide), .swap, runs env]
    let bs := [arrives env (lit "GET /b HTTP/1.0\r\n\r\n") (by decide), .hangup, .swap, runs env]
    ∃ s t, exec (start c) as = some s ∧ exec s bs = some t ∧ Rested s t := by
  intro env c as bs
  have hclosed : (exec (start c) as).map (fun s => s.conn.state) = some .closed := by
    decide +kernel
  have hruns : (exec (start c) (as ++ bs)).isSome := by decide +kernel
  obtain ⟨s, hs, hstate⟩ := Option.map_eq_some_iff.mp hclosed
  obtain ⟨t, ht⟩ := Option.isSome_iff_exists.mp hruns
  obtain ⟨m, hm, hrest⟩ := (GuardedRuns.exec_append_iff step (start c) t as bs).mp ht
  obtain rfl : s = m := Option.some.inj (hs.symm.trans hm)
  exact ⟨s, t, hs, hrest, closed_stays (fresh_new 5 (lit "/w") none) hs hstate hrest
    (by decide +kernel)⟩

/-- The functor that `OnResponseFinished` queued for the bytes behind a first request
runs after a bad second request has closed the connection, and reconnects it. -/
theorem closed_reconnects :
    let env := Env.table [⟨lit "/w", lit "/w", none⟩]
    let c := enableReadEvent (new 5 (lit "/w") none)
    let as := [arrives env (lit "GET /a HTTP/1.1\r\n\r\nX") (by decide), .swap, runs env,
      arrives env (lit "\r\n") (by decide)]
    Fresh c ∧
      (exec (start c) as).map (fun s => s.conn.state) = some .closed ∧
      (exec (start c) (as ++ [.swap, runs env])).map (fun s => s.conn.state) =
        some .connected := by
  exact ⟨fresh_new 5 (lit "/w") none, by decide +kernel, by decide +kernel⟩

end Sys

end WebServer
