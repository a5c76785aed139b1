import WebServer.ClosedState

/-!
# Bad requests

When the parser fails `Process` fills in a 400 response, but it serialises one only
for a complete request, and `ProcessInWorker` then queues the close. Only answers to
later requests could still join the write buffer: up to the next call of the parser
the socket is handed what was unsent before, and no more.
-/

namespace WebServer

open Connection

def Effect.parses : Effect → Bool
  | .parsed _ => true
  | _ => false

theorem sentOf_mono {fx fx' : List Effect} (h : fx <+: fx') : sentOf fx <+: sentOf fx' := by
  obtain ⟨rest, rfl⟩ := h
  rw [sentOf_append]
  exact List.prefix_append _ _

/-- An effect that does no work sends nothing and does not parse. -/
theorem sentOf_idle {fx : List Effect} (h : ∀ e ∈ fx, e.works = false) :
    sentOf fx = [] ∧ ∀ e ∈ fx, e.parses = false := by
  constructor
  · rw [sentOf, List.flatMap_eq_nil_iff]
    intro e he
    cases e with
    | sent bytes => exact absurd (h _ he) Bool.false_ne_true.symm
    | _ => rfl
  · intro e he
    cases e with
    | parsed result => exact absurd (h _ he) Bool.false_ne_true.symm
    | _ => rfl

namespace Connection

/-- A handler that does not parse, and only sends from what is stored. -/
structure Sends (c : Connection) (out : Connection × List Effect) : Prop where
  bytes : sentOf out.2 ++ out.1.writeBuffer.peekReadable <+: c.writeBuffer.peekReadable
  quiet : ∀ e ∈ out.2, e.parses = false

/-- A handler that parses sends nothing; if the parser fails it stores nothing either. -/
structure Parses (c : Connection) (out : Connection × List Effect) : Prop where
  sent : sentOf out.2 = []
  parsed : ∃ e ∈ out.2, e.parses = true
  failed : Effect.parsed .error ∈ out.2 → out.1.writeBuffer = c.writeBuffer

theorem sends_idle {c : Connection} {out : Connection × List Effect}
    (hidle : ∀ e ∈ out.2, e.works = false) (hbuffer : out.1.writeBuffer = c.writeBuffer) :
    Sends c out := by
  obtain ⟨hsent, hquiet⟩ := sentOf_idle hidle
  refine ⟨?_, hquiet⟩
  rw [hsent, hbuffer, List.nil_append]

/-- Chunks are sent first, and then the handler goes on. -/
theorem sends_chunks {c d e : Connection} {chunks : List Str} {fx : List Effect}
    (took : Took c d.writeBuffer chunks) (hout : Sends d (e, fx)) :
    Sends c (e, chunks.map .sent ++ fx) := by
  constructor
  · rw [sentOf_append, sentOf_sent, ← took.bytes, List.append_assoc]
    exact (List.prefix_append_right_inj _).mpr hout.bytes
  · refine List.forall_mem_append.mpr ⟨?_, hout.quiet⟩
    intro e he
    obtain ⟨bytes, -, rfl⟩ := List.mem_map.mp he
    rfl

/-- Effects that do no work come first, and then the handler goes on. -/
theorem sends_after {c e : Connection} {fx rest : List Effect}
    (hidle : ∀ e ∈ fx, e.works = false) (hout : Sends c (e, rest)) : Sends c (e, fx ++ rest) := by
  obtain ⟨hsent, hquiet⟩ := sentOf_idle hidle
  constructor
  · rw [sentOf_append, hsent, List.nil_append]
    exact hout.bytes
  · exact List.forall_mem_append.mpr ⟨hquiet, hout.quiet⟩

theorem sends_finished (c : Connection) : Sends c c.onResponseFinished.2 := by
  have hend := onResponseFinished_end c
  generalize c.onResponseFinished.2 = out at hend ⊢
  cases hend with
  | kept =>
    have hreset : (∀ e ∈ c.resetForNextRequest.2, e.works = false) ∧
        c.resetForNextRequest.1.writeBuffer = c.writeBuffer.clear := by
      by_cases hopen : 0 ≤ c.sendFileFd
      · simp only [resetForNextRequest, if_pos hopen]
        exact ⟨by simp [Effect.works], rfl⟩
      · simp only [resetForNextRequest, if_neg hopen]
        exact ⟨by simp, rfl⟩
    obtain ⟨hidle, hcleared⟩ := hreset
    have hall : ∀ e ∈ Effect.finished c.writeBuffer.readableBytes :: c.resetForNextRequest.2 ++
        (if c.hasPendingRequest then [Effect.queued .processInWorker] else []),
        e.works = false := by
      refine List.forall_mem_append.mpr ⟨List.forall_mem_cons.mpr ⟨rfl, hidle⟩, ?_⟩
      split <;> simp [Effect.works]
    obtain ⟨hsent, hquiet⟩ := sentOf_idle hall
    refine ⟨?_, hquiet⟩
    rw [hsent, hcleared, Buffer.clear_peekReadable]
    exact List.nil_prefix
  | closed => exact sends_idle (by simp [Effect.works]) rfl

theorem sends_writeDone {c d : Connection} (hbuffer : d.writeBuffer = c.writeBuffer) :
    Sends c d.writeDone := by
  have hdone := sends_finished (disableWriteEvent { d with writeState := .idle })
  exact ⟨hbuffer ▸ hdone.bytes, hdone.quiet⟩

theorem sends_sendFile (c : Connection) (files : Transfers) : Sends c (c.sendFile files) := by
  have hmoves : ∀ moves : List (Nat × Nat),
      ∀ e ∈ moves.map (fun move => Effect.transferred move.1 move.2), e.works = false := by
    intro moves e he
    obtain ⟨move, -, rfl⟩ := List.mem_map.mp he
    rfl
  have hend := sendFile_end c files
  generalize c.sendFile files = out at hend ⊢
  cases hend with
  | noFile => exact sends_writeDone rfl
  | waiting moves left => exact sends_idle (hmoves moves) rfl
  | failed moves left =>
    exact sends_idle (List.forall_mem_append.mpr ⟨hmoves moves, by simp [Effect.works]⟩) rfl
  | drained moves =>
    have hdone : Sends c (writeDone { c with sendFileLen := 0, sendFileFd := -1 }) :=
      sends_writeDone rfl
    have hdrained : ∀ e ∈ [Effect.discarded .drained 0], e.works = false := by
      simp [Effect.works]
    exact sends_after (hmoves moves) (sends_after hdrained hdone)

theorem sends_trySend {c : Connection} (hwf : c.writeBuffer.Wf) (sends : Transfers) :
    Sends c (c.trySend sends) := by
  have hend := trySend_end hwf sends
  generalize c.trySend sends = out at hend ⊢
  cases hend with
  | finished b chunks took =>
    exact sends_chunks (d := { c with writeBuffer := b }) took (sends_finished _)
  | waiting b chunks took =>
    have hidle : Sends (enableWriteEvent { c with writeBuffer := b })
        (enableWriteEvent { c with writeBuffer := b }, []) := sends_idle (by simp) rfl
    simpa only [List.append_nil] using sends_chunks took hidle
  | failed b chunks took =>
    exact sends_chunks (d := { c with writeBuffer := b }) took
      (sends_idle (by simp [Effect.works]) rfl)

theorem sends_handleWrite {c : Connection} (hwf : c.writeBuffer.Wf) (sends files : Transfers) :
    Sends c (c.handleWrite sends files) := by
  have hend := handleWrite_end hwf sends files
  generalize c.handleWrite sends files = out at hend ⊢
  cases hend with
  | drained b chunks took =>
    exact sends_chunks (d := c.writing b) took (sends_sendFile (c.writing b) files)
  | stalled b chunks took =>
    exact sends_chunks (d := c.unfinished b) took (sends_finished (c.unfinished b))
  | waiting b chunks took =>
    have hidle : Sends (c.unfinished b) (c.unfinished b, []) := sends_idle (by simp) rfl
    simpa only [List.append_nil] using sends_chunks took hidle
  | failed b chunks took =>
    exact sends_chunks (d := c.unfinished b) took (sends_idle (by simp [Effect.works]) rfl)

theorem sends_close (c : Connection) : Sends c c.close := by
  by_cases hopen : 0 ≤ c.sendFileFd
  · simp only [close, if_pos hopen]
    exact sends_idle (by simp [Effect.works]) rfl
  · simp only [close, if_neg hopen]
    exact sends_idle (by simp) rfl

/-! ## Parsing -/

/-- Storing a reply hands nothing to the socket, and is no call of the parser. -/
theorem store_quiet (c : Connection) (env : Env) (p : Reply) :
    sentOf (c.store env p).2 = [] ∧ Effect.parsed .error ∉ (c.store env p).2 := by
  cases hfile : p.file with
  | none => simp [store, hfile, sentOf, List.flatMap_map]
  | some file =>
    by_cases hopen : 0 ≤ c.sendFileFd <;> simp [store, hfile, hopen, sentOf, List.flatMap_map]

theorem parses_processInWorker {c : Connection} (hwf : c.readBuffer.Wf) (env : Env) :
    Parses c (c.processInWorker env) := by
  have hend := processInWorker_end hwf env
  generalize c.processInWorker env = out at hend ⊢
  cases hend with
  | incomplete => exact ⟨rfl, ⟨_, List.mem_cons_self, rfl⟩, fun _ => rfl⟩
  | error => exact ⟨rfl, ⟨_, List.mem_cons_self, rfl⟩, fun _ => rfl⟩
  | complete ctx rest =>
    obtain ⟨hsent, hnone⟩ := store_quiet { c with context := ctx, readBuffer := rest } env
      (reply env c.resourceDir c.router ctx.request c.response)
    refine ⟨?_, ⟨_, List.mem_cons_self, rfl⟩, ?_⟩
    · rw [sentOf_append]
      exact (List.append_nil _).trans hsent
    · intro hfailed
      have hstored := (List.mem_append.mp hfailed).resolve_right (by simp)
      exact absurd ((List.mem_cons.mp hstored).resolve_left (by simp)) hnone

/-- A step of the connection is of one kind or the other. -/
def Drains (c : Connection) (out : Connection × List Effect) : Prop := Sends c out ∨ Parses c out

theorem drains_handleRead {c : Connection} (hwf : c.readBuffer.Wf) (env : Env)
    (arrival : Arrival) : Drains c (c.handleRead env arrival) := by
  have hreceived : ∀ packets : List Str,
      ∀ e ∈ packets.map Effect.received, e.works = false := by
    intro packets e he
    obtain ⟨data, -, rfl⟩ := List.mem_map.mp he
    rfl
  have hend := handleRead_end hwf env arrival
  generalize c.handleRead env arrival = out at hend ⊢
  cases hend with
  | closing b packets =>
    exact Or.inl (sends_idle (List.forall_mem_append.mpr
      ⟨hreceived packets, by simp [Effect.works]⟩) rfl)
  | reading b packets => exact Or.inl (sends_idle (hreceived packets) rfl)
  | processing b packets hb =>
    obtain ⟨hsent, ⟨e, he, hparse⟩, hfailed⟩ := parses_processInWorker
      (c := { c with readBuffer := b, state := .processing }) hb env
    refine Or.inr ⟨?_, ⟨e, List.mem_append_right _ he, hparse⟩, ?_⟩
    · rw [sentOf_append, (received_only packets).1, hsent, List.append_nil]
    · intro herror
      exact hfailed ((List.mem_append.mp herror).resolve_left (by simp))

theorem drains_call {c : Connection} (h : BuffersWf c) (cb : Callback) (env : Env)
    (sends : Transfers) : Drains c (c.call cb env sends) := by
  cases cb with
  | trySend =>
    by_cases hclosed : c.state = .closed
    · simp only [call, if_pos hclosed]
      exact Or.inl (sends_idle (by simp) rfl)
    · simp only [call, if_neg hclosed]
      exact Or.inl (sends_trySend h.write sends)
  | processInWorker => exact Or.inr (parses_processInWorker h.read env)
  | handleClose => exact Or.inl (sends_idle (by simp [call, handleClose, Effect.works]) rfl)
  | removeConnection => exact Or.inl (sends_idle (by simp [call, Effect.works]) rfl)

theorem drains_sent {c : Connection} {out : Connection × List Effect} (h : Drains c out) :
    sentOf out.2 <+: c.writeBuffer.peekReadable := by
  rcases h with hsends | hparses
  · exact (List.prefix_append _ _).trans hsends.bytes
  · exact hparses.sent ▸ List.nil_prefix

end Connection

namespace Sys

/-- From one state to the next: the bytes sent before the parser is called again come out of
what was unsent, in order. -/
structure Drained (s t : Sys) (fx : List Effect) : Prop where
  log : t.log = s.log ++ fx
  sent : ∀ later, later <+: fx → (∀ e ∈ later, e.parses = false) →
    sentOf later <+: s.conn.writeBuffer.peekReadable
  unsent : (∀ e ∈ fx, e.parses = false) →
    sentOf fx ++ t.conn.writeBuffer.peekReadable <+: s.conn.writeBuffer.peekReadable

theorem drained_refl (s : Sys) : Drained s s [] := by
  refine ⟨(List.append_nil _).symm, ?_, fun _ => List.prefix_rfl⟩
  intro later hlater _
  obtain rfl := List.prefix_nil.mp hlater
  exact List.nil_prefix

theorem drained_after {s m : Sys} {fx : List Effect} (h : Drained s m fx) {batch : List Callback}
    {alive : Bool} {out : Connection × List Effect} (hout : Drains m.conn out) :
    Drained s (after { m with batch, alive } out) (fx ++ out.2) := by
  refine ⟨?_, ?_, ?_⟩
  · simp only [after, h.log, List.append_assoc]
  · intro later hlater hquiet
    rcases List.prefix_or_prefix_of_prefix hlater (List.prefix_append fx out.2) with hold | hnew
    · exact h.sent later hold hquiet
    · obtain ⟨new, rfl⟩ := hnew
      obtain ⟨hbefore, -⟩ := List.forall_mem_append.mp hquiet
      have hsent : sentOf new <+: m.conn.writeBuffer.peekReadable :=
        (sentOf_mono ((List.prefix_append_right_inj fx).mp hlater)).trans (drains_sent hout)
      rw [sentOf_append]
      exact ((List.prefix_append_right_inj _).mpr hsent).trans (h.unsent hbefore)
  · intro hquiet
    obtain ⟨hbefore, hnow⟩ := List.forall_mem_append.mp hquiet
    rcases hout with hsends | hparses
    · rw [sentOf_append, List.append_assoc]
      exact ((List.prefix_append_right_inj _).mpr hsends.bytes).trans (h.unsent hbefore)
    · obtain ⟨e, he, hparse⟩ := hparses.parsed
      exact absurd (hparse.symm.trans (hnow e he)) Bool.false_ne_true.symm

theorem drained_step {s m t : Sys} {fx : List Effect} (h : Drained s m fx)
    (hwf : BuffersWf m.conn) {a : Act} (hstep : m.step a = some t) : ∃ fx', Drained s t fx' := by
  cases taken_of_step hstep with
  | readable env arrival => exact ⟨_, drained_after h (drains_handleRead hwf.read env arrival)⟩
  | writable sends files =>
    exact ⟨_, drained_after h (Or.inl (sends_handleWrite hwf.write sends files))⟩
  | hangup =>
    exact ⟨_, drained_after h (Or.inl (sends_idle (by simp [handleClose, Effect.works]) rfl))⟩
  | swap => exact ⟨fx, h.log, h.sent, h.unsent⟩
  | run env sends cb rest => exact ⟨_, drained_after h (drains_call hwf cb env sends)⟩
  | release => exact ⟨_, drained_after h (Or.inl (sends_close m.conn))⟩

/-- Whatever happens after a state, up to the next call of the parser only the bytes that
were unsent in it are handed to the socket. -/
theorem drained_run {s t : Sys} (hwf : BuffersWf s.conn) {as : List Act}
    (run : exec s as = some t) : ∃ fx, Drained s t fx :=
  (GuardedRuns.invariant_of_run (fun m => BuffersWf m.conn ∧ ∃ fx, Drained s m fx)
    (fun _ _ _ h hstep => ⟨buffersWf_step h.1 hstep, h.2.elim fun _ hm =>
      drained_step hm h.1 hstep⟩) ⟨hwf, [], drained_refl s⟩ run).2

/-- The step calls the parser, which answers with an error. -/
def Fails (s m : Sys) : Prop := ∃ fx, m.log = s.log ++ fx ∧ Effect.parsed .error ∈ fx

/-- The connection is told apart from what the step leaves only by effects of one kind. -/
theorem fails_after {s : Sys} {batch : List Callback} {alive : Bool}
    {out : Connection × List Effect} (hout : Drains s.conn out)
    (fails : Fails s (after { s with batch, alive } out)) :
    out.1.writeBuffer = s.conn.writeBuffer := by
  obtain ⟨fx, hlog, herror⟩ := fails
  obtain rfl : out.2 = fx := List.append_cancel_left hlog
  rcases hout with hsends | hparses
  · exact absurd (hsends.quiet _ herror) Bool.false_ne_true.symm
  · exact hparses.failed herror

/-- A step in which the parser fails stores no bytes to be sent. -/
theorem fails_keeps {s m : Sys} {a : Act} (hwf : BuffersWf s.conn) (hstep : s.step a = some m)
    (fails : Fails s m) : m.conn.writeBuffer = s.conn.writeBuffer := by
  cases taken_of_step hstep with
  | readable env arrival => exact fails_after (drains_handleRead hwf.read env arrival) fails
  | writable sends files =>
    exact fails_after (Or.inl (sends_handleWrite hwf.write sends files)) fails
  | hangup =>
    exact fails_after (Or.inl (sends_idle (by simp [handleClose, Effect.works]) rfl)) fails
  | swap => rfl
  | run env sends cb rest => exact fails_after (drains_call hwf cb env sends) fails
  | release => exact fails_after (Or.inl (sends_close s.conn)) fails

/-- Behind what was unsent before the bad request, exactly one serialised 400 response
with `Connection: close` is handed to the socket. -/
def Answered400 (s : Sys) (later : List Effect) : Prop :=
  ∃ (o : HeaderOrder) (r : HttpResponse), r.statusCode = 400 ∧ r.keepAlive = false ∧
    sentOf later = s.conn.writeBuffer.peekReadable ++ (r.toString o).1

theorem toString_ne_nil (o : HeaderOrder) (r : HttpResponse) : (r.toString o).1 ≠ [] := by
  simp [HttpResponse.toString, HttpResponse.head, HttpResponse.statusLine, crlf]

/-- No bad request is answered: at no point between the step in which the parser fails and
its next call has the response to it been sent. -/
theorem bad_request_unanswered {c : Connection} (fresh : Fresh c) {as bs : List Act} {a : Act}
    {s m t : Sys} (first : exec (start c) as = some s) (next : s.step a = some m)
    (fails : Fails s m) (rest : exec m bs = some t) :
    ∀ later beyond, t.log = m.log ++ (later ++ beyond) → (∀ e ∈ later, e.parses = false) →
      ¬Answered400 s later := by
  have hwf := buffersWf_run fresh first
  have hkeeps := fails_keeps hwf next fails
  obtain ⟨fx, hdrained⟩ := drained_run (buffersWf_step hwf next) rest
  intro later beyond hlog hquiet
  have hfx : later ++ beyond = fx := List.append_cancel_left (hlog.symm.trans hdrained.log)
  have hprefix := hdrained.sent later ⟨beyond, hfx⟩ hquiet
  rintro ⟨o, r, -, -, hsent⟩
  rw [hsent, hkeeps] at hprefix
  have hshort := hprefix.length_le
  rw [List.length_append] at hshort
  have hnone : (r.toString o).1.length = 0 := by omega
  exact toString_ne_nil o r (List.length_eq_zero_iff.mp hnone)

/-- A line that is no request arrives on a new connection, which is then removed. -/
theorem bad_request_run :
    let env := Env.table [⟨lit "/w", lit "/w", none⟩]
    let c := enableReadEvent (new 5 (lit "/w") none)
    ∃ m t, (start c).step (arrives env (lit "BAD\r\n") (by decide)) = some m ∧
      m.log = [.received (lit "BAD\r\n"), .parsed .error, .queued .handleClose] ∧
      exec m [.swap, runs env, .swap, runs env] = some t ∧
      t.log = m.log ++ [.queued .removeConnection, .removal 5] := by
  intro env c
  have hfirst : ((start c).step (arrives env (lit "BAD\r\n") (by decide))).map (·.log) =
      some [.received (lit "BAD\r\n"), .parsed .error, .queued .handleClose] := by
    decide +kernel
  have hrun : (exec (start c) [arrives env (lit "BAD\r\n") (by decide), .swap, runs env, .swap,
      runs env]).map (·.log) = some [.received (lit "BAD\r\n"), .parsed .error,
        .queued .handleClose, .queued .removeConnection, .removal 5] := by
    decide +kernel
  obtain ⟨m, hm, hlog⟩ := Option.map_eq_some_iff.mp hfirst
  obtain ⟨t, ht, hlast⟩ := Option.map_eq_some_iff.mp hrun
  obtain ⟨m', hm', hrest⟩ := (GuardedRuns.exec_cons_iff _ _ _ _ _).mp ht
  obtain rfl : m = m' := Option.some.inj (hm.symm.trans hm')
  refine ⟨m, t, hm, hlog, hrest, ?_⟩
  rw [hlast, hlog]
  rfl

theorem bad_request_unanswered_bad :
    let c := enableReadEvent (new 5 (lit "/w") none)
    ∃ (m t : Sys) (later : List Effect), Fails (start c) m ∧ t.log = m.log ++ later ∧ .removal 5 ∈ later ∧
      ¬Answered400 (start c) later := by
  intro c
  obtain ⟨m, t, hm, hlog, ht, hlater⟩ := bad_request_run
  have hfails : Fails (start c) m := ⟨m.log, rfl, by simp [hlog]⟩
  refine ⟨m, t, _, hfails, hlater, by simp, ?_⟩
  exact bad_request_unanswered (fresh_new 5 (lit "/w") none)
    (rfl : exec (start c) [] = some (start c)) hm hfails ht _ [] (by rw [hlater, List.append_nil])
    (by simp [Effect.parses])

/-- The connection is removed without an answer to the bad request. -/
theorem bad_request_not_answered :
    ¬∀ (c : Connection) (s m t : Sys) (as bs : List Act) (a : Act) (later : List Effect),
      Fresh c → exec (start c) as = some s → s.step a = some m → Fails s m →
      exec m bs = some t → t.log = m.log ++ later → (∀ e ∈ later, e.parses = false) →
      .removal c.fd ∈ later → Answered400 s later := by
  intro hall
  obtain ⟨m, t, hm, hlog, ht, hlater⟩ := bad_request_run
  obtain ⟨o, r, -, -, hsent⟩ := hall _ _ m t [] _ _ _ (fresh_new 5 (lit "/w") none) rfl hm
    ⟨m.log, rfl, by simp [hlog]⟩ ht hlater (by simp [Effect.parses]) (by simp [new, enableReadEvent])
  have hempty : (start (enableReadEvent (new 5 (lit "/w") none))).conn.writeBuffer.peekReadable =
      [] := Buffer.new_peekReadable 1024
  rw [hempty] at hsent
  exact toString_ne_nil o r hsent.symm

end Sys

end WebServer
