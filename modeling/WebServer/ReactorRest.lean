import WebServer.DrivenStates

/-!
# What a connection at rest waits for

A connection is left alone only in a state that says what it waits for: more bytes of a
request, room in the socket for bytes it still owes, or, once closed, its removal. This
holds although epoll reports every event once, because each handler either empties what
it was called for or sets the watch again; a handler that does neither has put the
functor that removes the connection into the queue.
-/

namespace WebServer

open Connection EdgeTrigger HttpContext

namespace Socket

@[simp] theorem mem_up {k : Socket} {e : IoEvent} : e ∈ k.up ↔ k.isUp e = true := by simp [up]

/-- `Read` takes a prefix of what is there, and all of it unless it closes the connection. -/
theorem readLoop_hands {k : Socket} {errno : Errno} {packets : List Packet} {rest : Str}
    (hands : k.Hands errno packets rest) (b : Buffer) :
    receivedOf (readLoop errno packets b).2.2 <+: rest ∧
      ((readLoop errno packets b).1 = .success →
        receivedOf (readLoop errno packets b).2.2 = rest ∧ k.ended = false ∧
          k.broken = false) := by
  induction packets generalizing b rest with
  | nil =>
    by_cases hfull : maxReadBufferSize ≤ b.readableBytes
    · rw [readLoop, if_pos hfull]
      exact ⟨List.nil_prefix, fun hsuccess => by cases hsuccess⟩
    · rw [readLoop, if_neg hfull]
      refine ⟨List.nil_prefix, ?_⟩
      obtain ⟨hrest, hquiet⟩ := hands
      cases errno with
      | again => exact fun _ => ⟨hrest.symm, hquiet⟩
      | other => exact fun hsuccess => by cases hsuccess
  | cons p later ih =>
    by_cases hfull : maxReadBufferSize ≤ b.readableBytes
    · rw [readLoop, if_pos hfull]
      exact ⟨List.nil_prefix, fun hsuccess => by cases hsuccess⟩
    · by_cases hclosed : p.data = []
      · rw [readLoop, if_neg hfull, if_pos hclosed]
        exact ⟨List.nil_prefix, fun hsuccess => by cases hsuccess⟩
      · rw [Hands, if_neg hclosed] at hands
        obtain ⟨hpiece, hlater⟩ := hands
        obtain ⟨tail, rfl⟩ := hpiece
        rw [List.drop_left] at hlater
        obtain ⟨htaken, hall⟩ := ih hlater (b.append p.data)
        rw [readLoop, if_neg hfull, if_neg hclosed]
        have hcons : ∀ fx, receivedOf (.received p.data :: fx) = p.data ++ receivedOf fx :=
          fun fx => List.flatMap_cons
        rw [hcons]
        refine ⟨(List.prefix_append_right_inj _).mpr htaken, fun hsuccess => ?_⟩
        obtain ⟨hrest, hquiet⟩ := hall hsuccess
        exact ⟨congrArg _ hrest, hquiet⟩

theorem up_inbox {k : Socket} (n : Nat) :
    ({ k with inbox := k.inbox.drop n } : Socket).up ⊆ k.up := by
  intro e he
  rw [mem_up] at he ⊢
  cases e with
  | input =>
    simp only [isUp, Bool.or_eq_true, decide_eq_true_eq] at he ⊢
    rcases he with (hinbox | hended) | hbroken
    · refine .inl (.inl fun hnone => hinbox ?_)
      rw [hnone]
      exact List.drop_nil
    · exact .inl (.inr hended)
    · exact .inr hbroken
  | output => exact he
  | hangup => exact he

theorem up_room {k : Socket} {room : Bool} (less : room = true → k.room = true) :
    ({ k with room } : Socket).up ⊆ k.up := by
  intro e he
  rw [mem_up] at he ⊢
  cases e with
  | input => exact he
  | output =>
    simp only [isUp, Bool.or_eq_true] at he ⊢
    exact he.imp_left less
  | hangup => exact he

end Socket

@[simp] theorem Channel.mem_interest {ch : Channel} {e : IoEvent} :
    e ∈ ch.interest ↔ ch.wants e = true := by simp [interest]

namespace Reactor

/-! ## The invariant -/

structure Attended (r : Reactor) : Prop where
  buffers : BuffersWf r.sys.conn
  reading : r.sys.conn.channel.epollIn = true
  registered : r.watch.interest = r.sys.conn.channel.interest
  noticed : r.watch.Noticed r.socket.up r.told
  driven : Driven r.sys.conn r.sys.functors

theorem attended_raise {r : Reactor} (h : Attended r) {socket : Socket} {raised : Finset IoEvent}
    (rise : socket.up ⊆ r.socket.up ∪ raised) : Attended (r.raise socket raised) :=
  ⟨h.buffers, h.reading, h.registered, Watch.noticed_wake h.noticed rise, h.driven⟩

/-- A handler that may have sent: it set the watch, or its interest is as before. -/
theorem attended_settle {r : Reactor} (h : Attended r) {sys : Sys} {traffic : Traffic} {room : Bool}
    {told : Finset IoEvent} (buffers : BuffersWf sys.conn)
    (reading : sys.conn.channel.epollIn = true) (driven : Driven sys.conn sys.functors)
    (unset : traffic.updated = false →
      sys.conn.channel = r.sys.conn.channel ∧ told = r.told) :
    Attended { r.settle sys traffic room with told } := by
  cases hupdated : traffic.updated with
  | true =>
    refine ⟨buffers, reading, ?_, ?_, driven⟩
    · simp [settle, hupdated]
    · simpa [settle, hupdated] using Watch.noticed_set _ _ _ _
  | false =>
    obtain ⟨hchannel, rfl⟩ := unset hupdated
    refine ⟨buffers, reading, ?_, ?_, driven⟩
    · simpa [settle, hupdated, hchannel] using h.registered
    · have hless : (r.socket.room && room && !traffic.refused) = true → r.socket.room = true :=
        fun hroom => (Bool.and_eq_true_iff.mp (Bool.and_eq_true_iff.mp hroom).1).1
      simpa [settle, hupdated] using Watch.noticed_fall h.noticed (Socket.up_room hless)

theorem read_down {k : Socket} {c : Connection} {arrival : Arrival}
    (hands : k.Hands arrival.errno arrival.packets k.inbox)
    (success : (c.read arrival).1 = .success) :
    .input ∉ ({ k with inbox := k.inbox.drop (taken c arrival) } : Socket).up := by
  obtain ⟨hall, hended, hbroken⟩ := (Socket.readLoop_hands hands c.readBuffer).2 success
  have htaken : taken c arrival = k.inbox.length := congrArg List.length hall
  simp [Socket.isUp, htaken, hended, hbroken]

theorem attended_read {r : Reactor} (h : Attended r) {env : Env} {arrival : Arrival}
    (hands : r.socket.Hands arrival.errno arrival.packets r.socket.inbox) :
    Leaving (r.sys.after (r.sys.conn.handleRead env arrival)) ∨
      Attended { r with
        sys := r.sys.after (r.sys.conn.handleRead env arrival)
        socket := { r.socket with inbox := r.socket.inbox.drop (taken r.sys.conn arrival) }
        told := r.told.erase .input } := by
  have hbuffers := buffersWf_handleRead h.buffers env arrival
  have hfunctors : (r.sys.after (r.sys.conn.handleRead env arrival)).functors =
      r.sys.functors ++ queuedOf (r.sys.conn.handleRead env arrival).2 :=
    Sys.functors_after r.sys r.sys.batch r.sys.alive _
  have hend := handleRead_end h.buffers.read env arrival
  generalize r.sys.conn.handleRead env arrival = out at hend hbuffers hfunctors ⊢
  cases hend with
  | closing b packets =>
    left
    apply Sys.leaving_queued
    rw [queuedOf_append]
    exact List.mem_append_right _ (List.mem_singleton.mpr rfl)
  | reading b packets _ _ hsuccess hstate =>
    right
    have hnoticed := Watch.noticed_handled h.noticed (Socket.up_inbox _) (read_down hands hsuccess)
    refine ⟨hbuffers, h.reading, h.registered, hnoticed, ?_⟩
    rw [hfunctors, (received_only packets).2.2, List.append_nil]
    cases h.driven with
    | closed hclosed => exact .closed hclosed
    | queued hconnected => exact absurd hconnected hstate
    | waiting hconnected => exact absurd hconnected hstate
    | sending hwriting hcb => exact .sending hwriting hcb
    | blocked hwriting hout howes => exact .blocked hwriting hout howes
  | processing b packets hb _ hsuccess =>
    right
    have hnoticed := Watch.noticed_handled h.noticed (Socket.up_inbox _) (read_down hands hsuccess)
    have hchannel := processInWorker_channel
      (c := { r.sys.conn with readBuffer := b, state := .processing }) hb env
    refine ⟨hbuffers, ?_, ?_, hnoticed, ?_⟩
    · exact (congrArg Channel.epollIn hchannel).trans h.reading
    · exact h.registered.trans (congrArg Channel.interest hchannel).symm
    · rw [hfunctors, queuedOf_append, (received_only packets).2.2, List.nil_append]
      exact driven_mono (driven_processed hb env) (List.subset_append_right _ _)

theorem attended_write {r : Reactor} (h : Attended r) {sends files : Transfers} (room : Bool)
    (accepts : r.socket.Accepts sends) :
    Leaving (r.sys.after (r.sys.conn.handleWrite sends files)) ∨
      Attended { r.settle (r.sys.after (r.sys.conn.handleWrite sends files))
          (r.sys.conn.handleWriteTraffic sends files) room with
        told := r.told.erase .output } := by
  have hfunctors : (r.sys.after (r.sys.conn.handleWrite sends files)).functors =
      r.sys.functors ++ queuedOf (r.sys.conn.handleWrite sends files).2 :=
    Sys.functors_after r.sys r.sys.batch r.sys.alive _
  rcases handleWrite_driven h.buffers h.driven accepts.1 files with hleaving | hdriven
  · exact .inl (Sys.leaving_queued hleaving)
  · by_cases hupdated : (r.sys.conn.handleWriteTraffic sends files).updated = false
    · exact .inl (Sys.leaving_queued (handleWrite_unset hupdated))
    · right
      apply attended_settle h (buffersWf_handleWrite h.buffers sends files)
        (handleWrite_reading h.buffers h.reading sends files)
      · rw [hfunctors]
        exact hdriven
      · exact fun hunset => absurd hunset hupdated

theorem attended_run {r : Reactor} (h : Attended r) {cb : Callback} {rest : List Callback}
    (hbatch : r.sys.batch = cb :: rest) (env : Env) (sends : Transfers) (room : Bool) :
    Leaving (Sys.after { r.sys with batch := rest } (r.sys.conn.call cb env sends)) ∨
      Attended (r.settle (Sys.after { r.sys with batch := rest } (r.sys.conn.call cb env sends))
        (r.sys.conn.callTraffic cb sends) room) := by
  have hfunctors := Sys.functors_after r.sys rest r.sys.alive (r.sys.conn.call cb env sends)
  have hsplit : r.sys.functors = cb :: (rest ++ r.sys.pending) := by
    rw [Sys.functors, hbatch, List.cons_append]
  have hbuffers := buffersWf_call h.buffers cb env sends
  have hdriven := h.driven
  rw [hsplit] at hdriven
  cases cb with
  | trySend =>
    by_cases hclosed : r.sys.conn.state = .closed
    · right
      simp only [call, if_pos hclosed] at hbuffers hfunctors ⊢
      exact attended_settle h hbuffers h.reading (.closed hclosed) fun _ => ⟨rfl, rfl⟩
    · simp only [call, if_neg hclosed] at hbuffers hfunctors ⊢
      have htraffic : r.sys.conn.callTraffic .trySend sends = r.sys.conn.trySendTraffic sends := by
        simp [callTraffic, hclosed]
      rcases trySend_driven h.buffers hdriven sends with hleaving | hafter
      · exact .inl (Sys.leaving_queued hleaving)
      · right
        rw [htraffic]
        have hnext : Driven (r.sys.conn.trySend sends).1
            (Sys.after { r.sys with batch := rest } (r.sys.conn.trySend sends)).functors := by
          rw [hfunctors]
          exact hafter
        exact attended_settle h hbuffers (trySend_reading h.buffers h.reading sends) hnext
          fun hunset => ⟨trySend_channel hunset, rfl⟩
  | processInWorker =>
    right
    have hchannel := processInWorker_channel h.buffers.read env
    have hnext : Driven (r.sys.conn.processInWorker env).1
        (Sys.after { r.sys with batch := rest }
          (r.sys.conn.call .processInWorker env sends)).functors := by
      rw [hfunctors]
      exact driven_mono (driven_processed h.buffers.read env) (List.subset_append_right _ _)
    exact attended_settle h hbuffers ((congrArg Channel.epollIn hchannel).trans h.reading) hnext
      fun _ => ⟨hchannel, rfl⟩
  | handleClose => exact .inl (Sys.leaving_queued (List.mem_singleton.mpr rfl))
  | removeConnection =>
    exact .inl (.removed r.sys.conn.fd (List.mem_append_right _ (List.mem_singleton.mpr rfl)))

theorem attended_swap {r : Reactor} (h : Attended r) (hbatch : r.sys.batch = []) :
    Attended { r with sys := { r.sys with batch := r.sys.pending, pending := [] } } := by
  refine ⟨h.buffers, h.reading, h.registered, h.noticed, ?_⟩
  have hdriven := h.driven
  rw [Sys.functors, hbatch, List.nil_append] at hdriven
  show Driven r.sys.conn (r.sys.pending ++ [])
  rw [List.append_nil]
  exact hdriven

theorem rise_input {k : Socket} {inbox : Str} {ended : Bool} :
    ({ k with inbox, ended } : Socket).up ⊆ k.up ∪ {.input} := by
  intro e he
  rw [Socket.mem_up] at he
  rw [Finset.mem_union, Finset.mem_singleton]
  cases e with
  | input => exact .inr rfl
  | output => exact .inl (Socket.mem_up.mpr he)
  | hangup => exact .inl (Socket.mem_up.mpr he)

theorem rise_room {k : Socket} {room : Bool} :
    ({ k with room } : Socket).up ⊆ k.up ∪ {.output} := by
  intro e he
  rw [Socket.mem_up] at he
  rw [Finset.mem_union, Finset.mem_singleton]
  cases e with
  | input => exact .inl (Socket.mem_up.mpr he)
  | output => exact .inr rfl
  | hangup => exact .inl (Socket.mem_up.mpr he)

theorem attended_step {r r' : Reactor} {a : Act} (h : Attended r) (hstep : r.step a = some r') :
    Leaving r'.sys ∨ Attended r' := by
  cases moved_of_step hstep with
  | deliver data => exact .inr (attended_raise h rise_input)
  | finish => exact .inr (attended_raise h rise_input)
  | reset =>
    exact .inr (attended_raise h fun e _ => Finset.mem_union_right _ (Finset.mem_univ e))
  | drain => exact .inr (attended_raise h rise_room)
  | wait _ htold =>
    have hnoticed := h.noticed
    rw [htold] at hnoticed
    exact .inr ⟨h.buffers, h.reading, h.registered, Watch.noticed_report hnoticed, h.driven⟩
  | hangup => exact .inl (Sys.leaving_queued (List.mem_singleton.mpr rfl))
  | read env arrival _ hands => exact attended_read h hands
  | write sends files room _ _ accepts => exact attended_write h room accepts
  | swap _ hbatch => exact .inr (attended_swap h hbatch)
  | run env sends room cb rest hbatch => exact attended_run h hbatch env sends _
  | release => exact .inl (.gone rfl)

theorem leaving_kept {r r' : Reactor} {a : Act} (h : Leaving r.sys) (hstep : r.step a = some r') :
    Leaving r'.sys := by
  rcases sys_of_step hstep with hsame | ⟨b, hb⟩
  · rw [hsame]
    exact h
  · exact Sys.leaving_step h hb

theorem attended_start {c : Connection} (fresh : Sys.Fresh c) (reading : c.channel.epollIn = true)
    (k : Socket) : Attended (start c k) := by
  refine ⟨⟨fresh.ready.readBuffer, fresh.ready.writeBuffer⟩, reading, rfl,
    Watch.noticed_set _ _ _ _, ?_⟩
  apply Driven.waiting fresh.state
  show Waits c.context c.readBuffer.peekReadable
  rw [fresh.context]
  exact waits_reset fresh.unread

theorem attended_of_run {c : Connection} (fresh : Sys.Fresh c)
    (reading : c.channel.epollIn = true) {k : Socket} {acts : List Act} {r : Reactor}
    (run : exec (start c k) acts = some r) : Leaving r.sys ∨ Attended r :=
  GuardedRuns.invariant_of_run (fun r => Leaving r.sys ∨ Attended r)
    (fun _ _ _ h hstep => h.elim (fun hleaving => .inl (leaving_kept hleaving hstep))
      fun hattended => attended_step hattended hstep)
    (.inr (attended_start fresh reading k)) run

/-! ## What was received -/

/-- The bytes that the peer sent. -/
def delivered (acts : List Act) : Str :=
  acts.flatMap fun | .deliver data => data | _ => []

/-- What was received and what is still in the socket is what the peer sent. -/
structure Accounted (k : Socket) (r : Reactor) (acts : List Act) : Prop where
  buffers : BuffersWf r.sys.conn
  bytes : receivedOf r.sys.log ++ r.socket.inbox = k.inbox ++ delivered acts

theorem accounted_step {k : Socket} {r r' : Reactor} {a : Act} {acts : List Act}
    (h : Accounted k r acts) (hstep : r.step a = some r') : Accounted k r' (acts ++ [a]) := by
  have hdelivered : delivered (acts ++ [a]) = delivered acts ++ delivered [a] :=
    List.flatMap_append
  have hbuffers : BuffersWf r'.sys.conn := by
    rcases sys_of_step hstep with hsame | ⟨b, hb⟩
    · rw [hsame]
      exact h.buffers
    · exact Sys.buffersWf_step h.buffers hb
  refine ⟨hbuffers, ?_⟩
  rw [hdelivered, ← List.append_assoc, ← h.bytes]
  have hquiet : ∀ fx, receivedOf fx = [] → receivedOf (r.sys.log ++ fx) ++ r.socket.inbox =
      receivedOf r.sys.log ++ r.socket.inbox ++ [] := by
    intro fx hfx
    rw [receivedOf_append, hfx, List.append_nil, List.append_nil]
  cases moved_of_step hstep with
  | deliver data => simp [raise, delivered]
  | finish | reset | drain | wait | swap => exact (List.append_nil _).symm
  | hangup => exact hquiet _ rfl
  | read env arrival _ hands =>
    obtain ⟨tail, htail⟩ := (Socket.readLoop_hands hands r.sys.conn.readBuffer).1
    show receivedOf (r.sys.log ++ (r.sys.conn.handleRead env arrival).2) ++
      r.socket.inbox.drop (taken r.sys.conn arrival) =
        receivedOf r.sys.log ++ r.socket.inbox ++ []
    have hread : receivedOf (r.sys.conn.read arrival).2.2 ++ tail = r.socket.inbox := htail
    obtain ⟨fx, hplain, hfx⟩ := handleRead_effects r.sys.conn env arrival
    rw [hfx, receivedOf_append, receivedOf_append, received_plain hplain, taken, ← hread,
      List.drop_left]
    simp
  | write sends files => exact hquiet _ (received_plain (plain_handleWrite h.buffers sends files))
  | run env sends room cb rest => exact hquiet _ (received_call h.buffers cb env sends)
  | release => exact hquiet _ (received_plain (plain_close r.sys.conn))

theorem accounted_of_run {c : Connection} (fresh : Sys.Fresh c) {k : Socket} {acts : List Act}
    {r : Reactor} (run : exec (start c k) acts = some r) : Accounted k r acts := by
  have hstart : Accounted k (start c k) [] := by
    refine ⟨⟨fresh.ready.readBuffer, fresh.ready.writeBuffer⟩, ?_⟩
    show [] ++ k.inbox = k.inbox ++ []
    rw [List.nil_append, List.append_nil]
  exact GuardedRuns.history_of_run (Accounted k)
    (fun _ _ _ _ h hstep => accounted_step h hstep) hstart run

/-! ## At rest -/

/-- The loop has nothing to do for the connection: no functor, and no event to be reported or
handled. -/
def AtRest (r : Reactor) : Prop :=
  r.sys.functors = [] ∧ r.watch.listed = false ∧ r.told = ∅

/-- The reasons for which a connection may be left alone. -/
inductive Awaiting (r : Reactor) : Prop where
  | closed : r.sys.conn.state = .closed → Awaiting r
  | request : r.sys.conn.state = .connected →
      Waits r.sys.conn.context r.sys.conn.readBuffer.peekReadable → Awaiting r
  | room : r.sys.conn.state = .writing → r.sys.conn.channel.epollOut = true →
      r.sys.conn.Owes → r.socket.room = false → Awaiting r

/-- At rest nothing is up that the connection wants. -/
theorem attended_rest {r : Reactor} (h : Attended r) (rest : AtRest r) : r.socket.inbox = [] ∧
    r.socket.ended = false ∧ r.socket.broken = false ∧ Awaiting r := by
  obtain ⟨hfunctors, hlisted, htold⟩ := rest
  have hnoticed := h.noticed
  rw [htold] at hnoticed
  have hdown : ∀ e, r.sys.conn.channel.wants e = true → r.socket.isUp e = false := by
    intro e he
    have hinterest : e ∈ r.watch.interest := by
      rw [h.registered]
      exact Channel.mem_interest.mpr he
    have hnot := Watch.noticed_rest hnoticed hlisted hinterest
    rw [Socket.mem_up] at hnot
    exact Bool.eq_false_iff.mpr hnot
  have hinput := hdown .input h.reading
  simp only [Socket.isUp, Bool.or_eq_false_iff, decide_eq_false_iff_not, not_not] at hinput
  obtain ⟨⟨hinbox, hended⟩, hbroken⟩ := hinput
  refine ⟨hinbox, hended, hbroken, ?_⟩
  cases h.driven with
  | closed hstate => exact .closed hstate
  | queued _ hcb =>
    rw [hfunctors] at hcb
    cases hcb
  | waiting hstate hwaits => exact .request hstate hwaits
  | sending _ hcb =>
    rw [hfunctors] at hcb
    cases hcb
  | blocked hstate hout howes =>
    have houtput := hdown .output hout
    simp only [Socket.isUp, Bool.or_eq_false_iff] at houtput
    exact .room hstate hout howes houtput.1

/-- With no functor left, a connection that is leaving has been removed or released. -/
theorem leaving_rest {s : Sys} (h : Leaving s) (rest : s.functors = []) :
    (∃ fd, .removal fd ∈ s.log) ∨ s.alive = false := by
  cases h with
  | closing hcb =>
    rw [rest] at hcb
    cases hcb
  | removing hcb =>
    rw [rest] at hcb
    cases hcb
  | removed fd hfd => exact .inl ⟨fd, hfd⟩
  | gone hgone => exact .inr hgone

/-- In every run, whenever the loop has nothing left to do for a connection, it has been
removed or released, or all that the peer sent has been received, neither an end nor an error
is outstanding, and the connection is closed, waits for the rest of a request, or waits for
room with bytes still to send. -/
theorem rest_accounted {c : Connection} (fresh : Sys.Fresh c)
    (reading : c.channel.epollIn = true) {k : Socket} {acts : List Act} {r : Reactor}
    (run : exec (start c k) acts = some r) (rest : AtRest r) :
    ((∃ fd, .removal fd ∈ r.sys.log) ∨ r.sys.alive = false) ∨
      (receivedOf r.sys.log = k.inbox ++ delivered acts ∧ r.socket.ended = false ∧
        r.socket.broken = false ∧ Awaiting r) := by
  rcases attended_of_run fresh reading run with hleaving | hattended
  · exact .inl (leaving_rest hleaving rest.1)
  · right
    obtain ⟨hinbox, hrest⟩ := attended_rest hattended rest
    have hbytes := (accounted_of_run fresh run).bytes
    rw [hinbox, List.append_nil] at hbytes
    exact ⟨hbytes, hrest⟩

/-- A request in two deliveries; the socket takes ten bytes of the response and refuses
the rest. -/
theorem rest_accounted_refused :
    let env := Env.table []
    let router : Option Router :=
      some (Router.get {} (lit "/a") { respond := fun _ resp => resp.setText (lit "a") })
    let c := enableReadEvent (new 5 (lit "/w") router)
    let acts : List Act :=
      [.deliver (lit "GET /a HT"), .wait, .read env ⟨[⟨lit "GET /a HT", by decide⟩], .again⟩,
        .deliver (lit "TP/1.1\r\n\r\n"), .wait,
        .read env ⟨[⟨lit "TP/1.1\r\n\r\n", by decide⟩], .again⟩, .swap,
        .run env ⟨[10], .again⟩ true]
    ∃ r, exec (start c {}) acts = some r ∧ AtRest r ∧
      receivedOf r.sys.log = lit "GET /a HTTP/1.1\r\n\r\n" ∧ Awaiting r := by
  intro env router c acts
  have hend : (exec (start c {}) acts).map (fun r =>
      (r.sys.functors, r.watch.listed, r.told,
        r.sys.log.filterMap (fun | .removal fd => some fd | _ => none), r.sys.alive)) = some ([], false, ∅, [], true) := by
    decide +kernel
  obtain ⟨r, hr, hparts⟩ := Option.map_eq_some_iff.mp hend
  simp only [Prod.mk.injEq] at hparts
  obtain ⟨hfunctors, hlisted, htold, hremoval, halive⟩ := hparts
  have hrest : AtRest r := ⟨hfunctors, hlisted, htold⟩
  refine ⟨r, hr, hrest, ?_⟩
  rcases rest_accounted (Sys.fresh_new 5 (lit "/w") router) rfl hr hrest with
    (⟨fd, hfd⟩ | hgone) | ⟨hbytes, -, -, hawaiting⟩
  · have hmem : fd ∈ r.sys.log.filterMap (fun | .removal fd => some fd | _ => none) :=
      List.mem_filterMap.mpr ⟨_, hfd, rfl⟩
    rw [hremoval] at hmem
    cases hmem
  · exact absurd (halive.symm.trans hgone) (by decide)
  · exact ⟨hbytes.trans (by decide), hawaiting⟩

end Reactor

end WebServer
