import Mathlib.Data.Finset.Card
import WebServer.EndToEnd
import WebServer.FileTransfer

/-!
# How often the loop is called

Edge-triggered events and functors that queue functors could keep a loop busy without any
new bytes. They do not: in an orderly run each request costs two calls, and each action of
the peer a report and what is told with it. The measure counts the requests not answered
yet, the calls that the phase still owes, and the events that epoll has still to report or
the loop to handle. No handler raises the last of these: it sets the watch only when what
it watches for has already been noticed, or has just been refused.
-/

namespace WebServer

open Connection EdgeTrigger HttpContext

/-! ## What a handler adds to the queue -/

/-- No new response, and nothing new to send. -/
def Settling (fx : List Effect) : Prop := responsesOf fx = [] ∧ .trySend ∉ queuedOf fx

theorem settling_append {fx fx' : List Effect} (h : Settling fx) (h' : Settling fx') :
    Settling (fx ++ fx') := by
  constructor
  · rw [responsesOf_append, h.1, h'.1]
    rfl
  · rw [queuedOf_append, List.mem_append]
    exact fun hmem => hmem.elim h.2 h'.2

theorem settling_sent (chunks : List Str) : Settling (chunks.map .sent) := by
  obtain ⟨-, hresponses, hqueued⟩ := silent_sent chunks
  exact ⟨hresponses, by rw [hqueued]; exact List.not_mem_nil⟩

theorem settling_moves (moves : List (Nat × Nat)) :
    Settling (moves.map fun move => .transferred move.1 move.2) := by
  simp [Settling, responsesOf, queuedOf, List.filterMap_map]

namespace Connection

theorem settling_finished (c : Connection) : Settling c.onResponseFinished.2.2 := by
  have hend := onResponseFinished_end c
  have hreset : Settling c.resetForNextRequest.2 := by
    by_cases hopen : 0 ≤ c.sendFileFd <;>
      simp [resetForNextRequest, hopen, Settling, responsesOf, queuedOf]
  generalize c.onResponseFinished.2 = out at hend ⊢
  cases hend with
  | kept =>
    rw [← List.singleton_append]
    refine settling_append (settling_append ⟨rfl, by simp [queuedOf]⟩ hreset) ?_
    by_cases hpending : c.hasPendingRequest = true <;>
      simp [hpending, Settling, responsesOf, queuedOf]
  | closed => exact ⟨rfl, by simp [queuedOf]⟩

theorem settling_trySend {c : Connection} (hwf : BuffersWf c) (sends : Transfers) :
    Settling (c.trySend sends).2 := by
  have hend := trySend_end hwf.write sends
  generalize c.trySend sends = out at hend ⊢
  cases hend with
  | finished b chunks => exact settling_append (settling_sent chunks) (settling_finished _)
  | waiting b chunks => exact settling_sent chunks
  | failed b chunks =>
    exact settling_append (settling_sent chunks) ⟨rfl, by simp [queuedOf]⟩

theorem settling_sendFile (c : Connection) (files : Transfers) : Settling (c.sendFile files).2 := by
  have hend := sendFile_end c files
  generalize c.sendFile files = out at hend ⊢
  cases hend with
  | noFile => exact settling_finished _
  | waiting moves => exact settling_moves moves
  | failed moves => exact settling_append (settling_moves moves) ⟨rfl, by simp [queuedOf]⟩
  | drained moves =>
    refine settling_append (settling_moves moves) ?_
    rw [← List.singleton_append]
    exact settling_append ⟨rfl, by simp [queuedOf]⟩ (settling_finished _)

theorem settling_handleWrite {c : Connection} (hwf : BuffersWf c) (sends files : Transfers) :
    Settling (c.handleWrite sends files).2 := by
  have hend := handleWrite_end hwf.write sends files
  generalize c.handleWrite sends files = out at hend ⊢
  cases hend with
  | drained b chunks => exact settling_append (settling_sent chunks) (settling_sendFile _ files)
  | stalled b chunks => exact settling_append (settling_sent chunks) (settling_finished _)
  | waiting b chunks => exact settling_sent chunks
  | failed b chunks =>
    exact settling_append (settling_sent chunks) ⟨rfl, by simp [queuedOf]⟩

theorem responses_store (c : Connection) (env : Env) (p : Reply) :
    (responsesOf (c.store env p).2).length = 1 := by
  cases hfile : p.file with
  | none => simp [store, hfile, responsesOf, List.filterMap_map]
  | some file =>
    by_cases hopen : 0 ≤ c.sendFileFd <;>
      simp [store, hfile, hopen, responsesOf, List.filterMap_map]

/-- Processing leaves a response behind, or nothing more to do than to close. -/
theorem processed_work {c : Connection} (hwf : c.readBuffer.Wf) (env : Env) :
    responsesOf (c.processInWorker env).2 = [] ∧
        (∀ cb ∈ queuedOf (c.processInWorker env).2, cb = .handleClose) ∨
      (responsesOf (c.processInWorker env).2).length = 1 := by
  have hend := processInWorker_end hwf env
  generalize c.processInWorker env = out at hend ⊢
  cases hend with
  | incomplete => exact .inl ⟨rfl, List.forall_mem_nil _⟩
  | error => exact .inl ⟨rfl, List.forall_mem_singleton.mpr rfl⟩
  | complete ctx rest =>
    right
    have hstore := responses_store { c with context := ctx, readBuffer := rest } env
      (reply env c.resourceDir c.router ctx.request c.response)
    rw [responsesOf_append, List.length_append]
    exact congrArg (· + 0) hstore

theorem handleRead_work {c : Connection} (hwf : BuffersWf c) (env : Env) (arrival : Arrival) :
    responsesOf (c.handleRead env arrival).2 = [] ∧
        (∀ cb ∈ queuedOf (c.handleRead env arrival).2, cb = .handleClose ∨ cb = .removeConnection) ∨
      (responsesOf (c.handleRead env arrival).2).length = 1 := by
  have hend := handleRead_end hwf.read env arrival
  generalize c.handleRead env arrival = out at hend ⊢
  cases hend with
  | closing b packets =>
    obtain ⟨-, hresponses, hqueued⟩ := received_only packets
    left
    rw [responsesOf_append, queuedOf_append, hresponses, hqueued]
    exact ⟨rfl, List.forall_mem_singleton.mpr (.inr rfl)⟩
  | reading b packets =>
    obtain ⟨-, hresponses, hqueued⟩ := received_only packets
    left
    rw [hresponses, hqueued]
    exact ⟨rfl, List.forall_mem_nil _⟩
  | processing b packets hb =>
    obtain ⟨-, hresponses, hqueued⟩ := received_only packets
    rw [responsesOf_append, queuedOf_append, hresponses, hqueued, List.nil_append, List.nil_append]
    rcases processed_work (c := { c with readBuffer := b, state := .processing }) hb env with
      ⟨hnone, hclosing⟩ | hone
    · exact .inl ⟨hnone, fun cb hcb => .inl (hclosing cb hcb)⟩
    · exact .inr hone

/-! ## When EPOLLOUT stays enabled -/

theorem finished_watched (c : Connection) :
    c.onResponseFinished.2.1.channel.epollOut = c.channel.epollOut := by
  by_cases hkeep : c.isKeepAlive = true
  · by_cases hopen : 0 ≤ c.sendFileFd <;>
      simp [onResponseFinished, hkeep, resetForNextRequest, enableReadEvent, hopen]
  · simp [onResponseFinished, hkeep]

/-- `TrySend` enables EPOLLOUT only when it was refused. -/
theorem trySend_watched {c : Connection} {sends : Transfers}
    (unwatched : c.channel.epollOut = false)
    (watched : (c.trySend sends).1.channel.epollOut = true) :
    (c.trySendTraffic sends).refused = true := by
  rcases hout : writeLoop sends.errno sends.counts c.writeBuffer with ⟨result, b, fx⟩
  simp only [trySend, write, hout] at watched
  simp only [trySendTraffic, write, hout]
  cases result with
  | complete =>
    have hsame := finished_watched { c with writeBuffer := b }
    simp only [handleWriteResult] at watched
    exact absurd (hsame.symm.trans watched |>.symm.trans unwatched) (by decide)
  | again => rfl
  | error => exact absurd (unwatched.symm.trans watched) Bool.false_ne_true

theorem writeDone_watched (c : Connection) : c.writeDone.1.channel.epollOut = false :=
  finished_watched (disableWriteEvent { c with writeState := .idle })

/-- On a connection that is not broken `HandleWrite` leaves EPOLLOUT enabled only when it was
refused. -/
theorem handleWrite_watched {c : Connection} (hwf : BuffersWf c) {sends files : Transfers}
    (flowing : Sys.Flowing sends) (again : files.errno = .again)
    (watched : (c.handleWrite sends files).1.channel.epollOut = true) :
    (c.handleWriteTraffic sends files).refused = true := by
  obtain ⟨hb, -, hdrained, hcomplete, herror⟩ :=
    writeLoop_spec sends.errno sends.counts hwf.write
  rcases hout : writeLoop sends.errno sends.counts c.writeBuffer with ⟨result, b, fx⟩
  rw [hout] at hdrained hcomplete herror
  simp only [handleWrite, write, hout] at watched
  simp only [handleWriteTraffic, write, hout]
  by_cases hempty : b.readableBytes = 0
  · by_cases hopen : 0 ≤ c.sendFileFd
    · rw [if_pos ⟨hempty, hopen⟩]
      rw [if_pos hempty] at watched
      rcases hloop : sendfileLoop files.errno files.counts 0 c.sendFileLen with ⟨end', left, moves⟩
      simp only [sendFile, hopen, if_true, hloop] at watched
      cases end' with
      | complete => exact absurd ((writeDone_watched _).symm.trans watched) (by decide)
      | again => rfl
      | error =>
        have hresult := (sendfileLoop_again files.counts 0 c.sendFileLen).1
        rw [again] at hloop
        rw [hloop] at hresult
        by_cases hsmall : c.sendFileLen ≤ files.counts.sum
        · rw [if_pos hsmall] at hresult
          cases hresult
        · rw [if_neg hsmall] at hresult
          cases hresult
    · rw [if_neg (fun h => hopen h.2)]
      rw [if_pos hempty] at watched
      simp only [sendFile, if_neg hopen] at watched
      exact absurd ((writeDone_watched _).symm.trans watched) (by decide)
  · rw [if_neg (fun h => hempty h.1)]
    have hagain : result = .again := by
      cases result with
      | complete =>
        rcases hcomplete.mp rfl with hcovers | hstalls
        · exact absurd (hdrained.mpr hcovers) hempty
        · exact absurd ((stalls_positive flowing.2 _).symm.trans hstalls) Bool.false_ne_true
      | again => rfl
      | error => exact absurd (flowing.1.symm.trans (herror rfl)) (by decide)
    simp [hagain]

end Connection

namespace Reactor

/-! ## The measure -/

/-- The calls that a phase owes before the connection is idle. -/
def owed (functors : List Callback) (epollOut : Bool) : Nat :=
  if .trySend ∈ functors then 2 else if functors ≠ [] ∨ epollOut = true then 1 else 0

section
variable {env : Env} {dir : Str} {router : Option Router}

def work (msgs : List (Message env dir router)) (r : Reactor) : Nat :=
  2 * (msgs.length - (responsesOf r.sys.log).length) +
    owed r.sys.functors r.sys.conn.channel.epollOut + 3 * r.watch.listed.toNat + r.told.card

/-- A report by epoll, a handler or a functor counts one. -/
def Event.cost : Event → Nat
  | .wait | .read _ | .write _ _ _ | .run _ _ => 1
  | .deliver _ | .drain | .swap => 0

/-- What an action of the peer allows for. -/
def Event.credit : Event → Nat
  | .deliver _ | .drain => 3
  | _ => 0

/-- While functors run, no event waits for its handler. -/
def Paced (r : Reactor) : Prop := r.sys.batch ≠ [] → r.told = ∅

theorem paced_step {r r' : Reactor} {a : Act} (h : Paced r) (hstep : r.step a = some r') :
    Paced r' := by
  cases moved_of_step hstep with
  | deliver | finish | reset | drain => exact h
  | wait hbatch => exact fun hsome => absurd hbatch hsome
  | hangup | release => exact fun _ => rfl
  | read _ _ _ _ hbatch => exact fun hsome => absurd hbatch hsome
  | write _ _ _ _ _ _ _ hbatch => exact fun hsome => absurd hbatch hsome
  | swap htold => exact fun _ => htold
  | run _ _ _ cb rest hbatch => exact fun _ => h (by rw [hbatch]; exact List.cons_ne_nil _ _)

theorem owed_le_one {functors : List Callback} (h : .trySend ∉ functors) (epollOut : Bool) :
    owed functors epollOut ≤ 1 := by
  rw [owed, if_neg h]
  by_cases hsome : functors ≠ [] ∨ epollOut = true
  · rw [if_pos hsome]
  · rw [if_neg hsome]
    omega

theorem owed_le_two (functors : List Callback) (epollOut : Bool) : owed functors epollOut ≤ 2 := by
  by_cases h : .trySend ∈ functors
  · rw [owed, if_pos h]
  · have hone := owed_le_one h epollOut
    omega

/-- The responses of a phase are some of those asked for. -/
theorem responses_le {msgs : List (Message env dir router)} {r : Reactor} (h : Steady msgs r) :
    (responsesOf r.sys.log).length ≤ msgs.length := by
  have hshort := (Sys.phase_wire h.phase).2.length_le
  rwa [List.length_map] at hshort

/-- A handler that sets the watch finds nothing that was not noticed before, except what it
leaves room for. -/
theorem settle_listed {msgs : List (Message env dir router)} {r : Reactor} (h : Steady msgs r)
    {sys : Sys} {traffic : Traffic} {room : Bool}
    (untold : .input ∉ r.told)
    (watched : sys.conn.channel.epollOut = true → traffic.updated = true →
      traffic.refused = true) :
    (r.settle sys traffic room).watch.listed = r.watch.listed := by
  cases hupdated : traffic.updated with
  | false => simp [settle, hupdated]
  | true =>
    cases hlisted : r.watch.listed with
    | true => simp [settle, hupdated, Watch.set, hlisted]
    | false =>
      rw [hupdated] at watched
      simp only [settle, hupdated, if_true, Watch.set, hlisted, Bool.false_or,
        decide_eq_false_iff_not, Finset.not_nonempty_iff_eq_empty]
      apply Finset.eq_empty_of_forall_notMem
      intro e he
      obtain ⟨hinterest, hup⟩ := Finset.mem_inter.mp he
      rw [Channel.mem_interest] at hinterest
      rw [Socket.mem_up] at hup
      cases e with
      | input =>
        -- what is in the socket was noticed, and it is not being handled
        have hreading : .input ∈ r.watch.interest := by
          rw [h.attended.registered]
          exact Channel.mem_interest.mpr h.attended.reading
        have hsame : .input ∈ r.socket.up := Socket.mem_up.mpr hup
        exact untold (h.attended.noticed hlisted (Finset.mem_inter.mpr ⟨hreading, hsame⟩))
      | output =>
        have hrefused := watched hinterest rfl
        simp [Socket.isUp, hrefused, h.unbroken] at hup
      | hangup => exact absurd (h.unbroken.symm.trans hup) Bool.false_ne_true

/-- A socket that is not broken is told of two events at most. -/
theorem told_card {k : Socket} {told : Finset IoEvent} (unbroken : k.broken = false)
    (sub : told ⊆ k.up) : told.card ≤ 2 := by
  have htwo : told ⊆ {.input, .output} := by
    intro e he
    have hup := Socket.mem_up.mp (sub he)
    cases e with
    | input => decide
    | output => decide
    | hangup => exact absurd (unbroken.symm.trans hup) Bool.false_ne_true
  exact Finset.card_le_card htwo

theorem work_read {msgs : List (Message env dir router)} {r : Reactor} {arrival : Arrival}
    (h : Steady msgs r) (told : .input ∈ r.told) {socket : Socket}
    (h' : Steady msgs { r with
      sys := r.sys.after (r.sys.conn.handleRead env arrival)
      socket := socket
      told := r.told.erase .input }) :
    work msgs { r with
      sys := r.sys.after (r.sys.conn.handleRead env arrival)
      socket := socket
      told := r.told.erase .input } + 1 ≤ work msgs r := by
  have hcard : (r.told.erase .input).card + 1 = r.told.card := Finset.card_erase_add_one told
  have hresponses := responses_le h'
  have hfunctors : (r.sys.after (r.sys.conn.handleRead env arrival)).functors =
      r.sys.functors ++ queuedOf (r.sys.conn.handleRead env arrival).2 :=
    Sys.functors_after r.sys r.sys.batch r.sys.alive _
  have hlog : responsesOf (r.sys.after (r.sys.conn.handleRead env arrival)).log =
      responsesOf r.sys.log ++ responsesOf (r.sys.conn.handleRead env arrival).2 :=
    responsesOf_append _ _
  have hchannel : (r.sys.after (r.sys.conn.handleRead env arrival)).conn.channel =
      r.sys.conn.channel := handleRead_channel h.attended.buffers env arrival
  have howed := owed_le_two (r.sys.after (r.sys.conn.handleRead env arrival)).functors
    r.sys.conn.channel.epollOut
  have hphase := phase_functors h'.phase
  simp only at hphase hresponses
  simp only [work, hchannel]
  rcases handleRead_work h.attended.buffers env arrival with ⟨hnone, hclosing⟩ | hone
  · have hqueued : queuedOf (r.sys.conn.handleRead env arrival).2 = [] := by
      apply List.eq_nil_iff_forall_not_mem.mpr
      intro cb hcb
      have hmem : cb ∈ (r.sys.after (r.sys.conn.handleRead env arrival)).functors := by
        rw [hfunctors]
        exact List.mem_append_right _ hcb
      rcases hphase cb hmem with rfl | rfl <;> rcases hclosing _ hcb with hne | hne <;> cases hne
    rw [hqueued, List.append_nil] at hfunctors
    rw [hnone, List.append_nil] at hlog
    rw [hlog, hfunctors]
    omega
  · rw [hlog, List.length_append, hone] at hresponses ⊢
    omega

theorem work_settle (msgs : List (Message env dir router)) (r : Reactor) (sys : Sys)
    (traffic : Traffic) (room : Bool) (told : Finset IoEvent) :
    work msgs { r.settle sys traffic room with told } =
      2 * (msgs.length - (responsesOf sys.log).length) +
        owed sys.functors sys.conn.channel.epollOut +
        3 * (r.settle sys traffic room).watch.listed.toNat + told.card := rfl

theorem work_write {msgs : List (Message env dir router)} {r : Reactor} {sends files : Transfers}
    {room : Bool} (h : Steady msgs r) (untold : .input ∉ r.told) (told : .output ∈ r.told)
    (sending : r.socket.Accepts sends) (filing : r.socket.Accepts files)
    (hout : r.sys.conn.channel.epollOut = true) :
    work msgs { r.settle (r.sys.after (r.sys.conn.handleWrite sends files))
          (r.sys.conn.handleWriteTraffic sends files) room with
        told := r.told.erase .output } + 1 ≤ work msgs r := by
  have hcard : (r.told.erase .output).card + 1 = r.told.card := Finset.card_erase_add_one told
  have hfunctors : (r.sys.after (r.sys.conn.handleWrite sends files)).functors =
      r.sys.functors ++ queuedOf (r.sys.conn.handleWrite sends files).2 :=
    Sys.functors_after r.sys r.sys.batch r.sys.alive _
  have hlisted : (r.settle (r.sys.after (r.sys.conn.handleWrite sends files))
      (r.sys.conn.handleWriteTraffic sends files) room).watch.listed = r.watch.listed :=
    settle_listed h untold fun hwatched _ => handleWrite_watched h.attended.buffers
      (flowing_accepts sending h.unbroken) (flowing_accepts filing h.unbroken).1 hwatched
  obtain ⟨hnone, hnotSend⟩ := settling_handleWrite h.attended.buffers sends files
  have hlog : responsesOf (r.sys.after (r.sys.conn.handleWrite sends files)).log =
      responsesOf r.sys.log := by
    refine (responsesOf_append _ _).trans ?_
    rw [hnone, List.append_nil]
  have hempty : r.sys.functors = [] := by
    have hphase := h.phase
    generalize r.sys.functors = functors at hphase ⊢
    cases hphase with
    | idle _ hbetween => exact absurd (hbetween.noWrite.symm.trans hout) Bool.false_ne_true
    | queued _ hbetween => exact absurd (hbetween.noWrite.symm.trans hout) Bool.false_ne_true
    | sending _ _ hunwatched => exact absurd (hunwatched.symm.trans hout) Bool.false_ne_true
    | blocked => rfl
  have hone : owed r.sys.functors r.sys.conn.channel.epollOut = 1 := by
    rw [hempty, hout]
    rfl
  rw [hempty, List.nil_append] at hfunctors
  have hnext : owed (r.sys.after (r.sys.conn.handleWrite sends files)).functors
      (r.sys.after (r.sys.conn.handleWrite sends files)).conn.channel.epollOut ≤ 1 := by
    rw [hfunctors]
    exact owed_le_one hnotSend _
  rw [work_settle, hlisted, hlog, work, hone]
  omega

theorem work_paid {msgs : List (Message env dir router)} {r : Reactor} {sys : Sys}
    {traffic : Traffic} {room : Bool}
    (listed : (r.settle sys traffic room).watch.listed = r.watch.listed)
    (paid : 2 * (msgs.length - (responsesOf sys.log).length) +
        owed sys.functors sys.conn.channel.epollOut + 1 ≤
      2 * (msgs.length - (responsesOf r.sys.log).length) +
        owed r.sys.functors r.sys.conn.channel.epollOut) :
    work msgs (r.settle sys traffic room) + 1 ≤ work msgs r := by
  have hsettle := work_settle msgs r sys traffic room r.told
  rw [listed] at hsettle
  have hsame : work msgs (r.settle sys traffic room) =
      work msgs { r.settle sys traffic room with told := r.told } := rfl
  rw [hsame, hsettle, work]
  omega

/-- A functor that processes ends the phase or answers the next request. -/
theorem paid_process {msgs : List (Message env dir router)} {r : Reactor} {sys : Sys}
    (h : Steady msgs r) (queued : r.sys.functors = [.processInWorker])
    (phase : Phase msgs sys.conn sys.functors sys.log)
    (functors : sys.functors = queuedOf (r.sys.conn.processInWorker env).2)
    (log : sys.log = r.sys.log ++ (r.sys.conn.processInWorker env).2)
    (unwatched : sys.conn.channel.epollOut = false) :
    2 * (msgs.length - (responsesOf sys.log).length) +
        owed sys.functors sys.conn.channel.epollOut + 1 ≤
      2 * (msgs.length - (responsesOf r.sys.log).length) +
        owed r.sys.functors r.sys.conn.channel.epollOut := by
  have hone : owed r.sys.functors r.sys.conn.channel.epollOut = 1 := by
    rw [queued]
    rfl
  have hwithin := (Sys.phase_wire phase).2.length_le
  rw [List.length_map] at hwithin
  rw [hone]
  rcases processed_work h.attended.buffers.read env with ⟨hquiet, hclosing⟩ | hresponded
  · have hidle : queuedOf (r.sys.conn.processInWorker env).2 = [] := by
      apply List.eq_nil_iff_forall_not_mem.mpr
      intro cb hcb
      rcases phase_functors phase cb (functors ▸ hcb) with rfl | rfl <;> cases hclosing _ hcb
    have hnone : owed sys.functors sys.conn.channel.epollOut = 0 := by
      rw [functors, hidle, unwatched]
      rfl
    have hsame : (responsesOf sys.log).length = (responsesOf r.sys.log).length := by
      rw [log, responsesOf_append, hquiet, List.append_nil]
    omega
  · have htwo := owed_le_two sys.functors sys.conn.channel.epollOut
    rw [log, responsesOf_append, List.length_append, hresponded] at hwithin ⊢
    omega

/-- A functor that sends leaves at most one call owed. -/
theorem paid_send {msgs : List (Message env dir router)} {r : Reactor} {sys : Sys}
    {sends : Transfers} (h : Steady msgs r) (queued : r.sys.functors = [.trySend])
    (functors : sys.functors = queuedOf (r.sys.conn.trySend sends).2)
    (log : sys.log = r.sys.log ++ (r.sys.conn.trySend sends).2) :
    2 * (msgs.length - (responsesOf sys.log).length) +
        owed sys.functors sys.conn.channel.epollOut + 1 ≤
      2 * (msgs.length - (responsesOf r.sys.log).length) +
        owed r.sys.functors r.sys.conn.channel.epollOut := by
  obtain ⟨hquiet, hnotSend⟩ := settling_trySend h.attended.buffers sends
  have hone : owed sys.functors sys.conn.channel.epollOut ≤ 1 := by
    apply owed_le_one
    rw [functors]
    exact hnotSend
  have htwo : owed r.sys.functors r.sys.conn.channel.epollOut = 2 := by
    rw [queued]
    rfl
  rw [htwo, log, responsesOf_append, hquiet, List.append_nil]
  omega

theorem work_run {msgs : List (Message env dir router)} {r : Reactor} {cb : Callback}
    {rest : List Callback} {sends : Transfers} {room : Bool} (h : Steady msgs r)
    (untold : r.told = ∅) (hbatch : r.sys.batch = cb :: rest)
    (h' : Steady msgs (r.settle
      (Sys.after { r.sys with batch := rest } (r.sys.conn.call cb env sends))
      (r.sys.conn.callTraffic cb sends) room)) :
    work msgs (r.settle (Sys.after { r.sys with batch := rest } (r.sys.conn.call cb env sends))
      (r.sys.conn.callTraffic cb sends) room) + 1 ≤ work msgs r := by
  have hfunctors := Sys.functors_after r.sys rest r.sys.alive (r.sys.conn.call cb env sends)
  have hsplit : r.sys.functors = cb :: (rest ++ r.sys.pending) := by
    rw [Sys.functors, hbatch, List.cons_append]
  have hinput : .input ∉ r.told := by
    rw [untold]
    exact Finset.notMem_empty _
  have hphase := h.phase
  have hnext := h'.phase
  generalize hqueue : r.sys.functors = functors at hphase
  cases hphase with
  | idle => rw [hsplit] at hqueue; cases hqueue
  | blocked => rw [hsplit] at hqueue; cases hqueue
  | queued _ hbetween =>
    obtain ⟨rfl, hnone⟩ := List.cons.inj (hsplit.symm.trans hqueue)
    rw [hnone, List.nil_append] at hfunctors
    have hunwatched : (r.sys.conn.processInWorker env).1.channel.epollOut = false :=
      (congrArg Channel.epollOut (processInWorker_channel h.attended.buffers.read env)).trans
        hbetween.noWrite
    apply work_paid
    · exact settle_listed h hinput fun hwatched _ =>
        absurd (hunwatched.symm.trans hwatched) Bool.false_ne_true
    · exact paid_process h hqueue hnext hfunctors rfl hunwatched
  | sending _ hanswering hunwatched =>
    obtain ⟨rfl, hnone⟩ := List.cons.inj (hsplit.symm.trans hqueue)
    rw [hnone, List.nil_append] at hfunctors
    have hopen : r.sys.conn.state ≠ .closed := by
      rw [hanswering.state]
      decide
    have htraffic : r.sys.conn.callTraffic .trySend sends = r.sys.conn.trySendTraffic sends := by
      simp [callTraffic, hopen]
    have hcall : r.sys.conn.call .trySend env sends = r.sys.conn.trySend sends := by
      rw [call, if_neg hopen]
    rw [hcall] at hfunctors ⊢
    apply work_paid
    · rw [htraffic]
      exact settle_listed h hinput fun hwatched _ => trySend_watched hunwatched hwatched
    · exact paid_send h hqueue hfunctors rfl

theorem work_step {msgs : List (Message env dir router)} {r r' : Reactor} {e : Event}
    (h : Steady msgs r) (paced : Paced r) (hstep : r.stepOn env e = some r')
    (h' : Steady msgs r') : work msgs r' + e.cost ≤ work msgs r + e.credit := by
  have hmoved := moved_of_step hstep
  cases e with
  | deliver | drain =>
    cases hmoved
    have hraised : ∀ raised, (r.watch.wake raised).listed.toNat ≤ 1 :=
      fun raised => Bool.toNat_le _
    have hinput := hraised {.input}
    have houtput := hraised {.output}
    simp only [work, raise, Event.cost, Event.credit]
    omega
  | wait =>
    cases hmoved with
    | wait _ htold hlisted =>
      have hcard : (r.watch.report r.socket.up).1.card ≤ 2 := by
        apply told_card h.unbroken
        simp only [Watch.report, hlisted, if_true]
        exact Finset.inter_subset_right
      have hquiet : (r.watch.report r.socket.up).2.listed = false := rfl
      simp only [work, hquiet, hlisted, htold, Event.cost, Event.credit, Bool.toNat_false,
        Bool.toNat_true, Finset.card_empty]
      omega
  | read arrival =>
    cases hmoved with
    | read _ _ htold => exact work_read h htold h'
  | write sends files room =>
    cases hmoved with
    | write _ _ _ huntold htold hsending hfiling _ hout =>
      exact work_write h huntold htold hsending hfiling hout
  | swap =>
    cases hmoved with
    | swap _ hbatch =>
      simp [work, Sys.functors, hbatch, Event.cost, Event.credit]
  | run sends room =>
    cases hmoved with
    | run _ _ _ cb rest hbatch =>
      have huntold := paced (by rw [hbatch]; exact List.cons_ne_nil _ _)
      exact work_run h huntold hbatch h'

/-- The calls of the loop for the connection: reports of epoll, handlers, and functors. -/
def calls (events : List Event) : Nat := GuardedRuns.total Event.cost events

/-- What the peer did: deliveries, and drains of the socket. -/
def peerActions (events : List Event) : Nat :=
  (events.filter fun | .deliver _ | .drain => true | _ => false).length

theorem credit_total (events : List Event) :
    GuardedRuns.total Event.credit events = 3 * peerActions events := by
  induction events with
  | nil => rfl
  | cons e events ih =>
    rw [GuardedRuns.total, ih]
    cases e <;> simp [Event.credit, peerActions]
    all_goals omega

theorem received_run {r r' : Reactor} {events : List Event}
    (run : GuardedRuns.exec (stepOn env) r events = some r') :
    receivedOf r.sys.log <+: receivedOf r'.sys.log :=
  GuardedRuns.invariant_of_run (fun t => receivedOf r.sys.log <+: receivedOf t.sys.log)
    (fun _ _ _ h hstep => h.trans (received_kept hstep)) (List.prefix_refl _) run

theorem work_run_le {msgs : List (Message env dir router)} {r r' : Reactor} {events : List Event}
    (h : Steady msgs r) (paced : Paced r)
    (run : GuardedRuns.exec (stepOn env) r events = some r')
    (orderly : GuardedRuns.Guarded (stepOn env) Orderly r events)
    (within : receivedOf r'.sys.log <+: stream msgs) :
    work msgs r' + calls events ≤ work msgs r + GuardedRuns.total Event.credit events := by
  induction events generalizing r with
  | nil =>
    obtain rfl := Option.some.inj run
    exact Nat.le_refl _
  | cons e events ih =>
    obtain ⟨m, hm, hrest⟩ := (GuardedRuns.exec_cons_iff _ _ _ e events).mp run
    have hsteady := steady_step h orderly.1 hm ((received_run hrest).trans within)
    have hfirst := work_step h paced hm hsteady
    have hlast := ih hsteady (paced_step paced hm) hrest (orderly.2 m hm)
    rw [calls, GuardedRuns.total, GuardedRuns.total] at *
    omega

theorem work_start {msgs : List (Message env dir router)} {c : Connection}
    (fresh : Sys.Fresh c) : work msgs (start c {}) = 2 * msgs.length := by
  have hnone : c.channel.interest ∩ ({} : Socket).up = ∅ := by
    apply Finset.eq_empty_of_forall_notMem
    intro e he
    obtain ⟨hinterest, hup⟩ := Finset.mem_inter.mp he
    rw [Channel.mem_interest] at hinterest
    rw [Socket.mem_up] at hup
    cases e with
    | input => cases hup
    | output => exact absurd (fresh.noWrite.symm.trans hinterest) Bool.false_ne_true
    | hangup => cases hup
  have hlisted : (start c {}).watch.listed = false := by
    simp [start, Watch.set, hnone]
  have howed : owed (start c {}).sys.functors (start c {}).sys.conn.channel.epollOut = 0 := by
    show owed [] c.channel.epollOut = 0
    rw [fresh.noWrite]
    rfl
  rw [work, hlisted, howed]
  rfl

/-- The loop does not spin: in an orderly run it is called for the connection at most twice for
each request and three times for each action of the peer, however the bytes are cut and the
socket refuses. -/
theorem calls_le {msgs : List (Message env dir router)} {c : Connection} (fresh : Sys.Fresh c)
    (reading : c.channel.epollIn = true) (home : c.resourceDir = dir ∧ c.router = router)
    {events : List Event} {r : Reactor}
    (run : GuardedRuns.exec (stepOn env) (start c {}) events = some r)
    (within : sentBy events <+: stream msgs)
    (orderly : GuardedRuns.Guarded (stepOn env) Orderly (start c {}) events) :
    calls events ≤ 2 * msgs.length + 3 * peerActions events := by
  have hreceived : receivedOf r.sys.log <+: stream msgs := by
    have hbytes := accounted_events fresh run
    exact (List.prefix_append _ _).trans (hbytes ▸ within)
  have hpaced : Paced (start c {}) := fun hsome => absurd rfl hsome
  have hsteady : Steady msgs (start c {}) := steady_start fresh reading home
  have hbound := work_run_le hsteady hpaced run orderly hreceived
  rw [credit_total, work_start fresh] at hbound
  omega

end

/-- Two requests at once, the first response in two parts: seven calls, where ten are allowed. -/
theorem calls_le_two :
    let env := Env.table []
    let router : Option Router :=
      some (Router.get {} (lit "/a") { respond := fun _ resp => resp.setText (lit "a") })
    let c := enableReadEvent (new 5 (lit "/w") router)
    let both := lit "GET /a HTTP/1.1\r\n\r\nGET /a HTTP/1.1\r\n\r\n"
    let events : List Event :=
      [.deliver both, .wait, .read ⟨[⟨both, by decide⟩], .again⟩, .swap, .run ⟨[10], .again⟩ true,
        .drain, .wait, .write ⟨[1000], .again⟩ ⟨[], .again⟩ true, .swap, .run ⟨[], .again⟩ true,
        .swap, .run ⟨[1000], .again⟩ true]
    (GuardedRuns.exec (stepOn env) (start c {}) events).isSome ∧ calls events = 7 ∧
      calls events ≤ 2 * 2 + 3 * 2 := by
  intro env router c both events
  let m : Message env (lit "/w") router :=
    ⟨lit "GET /a HTTP/1.1\r\n\r\n", _, by decide +kernel, rfl, by decide +kernel,
      by decide +kernel, by decide +kernel⟩
  have hsome : (GuardedRuns.exec (stepOn env) (start c {}) events).isSome := by decide +kernel
  obtain ⟨r, hr⟩ := Option.isSome_iff_exists.mp hsome
  have hwithin : sentBy events <+: stream [m, m] := by decide +kernel
  exact ⟨hsome, rfl, calls_le (Sys.fresh_new 5 (lit "/w") router) rfl ⟨rfl, rfl⟩ hr hwithin
    (by decide +kernel)⟩

end Reactor

end WebServer
