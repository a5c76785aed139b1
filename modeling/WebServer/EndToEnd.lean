import WebServer.Pipelining
import WebServer.ReactorRest

/-!
# From the peer's bytes to the peer's answers

A peer that sends whole keep-alive requests, answered from memory, and takes what it is
sent. Two accounts of the connection are put together. The phases say which functor or
event will take up the next request, the invariant of the reactor says that epoll reports
that event; neither alone excludes that a delivered request is left lying.
-/

namespace WebServer

open Connection EdgeTrigger Resumable HttpContext

namespace Reactor

/-- What happens while the peer keeps its side open, in a world that does not change. -/
inductive Event where
  | deliver (data : Str)
  | drain
  | wait
  | read (arrival : Arrival)
  | write (sends files : Transfers) (room : Bool)
  | swap
  | run (sends : Transfers) (room : Bool)

def Event.act (env : Env) : Event → Act
  | .deliver data => .deliver data
  | .drain => .drain
  | .wait => .wait
  | .read arrival => .read env arrival
  | .write sends files room => .write sends files room
  | .swap => .swap
  | .run sends room => .run env sends room

def stepOn (env : Env) (r : Reactor) (e : Event) : Option Reactor := r.step (e.act env)

/-- No read stops at 2 MiB, and none completes a request that a queued functor is to take up. -/
def Orderly (r : Reactor) : Event → Prop
  | .read arrival => (r.sys.conn.read arrival).1 = .success ∧
      (.processInWorker ∈ r.sys.functors → r.sys.conn.state = .connected →
        (r.sys.conn.read arrival).2.1.parsed.1 = .incomplete)
  | _ => True

instance (r : Reactor) : (e : Event) → Decidable (Orderly r e)
  | .read _ => by unfold Orderly; infer_instance
  | .deliver _ | .drain | .wait | .write _ _ _ | .swap | .run _ _ => .isTrue trivial

/-- The bytes of the deliveries among the events. -/
def sentBy (events : List Event) : Str :=
  events.flatMap fun | .deliver data => data | _ => []

theorem delivered_events (env : Env) (events : List Event) :
    delivered (events.map (·.act env)) = sentBy events := by
  rw [delivered, List.flatMap_map, sentBy]
  congr 1
  funext e
  cases e <;> rfl

theorem exec_events (env : Env) (r : Reactor) (events : List Event) :
    GuardedRuns.exec (stepOn env) r events = exec r (events.map (·.act env)) := by
  induction events generalizing r with
  | nil => rfl
  | cons e events ih =>
    rw [List.map_cons, exec, GuardedRuns.exec, GuardedRuns.exec]
    exact congrArg _ (funext fun t => ih t)

section
variable {env : Env} {dir : Str} {router : Option Router}

/-- Both accounts, while nothing has set a removal going. -/
structure Steady (msgs : List (Message env dir router)) (r : Reactor) : Prop where
  attended : Attended r
  phase : Phase msgs r.sys.conn r.sys.functors r.sys.log
  unended : r.socket.ended = false
  unbroken : r.socket.broken = false
  alive : r.sys.alive = true
  kept : ∀ fd, .removal fd ∉ r.sys.log

/-- No functor of a phase removes the connection. -/
theorem phase_functors {msgs : List (Message env dir router)} {c : Connection}
    {functors : List Callback} {log : List Effect} (phase : Phase msgs c functors log) :
    ∀ cb ∈ functors, cb = .processInWorker ∨ cb = .trySend := by
  cases phase with
  | idle => exact List.forall_mem_nil _
  | queued => exact List.forall_mem_singleton.mpr (.inl rfl)
  | sending => exact List.forall_mem_singleton.mpr (.inr rfl)
  | blocked => exact List.forall_mem_nil _

theorem not_leaving {msgs : List (Message env dir router)} {s : Sys}
    (phase : Phase msgs s.conn s.functors s.log) (alive : s.alive = true)
    (kept : ∀ fd, .removal fd ∉ s.log) : ¬Leaving s := by
  intro hleaving
  cases hleaving with
  | closing hcb => rcases phase_functors phase _ hcb with hne | hne <;> cases hne
  | removing hcb => rcases phase_functors phase _ hcb with hne | hne <;> cases hne
  | removed fd hfd => exact kept fd hfd
  | gone hgone => exact absurd (alive.symm.trans hgone) (by decide)

/-- A socket that is not broken refuses only with EAGAIN. -/
theorem flowing_accepts {k : Socket} {sends : Transfers} (accepts : k.Accepts sends)
    (unbroken : k.broken = false) : Sys.Flowing sends := by
  refine ⟨?_, accepts.1⟩
  cases herrno : sends.errno with
  | again => rfl
  | other => exact absurd (unbroken.symm.trans (accepts.2 herrno)) Bool.false_ne_true

theorem plain_kept {log fx : List Effect} (kept : ∀ fd, .removal fd ∉ log) (plain : Plain fx) :
    ∀ fd, .removal fd ∉ log ++ fx := by
  intro fd hfd
  rcases List.mem_append.mp hfd with hlog | hfx
  · exact kept fd hlog
  · cases plain _ hfx

theorem steady_phase {msgs : List (Message env dir router)} {r r' : Reactor} {e : Event}
    (h : Steady msgs r) (orderly : Orderly r e) (hmoved : Moved r (e.act env) r')
    (within : receivedOf r'.sys.log <+: stream msgs) :
    Phase msgs r'.sys.conn r'.sys.functors r'.sys.log := by
  cases e with
  | deliver | drain =>
    cases hmoved
    exact h.phase
  | wait =>
    cases hmoved
    exact h.phase
  | read arrival =>
    cases hmoved with
    | read =>
      have hnext := Sys.phase_handleRead h.phase within orderly.1 orderly.2
      have hfunctors : (r.sys.after (r.sys.conn.handleRead env arrival)).functors =
          r.sys.functors ++ queuedOf (r.sys.conn.handleRead env arrival).2 :=
        Sys.functors_after r.sys r.sys.batch r.sys.alive _
      rw [hfunctors]
      exact hnext
  | write sends files room =>
    cases hmoved with
    | write _ _ _ _ _ accepts _ _ hout =>
      have hflowing := flowing_accepts accepts h.unbroken
      have hnext : Phase msgs (r.sys.conn.handleWrite sends files).1
          (r.sys.functors ++ queuedOf (r.sys.conn.handleWrite sends files).2)
          (r.sys.log ++ (r.sys.conn.handleWrite sends files).2) :=
        Sys.phase_writable h.phase hout hflowing
      have hfunctors : (r.sys.after (r.sys.conn.handleWrite sends files)).functors =
          r.sys.functors ++ queuedOf (r.sys.conn.handleWrite sends files).2 :=
        Sys.functors_after r.sys r.sys.batch r.sys.alive _
      show Phase msgs _ (r.sys.after (r.sys.conn.handleWrite sends files)).functors _
      rw [hfunctors]
      exact hnext
  | swap =>
    cases hmoved with
    | swap _ hbatch => simpa [Sys.functors, hbatch] using h.phase
  | run sends room =>
    cases hmoved with
    | run _ _ _ cb rest hbatch accepts =>
      have hflowing := flowing_accepts accepts h.unbroken
      have hphase := h.phase
      have hsplit : r.sys.functors = cb :: (rest ++ r.sys.pending) := by
        rw [Sys.functors, hbatch, List.cons_append]
      rw [hsplit] at hphase
      have hnext := Sys.phase_call hphase within hflowing
      have hfunctors := Sys.functors_after r.sys rest r.sys.alive (r.sys.conn.call cb env sends)
      show Phase msgs _
        (Sys.after { r.sys with batch := rest } (r.sys.conn.call cb env sends)).functors _
      rw [hfunctors]
      exact hnext

theorem steady_step {msgs : List (Message env dir router)} {r r' : Reactor} {e : Event}
    (h : Steady msgs r) (orderly : Orderly r e) (hstep : r.stepOn env e = some r')
    (within : receivedOf r'.sys.log <+: stream msgs) : Steady msgs r' := by
  have hmoved := moved_of_step hstep
  have hphase := steady_phase h orderly hmoved within
  have hrest : r'.socket.ended = false ∧ r'.socket.broken = false ∧ r'.sys.alive = true ∧
      ∀ fd, .removal fd ∉ r'.sys.log := by
    cases e with
    | deliver | drain | wait | swap =>
      cases hmoved
      exact ⟨h.unended, h.unbroken, h.alive, h.kept⟩
    | read arrival =>
      cases hmoved
      obtain ⟨fx, hplain, hfx⟩ := handleRead_effects r.sys.conn env arrival
      have hread := (readLoop_spec arrival.errno arrival.packets h.attended.buffers.read).packets
      obtain ⟨packets, hpackets, -⟩ := hread
      have heffects : (r.sys.conn.read arrival).2.2 = packets.map .received := hpackets
      refine ⟨h.unended, h.unbroken, h.alive, ?_⟩
      show ∀ fd, .removal fd ∉ r.sys.log ++ (r.sys.conn.handleRead env arrival).2
      rw [hfx, heffects, ← List.append_assoc]
      refine plain_kept ?_ hplain
      intro fd hfd
      rcases List.mem_append.mp hfd with hlog | hreceived
      · exact h.kept fd hlog
      · obtain ⟨_, -, hne⟩ := List.mem_map.mp hreceived
        cases hne
    | write sends files room =>
      cases hmoved
      exact ⟨h.unended, h.unbroken, h.alive,
        plain_kept h.kept (plain_handleWrite h.attended.buffers sends files)⟩
    | run sends room =>
      cases hmoved with
      | run _ _ _ cb rest hbatch =>
        have hmem : cb ∈ r.sys.functors := by
          rw [Sys.functors, hbatch]
          exact List.mem_append_left _ (List.mem_cons_self)
        have hcb : cb ≠ .removeConnection := by
          rcases phase_functors h.phase cb hmem with rfl | rfl <;> decide
        exact ⟨h.unended, h.unbroken, h.alive,
          plain_kept h.kept (plain_call h.attended.buffers hcb env sends)⟩
  obtain ⟨hended, hbroken, halive, hkept⟩ := hrest
  rcases attended_step h.attended hstep with hleaving | hattended
  · exact absurd hleaving (not_leaving hphase halive hkept)
  · exact ⟨hattended, hphase, hended, hbroken, halive, hkept⟩

theorem steady_start {msgs : List (Message env dir router)} {c : Connection}
    (fresh : Sys.Fresh c) (reading : c.channel.epollIn = true)
    (home : c.resourceDir = dir ∧ c.router = router) : Steady msgs (start c {}) :=
  ⟨attended_start fresh reading {}, Sys.phase_start fresh home, rfl, rfl, rfl,
    fun _ hfd => by cases hfd⟩

theorem accounted_events {c : Connection} (fresh : Sys.Fresh c) {events : List Event} {r : Reactor}
    (run : GuardedRuns.exec (stepOn env) (start c {}) events = some r) :
    receivedOf r.sys.log ++ r.socket.inbox = sentBy events := by
  rw [exec_events] at run
  have hbytes := (accounted_of_run fresh run).bytes
  rw [delivered_events] at hbytes
  exact hbytes

theorem received_kept {r r' : Reactor} {a : Act} (hstep : r.step a = some r') :
    receivedOf r.sys.log <+: receivedOf r'.sys.log := by
  rcases sys_of_step hstep with hsame | ⟨b, hb⟩
  · rw [hsame]
  · exact Sys.received_step hb

theorem steady_of_run {msgs : List (Message env dir router)} {c : Connection}
    (fresh : Sys.Fresh c) (reading : c.channel.epollIn = true)
    (home : c.resourceDir = dir ∧ c.router = router) {events : List Event} {r : Reactor}
    (run : GuardedRuns.exec (stepOn env) (start c {}) events = some r)
    (within : sentBy events <+: stream msgs)
    (orderly : GuardedRuns.Guarded (stepOn env) Orderly (start c {}) events) : Steady msgs r := by
  have hreceived : receivedOf r.sys.log <+: stream msgs := by
    have hbytes := accounted_events fresh run
    exact (List.prefix_append _ _).trans (hbytes ▸ within)
  exact GuardedRuns.invariant_of_guarded
    (fun r => receivedOf r.sys.log <+: stream msgs → Steady msgs r)
    (fun _ _ _ h hok hstep hwithin =>
      steady_step (h ((received_kept hstep).trans hwithin)) hok hstep hwithin)
    (fun _ => steady_start fresh reading home) orderly run hreceived

/-- Everything that was delivered in full has been answered, and nothing else. -/
def CaughtUp (msgs : List (Message env dir router)) (bytes sent : Str) : Prop :=
  ∃ done todo tail, msgs = done ++ todo ∧ bytes = stream done ++ tail ∧
    (∀ m ∈ todo.head?, ¬m.bytes <+: tail) ∧ sent = answers done

/-- A parser that waits at the end of `tail` has not seen a whole message. -/
theorem tail_short {m : Message env dir router} {tail : Str} {ctx : HttpContext} {rest : Str}
    (h : Drives move .reset tail none ctx rest) : ¬m.bytes <+: tail := by
  rintro ⟨more, rfl⟩
  have hwhole := drives_extend move_stable m.request.drives more
  cases (drives_unique h hwhole).1

theorem caughtUp_rest {msgs : List (Message env dir router)} {r : Reactor} (h : Steady msgs r)
    (rest : AtRest r) (room : r.socket.room = true) :
    CaughtUp msgs (receivedOf r.sys.log) (sentOf r.sys.log) := by
  obtain ⟨hfunctors, hlisted, htold⟩ := rest
  have hphase := h.phase
  rw [hfunctors] at hphase
  generalize hnone : ([] : List Callback) = functors at hphase
  cases hphase with
  | @idle done todo tail _ _ split hbetween _ hwaits =>
    exact ⟨done, todo, tail, split, hbetween.received, fun m _ => tail_short hwaits,
      hbetween.sent⟩
  | queued => cases hnone
  | sending => cases hnone
  | blocked _ _ hout =>
    -- a response waits for room that is there: epoll would have reported it
    have hinterest : .output ∈ r.watch.interest := by
      rw [h.attended.registered]
      exact Channel.mem_interest.mpr hout
    have hnoticed := h.attended.noticed
    rw [htold] at hnoticed
    have hdown := Watch.noticed_rest hnoticed hlisted hinterest
    rw [Socket.mem_up, Socket.isUp, room] at hdown
    exact absurd rfl hdown

/-- At rest the input buffer of the socket is empty. -/
theorem received_rest {r : Reactor} {bytes : Str} (attended : Attended r)
    (accounted : receivedOf r.sys.log ++ r.socket.inbox = bytes) (rest : AtRest r) :
    receivedOf r.sys.log = bytes := by
  obtain ⟨hinbox, -⟩ := attended_rest attended rest
  rw [hinbox, List.append_nil] at accounted
  exact accounted

/-- A peer sends a stream of requests, cut anywhere, and takes the answers as it likes. At every
moment the bytes it was sent are a prefix of the answers in order; and whenever the loop has
nothing left to do and the socket has room, all requests delivered in full are answered. -/
theorem answered_end_to_end {msgs : List (Message env dir router)} {c : Connection}
    (fresh : Sys.Fresh c) (reading : c.channel.epollIn = true)
    (home : c.resourceDir = dir ∧ c.router = router) {events : List Event} {r : Reactor}
    (run : GuardedRuns.exec (stepOn env) (start c {}) events = some r)
    (within : sentBy events <+: stream msgs)
    (orderly : GuardedRuns.Guarded (stepOn env) Orderly (start c {}) events) :
    sentOf r.sys.log <+: answers msgs ∧
      (AtRest r → r.socket.room = true →
        CaughtUp msgs (sentBy events) (sentOf r.sys.log)) := by
  have hsteady := steady_of_run fresh reading home run within orderly
  refine ⟨(Sys.phase_wire hsteady.phase).1, ?_⟩
  intro hrest hroom
  have hcaught := caughtUp_rest hsteady hrest hroom
  have hbytes := received_rest hsteady.attended (accounted_events fresh run) hrest
  rw [← hbytes]
  exact hcaught

end

/-- Two requests and a part of a third. The socket refuses the rest of the first response
until the peer has taken some of it. -/
theorem answered_end_to_end_refused :
    let env := Env.table []
    let router : Option Router :=
      some (Router.get {} (lit "/a") { respond := fun _ resp => resp.setText (lit "a") })
    let c := enableReadEvent (new 5 (lit "/w") router)
    let rest := lit "a HTTP/1.1\r\n\r\nGET /a HTTP/1.1\r\n\r\nGE"
    let events : List Event :=
      [.deliver (lit "GET /"), .wait, .read ⟨[⟨lit "GET /", by decide⟩], .again⟩,
        .deliver rest, .wait, .read ⟨[⟨rest, by decide⟩], .again⟩,
        .swap, .run ⟨[10], .again⟩ true, .drain, .wait,
        .write ⟨[1000], .again⟩ ⟨[], .again⟩ true, .swap, .run ⟨[], .again⟩ true,
        .swap, .run ⟨[1000], .again⟩ true, .swap, .run ⟨[], .again⟩ true]
    ∃ m : Message env (lit "/w") router, m.bytes = lit "GET /a HTTP/1.1\r\n\r\n" ∧
      ∃ r, GuardedRuns.exec (stepOn env) (start c {}) events = some r ∧
        CaughtUp [m, m, m] (sentBy events) (sentOf r.sys.log) := by
  intro env router c rest events
  let m : Message env (lit "/w") router :=
    ⟨lit "GET /a HTTP/1.1\r\n\r\n", _, by decide +kernel, rfl, by decide +kernel,
      by decide +kernel, by decide +kernel⟩
  have hend : (GuardedRuns.exec (stepOn env) (start c {}) events).map (fun r =>
      (r.sys.functors, r.watch.listed, r.told, r.socket.room)) = some ([], false, ∅, true) := by
    decide +kernel
  obtain ⟨r, hr, hparts⟩ := Option.map_eq_some_iff.mp hend
  simp only [Prod.mk.injEq] at hparts
  obtain ⟨hfunctors, hlisted, htold, hroom⟩ := hparts
  have hwithin : sentBy events <+: stream [m, m, m] := by decide +kernel
  have hall := (answered_end_to_end (Sys.fresh_new 5 (lit "/w") router) rfl ⟨rfl, rfl⟩ hr hwithin
    (by decide +kernel)).2
  exact ⟨m, rfl, r, hr, hall ⟨hfunctors, hlisted, htold⟩ hroom⟩

end Reactor

end WebServer
