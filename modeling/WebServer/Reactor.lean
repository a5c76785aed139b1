import Mathlib.Data.Fintype.Defs
import WebServer.ConnectionRuns
import WebServer.EdgeTrigger

/-!
# One connection in front of its socket

The runs of a connection beside its socket and the registration in epoll. The peer sends
bytes, ends or breaks the connection, or takes what was sent to it; each of these raises
events. `epoll_wait` reports an event once, and `HandleEvent` calls the handlers in turn:
a hang-up alone, else first the one that reads and then the one that writes. The answers
of `recv`, `send` and `sendfile` agree with the socket: `recv` hands over what is in it,
in pieces of any size, and EAGAIN from `send` means that there is no room.

The calls of a handler are one step. A peer that acts in the middle of it acts just as well
before it, or behind it: what it raises is kept by epoll. Signals are left out, so a send
on a broken connection only fails; the SIGPIPE it raises is not handled by the server and
would end the process, and the runs are those of a process that goes on.
-/

namespace WebServer

open Connection EdgeTrigger

/-- EPOLLIN, EPOLLOUT, and EPOLLERR or EPOLLHUP, which need no interest. -/
inductive IoEvent where
  | input | output | hangup
  deriving DecidableEq

instance : Fintype IoEvent := ⟨{.input, .output, .hangup}, fun e => by cases e <;> decide⟩

structure Socket where
  inbox : Str := []
  ended : Bool := false
  broken : Bool := false
  room : Bool := true

namespace Socket

def isUp (k : Socket) : IoEvent → Bool
  | .input => k.inbox ≠ [] || k.ended || k.broken
  | .output => k.room || k.broken
  | .hangup => k.broken

def up (k : Socket) : Finset IoEvent := Finset.univ.filter fun e => k.isUp e

/-- What `recv` may answer, call after call: pieces of the bytes that are there, then the
end of the stream, an error, or EAGAIN. -/
def Hands (k : Socket) (errno : Errno) : List Packet → Str → Prop
  | [], rest =>
    rest = [] ∧ if errno = .again then k.ended = false ∧ k.broken = false else k.broken = true
  | p :: later, rest =>
    if p.data = [] then rest = [] ∧ later = [] ∧ (k.ended ∨ k.broken)
    else p.data <+: rest ∧ Hands k errno later (rest.drop p.data.length)

instance (k : Socket) (errno : Errno) :
    (packets : List Packet) → (rest : Str) → Decidable (k.Hands errno packets rest)
  | [], rest => by unfold Hands; infer_instance
  | p :: later, rest => by
    have := instDecidableHands k errno later (rest.drop p.data.length)
    unfold Hands
    infer_instance

/-- Calls that accept at least a byte, and an error only when the connection is broken. -/
def Accepts (k : Socket) (sends : Transfers) : Prop :=
  (∀ n ∈ sends.counts, n ≠ 0) ∧ (sends.errno = .other → k.broken = true)

instance (k : Socket) (sends : Transfers) : Decidable (k.Accepts sends) := by
  unfold Accepts
  infer_instance

end Socket

/-- What the registration asks for. -/
def Channel.wants (ch : Channel) : IoEvent → Bool
  | .input => ch.epollIn
  | .output => ch.epollOut
  | .hangup => true

def Channel.interest (ch : Channel) : Finset IoEvent := Finset.univ.filter fun e => ch.wants e

/-! ## What a handler does besides -/

/-- Whether a call was refused with EAGAIN, and whether the handler went through
`UpdateChannel`. -/
structure Traffic where
  refused : Bool
  updated : Bool

namespace Connection

def trySendTraffic (c : Connection) (sends : Transfers) : Traffic :=
  match (c.write sends).1 with
  | .complete => ⟨false, c.isKeepAlive⟩
  | .again => ⟨true, true⟩
  | .error => ⟨false, false⟩

/-- `HandleWrite` goes through `UpdateChannel` unless `sendfile` fails. -/
def handleWriteTraffic (c : Connection) (sends files : Transfers) : Traffic :=
  let (result, c, _) := c.write sends
  if c.writeBuffer.readableBytes = 0 ∧ 0 ≤ c.sendFileFd then
    match (sendfileLoop files.errno files.counts 0 c.sendFileLen).1 with
    | .complete => ⟨false, true⟩
    | .again => ⟨true, true⟩
    | .error => ⟨false, false⟩
  else ⟨result = .again, true⟩

def callTraffic (c : Connection) (cb : Callback) (sends : Transfers) : Traffic :=
  if cb = .trySend ∧ c.state ≠ .closed then c.trySendTraffic sends else ⟨false, false⟩

end Connection

/-- `told` are the events of the last `epoll_wait` that are still to be handled. -/
structure Reactor where
  sys : Sys
  socket : Socket := {}
  watch : Watch IoEvent
  told : Finset IoEvent := ∅

namespace Reactor

/-- The peer, the loop, and the last reference. `room` is what a handler that sends leaves. -/
inductive Act where
  | deliver (data : Str)
  | finish
  | reset
  | drain
  | wait
  | hangup
  | read (env : Env) (arrival : Arrival)
  | write (sends files : Transfers) (room : Bool)
  | swap
  | run (env : Env) (sends : Transfers) (room : Bool)
  | release

/-- The socket changes and raises events. -/
def raise (r : Reactor) (socket : Socket) (raised : Finset IoEvent) : Reactor :=
  { r with socket, watch := r.watch.wake raised }

/-- A handler that may send has run: a refusal takes the room, `UpdateChannel` sets the watch. -/
def settle (r : Reactor) (sys : Sys) (traffic : Traffic) (room : Bool) : Reactor :=
  let socket := { r.socket with room := r.socket.room && room && !traffic.refused }
  { r with
    sys, socket
    watch := if traffic.updated then r.watch.set sys.conn.channel.interest socket.up else r.watch }

/-- The number of bytes that `Read` takes out of the socket. -/
def taken (c : Connection) (arrival : Arrival) : Nat :=
  (receivedOf (c.read arrival).2.2).length

def step (r : Reactor) : Act → Option Reactor
  | .deliver data =>
    if data ≠ [] ∧ r.socket.ended = false ∧ r.socket.broken = false then
      some (r.raise { r.socket with inbox := r.socket.inbox ++ data } {.input}) else none
  | .finish =>
    if r.socket.ended = false ∧ r.socket.broken = false then
      some (r.raise { r.socket with ended := true } {.input}) else none
  | .reset =>
    if r.socket.broken = false then
      some (r.raise { r.socket with broken := true } Finset.univ) else none
  | .drain =>
    if r.socket.room = false then
      some (r.raise { r.socket with room := true } {.output}) else none
  | .wait =>
    if r.sys.batch = [] ∧ r.sys.alive ∧ r.told = ∅ ∧ r.watch.listed then
      some { r with
        told := (r.watch.report r.socket.up).1
        watch := (r.watch.report r.socket.up).2 } else none
  | .hangup =>
    if .hangup ∈ r.told then (r.sys.step .hangup).map fun sys => { r with sys, told := ∅ }
    else none
  | .read env arrival =>
    if .hangup ∉ r.told ∧ .input ∈ r.told ∧
        r.socket.Hands arrival.errno arrival.packets r.socket.inbox then
      (r.sys.step (.readable env arrival)).map fun sys =>
        { r with
          sys
          socket := { r.socket with
            inbox := r.socket.inbox.drop (taken r.sys.conn arrival) }
          told := r.told.erase .input }
    else none
  | .write sends files room =>
    if .hangup ∉ r.told ∧ .input ∉ r.told ∧ .output ∈ r.told ∧ r.socket.Accepts sends ∧
        r.socket.Accepts files then
      (r.sys.step (.writable sends files)).map fun sys =>
        { r.settle sys (r.sys.conn.handleWriteTraffic sends files) room with
          told := r.told.erase .output }
    else none
  | .swap => if r.told = ∅ then (r.sys.step .swap).map fun sys => { r with sys } else none
  | .run env sends room =>
    match r.sys.batch with
    | [] => none
    | cb :: _ =>
      if r.socket.Accepts sends then
        (r.sys.step (.run env sends)).map fun sys =>
          r.settle sys (r.sys.conn.callTraffic cb sends) (room || cb ≠ .trySend)
      else none
  | .release => (r.sys.step .release).map fun sys => { r with sys, told := ∅ }

/-- An accepted connection and its socket, with `EPOLLIN` registered. -/
def start (c : Connection) (k : Socket) : Reactor :=
  { sys := Sys.start c, socket := k
    watch := (⟨∅, false⟩ : Watch IoEvent).set c.channel.interest k.up }

def exec : Reactor → List Act → Option Reactor := GuardedRuns.exec step

/-- The steps, one constructor for each rule. -/
inductive Moved (r : Reactor) : Act → Reactor → Prop where
  | deliver (data : Str) : data ≠ [] → r.socket.ended = false → r.socket.broken = false →
      Moved r (.deliver data)
        (r.raise { r.socket with inbox := r.socket.inbox ++ data } {.input})
  | finish : r.socket.ended = false → r.socket.broken = false →
      Moved r .finish (r.raise { r.socket with ended := true } {.input})
  | reset : r.socket.broken = false →
      Moved r .reset (r.raise { r.socket with broken := true } Finset.univ)
  | drain : r.socket.room = false →
      Moved r .drain (r.raise { r.socket with room := true } {.output})
  | wait : r.sys.batch = [] → r.told = ∅ → r.watch.listed = true →
      Moved r .wait { r with
        told := (r.watch.report r.socket.up).1
        watch := (r.watch.report r.socket.up).2 }
  | hangup : .hangup ∈ r.told → r.sys.batch = [] →
      Moved r .hangup { r with sys := r.sys.after r.sys.conn.handleClose, told := ∅ }
  | read (env : Env) (arrival : Arrival) : .input ∈ r.told →
      r.socket.Hands arrival.errno arrival.packets r.socket.inbox → r.sys.batch = [] →
      Moved r (.read env arrival) { r with
        sys := r.sys.after (r.sys.conn.handleRead env arrival)
        socket := { r.socket with inbox := r.socket.inbox.drop (taken r.sys.conn arrival) }
        told := r.told.erase .input }
  | write (sends files : Transfers) (room : Bool) : .input ∉ r.told → .output ∈ r.told →
      r.socket.Accepts sends → r.socket.Accepts files → r.sys.batch = [] →
      r.sys.conn.channel.epollOut = true →
      Moved r (.write sends files room)
        { r.settle (r.sys.after (r.sys.conn.handleWrite sends files))
            (r.sys.conn.handleWriteTraffic sends files) room with
          told := r.told.erase .output }
  | swap : r.told = ∅ → r.sys.batch = [] →
      Moved r .swap { r with sys := { r.sys with batch := r.sys.pending, pending := [] } }
  | run (env : Env) (sends : Transfers) (room : Bool) (cb : Callback) (rest : List Callback) :
      r.sys.batch = cb :: rest → r.socket.Accepts sends →
      Moved r (.run env sends room)
        (r.settle (Sys.after { r.sys with batch := rest } (r.sys.conn.call cb env sends))
          (r.sys.conn.callTraffic cb sends) (room || cb ≠ .trySend))
  | release : r.sys.functors = [] →
      Moved r .release { r with
        sys := Sys.after { r.sys with alive := false } r.sys.conn.close
        told := ∅ }

/-- Every step is one of the connection or leaves the connection alone. -/
theorem sys_of_step {r r' : Reactor} {a : Act} (h : r.step a = some r') :
    r'.sys = r.sys ∨ ∃ b, r.sys.step b = some r'.sys := by
  cases a with
  | deliver | finish | reset | drain | wait =>
    obtain ⟨-, hr⟩ := Option.ite_none_right_eq_some.mp h
    exact .inl (Option.some.inj hr ▸ rfl)
  | hangup | read | write | swap =>
    obtain ⟨-, hmap⟩ := Option.ite_none_right_eq_some.mp h
    obtain ⟨sys, hsys, rfl⟩ := Option.map_eq_some_iff.mp hmap
    exact .inr ⟨_, hsys⟩
  | run env sends room =>
    cases hbatch : r.sys.batch with
    | nil => simp [step, hbatch] at h
    | cons cb rest =>
      simp only [step, hbatch] at h
      obtain ⟨-, hmap⟩ := Option.ite_none_right_eq_some.mp h
      obtain ⟨sys, hsys, rfl⟩ := Option.map_eq_some_iff.mp hmap
      exact .inr ⟨_, hsys⟩
  | release =>
    obtain ⟨sys, hsys, rfl⟩ := Option.map_eq_some_iff.mp h
    exact .inr ⟨_, hsys⟩

/-- What the socket and epoll let happen is a run of the connection. -/
theorem sys_of_run {c : Connection} {k : Socket} {acts : List Act} {r : Reactor}
    (run : exec (start c k) acts = some r) : ∃ as, Sys.exec (Sys.start c) as = some r.sys :=
  GuardedRuns.invariant_of_run (fun r => ∃ as, Sys.exec (Sys.start c) as = some r.sys)
    (fun s a t ⟨as, has⟩ hstep => by
      rcases sys_of_step hstep with hsame | ⟨b, hb⟩
      · exact ⟨as, hsame ▸ has⟩
      · refine ⟨as ++ [b], (GuardedRuns.exec_append_iff Sys.step _ _ as [b]).mpr ⟨s.sys, has, ?_⟩⟩
        exact (GuardedRuns.exec_cons_iff Sys.step _ _ b []).mpr ⟨t.sys, hb, rfl⟩)
    ⟨[], rfl⟩ run

theorem moved_of_step {r r' : Reactor} {a : Act} (h : r.step a = some r') : Moved r a r' := by
  cases a with
  | deliver data =>
    obtain ⟨⟨hdata, hended, hbroken⟩, hr⟩ := Option.ite_none_right_eq_some.mp h
    obtain rfl := Option.some.inj hr
    exact .deliver data hdata hended hbroken
  | finish =>
    obtain ⟨⟨hended, hbroken⟩, hr⟩ := Option.ite_none_right_eq_some.mp h
    obtain rfl := Option.some.inj hr
    exact .finish hended hbroken
  | reset =>
    obtain ⟨hbroken, hr⟩ := Option.ite_none_right_eq_some.mp h
    obtain rfl := Option.some.inj hr
    exact .reset hbroken
  | drain =>
    obtain ⟨hroom, hr⟩ := Option.ite_none_right_eq_some.mp h
    obtain rfl := Option.some.inj hr
    exact .drain hroom
  | wait =>
    obtain ⟨⟨hbatch, -, htold, hlisted⟩, hr⟩ := Option.ite_none_right_eq_some.mp h
    obtain rfl := Option.some.inj hr
    exact .wait hbatch htold hlisted
  | hangup =>
    obtain ⟨htold, hmap⟩ := Option.ite_none_right_eq_some.mp h
    obtain ⟨sys, hsys, rfl⟩ := Option.map_eq_some_iff.mp hmap
    cases Sys.taken_of_step hsys with
    | hangup hbatch => exact .hangup htold hbatch
  | read env arrival =>
    obtain ⟨⟨-, htold, hands⟩, hmap⟩ := Option.ite_none_right_eq_some.mp h
    obtain ⟨sys, hsys, rfl⟩ := Option.map_eq_some_iff.mp hmap
    cases Sys.taken_of_step hsys with
    | readable _ _ hbatch => exact .read env arrival htold hands hbatch
  | write sends files room =>
    obtain ⟨⟨-, hinput, htold, sending, filing⟩, hmap⟩ := Option.ite_none_right_eq_some.mp h
    obtain ⟨sys, hsys, rfl⟩ := Option.map_eq_some_iff.mp hmap
    cases Sys.taken_of_step hsys with
    | writable _ _ hbatch hout =>
      exact .write sends files room hinput htold sending filing hbatch hout
  | swap =>
    obtain ⟨htold, hmap⟩ := Option.ite_none_right_eq_some.mp h
    obtain ⟨sys, hsys, rfl⟩ := Option.map_eq_some_iff.mp hmap
    cases Sys.taken_of_step hsys with
    | swap hbatch => exact .swap htold hbatch
  | run env sends room =>
    cases hbatch : r.sys.batch with
    | nil => simp [step, hbatch] at h
    | cons cb rest =>
      simp only [step, hbatch] at h
      obtain ⟨accepts, hmap⟩ := Option.ite_none_right_eq_some.mp h
      obtain ⟨sys, hsys, rfl⟩ := Option.map_eq_some_iff.mp hmap
      cases Sys.taken_of_step hsys with
      | run _ _ cb' rest' hbatch' =>
        obtain ⟨rfl, rfl⟩ := List.cons.inj (hbatch.symm.trans hbatch')
        exact .run env sends room cb rest hbatch accepts
  | release =>
    obtain ⟨sys, hsys, rfl⟩ := Option.map_eq_some_iff.mp h
    cases Sys.taken_of_step hsys with
    | release hfunctors => exact .release hfunctors

end Reactor

end WebServer
