import Mathlib.Logic.Function.Basic
import WebServer.Connection
import WebServer.GuardedRuns

/-!
# The server and its event loops

Connections by the number of their accept, and the loops that hold them. Accepts,
events, timer expiries, and functors are single steps in any order, except that a loop
dispatches events and expires timers only between two batches. Any loop may be picked
for a new connection and any number that is not open may be its descriptor.

References are counted by looking: a connection is held by the map of its loop and by
the functors of that loop, those that have run included until the batch is destroyed.
Expiry times and the order of the heap are not represented, and a data race between
the thread that accepts and a loop is not a step.
-/

namespace WebServer

open KeyedList

/-- The functors of a loop. Those that remove by number note for whom they were
queued; only the record of the run reads the note. -/
inductive LoopFunctor where
  | call (who : Nat) (cb : Callback)
  | timeout (fd : Int) (who : Nat)
  | erase (fd : Int) (who : Nat)
  deriving DecidableEq

/-- The connection that a functor keeps alive. -/
def LoopFunctor.self : LoopFunctor → Option Nat
  | .call who _ => some who
  | _ => none

/-- A raw object waiting for reuse. -/
structure Pooled where
  object : Nat
  conn : Connection

/-- `ObjectPool`, with its default size. -/
structure ObjectPool where
  objects : List Pooled := []
  bounded : objects.length ≤ 1024 := by decide

namespace ObjectPool

def maxSize : Nat := 1024

def get (p : ObjectPool) : Option (Pooled × ObjectPool) :=
  match p with
  | ⟨[], _⟩ => none
  | ⟨o :: rest, h⟩ => some (o, ⟨rest, Nat.le_of_succ_le h⟩)

/-- A full pool deletes what is returned to it. -/
def giveBack (p : ObjectPool) (o : Pooled) : ObjectPool :=
  if h : p.objects.length < maxSize then
    ⟨p.objects ++ [o], by rw [List.length_append]; exact h⟩
  else p

end ObjectPool

structure EventLoop where
  connections : Dict Int Nat := .empty
  timers : Dict Int Nat := .empty
  pending : List LoopFunctor := []
  batch : List LoopFunctor := []
  ran : List LoopFunctor := []
  pool : ObjectPool := {}

namespace EventLoop

/-- All functors of the loop; those in `ran` only keep connections alive. -/
def functors (l : EventLoop) : List LoopFunctor := l.ran ++ l.batch ++ l.pending

/-- The functors that are still to run. -/
def waiting (l : EventLoop) : List LoopFunctor := l.batch ++ l.pending

/-- Between two batches. -/
def idle (l : EventLoop) : Bool := l.batch = [] ∧ l.ran = []

/-- The loop has a reference to the connection. -/
def holds (l : EventLoop) (who : Nat) : Bool :=
  l.connections.pairs.any (fun p => p.2 = who) || l.functors.any (fun f => f.self = some who)

end EventLoop

/-- A connection with at least one reference: its object, its loop and its state. -/
structure Shared where
  object : Nat
  home : Nat
  conn : Connection

/-- What happens to sockets and objects. -/
inductive ServerEffect where
  | accepted (who : Nat) (object : Nat) (fd : Int)
  | erased (loop : Nat) (fd : Int) (whom : Nat) (removed : Option Nat)
  | closed (who : Nat) (fd : Int)
  | pooled (object : Nat)
  | deleted (object : Nat)
  deriving DecidableEq

structure Server where
  resourceDir : Str
  router : Option Router
  loops : Nat → EventLoop := fun _ => {}
  live : Dict Nat Shared := .empty
  accepts : Nat := 0
  objects : Nat := 0
  log : List ServerEffect := []

inductive ServerAct where
  | accept (loop : Nat) (fd : Int)
  | readable (who : Nat) (env : Env) (arrival : Arrival)
  | writable (who : Nat) (sends files : Transfers)
  | hangup (who : Nat)
  | expire (loop : Nat) (fd : Int)
  | swap (loop : Nat)
  | run (loop : Nat) (env : Env) (sends : Transfers)
  | destroy (loop : Nat)

/-- The functors that a handler puts in the queue of its loop: its own, and those of
`RemoveConnection`. -/
def functorsOf (who : Nat) (fx : List Effect) : List LoopFunctor :=
  fx.filterMap fun
    | .queued cb => some (.call who cb)
    | .removal fd => some (.erase fd who)
    | _ => none

namespace Server

def setLoop (s : Server) (l : Nat) (loop : EventLoop) : Server :=
  { s with loops := Function.update s.loops l loop }

def queueInLoop (s : Server) (l : Nat) (fs : List LoopFunctor) : Server :=
  s.setLoop l { s.loops l with pending := (s.loops l).pending ++ fs }

def record (s : Server) (e : ServerEffect) : Server := { s with log := s.log ++ [e] }

/-- A handler of the connection has run. -/
def perform (s : Server) (who : Nat) (m : Shared) (out : Connection × List Effect) : Server :=
  queueInLoop { s with live := s.live.insert who { m with conn := out.1 } } m.home
    (functorsOf who out.2)

/-- The deleter: close the socket and return the object to the pool of its loop. -/
def release (s : Server) (who : Nat) (m : Shared) : Server :=
  let loop := s.loops m.home
  let pool := loop.pool.giveBack ⟨m.object, m.conn.close.1⟩
  let kept := if loop.pool.objects.length < ObjectPool.maxSize then
    ServerEffect.pooled m.object else .deleted m.object
  record (record (setLoop { s with live := s.live.erase who } m.home { loop with pool })
    (.closed who m.conn.fd)) kept

/-- A reference to the connection is gone. -/
def drop (s : Server) (who : Nat) : Server :=
  match s.live.find who with
  | none => s
  | some m => if (s.loops m.home).holds who then s else s.release who m

def isOpen (s : Server) (fd : Int) : Bool := s.live.pairs.any fun p => p.2.conn.fd = fd

/-- The object for a new connection, reused from the pool of the loop if there is one. -/
def acquire (s : Server) (l : Nat) (fd : Int) : Pooled × Nat × ObjectPool :=
  match (s.loops l).pool.get with
  | some (o, pool) => (⟨o.object, o.conn.reuse fd s.resourceDir s.router⟩, s.objects, pool)
  | none => (⟨s.objects, .new fd s.resourceDir s.router⟩, s.objects + 1, (s.loops l).pool)

/-- Enter a connection into the loop, with its interest in EPOLLIN and its timer. -/
def enroll (s : Server) (l : Nat) (fd : Int) (o : Pooled) (objects : Nat) (pool : ObjectPool) :
    Server :=
  let who := s.accepts
  let loop := { s.loops l with
    pool
    connections := (s.loops l).connections.insert fd who
    timers := (s.loops l).timers.insert fd who }
  record (setLoop { s with
    live := s.live.insert who ⟨o.object, l, o.conn.enableReadEvent⟩
    accepts := who + 1
    objects } l loop) (.accepted who o.object fd)

/-- One round of the loop of `HandleListenEvent`. -/
def handleListenEvent (s : Server) (l : Nat) (fd : Int) : Server :=
  let (o, objects, pool) := s.acquire l fd
  let t := s.enroll l fd o objects pool
  ((s.loops l).connections.find fd).elim t t.drop

/-- `connections_.erase(fd)` -/
def erase (s : Server) (l : Nat) (fd : Int) (whom : Nat) : Server :=
  let loop := s.loops l
  let removed := loop.connections.find fd
  let s := record (s.setLoop l { loop with connections := loop.connections.erase fd })
    (.erased l fd whom removed)
  removed.elim s s.drop

/-- Take the first functor of the batch. -/
def take (s : Server) (l : Nat) (f : LoopFunctor) (rest : List LoopFunctor) : Server :=
  s.setLoop l { s.loops l with batch := rest, ran := (s.loops l).ran ++ [f] }

def runFunctor (s : Server) (l : Nat) (env : Env) (sends : Transfers) : LoopFunctor → Server
  | .call who cb => (s.live.find who).elim s fun m => s.perform who m (m.conn.call cb env sends)
  | .timeout fd who => s.queueInLoop l [.erase fd who]
  | .erase fd who => s.erase l fd who

/-- A timer of the loop has expired: its node goes before its callback is called. -/
def expire (s : Server) (l : Nat) (fd : Int) (who : Nat) : Server :=
  s.setLoop l { s.loops l with
    timers := (s.loops l).timers.erase fd
    pending := (s.loops l).pending ++ [.timeout fd who] }

/-- `funcs.swap(pendingFunctors_)` -/
def swap (s : Server) (l : Nat) : Server :=
  s.setLoop l { s.loops l with batch := (s.loops l).pending, pending := [] }

/-- The end of `DoPendingFunctors` destroys the functors of the batch in order. -/
def destroy (s : Server) (l : Nat) : Server :=
  ((s.loops l).ran.filterMap (·.self)).foldl drop (s.setLoop l { s.loops l with ran := [] })

/-- Let a handler of a connection run, between two batches of its loop. -/
def dispatch (s : Server) (who : Nat) (ready : Connection → Bool)
    (handler : Connection → Connection × List Effect) : Option Server :=
  match s.live.find who with
  | none => none
  | some m =>
    if (s.loops m.home).idle ∧ ready m.conn then some (s.perform who m (handler m.conn)) else none

def step (s : Server) : ServerAct → Option Server
  | .accept l fd =>
    if 0 ≤ fd ∧ s.isOpen fd = false then some (s.handleListenEvent l fd) else none
  | .readable who env arrival => s.dispatch who (fun _ => true) (·.handleRead env arrival)
  | .writable who sends files => s.dispatch who (·.channel.epollOut) (·.handleWrite sends files)
  | .hangup who => s.dispatch who (fun _ => true) (·.handleClose)
  | .expire l fd =>
    match (s.loops l).timers.find fd with
    | none => none
    | some who =>
      if (s.loops l).idle then some (s.expire l fd who) else none
  | .swap l =>
    if (s.loops l).idle then some (s.swap l) else none
  | .run l env sends =>
    match (s.loops l).batch with
    | [] => none
    | f :: rest => some ((s.take l f rest).runFunctor l env sends f)
  | .destroy l =>
    if (s.loops l).batch = [] then some (s.destroy l) else none

def exec : Server → List ServerAct → Option Server := GuardedRuns.exec step

end Server

end WebServer
