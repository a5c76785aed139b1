import WebServer.GuardedRuns
import WebServer.Handlers

/-!
# Runs of one connection

The connection together with the functors that hold it and the record of its
effects. The loop dispatches events, then takes the whole queue as a batch and runs
it; an event is dispatched only between batches. Everything else is open: when
events come, what the system calls answer, and how many events precede a batch.

An EPOLLOUT event needs that interest; EPOLLIN and hang-ups may come at any time.
When no functor holds the connection its last reference may go, which closes it.
What other connections do is not visible here.
-/

namespace WebServer

open Connection

structure Sys where
  conn : Connection
  pending : List Callback := []
  batch : List Callback := []
  log : List Effect := []
  alive : Bool := true

inductive Act where
  | readable (env : Env) (arrival : Arrival)
  | writable (sends files : Transfers)
  | hangup
  | swap
  | run (env : Env) (sends : Transfers)
  | release

namespace Sys

/-- The functors that hold the connection, in the order in which they will run. -/
def functors (s : Sys) : List Callback := s.batch ++ s.pending

/-- A handler has run: its functors join the queue, its effects the record. -/
def after (s : Sys) (out : Connection × List Effect) : Sys :=
  { s with conn := out.1, pending := s.pending ++ queuedOf out.2, log := s.log ++ out.2 }

def step (s : Sys) : Act → Option Sys
  | .readable env arrival =>
    if s.batch = [] ∧ s.alive then some (s.after (s.conn.handleRead env arrival)) else none
  | .writable sends files =>
    if s.batch = [] ∧ s.alive ∧ s.conn.channel.epollOut then
      some (s.after (s.conn.handleWrite sends files)) else none
  | .hangup => if s.batch = [] ∧ s.alive then some (s.after s.conn.handleClose) else none
  | .swap => if s.batch = [] then some { s with batch := s.pending, pending := [] } else none
  | .run env sends =>
    match s.batch with
    | [] => none
    | cb :: rest => some (after { s with batch := rest } (s.conn.call cb env sends))
  | .release =>
    if s.functors = [] ∧ s.alive then some (after { s with alive := false } s.conn.close) else none

theorem functors_after (s : Sys) (batch : List Callback) (alive : Bool)
    (out : Connection × List Effect) :
    (after { s with batch, alive } out).functors = batch ++ s.pending ++ queuedOf out.2 := by
  simp [functors, after]

/-- The steps of the system, one constructor for each rule. -/
inductive Taken (s : Sys) : Act → Sys → Prop where
  | readable (env : Env) (arrival : Arrival) : s.batch = [] →
      Taken s (.readable env arrival) (s.after (s.conn.handleRead env arrival))
  | writable (sends files : Transfers) : s.batch = [] → s.conn.channel.epollOut = true →
      Taken s (.writable sends files) (s.after (s.conn.handleWrite sends files))
  | hangup : s.batch = [] → Taken s .hangup (s.after s.conn.handleClose)
  | swap : s.batch = [] → Taken s .swap { s with batch := s.pending, pending := [] }
  | run (env : Env) (sends : Transfers) (cb : Callback) (rest : List Callback) :
      s.batch = cb :: rest →
      Taken s (.run env sends) (after { s with batch := rest } (s.conn.call cb env sends))
  | release : s.functors = [] → Taken s .release (after { s with alive := false } s.conn.close)

theorem taken_of_step {s t : Sys} {a : Act} (h : s.step a = some t) : Taken s a t := by
  cases a with
  | readable env arrival =>
    obtain ⟨⟨hbatch, -⟩, ht⟩ := Option.ite_none_right_eq_some.mp h
    obtain rfl := Option.some.inj ht
    exact .readable env arrival hbatch
  | writable sends files =>
    obtain ⟨⟨hbatch, -, hout⟩, ht⟩ := Option.ite_none_right_eq_some.mp h
    obtain rfl := Option.some.inj ht
    exact .writable sends files hbatch hout
  | hangup =>
    obtain ⟨⟨hbatch, -⟩, ht⟩ := Option.ite_none_right_eq_some.mp h
    obtain rfl := Option.some.inj ht
    exact .hangup hbatch
  | swap =>
    obtain ⟨hbatch, ht⟩ := Option.ite_none_right_eq_some.mp h
    obtain rfl := Option.some.inj ht
    exact .swap hbatch
  | run env sends =>
    cases hbatch : s.batch with
    | nil => simp [step, hbatch] at h
    | cons cb rest =>
      obtain rfl : after { s with batch := rest } (s.conn.call cb env sends) = t := by
        simpa [step, hbatch] using h
      exact .run env sends cb rest hbatch
  | release =>
    obtain ⟨⟨hfunctors, -⟩, ht⟩ := Option.ite_none_right_eq_some.mp h
    obtain rfl := Option.some.inj ht
    exact .release hfunctors

/-- A connection as accepted: new or reused, with interest in EPOLLIN. -/
structure Fresh (c : Connection) : Prop where
  ready : c.Ready
  state : c.state = .connected
  context : c.context = .reset
  unread : c.readBuffer.peekReadable = []
  unsent : c.writeBuffer.peekReadable = []
  noLength : c.sendFileLen = 0
  noWrite : c.channel.epollOut = false

theorem fresh_new (fd : Int) (resourceDir : Str) (router : Option Router) :
    Fresh (enableReadEvent (new fd resourceDir router)) :=
  ⟨ready_enableReadEvent (ready_new fd resourceDir router), rfl, rfl,
    Buffer.new_peekReadable 1024, Buffer.new_peekReadable 1024, rfl, rfl⟩

theorem fresh_reuse (c : Connection) (fd : Int) (resourceDir : Str) (router : Option Router) :
    Fresh (enableReadEvent (c.reuse fd resourceDir router)) :=
  ⟨ready_enableReadEvent (ready_reuse c fd resourceDir router), rfl, rfl,
    Buffer.clear_peekReadable _, Buffer.clear_peekReadable _, rfl, rfl⟩

/-- The system of an accepted connection. -/
def start (c : Connection) : Sys := { conn := c }

def exec : Sys → List Act → Option Sys := GuardedRuns.exec step

/-- One packet arrives, and then nothing more for now. -/
def arrives (env : Env) (data : Str) (fits : data.length ≤ 4096) : Act :=
  .readable env ⟨[⟨data, fits⟩], .again⟩

/-- The next functor runs, and the socket accepts up to 1000 bytes. -/
def runs (env : Env) : Act := .run env ⟨[1000], .again⟩

theorem buffersWf_step {s t : Sys} {a : Act} (h : BuffersWf s.conn) (hstep : s.step a = some t) :
    BuffersWf t.conn := by
  cases taken_of_step hstep with
  | readable env arrival => exact buffersWf_handleRead h env arrival
  | writable sends files => exact buffersWf_handleWrite h sends files
  | hangup => exact h
  | swap => exact h
  | run env sends cb rest => exact buffersWf_call h cb env sends
  | release => exact buffersWf_close h

theorem buffersWf_run {c : Connection} (fresh : Fresh c) {as : List Act} {s : Sys}
    (run : exec (start c) as = some s) : BuffersWf s.conn :=
  GuardedRuns.invariant_of_run (fun s => BuffersWf s.conn)
    (fun _ _ _ h hstep => buffersWf_step h hstep)
    ⟨fresh.ready.readBuffer, fresh.ready.writeBuffer⟩ run

end Sys

end WebServer
