import Mathlib.Data.Int.CardIntervalMod
import WebServer.ServerRest

/-!
# Connections from the backlog

The kernel queues a connection when its handshake is complete, and epoll tells the main loop of
it once. `HandleListenEvent` takes connections off the queue until `accept` fails, and deals
them to the IO loops in turn. Only a failure with EAGAIN says that the queue is empty. After any
other one the rest of the queue waits for the next connection to come.

An accept of the server model happens here only for a connection of the queue and with the loop
that `GetNextLoop` gives. The loops go on between any two calls of `accept`.
-/

namespace WebServer

open EdgeTrigger

/-! ## The IO loops -/

structure EventLoopThreadPool where
  baseLoop : Nat
  loops : List Nat := []
  next : Nat := 0
  inRange : next ≤ loops.length - 1

namespace EventLoopThreadPool

def new (baseLoop : Nat) : EventLoopThreadPool := { baseLoop, inRange := Nat.zero_le _ }

/-- `loops_.push_back(loop)` -/
def push (p : EventLoopThreadPool) (loop : Nat) : EventLoopThreadPool where
  baseLoop := p.baseLoop
  loops := p.loops ++ [loop]
  next := p.next
  inRange := by
    have hrange := p.inRange
    rw [List.length_append, List.length_singleton]
    omega

/-- The loops are those that `StartLoop` returns, in this order. -/
def start (p : EventLoopThreadPool) (started : List Nat) : EventLoopThreadPool :=
  started.foldl push p

def getNextLoop (p : EventLoopThreadPool) : Nat × EventLoopThreadPool :=
  if h : p.loops = [] then (p.baseLoop, p)
  else
    (p.loops.get ⟨p.next, by
      have hrange := p.inRange
      have hpos := List.length_pos_iff.mpr h
      omega⟩,
    { p with
      next := (p.next + 1) % p.loops.length
      inRange := by
        have hpos := List.length_pos_iff.mpr h
        have hlt := Nat.mod_lt (p.next + 1) hpos
        omega })

/-- The loop of the connection with this number. -/
def turn (baseLoop : Nat) (loops : List Nat) (k : Nat) : Nat :=
  loops.getD (k % loops.length) baseLoop

theorem start_parts (p : EventLoopThreadPool) (started : List Nat) :
    (p.start started).baseLoop = p.baseLoop ∧ (p.start started).loops = p.loops ++ started ∧
      (p.start started).next = p.next := by
  induction started generalizing p with
  | nil => exact ⟨rfl, (List.append_nil _).symm, rfl⟩
  | cons loop rest ih =>
    obtain ⟨hbase, hloops, hnext⟩ := ih (p.push loop)
    refine ⟨hbase, ?_, hnext⟩
    have hmore : (p.push loop).loops ++ rest = p.loops ++ loop :: rest := by simp [push]
    exact hloops.trans hmore

/-- After `k` calls the next one gives the loop of number `k`. -/
structure At (p : EventLoopThreadPool) (baseLoop : Nat) (ring : List Nat) (k : Nat) : Prop where
  base : p.baseLoop = baseLoop
  loops : p.loops = ring
  next : ring ≠ [] → p.next = k % ring.length

theorem at_start (baseLoop : Nat) (started : List Nat) :
    ((new baseLoop).start started).At baseLoop started 0 := by
  obtain ⟨hbase, hloops, hnext⟩ := start_parts (new baseLoop) started
  refine ⟨hbase, hloops, ?_⟩
  intro _
  exact hnext.trans (Nat.zero_mod _).symm

theorem at_getNextLoop {p : EventLoopThreadPool} {baseLoop k : Nat} {loops : List Nat}
    (h : p.At baseLoop loops k) :
    p.getNextLoop.1 = turn baseLoop loops k ∧ p.getNextLoop.2.At baseLoop loops (k + 1) := by
  obtain ⟨hbase, hloops, hnext⟩ := h
  unfold getNextLoop turn
  split
  · next hnone =>
    rw [hloops] at hnone
    subst hnone
    refine ⟨?_, hbase, hloops, fun h => absurd rfl h⟩
    simpa using hbase
  · next hsome =>
    rw [hloops] at hsome
    have hlt := Nat.mod_lt k (List.length_pos_iff.mpr hsome)
    refine ⟨?_, hbase, hloops, ?_⟩
    · simp [hloops, hnext hsome, List.getElem?_eq_getElem hlt]
    · intro _
      show (p.next + 1) % p.loops.length = _
      rw [hloops, hnext hsome, Nat.mod_add_mod]

/-- Of the first connections each loop has its share, and the first loops one more. -/
theorem count_turn {loops : List Nat} (distinct : loops.Nodup) (baseLoop m i : Nat)
    (hi : i < loops.length) :
    ((List.range m).map (turn baseLoop loops)).count (loops.get ⟨i, hi⟩) =
      m / loops.length + if i < m % loops.length then 1 else 0 := by
  have hpos : 0 < loops.length := by omega
  have hsame : ∀ k, turn baseLoop loops k = loops.get ⟨i, hi⟩ ↔ k ≡ i [MOD loops.length] := by
    intro k
    have hlt := Nat.mod_lt k hpos
    have hget : turn baseLoop loops k = loops.get ⟨k % loops.length, hlt⟩ := by
      simp [turn, List.getElem?_eq_getElem hlt]
    rw [hget, Nat.ModEq, Nat.mod_eq_of_lt hi]
    rw [(List.nodup_iff_injective_get.mp distinct).eq_iff, Fin.mk.injEq]
  calc ((List.range m).map (turn baseLoop loops)).count (loops.get ⟨i, hi⟩)
      = m.count (· ≡ i [MOD loops.length]) := by
        rw [List.count, List.countP_map, Nat.count]
        apply List.countP_congr
        intro k _
        simpa using hsame k
    _ = m / loops.length + if i < m % loops.length then 1 else 0 := by
        rw [Nat.count_modEq_card m hpos i, Nat.mod_eq_of_lt hi]

end EventLoopThreadPool

/-! ## The listening socket -/

/-- Connections that have come are numbered in their order. `told` is the event of the last
`epoll_wait` that is still to be handled; `served` are the connections that `accept` returned,
`dealt` the loops that they went to, and `lost` those that it took off the queue and failed for. -/
structure Listener where
  host : Host
  ioPool : EventLoopThreadPool
  backlog : List Nat := []
  arrivals : Nat := 0
  watch : Watch IoEvent := ⟨∅, false⟩
  told : Finset IoEvent := ∅
  served : List Nat := []
  dealt : List Nat := []
  lost : List Nat := []

namespace Listener

inductive Act where
  | arrive
  | register
  | wait
  | accept (fd : Int)
  | again
  | fail (taking : Bool)
  | host (a : Host.Act)

/-- The queue makes the socket readable. -/
def up (s : Listener) : Finset IoEvent := if s.backlog = [] then ∅ else {.input}

/-- What an `accept` that fails leaves of the queue. -/
def remaining (s : Listener) (taking : Bool) : List Nat :=
  if taking then s.backlog.tail else s.backlog

def isAccept : Host.Act → Bool
  | .accept _ _ => true
  | _ => false

def step (s : Listener) : Act → Option Listener
  | .arrive =>
    some { s with
      backlog := s.backlog ++ [s.arrivals]
      arrivals := s.arrivals + 1
      watch := s.watch.wake {.input} }
  | .register =>
    -- the constructor of the server adds `listenChannel_`, once
    if s.watch.interest = ∅ then some { s with watch := s.watch.set {.input} s.up } else none
  | .wait =>
    if s.told = ∅ then
      some { s with told := (s.watch.report s.up).1, watch := (s.watch.report s.up).2 }
    else none
  | .accept fd =>
    match s.backlog with
    | [] => none
    | client :: rest =>
      if .input ∈ s.told then
        (s.host.step (.accept s.ioPool.getNextLoop.1 fd)).map fun host =>
          { s with
            host
            ioPool := s.ioPool.getNextLoop.2
            backlog := rest
            served := s.served ++ [client]
            dealt := s.dealt ++ [s.ioPool.getNextLoop.1] }
      else none
  | .again =>
    if .input ∈ s.told ∧ s.backlog = [] then some { s with told := ∅ } else none
  | .fail taking =>
    if .input ∈ s.told then
      some { s with
        told := ∅
        backlog := s.remaining taking
        lost := s.lost ++ if taking then s.backlog.take 1 else [] }
    else none
  | .host a =>
    if isAccept a then none else (s.host.step a).map fun host => { s with host }

/-- The step that the server makes, as far as it makes one. -/
def hostActs (s : Listener) : Act → List Host.Act
  | .accept fd => [.accept s.ioPool.getNextLoop.1 fd]
  | .host a => [a]
  | _ => []

/-- The server is built, and the loops are not running yet. -/
def start (server : Server) (baseLoop : Nat) (started : List Nat) : Listener where
  host := Host.start server
  ioPool := (EventLoopThreadPool.new baseLoop).start started

/-! ## The order of the connections -/

theorem host_of_step {s t : Listener} {a : Act} (hstep : s.step a = some t) :
    GuardedRuns.exec Host.step s.host (s.hostActs a) = some t.host := by
  have hone : ∀ {b : Host.Act}, s.host.step b = some t.host →
      GuardedRuns.exec Host.step s.host [b] = some t.host :=
    fun hb => (GuardedRuns.exec_cons_iff _ _ _ _ _).mpr ⟨_, hb, rfl⟩
  cases a with
  | arrive =>
    obtain rfl := Option.some.inj hstep
    rfl
  | register | wait | again | fail =>
    obtain ⟨-, ht⟩ := Option.ite_none_right_eq_some.mp hstep
    obtain rfl := Option.some.inj ht
    rfl
  | accept fd =>
    cases hqueue : s.backlog with
    | nil => simp [step, hqueue] at hstep
    | cons client rest =>
      simp only [step, hqueue] at hstep
      obtain ⟨-, hmap⟩ := Option.ite_none_right_eq_some.mp hstep
      obtain ⟨h, hh, rfl⟩ := Option.map_eq_some_iff.mp hmap
      exact hone hh
  | host a =>
    simp only [step] at hstep
    split at hstep
    · cases hstep
    · obtain ⟨h, hh, rfl⟩ := Option.map_eq_some_iff.mp hstep
      exact hone hh

theorem kept_host {s t : Host} {homes : List Nat} (h : s.server.Kept homes) {a : Host.Act}
    (hstep : s.step a = some t) : t.server.Kept (homes ++ acceptLoops (Host.serverActs a)) := by
  have hpreserved : ∀ u b v before, Server.Kept u (homes ++ acceptLoops before) →
      Server.step u b = some v → v.Kept (homes ++ acceptLoops (before ++ [b])) := by
    intro u b v before hu hb
    have hloops : acceptLoops (before ++ [b]) = acceptLoops before ++ b.acceptLoop.toList := by
      rw [acceptLoops, List.filterMap_append]
      cases b <;> rfl
    rw [hloops, ← List.append_assoc]
    exact Server.kept_step hu hb
  have hstart : s.server.Kept (homes ++ acceptLoops []) := by
    simpa [acceptLoops] using h
  exact GuardedRuns.history_of_run (fun u before => Server.Kept u (homes ++ acceptLoops before))
    hpreserved hstart (Host.server_of_step hstep)

theorem acceptLoops_other {a : Host.Act} (h : isAccept a = false) :
    acceptLoops (Host.serverActs a) = [] := by
  cases a with
  | accept l fd => cases h
  | peer | wait | hangup | read | write | expire | swap | run | destroy => rfl

theorem accepts_of_kept {s : Server} {homes : List Nat} (h : s.Kept homes) :
    s.accepts = homes.length := by
  obtain ⟨place, belongs, hplaced⟩ := h.placed
  exact hplaced.numbered.symm

/-- The connections so far went to the loops in turn, and each that has come is served, lost or
queued, in the order in which they came. -/
structure InTurn (baseLoop : Nat) (ring : List Nat) (s : Listener) : Prop where
  kept : s.host.server.Kept s.dealt
  dealt : s.dealt = (List.range s.host.server.accepts).map (EventLoopThreadPool.turn baseLoop ring)
  pool : s.ioPool.At baseLoop ring s.host.server.accepts
  numbered : s.served.length = s.host.server.accepts
  order : (s.served ++ s.backlog).Sublist (List.range s.arrivals)
  once : (s.served ++ s.lost ++ s.backlog).Perm (List.range s.arrivals)

section
variable {baseLoop : Nat} {ring : List Nat} {s t : Listener}

theorem inTurn_start {server : Server} (started : server.Kept []) (baseLoop : Nat)
    (ring : List Nat) : InTurn baseLoop ring (start server baseLoop ring) := by
  have hnone : server.accepts = 0 := accepts_of_kept started
  refine ⟨started, ?_, ?_, hnone.symm, List.Sublist.refl _, List.Perm.refl _⟩
  · show [] = (List.range server.accepts).map _
    rw [hnone]
    rfl
  · show EventLoopThreadPool.At _ _ _ server.accepts
    rw [hnone]
    exact EventLoopThreadPool.at_start baseLoop ring

theorem inTurn_arrive (h : InTurn baseLoop ring s) (watch : Watch IoEvent) :
    InTurn baseLoop ring { s with
      backlog := s.backlog ++ [s.arrivals]
      arrivals := s.arrivals + 1
      watch } := by
  refine ⟨h.kept, h.dealt, h.pool, h.numbered, ?_, ?_⟩
  · show (s.served ++ (s.backlog ++ [s.arrivals])).Sublist (List.range (s.arrivals + 1))
    rw [← List.append_assoc, List.range_succ]
    exact h.order.append (List.Sublist.refl _)
  · show (s.served ++ s.lost ++ (s.backlog ++ [s.arrivals])).Perm (List.range (s.arrivals + 1))
    rw [← List.append_assoc, List.range_succ]
    exact h.once.append_right _

theorem inTurn_accept (h : InTurn baseLoop ring s) {fd : Int} {client : Nat} {rest : List Nat}
    (queue : s.backlog = client :: rest) {host : Host}
    (hstep : s.host.step (.accept s.ioPool.getNextLoop.1 fd) = some host) :
    InTurn baseLoop ring { s with
      host
      ioPool := s.ioPool.getNextLoop.2
      backlog := rest
      served := s.served ++ [client]
      dealt := s.dealt ++ [s.ioPool.getNextLoop.1] } := by
  obtain ⟨hturn, hpool⟩ := EventLoopThreadPool.at_getNextLoop h.pool
  have hkept : host.server.Kept (s.dealt ++ [s.ioPool.getNextLoop.1]) := kept_host h.kept hstep
  have haccepts : host.server.accepts = s.host.server.accepts + 1 := by
    rw [accepts_of_kept hkept, List.length_append, ← accepts_of_kept h.kept, List.length_singleton]
  have hqueue : s.served ++ [client] ++ rest = s.served ++ s.backlog := by
    rw [queue, List.append_assoc, List.singleton_append]
  refine ⟨hkept, ?_, ?_, ?_, ?_, ?_⟩
  · show s.dealt ++ [s.ioPool.getNextLoop.1] = (List.range host.server.accepts).map _
    rw [haccepts, List.range_succ, List.map_append, List.map_singleton, h.dealt, hturn]
  · show EventLoopThreadPool.At _ _ _ host.server.accepts
    rw [haccepts]
    exact hpool
  · show (s.served ++ [client]).length = host.server.accepts
    rw [haccepts, List.length_append, h.numbered, List.length_singleton]
  · exact hqueue ▸ h.order
  · have hmoved : (s.served ++ [client] ++ s.lost ++ rest).Perm
        (s.served ++ s.lost ++ s.backlog) := by
      rw [queue, List.append_assoc, List.append_assoc, List.append_assoc]
      apply List.Perm.append_left s.served
      show (client :: (s.lost ++ rest)).Perm _
      exact List.perm_middle.symm
    exact hmoved.trans h.once

theorem inTurn_fail (h : InTurn baseLoop ring s) (taking : Bool) :
    InTurn baseLoop ring { s with
      told := ∅
      backlog := s.remaining taking
      lost := s.lost ++ if taking then s.backlog.take 1 else [] } := by
  refine ⟨h.kept, h.dealt, h.pool, h.numbered, ?_, ?_⟩
  · refine List.Sublist.trans (List.Sublist.append (List.Sublist.refl _) ?_) h.order
    unfold remaining
    split
    · exact List.tail_sublist _
    · exact List.Sublist.refl _
  · have hsame : s.served ++ (s.lost ++ if taking then s.backlog.take 1 else []) ++
        s.remaining taking = s.served ++ s.lost ++ s.backlog := by
      unfold remaining
      cases taking with
      | true =>
        have hsplit : s.backlog.take 1 ++ s.backlog.tail = s.backlog := by
          cases s.backlog <;> simp
        simp only [if_true, List.append_assoc, hsplit]
      | false => simp
    exact hsame ▸ h.once

theorem inTurn_host (h : InTurn baseLoop ring s) {a : Host.Act} (other : isAccept a = false)
    {host : Host} (hstep : s.host.step a = some host) :
    InTurn baseLoop ring { s with host } := by
  have hkept := kept_host h.kept hstep
  rw [acceptLoops_other other, List.append_nil] at hkept
  have haccepts : host.server.accepts = s.host.server.accepts :=
    (accepts_of_kept hkept).trans (accepts_of_kept h.kept).symm
  refine ⟨hkept, ?_, ?_, ?_, h.order, h.once⟩
  · show s.dealt = (List.range host.server.accepts).map _
    rw [haccepts]
    exact h.dealt
  · show EventLoopThreadPool.At _ _ _ host.server.accepts
    rw [haccepts]
    exact h.pool
  · exact h.numbered.trans haccepts.symm

theorem inTurn_step (h : InTurn baseLoop ring s) {a : Act} (hstep : s.step a = some t) :
    InTurn baseLoop ring t := by
  cases a with
  | arrive => exact Option.some.inj hstep ▸ inTurn_arrive h _
  | register | wait | again =>
    obtain ⟨-, ht⟩ := Option.ite_none_right_eq_some.mp hstep
    obtain rfl := Option.some.inj ht
    exact ⟨h.kept, h.dealt, h.pool, h.numbered, h.order, h.once⟩
  | accept fd =>
    cases hqueue : s.backlog with
    | nil => simp [step, hqueue] at hstep
    | cons client rest =>
      simp only [step, hqueue] at hstep
      obtain ⟨-, hmap⟩ := Option.ite_none_right_eq_some.mp hstep
      obtain ⟨host, hhost, rfl⟩ := Option.map_eq_some_iff.mp hmap
      exact inTurn_accept h hqueue hhost
  | fail taking =>
    obtain ⟨-, ht⟩ := Option.ite_none_right_eq_some.mp hstep
    exact Option.some.inj ht ▸ inTurn_fail h taking
  | host a =>
    simp only [step] at hstep
    split at hstep
    · cases hstep
    · next hother =>
      obtain ⟨host, hhost, rfl⟩ := Option.map_eq_some_iff.mp hstep
      exact inTurn_host h (eq_false_of_ne_true hother) hhost

end

/-- The accepts of the server are those of the queue: each connection that has come is served,
lost or queued, the connections are served in the order in which they came, and the loops get
them in turn, so that none gets two more than another. -/
theorem clients_in_turn {resourceDir : Str} {router : Option Router} {baseLoop : Nat}
    {ring : List Nat} {as : List Act} {t : Listener}
    (run : GuardedRuns.exec step (start (.new resourceDir router) baseLoop ring) as = some t) :
    GuardedRuns.exec Host.step (.start (.new resourceDir router))
        (GuardedRuns.seen step hostActs (start (.new resourceDir router) baseLoop ring) as) =
          some t.host ∧
      (t.served ++ t.lost ++ t.backlog).Perm (List.range t.arrivals) ∧
      (t.served ++ t.backlog).Sublist (List.range t.arrivals) ∧
      (∀ who m, t.host.server.live.find who = some m → who < t.served.length ∧
        m.home = EventLoopThreadPool.turn baseLoop ring who) ∧
      (ring.Nodup → ∀ i (hi : i < ring.length), t.dealt.count (ring.get ⟨i, hi⟩) =
        t.served.length / ring.length + if i < t.served.length % ring.length then 1 else 0) := by
  have hturn : InTurn baseLoop ring t :=
    GuardedRuns.invariant_of_run (InTurn baseLoop ring) (fun _ _ _ h hstep => inTurn_step h hstep)
      (inTurn_start (Server.kept_new resourceDir router) baseLoop ring) run
  have hserver := GuardedRuns.exec_projected Listener.host (fun _ => True)
    (fun _ _ _ _ _ => trivial) (fun _ _ _ _ hstep => host_of_step hstep) trivial run
  refine ⟨hserver, hturn.once, hturn.order, ?_, ?_⟩
  · intro who m hm
    obtain ⟨place, belongs, hplaced⟩ := hturn.kept.placed
    obtain ⟨hhome, -⟩ := hplaced.owned who m hm
    rw [hturn.dealt, List.getElem?_map] at hhome
    obtain ⟨k, hk, hloop⟩ := Option.map_eq_some_iff.mp hhome
    obtain ⟨hlt, rfl⟩ := List.getElem?_eq_some_iff.mp hk
    rw [List.length_range, ← hturn.numbered] at hlt
    rw [List.getElem_range] at hloop
    exact ⟨hlt, hloop.symm⟩
  · intro distinct i hi
    rw [hturn.dealt, hturn.numbered]
    exact EventLoopThreadPool.count_turn distinct baseLoop _ i hi

/-- Four connections come, `accept` fails for the second of them, and two loops get the others. -/
theorem clients_in_turn_four :
    let as := [.arrive, .arrive, .register, .wait, .accept 5, .fail true, .arrive, .arrive, .wait,
      .accept 6, .accept 7, .again]
    ∃ t, GuardedRuns.exec step (start (.new (lit "/w") none) 0 [1, 2]) as = some t ∧
      t.served = [0, 2, 3] ∧ t.lost = [1] ∧ t.dealt.count 1 = 2 := by
  intro as
  have hends : (GuardedRuns.exec step (start (.new (lit "/w") none) 0 [1, 2]) as).map
      (fun t => (t.served, t.lost)) = some ([0, 2, 3], [1]) := by
    decide +kernel
  obtain ⟨t, ht, hparts⟩ := Option.map_eq_some_iff.mp hends
  obtain ⟨hserved, hlost⟩ := Prod.mk.inj hparts
  obtain ⟨-, -, -, -, hshare⟩ := clients_in_turn ht
  have hfirst := hshare (by decide) 0 (by decide)
  rw [hserved] at hfirst
  exact ⟨t, ht, hserved, hlost, hfirst⟩

/-! ## Connections that nobody takes -/

/-- Connections wait in the queue, and the main loop will not be told of them. -/
def Stranded (s : Listener) : Prop :=
  s.watch.interest ≠ ∅ ∧ s.told = ∅ ∧ s.watch.listed = false ∧ s.backlog ≠ []

/-- An `accept` that fails with another error than EAGAIN leaves nobody in the queue, unless
somebody has come since the last `epoll_wait`. -/
def Heeded (s : Listener) : Act → Prop
  | .fail taking => s.watch.listed = true ∨ s.remaining taking = []
  | _ => True

instance (s : Listener) : (a : Act) → Decidable (s.Heeded a)
  | .fail taking => inferInstanceAs (Decidable (s.watch.listed = true ∨ s.remaining taking = []))
  | .arrive | .register | .wait | .accept _ | .again | .host _ => .isTrue trivial

/-- The watch is on the queue or not yet set. -/
structure Watches (s : Listener) : Prop where
  interest : s.watch.interest = ∅ ∨ s.watch.interest = {.input}
  told : s.told ⊆ s.watch.interest

section
variable {s t : Listener}

theorem mem_up {e : IoEvent} : e ∈ s.up ↔ e = .input ∧ s.backlog ≠ [] := by
  unfold up
  split
  · next hnone => simp [hnone]
  · next hsome => simp [hsome]

theorem stranded_iff (h : s.Watches) : ¬s.Stranded ↔ s.watch.Noticed s.up s.told := by
  constructor
  · intro hnone hlisted e he
    obtain ⟨hinterest, hup⟩ := Finset.mem_inter.mp he
    obtain ⟨rfl, hqueue⟩ := mem_up.mp hup
    by_contra htold
    apply hnone
    refine ⟨Finset.ne_empty_of_mem hinterest, ?_, hlisted, hqueue⟩
    apply Finset.eq_empty_of_forall_notMem
    intro e he
    have hmem := h.told he
    rcases h.interest with hnever | hinput
    · rw [hnever] at hinterest
      exact absurd hinterest (Finset.notMem_empty _)
    · rw [hinput, Finset.mem_singleton] at hmem
      exact htold (hmem ▸ he)
  · rintro hnoticed ⟨hset, htold, hlisted, hqueue⟩
    have hinput := h.interest.resolve_left hset
    have hmem : .input ∈ s.watch.interest ∩ s.up :=
      Finset.mem_inter.mpr ⟨hinput ▸ Finset.mem_singleton_self _, mem_up.mpr ⟨rfl, hqueue⟩⟩
    have hin := hnoticed hlisted hmem
    rw [htold] at hin
    exact absurd hin (Finset.notMem_empty _)

theorem watches_step (h : s.Watches) {a : Act} (hstep : s.step a = some t) : t.Watches := by
  cases a with
  | arrive => exact Option.some.inj hstep ▸ ⟨h.interest, h.told⟩
  | register =>
    obtain ⟨hunset, ht⟩ := Option.ite_none_right_eq_some.mp hstep
    obtain rfl := Option.some.inj ht
    refine ⟨.inr rfl, ?_⟩
    have hnone := h.told
    rw [hunset] at hnone
    exact hnone.trans (Finset.empty_subset _)
  | wait =>
    obtain ⟨-, ht⟩ := Option.ite_none_right_eq_some.mp hstep
    obtain rfl := Option.some.inj ht
    refine ⟨h.interest, ?_⟩
    show (if s.watch.listed then s.watch.interest ∩ s.up else ∅) ⊆ s.watch.interest
    split
    · exact Finset.inter_subset_left
    · exact Finset.empty_subset _
  | again | fail =>
    obtain ⟨-, ht⟩ := Option.ite_none_right_eq_some.mp hstep
    exact Option.some.inj ht ▸ ⟨h.interest, Finset.empty_subset _⟩
  | accept fd =>
    cases hqueue : s.backlog with
    | nil => simp [step, hqueue] at hstep
    | cons client rest =>
      simp only [step, hqueue] at hstep
      obtain ⟨-, hmap⟩ := Option.ite_none_right_eq_some.mp hstep
      obtain ⟨host, -, rfl⟩ := Option.map_eq_some_iff.mp hmap
      exact ⟨h.interest, h.told⟩
  | host a =>
    simp only [step] at hstep
    split at hstep
    · cases hstep
    · obtain ⟨host, -, rfl⟩ := Option.map_eq_some_iff.mp hstep
      exact ⟨h.interest, h.told⟩

/-- A failing `accept` is the last one for this event. -/
theorem noticed_fail (h : s.Watches) (told : .input ∈ s.told) (taking : Bool) (lost : List Nat) :
    s.watch.Noticed { s with told := ∅, backlog := s.remaining taking, lost }.up ∅ ↔
      s.Heeded (.fail taking) := by
  constructor
  · intro hnoticed
    by_contra hneither
    obtain ⟨hlisted, hqueue⟩ := not_or.mp hneither
    have hmem := hnoticed (eq_false_of_ne_true hlisted)
      (Finset.mem_inter.mpr ⟨h.told told, mem_up.mpr ⟨rfl, hqueue⟩⟩)
    exact absurd hmem (Finset.notMem_empty _)
  · rintro (hlisted | hqueue) hquiet
    · exact absurd (hlisted.symm.trans hquiet) (by decide)
    · intro e he
      obtain ⟨-, hup⟩ := Finset.mem_inter.mp he
      exact absurd hqueue (mem_up.mp hup).2

theorem noticed_iff_heeded (h : s.Watches) (noticed : s.watch.Noticed s.up s.told) {a : Act}
    (hstep : s.step a = some t) : t.watch.Noticed t.up t.told ↔ s.Heeded a := by
  cases a with
  | arrive =>
    refine iff_of_true ?_ trivial
    obtain rfl := Option.some.inj hstep
    apply Watch.noticed_wake noticed
    intro e he
    obtain ⟨rfl, -⟩ := mem_up.mp he
    exact Finset.mem_union_right _ (Finset.mem_singleton_self _)
  | register =>
    refine iff_of_true ?_ trivial
    obtain ⟨-, ht⟩ := Option.ite_none_right_eq_some.mp hstep
    exact Option.some.inj ht ▸ Watch.noticed_set _ _ _ _
  | wait =>
    refine iff_of_true ?_ trivial
    obtain ⟨hhandled, ht⟩ := Option.ite_none_right_eq_some.mp hstep
    rw [hhandled] at noticed
    exact Option.some.inj ht ▸ Watch.noticed_report noticed
  | accept fd =>
    refine iff_of_true ?_ trivial
    cases hqueue : s.backlog with
    | nil => simp [step, hqueue] at hstep
    | cons client rest =>
      simp only [step, hqueue] at hstep
      obtain ⟨-, hmap⟩ := Option.ite_none_right_eq_some.mp hstep
      obtain ⟨host, -, rfl⟩ := Option.map_eq_some_iff.mp hmap
      apply Watch.noticed_fall noticed
      intro e he
      obtain ⟨hinput, -⟩ := mem_up.mp he
      exact mem_up.mpr ⟨hinput, by simp [hqueue]⟩
  | again =>
    refine iff_of_true ?_ trivial
    obtain ⟨⟨-, hempty⟩, ht⟩ := Option.ite_none_right_eq_some.mp hstep
    obtain rfl := Option.some.inj ht
    intro _ e he
    obtain ⟨-, hup⟩ := Finset.mem_inter.mp he
    exact absurd hempty (mem_up.mp hup).2
  | fail taking =>
    obtain ⟨htold, ht⟩ := Option.ite_none_right_eq_some.mp hstep
    obtain rfl := Option.some.inj ht
    exact noticed_fail h htold taking _
  | host a =>
    refine iff_of_true ?_ trivial
    simp only [step] at hstep
    split at hstep
    · cases hstep
    · obtain ⟨host, -, rfl⟩ := Option.map_eq_some_iff.mp hstep
      exact noticed

end

/-- In exactly those runs nobody is ever stranded in which every failure of `accept` with
another error than EAGAIN finds the queue empty or somebody newly come. -/
theorem nobody_stranded_iff {server : Server} {baseLoop : Nat} {ring : List Nat} {as : List Act}
    {t : Listener} (run : GuardedRuns.exec step (start server baseLoop ring) as = some t) :
    GuardedRuns.Throughout step (fun s => ¬s.Stranded) (start server baseLoop ring) as ↔
      GuardedRuns.Guarded step Heeded (start server baseLoop ring) as := by
  have hstart : (start server baseLoop ring).Watches := ⟨.inl rfl, Finset.empty_subset _⟩
  have hwatches : ∀ before s, GuardedRuns.exec step (start server baseLoop ring) before = some s →
      s.Watches := fun before s hrun =>
    GuardedRuns.invariant_of_run Watches (fun _ _ _ h hstep => watches_step h hstep) hstart hrun
  have hpreserved : ∀ s a u, Watches s ∧ s.watch.Noticed s.up s.told → step s a = some u →
      (u.Watches ∧ u.watch.Noticed u.up u.told ↔ s.Heeded a) := by
    rintro s a u ⟨hs, hnoticed⟩ hstep
    rw [and_iff_right (watches_step hs hstep)]
    exact noticed_iff_heeded hs hnoticed hstep
  have hfirst : (start server baseLoop ring).watch.Noticed (start server baseLoop ring).up
      (start server baseLoop ring).told := by
    intro _ e he
    obtain ⟨hnever, -⟩ := Finset.mem_inter.mp he
    exact absurd hnever (Finset.notMem_empty _)
  rw [← GuardedRuns.throughout_iff_guarded hpreserved ⟨hstart, hfirst⟩ run]
  constructor
  · intro h before s hbefore hrun
    have hs := hwatches before s hrun
    exact ⟨hs, (stranded_iff hs).mp (h before s hbefore hrun)⟩
  · intro h before s hbefore hrun
    obtain ⟨hs, hnoticed⟩ := h before s hbefore hrun
    exact (stranded_iff hs).mpr hnoticed

/-- There is no descriptor left for the second connection; the third one brings it in. -/
theorem nobody_stranded_three :
    let as := [.register, .arrive, .arrive, .wait, .accept 5, .fail false, .arrive, .wait,
      .accept 6, .accept 7, .again]
    ∃ t, GuardedRuns.exec step (start (.new (lit "/w") none) 0 [1, 2]) as = some t ∧
      t.served = [0, 1, 2] ∧
      ¬GuardedRuns.Throughout step (fun s => ¬s.Stranded) (start (.new (lit "/w") none) 0 [1, 2])
        as := by
  intro as
  have hends : (GuardedRuns.exec step (start (.new (lit "/w") none) 0 [1, 2]) as).map
      Listener.served = some [0, 1, 2] := by
    decide +kernel
  obtain ⟨t, ht, hserved⟩ := Option.map_eq_some_iff.mp hends
  refine ⟨t, ht, hserved, ?_⟩
  rw [nobody_stranded_iff ht]
  decide +kernel

end Listener

end WebServer
