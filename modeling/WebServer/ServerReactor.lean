import WebServer.ClientIsolation
import WebServer.EndToEnd

/-!
# All connections in front of their sockets

The server with the sockets of its connections and with what epoll keeps for each of them. The
loops call the handlers of the events that they were told of, in any order among the
connections, before they run functors. Accepts come between any two steps.

A connection has the steps of the reactor of one connection, and the others only decide when it
takes them. The account of what one connection is answered so holds for all of them at once, as
long as no SIGPIPE from a send to a broken peer ends the process.
-/

namespace WebServer

open KeyedList Connection EdgeTrigger

/-- The socket of a connection, its registration, and the events still to be handled. -/
structure Side where
  socket : Socket := {}
  watch : Watch IoEvent := ⟨∅, false⟩
  told : Finset IoEvent := ∅

namespace Side

/-- A connection that has just been registered. -/
def start (ch : Channel) : Side where
  watch := (⟨∅, false⟩ : Watch IoEvent).set ch.interest ({} : Socket).up

def raise (k : Side) (socket : Socket) (raised : Finset IoEvent) : Side :=
  { k with socket, watch := k.watch.wake raised }

def report (k : Side) : Side :=
  { k with
    told := (k.watch.report k.socket.up).1
    watch := (k.watch.report k.socket.up).2 }

def settle (k : Side) (ch : Channel) (traffic : Traffic) (room : Bool) : Side :=
  let socket := { k.socket with room := k.socket.room && room && !traffic.refused }
  { k with
    socket
    watch := if traffic.updated then k.watch.set ch.interest socket.up else k.watch }

end Side

/-- What the peer of a connection does. -/
inductive PeerAct where
  | deliver (data : Str)
  | finish
  | reset
  | drain

namespace PeerAct

def allowed (k : Socket) : PeerAct → Prop
  | .deliver data => data ≠ [] ∧ k.ended = false ∧ k.broken = false
  | .finish => k.ended = false ∧ k.broken = false
  | .reset => k.broken = false
  | .drain => k.room = false

instance (k : Socket) : (p : PeerAct) → Decidable (p.allowed k)
  | .deliver _ | .finish | .reset | .drain => by unfold allowed; infer_instance

def perform (k : Side) : PeerAct → Side
  | .deliver data => k.raise { k.socket with inbox := k.socket.inbox ++ data } {.input}
  | .finish => k.raise { k.socket with ended := true } {.input}
  | .reset => k.raise { k.socket with broken := true } Finset.univ
  | .drain => k.raise { k.socket with room := true } {.output}

/-- Neither the end of the stream nor a reset. -/
def keepsOpen : PeerAct → Bool
  | .deliver _ | .drain => true
  | .finish | .reset => false

end PeerAct

/-- A server and the sides of its connections, by the number of the accept. -/
structure Host where
  server : Server
  side : Nat → Side := fun _ => {}

namespace Host

inductive Act where
  | accept (loop : Nat) (fd : Int)
  | peer (who : Nat) (p : PeerAct)
  | wait (loop : Nat) (ready : List Nat)
  | hangup (who : Nat)
  | read (who : Nat) (env : Env) (arrival : Arrival)
  | write (who : Nat) (sends files : Transfers) (room : Bool)
  | expire (loop : Nat) (fd : Int)
  | swap (loop : Nat)
  | run (loop : Nat) (env : Env) (sends : Transfers) (room : Bool)
  | destroy (loop : Nat)

def setSide (s : Host) (who : Nat) (k : Side) : Host :=
  { s with side := Function.update s.side who k }

/-- The server goes on, and no socket is concerned. -/
def advance (s : Host) (t : Server) : Host := { s with server := t }

/-- Every event that the loop was told of has been handled. -/
def Handled (s : Host) (l : Nat) : Prop :=
  ∀ p ∈ s.server.live.pairs, p.2.home = l → (s.side p.1).told = ∅

instance (s : Host) (l : Nat) : Decidable (s.Handled l) := by
  unfold Handled
  infer_instance

/-- The loop serves the connection, and epoll has something to report for it. -/
def Ready (s : Host) (l who : Nat) : Prop :=
  (s.server.live.find who).any (fun m => m.home = l) ∧ (s.side who).watch.listed = true

instance (s : Host) (l who : Nat) : Decidable (s.Ready l who) := by
  unfold Ready
  infer_instance

/-- A functor of a connection may send; the others concern no socket. -/
def runFunctor (s : Host) (env : Env) (sends : Transfers) (room : Bool) (t : Server) :
    LoopFunctor → Option Host
  | .call who cb =>
    match s.server.live.find who with
    | none => some (s.advance t)
    | some m =>
      if (s.side who).socket.Accepts sends then
        some ((s.advance t).setSide who ((s.side who).settle (m.conn.call cb env sends).1.channel
          (m.conn.callTraffic cb sends) (room || cb ≠ .trySend)))
      else none
  | _ => some (s.advance t)

def step (s : Host) : Act → Option Host
  | .accept l fd =>
    (s.server.step (.accept l fd)).map fun t =>
      (t.live.find s.server.accepts).elim (s.advance t) fun m =>
        (s.advance t).setSide s.server.accepts (.start m.conn.channel)
  | .peer who p =>
    if (s.server.live.find who).isSome ∧ p.allowed (s.side who).socket then
      some (s.setSide who (p.perform (s.side who))) else none
  | .wait l ready =>
    if (s.server.loops l).idle ∧ s.Handled l ∧ ready.length ≤ 1024 ∧ ∀ who ∈ ready, s.Ready l who
    then some { s with side := fun who => if who ∈ ready then (s.side who).report else s.side who }
    else none
  | .hangup who =>
    if .hangup ∈ (s.side who).told then
      (s.server.step (.hangup who)).map fun t =>
        (s.advance t).setSide who { s.side who with told := ∅ }
    else none
  | .read who env arrival =>
    match s.server.live.find who with
    | none => none
    | some m =>
      let k := s.side who
      if .hangup ∉ k.told ∧ .input ∈ k.told ∧
          k.socket.Hands arrival.errno arrival.packets k.socket.inbox then
        (s.server.step (.readable who env arrival)).map fun t =>
          (s.advance t).setSide who { k with
            socket := { k.socket with
              inbox := k.socket.inbox.drop (Reactor.taken m.conn arrival) }
            told := k.told.erase .input }
      else none
  | .write who sends files room =>
    match s.server.live.find who with
    | none => none
    | some m =>
      let k := s.side who
      if .hangup ∉ k.told ∧ .input ∉ k.told ∧ .output ∈ k.told ∧ k.socket.Accepts sends ∧
          k.socket.Accepts files then
        (s.server.step (.writable who sends files)).map fun t =>
          (s.advance t).setSide who
            { k.settle (m.conn.handleWrite sends files).1.channel
                (m.conn.handleWriteTraffic sends files) room with
              told := k.told.erase .output }
      else none
  | .expire l fd => if s.Handled l then (s.server.step (.expire l fd)).map s.advance else none
  | .swap l => if s.Handled l then (s.server.step (.swap l)).map s.advance else none
  | .run l env sends room =>
    match (s.server.loops l).batch with
    | [] => none
    | f :: _ => (s.server.step (.run l env sends)).bind fun t => s.runFunctor env sends room t f
  | .destroy l => (s.server.step (.destroy l)).map s.advance

/-- The step that the server makes, as far as it makes one. -/
def serverActs : Act → List ServerAct
  | .accept l fd => [.accept l fd]
  | .peer _ _ | .wait _ _ => []
  | .hangup who => [.hangup who]
  | .read who env arrival => [.readable who env arrival]
  | .write who sends files _ => [.writable who sends files]
  | .expire l fd => [.expire l fd]
  | .swap l => [.swap l]
  | .run l env sends _ => [.run l env sends]
  | .destroy l => [.destroy l]

/-- Whether a handler that sends leaves room. -/
def Act.room : Act → Bool
  | .write _ _ _ room | .run _ _ _ room => room
  | _ => true

end Host

/-- The step of the reactor around a step of the connection. -/
def Reactor.around (room : Bool) : WebServer.Act → Reactor.Act
  | .readable env arrival => .read env arrival
  | .writable sends files => .write sends files room
  | .hangup => .hangup
  | .swap => .swap
  | .run env sends => .run env sends room
  | .release => .release

def PeerAct.act : PeerAct → Reactor.Act
  | .deliver data => .deliver data
  | .finish => .finish
  | .reset => .reset
  | .drain => .drain

namespace Host

/-- What the peer and epoll have to do with a connection in a step. -/
def outer (who : Nat) : Act → List Reactor.Act
  | .peer k p => if k = who then [p.act] else []
  | .wait _ ready => if who ∈ ready then [.wait] else []
  | _ => []

/-- The part of a connection in a step, and its effects. -/
def actsOf (who : Nat) (s : Host) (a : Act) : List Reactor.Act :=
  outer who a ++ (serverActs a).flatMap fun b => (s.server.actsOf who b).map (Reactor.around a.room)

def effectsOf (who : Nat) (s : Host) (a : Act) : List Effect :=
  (serverActs a).flatMap (s.server.effectsOf who)

def start (s : Server) : Host := { server := s }

end Host

/-! ## The reactor of one connection -/

/-- A connection by itself in front of this side. -/
def Side.reactor (k : Side) (sys : Sys) : Reactor := ⟨sys, k.socket, k.watch, k.told⟩

theorem PeerAct.step_act {k : Side} {p : PeerAct} (h : p.allowed k.socket) (sys : Sys) :
    (k.reactor sys).step p.act = some ((p.perform k).reactor sys) := by
  cases p with
  | deliver data => exact if_pos h
  | finish => exact if_pos h
  | reset => exact if_pos h
  | drain => exact if_pos h

namespace Host

/-- The connection by itself, as long as it lives, is what the host has of it. -/
structure Sees (s : Host) (who : Nat) (r : Reactor) : Prop where
  mirrors : s.server.Mirrors who r.sys
  side : ∀ m, s.server.live.find who = some m → r = (s.side who).reactor r.sys

section
variable {s t : Host} {u : Server} {who : Nat} {r : Reactor}

theorem side_other (s : Host) {k : Nat} (h : who ≠ k) (new : Side) :
    (s.setSide k new).side who = s.side who := by
  simp only [setSide, Function.update_of_ne h]

theorem side_own (s : Host) (who : Nat) (new : Side) : (s.setSide who new).side who = new := by
  simp only [setSide, Function.update_self]

/-- A step in which the connection has no part, but its last reference may go. -/
theorem sees_others (hc : s.server.Consistent) (born : who < s.server.accepts) (h : s.Sees who r)
    {a : Act} {b : ServerAct} (acts : serverActs a = [b]) (inner : outer who a = [])
    (hstep : s.server.step b = some u)
    (idle : ∀ m, s.server.live.find who = some m → s.server.turn who m b = [])
    (server : t.server = u) (side : t.side who = s.side who) :
    ∃ r', Reactor.exec r (actsOf who s a) = some r' ∧ t.Sees who r' ∧
      r'.sys.log = r.sys.log ++ effectsOf who s a := by
  obtain ⟨y, hexec, hmirrors, hlog⟩ := Server.apart_step hc h.mirrors born hstep
  have hacts : actsOf who s a = (s.server.actsOf who b).map (Reactor.around a.room) := by
    simp [actsOf, acts, inner]
  have heffects : effectsOf who s a = s.server.effectsOf who b := by
    simp [effectsOf, acts]
  rw [hacts, heffects]
  rw [← server] at hmirrors
  have hstays : s.server.actsOf who b = [] → ∃ r', Reactor.exec r
      ((s.server.actsOf who b).map (Reactor.around a.room)) = some r' ∧ t.Sees who r' ∧
        r'.sys.log = r.sys.log ++ s.server.effectsOf who b := by
    intro hnone
    rw [hnone] at hexec ⊢
    obtain rfl := Option.some.inj hexec
    refine ⟨r, rfl, ⟨hmirrors, ?_⟩, hlog⟩
    intro m hm
    rw [side]
    cases hfind : s.server.live.find who with
    | none =>
      have hgone := h.mirrors.gone hfind
      exact absurd (hgone.symm.trans (hmirrors.live m hm).1) Bool.false_ne_true
    | some m' => exact h.side m' hfind
  cases hfind : s.server.live.find who with
  | none => exact hstays (by simp [Server.actsOf, Server.turns, hfind])
  | some m =>
    cases hparts : s.server.parts who b with
    | false => exact hstays (by simp [Server.actsOf, Server.turns, hfind, idle m hfind, hparts])
    | true =>
      have hrelease : s.server.actsOf who b = [.release] := by
        simp [Server.actsOf, Server.turns, hfind, idle m hfind, hparts]
      rw [hrelease] at hexec ⊢
      obtain ⟨z, hz, hend⟩ := (GuardedRuns.exec_cons_iff _ _ _ _ _).mp hexec
      obtain rfl := Option.some.inj hend
      have hnext : r.step .release = some { r with sys := z, told := ∅ } := by
        simp [Reactor.step, hz]
      refine ⟨{ r with sys := z, told := ∅ }, ?_, ⟨hmirrors, ?_⟩, hlog⟩
      · exact (GuardedRuns.exec_cons_iff _ _ _ _ _).mpr ⟨_, hnext, rfl⟩
      · intro m' hm'
        have hgone : (u.live.find who).isNone = true := by
          simpa [Server.parts, hstep] using hparts
        rw [server] at hm'
        rw [hm'] at hgone
        cases hgone

/-- A handler of the connection itself. -/
theorem sees_own (hc : s.server.Consistent) (born : who < s.server.accepts) (h : s.Sees who r)
    {a : Act} {b : ServerAct} (acts : serverActs a = [b]) (inner : outer who a = [])
    (hstep : s.server.step b = some u) {m m' : Shared} (found : s.server.live.find who = some m)
    (stays : u.live.find who = some m') {act : WebServer.Act} {fx : List Effect}
    (own : s.server.turn who m b = [(act, fx)]) {side : Side}
    (next : ∀ y, r.sys.step act = some y → y.conn = m'.conn →
      ((s.side who).reactor r.sys).step (Reactor.around a.room act) = some (side.reactor y))
    (host : t = (s.advance u).setSide who side) :
    ∃ r', Reactor.exec r (actsOf who s a) = some r' ∧ t.Sees who r' ∧
      r'.sys.log = r.sys.log ++ effectsOf who s a := by
  obtain ⟨y, hexec, hmirrors, hlog⟩ := Server.apart_step hc h.mirrors born hstep
  have hone : s.server.actsOf who b = [act] := by
    have hparts : s.server.parts who b = false := by
      simp [Server.parts, hstep, stays]
    simp [Server.actsOf, Server.turns, found, own, hparts]
  rw [hone] at hexec
  obtain ⟨z, hz, hend⟩ := (GuardedRuns.exec_cons_iff _ _ _ _ _).mp hexec
  obtain rfl := Option.some.inj hend
  have hacts : actsOf who s a = [Reactor.around a.room act] := by
    simp [actsOf, acts, inner, hone]
  have heffects : effectsOf who s a = s.server.effectsOf who b := by
    simp [effectsOf, acts]
  rw [hacts, heffects]
  have hnext := next z hz (hmirrors.live m' stays).2.1
  rw [← h.side m found] at hnext
  refine ⟨side.reactor z, ?_, ⟨?_, ?_⟩, hlog⟩
  · exact (GuardedRuns.exec_cons_iff _ _ _ _ _).mpr ⟨_, hnext, rfl⟩
  · rw [host]
    exact hmirrors
  · intro _ _
    rw [host, side_own]
    rfl

theorem sees_peer (h : s.Sees who r) {k : Nat} {p : PeerAct}
    (allowed : p.allowed (s.side k).socket) (found : (s.server.live.find k).isSome = true) :
    ∃ r', Reactor.exec r (actsOf who s (.peer k p)) = some r' ∧
      (s.setSide k (p.perform (s.side k))).Sees who r' ∧
      r'.sys.log = r.sys.log ++ effectsOf who s (.peer k p) := by
  by_cases hk : k = who
  · subst hk
    obtain ⟨m, hm⟩ := Option.isSome_iff_exists.mp found
    have hacts : actsOf k s (.peer k p) = [p.act] := by
      simp [actsOf, outer, serverActs]
    have hnext := PeerAct.step_act allowed r.sys
    rw [← h.side m hm] at hnext
    rw [hacts]
    refine ⟨(p.perform (s.side k)).reactor r.sys, ?_, ⟨h.mirrors, ?_⟩, (List.append_nil _).symm⟩
    · exact (GuardedRuns.exec_cons_iff _ _ _ _ _).mpr ⟨_, hnext, rfl⟩
    · intro _ _
      rw [side_own]
      rfl
  · have hacts : actsOf who s (.peer k p) = [] := by
      simp [actsOf, outer, serverActs, hk]
    rw [hacts]
    refine ⟨r, rfl, ⟨h.mirrors, ?_⟩, (List.append_nil _).symm⟩
    intro m hm
    rw [side_other s (Ne.symm hk)]
    exact h.side m hm

theorem sees_wait (h : s.Sees who r) {l : Nat} {ready : List Nat}
    (idle : (s.server.loops l).idle = true) (handled : s.Handled l)
    (reported : ∀ k ∈ ready, s.Ready l k) :
    ∃ r', Reactor.exec r (actsOf who s (.wait l ready)) = some r' ∧
      Sees { s with side := fun k => if k ∈ ready then (s.side k).report else s.side k } who r' ∧
      r'.sys.log = r.sys.log ++ effectsOf who s (.wait l ready) := by
  by_cases hready : who ∈ ready
  · obtain ⟨hhome, hlisted⟩ := reported who hready
    obtain ⟨m, hm, hl⟩ := (Option.any_eq_true _ _).mp hhome
    obtain rfl : m.home = l := of_decide_eq_true hl
    have htold : (s.side who).told = ∅ :=
      handled (who, m) ((s.server.live.mem_pairs_iff who m).mpr hm) rfl
    obtain ⟨halive, -, hbatch, -⟩ := h.mirrors.live m hm
    have hempty : r.sys.batch = [] :=
      hbatch.trans (congrArg (calls who) (Server.idle_batch idle))
    have hacts : actsOf who s (.wait m.home ready) = [.wait] := by
      simp [actsOf, outer, serverActs, hready]
    have hnext : ((s.side who).reactor r.sys).step .wait =
        some ((s.side who).report.reactor r.sys) :=
      if_pos ⟨hempty, halive, htold, hlisted⟩
    rw [← h.side m hm] at hnext
    rw [hacts]
    refine ⟨(s.side who).report.reactor r.sys, ?_, ⟨h.mirrors, ?_⟩, (List.append_nil _).symm⟩
    · exact (GuardedRuns.exec_cons_iff _ _ _ _ _).mpr ⟨_, hnext, rfl⟩
    · intro _ _
      simp only [if_pos hready]
      rfl
  · have hacts : actsOf who s (.wait l ready) = [] := by
      simp [actsOf, outer, serverActs, hready]
    rw [hacts]
    refine ⟨r, rfl, ⟨h.mirrors, ?_⟩, (List.append_nil _).symm⟩
    intro m hm
    simp only [if_neg hready]
    exact h.side m hm

/-- A functor of the connection, or of another one. -/
theorem sees_run (hc : s.server.Consistent) (born : who < s.server.accepts) (h : s.Sees who r)
    {l : Nat} {env : Env} {sends : Transfers} {room : Bool} {f : LoopFunctor}
    {rest : List LoopFunctor} (hbatch : (s.server.loops l).batch = f :: rest)
    (hstep : s.server.step (.run l env sends) = some u)
    (hrun : s.runFunctor env sends room u f = some t) :
    ∃ r', Reactor.exec r (actsOf who s (.run l env sends room)) = some r' ∧ t.Sees who r' ∧
      r'.sys.log = r.sys.log ++ effectsOf who s (.run l env sends room) := by
  by_cases hself : f.self = some who
  · cases f with
    | timeout => cases hself
    | erase => cases hself
    | call k cb =>
      obtain rfl := Option.some.inj hself
      have hmem : .call k cb ∈ (s.server.loops l).functors := by
        simp [EventLoop.functors, hbatch]
      obtain ⟨m, hm, rfl⟩ := hc.functors l _ hmem
      simp only [runFunctor, hm] at hrun
      obtain ⟨haccepts, ht⟩ := Option.ite_none_right_eq_some.mp hrun
      have hlive : u.live.find k = some { m with conn := (m.conn.call cb env sends).1 } := by
        have htake : (s.server.take m.home (.call k cb) rest).live.find k = some m := hm
        have hu : u = (s.server.take m.home (.call k cb) rest).perform k m
            (m.conn.call cb env sends) := by
          simpa [Server.step, hbatch, Server.runFunctor, htake] using hstep.symm
        rw [hu]
        exact Dict.find_insert_self _ _ _
      have hturn : s.server.turn k m (.run m.home env sends) =
          [(.run env sends, (m.conn.call cb env sends).2)] := by
        simp [Server.turn, hbatch]
      obtain ⟨halive, hconn, hown, -⟩ := h.mirrors.live m hm
      have hmine : calls k [.call k cb] = [cb] := by simp [calls, LoopFunctor.callOf]
      have hyours : r.sys.batch = cb :: calls k rest := by
        rw [hown, hbatch, calls_cons, hmine, List.singleton_append]
      refine sees_own hc born h rfl rfl hstep hm hlive hturn ?_ (Option.some.inj ht).symm
      intro y hy hnew
      have hnext : ((s.side k).reactor r.sys).step (.run env sends room) =
          (r.sys.step (.run env sends)).map fun sys =>
            ((s.side k).reactor r.sys).settle sys (r.sys.conn.callTraffic cb sends)
              (room || cb ≠ .trySend) := by
        simp only [Reactor.step, Side.reactor, hyours]
        exact if_pos haccepts
      show ((s.side k).reactor r.sys).step (.run env sends room) = _
      rw [hnext, hy, Option.map_some, hconn]
      simp only [Reactor.settle, Side.reactor, Side.settle, hnew]
  · have hidle : ∀ m, s.server.live.find who = some m →
        s.server.turn who m (.run l env sends) = [] :=
      fun m _ => Server.turn_run hbatch hself m env sends
    have hleaves : t.server = u ∧ t.side who = s.side who := by
      cases f with
      | timeout | erase =>
        obtain rfl := Option.some.inj hrun
        exact ⟨rfl, rfl⟩
      | call k cb =>
        have hk : who ≠ k := fun hk => hself (congrArg some hk.symm)
        cases hfind : s.server.live.find k with
        | none =>
          simp only [runFunctor, hfind] at hrun
          obtain rfl := Option.some.inj hrun
          exact ⟨rfl, rfl⟩
        | some m =>
          simp only [runFunctor, hfind] at hrun
          obtain ⟨-, ht⟩ := Option.ite_none_right_eq_some.mp hrun
          obtain rfl := Option.some.inj ht
          exact ⟨rfl, side_other (s.advance u) hk _⟩
    exact sees_others hc born h rfl rfl hstep hidle hleaves.1 hleaves.2

/-- Each step of the host is a step of the connection by itself in front of its socket, or none. -/
theorem sees_step (hc : s.server.Consistent) (born : who < s.server.accepts) (h : s.Sees who r)
    {a : Act} (hstep : s.step a = some t) :
    ∃ r', Reactor.exec r (actsOf who s a) = some r' ∧ t.Sees who r' ∧
      r'.sys.log = r.sys.log ++ effectsOf who s a := by
  cases a with
  | accept l fd =>
    obtain ⟨u, hu, ht⟩ := Option.map_eq_some_iff.mp hstep
    have hsides : t.server = u ∧ t.side who = s.side who := by
      cases hnew : u.live.find s.server.accepts with
      | none =>
        rw [hnew, Option.elim_none] at ht
        exact ht ▸ ⟨rfl, rfl⟩
      | some m =>
        rw [hnew, Option.elim_some] at ht
        exact ht ▸ ⟨rfl, side_other (s.advance u) (Nat.ne_of_lt born) _⟩
    exact sees_others hc born h rfl rfl hu (fun _ _ => rfl) hsides.1 hsides.2
  | peer k p =>
    obtain ⟨⟨hfound, hallowed⟩, ht⟩ := Option.ite_none_right_eq_some.mp hstep
    obtain rfl := Option.some.inj ht
    exact sees_peer h hallowed hfound
  | wait l ready =>
    obtain ⟨⟨hidle, hhandled, -, hready⟩, ht⟩ := Option.ite_none_right_eq_some.mp hstep
    obtain rfl := Option.some.inj ht
    exact sees_wait h hidle hhandled hready
  | hangup k =>
    obtain ⟨htold, hmap⟩ := Option.ite_none_right_eq_some.mp hstep
    obtain ⟨u, hu, rfl⟩ := Option.map_eq_some_iff.mp hmap
    by_cases hk : k = who
    · subst hk
      cases Server.taken_of_step hu with
      | hangup _ m hfind =>
        refine sees_own hc born h rfl rfl hu hfind (Dict.find_insert_self _ _ _) (if_pos rfl) ?_ rfl
        intro y hy _
        show ((s.side k).reactor r.sys).step .hangup = _
        simp only [Reactor.step, Side.reactor, if_pos htold, hy, Option.map_some]
    · exact sees_others hc born h rfl rfl hu (fun _ _ => if_neg hk) rfl
        (side_other (s.advance u) (Ne.symm hk) _)
  | read k env arrival =>
    cases hfind : s.server.live.find k with
    | none => simp [step, hfind] at hstep
    | some m =>
      simp only [step, hfind] at hstep
      obtain ⟨hguard, hmap⟩ := Option.ite_none_right_eq_some.mp hstep
      obtain ⟨u, hu, rfl⟩ := Option.map_eq_some_iff.mp hmap
      by_cases hk : k = who
      · subst hk
        obtain ⟨-, hconn, -⟩ := h.mirrors.live m hfind
        cases Server.taken_of_step hu with
        | readable _ m' _ _ hfind' =>
          obtain rfl := Option.some.inj (hfind.symm.trans hfind')
          refine sees_own hc born h rfl rfl hu hfind (Dict.find_insert_self _ _ _) (if_pos rfl) ?_
            rfl
          intro y hy _
          show ((s.side k).reactor r.sys).step (.read env arrival) = _
          simp only [Reactor.step, Side.reactor, if_pos hguard, hy, Option.map_some, hconn]
      · exact sees_others hc born h rfl rfl hu (fun _ _ => if_neg hk) rfl
          (side_other (s.advance u) (Ne.symm hk) _)
  | write k sends files room =>
    cases hfind : s.server.live.find k with
    | none => simp [step, hfind] at hstep
    | some m =>
      simp only [step, hfind] at hstep
      obtain ⟨hguard, hmap⟩ := Option.ite_none_right_eq_some.mp hstep
      obtain ⟨u, hu, rfl⟩ := Option.map_eq_some_iff.mp hmap
      by_cases hk : k = who
      · subst hk
        obtain ⟨-, hconn, -⟩ := h.mirrors.live m hfind
        cases Server.taken_of_step hu with
        | writable _ m' _ _ hfind' =>
          obtain rfl := Option.some.inj (hfind.symm.trans hfind')
          refine sees_own hc born h rfl rfl hu hfind (Dict.find_insert_self _ _ _) (if_pos rfl) ?_
            rfl
          intro y hy hnew
          show ((s.side k).reactor r.sys).step (.write sends files room) = _
          simp only [Reactor.step, Side.reactor, if_pos hguard, hy, Option.map_some, hconn]
          simp only [Reactor.settle, Side.settle, hnew]
      · exact sees_others hc born h rfl rfl hu (fun _ _ => if_neg hk) rfl
          (side_other (s.advance u) (Ne.symm hk) _)
  | expire l fd =>
    obtain ⟨-, hmap⟩ := Option.ite_none_right_eq_some.mp hstep
    obtain ⟨u, hu, rfl⟩ := Option.map_eq_some_iff.mp hmap
    exact sees_others hc born h rfl rfl hu (fun _ _ => rfl) rfl rfl
  | swap l =>
    obtain ⟨hhandled, hmap⟩ := Option.ite_none_right_eq_some.mp hstep
    obtain ⟨u, hu, rfl⟩ := Option.map_eq_some_iff.mp hmap
    cases hfind : s.server.live.find who with
    | none =>
      refine sees_others hc born h rfl rfl hu ?_ rfl rfl
      intro m hm
      rw [hfind] at hm
      cases hm
    | some m =>
      by_cases hl : l = m.home
      · subst hl
        have htold : (s.side who).told = ∅ :=
          hhandled (who, m) ((s.server.live.mem_pairs_iff who m).mpr hfind) rfl
        have hlive : u.live.find who = some m := by
          cases Server.taken_of_step hu
          exact hfind
        have hsame : s.advance u = (s.advance u).setSide who (s.side who) := by
          simp [advance, setSide]
        refine sees_own hc born h rfl rfl hu hfind hlive (if_pos rfl) ?_ hsame
        intro y hy _
        show ((s.side who).reactor r.sys).step .swap = _
        simp only [Reactor.step, Side.reactor, if_pos htold, hy, Option.map_some]
      · refine sees_others hc born h rfl rfl hu ?_ rfl rfl
        intro m' hm'
        obtain rfl := Option.some.inj (hfind.symm.trans hm')
        exact if_neg hl
  | run l env sends room =>
    cases hbatch : (s.server.loops l).batch with
    | nil => simp [step, hbatch] at hstep
    | cons f rest =>
      simp only [step, hbatch] at hstep
      obtain ⟨u, hu, hrun⟩ := Option.bind_eq_some_iff.mp hstep
      exact sees_run hc born h hbatch hu hrun
  | destroy l =>
    obtain ⟨u, hu, rfl⟩ := Option.map_eq_some_iff.mp hstep
    exact sees_others hc born h rfl rfl hu (fun _ _ => rfl) rfl rfl

/-! ## Runs -/

theorem server_of_step {a : Act} (hstep : s.step a = some t) :
    s.server.exec (serverActs a) = some t.server := by
  have hone : ∀ {b : ServerAct}, s.server.step b = some t.server →
      s.server.exec [b] = some t.server :=
    fun hb => (GuardedRuns.exec_cons_iff _ _ _ _ _).mpr ⟨_, hb, rfl⟩
  cases a with
  | accept l fd =>
    obtain ⟨u, hu, rfl⟩ := Option.map_eq_some_iff.mp hstep
    apply hone
    cases u.live.find s.server.accepts with
    | none => exact hu
    | some m => exact hu
  | peer | wait =>
    obtain ⟨-, ht⟩ := Option.ite_none_right_eq_some.mp hstep
    obtain rfl := Option.some.inj ht
    rfl
  | hangup | expire | swap =>
    obtain ⟨-, hmap⟩ := Option.ite_none_right_eq_some.mp hstep
    obtain ⟨u, hu, rfl⟩ := Option.map_eq_some_iff.mp hmap
    exact hone hu
  | read k | write k =>
    cases hfind : s.server.live.find k with
    | none => simp [step, hfind] at hstep
    | some m =>
      simp only [step, hfind] at hstep
      obtain ⟨-, hmap⟩ := Option.ite_none_right_eq_some.mp hstep
      obtain ⟨u, hu, rfl⟩ := Option.map_eq_some_iff.mp hmap
      exact hone hu
  | run l env sends room =>
    cases hbatch : (s.server.loops l).batch with
    | nil => simp [step, hbatch] at hstep
    | cons f rest =>
      simp only [step, hbatch] at hstep
      obtain ⟨u, hu, hrun⟩ := Option.bind_eq_some_iff.mp hstep
      obtain rfl : t.server = u := by
        unfold runFunctor at hrun
        split at hrun
        · split at hrun
          · exact (Option.some.inj hrun) ▸ rfl
          · obtain ⟨-, ht⟩ := Option.ite_none_right_eq_some.mp hrun
            exact (Option.some.inj ht) ▸ rfl
        · exact (Option.some.inj hrun) ▸ rfl
      exact hone hu
  | destroy l =>
    obtain ⟨u, hu, rfl⟩ := Option.map_eq_some_iff.mp hstep
    exact hone hu

theorem consistent_step (hc : s.server.Consistent) {a : Act} (hstep : s.step a = some t) :
    t.server.Consistent :=
  GuardedRuns.invariant_of_run Server.Consistent (fun _ _ _ h hb => Server.consistent_step h hb) hc
    (server_of_step hstep)

/-- Only an accept makes a new number, and the settings of the server stay. -/
theorem numbers_step {a : Act} (hstep : s.step a = some t) :
    t.server.resourceDir = s.server.resourceDir ∧ t.server.router = s.server.router ∧
      (t.server.accepts = s.server.accepts ∨
        (∃ l fd, a = .accept l fd) ∧ t.server.accepts = s.server.accepts + 1) := by
  have hserver := server_of_step hstep
  have hstands : s.server.Stands s.server.resourceDir s.server.router s.server.accepts :=
    ⟨rfl, rfl, rfl⟩
  have hone : ∀ {b : ServerAct}, s.server.exec [b] = some t.server →
      t.server.Stands s.server.resourceDir s.server.router
        (s.server.accepts + (Server.acceptFd b).toList.length) := by
    intro b hb
    obtain ⟨u, hu, hend⟩ := (GuardedRuns.exec_cons_iff _ _ _ _ _).mp hb
    obtain rfl := Option.some.inj hend
    exact Server.stands_step hstands hu
  cases a with
  | accept l fd =>
    have hnext := hone hserver
    exact ⟨hnext.resourceDir, hnext.router, .inr ⟨⟨l, fd, rfl⟩, hnext.accepts⟩⟩
  | peer | wait =>
    have hsame : s.server = t.server := Option.some.inj hserver
    rw [hsame]
    exact ⟨rfl, rfl, .inl rfl⟩
  | hangup | read | write | expire | swap | run | destroy =>
    have hnext := hone hserver
    exact ⟨hnext.resourceDir, hnext.router, .inl hnext.accepts⟩

/-- Before its accept a connection has no part in anything. -/
theorem actsOf_unborn (hc : s.server.Consistent) (unborn : s.server.accepts ≤ who) {a : Act}
    (hstep : s.step a = some t) : actsOf who s a = [] ∧ effectsOf who s a = [] := by
  have hturns := Server.turns_unborn hc unborn
  have hnone : s.server.live.find who = none := by
    cases hfind : s.server.live.find who with
    | none => rfl
    | some m => exact absurd (hc.numbered who m hfind) (Nat.not_lt.mpr unborn)
  have houter : outer who a = [] := by
    cases a with
    | peer k p =>
      obtain ⟨⟨hfound, -⟩, -⟩ := Option.ite_none_right_eq_some.mp hstep
      refine if_neg ?_
      rintro rfl
      rw [hnone] at hfound
      cases hfound
    | wait l ready =>
      obtain ⟨⟨-, -, -, hready⟩, -⟩ := Option.ite_none_right_eq_some.mp hstep
      refine if_neg ?_
      intro hmem
      have hhome := (hready who hmem).1
      rw [hnone] at hhome
      cases hhome
    | accept | hangup | read | write | expire | swap | run | destroy => rfl
  constructor
  · rw [actsOf, houter]
    exact List.flatMap_eq_nil_iff.mpr fun b _ => by rw [Server.actsOf, hturns]; rfl
  · exact List.flatMap_eq_nil_iff.mpr fun b _ => by rw [Server.effectsOf, hturns]; rfl

/-- A connection starts in front of an empty socket, on an object that is new or cleared. -/
theorem sees_accept (hc : s.server.Consistent) {l : Nat} {fd : Int}
    (hstep : s.step (.accept l fd) = some t) :
    ∃ c, Sys.Fresh c ∧ c.channel.epollIn = true ∧
      (c.resourceDir = s.server.resourceDir ∧ c.router = s.server.router) ∧
      t.Sees s.server.accepts (Reactor.start c {}) := by
  obtain ⟨u, hu, ht⟩ := Option.map_eq_some_iff.mp hstep
  obtain rfl : u = s.server.handleListenEvent l fd := by
    cases Server.taken_of_step hu
    rfl
  have hmirrors := Server.mirrors_accepted hc l fd
  refine ⟨_, (Server.fresh_acquire s.server l fd).1, rfl,
    alike_home (Server.alike_acquire s.server l fd), ?_⟩
  cases hnew : (s.server.handleListenEvent l fd).live.find s.server.accepts with
  | none =>
    rw [hnew, Option.elim_none] at ht
    subst ht
    refine ⟨hmirrors, ?_⟩
    intro m hm
    exact absurd (hnew.symm.trans hm) nofun
  | some m =>
    rw [hnew, Option.elim_some] at ht
    subst ht
    refine ⟨hmirrors, ?_⟩
    intro m' hm'
    obtain ⟨-, hconn, -⟩ := hmirrors.live m hnew
    rw [side_own, ← hconn]
    rfl

/-- Guards of the host that say enough about one connection are guards of its own run, as long
as its reactor keeps an invariant. -/
def Carries (ok : Host → Act → Prop) (ok' : Reactor → Reactor.Act → Prop) (I : Reactor → Prop)
    (who : Nat) : Prop :=
  ∀ s r a t, s.server.Consistent → who < s.server.accepts → s.Sees who r → I r → ok s a →
    s.step a = some t → GuardedRuns.Guarded Reactor.step ok' r (actsOf who s a)

section
variable {ok : Host → Act → Prop} {ok' : Reactor → Reactor.Act → Prop} {I : Reactor → Prop}

theorem views_reactor (carries : Carries ok ok' I who)
    (kept : ∀ r a r', I r → ok' r a → r.step a = some r' → I r') :
    GuardedRuns.Views step ok Reactor.step ok'
      (fun s r => (s.server.Consistent ∧ who < s.server.accepts) ∧ s.Sees who r ∧ I r)
      (actsOf who) (effectsOf who) (·.sys.log) := by
  rintro s r a t ⟨⟨hc, hborn⟩, hsees, hinv⟩ hok hstep
  have hguarded := carries s r a t hc hborn hsees hinv hok hstep
  obtain ⟨r', hr', hnext, hlog⟩ := sees_step hc hborn hsees hstep
  have hlater : who < t.server.accepts := by
    rcases (numbers_step hstep).2.2 with hsame | ⟨-, hmore⟩
    · omega
    · omega
  exact ⟨hguarded, r', hr', ⟨⟨consistent_step hc hstep, hlater⟩, hnext,
    GuardedRuns.invariant_of_guarded I kept hinv hguarded hr'⟩, hlog⟩

/-- A connection of a guarded run of the host, from its accept on. -/
theorem reactor_of_run (carries : Carries ok ok' I who)
    (kept : ∀ r a r', I r → ok' r a → r.step a = some r' → I r')
    (start : ∀ c, I (Reactor.start c {})) (hc : s.server.Consistent)
    (unborn : s.server.accepts ≤ who) {as : List Act}
    (run : GuardedRuns.exec step s as = some t) (guarded : GuardedRuns.Guarded step ok s as)
    (born : who < t.server.accepts) :
    ∃ c r, Sys.Fresh c ∧ c.channel.epollIn = true ∧
      (c.resourceDir = s.server.resourceDir ∧ c.router = s.server.router) ∧
      GuardedRuns.Guarded Reactor.step ok' (Reactor.start c {})
        (GuardedRuns.seen step (actsOf who) s as) ∧
      Reactor.exec (Reactor.start c {}) (GuardedRuns.seen step (actsOf who) s as) = some r ∧
      t.Sees who r ∧ r.sys.log = GuardedRuns.seen step (effectsOf who) s as := by
  induction as generalizing s with
  | nil =>
    obtain rfl := Option.some.inj run
    omega
  | cons a as ih =>
    obtain ⟨m, hm, hrest⟩ := (GuardedRuns.exec_cons_iff step s t a as).mp run
    obtain ⟨hacts, heffects⟩ := actsOf_unborn hc unborn hm
    obtain ⟨hdir, hrouter, hnumbers⟩ := numbers_step hm
    have hcm := consistent_step hc hm
    rw [GuardedRuns.seen_cons hm, GuardedRuns.seen_cons hm, hacts, heffects, List.nil_append,
      List.nil_append, ← hdir, ← hrouter]
    by_cases hlater : m.server.accepts ≤ who
    · exact ih hcm hlater hrest (guarded.2 m hm)
    · rcases hnumbers with hsame | ⟨⟨l, fd, rfl⟩, hmore⟩
      · omega
      · obtain rfl : s.server.accepts = who := by omega
        obtain ⟨c, hfresh, hreading, hhome, hsees⟩ := sees_accept hc hm
        have hborn : s.server.accepts < m.server.accepts := by omega
        obtain ⟨hok, r, hr, ⟨-, hlast, -⟩, hlog⟩ :=
          GuardedRuns.exec_seen (views_reactor carries kept) ⟨⟨hcm, hborn⟩, hsees, start c⟩
            (guarded.2 m hm) hrest
        rw [hdir, hrouter]
        exact ⟨c, r, hfresh, hreading, hhome, hok, hr, hlast, hlog⟩

end

/-! ## Clients that send whole requests -/

/-- The world that a step looks at. -/
def Act.world : Act → Option Env
  | .read _ env _ | .run _ env _ _ => some env
  | .accept _ _ | .peer _ _ | .wait _ _ | .hangup _ | .write _ _ _ _ | .expire _ _ | .swap _
  | .destroy _ => none

/-- The peer of the connection keeps its side open, no read of the connection stops at 2 MiB, and
none completes a request that a queued functor is to take up. -/
def Gentle (who : Nat) (s : Host) : Act → Prop
  | .peer k p => k = who → p.keepsOpen = true
  | .read k _ arrival => k = who → ∀ m, s.server.live.find who = some m →
      (m.conn.read arrival).1 = .success ∧
      (.processInWorker ∈ calls who (s.server.loops m.home).waiting → m.conn.state = .connected →
        (m.conn.read arrival).2.1.parsed.1 = .incomplete)
  | .accept _ _ | .wait _ _ | .hangup _ | .write _ _ _ _ | .expire _ _ | .swap _ | .run _ _ _ _
  | .destroy _ => True

instance (who : Nat) (s : Host) : (a : Act) → Decidable (Gentle who s a)
  | .peer k p => inferInstanceAs (Decidable (k = who → p.keepsOpen = true))
  | .read k _ arrival =>
    match h : s.server.live.find who with
    | none => .isTrue (by simp [Gentle, h])
    | some m => decidable_of_iff (k = who → (m.conn.read arrival).1 = .success ∧
        (.processInWorker ∈ calls who (s.server.loops m.home).waiting →
          m.conn.state = .connected → (m.conn.read arrival).2.1.parsed.1 = .incomplete))
        (by simp [Gentle, h])
  | .accept _ _ | .wait _ _ | .hangup _ | .write _ _ _ _ | .expire _ _ | .swap _ | .run _ _ _ _
  | .destroy _ => .isTrue trivial

/-- What a gentle peer lets happen. -/
def OnlyEvents (env : Env) (r : Reactor) (a : Reactor.Act) : Prop :=
  ∃ e : Reactor.Event, a = e.act env ∧ Reactor.Orderly r e

/-- The connection is not broken, and no one was told that it is. -/
def Whole (r : Reactor) : Prop := r.socket.broken = false ∧ .hangup ∉ r.told

theorem whole_start (c : Connection) : Whole (Reactor.start c {}) :=
  ⟨rfl, Finset.notMem_empty _⟩

theorem whole_step {env : Env} {r r' : Reactor} {a : Reactor.Act} (h : Whole r)
    (ok : OnlyEvents env r a) (hstep : r.step a = some r') : Whole r' := by
  obtain ⟨e, rfl, -⟩ := ok
  have hmoved := Reactor.moved_of_step hstep
  cases e with
  | deliver | drain | swap | run =>
    cases hmoved
    exact h
  | wait =>
    cases hmoved with
    | wait _ _ hlisted =>
      refine ⟨h.1, ?_⟩
      intro htold
      simp only [Watch.report, hlisted, if_true, Finset.mem_inter] at htold
      have hup := htold.2
      rw [Socket.mem_up, Socket.isUp, h.1] at hup
      cases hup
  | read arrival =>
    cases hmoved
    exact ⟨h.1, fun htold => h.2 (Finset.mem_of_mem_erase htold)⟩
  | write sends files room =>
    cases hmoved
    exact ⟨h.1, fun htold => h.2 (Finset.mem_of_mem_erase htold)⟩

/-- A connection that is gone stays so. -/
theorem gone_step {v w : Server} (hc : v.Consistent) (born : who < v.accepts)
    (gone : v.live.find who = none) {b : ServerAct} (hstep : v.step b = some w) :
    w.live.find who = none := by
  let y : Sys := { Sys.start (Connection.new 0 [] none) with alive := false }
  have hmirrors : v.Mirrors who y :=
    ⟨fun m hm => absurd (gone.symm.trans hm) nofun, fun _ => rfl⟩
  obtain ⟨y', hexec, hnext, -⟩ := Server.apart_step hc hmirrors born hstep
  have hnone : v.actsOf who b = [] := by
    simp [Server.actsOf, Server.turns, gone]
  rw [hnone] at hexec
  obtain rfl : y = y' := Option.some.inj hexec
  cases hfind : w.live.find who with
  | none => rfl
  | some m => exact absurd (hnext.live m hfind).1 Bool.false_ne_true

theorem live_back (hc : s.server.Consistent) (born : who < s.server.accepts) {a : Act}
    (hstep : s.step a = some t) (live : (t.server.live.find who).isSome = true) :
    (s.server.live.find who).isSome = true := by
  cases hfind : s.server.live.find who with
  | some m => rfl
  | none =>
    have hgone : (t.server.Consistent ∧ who < t.server.accepts) ∧
        t.server.live.find who = none := by
      refine GuardedRuns.invariant_of_run (fun v : Server =>
        (v.Consistent ∧ who < v.accepts) ∧ v.live.find who = none) ?_ ⟨⟨hc, born⟩, hfind⟩
        (server_of_step hstep)
      rintro v b w ⟨⟨hv, hborn⟩, hnone⟩ hb
      have hstands : v.Stands v.resourceDir v.router v.accepts := ⟨rfl, rfl, rfl⟩
      have hmore := (Server.stands_step hstands hb).accepts
      exact ⟨⟨Server.consistent_step hv hb, by omega⟩, gone_step hv hborn hnone hb⟩
    rw [hgone.2] at live
    cases live

/-- The part of a living connection in a step that it survives. -/
theorem actsOf_living {a : Act} {b : ServerAct} (acts : serverActs a = [b])
    (inner : outer who a = []) {m : Shared} (found : s.server.live.find who = some m)
    (hstep : s.step a = some t) (live : (t.server.live.find who).isSome = true) :
    actsOf who s a = (s.server.turn who m b).map fun p => Reactor.around a.room p.1 := by
  have hserver := server_of_step hstep
  rw [acts] at hserver
  obtain ⟨u, hu, hend⟩ := (GuardedRuns.exec_cons_iff _ _ _ _ _).mp hserver
  obtain rfl := Option.some.inj hend
  obtain ⟨m', hm'⟩ := Option.isSome_iff_exists.mp live
  have hparts : s.server.parts who b = false := by
    simp [Server.parts, hu, hm']
  simp [actsOf, acts, inner, Server.actsOf, Server.turns, found, hparts]

/-- A gentle step is at most one event of the connection. -/
theorem events_gentle {env : Env} (h : s.Sees who r) (whole : Whole r) {a : Act}
    (gentle : Gentle who s a) (world : ∀ env', a.world = some env' → env' = env) {m : Shared}
    (found : s.server.live.find who = some m) (hstep : s.step a = some t)
    (live : (t.server.live.find who).isSome = true) :
    actsOf who s a = [] ∨ ∃ x, actsOf who s a = [x] ∧ OnlyEvents env r x := by
  obtain ⟨halive, hconn, hbatch, hpending⟩ := h.mirrors.live m found
  cases a with
  | accept l fd => exact .inl (actsOf_living (b := .accept l fd) rfl rfl found hstep live)
  | peer k p =>
    by_cases hk : k = who
    · have hacts : actsOf who s (.peer k p) = [p.act] := by
        simp [actsOf, outer, serverActs, hk]
      refine .inr ⟨p.act, hacts, ?_⟩
      cases p with
      | deliver data => exact ⟨.deliver data, rfl, trivial⟩
      | drain => exact ⟨.drain, rfl, trivial⟩
      | finish => exact absurd (gentle hk) Bool.false_ne_true
      | reset => exact absurd (gentle hk) Bool.false_ne_true
    · exact .inl (by simp [actsOf, outer, serverActs, hk])
  | wait l ready =>
    by_cases hready : who ∈ ready
    · have hacts : actsOf who s (.wait l ready) = [.wait] := by
        simp [actsOf, outer, serverActs, hready]
      exact .inr ⟨.wait, hacts, .wait, rfl, trivial⟩
    · exact .inl (by simp [actsOf, outer, serverActs, hready])
  | hangup k =>
    rw [actsOf_living (b := .hangup k) rfl rfl found hstep live]
    refine .inl (List.map_eq_nil_iff.mpr (if_neg ?_))
    rintro rfl
    obtain ⟨htold, -⟩ := Option.ite_none_right_eq_some.mp hstep
    have hsame := h.side m found
    rw [hsame] at whole
    exact whole.2 htold
  | read k env' arrival =>
    rw [actsOf_living (b := .readable k env' arrival) rfl rfl found hstep live]
    by_cases hk : k = who
    · obtain ⟨hread, hrace⟩ := gentle hk m found
      refine .inr ⟨.read env' arrival, by simp [Server.turn, hk, Reactor.around], .read arrival, ?_,
        ?_, ?_⟩
      · rw [world env' rfl]
        rfl
      · rw [hconn]
        exact hread
      · rw [Sys.functors, hbatch, hpending, ← calls_append, hconn]
        exact hrace
    · exact .inl (by simp [Server.turn, hk])
  | write k sends files room =>
    rw [actsOf_living (b := .writable k sends files) rfl rfl found hstep live]
    by_cases hk : k = who
    · exact .inr ⟨.write sends files room, by simp [Server.turn, hk, Reactor.around, Act.room],
        .write sends files room, rfl, trivial⟩
    · exact .inl (by simp [Server.turn, hk])
  | expire l fd => exact .inl (actsOf_living (b := .expire l fd) rfl rfl found hstep live)
  | swap l =>
    rw [actsOf_living (b := .swap l) rfl rfl found hstep live]
    by_cases hl : l = m.home
    · exact .inr ⟨.swap, by simp [Server.turn, hl, Reactor.around], .swap, rfl, trivial⟩
    · exact .inl (by simp [Server.turn, hl])
  | run l env' sends room =>
    rw [actsOf_living (b := .run l env' sends) rfl rfl found hstep live]
    cases hfirst : (s.server.loops l).batch with
    | nil => exact .inl (by simp [Server.turn, hfirst])
    | cons f rest =>
      by_cases hself : f.self = some who
      · cases f with
        | call k cb =>
          obtain rfl := Option.some.inj hself
          refine .inr ⟨.run env' sends room,
            by simp [Server.turn, hfirst, Reactor.around, Act.room], .run sends room, ?_, trivial⟩
          rw [world env' rfl]
          rfl
        | timeout => cases hself
        | erase => cases hself
      · rw [Server.turn_run hfirst hself]
        exact .inl rfl
  | destroy l => exact .inl (actsOf_living (b := .destroy l) rfl rfl found hstep live)

/-- What a gentle run holds for a connection that is still there at its end. -/
def Spared (env : Env) (who : Nat) (s : Host) (a : Act) : Prop :=
  (Gentle who s a ∧ ∀ env', a.world = some env' → env' = env) ∧ ∀ u, step s a = some u →
    who < u.server.accepts → (u.server.live.find who).isSome = true

theorem carries_spared (env : Env) (who : Nat) :
    Carries (Spared env who) (OnlyEvents env) Whole who := by
  rintro s r a t hc hborn hsees hwhole ⟨⟨hgentle, hworld⟩, hstays⟩ hstep
  have hlater : who < t.server.accepts := by
    rcases (numbers_step hstep).2.2 with hsame | ⟨-, hmore⟩
    · omega
    · omega
  have hlive := hstays t hstep hlater
  obtain ⟨m, hm⟩ := Option.isSome_iff_exists.mp (live_back hc hborn hstep hlive)
  rcases events_gentle hsees hwhole hgentle hworld hm hstep hlive with hnone | ⟨x, hx, hok⟩
  · rw [hnone]
    trivial
  · rw [hx]
    exact ⟨hok, fun _ _ => trivial⟩

theorem events_of_guarded {env : Env} {r r' : Reactor} {acts : List Reactor.Act}
    (h : GuardedRuns.Guarded Reactor.step (OnlyEvents env) r acts)
    (run : Reactor.exec r acts = some r') :
    ∃ events : List Reactor.Event, events.map (·.act env) = acts ∧
      GuardedRuns.Guarded (Reactor.stepOn env) Reactor.Orderly r events := by
  induction acts generalizing r with
  | nil => exact ⟨[], rfl, trivial⟩
  | cons a acts ih =>
    obtain ⟨m, hm, hrest⟩ := (GuardedRuns.exec_cons_iff _ _ _ a acts).mp run
    obtain ⟨⟨e, rfl, horderly⟩, hlater⟩ := h
    obtain ⟨events, rfl, hguarded⟩ := ih (hlater m hm) hrest
    refine ⟨e :: events, rfl, horderly, ?_⟩
    intro u hu
    obtain rfl := Option.some.inj (hm.symm.trans hu)
    exact hguarded

/-- The bytes that the peer of a connection has delivered. -/
def sentTo (who : Nat) (as : List Act) : Str :=
  as.flatMap fun
    | .peer k (.deliver data) => if k = who then data else []
    | _ => []

theorem delivered_acts (s : Host) (a : Act) :
    Reactor.delivered (actsOf who s a) = sentTo who [a] := by
  have hinner : ∀ (room : Bool) (bs : List WebServer.Act),
      Reactor.delivered (bs.map (Reactor.around room)) = [] := by
    intro room bs
    refine List.flatMap_eq_nil_iff.mpr ?_
    intro x hx
    obtain ⟨b, -, rfl⟩ := List.mem_map.mp hx
    cases b <;> rfl
  have hserver : Reactor.delivered ((serverActs a).flatMap fun b =>
      (s.server.actsOf who b).map (Reactor.around a.room)) = [] := by
    rw [← List.map_flatMap]
    exact hinner a.room _
  have hsplit : Reactor.delivered (actsOf who s a) = Reactor.delivered (outer who a) := by
    rw [actsOf]
    exact List.flatMap_append.trans ((congrArg _ hserver).trans (List.append_nil _))
  rw [hsplit]
  cases a with
  | peer k p =>
    by_cases hk : k = who
    · cases p with
      | deliver data => simp [outer, sentTo, hk, Reactor.delivered, PeerAct.act]
      | finish | reset | drain => simp [outer, sentTo, hk, Reactor.delivered, PeerAct.act]
    · cases p with
      | deliver data => simp [outer, sentTo, hk, Reactor.delivered]
      | finish | reset | drain => simp [outer, sentTo, hk, Reactor.delivered]
  | wait l ready =>
    by_cases hready : who ∈ ready
    · simp [outer, sentTo, hready, Reactor.delivered]
    · simp [outer, sentTo, hready, Reactor.delivered]
  | accept | hangup | read | write | expire | swap | run | destroy => rfl

theorem delivered_seen {as : List Act} (run : GuardedRuns.exec step s as = some t) :
    Reactor.delivered (GuardedRuns.seen step (actsOf who) s as) = sentTo who as := by
  induction as generalizing s with
  | nil => rfl
  | cons a as ih =>
    obtain ⟨m, hm, hrest⟩ := (GuardedRuns.exec_cons_iff step s t a as).mp run
    have hlater := ih hrest
    have hfirst : Reactor.delivered (actsOf who s a) = sentTo who [a] := delivered_acts s a
    rw [GuardedRuns.seen_cons hm, Reactor.delivered, List.flatMap_append]
    rw [Reactor.delivered] at hfirst hlater
    rw [hfirst, hlater, sentTo, sentTo, sentTo, ← List.flatMap_append]
    rfl

/-- Nothing is left to do for the connection: no functor, no report, no event to handle. -/
def AtRest (s : Host) (who : Nat) (m : Shared) : Prop :=
  calls who (s.server.loops m.home).waiting = [] ∧ (s.side who).watch.listed = false ∧
    (s.side who).told = ∅

end

section
variable {env : Env} {s : Server} {t : Host}

end

/-- The next batch of a loop, of this many functors. -/
def batchOf (l : Nat) (env : Env) (sends : Transfers) (count : Nat) : List Act :=
  .swap l :: List.replicate count (.run l env sends true) ++ [.destroy l]

end Host

end WebServer
