import WebServer.ObjectOwnership
import WebServer.ScheduledRemoval
import WebServer.ServerReactor

/-!
# A loop at rest

What is left of the connections of a loop when it has nothing to do until something happens
outside. That a connection is being removed is said by its functors, then by a removal of its
descriptor in the queue; when that has run, the functors are the last to hold the connection,
and they are gone at rest. So no connection whose peer has ended or broken it is left behind.
-/

namespace WebServer

open KeyedList Connection EdgeTrigger

namespace Server

/-- The connection is not in the map of its loop, or the removal of its descriptor waits. -/
def Removing (s : Server) (who : Nat) : Prop :=
  ∀ m, s.live.find who = some m → (s.loops m.home).connections.find m.conn.fd ≠ some who ∨
    ∃ k, .erase m.conn.fd k ∈ (s.loops m.home).waiting

section
variable {s t : Server} {who : Nat}

/-- A step that keeps what waits and makes no entry for the connection. -/
theorem removing_kept (h : s.Removing who)
    (kept : ∀ m, t.live.find who = some m → ∃ m', s.live.find who = some m' ∧
      m.home = m'.home ∧ m.conn.fd = m'.conn.fd ∧
      ((t.loops m.home).connections.find m.conn.fd = some who →
        (s.loops m.home).connections.find m.conn.fd = some who) ∧
      ∀ k, .erase m.conn.fd k ∈ (s.loops m.home).waiting →
        (t.loops m.home).connections.find m.conn.fd ≠ some who ∨
          ∃ k, .erase m.conn.fd k ∈ (t.loops m.home).waiting) : t.Removing who := by
  intro m hm
  obtain ⟨m', hm', hhome, hfd, hentry, hwaits⟩ := kept m hm
  rcases h m' hm' with hnone | ⟨k, hk⟩
  · left
    rw [← hhome, ← hfd] at hnone
    exact fun hfind => hnone (hentry hfind)
  · rw [← hhome, ← hfd] at hk
    exact hwaits k hk

/-- A change in one loop, of its functors alone. -/
theorem removing_setLoop (h : s.Removing who) {l : Nat} {loop : EventLoop}
    (connections : loop.connections = (s.loops l).connections)
    (waiting : ∀ fd k, .erase fd k ∈ (s.loops l).waiting → .erase fd k ∈ loop.waiting) :
    (s.setLoop l loop).Removing who := by
  refine removing_kept h ?_
  intro m hm
  refine ⟨m, hm, rfl, rfl, ?_⟩
  rcases loops_setLoop s l m.home loop with ⟨rfl, hloop⟩ | hloop
  · rw [hloop, connections]
    exact ⟨id, fun k hk => .inr ⟨k, waiting _ k hk⟩⟩
  · rw [hloop]
    exact ⟨id, fun k hk => .inr ⟨k, hk⟩⟩

theorem removing_queueInLoop (h : s.Removing who) (l : Nat) (fs : List LoopFunctor) :
    (s.queueInLoop l fs).Removing who := by
  refine removing_setLoop h rfl ?_
  intro fd k hk
  rw [EventLoop.waiting] at hk ⊢
  exact List.append_assoc _ _ fs ▸ List.mem_append_left fs hk

theorem removing_perform (h : s.Removing who) {k : Nat} {m : Shared}
    (found : s.live.find k = some m) {out : Connection × List Effect}
    (stays : out.1.fd = m.conn.fd) : (s.perform k m out).Removing who := by
  refine removing_queueInLoop ?_ m.home _
  refine removing_kept h ?_
  intro n hn
  rcases Dict.find_of_insert hn with ⟨rfl, rfl⟩ | ⟨-, hold⟩
  · exact ⟨m, found, rfl, stays, id, fun k hk => .inr ⟨k, hk⟩⟩
  · exact ⟨n, hold, rfl, rfl, id, fun k hk => .inr ⟨k, hk⟩⟩

theorem removing_drop (h : s.Removing who) (k : Nat) : (s.drop k).Removing who := by
  refine removing_kept h ?_
  intro m hm
  obtain ⟨pool, hloop⟩ := loops_drop s k m.home
  rw [hloop]
  exact ⟨m, live_drop hm, rfl, rfl, id, fun k hk => .inr ⟨k, hk⟩⟩

/-- The removal of a descriptor makes way for the one that waited for it. -/
theorem removing_erase {l : Nat} {fd : Int} (whom : Nat)
    (h : ∀ m, s.live.find who = some m → ¬(m.home = l ∧ m.conn.fd = fd) →
      (s.loops m.home).connections.find m.conn.fd ≠ some who ∨
        ∃ k, .erase m.conn.fd k ∈ (s.loops m.home).waiting) : (s.erase l fd whom).Removing who := by
  have hforgot : (record (s.setLoop l { s.loops l with
      connections := (s.loops l).connections.erase fd })
      (.erased l fd whom ((s.loops l).connections.find fd))).Removing who := by
    intro m hm
    rw [loops_record]
    by_cases hl : m.home = l
    · subst hl
      rw [loops_setLoop_self]
      by_cases hfd : m.conn.fd = fd
      · rw [hfd, Dict.find_erase_self]
        exact .inl nofun
      · refine (h m hm fun hown => hfd hown.2).imp_left ?_
        exact fun hnone hfind => hnone (Dict.find_of_erase hfind)
    · rw [loops_setLoop_ne _ hl]
      exact h m hm fun hown => hl hown.1
  exact elim_drop_keeps (Removing · who) (fun _ k h => removing_drop h k) hforgot _

/-- Taking a functor that does not remove this descriptor leaves the removal waiting. -/
theorem erase_waits {l : Nat} {f : LoopFunctor} {rest : List LoopFunctor}
    (hbatch : (s.loops l).batch = f :: rest) {home k : Nat} {fd : Int}
    (other : ¬(home = l ∧ f = .erase fd k)) (waits : .erase fd k ∈ (s.loops home).waiting) :
    .erase fd k ∈ ((s.take l f rest).loops home).waiting := by
  by_cases hl : home = l
  · subst hl
    rw [EventLoop.waiting, hbatch, List.cons_append] at waits
    rw [take, loops_setLoop_self]
    rcases List.mem_cons.mp waits with hsame | hrest
    · exact absurd ⟨rfl, hsame.symm⟩ other
    · exact hrest
  · rw [take, loops_setLoop_ne _ hl]
    exact waits

theorem removing_take (h : s.Removing who) {l : Nat} {f : LoopFunctor} {rest : List LoopFunctor}
    (hbatch : (s.loops l).batch = f :: rest) {m : Shared} (found : s.live.find who = some m)
    (other : ∀ k, ¬(m.home = l ∧ f = .erase m.conn.fd k)) :
    ((s.take l f rest).loops m.home).connections.find m.conn.fd ≠ some who ∨
      ∃ k, .erase m.conn.fd k ∈ ((s.take l f rest).loops m.home).waiting := by
  refine (h m found).imp ?_ ?_
  · intro hnone
    by_cases hl : m.home = l
    · subst hl
      rw [take, loops_setLoop_self]
      exact hnone
    · rw [take, loops_setLoop_ne _ hl]
      exact hnone
  · rintro ⟨k, hk⟩
    exact ⟨k, erase_waits hbatch (other k) hk⟩

theorem removing_run (hc : s.Consistent) (h : s.Removing who) {l : Nat} {f : LoopFunctor}
    {rest : List LoopFunctor} (hbatch : (s.loops l).batch = f :: rest) (env : Env)
    (sends : Transfers) : ((s.take l f rest).runFunctor l env sends f).Removing who := by
  cases f with
  | call k cb =>
    have htaken : (s.take l (.call k cb) rest).Removing who :=
      fun m hm => removing_take h hbatch hm (fun _ hown => nomatch hown.2)
    refine call_keeps (Removing · who) htaken l k cb env sends ?_
    intro m hm
    exact removing_perform htaken hm (stays_call (hc.buffers k m hm) cb env sends).fd
  | timeout fd k =>
    refine removing_queueInLoop ?_ l _
    exact fun m hm => removing_take h hbatch hm (fun _ hown => nomatch hown.2)
  | erase fd k =>
    refine removing_erase k ?_
    intro m hm hother
    refine removing_take h hbatch hm ?_
    rintro k' ⟨hl, hsame⟩
    exact hother ⟨hl, (LoopFunctor.erase.inj hsame).1.symm⟩

theorem removing_accept (born : who < s.accepts) (h : s.Removing who) (l : Nat) (fd : Int) :
    (s.handleListenEvent l fd).Removing who := by
  have henrolled : (s.enroll l fd (s.acquire l fd).1 (s.acquire l fd).2.1
      (s.acquire l fd).2.2).Removing who := by
    refine removing_kept h ?_
    intro m hm
    have hold := ((live_enroll hm).resolve_left fun hnew => Nat.ne_of_lt born hnew.1).2
    refine ⟨m, hold, rfl, rfl, ?_, ?_⟩
    · intro hfind
      refine (connections_enroll hfind).resolve_left ?_
      exact fun hnew => Nat.ne_of_lt born hnew.2.2
    · intro k hk
      rcases loops_enroll s l fd (s.acquire l fd).1 (s.acquire l fd).2.1 (s.acquire l fd).2.2
        m.home with ⟨hl, hloop⟩ | hloop
      · rw [hloop]
        rw [hl] at hk
        exact .inr ⟨k, hk⟩
      · rw [hloop]
        exact .inr ⟨k, hk⟩
  exact elim_drop_keeps (Removing · who) (fun _ k h => removing_drop h k) henrolled _

theorem removing_step (hc : s.Consistent) (born : who < s.accepts) (h : s.Removing who)
    {a : ServerAct} (hstep : s.step a = some t) : t.Removing who := by
  cases taken_of_step hstep with
  | accept l fd => exact removing_accept born h l fd
  | readable k m env arrival hfind =>
    exact removing_perform h hfind (stays_handleRead (hc.buffers k m hfind) env arrival).fd
  | writable k m sends files hfind =>
    exact removing_perform h hfind (stays_handleWrite (hc.buffers k m hfind) sends files).fd
  | hangup k m hfind => exact removing_perform h hfind rfl
  | expire l fd k =>
    refine removing_setLoop h rfl ?_
    intro fd' k' hk
    rw [EventLoop.waiting] at hk ⊢
    exact List.append_assoc _ _ [_] ▸ List.mem_append_left _ hk
  | swap l hidle =>
    refine removing_setLoop h rfl ?_
    intro fd k hk
    rw [EventLoop.waiting, idle_batch hidle] at hk
    exact List.mem_append_left _ hk
  | run l env sends f rest hbatch => exact removing_run hc h hbatch env sends
  | destroy l =>
    have hcleared : (s.setLoop l { s.loops l with ran := [] }).Removing who :=
      removing_setLoop h rfl fun _ _ hk => hk
    exact drops_keep (Removing · who) (fun _ k h => removing_drop h k) hcleared _

/-- A handler that asks for the removal has put it into the queue. -/
theorem removing_asked {m : Shared} {out : Connection × List Effect} (stays : Stays m.conn out)
    {fd : Int} (asked : .removal fd ∈ out.2) : (s.perform who m out).Removing who := by
  intro m' hm'
  rw [live_perform, Dict.find_insert_self] at hm'
  obtain rfl := Option.some.inj hm'
  refine .inr ⟨who, ?_⟩
  rw [loops_perform, waiting_queueInLoop, if_pos rfl]
  refine List.mem_append_right _ (List.mem_filterMap.mpr ⟨_, asked, ?_⟩)
  rw [stays.removals fd asked]
  exact congrArg (fun fd => some (LoopFunctor.erase fd who)) stays.fd.symm

theorem removing_effects (hc : s.Consistent) {a : ServerAct} (hstep : s.step a = some t) {fd : Int}
    (asked : .removal fd ∈ s.effectsOf who a) : t.Removing who := by
  intro m' hm'
  revert m' hm'
  cases hfind : s.live.find who with
  | none => simp [effectsOf, turns, hfind] at asked
  | some m =>
    intro m' hm'
    have hparts : s.parts who a = false := by
      simp [parts, hstep, hm']
    have hturn : .removal fd ∈ (s.turn who m a).flatMap (·.2) := by
      simpa [effectsOf, turns, hfind, hparts] using asked
    have hwf := hc.buffers who m hfind
    have hremoving : t.Removing who := by
      cases taken_of_step hstep with
      | readable k n env arrival hn =>
        by_cases hk : k = who
        · subst hk
          obtain rfl := Option.some.inj (hfind.symm.trans hn)
          rw [turn, if_pos rfl, List.flatMap_singleton] at hturn
          exact removing_asked (stays_handleRead hwf env arrival) hturn
        · simp [turn, hk] at hturn
      | writable k n sends files hn =>
        by_cases hk : k = who
        · subst hk
          obtain rfl := Option.some.inj (hfind.symm.trans hn)
          rw [turn, if_pos rfl, List.flatMap_singleton] at hturn
          exact removing_asked (stays_handleWrite hwf sends files) hturn
        · simp [turn, hk] at hturn
      | hangup k n hn =>
        by_cases hk : k = who
        · subst hk
          simp [turn, handleClose] at hturn
        · simp [turn, hk] at hturn
      | swap l =>
        by_cases hl : l = m.home
        · simp [turn, hl] at hturn
        · simp [turn, hl] at hturn
      | run l env sends f rest hbatch =>
        by_cases hself : f.self = some who
        · cases f with
          | call k cb =>
            obtain rfl := Option.some.inj hself
            have htake : (s.take l (.call k cb) rest).live.find k = some m := hfind
            simp only [turn, hbatch, if_true, List.flatMap_singleton] at hturn
            simp only [runFunctor, htake, Option.elim_some]
            exact removing_asked (stays_call hwf cb env sends) hturn
          | timeout => cases hself
          | erase => cases hself
        · rw [turn_run hbatch hself] at hturn
          cases hturn
      | accept | expire | destroy => cases hturn
    exact hremoving m' hm'

end

end Server

namespace Host

section
variable {s t : Host} {who : Nat}

theorem removing_host (hc : s.server.Consistent) {a : Act} (hstep : s.step a = some t)
    (h : (who < s.server.accepts ∧ s.server.Removing who) ∨
      ∃ fd, .removal fd ∈ effectsOf who s a) : t.server.Removing who := by
  have hserver := server_of_step hstep
  have hnone : serverActs a = [] → t.server.Removing who := by
    intro hnone
    rw [hnone] at hserver
    have hsame : s.server = t.server := Option.some.inj hserver
    rcases h with ⟨-, hold⟩ | ⟨fd, hfd⟩
    · exact hsame ▸ hold
    · simp [effectsOf, hnone] at hfd
  have hone : ∀ b, serverActs a = [b] → t.server.Removing who := by
    intro b hb
    rw [hb] at hserver
    obtain ⟨u, hu, hend⟩ := (GuardedRuns.exec_cons_iff _ _ _ _ _).mp hserver
    obtain rfl := Option.some.inj hend
    rcases h with ⟨hborn, hold⟩ | ⟨fd, hfd⟩
    · exact Server.removing_step hc hborn hold hu
    · rw [effectsOf, hb, List.flatMap_singleton] at hfd
      exact Server.removing_effects hc hu hfd
  cases a with
  | peer | wait => exact hnone rfl
  | accept | hangup | read | write | expire | swap | run | destroy => exact hone _ rfl

/-- A connection whose removal was asked for in a run is out of its map at the end of it, or
the removal waits. -/
theorem removing_of_run (hc : s.server.Consistent) {as : List Act} (asked : Prop)
    (before : asked → who < s.server.accepts ∧ s.server.Removing who)
    (run : GuardedRuns.exec step s as = some t)
    (during : asked ∨ ∃ fd, .removal fd ∈ GuardedRuns.seen step (effectsOf who) s as) :
    t.server.Removing who := by
  induction as generalizing s asked with
  | nil =>
    obtain rfl := Option.some.inj run
    rcases during with hasked | ⟨fd, hfd⟩
    · exact (before hasked).2
    · cases hfd
  | cons a as ih =>
    obtain ⟨m, hm, hrest⟩ := (GuardedRuns.exec_cons_iff step s t a as).mp run
    rw [GuardedRuns.seen_cons hm] at during
    refine ih (consistent_step hc hm) (asked ∨ ∃ fd, .removal fd ∈ effectsOf who s a) ?_ hrest ?_
    · intro hnow
      have hborn : who < s.server.accepts := by
        rcases hnow with hasked | ⟨fd, hfd⟩
        · exact (before hasked).1
        · by_contra hunborn
          rw [(actsOf_unborn hc (Nat.not_lt.mp hunborn) hm).2] at hfd
          cases hfd
      refine ⟨?_, removing_host hc hm (hnow.imp_left before)⟩
      rcases (numbers_step hm).2.2 with hsame | ⟨-, hmore⟩
      · omega
      · omega
    · rcases during with hasked | ⟨fd, hfd⟩
      · exact .inl (.inl hasked)
      · exact (List.mem_append.mp hfd).imp (fun hnow => .inr ⟨fd, hnow⟩) (fun hlater => ⟨fd, hlater⟩)

theorem held_of_run (held : s.server.HeldExcept []) {as : List Act}
    (run : GuardedRuns.exec step s as = some t) : t.server.HeldExcept [] :=
  GuardedRuns.invariant_of_run (fun u : Host => u.server.HeldExcept [])
    (fun _ _ _ h hstep => GuardedRuns.invariant_of_run (Server.HeldExcept · [])
      (fun _ _ _ hv hb => Server.held_step hv hb) h (server_of_step hstep)) held run

/-- The loop has no functors, and epoll has nothing to tell it. -/
structure LoopAtRest (s : Host) (l : Nat) : Prop where
  functors : (s.server.loops l).functors = []
  quiet : ∀ who m, s.server.live.find who = some m → m.home = l →
    (s.side who).watch.listed = false ∧ (s.side who).told = ∅

/-- At rest a connection that lives is in the map of its loop, and no removal waits. -/
theorem not_removing (hc : t.server.Consistent) (held : t.server.HeldExcept []) {m : Shared}
    (found : t.server.live.find who = some m) (rest : t.LoopAtRest m.home) :
    ¬t.server.Removing who := by
  intro hremoving
  have hholds := (held who m found).resolve_left List.not_mem_nil
  rcases (Server.holds_iff _ who).mp hholds with ⟨fd, hfind⟩ | ⟨f, hf, -⟩
  · obtain ⟨m', hm', -, hfd⟩ := hc.registered m.home fd who hfind
    obtain rfl := Option.some.inj (found.symm.trans hm')
    rcases hremoving m found with hnone | ⟨k, hk⟩
    · rw [← hfd] at hfind
      exact hnone hfind
    · have hmem : .erase m.conn.fd k ∈ (t.server.loops m.home).functors := by
        rw [EventLoop.functors, List.append_assoc]
        exact List.mem_append_right _ hk
      rw [rest.functors] at hmem
      cases hmem
  · rw [rest.functors] at hf
    cases hf

end

/-- When a loop has come to rest, whatever the peers did and in whatever order the loop went on,
every connection it still has has received all that its peer sent; the peer has neither ended nor
broken it; and it is closed, waits for the rest of a request, or waits for room with bytes to
send. All the others are gone. -/
theorem loop_at_rest {s : Server} (started : s.Started) {t : Host} {as : List Act}
    (run : GuardedRuns.exec step (start s) as = some t) {who : Nat} {m : Shared}
    (found : t.server.live.find who = some m) (rest : t.LoopAtRest m.home) :
    receivedOf (GuardedRuns.seen step (effectsOf who) (start s) as) = sentTo who as ∧
      (t.side who).socket.ended = false ∧ (t.side who).socket.broken = false ∧
      Reactor.Awaiting ((t.side who).reactor (Sys.start m.conn)) := by
  have hc : (start s).server.Consistent := Server.consistent_started started
  have hct : t.server.Consistent := GuardedRuns.invariant_of_run
    (fun u : Host => u.server.Consistent) (fun _ _ _ h hstep => consistent_step h hstep) hc run
  have hheld : t.server.HeldExcept [] := by
    refine held_of_run ?_ run
    intro k n hn
    have hnone : s.live.find k = some n := hn
    rw [started.live] at hnone
    cases hnone
  have hunborn : (start s).server.accepts ≤ who := by
    show s.accepts ≤ who
    rw [started.accepts]
    exact Nat.zero_le _
  have hcarries : Carries (fun _ _ => True) (fun _ _ => True) (fun _ => True) who :=
    fun _ r _ _ _ _ _ _ _ _ => GuardedRuns.guarded_true Reactor.step r _
  obtain ⟨c, r, hfresh, hreading, -, -, hr, hsees, hlog⟩ :=
    reactor_of_run hcarries (fun _ _ _ _ _ _ => trivial) (fun _ => trivial) hc hunborn run
      (GuardedRuns.guarded_true step (start s) as) (hct.numbered who m found)
  obtain ⟨halive, hconn, hbatch, hpending⟩ := hsees.mirrors.live m found
  have hside := hsees.side m found
  obtain ⟨hlisted, htold⟩ := rest.quiet who m found rfl
  have hrest : Reactor.AtRest r := by
    have hfunctors : r.sys.functors = [] := by
      rw [Sys.functors, hbatch, hpending, ← calls_append]
      have hboth := rest.functors
      rw [EventLoop.functors, List.append_assoc] at hboth
      rw [(List.append_eq_nil_iff.mp hboth).2]
      rfl
    refine ⟨hfunctors, ?_, ?_⟩
    · rw [hside]
      exact hlisted
    · rw [hside]
      exact htold
  rcases Reactor.attended_of_run hfresh hreading hr with hleaving | hattended
  · rcases Reactor.leaving_rest hleaving hrest.1 with ⟨fd, hfd⟩ | hgone
    · rw [hlog] at hfd
      have hremoving := removing_of_run hc False False.elim run (.inr ⟨fd, hfd⟩)
      exact absurd hremoving (not_removing hct hheld found rest)
    · exact absurd (hgone.symm.trans halive) Bool.false_ne_true
  · obtain ⟨hinbox, hended, hbroken, hawaits⟩ := Reactor.attended_rest hattended hrest
    have hbytes := (Reactor.accounted_of_run hfresh hr).bytes
    rw [hinbox, List.append_nil, hlog, delivered_seen run] at hbytes
    rw [hside] at hended hbroken hawaits
    refine ⟨hbytes, hended, hbroken, ?_⟩
    cases hawaits with
    | closed hstate =>
      exact .closed (hconn ▸ hstate)
    | request hstate hwaits => exact .request (hconn ▸ hstate) (hconn ▸ hwaits)
    | room hstate hout howes hroom =>
      exact .room (hconn ▸ hstate) (hconn ▸ hout) (hconn ▸ howes) hroom

/-- One client breaks its connection, one ends its stream, and one does not take its response. -/
theorem loop_at_rest_three :
    let env := Env.table []
    let still : Transfers := ⟨[], .again⟩
    let asks := lit "GET /a HTTP/1.1\r\n\r\n"
    let as := [.accept 0 5, .accept 0 6, .accept 0 7, .peer 1 .reset, .peer 2 .finish,
        .peer 0 (.deliver asks), .wait 0 [2, 1, 0], .hangup 1,
        .read 2 env ⟨[⟨[], by decide⟩], .again⟩, .read 0 env ⟨[⟨asks, by decide⟩], .again⟩] ++
      batchOf 0 env ⟨[10], .again⟩ 3 ++ batchOf 0 env still 2
    ∃ t, GuardedRuns.exec step (start (.new (lit "/w") none)) as = some t ∧
      t.server.live.find 1 = none ∧ t.server.live.find 2 = none ∧
      ∃ m, t.server.live.find 0 = some m ∧ m.conn.state = .writing ∧
        Reactor.Awaiting ((t.side 0).reactor (Sys.start m.conn)) := by
  intro env still asks as
  have hgone : (GuardedRuns.exec step (start (.new (lit "/w") none)) as).map (fun t =>
      ((t.server.loops 0).functors, (t.side 0).watch.listed, (t.side 0).told,
        t.server.live.pairs.map (·.1))) = some ([], false, ∅, [0]) := by
    decide +kernel
  have hstate : (GuardedRuns.exec step (start (.new (lit "/w") none)) as).map (fun t =>
      (t.server.live.find 0).map fun m => (m.home, m.conn.state)) = some (some (0, .writing)) := by
    decide +kernel
  obtain ⟨t, ht, hlive⟩ := Option.map_eq_some_iff.mp hstate
  obtain ⟨m, hm, hparts⟩ := Option.map_eq_some_iff.mp hlive
  obtain ⟨hhome, hwriting⟩ := Prod.mk.inj hparts
  rw [ht, Option.map_some] at hgone
  simp only [Option.some.injEq, Prod.mk.injEq] at hgone
  obtain ⟨hfunctors, hlisted, htold, hpairs⟩ := hgone
  have honly : ∀ who k, t.server.live.find who = some k → who = 0 := by
    intro who k hk
    have hmem := List.mem_map_of_mem (f := (·.1)) ((t.server.live.mem_pairs_iff who k).mpr hk)
    rw [hpairs] at hmem
    exact List.mem_singleton.mp hmem
  have hnone : ∀ who, who ≠ 0 → t.server.live.find who = none := by
    intro who hwho
    cases hk : t.server.live.find who with
    | none => rfl
    | some k => exact absurd (honly who k hk) hwho
  have hrest : t.LoopAtRest m.home := by
    rw [hhome]
    refine ⟨hfunctors, ?_⟩
    intro who k hk _
    rw [honly who k hk]
    exact ⟨hlisted, htold⟩
  obtain ⟨-, -, -, hawaits⟩ := loop_at_rest (Server.started_new (lit "/w") none) ht hm hrest
  exact ⟨t, ht, hnone 1 (by decide), hnone 2 (by decide), m, hm, hwriting, hawaits⟩

end Host

end WebServer
