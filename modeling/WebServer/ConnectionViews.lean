import WebServer.DescriptorOwnership
import WebServer.ObjectReuse
import WebServer.ProjectedRuns

/-!
# The view of one connection

A server has many connections on each of its loops, and their functors share one queue. A
connection has no part in the handlers of the others: from its accept to the end of its
references it goes through the steps of a connection by itself, in the order in which the
server makes them, and with the same effects. Whatever is proved about the runs of one
connection so holds for each connection of a server. What is left to the object that it has
from an earlier connection is the order in which the header map is read.
-/

namespace WebServer

open KeyedList Connection

/-- The functor as the connection sees it. -/
def LoopFunctor.callOf (who : Nat) : LoopFunctor → Option Callback
  | .call who' cb => if who' = who then some cb else none
  | _ => none

def calls (who : Nat) (fs : List LoopFunctor) : List Callback := fs.filterMap (·.callOf who)

@[simp] theorem calls_append (who : Nat) (fs fs' : List LoopFunctor) :
    calls who (fs ++ fs') = calls who fs ++ calls who fs' := List.filterMap_append

theorem calls_functorsOf_self (who : Nat) (fx : List Effect) :
    calls who (functorsOf who fx) = queuedOf fx := by
  rw [calls, functorsOf, List.filterMap_filterMap, queuedOf]
  refine List.filterMap_congr ?_
  intro e _
  cases e <;> simp [LoopFunctor.callOf]

theorem calls_functorsOf_ne {who k : Nat} (h : k ≠ who) (fx : List Effect) :
    calls k (functorsOf who fx) = [] := by
  refine List.filterMap_eq_nil_iff.mpr ?_
  intro f hf
  obtain ⟨e, -, hfe⟩ := List.mem_filterMap.mp hf
  cases e with
  | queued cb =>
    obtain rfl := Option.some.inj hfe
    exact if_neg h.symm
  | removal fd =>
    obtain rfl := Option.some.inj hfe
    rfl
  | received | parsed | opened | responded | sent | transferred | discarded | finished => cases hfe

theorem calls_cons (who : Nat) (f : LoopFunctor) (fs : List LoopFunctor) :
    calls who (f :: fs) = calls who [f] ++ calls who fs := calls_append who [f] fs

theorem calls_other {who : Nat} {f : LoopFunctor} (h : f.self ≠ some who) :
    calls who [f] = [] := by
  cases f with
  | call k cb =>
    have hk : k ≠ who := fun hk => h (congrArg some hk)
    simp [calls, LoopFunctor.callOf, hk]
  | timeout => rfl
  | erase => rfl

/-- A loop that does not hold the connection has no functor of it. -/
theorem calls_unheld {l : EventLoop} {who : Nat} (h : l.holds who = false)
    {fs : List LoopFunctor} (among : ∀ f ∈ fs, f ∈ l.functors) : calls who fs = [] := by
  refine List.filterMap_eq_nil_iff.mpr ?_
  intro f hf
  cases f with
  | call k cb =>
    refine if_neg ?_
    rintro rfl
    have hholds := Server.holds_of_functor (among _ hf) rfl
    exact absurd (h.symm.trans hholds) Bool.false_ne_true
  | timeout => rfl
  | erase => rfl

namespace Server

/-- The part that a live connection has in a step: what it does by itself and with which
effects. -/
def turn (s : Server) (who : Nat) (m : Shared) : ServerAct → List (Act × List Effect)
  | .readable k env arrival =>
    if k = who then [(.readable env arrival, (m.conn.handleRead env arrival).2)] else []
  | .writable k sends files =>
    if k = who then [(.writable sends files, (m.conn.handleWrite sends files).2)] else []
  | .hangup k => if k = who then [(.hangup, m.conn.handleClose.2)] else []
  | .swap l => if l = m.home then [(.swap, [])] else []
  | .run l env sends =>
    match (s.loops l).batch with
    | .call k cb :: _ => if k = who then [(.run env sends, (m.conn.call cb env sends).2)] else []
    | _ => []
  | .accept _ _ | .expire _ _ | .destroy _ => []

/-- The last reference goes with the step. -/
def parts (s : Server) (who : Nat) (a : ServerAct) : Bool :=
  (s.step a).any fun t => (t.live.find who).isNone

/-- The part of a connection that may have none. -/
def turns (who : Nat) (s : Server) (a : ServerAct) : List (Act × List Effect) :=
  match s.live.find who with
  | none => []
  | some m => s.turn who m a ++ if s.parts who a then [(.release, m.conn.close.2)] else []

def actsOf (who : Nat) (s : Server) (a : ServerAct) : List Act := (turns who s a).map (·.1)

def effectsOf (who : Nat) (s : Server) (a : ServerAct) : List Effect :=
  (turns who s a).flatMap (·.2)

/-- The connection by itself and in its loop. -/
structure Mirrors (s : Server) (who : Nat) (y : Sys) : Prop where
  live : ∀ m, s.live.find who = some m → y.alive = true ∧ y.conn = m.conn ∧
    y.batch = calls who (s.loops m.home).batch ∧
    y.pending = calls who (s.loops m.home).pending
  gone : s.live.find who = none → y.alive = false

section
variable {s t : Server} {who : Nat} {y : Sys}

theorem mirrors_same (h : s.Mirrors who y) (live : t.live.find who = s.live.find who)
    (queues : ∀ m, s.live.find who = some m →
      calls who (t.loops m.home).batch = calls who (s.loops m.home).batch ∧
      calls who (t.loops m.home).pending = calls who (s.loops m.home).pending) :
    t.Mirrors who y := by
  constructor
  · intro m hfind
    rw [live] at hfind
    obtain ⟨hbatch, hpending⟩ := queues m hfind
    rw [hbatch, hpending]
    exact h.live m hfind
  · intro hnone
    exact h.gone (live.symm.trans hnone)

theorem mirrors_setLoop (h : s.Mirrors who y) (l : Nat) {loop : EventLoop}
    (batch : calls who loop.batch = calls who (s.loops l).batch)
    (pending : calls who loop.pending = calls who (s.loops l).pending) :
    (s.setLoop l loop).Mirrors who y := by
  refine mirrors_same h rfl ?_
  intro m _
  rcases loops_setLoop s l m.home loop with ⟨hhome, hloop⟩ | hloop
  · rw [hloop, hhome]
    exact ⟨batch, pending⟩
  · rw [hloop]
    exact ⟨rfl, rfl⟩

theorem mirrors_queueInLoop (h : s.Mirrors who y) (l : Nat) {fs : List LoopFunctor}
    (others : calls who fs = []) : (s.queueInLoop l fs).Mirrors who y := by
  refine mirrors_setLoop h l rfl ?_
  rw [calls_append, others, List.append_nil]

/-- Another connection goes on. -/
theorem mirrors_perform_other (h : s.Mirrors who y) {k : Nat} (other : k ≠ who) (m : Shared)
    (out : Connection × List Effect) : (s.perform k m out).Mirrors who y := by
  refine mirrors_queueInLoop ?_ m.home (calls_functorsOf_ne (Ne.symm other) out.2)
  refine mirrors_same h ?_ (fun _ _ => ⟨rfl, rfl⟩)
  exact Dict.find_insert_ne _ (Ne.symm other) _

/-- The connection itself does, in front of a batch of which its own part is known. -/
theorem mirrors_perform_self {m : Shared} {batch : List Callback}
    (hbatch : calls who (s.loops m.home).batch = batch)
    (hpending : y.pending = calls who (s.loops m.home).pending) (alive : y.alive = true)
    (out : Connection × List Effect) :
    (s.perform who m out).Mirrors who (Sys.after { y with batch } out) := by
  constructor
  · intro m' hfind
    rw [live_perform, Dict.find_insert_self] at hfind
    obtain rfl := Option.some.inj hfind
    refine ⟨alive, rfl, ?_, ?_⟩
    · rw [loops_perform]
      show batch = calls who ((s.queueInLoop m.home (functorsOf who out.2)).loops m.home).batch
      rw [queueInLoop, loops_setLoop_self]
      exact hbatch.symm
    · rw [loops_perform]
      show y.pending ++ queuedOf out.2 =
        calls who ((s.queueInLoop m.home (functorsOf who out.2)).loops m.home).pending
      rw [queueInLoop, loops_setLoop_self, calls_append, calls_functorsOf_self, hpending]
  · intro hnone
    rw [live_perform, Dict.find_insert_self] at hnone
    cases hnone

/-- References go: the connection stays, or it closes with nothing of it left in the queues. -/
inductive Parting (s : Server) (who : Nat) (y : Sys) (t : Server) : Prop where
  | stays : t.live.find who = s.live.find who → t.Mirrors who y → Parting s who y t
  | leaves (m : Shared) : s.live.find who = some m → t.live.find who = none →
      y.functors = [] → y.alive = true → y.conn = m.conn →
      t.Mirrors who (Sys.after { y with alive := false } y.conn.close) → Parting s who y t

theorem mirrors_release_other (h : s.Mirrors who y) {k : Nat} (other : k ≠ who) (m : Shared) :
    (s.release k m).Mirrors who y := by
  refine mirrors_same h ?_ ?_
  · exact Dict.find_erase_ne _ (Ne.symm other)
  · intro m' _
    rw [release, loops_record, loops_record]
    rcases loops_setLoop { s with live := s.live.erase k } m.home m'.home
      { s.loops m.home with pool := (s.loops m.home).pool.giveBack ⟨m.object, m.conn.close.1⟩ } with
      ⟨hhome, hloop⟩ | hloop
    · rw [hloop, hhome]
      exact ⟨rfl, rfl⟩
    · rw [hloop]
      exact ⟨rfl, rfl⟩

theorem parting_drop (h : s.Mirrors who y) (k : Nat) : Parting s who y (s.drop k) := by
  have hend := drop_end s k
  generalize s.drop k = t at hend ⊢
  cases hend with
  | kept => exact .stays rfl h
  | released m hfind hunheld =>
    by_cases hk : k = who
    · subst hk
      obtain ⟨halive, hconn, hbatch, hpending⟩ := h.live m hfind
      have hnone : (s.release k m).live.find k = none := Dict.find_erase_self _ _
      have hfunctors : y.functors = [] := by
        have hamong : ∀ f ∈ (s.loops m.home).batch ++ (s.loops m.home).pending,
            f ∈ (s.loops m.home).functors := by
          intro f hf
          rw [EventLoop.functors, List.append_assoc]
          exact List.mem_append_right _ hf
        have hboth := calls_unheld hunheld hamong
        rw [Sys.functors, hbatch, hpending, ← calls_append]
        exact hboth
      refine .leaves m hfind hnone hfunctors halive hconn ⟨?_, fun _ => rfl⟩
      intro m' hm'
      rw [hnone] at hm'
      cases hm'
    · exact .stays (Dict.find_erase_ne _ (Ne.symm hk)) (mirrors_release_other h hk m)

/-- A connection that has left is not touched by what goes after it. -/
theorem parting_drops {u : Server} (h : Parting s who y u) (whos : List Nat) :
    Parting s who y (whos.foldl drop u) := by
  induction whos generalizing u with
  | nil => exact h
  | cons k whos ih =>
    apply ih
    cases h with
    | stays hlive hmirrors =>
      cases parting_drop hmirrors k with
      | stays hlive' hmirrors' => exact .stays (hlive'.trans hlive) hmirrors'
      | leaves m hfind hnone hfunctors halive hconn hmirrors' =>
        exact .leaves m (hlive ▸ hfind) hnone hfunctors halive hconn hmirrors'
    | leaves m hfind hnone hfunctors halive hconn hmirrors =>
      cases parting_drop hmirrors k with
      | stays hlive' hmirrors' =>
        exact .leaves m hfind (hlive'.trans hnone) hfunctors halive hconn hmirrors'
      | leaves m' hfind' =>
        rw [hnone] at hfind'
        cases hfind'

/-! ## One step -/

/-- A step of the server is the step of the connection by itself, if any. -/
def Apart (s : Server) (who : Nat) (y : Sys) (a : ServerAct) (t : Server) : Prop :=
  ∃ y', Sys.exec y (actsOf who s a) = some y' ∧ t.Mirrors who y' ∧
    y'.log = y.log ++ effectsOf who s a

/-- The connection has no part of its own in the step, but its last reference may go. -/
theorem apart_parting {a : ServerAct} (hstep : s.step a = some t)
    (idle : ∀ m, s.live.find who = some m → s.turn who m a = [])
    (parting : Parting s who y t) : s.Apart who y a t := by
  cases parting with
  | stays hlive hmirrors =>
    have hturns : turns who s a = [] := by
      unfold turns
      cases hfind : s.live.find who with
      | none => rfl
      | some m =>
        have hparts : s.parts who a = false := by
          simp [parts, hstep, hlive, hfind]
        simp [idle m hfind, hparts]
    refine ⟨y, ?_, hmirrors, ?_⟩
    · simp [actsOf, hturns, Sys.exec]
    · simp [effectsOf, hturns]
  | leaves m hfind hnone hfunctors halive hconn hmirrors =>
    have hparts : s.parts who a = true := by
      simp [parts, hstep, hnone]
    have hturns : turns who s a = [(.release, m.conn.close.2)] := by
      simp [turns, hfind, idle m hfind, hparts]
    refine ⟨_, ?_, hmirrors, ?_⟩
    · simp [actsOf, hturns, Sys.exec, GuardedRuns.exec, Sys.step, hfunctors, halive]
    · simp [effectsOf, hturns, Sys.after, hconn]

/-- The connection has a part in the step and stays. -/
theorem apart_turn {a : ServerAct} {m m' : Shared} {act : Act} {fx : List Effect} {y' : Sys}
    (hstep : s.step a = some t) (found : s.live.find who = some m)
    (stays : t.live.find who = some m') (own : s.turn who m a = [(act, fx)])
    (next : y.step act = some y') (mirrors : t.Mirrors who y') (log : y'.log = y.log ++ fx) :
    s.Apart who y a t := by
  have hparts : s.parts who a = false := by
    simp [parts, hstep, stays]
  have hturns : turns who s a = [(act, fx)] := by
    simp [turns, found, own, hparts]
  refine ⟨y', ?_, mirrors, ?_⟩
  · simp [actsOf, hturns, Sys.exec, GuardedRuns.exec, next]
  · simpa [effectsOf, hturns] using log

theorem idle_batch {l : EventLoop} (h : l.idle = true) : l.batch = [] := by
  have hboth : l.batch = [] ∧ l.ran = [] := of_decide_eq_true h
  exact hboth.1

/-- An event of some connection, between two batches. -/
theorem apart_dispatch (h : s.Mirrors who y) {a : ServerAct} {k : Nat} {m : Shared}
    {out : Connection × List Effect} (act : Act) (found : s.live.find k = some m)
    (idle : (s.loops m.home).idle = true) (hstep : s.step a = some (s.perform k m out))
    (turn_self : k = who → s.turn who m a = [(act, out.2)])
    (turn_other : k ≠ who → ∀ m', s.turn who m' a = [])
    (next : y.batch = [] → y.alive = true → y.conn = m.conn →
      y.step act = some (y.after out)) : s.Apart who y a (s.perform k m out) := by
  by_cases hk : k = who
  · subst hk
    obtain ⟨halive, hconn, hbatch, hpending⟩ := h.live m found
    have hempty : y.batch = [] := hbatch.trans (congrArg (calls k) (idle_batch idle))
    have hlive : (s.perform k m out).live.find k = some { m with conn := out.1 } :=
      Dict.find_insert_self _ _ _
    have hmirrors : (s.perform k m out).Mirrors k (y.after out) :=
      mirrors_perform_self hbatch.symm hpending halive out
    exact apart_turn hstep found hlive (turn_self rfl) (next hempty halive hconn) hmirrors rfl
  · have hlive : (s.perform k m out).live.find who = s.live.find who :=
      Dict.find_insert_ne _ (Ne.symm hk) _
    exact apart_parting hstep (fun m' _ => turn_other hk m')
      (.stays hlive (mirrors_perform_other h hk m out))

theorem parting_elim_drop {u : Server} (h : Parting s who y u) (k : Option Nat) :
    Parting s who y (k.elim u u.drop) := by
  cases k with
  | none => exact h
  | some k => exact parting_drops h [k]

theorem parting_accept (h : s.Mirrors who y) (old : who < s.accepts) (l : Nat) (fd : Int) :
    Parting s who y (s.handleListenEvent l fd) := by
  let u := s.enroll l fd (s.acquire l fd).1 (s.acquire l fd).2.1 (s.acquire l fd).2.2
  have hlive : u.live.find who = s.live.find who :=
    Dict.find_insert_ne _ (Nat.ne_of_lt old) _
  have hmirrors : u.Mirrors who y := by
    refine mirrors_same h hlive ?_
    intro m _
    rcases loops_enroll s l fd (s.acquire l fd).1 (s.acquire l fd).2.1 (s.acquire l fd).2.2 m.home
      with ⟨hhome, hloop⟩ | hloop
    · rw [hloop, hhome]
      exact ⟨rfl, rfl⟩
    · rw [hloop]
      exact ⟨rfl, rfl⟩
  exact parting_elim_drop (.stays hlive hmirrors) _

theorem parting_erase {u : Server} (h : Parting s who y u) (l : Nat) (fd : Int) (whom : Nat) :
    Parting s who y (u.erase l fd whom) := by
  refine parting_elim_drop ?_ _
  have hforget : ∀ {z : Sys}, u.Mirrors who z → (record (u.setLoop l { u.loops l with
      connections := (u.loops l).connections.erase fd })
      (.erased l fd whom ((u.loops l).connections.find fd))).Mirrors who z := by
    intro z hz
    have hloop : (u.setLoop l { u.loops l with
        connections := (u.loops l).connections.erase fd }).Mirrors who z :=
      mirrors_setLoop hz l rfl rfl
    exact ⟨hloop.live, hloop.gone⟩
  cases h with
  | stays hlive hmirrors => exact .stays hlive (hforget hmirrors)
  | leaves m hfind hnone hfunctors halive hconn hmirrors =>
    exact .leaves m hfind hnone hfunctors halive hconn (hforget hmirrors)

/-- The first functor of a batch that is not the connection's own is taken from the batch. -/
theorem mirrors_take (h : s.Mirrors who y) {l : Nat} {f : LoopFunctor} {rest : List LoopFunctor}
    (hbatch : (s.loops l).batch = f :: rest) (other : f.self ≠ some who) :
    (s.take l f rest).Mirrors who y := by
  refine mirrors_setLoop h l ?_ rfl
  rw [hbatch, calls_cons, calls_other other, List.nil_append]

theorem turn_run {l : Nat} {f : LoopFunctor} {rest : List LoopFunctor}
    (hbatch : (s.loops l).batch = f :: rest) (other : f.self ≠ some who) (m : Shared) (env : Env)
    (sends : Transfers) : s.turn who m (.run l env sends) = [] := by
  rw [turn, hbatch]
  cases f with
  | call k cb => exact if_neg fun hk => other (congrArg some hk)
  | timeout => rfl
  | erase => rfl

/-- A functor of the connection runs. -/
theorem apart_call (hc : s.Consistent) (h : s.Mirrors who y) {l : Nat} {cb : Callback}
    {rest : List LoopFunctor} (hbatch : (s.loops l).batch = .call who cb :: rest) {env : Env}
    {sends : Transfers} (hstep : s.step (.run l env sends) = some t)
    (ht : t = (s.take l (.call who cb) rest).runFunctor l env sends (.call who cb)) :
    s.Apart who y (.run l env sends) t := by
  have hmem : .call who cb ∈ (s.loops l).functors := by simp [EventLoop.functors, hbatch]
  obtain ⟨m, hfind, rfl⟩ := hc.functors l _ hmem
  obtain ⟨halive, hconn, hown, hpending⟩ := h.live m hfind
  have hmine : calls who [.call who cb] = [cb] := by simp [calls, LoopFunctor.callOf]
  have hyours : y.batch = cb :: calls who rest := by
    rw [hown, hbatch, calls_cons, hmine, List.singleton_append]
  have htaken : (s.take m.home (.call who cb) rest).loops m.home = { s.loops m.home with
      batch := rest, ran := (s.loops m.home).ran ++ [.call who cb] } := loops_setLoop_self _ _ _
  have htake : (s.take m.home (.call who cb) rest).live.find who = some m := hfind
  have hrun : t = (s.take m.home (.call who cb) rest).perform who m (m.conn.call cb env sends) := by
    rw [ht]
    simp only [runFunctor, htake, Option.elim_some]
  have hlive : t.live.find who = some { m with conn := (m.conn.call cb env sends).1 } := by
    rw [hrun]
    exact Dict.find_insert_self _ _ _
  have hturn : s.turn who m (.run m.home env sends) =
      [(.run env sends, (m.conn.call cb env sends).2)] := by
    simp [turn, hbatch]
  have hnext : y.step (.run env sends) = some (Sys.after { y with batch := calls who rest }
      (m.conn.call cb env sends)) := by
    simp [Sys.step, hyours, hconn]
  have hmirrors : t.Mirrors who (Sys.after { y with batch := calls who rest }
      (m.conn.call cb env sends)) := by
    rw [hrun]
    refine mirrors_perform_self ?_ ?_ halive _
    · rw [htaken]
    · rw [htaken]
      exact hpending
  exact apart_turn hstep hfind hlive hturn hnext hmirrors rfl

theorem apart_run (hc : s.Consistent) (h : s.Mirrors who y) {l : Nat} {f : LoopFunctor}
    {rest : List LoopFunctor} (hbatch : (s.loops l).batch = f :: rest) {env : Env}
    {sends : Transfers} (hstep : s.step (.run l env sends) = some t)
    (ht : t = (s.take l f rest).runFunctor l env sends f) : s.Apart who y (.run l env sends) t := by
  by_cases hself : f.self = some who
  · cases f with
    | call k cb =>
      obtain rfl := Option.some.inj hself
      exact apart_call hc h hbatch hstep ht
    | timeout => cases hself
    | erase => cases hself
  · have htake : Parting s who y (s.take l f rest) := .stays rfl (mirrors_take h hbatch hself)
    refine apart_parting hstep (fun m _ => turn_run hbatch hself m env sends) ?_
    rw [ht]
    cases f with
    | call k cb =>
      have hk : k ≠ who := fun hk => hself (congrArg some hk)
      have hmirrors := mirrors_take h hbatch hself
      cases hfind : (s.take l (.call k cb) rest).live.find k with
      | none => simpa only [runFunctor, hfind, Option.elim_none] using htake
      | some m =>
        simp only [runFunctor, hfind, Option.elim_some]
        exact .stays (Dict.find_insert_ne _ (Ne.symm hk) _) (mirrors_perform_other hmirrors hk m _)
    | timeout fd k =>
      exact .stays rfl (mirrors_queueInLoop (mirrors_take h hbatch hself) l rfl)
    | erase fd k => exact parting_erase htake l fd k

theorem apart_swap (h : s.Mirrors who y) {l : Nat} (idle : (s.loops l).idle = true)
    (hstep : s.step (.swap l) = some (s.swap l)) : s.Apart who y (.swap l) (s.swap l) := by
  cases hfind : s.live.find who with
  | none =>
    refine apart_parting hstep ?_ (.stays rfl ?_)
    · intro m hm
      rw [hfind] at hm
      cases hm
    · refine mirrors_same h rfl ?_
      intro m hm
      rw [hfind] at hm
      cases hm
  | some m =>
    by_cases hl : l = m.home
    · subst hl
      obtain ⟨halive, hconn, hbatch, hpending⟩ := h.live m hfind
      have hempty : y.batch = [] := hbatch.trans (congrArg (calls who) (idle_batch idle))
      have hturn : s.turn who m (.swap m.home) = [(.swap, [])] := if_pos rfl
      have hnext : y.step .swap = some { y with batch := y.pending, pending := [] } :=
        if_pos hempty
      refine apart_turn hstep hfind hfind hturn hnext ?_ (List.append_nil _).symm
      constructor
      · intro m' hm'
        obtain rfl : m = m' := Option.some.inj (hfind.symm.trans hm')
        have hloop : (s.swap m.home).loops m.home = { s.loops m.home with
            batch := (s.loops m.home).pending, pending := [] } := loops_setLoop_self _ _ _
        rw [hloop]
        exact ⟨halive, hconn, hpending, rfl⟩
      · intro hnone
        exact absurd (hfind.symm.trans hnone) (by simp)
    · refine apart_parting hstep ?_ (.stays rfl ?_)
      · intro m' hm'
        obtain rfl : m = m' := Option.some.inj (hfind.symm.trans hm')
        exact if_neg hl
      · refine mirrors_same h rfl ?_
        intro m' hm'
        obtain rfl : m = m' := Option.some.inj (hfind.symm.trans hm')
        rw [swap, loops_setLoop_ne s (Ne.symm hl)]
        exact ⟨rfl, rfl⟩

/-- Each step of the server is a step of the connection by itself, or none. -/
theorem apart_step (hc : s.Consistent) (h : s.Mirrors who y) (old : who < s.accepts)
    {a : ServerAct} (hstep : s.step a = some t) : s.Apart who y a t := by
  cases taken_of_step hstep with
  | accept l fd => exact apart_parting hstep (fun _ _ => rfl) (parting_accept h old l fd)
  | readable k m env arrival hfind hidle =>
    refine apart_dispatch h (.readable env arrival) hfind hidle hstep ?_ ?_ ?_
    · rintro rfl
      exact if_pos rfl
    · intro hk m'
      exact if_neg hk
    · intro hbatch halive hconn
      simp [Sys.step, hbatch, halive, hconn]
  | writable k m sends files hfind hidle hout =>
    refine apart_dispatch h (.writable sends files) hfind hidle hstep ?_ ?_ ?_
    · rintro rfl
      exact if_pos rfl
    · intro hk m'
      exact if_neg hk
    · intro hbatch halive hconn
      simp [Sys.step, hbatch, halive, hconn, hout]
  | hangup k m hfind hidle =>
    refine apart_dispatch h .hangup hfind hidle hstep ?_ ?_ ?_
    · rintro rfl
      exact if_pos rfl
    · intro hk m'
      exact if_neg hk
    · intro hbatch halive hconn
      simp [Sys.step, hbatch, halive, hconn]
  | expire l fd k =>
    refine apart_parting hstep (fun _ _ => rfl) (.stays rfl (mirrors_setLoop h l rfl ?_))
    rw [calls_append, calls_other (f := .timeout fd k) (by simp [LoopFunctor.self]),
      List.append_nil]
  | swap l hidle => exact apart_swap h hidle hstep
  | run l env sends f rest hbatch => exact apart_run hc h hbatch hstep rfl
  | destroy l =>
    have hforgot : Parting s who y (s.setLoop l { s.loops l with ran := [] }) :=
      .stays rfl (mirrors_setLoop h l rfl rfl)
    exact apart_parting hstep (fun _ _ => rfl) (parting_drops hforgot _)

end

/-! ## Runs -/

/-- The directory, the routes and the number of the next connection. -/
structure Stands (s : Server) (dir : Str) (router : Option Router) (next : Nat) : Prop where
  resourceDir : s.resourceDir = dir
  router : s.router = router
  accepts : s.accepts = next

section
variable {s t : Server} {dir : Str} {router : Option Router} {next : Nat}

theorem stands_drop (h : s.Stands dir router next) (who : Nat) :
    (s.drop who).Stands dir router next := by
  have hend := drop_end s who
  generalize s.drop who = t at hend ⊢
  cases hend with
  | kept => exact h
  | released => exact ⟨h.resourceDir, h.router, h.accepts⟩

theorem stands_setLoop (h : s.Stands dir router next) (l : Nat) (loop : EventLoop) :
    (s.setLoop l loop).Stands dir router next := ⟨h.resourceDir, h.router, h.accepts⟩

theorem stands_perform (h : s.Stands dir router next) (who : Nat) (m : Shared)
    (out : Connection × List Effect) : (s.perform who m out).Stands dir router next :=
  ⟨h.resourceDir, h.router, h.accepts⟩

theorem stands_runFunctor (h : s.Stands dir router next) (l : Nat) (env : Env)
    (sends : Transfers) (f : LoopFunctor) :
    (s.runFunctor l env sends f).Stands dir router next := by
  cases f with
  | call who cb =>
    exact call_keeps (Stands · dir router next) h l who cb env sends
      (fun m _ => stands_perform h who m _)
  | timeout fd who => exact stands_setLoop h l _
  | erase fd who =>
    have hforgot : (record (s.setLoop l { s.loops l with
        connections := (s.loops l).connections.erase fd })
        (.erased l fd who ((s.loops l).connections.find fd))).Stands dir router next :=
      ⟨h.resourceDir, h.router, h.accepts⟩
    exact elim_drop_keeps (Stands · dir router next) (fun _ who h => stands_drop h who) hforgot _

end

/-- The descriptor of the connection that a step accepts. -/
def acceptFd : ServerAct → Option Int
  | .accept _ fd => some fd
  | _ => none

/-- The descriptors of the accepts of a run, in their order. -/
def acceptFds (as : List ServerAct) : List Int := as.filterMap acceptFd

section
variable {s t : Server} {dir : Str} {router : Option Router} {next : Nat}

theorem stands_accept (h : s.Stands dir router next) (l : Nat) (fd : Int) :
    (s.handleListenEvent l fd).Stands dir router (next + 1) := by
  have henrolled : (s.enroll l fd (s.acquire l fd).1 (s.acquire l fd).2.1
      (s.acquire l fd).2.2).Stands dir router (next + 1) :=
    ⟨h.resourceDir, h.router, congrArg (· + 1) h.accepts⟩
  exact elim_drop_keeps (Stands · dir router (next + 1)) (fun _ who h => stands_drop h who)
    henrolled _

theorem stands_step (h : s.Stands dir router next) {a : ServerAct} (hstep : s.step a = some t) :
    t.Stands dir router (next + (acceptFd a).toList.length) := by
  cases taken_of_step hstep with
  | accept l fd => exact stands_accept h l fd
  | readable who m => exact stands_perform h who m _
  | writable who m => exact stands_perform h who m _
  | hangup who m => exact stands_perform h who m _
  | expire l fd who => exact stands_setLoop h l _
  | swap l => exact stands_setLoop h l _
  | run l env sends f rest => exact stands_runFunctor (stands_setLoop h l _) l env sends f
  | destroy l =>
    exact drops_keep (Stands · dir router next) (fun _ who h => stands_drop h who)
      (stands_setLoop h l _) _

/-- A connection has no part in a step before its accept. -/
theorem turns_unborn (hc : s.Consistent) {who : Nat} (unborn : s.accepts ≤ who) (a : ServerAct) :
    turns who s a = [] := by
  unfold turns
  cases hfind : s.live.find who with
  | none => rfl
  | some m => exact absurd (hc.numbered who m hfind) (Nat.not_lt.mpr unborn)

/-- A run up to one of its accepts. -/
theorem run_to_accept (hc : s.Consistent) (h : s.Stands dir router next) {as : List ServerAct}
    (run : exec s as = some t) {i : Nat} {fd : Int} (accepted : (acceptFds as)[i]? = some fd) :
    ∃ before l rest m, as = before ++ .accept l fd :: rest ∧ exec s before = some m ∧
      m.Consistent ∧ m.Stands dir router (next + i) ∧
      GuardedRuns.seen step (turns (next + i)) s before = [] := by
  induction as generalizing s next i with
  | nil => cases accepted
  | cons a as ih =>
    obtain ⟨u, hu, hrest⟩ := (GuardedRuns.exec_cons_iff step s t a as).mp run
    have hunborn : s.accepts ≤ next + i := by
      rw [h.accepts]
      exact Nat.le_add_right _ _
    have hnone := turns_unborn hc hunborn a
    have hnext := stands_step h hu
    have hlater : ∀ j, (acceptFds as)[j]? = some fd →
        next + (acceptFd a).toList.length + j = next + i →
        ∃ before l rest m, a :: as = before ++ .accept l fd :: rest ∧ exec s before = some m ∧
          m.Consistent ∧ m.Stands dir router (next + i) ∧
          GuardedRuns.seen step (turns (next + i)) s before = [] := by
      intro j hj hsum
      obtain ⟨before, l, rest, m, rfl, hm, hcm, hstands, hseen⟩ :=
        ih (consistent_step hc hu) hnext hrest hj
      rw [hsum] at hstands hseen
      refine ⟨a :: before, l, rest, m, rfl, ?_, hcm, hstands, ?_⟩
      · exact (GuardedRuns.exec_cons_iff step s m a before).mpr ⟨u, hu, hm⟩
      · rw [GuardedRuns.seen_cons hu, hnone, hseen, List.nil_append]
    cases a with
    | accept l fd' =>
      cases i with
      | zero =>
        obtain rfl : fd' = fd := Option.some.inj accepted
        exact ⟨[], l, as, s, rfl, rfl, hc, h, rfl⟩
      | succ i => exact hlater i accepted (by simp [acceptFd]; omega)
    | readable | writable | hangup | expire | swap | run | destroy =>
      exact hlater i accepted (by simp [acceptFd])

theorem mirrors_enroll (hc : s.Consistent) (l : Nat) (fd : Int) (o : Pooled) (objects : Nat)
    (pool : ObjectPool) :
    (s.enroll l fd o objects pool).Mirrors s.accepts (Sys.start o.conn.enableReadEvent) := by
  have hunborn : ∀ fs : List LoopFunctor, (∀ f ∈ fs, f ∈ (s.loops l).functors) →
      calls s.accepts fs = [] := by
    intro fs hfs
    refine List.filterMap_eq_nil_iff.mpr ?_
    intro f hf
    have hrefers := hc.functors l f (hfs f hf)
    cases f with
    | call who cb =>
      obtain ⟨m, hfind, -⟩ := hrefers
      exact if_neg (Nat.ne_of_lt (hc.numbered who m hfind))
    | timeout => rfl
    | erase => rfl
  have hself : (s.enroll l fd o objects pool).live.find s.accepts =
      some ⟨o.object, l, o.conn.enableReadEvent⟩ := Dict.find_insert_self _ _ _
  constructor
  · intro m hm
    obtain rfl := Option.some.inj (hself.symm.trans hm)
    have hloop : (s.enroll l fd o objects pool).loops l = { s.loops l with
        pool
        connections := (s.loops l).connections.insert fd s.accepts
        timers := (s.loops l).timers.insert fd s.accepts } := loops_setLoop_self _ _ _
    rw [hloop]
    refine ⟨rfl, rfl, (hunborn _ ?_).symm, (hunborn _ ?_).symm⟩
    · exact fun f hf => List.mem_append_left _ (List.mem_append_right _ hf)
    · exact fun f hf => List.mem_append_right _ hf
  · intro hnone
    rw [hself] at hnone
    cases hnone

theorem mirrors_accepted (hc : s.Consistent) (l : Nat) (fd : Int) :
    (s.handleListenEvent l fd).Mirrors s.accepts
      (Sys.start (s.acquire l fd).1.conn.enableReadEvent) := by
  have henrolled := mirrors_enroll hc l fd (s.acquire l fd).1 (s.acquire l fd).2.1
    (s.acquire l fd).2.2
  simp only [handleListenEvent]
  cases hold : (s.loops l).connections.find fd with
  | none => exact henrolled
  | some k =>
    -- the connection that the entry stood for is an older one
    obtain ⟨m, hm, -⟩ := hc.registered l fd k hold
    rw [Option.elim_some]
    have hend := drop_end (s.enroll l fd (s.acquire l fd).1 (s.acquire l fd).2.1
      (s.acquire l fd).2.2) k
    generalize drop _ k = t at hend ⊢
    cases hend with
    | kept => exact henrolled
    | released m' =>
      exact mirrors_release_other henrolled (Nat.ne_of_lt (hc.numbered k m hm)) m'

/-- A connection starts on an object that is new or cleared. -/
theorem alike_acquire (s : Server) (l : Nat) (fd : Int) :
    Alike (s.acquire l fd).1.conn.enableReadEvent
      (enableReadEvent (Connection.new fd s.resourceDir s.router)) := by
  unfold acquire
  cases (s.loops l).pool.get with
  | none =>
    have hfresh := Sys.fresh_new fd s.resourceDir s.router
    exact .stored _ _ ⟨hfresh.ready.readBuffer, hfresh.ready.readBuffer, rfl⟩
      ⟨hfresh.ready.writeBuffer, hfresh.ready.writeBuffer, rfl⟩
  | some got => exact alike_reuse got.1.conn fd s.resourceDir s.router

/-- Guards of the server that say enough about one connection are guards of its own run. -/
def Carries (ok : Server → ServerAct → Prop) (ok' : Sys → Act → Prop) (who : Nat) : Prop :=
  ∀ s y a t, s.Consistent → s.Mirrors who y → ok s a → s.step a = some t →
    GuardedRuns.Guarded Sys.step ok' y (actsOf who s a)

theorem views_apart {ok : Server → ServerAct → Prop} {ok' : Sys → Act → Prop} {who : Nat}
    (carries : Carries ok ok' who) :
    GuardedRuns.Views step ok Sys.step ok'
      (fun s y => s.Consistent ∧ who < s.accepts ∧ s.Mirrors who y) (actsOf who)
      (effectsOf who) (·.log) := by
  rintro s y a t ⟨hc, hborn, hmirrors⟩ hok hstep
  have hstands : s.Stands s.resourceDir s.router s.accepts := ⟨rfl, rfl, rfl⟩
  have hlater := (stands_step hstands hstep).accepts
  obtain ⟨y', hrun, hnext, hlog⟩ := apart_step hc hmirrors hborn hstep
  refine ⟨carries s y a t hc hmirrors hok hstep, y', hrun, ⟨consistent_step hc hstep, ?_, hnext⟩,
    hlog⟩
  omega

/-- A connection of a guarded run of the server, from its accept on. -/
theorem apart_guarded {ok : Server → ServerAct → Prop} {ok' : Sys → Act → Prop}
    (started : s.Started) {as : List ServerAct} (run : exec s as = some t)
    (guarded : GuardedRuns.Guarded step ok s as) {who : Nat} (carries : Carries ok ok' who)
    {fd : Int} (accepted : (acceptFds as)[who]? = some fd) :
    ∃ c y, Sys.Fresh c ∧
      Alike c (enableReadEvent (Connection.new fd s.resourceDir s.router)) ∧
      GuardedRuns.Guarded Sys.step ok' (Sys.start c) (GuardedRuns.seen step (actsOf who) s as) ∧
      Sys.exec (Sys.start c) (GuardedRuns.seen step (actsOf who) s as) = some y ∧
      t.Mirrors who y ∧ y.log = GuardedRuns.seen step (effectsOf who) s as := by
  have hc := consistent_started started
  have hstands : s.Stands s.resourceDir s.router 0 := ⟨rfl, rfl, started.accepts⟩
  obtain ⟨before, l, rest, m, rfl, hm, hcm, hready, hseen⟩ :=
    run_to_accept hc hstands run accepted
  rw [Nat.zero_add] at hready hseen
  have hacts : GuardedRuns.seen step (actsOf who) s before = [] :=
    GuardedRuns.seen_nil (fun u a h => by rw [actsOf, h, List.map_nil]) hm hseen
  have heffects : GuardedRuns.seen step (effectsOf who) s before = [] :=
    GuardedRuns.seen_nil (fun u a h => by rw [effectsOf, h, List.flatMap_nil]) hm hseen
  obtain ⟨m', hm', hlast⟩ := (GuardedRuns.exec_append_iff step s t before _).mp run
  obtain rfl : m = m' := Option.some.inj (hm.symm.trans hm')
  obtain ⟨u, hu, hrest⟩ := (GuardedRuns.exec_cons_iff step m t _ rest).mp hlast
  have hturns := turns_unborn hcm (Nat.le_of_eq hready.accepts) (.accept l fd)
  have hguarded := (GuardedRuns.guarded_append_right guarded hm).2 u hu
  have hborn : who < u.accepts := by
    have hnext := (stands_step hready hu).accepts
    rw [hnext]
    exact Nat.lt_succ_self who
  have hmirrors : u.Mirrors who (Sys.start (m.acquire l fd).1.conn.enableReadEvent) := by
    obtain rfl : u = m.handleListenEvent l fd := by
      cases taken_of_step hu
      rfl
    exact hready.accepts ▸ mirrors_accepted hcm l fd
  obtain ⟨hok, y, hrun, ⟨-, -, hend⟩, hlog⟩ :=
    GuardedRuns.exec_seen (views_apart carries) ⟨consistent_step hcm hu, hborn, hmirrors⟩ hguarded
      hrest
  have halike := alike_acquire m l fd
  rw [hready.resourceDir, hready.router] at halike
  refine ⟨_, y, (fresh_acquire m l fd).1, halike, ?_⟩
  rw [GuardedRuns.seen_append hm, GuardedRuns.seen_cons hu, hacts, GuardedRuns.seen_append hm,
    GuardedRuns.seen_cons hu, heffects]
  rw [actsOf, effectsOf, hturns]
  exact ⟨hok, hrun, hend, hlog⟩

/-- The connection by itself is where the connection of the server is. -/
structure Agrees (t : Server) (who : Nat) (y : Sys) : Prop where
  alive : y.alive = (t.live.find who).isSome
  live : ∀ m, t.live.find who = some m → y.conn.state = m.conn.state ∧
    y.conn.channel = m.conn.channel ∧ y.batch = calls who (t.loops m.home).batch ∧
    y.pending = calls who (t.loops m.home).pending

theorem agrees_twin {R : HeaderOrder → HeaderOrder → Prop} {z y : Sys}
    (h : t.Mirrors who z) (twin : Sys.TwinSys R z y) : t.Agrees who y := by
  obtain ⟨w, -, hconn⟩ := twin.conn
  obtain ⟨-, hstate, hchannel⟩ := twin_fields hconn
  constructor
  · cases hlive : t.live.find who with
    | none => exact twin.alive.symm.trans (h.gone hlive)
    | some m => exact twin.alive.symm.trans (h.live m hlive).1
  · intro m hm
    obtain ⟨-, hconn, hbatch, hpending⟩ := h.live m hm
    rw [← hstate, ← hchannel, hconn, ← twin.batch, hbatch, ← twin.pending, hpending]
    exact ⟨rfl, rfl, rfl, rfl⟩

/-- Whatever the other connections of the server do, on whichever loops and objects, the effects
of a connection are those of a new connection by itself that goes through the same steps, but
for the order of header lines; where the two header maps are read in the same order they are
the same. Its state is the same too as long as it lives, and so are its functors, in their
order. -/
theorem connection_alone (started : s.Started) {as : List ServerAct} (run : exec s as = some t)
    {who : Nat} {fd : Int} (accepted : (acceptFds as)[who]? = some fd) :
    let fresh := Sys.start (enableReadEvent (Connection.new fd s.resourceDir s.router))
    let acts := GuardedRuns.seen step (actsOf who) s as
    let effects := GuardedRuns.seen step (effectsOf who) s as
    (∃ y, Sys.exec fresh acts = some y ∧ y.log = effects ∧ t.Agrees who y) ∧
      ∀ orders, ∃ y, Sys.exec fresh (Sys.reordered orders acts) = some y ∧
        (∃ w, Alongside (fun _ _ => True) ⟨[], [], 0⟩ effects y.log w) ∧ t.Agrees who y := by
  intro fresh acts effects
  have hcarries : Carries (fun _ _ => True) (fun _ _ => True) who :=
    fun _ y _ _ _ _ _ _ => GuardedRuns.guarded_true Sys.step y _
  obtain ⟨c, z, hfresh, halike, -, hrun, hmirrors, hlog⟩ :=
    apart_guarded started run (GuardedRuns.guarded_true step s as) hcarries accepted
  have heffects : z.log = effects := hlog
  -- the object that the connection has, and a new one beside it
  have hbeside : ∀ (R : HeaderOrder → HeaderOrder → Prop) (acts' : List Act),
      List.Forall₂ (Act.Beside R) acts acts' →
      ∃ y, Sys.exec fresh acts' = some y ∧ Sys.TwinSys R z y := by
    intro R acts' hacts
    have hrelated : Option.Rel (Sys.TwinSys R) (Sys.exec (Sys.start c) acts)
        (Sys.exec fresh acts') :=
      GuardedRuns.exec_related Sys.twinSys_step (Sys.twinSys_start halike hfresh.unsent) hacts
    rw [hrun] at hrelated
    generalize Sys.exec fresh acts' = out at hrelated ⊢
    cases hrelated with
    | some htwin => exact ⟨_, rfl, htwin⟩
  constructor
  · obtain ⟨y, hy, htwin⟩ := hbeside Eq acts (Sys.beside_same acts)
    obtain ⟨w, hside, -⟩ := htwin.conn
    exact ⟨y, hy, (hside.eq rfl).symm.trans heffects, agrees_twin hmirrors htwin⟩
  · intro orders
    obtain ⟨y, hy, htwin⟩ := hbeside _ _ (Sys.beside_reordered orders acts)
    obtain ⟨w, hside, -⟩ := htwin.conn
    exact ⟨y, hy, ⟨w, heffects ▸ hside⟩, agrees_twin hmirrors htwin⟩

end

/-- A connection on the object of one that is gone, with another beside it on the loop. -/
theorem connection_alone_reused :
    let env := Env.table []
    let s := new (lit "/w") none
    let batch := batchOf 0 env ⟨[1000], .again⟩
    let as := [.accept 0 5, peerCloses 0 env] ++ batch 1 ++ batch 1 ++
      [.accept 0 7, .accept 0 8, arrives 2 env (lit "GET") (by decide),
        arrives 1 env (lit "GET /a HTTP/1.1\r\n\r\n") (by decide)] ++ batch 1
    ∃ t y, exec s as = some t ∧
      Sys.exec (Sys.start (enableReadEvent (Connection.new 7 (lit "/w") none)))
        (GuardedRuns.seen step (actsOf 1) s as) = some y ∧
      y.log = GuardedRuns.seen step (effectsOf 1) s as ∧ sentOf y.log ≠ [] := by
  intro env s batch as
  have hrun : (exec s as).isSome = true := by decide +kernel
  obtain ⟨t, ht⟩ := Option.isSome_iff_exists.mp hrun
  have hsent : sentOf (GuardedRuns.seen step (effectsOf 1) s as) ≠ [] := by decide +kernel
  obtain ⟨⟨y, hy, hlog, -⟩, -⟩ :=
    @connection_alone s t (started_new (lit "/w") none) as ht 1 7 rfl
  exact ⟨t, y, ht, hy, hlog, hlog ▸ hsent⟩

end Server

end WebServer
