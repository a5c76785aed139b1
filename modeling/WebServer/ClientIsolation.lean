import WebServer.ConnectionViews
import WebServer.Pipelining

/-!
# Clients side by side

Many clients are served on one loop. One of them sends whole keep-alive requests and nothing
goes wrong on its socket; the others may send anything, break off, or be removed, and their
objects and descriptors may be used again. That one is sent the answers to its own requests,
in their order, and not a byte of anyone else's. A process that a SIGPIPE ends makes no
further steps, and nothing is said of it here.
-/

namespace WebServer

open KeyedList Connection

theorem Connection.alike_home {c c' : Connection} (h : Alike c c') :
    c.resourceDir = c'.resourceDir ∧ c.router = c'.router := by
  cases h
  exact ⟨rfl, rfl⟩

namespace Sys

section
variable {env : Env} {dir : Str} {router : Option Router}

/-- The guards of one connection, for the steps that a server makes it take. -/
def Calm (env : Env) (y : Sys) : Act → Prop
  | .readable env' arrival => env' = env ∧ Undisturbed y (.readable arrival) ∧
      NoRace y (.readable arrival)
  | .writable sends _ => Flowing sends
  | .run env' sends => env' = env ∧ Flowing sends
  | .hangup => False
  | .swap | .release => True

/-- The connection is in a phase, or has been removed in one. -/
def Served (msgs : List (Message env dir router)) (y : Sys) : Prop :=
  y.alive = true ∧ Phase msgs y.conn y.functors y.log ∨
    y.alive = false ∧ y.functors = [] ∧ sentOf y.log <+: answers msgs ∧
      responsesOf y.log <+: msgs.map (·.response)

theorem served_wire {msgs : List (Message env dir router)} {y : Sys} (h : Served msgs y) :
    sentOf y.log <+: answers msgs ∧ responsesOf y.log <+: msgs.map (·.response) := by
  rcases h with ⟨-, hphase⟩ | ⟨-, -, hwire⟩
  · exact phase_wire hphase
  · exact hwire

theorem silent_close (c : Connection) : sentOf c.close.2 = [] ∧ responsesOf c.close.2 = [] := by
  by_cases hopen : 0 ≤ c.sendFileFd
  · simp [close, hopen, sentOf, responsesOf]
  · simp [close, hopen, sentOf, responsesOf]

theorem served_step {msgs : List (Message env dir router)} {y y' : Sys} {a : Act}
    (h : Served msgs y) (ok : Calm env y a) (hstep : y.step a = some y')
    (within : receivedOf y'.log <+: stream msgs) : Served msgs y' := by
  have hfunctors : ∀ (batch : List Callback) (out : Connection × List Effect),
      (after { y with batch } out).functors = batch ++ y.pending ++ queuedOf out.2 :=
    fun batch out => functors_after y batch y.alive out
  cases a with
  | readable env' arrival =>
    obtain ⟨rfl, hread, hrace⟩ := ok
    obtain ⟨⟨hbatch, halive⟩, hy'⟩ := Option.ite_none_right_eq_some.mp hstep
    obtain rfl := Option.some.inj hy'
    rcases h with ⟨-, hphase⟩ | ⟨hgone, -⟩
    · refine .inl ⟨halive, ?_⟩
      have hnext := phase_handleRead hphase within hread hrace
      rw [functors] at hnext
      exact (hfunctors y.batch _).symm ▸ hnext
    · exact absurd (hgone.symm.trans halive) Bool.false_ne_true
  | writable sends files =>
    obtain ⟨⟨hbatch, halive, hout⟩, hy'⟩ := Option.ite_none_right_eq_some.mp hstep
    obtain rfl := Option.some.inj hy'
    rcases h with ⟨-, hphase⟩ | ⟨hgone, -⟩
    · refine .inl ⟨halive, ?_⟩
      have hnext : Phase msgs (y.conn.handleWrite sends files).1
          (y.functors ++ queuedOf (y.conn.handleWrite sends files).2)
          (y.log ++ (y.conn.handleWrite sends files).2) := phase_writable hphase hout ok
      rw [functors] at hnext
      exact (hfunctors y.batch _).symm ▸ hnext
    · exact absurd (hgone.symm.trans halive) Bool.false_ne_true
  | hangup => exact ok.elim
  | swap =>
    obtain ⟨hbatch, hy'⟩ := Option.ite_none_right_eq_some.mp hstep
    obtain rfl := Option.some.inj hy'
    have hsame : functors { y with batch := y.pending, pending := [] } = y.functors := by
      simp [functors, hbatch]
    rcases h with ⟨halive, hphase⟩ | ⟨hgone, hnone, hwire⟩
    · exact .inl ⟨halive, hsame.symm ▸ hphase⟩
    · exact .inr ⟨hgone, hsame.trans hnone, hwire⟩
  | run env' sends =>
    obtain ⟨rfl, hflowing⟩ := ok
    cases hbatch : y.batch with
    | nil => simp [step, hbatch] at hstep
    | cons cb rest =>
      obtain rfl : after { y with batch := rest } (y.conn.call cb env' sends) = y' := by
        simpa [step, hbatch] using hstep
      have hsplit : y.functors = cb :: (rest ++ y.pending) := by
        rw [functors, hbatch, List.cons_append]
      rcases h with ⟨halive, hphase⟩ | ⟨-, hnone, -⟩
      · refine .inl ⟨halive, ?_⟩
        rw [hsplit] at hphase
        have hnext := phase_call hphase within hflowing
        exact (hfunctors rest _).symm ▸ hnext
      · rw [hsplit] at hnone
        cases hnone
  | release =>
    obtain ⟨⟨hnone, halive⟩, hy'⟩ := Option.ite_none_right_eq_some.mp hstep
    obtain rfl := Option.some.inj hy'
    obtain ⟨hsent, hresponses⟩ := served_wire h
    obtain ⟨hquiet, hunanswered⟩ := silent_close y.conn
    have hqueued : queuedOf y.conn.close.2 = [] := by
      by_cases hopen : 0 ≤ y.conn.sendFileFd
      · simp [close, hopen, queuedOf]
      · simp [close, hopen, queuedOf]
    refine .inr ⟨rfl, ?_, ?_, ?_⟩
    · rw [functors_after, hqueued, List.append_nil]
      exact hnone
    · show sentOf (y.log ++ y.conn.close.2) <+: _
      rw [sentOf_append, hquiet, List.append_nil]
      exact hsent
    · show responsesOf (y.log ++ y.conn.close.2) <+: _
      rw [responsesOf_append, hunanswered, List.append_nil]
      exact hresponses

theorem served_run {msgs : List (Message env dir router)} {c : Connection} (fresh : Fresh c)
    (home : c.resourceDir = dir ∧ c.router = router) {as : List Act} {y : Sys}
    (run : exec (start c) as = some y)
    (ok : GuardedRuns.Guarded step (Calm env) (start c) as)
    (within : receivedOf y.log <+: stream msgs) : Served msgs y :=
  GuardedRuns.invariant_of_guarded (fun y => receivedOf y.log <+: stream msgs → Served msgs y)
    (fun _ _ _ h hok hstep hwithin =>
      served_step (h ((received_step hstep).trans hwithin)) hok hstep hwithin)
    (fun _ => .inl ⟨rfl, phase_start fresh home⟩) ok run within

end

end Sys

/-- The world that a step looks at. -/
def ServerAct.world : ServerAct → Option Env
  | .readable _ env _ | .run _ env _ => some env
  | .accept _ _ | .writable _ _ _ | .hangup _ | .expire _ _ | .swap _ | .destroy _ => none

namespace Server

/-- Nothing goes wrong on the socket of the connection, and no packet overtakes a functor that
is to take up its next request. -/
def CalmFor (who : Nat) (s : Server) : ServerAct → Prop
  | .readable k _ arrival => k = who → ∀ m, s.live.find who = some m →
      (m.conn.read arrival).1 = .success ∧
      (.processInWorker ∈ calls who (s.loops m.home).waiting → m.conn.state = .connected →
        (m.conn.read arrival).2.1.parsed.1 = .incomplete)
  | .writable k sends _ => k = who → Sys.Flowing sends
  | .hangup k => k ≠ who
  | .run l _ sends => calls who ((s.loops l).batch.take 1) ≠ [] → Sys.Flowing sends
  | .accept _ _ | .expire _ _ | .swap _ | .destroy _ => True

instance (who : Nat) (s : Server) : (a : ServerAct) → Decidable (CalmFor who s a)
  | .readable k _ arrival =>
    match h : s.live.find who with
    | none => .isTrue (by simp [CalmFor, h])
    | some m => decidable_of_iff (k = who → (m.conn.read arrival).1 = .success ∧
        (.processInWorker ∈ calls who (s.loops m.home).waiting → m.conn.state = .connected →
          (m.conn.read arrival).2.1.parsed.1 = .incomplete)) (by simp [CalmFor, h])
  | .writable k sends _ => inferInstanceAs (Decidable (k = who → Sys.Flowing sends))
  | .hangup k => inferInstanceAs (Decidable (k ≠ who))
  | .run l _ sends => inferInstanceAs
      (Decidable (calls who ((s.loops l).batch.take 1) ≠ [] → Sys.Flowing sends))
  | .accept _ _ | .expire _ _ | .swap _ | .destroy _ => .isTrue trivial

section
variable {env : Env}

/-- The part of the connection in a calm step is calm. -/
theorem turn_calm {s : Server} {who : Nat} {y : Sys} {m : Shared} {a : ServerAct}
    (mirrors : s.Mirrors who y) (calm : CalmFor who s a)
    (world : ∀ env', a.world = some env' → env' = env) (found : s.live.find who = some m) :
    s.turn who m a = [] ∨ ∃ act fx, s.turn who m a = [(act, fx)] ∧ Sys.Calm env y act := by
  obtain ⟨halive, hconn, hbatch, hpending⟩ := mirrors.live m found
  cases a with
  | readable k env' arrival =>
    by_cases hk : k = who
    · obtain ⟨hread, hrace⟩ := calm hk m found
      refine .inr ⟨_, _, if_pos hk, world env' rfl, ?_, ?_⟩
      · show (y.conn.read arrival).1 = .success
        rw [hconn]
        exact hread
      · show .processInWorker ∈ y.functors → _
        rw [Sys.functors, hbatch, hpending, ← calls_append, hconn]
        exact hrace
    · exact .inl (if_neg hk)
  | writable k sends files =>
    by_cases hk : k = who
    · exact .inr ⟨_, _, if_pos hk, calm hk⟩
    · exact .inl (if_neg hk)
  | hangup k => exact .inl (if_neg calm)
  | swap l =>
    by_cases hl : l = m.home
    · exact .inr ⟨_, _, if_pos hl, trivial⟩
    · exact .inl (if_neg hl)
  | run l env' sends =>
    cases hfirst : (s.loops l).batch with
    | nil => exact .inl (by simp [turn, hfirst])
    | cons f rest =>
      by_cases hself : f.self = some who
      · cases f with
        | call k cb =>
          obtain rfl := Option.some.inj hself
          have hflowing := calm (by simp [hfirst, calls, LoopFunctor.callOf])
          exact .inr ⟨.run env' sends, (m.conn.call cb env' sends).2, by simp [turn, hfirst],
            world env' rfl, hflowing⟩
        | timeout => cases hself
        | erase => cases hself
      · exact .inl (turn_run hfirst hself m env' sends)
  | accept | expire | destroy => exact .inl rfl

theorem carries_calm (env : Env) (who : Nat) :
    Carries (fun s a => CalmFor who s a ∧ ∀ env', a.world = some env' → env' = env)
      (Sys.Calm env) who := by
  rintro s y a t hc hmirrors ⟨hcalm, hworld⟩ hstep
  unfold actsOf turns
  cases hfind : s.live.find who with
  | none => trivial
  | some m =>
    have hlast : ∀ z, GuardedRuns.Guarded Sys.step (Sys.Calm env) z
        ((if s.parts who a then [(Act.release, m.conn.close.2)] else []).map (·.1)) := by
      intro z
      by_cases hparts : s.parts who a = true
      · rw [if_pos hparts]
        exact ⟨trivial, fun _ _ => trivial⟩
      · rw [if_neg hparts]
        trivial
    simp only [List.map_append]
    rcases turn_calm hmirrors hcalm hworld hfind with hnone | ⟨act, fx, hturn, hok⟩
    · rw [hnone]
      exact hlast y
    · rw [hturn]
      exact ⟨hok, fun z _ => hlast z⟩

end

end Server

end WebServer
