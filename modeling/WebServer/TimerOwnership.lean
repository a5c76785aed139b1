import WebServer.DescriptorOwnership

/-!
# Whose timer it is

An accept enters a connection into the map of its loop and arms its timer under the same
descriptor. The timer goes when it expires, and the connection when a functor erases it, so
the two tables stay in step as long as no functor erases a connection whose timer is armed.
-/

namespace WebServer

open KeyedList

/-- The descriptor that the next functor of the batch erases. -/
def EventLoop.erasing (l : EventLoop) : Option Int :=
  match l.batch with
  | .erase fd _ :: _ => some fd
  | _ => none

namespace Server

/-- Every timer is that of the connection in the map of the loop. -/
def Timed (s : Server) : Prop :=
  ∀ l fd who, (s.loops l).timers.find fd = some who → (s.loops l).connections.find fd = some who

/-- A functor erases a connection only when its timer is not armed. -/
def Disarmed (s : Server) : ServerAct → Prop
  | .run l _ _ => ∀ fd ∈ (s.loops l).erasing, (s.loops l).timers.find fd = none
  | _ => True

instance (s : Server) : (a : ServerAct) → Decidable (Disarmed s a)
  | .run _ _ _ => by unfold Disarmed; infer_instance
  | .accept _ _ | .readable _ _ _ | .writable _ _ _ | .hangup _ | .expire _ _ | .swap _
  | .destroy _ => .isTrue trivial

theorem timed_setLoop {s : Server} (h : s.Timed) {l : Nat} {loop : EventLoop}
    (tables : ∀ fd who, loop.timers.find fd = some who → loop.connections.find fd = some who) :
    (s.setLoop l loop).Timed := by
  intro k fd who hfind
  rcases loops_setLoop s l k loop with ⟨-, hk⟩ | hk
  · rw [hk] at hfind ⊢
    exact tables fd who hfind
  · rw [hk] at hfind ⊢
    exact h k fd who hfind

theorem timed_drop {s : Server} (h : s.Timed) (who : Nat) : (s.drop who).Timed := by
  intro k fd whose hfind
  obtain ⟨pool, hk⟩ := loops_drop s who k
  rw [hk] at hfind ⊢
  exact h k fd whose hfind

theorem timed_perform {s : Server} (h : s.Timed) (who : Nat) (m : Shared)
    (out : Connection × List Effect) : (s.perform who m out).Timed :=
  timed_setLoop h (h m.home)

/-- The connection and its timer are entered under the same descriptor. -/
theorem timed_enroll {s : Server} (h : s.Timed) (l : Nat) (fd : Int) (o : Pooled) (objects : Nat)
    (pool : ObjectPool) : (s.enroll l fd o objects pool).Timed := by
  intro k fd' who hfind
  rcases loops_enroll s l fd o objects pool k with ⟨-, hk⟩ | hk
  · rw [hk] at hfind ⊢
    simp only [Dict.find_insert] at hfind ⊢
    by_cases hfd : fd' = fd
    · rwa [if_pos hfd] at hfind ⊢
    · rw [if_neg hfd] at hfind ⊢
      exact h l fd' who hfind
  · rw [hk] at hfind ⊢
    exact h k fd' who hfind

theorem timed_expire {s : Server} (h : s.Timed) (l : Nat) (fd : Int) (who : Nat) :
    (s.expire l fd who).Timed := by
  apply timed_setLoop h
  intro fd' whose hfind
  exact h l fd' whose (Dict.find_of_erase hfind)

theorem timed_destroy {s : Server} (h : s.Timed) (l : Nat) : (s.destroy l).Timed := by
  have hforgot : (s.setLoop l { s.loops l with ran := [] }).Timed := timed_setLoop h (h l)
  exact drops_keep Timed (fun _ who h => timed_drop h who) hforgot _

/-- A removal keeps the tables in step exactly when it leaves no timer behind. -/
theorem timed_erase_iff {s : Server} (h : s.Timed) (l : Nat) (fd : Int) (whom : Nat) :
    (s.erase l fd whom).Timed ↔ (s.loops l).timers.find fd = none := by
  obtain ⟨pool, hk⟩ : ∃ pool, (s.erase l fd whom).loops l =
      { s.loops l with connections := (s.loops l).connections.erase fd, pool } := by
    obtain ⟨pool, hpool⟩ := loops_elim_drop ((s.setLoop l { s.loops l with
      connections := (s.loops l).connections.erase fd }).record
      (.erased l fd whom ((s.loops l).connections.find fd))) ((s.loops l).connections.find fd) l
    rw [loops_record, loops_setLoop_self] at hpool
    exact ⟨pool, hpool⟩
  constructor
  · intro htimed
    cases hfind : (s.loops l).timers.find fd with
    | none => rfl
    | some who =>
      have hgone := htimed l fd who (by rw [hk]; exact hfind)
      rw [hk] at hgone
      cases (Dict.find_erase_self _ _).symm.trans hgone
  · intro hnone
    have hforgot : (s.setLoop l { s.loops l with
        connections := (s.loops l).connections.erase fd }).Timed := by
      apply timed_setLoop h
      intro fd' who hfind
      have hfd : fd' ≠ fd := by
        rintro rfl
        cases hnone.symm.trans hfind
      exact (Dict.find_erase_ne _ hfd).trans (h l fd' who hfind)
    exact elim_drop_keeps Timed (fun _ who h => timed_drop h who)
      (s := (s.setLoop l _).record _) hforgot _

theorem timed_step {s t : Server} {a : ServerAct} (h : s.Timed) (hstep : s.step a = some t) :
    t.Timed ↔ s.Disarmed a := by
  cases taken_of_step hstep with
  | accept l fd =>
    exact iff_of_true (elim_drop_keeps Timed (fun _ who h => timed_drop h who)
      (timed_enroll h l fd _ _ _) _) trivial
  | readable who m => exact iff_of_true (timed_perform h who m _) trivial
  | writable who m => exact iff_of_true (timed_perform h who m _) trivial
  | hangup who m => exact iff_of_true (timed_perform h who m _) trivial
  | expire l fd who => exact iff_of_true (timed_expire h l fd who) trivial
  | swap l => exact iff_of_true (timed_setLoop h (h l)) trivial
  | destroy l => exact iff_of_true (timed_destroy h l) trivial
  | run l env sends f rest hbatch =>
    have htake : (s.take l f rest).Timed := timed_setLoop h (h l)
    cases f with
    | call who cb =>
      refine iff_of_true ?_ (by simp [Disarmed, EventLoop.erasing, hbatch])
      exact call_keeps Timed htake l who cb env sends fun m _ => timed_perform htake who m _
    | timeout fd who =>
      exact iff_of_true (timed_setLoop htake (htake l))
        (by simp [Disarmed, EventLoop.erasing, hbatch])
    | erase fd who =>
      have htimers : ((s.take l (.erase fd who) rest).loops l).timers = (s.loops l).timers := by
        rw [take, loops_setLoop_self]
      have hdisarmed : s.Disarmed (.run l env sends) ↔ (s.loops l).timers.find fd = none := by
        simp [Disarmed, EventLoop.erasing, hbatch]
      rw [hdisarmed, ← htimers]
      exact timed_erase_iff htake l fd who

theorem timed_started {s : Server} (h : s.Started) : s.Timed := by
  intro l fd who hfind
  rw [h.loops l] at hfind
  cases hfind

/-- The timers of a loop are those of its connections throughout a run exactly when none of
its removals leaves a timer behind. -/
theorem timers_owned_iff {s t : Server} (started : s.Started) {as : List ServerAct}
    (run : exec s as = some t) :
    GuardedRuns.Throughout step Timed s as ↔ GuardedRuns.Guarded step Disarmed s as :=
  GuardedRuns.throughout_iff_guarded (fun _ _ _ h hstep => timed_step h hstep)
    (timed_started started) run

/-- The idle timer of a connection expires, and the connection is removed after it. -/
theorem timers_owned_idle :
    let batch := batchOf 0 (Env.table []) ⟨[], .again⟩
    let as := [.accept 0 5, .expire 0 5] ++ batch 1 ++ batch 1
    ∃ t, exec (new (lit "/w") none) as = some t ∧ .closed 0 5 ∈ t.log ∧
      GuardedRuns.Throughout step Timed (new (lit "/w") none) as := by
  intro batch as
  have hlog : (exec (new (lit "/w") none) as).map (fun t => decide (.closed 0 5 ∈ t.log)) =
      some true := by
    decide +kernel
  obtain ⟨t, ht, hclosed⟩ := Option.map_eq_some_iff.mp hlog
  exact ⟨t, ht, of_decide_eq_true hclosed,
    (timers_owned_iff (started_new (lit "/w") none) ht).mpr (by decide +kernel)⟩

/-- The peer closes its connection, and the timer of the connection stays. -/
theorem timer_left_behind :
    let env := Env.table []
    let batch := batchOf 0 env ⟨[], .again⟩
    let as := [.accept 0 5, peerCloses 0 env] ++ batch 1 ++ batch 1
    ∃ t, exec (new (lit "/w") none) as = some t ∧ .closed 0 5 ∈ t.log ∧
      (t.loops 0).timers.find 5 = some 0 ∧ (t.loops 0).connections.find 5 = none ∧ ¬t.Timed := by
  intro env batch as
  have hstate : (exec (new (lit "/w") none) as).map (fun t => (decide (.closed 0 5 ∈ t.log),
      (t.loops 0).timers.find 5, (t.loops 0).connections.find 5)) = some (true, some 0, none) := by
    decide +kernel
  obtain ⟨t, ht, hparts⟩ := Option.map_eq_some_iff.mp hstate
  obtain ⟨hclosed, htables⟩ := Prod.mk.inj hparts
  obtain ⟨htimer, hconnection⟩ := Prod.mk.inj htables
  refine ⟨t, ht, of_decide_eq_true hclosed, htimer, hconnection, ?_⟩
  intro htimed
  cases hconnection.symm.trans (htimed 0 5 0 htimer)

end Server

end WebServer
