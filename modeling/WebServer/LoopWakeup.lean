import Mathlib.Algebra.Ring.Nat
import WebServer.GuardedRuns

/-!
# Waking the event loop

`QueueInLoop` pushes under the lock and writes to the eventfd afterwards; the loop
waits in epoll, reads the eventfd, and takes all pending functors under the lock.
Each of these is one step, and the steps of different threads interleave freely.
`epoll_wait` may return for any reason: an event of the eventfd, other events, its
timeout, or an error. Whether the kernel forgets an edge whose counter was read in
the meantime is left open. Nothing is assumed about fairness or timing.
-/

namespace WebServer

universe u

/-- Where the loop thread is in `Loop`. -/
inductive LoopPhase where
  | head
  | ticking
  | waiting
  | handling (wakeup : Bool)
  | functors
  | tail
  | exited
  deriving DecidableEq

/-- The phases in which callbacks run on the loop thread. -/
def LoopPhase.callsBack : LoopPhase → Bool
  | .ticking | .handling _ | .functors | .tail => true
  | .head | .waiting | .exited => false

inductive Caller where
  | loop
  | thread (n : Nat)
  deriving DecidableEq

/-- A thread in `writing` has pushed and not written yet; `quitting` counts the calls of
`Quit` at that point. `unreported` is an edge of the eventfd that epoll still has to
report. -/
structure LoopWakeup (α : Type u) where
  phase : LoopPhase := .head
  quit : Bool := false
  pending : List α := []
  batch : List α := []
  ran : List α := []
  writing : Caller → Bool := fun _ => false
  quitting : Nat := 0
  counter : Nat := 0
  unreported : Bool := false

inductive LoopAct (α : Type u) where
  | push (who : Caller) (f : α)
  | write (who : Caller)
  | quit
  | quitWrite
  | check
  | wait
  | wake (reported : Bool)
  | fail
  | forget
  | handleWakeup
  | swap
  | run
  | finish
  | tick

namespace LoopWakeup

variable {α : Type u}

/-- A write that would exceed this value fails. -/
def counterMax : Nat := 2 ^ 64 - 2

/-- `Wakeup`. -/
def wakeup (s : LoopWakeup α) : LoopWakeup α :=
  if s.counter < counterMax then { s with counter := s.counter + 1, unreported := true } else s

/-- A step of the loop thread, which is not between a push and its write. -/
def own (s : LoopWakeup α) (ready : Bool) (next : LoopWakeup α) : Option (LoopWakeup α) :=
  if ready ∧ s.writing .loop = false then some next else none

def step (s : LoopWakeup α) : LoopAct α → Option (LoopWakeup α)
  | .push who f =>
    if s.writing who = false ∧ (who = .loop → s.phase.callsBack) then
      some { s with
        pending := s.pending ++ [f]
        writing := Function.update s.writing who true }
    else none
  | .write who =>
    if s.writing who then some (wakeup { s with writing := Function.update s.writing who false })
    else none
  | .quit => some { s with quit := true, quitting := s.quitting + 1 }
  | .quitWrite =>
    if 0 < s.quitting then some (wakeup { s with quitting := s.quitting - 1 }) else none
  | .check =>
    s.own (s.phase = .head) { s with phase := if s.quit then .exited else .ticking }
  | .wait => s.own (s.phase = .ticking) { s with phase := .waiting }
  | .wake reported =>
    s.own (s.phase = .waiting ∧ (reported → s.unreported))
      { s with phase := .handling reported, unreported := s.unreported && !reported }
  | .fail => s.own (s.phase = .waiting) { s with phase := .head }
  | .forget =>
    if s.phase = .waiting ∧ s.counter = 0 then some { s with unreported := false } else none
  | .handleWakeup =>
    s.own (s.phase = .handling true) { s with phase := .handling false, counter := 0 }
  | .swap =>
    s.own (s.phase = .handling false) { s with
      phase := .functors
      batch := s.pending
      pending := [] }
  | .run =>
    match s.batch with
    | [] => none
    | f :: rest => s.own (s.phase = .functors) { s with batch := rest, ran := s.ran ++ [f] }
  | .finish => s.own (s.phase = .functors ∧ s.batch = []) { s with phase := .tail }
  | .tick => s.own (s.phase = .tail) { s with phase := .head }

/-- The functors pushed, in the order of the locked pushes. -/
def pushed (acts : List (LoopAct α)) : List α :=
  acts.filterMap fun | .push _ f => some f | _ => none

/-- Something will end the wait: an edge that epoll has not reported, or a producer that
has not written yet. -/
def Awaited (s : LoopWakeup α) : Prop :=
  s.unreported = true ∧ 0 < s.counter ∨ ∃ who, s.writing who = true

/-- `account` says where every functor is. From the swap to the next report a pending
functor has an unreported edge or an unfinished producer; while events are handled the
swap is still ahead, and only before the eventfd is read its counter may be positive
without an edge. -/
structure Sound (s : LoopWakeup α) (acts : List (LoopAct α)) : Prop where
  account : s.ran ++ s.batch ++ s.pending = pushed acts
  resting : s.phase ≠ .functors → s.batch = []
  edge : s.phase ≠ .handling true → 0 < s.counter → s.unreported = true
  woken : (∀ wakeup, s.phase ≠ .handling wakeup) → s.pending ≠ [] → s.Awaited

theorem own_some {s next t : LoopWakeup α} {ready : Bool} (h : s.own ready next = some t) :
    ready = true ∧ s.writing .loop = false ∧ next = t := by
  unfold own at h
  split at h
  · next hready => exact ⟨hready.1, hready.2, Option.some.inj h⟩
  · cases h

theorem pushed_append (acts : List (LoopAct α)) (a : LoopAct α) :
    pushed (acts ++ [a]) = pushed acts ++ pushed [a] := by
  simp [pushed]

section Wakeup

variable {s : LoopWakeup α} {acts acts' : List (LoopAct α)}

/-- A write leaves everything but the eventfd alone, and its edge is then unreported unless
the wakeup event is still to be handled. -/
theorem sound_wakeup (hpushed : pushed acts' = pushed acts)
    (account : s.ran ++ s.batch ++ s.pending = pushed acts)
    (resting : s.phase ≠ .functors → s.batch = [])
    (edge : s.phase ≠ .handling true → 0 < s.counter → s.unreported = true) :
    Sound (wakeup s) acts' := by
  unfold wakeup
  split
  · next hroom =>
    exact ⟨account.trans hpushed.symm, resting, fun _ _ => rfl,
      fun _ _ => .inl ⟨rfl, Nat.succ_pos _⟩⟩
  · next hfull =>
    have hpositive : 0 < s.counter := by
      have hmax : 0 < counterMax := by decide
      omega
    refine ⟨account.trans hpushed.symm, resting, edge, ?_⟩
    intro hphase _
    exact .inl ⟨edge (hphase true) hpositive, hpositive⟩

end Wakeup

/-- The loop thread goes on to another phase, and neither it nor the kernel touches the queue
or the eventfd. -/
theorem sound_move {s : LoopWakeup α} {acts acts' : List (LoopAct α)} (h : Sound s acts)
    (hpushed : pushed acts' = pushed acts) (hphase : ∀ wakeup, s.phase ≠ .handling wakeup)
    (hbatch : s.batch = []) (next : LoopPhase) : Sound { s with phase := next } acts' :=
  ⟨h.account.trans hpushed.symm, fun _ => hbatch, fun _ => h.edge (hphase true),
    fun _ => h.woken hphase⟩

theorem sound_push {s : LoopWakeup α} {acts : List (LoopAct α)} (h : Sound s acts) (who : Caller)
    (f : α) :
    Sound { s with
      pending := s.pending ++ [f]
      writing := Function.update s.writing who true } (acts ++ [.push who f]) where
  account := by
    rw [pushed_append, ← h.account]
    simp [pushed]
  resting := h.resting
  edge := h.edge
  woken _ _ := .inr ⟨who, Function.update_self ..⟩

section Waiting

variable {s : LoopWakeup α} {acts acts' : List (LoopAct α)}

/-- Until the swap nothing has to be awaited, and a reported edge leaves its counter to be
read. -/
theorem sound_wake (h : Sound s acts) (hpushed : pushed acts' = pushed acts)
    (hwaiting : s.phase = .waiting) (reported : Bool) :
    Sound { s with phase := .handling reported, unreported := s.unreported && !reported } acts' := by
  refine ⟨h.account.trans hpushed.symm, ?_, ?_, ?_⟩
  · intro _
    exact h.resting (by simp [hwaiting])
  · intro hnot hpositive
    have hunreported := h.edge (by simp [hwaiting]) hpositive
    cases reported with
    | true => exact absurd rfl hnot
    | false => simp [hunreported]
  · intro hnot
    exact absurd rfl (hnot reported)

/-- An edge without a counter wakes nobody up that has to be. -/
theorem sound_forget (h : Sound s acts) (hpushed : pushed acts' = pushed acts)
    (hzero : s.counter = 0) : Sound { s with unreported := false } acts' := by
  refine ⟨h.account.trans hpushed.symm, h.resting, ?_, ?_⟩
  · intro _ hpositive
    have hpos : 0 < s.counter := hpositive
    omega
  · intro hphase hpending
    obtain ⟨-, hpositive⟩ | hwriting := h.woken hphase hpending
    · omega
    · exact .inr hwriting

theorem sound_handleWakeup (h : Sound s acts) (hpushed : pushed acts' = pushed acts)
    (hhandling : s.phase = .handling true) :
    Sound { s with phase := .handling false, counter := 0 } acts' := by
  refine ⟨h.account.trans hpushed.symm, ?_, ?_, ?_⟩
  · intro _
    exact h.resting (by simp [hhandling])
  · intro _ hpositive
    exact absurd hpositive (Nat.lt_irrefl 0)
  · intro hnot
    exact absurd rfl (hnot false)

/-- The swap takes every pending functor. -/
theorem sound_swap (h : Sound s acts) (hpushed : pushed acts' = pushed acts)
    (hhandling : s.phase = .handling false) :
    Sound { s with phase := .functors, batch := s.pending, pending := [] } acts' := by
  refine ⟨?_, ?_, ?_, ?_⟩
  · rw [hpushed, ← h.account, h.resting (by simp [hhandling])]
    simp
  · intro hnot
    exact absurd rfl hnot
  · intro _
    exact h.edge (by simp [hhandling])
  · intro _ hpending
    exact absurd rfl hpending

theorem sound_run (h : Sound s acts) (hpushed : pushed acts' = pushed acts)
    (hfunctors : s.phase = .functors) {f : α} {rest : List α} (hbatch : s.batch = f :: rest) :
    Sound { s with batch := rest, ran := s.ran ++ [f] } acts' := by
  refine ⟨?_, ?_, h.edge, h.woken⟩
  · rw [hpushed, ← h.account, hbatch]
    simp
  · intro hnot
    exact absurd hfunctors hnot

end Waiting

theorem sound_step {s t : LoopWakeup α} {a : LoopAct α} {acts : List (LoopAct α)}
    (h : Sound s acts) (hstep : step s a = some t) : Sound t (acts ++ [a]) := by
  have hsame : pushed [a] = [] → pushed (acts ++ [a]) = pushed acts := by
    intro hnone
    rw [pushed_append, hnone, List.append_nil]
  cases a with
  | push who f =>
    simp only [step] at hstep
    split at hstep
    · exact Option.some.inj hstep ▸ sound_push h who f
    · cases hstep
  | write who =>
    simp only [step] at hstep
    split at hstep
    · rw [← Option.some.inj hstep]
      exact sound_wakeup (hsame rfl) h.account h.resting h.edge
    · cases hstep
  | quit =>
    rw [← Option.some.inj hstep]
    exact ⟨h.account.trans (hsame rfl).symm, h.resting, h.edge, h.woken⟩
  | quitWrite =>
    simp only [step] at hstep
    split at hstep
    · rw [← Option.some.inj hstep]
      exact sound_wakeup (hsame rfl) h.account h.resting h.edge
    · cases hstep
  | check =>
    obtain ⟨hphase, -, rfl⟩ := own_some hstep
    have hhead := of_decide_eq_true hphase
    exact sound_move h (hsame rfl) (by simp [hhead]) (h.resting (by simp [hhead])) _
  | wait =>
    obtain ⟨hphase, -, rfl⟩ := own_some hstep
    have hticking := of_decide_eq_true hphase
    exact sound_move h (hsame rfl) (by simp [hticking]) (h.resting (by simp [hticking])) .waiting
  | wake reported =>
    obtain ⟨hphase, -, rfl⟩ := own_some hstep
    exact sound_wake h (hsame rfl) (of_decide_eq_true hphase).1 reported
  | fail =>
    obtain ⟨hphase, -, rfl⟩ := own_some hstep
    have hwaiting := of_decide_eq_true hphase
    exact sound_move h (hsame rfl) (by simp [hwaiting]) (h.resting (by simp [hwaiting])) .head
  | forget =>
    simp only [step] at hstep
    split at hstep
    · next hzero => exact Option.some.inj hstep ▸ sound_forget h (hsame rfl) hzero.2
    · cases hstep
  | handleWakeup =>
    obtain ⟨hphase, -, rfl⟩ := own_some hstep
    exact sound_handleWakeup h (hsame rfl) (of_decide_eq_true hphase)
  | swap =>
    obtain ⟨hphase, -, rfl⟩ := own_some hstep
    exact sound_swap h (hsame rfl) (of_decide_eq_true hphase)
  | run =>
    simp only [step] at hstep
    split at hstep
    · cases hstep
    · next f rest hbatch =>
      obtain ⟨hphase, -, rfl⟩ := own_some hstep
      exact sound_run h (hsame rfl) (of_decide_eq_true hphase) hbatch
  | finish =>
    obtain ⟨hphase, -, rfl⟩ := own_some hstep
    obtain ⟨hfunctors, hdone⟩ := of_decide_eq_true hphase
    exact sound_move h (hsame rfl) (by simp [hfunctors]) hdone .tail
  | tick =>
    obtain ⟨hphase, -, rfl⟩ := own_some hstep
    have htail := of_decide_eq_true hphase
    exact sound_move h (hsame rfl) (by simp [htail]) (h.resting (by simp [htail])) .head

/-- In every state that can be reached, the functors that have run, those of the batch and
those pending are the functors pushed, in order; and a loop that waits with functors
pending has an edge to be reported or a producer that still has to write. -/
theorem no_functor_lost {s : LoopWakeup α} {acts : List (LoopAct α)}
    (run : GuardedRuns.exec step {} acts = some s) :
    s.ran ++ s.batch ++ s.pending = pushed acts ∧
      (s.phase = .waiting → s.pending ≠ [] →
        s.unreported = true ∨ ∃ who, s.writing who = true) := by
  have hstart : Sound ({} : LoopWakeup α) [] :=
    ⟨rfl, fun _ => rfl, fun _ h => absurd h (Nat.lt_irrefl 0), fun _ h => absurd rfl h⟩
  have hsound : Sound s acts :=
    GuardedRuns.history_of_run Sound (fun _ _ _ _ h hstep => sound_step h hstep) hstart run
  refine ⟨hsound.account, ?_⟩
  intro hwaiting hpending
  obtain ⟨hunreported, -⟩ | hwriting := hsound.woken (by simp [hwaiting]) hpending
  · exact .inl hunreported
  · exact .inr hwriting

/-- A functor pushes another one while the loop runs it, and the next wait has its edge. -/
theorem no_functor_lost_twice :
    let s : LoopWakeup Nat := {
      phase := .waiting
      ran := [7]
      pending := [8]
      writing := Function.update (Function.update (Function.update (Function.update
        (fun _ => false) (.thread 0) true) (.thread 0) false) .loop true) .loop false
      counter := 1
      unreported := true }
    s.ran ++ s.batch ++ s.pending = [7, 8] ∧
      (s.phase = .waiting → s.pending ≠ [] →
        s.unreported = true ∨ ∃ who, s.writing who = true) :=
  no_functor_lost (rfl : GuardedRuns.exec step {} [.push (.thread 0) 7, .check, .wait,
    .write (.thread 0), .wake true, .handleWakeup, .swap, .run, .push .loop 8, .write .loop,
    .finish, .tick, .check, .wait] = some _)

end LoopWakeup

end WebServer
