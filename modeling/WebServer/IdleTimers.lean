import WebServer.GuardedRuns
import WebServer.TimerTable

/-!
# Timers armed from another thread

The main thread accepts and arms the timer of an IO loop, while the loop computes the
timeout of its next `epoll_wait` from the timers it finds. `QueueInLoop` and `Quit`
wake the loop up; `AddTimer` does not. `Timely` excludes the order in which this
matters, and the two ways in which the clock itself can make the timeout stale. The
clock counts milliseconds in 63 bits and never goes back.
-/

namespace WebServer

open KeyedList

/-- A wait has the timeout it was given, and the time at which it ends by itself. -/
inductive TimedPhase where
  | head
  | computed (timeout : Int) (reading : Nat)
  | waiting (timeout : Int) (ends : Nat)
  | handling
  deriving DecidableEq

/-- The timeout of the wait, from the time it is computed, and its end. -/
def TimedPhase.window : TimedPhase → Option (Int × Nat)
  | .computed timeout reading => some (timeout, reading + timeout.toNat)
  | .waiting timeout ends => some (timeout, ends)
  | .head | .handling => none

/-- The wait has no end of its own. -/
def TimedPhase.unbounded (p : TimedPhase) : Bool := p.window.any fun w => w.1 < 0

/-- An IO loop and the accepting thread. The callback of a timer queues the removal of a
descriptor. Between `AddConnection` and `AddTimer` the descriptor is in `accepting`. A
wake-up is `outstanding` from the write to the eventfd until epoll reports it. -/
structure TimedLoop where
  clock : Nat := 0
  timer : Timer Int := {}
  accepting : Option Int := none
  outstanding : Bool := false
  phase : TimedPhase := .head

inductive TimedAct where
  | advance (ms : Nat)
  | addConnection (fd : Int)
  | addTimer
  | wakeup
  | getNextTick (ms : Nat)
  | wait
  | wake (reported : Bool)
  | fail
  | adjustTimer (fd : Int)
  | removeTimer (fd : Int)
  | tick

namespace TimedLoop

def clockEnd : Nat := 2 ^ 63

/-- The timeout of an idle connection. -/
def idleMs : Nat := 60000

/-- A callback that is called queues a functor, which wakes the loop up. -/
def called (fired : List (TimerNode Int)) : Bool := fired.any (·.cb.isSome)

def step (s : TimedLoop) : TimedAct → Option TimedLoop
  | .advance ms =>
    if s.clock + ms < clockEnd then some { s with clock := s.clock + ms } else none
  | .addConnection fd =>
    if s.accepting = none then some { s with accepting := some fd } else none
  | .addTimer =>
    match s.accepting with
    | some fd =>
      some { s with timer := s.timer.add s.clock fd idleMs (some fd), accepting := none }
    | none => none
  | .wakeup => some { s with outstanding := true }
  | .getNextTick ms =>
    if s.phase = .head ∧ s.clock + ms < clockEnd then
      let (timer, fired, timeout) := s.timer.getNextTick s.clock (s.clock + ms)
      some { s with
        clock := s.clock + ms
        timer
        outstanding := s.outstanding || called fired
        phase := .computed timeout (s.clock + ms) }
    else none
  | .wait =>
    match s.phase with
    | .computed timeout _ => some { s with phase := .waiting timeout (s.clock + timeout.toNat) }
    | _ => none
  | .wake reported =>
    match s.phase with
    | .waiting _ _ =>
      if reported → s.outstanding then
        some { s with phase := .handling, outstanding := s.outstanding && !reported }
      else none
    | _ => none
  | .fail =>
    match s.phase with
    | .waiting _ _ => some { s with phase := .head }
    | _ => none
  | .adjustTimer fd =>
    if s.phase = .handling then some { s with timer := s.timer.adjust s.clock fd idleMs } else none
  | .removeTimer fd =>
    if s.phase = .handling then some { s with timer := s.timer.delete fd } else none
  | .tick =>
    if s.phase = .handling then
      let (timer, fired) := s.timer.tick s.clock
      some { s with timer, outstanding := s.outstanding || called fired, phase := .head }
    else none

/-- No timer expires before a wait that nothing else will end. A timeout of 0 does not
wait. -/
def Covered (s : TimedLoop) : Prop :=
  ∀ timeout ends, s.phase = .waiting timeout ends → s.outstanding = false →
    (timeout < 0 → s.timer.heap = []) ∧ (0 < timeout → ∀ node ∈ s.timer.heap, ends ≤ node.expire)

/-- A timer is not armed while the loop has no timer to wait for and no wake-up is
outstanding; `epoll_wait` is entered at the reading its timeout was computed from; and
`GetNextTick` does not find its first timer overdue by more than 2^31 ms. -/
def Timely (s : TimedLoop) : TimedAct → Prop
  | .addTimer => s.phase.unbounded = true → s.outstanding = true
  | .wait =>
    ∀ w ∈ s.phase.window, 0 < w.1 → s.clock + w.1.toNat = w.2 ∨ s.outstanding = true
  | .getNextTick ms =>
    ∀ front ∈ (s.timer.tick s.clock).1.heap.head?, s.clock + ms ≤ front.expire + 2 ^ 31
  | _ => True

instance decidableTimely (s : TimedLoop) : ∀ a, Decidable (Timely s a)
  | .addTimer => inferInstanceAs (Decidable (s.phase.unbounded = true → s.outstanding = true))
  | .wait => inferInstanceAs (Decidable (∀ w ∈ s.phase.window, 0 < w.1 →
      s.clock + w.1.toNat = w.2 ∨ s.outstanding = true))
  | .getNextTick ms => inferInstanceAs (Decidable
      (∀ front ∈ (s.timer.tick s.clock).1.heap.head?, s.clock + ms ≤ front.expire + 2 ^ 31))
  | .advance _ | .addConnection _ | .wakeup | .wake _ | .fail | .adjustTimer _ | .removeTimer _
  | .tick => .isTrue trivial

/-- The table allows a wait with this timeout and end. -/
structure Allows (M : TimerTable Int) (clock : Nat) (timeout : Int) (ends : Nat) : Prop where
  unbounded : timeout < 0 → ∀ fd, M fd = none
  later : 0 < timeout → ends ≤ clock + idleMs
  sooner : 0 < timeout → ∀ fd entry, M fd = some entry → ends ≤ entry.1

/-- Every timer was armed for `idleMs` by the clock of its time, and the wait computed
last is allowed by the timers unless a wake-up is outstanding. -/
structure Sound (s : TimedLoop) (M : TimerTable Int) : Prop where
  timer : s.timer.Sound M
  clock : s.clock < clockEnd
  armed : ∀ fd entry, M fd = some entry → entry.1 ≤ s.clock + idleMs
  window : s.outstanding = false → ∀ timeout ends, s.phase.window = some (timeout, ends) →
    Allows M s.clock timeout ends

theorem Allows.mono {M M' : TimerTable Int} {clock clock' ends : Nat} {timeout : Int}
    (h : Allows M clock timeout ends) (hclock : clock ≤ clock')
    (hsub : ∀ fd entry, M' fd = some entry → M fd = some entry) :
    Allows M' clock' timeout ends where
  unbounded hneg fd := by
    cases hM : M' fd with
    | none => rfl
    | some entry =>
      have hold := hsub fd entry hM
      rw [h.unbounded hneg fd] at hold
      cases hold
  later hpos := (h.later hpos).trans (by omega)
  sooner hpos fd entry hM := h.sooner hpos fd entry (hsub fd entry hM)

section Steps

variable {s : TimedLoop} {M : TimerTable Int}

/-- The timers of a sound loop are within 64 bits. -/
theorem Sound.expireAt (h : Sound s M) : Timer.expireAt s.clock idleMs = s.clock + idleMs := by
  have hclock := h.clock
  unfold clockEnd at hclock
  exact Timer.expireAt_eq (by unfold idleMs; omega)

/-- Every entry is an old one, or the one that was armed. -/
theorem rearmed {entry : Option (Nat × Option Int)} {expire : Nat} (fd : Int)
    (hentry : ∀ e, entry = some e → e.1 = expire) (fd' : Int) (e : Nat × Option Int)
    (hM : Function.update M fd entry fd' = some e) : M fd' = some e ∨ e.1 = expire := by
  by_cases hfd : fd' = fd
  · subst hfd
    rw [Function.update_self] at hM
    exact .inr (hentry e hM)
  · rw [Function.update_of_ne hfd] at hM
    exact .inl hM

theorem Sound.arm (h : Sound s M) (fd : Int) (timely : Timely s .addTimer) :
    Sound { s with timer := s.timer.add s.clock fd idleMs (some fd), accepting := none }
      (Function.update M fd (some (s.clock + idleMs, some fd))) := by
  have hrearmed : ∀ fd' e, Function.update M fd (some (s.clock + idleMs, some fd)) fd' = some e →
      M fd' = some e ∨ e.1 = s.clock + idleMs :=
    rearmed fd fun e he => by rw [← Option.some.inj he]
  refine ⟨?_, h.clock, ?_, ?_⟩
  · have hadd := h.timer.add s.clock fd idleMs (some fd)
    rwa [h.expireAt] at hadd
  · intro fd' e he
    obtain hold | hnew := hrearmed fd' e he
    · exact h.armed fd' e hold
    · exact hnew.le
  · intro hquiet timeout ends hwindow
    have hallows := h.window hquiet timeout ends hwindow
    have hbounded : ¬timeout < 0 := by
      intro hneg
      have hunbounded : s.phase.unbounded = true := by
        rw [TimedPhase.unbounded, hwindow]
        simpa using hneg
      rw [timely hunbounded] at hquiet
      cases hquiet
    refine ⟨fun hneg => absurd hneg hbounded, hallows.later, ?_⟩
    intro hpos fd' e he
    obtain hold | hnew := hrearmed fd' e he
    · exact hallows.sooner hpos fd' e hold
    · rw [hnew]
      exact hallows.later hpos

theorem Sound.adjust (h : Sound s M) (fd : Int) (hphase : s.phase = .handling) :
    Sound { s with timer := s.timer.adjust s.clock fd idleMs }
      (Function.update M fd ((M fd).map fun e => (s.clock + idleMs, e.2))) := by
  refine ⟨?_, h.clock, ?_, ?_⟩
  · have hadjust := h.timer.adjust s.clock fd idleMs
    rwa [h.expireAt] at hadjust
  · intro fd' e he
    obtain hold | hnew := rearmed fd (fun e he => by
      obtain ⟨e', -, rfl⟩ := Option.map_eq_some_iff.mp he
      rfl) fd' e he
    · exact h.armed fd' e hold
    · exact hnew.le
  · intro _ timeout ends hwindow
    have hnone : s.phase.window = some (timeout, ends) := hwindow
    rw [hphase] at hnone
    cases hnone

/-- Timers go away while no wait is computed. -/
theorem Sound.shrink (h : Sound s M) {timer : Timer Int} {M' : TimerTable Int}
    (htimer : timer.Sound M') (hsub : ∀ fd entry, M' fd = some entry → M fd = some entry)
    (outstanding : Bool) {phase : TimedPhase} (hphase : phase.window = none) :
    Sound { s with timer, outstanding, phase } M' where
  timer := htimer
  clock := h.clock
  armed fd entry hM := h.armed fd entry (hsub fd entry hM)
  window _ timeout ends hwindow := by
    rw [hphase] at hwindow
    cases hwindow

/-- The timeout of `GetNextTick` allows a wait from its second reading. -/
theorem Sound.computed (h : Sound s M) {ms : Nat} (hclock : s.clock + ms < clockEnd)
    (timely : Timely s (.getNextTick ms)) :
    Sound { s with
      clock := s.clock + ms
      timer := (s.timer.getNextTick s.clock (s.clock + ms)).1
      outstanding := s.outstanding || called (s.timer.getNextTick s.clock (s.clock + ms)).2.1
      phase := .computed (s.timer.getNextTick s.clock (s.clock + ms)).2.2 (s.clock + ms) }
      (fun fd => (M fd).filter fun e => s.clock < e.1) := by
  obtain ⟨htimer, hanswer⟩ := h.timer.getNextTick s.clock (s.clock + ms)
  generalize s.timer.getNextTick s.clock (s.clock + ms) = out at htimer hanswer ⊢
  obtain ⟨timer, fired, timeout⟩ := out
  have harmed : ∀ fd entry, (M fd).filter (fun e => decide (s.clock < e.1)) = some entry →
      entry.1 ≤ s.clock + idleMs := by
    intro fd entry hM
    exact h.armed fd entry (Option.filter_eq_some_iff.mp hM).1
  refine ⟨htimer, hclock, ?_, ?_⟩
  · intro fd entry hM
    have hle := harmed fd entry hM
    simp only
    omega
  · intro _ timeout' ends hwindow
    obtain ⟨rfl, rfl⟩ := Prod.mk.inj (Option.some.inj hwindow)
    obtain ⟨hempty, hneg⟩ | ⟨front, hfront, hmem, htimeout, hleast⟩ := hanswer
    · refine ⟨fun _ fd => ?_, fun hpos => by omega, fun hpos => by omega⟩
      cases hM : (M fd).filter fun e => decide (s.clock < e.1) with
      | none => rfl
      | some entry =>
        have hnode := (htimer.entries fd entry).mp hM
        rw [hempty] at hnode
        cases hnode
    · have hle := harmed front.fd (front.expire, front.cb) ((htimer.entries _ _).mpr hmem)
      have hoverdue := timely front hfront
      have hexact : Timer.remaining front.expire (s.clock + ms) =
          (front.expire : Int) - (s.clock + ms : Nat) :=
        Timer.remaining_eq hoverdue (by unfold idleMs at hle; omega)
      have hmax : timeout = max 0 (Timer.remaining front.expire (s.clock + ms)) := htimeout
      have hends : 0 < timeout → s.clock + ms + timeout.toNat = front.expire := by omega
      refine ⟨fun hneg => by omega, fun hpos => ?_, fun hpos fd entry hM => ?_⟩
      · have hle' : front.expire ≤ s.clock + idleMs := hle
        have hend := hends hpos
        simp only
        omega
      · rw [hends hpos]
        exact hleast _ ((htimer.entries fd entry).mp hM)

/-- The wait ends when computed, has no end of its own, or is cut short anyway. -/
theorem Sound.wait (h : Sound s M) {timeout : Int} {reading : Nat}
    (hphase : s.phase = .computed timeout reading) (timely : Timely s .wait) :
    Sound { s with phase := .waiting timeout (s.clock + timeout.toNat) } M := by
  refine ⟨h.timer, h.clock, h.armed, ?_⟩
  intro hquiet timeout' ends hwindow
  obtain ⟨rfl, rfl⟩ := Prod.mk.inj (Option.some.inj hwindow)
  have hwindow' : s.phase.window = some (timeout, reading + timeout.toNat) := by rw [hphase]; rfl
  have hallows := h.window hquiet timeout _ hwindow'
  by_cases hpos : 0 < timeout
  · obtain hends | hawake := timely _ hwindow' hpos
    · rw [hends]
      exact hallows
    · have hnot : s.outstanding = false := hquiet
      rw [hawake] at hnot
      cases hnot
  · exact ⟨hallows.unbounded, fun h => absurd h hpos, fun h => absurd h hpos⟩

theorem sound_step {t : TimedLoop} {a : TimedAct} (h : Sound s M) (timely : Timely s a)
    (hstep : step s a = some t) : ∃ M', Sound t M' := by
  cases a with
  | advance ms =>
    simp only [step] at hstep
    split at hstep
    · next hclock =>
      rw [← Option.some.inj hstep]
      refine ⟨M, h.timer, hclock, ?_, ?_⟩
      · intro fd entry hM
        have hle := h.armed fd entry hM
        simp only
        omega
      · intro hquiet timeout ends hwindow
        exact (h.window hquiet timeout ends hwindow).mono (by simp) fun _ _ hM => hM
    · cases hstep
  | addConnection fd =>
    simp only [step] at hstep
    split at hstep
    · rw [← Option.some.inj hstep]
      exact ⟨M, h.timer, h.clock, h.armed, h.window⟩
    · cases hstep
  | addTimer =>
    simp only [step] at hstep
    split at hstep
    · next fd _ =>
      rw [← Option.some.inj hstep]
      exact ⟨_, h.arm fd timely⟩
    · cases hstep
  | wakeup =>
    rw [← Option.some.inj hstep]
    exact ⟨M, h.timer, h.clock, h.armed, fun hquiet => by cases hquiet⟩
  | getNextTick ms =>
    simp only [step] at hstep
    split at hstep
    · next hready =>
      rw [← Option.some.inj hstep]
      exact ⟨_, h.computed hready.2 timely⟩
    · cases hstep
  | wait =>
    simp only [step] at hstep
    split at hstep
    · next timeout reading hphase =>
      rw [← Option.some.inj hstep]
      exact ⟨M, h.wait hphase timely⟩
    · cases hstep
  | wake reported =>
    simp only [step] at hstep
    split at hstep
    · split at hstep
      · rw [← Option.some.inj hstep]
        exact ⟨M, h.shrink h.timer (fun _ _ hM => hM) _ rfl⟩
      · cases hstep
    · cases hstep
  | fail =>
    simp only [step] at hstep
    split at hstep
    · rw [← Option.some.inj hstep]
      exact ⟨M, h.shrink h.timer (fun _ _ hM => hM) s.outstanding rfl⟩
    · cases hstep
  | adjustTimer fd =>
    simp only [step] at hstep
    split at hstep
    · next hphase =>
      rw [← Option.some.inj hstep]
      exact ⟨_, h.adjust fd hphase⟩
    · cases hstep
  | removeTimer fd =>
    simp only [step] at hstep
    split at hstep
    · next hphase =>
      rw [← Option.some.inj hstep]
      refine ⟨_, h.shrink (h.timer.delete fd) ?_ s.outstanding (by rw [hphase]; rfl)⟩
      intro fd' entry hM
      by_cases hfd : fd' = fd
      · rw [hfd, Function.update_self] at hM
        cases hM
      · rwa [Function.update_of_ne hfd] at hM
    · cases hstep
  | tick =>
    simp only [step] at hstep
    split at hstep
    · rw [← Option.some.inj hstep]
      refine ⟨_, h.shrink (h.timer.tick s.clock).1 ?_ _ rfl⟩
      intro fd entry hM
      exact (Option.filter_eq_some_iff.mp hM).1
    · cases hstep

theorem Sound.covered (h : Sound s M) : s.Covered := by
  intro timeout ends hphase hquiet
  have hallows := h.window hquiet timeout ends (by rw [hphase]; rfl)
  have hentry : ∀ node ∈ s.timer.heap, M node.fd = some (node.expire, node.cb) := by
    intro node hnode
    exact (h.timer.entries _ _).mpr hnode
  constructor
  · intro hneg
    refine List.eq_nil_iff_forall_not_mem.mpr fun node hnode => ?_
    have harmed := hentry node hnode
    rw [hallows.unbounded hneg] at harmed
    cases harmed
  · intro hpos node hnode
    exact hallows.sooner hpos _ _ (hentry node hnode)

end Steps

/-- While every step is timely, no timer of a waiting loop expires before its wait ends. -/
theorem waits_cover_timers {s : TimedLoop} {acts : List TimedAct}
    (guarded : GuardedRuns.Guarded step Timely {} acts)
    (run : GuardedRuns.exec step {} acts = some s) : s.Covered := by
  have hstart : ∃ M, Sound ({} : TimedLoop) M := by
    refine ⟨fun _ => none, Timer.sound_empty, by decide, ?_, ?_⟩
    · intro _ _ hM
      cases hM
    · intro _ _ _ hwindow
      cases hwindow
  obtain ⟨M, hsound⟩ := GuardedRuns.invariant_of_guarded (fun s => ∃ M, Sound s M)
    (fun _ _ _ h timely hstep => h.elim fun _ hM => sound_step hM timely hstep) hstart guarded run
  exact hsound.covered

/-- A second connection is accepted while the loop waits for the timer of the first. -/
theorem waits_cover_timers_two :
    let s : TimedLoop := {
      clock := 20
      timer := {
        heap := [⟨5, 60000, some 5⟩, ⟨6, 60020, some 6⟩]
        ref := ((KeyedList.Dict.empty.insert 5 0).insert 6 1) }
      phase := .waiting 59990 60000 }
    s.Covered :=
  waits_cover_timers
    (by decide : GuardedRuns.Guarded step Timely {} [.addConnection 5, .addTimer,
      .getNextTick 10, .wait, .addConnection 6, .advance 10, .addTimer])
    rfl

/-- The loop has no timer, computes its timeout and waits; then a connection is accepted. -/
theorem idle_loop_misses_timer :
    ¬∀ acts s, GuardedRuns.exec step {} acts = some s → s.Covered := by
  intro h
  have hcovered := h [.getNextTick 0, .wait, .addConnection 5, .addTimer] _ rfl
  have hempty := (hcovered (-1) 0 rfl rfl).1 (by decide)
  cases hempty

end TimedLoop

end WebServer
