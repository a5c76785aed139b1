import Mathlib.Algebra.BigOperators.Group.List.Basic
import WebServer.ConnectionPool

/-!
# The pool of worker threads

Workers take tasks from a queue under a lock, and wait on a condition variable while there
is none. Each locked section is one step, as is each notification, each return from a task
and each wake-up without a cause; any thread may make the next step. `AddTask` notifies
after it has unlocked, so any number of calls may be between the two, and the destructor
begins when none is.

A task is what the caller passed, or nothing when the function is empty. Tasks return and
add no tasks.
-/

namespace WebServer

universe u

/-- A thread in `Worker`. -/
inductive PoolWorker (α : Type u) where
  /-- before the lock -/
  | ready
  /-- in `cond_.wait`, the lock released -/
  | blocked
  /-- from the pop to the return of the task -/
  | running (task : Option α)
  | exited

namespace PoolWorker

variable {α : Type u}

def isBlocked : PoolWorker α → Bool
  | blocked => true
  | _ => false

/-- It takes the lock without being notified. -/
def active : PoolWorker α → Bool
  | ready | running _ => true
  | _ => false

def task : PoolWorker α → Option α
  | running task => task
  | _ => none

/-- The steps that a thread has before it once `stop_` is set, without those of the tasks that
are still in the queue. -/
def left : PoolWorker α → Nat
  | ready => 1
  | blocked | running _ => 2
  | exited => 0

/-- What `notify_all` does to a thread. -/
def wake : PoolWorker α → PoolWorker α
  | blocked => ready
  | w => w

end PoolWorker

/-- How far the destructor is; while it joins, with the number of threads joined. -/
inductive Teardown where
  | serving
  | stopping
  | joining (joined : Nat)
  deriving DecidableEq

/-- The steps that the destructor has before it. -/
def Teardown.left (threads : Nat) : Teardown → Nat
  | serving => threads + 2
  | stopping => threads + 1
  | joining joined => threads - joined

structure ThreadPool (α : Type u) where
  workers : List (PoolWorker α)
  tasks : List (Option α) := []
  /-- calls of `AddTask` between the unlock and `notify_one` -/
  notifying : Nat := 0
  teardown : Teardown := .serving
  /-- what has been pushed and what has been popped, in order -/
  pushed : List (Option α) := []
  taken : List (Option α) := []
  /-- the tasks that have returned -/
  ran : List α := []

namespace ThreadPool

variable {α : Type u}

inductive Act (α : Type u) where
  | push (task : Option α)
  /-- `notify_one`, with the thread it wakes -/
  | notify (woken : Option Nat)
  /-- the locked section of the loop: pop, wait or return -/
  | lock (who : Nat)
  | finish (who : Nat)
  | spurious (who : Nat)
  | stop
  | notifyAll
  | join

/-- `stop_` -/
def stopped (s : ThreadPool α) : Bool := s.teardown ≠ .serving

/-- The tasks that a thread has popped and not finished. -/
def running (s : ThreadPool α) : List α := s.workers.filterMap (·.task)

def setWorker (s : ThreadPool α) (who : Nat) (w : PoolWorker α) : ThreadPool α :=
  { s with workers := s.workers.set who w }

/-- `ThreadPool(threadCount)` -/
def start (threadCount : Nat) : ThreadPool α := { workers := List.replicate threadCount .ready }

def step (s : ThreadPool α) : Act α → Option (ThreadPool α)
  | .push task =>
    if s.teardown = .serving then
      some { s with
        tasks := s.tasks ++ [task]
        pushed := s.pushed ++ [task]
        notifying := s.notifying + 1 }
    else none
  | .notify none =>
    if s.notifying ≠ 0 ∧ s.workers.all (!·.isBlocked) then
      some { s with notifying := s.notifying - 1 }
    else none
  | .notify (some who) =>
    match s.workers[who]? with
    | some .blocked =>
      if s.notifying ≠ 0 then some { s.setWorker who .ready with notifying := s.notifying - 1 }
      else none
    | _ => none
  | .lock who =>
    match s.workers[who]?, s.tasks with
    | some .ready, task :: rest =>
      some { s.setWorker who (.running task) with tasks := rest, taken := s.taken ++ [task] }
    | some .ready, [] => some (s.setWorker who (if s.stopped then .exited else .blocked))
    | _, _ => none
  | .finish who =>
    match s.workers[who]? with
    | some (.running task) =>
      some { s.setWorker who .ready with ran := s.ran ++ task.toList }
    | _ => none
  | .spurious who =>
    match s.workers[who]? with
    | some .blocked => some (s.setWorker who .ready)
    | _ => none
  | .stop =>
    if s.teardown = .serving ∧ s.notifying = 0 then some { s with teardown := .stopping }
    else none
  | .notifyAll =>
    if s.teardown = .stopping then
      some { s with workers := s.workers.map (·.wake), teardown := .joining 0 }
    else none
  | .join =>
    match s.teardown with
    | .joining joined =>
      match s.workers[joined]? with
      | some .exited => some { s with teardown := .joining (joined + 1) }
      | _ => none
    | _ => none

def exec : ThreadPool α → List (Act α) → Option (ThreadPool α) := GuardedRuns.exec step

/-- `notify_all` has been delivered. -/
def Notified (s : ThreadPool α) : Prop := ∃ joined, s.teardown = .joining joined

/-- The destructor has joined every thread. -/
def Finished (s : ThreadPool α) : Prop := s.teardown = .joining s.workers.length

/-! ## What a step can do -/

inductive Moves (s : ThreadPool α) : Act α → ThreadPool α → Prop where
  | push (task : Option α) : s.teardown = .serving →
      Moves s (.push task) { s with
        tasks := s.tasks ++ [task]
        pushed := s.pushed ++ [task]
        notifying := s.notifying + 1 }
  | notifyNone : s.notifying ≠ 0 → (∀ w ∈ s.workers, w.isBlocked = false) →
      Moves s (.notify none) { s with notifying := s.notifying - 1 }
  | wake (who : Nat) : s.workers[who]? = some .blocked → s.notifying ≠ 0 →
      Moves s (.notify (some who)) { s.setWorker who .ready with notifying := s.notifying - 1 }
  | take (who : Nat) (task : Option α) (rest : List (Option α)) :
      s.workers[who]? = some .ready → s.tasks = task :: rest →
      Moves s (.lock who)
        { s.setWorker who (.running task) with tasks := rest, taken := s.taken ++ [task] }
  | exit (who : Nat) : s.workers[who]? = some .ready → s.tasks = [] → s.stopped = true →
      Moves s (.lock who) (s.setWorker who .exited)
  | block (who : Nat) : s.workers[who]? = some .ready → s.tasks = [] → s.stopped = false →
      Moves s (.lock who) (s.setWorker who .blocked)
  | finish (who : Nat) (task : Option α) : s.workers[who]? = some (.running task) →
      Moves s (.finish who) { s.setWorker who .ready with ran := s.ran ++ task.toList }
  | spurious (who : Nat) : s.workers[who]? = some .blocked →
      Moves s (.spurious who) (s.setWorker who .ready)
  | stop : s.teardown = .serving → s.notifying = 0 →
      Moves s .stop { s with teardown := .stopping }
  | notifyAll : s.teardown = .stopping →
      Moves s .notifyAll { s with workers := s.workers.map (·.wake), teardown := .joining 0 }
  | join (joined : Nat) : s.teardown = .joining joined → s.workers[joined]? = some .exited →
      Moves s .join { s with teardown := .joining (joined + 1) }

theorem moves_of_step {s t : ThreadPool α} {a : Act α} (h : s.step a = some t) : Moves s a t := by
  cases a with
  | push task =>
    obtain ⟨hserving, ht⟩ := Option.ite_none_right_eq_some.mp h
    obtain rfl := Option.some.inj ht
    exact .push task hserving
  | notify woken =>
    cases woken with
    | none =>
      obtain ⟨⟨hleft, hnone⟩, ht⟩ := Option.ite_none_right_eq_some.mp h
      obtain rfl := Option.some.inj ht
      exact .notifyNone hleft (by simpa using hnone)
    | some who =>
      simp only [step] at h
      split at h
      · obtain ⟨hleft, ht⟩ := Option.ite_none_right_eq_some.mp h
        obtain rfl := Option.some.inj ht
        exact .wake who ‹_› hleft
      · cases h
  | lock who =>
    simp only [step] at h
    split at h
    · obtain rfl := Option.some.inj h
      exact .take who _ _ ‹_› ‹_›
    · obtain rfl := Option.some.inj h
      cases hstopped : s.stopped with
      | true => exact .exit who ‹_› ‹_› hstopped
      | false => exact .block who ‹_› ‹_› hstopped
    · cases h
  | finish who =>
    simp only [step] at h
    split at h
    · obtain rfl := Option.some.inj h
      exact .finish who _ ‹_›
    · cases h
  | spurious who =>
    simp only [step] at h
    split at h
    · obtain rfl := Option.some.inj h
      exact .spurious who ‹_›
    · cases h
  | stop =>
    obtain ⟨⟨hserving, hnone⟩, ht⟩ := Option.ite_none_right_eq_some.mp h
    obtain rfl := Option.some.inj ht
    exact .stop hserving hnone
  | notifyAll =>
    obtain ⟨hstopping, ht⟩ := Option.ite_none_right_eq_some.mp h
    obtain rfl := Option.some.inj ht
    exact .notifyAll hstopping
  | join =>
    simp only [step] at h
    split at h
    · split at h
      · obtain rfl := Option.some.inj h
        exact .join _ ‹_› ‹_›
      · cases h
    · cases h

/-! ## The invariant -/

/-- The queue and what was popped make up what was pushed; what was popped has returned or is
in the hands of one thread; and while there is a task, a thread will take the lock or a
notification is due. Threads return only when nothing will be pushed any more. -/
structure Sound (threadCount : Nat) (s : ThreadPool α) : Prop where
  size : s.workers.length = threadCount
  order : s.pushed = s.taken ++ s.tasks
  runs : (s.ran ++ s.running).Perm (s.taken.filterMap id)
  served : s.tasks ≠ [] → 0 < s.notifying ∨ ∃ w ∈ s.workers, w.active = true
  exits : .exited ∈ s.workers → s.stopped = true ∧ s.tasks = []
  quiet : s.stopped = true → s.notifying = 0
  awake : s.Notified → .blocked ∉ s.workers
  joined : ∀ joined, s.teardown = .joining joined → ∀ i < joined, s.workers[i]? = some .exited

theorem sound_start (threadCount : Nat) :
    Sound threadCount (start threadCount : ThreadPool α) where
  size := List.length_replicate
  order := rfl
  runs := by
    have hnone :
        (List.replicate threadCount PoolWorker.ready).filterMap (·.task) = ([] : List α) := by
      rw [List.filterMap_eq_nil_iff]
      intro w hw
      rw [List.eq_of_mem_replicate hw]
      rfl
    show ([] ++ (List.replicate threadCount PoolWorker.ready).filterMap (·.task) : List α).Perm []
    rw [hnone]
    exact .refl []
  served h := absurd rfl h
  exits h := by cases List.eq_of_mem_replicate h
  quiet h := by cases h
  awake := by
    rintro ⟨joined, h⟩
    cases h
  joined _ h := by cases h

variable {n : Nat} {s : ThreadPool α}

/-- One thread moves from `w` to `w'` and leaves these queues and records. -/
theorem Sound.update (h : Sound n s) {who : Nat} {w : PoolWorker α}
    (hw : s.workers[who]? = some w) (w' : PoolWorker α) (alive : w ≠ .exited)
    {tasks taken : List (Option α)} {ran : List α} {notifying : Nat}
    (order : s.pushed = taken ++ tasks)
    (runs : ∀ others, (s.ran ++ (w.task.toList ++ others)).Perm (s.taken.filterMap id) →
      (ran ++ (w'.task.toList ++ others)).Perm (taken.filterMap id))
    (served : tasks = [] ∨ w'.active = true) (shrinks : s.tasks = [] → tasks = [])
    (returns : w' = .exited → s.stopped = true) (blocks : w' = .blocked → s.stopped = false)
    (quiet : s.notifying = 0 → notifying = 0) :
    Sound n { s.setWorker who w' with tasks, taken, ran, notifying } where
  size := by
    have hsize := h.size
    simpa [setWorker] using hsize
  order := order
  runs := by
    obtain ⟨others, hbefore, hafter⟩ := ConnectionPool.perm_set hw w'
    have holds : s.running.Perm (w.task.toList ++ others.filterMap (·.task)) := by
      have hperm := hbefore.filterMap (·.task)
      rw [List.filterMap_cons] at hperm
      cases htask : w.task with
      | none => simpa [running, htask] using hperm
      | some a => simpa [running, htask] using hperm
    have hholds' : ((s.workers.set who w').filterMap (·.task)).Perm
        (w'.task.toList ++ others.filterMap (·.task)) := by
      have hperm := hafter.filterMap (·.task)
      rw [List.filterMap_cons] at hperm
      cases htask : w'.task with
      | none => simpa [htask] using hperm
      | some a => simpa [htask] using hperm
    have hran := runs _ ((holds.append_left s.ran).symm.trans h.runs)
    exact (hholds'.append_left ran).trans hran
  served htasks := by
    obtain ⟨hlt, -⟩ := List.getElem?_eq_some_iff.mp hw
    have hactive := served.resolve_left htasks
    exact .inr ⟨w', List.mem_set hlt w', hactive⟩
  exits hexited := by
    rcases List.mem_or_eq_of_mem_set hexited with hold | hnew
    · obtain ⟨hstopped, hempty⟩ := h.exits hold
      exact ⟨hstopped, shrinks hempty⟩
    · refine ⟨returns hnew.symm, served.resolve_right ?_⟩
      rw [← hnew]
      exact Bool.false_ne_true
  quiet hstopped := quiet (h.quiet hstopped)
  awake := by
    rintro ⟨joined, hjoining⟩ hblocked
    rcases List.mem_or_eq_of_mem_set hblocked with hold | hnew
    · exact h.awake ⟨joined, hjoining⟩ hold
    · have hserving := blocks hnew.symm
      have hteardown : s.teardown = .joining joined := hjoining
      simp [stopped, hteardown] at hserving
  joined joined hjoining i hi := by
    have hold := h.joined joined hjoining i hi
    have hne : who ≠ i := by
      rintro rfl
      exact alive (Option.some.inj (hw.symm.trans hold))
    show (s.workers.set who w')[i]? = some .exited
    rw [List.getElem?_set_ne hne]
    exact hold

/-- A thread that leaves the queues alone. -/
theorem Sound.turn (h : Sound n s) {who : Nat} {w : PoolWorker α}
    (hw : s.workers[who]? = some w) (w' : PoolWorker α) (alive : w ≠ .exited)
    (idle : w'.task = w.task) {notifying : Nat} (served : s.tasks = [] ∨ w'.active = true)
    (returns : w' = .exited → s.stopped = true) (blocks : w' = .blocked → s.stopped = false)
    (quiet : s.notifying = 0 → notifying = 0) :
    Sound n { s.setWorker who w' with notifying } := by
  refine h.update hw w' alive h.order ?_ served id returns blocks quiet
  intro others hperm
  rw [idle]
  exact hperm

theorem Sound.push (h : Sound n s) (task : Option α) (serving : s.teardown = .serving) :
    Sound n { s with
      tasks := s.tasks ++ [task]
      pushed := s.pushed ++ [task]
      notifying := s.notifying + 1 } where
  size := h.size
  order := by
    have horder := h.order
    rw [horder, List.append_assoc]
  runs := h.runs
  served _ := .inl (Nat.succ_pos _)
  exits hexited := by
    have hstopped := (h.exits hexited).1
    simp [stopped, serving] at hstopped
  quiet hstopped := by simp [stopped, serving] at hstopped
  awake := h.awake
  joined := h.joined

/-- Where no thread waits, one is active: a thread returns only when no call of `AddTask` is
left. -/
theorem Sound.notifyNone (h : Sound n s) (threads : 0 < n) (left : s.notifying ≠ 0)
    (none : ∀ w ∈ s.workers, w.isBlocked = false) :
    Sound n { s with notifying := s.notifying - 1 } where
  size := h.size
  order := h.order
  runs := h.runs
  served _ := by
    have hsize := h.size
    obtain ⟨w, hw⟩ := List.exists_mem_of_length_pos (show 0 < s.workers.length by omega)
    refine .inr ⟨w, hw, ?_⟩
    have hawake := none w hw
    cases w with
    | ready => rfl
    | running task => rfl
    | blocked => cases hawake
    | exited => exact absurd (h.quiet (h.exits hw).1) left
  exits := h.exits
  quiet hstopped := absurd (h.quiet hstopped) left
  awake := h.awake
  joined := h.joined

theorem Sound.stop (h : Sound n s) (none : s.notifying = 0) :
    Sound n { s with teardown := .stopping } where
  size := h.size
  order := h.order
  runs := h.runs
  served := h.served
  exits hexited := ⟨rfl, (h.exits hexited).2⟩
  quiet _ := none
  awake := by
    rintro ⟨joined, hjoining⟩
    cases hjoining
  joined joined hjoining := by cases hjoining

theorem task_wake (w : PoolWorker α) : w.wake.task = w.task := by
  cases w with
  | ready => rfl
  | blocked => rfl
  | running task => rfl
  | exited => rfl

theorem Sound.notifyAll (h : Sound n s) (stopping : s.teardown = .stopping) :
    Sound n { s with workers := s.workers.map (·.wake), teardown := .joining 0 } where
  size := by
    rw [List.length_map]
    exact h.size
  order := h.order
  runs := by
    have hsame : (s.workers.map (·.wake)).filterMap (·.task) = s.running := by
      rw [List.filterMap_map, running]
      congr 1
      funext w
      exact task_wake w
    show (s.ran ++ (s.workers.map (·.wake)).filterMap (·.task)).Perm _
    rw [hsame]
    exact h.runs
  served htasks := by
    have hstopped : s.stopped = true := by simp [stopped, stopping]
    have hquiet := h.quiet hstopped
    obtain ⟨w, hw, hactive⟩ := (h.served htasks).resolve_left (by omega)
    refine .inr ⟨w.wake, List.mem_map_of_mem hw, ?_⟩
    cases w with
    | ready => rfl
    | running task => rfl
    | blocked => cases hactive
    | exited => cases hactive
  exits hexited := by
    obtain ⟨w, hw, hwake⟩ := List.mem_map.mp hexited
    refine ⟨rfl, ?_⟩
    cases w with
    | exited => exact (h.exits hw).2
    | ready => cases hwake
    | blocked => cases hwake
    | running task => cases hwake
  quiet _ := h.quiet (by simp [stopped, stopping])
  awake := by
    rintro - hblocked
    obtain ⟨w, -, hwake⟩ := List.mem_map.mp hblocked
    cases w with
    | ready => cases hwake
    | blocked => cases hwake
    | running task => cases hwake
    | exited => cases hwake
  joined joined hjoining i hi := by
    cases hjoining
    exact absurd hi (Nat.not_lt_zero i)

theorem Sound.join (h : Sound n s) {joined : Nat} (joining : s.teardown = .joining joined)
    (exited : s.workers[joined]? = some .exited) :
    Sound n { s with teardown := .joining (joined + 1) } where
  size := h.size
  order := h.order
  runs := h.runs
  served := h.served
  exits hexited := ⟨rfl, (h.exits hexited).2⟩
  quiet _ := h.quiet (by simp [stopped, joining])
  awake _ := h.awake ⟨joined, joining⟩
  joined last hlast i hi := by
    obtain rfl := Teardown.joining.inj hlast
    rcases Nat.lt_succ_iff_lt_or_eq.mp hi with hbefore | rfl
    · exact h.joined joined joining i hbefore
    · exact exited

theorem sound_step (threads : 0 < n) {t : ThreadPool α} {a : Act α} (h : Sound n s)
    (hstep : s.step a = some t) : Sound n t := by
  cases moves_of_step hstep with
  | push task serving => exact h.push task serving
  | notifyNone left none => exact h.notifyNone threads left none
  | wake who hw left =>
    exact h.turn hw .ready (by simp) rfl (.inr rfl) (by simp) (by simp)
      (fun hzero => absurd hzero left)
  | take who task rest hw htasks =>
    have horder : s.pushed = (s.taken ++ [task]) ++ rest := by
      rw [h.order, htasks, List.append_assoc]
      rfl
    refine h.update hw (.running task) (by simp) horder ?_ (.inr rfl) ?_ (by simp) (by simp) id
    · intro others hperm
      -- The task goes from the front of the queue into the hands of the thread.
      change (s.ran ++ _).Perm _
      cases task with
      | none => simpa [PoolWorker.task, List.filterMap_append] using hperm
      | some a =>
        have hmore := (hperm.append_right [a])
        have hback : (s.ran ++ a :: others).Perm (s.ran ++ others ++ [a]) := by
          rw [List.append_assoc]
          exact (List.perm_append_singleton a others).symm.append_left s.ran
        simpa [PoolWorker.task, List.filterMap_append] using hback.trans hmore
    · intro hempty
      rw [htasks] at hempty
      cases hempty
  | exit who hw hempty hstopped =>
    exact h.turn hw .exited (by simp) rfl (.inl hempty) (fun _ => hstopped) (by simp) id
  | block who hw hempty hserving =>
    exact h.turn hw .blocked (by simp) rfl (.inl hempty) (by simp) (fun _ => hserving) id
  | finish who task hw =>
    refine h.update hw .ready (by simp) h.order ?_ (.inr rfl) id (by simp) (by simp) id
    intro others hperm
    rw [List.append_assoc]
    exact hperm
  | spurious who hw => exact h.turn hw .ready (by simp) rfl (.inr rfl) (by simp) (by simp) id
  | stop serving none => exact h.stop none
  | notifyAll stopping => exact h.notifyAll stopping
  | join joined joining exited => exact h.join joining exited

theorem sound_run (threads : 0 < n) {as : List (Act α)} (run : exec (start n) as = some s) :
    Sound n s :=
  GuardedRuns.invariant_of_run (Sound n) (fun _ _ _ h hstep => sound_step threads h hstep)
    (sound_start n) run

/-! ## The end of the destructor -/

/-- A bound on the steps left, once `stop_` is set: a task is popped, returned and followed by
another turn of its thread. -/
def left (s : ThreadPool α) : Nat :=
  3 * s.tasks.length + (s.workers.map (·.left)).sum + s.teardown.left s.workers.length

theorem sum_left_set {workers : List (PoolWorker α)} {who : Nat} {w : PoolWorker α}
    (hw : workers[who]? = some w) (w' : PoolWorker α) :
    ((workers.set who w').map (·.left)).sum + w.left = (workers.map (·.left)).sum + w'.left := by
  obtain ⟨others, hbefore, hafter⟩ := ConnectionPool.perm_set hw w'
  have hold := (hbefore.map (·.left)).sum_eq
  have hnew := (hafter.map (·.left)).sum_eq
  rw [List.map_cons, List.sum_cons] at hold hnew
  omega

theorem sum_left_wake (workers : List (PoolWorker α)) :
    ((workers.map (·.wake)).map (·.left)).sum ≤ (workers.map (·.left)).sum := by
  induction workers with
  | nil => exact Nat.le_refl 0
  | cons w rest ih =>
    have hw : w.wake.left ≤ w.left := by
      cases w with
      | blocked => exact Nat.le_succ 1
      | ready => exact Nat.le_refl 1
      | running task => exact Nat.le_refl 2
      | exited => exact Nat.le_refl 0
    simp only [List.map_cons, List.sum_cons]
    omega

/-- One thread moves, and the queue shrinks by what it took. -/
theorem left_update {who : Nat} {w : PoolWorker α} (hw : s.workers[who]? = some w)
    (w' : PoolWorker α) {tasks taken : List (Option α)} {ran : List α}
    (falls : 3 * tasks.length + w'.left < 3 * s.tasks.length + w.left) :
    ({ s.setWorker who w' with tasks, taken, ran } : ThreadPool α).left < s.left := by
  have hsum := sum_left_set hw w'
  have hsize : (s.workers.set who w').length = s.workers.length := List.length_set
  show 3 * tasks.length + ((s.workers.set who w').map (·.left)).sum +
    s.teardown.left (s.workers.set who w').length < s.left
  rw [hsize, left]
  omega

/-- Once the destructor has set `stop_`, every step is one of the last. -/
theorem Sound.falls (h : Sound n s) (stopped : s.stopped = true) {t : ThreadPool α} {a : Act α}
    (hstep : s.step a = some t) : t.stopped = true ∧ t.left < s.left := by
  have hquiet := h.quiet stopped
  cases moves_of_step hstep with
  | push task serving => simp [ThreadPool.stopped, serving] at stopped
  | notifyNone left none => omega
  | wake who hw left => omega
  | take who task rest hw htasks =>
    refine ⟨stopped, left_update hw (.running task) ?_⟩
    rw [htasks, List.length_cons]
    simp only [PoolWorker.left]
    omega
  | exit who hw hempty hstopped =>
    refine ⟨stopped, left_update hw .exited ?_⟩
    simp [PoolWorker.left]
  | block who hw hempty hserving =>
    rw [stopped] at hserving
    cases hserving
  | finish who task hw =>
    refine ⟨stopped, left_update hw .ready ?_⟩
    exact Nat.add_lt_add_left (Nat.lt_succ_self 1) _
  | spurious who hw =>
    refine ⟨stopped, left_update hw .ready ?_⟩
    simp [PoolWorker.left]
  | stop serving none => simp [ThreadPool.stopped, serving] at stopped
  | notifyAll stopping =>
    refine ⟨rfl, ?_⟩
    have hwake := sum_left_wake s.workers
    simp only [left, stopping, Teardown.left, List.length_map]
    omega
  | join joined joining exited =>
    refine ⟨rfl, ?_⟩
    obtain ⟨hlt, -⟩ := List.getElem?_eq_some_iff.mp exited
    simp only [left, joining, Teardown.left]
    omega

theorem Sound.joined_le (h : Sound n s) {joined : Nat} (joining : s.teardown = .joining joined) :
    joined ≤ s.workers.length := by
  by_contra hmore
  have hbeyond := h.joined joined joining s.workers.length (by omega)
  rw [List.getElem?_eq_none (Nat.le_refl _)] at hbeyond
  cases hbeyond

/-- A destructor that has not joined every thread is never stuck. -/
theorem Sound.progress (h : Sound n s) (stopped : s.stopped = true) (unfinished : ¬s.Finished) :
    ∃ a t, s.step a = some t := by
  cases hteardown : s.teardown with
  | serving => simp [ThreadPool.stopped, hteardown] at stopped
  | stopping => exact ⟨.notifyAll, _, if_pos hteardown⟩
  | joining joined =>
    have hle := h.joined_le hteardown
    have hne : joined ≠ s.workers.length := by
      rintro rfl
      exact unfinished hteardown
    have hlt : joined < s.workers.length := by omega
    have hw : s.workers[joined]? = some s.workers[joined] := List.getElem?_eq_getElem hlt
    -- The thread to join returns, or makes a step towards it.
    cases hworker : s.workers[joined] with
    | ready =>
      rw [hworker] at hw
      cases htasks : s.tasks with
      | nil => exact ⟨.lock joined, _, by simp [step, hw, htasks]; rfl⟩
      | cons task rest => exact ⟨.lock joined, _, by simp [step, hw, htasks]; rfl⟩
    | running task =>
      rw [hworker] at hw
      exact ⟨.finish joined, _, by simp [step, hw]; rfl⟩
    | blocked =>
      have hmem := List.getElem_mem hlt
      rw [hworker] at hmem
      exact absurd hmem (h.awake ⟨joined, hteardown⟩)
    | exited =>
      rw [hworker] at hw
      exact ⟨.join, _, by simp [step, hw, hteardown]; rfl⟩

/-- When every thread has been joined, nothing is in the queue or in the hands of a thread. -/
theorem Sound.drained (h : Sound n s) (threads : 0 < n) (finished : s.Finished) :
    s.tasks = [] ∧ s.running = [] := by
  have hsize := h.size
  have hexited (i : Nat) (hi : i < s.workers.length) : s.workers[i] = .exited := by
    have hjoined := h.joined _ finished i hi
    rw [List.getElem?_eq_getElem hi] at hjoined
    exact Option.some.inj hjoined
  constructor
  · have hpos : 0 < s.workers.length := by omega
    have hmem := List.getElem_mem hpos
    rw [hexited 0 hpos] at hmem
    exact (h.exits hmem).2
  · rw [running, List.filterMap_eq_nil_iff]
    intro w hw
    obtain ⟨i, hi, rfl⟩ := List.getElem_of_mem hw
    rw [hexited i hi]
    rfl

/-- What has returned, what a thread holds and what is queued is what was pushed. -/
theorem Sound.accounted (h : Sound n s) :
    (s.ran ++ s.running ++ s.tasks.filterMap id).Perm (s.pushed.filterMap id) := by
  rw [h.order, List.filterMap_append]
  exact h.runs.append_right _

theorem Sound.run_falls (h : Sound n s) (threads : 0 < n) (stopped : s.stopped = true)
    {t : ThreadPool α} {as : List (Act α)} (run : exec s as = some t) :
    (Sound n t ∧ t.stopped = true) ∧ as.length + t.left ≤ s.left := by
  have hkept : ∀ (r : ThreadPool α) a r',
      Sound n r ∧ r.stopped = true → r.step a = some r' →
      Sound n r' ∧ r'.stopped = true :=
    fun _ _ _ hr hstep => ⟨sound_step threads hr.1 hstep, (hr.1.falls hr.2 hstep).1⟩
  constructor
  · exact GuardedRuns.invariant_of_run (fun r => Sound n r ∧ r.stopped = true) hkept
      ⟨h, stopped⟩ run
  · exact GuardedRuns.length_le_of_falling (fun r => Sound n r ∧ r.stopped = true) hkept
      (fun _ _ _ hr hstep => (hr.1.falls hr.2 hstep).2) ⟨h, stopped⟩ run

/-- A task waits, and no thread will come for it. -/
def Stuck (s : ThreadPool α) : Prop :=
  s.tasks ≠ [] ∧ s.notifying = 0 ∧ ∀ w ∈ s.workers, w = .blocked ∨ w = .exited

theorem Sound.not_stuck (h : Sound n s) : ¬s.Stuck := by
  rintro ⟨htasks, hquiet, hidle⟩
  rcases h.served htasks with hleft | ⟨w, hw, hactive⟩
  · omega
  · rcases hidle w hw with rfl | rfl
    · cases hactive
    · cases hactive

/-- In every state: the tasks are taken in the order they came; each is in one place, as often
as it was pushed; no thread returns before a task that waits; no task is forgotten, and no
thread sleeps through the end. The destructor then has a bounded number of steps left, and
where none is possible every task has run once. -/
theorem pool_runs_each_task {as : List (Act α)} (threads : 0 < n)
    (run : exec (start n) as = some s) :
    s.pushed = s.taken ++ s.tasks ∧
      (s.ran ++ s.running ++ s.tasks.filterMap id).Perm (s.pushed.filterMap id) ∧
      (.exited ∈ s.workers → s.tasks = []) ∧
      ¬s.Stuck ∧
      (s.Notified → .blocked ∉ s.workers) ∧
      (s.stopped = true → ∀ bs t, exec s bs = some t →
        bs.length ≤ s.left ∧
          ((∀ a, t.step a = none) →
            t.Finished ∧ t.tasks = [] ∧ t.ran.Perm (t.pushed.filterMap id))) := by
  have h := sound_run threads run
  refine ⟨h.order, h.accounted, fun hexited => (h.exits hexited).2, h.not_stuck, h.awake, ?_⟩
  intro stopped bs t hrun
  obtain ⟨⟨ht, hstopped⟩, hbound⟩ := h.run_falls threads stopped hrun
  refine ⟨by omega, ?_⟩
  intro hlast
  have hfinished : t.Finished := by
    by_contra hunfinished
    obtain ⟨a, r, hstep⟩ := ht.progress hstopped hunfinished
    rw [hlast a] at hstep
    cases hstep
  obtain ⟨hempty, hnone⟩ := ht.drained threads hfinished
  have haccounted := ht.accounted
  rw [hempty, hnone] at haccounted
  exact ⟨hfinished, hempty, by simpa using haccounted⟩

/-- Two threads, a task and an empty function; the destructor begins with the first in the
hands of a thread and the second in the queue. -/
def closingActs : List (Act Nat) :=
  [.lock 0, .push (some 7), .notify (some 0), .lock 0, .push none, .notify none, .stop]

def closing : ThreadPool Nat where
  workers := [.running (some 7), .ready]
  tasks := [none]
  teardown := .stopping
  pushed := [some 7, none]
  taken := [some 7]

theorem pool_runs_each_task_two :
    exec (start 2) closingActs = some closing ∧ ¬closing.Stuck ∧
      ∀ bs t, closing.exec bs = some t → bs.length ≤ closing.left := by
  have run : exec (start 2) closingActs = some closing := rfl
  obtain ⟨-, -, -, hserved, -, hend⟩ := pool_runs_each_task Nat.zero_lt_two run
  refine ⟨run, hserved, ?_⟩
  intro bs t hrun
  exact (hend rfl bs t hrun).1

end ThreadPool

end WebServer
