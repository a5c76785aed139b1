import WebServer.GuardedRuns

/-!
# The asynchronous logger

Any thread appends under the lock; one thread writes. The writer takes the lock to hand
the current buffer over and to recycle a buffer, and holds no lock while it walks through
the buffers it found and while it clears them. One step is one operation on a container,
one entry written, or one locked section. What is written is one list: the console and
the file get the same entries in the same order. A wait may end at any time, by a
notification, by its timeout or spuriously. No entry is appended once `Stop` has begun.
-/

namespace WebServer

universe u

/-- Where the writer is in `ThreadFunc`. `writing` holds the entries of the traversal that
are still to be written. -/
inductive WriterPhase (α : Type u) where
  | check
  | waiting
  | handed
  | writing (rest : List α)
  | recycled
  | exited
  | stopped

/-- From the start of the traversal to `flushBuffers_.clear()`. -/
def WriterPhase.clearing {α : Type u} : WriterPhase α → Bool
  | .writing _ | .recycled => true
  | .check | .waiting | .handed | .exited | .stopped => false

structure AsyncLogger (α : Type u) where
  currentBuffer : List α := []
  nextBuffer : List α := []
  flushBuffers : List (List α) := []
  running : Bool := true
  phase : WriterPhase α := .check
  written : List α := []

inductive LoggerAct (α : Type u) where
  | append (entry : α)
  | check
  | handOver
  | traverse
  | write
  | recycle
  | clear
  | stop
  | flush

namespace AsyncLogger

variable {α : Type u}

def kBufferThreshold : Nat := 1024

/-- The locked section of `Append`. -/
def append (s : AsyncLogger α) (entry : α) : AsyncLogger α :=
  let current := s.currentBuffer ++ [entry]
  if kBufferThreshold ≤ current.length then
    let s := { s with flushBuffers := s.flushBuffers ++ [current], currentBuffer := [] }
    if s.nextBuffer.isEmpty then s
    else { s with currentBuffer := s.nextBuffer, nextBuffer := [] }
  else { s with currentBuffer := current }

/-- The first locked section of the writer. -/
def handOver (s : AsyncLogger α) : AsyncLogger α :=
  if s.flushBuffers.isEmpty ∧ s.currentBuffer.isEmpty then { s with phase := .check }
  else if s.currentBuffer.isEmpty then { s with phase := .handed }
  else { s with
    flushBuffers := s.flushBuffers ++ [s.currentBuffer]
    currentBuffer := []
    phase := .handed }

/-- The second locked section: `nextBuffer_` is swapped with the last buffer and cleared. -/
def recycle (s : AsyncLogger α) : AsyncLogger α :=
  if s.nextBuffer.isEmpty then
    { s with
      flushBuffers := s.flushBuffers.dropLast ++ [s.nextBuffer]
      nextBuffer := []
      phase := .recycled }
  else { s with phase := .recycled }

def step (s : AsyncLogger α) : LoggerAct α → Option (AsyncLogger α)
  | .append entry => if s.running then some (s.append entry) else none
  | .check =>
    match s.phase with
    | .check => some { s with phase := if s.running then .waiting else .exited }
    | _ => none
  | .handOver =>
    match s.phase with
    | .waiting => some s.handOver
    | _ => none
  | .traverse =>
    match s.phase with
    | .handed => some { s with phase := .writing s.flushBuffers.flatten }
    | _ => none
  | .write =>
    match s.phase with
    | .writing (entry :: rest) =>
      some { s with phase := .writing rest, written := s.written ++ [entry] }
    | _ => none
  | .recycle =>
    match s.phase with
    | .writing [] => some s.recycle
    | _ => none
  | .clear =>
    match s.phase with
    | .recycled => some { s with flushBuffers := [], phase := .check }
    | _ => none
  | .stop => if s.running then some { s with running := false } else none
  | .flush =>
    match s.phase with
    | .exited =>
      some { s with
        written := s.written ++ s.flushBuffers.flatten ++ s.currentBuffer
        currentBuffer := []
        flushBuffers := []
        phase := .stopped }
    | _ => none

/-- The entries in the order of their locked appends. -/
def appended (acts : List (LoggerAct α)) : List α :=
  acts.filterMap fun | .append entry => some entry | _ => none

/-- No `Append` fills the current buffer while the writer walks through the full ones and
clears them. -/
def Spared (s : AsyncLogger α) : LoggerAct α → Prop
  | .append _ => s.phase.clearing = true → s.currentBuffer.length + 1 < kBufferThreshold
  | _ => True

instance decidableSpared (s : AsyncLogger α) : ∀ a, Decidable (Spared s a)
  | .append _ => inferInstanceAs
      (Decidable (s.phase.clearing = true → s.currentBuffer.length + 1 < kBufferThreshold))
  | .check | .handOver | .traverse | .write | .recycle | .clear | .stop | .flush => .isTrue trivial

/-- The entries that will be written before those of the current buffer. -/
def ahead (s : AsyncLogger α) : List α :=
  match s.phase with
  | .writing rest => rest
  | .recycled => []
  | .check | .waiting | .handed | .exited | .stopped => s.flushBuffers.flatten

/-- The entries that will still be written when nothing more is appended. -/
def left (s : AsyncLogger α) : List α := s.ahead ++ s.currentBuffer

theorem appended_append (as bs : List (LoggerAct α)) :
    appended (as ++ bs) = appended as ++ appended bs := List.filterMap_append

section Step

variable {s t : AsyncLogger α} {entry : α}

theorem append_full (h : kBufferThreshold ≤ s.currentBuffer.length + 1) :
    s.append entry = { s with
      flushBuffers := s.flushBuffers ++ [s.currentBuffer ++ [entry]]
      currentBuffer := s.nextBuffer
      nextBuffer := [] } := by
  simp only [append, List.length_append, List.length_singleton, if_pos h]
  cases hnext : s.nextBuffer with
  | nil => rfl
  | cons e next => rfl

theorem append_room (h : s.currentBuffer.length + 1 < kBufferThreshold) :
    s.append entry = { s with currentBuffer := s.currentBuffer ++ [entry] } := by
  simp only [append, List.length_append, List.length_singleton, if_neg (Nat.not_le.mpr h)]

/-- A full buffer comes behind the entries ahead, unless the writer is past it. -/
theorem left_full (h : kBufferThreshold ≤ s.currentBuffer.length + 1) :
    (s.append entry).left =
      if s.phase.clearing then s.ahead ++ s.nextBuffer
      else s.ahead ++ s.currentBuffer ++ [entry] ++ s.nextBuffer := by
  rw [append_full h]
  unfold left ahead
  cases s.phase with
  | writing rest => simp [WriterPhase.clearing]
  | recycled => simp [WriterPhase.clearing]
  | check => simp [WriterPhase.clearing]
  | waiting => simp [WriterPhase.clearing]
  | handed => simp [WriterPhase.clearing]
  | exited => simp [WriterPhase.clearing]
  | stopped => simp [WriterPhase.clearing]

theorem left_room (h : s.currentBuffer.length + 1 < kBufferThreshold) :
    (s.append entry).left = s.left ++ [entry] := by
  rw [append_room h]
  unfold left ahead
  simp

/-- What the writer and `Stop` can do. -/
inductive Works (s : AsyncLogger α) : AsyncLogger α → Prop
  | check (phase : s.phase = .check) :
    Works s { s with phase := if s.running then .waiting else .exited }
  | handOver (phase : s.phase = .waiting) : Works s s.handOver
  | traverse (phase : s.phase = .handed) : Works s { s with phase := .writing s.flushBuffers.flatten }
  | write (entry : α) (rest : List α) (phase : s.phase = .writing (entry :: rest)) :
    Works s { s with phase := .writing rest, written := s.written ++ [entry] }
  | recycle (phase : s.phase = .writing []) : Works s s.recycle
  | clear (phase : s.phase = .recycled) : Works s { s with flushBuffers := [], phase := .check }
  | stop : Works s { s with running := false }
  | flush (phase : s.phase = .exited) :
    Works s { s with
      written := s.written ++ s.flushBuffers.flatten ++ s.currentBuffer
      currentBuffer := []
      flushBuffers := []
      phase := .stopped }

theorem step_cases {a : LoggerAct α} (hstep : step s a = some t) :
    (∃ entry, a = .append entry ∧ s.running = true ∧ t = s.append entry) ∨
      (∀ entry, a ≠ .append entry) ∧ Works s t := by
  cases a with
  | append entry =>
    simp only [step] at hstep
    split at hstep
    · next hrunning => exact .inl ⟨entry, rfl, hrunning, (Option.some.inj hstep).symm⟩
    · cases hstep
  | check =>
    simp only [step] at hstep
    split at hstep
    · next hphase => exact .inr ⟨by simp, Option.some.inj hstep ▸ .check hphase⟩
    · cases hstep
  | handOver =>
    simp only [step] at hstep
    split at hstep
    · next hphase => exact .inr ⟨by simp, Option.some.inj hstep ▸ .handOver hphase⟩
    · cases hstep
  | traverse =>
    simp only [step] at hstep
    split at hstep
    · next hphase => exact .inr ⟨by simp, Option.some.inj hstep ▸ .traverse hphase⟩
    · cases hstep
  | write =>
    simp only [step] at hstep
    split at hstep
    · next entry rest hphase =>
      exact .inr ⟨by simp, Option.some.inj hstep ▸ .write entry rest hphase⟩
    · cases hstep
  | recycle =>
    simp only [step] at hstep
    split at hstep
    · next hphase => exact .inr ⟨by simp, Option.some.inj hstep ▸ .recycle hphase⟩
    · cases hstep
  | clear =>
    simp only [step] at hstep
    split at hstep
    · next hphase => exact .inr ⟨by simp, Option.some.inj hstep ▸ .clear hphase⟩
    · cases hstep
  | stop =>
    simp only [step] at hstep
    split at hstep
    · exact .inr ⟨by simp, Option.some.inj hstep ▸ .stop⟩
    · cases hstep
  | flush =>
    simp only [step] at hstep
    split at hstep
    · next hphase => exact .inr ⟨by simp, Option.some.inj hstep ▸ .flush hphase⟩
    · cases hstep

/-- Nothing but an append changes what is written or left, taken together. -/
structure Moves (s t : AsyncLogger α) : Prop where
  account : t.written ++ t.left = s.written ++ s.left
  spare : t.nextBuffer = s.nextBuffer

theorem moves_handOver (hphase : s.phase = .waiting) : Moves s s.handOver := by
  unfold handOver
  split
  · exact ⟨by simp [left, ahead, hphase], rfl⟩
  · split
    · exact ⟨by simp [left, ahead, hphase], rfl⟩
    · exact ⟨by simp [left, ahead, hphase], rfl⟩

theorem moves_recycle (hphase : s.phase = .writing []) : Moves s s.recycle := by
  unfold recycle
  split
  · next hspare =>
    exact ⟨by simp [left, ahead, hphase], (List.isEmpty_iff.mp hspare).symm⟩
  · exact ⟨by simp [left, ahead, hphase], rfl⟩

theorem moves_works (h : Works s t) : Moves s t := by
  cases h with
  | check hphase =>
    cases s.running with
    | true => exact ⟨by simp [left, ahead, hphase], rfl⟩
    | false => exact ⟨by simp [left, ahead, hphase], rfl⟩
  | handOver hphase => exact moves_handOver hphase
  | traverse hphase => exact ⟨by simp [left, ahead, hphase], rfl⟩
  | write entry rest hphase => exact ⟨by simp [left, ahead, hphase], rfl⟩
  | recycle hphase => exact moves_recycle hphase
  | clear hphase => exact ⟨by simp [left, ahead, hphase], rfl⟩
  | stop => exact ⟨rfl, rfl⟩
  | flush hphase => exact ⟨by simp [left, ahead, hphase], rfl⟩

theorem appended_other {a : LoggerAct α} (hother : ∀ e, a ≠ .append e) : appended [a] = [] := by
  cases a with
  | append e => exact absurd rfl (hother e)
  | check | handOver | traverse | write | recycle | clear | stop | flush => rfl

/-! ## Nothing is lost while appends are spared -/

/-- No buffer is spare, and every entry appended is written or will be. -/
structure Kept (s : AsyncLogger α) (acts : List (LoggerAct α)) : Prop where
  spare : s.nextBuffer = []
  account : s.written ++ s.left = appended acts

theorem kept_append {acts : List (LoggerAct α)} (h : Kept s acts)
    (spared : Spared s (.append entry)) : Kept (s.append entry) (acts ++ [.append entry]) := by
  have hnew : appended (acts ++ [.append entry]) = s.written ++ (s.left ++ [entry]) := by
    rw [appended_append, ← h.account, List.append_assoc]
    rfl
  by_cases hroom : s.currentBuffer.length + 1 < kBufferThreshold
  · refine ⟨?_, ?_⟩
    · rw [append_room hroom]
      exact h.spare
    · rw [hnew, left_room hroom, append_room hroom]
  · have hfull : kBufferThreshold ≤ s.currentBuffer.length + 1 := by omega
    have hclearing : ¬s.phase.clearing = true := fun hclearing => hroom (spared hclearing)
    refine ⟨?_, ?_⟩
    · rw [append_full hfull]
    · rw [hnew, left_full hfull, if_neg hclearing, h.spare, List.append_nil, append_full hfull]
      rfl

theorem kept_step {acts : List (LoggerAct α)} {a : LoggerAct α} (h : Kept s acts)
    (spared : Spared s a) (hstep : step s a = some t) : Kept t (acts ++ [a]) := by
  obtain ⟨entry, rfl, -, rfl⟩ | ⟨hother, hworks⟩ := step_cases hstep
  · exact kept_append h spared
  · have hmoves := moves_works hworks
    refine ⟨hmoves.spare.trans h.spare, ?_⟩
    rw [hmoves.account, h.account, appended_append, appended_other hother, List.append_nil]

/-! ## An append that is not spared loses a buffer -/

/-- The entries written, left, or in a spare buffer. -/
def present (s : AsyncLogger α) : ℕ := s.written.length + s.left.length + s.nextBuffer.length

theorem present_append (s : AsyncLogger α) (entry : α) : (s.append entry).present ≤ s.present + 1 ∧
    (¬Spared s (.append entry) → (s.append entry).present < s.present + 1) := by
  by_cases hroom : s.currentBuffer.length + 1 < kBufferThreshold
  · have hpresent : (s.append entry).present = s.present + 1 := by
      unfold present
      rw [left_room hroom, append_room hroom, List.length_append, List.length_singleton]
      simp only
      omega
    exact ⟨Nat.le_of_eq hpresent, fun h => absurd (fun _ => hroom) h⟩
  · have hfull : kBufferThreshold ≤ s.currentBuffer.length + 1 := by omega
    have hleft : s.left.length = s.ahead.length + s.currentBuffer.length := List.length_append
    have hpositive : 1 < kBufferThreshold := by decide
    unfold present
    rw [left_full hfull, append_full hfull, hleft]
    by_cases hclearing : s.phase.clearing = true
    · simp only [if_pos hclearing, List.length_append, List.length_nil]
      exact ⟨by omega, fun _ => by omega⟩
    · simp only [if_neg hclearing, List.length_append, List.length_singleton, List.length_nil]
      exact ⟨by omega, fun h => absurd (fun hc => absurd hc hclearing) h⟩

theorem present_works (h : Works s t) : t.present = s.present := by
  obtain ⟨haccount, hspare⟩ := moves_works h
  have hlength := congrArg List.length haccount
  rw [List.length_append, List.length_append] at hlength
  unfold present
  rw [hspare, hlength]

theorem present_step {a : LoggerAct α} (hstep : step s a = some t) :
    t.present ≤ s.present + (appended [a]).length ∧
      (¬Spared s a → t.present < s.present + (appended [a]).length) := by
  obtain ⟨entry, rfl, -, rfl⟩ | ⟨hother, hworks⟩ := step_cases hstep
  · exact present_append s entry
  · have hsame := present_works hworks
    refine ⟨by omega, fun h => absurd ?_ h⟩
    cases a with
    | append entry => exact absurd rfl (hother entry)
    | check | handOver | traverse | write | recycle | clear | stop | flush => trivial

theorem appended_length (acts : List (LoggerAct α)) :
    GuardedRuns.total (fun a => (appended [a]).length) acts = (appended acts).length := by
  induction acts with
  | nil => rfl
  | cons a acts ih =>
    have hcons : appended (a :: acts) = appended [a] ++ appended acts := appended_append [a] acts
    rw [GuardedRuns.total, ih, hcons, List.length_append]

/-! ## After the stop -/

/-- The writer leaves its loop after `running_` was cleared, and `Stop` leaves no buffer. -/
structure Settled (s : AsyncLogger α) : Prop where
  closed : s.phase = .exited ∨ s.phase = .stopped → s.running = false
  drained : s.phase = .stopped → s.left = []

theorem append_phase (s : AsyncLogger α) (entry : α) : (s.append entry).phase = s.phase := by
  by_cases hroom : s.currentBuffer.length + 1 < kBufferThreshold
  · rw [append_room hroom]
  · rw [append_full (by omega)]

/-- Most phases are neither the end of the writer nor of the logger. -/
theorem settled_inside (hexited : s.phase ≠ .exited) (hstopped : s.phase ≠ .stopped) : Settled s :=
  ⟨fun h => (h.elim hexited hstopped).elim, fun h => absurd h hstopped⟩

theorem settled_works (h : Settled s) (hworks : Works s t) : Settled t := by
  cases hworks with
  | check _ =>
    cases hrunning : s.running with
    | true => exact settled_inside (by simp) (by simp)
    | false => exact ⟨fun _ => rfl, by simp⟩
  | handOver _ =>
    unfold handOver
    split
    · exact settled_inside (by simp) (by simp)
    · split
      · exact settled_inside (by simp) (by simp)
      · exact settled_inside (by simp) (by simp)
  | traverse _ => exact settled_inside (by simp) (by simp)
  | write _ _ _ => exact settled_inside (by simp) (by simp)
  | recycle _ =>
    unfold recycle
    split
    · exact settled_inside (by simp) (by simp)
    · exact settled_inside (by simp) (by simp)
  | clear _ => exact settled_inside (by simp) (by simp)
  | stop => exact ⟨fun _ => rfl, h.drained⟩
  | flush hphase => exact ⟨fun _ => h.closed (.inl hphase), fun _ => by simp [left, ahead]⟩

/-- An append finds the logger running, so neither the writer nor `Stop` has ended. -/
theorem settled_step {a : LoggerAct α} (h : Settled s) (hstep : step s a = some t) :
    Settled t := by
  obtain ⟨entry, rfl, hrunning, rfl⟩ | ⟨-, hworks⟩ := step_cases hstep
  · have hopen : ¬(s.phase = .exited ∨ s.phase = .stopped) := by
      intro hend
      rw [h.closed hend] at hrunning
      cases hrunning
    rw [← append_phase s entry] at hopen
    exact settled_inside (fun hend => hopen (.inl hend)) (fun hend => hopen (.inr hend))
  · exact settled_works h hworks

end Step

/-- In a run that ends with the flush of `Stop`, the entries written are the entries
appended, in the same order, exactly when every append was spared. -/
theorem stopped_complete_iff {s : AsyncLogger α} {acts : List (LoggerAct α)}
    (run : GuardedRuns.exec step {} acts = some s) (stopped : s.phase = .stopped) :
    s.written = appended acts ↔ GuardedRuns.Guarded step Spared {} acts := by
  have hsettled : Settled s :=
    GuardedRuns.invariant_of_run Settled (fun _ _ _ h hstep => settled_step h hstep)
      (settled_inside (by simp) (by simp)) run
  have hleft := hsettled.drained stopped
  constructor
  · intro hwritten
    by_contra hunspared
    have hlost := GuardedRuns.potential_lt (fun _ _ _ hstep => (present_step hstep).1)
      (fun _ _ _ hnot hstep => (present_step hstep).2 hnot) hunspared run
    have hstart : present ({} : AsyncLogger α) = 0 := rfl
    rw [appended_length, hstart] at hlost
    unfold present at hlost
    rw [hwritten] at hlost
    omega
  · intro hspared
    have hkept : Kept s ([] ++ acts) :=
      GuardedRuns.history_of_guarded Kept (fun _ _ _ _ h hok hstep => kept_step h hok hstep)
        ⟨rfl, rfl⟩ hspared run
    have haccount := hkept.account
    rw [hleft, List.append_nil] at haccount
    exact haccount

/-- An append that does not fill the buffer arrives during the traversal. -/
theorem stopped_complete_three :
    [1, 2, 3] = appended [.append 1, .append 2, .check, .handOver, .traverse, .write, .append 3,
        .write, .recycle, .clear, .stop, .check, .flush] ↔
      GuardedRuns.Guarded step Spared {} [.append 1, .append 2, .check, .handOver, .traverse,
        .write, .append 3, .write, .recycle, .clear, .stop, .check, .flush] :=
  stopped_complete_iff (s := { running := false, phase := .stopped, written := [1, 2, 3] }) rfl rfl

/-- Appends that leave room only fill the current buffer. -/
theorem exec_appends {s : AsyncLogger α} {entries : List α} (hrunning : s.running = true)
    (hroom : s.currentBuffer.length + entries.length < kBufferThreshold) :
    GuardedRuns.exec step s (entries.map .append) =
      some { s with currentBuffer := s.currentBuffer ++ entries } := by
  induction entries generalizing s with
  | nil => simp
  | cons e rest ih =>
    rw [List.length_cons] at hroom
    rw [List.map_cons, GuardedRuns.exec_cons_iff]
    refine ⟨{ s with currentBuffer := s.currentBuffer ++ [e] }, ?_, ?_⟩
    · rw [← append_room (s := s) (by omega)]
      exact if_pos hrunning
    · have hrest := ih (s := { s with currentBuffer := s.currentBuffer ++ [e] }) hrunning
        (by simp only [List.length_append, List.length_singleton]; omega)
      rw [hrest]
      simp

/-- The append that fills the buffer arrives during a traversal, and the buffer is gone. -/
theorem exec_overtaken (first last : α) {entries : List α}
    (hfull : entries.length + 1 = kBufferThreshold) :
    GuardedRuns.exec step {} ([.append first, .check, .handOver, .traverse] ++
      entries.map .append ++ [.append last, .write, .recycle, .clear, .stop, .check, .flush]) =
      some { running := false, phase := .stopped, written := [first] } := by
  rw [GuardedRuns.exec_append_iff]
  refine ⟨{ currentBuffer := entries, flushBuffers := [[first]], phase := .writing [first] }, ?_, ?_⟩
  · rw [GuardedRuns.exec_append_iff]
    refine ⟨{ flushBuffers := [[first]], phase := .writing [first] }, rfl, ?_⟩
    exact exec_appends rfl (by simp only [List.length_nil]; omega)
  · rw [GuardedRuns.exec_cons_iff]
    refine ⟨{ flushBuffers := [[first], entries ++ [last]], phase := .writing [first] }, ?_, rfl⟩
    exact congrArg some (append_full (Nat.le_of_eq hfull.symm))

theorem full_buffer_lost :
    ¬∀ (acts : List (LoggerAct Nat)) (s : AsyncLogger Nat),
      GuardedRuns.exec step {} acts = some s → s.phase = .stopped → s.written = appended acts := by
  intro h
  have hwritten := h _ _ (exec_overtaken 0 2
    (by rw [List.length_replicate]; rfl : (List.replicate 1023 1).length + 1 = kBufferThreshold)) rfl
  have hmem : 2 ∈ appended ([.append 0, .check, .handOver, .traverse] ++
      (List.replicate 1023 1).map .append ++
      [.append 2, .write, .recycle, .clear, .stop, .check, .flush]) := by
    rw [appended_append]
    exact List.mem_append_right _ List.mem_cons_self
  rw [← hwritten] at hmem
  simp at hmem

end AsyncLogger

end WebServer
