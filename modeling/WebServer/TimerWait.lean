import WebServer.TimerTable

/-!
# The wait until the next timer

`GetNextTick` subtracts without sign in 64 bits and casts to a signed 32-bit integer. What
makes the result exact is how every node was armed: from a reading of the clock that is not
later than now, with a timeout that fits 31 bits. So no node that is left lies further in
the future than the cast can tell, nor, being left by `Tick`, further in the past than the
time between the two readings.

Timers are armed by the calls that are listed here; callbacks do not touch the timer.
-/

namespace WebServer

universe u

open DataRefinement

variable {γ : Type u}

/-- The greatest timeout. -/
def maxTimeout : Nat := 2 ^ 31 - 1

namespace TimerOp

/-- The reading of the clock that an operation makes; `Delete` makes none. -/
def reading (last : Nat) : TimerOp γ → Nat
  | .add now _ _ _ | .adjust now _ _ | .tick now => now
  | .delete _ => last

/-- The timeout is in range, and the expiry in 64 bits. -/
def InRange : TimerOp γ → Prop
  | .add now _ timeoutMs _ | .adjust now _ timeoutMs =>
    0 ≤ timeoutMs ∧ timeoutMs ≤ maxTimeout ∧ now + timeoutMs < 2 ^ 64
  | .delete _ | .tick _ => True

/-- The clock does not go back from one operation to the next. -/
def Clocked (last : Nat) : List (TimerOp γ) → Prop
  | [] => True
  | op :: ops => last ≤ op.reading last ∧ op.InRange ∧ Clocked (op.reading last) ops

/-- The last reading of a run. -/
def lastReading (last : Nat) : List (TimerOp γ) → Nat
  | [] => last
  | op :: ops => lastReading (op.reading last) ops

end TimerOp

open TimerOp

namespace TimerTable

/-- No entry expires later than the greatest timeout from now. -/
def Near (M : TimerTable γ) (last : Nat) : Prop :=
  ∀ fd entry, M fd = some entry → entry.1 ≤ last + maxTimeout

theorem expireAt_le {now : Nat} {timeoutMs : Int} (h : 0 ≤ timeoutMs ∧ timeoutMs ≤ maxTimeout ∧
    now + timeoutMs < 2 ^ 64) : Timer.expireAt now timeoutMs ≤ now + maxTimeout := by
  obtain ⟨hpos, hle, hfits⟩ := h
  obtain ⟨timeout, rfl⟩ := Int.eq_ofNat_of_zero_le hpos
  rw [Timer.expireAt_eq (by omega)]
  omega

theorem near_update {M : TimerTable γ} {last now : Nat} (h : M.Near last) (later : last ≤ now)
    {fd : Int} {new : Option (Nat × Option γ)}
    (hnew : ∀ entry, new = some entry → entry.1 ≤ now + maxTimeout) :
    Near (Function.update M fd new) now := by
  intro fd' entry hentry
  by_cases hfd : fd' = fd
  · rw [hfd, Function.update_self] at hentry
    exact hnew entry hentry
  · rw [Function.update_of_ne hfd] at hentry
    have hold := h fd' entry hentry
    omega

theorem near_step {M : TimerTable γ} {last : Nat} (h : M.Near last) {op : TimerOp γ}
    (later : last ≤ op.reading last) (inRange : op.InRange) :
    Near (M.step op).1 (op.reading last) := by
  cases op with
  | add now fd timeoutMs cb =>
    refine near_update h later ?_
    rintro entry ⟨⟩
    exact expireAt_le inRange
  | adjust now fd timeoutMs =>
    refine near_update h later ?_
    intro entry hentry
    obtain ⟨old, -, rfl⟩ := Option.map_eq_some_iff.mp hentry
    exact expireAt_le inRange
  | delete fd =>
    refine near_update h later ?_
    rintro entry ⟨⟩
  | tick now =>
    intro fd entry hentry
    obtain ⟨hold, -⟩ := Option.filter_eq_some_iff.mp hentry
    have hnear := h fd entry hold
    have hclock : last ≤ now := later
    show entry.1 ≤ now + maxTimeout
    omega

theorem near_run {M : TimerTable γ} {last : Nat} (h : M.Near last) {ops : List (TimerOp γ)}
    (clocked : Clocked last ops) : Near (run step M ops).1 (lastReading last ops) := by
  induction ops generalizing M last with
  | nil => exact h
  | cons op ops ih =>
    obtain ⟨hlater, hinRange, hrest⟩ := clocked
    rw [run_cons, lastReading]
    exact ih (near_step h hlater hinRange) hrest

theorem near_empty (last : Nat) : Near (fun _ => none : TimerTable γ) last := by
  intro fd entry hentry
  cases hentry

end TimerTable

namespace Timer

theorem getNextTick_timer (t : Timer γ) (now later : Nat) :
    (t.getNextTick now later).1 = (t.tick now).1 := by
  unfold getNextTick
  dsimp only
  split
  · rfl
  · rfl

/-- What `Tick` has left expires after its reading, and not too long after. -/
theorem remaining_exact {M : TimerTable γ} {t : Timer γ} (h : Sound t M) {last now later : Nat}
    (near : M.Near last) (started : last ≤ now) (reads : now ≤ later)
    (close : later < now + 2 ^ 31) {node : TimerNode γ} (left : node ∈ (t.tick now).1.heap) :
    remaining node.expire later = (node.expire : Int) - later := by
  obtain ⟨hleft, -⟩ := h.tick now
  have hentry := (hleft.entries node.fd (node.expire, node.cb)).mpr left
  obtain ⟨harmed, hnotDue⟩ := Option.filter_eq_some_iff.mp hentry
  have hdue : now < node.expire := of_decide_eq_true hnotDue
  have hnear := near node.fd _ harmed
  unfold maxTimeout at hnear
  apply remaining_eq
  · omega
  · omega

/-- After any calls under a clock that does not go back, `GetNextTick` answers -1 exactly when
no timer is left, and otherwise the time that the least expiry is ahead of its last reading,
or zero when that has passed. -/
theorem getNextTick_exact {ops : List (TimerOp γ)} {now later : Nat} (clocked : Clocked 0 ops)
    (started : lastReading 0 ops ≤ now) (reads : now ≤ later) (close : later < now + 2 ^ 31) :
    let t := (run apply ({} : Timer γ) ops).1
    let wait := (t.getNextTick now later).2.2
    (wait = -1 ↔ (t.tick now).1.heap = []) ∧
      ((t.tick now).1.heap ≠ [] → ∃ least ∈ (t.tick now).1.heap,
        (∀ node ∈ (t.tick now).1.heap, least.expire ≤ node.expire) ∧
        wait = max 0 ((least.expire : Int) - later)) := by
  intro t wait
  have hsound := (run_simulates apply_simulates sound_empty ops).1
  have hnear := TimerTable.near_run (TimerTable.near_empty 0) clocked
  obtain ⟨-, hwait⟩ := hsound.getNextTick now later
  have hleft := getNextTick_timer t now later
  rw [hleft] at hwait
  rcases hwait with ⟨hempty, hnone⟩ | ⟨least, hfront, hmem, htime, hleast⟩
  · exact ⟨iff_of_true hnone hempty, fun hne => absurd hempty hne⟩
  · have hexact := remaining_exact hsound hnear started reads close hmem
    rw [hexact] at htime
    have hne : (t.tick now).1.heap ≠ [] := List.ne_nil_of_mem hmem
    have hpos : wait ≠ -1 := by
      have htime' : wait = max 0 ((least.expire : Int) - later) := htime
      omega
    refine ⟨iff_of_false hpos hne, fun _ => ⟨least, hmem, hleast, htime⟩⟩

/-- A timer with the greatest timeout beside one that is due, and one that comes due between
the two readings. -/
theorem getNextTick_exact_three :
    let ops : List (TimerOp Nat) := [.add 5 1 2147483647 none, .add 6 2 0 none, .add 7 3 9 none]
    let t := (run apply ({} : Timer Nat) ops).1
    (t.getNextTick 10 20).2.2 = 0 ∧ ((t.getNextTick 10 20).2.2 = -1 ↔ (t.tick 10).1.heap = []) := by
  intro ops t
  have hclocked : Clocked 0 ops := by
    simp [ops, Clocked, TimerOp.reading, InRange, maxTimeout]
  have hexact := @getNextTick_exact Nat ops 10 20 hclocked (by decide) (by decide) (by decide)
  exact ⟨by decide +kernel, hexact.1⟩

end Timer

end WebServer
