import WebServer.ConnectionPool

/-!
# The end of the server

When `Loop` returns, the main thread destroys the connection pool, stops the logger, and
last joins the threads of the IO loops, when the server object goes. Handlers run on those
threads all the while. A handler reads the pointer to the pool once and keeps it in its
guard; a log call looks whether there is a logger and then uses it in two more steps.
Deleting an object and setting its pointer to null are two steps of the main thread.

A step that uses an object is checked against what the main thread has deleted by then.
When the object is gone, the use is recorded and nothing else of that step is known.
-/

namespace WebServer

/-- Where the main thread is, from the start of the pool to the joined threads. -/
inductive MainPhase where
  | starting | looping | returned
  | poolDeleted | poolNull
  | loggerStopped | loggerDeleted | loggerNull
  | joined
  deriving DecidableEq

namespace MainPhase

def poolLives : MainPhase → Bool
  | starting | looping | returned => true
  | _ => false

/-- `ConnectionPool::instance_` is not null. -/
def poolPointer : MainPhase → Bool
  | looping | returned | poolDeleted => true
  | _ => false

def loggerLives : MainPhase → Bool
  | loggerDeleted | loggerNull | joined => false
  | _ => true

/-- `AsyncLogger::s_instance` is not null. -/
def loggerPointer : MainPhase → Bool
  | loggerNull | joined => false
  | _ => true

end MainPhase

/-- Where a handler is in `Append`. -/
inductive LogCall where
  | off
  /-- the pointer was not null, and a line is being formatted -/
  | checked
  /-- the lock of the logger is held -/
  | locked
  deriving DecidableEq

/-- A request handler on one of the IO loops. -/
structure RequestHandler where
  /-- its copy of the pointer is not null, and the guard is not built yet -/
  pointer : Bool := false
  /-- its guard, by number -/
  guard : Option Nat := none
  logging : LogCall := .off
  deriving DecidableEq

/-- What is deleted or closed under the feet of others. -/
inductive SharedObject where
  | pool
  | logger
  | handle (conn : Handle)
  deriving DecidableEq

/-- What a guard that is built can do. -/
inductive GuardAct where
  | wake
  | timeOut
  | create (outcome : Creation)
  | use
  | leave
  | ping (alive : Bool)
  | recreate (outcome : Creation)
  | push
  deriving DecidableEq

namespace GuardAct

def act (who : Nat) : GuardAct → ConnectionPool.Act
  | wake => .wake who
  | timeOut => .timeOut who
  | create outcome => .create who outcome
  | use => .use who
  | leave => .leave who
  | ping alive => .ping who alive
  | recreate outcome => .recreate who outcome
  | push => .push who

/-- The objects of which a step reads or writes a part: the pool for the queue, the lock and
the data to connect with, and the handle of the guard for statements and pings. -/
def touches (held : List Handle) : GuardAct → List SharedObject
  | use | ping _ => held.map .handle
  | leave => []
  | wake | timeOut | create _ | recreate _ | push => [.pool]

end GuardAct

structure Shutdown where
  main : MainPhase
  db : ConnectionPool
  handlers : List RequestHandler
  misuses : List SharedObject

namespace Shutdown

inductive Act where
  | build (outcome : Creation)
  | loop
  | loopReturns
  | deletePool
  | nullPool
  | stopLogger
  | deleteLogger
  | nullLogger
  | join
  | request
  | readPointer (who : Nat)
  | buildGuard (who : Nat)
  | go (who : Nat) (a : GuardAct)
  | checkLogger (who : Nat)
  | lockLogger (who : Nat)
  | store (who : Nat)
  deriving DecidableEq

def gone (s : Shutdown) : SharedObject → Bool
  | .pool => !s.main.poolLives
  | .logger => !s.main.loggerLives
  | .handle conn => conn ∉ s.db.live

/-- A step that uses objects; it comes to an end only when all of them are there. -/
def touching (s : Shutdown) (objects : List SharedObject) (next : Shutdown) : Shutdown :=
  let missing := objects.filter s.gone
  if missing = [] then next else { s with misuses := s.misuses ++ missing }

def put (s : Shutdown) (who : Nat) (h : RequestHandler) : Shutdown :=
  { s with handlers := s.handlers.set who h }

/-- No handler has the pointer or a guard. -/
def PoolUnused (s : Shutdown) : Prop :=
  (∀ h ∈ s.handlers, h.pointer = false) ∧ ∀ g ∈ s.db.guards, g = .gone

def LoggerUnused (s : Shutdown) : Prop := ∀ h ∈ s.handlers, h.logging = .off

instance (s : Shutdown) : Decidable s.PoolUnused :=
  inferInstanceAs (Decidable ((∀ h ∈ s.handlers, h.pointer = false) ∧ ∀ g ∈ s.db.guards, g = .gone))

instance (s : Shutdown) : Decidable s.LoggerUnused :=
  inferInstanceAs (Decidable (∀ h ∈ s.handlers, h.logging = .off))

def advance (s : Shutdown) (before after : MainPhase) : Option Shutdown :=
  if s.main = before then some { s with main := after } else none

def step (s : Shutdown) : Act → Option Shutdown
  | .build outcome =>
    if s.main = .starting then (s.db.step (.build outcome)).map fun db => { s with db } else none
  | .loop => if s.db.unbuilt = 0 then s.advance .starting .looping else none
  | .loopReturns => s.advance .looping .returned
  | .deletePool =>
    if s.main = .returned then some { s with main := .poolDeleted, db := s.db.destroy } else none
  | .nullPool => s.advance .poolDeleted .poolNull
  | .stopLogger => s.advance .poolNull .loggerStopped
  | .deleteLogger => s.advance .loggerStopped .loggerDeleted
  | .nullLogger => s.advance .loggerDeleted .loggerNull
  | .join =>
    -- a thread is joined when its loop has returned, so when it runs no handler
    if s.PoolUnused ∧ s.LoggerUnused then s.advance .loggerNull .joined else none
  | .request =>
    if s.main = .starting ∨ s.main = .joined then none
    else some { s with handlers := s.handlers ++ [{}] }
  | .readPointer who =>
    match s.handlers[who]? with
    | some ⟨false, none, .off⟩ => some (s.put who ⟨s.main.poolPointer, none, .off⟩)
    | _ => none
  | .buildGuard who =>
    match s.handlers[who]? with
    | some ⟨true, none, .off⟩ =>
      (s.db.step .enter).map fun db =>
        s.touching [.pool] ({ s with db }.put who ⟨false, some s.db.guards.length, .off⟩)
    | _ => none
  | .go who a =>
    match s.handlers[who]? with
    | some ⟨_, some guard, .off⟩ =>
      let held := (s.db.guards[guard]?.map DBGuard.held).getD []
      (s.db.step (a.act guard)).map fun db => s.touching (a.touches held) { s with db }
    | _ => none
  | .checkLogger who =>
    match s.handlers[who]? with
    | some ⟨pointer, guard, .off⟩ =>
      some (s.put who ⟨pointer, guard, if s.main.loggerPointer then .checked else .off⟩)
    | _ => none
  | .lockLogger who =>
    match s.handlers[who]? with
    | some ⟨pointer, guard, .checked⟩ =>
      some (s.touching [.logger] (s.put who ⟨pointer, guard, .locked⟩))
    | _ => none
  | .store who =>
    match s.handlers[who]? with
    | some ⟨pointer, guard, .locked⟩ =>
      some (s.touching [.logger] (s.put who ⟨pointer, guard, .off⟩))
    | _ => none

def start (poolSize : Nat) : Shutdown :=
  { main := .starting, db := .start poolSize, handlers := [], misuses := [] }

abbrev exec : Shutdown → List Act → Option Shutdown := GuardedRuns.exec step

/-- The pool is deleted when nobody has its pointer, the logger when nobody is past the
check of its pointer, and no pointer is read between the deletion and its null. -/
def Orderly (s : Shutdown) : Act → Prop
  | .deletePool => s.PoolUnused
  | .readPointer _ => s.main ≠ .poolDeleted
  | .deleteLogger => s.LoggerUnused
  | .checkLogger _ => s.main ≠ .loggerDeleted
  | _ => True

instance (s : Shutdown) : (a : Act) → Decidable (s.Orderly a)
  | .deletePool => inferInstanceAs (Decidable s.PoolUnused)
  | .readPointer _ => inferInstanceAs (Decidable (s.main ≠ .poolDeleted))
  | .deleteLogger => inferInstanceAs (Decidable s.LoggerUnused)
  | .checkLogger _ => inferInstanceAs (Decidable (s.main ≠ .loggerDeleted))
  | .build _ | .loop | .loopReturns | .nullPool | .stopLogger | .nullLogger | .join | .request
  | .buildGuard _ | .go _ _ | .lockLogger _ | .store _ => .isTrue trivial

/-! ## Nobody is left behind -/

/-- What orderly steps keep: behind a deleted object there is no handler that could use it. -/
structure Safe (s : Shutdown) : Prop where
  accounted : s.db.Accounted
  pool : s.main.poolLives = false → s.PoolUnused
  logger : s.main.loggerLives = false → s.LoggerUnused
  clean : s.misuses = []

theorem touching_present {s next : Shutdown} {objects : List SharedObject}
    (present : ∀ o ∈ objects, s.gone o = false) : s.touching objects next = next := by
  have hnone : objects.filter s.gone = [] := by
    apply List.filter_eq_nil_iff.mpr
    intro o ho
    rw [present o ho]
    exact Bool.false_ne_true
  rw [touching, hnone]
  rfl

/-- The step of a guard is a step of the pool from a phase other than the last. -/
theorem guard_goes {db db' : ConnectionPool} {who : Nat} {a : GuardAct}
    (h : db.step (a.act who) = some db') : ∃ g g' pool fx, db.guards[who]? = some g ∧
      g ≠ .gone ∧ ConnectionPool.GoesOn db who (a.act who) g g' pool fx := by
  have hends : ∀ g g' pool fx b, ConnectionPool.GoesOn db who b g g' pool fx → g ≠ .gone := by
    intro g g' pool fx b hgoes
    cases hgoes <;> simp
  have hturn := ConnectionPool.step_turn h
  generalize hact : a.act who = b at hturn
  cases hturn with
  | build => cases a <;> cases hact
  | queue => cases a <;> cases hact
  | lend => cases a <;> cases hact
  | goOn other hg hgoes =>
    have hsame : other = who := by
      cases hgoes <;> cases a <;> simp [GuardAct.act] at hact <;> omega
    subst hsame
    exact ⟨_, _, _, _, hg, hends _ _ _ _ _ hgoes, hgoes⟩

/-- A guard that has not ended shows that the pool lives. -/
theorem pool_lives {s : Shutdown} (h : Safe s) {g : DBGuard} (guard : g ∈ s.db.guards)
    (inside : g ≠ .gone) : s.main.poolLives = true := by
  cases hlives : s.main.poolLives with
  | true => rfl
  | false => exact absurd ((h.pool hlives).2 g guard) inside

/-- So does a log call that is past its check show that the logger lives. -/
theorem logger_lives {s : Shutdown} (h : Safe s) {who : Nat} {handler : RequestHandler}
    (found : s.handlers[who]? = some handler) (inside : handler.logging ≠ .off) :
    s.main.loggerLives = true := by
  cases hlives : s.main.loggerLives with
  | true => rfl
  | false => exact absurd (h.logger hlives handler (List.mem_of_getElem? found)) inside

/-- A guard touches its own handle, which is live, or a pool that it knows. -/
theorem touches_present {s : Shutdown} (h : Safe s) {guard : Nat} {a : GuardAct}
    {db : ConnectionPool} (hgo : s.db.step (a.act guard) = some db) :
    ∀ o ∈ a.touches ((s.db.guards[guard]?.map DBGuard.held).getD []), s.gone o = false := by
  obtain ⟨g, g', pool, fx, hg, hends, -⟩ := guard_goes hgo
  rw [hg]
  have hmem : g ∈ s.db.guards := List.mem_of_getElem? hg
  have hpool : s.gone .pool = false := by
    simp [gone, pool_lives h hmem hends]
  have hhandle : ∀ conn ∈ g.held, s.gone (.handle conn) = false := by
    intro conn hconn
    have howned : conn ∈ s.db.owned :=
      List.mem_append_right _ (List.mem_flatMap.mpr ⟨g, hmem, hconn⟩)
    simp [gone, h.accounted.owners.mem_iff.mp howned]
  intro o ho
  cases a with
  | use =>
    obtain ⟨conn, hconn, rfl⟩ := List.mem_map.mp ho
    exact hhandle conn hconn
  | ping alive =>
    obtain ⟨conn, hconn, rfl⟩ := List.mem_map.mp ho
    exact hhandle conn hconn
  | leave => cases ho
  | wake => exact List.mem_singleton.mp ho ▸ hpool
  | timeOut => exact List.mem_singleton.mp ho ▸ hpool
  | create outcome => exact List.mem_singleton.mp ho ▸ hpool
  | recreate outcome => exact List.mem_singleton.mp ho ▸ hpool
  | push => exact List.mem_singleton.mp ho ▸ hpool

/-- The main thread goes on; what it deletes is unused. -/
theorem safe_main {s : Shutdown} (h : Safe s) {after : MainPhase} {db : ConnectionPool}
    (accounted : db.Accounted) (guards : db.guards = s.db.guards)
    (pool : after.poolLives = false → s.PoolUnused)
    (logger : after.loggerLives = false → s.LoggerUnused) :
    Safe { s with main := after, db } := by
  refine ⟨accounted, ?_, logger, h.clean⟩
  intro hlives
  obtain ⟨hpointers, hguards⟩ := pool hlives
  exact ⟨hpointers, by rw [guards]; exact hguards⟩

theorem safe_advance {s t : Shutdown} (h : Safe s) {before after : MainPhase}
    (hstep : s.advance before after = some t) (pool : after.poolLives = before.poolLives)
    (logger : after.loggerLives = before.loggerLives) : Safe t := by
  obtain ⟨rfl, hsome⟩ := Option.ite_none_right_eq_some.mp hstep
  obtain rfl := Option.some.inj hsome
  exact safe_main h h.accounted rfl (fun hp => h.pool (pool ▸ hp))
    (fun hl => h.logger (logger ▸ hl))

/-- Handlers that are new or have changed have nothing of what is deleted. -/
theorem safe_handlers {s : Shutdown} (h : Safe s) {handlers : List RequestHandler}
    (known : ∀ handler ∈ handlers, handler ∈ s.handlers ∨
      (s.main.poolLives = false → handler.pointer = false) ∧
        (s.main.loggerLives = false → handler.logging = .off)) : Safe { s with handlers } := by
  refine ⟨h.accounted, ?_, ?_, h.clean⟩
  · intro hlives
    obtain ⟨hpointers, hguards⟩ := h.pool hlives
    refine ⟨?_, hguards⟩
    intro handler hmem
    rcases known handler hmem with hold | ⟨hpointer, -⟩
    · exact hpointers handler hold
    · exact hpointer hlives
  · intro hlives handler hmem
    rcases known handler hmem with hold | ⟨-, hlogging⟩
    · exact h.logger hlives handler hold
    · exact hlogging hlives

/-- One handler changes; it may gain what still lives. -/
theorem safe_put {s : Shutdown} (h : Safe s) {who : Nat} {handler : RequestHandler}
    (pool : s.main.poolLives = false → handler.pointer = false)
    (logger : s.main.loggerLives = false → handler.logging = .off) :
    Safe (s.put who handler) := by
  apply safe_handlers h
  intro other hother
  rcases List.mem_or_eq_of_mem_set hother with hold | rfl
  · exact Or.inl hold
  · exact Or.inr ⟨pool, logger⟩

/-- A handler that is there has the pointer of the pool only while the pool lives. -/
theorem pointer_lives {s : Shutdown} (h : Safe s) {who : Nat} {handler : RequestHandler}
    (found : s.handlers[who]? = some handler) (hlives : s.main.poolLives = false) :
    handler.pointer = false :=
  (h.pool hlives).1 handler (List.mem_of_getElem? found)

/-- The pool changes while it lives. -/
theorem safe_db {s : Shutdown} (h : Safe s) {a : ConnectionPool.Act} {db : ConnectionPool}
    (lives : s.main.poolLives = true) (hdb : s.db.step a = some db) : Safe { s with db } := by
  refine ⟨ConnectionPool.accounted_step h.accounted hdb, ?_, h.logger, h.clean⟩
  intro hgone
  exact absurd (lives.symm.trans hgone) (by simp)

/-- Outside the gap between the deletion and the null, the pointer is null when the pool is
gone. -/
theorem poolPointer_gone {main : MainPhase} (gap : main ≠ .poolDeleted)
    (gone : main.poolLives = false) : main.poolPointer = false := by
  cases main with
  | poolDeleted => exact absurd rfl gap
  | starting | looping | returned => cases gone
  | poolNull | loggerStopped | loggerDeleted | loggerNull | joined => rfl

/-- So it is with the logger. -/
theorem loggerPointer_gone {main : MainPhase} (gap : main ≠ .loggerDeleted)
    (gone : main.loggerLives = false) : main.loggerPointer = false := by
  cases main with
  | loggerDeleted => exact absurd rfl gap
  | starting | looping | returned | poolDeleted | poolNull | loggerStopped => cases gone
  | loggerNull | joined => rfl

/-- A log call that is past its check goes on in a logger that lives. -/
theorem safe_logging {s : Shutdown} (h : Safe s) {who : Nat} {pointer : Bool}
    {guard : Option Nat} {logging : LogCall}
    (found : s.handlers[who]? = some ⟨pointer, guard, logging⟩) (inside : logging ≠ .off)
    (next : LogCall) : Safe (s.touching [.logger] (s.put who ⟨pointer, guard, next⟩)) := by
  have hpointer := pointer_lives h found
  have hlives := logger_lives h found inside
  rw [touching_present (by simp [gone, hlives])]
  exact safe_put h hpointer fun hgone => absurd (hlives.symm.trans hgone) (by simp)

theorem safe_step {s t : Shutdown} {a : Act} (h : Safe s) (orderly : s.Orderly a)
    (hstep : s.step a = some t) : Safe t := by
  cases a with
  | build outcome =>
    obtain ⟨hmain, hbuild⟩ := Option.ite_none_right_eq_some.mp hstep
    obtain ⟨db, hdb, rfl⟩ := Option.map_eq_some_iff.mp hbuild
    exact safe_db h (by rw [hmain]; rfl) hdb
  | loop =>
    obtain ⟨-, hadvance⟩ := Option.ite_none_right_eq_some.mp hstep
    exact safe_advance h hadvance rfl rfl
  | loopReturns => exact safe_advance h hstep rfl rfl
  | deletePool =>
    obtain ⟨hmain, hsome⟩ := Option.ite_none_right_eq_some.mp hstep
    obtain rfl := Option.some.inj hsome
    exact safe_main h (ConnectionPool.accounted_destroy h.accounted) rfl (fun _ => orderly)
      (fun hl => h.logger (by rw [hmain]; exact hl))
  | nullPool => exact safe_advance h hstep rfl rfl
  | stopLogger => exact safe_advance h hstep rfl rfl
  | deleteLogger =>
    obtain ⟨hmain, hsome⟩ := Option.ite_none_right_eq_some.mp hstep
    obtain rfl := Option.some.inj hsome
    exact safe_main h h.accounted rfl (fun hp => h.pool (by rw [hmain]; exact hp))
      (fun _ => orderly)
  | nullLogger => exact safe_advance h hstep rfl rfl
  | join =>
    obtain ⟨-, hadvance⟩ := Option.ite_none_right_eq_some.mp hstep
    exact safe_advance h hadvance rfl rfl
  | request =>
    obtain ⟨-, hsome⟩ := Option.ite_none_left_eq_some.mp hstep
    obtain rfl := Option.some.inj hsome
    apply safe_handlers h
    intro handler hmem
    rcases List.mem_append.mp hmem with hold | hnew
    · exact Or.inl hold
    · rw [List.mem_singleton.mp hnew]
      exact Or.inr ⟨fun _ => rfl, fun _ => rfl⟩
  | readPointer who =>
    simp only [step] at hstep
    split at hstep
    · obtain rfl := Option.some.inj hstep
      exact safe_put h (fun hgone => poolPointer_gone orderly hgone) fun _ => rfl
    · cases hstep
  | buildGuard who =>
    simp only [step] at hstep
    split at hstep
    · rename_i hhandler
      obtain ⟨db, hdb, rfl⟩ := Option.map_eq_some_iff.mp hstep
      have hlives : s.main.poolLives = true := by
        by_contra hgone
        have hpointer := pointer_lives h hhandler (Bool.eq_false_iff.mpr hgone)
        cases hpointer
      rw [touching_present (by simp [gone, hlives])]
      exact safe_put (safe_db h hlives hdb) (fun _ => rfl) (fun _ => rfl)
    · cases hstep
  | go who a =>
    simp only [step] at hstep
    split at hstep
    · obtain ⟨db, hdb, rfl⟩ := Option.map_eq_some_iff.mp hstep
      obtain ⟨g, -, -, -, hg, hends, -⟩ := guard_goes hdb
      rw [touching_present (touches_present h hdb)]
      exact safe_db h (pool_lives h (List.mem_of_getElem? hg) hends) hdb
    · cases hstep
  | checkLogger who =>
    simp only [step] at hstep
    split at hstep
    · rename_i hhandler
      have hpointer := pointer_lives h hhandler
      obtain rfl := Option.some.inj hstep
      refine safe_put h hpointer ?_
      intro hgone
      rw [loggerPointer_gone orderly hgone]
      rfl
    · cases hstep
  | lockLogger who =>
    simp only [step] at hstep
    split at hstep
    · obtain rfl := Option.some.inj hstep
      exact safe_logging h ‹_› (by simp) .locked
    · cases hstep
  | store who =>
    simp only [step] at hstep
    split at hstep
    · obtain rfl := Option.some.inj hstep
      exact safe_logging h ‹_› (by simp) .off
    · cases hstep

theorem safe_start (poolSize : Nat) : Safe (start poolSize) where
  accounted := ConnectionPool.accounted_start poolSize
  pool := fun h => by cases h
  logger := fun h => by cases h
  clean := rfl

/-- In an orderly run no handler uses the pool, a handle, or the logger behind its end. -/
theorem nothing_used_after_deletion {poolSize : Nat} {acts : List Act} {s : Shutdown}
    (run : exec (start poolSize) acts = some s)
    (orderly : GuardedRuns.Guarded step Orderly (start poolSize) acts) : s.misuses = [] :=
  (GuardedRuns.invariant_of_guarded Safe (fun _ _ _ h hok hstep => safe_step h hok hstep)
    (safe_start poolSize) orderly run).clean

/-- A request is answered, and then the server ends. -/
theorem nothing_used_after_deletion_late :
    let acts : List Act :=
      [.build (.connected 7), .loop, .request, .readPointer 0, .buildGuard 0, .go 0 .use,
        .checkLogger 0, .lockLogger 0, .store 0, .go 0 .leave, .go 0 (.ping true), .go 0 .push,
        .loopReturns, .deletePool, .nullPool, .request, .readPointer 1, .stopLogger,
        .deleteLogger, .nullLogger, .checkLogger 1, .join]
    ∃ s, exec (start 1) acts = some s ∧ s.main = .joined ∧ s.misuses = [] := by
  intro acts
  have hrun : (exec (start 1) acts).map (·.main) = some .joined := by decide +kernel
  obtain ⟨s, hs, hmain⟩ := Option.map_eq_some_iff.mp hrun
  exact ⟨s, hs, hmain, nothing_used_after_deletion hs (by decide +kernel)⟩

/-- The loop returns while a handler has a connection, and the pool is gone when the
connection is given back. -/
theorem connection_returned_to_deleted_pool :
    let acts : List Act :=
      [.build (.connected 7), .loop, .request, .readPointer 0, .buildGuard 0, .go 0 .use,
        .loopReturns, .deletePool, .nullPool, .go 0 .leave, .go 0 (.ping true), .go 0 .push]
    ∃ s, exec (start 1) acts = some s ∧ s.misuses = [.pool] := by
  intro acts
  have hrun : (exec (start 1) acts).map (·.misuses) = some [.pool] := by decide +kernel
  obtain ⟨s, hs, hmisuses⟩ := Option.map_eq_some_iff.mp hrun
  exact ⟨s, hs, hmisuses⟩

end Shutdown

end WebServer
