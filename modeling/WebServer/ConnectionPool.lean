import Mathlib.Algebra.Ring.Nat
import Mathlib.Data.List.Nodup
import Mathlib.Data.List.Perm.Basic
import WebServer.GuardedRuns
import WebServer.TraceAudit

/-!
# The pool of database connections

A guard takes a handle out of the pool when it is built and puts one back when it ends.
Taking and putting back hold the lock; creating, pinging and closing do not, and any other
guard may move meanwhile. A guard that waited in vain creates a handle of its own, and a
handle that does not answer the ping is closed and replaced. `mysql_init` may return the
address of a handle that was closed, but none that is live.

The record of the calls on handles is audited against the list of the live ones: it is the
pool and the handles of the guards, each of them once.
-/

namespace WebServer

/-- A `MYSQL*` that is not null. -/
abbrev Handle := Nat

/-- How `CreateConnection` ends. -/
inductive Creation where
  | initFailed
  | connectFailed (conn : Handle)
  | connected (conn : Handle)
  deriving DecidableEq

/-- What happens to a handle. -/
inductive HandleEvent where
  | created (conn : Handle)
  | lent (conn : Handle)
  | used (conn : Handle)
  | pinged (conn : Handle)
  | pooled (conn : Handle)
  | closed (conn : Handle)
  deriving DecidableEq

def HandleEvent.conn : HandleEvent → Handle
  | created conn | lent conn | used conn | pinged conn | pooled conn | closed conn => conn

namespace Creation

/-- What `mysql_init` returned. -/
def address : Creation → Option Handle
  | initFailed => none
  | connectFailed conn | connected conn => some conn

/-- What `CreateConnection` returns. -/
def result : Creation → Option Handle
  | connected conn => some conn
  | _ => none

def events : Creation → List HandleEvent
  | initFailed => []
  | connectFailed conn => [.created conn, .closed conn]
  | connected conn => [.created conn]

end Creation

/-- A `DBGuard` from its constructor to the end of its destructor. -/
inductive DBGuard where
  /-- in `GetConnection`, on the condition variable -/
  | waiting
  /-- timed out, the lock released -/
  | creating
  /-- built; null when no connection could be made -/
  | alive (conn : Option Handle)
  /-- in `ReturnConnection`, before the ping -/
  | returning (conn : Handle)
  /-- the ping failed and the handle is closed -/
  | recreating
  /-- before the lock that guards the push -/
  | pushing (conn : Handle)
  | gone
  deriving DecidableEq

/-- The handle that only this guard knows. -/
def DBGuard.held : DBGuard → List Handle
  | alive (some conn) | returning conn | pushing conn => [conn]
  | _ => []

/-- The handle that the guard will bring to the pool, at hand or to be created again. -/
def DBGuard.slots : DBGuard → Nat
  | alive conn => conn.toList.length
  | returning _ | recreating | pushing _ => 1
  | _ => 0

structure ConnectionPool where
  pool : List Handle
  guards : List DBGuard
  /-- turns that the loop of the constructor still has to make -/
  unbuilt : Nat
  log : List HandleEvent

namespace ConnectionPool

inductive Act where
  | build (outcome : Creation)
  | enter
  | wake (who : Nat)
  | timeOut (who : Nat)
  | create (who : Nat) (outcome : Creation)
  | use (who : Nat)
  | leave (who : Nat)
  | ping (who : Nat) (alive : Bool)
  | recreate (who : Nat) (outcome : Creation)
  | push (who : Nat)
  deriving DecidableEq

/-! ## Live handles -/

def noteHandle (live : List Handle) : HandleEvent → List Handle
  | .created conn => conn :: live
  | .closed conn => live.erase conn
  | _ => live

/-- A handle is created when it is not live and touched only when it is. -/
def permitsHandle (live : List Handle) : HandleEvent → Prop
  | .created conn => conn ∉ live
  | e => e.conn ∈ live

def live (s : ConnectionPool) : List Handle := TraceAudit.account noteHandle [] s.log

/-- The assumption about `mysql_init`. -/
def Unused (s : ConnectionPool) (outcome : Creation) : Prop :=
  ∀ conn, outcome.address = some conn → conn ∉ s.live

instance (s : ConnectionPool) (outcome : Creation) : Decidable (s.Unused outcome) :=
  match h : outcome.address with
  | none => .isTrue (by simp [Unused, h])
  | some conn => decidable_of_iff (conn ∉ s.live) (by simp [Unused, h])

/-! ## Steps -/

/-- The constructor with its `poolSize_` turns ahead. -/
def start (poolSize : Nat) : ConnectionPool :=
  { pool := [], guards := [], unbuilt := poolSize, log := [] }

/-- A guard goes on, with the pool and the calls it leaves behind. -/
def goOn (s : ConnectionPool) (who : Nat) (g : DBGuard) (pool : List Handle)
    (fx : List HandleEvent) : ConnectionPool :=
  { s with pool, guards := s.guards.set who g, log := s.log ++ fx }

def step (s : ConnectionPool) : Act → Option ConnectionPool
  | .build outcome =>
    if s.unbuilt ≠ 0 ∧ s.Unused outcome then
      let built := outcome.result.toList
      some { s with pool := s.pool ++ built, unbuilt := s.unbuilt - 1,
                    log := s.log ++ (outcome.events ++ built.map .pooled) }
    else none
  | .enter =>
    if s.unbuilt ≠ 0 then none
    else
      match s.pool with
      | [] => some { s with guards := s.guards ++ [.waiting] }
      | conn :: rest =>
        some { s with pool := rest, guards := s.guards ++ [.alive (some conn)],
                      log := s.log ++ [.lent conn] }
  | .wake who =>
    match s.guards[who]?, s.pool with
    | some .waiting, conn :: rest => some (s.goOn who (.alive (some conn)) rest [.lent conn])
    | _, _ => none
  | .timeOut who =>
    match s.guards[who]?, s.pool with
    | some .waiting, [] => some (s.goOn who .creating s.pool [])
    | _, _ => none
  | .create who outcome =>
    match s.guards[who]? with
    | some .creating =>
      if s.Unused outcome then
        some (s.goOn who (.alive outcome.result) s.pool
          (outcome.events ++ outcome.result.toList.map .lent))
      else none
    | _ => none
  | .use who =>
    match s.guards[who]? with
    | some (.alive (some conn)) => some (s.goOn who (.alive (some conn)) s.pool [.used conn])
    | _ => none
  | .leave who =>
    match s.guards[who]? with
    | some (.alive conn) => some (s.goOn who (conn.elim .gone .returning) s.pool [])
    | _ => none
  | .ping who alive =>
    match s.guards[who]? with
    | some (.returning conn) =>
      if alive then some (s.goOn who (.pushing conn) s.pool [.pinged conn])
      else some (s.goOn who .recreating s.pool [.pinged conn, .closed conn])
    | _ => none
  | .recreate who outcome =>
    match s.guards[who]? with
    | some .recreating =>
      if s.Unused outcome then
        some (s.goOn who (outcome.result.elim .gone .pushing) s.pool outcome.events)
      else none
    | _ => none
  | .push who =>
    match s.guards[who]? with
    | some (.pushing conn) => some (s.goOn who .gone (s.pool ++ [conn]) [.pooled conn])
    | _ => none

/-- The destructor closes what the pool holds at that moment. -/
def destroy (s : ConnectionPool) : ConnectionPool :=
  { s with pool := [], log := s.log ++ s.pool.map .closed }

abbrev exec : ConnectionPool → List Act → Option ConnectionPool := GuardedRuns.exec step

/-! ## What a step can do -/

/-- How one guard goes on: its phase before and after, the pool, and the calls. -/
inductive GoesOn (s : ConnectionPool) (who : Nat) :
    Act → DBGuard → DBGuard → List Handle → List HandleEvent → Prop where
  | wake (conn : Handle) (rest : List Handle) : s.pool = conn :: rest →
      GoesOn s who (.wake who) .waiting (.alive (some conn)) rest [.lent conn]
  | timeOut : GoesOn s who (.timeOut who) .waiting .creating s.pool []
  | create (outcome : Creation) : s.Unused outcome →
      GoesOn s who (.create who outcome) .creating (.alive outcome.result) s.pool
        (outcome.events ++ outcome.result.toList.map .lent)
  | use (conn : Handle) :
      GoesOn s who (.use who) (.alive (some conn)) (.alive (some conn)) s.pool [.used conn]
  | leave (conn : Option Handle) :
      GoesOn s who (.leave who) (.alive conn) (conn.elim .gone .returning) s.pool []
  | pong (conn : Handle) :
      GoesOn s who (.ping who true) (.returning conn) (.pushing conn) s.pool [.pinged conn]
  | lost (conn : Handle) :
      GoesOn s who (.ping who false) (.returning conn) .recreating s.pool
        [.pinged conn, .closed conn]
  | recreate (outcome : Creation) : s.Unused outcome →
      GoesOn s who (.recreate who outcome) .recreating (outcome.result.elim .gone .pushing) s.pool
        outcome.events
  | push (conn : Handle) :
      GoesOn s who (.push who) (.pushing conn) .gone (s.pool ++ [conn]) [.pooled conn]

inductive Turn (s : ConnectionPool) : Act → ConnectionPool → Prop where
  | build (outcome : Creation) : s.unbuilt ≠ 0 → s.Unused outcome →
      Turn s (.build outcome)
        { s with pool := s.pool ++ outcome.result.toList, unbuilt := s.unbuilt - 1,
                 log := s.log ++ (outcome.events ++ outcome.result.toList.map .pooled) }
  | queue : Turn s .enter { s with guards := s.guards ++ [.waiting] }
  | lend (conn : Handle) (rest : List Handle) : s.pool = conn :: rest →
      Turn s .enter { s with pool := rest, guards := s.guards ++ [.alive (some conn)],
                             log := s.log ++ [.lent conn] }
  | goOn (who : Nat) {a : Act} {g g' : DBGuard} {pool : List Handle} {fx : List HandleEvent} :
      s.guards[who]? = some g → GoesOn s who a g g' pool fx → Turn s a (s.goOn who g' pool fx)

theorem step_turn {s t : ConnectionPool} {a : Act} (h : s.step a = some t) : Turn s a t := by
  cases a with
  | build outcome =>
    obtain ⟨⟨hleft, hunused⟩, hsome⟩ := Option.ite_none_right_eq_some.mp h
    obtain rfl := Option.some.inj hsome
    exact .build outcome hleft hunused
  | enter =>
    obtain ⟨-, henter⟩ := Option.ite_none_left_eq_some.mp h
    split at henter
    · obtain rfl := Option.some.inj henter
      exact .queue
    · obtain rfl := Option.some.inj henter
      exact .lend _ _ ‹_›
  | wake who =>
    simp only [step] at h
    split at h
    · obtain rfl := Option.some.inj h
      exact .goOn who ‹_› (.wake _ _ ‹_›)
    · cases h
  | timeOut who =>
    simp only [step] at h
    split at h
    · obtain rfl := Option.some.inj h
      exact .goOn who ‹_› .timeOut
    · cases h
  | create who outcome =>
    simp only [step] at h
    split at h
    · obtain ⟨hunused, hsome⟩ := Option.ite_none_right_eq_some.mp h
      obtain rfl := Option.some.inj hsome
      exact .goOn who ‹_› (.create outcome hunused)
    · cases h
  | use who =>
    simp only [step] at h
    split at h
    · obtain rfl := Option.some.inj h
      exact .goOn who ‹_› (.use _)
    · cases h
  | leave who =>
    simp only [step] at h
    split at h
    · obtain rfl := Option.some.inj h
      exact .goOn who ‹_› (.leave _)
    · cases h
  | ping who alive =>
    simp only [step] at h
    split at h
    · cases alive with
      | true =>
        obtain rfl := Option.some.inj h
        exact .goOn who ‹_› (.pong _)
      | false =>
        obtain rfl := Option.some.inj h
        exact .goOn who ‹_› (.lost _)
    · cases h
  | recreate who outcome =>
    simp only [step] at h
    split at h
    · obtain ⟨hunused, hsome⟩ := Option.ite_none_right_eq_some.mp h
      obtain rfl := Option.some.inj hsome
      exact .goOn who ‹_› (.recreate outcome hunused)
    · cases h
  | push who =>
    simp only [step] at h
    split at h
    · obtain rfl := Option.some.inj h
      exact .goOn who ‹_› (.push _)
    · cases h

/-! ## One owner for each live handle -/

/-- The pool and what the guards hold. -/
def owned (s : ConnectionPool) : List Handle := s.pool ++ s.guards.flatMap DBGuard.held

/-- Changing one entry of a list, seen from its other entries. -/
theorem perm_set {α : Type*} {l : List α} {i : Nat} {a : α} (h : l[i]? = some a) (b : α) :
    ∃ rest, l.Perm (a :: rest) ∧ (l.set i b).Perm (b :: rest) := by
  obtain ⟨hi, rfl⟩ := List.getElem?_eq_some_iff.mp h
  exact ⟨l.eraseIdx i, (List.getElem_cons_eraseIdx_perm hi).symm, List.set_perm_cons_eraseIdx hi b⟩

theorem live_append (live : List Handle) (outcome : Creation) :
    TraceAudit.account noteHandle live outcome.events = outcome.result.toList ++ live := by
  cases outcome with
  | initFailed => rfl
  | connectFailed conn =>
    have herase : (conn :: live).erase conn = live := List.erase_cons_head conn live
    exact herase
  | connected conn => rfl

theorem sound_creation {live : List Handle} {outcome : Creation}
    (h : ∀ conn, outcome.address = some conn → conn ∉ live) :
    TraceAudit.Sound noteHandle permitsHandle live outcome.events := by
  cases outcome with
  | initFailed => trivial
  | connectFailed conn => exact ⟨h conn rfl, List.mem_cons_self, trivial⟩
  | connected conn => exact ⟨h conn rfl, trivial⟩

/-- Permitted events never make a handle live twice. -/
theorem nodup_account {live : List Handle} {fx : List HandleEvent} (h : live.Nodup)
    (sound : TraceAudit.Sound noteHandle permitsHandle live fx) :
    (TraceAudit.account noteHandle live fx).Nodup := by
  induction fx generalizing live with
  | nil => exact h
  | cons e rest ih =>
    refine ih ?_ sound.2
    cases e with
    | created conn => exact List.nodup_cons.mpr ⟨sound.1, h⟩
    | closed conn => exact h.erase conn
    | lent conn => exact h
    | used conn => exact h
    | pinged conn => exact h
    | pooled conn => exact h

/-- The live handles are the owned ones, each once, and no call was on another handle. -/
structure Accounted (s : ConnectionPool) : Prop where
  owners : s.owned.Perm s.live
  nodup : s.live.Nodup
  sound : TraceAudit.Sound noteHandle permitsHandle [] s.log

/-- The events of a turn, and the owners behind it. -/
theorem accounted_after {s t : ConnectionPool} (h : Accounted s) {fx : List HandleEvent}
    (log : t.log = s.log ++ fx) (sound : TraceAudit.Sound noteHandle permitsHandle s.live fx)
    (owners : t.owned.Perm (TraceAudit.account noteHandle s.live fx)) : Accounted t := by
  have hlive : t.live = TraceAudit.account noteHandle s.live fx := by
    rw [live, log, TraceAudit.account_append]
    rfl
  refine ⟨hlive ▸ owners, hlive ▸ nodup_account h.nodup sound, ?_⟩
  rw [log, TraceAudit.sound_append]
  exact ⟨h.sound, sound⟩

/-- Events that end with handles being lent or pooled, right after their creation. -/
theorem sound_handing {live : List Handle} {outcome : Creation}
    (h : ∀ conn, outcome.address = some conn → conn ∉ live) (hand : Handle → HandleEvent)
    (quiet : ∀ conn live, noteHandle live (hand conn) = live)
    (permits : ∀ conn live, conn ∈ live → permitsHandle live (hand conn)) :
    TraceAudit.Sound noteHandle permitsHandle live
        (outcome.events ++ outcome.result.toList.map hand) ∧
      TraceAudit.account noteHandle live (outcome.events ++ outcome.result.toList.map hand) =
        outcome.result.toList ++ live := by
  rw [TraceAudit.sound_append, TraceAudit.account_append, live_append]
  cases hresult : outcome.result with
  | none => exact ⟨⟨sound_creation h, trivial⟩, rfl⟩
  | some conn =>
    exact ⟨⟨sound_creation h, permits conn _ List.mem_cons_self, trivial⟩, quiet conn _⟩

/-- What one guard and the pool own together, before and after. -/
theorem goesOn_balance {s : ConnectionPool} {who : Nat} {a : Act} {g g' : DBGuard}
    {pool : List Handle} {fx : List HandleEvent} (h : GoesOn s who a g g' pool fx)
    {rest : List Handle} (owners : (s.pool ++ (g.held ++ rest)).Perm s.live) :
    TraceAudit.Sound noteHandle permitsHandle s.live fx ∧
      (pool ++ (g'.held ++ rest)).Perm (TraceAudit.account noteHandle s.live fx) := by
  have hmem : ∀ conn ∈ s.pool ++ (g.held ++ rest), conn ∈ s.live := fun conn => owners.mem_iff.mp
  cases h with
  | wake conn pool hpool =>
    rw [hpool] at owners hmem
    refine ⟨⟨hmem conn (by simp), trivial⟩, ?_⟩
    exact List.perm_middle.trans owners
  | timeOut => exact ⟨trivial, owners⟩
  | create outcome hunused =>
    obtain ⟨hsound, hlive⟩ := sound_handing hunused .lent (fun _ _ => rfl) (fun _ _ h => h)
    refine ⟨hsound, ?_⟩
    rw [hlive]
    cases outcome.result with
    | none => exact owners
    | some conn => exact List.perm_middle.trans (owners.cons conn)
  | use conn => exact ⟨⟨hmem conn (by simp [DBGuard.held]), trivial⟩, owners⟩
  | leave conn =>
    cases conn with
    | none => exact ⟨trivial, owners⟩
    | some conn => exact ⟨trivial, owners⟩
  | pong conn => exact ⟨⟨hmem conn (by simp [DBGuard.held]), trivial⟩, owners⟩
  | lost conn =>
    have hlive : conn ∈ s.live := hmem conn (by simp [DBGuard.held])
    refine ⟨⟨hlive, hlive, trivial⟩, ?_⟩
    have hfront : (conn :: (s.pool ++ rest)).Perm s.live := List.perm_middle.symm.trans owners
    have herase := hfront.erase conn
    rw [List.erase_cons_head] at herase
    exact herase
  | recreate outcome hunused =>
    refine ⟨sound_creation hunused, ?_⟩
    rw [live_append]
    cases outcome.result with
    | none => exact owners
    | some conn => exact List.perm_middle.trans (owners.cons conn)
  | push conn =>
    refine ⟨⟨hmem conn (by simp [DBGuard.held]), trivial⟩, ?_⟩
    rw [List.append_assoc]
    exact owners

theorem accounted_step {s t : ConnectionPool} {a : Act} (h : Accounted s)
    (hstep : s.step a = some t) : Accounted t := by
  cases step_turn hstep with
  | build outcome hleft hunused =>
    obtain ⟨hsound, hlive⟩ := sound_handing hunused .pooled (fun _ _ => rfl) (fun _ _ h => h)
    refine accounted_after h rfl hsound ?_
    rw [hlive, owned, List.append_assoc]
    exact (List.perm_append_comm_assoc _ _ _).trans (h.owners.append_left _)
  | queue =>
    have hguards : (s.guards ++ [DBGuard.waiting]).flatMap DBGuard.held =
        s.guards.flatMap DBGuard.held := by
      simp [DBGuard.held]
    refine accounted_after h (List.append_nil _).symm trivial ?_
    rw [owned, hguards]
    exact h.owners
  | lend conn rest hpool =>
    have howners := h.owners
    rw [owned, hpool] at howners
    refine accounted_after h rfl ⟨howners.mem_iff.mp List.mem_cons_self, trivial⟩ ?_
    have hlast : (rest ++ (s.guards.flatMap DBGuard.held ++ [conn])).Perm
        (conn :: (rest ++ s.guards.flatMap DBGuard.held)) := by
      rw [← List.append_assoc]
      exact List.perm_append_singleton _ _
    have hguards : (s.guards ++ [DBGuard.alive (some conn)]).flatMap DBGuard.held =
        s.guards.flatMap DBGuard.held ++ [conn] := by
      simp [DBGuard.held]
    rw [owned, hguards]
    exact hlast.trans howners
  | goOn who hg hgoes =>
    obtain ⟨others, hold, hnew⟩ := perm_set hg _
    have hbefore := (hold.flatMap fun g _ => List.Perm.refl g.held).symm
    have hafter := hnew.flatMap fun g _ => List.Perm.refl g.held
    obtain ⟨hsound, hbalance⟩ :=
      goesOn_balance hgoes ((hbefore.append_left s.pool).trans h.owners)
    exact accounted_after h rfl hsound ((hafter.append_left _).trans hbalance)

/-- What the pool no longer holds is closed, and the guards keep theirs. -/
theorem accounted_destroy {s : ConnectionPool} (h : Accounted s) : Accounted s.destroy := by
  have hclose : ∀ (pool live : List Handle), (pool ++ s.guards.flatMap DBGuard.held).Perm live →
      TraceAudit.Sound noteHandle permitsHandle live (pool.map .closed) ∧
        (s.guards.flatMap DBGuard.held).Perm
          (TraceAudit.account noteHandle live (pool.map .closed)) := by
    intro pool
    induction pool with
    | nil => exact fun live howners => ⟨trivial, howners⟩
    | cons conn rest ih =>
      intro live howners
      have herase := howners.erase conn
      rw [List.cons_append, List.erase_cons_head] at herase
      obtain ⟨hsound, hrest⟩ := ih _ herase
      exact ⟨⟨howners.mem_iff.mp List.mem_cons_self, hsound⟩, hrest⟩
  obtain ⟨hsound, hguards⟩ := hclose s.pool s.live h.owners
  exact accounted_after h rfl hsound hguards

theorem accounted_start (poolSize : Nat) : Accounted (start poolSize) :=
  ⟨.nil, .nil, trivial⟩

/-! ## What the owners see -/

/-- No handle has two owners, and none is touched between its end and a new beginning. -/
structure SingleOwner (s : ConnectionPool) : Prop where
  pooled : s.pool.Nodup
  apart : ∀ g ∈ s.guards, ∀ conn ∈ g.held, conn ∉ s.pool
  alone : ∀ (who who' : Nat) (g g' : DBGuard) (conn : Handle), s.guards[who]? = some g →
    s.guards[who']? = some g' → conn ∈ g.held → conn ∈ g'.held → who = who'
  closed : ∀ (conn : Handle) (before middle after : List HandleEvent) (e : HandleEvent),
    s.log = before ++ .closed conn :: (middle ++ e :: after) → .created conn ∉ middle →
    e.conn = conn → e = .created conn

/-- Only its creation makes a handle live. -/
theorem not_live_after {conn : Handle} {live : List Handle} {fx : List HandleEvent}
    (h : conn ∉ live) (never : .created conn ∉ fx) :
    conn ∉ TraceAudit.account noteHandle live fx := by
  induction fx generalizing live with
  | nil => exact h
  | cons e rest ih =>
    obtain ⟨hne, hrest⟩ := not_or.mp (fun h' => never (List.mem_cons.mpr h'))
    refine ih ?_ hrest
    cases e with
    | created c =>
      intro hmem
      rcases List.mem_cons.mp hmem with rfl | hold
      · exact hne rfl
      · exact h hold
    | closed c => exact fun hmem => h (List.mem_of_mem_erase hmem)
    | lent c => exact h
    | used c => exact h
    | pinged c => exact h
    | pooled c => exact h

theorem permitted_live {live : List Handle} {e : HandleEvent} (h : permitsHandle live e)
    (notCreated : e ≠ .created e.conn) : e.conn ∈ live := by
  cases e with
  | created c => exact absurd rfl notCreated
  | closed c => exact h
  | lent c => exact h
  | used c => exact h
  | pinged c => exact h
  | pooled c => exact h

theorem untouched_after_close {log : List HandleEvent}
    (sound : TraceAudit.Sound noteHandle permitsHandle [] log) (conn : Handle)
    (before middle after : List HandleEvent) (e : HandleEvent)
    (split : log = before ++ .closed conn :: (middle ++ e :: after))
    (never : .created conn ∉ middle) (same : e.conn = conn) : e = .created conn := by
  rw [split, TraceAudit.sound_append] at sound
  obtain ⟨hbefore, hclose, hrest⟩ := sound
  have hdead : conn ∉ (TraceAudit.account noteHandle [] before).erase conn :=
    (nodup_account .nil hbefore).not_mem_erase
  have hpermits := TraceAudit.sound_at hrest
  by_contra hne
  have hlive := permitted_live hpermits (same.symm ▸ hne)
  rw [same] at hlive
  exact not_live_after hdead never hlive

theorem singleOwner_of_accounted {s : ConnectionPool} (h : Accounted s) : SingleOwner s := by
  have hnodup : s.owned.Nodup := h.owners.nodup_iff.mpr h.nodup
  obtain ⟨hpool, hguards, hdisjoint⟩ := List.nodup_append.mp hnodup
  refine ⟨hpool, ?_, ?_, untouched_after_close h.sound⟩
  · intro g hg conn hconn hmem
    exact hdisjoint conn hmem conn (List.mem_flatMap.mpr ⟨g, hg, hconn⟩) rfl
  · intro who who' g g' conn hg hg' hconn hconn'
    obtain ⟨-, hpairs⟩ := List.nodup_flatMap.mp hguards
    obtain ⟨hlt, rfl⟩ := List.getElem?_eq_some_iff.mp hg
    obtain ⟨hlt', rfl⟩ := List.getElem?_eq_some_iff.mp hg'
    rw [List.pairwise_iff_getElem] at hpairs
    rcases Nat.lt_trichotomy who who' with hless | hsame | hmore
    · exact absurd hconn' (hpairs who who' hlt hlt' hless hconn)
    · exact hsame
    · exact absurd hconn (hpairs who' who hlt' hlt hmore hconn')

/-- In every run, whatever the waits, the pings and the connects come to, each handle has at
most one owner, and a closed one is left alone. -/
theorem handles_single_owner {poolSize : Nat} {acts : List Act} {s : ConnectionPool}
    (run : exec (start poolSize) acts = some s) : SingleOwner s :=
  singleOwner_of_accounted (GuardedRuns.invariant_of_run Accounted
    (fun _ _ _ h hstep => accounted_step h hstep) (accounted_start poolSize) run)

/-- An address that comes back, and a handle of a guard that timed out. -/
theorem handles_single_owner_reused :
    let acts : List Act :=
      [.build (.connected 7), .enter, .enter, .use 0, .timeOut 1, .create 1 (.connected 9),
        .leave 0, .ping 0 false, .recreate 0 (.connected 7), .push 0, .leave 1, .ping 1 true,
        .push 1]
    ∃ s, exec (start 1) acts = some s ∧ s.pool = [7, 9] ∧ SingleOwner s := by
  intro acts
  have hrun : (exec (start 1) acts).map (·.pool) = some [7, 9] := by decide +kernel
  obtain ⟨s, hs, hpool⟩ := Option.map_eq_some_iff.mp hrun
  exact ⟨s, hs, hpool, handles_single_owner hs⟩

/-! ## The size of the pool -/

/-- No guard is alive and no call of the pool is under way. -/
structure Quiet (s : ConnectionPool) : Prop where
  built : s.unbuilt = 0
  gone : ∀ g ∈ s.guards, g = .gone

/-- What the pool will hold when all guards have ended and every handle is created. -/
def slots (s : ConnectionPool) : Nat :=
  s.pool.length + (s.guards.map DBGuard.slots).sum + s.unbuilt

/-- A guard that timed out made a handle of its own. -/
def Act.extra : Act → Nat
  | .create _ outcome => outcome.result.toList.length
  | _ => 0

/-- A handle of the constructor, or one to replace a dead handle, could not be made. -/
def Act.missed : Act → Nat
  | .build outcome | .recreate _ outcome => 1 - outcome.result.toList.length
  | _ => 0

theorem goesOn_slots {s : ConnectionPool} {who : Nat} {a : Act} {g g' : DBGuard}
    {pool : List Handle} {fx : List HandleEvent} (h : GoesOn s who a g g' pool fx) :
    pool.length + g'.slots + a.missed = s.pool.length + g.slots + a.extra := by
  cases h with
  | wake conn rest hpool =>
    rw [hpool]
    simp [DBGuard.slots, Act.missed, Act.extra]
  | timeOut => rfl
  | create outcome _ => simp [DBGuard.slots, Act.missed, Act.extra]
  | use conn => rfl
  | leave conn => cases conn <;> rfl
  | pong conn => rfl
  | lost conn => rfl
  | recreate outcome _ =>
    simp only [Act.missed, Act.extra]
    cases outcome.result <;> rfl
  | push conn =>
    simp [DBGuard.slots, Act.missed, Act.extra]

theorem slots_step {s t : ConnectionPool} {a : Act} (hstep : s.step a = some t) :
    t.slots + a.missed = s.slots + a.extra := by
  cases step_turn hstep with
  | build outcome hleft _ =>
    simp only [slots, Act.missed, Act.extra, List.length_append]
    cases outcome.result <;> simp <;> omega
  | queue => simp [slots, DBGuard.slots, Act.missed, Act.extra]
  | lend conn rest hpool =>
    simp only [slots, hpool, Act.missed, Act.extra, List.map_append, List.sum_append,
      List.length_cons, List.map_cons, List.map_nil, List.sum_cons, List.sum_nil, DBGuard.slots,
      Option.toList_some, List.length_nil]
    omega
  | @goOn who _ _ g' _ _ hg hgoes =>
    have hslots := goesOn_slots hgoes
    obtain ⟨others, hold, hnew⟩ := perm_set hg g'
    have hbefore := (hold.map DBGuard.slots).sum_nat
    have hafter := (hnew.map DBGuard.slots).sum_nat
    rw [List.map_cons, List.sum_cons] at hbefore hafter
    simp only [slots, goOn, hbefore, hafter]
    omega

theorem slots_quiet {s : ConnectionPool} (h : s.Quiet) : s.slots = s.pool.length := by
  have hnone : (s.guards.map DBGuard.slots).sum = 0 := by
    apply List.sum_eq_zero_iff_forall_eq_nat.mpr
    intro n hn
    obtain ⟨g, hg, rfl⟩ := List.mem_map.mp hn
    rw [h.gone g hg]
    rfl
  rw [slots, hnone, h.built]
  rfl

/-- When all is quiet the pool holds at most its size exactly if the guards that timed out
have made no more handles than the constructor and the failed reconnects have lost. -/
theorem pool_within_iff {poolSize : Nat} {acts : List Act} {s : ConnectionPool}
    (run : exec (start poolSize) acts = some s) (quiet : s.Quiet) :
    s.pool.length ≤ poolSize ↔
      GuardedRuns.total Act.extra acts ≤ GuardedRuns.total Act.missed acts := by
  have hbalance : s.slots + GuardedRuns.total Act.missed acts =
      (start poolSize).slots + GuardedRuns.total Act.extra acts :=
    GuardedRuns.balance_of_run (fun _ _ _ hstep => slots_step hstep) run
  have hstart : (start poolSize).slots = poolSize := by
    simp [slots, start]
  rw [slots_quiet quiet, hstart] at hbalance
  omega

instance (s : ConnectionPool) : Decidable s.Quiet :=
  decidable_of_iff (s.unbuilt = 0 ∧ ∀ g ∈ s.guards, g = .gone)
    ⟨fun h => ⟨h.1, h.2⟩, fun h => ⟨h.built, h.gone⟩⟩

/-- One extra handle makes up for one that the constructor could not make. -/
theorem pool_within_made_up :
    let acts : List Act :=
      [.build (.connected 7), .build .initFailed, .enter, .enter, .timeOut 1,
        .create 1 (.connected 9), .leave 0, .ping 0 true, .push 0, .leave 1, .ping 1 true, .push 1]
    ∃ s, exec (start 2) acts = some s ∧ s.Quiet ∧ s.pool.length ≤ 2 := by
  intro acts
  have hrun : (exec (start 2) acts).map (fun s => decide s.Quiet) = some true := by decide +kernel
  obtain ⟨s, hs, hquiet⟩ := Option.map_eq_some_iff.mp hrun
  exact ⟨s, hs, of_decide_eq_true hquiet,
    (pool_within_iff hs (of_decide_eq_true hquiet)).mpr (by decide)⟩

/-- One guard waits in vain behind another, and a pool of one ends with two handles. -/
theorem pool_outgrows_size :
    let acts : List Act :=
      [.build (.connected 7), .enter, .enter, .timeOut 1, .create 1 (.connected 9), .leave 0,
        .ping 0 true, .push 0, .leave 1, .ping 1 true, .push 1]
    ∃ s, exec (start 1) acts = some s ∧ s.Quiet ∧ s.pool = [7, 9] := by
  intro acts
  have hrun : (exec (start 1) acts).map (fun s => (decide s.Quiet, s.pool)) =
      some (true, [7, 9]) := by
    decide +kernel
  obtain ⟨s, hs, hparts⟩ := Option.map_eq_some_iff.mp hrun
  obtain ⟨hquiet, hpool⟩ := Prod.mk.inj hparts
  exact ⟨s, hs, of_decide_eq_true hquiet, hpool⟩

end ConnectionPool

end WebServer
