import WebServer.DescriptorOwnership
import WebServer.DrivenStates
import WebServer.ProjectedRuns

/-!
# From epoll to the handlers

An epoll instance keeps, for each descriptor, the events asked for and a pointer to a channel,
and gives the pointer back with the events. The loop calls the callbacks of that channel one
after another. Nothing ever takes a descriptor out of the instance: closing it does. Whether
the pointer is still good, whether `EPOLL_CTL_ADD` and `EPOLL_CTL_MOD` succeed, and whether
the connection still wants the event, depends on what happened since.

A channel is named by the accept it was made for. Its use after the connection has gone is
recorded, and so is a call of `epoll_ctl` that fails.
-/

namespace WebServer

open KeyedList Connection

/-- The entry of a descriptor: `ev.data.ptr` and the events asked for. -/
structure EpollEvent where
  channel : Nat
  input : Bool
  output : Bool
  deriving DecidableEq

structure Revents where
  input : Bool
  output : Bool
  hangup : Bool
  deriving DecidableEq

/-- The callbacks that `HandleEvent` calls, in their order. -/
def Revents.handleEvent (e : Revents) : List IoEvent :=
  if e.hangup then [.hangup]
  else (if e.input then [.input] else []) ++ if e.output then [.output] else []

/-- A callback that the loop has still to call for the last `epoll_wait`. -/
structure Notice where
  channel : Nat
  event : IoEvent
  deriving DecidableEq

/-- The server with the epoll instances of its loops. -/
structure Dispatch where
  server : Server
  interest : Nat → Dict Int EpollEvent := fun _ => .empty
  notices : Nat → List Notice := fun _ => []
  failures : List Int := []
  dangling : List Nat := []

namespace Dispatch

inductive Act where
  | accept (loop : Nat) (fd : Int)
  | wait (loop : Nat) (ready : List (Int × Revents))
  | callback (loop : Nat) (env : Env) (arrival : Arrival) (sends files : Transfers)
  | expire (loop : Nat) (fd : Int)
  | swap (loop : Nat)
  | run (loop : Nat) (env : Env) (sends : Transfers)
  | destroy (loop : Nat)

def maxEvents : Nat := 1024

/-- The events of a channel, as `AddChannel` and `ModChannel` pass them. -/
def entry (who : Nat) (ch : Channel) : EpollEvent := ⟨who, ch.epollIn, ch.epollOut⟩

/-- The descriptors that a step of the server has closed. -/
def closedFds (before after : Server) : List Int :=
  (after.log.drop before.log.length).filterMap fun | .closed _ fd => some fd | _ => none

def setInterest (s : Dispatch) (l : Nat) (d : Dict Int EpollEvent) : Dispatch :=
  { s with interest := Function.update s.interest l d }

def setNotices (s : Dispatch) (l : Nat) (ns : List Notice) : Dispatch :=
  { s with notices := Function.update s.notices l ns }

/-- The server has gone on. A closed descriptor leaves every epoll instance. -/
def advance (s : Dispatch) (t : Server) : Dispatch :=
  { s with
    server := t
    interest := fun l => (closedFds s.server t).foldl Dict.erase (s.interest l) }

/-- `EPOLL_CTL_ADD` fails on a descriptor that is there. -/
def addChannel (s : Dispatch) (l : Nat) (fd : Int) (r : EpollEvent) : Dispatch :=
  match (s.interest l).find fd with
  | none => s.setInterest l ((s.interest l).insert fd r)
  | some _ => { s with failures := s.failures ++ [fd] }

/-- `EPOLL_CTL_MOD` fails on a descriptor that is not. -/
def modChannel (s : Dispatch) (l : Nat) (fd : Int) (r : EpollEvent) : Dispatch :=
  match (s.interest l).find fd with
  | none => { s with failures := s.failures ++ [fd] }
  | some _ => s.setInterest l ((s.interest l).insert fd r)

/-- `UpdateChannel` of a connection that has just run a handler. -/
def updateChannel (s : Dispatch) (who : Nat) (updated : Bool) : Dispatch :=
  match s.server.live.find who with
  | none => s
  | some m => if updated then s.modChannel m.home m.conn.fd (entry who m.conn.channel) else s

/-- A handler runs, and goes through `UpdateChannel` or not. -/
def handle (s : Dispatch) (who : Nat) (m : Shared) (out : Connection × List Effect)
    (updated : Bool) : Dispatch :=
  (s.advance (s.server.perform who m out)).updateChannel who updated

/-- What an entry and the events reported for it make the loop call. -/
def noticesOf (d : Dict Int EpollEvent) (p : Int × Revents) : List Notice :=
  (d.find p.1).elim [] fun r => p.2.handleEvent.map fun e => ⟨r.channel, e⟩

/-- What `epoll_wait` may report for a descriptor. -/
def Reportable (d : Dict Int EpollEvent) (p : Int × Revents) : Prop :=
  (d.find p.1).any fun r => (!p.2.input || r.input) && (!p.2.output || r.output)

instance (d : Dict Int EpollEvent) (p : Int × Revents) : Decidable (Reportable d p) :=
  inferInstanceAs (Decidable (_ = true))

/-- The first callback that is left: through the pointer, to the connection. -/
def callback (s : Dispatch) (n : Notice) (env : Env) (arrival : Arrival)
    (sends files : Transfers) : Dispatch :=
  match s.server.live.find n.channel with
  | none => { s with dangling := s.dangling ++ [n.channel] }
  | some m =>
    match n.event with
    | .input => s.handle n.channel m (m.conn.handleRead env arrival) false
    | .output => s.handle n.channel m (m.conn.handleWrite sends files)
        (m.conn.handleWriteTraffic sends files).updated
    | .hangup => s.handle n.channel m m.conn.handleClose false

/-- A functor has run on the loop. -/
def afterFunctor (s : Dispatch) (l : Nat) (sends : Transfers) (t : Server) : Dispatch :=
  match (s.server.loops l).batch with
  | .call who cb :: _ => (s.advance t).updateChannel who
      ((s.server.live.find who).any fun m => (m.conn.callTraffic cb sends).updated)
  | _ => s.advance t

def step (s : Dispatch) : Act → Option Dispatch
  | .accept l fd =>
    (s.server.step (.accept l fd)).map fun t =>
      (t.live.find s.server.accepts).elim (s.advance t) fun m =>
        (s.advance t).addChannel l fd (entry s.server.accepts m.conn.channel)
  | .wait l ready =>
    if (s.server.loops l).idle ∧ s.notices l = [] ∧ ready.length ≤ maxEvents ∧
        (ready.map (·.1)).Nodup ∧ ∀ p ∈ ready, Reportable (s.interest l) p then
      some (s.setNotices l (ready.flatMap (noticesOf (s.interest l)))) else none
  | .callback l env arrival sends files =>
    match s.notices l with
    | [] => none
    | n :: rest => some ((s.setNotices l rest).callback n env arrival sends files)
  | .expire l fd =>
    if s.notices l = [] then (s.server.step (.expire l fd)).map s.advance else none
  | .swap l => if s.notices l = [] then (s.server.step (.swap l)).map s.advance else none
  | .run l env sends =>
    if s.notices l = [] then
      (s.server.step (.run l env sends)).map (s.afterFunctor l sends) else none
  | .destroy l => if s.notices l = [] then (s.server.step (.destroy l)).map s.advance else none

/-- The step that the server makes, as far as it makes one. -/
def serverActs (s : Dispatch) : Act → List ServerAct
  | .accept l fd => [.accept l fd]
  | .wait _ _ => []
  | .callback l env arrival sends files =>
    match s.notices l with
    | [] => []
    | n :: _ =>
      match n.event with
      | .input => [.readable n.channel env arrival]
      | .output => [.writable n.channel sends files]
      | .hangup => [.hangup n.channel]
  | .expire l fd => [.expire l fd]
  | .swap l => [.swap l]
  | .run l env sends => [.run l env sends]
  | .destroy l => [.destroy l]

end Dispatch

/-! ## Connections that leave -/

namespace Server

/-- Some connections of one loop have gone, with their descriptors closed; nothing that concerns
the others has changed. -/
structure Departs (s : Server) (l : Nat) (t : Server) : Prop where
  live : ∀ who m, t.live.find who = some m → s.live.find who = some m
  home : ∀ who m, s.live.find who = some m → t.live.find who = none → m.home = l
  log : ∃ es, t.log = s.log ++ es ∧ ∀ who fd, .closed who fd ∈ es ↔
    ∃ m, s.live.find who = some m ∧ m.conn.fd = fd ∧ t.live.find who = none
  others : ∀ k, k ≠ l → (t.loops k).batch = (s.loops k).batch ∧ (t.loops k).ran = (s.loops k).ran

section
variable {s t u : Server} {l : Nat}

theorem departs_same (live : t.live = s.live) (log : t.log = s.log)
    (others : ∀ k, k ≠ l → t.loops k = s.loops k) : Departs s l t := by
  constructor
  case live => exact fun who m hm => live ▸ hm
  case home =>
    intro who m hm hnone
    rw [live, hm] at hnone
    cases hnone
  case log =>
    refine ⟨[], by rw [log, List.append_nil], ?_⟩
    intro who fd
    refine iff_of_false (List.not_mem_nil) ?_
    rintro ⟨m, hm, -, hnone⟩
    rw [live, hm] at hnone
    cases hnone
  case others =>
    intro k hk
    rw [others k hk]
    exact ⟨rfl, rfl⟩

theorem departs_setLoop (s : Server) (l : Nat) (loop : EventLoop) :
    Departs s l (s.setLoop l loop) :=
  departs_same rfl rfl fun _ hk => loops_setLoop_ne s hk loop

theorem departs_trans (h : Departs s l t) (h' : Departs t l u) : Departs s l u := by
  constructor
  case live => exact fun who m hm => h.live who m (h'.live who m hm)
  case home =>
    intro who m hm hnone
    cases ht : t.live.find who with
    | none => exact h.home who m hm ht
    | some m' =>
      obtain rfl : m = m' := Option.some.inj (hm.symm.trans (h.live who m' ht))
      exact h'.home who m ht hnone
  case log =>
    obtain ⟨es, hes, hclosed⟩ := h.log
    obtain ⟨es', hes', hclosed'⟩ := h'.log
    refine ⟨es ++ es', by rw [hes', hes, List.append_assoc], ?_⟩
    intro who fd
    rw [List.mem_append, hclosed, hclosed']
    constructor
    · rintro (⟨m, hm, hfd, hnone⟩ | ⟨m, hm, hfd, hnone⟩)
      · refine ⟨m, hm, hfd, ?_⟩
        cases hu : u.live.find who with
        | none => rfl
        | some m' =>
          have ht := h'.live who m' hu
          rw [hnone] at ht
          cases ht
      · exact ⟨m, h.live who m hm, hfd, hnone⟩
    · rintro ⟨m, hm, hfd, hnone⟩
      cases ht : t.live.find who with
      | none => exact .inl ⟨m, hm, hfd, rfl⟩
      | some m' =>
        obtain rfl : m = m' := Option.some.inj (hm.symm.trans (h.live who m' ht))
        exact .inr ⟨m, rfl, hfd, hnone⟩
  case others =>
    intro k hk
    obtain ⟨hbatch, hran⟩ := h.others k hk
    obtain ⟨hbatch', hran'⟩ := h'.others k hk
    exact ⟨hbatch'.trans hbatch, hran'.trans hran⟩

/-- An entry of the record that closes nothing. -/
theorem departs_record (s : Server) (l : Nat) {e : ServerEffect}
    (other : ∀ who fd, e ≠ .closed who fd) : Departs s l (s.record e) := by
  refine ⟨fun _ _ hm => hm, ?_, ⟨[e], rfl, ?_⟩, fun _ _ => ⟨rfl, rfl⟩⟩
  · intro who m hm hnone
    have hsame : s.live.find who = none := hnone
    rw [hm] at hsame
    cases hsame
  · intro who fd
    refine iff_of_false ?_ ?_
    · intro hmem
      exact other who fd (List.mem_singleton.mp hmem).symm
    · rintro ⟨m, hm, -, hnone⟩
      have hsame : s.live.find who = none := hnone
      rw [hm] at hsame
      cases hsame

theorem departs_release {who : Nat} {m : Shared} (found : s.live.find who = some m)
    (home : m.home = l) : Departs s l (s.release who m) := by
  have hlive : ∀ k, (s.release who m).live.find k = (s.live.erase who).find k := fun _ => rfl
  constructor
  case live =>
    intro k m' hm'
    exact Dict.find_of_erase hm'
  case home =>
    intro k m' hm' hnone
    by_cases hk : k = who
    · subst hk
      obtain rfl := Option.some.inj (found.symm.trans hm')
      exact home
    · rw [hlive, Dict.find_erase_ne _ hk, hm'] at hnone
      cases hnone
  case log =>
    refine ⟨[.closed who m.conn.fd,
      if (s.loops m.home).pool.objects.length < ObjectPool.maxSize then .pooled m.object
      else .deleted m.object], ?_, ?_⟩
    · simp [release, record, setLoop]
    · intro k fd
      constructor
      · intro hmem
        have hclosed : ServerEffect.closed k fd = .closed who m.conn.fd := by
          rcases List.mem_cons.mp hmem with heq | hkept
          · exact heq
          · have heq := List.mem_singleton.mp hkept
            split at heq
            · cases heq
            · cases heq
        obtain ⟨rfl, rfl⟩ := ServerEffect.closed.inj hclosed
        exact ⟨m, found, rfl, Dict.find_erase_self _ _⟩
      · rintro ⟨m', hm', hfd, hnone⟩
        by_cases hk : k = who
        · subst hk
          obtain rfl := Option.some.inj (found.symm.trans hm')
          rw [hfd]
          exact List.mem_cons_self
        · rw [hlive, Dict.find_erase_ne _ hk, hm'] at hnone
          cases hnone
  case others =>
    intro k hk
    rw [release, loops_record, loops_record, loops_setLoop_ne _ (home ▸ hk)]
    exact ⟨rfl, rfl⟩

theorem departs_drop {who : Nat} (home : ∀ m, s.live.find who = some m → m.home = l) :
    Departs s l (s.drop who) := by
  have hend := drop_end s who
  generalize s.drop who = t at hend ⊢
  cases hend with
  | kept => exact departs_same rfl rfl fun _ _ => rfl
  | released m hfind => exact departs_release hfind (home m hfind)

theorem departs_drops (h : Departs s l t) {whos : List Nat}
    (home : ∀ who ∈ whos, ∀ m, s.live.find who = some m → m.home = l) :
    Departs s l (whos.foldl drop t) := by
  induction whos generalizing t with
  | nil => exact h
  | cons who whos ih =>
    obtain ⟨hfirst, hrest⟩ := List.forall_mem_cons.mp home
    refine ih (departs_trans h (departs_drop ?_)) hrest
    exact fun m hm => hfirst m (h.live who m hm)

theorem departs_elim_drop (h : Departs s l t) {who : Option Nat}
    (home : ∀ k, who = some k → ∀ m, s.live.find k = some m → m.home = l) :
    Departs s l (who.elim t t.drop) := by
  cases who with
  | none => exact h
  | some k =>
    refine departs_trans h (departs_drop ?_)
    exact fun m hm => home k rfl m (h.live k m hm)

theorem departs_erase (hc : s.Consistent) (h : Departs s l t) {fd : Int} (whom : Nat)
    (registered : (t.loops l).connections = (s.loops l).connections) :
    Departs s l (t.erase l fd whom) := by
  have hforgot : Departs s l (record (t.setLoop l { t.loops l with
      connections := (t.loops l).connections.erase fd })
      (.erased l fd whom ((t.loops l).connections.find fd))) :=
    departs_trans (departs_trans h (departs_setLoop t l _)) (departs_record _ l fun _ _ => nofun)
  have hremoved : ∀ who, (t.loops l).connections.find fd = some who →
      ∀ m, s.live.find who = some m → m.home = l := by
    intro who hwho m hm
    rw [registered] at hwho
    obtain ⟨m', hm', hhome, -⟩ := hc.registered l fd who hwho
    obtain rfl := Option.some.inj (hm.symm.trans hm')
    exact hhome
  exact departs_elim_drop hforgot fun who hwho => hremoved who hwho

/-- A server step that concerns one loop and calls no handler. -/
theorem departs_run (hc : s.Consistent) {f : LoopFunctor} {rest : List LoopFunctor}
    (silent : f.self = none) (env : Env) (sends : Transfers) :
    Departs s l ((s.take l f rest).runFunctor l env sends f) := by
  have htaken : Departs s l (s.take l f rest) := departs_setLoop s l _
  cases f with
  | call who cb => cases silent
  | timeout fd who => exact departs_trans htaken (departs_setLoop _ l _)
  | erase fd who =>
    refine departs_erase hc htaken who ?_
    rw [take, loops_setLoop_self]

theorem departs_destroy (hc : s.Consistent) : Departs s l (s.destroy l) := by
  refine departs_drops (departs_setLoop s l _) ?_
  intro who hwho m hm
  obtain ⟨f, hf, hself⟩ := List.mem_filterMap.mp hwho
  have hmem : f ∈ (s.loops l).functors :=
    List.mem_append_left _ (List.mem_append_left _ hf)
  have hrefers := hc.functors l f hmem
  cases f with
  | call k cb =>
    obtain rfl := Option.some.inj hself
    obtain ⟨m', hm', hhome⟩ := hrefers
    obtain rfl := Option.some.inj (hm.symm.trans hm')
    exact hhome
  | timeout => cases hself
  | erase => cases hself

end

end Server

namespace Dispatch

/-! ## The invariant -/

/-- Each live connection has its own entry at its own loop, with its own events, and there are
no other entries. -/
def Registered (s : Dispatch) : Prop :=
  ∀ l fd r, (s.interest l).find fd = some r ↔ ∃ m, s.server.live.find r.channel = some m ∧
    m.home = l ∧ m.conn.fd = fd ∧ r = entry r.channel m.conn.channel

/-- A callback that is left leads to a live connection of the loop that wants the event, and
no other is left behind the one that writes. -/
structure Dispatchable (s : Dispatch) : Prop where
  consistent : s.server.Consistent
  registered : s.Registered
  idle : ∀ l, s.notices l ≠ [] → (s.server.loops l).batch = [] ∧ (s.server.loops l).ran = []
  noticed : ∀ l, ∀ n ∈ s.notices l, ∃ m, s.server.live.find n.channel = some m ∧ m.home = l ∧
    (n.event = .output → m.conn.channel.epollOut = true)
  once : ∀ l, (s.notices l).Pairwise fun n n' => n.event = .output → n'.channel ≠ n.channel
  clean : s.failures = [] ∧ s.dangling = []

theorem find_erases (fds : List Int) (d : Dict Int EpollEvent) (fd : Int) :
    (fds.foldl Dict.erase d).find fd = if fd ∈ fds then none else d.find fd := by
  induction fds generalizing d with
  | nil => rfl
  | cons fd' fds ih =>
    rw [List.foldl_cons, ih]
    by_cases hrest : fd ∈ fds
    · rw [if_pos hrest, if_pos (List.mem_cons_of_mem _ hrest)]
    · rw [if_neg hrest]
      by_cases hfd : fd = fd'
      · rw [hfd, Dict.find_erase_self, if_pos List.mem_cons_self]
      · have hnone : fd ∉ fd' :: fds := by
          rw [List.mem_cons]
          exact not_or.mpr ⟨hfd, hrest⟩
        rw [Dict.find_erase_ne _ hfd, if_neg hnone]

theorem mem_closedFds {s t : Server} {es : List ServerEffect} (log : t.log = s.log ++ es)
    (fd : Int) : fd ∈ closedFds s t ↔ ∃ who, .closed who fd ∈ es := by
  rw [closedFds, log, List.drop_left, List.mem_filterMap]
  constructor
  · rintro ⟨e, he, hfd⟩
    cases e with
    | closed who fd' =>
      obtain rfl := Option.some.inj hfd
      exact ⟨who, he⟩
    | accepted | erased | pooled | deleted => cases hfd
  · rintro ⟨who, he⟩
    exact ⟨_, he, rfl⟩

theorem advance_open (s : Dispatch) {t : Server} {es : List ServerEffect}
    (log : t.log = s.server.log ++ es) (opened : ∀ who fd, .closed who fd ∉ es) :
    s.advance t = { s with server := t } := by
  have hnone : closedFds s.server t = [] := by
    refine List.eq_nil_iff_forall_not_mem.mpr ?_
    intro fd hmem
    obtain ⟨who, hwho⟩ := (mem_closedFds log fd).mp hmem
    exact opened who fd hwho
  rw [advance, hnone]
  rfl

theorem advance_same (s : Dispatch) {t : Server} (log : t.log = s.server.log) :
    s.advance t = { s with server := t } :=
  advance_open s (log.trans (List.append_nil _).symm) fun _ _ => List.not_mem_nil

theorem notices_setNotices (s : Dispatch) (l k : Nat) (ns : List Notice) :
    (s.setNotices l ns).notices k = if k = l then ns else s.notices k :=
  Function.update_apply s.notices l ns k

theorem advance_through (s : Dispatch) {t : Server} (log : t.log = s.server.log) (u : Server) :
    advance { s with server := t } u = s.advance u := by
  simp only [advance, closedFds, log]

section
variable {s : Dispatch} {t : Server} {l : Nat}

/-- What leaves takes its entry with it. -/
theorem registered_departs (hc : s.server.Consistent) (h : s.Registered)
    (departs : s.server.Departs l t) : (s.advance t).Registered := by
  obtain ⟨es, hes, hclosed⟩ := departs.log
  intro k fd r
  show ((closedFds s.server t).foldl Dict.erase (s.interest k)).find fd = some r ↔ _
  rw [find_erases]
  constructor
  · intro hfind
    split at hfind
    · cases hfind
    · next hopen =>
      obtain ⟨m, hm, hhome, hfd, hr⟩ := (h k fd r).mp hfind
      refine ⟨m, ?_, hhome, hfd, hr⟩
      cases ht : t.live.find r.channel with
      | none =>
        have hgone := (hclosed r.channel fd).mpr ⟨m, hm, hfd, ht⟩
        exact absurd ((mem_closedFds hes fd).mpr ⟨_, hgone⟩) hopen
      | some m' => exact ht.trans ((departs.live _ m' ht).symm.trans hm)
  · rintro ⟨m, hm, hhome, hfd, hr⟩
    have hold := departs.live _ m hm
    have hopen : fd ∉ closedFds s.server t := by
      intro hmem
      obtain ⟨who, hwho⟩ := (mem_closedFds hes fd).mp hmem
      obtain ⟨m', hm', hfd', hnone⟩ := (hclosed who fd).mp hwho
      have hsame := hc.distinct who r.channel m' m hm' hold (hfd'.trans hfd.symm)
      rw [hsame] at hnone
      exact absurd (hnone.symm.trans hm) nofun
    rw [if_neg hopen]
    exact (h k fd r).mpr ⟨m, hold, hhome, hfd, hr⟩

/-- After connections of a loop without notices have left. -/
theorem dispatchable_departs (h : s.Dispatchable) (hc : t.Consistent) (quiet : s.notices l = [])
    (departs : s.server.Departs l t) : (s.advance t).Dispatchable := by
  have hother : ∀ k, s.notices k ≠ [] → k ≠ l := by
    rintro k hk rfl
    exact hk quiet
  refine ⟨hc, registered_departs h.consistent h.registered departs, ?_, ?_, h.once, h.clean⟩
  · intro k hk
    obtain ⟨hbatch, hran⟩ := departs.others k (hother k hk)
    obtain ⟨hbatch', hran'⟩ := h.idle k hk
    exact ⟨hbatch.trans hbatch', hran.trans hran'⟩
  · intro k n hn
    obtain ⟨m, hm, hhome, hwants⟩ := h.noticed k n hn
    refine ⟨m, ?_, hhome, hwants⟩
    cases ht : t.live.find n.channel with
    | none =>
      have hl := departs.home _ m hm ht
      exact absurd (hhome.symm.trans hl) (hother k (List.ne_nil_of_mem hn))
    | some m' => exact ht.trans ((departs.live _ m' ht).symm.trans hm)

/-- What a handler leaves: its connection has changed, and only that entry with it. -/
structure Handled (s : Dispatch) (who : Nat) (m : Shared) (out : Connection × List Effect)
    (t : Dispatch) : Prop where
  server : t.server = s.server.perform who m out
  interest : ∀ l fd, (t.interest l).find fd = if l = m.home ∧ fd = m.conn.fd then
    some (entry who out.1.channel) else (s.interest l).find fd
  notices : t.notices = s.notices
  clean : t.failures = s.failures ∧ t.dangling = s.dangling

theorem handled_handle (h : s.Registered) {who : Nat} {m : Shared}
    (found : s.server.live.find who = some m) {out : Connection × List Effect}
    (stays : out.1.fd = m.conn.fd) {updated : Bool}
    (unset : updated = false → out.1.channel = m.conn.channel) :
    Handled s who m out (s.handle who m out updated) := by
  have hentry : (s.interest m.home).find m.conn.fd = some (entry who m.conn.channel) :=
    (h m.home m.conn.fd (entry who m.conn.channel)).mpr ⟨m, found, rfl, rfl, rfl⟩
  have hadvance : s.advance (s.server.perform who m out) =
      { s with server := s.server.perform who m out } := advance_same s rfl
  cases updated with
  | false =>
    have hsame : s.handle who m out false = { s with server := s.server.perform who m out } := by
      simp [handle, hadvance, updateChannel]
    rw [hsame]
    refine ⟨rfl, ?_, rfl, rfl, rfl⟩
    intro l fd
    by_cases hown : l = m.home ∧ fd = m.conn.fd
    · rw [if_pos hown, unset rfl, hown.1, hown.2]
      exact hentry
    · rw [if_neg hown]
  | true =>
    have hset : s.handle who m out true = setInterest
        { s with server := s.server.perform who m out } m.home
        ((s.interest m.home).insert m.conn.fd (entry who out.1.channel)) := by
      simp [handle, hadvance, updateChannel, modChannel, stays, hentry]
    rw [hset]
    refine ⟨rfl, ?_, rfl, rfl, rfl⟩
    intro l fd
    by_cases hl : l = m.home
    · subst hl
      have hupdate : (setInterest { s with server := s.server.perform who m out } m.home
          ((s.interest m.home).insert m.conn.fd (entry who out.1.channel))).interest m.home =
          (s.interest m.home).insert m.conn.fd (entry who out.1.channel) :=
        Function.update_self _ _ _
      rw [hupdate, Dict.find_insert]
      by_cases hfd : fd = m.conn.fd
      · rw [if_pos hfd, if_pos ⟨rfl, hfd⟩]
      · rw [if_neg hfd, if_neg (fun hown => hfd hown.2)]
    · have hupdate : (setInterest { s with server := s.server.perform who m out } m.home
          ((s.interest m.home).insert m.conn.fd (entry who out.1.channel))).interest l =
          s.interest l := Function.update_of_ne hl _ _
      rw [hupdate, if_neg (fun hown => hl hown.1)]

theorem registered_handled (hc : s.server.Consistent) (h : s.Registered) {who : Nat} {m : Shared}
    (found : s.server.live.find who = some m) {out : Connection × List Effect}
    (stays : out.1.fd = m.conn.fd) {t : Dispatch} (handled : Handled s who m out t) :
    t.Registered := by
  have hlive : ∀ k, t.server.live.find k = if k = who then some { m with conn := out.1 }
      else s.server.live.find k := by
    intro k
    rw [handled.server, Server.live_perform, Dict.find_insert]
  intro l fd r
  rw [handled.interest, hlive]
  by_cases hwho : r.channel = who
  · rw [if_pos hwho, hwho]
    constructor
    · intro hfind
      split at hfind
      · next hown =>
        obtain rfl := Option.some.inj hfind
        exact ⟨_, rfl, hown.1.symm, stays.trans hown.2.symm, rfl⟩
      · next hown =>
        obtain ⟨m', hm', hhome, hfd, -⟩ := (h l fd r).mp hfind
        rw [hwho] at hm'
        obtain rfl := Option.some.inj (found.symm.trans hm')
        exact absurd ⟨hhome.symm, hfd.symm⟩ hown
    · rintro ⟨m', hm', hhome, hfd, hr⟩
      obtain rfl := Option.some.inj hm'
      rw [if_pos ⟨hhome.symm, hfd.symm.trans stays⟩, hr]
  · rw [if_neg hwho, ← h l fd r]
    by_cases hown : l = m.home ∧ fd = m.conn.fd
    · rw [if_pos hown]
      refine iff_of_false ?_ ?_
      · intro heq
        exact hwho (congrArg EpollEvent.channel (Option.some.inj heq)).symm
      · intro hfind
        obtain ⟨m', hm', -, hfd, -⟩ := (h l fd r).mp hfind
        exact hwho (hc.distinct _ _ m' m hm' found (hfd.trans hown.2))
    · rw [if_neg hown]

/-- One callback fewer. -/
theorem dispatchable_rest (h : s.Dispatchable) {n : Notice} {rest : List Notice}
    (hnotices : s.notices l = n :: rest) : (s.setNotices l rest).Dispatchable := by
  have hsub : ∀ k, ∃ front, s.notices k = front ++ (s.setNotices l rest).notices k := by
    intro k
    rw [notices_setNotices]
    by_cases hk : k = l
    · rw [if_pos hk, hk, hnotices]
      exact ⟨[n], rfl⟩
    · rw [if_neg hk]
      exact ⟨[], rfl⟩
  refine ⟨h.consistent, h.registered, ?_, ?_, ?_, h.clean⟩
  · intro k hk
    obtain ⟨front, hfront⟩ := hsub k
    refine h.idle k ?_
    rw [hfront]
    exact fun hnil => hk (List.append_eq_nil_iff.mp hnil).2
  · intro k n' hn'
    obtain ⟨front, hfront⟩ := hsub k
    exact h.noticed k n' (hfront ▸ List.mem_append_right front hn')
  · intro k
    obtain ⟨front, hfront⟩ := hsub k
    have hall := h.once k
    rw [hfront] at hall
    exact (List.pairwise_append.mp hall).2.1

theorem loops_perform_same (s : Server) (who : Nat) (m : Shared)
    (out : Connection × List Effect) (k : Nat) :
    ((s.perform who m out).loops k).batch = (s.loops k).batch ∧
      ((s.perform who m out).loops k).ran = (s.loops k).ran := by
  rw [Server.loops_perform, Server.queueInLoop]
  rcases Server.loops_setLoop s m.home k { s.loops m.home with
    pending := (s.loops m.home).pending ++ functorsOf who out.2 } with ⟨rfl, hloop⟩ | hloop
  · rw [hloop]
    exact ⟨rfl, rfl⟩
  · rw [hloop]
    exact ⟨rfl, rfl⟩

/-- After a handler that leaves its connection what the callbacks behind it want. -/
theorem dispatchable_handled (h : s.Dispatchable) {who : Nat} {m : Shared}
    (found : s.server.live.find who = some m) {out : Connection × List Effect}
    (stays : Stays m.conn out) (buffers : BuffersWf out.1)
    (keeps : ∀ n ∈ s.notices m.home, n.channel = who → n.event = .output →
      out.1.channel.epollOut = true) {u : Dispatch} (handled : Handled s who m out u) :
    u.Dispatchable := by
  refine ⟨?_, registered_handled h.consistent h.registered found stays.fd handled, ?_, ?_, ?_, ?_⟩
  · rw [handled.server]
    exact Server.consistent_perform h.consistent found stays buffers
  · intro k hk
    rw [handled.notices] at hk
    obtain ⟨hbatch, hran⟩ := loops_perform_same s.server who m out k
    rw [handled.server, hbatch, hran]
    exact h.idle k hk
  · intro k n hn
    rw [handled.notices] at hn
    obtain ⟨m', hm', hhome, hwants⟩ := h.noticed k n hn
    rw [handled.server, Server.live_perform, Dict.find_insert]
    by_cases hwho : n.channel = who
    · rw [if_pos hwho]
      rw [hwho] at hm'
      obtain rfl := Option.some.inj (found.symm.trans hm')
      exact ⟨_, rfl, hhome, fun hout => keeps n (hhome ▸ hn) hwho hout⟩
    · rw [if_neg hwho]
      exact ⟨m', hm', hhome, hwants⟩
  · rw [handled.notices]
    exact h.once
  · rw [handled.clean.1, handled.clean.2]
    exact h.clean

/-! ## The steps -/

/-- `epoll_wait` hands out pointers of live connections, for events that they want. -/
theorem noticed_reported (h : s.Dispatchable) {p : Int × Revents}
    (reportable : Reportable (s.interest l) p) {n : Notice}
    (reported : n ∈ noticesOf (s.interest l) p) :
    ∃ m, s.server.live.find n.channel = some m ∧ m.home = l ∧ m.conn.fd = p.1 ∧
      (n.event = .output → m.conn.channel.epollOut = true) := by
  cases hfind : (s.interest l).find p.1 with
  | none => simp [noticesOf, hfind] at reported
  | some r =>
    simp only [noticesOf, hfind, Option.elim_some, List.mem_map] at reported
    obtain ⟨e, he, rfl⟩ := reported
    obtain ⟨m, hm, hhome, hfd, hr⟩ := (h.registered l p.1 r).mp hfind
    refine ⟨m, hm, hhome, hfd, ?_⟩
    rintro rfl
    have hallowed : (!p.2.input || r.input) = true ∧ (!p.2.output || r.output) = true := by
      simpa [Reportable, hfind] using reportable
    have hout : p.2.output = true := by
      by_contra hnone
      by_cases hhangup : p.2.hangup = true
      · simp [Revents.handleEvent, hhangup] at he
      · by_cases hin : p.2.input = true
        · simp [Revents.handleEvent, hhangup, hin, hnone] at he
        · simp [Revents.handleEvent, hhangup, hin, hnone] at he
    have hwanted : r.output = true := by
      simpa [hout] using hallowed.2
    rw [hr] at hwanted
    exact hwanted

/-- The callback that writes is the last of its entry. -/
theorem once_reported (d : Dict Int EpollEvent) (p : Int × Revents) :
    (noticesOf d p).Pairwise fun n n' => n.event = .output → n'.channel ≠ n.channel := by
  cases hfind : d.find p.1 with
  | none => simp [noticesOf, hfind]
  | some r =>
    simp only [noticesOf, hfind, Option.elim_some, List.pairwise_map, Revents.handleEvent]
    by_cases hhangup : p.2.hangup = true
    · simp [hhangup]
    · by_cases hin : p.2.input = true
      · by_cases hout : p.2.output = true
        · simp [hhangup, hin, hout]
        · simp [hhangup, hin, hout]
      · by_cases hout : p.2.output = true
        · simp [hhangup, hin, hout]
        · simp [hhangup, hin, hout]

theorem dispatchable_wait (h : s.Dispatchable) (hidle : (s.server.loops l).idle = true)
    {ready : List (Int × Revents)} (distinct : (ready.map (·.1)).Nodup)
    (reportable : ∀ p ∈ ready, Reportable (s.interest l) p) :
    (s.setNotices l (ready.flatMap (noticesOf (s.interest l)))).Dispatchable := by
  refine ⟨h.consistent, h.registered, ?_, ?_, ?_, h.clean⟩
  · intro k hk
    rw [notices_setNotices] at hk
    by_cases hkl : k = l
    · subst hkl
      exact of_decide_eq_true hidle
    · rw [if_neg hkl] at hk
      exact h.idle k hk
  · intro k n hn
    rw [notices_setNotices] at hn
    by_cases hkl : k = l
    · subst hkl
      rw [if_pos rfl] at hn
      obtain ⟨p, hp, hreported⟩ := List.mem_flatMap.mp hn
      obtain ⟨m, hm, hhome, -, hwants⟩ := noticed_reported h (reportable p hp) hreported
      exact ⟨m, hm, hhome, hwants⟩
    · rw [if_neg hkl] at hn
      exact h.noticed k n hn
  · intro k
    rw [notices_setNotices]
    by_cases hkl : k = l
    · rw [if_pos hkl]
      refine List.pairwise_flatMap.mpr ⟨fun p _ => once_reported _ p, ?_⟩
      have hpairs : ready.Pairwise fun p q => p.1 ≠ q.1 := List.pairwise_map.mp distinct
      refine List.Pairwise.imp_of_mem ?_ hpairs
      intro p q hp hq hne n hn n' hn' _ hsame
      obtain ⟨m, hm, -, hfd, -⟩ := noticed_reported h (reportable p hp) hn
      obtain ⟨m', hm', -, hfd', -⟩ := noticed_reported h (reportable q hq) hn'
      rw [hsame] at hm'
      obtain rfl := Option.some.inj (hm.symm.trans hm')
      exact hne (hfd.symm.trans hfd')
    · rw [if_neg hkl]
      exact h.once k

/-- A callback runs a handler of a live connection that may run it. -/
theorem dispatchable_callback (h : s.Dispatchable) {n : Notice} {rest : List Notice}
    (hnotices : s.notices l = n :: rest) (env : Env) (arrival : Arrival)
    (sends files : Transfers) :
    ((s.setNotices l rest).callback n env arrival sends files).Dispatchable ∧
      ∃ b, serverActs s (.callback l env arrival sends files) = [b] ∧
        s.server.step b =
          some ((s.setNotices l rest).callback n env arrival sends files).server := by
  have hmem : n ∈ s.notices l := hnotices ▸ List.mem_cons_self
  obtain ⟨m, hm, hhome, hwants⟩ := h.noticed l n hmem
  have hrest := dispatchable_rest h hnotices
  have hbuffers := h.consistent.buffers _ m hm
  have hidle : (s.server.loops m.home).idle = true := by
    rw [hhome]
    exact decide_eq_true (h.idle l (List.ne_nil_of_mem hmem))
  have hfound : (s.setNotices l rest).server.live.find n.channel = some m := hm
  -- a notice behind this one for the same connection wants what it still has
  have hlater : ∀ n' ∈ (s.setNotices l rest).notices m.home, n'.channel = n.channel →
      n'.event = .output → m.conn.channel.epollOut = true := by
    intro n' hn' hsame hout
    obtain ⟨m', hm', -, hwants'⟩ := hrest.noticed m.home n' hn'
    rw [hsame] at hm'
    obtain rfl := Option.some.inj (hfound.symm.trans hm')
    exact hwants' hout
  cases hevent : n.event with
  | input =>
    have hchannel := handleRead_channel hbuffers env arrival
    have hhandled : Handled (s.setNotices l rest) n.channel m (m.conn.handleRead env arrival)
        ((s.setNotices l rest).handle n.channel m (m.conn.handleRead env arrival) false) :=
      handled_handle hrest.registered hfound (stays_handleRead hbuffers env arrival).fd
        (fun _ => hchannel)
    have hcall : (s.setNotices l rest).callback n env arrival sends files =
        (s.setNotices l rest).handle n.channel m (m.conn.handleRead env arrival) false := by
      simp only [callback, hfound, hevent]
    rw [hcall]
    refine ⟨dispatchable_handled hrest hfound (stays_handleRead hbuffers env arrival)
      (buffersWf_handleRead hbuffers env arrival) ?_ hhandled, .readable n.channel env arrival,
      by simp only [serverActs, hnotices, hevent], ?_⟩
    · intro n' hn' hsame hout
      rw [hchannel]
      exact hlater n' hn' hsame hout
    · rw [hhandled.server]
      simp [Server.step, Server.dispatch, hm, hidle, setNotices]
  | output =>
    have hhandled := handled_handle hrest.registered hfound
      (stays_handleWrite hbuffers sends files).fd (fun hunset => handleWrite_channel hunset)
    have hcall : (s.setNotices l rest).callback n env arrival sends files =
        (s.setNotices l rest).handle n.channel m (m.conn.handleWrite sends files)
          (m.conn.handleWriteTraffic sends files).updated := by
      simp only [callback, hfound, hevent]
    rw [hcall]
    refine ⟨dispatchable_handled hrest hfound (stays_handleWrite hbuffers sends files)
      (buffersWf_handleWrite hbuffers sends files) ?_ hhandled, .writable n.channel sends files,
      by simp only [serverActs, hnotices, hevent], ?_⟩
    · intro n' hn' hsame
      have hrests : (s.setNotices l rest).notices m.home = rest := by
        rw [notices_setNotices, if_pos hhome]
      have honce := h.once l
      rw [hnotices] at honce
      exact absurd hsame ((List.pairwise_cons.mp honce).1 n' (hrests ▸ hn') hevent)
    · rw [hhandled.server]
      simp [Server.step, Server.dispatch, hm, hidle, hwants hevent, setNotices]
  | hangup =>
    have hstays : Stays m.conn m.conn.handleClose := ⟨rfl, by simp [handleClose]⟩
    have hhandled : Handled (s.setNotices l rest) n.channel m m.conn.handleClose
        ((s.setNotices l rest).handle n.channel m m.conn.handleClose false) :=
      handled_handle hrest.registered hfound hstays.fd (fun _ => rfl)
    have hcall : (s.setNotices l rest).callback n env arrival sends files =
        (s.setNotices l rest).handle n.channel m m.conn.handleClose false := by
      simp only [callback, hfound, hevent]
    rw [hcall]
    refine ⟨dispatchable_handled hrest hfound hstays hbuffers hlater hhandled, .hangup n.channel,
      by simp only [serverActs, hnotices, hevent], ?_⟩
    rw [hhandled.server]
    simp [Server.step, Server.dispatch, hm, hidle, setNotices]

/-- No connection makes room for a new one. -/
theorem accept_opened (hc : s.server.Consistent) {fd : Int}
    (closed : s.server.isOpen fd = false) : s.server.handleListenEvent l fd =
      s.server.enroll l fd (s.server.acquire l fd).1 (s.server.acquire l fd).2.1
        (s.server.acquire l fd).2.2 := by
  have hnone : (s.server.loops l).connections.find fd = none := by
    cases hfind : (s.server.loops l).connections.find fd with
    | none => rfl
    | some who =>
      obtain ⟨m, hm, -, hfd⟩ := hc.registered l fd who hfind
      exact absurd hfd (Server.not_open closed hm)
  simp only [Server.handleListenEvent, hnone, Option.elim_none]

/-- The entry of an accepted connection is new. -/
theorem dispatchable_accept (h : s.Dispatchable) {fd : Int} (closed : s.server.isOpen fd = false)
    {o : Pooled} (hfd : o.conn.enableReadEvent.fd = fd) (objects : Nat) (pool : ObjectPool)
    (hc : (s.server.enroll l fd o objects pool).Consistent) :
    ((s.advance (s.server.enroll l fd o objects pool)).addChannel l fd
      (entry s.server.accepts o.conn.enableReadEvent.channel)).Dispatchable := by
  have hadvance : s.advance (s.server.enroll l fd o objects pool) =
      { s with server := s.server.enroll l fd o objects pool } :=
    advance_open s rfl (by simp)
  have hfree : (s.interest l).find fd = none := by
    cases hfind : (s.interest l).find fd with
    | none => rfl
    | some r =>
      obtain ⟨m, hm, -, hsame, -⟩ := (h.registered l fd r).mp hfind
      exact absurd hsame (Server.not_open closed hm)
  have hadd : (s.advance (s.server.enroll l fd o objects pool)).addChannel l fd
      (entry s.server.accepts o.conn.enableReadEvent.channel) =
      setInterest { s with server := s.server.enroll l fd o objects pool } l ((s.interest l).insert
        fd (entry s.server.accepts o.conn.enableReadEvent.channel)) := by
    rw [hadvance]
    simp only [addChannel, hfree]
  have hlive : ∀ k, (s.server.enroll l fd o objects pool).live.find k =
      if k = s.server.accepts then some ⟨o.object, l, o.conn.enableReadEvent⟩
      else s.server.live.find k := fun k => Dict.find_insert _ _ _ _
  have hold : ∀ k m, s.server.live.find k = some m → k ≠ s.server.accepts :=
    fun k m hm => Nat.ne_of_lt (h.consistent.numbered k m hm)
  have hloop : ∀ k, ((s.server.enroll l fd o objects pool).loops k).batch =
      (s.server.loops k).batch ∧ ((s.server.enroll l fd o objects pool).loops k).ran =
      (s.server.loops k).ran := by
    intro k
    rcases Server.loops_enroll s.server l fd o objects pool k with ⟨rfl, hk⟩ | hk
    · rw [hk]
      exact ⟨rfl, rfl⟩
    · rw [hk]
      exact ⟨rfl, rfl⟩
  rw [hadd]
  refine ⟨hc, ?_, ?_, ?_, h.once, h.clean⟩
  · intro k fd' r
    have hfind : ((setInterest { s with server := s.server.enroll l fd o objects pool } l
        ((s.interest l).insert fd
          (entry s.server.accepts o.conn.enableReadEvent.channel))).interest k).find fd' =
        if k = l ∧ fd' = fd then some (entry s.server.accepts o.conn.enableReadEvent.channel)
        else (s.interest k).find fd' := by
      by_cases hk : k = l
      · subst hk
        have hupdate : Function.update s.interest k ((s.interest k).insert fd
            (entry s.server.accepts o.conn.enableReadEvent.channel)) k = (s.interest k).insert fd
            (entry s.server.accepts o.conn.enableReadEvent.channel) := Function.update_self _ _ _
        simp only [setInterest, hupdate, Dict.find_insert, true_and]
      · have hupdate : Function.update s.interest l ((s.interest l).insert fd
            (entry s.server.accepts o.conn.enableReadEvent.channel)) k = s.interest k :=
          Function.update_of_ne hk _ _
        simp only [setInterest, hupdate, hk, false_and, if_false]
    rw [hfind]
    show _ ↔ ∃ m, (s.server.enroll l fd o objects pool).live.find r.channel = some m ∧ _
    rw [hlive]
    by_cases hnew : r.channel = s.server.accepts
    · rw [if_pos hnew, hnew]
      constructor
      · intro hr
        split at hr
        · next hown =>
          obtain rfl := Option.some.inj hr
          exact ⟨_, rfl, hown.1.symm, hfd.trans hown.2.symm, rfl⟩
        · obtain ⟨m, hm, -⟩ := (h.registered k fd' r).mp hr
          exact absurd hnew (hold _ m hm)
      · rintro ⟨m, hm, hhome, hsame, hr⟩
        obtain rfl := Option.some.inj hm
        rw [if_pos ⟨hhome.symm, hsame.symm.trans hfd⟩, hr]
    · rw [if_neg hnew, ← h.registered k fd' r]
      by_cases hown : k = l ∧ fd' = fd
      · rw [if_pos hown]
        refine iff_of_false ?_ ?_
        · intro heq
          exact hnew (congrArg EpollEvent.channel (Option.some.inj heq)).symm
        · rw [hown.1, hown.2, hfree]
          exact nofun
      · rw [if_neg hown]
  · intro k hk
    obtain ⟨hbatch, hran⟩ := hloop k
    show ((s.server.enroll l fd o objects pool).loops k).batch = [] ∧ _
    rw [hbatch]
    exact ⟨(h.idle k hk).1, hran.trans (h.idle k hk).2⟩
  · intro k n hn
    obtain ⟨m, hm, hhome, hwants⟩ := h.noticed k n hn
    refine ⟨m, ?_, hhome, hwants⟩
    exact (hlive n.channel).trans ((if_neg (hold _ m hm)).trans hm)

/-- A functor of the loop runs when no callback is left. -/
theorem dispatchable_run (h : s.Dispatchable) (quiet : s.notices l = []) {f : LoopFunctor}
    {rest : List LoopFunctor} (hbatch : (s.server.loops l).batch = f :: rest) (env : Env)
    (sends : Transfers) (hc : ((s.server.take l f rest).runFunctor l env sends f).Consistent) :
    (s.afterFunctor l sends ((s.server.take l f rest).runFunctor l env sends f)).Dispatchable ∧
      (s.afterFunctor l sends ((s.server.take l f rest).runFunctor l env sends f)).server =
        (s.server.take l f rest).runFunctor l env sends f := by
  cases hself : f.self with
  | none =>
    have hadvance : s.afterFunctor l sends ((s.server.take l f rest).runFunctor l env sends f) =
        s.advance ((s.server.take l f rest).runFunctor l env sends f) := by
      cases f with
      | call => cases hself
      | timeout => simp only [afterFunctor, hbatch]
      | erase => simp only [afterFunctor, hbatch]
    rw [hadvance]
    exact ⟨dispatchable_departs h hc quiet (Server.departs_run h.consistent hself env sends), rfl⟩
  | some who =>
    cases f with
    | timeout => cases hself
    | erase => cases hself
    | call k cb =>
      have hmem : .call k cb ∈ (s.server.loops l).functors := by
        simp [EventLoop.functors, hbatch]
      obtain ⟨m, hm, rfl⟩ := h.consistent.functors l _ hmem
      have htaken : (s.advance (s.server.take m.home (.call k cb) rest)).Dispatchable :=
        dispatchable_departs h (Server.consistent_take h.consistent hbatch) quiet
          (Server.departs_setLoop _ _ _)
      have hadvance : s.advance (s.server.take m.home (.call k cb) rest) =
          { s with server := s.server.take m.home (.call k cb) rest } := advance_same s rfl
      rw [hadvance] at htaken
      have hbuffers := h.consistent.buffers k m hm
      have hfound : (s.server.take m.home (.call k cb) rest).live.find k = some m := hm
      have hrun : (s.server.take m.home (.call k cb) rest).runFunctor m.home env sends
          (.call k cb) =
          (s.server.take m.home (.call k cb) rest).perform k m (m.conn.call cb env sends) := by
        simp only [Server.runFunctor, hfound, Option.elim_some]
      have hhandled : Handled { s with server := s.server.take m.home (.call k cb) rest } k m
          (m.conn.call cb env sends)
          (handle { s with server := s.server.take m.home (.call k cb) rest } k m
            (m.conn.call cb env sends) (m.conn.callTraffic cb sends).updated) :=
        handled_handle htaken.registered hm (stays_call hbuffers cb env sends).fd
          (fun hunset => call_channel hbuffers env hunset)
      have hafter : s.afterFunctor m.home sends
          ((s.server.take m.home (.call k cb) rest).runFunctor m.home env sends (.call k cb)) =
          handle { s with server := s.server.take m.home (.call k cb) rest } k m
            (m.conn.call cb env sends) (m.conn.callTraffic cb sends).updated := by
        rw [hrun]
        simp only [afterFunctor, hbatch, hm, Option.any_some, handle]
        rw [advance_through s (t := s.server.take m.home (.call k cb) rest) rfl]
      rw [hafter]
      refine ⟨dispatchable_handled htaken hm (stays_call hbuffers cb env sends)
        (buffersWf_call hbuffers cb env sends) ?_ hhandled, hhandled.server.trans hrun.symm⟩
      intro n hn
      have hnone : n ∈ s.notices m.home := hn
      rw [quiet] at hnone
      cases hnone

/-- Every step keeps the invariant, and is the step of the server that it stands for. -/
theorem dispatchable_step (h : s.Dispatchable) {u : Dispatch} {a : Act}
    (hstep : s.step a = some u) :
    u.Dispatchable ∧ Server.exec s.server (serverActs s a) = some u.server := by
  have hone : ∀ {b : ServerAct} {t : Server}, s.server.step b = some t →
      Server.exec s.server [b] = some t :=
    fun hb => (GuardedRuns.exec_cons_iff _ _ _ _ _).mpr ⟨_, hb, rfl⟩
  cases a with
  | accept l fd =>
    obtain ⟨t, ht, hu⟩ := Option.map_eq_some_iff.mp hstep
    have hc := Server.consistent_step h.consistent ht
    have hserver := hone ht
    cases Server.taken_of_step ht with
    | accept _ _ _ hclosed =>
      rw [accept_opened h.consistent hclosed] at hu hc hserver
      have hnew : (s.server.enroll l fd (s.server.acquire l fd).1 (s.server.acquire l fd).2.1
          (s.server.acquire l fd).2.2).live.find s.server.accepts =
          some ⟨_, l, (s.server.acquire l fd).1.conn.enableReadEvent⟩ :=
        Dict.find_insert_self _ _ _
      rw [hnew, Option.elim_some] at hu
      subst hu
      have hfd : (s.server.acquire l fd).1.conn.enableReadEvent.fd = fd :=
        (Server.fresh_acquire s.server l fd).2
      have hkept := dispatchable_accept h hclosed hfd _ _ hc
      refine ⟨hkept, hserver.trans ?_⟩
      unfold addChannel
      split
      · rfl
      · rfl
  | wait l ready =>
    obtain ⟨⟨hidle, -, -, hdistinct, hreportable⟩, hu⟩ := Option.ite_none_right_eq_some.mp hstep
    obtain rfl := Option.some.inj hu
    exact ⟨dispatchable_wait h hidle hdistinct hreportable, rfl⟩
  | callback l env arrival sends files =>
    cases hnotices : s.notices l with
    | nil => simp [step, hnotices] at hstep
    | cons n rest =>
      obtain rfl : (s.setNotices l rest).callback n env arrival sends files = u := by
        simpa [step, hnotices] using hstep
      obtain ⟨hkept, b, hacts, hb⟩ := dispatchable_callback h hnotices env arrival sends files
      rw [hacts]
      exact ⟨hkept, hone hb⟩
  | expire l fd =>
    obtain ⟨hquiet, hmap⟩ := Option.ite_none_right_eq_some.mp hstep
    obtain ⟨t, ht, rfl⟩ := Option.map_eq_some_iff.mp hmap
    have hc := Server.consistent_step h.consistent ht
    refine ⟨dispatchable_departs h hc hquiet ?_, hone ht⟩
    cases Server.taken_of_step ht with
    | expire => exact Server.departs_setLoop _ _ _
  | swap l =>
    obtain ⟨hquiet, hmap⟩ := Option.ite_none_right_eq_some.mp hstep
    obtain ⟨t, ht, rfl⟩ := Option.map_eq_some_iff.mp hmap
    have hc := Server.consistent_step h.consistent ht
    refine ⟨dispatchable_departs h hc hquiet ?_, hone ht⟩
    cases Server.taken_of_step ht with
    | swap => exact Server.departs_setLoop _ _ _
  | run l env sends =>
    obtain ⟨hquiet, hmap⟩ := Option.ite_none_right_eq_some.mp hstep
    obtain ⟨t, ht, rfl⟩ := Option.map_eq_some_iff.mp hmap
    have hc := Server.consistent_step h.consistent ht
    have hserver := hone ht
    cases Server.taken_of_step ht with
    | run _ _ _ f rest hbatch =>
      obtain ⟨hkept, hsame⟩ := dispatchable_run h hquiet hbatch env sends hc
      exact ⟨hkept, hserver.trans (congrArg some hsame.symm)⟩
  | destroy l =>
    obtain ⟨hquiet, hmap⟩ := Option.ite_none_right_eq_some.mp hstep
    obtain ⟨t, ht, rfl⟩ := Option.map_eq_some_iff.mp hmap
    have hc := Server.consistent_step h.consistent ht
    refine ⟨dispatchable_departs h hc hquiet ?_, hone ht⟩
    cases Server.taken_of_step ht with
    | destroy => exact Server.departs_destroy h.consistent

/-- Before the first connection: no entries. -/
def start (s : Server) : Dispatch := { server := s }

theorem dispatchable_start {s : Server} (started : s.Started) : (start s).Dispatchable := by
  have hnone : ∀ who, s.live.find who = none := by
    intro who
    rw [started.live]
    rfl
  constructor
  case consistent => exact Server.consistent_started started
  case registered =>
    intro l fd r
    refine iff_of_false nofun ?_
    rintro ⟨m, hm, -⟩
    cases (hnone r.channel).symm.trans hm
  case idle => exact fun _ hk => absurd rfl hk
  case noticed => exact fun _ _ hn => absurd hn List.not_mem_nil
  case once => exact fun _ => .nil
  case clean => exact ⟨rfl, rfl⟩

end

/-- The pointers that epoll hands back are good, and no call of `epoll_ctl` fails. A run is one
of the server, and every live connection is registered for what it wants, and nothing else is. -/
theorem pointers_good {s : Server} (started : s.Started) {t : Dispatch} {as : List Act}
    (run : GuardedRuns.exec step (start s) as = some t) :
    t.dangling = [] ∧ t.failures = [] ∧
      s.exec (GuardedRuns.seen step serverActs (start s) as) = some t.server ∧ t.Registered := by
  have hviews : GuardedRuns.Views step (fun _ _ => True) Server.step (fun _ _ => True)
      (fun u v => u.Dispatchable ∧ u.server = v) serverActs (fun _ _ => ([] : List Unit))
      (fun _ => []) := by
    rintro u _ a u' ⟨hu, rfl⟩ - hstep
    obtain ⟨hkept, hserver⟩ := dispatchable_step hu hstep
    exact ⟨GuardedRuns.guarded_true _ _ _, u'.server, hserver, ⟨hkept, rfl⟩, rfl⟩
  obtain ⟨-, v, hv, ⟨hlast, rfl⟩, -⟩ := GuardedRuns.exec_seen hviews
    ⟨dispatchable_start started, rfl⟩ (GuardedRuns.guarded_true step (start s) as) run
  exact ⟨hlast.clean.2, hlast.clean.1, hv, hlast.registered⟩

/-- The next batch of a loop, of this many functors. -/
def batchOf (l : Nat) (env : Env) (sends : Transfers) (count : Nat) : List Act :=
  .swap l :: List.replicate count (.run l env sends) ++ [.destroy l]

/-- An answer waits for the socket, the peer hangs up, and another loop gets the number. -/
theorem pointers_good_reused :
    let env := Env.table []
    let still : Transfers := ⟨[], .again⟩
    let asks : Arrival :=
      ⟨[⟨lit "GET /a HTTP/1.1\r\nConnection: close\r\n\r\n", by decide⟩], .again⟩
    let as := [.accept 0 5, .accept 0 6,
      .wait 0 [(6, ⟨true, false, false⟩), (5, ⟨true, false, false⟩)],
      .callback 0 env ⟨[⟨lit "GET", by decide⟩], .again⟩ still still,
      .callback 0 env asks still still] ++ batchOf 0 env ⟨[10], .again⟩ 1 ++
      [.wait 0 [(5, ⟨true, true, false⟩)], .callback 0 env ⟨[], .again⟩ still still,
      .callback 0 env ⟨[], .again⟩ ⟨[1000], .again⟩ still, .wait 0 [(5, ⟨true, false, true⟩)],
      .callback 0 env ⟨[], .again⟩ still still] ++ batchOf 0 env still 1 ++ batchOf 0 env still 1 ++
      [.accept 1 5]
    ∃ t, GuardedRuns.exec step (start (.new (lit "/w") none)) as = some t ∧
      t.dangling = [] ∧ t.failures = [] ∧ (t.interest 0).find 5 = none ∧
      ∃ m, t.server.live.find 2 = some m ∧ m.home = 1 ∧ m.conn.fd = 5 := by
  intro env still asks as
  have hentries : (GuardedRuns.exec step (start (.new (lit "/w") none)) as).map
      (fun t => ((t.interest 0).find 5, (t.interest 1).find 5)) =
      some (none, some ⟨2, true, false⟩) := by
    decide +kernel
  obtain ⟨t, ht, hparts⟩ := Option.map_eq_some_iff.mp hentries
  obtain ⟨hgone, hentry⟩ := Prod.mk.inj hparts
  obtain ⟨hdangling, hfailures, -, hregistered⟩ :=
    pointers_good (Server.started_new (lit "/w") none) ht
  obtain ⟨m, hm, hhome, hfd, -⟩ := (hregistered 1 5 ⟨2, true, false⟩).mp hentry
  exact ⟨t, ht, hdangling, hfailures, hgone, m, hm, hhome, hfd⟩

end Dispatch

end WebServer
