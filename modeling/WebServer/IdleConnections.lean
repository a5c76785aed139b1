import WebServer.ConnectionViews
import WebServer.IdleTimers
import WebServer.ObjectOwnership

/-!
# How long a connection may be idle

The server with the heap of timers of each loop and the clock. An accept arms the timer of its
connection, a read in state Connected arms it anew, and `Tick` asks for the removal of what is due.
A tick reads the clock once and takes the nodes from the heap one by one; accepts may come in
between. Nothing here keeps the handlers of a loop from running inside its tick, so the results
hold of more runs than the loops have.

Of the server model it is shown first that a connection in the map of a loop has its timer there
or a functor that will remove it.
-/

namespace WebServer

open KeyedList

/-! ## Connections without a timer -/

namespace EventLoop

/-- A functor for the removal of the descriptor is still to run. -/
def Waits (l : EventLoop) (fd : Int) : Prop :=
  ∃ who, .timeout fd who ∈ l.waiting ∨ .erase fd who ∈ l.waiting

/-- Each connection in the map has its timer, or its removal waits. -/
def Minded (l : EventLoop) : Prop :=
  ∀ fd who, l.connections.find fd = some who → l.timers.find fd = some who ∨ l.Waits fd

variable {l l' : EventLoop}

theorem waits_of {fd : Int} (h : l.Waits fd)
    (kept : ∀ f ∈ l.waiting, (∃ who, f = .timeout fd who ∨ f = .erase fd who) → l'.Waits fd) :
    l'.Waits fd := by
  obtain ⟨who, htimeout | herase⟩ := h
  · exact kept _ htimeout ⟨who, .inl rfl⟩
  · exact kept _ herase ⟨who, .inr rfl⟩

theorem waits_mono {fd : Int} (h : l.Waits fd) (more : ∀ f ∈ l.waiting, f ∈ l'.waiting) :
    l'.Waits fd := by
  obtain ⟨who, hwaits⟩ := h
  exact ⟨who, hwaits.imp (more _) (more _)⟩

theorem minded_more (h : l.Minded) (connections : l'.connections = l.connections)
    (timers : l'.timers = l.timers) (more : ∀ f ∈ l.waiting, f ∈ l'.waiting) : l'.Minded := by
  intro fd who hfind
  rw [connections] at hfind
  rw [timers]
  exact (h fd who hfind).imp_right fun hwaits => waits_mono hwaits more

/-- The functor that is taken is not the last sign of a removal. -/
theorem minded_take (h : l.Minded) {f : LoopFunctor} {rest : List LoopFunctor}
    (hbatch : l.batch = f :: rest) (connections : ∀ fd who, l'.connections.find fd = some who →
      l.connections.find fd = some who) (timers : l'.timers = l.timers)
    (more : ∀ g ∈ rest ++ l.pending, g ∈ l'.waiting)
    (spent : ∀ fd who, l'.connections.find fd = some who →
      (∃ k, f = .timeout fd k ∨ f = .erase fd k) → l'.Waits fd) : l'.Minded := by
  intro fd who hfind
  rw [timers]
  refine (h fd who (connections fd who hfind)).imp_right fun hwaits => ?_
  apply waits_of hwaits
  rintro g hg ⟨k, hk⟩
  rw [waiting, hbatch, List.cons_append] at hg
  rcases List.mem_cons.mp hg with rfl | hrest
  · exact spent fd who hfind ⟨k, hk⟩
  · rcases hk with rfl | rfl
    · exact ⟨k, .inl (more _ hrest)⟩
    · exact ⟨k, .inr (more _ hrest)⟩

end EventLoop

namespace Server

def Minded (s : Server) : Prop := ∀ l, (s.loops l).Minded

section
variable {s t : Server}

theorem minded_setLoop (h : s.Minded) {l : Nat} {loop : EventLoop} (hloop : loop.Minded) :
    (s.setLoop l loop).Minded := by
  intro k
  rcases loops_setLoop s l k loop with ⟨-, hk⟩ | hk
  · rw [hk]
    exact hloop
  · rw [hk]
    exact h k

theorem minded_drop (h : s.Minded) (who : Nat) : (s.drop who).Minded := by
  intro k
  obtain ⟨pool, hk⟩ := loops_drop s who k
  rw [hk]
  exact EventLoop.minded_more (h k) rfl rfl fun _ hf => hf

theorem minded_queueInLoop (h : s.Minded) (l : Nat) (fs : List LoopFunctor) :
    (s.queueInLoop l fs).Minded := by
  refine minded_setLoop h (EventLoop.minded_more (h l) rfl rfl ?_)
  intro f hf
  rw [EventLoop.waiting] at hf ⊢
  exact List.append_assoc _ _ fs ▸ List.mem_append_left fs hf

theorem minded_enroll (h : s.Minded) (l : Nat) (fd : Int) (o : Pooled) (objects : Nat)
    (pool : ObjectPool) : (s.enroll l fd o objects pool).Minded := by
  intro k fd' who hfind
  rcases loops_enroll s l fd o objects pool k with ⟨rfl, hk⟩ | hk
  · rw [hk] at hfind ⊢
    rcases Dict.find_of_insert hfind with ⟨rfl, rfl⟩ | ⟨hne, hold⟩
    · exact .inl (Dict.find_insert_self _ _ _)
    · refine (h k fd' who hold).imp ?_ fun hwaits => hwaits
      exact fun hold => (Dict.find_insert_ne _ hne _).trans hold
  · rw [hk] at hfind ⊢
    exact h k fd' who hfind

theorem minded_expire (h : s.Minded) {l : Nat} {fd : Int} {who : Nat}
    (armed : (s.loops l).timers.find fd = some who) : (s.expire l fd who).Minded := by
  apply minded_setLoop h
  intro fd' k hfind
  by_cases hfd : fd' = fd
  · subst hfd
    refine .inr ⟨who, .inl ?_⟩
    rw [EventLoop.waiting, ← List.append_assoc]
    exact List.mem_append_right _ List.mem_cons_self
  · refine (h l fd' k hfind).imp ?_ fun hwaits => EventLoop.waits_mono hwaits ?_
    · exact fun hold => (Dict.find_erase_ne _ hfd).trans hold
    · intro f hf
      rw [EventLoop.waiting] at hf ⊢
      exact List.append_assoc _ _ [_] ▸ List.mem_append_left _ hf

theorem minded_run (h : s.Minded) {l : Nat} {f : LoopFunctor} {rest : List LoopFunctor}
    (hbatch : (s.loops l).batch = f :: rest) (env : Env) (sends : Transfers) :
    ((s.take l f rest).runFunctor l env sends f).Minded := by
  have hothers : ∀ {loop : EventLoop}, loop.Minded → (s.setLoop l loop).Minded := minded_setLoop h
  cases f with
  | call who cb =>
    have htake : (s.take l (.call who cb) rest).Minded := by
      refine hothers (EventLoop.minded_take (h l) hbatch (fun _ _ hf => hf) rfl
        (fun _ hg => hg) ?_)
      rintro fd k - ⟨j, hj | hj⟩
      · cases hj
      · cases hj
    exact call_keeps Minded htake l who cb env sends fun m _ => minded_queueInLoop
      (s := { (s.take l (.call who cb) rest) with live := _ }) htake m.home _
  | timeout fd who =>
    intro k
    rw [runFunctor, queueInLoop, take]
    simp only [loops_setLoop_self]
    by_cases hk : k = l
    · subst hk
      rw [loops_setLoop_self]
      refine EventLoop.minded_take (h k) hbatch (fun _ _ hf => hf) rfl ?_ ?_
      · intro g hg
        rw [EventLoop.waiting, ← List.append_assoc]
        exact List.mem_append_left _ hg
      · rintro fd' who' - ⟨j, hj | hj⟩
        · obtain ⟨rfl, rfl⟩ := LoopFunctor.timeout.inj hj
          refine ⟨who, .inr ?_⟩
          rw [EventLoop.waiting, ← List.append_assoc]
          exact List.mem_append_right _ List.mem_cons_self
        · cases hj
    · rw [loops_setLoop_ne _ hk, loops_setLoop_ne _ hk]
      exact h k
  | erase fd who =>
    have hforgot : (((s.take l (.erase fd who) rest).setLoop l
        { (s.take l (.erase fd who) rest).loops l with
          connections := ((s.take l (.erase fd who) rest).loops l).connections.erase fd }).record
        (.erased l fd who (((s.take l (.erase fd who) rest).loops l).connections.find fd))).Minded := by
      intro k
      rw [loops_record, take]
      simp only [loops_setLoop_self]
      by_cases hk : k = l
      · subst hk
        rw [loops_setLoop_self]
        refine EventLoop.minded_take (h k) hbatch (fun _ _ hf => Dict.find_of_erase hf) rfl
          (fun _ hg => hg) ?_
        rintro fd' who' hfind ⟨j, hj | hj⟩
        · cases hj
        · obtain ⟨rfl, rfl⟩ := LoopFunctor.erase.inj hj
          exact absurd (hfind.symm.trans (Dict.find_erase_self _ _)) (Option.some_ne_none _)
      · rw [loops_setLoop_ne _ hk, loops_setLoop_ne _ hk]
        exact h k
    exact elim_drop_keeps Minded (fun _ who h => minded_drop h who) hforgot _

theorem minded_step (h : s.Minded) {a : ServerAct} (hstep : s.step a = some t) : t.Minded := by
  have hperform : ∀ who m out, (s.perform who m out).Minded := fun who m out =>
    minded_queueInLoop (s := { s with live := s.live.insert who { m with conn := out.1 } }) h _ _
  cases taken_of_step hstep with
  | accept l fd =>
    exact elim_drop_keeps Minded (fun _ who h => minded_drop h who) (minded_enroll h l fd _ _ _) _
  | readable who m => exact hperform who m _
  | writable who m => exact hperform who m _
  | hangup who m => exact hperform who m _
  | expire l fd who armed => exact minded_expire h armed
  | swap l hidle =>
    refine minded_setLoop h (EventLoop.minded_more (h l) rfl rfl ?_)
    intro f hf
    rw [EventLoop.waiting, idle_batch hidle] at hf
    exact List.mem_append_left _ hf
  | run l env sends f rest hbatch => exact minded_run h hbatch env sends
  | destroy l =>
    have hcleared : (s.setLoop l { s.loops l with ran := [] }).Minded :=
      minded_setLoop h (EventLoop.minded_more (h l) rfl rfl fun _ hf => hf)
    exact drops_keep Minded (fun _ who h => minded_drop h who) hcleared _

/-! ## What a step does to timers -/

/-- The timers of a loop after a step: an accept arms one, an expiry takes one away. -/
def timersAfter (s : Server) (k : Nat) : ServerAct → Dict Int Nat
  | .accept l fd => if k = l then (s.loops k).timers.insert fd s.accepts else (s.loops k).timers
  | .expire l fd => if k = l then (s.loops k).timers.erase fd else (s.loops k).timers
  | _ => (s.loops k).timers

theorem timers_setLoop (s : Server) {l : Nat} {loop : EventLoop}
    (same : loop.timers = (s.loops l).timers) (k : Nat) :
    ((s.setLoop l loop).loops k).timers = (s.loops k).timers := by
  rcases loops_setLoop s l k loop with ⟨rfl, hk⟩ | hk
  · rw [hk, same]
  · rw [hk]

theorem timers_drop (s : Server) (who k : Nat) :
    ((s.drop who).loops k).timers = (s.loops k).timers := by
  obtain ⟨pool, hk⟩ := loops_drop s who k
  rw [hk]

theorem timers_perform (s : Server) (who : Nat) (m : Shared) (out : Connection × List Effect)
    (k : Nat) : ((s.perform who m out).loops k).timers = (s.loops k).timers := by
  rw [loops_perform]
  exact timers_setLoop s (by rfl) k

theorem timers_enrolled (s : Server) (l : Nat) (fd : Int) (o : Pooled) (objects : Nat)
    (pool : ObjectPool) (k : Nat) : ((s.enroll l fd o objects pool).loops k).timers =
      if k = l then (s.loops k).timers.insert fd s.accepts else (s.loops k).timers := by
  rw [enroll, loops_record]
  by_cases hl : k = l
  · subst hl
    rw [loops_setLoop_self, if_pos rfl]
  · rw [loops_setLoop_ne _ hl, if_neg hl]

theorem timers_step {a : ServerAct} (hstep : s.step a = some t) (k : Nat) :
    (t.loops k).timers = s.timersAfter k a := by
  have hdrop : ∀ {u : Server}, (u.loops k).timers = s.timersAfter k a → ∀ who : Option Nat,
      ((who.elim u u.drop).loops k).timers = s.timersAfter k a := fun h who =>
    elim_drop_keeps (fun u => (u.loops k).timers = s.timersAfter k a)
      (fun u who h => (timers_drop u who k).trans h) h who
  cases taken_of_step hstep with
  | accept l fd =>
    exact hdrop (timers_enrolled s l fd _ _ _ k) _
  | readable who m => exact timers_perform s who m _ k
  | writable who m => exact timers_perform s who m _ k
  | hangup who m => exact timers_perform s who m _ k
  | expire l fd who =>
    show _ = if k = l then _ else _
    by_cases hl : k = l
    · subst hl
      rw [if_pos rfl, expire, loops_setLoop_self]
    · rw [if_neg hl, expire, loops_setLoop_ne _ hl]
  | swap l => exact timers_setLoop s (by rfl) k
  | run l env sends f rest hbatch =>
    have htake : ((s.take l f rest).loops k).timers = (s.loops k).timers :=
      timers_setLoop s (by rfl) k
    cases f with
    | call who cb =>
      exact call_keeps (fun u => (u.loops k).timers = (s.loops k).timers) htake l who cb env sends
        fun m _ => (timers_perform _ who m _ k).trans htake
    | timeout fd who => exact (timers_setLoop _ (by rfl) k).trans htake
    | erase fd who =>
      generalize s.take l (.erase fd who) rest = v at htake ⊢
      have hforgot : ((v.setLoop l { v.loops l with
          connections := (v.loops l).connections.erase fd }).loops k).timers =
            (s.loops k).timers := (timers_setLoop v (by rfl) k).trans htake
      exact hdrop (u := (v.setLoop l _).record (.erased l fd who _)) hforgot _
  | destroy l =>
    have hcleared : ((s.setLoop l { s.loops l with ran := [] }).loops k).timers =
        (s.loops k).timers := timers_setLoop s (by rfl) k
    exact drops_keep (fun u => (u.loops k).timers = (s.loops k).timers)
      (fun u who h => (timers_drop u who k).trans h) hcleared _

/-- A timeout in a loop is that of a timer that has just expired, or was there before. -/
theorem timeouts_step {a : ServerAct} (hstep : s.step a = some t) {k : Nat} {fd : Int} {who : Nat}
    (h : .timeout fd who ∈ (t.loops k).functors) : .timeout fd who ∈ (s.loops k).functors ∨
      a = .expire k fd ∧ (s.loops k).timers.find fd = some who := by
  have hsetLoop : ∀ {u : Server} {l : Nat} {loop : EventLoop},
      .timeout fd who ∈ ((u.setLoop l loop).loops k).functors →
      (l = k → .timeout fd who ∈ loop.functors → .timeout fd who ∈ (u.loops k).functors) →
      .timeout fd who ∈ (u.loops k).functors := by
    intro u l loop hmem hold
    rcases loops_setLoop u l k loop with ⟨rfl, hk⟩ | hk
    · exact hold rfl (hk ▸ hmem)
    · exact hk ▸ hmem
  have hperform : ∀ {u : Server} {j : Nat} {m : Shared} {out : Connection × List Effect},
      .timeout fd who ∈ ((u.perform j m out).loops k).functors →
      .timeout fd who ∈ (u.loops k).functors := by
    intro u j m out hmem
    rw [loops_perform] at hmem
    refine hsetLoop hmem ?_
    rintro rfl hnew
    rw [EventLoop.functors, ← List.append_assoc] at hnew
    refine (List.mem_append.mp hnew).resolve_right ?_
    intro hadded
    obtain ⟨e, -, he⟩ := List.mem_filterMap.mp hadded
    cases e <;> simp at he
  have hdrop : ∀ {u : Server}, (.timeout fd who ∈ (u.loops k).functors →
      .timeout fd who ∈ (s.loops k).functors) → ∀ j : Option Nat,
      .timeout fd who ∈ ((j.elim u u.drop).loops k).functors →
        .timeout fd who ∈ (s.loops k).functors := fun h j =>
    elim_drop_keeps (fun u => .timeout fd who ∈ (u.loops k).functors →
      .timeout fd who ∈ (s.loops k).functors) (fun u j h hmem => by
        obtain ⟨pool, hk⟩ := loops_drop u j k
        rw [hk] at hmem
        exact h hmem) h j
  cases taken_of_step hstep with
  | accept l fd' =>
    refine .inl (hdrop (fun hmem => ?_) _ h)
    rwa [functors_enroll] at hmem
  | readable j m => exact .inl (hperform h)
  | writable j m => exact .inl (hperform h)
  | hangup j m => exact .inl (hperform h)
  | expire l fd' j armed =>
    by_cases hl : k = l
    · subst hl
      rw [expire, loops_setLoop_self, EventLoop.functors, ← List.append_assoc] at h
      rcases List.mem_append.mp h with hold | hnew
      · exact .inl hold
      · obtain ⟨rfl, rfl⟩ := LoopFunctor.timeout.inj (List.mem_singleton.mp hnew)
        exact .inr ⟨rfl, armed⟩
    · rw [expire, loops_setLoop_ne _ hl] at h
      exact .inl h
  | swap l hidle =>
    refine .inl (hsetLoop h ?_)
    rintro rfl hmem
    rw [EventLoop.functors, List.append_nil] at hmem
    rw [EventLoop.functors, idle_batch hidle, List.append_nil]
    exact hmem
  | run l env sends f rest hbatch =>
    have htake : .timeout fd who ∈ ((s.take l f rest).loops k).functors →
        .timeout fd who ∈ (s.loops k).functors := by
      intro hmem
      refine hsetLoop hmem ?_
      rintro rfl hmem
      simpa [EventLoop.functors, hbatch] using hmem
    cases f with
    | call j cb =>
      refine .inl (call_keeps (fun u => .timeout fd who ∈ (u.loops k).functors →
        .timeout fd who ∈ (s.loops k).functors) htake l j cb env sends ?_ h)
      exact fun m _ hmem => htake (hperform hmem)
    | timeout fd' j =>
      refine .inl (htake (hsetLoop h ?_))
      rintro rfl hmem
      rw [EventLoop.functors, ← List.append_assoc] at hmem
      exact (List.mem_append.mp hmem).resolve_right (by simp)
    | erase fd' j =>
      refine .inl (hdrop (u := record _ _) (fun hmem => ?_) _ h)
      exact htake (hsetLoop hmem (by rintro rfl hold; exact hold))
  | destroy l =>
    have hcleared : .timeout fd who ∈ ((s.setLoop l { s.loops l with ran := [] }).loops
        k).functors → .timeout fd who ∈ (s.loops k).functors := by
      intro hmem
      refine hsetLoop hmem ?_
      rintro rfl hold
      rw [EventLoop.functors, List.nil_append] at hold
      rw [EventLoop.functors, List.append_assoc]
      exact List.mem_append_right _ hold
    refine .inl (drops_keep (fun u => .timeout fd who ∈ (u.loops k).functors →
      .timeout fd who ∈ (s.loops k).functors) (fun u j hu hmem => ?_) hcleared _ h)
    obtain ⟨pool, hk⟩ := loops_drop u j k
    rw [hk] at hmem
    exact hu hmem

/-- A connection that lives was there before with its loop and descriptor, or is the new one. -/
theorem live_step (hc : s.Consistent) {a : ServerAct} (hstep : s.step a = some t) {who : Nat}
    {m : Shared} (found : t.live.find who = some m) :
    (∃ m', s.live.find who = some m' ∧ m'.home = m.home ∧ m'.conn.fd = m.conn.fd) ∨
      a = .accept m.home m.conn.fd ∧ who = s.accepts := by
  let Old : Server → Prop := fun u => ∀ who m, u.live.find who = some m →
    ∃ m', s.live.find who = some m' ∧ m'.home = m.home ∧ m'.conn.fd = m.conn.fd
  have hreplaced : ∀ (u : Server) who m conn, u.live.find who = some m → conn.fd = m.conn.fd →
      Old u → Old { u with live := u.live.insert who { m with conn } } := by
    intro u j n conn hfind hfd h k m hm
    rcases Dict.find_of_insert hm with ⟨rfl, rfl⟩ | ⟨-, hold⟩
    · obtain ⟨m', hm', hhome, hsame⟩ := h k n hfind
      exact ⟨m', hm', hhome, hsame.trans hfd.symm⟩
    · exact h k m hold
  rcases step_keeps Old (fun u l loop _ h => h) hreplaced (fun u l fd whom removed h => h)
      (fun u who m _ h k n hn => h k n (Dict.find_of_erase hn))
      (fun who m hm => ⟨m, hm, rfl, rfl⟩) hc hstep with ⟨-, hall⟩ | ⟨l, fd, rfl, -, rfl⟩
  · exact .inl (hall who m found)
  · have hlive : (s.enroll l fd (s.acquire l fd).1 (s.acquire l fd).2.1
        (s.acquire l fd).2.2).live.find who = some m := by
      revert found
      exact elim_drop_keeps (fun u => u.live.find who = some m → _)
        (fun u j h hm => h (live_drop hm)) (fun hm => hm) _
    rcases live_enroll hlive with ⟨hwho, rfl⟩ | ⟨-, hold⟩
    · refine .inr ⟨?_, hwho⟩
      show ServerAct.accept l fd = .accept l (s.acquire l fd).1.conn.enableReadEvent.fd
      exact congrArg _ (fresh_acquire s l fd).2.symm
    · exact .inl ⟨m, hold, rfl, rfl⟩

/-- An armed timer was armed before, or is that of the new connection. -/
theorem armed_step {a : ServerAct} (hstep : s.step a = some t) {k : Nat} {fd : Int} {who : Nat}
    (h : (t.loops k).timers.find fd = some who) :
    ((s.loops k).timers.find fd = some who ∧ a ≠ .expire k fd) ∨
      a = .accept k fd ∧ who = s.accepts := by
  rw [timers_step hstep k] at h
  cases a with
  | accept l fd' =>
    simp only [timersAfter] at h
    split at h
    · next hl =>
      subst hl
      rcases Dict.find_of_insert h with ⟨rfl, rfl⟩ | ⟨-, hold⟩
      · exact .inr ⟨rfl, rfl⟩
      · exact .inl ⟨hold, nofun⟩
    · exact .inl ⟨h, nofun⟩
  | expire l fd' =>
    simp only [timersAfter] at h
    split at h
    · next hl =>
      subst hl
      refine .inl ⟨Dict.find_of_erase h, ?_⟩
      rintro hsame
      obtain ⟨-, rfl⟩ := ServerAct.expire.inj hsame
      exact absurd ((Dict.find_erase_self _ _).symm.trans h) nofun
    · next hl =>
      refine .inl ⟨h, ?_⟩
      rintro hsame
      exact hl (ServerAct.expire.inj hsame).1.symm
  | readable | writable | hangup | swap | run | destroy => exact .inl ⟨h, nofun⟩

/-- Each connection has one timer at most, the one under its descriptor in its loop, and none
when it has expired. -/
structure Timing (s : Server) : Prop where
  consistent : s.Consistent
  held : s.HeldExcept []
  minded : s.Minded
  bound : ∀ who m k, s.live.find who = some m →
    (s.loops m.home).timers.find m.conn.fd = some k → k = who
  once : ∀ l fd l' fd' who, (s.loops l).timers.find fd = some who →
    (s.loops l').timers.find fd' = some who → l = l' ∧ fd = fd'
  spent : ∀ l fd who, .timeout fd who ∈ (s.loops l).functors →
    ∀ l' fd', (s.loops l').timers.find fd' ≠ some who

theorem timing_new (resourceDir : Str) (router : Option Router) :
    (new resourceDir router).Timing where
  consistent := consistent_started (started_new resourceDir router)
  held := by
    intro who m hfind
    cases hfind
  minded := by
    intro l fd who hfind
    cases hfind
  bound := by
    intro who m k hfind
    cases hfind
  once := by
    intro l fd l' fd' who hfind
    cases hfind
  spent := by
    intro l fd who hmem
    cases hmem

theorem Timing.unborn (h : s.Timing) {l : Nat} {fd : Int} {who : Nat}
    (armed : (s.loops l).timers.find fd = some who) : who ≠ s.accepts :=
  Nat.ne_of_lt (h.consistent.timers l fd who armed).1

theorem Timing.spent_born (h : s.Timing) {l : Nat} {fd : Int} {who : Nat}
    (timeout : .timeout fd who ∈ (s.loops l).functors) : who ≠ s.accepts :=
  Nat.ne_of_lt (h.consistent.functors l _ timeout).1

theorem timing_step (h : s.Timing) {a : ServerAct} (hstep : s.step a = some t) : t.Timing where
  consistent := consistent_step h.consistent hstep
  held := held_step h.held hstep
  minded := minded_step h.minded hstep
  bound := by
    intro who m k found armed
    rcases live_step h.consistent hstep found with ⟨m', hm', hhome, hfd⟩ | ⟨rfl, rfl⟩
    · rw [← hhome, ← hfd] at armed
      rcases armed_step hstep armed with ⟨hold, -⟩ | ⟨rfl, -⟩
      · exact h.bound who m' k hm' hold
      · obtain ⟨⟨-, hclosed⟩, -⟩ := Option.ite_none_right_eq_some.mp hstep
        exact absurd rfl (not_open hclosed hm')
    · rw [timers_step hstep, timersAfter, if_pos rfl, Dict.find_insert_self] at armed
      exact (Option.some.inj armed).symm
  once := by
    intro l fd l' fd' who hl hl'
    rcases armed_step hstep hl with ⟨hold, -⟩ | ⟨rfl, rfl⟩
    · rcases armed_step hstep hl' with ⟨hold', -⟩ | ⟨-, hnew⟩
      · exact h.once l fd l' fd' who hold hold'
      · exact absurd hnew (h.unborn hold)
    · rcases armed_step hstep hl' with ⟨hold', -⟩ | ⟨hsame, -⟩
      · exact absurd rfl (h.unborn hold')
      · obtain ⟨rfl, rfl⟩ := ServerAct.accept.inj hsame
        exact ⟨rfl, rfl⟩
  spent := by
    intro l fd who timeout l' fd' armed
    rcases timeouts_step hstep timeout with hold | ⟨rfl, hfired⟩
    · rcases armed_step hstep armed with ⟨harmed, -⟩ | ⟨-, rfl⟩
      · exact h.spent l fd who hold l' fd' harmed
      · exact absurd rfl (h.spent_born hold)
    · rcases armed_step hstep armed with ⟨harmed, hother⟩ | ⟨hsame, -⟩
      · obtain ⟨rfl, rfl⟩ := h.once l fd l' fd' who hfired harmed
        exact absurd rfl hother
      · cases hsame

end

end Server

/-! ## The clock -/

/-- `HandleRead` goes through `AdjustTimer`. -/
def Connection.adjustsTimer (c : Connection) (arrival : Arrival) : Bool :=
  (c.read arrival).1 = .success && (c.read arrival).2.1.state = .connected

/-- `ticking` is the reading of a tick that is under way and `ticked` that of the last one that
is over; `refreshed` is the reading at which the timer of a connection was set last. -/
structure TimedServer where
  server : Server
  timer : Nat → Timer Nat := fun _ => {}
  clock : Nat := 0
  ticking : Nat → Option Nat := fun _ => none
  ticked : Nat → Nat := fun _ => 0
  refreshed : Nat → Nat := fun _ => 0

namespace TimedServer

open TimedLoop (clockEnd idleMs)

inductive Act where
  | advance (ms : Nat)
  | serve (a : ServerAct)
  | tick (loop : Nat)
  | fire (loop : Nat)
  | settle (loop : Nat)

/-- `ioLoop->AddTimer(connfd, 60000, ..)` -/
def addTimer (s : TimedServer) (l : Nat) (fd : Int) : TimedServer :=
  { s with
    timer := Function.update s.timer l
      ((s.timer l).add s.clock fd idleMs (some s.server.accepts))
    refreshed := Function.update s.refreshed s.server.accepts s.clock }

/-- `loop_->AdjustTimer(fd_, 60000)`, which sets nothing when there is no timer. -/
def adjustTimer (s : TimedServer) (who : Nat) (m : Shared) : TimedServer :=
  { s with
    timer := Function.update s.timer m.home ((s.timer m.home).adjust s.clock m.conn.fd idleMs)
    refreshed := if ((s.timer m.home).ref.find m.conn.fd).isSome then
      Function.update s.refreshed who s.clock else s.refreshed }

/-- What a step of the server does to the timers. -/
def timed (s : TimedServer) : ServerAct → TimedServer
  | .accept l fd => s.addTimer l fd
  | .readable who _ arrival =>
    (s.server.live.find who).elim s fun m =>
      if m.conn.adjustsTimer arrival then s.adjustTimer who m else s
  | _ => s

def isExpiry : ServerAct → Bool
  | .expire _ _ => true
  | _ => false

def step (s : TimedServer) : Act → Option TimedServer
  | .advance ms =>
    if s.clock + ms < clockEnd then some { s with clock := s.clock + ms } else none
  | .serve a =>
    if isExpiry a then none else (s.server.step a).map fun t => { s.timed a with server := t }
  | .tick l =>
    if s.ticking l = none then
      some { s with ticking := Function.update s.ticking l (some s.clock) }
    else none
  | .fire l =>
    match s.ticking l, (s.timer l).heap.head? with
    | some now, some node =>
      if node.expire ≤ now ∧ (s.server.loops l).idle then
        some { s with
          timer := Function.update s.timer l ((s.timer l).delete node.fd)
          server := node.cb.elim s.server (s.server.expire l node.fd) }
      else none
    | _, _ => none
  | .settle l =>
    match s.ticking l with
    | none => none
    | some now =>
      if ∀ node ∈ (s.timer l).heap.head?, now < node.expire then
        some { s with
          ticking := Function.update s.ticking l none
          ticked := Function.update s.ticked l now }
      else none

/-- The step that the server makes, as far as it makes one. -/
def serverActs (s : TimedServer) : Act → List ServerAct
  | .serve a => [a]
  | .fire l => (s.timer l).heap.head?.toList.map fun node => .expire l node.fd
  | .advance _ | .tick _ | .settle _ => []

/-- The timers of a loop as a table: who armed them, and when. -/
def table (s : TimedServer) (l : Nat) : TimerTable Nat := fun fd =>
  ((s.server.loops l).timers.find fd).map fun who => (s.refreshed who + idleMs, some who)

/-- The heaps hold the timers of the server. What is armed was set by now and was not due at the
last tick, and what has expired was due. -/
structure InTime (s : TimedServer) : Prop where
  timing : s.server.Timing
  clock : s.clock < clockEnd
  sound : ∀ l, (s.timer l).Sound (s.table l)
  armed : ∀ l fd who, (s.server.loops l).timers.find fd = some who →
    s.refreshed who ≤ s.clock ∧ s.ticked l < s.refreshed who + idleMs
  due : ∀ l fd who, .timeout fd who ∈ (s.server.loops l).functors →
    s.refreshed who + idleMs ≤ s.clock
  ticked : ∀ l, s.ticked l ≤ s.clock
  ticking : ∀ l, ∀ now ∈ s.ticking l, now ≤ s.clock

section
variable {s t : TimedServer}

theorem inTime_start (resourceDir : Str) (router : Option Router) :
    InTime { server := .new resourceDir router } where
  timing := Server.timing_new resourceDir router
  clock := by
    show 0 < 2 ^ 63
    omega
  sound _ := Timer.sound_empty
  armed := by
    intro l fd who hfind
    cases hfind
  due := by
    intro l fd who hmem
    cases hmem
  ticked _ := Nat.le_refl 0
  ticking := by
    intro l now hnow
    cases hnow

theorem InTime.expireAt (h : s.InTime) : Timer.expireAt s.clock idleMs = s.clock + idleMs := by
  have hclock := h.clock
  unfold clockEnd at hclock
  exact Timer.expireAt_eq (by unfold idleMs; omega)

/-- An entry of a loop depends on the timers of the loop and on those who armed them. -/
theorem table_congr {l : Nat}
    (timers : (t.server.loops l).timers = (s.server.loops l).timers)
    (refreshed : ∀ fd who, (s.server.loops l).timers.find fd = some who →
      t.refreshed who = s.refreshed who) : t.table l = s.table l := by
  funext fd
  unfold table
  rw [timers]
  apply Option.map_congr
  intro who hfind
  rw [refreshed fd who hfind]

/-! ### Steps of the server -/

theorem timed_frame (s : TimedServer) (a : ServerAct) : (s.timed a).clock = s.clock ∧
    (s.timed a).ticking = s.ticking ∧ (s.timed a).ticked = s.ticked := by
  unfold timed
  split
  · exact ⟨rfl, rfl, rfl⟩
  · cases s.server.live.find _ with
    | none => exact ⟨rfl, rfl, rfl⟩
    | some m =>
      rw [Option.elim_some]
      split
      · exact ⟨rfl, rfl, rfl⟩
      · exact ⟨rfl, rfl, rfl⟩
  · exact ⟨rfl, rfl, rfl⟩

/-- A new connection arms its timer. -/
theorem sound_addTimer (h : s.InTime) {l : Nat} {fd : Int}
    (hstep : s.server.step (.accept l fd) = some t.server)
    (timer : t.timer = Function.update s.timer l
      ((s.timer l).add s.clock fd idleMs (some s.server.accepts)))
    (refreshed : t.refreshed = (s.addTimer l fd).refreshed) (k : Nat) :
    (t.timer k).Sound (t.table k) := by
  have htimers := Server.timers_step hstep k
  have hothers : ∀ {fd' who}, (s.server.loops k).timers.find fd' = some who →
      t.refreshed who = s.refreshed who := by
    intro fd' who hfind
    rw [refreshed]
    exact Function.update_of_ne (h.timing.unborn hfind) _ _
  by_cases hk : k = l
  · subst hk
    rw [Server.timersAfter, if_pos rfl] at htimers
    have hadd := (h.sound k).add s.clock fd idleMs (some s.server.accepts)
    rw [h.expireAt] at hadd
    have htable : t.table k =
        Function.update (s.table k) fd (some (s.clock + idleMs, some s.server.accepts)) := by
      funext fd'
      by_cases hfd : fd' = fd
      · subst hfd
        simp [table, htimers, refreshed, addTimer]
      · rw [Function.update_of_ne hfd, table, htimers, Dict.find_insert_ne _ hfd]
        apply Option.map_congr
        intro who hfind
        rw [hothers hfind]
    rw [htable, timer, Function.update_self]
    exact hadd
  · rw [Server.timersAfter, if_neg hk] at htimers
    rw [table_congr htimers fun _ _ => hothers, timer, Function.update_of_ne hk]
    exact h.sound k

/-- A connection whose timer is armed sets it anew. -/
theorem sound_adjustTimer (h : s.InTime) {who : Nat} {m : Shared}
    (found : s.server.live.find who = some m)
    (timers : ∀ l, (t.server.loops l).timers = (s.server.loops l).timers)
    (timer : t.timer = Function.update s.timer m.home
      ((s.timer m.home).adjust s.clock m.conn.fd idleMs))
    (refreshed : t.refreshed = (s.adjustTimer who m).refreshed) (l : Nat) :
    (t.timer l).Sound (t.table l) := by
  rw [timer]
  cases hfind : (s.timer m.home).ref.find m.conn.fd with
  | none =>
    have hsame : t.refreshed = s.refreshed := by
      simp [refreshed, adjustTimer, hfind]
    have hnone : (s.timer m.home).adjust s.clock m.conn.fd idleMs = s.timer m.home := by
      rw [Timer.adjust, hfind]
    rw [hnone, Function.update_eq_self, table_congr (timers l) fun fd k _ => congrFun hsame k]
    exact h.sound l
  | some idx =>
    have hset : t.refreshed = Function.update s.refreshed who s.clock := by
      simp [refreshed, adjustTimer, hfind]
    obtain ⟨node, -, -, hentry⟩ := (h.sound m.home).find hfind
    obtain ⟨k, hk, -⟩ := Option.map_eq_some_iff.mp hentry
    obtain rfl := h.timing.bound who m k found hk
    have hothers : ∀ {l' fd j}, (s.server.loops l').timers.find fd = some j →
        ¬(l' = m.home ∧ fd = m.conn.fd) → t.refreshed j = s.refreshed j := by
      intro l' fd j hj hother
      refine (congrFun hset j).trans (Function.update_of_ne ?_ _ _)
      rintro rfl
      exact hother (h.timing.once l' fd m.home m.conn.fd j hj hk)
    by_cases hl : l = m.home
    · subst hl
      have hadjust := (h.sound m.home).adjust s.clock m.conn.fd idleMs
      rw [h.expireAt] at hadjust
      have htable : t.table m.home = Function.update (s.table m.home) m.conn.fd
          ((s.table m.home m.conn.fd).map fun e => (s.clock + idleMs, e.2)) := by
        funext fd
        by_cases hfd : fd = m.conn.fd
        · subst hfd
          rw [Function.update_self, table, table, timers, hk, hset]
          simp
        · rw [Function.update_of_ne hfd, table, table, timers]
          apply Option.map_congr
          intro j hj
          rw [hothers hj fun hown => hfd hown.2]
      rw [htable, Function.update_self]
      exact hadjust
    · rw [Function.update_of_ne hl, table_congr (timers l) fun fd j hj =>
        hothers hj fun hown => hl hown.1]
      exact h.sound l

theorem sound_serve (h : s.InTime) {a : ServerAct} (other : isExpiry a = false)
    (hstep : s.server.step a = some t.server) (timer : t.timer = (s.timed a).timer)
    (refreshed : t.refreshed = (s.timed a).refreshed) (l : Nat) : (t.timer l).Sound (t.table l) := by
  have hsame : (∀ k, (t.server.loops k).timers = (s.server.loops k).timers) → s.timed a = s →
      (t.timer l).Sound (t.table l) := by
    intro htimers hstill
    rw [hstill] at timer refreshed
    rw [timer, table_congr (htimers l) fun _ who _ => congrFun refreshed who]
    exact h.sound l
  cases a with
  | accept l' fd => exact sound_addTimer h hstep timer refreshed l
  | readable who env arrival =>
    have htimers := Server.timers_step hstep
    cases hfind : s.server.live.find who with
    | none => exact hsame htimers (by simp [timed, hfind])
    | some m =>
      cases hadjusts : m.conn.adjustsTimer arrival with
      | false => exact hsame htimers (by simp [timed, hfind, hadjusts])
      | true =>
        have htimed : s.timed (.readable who env arrival) = s.adjustTimer who m := by
          simp [timed, hfind, hadjusts]
        rw [htimed] at timer refreshed
        exact sound_adjustTimer h hfind htimers timer refreshed l
  | expire => cases other
  | writable | hangup | swap | run | destroy => exact hsame (Server.timers_step hstep) rfl

/-- Only a connection that is new or has its timer armed sets it. -/
theorem refreshed_serve (h : s.InTime) (a : ServerAct) (who : Nat) :
    (s.timed a).refreshed who = s.refreshed who ∨ (s.timed a).refreshed who = s.clock ∧
      (who = s.server.accepts ∨ ∃ l fd, (s.server.loops l).timers.find fd = some who) := by
  cases a with
  | accept l fd =>
    by_cases hwho : who = s.server.accepts
    · subst hwho
      exact .inr ⟨Function.update_self _ _ _, .inl rfl⟩
    · exact .inl (Function.update_of_ne hwho _ _)
  | readable j env arrival =>
    cases hfind : s.server.live.find j with
    | none => simp [timed, hfind]
    | some m =>
      cases hadjusts : m.conn.adjustsTimer arrival with
      | false => simp [timed, hfind, hadjusts]
      | true =>
        have htimed : s.timed (.readable j env arrival) = s.adjustTimer j m := by
          simp [timed, hfind, hadjusts]
        rw [htimed]
        cases href : (s.timer m.home).ref.find m.conn.fd with
        | none => simp [adjustTimer, href]
        | some idx =>
          obtain ⟨node, -, -, hentry⟩ := (h.sound m.home).find href
          obtain ⟨k, hk, -⟩ := Option.map_eq_some_iff.mp hentry
          obtain rfl := h.timing.bound j m k hfind hk
          have hset : (s.adjustTimer k m).refreshed = Function.update s.refreshed k s.clock := by
            simp [adjustTimer, href]
          rw [hset]
          by_cases hwho : who = k
          · subst hwho
            exact .inr ⟨Function.update_self _ _ _, .inr ⟨m.home, m.conn.fd, hk⟩⟩
          · exact .inl (Function.update_of_ne hwho _ _)
  | writable | hangup | expire | swap | run | destroy => exact .inl rfl

theorem inTime_serve (h : s.InTime) {a : ServerAct} (other : isExpiry a = false) {u : Server}
    (hstep : s.server.step a = some u) : InTime { s.timed a with server := u } := by
  obtain ⟨hclock, hticking, hticked⟩ := timed_frame s a
  refine ⟨Server.timing_step h.timing hstep, hclock ▸ h.clock,
    sound_serve h other hstep rfl rfl, ?_, ?_, ?_, ?_⟩
  · intro l fd who harmed
    show (s.timed a).refreshed who ≤ (s.timed a).clock ∧
      (s.timed a).ticked l < (s.timed a).refreshed who + idleMs
    have hticks := h.ticked l
    rw [hclock, hticked]
    rcases refreshed_serve h a who with hsame | ⟨hnow, -⟩
    · rw [hsame]
      rcases Server.armed_step hstep harmed with ⟨hold, -⟩ | ⟨rfl, rfl⟩
      · exact h.armed l fd who hold
      · have hset : s.clock = s.refreshed s.server.accepts :=
          (Function.update_self _ _ _).symm.trans hsame
        unfold idleMs
        omega
    · rw [hnow]
      unfold idleMs
      omega
  · intro l fd who htimeout
    show (s.timed a).refreshed who + idleMs ≤ (s.timed a).clock
    rw [hclock]
    have hold : .timeout fd who ∈ (s.server.loops l).functors := by
      rcases Server.timeouts_step hstep htimeout with hold | ⟨rfl, -⟩
      · exact hold
      · cases other
    rcases refreshed_serve h a who with hsame | ⟨-, rfl | ⟨l', fd', harmed⟩⟩
    · rw [hsame]
      exact h.due l fd who hold
    · exact absurd rfl (h.timing.spent_born hold)
    · exact absurd harmed (h.timing.spent l fd who hold l' fd')
  · intro l
    show (s.timed a).ticked l ≤ (s.timed a).clock
    rw [hclock, hticked]
    exact h.ticked l
  · intro l now hnow
    show now ≤ (s.timed a).clock
    rw [hclock]
    refine h.ticking l now ?_
    rw [← hticking]
    exact hnow

/-! ### Steps of a tick -/

/-- The node in front is that of a timer of the server. -/
theorem front_armed (h : s.InTime) {l : Nat} {node : TimerNode Nat}
    (front : (s.timer l).heap.head? = some node) : ∃ who,
      (s.server.loops l).timers.find node.fd = some who ∧ node.cb = some who ∧
        node.expire = s.refreshed who + idleMs := by
  have hmem : TimerNode.of node.fd (node.expire, node.cb) ∈ (s.timer l).heap :=
    List.mem_of_mem_head? front
  obtain ⟨who, hwho, hentry⟩ := Option.map_eq_some_iff.mp (((h.sound l).entries _ _).mpr hmem)
  obtain ⟨hexpire, hcb⟩ := Prod.mk.inj hentry
  exact ⟨who, hwho, hcb.symm, hexpire.symm⟩

theorem fire_step (h : s.InTime) {l : Nat} {node : TimerNode Nat}
    (front : (s.timer l).heap.head? = some node) (idle : (s.server.loops l).idle = true) :
    s.server.step (.expire l node.fd) =
      some (node.cb.elim s.server (s.server.expire l node.fd)) := by
  obtain ⟨who, hwho, hcb, -⟩ := front_armed h front
  simp only [Server.step, hwho, if_pos idle, hcb, Option.elim_some]

theorem sound_fire (h : s.InTime) {l : Nat} {fd : Int}
    (hstep : s.server.step (.expire l fd) = some t.server)
    (timer : t.timer = Function.update s.timer l ((s.timer l).delete fd))
    (refreshed : t.refreshed = s.refreshed) (k : Nat) : (t.timer k).Sound (t.table k) := by
  have htimers := Server.timers_step hstep k
  rw [timer]
  by_cases hk : k = l
  · subst hk
    rw [Server.timersAfter, if_pos rfl] at htimers
    have htable : t.table k = Function.update (s.table k) fd none := by
      funext fd'
      rw [table, htimers, refreshed]
      by_cases hfd : fd' = fd
      · subst hfd
        rw [Dict.find_erase_self, Function.update_self, Option.map_none]
      · rw [Dict.find_erase_ne _ hfd, Function.update_of_ne hfd, table]
    rw [htable, Function.update_self]
    exact (h.sound k).delete fd
  · rw [Server.timersAfter, if_neg hk] at htimers
    rw [table_congr htimers fun _ who _ => congrFun refreshed who, Function.update_of_ne hk]
    exact h.sound k

theorem inTime_fire (h : s.InTime) {l now : Nat} {node : TimerNode Nat}
    (reading : s.ticking l = some now) (front : (s.timer l).heap.head? = some node)
    (due : node.expire ≤ now) (idle : (s.server.loops l).idle = true) :
    InTime { s with
      timer := Function.update s.timer l ((s.timer l).delete node.fd)
      server := node.cb.elim s.server (s.server.expire l node.fd) } := by
  have hstep := fire_step h front idle
  obtain ⟨who, hwho, -, hexpire⟩ := front_armed h front
  have hnow := h.ticking l now reading
  generalize node.cb.elim s.server (s.server.expire l node.fd) = u at hstep ⊢
  have hkept : ∀ {k fd who}, (u.loops k).timers.find fd = some who →
      (s.server.loops k).timers.find fd = some who := by
    intro k fd who harmed
    rcases Server.armed_step hstep harmed with ⟨hold, -⟩ | ⟨hsame, -⟩
    · exact hold
    · cases hsame
  refine ⟨Server.timing_step h.timing hstep, h.clock, sound_fire h hstep rfl rfl,
    fun k fd who harmed => h.armed k fd who (hkept harmed), ?_, h.ticked, h.ticking⟩
  · intro k fd j htimeout
    rcases Server.timeouts_step hstep htimeout with hold | ⟨hsame, harmed⟩
    · exact h.due k fd j hold
    · obtain ⟨rfl, rfl⟩ := ServerAct.expire.inj hsame
      obtain rfl := Option.some.inj (hwho.symm.trans harmed)
      show s.refreshed who + idleMs ≤ s.clock
      omega

/-- At the end of a tick nothing is due at its reading. -/
theorem inTime_settle (h : s.InTime) {l now : Nat} (reading : s.ticking l = some now)
    (rest : ∀ node ∈ (s.timer l).heap.head?, now < node.expire) :
    InTime { s with
      ticking := Function.update s.ticking l none
      ticked := Function.update s.ticked l now } := by
  refine ⟨h.timing, h.clock, h.sound, ?_, h.due, ?_, ?_⟩
  · intro k fd who harmed
    refine ⟨(h.armed k fd who harmed).1, ?_⟩
    show Function.update s.ticked l now k < s.refreshed who + idleMs
    by_cases hk : k = l
    · subst hk
      rw [Function.update_self]
      have hnode : TimerNode.of fd (s.refreshed who + idleMs, some who) ∈ (s.timer k).heap :=
        ((h.sound k).entries _ _).mp (Option.map_eq_some_iff.mpr ⟨who, harmed, rfl⟩)
      cases hfront : (s.timer k).heap.head? with
      | none =>
        rw [List.head?_eq_none_iff] at hfront
        rw [hfront] at hnode
        cases hnode
      | some front => exact Nat.lt_of_lt_of_le (rest front hfront) ((h.sound k).front hfront hnode)
    · rw [Function.update_of_ne hk]
      exact (h.armed k fd who harmed).2
  · intro k
    show Function.update s.ticked l now k ≤ s.clock
    by_cases hk : k = l
    · subst hk
      rw [Function.update_self]
      exact h.ticking k now reading
    · rw [Function.update_of_ne hk]
      exact h.ticked k
  · intro k now' hnow'
    by_cases hk : k = l
    · subst hk
      simp at hnow'
    · have hold : now' ∈ s.ticking k := by simpa [Function.update_of_ne hk] using hnow'
      exact h.ticking k now' hold

/-! ### Runs -/

theorem inTime_step (h : s.InTime) {a : Act} (hstep : s.step a = some t) : t.InTime := by
  cases a with
  | advance ms =>
    obtain ⟨hclock, ht⟩ := Option.ite_none_right_eq_some.mp hstep
    obtain rfl := Option.some.inj ht
    refine ⟨h.timing, hclock, h.sound, ?_, ?_, ?_, ?_⟩
    · intro l fd who harmed
      obtain ⟨hset, hticked⟩ := h.armed l fd who harmed
      exact ⟨Nat.le_add_right_of_le hset, hticked⟩
    · exact fun l fd who htimeout => Nat.le_add_right_of_le (h.due l fd who htimeout)
    · exact fun l => Nat.le_add_right_of_le (h.ticked l)
    · exact fun l now hnow => Nat.le_add_right_of_le (h.ticking l now hnow)
  | serve a =>
    simp only [step] at hstep
    split at hstep
    · cases hstep
    · next hother =>
      obtain ⟨u, hu, rfl⟩ := Option.map_eq_some_iff.mp hstep
      exact inTime_serve h (eq_false_of_ne_true hother) hu
  | tick l =>
    obtain ⟨-, ht⟩ := Option.ite_none_right_eq_some.mp hstep
    obtain rfl := Option.some.inj ht
    refine ⟨h.timing, h.clock, h.sound, h.armed, h.due, h.ticked, ?_⟩
    intro k now hnow
    by_cases hk : k = l
    · subst hk
      have hread : s.clock = now := by simpa using hnow
      exact hread.ge
    · have hold : now ∈ s.ticking k := by simpa [Function.update_of_ne hk] using hnow
      exact h.ticking k now hold
  | fire l =>
    simp only [step] at hstep
    split at hstep
    · next now node hreading hfront =>
      obtain ⟨⟨hdue, hidle⟩, ht⟩ := Option.ite_none_right_eq_some.mp hstep
      exact Option.some.inj ht ▸ inTime_fire h hreading hfront hdue hidle
    · cases hstep
  | settle l =>
    simp only [step] at hstep
    split at hstep
    · cases hstep
    · next now hreading =>
      obtain ⟨hrest, ht⟩ := Option.ite_none_right_eq_some.mp hstep
      exact Option.some.inj ht ▸ inTime_settle h hreading hrest

theorem server_of_step (h : s.InTime) {a : Act} (hstep : s.step a = some t) :
    s.server.exec (s.serverActs a) = some t.server := by
  have hone : ∀ {b : ServerAct}, s.server.step b = some t.server →
      s.server.exec [b] = some t.server :=
    fun hb => (GuardedRuns.exec_cons_iff _ _ _ _ _).mpr ⟨_, hb, rfl⟩
  cases a with
  | advance | tick =>
    obtain ⟨-, ht⟩ := Option.ite_none_right_eq_some.mp hstep
    obtain rfl := Option.some.inj ht
    rfl
  | serve a =>
    simp only [step] at hstep
    split at hstep
    · cases hstep
    · obtain ⟨u, hu, rfl⟩ := Option.map_eq_some_iff.mp hstep
      exact hone hu
  | fire l =>
    simp only [step] at hstep
    split at hstep
    · next now node hreading hfront =>
      obtain ⟨⟨-, hidle⟩, ht⟩ := Option.ite_none_right_eq_some.mp hstep
      obtain rfl := Option.some.inj ht
      have hacts : s.serverActs (.fire l) = [.expire l node.fd] := by
        simp [serverActs, hfront]
      rw [hacts]
      exact hone (fire_step h hfront hidle)
    · cases hstep
  | settle l =>
    simp only [step] at hstep
    split at hstep
    · cases hstep
    · obtain ⟨-, ht⟩ := Option.ite_none_right_eq_some.mp hstep
      obtain rfl := Option.some.inj ht
      rfl

end

/-- A timer asks for the removal of its connection no earlier than 60 seconds after it was set
last; and when a loop has no functors, each connection it still has was accepted, or read from in
state Connected, less than 60 seconds before the last tick of the loop. The server goes through a
run of its own all the while. -/
theorem idle_connections {resourceDir : Str} {router : Option Router} {as : List Act}
    {t : TimedServer}
    (run : GuardedRuns.exec step { server := .new resourceDir router } as = some t) :
    Server.exec (.new resourceDir router)
        (GuardedRuns.seen step serverActs { server := .new resourceDir router } as) =
          some t.server ∧
      (∀ l fd who, .timeout fd who ∈ (t.server.loops l).functors →
        t.refreshed who + idleMs ≤ t.clock) ∧
      ∀ who m, t.server.live.find who = some m → (t.server.loops m.home).functors = [] →
        t.ticked m.home < t.refreshed who + idleMs := by
  have hstart := inTime_start resourceDir router
  have hpreserved : ∀ s a t, InTime s → step s a = some t → InTime t :=
    fun _ _ _ h hstep => inTime_step h hstep
  have htime : t.InTime := GuardedRuns.invariant_of_run InTime hpreserved hstart run
  refine ⟨?_, htime.due, ?_⟩
  · exact GuardedRuns.exec_projected TimedServer.server InTime hpreserved
      (fun _ _ _ h hstep => server_of_step h hstep) hstart run
  · intro who m found rest
    have hheld := (htime.timing.held who m found).resolve_left List.not_mem_nil
    rcases (Server.holds_iff _ who).mp hheld with ⟨fd, hfind⟩ | ⟨f, hf, -⟩
    · obtain ⟨m', hm', -, rfl⟩ := htime.timing.consistent.registered m.home fd who hfind
      rcases htime.timing.minded m.home _ who hfind with harmed | ⟨k, hwaits⟩
      · exact (htime.armed m.home _ who harmed).2
      · have hnone : (t.server.loops m.home).waiting = [] := by
          rw [EventLoop.functors, List.append_assoc] at rest
          exact (List.append_eq_nil_iff.mp rest).2
        rw [hnone] at hwaits
        exact absurd hwaits (by simp)
    · rw [rest] at hf
      cases hf

/-- Half a request sets the timer anew; the rest of it never comes. -/
theorem idle_connections_one :
    let half := .serve (.readable 0 (Env.table []) ⟨[⟨lit "GET /", by decide⟩], .again⟩)
    let as := [.serve (.accept 0 5), .advance 30000, half, .advance 59999, .tick 0, .settle 0]
    ∃ s t, GuardedRuns.exec step { server := .new (lit "/w") none } as = some s ∧
      s.ticked 0 < s.refreshed 0 + idleMs ∧ s.clock = 89999 ∧
      GuardedRuns.exec step { server := .new (lit "/w") none }
        (as ++ [.advance 1, .tick 0, .fire 0]) = some t ∧ t.refreshed 0 + idleMs ≤ t.clock := by
  intro half as
  have hrests : (GuardedRuns.exec step { server := .new (lit "/w") none } as).map (fun s =>
      ((s.server.live.find 0).map Shared.home, decide ((s.server.loops 0).functors = []),
        s.clock)) = some (some 0, true, 89999) := by
    decide +kernel
  have hfires : (GuardedRuns.exec step { server := .new (lit "/w") none }
      (as ++ [.advance 1, .tick 0, .fire 0])).map (fun t =>
        decide (.timeout 5 0 ∈ (t.server.loops 0).functors)) = some true := by
    decide +kernel
  obtain ⟨s, hs, hfacts⟩ := Option.map_eq_some_iff.mp hrests
  obtain ⟨hfound, hrest⟩ := Prod.mk.inj hfacts
  obtain ⟨hidle, hclock⟩ := Prod.mk.inj hrest
  obtain ⟨m, hm, hhome⟩ := Option.map_eq_some_iff.mp hfound
  obtain ⟨t, ht, htimeout⟩ := Option.map_eq_some_iff.mp hfires
  refine ⟨s, t, hs, ?_, hclock, ht, (idle_connections ht).2.1 0 5 0 (of_decide_eq_true htimeout)⟩
  have hticked := (idle_connections hs).2.2 0 m hm
  rw [hhome] at hticked
  exact hticked (of_decide_eq_true hidle)

end TimedServer

end WebServer
