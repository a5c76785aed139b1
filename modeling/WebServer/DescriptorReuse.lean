import WebServer.AcceptStages

/-!
# Removal by descriptor

`connections_.erase(fd)` is queued by number, two hops after the connection it is meant
for was known, and the number may have been given away again by then. The guard excludes
the two steps that make this go wrong: a connection is entered under a number that a
functor of the same loop is still going to remove, and a timer left over in that loop
under that number expires before the accept has replaced it. Any other timer that is left
over is not excluded; in another loop it finds nothing.
-/

namespace WebServer

open KeyedList Connection

/-- A removal takes the connection it was queued for, or none. -/
def ServerEffect.Own : ServerEffect → Prop
  | .erased _ _ whom removed => removed = none ∨ removed = some whom
  | _ => True

/-- The number that a functor is going to remove by, and for whom. -/
def LoopFunctor.target : LoopFunctor → Option (Int × Nat)
  | .timeout fd who => some (fd, who)
  | .erase fd who => some (fd, who)
  | .call _ _ => none

namespace EventLoop

/-- A timer or a functor is going to remove by this number, on behalf of `who`; a timer that
an accept is about to replace does not count. -/
def Marks (l : EventLoop) (replaced : Int → Prop) (fd : Int) (who : Nat) : Prop :=
  (l.timers.find fd = some who ∧ ¬replaced fd) ∨ ∃ f ∈ l.waiting, f.target = some (fd, who)

end EventLoop

namespace Server

/-- Whatever is going to remove by a number was made for the connection under it. -/
structure Unmistaken (replaced : Nat → Int → Prop) (s : Server) : Prop where
  marks : ∀ l fd who, (s.loops l).Marks (replaced l) fd who →
    ∀ who', (s.loops l).connections.find fd = some who' → who' = who
  own : ∀ e ∈ s.log, e.Own

variable {replaced : Nat → Int → Prop}

theorem unmistaken_setLoop {s : Server} (h : s.Unmistaken replaced) {l : Nat} {loop : EventLoop}
    (connections : ∀ fd who, loop.connections.find fd = some who →
      (s.loops l).connections.find fd = some who)
    (marks : ∀ fd who, loop.Marks (replaced l) fd who → (s.loops l).Marks (replaced l) fd who ∨
      ∀ who', (s.loops l).connections.find fd = some who' → who' = who) :
    (s.setLoop l loop).Unmistaken replaced := by
  refine ⟨?_, h.own⟩
  intro k fd who hmarks who' hfind
  rcases loops_setLoop s l k loop with ⟨rfl, hk⟩ | hk
  · rw [hk] at hmarks hfind
    rcases marks fd who hmarks with hold | hnew
    · exact h.marks k fd who hold who' (connections fd who' hfind)
    · exact hnew who' (connections fd who' hfind)
  · rw [hk] at hmarks hfind
    exact h.marks k fd who hmarks who' hfind

theorem log_drop (s : Server) (who : Nat) :
    ∃ es, (s.drop who).log = s.log ++ es ∧ ∀ e ∈ es, e.Own := by
  have hend := drop_end s who
  generalize s.drop who = t at hend ⊢
  cases hend with
  | kept => exact ⟨[], (List.append_nil _).symm, by simp⟩
  | released m =>
    refine ⟨_, List.append_assoc _ _ _, ?_⟩
    intro e he
    simp only [List.mem_append, List.mem_singleton] at he
    rcases he with rfl | rfl
    · trivial
    · by_cases hfull : (s.loops m.home).pool.objects.length < ObjectPool.maxSize
      · rw [if_pos hfull]
        trivial
      · rw [if_neg hfull]
        trivial

theorem unmistaken_drop {s : Server} (h : s.Unmistaken replaced) (who : Nat) :
    (s.drop who).Unmistaken replaced := by
  constructor
  · intro l fd who' hmarks
    obtain ⟨pool, hloop⟩ := loops_drop s who l
    rw [hloop] at hmarks ⊢
    exact h.marks l fd who' hmarks
  · obtain ⟨es, hlog, hown⟩ := log_drop s who
    rw [hlog]
    exact List.forall_mem_append.mpr ⟨h.own, hown⟩

theorem unmistaken_record {s : Server} (h : s.Unmistaken replaced) {e : ServerEffect}
    (own : e.Own) : (s.record e).Unmistaken replaced :=
  ⟨h.marks, List.forall_mem_append.mpr ⟨h.own, List.forall_mem_singleton.mpr own⟩⟩

/-- The connection under the number of a live connection of the loop is that one. -/
theorem registered_unique {s : Server} (h : s.Consistent) {l : Nat} {who who' : Nat} {m : Shared}
    (found : s.live.find who = some m)
    (hfind : (s.loops l).connections.find m.conn.fd = some who') : who' = who := by
  obtain ⟨m', hm', -, hfd⟩ := h.registered l _ who' hfind
  exact h.distinct who' who m' m hm' found hfd

theorem target_functorsOf {who who' : Nat} {fd : Int} {fx : List Effect} {f : LoopFunctor}
    (hf : f ∈ functorsOf who fx) (htarget : f.target = some (fd, who')) :
    who' = who ∧ .removal fd ∈ fx := by
  obtain ⟨e, he, hfe⟩ := List.mem_filterMap.mp hf
  cases e with
  | removal fd' =>
    obtain rfl := Option.some.inj hfe
    obtain ⟨rfl, rfl⟩ := Prod.mk.inj (Option.some.inj htarget)
    exact ⟨rfl, he⟩
  | queued cb =>
    obtain rfl := Option.some.inj hfe
    cases htarget
  | received | parsed | opened | responded | sent | transferred | discarded | finished => cases hfe

theorem unmistaken_queueInLoop {s : Server} (h : s.Unmistaken replaced) {l : Nat}
    {fs : List LoopFunctor}
    (targets : ∀ f ∈ fs, ∀ fd who, f.target = some (fd, who) →
      ∀ who', (s.loops l).connections.find fd = some who' → who' = who) :
    (s.queueInLoop l fs).Unmistaken replaced := by
  refine unmistaken_setLoop h (fun _ _ hfind => hfind) ?_
  rintro fd who (htimer | ⟨f, hf, htarget⟩)
  · exact Or.inl (Or.inl htimer)
  · simp only [EventLoop.waiting, ← List.append_assoc] at hf
    rcases List.mem_append.mp hf with hold | hnew
    · exact Or.inl (Or.inr ⟨f, hold, htarget⟩)
    · exact Or.inr (targets f hnew fd who htarget)

theorem unmistaken_perform {s : Server} (h : s.Unmistaken replaced) (hc : s.Consistent) {who : Nat}
    {m : Shared} (found : s.live.find who = some m) {out : Connection × List Effect}
    (stays : Stays m.conn out) : (s.perform who m out).Unmistaken replaced := by
  have hqueued : (s.queueInLoop m.home (functorsOf who out.2)).Unmistaken replaced := by
    refine unmistaken_queueInLoop h ?_
    intro f hf fd who' htarget who'' hfind
    obtain ⟨rfl, hremoval⟩ := target_functorsOf hf htarget
    rw [stays.removals fd hremoval] at hfind
    exact registered_unique hc found hfind
  exact ⟨hqueued.marks, hqueued.own⟩

/-- The timer that stands under the number does not count until it is replaced. -/
theorem unmistaken_enter {s : Server} (h : s.Unmistaken fun _ _ => False) {l : Nat} {fd : Int}
    (noLeftover : ∀ f ∈ (s.loops l).waiting, f.target.map Prod.fst ≠ some fd) (o : Pooled)
    (objects : Nat) (pool : ObjectPool) :
    (s.enter l fd o objects pool).Unmistaken fun k fd' => k = l ∧ fd' = fd := by
  refine ⟨?_, List.forall_mem_append.mpr ⟨h.own, by simp [ServerEffect.Own]⟩⟩
  intro k fd' who hmarks who' hfind
  have hold : ∀ loop : EventLoop, loop.timers = (s.loops k).timers →
      loop.waiting = (s.loops k).waiting → loop.Marks (fun fd' => k = l ∧ fd' = fd) fd' who →
      (s.loops k).Marks (fun _ => False) fd' who := by
    rintro loop htimers hwaiting (⟨htimer, -⟩ | hfunctor)
    · exact Or.inl ⟨htimers ▸ htimer, not_false⟩
    · exact Or.inr (hwaiting ▸ hfunctor)
  rcases loops_setLoop { s with
    live := s.live.insert s.accepts ⟨o.object, l, o.conn.enableReadEvent⟩
    accepts := s.accepts + 1
    objects } l k { s.loops l with
      pool
      connections := (s.loops l).connections.insert fd s.accepts } with ⟨rfl, hk⟩ | hk
  · rw [enter, loops_record, hk] at hmarks hfind
    by_cases hfd : fd' = fd
    · rcases hmarks with ⟨-, hnot⟩ | ⟨f, hf, htarget⟩
      · exact absurd ⟨rfl, hfd⟩ hnot
      · exact absurd (by rw [htarget, hfd]; rfl) (noLeftover f hf)
    · exact h.marks k fd' who (hold _ rfl rfl hmarks) who'
        ((Dict.find_insert_ne _ hfd _).symm.trans hfind)
  · rw [enter, loops_record, hk] at hmarks hfind
    exact h.marks k fd' who (hold _ rfl rfl hmarks) who' hfind

/-- The connection has the timer of its number from now on. -/
theorem unmistaken_addTimer {s : Server} (hc : s.Consistent) {l : Nat} {fd : Int} {who : Nat}
    (h : s.Unmistaken fun k fd' => k = l ∧ fd' = fd) (has : s.Has who l fd) :
    (s.addTimer l fd who).Unmistaken fun _ _ => False := by
  refine ⟨?_, h.own⟩
  intro k fd' who₁ hmarks who₂ hfind
  obtain ⟨timers, hloop⟩ := loops_addTimer s l fd who k
  have hregistered : (s.loops k).connections.find fd' = some who₂ := by
    rw [hloop] at hfind
    exact hfind
  -- the connection under the number is the one that the main thread holds
  have hmine : k = l → fd' = fd → who₂ = who := by
    rintro rfl rfl
    obtain ⟨m, hm, rfl, rfl⟩ := has
    exact registered_unique hc hm hregistered
  rcases hmarks with ⟨htimer, -⟩ | hfunctor
  · rcases timers_addTimer htimer with ⟨hk, hfd, rfl⟩ | hold
    · exact hmine hk hfd
    · by_cases hhere : k = l ∧ fd' = fd
      · obtain ⟨rfl, rfl⟩ := hhere
        have hnew : ((s.addTimer k fd' who).loops k).timers.find fd' = some who := by
          rw [addTimer, loops_setLoop_self]
          exact Dict.find_insert_self _ _ _
        obtain rfl := Option.some.inj (htimer.symm.trans hnew)
        exact hmine rfl rfl
      · exact h.marks k fd' who₁ (Or.inl ⟨hold, hhere⟩) who₂ hregistered
  · rw [hloop] at hfunctor
    exact h.marks k fd' who₁ (Or.inr hfunctor) who₂ hregistered

theorem unmistaken_take {s : Server} (h : s.Unmistaken replaced) {l : Nat} {f : LoopFunctor}
    {rest : List LoopFunctor} (hbatch : (s.loops l).batch = f :: rest) :
    (s.take l f rest).Unmistaken replaced := by
  refine unmistaken_setLoop h (fun _ _ hfind => hfind) ?_
  rintro fd who (htimer | ⟨g, hg, htarget⟩)
  · exact Or.inl (Or.inl htimer)
  · refine Or.inl (Or.inr ⟨g, ?_, htarget⟩)
    rw [EventLoop.waiting, hbatch]
    exact List.mem_cons_of_mem f hg

theorem unmistaken_dropBut {s : Server} (h : s.Unmistaken replaced) (guest : Option Nat)
    (who : Nat) : (s.dropBut guest who).Unmistaken replaced :=
  dropBut_keeps (Unmistaken replaced) (fun _ who h => unmistaken_drop h who) h guest who

theorem unmistaken_runFunctorBut {s : Server} (h : s.Unmistaken replaced) (hc : s.Consistent)
    (guest : Option Nat) {l : Nat} (env : Env) (sends : Transfers) {f : LoopFunctor}
    (refers : s.Refers l f)
    (mine : ∀ fd who, f.target = some (fd, who) →
      ∀ who', (s.loops l).connections.find fd = some who' → who' = who) :
    (s.runFunctorBut guest l env sends f).Unmistaken replaced := by
  cases f with
  | call who cb =>
    obtain ⟨m, hfind, -⟩ := refers
    simp only [runFunctorBut, runFunctor, hfind, Option.elim_some]
    exact unmistaken_perform h hc hfind (stays_call (hc.buffers who m hfind) cb env sends)
  | timeout fd who =>
    refine unmistaken_queueInLoop h ?_
    intro f hf fd' who' htarget
    obtain rfl := List.mem_singleton.mp hf
    obtain ⟨rfl, rfl⟩ := Prod.mk.inj (Option.some.inj htarget)
    exact mine _ _ rfl
  | erase fd who =>
    have hforgot : (s.setLoop l { s.loops l with
        connections := (s.loops l).connections.erase fd }).Unmistaken replaced :=
      unmistaken_setLoop h (fun _ _ hfind => Dict.find_of_erase hfind) (fun _ _ hm => Or.inl hm)
    refine elim_dropBut_keeps (Unmistaken replaced) (fun _ who h => unmistaken_dropBut h guest who)
      (unmistaken_record hforgot ?_) _
    cases hfind : (s.loops l).connections.find fd with
    | none => exact Or.inl rfl
    | some who' => exact Or.inr (congrArg some (mine fd who rfl who' hfind))

theorem unmistaken_stepBut {s t : Server} {guest : Option Nat} {a : ServerAct}
    (h : s.Unmistaken replaced) (hc : s.Consistent)
    (armed : ∀ l fd, a = .expire l fd → ¬replaced l fd) (hstep : s.stepBut guest a = some t) :
    t.Unmistaken replaced := by
  cases takenBut_of_stepBut hc hstep with
  | event who m _ out hfind hstays => exact unmistaken_perform h hc hfind hstays
  | expire l fd who hfind =>
    refine unmistaken_setLoop h (fun _ _ hfind => hfind) ?_
    rintro fd' who' (⟨htimer, hnot⟩ | ⟨f, hf, htarget⟩)
    · exact Or.inl (Or.inl ⟨Dict.find_of_erase htimer, hnot⟩)
    · simp only [EventLoop.waiting, ← List.append_assoc] at hf
      rcases List.mem_append.mp hf with hold | hnew
      · exact Or.inl (Or.inr ⟨f, hold, htarget⟩)
      · obtain rfl := List.mem_singleton.mp hnew
        obtain ⟨rfl, rfl⟩ := Prod.mk.inj (Option.some.inj htarget)
        exact Or.inl (Or.inl ⟨hfind, armed l fd rfl⟩)
  | swap l =>
    refine unmistaken_setLoop h (fun _ _ hfind => hfind) ?_
    rintro fd who (htimer | ⟨f, hf, htarget⟩)
    · exact Or.inl (Or.inl htimer)
    · refine Or.inl (Or.inr ⟨f, List.mem_append_right _ ?_, htarget⟩)
      simpa [EventLoop.waiting] using hf
  | run l env sends f rest hbatch =>
    have hmem : f ∈ (s.loops l).functors := by simp [EventLoop.functors, hbatch]
    refine unmistaken_runFunctorBut (unmistaken_take h hbatch) (consistent_take hc hbatch) guest
      env sends (by cases f <;> exact hc.functors l _ hmem) ?_
    intro fd who htarget who' hfind
    have hmarks : (s.loops l).Marks (replaced l) fd who :=
      Or.inr ⟨f, by simp [EventLoop.waiting, hbatch], htarget⟩
    refine h.marks l fd who hmarks who' ?_
    simpa [take] using hfind
  | destroy l =>
    have hforgot : (s.setLoop l { s.loops l with ran := [] }).Unmistaken replaced :=
      unmistaken_setLoop h (fun _ _ hfind => hfind) (fun _ _ hm => Or.inl hm)
    exact dropsBut_keep (Unmistaken replaced) (fun _ who h => unmistaken_dropBut h guest who)
      hforgot _

theorem unmistaken_started {s : Server} (h : s.Started) : s.Unmistaken replaced := by
  constructor
  · intro l fd who _ who' hfind
    rw [h.loops l] at hfind
    cases hfind
  · intro e he
    rw [h.log] at he
    cases he

end Server

namespace Staged

open Server

/-- The timer of this number is left over: the connection entered under it has none yet. -/
def replaces (s : Staged) (l : Nat) (fd : Int) : Bool :=
  s.entry.any fun e => e.home = l ∧ e.fd = fd ∧ e.stage ≠ .armed

/-- No connection is entered under a number that a functor of its loop will remove, and no
timer left over under that number expires before it is replaced. -/
def NoLeftover (s : Staged) : StagedAct → Prop
  | .addConnection l fd => ∀ f ∈ (s.server.loops l).waiting, f.target.map Prod.fst ≠ some fd
  | .other (.expire l fd) => s.replaces l fd = false
  | _ => True

instance (s : Staged) : (a : StagedAct) → Decidable (NoLeftover s a)
  | .addConnection _ _ => by unfold NoLeftover; infer_instance
  | .other (.expire _ _) => by unfold NoLeftover; infer_instance
  | .other (.accept _ _) | .other (.readable _ _ _) | .other (.writable _ _ _)
  | .other (.hangup _) | .other (.swap _) | .other (.run _ _ _) | .other (.destroy _)
  | .addChannel | .addTimer | .leave => .isTrue trivial

/-- Whatever is going to remove by a number was made for the connection under it. -/
def Unmistaken (s : Staged) : Prop := s.server.Unmistaken fun l fd => s.replaces l fd = true

theorem unmistaken_step {s t : Staged} {a : StagedAct} (h : s.Unmistaken) (hs : s.Sound)
    (noLeftover : NoLeftover s a) (hstep : s.step a = some t) : t.Unmistaken := by
  have hnone : ∀ t : Staged, (∀ l fd, t.replaces l fd = false) →
      (fun l fd => t.replaces l fd = true) = fun _ _ => False := by
    intro t hall
    funext l fd
    rw [hall l fd]
    exact eq_false Bool.false_ne_true
  have hhere : ∀ {t : Staged} {e : Entering}, t.entry = some e → e.stage ≠ .armed →
      (fun l fd => t.replaces l fd = true) = fun l fd => l = e.home ∧ fd = e.fd := by
    intro t e hentry hstage
    funext l fd
    refine propext ⟨?_, ?_⟩
    · intro hreplaced
      obtain ⟨hhome, hfd, -⟩ : e.home = l ∧ e.fd = fd ∧ e.stage ≠ .armed := by
        simpa [replaces, hentry] using hreplaced
      exact ⟨hhome.symm, hfd.symm⟩
    · rintro ⟨rfl, rfl⟩
      simp [replaces, hentry, hstage]
  cases taken_of_step hstep with
  | addConnection l fd hidle =>
    have hbefore : s.server.Unmistaken fun _ _ => False := by
      rw [← hnone s fun l fd => by simp [replaces, hidle]]
      exact h
    rw [Unmistaken, hhere rfl (by simp)]
    exact elim_drop_keeps (Server.Unmistaken _) (fun _ who h => unmistaken_drop h who)
      (unmistaken_enter hbefore noLeftover _ _ _) _
  | addChannel who l fd hentry =>
    have hbefore : s.server.Unmistaken fun k fd' => k = l ∧ fd' = fd := by
      rw [← hhere hentry (by simp)]
      exact h
    rw [Unmistaken, hhere rfl (by simp)]
    exact hbefore
  | addTimer who l fd hentry =>
    have hbefore : s.server.Unmistaken fun k fd' => k = l ∧ fd' = fd := by
      rw [← hhere hentry (by simp)]
      exact h
    rw [Unmistaken, hnone _ fun k fd' => by simp [replaces]]
    exact unmistaken_addTimer hs.consistent hbefore (hs.held _ hentry)
  | leave who l fd hentry =>
    have hbefore : s.server.Unmistaken fun _ _ => False := by
      rw [← hnone s fun k fd' => by simp [replaces, hentry]]
      exact h
    rw [Unmistaken, hnone _ fun k fd' => by simp [replaces]]
    exact unmistaken_drop hbefore who
  | other a t hother =>
    refine unmistaken_stepBut h hs.consistent ?_ hother
    rintro l fd rfl hreplaced
    exact absurd (hreplaced.symm.trans noLeftover) (by simp)

/-- In a run without such steps every removal by descriptor takes the connection it was
queued for, or none. -/
theorem erased_own {s t : Staged} (started : s.server.Started) (between : s.entry = none)
    {as : List StagedAct} (run : exec s as = some t)
    (guarded : GuardedRuns.Guarded step NoLeftover s as) :
    ∀ l fd whom removed, .erased l fd whom removed ∈ t.server.log →
      removed = none ∨ removed = some whom := by
  have hsound : s.Sound := by
    refine ⟨consistent_started started, ?_⟩
    intro e he
    rw [between] at he
    cases he
  have hinv := GuardedRuns.invariant_of_guarded (fun s => s.Sound ∧ s.Unmistaken)
    (fun _ _ _ h hok hstep => ⟨sound_step h.1 hstep, unmistaken_step h.2 h.1 hok hstep⟩)
    ⟨hsound, unmistaken_started started⟩ guarded run
  intro l fd whom removed hmem
  exact hinv.2.own _ hmem

/-- The stages of one accept, with nothing between them. -/
def accepts (l : Nat) (fd : Int) : List StagedAct :=
  [.addConnection l fd, .addChannel, .addTimer, .leave]

/-- A connection is removed twice. Its number is given away after that, and the timer that it
left over is replaced although the loop goes on in the meantime. -/
theorem erased_own_twice :
    let env := Env.table []
    let batch := fun count => (batchOf 0 env ⟨[], .again⟩ count).map StagedAct.other
    let as := accepts 0 5 ++ [.other (peerCloses 0 env), .other (.hangup 0)] ++ batch 2 ++
      batch 2 ++ [.addConnection 0 5] ++ batch 0 ++ [.addChannel, .other (.hangup 1), .addTimer] ++
      batch 1 ++ [.leave]
    ∃ t, exec ⟨new (lit "/w") none, none⟩ as = some t ∧ .erased 0 5 0 none ∈ t.server.log ∧
      ∀ l fd whom removed, .erased l fd whom removed ∈ t.server.log →
        removed = none ∨ removed = some whom := by
  intro env batch as
  have hlog : (exec ⟨new (lit "/w") none, none⟩ as).map (fun t =>
      decide (.erased 0 5 0 none ∈ t.server.log)) = some true := by
    decide +kernel
  obtain ⟨t, ht, hmem⟩ := Option.map_eq_some_iff.mp hlog
  exact ⟨t, ht, of_decide_eq_true hmem,
    erased_own (started_new (lit "/w") none) rfl ht (by decide +kernel)⟩

/-- The timer of a connection that is gone expires, and its number is given away while the
functor of the timer is queued, or the timer expires after the new connection is entered and
before its own timer is: the new connection is removed. -/
theorem erased_other :
    let env := Env.table []
    let batch := fun count => (batchOf 0 env ⟨[], .again⟩ count).map StagedAct.other
    let gone := accepts 0 5 ++ [.other (peerCloses 0 env)] ++ batch 1 ++ batch 1
    let queued := gone ++ [.other (.expire 0 5)] ++ accepts 0 5 ++ batch 1 ++ batch 1
    let within := gone ++ [.addConnection 0 5, .other (.expire 0 5), .addChannel, .addTimer,
      .leave] ++ batch 1 ++ batch 1
    ∀ as ∈ [queued, within], ∃ t, exec ⟨new (lit "/w") none, none⟩ as = some t ∧
      .accepted 1 0 5 ∈ t.server.log ∧
      ¬∀ l fd whom removed, .erased l fd whom removed ∈ t.server.log →
        removed = none ∨ removed = some whom := by
  intro env batch gone queued within as has
  have hlog : (exec ⟨new (lit "/w") none, none⟩ as).map (fun t =>
      (decide (.accepted 1 0 5 ∈ t.server.log), decide (.erased 0 5 0 (some 1) ∈ t.server.log))) =
      some (true, true) := by
    rcases List.mem_cons.mp has with rfl | has
    · decide +kernel
    · obtain rfl := List.mem_singleton.mp has
      decide +kernel
  obtain ⟨t, ht, hparts⟩ := Option.map_eq_some_iff.mp hlog
  obtain ⟨haccepted, herased⟩ := Prod.mk.inj hparts
  refine ⟨t, ht, of_decide_eq_true haccepted, ?_⟩
  intro hown
  exact absurd (hown 0 5 0 (some 1) (of_decide_eq_true herased)) (by decide)

end Staged

end WebServer
