import WebServer.ServerSteps

/-!
# Who holds which descriptor

The invariant behind every result about runs of the server: the descriptors of live
connections are distinct, the map of a loop leads to live connections of that loop
under their own descriptors, and a functor or timer that removes by number carries the
number of the connection it was made for, as long as that one lives.
-/

namespace WebServer

open KeyedList Connection

namespace Server

/-- A connection that is live is in this loop and has this descriptor. -/
def Noted (s : Server) (l : Nat) (fd : Int) (who : Nat) : Prop :=
  who < s.accepts ∧ ∀ m, s.live.find who = some m → m.home = l ∧ m.conn.fd = fd

/-- What a functor in the queue of a loop may refer to. -/
def Refers (s : Server) (l : Nat) : LoopFunctor → Prop
  | .call who _ => ∃ m, s.live.find who = some m ∧ m.home = l
  | .timeout fd who => s.Noted l fd who
  | .erase fd who => s.Noted l fd who

theorem refers_imp {s t : Server} {l : Nat} {f : LoopFunctor} (h : s.Refers l f)
    (noted : ∀ fd who, s.Noted l fd who → t.Noted l fd who)
    (held : ∀ who m, f.self = some who → s.live.find who = some m → m.home = l →
      ∃ m', t.live.find who = some m' ∧ m'.home = l) : t.Refers l f := by
  cases f with
  | call who cb =>
    obtain ⟨m, hfind, hhome⟩ := h
    exact held who m rfl hfind hhome
  | timeout fd who => exact noted fd who h
  | erase fd who => exact noted fd who h

structure Consistent (s : Server) : Prop where
  numbered : ∀ who m, s.live.find who = some m → who < s.accepts
  distinct : ∀ who who' m m', s.live.find who = some m → s.live.find who' = some m' →
    m.conn.fd = m'.conn.fd → who = who'
  buffers : ∀ who m, s.live.find who = some m → BuffersWf m.conn
  registered : ∀ l fd who, (s.loops l).connections.find fd = some who →
    ∃ m, s.live.find who = some m ∧ m.home = l ∧ m.conn.fd = fd
  functors : ∀ l, ∀ f ∈ (s.loops l).functors, s.Refers l f
  timers : ∀ l fd who, (s.loops l).timers.find fd = some who → s.Noted l fd who

/-- Changes in one loop that forget connections and timers, or add functors that refer
to what they may. -/
theorem consistent_setLoop {s : Server} (h : s.Consistent) {l : Nat} {loop : EventLoop}
    (connections : ∀ fd who, loop.connections.find fd = some who →
      (s.loops l).connections.find fd = some who)
    (timers : ∀ fd who, loop.timers.find fd = some who → (s.loops l).timers.find fd = some who)
    (functors : ∀ f ∈ loop.functors, f ∈ (s.loops l).functors ∨ s.Refers l f) :
    (s.setLoop l loop).Consistent := by
  constructor
  case numbered => exact h.numbered
  case distinct => exact h.distinct
  case buffers => exact h.buffers
  case registered =>
    intro k fd who hfind
    rcases loops_setLoop s l k loop with ⟨rfl, hk⟩ | hk
    · exact h.registered k fd who (connections fd who (hk ▸ hfind))
    · exact h.registered k fd who (hk ▸ hfind)
  case functors =>
    intro k f hf
    rcases loops_setLoop s l k loop with ⟨rfl, hk⟩ | hk
    · rcases functors f (hk ▸ hf) with hold | hnew
      · exact h.functors k f hold
      · exact hnew
    · exact h.functors k f (hk ▸ hf)
  case timers =>
    intro k fd who hfind
    rcases loops_setLoop s l k loop with ⟨rfl, hk⟩ | hk
    · exact h.timers k fd who (timers fd who (hk ▸ hfind))
    · exact h.timers k fd who (hk ▸ hfind)

/-- A connection goes on with another state and the same descriptor. -/
theorem consistent_replace {s : Server} (h : s.Consistent) {who : Nat} {m : Shared}
    (found : s.live.find who = some m) {conn : Connection} (fd : conn.fd = m.conn.fd)
    (wf : BuffersWf conn) : Consistent { s with live := s.live.insert who { m with conn } } := by
  -- the live connections before and after, in both directions
  have hback : ∀ k n, (s.live.insert who { m with conn }).find k = some n →
      ∃ n₀, s.live.find k = some n₀ ∧ n.home = n₀.home ∧ n.conn.fd = n₀.conn.fd := by
    intro k n hk
    rcases Dict.find_of_insert hk with ⟨rfl, rfl⟩ | ⟨-, hold⟩
    · exact ⟨m, found, rfl, fd⟩
    · exact ⟨n, hold, rfl, rfl⟩
  have hforth : ∀ k n₀, s.live.find k = some n₀ →
      ∃ n, (s.live.insert who { m with conn }).find k = some n ∧ n.home = n₀.home ∧
        n.conn.fd = n₀.conn.fd := by
    intro k n₀ hk
    by_cases hwho : k = who
    · subst hwho
      obtain rfl := Option.some.inj (found.symm.trans hk)
      exact ⟨{ m with conn }, Dict.find_insert_self _ _ _, rfl, fd⟩
    · exact ⟨n₀, (Dict.find_insert_ne _ hwho _).trans hk, rfl, rfl⟩
  have hnoted : ∀ l fd who', s.Noted l fd who' →
      Noted { s with live := s.live.insert who { m with conn } } l fd who' := by
    rintro l fd who' ⟨hlt, hagree⟩
    refine ⟨hlt, ?_⟩
    intro n hn
    obtain ⟨n₀, hn₀, hhome, hsame⟩ := hback who' n hn
    obtain ⟨hhome₀, hfd₀⟩ := hagree n₀ hn₀
    exact ⟨hhome.trans hhome₀, hsame.trans hfd₀⟩
  constructor
  case numbered =>
    intro k n hk
    obtain ⟨n₀, hk₀, -⟩ := hback k n hk
    exact h.numbered k n₀ hk₀
  case distinct =>
    intro k k' n n' hk hk' hsame
    obtain ⟨n₀, hk₀, -, hfd⟩ := hback k n hk
    obtain ⟨n₀', hk₀', -, hfd'⟩ := hback k' n' hk'
    exact h.distinct k k' n₀ n₀' hk₀ hk₀' (hfd.symm.trans (hsame.trans hfd'))
  case buffers =>
    intro k n hk
    rcases Dict.find_of_insert hk with ⟨-, rfl⟩ | ⟨-, hold⟩
    · exact wf
    · exact h.buffers k n hold
  case registered =>
    intro l fd who' hfind
    obtain ⟨n₀, hn₀, hhome, hfd⟩ := h.registered l fd who' hfind
    obtain ⟨n, hn, hhome', hfd'⟩ := hforth who' n₀ hn₀
    exact ⟨n, hn, hhome'.trans hhome, hfd'.trans hfd⟩
  case functors =>
    intro l f hf
    apply refers_imp (h.functors l f hf) (hnoted l)
    intro who' n₀ _ hn₀ hhome
    obtain ⟨n, hn, hhome', -⟩ := hforth who' n₀ hn₀
    exact ⟨n, hn, hhome'.trans hhome⟩
  case timers =>
    intro l fd who' hfind
    exact hnoted l fd who' (h.timers l fd who' hfind)

theorem consistent_queueInLoop {s : Server} (h : s.Consistent) {l : Nat} {fs : List LoopFunctor}
    (refers : ∀ f ∈ fs, s.Refers l f) : (s.queueInLoop l fs).Consistent := by
  refine consistent_setLoop h (fun _ _ hfind => hfind) (fun _ _ hfind => hfind) ?_
  intro f hf
  simp only [EventLoop.functors, List.mem_append] at hf ⊢
  rcases hf with hrun | hpending | hnew
  · exact Or.inl (Or.inl hrun)
  · exact Or.inl (Or.inr hpending)
  · exact Or.inr (refers f hnew)

theorem refers_functorsOf {s : Server} {who : Nat} {m : Shared}
    (found : s.live.find who = some m) (numbered : who < s.accepts) {fx : List Effect}
    (removals : ∀ fd, .removal fd ∈ fx → fd = m.conn.fd) :
    ∀ f ∈ functorsOf who fx, s.Refers m.home f := by
  intro f hf
  obtain ⟨e, he, hfe⟩ := List.mem_filterMap.mp hf
  cases e with
  | queued cb =>
    obtain rfl := Option.some.inj hfe
    exact ⟨m, found, rfl⟩
  | removal fd =>
    obtain rfl := Option.some.inj hfe
    refine ⟨numbered, ?_⟩
    intro n hn
    obtain rfl := Option.some.inj (found.symm.trans hn)
    exact ⟨rfl, (removals fd he).symm⟩
  | received | parsed | opened | responded | sent | transferred | discarded | finished => cases hfe

theorem consistent_perform {s : Server} (h : s.Consistent) {who : Nat} {m : Shared}
    (found : s.live.find who = some m) {out : Connection × List Effect} (stays : Stays m.conn out)
    (wf : BuffersWf out.1) : (s.perform who m out).Consistent := by
  have hfound := Dict.find_insert_self s.live who { m with conn := out.1 }
  refine consistent_queueInLoop (consistent_replace h found stays.fd wf) ?_
  refine refers_functorsOf (s := { s with live := s.live.insert who { m with conn := out.1 } })
    hfound (h.numbered who m found) ?_
  intro fd hmem
  exact (stays.removals fd hmem).trans stays.fd.symm

theorem holds_of_connection {loop : EventLoop} {fd : Int} {who : Nat}
    (h : loop.connections.find fd = some who) : loop.holds who = true := by
  have hmem := (loop.connections.mem_pairs_iff fd who).mpr h
  have hany : loop.connections.pairs.any (fun p => p.2 = who) = true :=
    List.any_eq_true.mpr ⟨(fd, who), hmem, by simp⟩
  rw [EventLoop.holds, hany, Bool.true_or]

theorem holds_of_functor {loop : EventLoop} {who : Nat} {f : LoopFunctor}
    (h : f ∈ loop.functors) (hself : f.self = some who) : loop.holds who = true := by
  have hany : loop.functors.any (fun f => f.self = some who) = true :=
    List.any_eq_true.mpr ⟨f, h, decide_eq_true hself⟩
  rw [EventLoop.holds, hany, Bool.or_true]

/-- A connection that its loop does not hold is referred to by nothing. -/
theorem consistent_release {s : Server} (h : s.Consistent) {who : Nat} {m : Shared}
    (found : s.live.find who = some m) (unheld : (s.loops m.home).holds who = false) :
    (s.release who m).Consistent := by
  have hlive : ∀ k n, (s.live.erase who).find k = some n → s.live.find k = some n :=
    fun k n hk => Dict.find_of_erase hk
  have hother : ∀ k n, k ≠ who → s.live.find k = some n → (s.live.erase who).find k = some n :=
    fun k n hwho hk => (Dict.find_erase_ne _ hwho).trans hk
  have hnoted : ∀ l fd k, s.Noted l fd k →
      Noted { s with live := s.live.erase who } l fd k :=
    fun l fd k hnoted => ⟨hnoted.1, fun n hn => hnoted.2 n (hlive k n hn)⟩
  have hconsistent : Consistent { s with live := s.live.erase who } := by
    constructor
    case numbered => exact fun k n hk => h.numbered k n (hlive k n hk)
    case distinct =>
      intro k k' n n' hk hk' hsame
      exact h.distinct k k' n n' (hlive k n hk) (hlive k' n' hk') hsame
    case buffers => exact fun k n hk => h.buffers k n (hlive k n hk)
    case registered =>
      intro l fd k hfind
      obtain ⟨n, hn, hhome, hfd⟩ := h.registered l fd k hfind
      refine ⟨n, hother k n ?_ hn, hhome, hfd⟩
      rintro rfl
      obtain rfl := Option.some.inj (found.symm.trans hn)
      rw [← hhome] at hfind
      exact absurd (unheld.symm.trans (holds_of_connection hfind)) Bool.false_ne_true
    case functors =>
      intro l f hf
      apply refers_imp (h.functors l f hf) (hnoted l)
      intro k n hself hn hhome
      refine ⟨n, hother k n ?_ hn, hhome⟩
      rintro rfl
      obtain rfl := Option.some.inj (found.symm.trans hn)
      rw [← hhome] at hf
      exact absurd (unheld.symm.trans (holds_of_functor hf hself)) Bool.false_ne_true
    case timers => exact fun l fd k hfind => hnoted l fd k (h.timers l fd k hfind)
  have hpooled : (setLoop { s with live := s.live.erase who } m.home { s.loops m.home with
      pool := (s.loops m.home).pool.giveBack ⟨m.object, m.conn.close.1⟩ }).Consistent :=
    consistent_setLoop hconsistent (fun _ _ hfind => hfind) (fun _ _ hfind => hfind)
      (fun _ hf => Or.inl hf)
  exact ⟨hpooled.numbered, hpooled.distinct, hpooled.buffers, hpooled.registered,
    hpooled.functors, hpooled.timers⟩

theorem consistent_drop {s : Server} (h : s.Consistent) (who : Nat) : (s.drop who).Consistent := by
  have hend := drop_end s who
  generalize s.drop who = t at hend ⊢
  cases hend with
  | kept => exact h
  | released m hfind hunheld => exact consistent_release h hfind hunheld

theorem noted_enroll {s : Server} {k : Nat} {fd' : Int} {who : Nat} (h : s.Noted k fd' who)
    (l : Nat) (fd : Int) (o : Pooled) (objects : Nat) (pool : ObjectPool) :
    (s.enroll l fd o objects pool).Noted k fd' who := by
  obtain ⟨hlt, hagree⟩ := h
  refine ⟨Nat.lt_succ_of_lt hlt, ?_⟩
  intro n hn
  rcases live_enroll hn with ⟨rfl, -⟩ | ⟨-, hold⟩
  · exact absurd hlt (Nat.lt_irrefl _)
  · exact hagree n hold

theorem consistent_enroll {s : Server} (h : s.Consistent) {l : Nat} {fd : Int} {o : Pooled}
    (closed : s.isOpen fd = false) (fresh : Sys.Fresh o.conn.enableReadEvent) (mine : o.conn.fd = fd)
    (objects : Nat) (pool : ObjectPool) : (s.enroll l fd o objects pool).Consistent := by
  have hnew : s.live.find s.accepts = none := by
    cases hfind : s.live.find s.accepts with
    | none => rfl
    | some m => exact absurd (h.numbered _ m hfind) (Nat.lt_irrefl _)
  have hother : ∀ k n, s.live.find k = some n →
      (s.enroll l fd o objects pool).live.find k = some n := by
    intro k n hk
    have hwho : k ≠ s.accepts := by
      rintro rfl
      cases hnew.symm.trans hk
    exact (Dict.find_insert_ne _ hwho _).trans hk
  constructor
  case numbered =>
    intro k n hk
    rcases live_enroll hk with ⟨rfl, -⟩ | ⟨-, hold⟩
    · exact Nat.lt_succ_self _
    · exact Nat.lt_succ_of_lt (h.numbered k n hold)
  case distinct =>
    intro k k' n n' hk hk' hsame
    rcases live_enroll hk with ⟨rfl, rfl⟩ | ⟨-, hold⟩
    · rcases live_enroll hk' with ⟨rfl, -⟩ | ⟨-, hold'⟩
      · rfl
      · exact absurd (hsame.symm.trans mine) (not_open closed hold')
    · rcases live_enroll hk' with ⟨rfl, rfl⟩ | ⟨-, hold'⟩
      · exact absurd (hsame.trans mine) (not_open closed hold)
      · exact h.distinct k k' n n' hold hold' hsame
  case buffers =>
    intro k n hk
    rcases live_enroll hk with ⟨-, rfl⟩ | ⟨-, hold⟩
    · exact ⟨fresh.ready.readBuffer, fresh.ready.writeBuffer⟩
    · exact h.buffers k n hold
  case registered =>
    intro k fd' who hfind
    rcases connections_enroll hfind with ⟨rfl, rfl, rfl⟩ | hold
    · exact ⟨⟨o.object, k, o.conn.enableReadEvent⟩, Dict.find_insert_self _ _ _, rfl, mine⟩
    · obtain ⟨n, hn, hrest⟩ := h.registered k fd' who hold
      exact ⟨n, hother who n hn, hrest⟩
  case functors =>
    intro k f hf
    rw [functors_enroll] at hf
    apply refers_imp (h.functors k f hf) (fun _ _ hnoted => noted_enroll hnoted l fd o objects pool)
    intro who m _ hm hhome
    exact ⟨m, hother who m hm, hhome⟩
  case timers =>
    intro k fd' who hfind
    rcases timers_enroll hfind with ⟨rfl, rfl, rfl⟩ | hold
    · refine ⟨Nat.lt_succ_self _, ?_⟩
      intro n hn
      rcases live_enroll hn with ⟨-, rfl⟩ | ⟨hne, -⟩
      · exact ⟨rfl, mine⟩
      · exact absurd rfl hne
    · exact noted_enroll (h.timers k fd' who hold) l fd o objects pool

theorem consistent_record {s : Server} (h : s.Consistent) (e : ServerEffect) :
    (s.record e).Consistent :=
  ⟨h.numbered, h.distinct, h.buffers, h.registered, h.functors, h.timers⟩

theorem consistent_handleListenEvent {s : Server} (h : s.Consistent) {l : Nat} {fd : Int}
    (closed : s.isOpen fd = false) : (s.handleListenEvent l fd).Consistent := by
  obtain ⟨hfresh, hmine⟩ := fresh_acquire s l fd
  exact elim_drop_keeps Consistent (fun _ who h => consistent_drop h who)
    (consistent_enroll h closed hfresh hmine _ _) _

theorem consistent_erase {s : Server} (h : s.Consistent) (l : Nat) (fd : Int) (whom : Nat) :
    (s.erase l fd whom).Consistent := by
  have hforgot : (s.setLoop l { s.loops l with
      connections := (s.loops l).connections.erase fd }).Consistent := by
    refine consistent_setLoop h ?_ (fun _ _ hfind => hfind) (fun _ hf => Or.inl hf)
    intro fd' who hfind
    exact Dict.find_of_erase hfind
  exact elim_drop_keeps Consistent (fun _ who h => consistent_drop h who)
    (consistent_record hforgot _) _

theorem consistent_take {s : Server} (h : s.Consistent) {l : Nat} {f : LoopFunctor}
    {rest : List LoopFunctor} (hbatch : (s.loops l).batch = f :: rest) :
    (s.take l f rest).Consistent := by
  refine consistent_setLoop h (fun _ _ hfind => hfind) (fun _ _ hfind => hfind) ?_
  intro g hg
  refine Or.inl ?_
  simpa [EventLoop.functors, hbatch] using hg

theorem consistent_expire {s : Server} (h : s.Consistent) {l : Nat} {fd : Int} {who : Nat}
    (armed : (s.loops l).timers.find fd = some who) : (s.expire l fd who).Consistent := by
  refine consistent_setLoop h (fun _ _ hfind => hfind) ?_ ?_
  · intro fd' who' hfind
    exact Dict.find_of_erase hfind
  · intro f hf
    simp only [EventLoop.functors, List.mem_append, List.mem_singleton] at hf ⊢
    rcases hf with hrun | hpending | rfl
    · exact Or.inl (Or.inl hrun)
    · exact Or.inl (Or.inr hpending)
    · exact Or.inr (h.timers l fd who armed)

theorem consistent_swap {s : Server} (h : s.Consistent) (l : Nat) : (s.swap l).Consistent := by
  refine consistent_setLoop h (fun _ _ hfind => hfind) (fun _ _ hfind => hfind) ?_
  intro f hf
  refine Or.inl ?_
  simp only [EventLoop.functors, List.mem_append, List.not_mem_nil, or_false] at hf ⊢
  rcases hf with hran | hpending
  · exact Or.inl (Or.inl hran)
  · exact Or.inr hpending

theorem consistent_destroy {s : Server} (h : s.Consistent) (l : Nat) : (s.destroy l).Consistent := by
  have hforgot : (s.setLoop l { s.loops l with ran := [] }).Consistent := by
    refine consistent_setLoop h (fun _ _ hfind => hfind) (fun _ _ hfind => hfind) ?_
    intro f hf
    refine Or.inl ?_
    simp only [EventLoop.functors, List.nil_append, List.append_assoc, List.mem_append] at hf ⊢
    exact Or.inr hf
  exact drops_keep Consistent (fun _ who h => consistent_drop h who) hforgot _

theorem consistent_runFunctor {s : Server} (h : s.Consistent) (l : Nat) (env : Env)
    (sends : Transfers) (f : LoopFunctor) (refers : s.Refers l f) :
    (s.runFunctor l env sends f).Consistent := by
  cases f with
  | call who cb =>
    obtain ⟨m, hfind, -⟩ := refers
    have hwf := h.buffers who m hfind
    simp only [runFunctor, hfind, Option.elim_some]
    exact consistent_perform h hfind (stays_call hwf cb env sends) (buffersWf_call hwf cb env sends)
  | timeout fd who =>
    refine consistent_queueInLoop h ?_
    intro f hf
    obtain rfl := List.mem_singleton.mp hf
    exact refers
  | erase fd who => exact consistent_erase h l fd who

theorem consistent_step {s t : Server} {a : ServerAct} (h : s.Consistent)
    (hstep : s.step a = some t) : t.Consistent := by
  cases taken_of_step hstep with
  | accept l fd _ hclosed => exact consistent_handleListenEvent h hclosed
  | readable who m env arrival hfind =>
    have hwf := h.buffers who m hfind
    exact consistent_perform h hfind (stays_handleRead hwf env arrival)
      (buffersWf_handleRead hwf env arrival)
  | writable who m sends files hfind =>
    have hwf := h.buffers who m hfind
    exact consistent_perform h hfind (stays_handleWrite hwf sends files)
      (buffersWf_handleWrite hwf sends files)
  | hangup who m hfind =>
    exact consistent_perform h hfind ⟨rfl, by simp [handleClose]⟩ (h.buffers who m hfind)
  | expire l fd who hfind => exact consistent_expire h hfind
  | swap l => exact consistent_swap h l
  | run l env sends f rest hbatch =>
    have hmem : f ∈ (s.loops l).functors := by simp [EventLoop.functors, hbatch]
    exact consistent_runFunctor (consistent_take h hbatch) l env sends f
      (by cases f <;> exact h.functors l _ hmem)
  | destroy l => exact consistent_destroy h l

theorem consistent_started {s : Server} (h : s.Started) : s.Consistent := by
  have hnone : ∀ who, s.live.find who = none := by
    intro who
    rw [h.live]
    rfl
  constructor
  case numbered =>
    intro who m hfind
    cases (hnone who).symm.trans hfind
  case distinct =>
    intro who who' m m' hfind
    cases (hnone who).symm.trans hfind
  case buffers =>
    intro who m hfind
    cases (hnone who).symm.trans hfind
  case registered =>
    intro l fd who hfind
    rw [h.loops l] at hfind
    cases hfind
  case functors =>
    intro l f hf
    rw [h.loops l] at hf
    cases hf
  case timers =>
    intro l fd who hfind
    rw [h.loops l] at hfind
    cases hfind

end Server

end WebServer
