import WebServer.DescriptorOwnership

/-!
# The stages of an accept

The body of the loop in `HandleListenEvent` runs on the main thread while the loop that it
picks goes on. It enters the connection into the map of that loop, adds its channel to the
epoll, then its timer, and keeps a reference of its own until its end. Any other step may
come between these stages, but events of the connection need its channel. When nothing comes
between them the stages together are the accept as one step.
-/

namespace WebServer

open KeyedList Connection

/-- How far the main thread has come with a connection. -/
inductive EntryStage where
  | entered | watched | armed
  deriving DecidableEq

/-- The connection that the main thread is entering. -/
structure Entering where
  who : Nat
  home : Nat
  fd : Int
  stage : EntryStage

/-- The server, with the main thread between two accepts or within one. -/
structure Staged where
  server : Server
  entry : Option Entering := none

inductive StagedAct where
  | addConnection (loop : Nat) (fd : Int)
  | addChannel
  | addTimer
  | leave
  | other (a : ServerAct)

namespace Server

/-- `AddConnection`, for the connection just accepted. Reading is enabled here too, which sets
a flag of the channel that nothing reads before the channel is added. -/
def enter (s : Server) (l : Nat) (fd : Int) (o : Pooled) (objects : Nat) (pool : ObjectPool) :
    Server :=
  let who := s.accepts
  let loop := { s.loops l with
    pool
    connections := (s.loops l).connections.insert fd who }
  record (setLoop { s with
    live := s.live.insert who ⟨o.object, l, o.conn.enableReadEvent⟩
    accepts := who + 1
    objects } l loop) (.accepted who o.object fd)

/-- From `Accept` to `AddConnection`. -/
def addConnection (s : Server) (l : Nat) (fd : Int) : Server :=
  let (o, objects, pool) := s.acquire l fd
  let t := s.enter l fd o objects pool
  ((s.loops l).connections.find fd).elim t t.drop

/-- `AddTimer` replaces a timer of the same number. -/
def addTimer (s : Server) (l : Nat) (fd : Int) (who : Nat) : Server :=
  s.setLoop l { s.loops l with timers := (s.loops l).timers.insert fd who }

/-! ## Steps while the main thread holds a connection -/

/-- A reference is gone, but not the one that the main thread has. -/
def dropBut (guest : Option Nat) (s : Server) (who : Nat) : Server :=
  if guest = some who then s else s.drop who

def eraseBut (guest : Option Nat) (s : Server) (l : Nat) (fd : Int) (whom : Nat) : Server :=
  let loop := s.loops l
  let removed := loop.connections.find fd
  let s := record (s.setLoop l { loop with connections := loop.connections.erase fd })
    (.erased l fd whom removed)
  removed.elim s (s.dropBut guest)

def runFunctorBut (guest : Option Nat) (s : Server) (l : Nat) (env : Env) (sends : Transfers) :
    LoopFunctor → Server
  | .call who cb => s.runFunctor l env sends (.call who cb)
  | .timeout fd who => s.runFunctor l env sends (.timeout fd who)
  | .erase fd who => s.eraseBut guest l fd who

def destroyBut (guest : Option Nat) (s : Server) (l : Nat) : Server :=
  ((s.loops l).ran.filterMap (·.self)).foldl (dropBut guest)
    (s.setLoop l { s.loops l with ran := [] })

def stepBut (guest : Option Nat) (s : Server) : ServerAct → Option Server
  | .accept _ _ => none
  | .readable who env arrival => s.step (.readable who env arrival)
  | .writable who sends files => s.step (.writable who sends files)
  | .hangup who => s.step (.hangup who)
  | .expire l fd => s.step (.expire l fd)
  | .swap l => s.step (.swap l)
  | .run l env sends =>
    match (s.loops l).batch with
    | [] => none
    | f :: rest => some ((s.take l f rest).runFunctorBut guest l env sends f)
  | .destroy l => if (s.loops l).batch = [] then some (s.destroyBut guest l) else none

/-- These steps, one constructor for each rule. -/
inductive TakenBut (guest : Option Nat) (s : Server) : ServerAct → Server → Prop where
  | event (who : Nat) (m : Shared) (a : ServerAct) (out : Connection × List Effect) :
      s.live.find who = some m → Stays m.conn out → BuffersWf out.1 →
      TakenBut guest s a (s.perform who m out)
  | expire (l : Nat) (fd : Int) (who : Nat) : (s.loops l).timers.find fd = some who →
      TakenBut guest s (.expire l fd) (s.expire l fd who)
  | swap (l : Nat) : TakenBut guest s (.swap l) (s.swap l)
  | run (l : Nat) (env : Env) (sends : Transfers) (f : LoopFunctor) (rest : List LoopFunctor) :
      (s.loops l).batch = f :: rest →
      TakenBut guest s (.run l env sends) ((s.take l f rest).runFunctorBut guest l env sends f)
  | destroy (l : Nat) : TakenBut guest s (.destroy l) (s.destroyBut guest l)

section
variable {s t : Server} {guest : Option Nat}

theorem takenBut_of_stepBut (hc : s.Consistent) {a : ServerAct}
    (h : s.stepBut guest a = some t) : TakenBut guest s a t := by
  cases a with
  | accept => cases h
  | readable who env arrival =>
    have hstep : s.step (.readable who env arrival) = some t := h
    cases taken_of_step hstep with
    | readable who m env arrival hfind =>
      have hwf := hc.buffers who m hfind
      exact .event who m _ _ hfind (stays_handleRead hwf env arrival)
        (buffersWf_handleRead hwf env arrival)
  | writable who sends files =>
    have hstep : s.step (.writable who sends files) = some t := h
    cases taken_of_step hstep with
    | writable who m sends files hfind =>
      have hwf := hc.buffers who m hfind
      exact .event who m _ _ hfind (stays_handleWrite hwf sends files)
        (buffersWf_handleWrite hwf sends files)
  | hangup who =>
    have hstep : s.step (.hangup who) = some t := h
    cases taken_of_step hstep with
    | hangup who m hfind =>
      exact .event who m _ _ hfind ⟨rfl, by simp [handleClose]⟩ (hc.buffers who m hfind)
  | expire l fd =>
    have hstep : s.step (.expire l fd) = some t := h
    cases taken_of_step hstep with
    | expire l fd who hfind => exact .expire l fd who hfind
  | swap l =>
    have hstep : s.step (.swap l) = some t := h
    cases taken_of_step hstep with
    | swap l => exact .swap l
  | run l env sends =>
    cases hbatch : (s.loops l).batch with
    | nil => simp [stepBut, hbatch] at h
    | cons f rest =>
      obtain rfl : (s.take l f rest).runFunctorBut guest l env sends f = t := by
        simpa [stepBut, hbatch] using h
      exact .run l env sends f rest hbatch
  | destroy l =>
    obtain ⟨-, ht⟩ := Option.ite_none_right_eq_some.mp h
    obtain rfl := Option.some.inj ht
    exact .destroy l

/-- What dropping a reference keeps, dropping all but one does. -/
theorem dropBut_keeps (P : Server → Prop) (dropped : ∀ s who, P s → P (s.drop who)) {s : Server}
    (h : P s) (guest : Option Nat) (who : Nat) : P (s.dropBut guest who) := by
  by_cases hguest : guest = some who
  · rwa [dropBut, if_pos hguest]
  · rw [dropBut, if_neg hguest]
    exact dropped s who h

theorem elim_dropBut_keeps (P : Server → Prop)
    (dropped : ∀ s who, P s → P (s.dropBut guest who)) {s : Server} (h : P s) (who : Option Nat) :
    P (who.elim s (s.dropBut guest)) := by
  cases who with
  | none => exact h
  | some who => exact dropped s who h

theorem dropsBut_keep (P : Server → Prop) (dropped : ∀ s who, P s → P (s.dropBut guest who))
    {s : Server} (h : P s) (whos : List Nat) : P (whos.foldl (dropBut guest) s) := by
  induction whos generalizing s with
  | nil => exact h
  | cons who whos ih => exact ih (dropped s who h)

/-! ## The stages keep the server consistent -/

theorem loops_addTimer (s : Server) (l : Nat) (fd : Int) (who k : Nat) :
    ∃ timers, (s.addTimer l fd who).loops k = { s.loops k with timers } := by
  by_cases hk : k = l
  · subst hk
    exact ⟨_, loops_setLoop_self _ _ _⟩
  · exact ⟨(s.loops k).timers, loops_setLoop_ne s hk _⟩

theorem timers_addTimer {l k who who' : Nat} {fd fd' : Int}
    (h : ((s.addTimer l fd who).loops k).timers.find fd' = some who') :
    k = l ∧ fd' = fd ∧ who' = who ∨ (s.loops k).timers.find fd' = some who' := by
  rcases loops_setLoop s l k { s.loops l with
    timers := (s.loops l).timers.insert fd who } with ⟨rfl, hk⟩ | hk
  · rw [addTimer, hk] at h
    rcases Dict.find_of_insert h with ⟨hfd, hwho⟩ | ⟨-, hold⟩
    · exact Or.inl ⟨rfl, hfd, hwho⟩
    · exact Or.inr hold
  · rw [addTimer, hk] at h
    exact Or.inr h

theorem consistent_dropBut (h : s.Consistent) (guest : Option Nat) (who : Nat) :
    (s.dropBut guest who).Consistent :=
  dropBut_keeps Consistent (fun _ who h => consistent_drop h who) h guest who

theorem consistent_stepBut {a : ServerAct} (h : s.Consistent) (hstep : s.stepBut guest a = some t) :
    t.Consistent := by
  cases takenBut_of_stepBut h hstep with
  | event who m _ out hfind hstays hwf => exact consistent_perform h hfind hstays hwf
  | expire l fd who hfind => exact consistent_expire h hfind
  | swap l => exact consistent_swap h l
  | run l env sends f rest hbatch =>
    have hmem : f ∈ (s.loops l).functors := by simp [EventLoop.functors, hbatch]
    have hrefers : (s.take l f rest).Refers l f := by cases f <;> exact h.functors l _ hmem
    have htake := consistent_take h hbatch
    cases f with
    | call who cb => exact consistent_runFunctor htake l env sends _ hrefers
    | timeout fd who => exact consistent_runFunctor htake l env sends _ hrefers
    | erase fd who =>
      have hforgot : ((s.take l (.erase fd who) rest).setLoop l
          { (s.take l (.erase fd who) rest).loops l with
            connections :=
              ((s.take l (.erase fd who) rest).loops l).connections.erase fd }).Consistent :=
        consistent_setLoop htake (fun _ _ hfind => Dict.find_of_erase hfind)
          (fun _ _ hfind => hfind) (fun _ hf => Or.inl hf)
      exact elim_dropBut_keeps Consistent (fun _ who h => consistent_dropBut h guest who)
        (consistent_record hforgot _) _
  | destroy l =>
    have hforgot : (s.setLoop l { s.loops l with ran := [] }).Consistent := by
      refine consistent_setLoop h (fun _ _ hfind => hfind) (fun _ _ hfind => hfind) ?_
      intro f hf
      refine Or.inl ?_
      simp only [EventLoop.functors, List.nil_append, List.append_assoc, List.mem_append] at hf ⊢
      exact Or.inr hf
    exact dropsBut_keep Consistent (fun _ who h => consistent_dropBut h guest who) hforgot _

/-- The loops as after the accept in one step, without the timer. -/
theorem loops_enter (s : Server) (l : Nat) (fd : Int) (o : Pooled) (objects : Nat)
    (pool : ObjectPool) (k : Nat) :
    (s.enter l fd o objects pool).loops k =
      { (s.enroll l fd o objects pool).loops k with timers := (s.loops k).timers } := by
  rw [enter, enroll, loops_record, loops_record]
  by_cases hk : k = l
  · subst hk
    rw [loops_setLoop_self, loops_setLoop_self]
  · rw [loops_setLoop_ne _ hk, loops_setLoop_ne _ hk]

theorem consistent_enter (h : s.Consistent) {l : Nat} {fd : Int} {o : Pooled}
    (closed : s.isOpen fd = false) (fresh : Sys.Fresh o.conn.enableReadEvent)
    (mine : o.conn.fd = fd) (objects : Nat) (pool : ObjectPool) : (s.enter l fd o objects pool).Consistent := by
  have henrolled := consistent_enroll h (l := l) closed fresh mine objects pool
  constructor
  case numbered => exact henrolled.numbered
  case distinct => exact henrolled.distinct
  case buffers => exact henrolled.buffers
  case registered =>
    intro k fd' who hfind
    rw [loops_enter] at hfind
    exact henrolled.registered k fd' who hfind
  case functors =>
    intro k f hf
    rw [loops_enter] at hf
    have hrefers := henrolled.functors k f hf
    cases f <;> exact hrefers
  case timers =>
    intro k fd' who hfind
    rw [loops_enter] at hfind
    exact noted_enroll (h.timers k fd' who hfind) l fd o objects pool

theorem consistent_addConnection (h : s.Consistent) {l : Nat} {fd : Int}
    (closed : s.isOpen fd = false) : (s.addConnection l fd).Consistent := by
  obtain ⟨hfresh, hmine⟩ := fresh_acquire s l fd
  exact elim_drop_keeps Consistent (fun _ who h => consistent_drop h who)
    (consistent_enter h closed hfresh hmine _ _) _

theorem consistent_addTimer (h : s.Consistent) {l : Nat} {fd : Int} {who : Nat}
    (noted : s.Noted l fd who) : (s.addTimer l fd who).Consistent := by
  constructor
  case numbered => exact h.numbered
  case distinct => exact h.distinct
  case buffers => exact h.buffers
  case registered =>
    intro k fd' who' hfind
    obtain ⟨timers, hloop⟩ := loops_addTimer s l fd who k
    rw [hloop] at hfind
    exact h.registered k fd' who' hfind
  case functors =>
    intro k f hf
    obtain ⟨timers, hloop⟩ := loops_addTimer s l fd who k
    rw [hloop] at hf
    have hrefers := h.functors k f hf
    cases f <;> exact hrefers
  case timers =>
    intro k fd' who' hfind
    rcases timers_addTimer hfind with ⟨rfl, rfl, rfl⟩ | hold
    · exact noted
    · exact h.timers k fd' who' hold

/-- The connection is live, in this loop and under this number. -/
def Has (s : Server) (who l : Nat) (fd : Int) : Prop :=
  ∃ m, s.live.find who = some m ∧ m.home = l ∧ m.conn.fd = fd

theorem has_perform {who l k : Nat} {fd : Int} {m : Shared} {out : Connection × List Effect}
    (h : s.Has who l fd) (found : s.live.find k = some m) (stays : Stays m.conn out) :
    (s.perform k m out).Has who l fd := by
  obtain ⟨n, hn, hhome, hfd⟩ := h
  by_cases hk : who = k
  · subst hk
    obtain rfl := Option.some.inj (found.symm.trans hn)
    exact ⟨{ m with conn := out.1 }, Dict.find_insert_self _ _ _, hhome, stays.fd.trans hfd⟩
  · exact ⟨n, (Dict.find_insert_ne _ hk _).trans hn, hhome, hfd⟩

theorem has_drop {who l k : Nat} {fd : Int} (h : s.Has who l fd) (other : who ≠ k) :
    (s.drop k).Has who l fd := by
  have hend := drop_end s k
  generalize s.drop k = t at hend ⊢
  cases hend with
  | kept => exact h
  | released m =>
    obtain ⟨n, hn, hrest⟩ := h
    exact ⟨n, (Dict.find_erase_ne _ other).trans hn, hrest⟩

theorem has_dropBut {who l : Nat} {fd : Int} (h : s.Has who l fd) (k : Nat) :
    (s.dropBut (some who) k).Has who l fd := by
  by_cases hguest : some who = some k
  · rwa [dropBut, if_pos hguest]
  · rw [dropBut, if_neg hguest]
    exact has_drop h fun hk => hguest (congrArg some hk)

theorem has_stepBut (hc : s.Consistent) {who l : Nat} {fd : Int} (h : s.Has who l fd)
    {a : ServerAct} (hstep : s.stepBut (some who) a = some t) : t.Has who l fd := by
  cases takenBut_of_stepBut hc hstep with
  | event k m _ out hfind hstays => exact has_perform h hfind hstays
  | expire => exact h
  | swap => exact h
  | run k env sends f rest hbatch =>
    have htake := consistent_take hc hbatch
    cases f with
    | call j cb =>
      have htook : (s.take k (.call j cb) rest).Has who l fd := h
      exact call_keeps (Has · who l fd) htook k j cb env sends fun m hm =>
        has_perform htook hm (stays_call (htake.buffers j m hm) cb env sends)
    | timeout => exact h
    | erase fd' j =>
      have hforgot : (record ((s.take k (.erase fd' j) rest).setLoop k
          { (s.take k (.erase fd' j) rest).loops k with
            connections := ((s.take k (.erase fd' j) rest).loops k).connections.erase fd' })
          (.erased k fd' j (((s.take k (.erase fd' j) rest).loops k).connections.find
            fd'))).Has who l fd := h
      exact elim_dropBut_keeps (Has · who l fd) (fun _ j h => has_dropBut h j) hforgot _
  | destroy k =>
    have hforgot : (s.setLoop k { s.loops k with ran := [] }).Has who l fd := h
    exact dropsBut_keep (Has · who l fd) (fun _ j h => has_dropBut h j) hforgot _

end

end Server

/-! ## The server with its main thread -/

namespace Staged

open Server

def guest (s : Staged) : Option Nat := s.entry.map (·.who)

/-- The epoll of a loop reports events of the channels that it has been given. -/
def reports (s : Staged) : ServerAct → Bool
  | .readable who _ _ | .writable who _ _ | .hangup who =>
    s.entry.all fun e => e.who ≠ who ∨ e.stage ≠ .entered
  | .accept _ _ | .expire _ _ | .swap _ | .run _ _ _ | .destroy _ => true

def step (s : Staged) : StagedAct → Option Staged
  | .addConnection l fd =>
    if s.entry.isNone ∧ 0 ≤ fd ∧ s.server.isOpen fd = false then
      some ⟨s.server.addConnection l fd, some ⟨s.server.accepts, l, fd, .entered⟩⟩ else none
  | .addChannel =>
    match s.entry with
    | some ⟨who, l, fd, .entered⟩ => some { s with entry := some ⟨who, l, fd, .watched⟩ }
    | _ => none
  | .addTimer =>
    match s.entry with
    | some ⟨who, l, fd, .watched⟩ => some ⟨s.server.addTimer l fd who, some ⟨who, l, fd, .armed⟩⟩
    | _ => none
  | .leave =>
    match s.entry with
    | some ⟨who, _, _, .armed⟩ => some ⟨s.server.drop who, none⟩
    | _ => none
  | .other a =>
    if s.reports a then (s.server.stepBut s.guest a).map ({ s with server := · }) else none

def exec : Staged → List StagedAct → Option Staged := GuardedRuns.exec step

/-- The steps, one constructor for each rule. -/
inductive Taken (s : Staged) : StagedAct → Staged → Prop where
  | addConnection (l : Nat) (fd : Int) : s.entry = none → 0 ≤ fd → s.server.isOpen fd = false →
      Taken s (.addConnection l fd)
        ⟨s.server.addConnection l fd, some ⟨s.server.accepts, l, fd, .entered⟩⟩
  | addChannel (who l : Nat) (fd : Int) : s.entry = some ⟨who, l, fd, .entered⟩ →
      Taken s .addChannel { s with entry := some ⟨who, l, fd, .watched⟩ }
  | addTimer (who l : Nat) (fd : Int) : s.entry = some ⟨who, l, fd, .watched⟩ →
      Taken s .addTimer ⟨s.server.addTimer l fd who, some ⟨who, l, fd, .armed⟩⟩
  | leave (who l : Nat) (fd : Int) : s.entry = some ⟨who, l, fd, .armed⟩ →
      Taken s .leave ⟨s.server.drop who, none⟩
  | other (a : ServerAct) (t : Server) : s.server.stepBut s.guest a = some t →
      Taken s (.other a) { s with server := t }

theorem taken_of_step {s t : Staged} {a : StagedAct} (h : s.step a = some t) : Taken s a t := by
  cases a with
  | addConnection l fd =>
    obtain ⟨⟨hnone, hfd, hclosed⟩, ht⟩ := Option.ite_none_right_eq_some.mp h
    obtain rfl := Option.some.inj ht
    exact .addConnection l fd (Option.isNone_iff_eq_none.mp hnone) hfd hclosed
  | addChannel =>
    cases hentry : s.entry with
    | none => simp [step, hentry] at h
    | some e =>
      obtain ⟨who, l, fd, stage⟩ := e
      cases stage <;> simp only [step, hentry, reduceCtorEq, Option.some.injEq] at h
      exact h ▸ .addChannel who l fd hentry
  | addTimer =>
    cases hentry : s.entry with
    | none => simp [step, hentry] at h
    | some e =>
      obtain ⟨who, l, fd, stage⟩ := e
      cases stage <;> simp only [step, hentry, reduceCtorEq, Option.some.injEq] at h
      exact h ▸ .addTimer who l fd hentry
  | leave =>
    cases hentry : s.entry with
    | none => simp [step, hentry] at h
    | some e =>
      obtain ⟨who, l, fd, stage⟩ := e
      cases stage <;> simp only [step, hentry, reduceCtorEq, Option.some.injEq] at h
      exact h ▸ .leave who l fd hentry
  | other a =>
    obtain ⟨-, ht⟩ := Option.ite_none_right_eq_some.mp h
    obtain ⟨t', hstep, rfl⟩ := Option.map_eq_some_iff.mp ht
    exact .other a t' hstep

/-- The server is consistent, and the connection that the main thread holds is there. -/
structure Sound (s : Staged) : Prop where
  consistent : s.server.Consistent
  held : ∀ e, s.entry = some e → s.server.Has e.who e.home e.fd

theorem has_addConnection {s : Server} (h : s.Consistent) (l : Nat) (fd : Int) :
    (s.addConnection l fd).Has s.accepts l fd := by
  have hentered : (s.enter l fd (s.acquire l fd).1 (s.acquire l fd).2.1
      (s.acquire l fd).2.2).Has s.accepts l fd :=
    ⟨_, Dict.find_insert_self _ _ _, rfl, (fresh_acquire s l fd).2⟩
  simp only [addConnection]
  cases hold : (s.loops l).connections.find fd with
  | none => exact hentered
  | some k =>
    -- the connection that the entry stood for is an older one
    obtain ⟨m, hm, -⟩ := h.registered l fd k hold
    exact has_drop hentered (Nat.ne_of_gt (h.numbered k m hm))

theorem sound_step {s t : Staged} {a : StagedAct} (h : s.Sound) (hstep : s.step a = some t) :
    t.Sound := by
  cases taken_of_step hstep with
  | addConnection l fd _ _ hclosed =>
    refine ⟨consistent_addConnection h.consistent hclosed, ?_⟩
    rintro e he
    obtain rfl := Option.some.inj he
    exact has_addConnection h.consistent l fd
  | addChannel who l fd hentry =>
    refine ⟨h.consistent, ?_⟩
    rintro e he
    obtain rfl := Option.some.inj he
    have hheld : s.server.Has who l fd := h.held _ hentry
    exact hheld
  | addTimer who l fd hentry =>
    have hheld : s.server.Has who l fd := h.held _ hentry
    refine ⟨consistent_addTimer h.consistent ?_, ?_⟩
    · obtain ⟨m, hm, hhome, hfd⟩ := hheld
      refine ⟨h.consistent.numbered who m hm, ?_⟩
      intro m' hm'
      obtain rfl := Option.some.inj (hm.symm.trans hm')
      exact ⟨hhome, hfd⟩
    · rintro e he
      obtain rfl := Option.some.inj he
      exact hheld
  | leave who l fd hentry =>
    refine ⟨consistent_drop h.consistent who, ?_⟩
    rintro e he
    cases he
  | other a t hother =>
    refine ⟨consistent_stepBut h.consistent hother, ?_⟩
    rintro e he
    have hguest : s.guest = some e.who := congrArg (Option.map Entering.who) he
    rw [hguest] at hother
    exact has_stepBut h.consistent (h.held e he) hother

/-- The stages with nothing between them are the accept as one step. -/
theorem exec_stages {s t : Server} (h : s.Consistent) {l : Nat} {fd : Int}
    (hstep : s.step (.accept l fd) = some t) :
    exec ⟨s, none⟩ [.addConnection l fd, .addChannel, .addTimer, .leave] = some ⟨t, none⟩ := by
  obtain ⟨⟨hfd, hclosed⟩, ht⟩ := Option.ite_none_right_eq_some.mp hstep
  obtain rfl := Option.some.inj ht
  have hnone : (s.loops l).connections.find fd = none := by
    cases hfind : (s.loops l).connections.find fd with
    | none => rfl
    | some k =>
      obtain ⟨m, hm, -, hsame⟩ := h.registered l fd k hfind
      exact absurd hsame (not_open hclosed hm)
  have hwhole : s.handleListenEvent l fd =
      s.enroll l fd (s.acquire l fd).1 (s.acquire l fd).2.1 (s.acquire l fd).2.2 := by
    simp only [handleListenEvent, hnone, Option.elim_none]
  have hfirst : s.addConnection l fd =
      s.enter l fd (s.acquire l fd).1 (s.acquire l fd).2.1 (s.acquire l fd).2.2 := by
    simp only [addConnection, hnone, Option.elim_none]
  rw [hwhole]
  generalize (s.acquire l fd).1 = o at hfirst ⊢
  generalize (s.acquire l fd).2.1 = objects at hfirst ⊢
  generalize (s.acquire l fd).2.2 = pool at hfirst ⊢
  have htimer : (s.enter l fd o objects pool).addTimer l fd s.accepts =
      s.enroll l fd o objects pool := by
    simp [addTimer, enter, enroll, record, setLoop]
  have hlive : (s.enroll l fd o objects pool).live.find s.accepts =
      some ⟨o.object, l, o.conn.enableReadEvent⟩ := Dict.find_insert_self _ _ _
  have hholds : ((s.enroll l fd o objects pool).loops l).holds s.accepts = true := by
    have hfind : ((s.enroll l fd o objects pool).loops l).connections.find fd =
        some s.accepts := by
      rw [enroll, loops_record, loops_setLoop_self]
      exact Dict.find_insert_self _ _ _
    exact holds_of_connection hfind
  have hkept : (s.enroll l fd o objects pool).drop s.accepts = s.enroll l fd o objects pool := by
    simp only [Server.drop, hlive, hholds, if_true]
  show GuardedRuns.exec step _ _ = _
  simp only [GuardedRuns.exec, step, Option.isNone_none, hfd, hclosed, and_self, if_true,
    Option.bind_some, hfirst, htimer, hkept]

end Staged

end WebServer
