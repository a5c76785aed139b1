import WebServer.ConnectionRuns
import WebServer.Server

/-!
# Steps of the server

What a handler may do to a descriptor, what each update does to loops and to live
connections, and the steps as one case for each rule.
-/

namespace WebServer

open KeyedList Connection

/-! ## Handlers keep the descriptor -/

namespace Connection

/-- The descriptor stays, and no other descriptor is removed. -/
structure Stays (c : Connection) (out : Connection × List Effect) : Prop where
  fd : out.1.fd = c.fd
  removals : ∀ fd, .removal fd ∈ out.2 → fd = c.fd

theorem stays_after {c c' : Connection} {fx : List Effect} {out : Connection × List Effect}
    (h : Stays c' out) (same : c'.fd = c.fd) (quiet : ∀ fd, .removal fd ∉ fx) :
    Stays c (out.1, fx ++ out.2) := by
  refine ⟨h.fd.trans same, ?_⟩
  intro fd hmem
  rcases List.mem_append.mp hmem with hleft | hright
  · exact absurd hleft (quiet fd)
  · exact (h.removals fd hright).trans same

theorem stays_onResponseFinished (c : Connection) : Stays c c.onResponseFinished.2 := by
  have hend := onResponseFinished_end c
  generalize c.onResponseFinished.2 = out at hend ⊢
  cases hend with
  | kept =>
    by_cases hopen : 0 ≤ c.sendFileFd
    · exact ⟨by simp [resetForNextRequest, enableReadEvent, hopen],
        by simp [resetForNextRequest, hopen]⟩
    · exact ⟨by simp [resetForNextRequest, enableReadEvent, hopen],
        by simp [resetForNextRequest, hopen]⟩
  | closed => exact ⟨rfl, by simp⟩

theorem stays_writeDone (c : Connection) : Stays c c.writeDone := by
  have hfinished := stays_onResponseFinished (disableWriteEvent { c with writeState := .idle })
  exact ⟨hfinished.fd, hfinished.removals⟩

theorem stays_sendFile (c : Connection) (files : Transfers) : Stays c (c.sendFile files) := by
  have hend := sendFile_end c files
  generalize c.sendFile files = out at hend ⊢
  cases hend with
  | noFile => exact stays_writeDone c
  | waiting => exact ⟨rfl, by simp⟩
  | failed => exact ⟨rfl, by simp⟩
  | drained moves =>
    have hdone := stays_writeDone { c with sendFileLen := 0, sendFileFd := -1 }
    refine ⟨hdone.fd, ?_⟩
    simpa using hdone.removals

theorem stays_handleWrite {c : Connection} (h : BuffersWf c) (sends files : Transfers) :
    Stays c (c.handleWrite sends files) := by
  have hend := handleWrite_end h.write sends files
  generalize c.handleWrite sends files = out at hend ⊢
  cases hend with
  | drained b chunks => exact stays_after (stays_sendFile (c.writing b) files) rfl (by simp)
  | stalled b chunks =>
    exact stays_after (stays_onResponseFinished (c.unfinished b)) rfl (by simp)
  | waiting => exact ⟨rfl, by simp⟩
  | failed => exact ⟨rfl, by simp⟩

theorem stays_trySend {c : Connection} (h : BuffersWf c) (sends : Transfers) :
    Stays c (c.trySend sends) := by
  have hend := trySend_end h.write sends
  generalize c.trySend sends = out at hend ⊢
  cases hend with
  | finished b chunks => exact stays_after (stays_onResponseFinished _) rfl (by simp)
  | waiting => exact ⟨rfl, by simp⟩
  | failed => exact ⟨rfl, by simp⟩

theorem stays_processInWorker {c : Connection} (h : BuffersWf c) (env : Env) :
    Stays c (c.processInWorker env) := by
  have hend := processInWorker_end h.read env
  generalize c.processInWorker env = out at hend ⊢
  cases hend with
  | incomplete => exact ⟨rfl, by simp⟩
  | error => exact ⟨rfl, by simp⟩
  | complete ctx rest =>
    generalize reply env c.resourceDir c.router ctx.request c.response = p
    cases hfile : p.file with
    | none => exact ⟨by simp [store, hfile], by simp [store, hfile]⟩
    | some file =>
      by_cases hopen : 0 ≤ c.sendFileFd
      · exact ⟨by simp [store, hfile], by simp [store, hfile, hopen]⟩
      · exact ⟨by simp [store, hfile], by simp [store, hfile, hopen]⟩

theorem stays_handleRead {c : Connection} (h : BuffersWf c) (env : Env) (arrival : Arrival) :
    Stays c (c.handleRead env arrival) := by
  have hend := handleRead_end h.read env arrival
  generalize c.handleRead env arrival = out at hend ⊢
  cases hend with
  | closing => exact ⟨rfl, by simp⟩
  | reading => exact ⟨rfl, by simp⟩
  | processing b packets hb =>
    exact stays_after (stays_processInWorker (c := { c with readBuffer := b, state := .processing })
      ⟨hb, h.write⟩ env) rfl (by simp)

theorem stays_call {c : Connection} (h : BuffersWf c) (cb : Callback) (env : Env)
    (sends : Transfers) : Stays c (c.call cb env sends) := by
  cases cb with
  | trySend =>
    by_cases hclosed : c.state = .closed
    · rw [call, if_pos hclosed]
      exact ⟨rfl, by simp⟩
    · rw [call, if_neg hclosed]
      exact stays_trySend h sends
  | processInWorker => exact stays_processInWorker h env
  | handleClose => exact ⟨rfl, by simp [call, handleClose]⟩
  | removeConnection => exact ⟨rfl, by simp [call]⟩

end Connection

namespace Server

/-! ## Loops and connections after an update -/

@[simp] theorem loops_setLoop_self (s : Server) (l : Nat) (loop : EventLoop) :
    (s.setLoop l loop).loops l = loop := by
  simp only [setLoop, Function.update_self]

theorem loops_setLoop_ne (s : Server) {l k : Nat} (h : k ≠ l) (loop : EventLoop) :
    (s.setLoop l loop).loops k = s.loops k := by
  simp only [setLoop, Function.update_of_ne h]

theorem loops_setLoop (s : Server) (l k : Nat) (loop : EventLoop) :
    k = l ∧ (s.setLoop l loop).loops k = loop ∨ (s.setLoop l loop).loops k = s.loops k := by
  by_cases hk : k = l
  · subst hk
    exact Or.inl ⟨rfl, loops_setLoop_self s k loop⟩
  · exact Or.inr (loops_setLoop_ne s hk loop)

@[simp] theorem live_setLoop (s : Server) (l : Nat) (loop : EventLoop) :
    (s.setLoop l loop).live = s.live := rfl

@[simp] theorem loops_record (s : Server) (e : ServerEffect) : (s.record e).loops = s.loops := rfl

@[simp] theorem live_record (s : Server) (e : ServerEffect) : (s.record e).live = s.live := rfl

@[simp] theorem live_perform (s : Server) (who : Nat) (m : Shared)
    (out : Connection × List Effect) :
    (s.perform who m out).live = s.live.insert who { m with conn := out.1 } := rfl

theorem loops_perform (s : Server) (who : Nat) (m : Shared) (out : Connection × List Effect) :
    (s.perform who m out).loops = (s.queueInLoop m.home (functorsOf who out.2)).loops := rfl

/-- A reference that goes may be the last one. -/
inductive DropEnd (s : Server) (who : Nat) : Server → Prop where
  | kept : DropEnd s who s
  | released (m : Shared) : s.live.find who = some m → (s.loops m.home).holds who = false →
      DropEnd s who (s.release who m)

theorem drop_end (s : Server) (who : Nat) : DropEnd s who (s.drop who) := by
  unfold drop
  cases hfind : s.live.find who with
  | none => exact .kept
  | some m =>
    by_cases hheld : (s.loops m.home).holds who = true
    · simp only [if_pos hheld]
      exact .kept
    · simp only [if_neg hheld]
      exact .released m hfind (by simpa using hheld)

/-- Dropping a reference touches a loop in its pool only. -/
theorem loops_drop (s : Server) (who l : Nat) :
    ∃ pool, (s.drop who).loops l = { s.loops l with pool } := by
  have hend := drop_end s who
  generalize s.drop who = t at hend ⊢
  cases hend with
  | kept => exact ⟨_, rfl⟩
  | released m =>
    rw [release, loops_record, loops_record]
    by_cases hl : l = m.home
    · subst hl
      exact ⟨_, loops_setLoop_self _ _ _⟩
    · exact ⟨_, loops_setLoop_ne _ hl _⟩

theorem loops_elim_drop (s : Server) (who : Option Nat) (l : Nat) :
    ∃ pool, (who.elim s s.drop).loops l = { s.loops l with pool } := by
  cases who with
  | none => exact ⟨_, rfl⟩
  | some who => exact loops_drop s who l

theorem live_drop {s : Server} {who k : Nat} {m : Shared} (h : (s.drop who).live.find k = some m) :
    s.live.find k = some m := by
  have hend := drop_end s who
  generalize s.drop who = t at hend h
  cases hend with
  | kept => exact h
  | released => exact Dict.find_of_erase h

/-- What dropping one reference keeps, dropping several does. -/
theorem drops_keep (P : Server → Prop) (dropped : ∀ s who, P s → P (s.drop who)) {s : Server}
    (h : P s) (whos : List Nat) : P (whos.foldl drop s) := by
  induction whos generalizing s with
  | nil => exact h
  | cons who whos ih => exact ih (dropped s who h)

theorem elim_drop_keeps (P : Server → Prop) (dropped : ∀ s who, P s → P (s.drop who)) {s : Server}
    (h : P s) (who : Option Nat) : P (who.elim s s.drop) := by
  cases who with
  | none => exact h
  | some who => exact dropped s who h

/-- A functor of a connection does nothing, or lets the connection go on. -/
theorem call_keeps (P : Server → Prop) {s : Server} (h : P s) (l who : Nat) (cb : Callback)
    (env : Env) (sends : Transfers) (performed : ∀ m, s.live.find who = some m →
      P (s.perform who m (m.conn.call cb env sends))) :
    P (s.runFunctor l env sends (.call who cb)) := by
  cases hfind : s.live.find who with
  | none =>
    simp only [runFunctor, hfind, Option.elim_none]
    exact h
  | some m =>
    simp only [runFunctor, hfind, Option.elim_some]
    exact performed m hfind

/-- A new connection is the only change among the live ones. -/
theorem live_enroll {s : Server} {l : Nat} {fd : Int} {o : Pooled} {objects : Nat}
    {pool : ObjectPool} {who : Nat} {m : Shared}
    (h : (s.enroll l fd o objects pool).live.find who = some m) :
    who = s.accepts ∧ m = ⟨o.object, l, o.conn.enableReadEvent⟩ ∨
      who ≠ s.accepts ∧ s.live.find who = some m :=
  Dict.find_of_insert h

theorem loops_enroll (s : Server) (l : Nat) (fd : Int) (o : Pooled) (objects : Nat)
    (pool : ObjectPool) (k : Nat) :
    k = l ∧ (s.enroll l fd o objects pool).loops k = { s.loops l with
      pool
      connections := (s.loops l).connections.insert fd s.accepts
      timers := (s.loops l).timers.insert fd s.accepts } ∨
    (s.enroll l fd o objects pool).loops k = s.loops k := by
  rw [enroll, loops_record]
  exact loops_setLoop _ l k _

/-- Its connection and its timer are the only new entries. -/
theorem connections_enroll {s : Server} {l : Nat} {fd : Int} {o : Pooled} {objects : Nat}
    {pool : ObjectPool} {k : Nat} {fd' : Int} {who : Nat}
    (h : ((s.enroll l fd o objects pool).loops k).connections.find fd' = some who) :
    k = l ∧ fd' = fd ∧ who = s.accepts ∨ (s.loops k).connections.find fd' = some who := by
  rcases loops_enroll s l fd o objects pool k with ⟨rfl, hk⟩ | hk
  · rw [hk] at h
    rcases Dict.find_of_insert h with ⟨hfd, hwho⟩ | ⟨-, hold⟩
    · exact Or.inl ⟨rfl, hfd, hwho⟩
    · exact Or.inr hold
  · rw [hk] at h
    exact Or.inr h

theorem timers_enroll {s : Server} {l : Nat} {fd : Int} {o : Pooled} {objects : Nat}
    {pool : ObjectPool} {k : Nat} {fd' : Int} {who : Nat}
    (h : ((s.enroll l fd o objects pool).loops k).timers.find fd' = some who) :
    k = l ∧ fd' = fd ∧ who = s.accepts ∨ (s.loops k).timers.find fd' = some who := by
  rcases loops_enroll s l fd o objects pool k with ⟨rfl, hk⟩ | hk
  · rw [hk] at h
    rcases Dict.find_of_insert h with ⟨hfd, hwho⟩ | ⟨-, hold⟩
    · exact Or.inl ⟨rfl, hfd, hwho⟩
    · exact Or.inr hold
  · rw [hk] at h
    exact Or.inr h

/-- No functor is added. -/
theorem functors_enroll (s : Server) (l : Nat) (fd : Int) (o : Pooled) (objects : Nat)
    (pool : ObjectPool) (k : Nat) :
    ((s.enroll l fd o objects pool).loops k).functors = (s.loops k).functors := by
  rcases loops_enroll s l fd o objects pool k with ⟨rfl, hk⟩ | hk
  · rw [hk]
    rfl
  · rw [hk]

theorem fresh_acquire (s : Server) (l : Nat) (fd : Int) :
    Sys.Fresh (s.acquire l fd).1.conn.enableReadEvent ∧ (s.acquire l fd).1.conn.fd = fd := by
  unfold acquire
  cases (s.loops l).pool.get with
  | none => exact ⟨Sys.fresh_new fd s.resourceDir s.router, rfl⟩
  | some got => exact ⟨Sys.fresh_reuse got.1.conn fd s.resourceDir s.router, rfl⟩

theorem not_open {s : Server} {fd : Int} (h : s.isOpen fd = false) {who : Nat} {m : Shared}
    (found : s.live.find who = some m) : m.conn.fd ≠ fd := by
  intro hfd
  have hmem := (s.live.mem_pairs_iff who m).mpr found
  have hopen : s.isOpen fd = true := List.any_eq_true.mpr ⟨(who, m), hmem, by simpa using hfd⟩
  exact absurd (h.symm.trans hopen) Bool.false_ne_true

/-! ## One step -/

/-- The steps of the server, one constructor for each rule. -/
inductive Taken (s : Server) : ServerAct → Server → Prop where
  | accept (l : Nat) (fd : Int) : 0 ≤ fd → s.isOpen fd = false →
      Taken s (.accept l fd) (s.handleListenEvent l fd)
  | readable (who : Nat) (m : Shared) (env : Env) (arrival : Arrival) :
      s.live.find who = some m → (s.loops m.home).idle = true →
      Taken s (.readable who env arrival) (s.perform who m (m.conn.handleRead env arrival))
  | writable (who : Nat) (m : Shared) (sends files : Transfers) :
      s.live.find who = some m → (s.loops m.home).idle = true → m.conn.channel.epollOut = true →
      Taken s (.writable who sends files) (s.perform who m (m.conn.handleWrite sends files))
  | hangup (who : Nat) (m : Shared) : s.live.find who = some m →
      (s.loops m.home).idle = true → Taken s (.hangup who) (s.perform who m m.conn.handleClose)
  | expire (l : Nat) (fd : Int) (who : Nat) : (s.loops l).timers.find fd = some who →
      (s.loops l).idle = true → Taken s (.expire l fd) (s.expire l fd who)
  | swap (l : Nat) : (s.loops l).idle = true → Taken s (.swap l) (s.swap l)
  | run (l : Nat) (env : Env) (sends : Transfers) (f : LoopFunctor) (rest : List LoopFunctor) :
      (s.loops l).batch = f :: rest →
      Taken s (.run l env sends) ((s.take l f rest).runFunctor l env sends f)
  | destroy (l : Nat) : (s.loops l).batch = [] → Taken s (.destroy l) (s.destroy l)

theorem taken_of_dispatch {s t : Server} {who : Nat} {ready : Connection → Bool}
    {handler : Connection → Connection × List Effect} (h : s.dispatch who ready handler = some t) :
    ∃ m, s.live.find who = some m ∧ (s.loops m.home).idle = true ∧ ready m.conn = true ∧
      s.perform who m (handler m.conn) = t := by
  unfold dispatch at h
  cases hfind : s.live.find who with
  | none => simp [hfind] at h
  | some m =>
    simp only [hfind] at h
    obtain ⟨⟨hidle, hready⟩, ht⟩ := Option.ite_none_right_eq_some.mp h
    exact ⟨m, rfl, hidle, hready, Option.some.inj ht⟩

theorem taken_of_step {s t : Server} {a : ServerAct} (h : s.step a = some t) : Taken s a t := by
  cases a with
  | accept l fd =>
    obtain ⟨⟨hfd, hclosed⟩, ht⟩ := Option.ite_none_right_eq_some.mp h
    obtain rfl := Option.some.inj ht
    exact .accept l fd hfd hclosed
  | readable who env arrival =>
    have hdispatch : s.dispatch who (fun _ => true) (·.handleRead env arrival) = some t := h
    obtain ⟨m, hfind, hidle, -, rfl⟩ := taken_of_dispatch hdispatch
    exact .readable who m env arrival hfind hidle
  | writable who sends files =>
    have hdispatch : s.dispatch who (·.channel.epollOut) (·.handleWrite sends files) = some t := h
    obtain ⟨m, hfind, hidle, hout, rfl⟩ := taken_of_dispatch hdispatch
    exact .writable who m sends files hfind hidle hout
  | hangup who =>
    have hdispatch : s.dispatch who (fun _ => true) (·.handleClose) = some t := h
    obtain ⟨m, hfind, hidle, -, rfl⟩ := taken_of_dispatch hdispatch
    exact .hangup who m hfind hidle
  | expire l fd =>
    cases hfind : (s.loops l).timers.find fd with
    | none => simp [step, hfind] at h
    | some who =>
      simp only [step, hfind] at h
      obtain ⟨hidle, ht⟩ := Option.ite_none_right_eq_some.mp h
      obtain rfl := Option.some.inj ht
      exact .expire l fd who hfind hidle
  | swap l =>
    obtain ⟨hidle, ht⟩ := Option.ite_none_right_eq_some.mp h
    obtain rfl := Option.some.inj ht
    exact .swap l hidle
  | run l env sends =>
    cases hbatch : (s.loops l).batch with
    | nil => simp [step, hbatch] at h
    | cons f rest =>
      obtain rfl : (s.take l f rest).runFunctor l env sends f = t := by
        simpa [step, hbatch] using h
      exact .run l env sends f rest hbatch
  | destroy l =>
    obtain ⟨hbatch, ht⟩ := Option.ite_none_right_eq_some.mp h
    obtain rfl := Option.some.inj ht
    exact .destroy l hbatch

/-- A server before its first connection. -/
structure Started (s : Server) : Prop where
  live : s.live = .empty
  accepts : s.accepts = 0
  loops : ∀ l, s.loops l = {}
  log : s.log = []

/-- A server that has started, with these settings. -/
def new (resourceDir : Str) (router : Option Router) : Server := { resourceDir, router }

theorem started_new (resourceDir : Str) (router : Option Router) :
    (new resourceDir router).Started := ⟨rfl, rfl, fun _ => rfl, rfl⟩

/-- The next batch of a loop, of this many functors. -/
def batchOf (l : Nat) (env : Env) (sends : Transfers) (count : Nat) : List ServerAct :=
  .swap l :: List.replicate count (.run l env sends) ++ [.destroy l]

/-- One packet arrives for the connection. -/
def arrives (who : Nat) (env : Env) (data : Str) (fits : data.length ≤ 4096) : ServerAct :=
  .readable who env ⟨[⟨data, fits⟩], .again⟩

/-- `recv` answers zero. -/
def peerCloses (who : Nat) (env : Env) : ServerAct :=
  .readable who env ⟨[⟨[], by decide⟩], .again⟩

/-! ## Invariants of the objects -/

/-- A property of connections that new objects have and that the handlers, the deleter and
`Reuse` keep. -/
structure Lasting (P : Connection → Prop) : Prop where
  new : ∀ fd dir router, P (Connection.new fd dir router)
  reuse : ∀ c fd dir router, P c → P (c.reuse fd dir router)
  enable : ∀ c, P c → P c.enableReadEvent
  handleRead : ∀ c env arrival, P c → P (c.handleRead env arrival).1
  handleWrite : ∀ c sends files, P c → P (c.handleWrite sends files).1
  call : ∀ c cb env sends, P c → P (c.call cb env sends).1
  close : ∀ c, P c → P c.close.1

/-- The property holds of every object, in use or in a pool. -/
structure Everywhere (P : Connection → Prop) (s : Server) : Prop where
  live : ∀ who m, s.live.find who = some m → P m.conn
  pooled : ∀ l o, o ∈ (s.loops l).pool.objects → P o.conn

section
variable {P : Connection → Prop} {s : Server}

theorem everywhere_setLoop (h : Everywhere P s) (l : Nat) {loop : EventLoop}
    (hpool : ∀ o ∈ loop.pool.objects, P o.conn) : Everywhere P (s.setLoop l loop) := by
  refine ⟨h.live, ?_⟩
  intro k o ho
  rcases loops_setLoop s l k loop with ⟨-, hloop⟩ | hloop
  · rw [hloop] at ho
    exact hpool o ho
  · rw [hloop] at ho
    exact h.pooled k o ho

theorem everywhere_queueInLoop (h : Everywhere P s) (l : Nat) (fs : List LoopFunctor) :
    Everywhere P (s.queueInLoop l fs) :=
  everywhere_setLoop h l (h.pooled l)

theorem everywhere_perform (h : Everywhere P s) {who : Nat} {m : Shared}
    {out : Connection × List Effect} (hout : P out.1) : Everywhere P (s.perform who m out) := by
  apply everywhere_queueInLoop
  refine ⟨?_, h.pooled⟩
  intro k m' hfind
  rw [Dict.find_insert] at hfind
  split at hfind
  · obtain rfl := Option.some.inj hfind
    exact hout
  · exact h.live k m' hfind

theorem mem_giveBack {p : ObjectPool} {o o' : Pooled} (h : o' ∈ (p.giveBack o).objects) :
    o' ∈ p.objects ∨ o' = o := by
  unfold ObjectPool.giveBack at h
  split at h
  · exact (List.mem_append.mp h).imp_right List.mem_singleton.mp
  · exact .inl h

theorem everywhere_drop (lasting : Lasting P) (h : Everywhere P s) (who : Nat) :
    Everywhere P (s.drop who) := by
  have hend := drop_end s who
  generalize s.drop who = t at hend ⊢
  cases hend with
  | kept => exact h
  | released m hfind _ =>
    have herased : Everywhere P { s with live := s.live.erase who } :=
      ⟨fun k m' hk => h.live k m' (Dict.find_of_erase hk), h.pooled⟩
    have hpool : ∀ o ∈ ((s.loops m.home).pool.giveBack ⟨m.object, m.conn.close.1⟩).objects,
        P o.conn := by
      intro o ho
      rcases mem_giveBack ho with hold | rfl
      · exact h.pooled m.home o hold
      · exact lasting.close m.conn (h.live who m hfind)
    have hreleased : Everywhere P (setLoop { s with live := s.live.erase who } m.home
        { s.loops m.home with
          pool := (s.loops m.home).pool.giveBack ⟨m.object, m.conn.close.1⟩ }) :=
      everywhere_setLoop herased m.home hpool
    exact ⟨hreleased.live, hreleased.pooled⟩

/-- The object for a new connection, and those left in the pool. -/
theorem everywhere_acquire (lasting : Lasting P) (h : Everywhere P s) (l : Nat) (fd : Int) :
    P (s.acquire l fd).1.conn ∧ ∀ o ∈ (s.acquire l fd).2.2.objects, P o.conn := by
  have hpool := h.pooled l
  unfold acquire
  rcases hget : (s.loops l).pool with ⟨_ | ⟨o, rest⟩, bound⟩
  · exact ⟨lasting.new fd s.resourceDir s.router, fun o ho => nomatch ho⟩
  · rw [hget] at hpool
    refine ⟨lasting.reuse o.conn fd s.resourceDir s.router (hpool o List.mem_cons_self), ?_⟩
    intro o' ho'
    exact hpool o' (List.mem_cons_of_mem o ho')

theorem everywhere_enroll (lasting : Lasting P) (h : Everywhere P s) (l : Nat) (fd : Int)
    {o : Pooled} (objects : Nat) {pool : ObjectPool} (hconn : P o.conn)
    (hpool : ∀ o ∈ pool.objects, P o.conn) : Everywhere P (s.enroll l fd o objects pool) := by
  constructor
  · intro k m hfind
    rcases live_enroll hfind with ⟨-, rfl⟩ | ⟨-, hold⟩
    · exact lasting.enable _ hconn
    · exact h.live k m hold
  · intro k o' ho
    rcases loops_enroll s l fd o objects pool k with ⟨-, hloop⟩ | hloop
    · rw [hloop] at ho
      exact hpool o' ho
    · rw [hloop] at ho
      exact h.pooled k o' ho

theorem everywhere_runFunctor (lasting : Lasting P) (h : Everywhere P s) (l : Nat) (env : Env)
    (sends : Transfers) (f : LoopFunctor) : Everywhere P (s.runFunctor l env sends f) := by
  cases f with
  | call who cb =>
    apply call_keeps (Everywhere P) h l who cb env sends
    intro m hfind
    exact everywhere_perform h (lasting.call m.conn cb env sends (h.live who m hfind))
  | timeout fd who => exact everywhere_queueInLoop h l _
  | erase fd whom =>
    have herased : Everywhere P (s.setLoop l
        { s.loops l with connections := (s.loops l).connections.erase fd }) :=
      everywhere_setLoop h l (h.pooled l)
    have hrecorded : Everywhere P ((s.setLoop l
        { s.loops l with connections := (s.loops l).connections.erase fd }).record
        (.erased l fd whom ((s.loops l).connections.find fd))) :=
      ⟨herased.live, herased.pooled⟩
    exact elim_drop_keeps (Everywhere P) (fun s who h => everywhere_drop lasting h who) hrecorded _

theorem everywhere_step (lasting : Lasting P) {t : Server} {a : ServerAct} (h : Everywhere P s)
    (hstep : s.step a = some t) : Everywhere P t := by
  cases taken_of_step hstep with
  | accept l fd =>
    obtain ⟨hconn, hpool⟩ := everywhere_acquire lasting h l fd
    have henrolled := everywhere_enroll lasting h l fd (s.acquire l fd).2.1 hconn hpool
    exact elim_drop_keeps (Everywhere P) (fun s who h => everywhere_drop lasting h who) henrolled _
  | readable who m env arrival hfind =>
    exact everywhere_perform h (lasting.handleRead m.conn env arrival (h.live who m hfind))
  | writable who m sends files hfind =>
    exact everywhere_perform h (lasting.handleWrite m.conn sends files (h.live who m hfind))
  | hangup who m hfind => exact everywhere_perform h (h.live who m hfind)
  | expire l fd who => exact everywhere_setLoop h l (h.pooled l)
  | swap l => exact everywhere_setLoop h l (h.pooled l)
  | run l env sends f rest =>
    have htaken : Everywhere P (s.take l f rest) := everywhere_setLoop h l (h.pooled l)
    exact everywhere_runFunctor lasting htaken l env sends f
  | destroy l =>
    have hcleared : Everywhere P (s.setLoop l { s.loops l with ran := [] }) :=
      everywhere_setLoop h l (h.pooled l)
    exact drops_keep (Everywhere P) (fun s who h => everywhere_drop lasting h who) hcleared _

/-- A lasting property holds of every object at the end of every run. -/
theorem everywhere_run (lasting : Lasting P) {t : Server} {as : List ServerAct}
    (started : s.Started) (run : exec s as = some t) : Everywhere P t := by
  refine GuardedRuns.invariant_of_run (Everywhere P)
    (fun _ _ _ h hstep => everywhere_step lasting h hstep) ⟨?_, ?_⟩ run
  · intro who m hfind
    rw [started.live] at hfind
    cases hfind
  · intro l o ho
    rw [started.loops] at ho
    cases ho

end

end Server

end WebServer
