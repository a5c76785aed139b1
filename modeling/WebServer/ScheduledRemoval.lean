import WebServer.DescriptorOwnership

/-!
# A closed connection is on its way out

Three paths set Closed. The parse error queues `HandleClose` with it; the end of a
response to a request that is not keep-alive, reached from `TrySend` or `HandleWrite`,
queues nothing. The guard asks for a removal that is queued already in exactly those
two cases, as long as the connection is in the map of its loop.
-/

namespace WebServer

open KeyedList Connection

namespace Connection

/-- `TrySend` completes a response after which the connection is not kept. -/
def trySendCloses (c : Connection) (sends : Transfers) : Bool :=
  c.isKeepAlive = false ∧ (covers sends.counts c.writeBuffer.readableBytes ∨
    stalls sends.counts c.writeBuffer.readableBytes)

/-- `HandleWrite` does; it goes through the file first. -/
def handleWriteCloses (c : Connection) (sends files : Transfers) : Bool :=
  c.isKeepAlive = false ∧ (stalls sends.counts c.writeBuffer.readableBytes ∨
    covers sends.counts c.writeBuffer.readableBytes ∧
      (c.sendFileFd < 0 ∨ c.sendFileLen ≤ files.counts.sum))

/-- The handler queues the removal of the connection. -/
def Quits (fx : List Effect) : Prop :=
  .queued .handleClose ∈ fx ∨ .queued .removeConnection ∈ fx

theorem quits_append_right {fx' : List Effect} (h : Quits fx') (fx : List Effect) :
    Quits (fx ++ fx') :=
  h.imp (List.mem_append_right fx) (List.mem_append_right fx)

/-- The handler leaves the connection closed only if it was, if it queues the removal,
or in the case given. -/
def ClosesIn (c : Connection) (case : Prop) (out : Connection × List Effect) : Prop :=
  out.1.state = .closed → c.state = .closed ∨ Quits out.2 ∨ case

theorem closesIn_after {c c' : Connection} {case case' : Prop} {out : Connection × List Effect}
    (h : ClosesIn c' case' out) (same : c'.state = .closed → c.state = .closed)
    (weaker : case' → case) (fx : List Effect) : ClosesIn c case (out.1, fx ++ out.2) := by
  intro hclosed
  rcases h hclosed with hwas | hquits | hcase
  · exact Or.inl (same hwas)
  · exact Or.inr (Or.inl (quits_append_right hquits fx))
  · exact Or.inr (Or.inr (weaker hcase))

theorem closesIn_onResponseFinished (c : Connection) :
    ClosesIn c (c.isKeepAlive = false) c.onResponseFinished.2 := by
  have hend := onResponseFinished_end c
  generalize c.onResponseFinished.2 = out at hend ⊢
  intro hclosed
  cases hend with
  | kept =>
    have hconnected : c.resetForNextRequest.1.state = .connected := by
      by_cases hopen : 0 ≤ c.sendFileFd <;> simp [resetForNextRequest, enableReadEvent, hopen]
    exact absurd (hconnected.symm.trans hclosed) (by decide)
  | closed hkeep => exact Or.inr (Or.inr hkeep)

theorem closesIn_writeDone (c : Connection) : ClosesIn c (c.isKeepAlive = false) c.writeDone :=
  closesIn_onResponseFinished (disableWriteEvent { c with writeState := .idle })

theorem closesIn_sendFile (c : Connection) (files : Transfers) :
    ClosesIn c (c.isKeepAlive = false ∧ (c.sendFileFd < 0 ∨ c.sendFileLen ≤ files.counts.sum))
      (c.sendFile files) := by
  have hend := sendFile_end c files
  generalize c.sendFile files = out at hend ⊢
  cases hend with
  | noFile hfile =>
    have hdone := closesIn_writeDone c
    exact closesIn_after hdone id (fun hkeep => ⟨hkeep, Or.inl hfile⟩) []
  | waiting => exact Or.inl
  | failed => exact Or.inl
  | drained moves _ _ hcovered =>
    have hdone := closesIn_writeDone { c with sendFileLen := 0, sendFileFd := -1 }
    intro hclosed
    rcases hdone hclosed with hwas | hquits | hkeep
    · exact Or.inl hwas
    · refine Or.inr (Or.inl (quits_append_right ?_ _))
      exact quits_append_right hquits [.discarded .drained 0]
    · exact Or.inr (Or.inr ⟨hkeep, Or.inr hcovered⟩)

theorem closesIn_handleWrite {c : Connection} (h : BuffersWf c) (sends files : Transfers) :
    ClosesIn c (c.handleWriteCloses sends files = true) (c.handleWrite sends files) := by
  have hend := handleWrite_end h.write sends files
  generalize c.handleWrite sends files = out at hend ⊢
  cases hend with
  | drained b chunks _ _ hcovers =>
    refine closesIn_after (closesIn_sendFile (c.writing b) files) id ?_ _
    rintro ⟨hkeep, hfile⟩
    exact decide_eq_true ⟨hkeep, Or.inr ⟨hcovers, hfile⟩⟩
  | stalled b chunks _ _ hstalls =>
    refine closesIn_after (closesIn_onResponseFinished (c.unfinished b)) id ?_ _
    intro hkeep
    exact decide_eq_true ⟨hkeep, Or.inl hstalls⟩
  | waiting => exact Or.inl
  | failed => exact Or.inl

theorem closesIn_trySend {c : Connection} (h : BuffersWf c) (sends : Transfers) :
    ClosesIn c (c.trySendCloses sends = true) (c.trySend sends) := by
  have hend := trySend_end h.write sends
  generalize c.trySend sends = out at hend ⊢
  cases hend with
  | finished b chunks _ hdone hcovers =>
    refine closesIn_after (closesIn_onResponseFinished { c with writeBuffer := b }) id ?_ _
    intro hkeep
    exact decide_eq_true ⟨hkeep, hdone.imp_left hcovers⟩
  | waiting => exact Or.inl
  | failed => exact Or.inl

theorem closesIn_processInWorker {c : Connection} (h : BuffersWf c) (env : Env) :
    ClosesIn c False (c.processInWorker env) := by
  have hend := processInWorker_end h.read env
  generalize c.processInWorker env = out at hend ⊢
  intro hclosed
  cases hend with
  | incomplete => cases hclosed
  | error => exact Or.inr (Or.inl (Or.inl (by simp)))
  | complete => cases hclosed

theorem closesIn_handleRead {c : Connection} (h : BuffersWf c) (env : Env) (arrival : Arrival) :
    ClosesIn c False (c.handleRead env arrival) := by
  have hend := handleRead_end h.read env arrival
  generalize c.handleRead env arrival = out at hend ⊢
  cases hend with
  | closing => exact Or.inl
  | reading => exact Or.inl
  | processing b packets hb =>
    refine closesIn_after (closesIn_processInWorker
      (c := { c with readBuffer := b, state := .processing }) ⟨hb, h.write⟩ env) ?_ id _
    intro hclosed
    cases hclosed

theorem closesIn_call {c : Connection} (h : BuffersWf c) (cb : Callback) (env : Env)
    (sends : Transfers) :
    ClosesIn c (cb = .trySend ∧ c.state ≠ .closed ∧ c.trySendCloses sends = true)
      (c.call cb env sends) := by
  cases cb with
  | trySend =>
    by_cases hclosed : c.state = .closed
    · exact fun _ => Or.inl hclosed
    · rw [call, if_neg hclosed]
      intro hafter
      exact (closesIn_trySend h sends hafter).imp_right
        (Or.imp_right fun hcase => ⟨rfl, hclosed, hcase⟩)
  | processInWorker =>
    intro hafter
    exact (closesIn_processInWorker h env hafter).imp_right (Or.imp_right False.elim)
  | handleClose => exact Or.inl
  | removeConnection => exact Or.inl

end Connection

/-- The connection whose `TrySend` functor runs next. -/
def EventLoop.sender (l : EventLoop) : Option Nat :=
  match l.batch with
  | .call who .trySend :: _ => some who
  | _ => none

/-- The functor leads to the removal of the connection. -/
def LoopFunctor.departs (who : Nat) : LoopFunctor → Bool
  | .call who' cb => who' = who ∧ (cb = .handleClose ∨ cb = .removeConnection)
  | .timeout _ who' => who' = who
  | .erase _ who' => who' = who

namespace Server

/-- A removal of the connection waits in the queue or the batch of the loop. -/
def leaving (s : Server) (l : Nat) (who : Nat) : Bool := (s.loops l).waiting.any (·.departs who)

/-- The connection, as long as it is in the map of its loop. -/
def current (s : Server) (who : Nat) : Option Shared :=
  (s.live.find who).filter fun m => (s.loops m.home).connections.find m.conn.fd = some who

/-- A response after which the connection is not kept is completed only when the removal
of the connection is queued. A connection that is closed already sends nothing here. -/
def Heeded (s : Server) : ServerAct → Prop
  | .writable who sends files => ∀ m ∈ s.current who,
      m.conn.handleWriteCloses sends files = true → s.leaving m.home who = true
  | .run l _ sends => ∀ who ∈ (s.loops l).sender, ∀ m ∈ s.current who, m.conn.state ≠ .closed →
      m.conn.trySendCloses sends = true → s.leaving m.home who = true
  | _ => True

instance (s : Server) : (a : ServerAct) → Decidable (Heeded s a)
  | .writable _ _ _ => by unfold Heeded; infer_instance
  | .run _ _ _ => by unfold Heeded; infer_instance
  | .accept _ _ | .readable _ _ _ | .hangup _ | .expire _ _ | .swap _ | .destroy _ =>
    .isTrue trivial

/-- Every closed connection in the map of its loop is on its way out, by a functor that
waits or by the one that runs. -/
def Scheduled (s : Server) (running : Option LoopFunctor) : Prop :=
  ∀ l fd who m, (s.loops l).connections.find fd = some who → s.live.find who = some m →
    m.conn.state = .closed →
    ∃ f, (f ∈ (s.loops l).waiting ∨ running = some f) ∧ f.departs who = true

theorem scheduled_drop {s : Server} (h : s.Scheduled none) (who : Nat) :
    (s.drop who).Scheduled none := by
  intro l fd who' m hfind hlive
  obtain ⟨pool, hloop⟩ := loops_drop s who l
  rw [hloop] at hfind ⊢
  exact h l fd who' m hfind (live_drop hlive)

/-- A change in one loop that forgets connections and keeps what waits. -/
theorem scheduled_setLoop {s : Server} {running running' : Option LoopFunctor}
    (h : s.Scheduled running) {l : Nat} {loop : EventLoop}
    (connections : ∀ fd who, loop.connections.find fd = some who →
      (s.loops l).connections.find fd = some who)
    (kept : ∀ f, f ∈ (s.loops l).waiting ∨ running = some f → f ∈ loop.waiting ∨ running' = some f)
    (same : ∀ f, running = some f → running' = some f) : (s.setLoop l loop).Scheduled running' := by
  intro k fd who m hfind hlive hclosed
  rcases loops_setLoop s l k loop with ⟨rfl, hk⟩ | hk
  · rw [hk] at hfind ⊢
    obtain ⟨f, hf, hdeparts⟩ := h k fd who m (connections fd who hfind) hlive hclosed
    exact ⟨f, kept f hf, hdeparts⟩
  · rw [hk] at hfind ⊢
    obtain ⟨f, hf, hdeparts⟩ := h k fd who m hfind hlive hclosed
    exact ⟨f, hf.imp_right (same f), hdeparts⟩

theorem connections_queueInLoop (s : Server) (l k : Nat) (fs : List LoopFunctor) :
    ((s.queueInLoop l fs).loops k).connections = (s.loops k).connections := by
  by_cases hk : k = l
  · subst hk
    rw [queueInLoop, loops_setLoop_self]
  · rw [queueInLoop, loops_setLoop_ne _ hk]

theorem waiting_queueInLoop (s : Server) (l k : Nat) (fs : List LoopFunctor) :
    ((s.queueInLoop l fs).loops k).waiting = (s.loops k).waiting ++ if k = l then fs else [] := by
  by_cases hk : k = l
  · subst hk
    rw [queueInLoop, loops_setLoop_self, if_pos rfl]
    exact (List.append_assoc _ _ _).symm
  · rw [queueInLoop, loops_setLoop_ne _ hk, if_neg hk, List.append_nil]

theorem quits_departs {fx : List Effect} (h : Quits fx) (who : Nat) :
    ∃ f ∈ functorsOf who fx, f.departs who = true := by
  rcases h with hmem | hmem
  · exact ⟨.call who .handleClose, List.mem_filterMap.mpr ⟨_, hmem, rfl⟩, by
      simp [LoopFunctor.departs]⟩
  · exact ⟨.call who .removeConnection, List.mem_filterMap.mpr ⟨_, hmem, rfl⟩, by
      simp [LoopFunctor.departs]⟩

theorem current_of_registered {s : Server} {who : Nat} {m : Shared}
    (found : s.live.find who = some m)
    (hfind : (s.loops m.home).connections.find m.conn.fd = some who) : m ∈ s.current who := by
  rw [current, found]
  exact Option.filter_eq_some_iff.mpr ⟨rfl, by simpa using hfind⟩

theorem scheduled_perform {s : Server} {running : Option LoopFunctor} (h : s.Scheduled running)
    (hc : s.Consistent) {who : Nat} {m : Shared} (found : s.live.find who = some m)
    {out : Connection × List Effect} {case : Prop} (closes : ClosesIn m.conn case out)
    (heeded : case → m ∈ s.current who → s.leaving m.home who = true)
    (passes : ∀ f who', running = some f → f.departs who' = true →
      who' = who ∧ ∃ g ∈ functorsOf who out.2, g.departs who = true) :
    (s.perform who m out).Scheduled none := by
  intro k fd who' n hfind hlive hclosed
  rw [loops_perform] at hfind ⊢
  rw [connections_queueInLoop] at hfind
  rw [waiting_queueInLoop]
  by_cases hwho : who' = who
  · subst hwho
    obtain rfl := Option.some.inj ((Dict.find_insert_self _ _ _).symm.trans hlive)
    obtain ⟨m', hm', rfl, rfl⟩ := hc.registered k fd who' hfind
    obtain rfl := Option.some.inj (found.symm.trans hm')
    rw [if_pos rfl]
    rcases closes hclosed with hwas | hquits | hcase
    · obtain ⟨f, hwaits | hruns, hdeparts⟩ := h _ _ who' m hfind found hwas
      · exact ⟨f, Or.inl (List.mem_append_left _ hwaits), hdeparts⟩
      · obtain ⟨-, g, hg, hdeparts'⟩ := passes f who' hruns hdeparts
        exact ⟨g, Or.inl (List.mem_append_right _ hg), hdeparts'⟩
    · obtain ⟨g, hg, hdeparts⟩ := quits_departs hquits who'
      exact ⟨g, Or.inl (List.mem_append_right _ hg), hdeparts⟩
    · have hleaving := heeded hcase (current_of_registered found hfind)
      obtain ⟨f, hwaits, hdeparts⟩ := List.any_eq_true.mp hleaving
      exact ⟨f, Or.inl (List.mem_append_left _ hwaits), hdeparts⟩
  · have hold : s.live.find who' = some n := (Dict.find_insert_ne _ hwho _).symm.trans hlive
    obtain ⟨f, hwaits | hruns, hdeparts⟩ := h k fd who' n hfind hold hclosed
    · exact ⟨f, Or.inl (List.mem_append_left _ hwaits), hdeparts⟩
    · exact absurd (passes f who' hruns hdeparts).1 hwho

theorem scheduled_dispatched {s : Server} (h : s.Scheduled none) (hc : s.Consistent) {who : Nat}
    {m : Shared} (found : s.live.find who = some m) {out : Connection × List Effect} {case : Prop}
    (closes : ClosesIn m.conn case out)
    (heeded : case → m ∈ s.current who → s.leaving m.home who = true) :
    (s.perform who m out).Scheduled none := by
  refine scheduled_perform h hc found closes heeded ?_
  intro f who' hruns
  cases hruns

theorem scheduled_enroll {s : Server} (h : s.Scheduled none) {l : Nat} {fd : Int} {o : Pooled}
    (fresh : Sys.Fresh o.conn.enableReadEvent) (objects : Nat) (pool : ObjectPool) :
    (s.enroll l fd o objects pool).Scheduled none := by
  intro k fd' who m hfind hlive hclosed
  rcases live_enroll hlive with ⟨-, rfl⟩ | ⟨hwho, hold⟩
  · exact absurd (fresh.state.symm.trans hclosed) (by decide)
  · have hknown := (connections_enroll hfind).resolve_left fun hnew => hwho hnew.2.2
    have hleaving := h k fd' who m hknown hold hclosed
    rcases loops_enroll s l fd o objects pool k with ⟨rfl, hk⟩ | hk
    · rw [hk]
      exact hleaving
    · rw [hk]
      exact hleaving

theorem current_take (s : Server) (l : Nat) (f : LoopFunctor) (rest : List LoopFunctor)
    (who : Nat) : (s.take l f rest).current who = s.current who := by
  have hsame : ∀ k, ((s.take l f rest).loops k).connections = (s.loops k).connections := by
    intro k
    by_cases hk : k = l
    · subst hk
      rw [take, loops_setLoop_self]
    · rw [take, loops_setLoop_ne _ hk]
  have hlive : (s.take l f rest).live = s.live := rfl
  simp only [current, hsame, hlive]

/-- A functor that is taken without removing the connection leaves its removal waiting. -/
theorem leaving_take {s : Server} {l : Nat} {f : LoopFunctor} {rest : List LoopFunctor}
    (hbatch : (s.loops l).batch = f :: rest) {k who : Nat} (stays : ¬f.departs who = true)
    (h : s.leaving k who = true) : (s.take l f rest).leaving k who = true := by
  obtain ⟨g, hg, hdeparts⟩ := List.any_eq_true.mp h
  refine List.any_eq_true.mpr ⟨g, ?_, hdeparts⟩
  by_cases hk : k = l
  · subst hk
    rw [EventLoop.waiting, hbatch, List.cons_append] at hg
    rw [take, loops_setLoop_self]
    rcases List.mem_cons.mp hg with rfl | hrest
    · exact absurd hdeparts stays
    · exact hrest
  · rw [take, loops_setLoop_ne _ hk]
    exact hg

theorem scheduled_take {s : Server} (h : s.Scheduled none) {l : Nat} {f : LoopFunctor}
    {rest : List LoopFunctor} (hbatch : (s.loops l).batch = f :: rest) :
    (s.take l f rest).Scheduled (some f) := by
  refine scheduled_setLoop h (fun _ _ hfind => hfind) ?_ (fun _ hnone => by cases hnone)
  rintro g (hwaits | hnone)
  · rw [EventLoop.waiting, hbatch, List.cons_append] at hwaits
    rcases List.mem_cons.mp hwaits with rfl | hrest
    · exact Or.inr rfl
    · exact Or.inl hrest
  · cases hnone

theorem scheduled_call {s : Server} {who : Nat} {cb : Callback}
    (h : s.Scheduled (some (.call who cb))) (hc : s.Consistent) {m : Shared}
    (found : s.live.find who = some m) (env : Env) {sends : Transfers}
    (heeded : cb = .trySend → m.conn.state ≠ .closed → m.conn.trySendCloses sends = true →
      m ∈ s.current who → s.leaving m.home who = true) :
    (s.perform who m (m.conn.call cb env sends)).Scheduled none := by
  refine scheduled_perform h hc found (closesIn_call (hc.buffers who m found) cb env sends)
    (fun hcase => heeded hcase.1 hcase.2.1 hcase.2.2) ?_
  intro f who' hruns hdeparts
  obtain rfl := Option.some.inj hruns
  obtain ⟨rfl, hremoves⟩ : who = who' ∧ (cb = .handleClose ∨ cb = .removeConnection) := by
    simpa [LoopFunctor.departs] using hdeparts
  refine ⟨rfl, ?_⟩
  rcases hremoves with rfl | rfl
  · exact ⟨.call who .removeConnection, by simp [call, handleClose, functorsOf], by
      simp [LoopFunctor.departs]⟩
  · exact ⟨.erase m.conn.fd who, by simp [call, functorsOf], by simp [LoopFunctor.departs]⟩

theorem scheduled_erase {s : Server} {l : Nat} {fd : Int} {who : Nat}
    (h : s.Scheduled (some (.erase fd who))) (hc : s.Consistent) (noted : s.Noted l fd who) :
    (s.erase l fd who).Scheduled none := by
  refine elim_drop_keeps (Scheduled · none) (fun _ who h => scheduled_drop h who) ?_ _
  intro k fd' who' m hfind hlive hclosed
  rw [loops_record] at hfind ⊢
  have hold : (s.loops k).connections.find fd' = some who' ∧ ¬(k = l ∧ fd' = fd) ∧
      ((s.setLoop l { s.loops l with
        connections := (s.loops l).connections.erase fd }).loops k).waiting =
        (s.loops k).waiting := by
    by_cases hk : k = l
    · subst hk
      rw [loops_setLoop_self] at hfind ⊢
      refine ⟨Dict.find_of_erase hfind, ?_, rfl⟩
      rintro ⟨-, rfl⟩
      rw [Dict.find_erase_self] at hfind
      cases hfind
    · rw [loops_setLoop_ne _ hk] at hfind ⊢
      exact ⟨hfind, fun both => hk both.1, rfl⟩
  obtain ⟨hregistered, hother, hwaiting⟩ := hold
  rw [hwaiting]
  obtain ⟨f, hwaits | hruns, hdeparts⟩ := h k fd' who' m hregistered hlive hclosed
  · exact ⟨f, Or.inl hwaits, hdeparts⟩
  · -- the connection that this functor was queued for is no longer in the map
    obtain rfl := Option.some.inj hruns
    obtain rfl : who = who' := by simpa [LoopFunctor.departs] using hdeparts
    obtain ⟨m', hm', hhome, hfd⟩ := hc.registered k fd' who hregistered
    obtain ⟨hhome', hfd'⟩ := noted.2 m' hm'
    exact absurd ⟨hhome.symm.trans hhome', hfd.symm.trans hfd'⟩ hother

theorem scheduled_runFunctor {s : Server} {l : Nat} {f : LoopFunctor}
    (h : s.Scheduled (some f)) (hc : s.Consistent) (refers : s.Refers l f) (env : Env)
    {sends : Transfers}
    (heeded : ∀ who m, f = .call who .trySend → m ∈ s.current who → m.conn.state ≠ .closed →
      m.conn.trySendCloses sends = true → s.leaving m.home who = true) :
    (s.runFunctor l env sends f).Scheduled none := by
  cases f with
  | call who cb =>
    obtain ⟨m, hfind, -⟩ := refers
    simp only [runFunctor, hfind, Option.elim_some]
    refine scheduled_call h hc hfind env ?_
    rintro rfl hopen hcloses hcurrent
    exact heeded who m rfl hcurrent hopen hcloses
  | timeout fd who =>
    intro k fd' who' m hfind hlive hclosed
    rw [runFunctor, connections_queueInLoop] at hfind
    rw [runFunctor, waiting_queueInLoop]
    obtain ⟨f, hwaits | hruns, hdeparts⟩ := h k fd' who' m hfind hlive hclosed
    · exact ⟨f, Or.inl (List.mem_append_left _ hwaits), hdeparts⟩
    · obtain rfl := Option.some.inj hruns
      obtain rfl : who = who' := by simpa [LoopFunctor.departs] using hdeparts
      obtain ⟨m', hm', hhome, -⟩ := hc.registered k fd' who hfind
      obtain ⟨hhome', -⟩ := refers.2 m' hm'
      rw [if_pos (hhome.symm.trans hhome')]
      exact ⟨.erase fd who, Or.inl (List.mem_append_right _ (List.mem_singleton.mpr rfl)), hdeparts⟩
  | erase fd who => exact scheduled_erase h hc refers

theorem scheduled_step {s t : Server} {a : ServerAct} (h : s.Scheduled none) (hc : s.Consistent)
    (heeded : Heeded s a) (hstep : s.step a = some t) : t.Scheduled none := by
  cases taken_of_step hstep with
  | accept l fd =>
    exact elim_drop_keeps (Scheduled · none) (fun _ who h => scheduled_drop h who)
      (scheduled_enroll h (fresh_acquire s l fd).1 _ _) _
  | readable who m env arrival hfind =>
    exact scheduled_dispatched h hc hfind
      (closesIn_handleRead (hc.buffers who m hfind) env arrival) (fun hcase => hcase.elim)
  | writable who m sends files hfind =>
    exact scheduled_dispatched h hc hfind
      (closesIn_handleWrite (hc.buffers who m hfind) sends files)
      (fun hcase hcurrent => heeded m hcurrent hcase)
  | hangup who m hfind =>
    have hcloses : ClosesIn m.conn False m.conn.handleClose := Or.inl
    exact scheduled_dispatched h hc hfind hcloses (fun hcase => hcase.elim)
  | expire l fd who hfind =>
    refine scheduled_setLoop h (fun _ _ hfind => hfind) ?_ (fun _ hnone => hnone)
    rintro f (hwaits | hnone)
    · refine Or.inl ?_
      simp only [EventLoop.waiting, ← List.append_assoc]
      exact List.mem_append_left _ hwaits
    · cases hnone
  | swap l hidle =>
    refine scheduled_setLoop h (fun _ _ hfind => hfind) ?_ (fun _ hnone => hnone)
    rintro f (hwaits | hnone)
    · have hbatch : (s.loops l).batch = [] := by
        simp only [EventLoop.idle, decide_eq_true_eq] at hidle
        exact hidle.1
      rw [EventLoop.waiting, hbatch, List.nil_append] at hwaits
      exact Or.inl (List.mem_append_left _ hwaits)
    · cases hnone
  | run l env sends f rest hbatch =>
    have hmem : f ∈ (s.loops l).functors := by simp [EventLoop.functors, hbatch]
    refine scheduled_runFunctor (scheduled_take h hbatch) (consistent_take hc hbatch)
      (by cases f <;> exact hc.functors l _ hmem) env ?_
    rintro who m rfl hcurrent hopen hcloses
    have hcurrent' : m ∈ s.current who := by
      rw [current_take] at hcurrent
      exact hcurrent
    have hsender : who ∈ (s.loops l).sender := by
      rw [EventLoop.sender, hbatch]
      rfl
    exact leaving_take hbatch (fun hdeparts => by simp [LoopFunctor.departs] at hdeparts)
      (heeded who hsender m hcurrent' hopen hcloses)
  | destroy l =>
    have hforgot : (s.setLoop l { s.loops l with ran := [] }).Scheduled none :=
      scheduled_setLoop h (fun _ _ hfind => hfind) (fun _ hf => hf) (fun _ hnone => hnone)
    exact drops_keep (Scheduled · none) (fun _ who h => scheduled_drop h who) hforgot _

/-- In a run in which no response is completed for a connection that is not kept unless
its removal is queued, every closed connection in the map of its loop has a functor that
removes it in the queue or in the batch being run. -/
theorem closed_leaves {s t : Server} (started : s.Started) {as : List ServerAct}
    (run : exec s as = some t) (heeded : GuardedRuns.Guarded step Heeded s as) :
    ∀ l fd who m, (t.loops l).connections.find fd = some who → t.live.find who = some m →
      m.conn.state = .closed →
      ∃ f ∈ (t.loops l).batch ++ (t.loops l).pending, f.departs who = true := by
  have hstart : s.Scheduled none := by
    intro l fd who m hfind
    rw [started.loops l] at hfind
    cases hfind
  have hinv := GuardedRuns.invariant_of_guarded (fun s => s.Consistent ∧ s.Scheduled none)
    (fun _ _ _ h hok hstep => ⟨consistent_step h.1 hstep, scheduled_step h.2 h.1 hok hstep⟩)
    ⟨consistent_started started, hstart⟩ heeded run
  intro l fd who m hfind hlive hclosed
  obtain ⟨f, hwaits | hnone, hdeparts⟩ := hinv.2 l fd who m hfind hlive hclosed
  · exact ⟨f, hwaits, hdeparts⟩
  · cases hnone

/-- A hang-up is queued behind the response to an HTTP/1.0 request. -/
theorem closed_leaves_hangup :
    let env := Env.table []
    let as := [.accept 0 5, arrives 0 env (lit "GET /a HTTP/1.0\r\n\r\n") (by decide),
      .hangup 0, .swap 0, .run 0 env ⟨[1000], .again⟩]
    ∃ t m, exec (new (lit "/w") none) as = some t ∧ t.live.find 0 = some m ∧
      m.conn.state = .closed ∧
      ∃ f ∈ (t.loops 0).batch ++ (t.loops 0).pending, f.departs 0 = true := by
  intro env as
  have hstate : (exec (new (lit "/w") none) as).map (fun t =>
      ((t.loops 0).connections.find 5, (t.live.find 0).map (fun m => m.conn.state))) =
      some (some 0, some .closed) := by
    decide +kernel
  obtain ⟨t, ht, hparts⟩ := Option.map_eq_some_iff.mp hstate
  obtain ⟨hfind, hlive⟩ := Prod.mk.inj hparts
  obtain ⟨m, hm, hclosed⟩ := Option.map_eq_some_iff.mp hlive
  exact ⟨t, m, ht, hm, hclosed,
    closed_leaves (started_new (lit "/w") none) ht (by decide +kernel) 0 5 0 m hfind hm hclosed⟩

/-- After the response to an HTTP/1.0 request the connection is closed, still in the map,
and nothing is queued. -/
theorem closed_forgotten :
    let env := Env.table []
    let as := [.accept 0 5, arrives 0 env (lit "GET /a HTTP/1.0\r\n\r\n") (by decide)] ++
      batchOf 0 env ⟨[1000], .again⟩ 1
    ∃ t m, exec (new (lit "/w") none) as = some t ∧ (t.loops 0).connections.find 5 = some 0 ∧
      t.live.find 0 = some m ∧ m.conn.state = .closed ∧
      ¬∃ f ∈ (t.loops 0).batch ++ (t.loops 0).pending, f.departs 0 = true := by
  intro env as
  have hstate : (exec (new (lit "/w") none) as).map (fun t =>
      ((t.loops 0).connections.find 5, (t.live.find 0).map (fun m => m.conn.state),
        (t.loops 0).batch ++ (t.loops 0).pending)) = some (some 0, some .closed, []) := by
    decide +kernel
  obtain ⟨t, ht, hparts⟩ := Option.map_eq_some_iff.mp hstate
  obtain ⟨hfind, hparts⟩ := Prod.mk.inj hparts
  obtain ⟨hlive, hempty⟩ := Prod.mk.inj hparts
  obtain ⟨m, hm, hclosed⟩ := Option.map_eq_some_iff.mp hlive
  refine ⟨t, m, ht, hfind, hm, hclosed, ?_⟩
  rintro ⟨f, hf, -⟩
  rw [hempty] at hf
  cases hf

end Server

end WebServer
