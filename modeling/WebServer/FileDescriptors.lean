import WebServer.Completion

/-!
# Descriptors of static files

`Process` opens a file and keeps its descriptor in `sendFileFd_`; four other functions
close it. The ledger below is kept along the record of a run, with the numbers that
`open` answers: what `Process` has opened and nobody has closed, and what was closed
without being open. Files that are read into memory are closed by their stream and are
not entered.
-/

namespace WebServer

open Connection TraceAudit

structure Ledger where
  held : List Int := []
  stale : List Int := []
  deriving DecidableEq

namespace Ledger

def opening (l : Ledger) (fd : Int) : Ledger := { l with held := fd :: l.held }

def closing (l : Ledger) (fd : Int) : Ledger :=
  if fd ∈ l.held then { l with held := l.held.erase fd } else { l with stale := fd :: l.stale }

/-- The entry for one effect of a handler that was entered with `fd` in `sendFileFd_` and
in which `open` answers `next`. A descriptor that is overwritten stays open. -/
def note (fd next : Int) (l : Ledger) : Effect → Ledger
  | .responded _ (some _) => l.opening next
  | .discarded .overwritten _ => l
  | .discarded _ _ => l.closing fd
  | _ => l

/-- What is open is what the connection holds, and nothing was closed in vain. -/
structure Owned (l : Ledger) (c : Connection) : Prop where
  held : l.held = if 0 ≤ c.sendFileFd then [c.sendFileFd] else []
  stale : l.stale = []

theorem owned_closing {l : Ledger} {c c' : Connection} (h : l.Owned c) (opened : 0 ≤ c.sendFileFd)
    (closed : c'.sendFileFd < 0) : (l.closing c.sendFileFd).Owned c' := by
  have hheld := h.held
  rw [if_pos opened] at hheld
  have hmem : c.sendFileFd ∈ l.held := by
    rw [hheld]
    exact List.mem_cons_self
  rw [closing, if_pos hmem]
  refine ⟨?_, h.stale⟩
  rw [if_neg (Int.not_le.mpr closed), hheld, List.erase_cons_head]

theorem owned_opening {l : Ledger} {c c' : Connection} (h : l.Owned c) (closed : c.sendFileFd < 0)
    (opened : 0 ≤ c'.sendFileFd) : (l.opening c'.sendFileFd).Owned c' := by
  have hheld := h.held
  rw [if_neg (Int.not_le.mpr closed)] at hheld
  refine ⟨?_, h.stale⟩
  rw [opening, if_pos opened, hheld]

theorem owned_same {l : Ledger} {c c' : Connection} (h : l.Owned c)
    (same : c'.sendFileFd = c.sendFileFd) : l.Owned c' :=
  ⟨same ▸ h.held, h.stale⟩

/-- The effect neither opens nor closes a static file. -/
def apart : Effect → Bool
  | .responded _ file => file.isNone
  | .discarded _ _ => false
  | _ => true

theorem neutral_apart {e : Effect} (h : apart e = true) (fd next : Int) :
    Neutral (note fd next) (fun _ _ => True) e := by
  intro l
  cases e with
  | responded bytes file =>
    obtain rfl : file = none := Option.isNone_iff_eq_none.mp h
    exact ⟨rfl, trivial⟩
  | discarded => cases h
  | received | parsed | opened | sent | transferred | finished | queued | removal =>
    exact ⟨rfl, trivial⟩

theorem account_apart {fx : List Effect} (h : ∀ e ∈ fx, apart e = true) (fd next : Int)
    (l : Ledger) : account (note fd next) l fx = l :=
  account_neutral fun e he => neutral_apart (h e he) fd next

theorem apart_map {α : Type} (f : α → Effect) (h : ∀ a, apart (f a) = true) (as : List α) :
    ∀ e ∈ as.map f, apart e = true := by
  intro e he
  obtain ⟨a, -, rfl⟩ := List.mem_map.mp he
  exact h a

end Ledger

open Ledger

/-! ## Handlers -/

namespace Connection

/-- A handler entered with `fd` in `sendFileFd_` leaves the ledger in order. -/
def Orderly (fd next : Int) (l : Ledger) (out : Connection × List Effect) : Prop :=
  (account (note fd next) l out.2).Owned out.1

section
variable {fd next : Int} {l : Ledger}

theorem orderly_apart {c : Connection} {fx fx' : List Effect} (h : ∀ e ∈ fx, apart e = true)
    (rest : Orderly fd next l (c, fx')) : Orderly fd next l (c, fx ++ fx') := by
  rw [Orderly, account_append, account_apart h]
  exact rest

theorem orderly_quiet {c c' : Connection} {fx : List Effect} (owned : l.Owned c)
    (same : c'.sendFileFd = c.sendFileFd) (h : ∀ e ∈ fx, apart e = true) :
    Orderly fd next l (c', fx) := by
  rw [Orderly, account_apart h]
  exact owned_same owned same

theorem apart_pending (c : Connection) :
    ∀ e ∈ (if c.hasPendingRequest then [Effect.queued .processInWorker] else []),
      apart e = true := by
  by_cases hpending : c.hasPendingRequest = true <;> simp [hpending, apart]

theorem orderly_onResponseFinished {c : Connection} (owned : l.Owned c) :
    Orderly c.sendFileFd next l c.onResponseFinished.2 := by
  have hend := onResponseFinished_end c
  generalize c.onResponseFinished.2 = out at hend ⊢
  cases hend with
  | closed => exact orderly_quiet owned rfl (by simp [apart])
  | kept =>
    rw [Orderly, account_append, account_apart (apart_pending c)]
    by_cases hopen : 0 ≤ c.sendFileFd
    · rw [resetForNextRequest, if_pos hopen]
      exact owned_closing owned hopen (by decide : (-1 : Int) < 0)
    · rw [resetForNextRequest, if_neg hopen]
      exact owned_same owned rfl

/-- Without an open file the end of a response does not concern the ledger. -/
theorem orderly_finished {c : Connection} (owned : l.Owned c) (closed : c.sendFileFd < 0) :
    Orderly fd next l c.onResponseFinished.2 := by
  have hend := onResponseFinished_end c
  generalize c.onResponseFinished.2 = out at hend ⊢
  cases hend with
  | closed => exact orderly_quiet owned rfl (by simp [apart])
  | kept =>
    rw [resetForNextRequest_noFile closed]
    refine orderly_quiet owned ?_ ?_
    · rfl
    · intro e he
      rcases List.mem_cons.mp he with rfl | hpending
      · rfl
      · exact apart_pending c e hpending

theorem orderly_sendFile {c : Connection} (owned : l.Owned c) (files : Transfers) :
    Orderly c.sendFileFd next l (c.sendFile files) := by
  have hmoves := apart_map (fun move : Nat × Nat => .transferred move.1 move.2) (fun _ => rfl)
  have hend := sendFile_end c files
  generalize c.sendFile files = out at hend ⊢
  cases hend with
  | noFile hclosed =>
    exact orderly_finished (c := disableWriteEvent { c with writeState := .idle })
      (owned_same owned rfl) hclosed
  | waiting moves => exact orderly_quiet owned rfl (hmoves moves)
  | failed moves left hopen =>
    exact orderly_apart (hmoves moves) (owned_closing owned hopen (by decide : (-1 : Int) < 0))
  | drained moves hopen =>
    exact orderly_apart (hmoves moves) (orderly_finished
      (c := disableWriteEvent { c with sendFileLen := 0, sendFileFd := -1, writeState := .idle })
      (owned_closing owned hopen (by decide : (-1 : Int) < 0)) (by decide : (-1 : Int) < 0))

theorem orderly_handleWrite {c : Connection} (hwf : c.writeBuffer.Wf) (owned : l.Owned c)
    (sends files : Transfers) : Orderly c.sendFileFd next l (c.handleWrite sends files) := by
  have hsent := apart_map Effect.sent (fun _ => rfl)
  have hend := handleWrite_end hwf sends files
  generalize c.handleWrite sends files = out at hend ⊢
  cases hend with
  | drained b chunks =>
    exact orderly_apart (hsent chunks) (orderly_sendFile (c := c.writing b) (owned_same owned rfl)
      files)
  | stalled b chunks =>
    exact orderly_apart (hsent chunks) (orderly_onResponseFinished (c := c.unfinished b)
      (owned_same owned rfl))
  | waiting b chunks => exact orderly_quiet owned rfl (hsent chunks)
  | failed b chunks =>
    exact orderly_apart (hsent chunks) (orderly_quiet owned rfl (by simp [apart]))

theorem orderly_trySend {c : Connection} (hwf : c.writeBuffer.Wf) (owned : l.Owned c)
    (sends : Transfers) : Orderly c.sendFileFd next l (c.trySend sends) := by
  have hsent := apart_map Effect.sent (fun _ => rfl)
  have hend := trySend_end hwf sends
  generalize c.trySend sends = out at hend ⊢
  cases hend with
  | finished b chunks =>
    exact orderly_apart (hsent chunks) (orderly_onResponseFinished (c := { c with writeBuffer := b })
      (owned_same owned rfl))
  | waiting b chunks => exact orderly_quiet owned rfl (hsent chunks)
  | failed b chunks =>
    exact orderly_apart (hsent chunks) (orderly_quiet owned rfl (by simp [apart]))

/-- A reply may leave a file only where none is open. -/
theorem orderly_store {c : Connection} (owned : l.Owned c) {env : Env} {p : Reply}
    (free : 0 ≤ c.sendFileFd → p.file = none) : Orderly fd env.nextFd l (c.store env p) := by
  have hopened := apart_map Effect.opened (fun _ => rfl) p.opened
  cases hfile : p.file with
  | none =>
    simp only [store, hfile]
    exact orderly_apart hopened (orderly_quiet owned rfl (by simp [apart]))
  | some file =>
    have hclosed : ¬0 ≤ c.sendFileFd :=
      fun hopen => Option.some_ne_none _ (hfile.symm.trans (free hopen))
    simp only [store, hfile, if_neg hclosed, List.append_nil]
    have hopen : 0 ≤ ({ c with sendFileFd := env.nextFd } : Connection).sendFileFd :=
      Int.natCast_nonneg _
    have hnew : (l.opening env.nextFd).Owned { c with sendFileFd := env.nextFd } :=
      owned_opening owned (Int.not_le.mp hclosed) hopen
    exact orderly_apart hopened ⟨hnew.held, hnew.stale⟩

theorem orderly_processInWorker {c : Connection} (hwf : c.readBuffer.Wf) (owned : l.Owned c)
    {env : Env} (free : 0 ≤ c.sendFileFd → ¬TakesFile env c) :
    Orderly fd env.nextFd l (c.processInWorker env) := by
  have hend := processInWorker_end hwf env
  generalize c.processInWorker env = out at hend ⊢
  cases hend with
  | incomplete ctx rest => exact orderly_quiet owned rfl (by simp [apart])
  | error ctx rest => exact orderly_quiet owned rfl (by simp [apart])
  | complete ctx rest _ hparsed =>
    have hfree : 0 ≤ c.sendFileFd →
        (reply env c.resourceDir c.router ctx.request c.response).file = none := by
      intro hopen
      by_contra hsome
      obtain ⟨file, hfile⟩ := Option.ne_none_iff_exists'.mp hsome
      apply free hopen
      rw [TakesFile, hparsed]
      exact ⟨rfl, reply_file hfile⟩
    have hstored : Orderly fd env.nextFd l ({ c with context := ctx, readBuffer := rest }.store env
        (reply env c.resourceDir c.router ctx.request c.response)) :=
      orderly_store (c := { c with context := ctx, readBuffer := rest }) (owned_same owned rfl)
        hfree
    have hqueued : ∀ e ∈ [Effect.queued .trySend], apart e = true := by simp [apart]
    rw [Orderly, account_append, account_apart hqueued]
    exact owned_same hstored rfl

theorem orderly_handleRead {c : Connection} (hwf : c.readBuffer.Wf) (owned : l.Owned c)
    {env : Env} {arrival : Arrival}
    (free : (c.read arrival).1 = .success → c.state = .connected → 0 ≤ c.sendFileFd →
      ¬TakesFile env (c.read arrival).2.1) : Orderly fd env.nextFd l (c.handleRead env arrival) := by
  have hreceived := apart_map Effect.received (fun _ => rfl)
  have hend := handleRead_end hwf env arrival
  generalize c.handleRead env arrival = out at hend ⊢
  cases hend with
  | closing b packets =>
    exact orderly_apart (hreceived packets) (orderly_quiet owned rfl (by simp [apart]))
  | reading b packets => exact orderly_quiet owned rfl (hreceived packets)
  | processing b packets hb _ hsuccess hstate hread =>
    refine orderly_apart (hreceived packets) (orderly_processInWorker
      (c := { c with readBuffer := b, state := .processing }) hb (owned_same owned rfl) ?_)
    intro hopen htakes
    apply free hsuccess hstate hopen
    rw [hread]
    exact htakes

theorem orderly_call {c : Connection} (hwf : BuffersWf c) (owned : l.Owned c) {cb : Callback}
    {env : Env} (free : cb = .processInWorker → 0 ≤ c.sendFileFd → ¬TakesFile env c)
    (sends : Transfers) : Orderly c.sendFileFd env.nextFd l (c.call cb env sends) := by
  cases cb with
  | trySend =>
    by_cases hclosed : c.state = .closed
    · rw [call, if_pos hclosed]
      exact owned
    · rw [call, if_neg hclosed]
      exact orderly_trySend hwf.write owned sends
  | processInWorker => exact orderly_processInWorker hwf.read owned (free rfl)
  | handleClose => exact orderly_quiet owned rfl (by simp [apart])
  | removeConnection => exact orderly_quiet owned rfl (by simp [apart])

theorem orderly_close {c : Connection} (owned : l.Owned c) :
    Orderly c.sendFileFd next l c.close ∧ c.close.1.sendFileFd < 0 := by
  by_cases hopen : 0 ≤ c.sendFileFd
  · rw [close, if_pos hopen]
    exact ⟨owned_closing owned hopen (by decide : (-1 : Int) < 0), (by decide : (-1 : Int) < 0)⟩
  · rw [close, if_neg hopen]
    exact ⟨owned_same owned rfl, Int.not_le.mp hopen⟩

end

end Connection

/-! ## Runs -/

/-- A run of one connection with the ledger beside it. -/
structure Tracked where
  sys : Sys
  ledger : Ledger := {}

namespace Tracked

/-- What `open` answers while the act is carried out. -/
def nextFd : Act → Nat
  | .readable env _ => env.nextFd
  | .run env _ => env.nextFd
  | _ => 0

/-- The effects that a step adds to the record are entered one after another. -/
def enter (t : Tracked) (a : Act) (s : Sys) : Tracked where
  sys := s
  ledger := account (note t.sys.conn.sendFileFd (nextFd a)) t.ledger (s.log.drop t.sys.log.length)

def step (t : Tracked) (a : Act) : Option Tracked := (t.sys.step a).map (t.enter a)

def start (c : Connection) : Tracked := { sys := Sys.start c }

def exec : Tracked → List Act → Option Tracked := GuardedRuns.exec step

/-- No request that leaves a file is processed while another file is open. -/
def OneFile (t : Tracked) : Act → Prop
  | .readable env arrival => (t.sys.conn.read arrival).1 = .success →
      t.sys.conn.state = .connected → 0 ≤ t.sys.conn.sendFileFd →
      ¬TakesFile env (t.sys.conn.read arrival).2.1
  | .run env _ => t.sys.batch.head? = some .processInWorker → 0 ≤ t.sys.conn.sendFileFd →
      ¬TakesFile env t.sys.conn
  | _ => True

instance (t : Tracked) : (a : Act) → Decidable (OneFile t a)
  | .readable _ _ => by unfold OneFile; infer_instance
  | .run _ _ => by unfold OneFile; infer_instance
  | .writable _ _ | .hangup | .swap | .release => .isTrue trivial

/-- The ledger is in order, and a released connection neither holds a file nor will run. -/
structure Kept (t : Tracked) : Prop where
  buffers : BuffersWf t.sys.conn
  owned : t.ledger.Owned t.sys.conn
  released : t.sys.alive = false → t.sys.functors = [] ∧ t.sys.conn.sendFileFd < 0

theorem kept_after {t : Tracked} {a : Act} {batch : List Callback} {alive : Bool}
    {out : Connection × List Effect} (hwf : BuffersWf out.1)
    (orderly : Orderly t.sys.conn.sendFileFd (nextFd a) t.ledger out)
    (released : alive = false → batch = [] ∧ t.sys.pending ++ queuedOf out.2 = [] ∧
      out.1.sendFileFd < 0) :
    (t.enter a (Sys.after { t.sys with batch, alive } out)).Kept := by
  refine ⟨hwf, ?_, ?_⟩
  · have hadded : (t.sys.log ++ out.2).drop t.sys.log.length = out.2 := List.drop_left
    simp only [enter, Sys.after, hadded]
    exact orderly
  · intro hdead
    obtain ⟨hbatch, hpending, hclosed⟩ := released hdead
    exact ⟨List.append_eq_nil_iff.mpr ⟨hbatch, hpending⟩, hclosed⟩

/-- A connection that is gone only sees its empty queue being swapped. -/
theorem alive_of_step {s s' : Sys} {a : Act} (idle : s.alive = false → s.functors = [])
    (hstep : s.step a = some s') : a = .swap ∨ s.alive = true := by
  by_contra hnot
  obtain ⟨hswap, halive⟩ := not_or.mp hnot
  have hdead : s.alive = false := by simpa using halive
  have hbatch : s.batch = [] := (List.append_eq_nil_iff.mp (idle hdead)).1
  cases a with
  | swap => exact hswap rfl
  | readable | writable | hangup | run | release => simp [Sys.step, hdead, hbatch] at hstep

theorem kept_step {t u : Tracked} {a : Act} (h : t.Kept) (oneFile : OneFile t a)
    (hstep : t.step a = some u) : u.Kept := by
  obtain ⟨s, hs, rfl⟩ := Option.map_eq_some_iff.mp hstep
  have hwf := Sys.buffersWf_step h.buffers hs
  have halive := alive_of_step (fun hdead => (h.released hdead).1) hs
  cases Sys.taken_of_step hs with
  | readable env arrival =>
    refine @kept_after _ _ _ t.sys.alive _ hwf (orderly_handleRead h.buffers.read h.owned oneFile)
      ?_
    intro hdead
    simp [hdead] at halive
  | writable sends files =>
    refine @kept_after _ _ _ t.sys.alive _ hwf
      (orderly_handleWrite h.buffers.write h.owned sends files) ?_
    intro hdead
    simp [hdead] at halive
  | hangup =>
    refine @kept_after _ _ _ t.sys.alive _ hwf (orderly_quiet h.owned rfl (by simp [apart])) ?_
    intro hdead
    simp [hdead] at halive
  | swap hbatch =>
    have hnothing : t.sys.log.drop t.sys.log.length = [] := List.drop_length
    refine ⟨hwf, ?_, ?_⟩
    · simp only [enter, hnothing]
      exact h.owned
    · intro hdead
      obtain ⟨hfunctors, hclosed⟩ := h.released hdead
      exact ⟨by simpa [enter, Sys.functors, hbatch] using hfunctors, hclosed⟩
  | run env sends cb rest hbatch =>
    refine @kept_after _ _ _ t.sys.alive _ hwf (orderly_call h.buffers h.owned ?_ sends) ?_
    · intro hcb
      exact oneFile (by rw [hbatch, hcb]; rfl)
    · intro hdead
      simp [hdead] at halive
  | release hfunctors =>
    obtain ⟨horderly, hclosed⟩ := orderly_close h.owned
    obtain ⟨hbatch, hpending⟩ := List.append_eq_nil_iff.mp hfunctors
    refine kept_after hwf horderly ?_
    intro _
    refine ⟨hbatch, ?_, hclosed⟩
    rw [hpending, close]
    by_cases hopen : 0 ≤ t.sys.conn.sendFileFd <;> simp [hopen, queuedOf]

/-- In a run in which no file is opened over another one, the open file is the one the
connection holds, nothing is closed twice, and nothing is open after `Close`. -/
theorem file_descriptors_owned {c : Connection} (fresh : Sys.Fresh c) {as : List Act} {t : Tracked}
    (run : exec (start c) as = some t) (guarded : GuardedRuns.Guarded step OneFile (start c) as) :
    (t.ledger.held = [] ∨ t.ledger.held = [t.sys.conn.sendFileFd]) ∧ t.ledger.stale = [] ∧
      (t.sys.alive = false → t.ledger.held = []) := by
  have hnone : ¬0 ≤ c.sendFileFd := by
    rw [fresh.ready.noFile]
    decide
  have hstart : (start c).Kept := by
    refine ⟨⟨fresh.ready.readBuffer, fresh.ready.writeBuffer⟩, ⟨?_, rfl⟩, ?_⟩
    · exact (if_neg hnone).symm
    · intro hdead
      cases hdead
  have hkept := GuardedRuns.invariant_of_guarded Kept (fun _ _ _ h hok hs => kept_step h hok hs)
    hstart guarded run
  have hheld := hkept.owned.held
  refine ⟨?_, hkept.owned.stale, ?_⟩
  · by_cases hopen : 0 ≤ t.sys.conn.sendFileFd
    · exact Or.inr (hheld.trans (if_pos hopen))
    · exact Or.inl (hheld.trans (if_neg hopen))
  · intro hdead
    exact hheld.trans (if_neg (Int.not_le.mpr (hkept.released hdead).2))

/-- Two files one after another, the first dropped by the reset and the second by `Close`. -/
theorem file_descriptors_owned_twice :
    let env := Env.table
      [⟨lit "/w", lit "/w", none⟩, ⟨lit "/w/a.bin", lit "/w/a.bin", some (lit "hello")⟩]
    let request := lit "GET /a.bin HTTP/1.1\r\n\r\n"
    let c := enableReadEvent (new 5 (lit "/w") none)
    let as := [Sys.arrives env request (by decide), .swap, Sys.runs env,
      Sys.arrives env request (by decide), .swap, .run env ⟨[10], .again⟩, .release]
    ∃ t, exec (start c) as = some t ∧ t.sys.alive = false ∧ t.ledger.held = [] ∧
      t.ledger.stale = [] := by
  intro env request c as
  have hdead : (exec (start c) as).map (fun t => t.sys.alive) = some false := by
    decide +kernel
  obtain ⟨t, ht, halive⟩ := Option.map_eq_some_iff.mp hdead
  obtain ⟨-, hstale, hclosed⟩ := file_descriptors_owned (Sys.fresh_new 5 (lit "/w") none) ht
    (by decide +kernel)
  exact ⟨t, ht, halive, hclosed halive, hstale⟩

/-- While the functor for the beginning of a second request is queued, an event completes
and processes that request, and the functor processes it again: the file is opened twice,
and the first descriptor is still open after `Close`. -/
theorem file_descriptor_leaks :
    let files := [⟨lit "/w", lit "/w", none⟩, ⟨lit "/w/a.bin", lit "/w/a.bin", some (lit "hello")⟩]
    let env := Env.table files
    let env' := { env with nextFd := 8 }
    let c := enableReadEvent (new 5 (lit "/w") none)
    let opened := [Sys.arrives env (lit "GET /a.bin HTTP/1.1\r\n\r\nGET") (by decide), .swap,
      Sys.runs env, Sys.arrives env (lit " /a.bin HTTP/1.1\r\n\r\n") (by decide), .swap,
      Sys.runs env']
    let closed := opened ++ [Sys.runs env, .swap, Sys.runs env, .release]
    Sys.Fresh c ∧
      (∃ t, exec (start c) opened = some t ∧ t.ledger.held = [8, 7] ∧ t.sys.conn.sendFileFd = 8) ∧
      ∃ t, exec (start c) closed = some t ∧ t.sys.alive = false ∧ t.ledger.held = [7] := by
  intro files env env' c opened closed
  have hopened : (exec (start c) opened).map (fun t => (t.ledger.held, t.sys.conn.sendFileFd)) =
      some ([8, 7], 8) := by
    decide +kernel
  have hclosed : (exec (start c) closed).map (fun t => (t.sys.alive, t.ledger.held)) =
      some (false, [7]) := by
    decide +kernel
  obtain ⟨t, ht, hparts⟩ := Option.map_eq_some_iff.mp hopened
  obtain ⟨u, hu, hparts'⟩ := Option.map_eq_some_iff.mp hclosed
  obtain ⟨hheld, hfd⟩ := Prod.mk.inj hparts
  obtain ⟨hdead, hleft⟩ := Prod.mk.inj hparts'
  exact ⟨Sys.fresh_new 5 (lit "/w") none, ⟨t, ht, hheld, hfd⟩, u, hu, hdead, hleft⟩

end Tracked

end WebServer
