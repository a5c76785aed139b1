import WebServer.ConnectionRuns
import WebServer.TraceAudit

/-!
# Completion of a response

`OnResponseFinished` should be entered only with nothing left to send. `HandleWrite`
sends the file after the head; `TrySend` does not know about it. The audit follows,
along the record of a run, the length of the file left by the latest response and the
bytes moved since, and permits a finish only when both agree and the write buffer is
empty. It permits an open file to be let go only when nothing of it is left, when
sendfile fails and the close of the connection is queued, or by the close itself.
-/

namespace WebServer

open TraceAudit

/-- A file left to sendfile, and the bytes of it that have been moved. -/
structure Transfer where
  length : Nat
  moved : Nat
  deriving DecidableEq

namespace Effect

/-- The transfer of the latest response; `none` when it left no file. -/
def advance (acc : Option Transfer) : Effect → Option Transfer
  | .responded _ file => file.map fun length => ⟨length, 0⟩
  | .transferred _ count => acc.map fun transfer => { transfer with moved := transfer.moved + count }
  | _ => acc

def permitted (acc : Option Transfer) : Effect → Prop
  | .finished unsent => unsent = 0 ∧ ∀ transfer, acc = some transfer → transfer.moved = transfer.length
  | .discarded why left => left = 0 ∨ why = .failed ∨ why = .closed
  | _ => True

end Effect

/-- The transfer of the latest response in a record. -/
def transferOf (log : List Effect) : Option Transfer := account Effect.advance none log

/-- The bytes moved and the length the connection still has to move add up. -/
def Owed (acc : Option Transfer) (left : Nat) : Prop :=
  ∀ transfer, acc = some transfer → transfer.moved + left = transfer.length

theorem neutral_sent (chunks : List Str) :
    ∀ e ∈ chunks.map Effect.sent, Neutral Effect.advance Effect.permitted e := by
  intro e he acc
  obtain ⟨bytes, -, rfl⟩ := List.mem_map.mp he
  exact ⟨rfl, trivial⟩

theorem neutral_received (packets : List Str) :
    ∀ e ∈ packets.map Effect.received, Neutral Effect.advance Effect.permitted e := by
  intro e he acc
  obtain ⟨data, -, rfl⟩ := List.mem_map.mp he
  exact ⟨rfl, trivial⟩

theorem account_moves (acc : Option Transfer) (moves : List (Nat × Nat)) :
    account Effect.advance acc (moves.map fun move => .transferred move.1 move.2) =
      acc.map fun transfer =>
        { transfer with moved := transfer.moved + (moves.map Prod.snd).sum } := by
  induction moves generalizing acc with
  | nil => cases acc <;> rfl
  | cons move rest ih =>
    have hrest := ih (Effect.advance acc (.transferred move.1 move.2))
    cases acc with
    | none => exact hrest
    | some transfer =>
      refine hrest.trans ?_
      simp only [Effect.advance, Option.map_some, List.map_cons, List.sum_cons, Nat.add_assoc]

theorem sound_moves (acc : Option Transfer) (moves : List (Nat × Nat)) :
    Sound Effect.advance Effect.permitted acc
      (moves.map fun move => .transferred move.1 move.2) := by
  induction moves generalizing acc with
  | nil => trivial
  | cons move rest ih => exact ⟨trivial, ih _⟩

/-- Moving part of a file keeps the balance. -/
theorem owed_moves {acc : Option Transfer} {total left : Nat} {moves : List (Nat × Nat)}
    (h : Owed acc total) (hsum : (moves.map Prod.snd).sum + left = total) :
    Owed (account Effect.advance acc (moves.map fun move => .transferred move.1 move.2)) left := by
  rw [account_moves]
  rintro transfer htransfer
  obtain ⟨old, hold, rfl⟩ := Option.map_eq_some_iff.mp htransfer
  have hbalance := h old hold
  dsimp only
  omega

namespace Connection

/-- The record of a handler passes the audit, and the balance holds after it. -/
structure Balanced (acc : Option Transfer) (out : Connection × List Effect) : Prop where
  sound : Sound Effect.advance Effect.permitted acc out.2
  owed : Owed (account Effect.advance acc out.2) out.1.sendFileLen

theorem balanced_append {acc : Option Transfer} {c : Connection} {fx fx' : List Effect}
    (hsound : Sound Effect.advance Effect.permitted acc fx)
    (hrest : Balanced (account Effect.advance acc fx) (c, fx')) : Balanced acc (c, fx ++ fx') := by
  constructor
  · exact (sound_append acc fx fx').mpr ⟨hsound, hrest.sound⟩
  · rw [account_append]
    exact hrest.owed

theorem balanced_neutral {acc : Option Transfer} {c : Connection} {fx fx' : List Effect}
    (hfx : ∀ e ∈ fx, Neutral Effect.advance Effect.permitted e)
    (hrest : Balanced acc (c, fx')) : Balanced acc (c, fx ++ fx') :=
  balanced_append (sound_neutral hfx) ((account_neutral hfx).symm ▸ hrest)

/-- Nothing is owed: no byte is left, or the latest response has no file and none is open. -/
def Settled (acc : Option Transfer) (c : Connection) : Prop :=
  c.sendFileLen = 0 ∨ (acc = none ∧ c.sendFileFd < 0)

theorem balanced_finished {acc : Option Transfer} {c : Connection}
    (hempty : c.writeBuffer.readableBytes = 0) (owed : Owed acc c.sendFileLen)
    (settled : Settled acc c) : Balanced acc c.onResponseFinished.2 := by
  have hwhole : Effect.permitted acc (.finished c.writeBuffer.readableBytes) := by
    refine ⟨hempty, ?_⟩
    intro transfer htransfer
    rcases settled with hnone | ⟨hacc, -⟩
    · have := owed transfer htransfer
      omega
    · exact absurd (htransfer.symm.trans hacc) (Option.some_ne_none _)
  have hend := onResponseFinished_end c
  generalize c.onResponseFinished.2 = out at hend ⊢
  cases hend with
  | closed => exact ⟨⟨hwhole, trivial⟩, owed⟩
  | kept =>
    have hqueued : ∀ e ∈ (if c.hasPendingRequest then [Effect.queued .processInWorker] else []),
        Neutral Effect.advance Effect.permitted e := by
      intro e he acc'
      split at he
      · obtain rfl := List.mem_singleton.mp he
        exact ⟨rfl, trivial⟩
      · cases he
    have hreset : Balanced acc c.resetForNextRequest := by
      by_cases hopen : 0 ≤ c.sendFileFd
      · have hnone : c.sendFileLen = 0 := by
          rcases settled with hnone | ⟨-, hclosed⟩
          · exact hnone
          · omega
        rw [resetForNextRequest, if_pos hopen]
        refine ⟨⟨Or.inl hnone, trivial⟩, ?_⟩
        exact hnone ▸ owed
      · rw [resetForNextRequest, if_neg hopen]
        exact ⟨trivial, owed⟩
    constructor
    · exact ⟨hwhole, (sound_append acc _ _).mpr ⟨hreset.sound, sound_neutral hqueued⟩⟩
    · have hlast : account Effect.advance acc (Effect.finished c.writeBuffer.readableBytes ::
          c.resetForNextRequest.2 ++
            if c.hasPendingRequest then [Effect.queued .processInWorker] else []) =
          account Effect.advance acc c.resetForNextRequest.2 := by
        rw [account_append, account_neutral hqueued]
        rfl
      rw [hlast]
      exact hreset.owed

theorem balanced_writeDone {acc : Option Transfer} {c : Connection}
    (hempty : c.writeBuffer.readableBytes = 0) (owed : Owed acc c.sendFileLen)
    (settled : Settled acc c) : Balanced acc c.writeDone :=
  balanced_finished (c := disableWriteEvent { c with writeState := .idle }) hempty owed settled

theorem balanced_sendFile {acc : Option Transfer} {c : Connection}
    (hempty : c.writeBuffer.readableBytes = 0) (owed : Owed acc c.sendFileLen)
    (settled : c.sendFileFd < 0 → Settled acc c) (files : Transfers) :
    Balanced acc (c.sendFile files) := by
  have hend := sendFile_end c files
  generalize c.sendFile files = out at hend ⊢
  cases hend with
  | noFile hclosed => exact balanced_writeDone hempty owed (settled hclosed)
  | waiting moves left _ hsum _ => exact ⟨sound_moves acc moves, owed_moves owed hsum⟩
  | failed moves left _ hsum _ =>
    refine balanced_append (sound_moves acc moves) ⟨⟨Or.inr (Or.inl rfl), trivial, trivial⟩, ?_⟩
    exact owed_moves owed hsum
  | drained moves _ hsum =>
    have hmoved : Owed (account Effect.advance acc
        (moves.map fun move => .transferred move.1 move.2)) 0 := owed_moves owed hsum
    have hdone := balanced_writeDone (c := { c with sendFileLen := 0, sendFileFd := -1 }) hempty
      hmoved (Or.inl rfl)
    exact balanced_append (sound_moves acc moves) ⟨⟨Or.inl rfl, hdone.sound⟩, hdone.owed⟩

theorem balanced_trySend {acc : Option Transfer} {c : Connection} (hwf : c.writeBuffer.Wf)
    (owed : Owed acc c.sendFileLen) {sends : Transfers}
    (moving : stalls sends.counts c.writeBuffer.readableBytes = false)
    (settled : covers sends.counts c.writeBuffer.readableBytes = true → Settled acc c) :
    Balanced acc (c.trySend sends) := by
  have hend := trySend_end hwf sends
  generalize c.trySend sends = out at hend ⊢
  cases hend with
  | finished b chunks took hdone hcovers =>
    have hempty : b.readableBytes = 0 := by
      rcases hdone with hempty | hstalls
      · exact hempty
      · exact absurd (moving.symm.trans hstalls) Bool.false_ne_true
    exact balanced_neutral (neutral_sent chunks) (balanced_finished
      (c := { c with writeBuffer := b }) hempty owed (settled (hcovers hempty)))
  | waiting b chunks =>
    exact ⟨sound_neutral (neutral_sent chunks), (account_neutral (neutral_sent chunks)).symm ▸ owed⟩
  | failed b chunks =>
    exact balanced_neutral (neutral_sent chunks) ⟨⟨trivial, trivial⟩, owed⟩

theorem balanced_handleWrite {acc : Option Transfer} {c : Connection} (hwf : c.writeBuffer.Wf)
    (owed : Owed acc c.sendFileLen) {sends : Transfers}
    (moving : stalls sends.counts c.writeBuffer.readableBytes = false)
    (settled : covers sends.counts c.writeBuffer.readableBytes = true → c.sendFileFd < 0 →
      Settled acc c) (files : Transfers) :
    Balanced acc (c.handleWrite sends files) := by
  have hend := handleWrite_end hwf sends files
  generalize c.handleWrite sends files = out at hend ⊢
  cases hend with
  | drained b chunks took hempty hcovers =>
    exact balanced_neutral (neutral_sent chunks) (balanced_sendFile (c := c.writing b) hempty owed
      (settled hcovers) files)
  | stalled b chunks took hleft hstalls =>
    exact absurd (moving.symm.trans hstalls) Bool.false_ne_true
  | waiting b chunks =>
    exact ⟨sound_neutral (neutral_sent chunks), (account_neutral (neutral_sent chunks)).symm ▸ owed⟩
  | failed b chunks =>
    exact balanced_neutral (neutral_sent chunks) ⟨⟨trivial, trivial⟩, owed⟩

/-- Processing now would leave a file to sendfile. -/
def TakesFile (env : Env) (c : Connection) : Prop :=
  c.parsed.1 = .complete ∧ LeavesFile env c.resourceDir c.router c.parsed.2.1.request

instance (env : Env) (c : Connection) : Decidable (TakesFile env c) := by
  unfold TakesFile
  infer_instance

/-- An open file with bytes still to be moved. -/
def Outstanding (c : Connection) : Prop := 0 ≤ c.sendFileFd ∧ 0 < c.sendFileLen

instance (c : Connection) : Decidable c.Outstanding := by
  unfold Outstanding
  infer_instance

/-- A reply replaces the account; it may not take the place of an outstanding file. -/
theorem balanced_store {acc : Option Transfer} {c : Connection} {env : Env} {p : Reply}
    (free : c.Outstanding → p.file = none) :
    Balanced acc (c.store env p) := by
  have hopened : ∀ e ∈ p.opened.map Effect.opened, Neutral Effect.advance Effect.permitted e := by
    intro e he acc'
    obtain ⟨path, -, rfl⟩ := List.mem_map.mp he
    exact ⟨rfl, trivial⟩
  cases hfile : p.file with
  | none =>
    simp only [store, hfile]
    refine balanced_neutral hopened ⟨⟨trivial, trivial⟩, ?_⟩
    intro transfer htransfer
    cases htransfer
  | some file =>
    have hidle : ¬c.Outstanding := fun hout => Option.some_ne_none _ (hfile.symm.trans (free hout))
    have hfresh : Owed (some ⟨file.size, 0⟩) file.size := by
      intro transfer htransfer
      obtain rfl := Option.some.inj htransfer
      exact Nat.zero_add _
    simp only [store, hfile, List.append_assoc]
    refine balanced_neutral hopened ?_
    by_cases hopen : 0 ≤ c.sendFileFd
    · rw [if_pos hopen]
      have hnone : c.sendFileLen = 0 := by
        by_contra hleft
        exact hidle ⟨hopen, Nat.pos_of_ne_zero hleft⟩
      exact ⟨⟨trivial, Or.inl hnone, trivial⟩, hfresh⟩
    · rw [if_neg hopen]
      exact ⟨⟨trivial, trivial⟩, hfresh⟩

theorem balanced_processInWorker {acc : Option Transfer} {c : Connection} (hwf : c.readBuffer.Wf)
    (owed : Owed acc c.sendFileLen) {env : Env} (free : c.Outstanding → ¬TakesFile env c) :
    Balanced acc (c.processInWorker env) := by
  have hend := processInWorker_end hwf env
  generalize c.processInWorker env = out at hend ⊢
  cases hend with
  | incomplete ctx rest => exact ⟨⟨trivial, trivial⟩, owed⟩
  | error ctx rest => exact ⟨⟨trivial, trivial, trivial⟩, owed⟩
  | complete ctx rest _ hparsed =>
    have hfree : Outstanding { c with context := ctx, readBuffer := rest } →
        (reply env c.resourceDir c.router ctx.request c.response).file = none := by
      intro hout
      by_contra hsome
      obtain ⟨file, hfile⟩ := Option.ne_none_iff_exists'.mp hsome
      refine free hout ⟨by rw [hparsed], ?_⟩
      rw [hparsed]
      exact reply_file hfile
    have hstored : Balanced acc ({ c with context := ctx, readBuffer := rest }.store env
      (reply env c.resourceDir c.router ctx.request c.response)) := balanced_store hfree
    have hqueued : ∀ e ∈ [Effect.queued .trySend], Neutral Effect.advance Effect.permitted e := by
      intro e he acc'
      obtain rfl := List.mem_singleton.mp he
      exact ⟨rfl, trivial⟩
    constructor
    · exact ⟨trivial, (sound_append acc _ _).mpr ⟨hstored.sound, sound_neutral hqueued⟩⟩
    · refine Eq.mp (congrArg (Owed · _) ?_) hstored.owed
      exact ((account_append acc _ _).trans (account_neutral hqueued)).symm

theorem balanced_handleRead {acc : Option Transfer} {c : Connection} (hwf : c.readBuffer.Wf)
    (owed : Owed acc c.sendFileLen) {env : Env} {arrival : Arrival}
    (free : (c.read arrival).1 = .success → c.state = .connected → c.Outstanding →
      ¬TakesFile env (c.read arrival).2.1) : Balanced acc (c.handleRead env arrival) := by
  have hend := handleRead_end hwf env arrival
  generalize c.handleRead env arrival = out at hend ⊢
  cases hend with
  | closing b packets =>
    exact balanced_neutral (neutral_received packets) ⟨⟨trivial, trivial⟩, owed⟩
  | reading b packets =>
    exact ⟨sound_neutral (neutral_received packets),
      (account_neutral (neutral_received packets)).symm ▸ owed⟩
  | processing b packets hb _ hsuccess hstate hread =>
    have hfree : Outstanding { c with readBuffer := b, state := .processing } →
        ¬TakesFile env { c with readBuffer := b, state := .processing } := by
      intro hout htakes
      refine free hsuccess hstate hout ?_
      rw [hread]
      exact htakes
    exact balanced_neutral (neutral_received packets) (balanced_processInWorker
      (c := { c with readBuffer := b, state := .processing }) hb owed hfree)

theorem balanced_close {acc : Option Transfer} {c : Connection} (owed : Owed acc c.sendFileLen) :
    Balanced acc c.close := by
  by_cases hopen : 0 ≤ c.sendFileFd
  · rw [close, if_pos hopen]
    exact ⟨⟨Or.inr (Or.inr rfl), trivial⟩, owed⟩
  · rw [close, if_neg hopen]
    exact ⟨trivial, owed⟩

end Connection

/-! ## Runs -/

namespace Sys

open Connection

/-- Bytes of the file of the latest response, or of an open file, are still to be moved. -/
def Owes (s : Sys) : Prop :=
  0 < s.conn.sendFileLen ∧ (0 ≤ s.conn.sendFileFd ∨ (transferOf s.log).isSome)

/-- No `send` answers zero with bytes unsent; `TrySend` does not drain the buffer while
file bytes are owed, and `HandleWrite` not when the file is already closed; no request
that leaves a file is processed while another file is outstanding. -/
def Careful (s : Sys) : Act → Prop
  | .readable env arrival =>
    (s.conn.read arrival).1 = .success → s.conn.state = .connected → s.conn.Outstanding →
      ¬TakesFile env (s.conn.read arrival).2.1
  | .writable sends _ =>
    stalls sends.counts s.conn.writeBuffer.readableBytes = false ∧
      (covers sends.counts s.conn.writeBuffer.readableBytes = true → s.conn.sendFileFd < 0 →
        ¬s.Owes)
  | .run env sends =>
    (s.batch.head? = some .processInWorker → s.conn.Outstanding → ¬TakesFile env s.conn) ∧
      (s.batch.head? = some .trySend → s.conn.state ≠ .closed →
        stalls sends.counts s.conn.writeBuffer.readableBytes = false ∧
          (covers sends.counts s.conn.writeBuffer.readableBytes = true → ¬s.Owes))
  | _ => True

instance (s : Sys) : Decidable s.Owes := by
  unfold Owes
  infer_instance

instance (s : Sys) : (a : Act) → Decidable (Careful s a)
  | .readable _ _ => by unfold Careful; infer_instance
  | .writable _ _ => by unfold Careful; infer_instance
  | .run _ _ => by unfold Careful; infer_instance
  | .hangup | .swap | .release => .isTrue trivial

structure Audited (s : Sys) : Prop where
  buffers : BuffersWf s.conn
  sound : Sound Effect.advance Effect.permitted none s.log
  owed : Owed (transferOf s.log) s.conn.sendFileLen

theorem settled_of_not_owes {s : Sys} (h : ¬s.Owes) : Settled (transferOf s.log) s.conn := by
  by_cases hleft : s.conn.sendFileLen = 0
  · exact Or.inl hleft
  · refine Or.inr ⟨?_, ?_⟩
    · by_contra hsome
      exact h ⟨Nat.pos_of_ne_zero hleft, Or.inr (Option.isSome_iff_ne_none.mpr hsome)⟩
    · by_contra hopen
      exact h ⟨Nat.pos_of_ne_zero hleft, Or.inl (Int.not_lt.mp hopen)⟩

theorem audited_after {s : Sys} (h : s.Audited) {batch : List Callback} {alive : Bool}
    {out : Connection × List Effect} (hwf : BuffersWf out.1)
    (hout : Balanced (transferOf s.log) out) : (after { s with batch, alive } out).Audited := by
  refine ⟨hwf, (sound_append none s.log out.2).mpr ⟨h.sound, hout.sound⟩, ?_⟩
  have hlog : transferOf (s.log ++ out.2) = account Effect.advance (transferOf s.log) out.2 :=
    account_append none s.log out.2
  exact hlog ▸ hout.owed

theorem audited_step {s t : Sys} {a : Act} (h : s.Audited) (careful : Careful s a)
    (hstep : s.step a = some t) : t.Audited := by
  have hwf : BuffersWf t.conn := buffersWf_step h.buffers hstep
  cases taken_of_step hstep with
  | readable env arrival =>
    exact audited_after h hwf (balanced_handleRead h.buffers.read h.owed careful)
  | writable sends files =>
    obtain ⟨moving, owing⟩ := careful
    exact audited_after h hwf (balanced_handleWrite h.buffers.write h.owed moving
      (fun hcovers hclosed => settled_of_not_owes (owing hcovers hclosed)) files)
  | hangup => exact audited_after h hwf ⟨⟨trivial, trivial⟩, h.owed⟩
  | swap => exact ⟨hwf, h.sound, h.owed⟩
  | run env sends cb rest hbatch =>
    obtain ⟨processing, sending⟩ := careful
    rw [hbatch] at processing sending
    cases cb with
    | trySend =>
      by_cases hclosed : s.conn.state = .closed
      · simp only [call, if_pos hclosed] at hwf ⊢
        exact audited_after h hwf ⟨trivial, h.owed⟩
      · simp only [call, if_neg hclosed] at hwf ⊢
        obtain ⟨moving, owing⟩ := sending rfl hclosed
        exact audited_after h hwf (balanced_trySend h.buffers.write h.owed moving
          (fun hcovers => settled_of_not_owes (owing hcovers)))
    | processInWorker =>
      exact audited_after h hwf (balanced_processInWorker h.buffers.read h.owed (processing rfl))
    | handleClose => exact audited_after h hwf ⟨⟨trivial, trivial⟩, h.owed⟩
    | removeConnection => exact audited_after h hwf ⟨⟨trivial, trivial⟩, h.owed⟩
  | release => exact audited_after h hwf (balanced_close h.owed)

/-- In a careful run every event of the record is permitted: a response is finished only
with its bytes sent and its file moved, and an open file with bytes left goes only with
the connection. -/
theorem finished_whole {c : Connection} (fresh : Fresh c) {as : List Act} {s : Sys}
    (run : exec (start c) as = some s)
    (careful : GuardedRuns.Guarded step Careful (start c) as) :
    ∀ before e later, s.log = before ++ e :: later → e.permitted (transferOf before) := by
  have hstart : (start c).Audited := by
    refine ⟨⟨fresh.ready.readBuffer, fresh.ready.writeBuffer⟩, trivial, ?_⟩
    intro transfer htransfer
    cases htransfer
  have haudited := GuardedRuns.invariant_of_guarded Audited
    (fun _ _ _ h hok hstep => audited_step h hok hstep) hstart careful run
  intro before e later hlog
  exact sound_at (hlog ▸ haudited.sound)

/-- A file of five bytes whose head does not fit the first `send`, and is then moved. -/
theorem finished_whole_file :
    let env := Env.table
      [⟨lit "/w", lit "/w", none⟩, ⟨lit "/w/a.bin", lit "/w/a.bin", some (lit "hello")⟩]
    let c := enableReadEvent (new 5 (lit "/w") none)
    let as := [arrives env (lit "GET /a.bin HTTP/1.1\r\n\r\n") (by decide), .swap,
      .run env ⟨[10], .again⟩, .writable ⟨[1000], .again⟩ ⟨[2, 3], .again⟩]
    ∃ s, exec (start c) as = some s ∧ transferOf s.log = some ⟨5, 5⟩ ∧
      ∀ before e later, s.log = before ++ e :: later → e.permitted (transferOf before) := by
  intro env c as
  have hmoved : (exec (start c) as).map (fun s => transferOf s.log) = some (some ⟨5, 5⟩) := by
    decide +kernel
  obtain ⟨s, hs, htransfer⟩ := Option.map_eq_some_iff.mp hmoved
  exact ⟨s, hs, htransfer, finished_whole (fresh_new 5 (lit "/w") none) hs (by decide +kernel)⟩

/-- `TrySend` drains the head of the same response at once, finishes it with none of
the five bytes moved, and the reset drops the open file. -/
theorem trySend_drops_file :
    let env := Env.table
      [⟨lit "/w", lit "/w", none⟩, ⟨lit "/w/a.bin", lit "/w/a.bin", some (lit "hello")⟩]
    let c := enableReadEvent (new 5 (lit "/w") none)
    let as := [arrives env (lit "GET /a.bin HTTP/1.1\r\n\r\n") (by decide), .swap, runs env]
    Fresh c ∧ ∃ s before later, exec (start c) as = some s ∧
      s.log = before ++ .finished 0 :: later ∧ transferOf before = some ⟨5, 0⟩ ∧
      ¬(Effect.finished 0).permitted (transferOf before) ∧ .discarded .reset 5 ∈ s.log := by
  intro env c as
  have hlog : (exec (start c) as).map (fun s => (s.log[6]?, transferOf (s.log.take 6),
      decide (.discarded .reset 5 ∈ s.log))) = some (some (.finished 0), some ⟨5, 0⟩, true) := by
    decide +kernel
  obtain ⟨s, hs, hparts⟩ := Option.map_eq_some_iff.mp hlog
  obtain ⟨hfinished, hparts⟩ := Prod.mk.inj hparts
  obtain ⟨htransfer, hdropped⟩ := Prod.mk.inj hparts
  obtain ⟨hlt, hentry⟩ := List.getElem?_eq_some_iff.mp hfinished
  refine ⟨fresh_new 5 (lit "/w") none, s, s.log.take 6, s.log.drop 7, hs, ?_, htransfer, ?_,
    of_decide_eq_true hdropped⟩
  · rw [← hentry, ← List.drop_eq_getElem_cons hlt, List.take_append_drop]
  · rintro ⟨-, hwhole⟩
    exact absurd (hwhole _ htransfer) (by decide)

end Sys

end WebServer
