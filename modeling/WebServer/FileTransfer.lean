import WebServer.ClosedState
import WebServer.TraceAudit

/-!
# The bytes of a file on the socket

`HandleWrite` keeps the length that is left in a member and the offset in a local variable
that starts at zero. A call that goes on with a file sends it from the beginning again, and
the bytes on the socket are those of the file only where the file repeats its beginning.
-/

namespace WebServer

open TraceAudit

namespace Effect

/-- The bytes of the file put on the socket so far. -/
def deliver (file sent : Str) : Effect → Str
  | .transferred offset count => sent ++ (file.drop offset).take count
  | _ => sent

/-- What is put on the socket is a prefix of the file, and a response is complete only with
all of it. -/
def faithful (file sent : Str) : Effect → Prop
  | .transferred offset count => sent ++ (file.drop offset).take count <+: file
  | .finished _ => sent = file
  | _ => True

end Effect

/-- The bytes that are next after `done` are the first of the file, in each of these calls. -/
def Repeats (file : Str) : Nat → List (List Nat) → Prop
  | _, [] => True
  | done, counts :: calls => (file.drop done).take counts.sum <+: file ∧
      Repeats file (min (done + counts.sum) file.length) calls

instance decidableRepeats (file : Str) : ∀ done calls, Decidable (Repeats file done calls)
  | _, [] => .isTrue trivial
  | done, counts :: calls =>
    have := decidableRepeats file (min (done + counts.sum) file.length) calls
    inferInstanceAs (Decidable (_ ∧ _))

namespace Connection

/-- Calls of `HandleWrite`, with the counts of `sendfile` in each of them before it would block. -/
def handleWrites (c : Connection) : List (Transfers × List Nat) → Connection × List Effect
  | [] => (c, [])
  | (sends, counts) :: calls =>
    let (c, fx) := c.handleWrite sends ⟨counts, .again⟩
    let (c, fx') := c.handleWrites calls
    (c, fx ++ fx')

/-- The head is sent, and so are this many bytes of the file. -/
structure Sending (file : Str) (done : Nat) (c : Connection) : Prop where
  head : c.writeBuffer.readableBytes = 0
  left : done + c.sendFileLen = file.length
  open_or_done : c.sendFileFd < 0 → done = file.length

/-- A call sends the first bytes of the file, where the next ones should be. -/
theorem first_is_next_iff {file : Str} {done : Nat} (h : done ≤ file.length) (count : Nat) :
    file.take done ++ file.take (min count (file.length - done)) <+: file ↔
      (file.drop done).take count <+: file := by
  have hlength : ((file.drop done).take count).length = min count (file.length - done) := by
    rw [List.length_take, List.length_drop]
  have hfirst : (file.take (min count (file.length - done))).length =
      min count (file.length - done) := by
    rw [List.length_take]
    omega
  have hsplit : file.take done ++ file.take (min count (file.length - done)) <+:
      file.take done ++ file.drop done ↔
        file.take (min count (file.length - done)) <+: file.drop done :=
    List.prefix_append_right_inj (file.take done)
  rw [List.take_append_drop] at hsplit
  rw [hsplit, List.prefix_iff_eq_take, List.prefix_iff_eq_take, hfirst, hlength, eq_comm,
    List.take_eq_take_min (l := file.drop done) (i := count), List.length_drop]

/-- The loop of `sendfile` puts the bytes from its offset on the socket, one after another. -/
theorem sendfileLoop_bytes (file : Str) (errno : Errno) (counts : List Nat) (offset left : Nat)
    (sent : Str) :
    account (Effect.deliver file) sent (sendfileLoop errno counts offset left).2.2 =
      sent ++ (file.drop offset).take (min counts.sum left) := by
  induction counts generalizing offset left sent with
  | nil =>
    by_cases hnone : left = 0
    · simp [sendfileLoop, hnone, account]
    · simp [sendfileLoop, hnone, account]
  | cons n rest ih =>
    by_cases hnone : left = 0
    · simp [sendfileLoop, hnone, account]
    · have hsum : min (n + rest.sum) left = min n left + min rest.sum (left - min n left) := by
        omega
      rw [sendfileLoop, if_neg hnone, List.sum_cons, hsum, List.take_add, List.drop_drop,
        ← List.append_assoc]
      exact ih (offset + min n left) (left - min n left) _

theorem sendfileLoop_faithful {file sent : Str} (h : sent <+: file) (errno : Errno)
    (counts : List Nat) (offset left : Nat) :
    Sound (Effect.deliver file) (Effect.faithful file) sent
        (sendfileLoop errno counts offset left).2.2 ↔
      sent ++ (file.drop offset).take (min counts.sum left) <+: file := by
  induction counts generalizing offset left sent with
  | nil =>
    by_cases hnone : left = 0
    · simpa [sendfileLoop, hnone, Sound] using h
    · simpa [sendfileLoop, hnone, Sound] using h
  | cons n rest ih =>
    by_cases hnone : left = 0
    · simpa [sendfileLoop, hnone, Sound] using h
    · have hsum : min (n + rest.sum) left = min n left + min rest.sum (left - min n left) := by
        omega
      rw [sendfileLoop, if_neg hnone, List.sum_cons, hsum, List.take_add, List.drop_drop,
        ← List.append_assoc]
      constructor
      · rintro ⟨hfirst, hrest⟩
        exact (ih hfirst (offset + min n left) (left - min n left)).mp hrest
      · intro hall
        have hfirst := (List.prefix_append _ _).trans hall
        exact ⟨hfirst, (ih hfirst (offset + min n left) (left - min n left)).mpr hall⟩

/-- A call that would block leaves the length that it did not move. -/
theorem sendfileLoop_again (counts : List Nat) (offset left : Nat) :
    (sendfileLoop .again counts offset left).1 =
        (if left ≤ counts.sum then .complete else .again) ∧
      (sendfileLoop .again counts offset left).2.1 = left - counts.sum := by
  refine ⟨?_, (sendfileLoop_spec .again counts offset left).left⟩
  induction counts generalizing offset left with
  | nil =>
    by_cases hnone : left = 0
    · simp [sendfileLoop, hnone]
    · simp [sendfileLoop, hnone]
  | cons n rest ih =>
    by_cases hnone : left = 0
    · simp [sendfileLoop, hnone]
    · rw [sendfileLoop, if_neg hnone]
      refine (ih (offset + min n left) (left - min n left)).trans ?_
      have hsame : left - min n left ≤ rest.sum ↔ left ≤ (n :: rest).sum := by
        rw [List.sum_cons]
        omega
      simp only [hsame]

/-- A finished response says so first, and sends nothing more. -/
theorem sending_finished {file : Str} {c : Connection} (h : Sending file file.length c)
    (closed : c.sendFileFd < 0) : Sending file file.length c.onResponseFinished.2.1 ∧
      ∃ unsent fx, c.onResponseFinished.2.2 = .finished unsent :: fx ∧
        ∀ e ∈ fx, Neutral (Effect.deliver file) (Effect.faithful file) e := by
  have hend := onResponseFinished_end c
  generalize c.onResponseFinished.2 = out at hend ⊢
  cases hend with
  | kept =>
    rw [resetForNextRequest_noFile closed]
    refine ⟨⟨rfl, h.left, fun _ => rfl⟩, _, _, rfl, ?_⟩
    intro e he sent
    by_cases hpending : c.hasPendingRequest = true
    · obtain rfl : e = .queued .processInWorker := by simpa [hpending] using he
      exact ⟨rfl, trivial⟩
    · simp [hpending] at he
  | closed => exact ⟨⟨h.head, h.left, fun _ => rfl⟩, _, [], rfl, by simp⟩

/-- The end of a call that has nothing left to send. -/
theorem sending_writeDone {file : Str} {c : Connection} (h : Sending file file.length c)
    (closed : c.sendFileFd < 0) : Sending file file.length c.writeDone.1 ∧ ∀ sent,
      (Sound (Effect.deliver file) (Effect.faithful file) sent c.writeDone.2 ↔ sent = file) ∧
      account (Effect.deliver file) sent c.writeDone.2 = sent := by
  obtain ⟨hsending, unsent, fx, hfx, hquiet⟩ := sending_finished
    (c := disableWriteEvent { c with writeState := .idle }) ⟨h.head, h.left, h.open_or_done⟩ closed
  have hdone : c.writeDone.2 = .finished unsent :: fx := hfx
  refine ⟨hsending, ?_⟩
  intro sent
  rw [hdone]
  constructor
  · exact and_iff_left (sound_neutral hquiet)
  · have haccount : account (Effect.deliver file) sent fx = sent := account_neutral hquiet
    exact haccount

theorem take_next {file : Str} {done : Nat} (h : done ≤ file.length) {count : Nat}
    (first : (file.drop done).take count <+: file) :
    file.take done ++ file.take (min count (file.length - done)) =
      file.take (min (done + count) file.length) := by
  have hprefix := (first_is_next_iff h count).mpr first
  rw [List.prefix_iff_eq_take.mp hprefix, List.length_append, List.length_take, List.length_take]
  have hlength : min done file.length + min (min count (file.length - done)) file.length =
      min (done + count) file.length := by
    omega
  rw [hlength]

/-- What one call does after `done` bytes. -/
structure Carries (file : Str) (done : Nat) (counts : List Nat) (out : Connection × List Effect) :
    Prop where
  sending : Sending file (min (done + counts.sum) file.length) out.1
  faithful_iff : Sound (Effect.deliver file) (Effect.faithful file) (file.take done) out.2 ↔
    (file.drop done).take counts.sum <+: file
  delivered : (file.drop done).take counts.sum <+: file →
    account (Effect.deliver file) (file.take done) out.2 =
      file.take (min (done + counts.sum) file.length)

theorem carries_noFile {file : Str} {c : Connection} (h : Sending file file.length c)
    (closed : c.sendFileFd < 0) (counts : List Nat) :
    Carries file file.length counts (c.sendFile ⟨counts, .again⟩) := by
  obtain ⟨hsending, htail⟩ := sending_writeDone h closed
  obtain ⟨hsound, haccount⟩ := htail file
  have hdone : min (file.length + counts.sum) file.length = file.length := by omega
  rw [sendFile, if_neg (Int.not_le.mpr closed)]
  constructor
  · rwa [hdone]
  · rw [List.take_length, List.drop_length, List.take_nil]
    exact iff_of_true (hsound.mpr rfl) List.nil_prefix
  · intro _
    rw [hdone, List.take_length, haccount]

theorem carries_file {file : Str} {done : Nat} {c : Connection} (h : Sending file done c)
    (opened : 0 ≤ c.sendFileFd) (counts : List Nat) :
    Carries file done counts (c.sendFile ⟨counts, .again⟩) := by
  have hsum := h.left
  have hle : done ≤ file.length := by omega
  have hleft : c.sendFileLen = file.length - done := by omega
  have hagain := sendfileLoop_again counts 0 c.sendFileLen
  have hbytes := sendfileLoop_bytes file .again counts 0 c.sendFileLen (file.take done)
  have hfaithful := sendfileLoop_faithful (List.take_prefix done file) .again counts 0 c.sendFileLen
  rcases hout : sendfileLoop .again counts 0 c.sendFileLen with ⟨result, left, fx⟩
  rw [hout] at hagain hbytes hfaithful
  obtain ⟨hresult, hrest⟩ : result = _ ∧ left = _ := hagain
  rw [List.drop_zero, hleft] at hbytes hfaithful
  rw [first_is_next_iff hle] at hfaithful
  have hdelivered : (file.drop done).take counts.sum <+: file →
      account (Effect.deliver file) (file.take done) fx =
        file.take (min (done + counts.sum) file.length) :=
    fun hfirst => hbytes.trans (take_next hle hfirst)
  by_cases hall : c.sendFileLen ≤ counts.sum
  · -- the rest of the file is through
    rw [if_pos hall] at hresult
    obtain rfl : left = 0 := by omega
    have hdone : min (done + counts.sum) file.length = file.length := by omega
    have hover : Sending file file.length { c with sendFileLen := 0, sendFileFd := -1 } :=
      ⟨h.head, rfl, fun _ => rfl⟩
    obtain ⟨hsending, htail⟩ := sending_writeDone hover (show (-1 : Int) < 0 by omega)
    have hend : c.sendFile ⟨counts, .again⟩ =
        ((writeDone { c with sendFileLen := 0, sendFileFd := -1 }).1, fx ++ .discarded .drained 0 ::
          (writeDone { c with sendFileLen := 0, sendFileFd := -1 }).2) := by
      simp only [sendFile, if_pos opened, hout, hresult]
    obtain ⟨hsound, haccount⟩ := htail (account (Effect.deliver file) (file.take done) fx)
    rw [hend]
    constructor
    · rwa [hdone]
    · rw [sound_append, hfaithful]
      refine and_iff_left_of_imp ?_
      intro hfirst
      refine ⟨trivial, hsound.mpr ?_⟩
      rw [hdelivered hfirst, hdone, List.take_length]
    · intro hfirst
      rw [account_append]
      exact haccount.trans (hdelivered hfirst)
  · rw [if_neg hall] at hresult
    have hend : c.sendFile ⟨counts, .again⟩ =
        ({ enableWriteEvent { c with sendFileLen := left } with writeState := .pending }, fx) := by
      simp only [sendFile, if_pos opened, hout, hresult]
    rw [hend]
    refine ⟨⟨h.head, ?_, ?_⟩, hfaithful, hdelivered⟩
    · show min (done + counts.sum) file.length + left = file.length
      omega
    · intro hclosed
      exact absurd opened (Int.not_le.mpr hclosed)

/-- One call of `HandleWrite`. -/
theorem carries_handleWrite {file : Str} {done : Nat} {c : Connection} (h : Sending file done c)
    (sends : Transfers) (counts : List Nat) :
    Carries file done counts (c.handleWrite sends ⟨counts, .again⟩) := by
  have hwriting : Sending file done (c.writing c.writeBuffer) := ⟨h.head, h.left, h.open_or_done⟩
  rw [handleWrite_empty h.head]
  by_cases hopen : 0 ≤ c.sendFileFd
  · exact carries_file hwriting hopen counts
  · obtain rfl : done = file.length := h.open_or_done (Int.not_le.mp hopen)
    exact carries_noFile hwriting (Int.not_le.mp hopen) counts

theorem handleWrites_faithful {file : Str} (calls : List (Transfers × List Nat)) {done : Nat}
    {c : Connection} (h : Sending file done c) :
    Sound (Effect.deliver file) (Effect.faithful file) (file.take done) (c.handleWrites calls).2 ↔
      Repeats file done (calls.map Prod.snd) := by
  induction calls generalizing done c with
  | nil => exact iff_of_true trivial trivial
  | cons call calls ih =>
    obtain ⟨sends, counts⟩ := call
    obtain ⟨hsending, hfaithful, hdelivered⟩ := carries_handleWrite h sends counts
    rw [handleWrites, sound_append, hfaithful, List.map_cons, Repeats]
    refine and_congr_right ?_
    intro hfirst
    rw [hdelivered hfirst]
    exact ih hsending

/-- The bytes on the socket are those of the file, over any calls of `HandleWrite`, exactly
when each call finds the beginning of the file where it goes on. -/
theorem file_sent_iff (file : Str) (c : Connection) (head : c.writeBuffer.readableBytes = 0)
    (opened : 0 ≤ c.sendFileFd) (length : c.sendFileLen = file.length)
    (calls : List (Transfers × List Nat)) :
    Sound (Effect.deliver file) (Effect.faithful file) [] (c.handleWrites calls).2 ↔
      Repeats file 0 (calls.map Prod.snd) := by
  have hsending : Sending file 0 c :=
    ⟨head, by rw [length, Nat.zero_add], fun hclosed => absurd opened (Int.not_le.mpr hclosed)⟩
  exact handleWrites_faithful calls hsending

/-- A connection whose head is sent and whose file is open. -/
def transferring (length : Nat) : Connection :=
  { new 5 (lit "/w") none with
    state := .writing
    writeState := .pending
    sendFileFd := 7
    sendFileLen := length }

/-- The socket takes nothing at first, and then the file in two pieces. -/
theorem file_sent_once :
    let calls : List (Transfers × List Nat) := [(⟨[], .again⟩, []), (⟨[], .again⟩, [2, 3])]
    .finished 0 ∈ ((transferring 5).handleWrites calls).2 ∧
      Sound (Effect.deliver (lit "abcde")) (Effect.faithful (lit "abcde")) []
        ((transferring 5).handleWrites calls).2 := by
  intro calls
  refine ⟨by decide, ?_⟩
  exact (file_sent_iff (lit "abcde") (transferring 5) rfl (by decide) (by decide) calls).mpr
    (by decide)

/-- The socket takes two bytes, and the next call sends them once more. -/
theorem file_sent_twice :
    let calls : List (Transfers × List Nat) := [(⟨[], .again⟩, [2]), (⟨[], .again⟩, [3])]
    .finished 0 ∈ ((transferring 5).handleWrites calls).2 ∧
      account (Effect.deliver (lit "abcde")) [] ((transferring 5).handleWrites calls).2 =
        lit "ababc" ∧
      ¬Sound (Effect.deliver (lit "abcde")) (Effect.faithful (lit "abcde")) []
        ((transferring 5).handleWrites calls).2 := by
  intro calls
  refine ⟨by decide, by decide, ?_⟩
  intro hsound
  have hsecond : lit "ab" ++ (lit "abcde").take 3 <+: lit "abcde" := hsound.2.1
  exact absurd hsecond (by decide)

end Connection

end WebServer
