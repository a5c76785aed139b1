import WebServer.FileTransfer

/-!
# The calls of `sendfile`

`Write` ends when `send` answers zero; the loop of `HandleWrite` over `sendfile` calls again.
Here the answers are an endless sequence and the loop is allowed a number of calls, so that a
run without end is one for which no number suffices.
-/

namespace WebServer

/-- A count, which is zero at the end of the file, or an error. -/
inductive SendfileAnswer where
  | moved (count : Nat)
  | failed (errno : Errno)
  deriving DecidableEq

/-- What the calls of `send` take, up to the one that answers zero. -/
def Transfers.accepted (t : Transfers) : Nat := (t.counts.takeWhile (0 < ·)).sum

namespace Connection

/-! ## The loop, one answer after the other -/

/-- The loop over `sendfile`, allowed this many calls; none when they do not suffice. -/
def sendfileWithin : Nat → (Nat → SendfileAnswer) → Nat → Nat →
    Option (WriteResult × Nat × List Effect)
  | 0, _, _, left => if left = 0 then some (.complete, left, []) else none
  | calls + 1, answers, offset, left =>
    if left = 0 then some (.complete, left, [])
    else match answers 0 with
      | .failed errno => some (if errno = .again then .again else .error, left, [])
      | .moved n =>
        let count := min n left
        (sendfileWithin calls (fun i => answers (i + 1)) (offset + count) (left - count)).map
          fun (result, left', fx) => (result, left', .transferred offset count :: fx)

/-- `HandleWrite` after the loop. -/
def sendfileDone (c : Connection) : WriteResult × Nat × List Effect → Connection × List Effect
  | (.again, sendFileLen, fx) =>
    ({ enableWriteEvent { c with sendFileLen } with writeState := .pending }, fx)
  | (.error, sendFileLen, fx) =>
    let (c, fx') := handleWriteResult { c with sendFileLen, sendFileFd := -1 } .error
    (c, fx ++ .discarded .failed sendFileLen :: fx')
  | (.complete, sendFileLen, fx) =>
    let (c, fx') := writeDone { c with sendFileLen, sendFileFd := -1 }
    (c, fx ++ .discarded .drained sendFileLen :: fx')

/-- `HandleWrite`, allowed this many calls of `sendfile`. -/
def handleWriteWithin (calls : Nat) (c : Connection) (sends : Transfers)
    (answers : Nat → SendfileAnswer) : Option (Connection × List Effect) :=
  let (result, c, fx) := write { c with writeState := .writing } sends
  if c.writeBuffer.readableBytes = 0 then
    if 0 ≤ c.sendFileFd then
      (sendfileWithin calls answers 0 c.sendFileLen).map fun out =>
        let (c, fx') := c.sendfileDone out
        (c, fx ++ fx')
    else
      let (c, fx') := c.writeDone
      some (c, fx ++ fx')
  else
    let (c, fx') := handleWriteResult (enableWriteEvent { c with writeState := .pending }) result
    some (c, fx ++ fx')

/-- It returns after finitely many calls of `sendfile`. -/
def HandleWriteReturns (c : Connection) (sends : Transfers) (answers : Nat → SendfileAnswer) :
    Prop :=
  ∃ calls out, c.handleWriteWithin calls sends answers = some out

/-- No call fails, all but finitely many answer zero, and the others move less than what is left. -/
def Stalls (answers : Nat → SendfileAnswer) (left : Nat) : Prop :=
  ∃ counts : List Nat, counts.sum < left ∧ ∀ i, answers i = .moved (counts.getD i 0)

/-! ## A run that returns is one of the model -/

/-- The answers that the loop has read before it ended. -/
theorem sendfileWithin_run (calls : Nat) :
    ∀ (answers : Nat → SendfileAnswer) (offset left : Nat) (out : WriteResult × Nat × List Effect),
      sendfileWithin calls answers offset left = some out →
      ∃ files : Transfers, sendfileLoop files.errno files.counts offset left = out := by
  induction calls with
  | zero =>
    intro answers offset left out h
    by_cases done : left = 0
    · refine ⟨⟨[], .again⟩, ?_⟩
      simpa [sendfileWithin, sendfileLoop, done] using h
    · simp [sendfileWithin, done] at h
  | succ calls ih =>
    intro answers offset left out h
    by_cases done : left = 0
    · refine ⟨⟨[], .again⟩, ?_⟩
      simpa [sendfileWithin, sendfileLoop, done] using h
    simp only [sendfileWithin, if_neg done] at h
    cases first : answers 0 with
    | failed errno =>
      refine ⟨⟨[], errno⟩, ?_⟩
      simpa [sendfileLoop, done, first] using h
    | moved n =>
      simp only [first] at h
      obtain ⟨out', hrest, hout⟩ := Option.map_eq_some_iff.mp h
      obtain ⟨files, hfiles⟩ := ih _ _ _ _ hrest
      refine ⟨⟨n :: files.counts, files.errno⟩, ?_⟩
      simp only [sendfileLoop, if_neg done, hfiles]
      exact hout

theorem sendFile_of_open {c : Connection} (opened : 0 ≤ c.sendFileFd) (files : Transfers) :
    c.sendFile files = c.sendfileDone (sendfileLoop files.errno files.counts 0 c.sendFileLen) := by
  rw [sendFile, if_pos opened]
  obtain ⟨result, left, fx⟩ := sendfileLoop files.errno files.counts 0 c.sendFileLen
  cases result <;> rfl

/-- What the bounded handler returns, the handler of the model does on some finite answers. -/
theorem handleWriteWithin_run {calls : Nat} {c : Connection} {sends : Transfers}
    {answers : Nat → SendfileAnswer} {out : Connection × List Effect}
    (h : c.handleWriteWithin calls sends answers = some out) :
    ∃ files, c.handleWrite sends files = out := by
  unfold handleWriteWithin at h
  unfold handleWrite
  generalize write { c with writeState := .writing } sends = written at h ⊢
  obtain ⟨result, w, fx⟩ := written
  dsimp only at h ⊢
  by_cases drained : w.writeBuffer.readableBytes = 0
  · rw [if_pos drained] at h
    simp only [if_pos drained]
    by_cases opened : 0 ≤ w.sendFileFd
    · rw [if_pos opened] at h
      obtain ⟨loop, hloop, hout⟩ := Option.map_eq_some_iff.mp h
      obtain ⟨files, hfiles⟩ := sendfileWithin_run calls _ _ _ _ hloop
      refine ⟨files, ?_⟩
      rw [sendFile_of_open opened, hfiles]
      exact hout
    · rw [if_neg opened] at h
      refine ⟨⟨[], .again⟩, ?_⟩
      rw [sendFile, if_neg opened]
      exact Option.some.inj h
  · rw [if_neg drained] at h
    simp only [if_neg drained]
    exact ⟨⟨[], .again⟩, Option.some.inj h⟩

/-! ## When the loop ends -/

theorem stalls_moved {answers : Nat → SendfileAnswer} {n : Nat} (first : answers 0 = .moved n)
    (left : Nat) :
    Stalls answers left ↔ Stalls (fun i => answers (i + 1)) (left - n) := by
  constructor
  · rintro ⟨counts, hless, hall⟩
    have hzero : counts.getD 0 0 = n := SendfileAnswer.moved.inj ((hall 0).symm.trans first)
    refine ⟨counts.tail, ?_, ?_⟩
    · cases counts with
      | nil =>
        simp only [List.getD_nil] at hzero
        simp only [List.sum_nil, List.tail_nil] at hless ⊢
        omega
      | cons m rest =>
        simp only [List.getD_cons_zero] at hzero
        simp only [List.sum_cons, List.tail_cons] at hless ⊢
        omega
    · intro i
      have hnext := hall (i + 1)
      cases counts with
      | nil => simpa using hnext
      | cons m rest => simpa using hnext
  · rintro ⟨counts, hless, hall⟩
    refine ⟨n :: counts, ?_, ?_⟩
    · rw [List.sum_cons]
      omega
    · intro i
      cases i with
      | zero => simpa using first
      | succ i => simpa using hall i

theorem not_stalls_failed {answers : Nat → SendfileAnswer} {errno : Errno}
    (first : answers 0 = .failed errno) (left : Nat) : ¬Stalls answers left := by
  rintro ⟨counts, _, hall⟩
  rw [hall 0] at first
  cases first

/-- One answer, and what it leaves to the calls that follow. -/
theorem sendfileWithin_moved {answers : Nat → SendfileAnswer} {n : Nat}
    (first : answers 0 = .moved n) (calls offset : Nat) {left : Nat} (more : left ≠ 0) :
    (sendfileWithin (calls + 1) answers offset left).isSome =
      (sendfileWithin calls (fun i => answers (i + 1)) (offset + min n left)
        (left - n)).isSome := by
  have hleft : left - min n left = left - n := by omega
  simp [sendfileWithin, more, first, hleft]

theorem stalls_exhausts (calls : Nat) :
    ∀ (answers : Nat → SendfileAnswer) (offset left : Nat), Stalls answers left →
      (sendfileWithin calls answers offset left).isSome = false := by
  induction calls with
  | zero =>
    rintro answers offset left ⟨counts, hless, _⟩
    have more : left ≠ 0 := by omega
    simp [sendfileWithin, more]
  | succ calls ih =>
    intro answers offset left hstall
    have more : left ≠ 0 := by
      obtain ⟨counts, hless, _⟩ := hstall
      omega
    cases first : answers 0 with
    | failed errno => exact absurd hstall (not_stalls_failed first left)
    | moved n =>
      rw [sendfileWithin_moved first calls offset more]
      exact ih _ _ _ ((stalls_moved first left).mp hstall)

theorem ends_moved {answers : Nat → SendfileAnswer} {n : Nat} (first : answers 0 = .moved n)
    {offset left : Nat} (more : left ≠ 0)
    (h : ∃ calls, (sendfileWithin calls (fun i => answers (i + 1)) (offset + min n left)
      (left - n)).isSome) :
    ∃ calls, (sendfileWithin calls answers offset left).isSome := by
  obtain ⟨calls, hcalls⟩ := h
  refine ⟨calls + 1, ?_⟩
  rwa [sendfileWithin_moved first calls offset more]

/-- A call that does not answer zero ends the loop or leaves less; the induction is on what is
left and, within, on the number of zeros before such a call. -/
theorem ends_of_not_stalls (left : Nat) :
    ∀ (answers : Nat → SendfileAnswer) (offset : Nat), ¬Stalls answers left →
      ∃ calls, (sendfileWithin calls answers offset left).isSome := by
  induction left using Nat.strongRecOn with
  | ind left ih =>
    intro answers offset hends
    by_cases done : left = 0
    · exact ⟨0, by simp [sendfileWithin, done]⟩
    have hsome : ∃ i, answers i ≠ .moved 0 := by
      by_contra hnone
      refine hends ⟨[], ?_, ?_⟩
      · rw [List.sum_nil]
        omega
      · simpa using hnone
    obtain ⟨i, hi⟩ := hsome
    induction i generalizing answers offset with
    | zero =>
      cases first : answers 0 with
      | failed errno => exact ⟨1, by simp [sendfileWithin, done, first]⟩
      | moved n =>
        have hpos : n ≠ 0 := by
          rintro rfl
          exact hi first
        apply ends_moved first done
        apply ih (left - n) (by omega)
        rwa [← stalls_moved first]
    | succ i ihi =>
      cases first : answers 0 with
      | failed errno => exact ⟨1, by simp [sendfileWithin, done, first]⟩
      | moved n =>
        have hrest : ¬Stalls (fun i => answers (i + 1)) (left - n) := by
          rwa [← stalls_moved first]
        apply ends_moved first done
        by_cases zero : n = 0
        · subst zero
          exact ihi _ _ hrest hi
        · exact ih (left - n) (by omega) _ _ hrest

theorem sendfile_ends_iff (answers : Nat → SendfileAnswer) (offset left : Nat) :
    (∃ calls, (sendfileWithin calls answers offset left).isSome) ↔ ¬Stalls answers left := by
  constructor
  · rintro ⟨calls, hcalls⟩ hstall
    rw [stalls_exhausts calls answers offset left hstall] at hcalls
    cases hcalls
  · exact ends_of_not_stalls left answers offset

/-! ## When the buffer is empty after `Write` -/

theorem writeLoop_drains_iff (errno : Errno) (counts : List Nat) :
    ∀ b : Buffer, (writeLoop errno counts b).2.1.readableBytes = 0 ↔
      b.readableBytes ≤ (Transfers.accepted ⟨counts, errno⟩) := by
  induction counts with
  | nil =>
    intro b
    by_cases done : b.readableBytes = 0
    · simp [writeLoop, done]
    · simp [writeLoop, done, Transfers.accepted]
  | cons n rest ih =>
    intro b
    by_cases done : b.readableBytes = 0
    · simp [writeLoop, done]
    by_cases zero : n = 0
    · simp [writeLoop, done, zero, Transfers.accepted]
    have hrest := ih (b.consume (min n b.readableBytes))
    rw [Buffer.consume_readableBytes] at hrest
    have hpos : 0 < n := by omega
    simp only [writeLoop, if_neg done, if_neg zero, Buffer.retrieve]
    simp only [Transfers.accepted, List.takeWhile_cons, hpos, decide_true, if_true,
      List.sum_cons] at hrest ⊢
    rw [hrest]
    omega

/-- `HandleWrite` returns when it does not come to the loop, or the loop ends. -/
theorem handleWrite_returns_iff_ends (c : Connection) (sends : Transfers)
    (answers : Nat → SendfileAnswer) :
    c.HandleWriteReturns sends answers ↔
      (c.writeBuffer.readableBytes ≤ sends.accepted → 0 ≤ c.sendFileFd →
        ∃ calls, (sendfileWithin calls answers 0 c.sendFileLen).isSome) := by
  have hdrains := writeLoop_drains_iff sends.errno sends.counts c.writeBuffer
  unfold HandleWriteReturns handleWriteWithin write
  generalize writeLoop sends.errno sends.counts c.writeBuffer = written at hdrains ⊢
  obtain ⟨result, b, fx⟩ := written
  dsimp only at hdrains ⊢
  by_cases drained : b.readableBytes = 0
  · have haccepted : c.writeBuffer.readableBytes ≤ sends.accepted := hdrains.mp drained
    by_cases opened : 0 ≤ c.sendFileFd
    · simp only [if_pos drained, if_pos opened]
      rw [forall_prop_of_true haccepted, forall_prop_of_true opened]
      apply exists_congr
      intro calls
      rw [← Option.isSome_iff_exists, Option.isSome_map]
    · simp [drained, opened]
  · have haccepted : ¬c.writeBuffer.readableBytes ≤ sends.accepted := mt hdrains.mpr drained
    simp [drained, haccepted]

/-- `HandleWrite` returns, unless `Write` empties the buffer, a file is open, and the calls of
`sendfile` come to answer zero for ever with some of the file left. -/
theorem handleWrite_returns_iff (c : Connection) (sends : Transfers)
    (answers : Nat → SendfileAnswer) :
    c.HandleWriteReturns sends answers ↔
      ¬(c.writeBuffer.readableBytes ≤ sends.accepted ∧ 0 ≤ c.sendFileFd ∧
        Stalls answers c.sendFileLen) := by
  have hends := sendfile_ends_iff answers 0 c.sendFileLen
  rw [handleWrite_returns_iff_ends, hends]
  constructor
  · rintro h ⟨accepted, opened, stalls⟩
    exact h accepted opened stalls
  · intro h accepted opened stalls
    exact h ⟨accepted, opened, stalls⟩

/-- The file is shorter than when its length was taken: two bytes of five, and then its end. -/
theorem truncated_file_stalls :
    ¬(transferring 5).HandleWriteReturns ⟨[], .again⟩
      (fun call => if call = 0 then .moved 2 else .moved 0) := by
  rw [handleWrite_returns_iff_ends]
  intro hends
  obtain ⟨calls, hcalls⟩ := hends (by decide) (by decide)
  have hstalls : Stalls (fun call => if call = 0 then .moved 2 else .moved 0) 5 := by
    refine ⟨[2], by decide, ?_⟩
    intro i
    cases i <;> simp
  have hnone := stalls_exhausts calls _ 0 5 hstalls
  have hlength : (transferring 5).sendFileLen = 5 := rfl
  rw [hlength, hnone] at hcalls
  cases hcalls

end Connection

end WebServer
