import WebServer.LogLine
import WebServer.LogRotation
import WebServer.ProjectedRuns

/-!
# From a message to the log files

A message is formatted, waits in a buffer, is written by the writer or by the end of `Stop`, and
moves with its file when the files are rotated. After a stop a new logger goes on with the files
that it finds. What comes while there is no logger goes to the console only. `Append` does not
ask whether the logger runs, so messages are stored for as long as there is a logger, and what
comes after `Stop` has written the buffers is deleted with them. A message whose line does not fit
the array has no step.

The files and the buffers together hold whole lines in the order of their messages, and behind
what the rotations removed nothing is missing as long as no `Append` fills a buffer while the
writer is past it or comes between the last writing of `Stop` and the deletion.
-/

namespace WebServer

/-! ## The program's log -/

/-- The comparison of two levels is that of these numbers. -/
def LogLevel.value : LogLevel → Int
  | .normal => 0
  | .debug => 1
  | .error => 2
  | .outside value => value

namespace LogFiles

/-- `logFile_.flush()` -/
def flush (c : LogConfig) (s : LogFiles) : LogFiles := { s with dir := s.close c, logFile := [] }

/-- The lines at the end of `Stop` are not counted and rotate nothing. -/
def finish (c : LogConfig) (s : LogFiles) (lines : List Str) : LogFiles :=
  flush c { s with logFile := s.logFile ++ lines.flatten }

end LogFiles

/-- A line as it stands in a file. -/
def fileLine (entry : LogLevel × Str) : Str := entry.2 ++ [lf]

/-- `Stop` has written what the buffers held. -/
def WriterPhase.ended {α : Type*} : WriterPhase α → Bool
  | .stopped => true
  | .check | .waiting | .handed | .writing _ | .recycled | .exited => false

/-- `logger` is what `s_instance` points to; without it `files` stands for the directory alone. -/
structure LogSystem where
  minLevel : LogLevel := .normal
  logger : Option (AsyncLogger (LogLevel × Str)) := none
  files : LogFiles

namespace LogSystem

/-- `passed` is what the stream hands on when a line is written. -/
inductive Act where
  | setMinLevel (level : LogLevel)
  | init
  | print (line : LineArray) (now : LocalTime) (level : LogLevel) (msg : Str)
  | work (a : LoggerAct (LogLevel × Str)) (passed : Nat)
  | delete

/-- The stream is flushed behind the last line and before the locked section that recycles. -/
def filesAfter (c : LogConfig) (files : LogFiles) (l : AsyncLogger (LogLevel × Str))
    (passed : Nat) : LoggerAct (LogLevel × Str) → LogFiles
  | .write =>
    match l.phase with
    | .writing (entry :: _) => (writeLine c files ⟨entry.2, passed⟩).1
    | _ => files
  | .recycle => files.flush c
  | .flush => files.finish c ((l.flushBuffers.flatten ++ l.currentBuffer).map fileLine)
  | .append _ | .check | .handOver | .traverse | .clear | .stop => files

def step (c : LogConfig) (s : LogSystem) : Act → Option LogSystem
  | .setMinLevel level => some { s with minLevel := level }
  | .init =>
    match s.logger with
    | some _ => some s
    | none => some { s with logger := some {}, files := openLogFile c s.files.dir }
  | .print line now level msg =>
    if level.value < s.minLevel.value then some s
    else match s.logger with
      | none => some s
      | some l => (l.appendMessage line now level msg).map fun l => { s with logger := some l }
  | .work a passed =>
    match a, s.logger with
    | .append _, _ => none
    | _, none => none
    | a, some l => (l.step a).map fun next =>
      { s with logger := some next, files := filesAfter c s.files l passed a }
  | .delete =>
    match s.logger with
    | some l => if l.phase.ended then some { s with logger := none } else none
    | none => none

/-- No logger runs and there are no files of an earlier one. -/
def start (dir : Directory) : LogSystem where
  files := { dir, logFile := [], currentFileSize := 0 }

/-- The line that a step stores for the files. -/
def stored (s : LogSystem) : Act → List Str
  | .print line now level msg =>
    if level.value < s.minLevel.value then []
    else s.logger.elim [] fun _ =>
      ((storedLine line now level msg).map fun text => fileLine (level, text)).toList
  | .setMinLevel _ | .init | .work _ _ | .delete => []

/-- A message does not come when `Stop` has written the buffers, nor does it fill a buffer while
the writer is past it. -/
def Spared (s : LogSystem) : Act → Prop
  | .print _ _ level _ => s.minLevel.value ≤ level.value → ∀ l ∈ s.logger,
    l.phase.ended = false ∧
      (l.phase.clearing = true → l.currentBuffer.length + 1 < AsyncLogger.kBufferThreshold)
  | .setMinLevel _ | .init | .work _ _ | .delete => True

instance decidableSpared (s : LogSystem) : ∀ a, Decidable (Spared s a)
  | .print _ _ level _ => inferInstanceAs
      (Decidable (s.minLevel.value ≤ level.value → ∀ l ∈ s.logger,
        l.phase.ended = false ∧
          (l.phase.clearing = true → l.currentBuffer.length + 1 < AsyncLogger.kBufferThreshold)))
  | .setMinLevel _ | .init | .work _ _ | .delete => .isTrue trivial

/-- The logger, for as long as something of it will still be written. -/
def serving (s : LogSystem) : Option (AsyncLogger (LogLevel × Str)) :=
  s.logger.filter fun l => !l.phase.ended

/-- The lines that are still to be written. -/
def unwritten (s : LogSystem) : List Str := s.serving.elim [] fun l => l.left.map fileLine

/-- The files as they are, or as the next logger will find them. -/
def opened (c : LogConfig) (s : LogSystem) : LogFiles :=
  s.serving.elim (openLogFile c s.files.dir) fun _ => s.files

end LogSystem

/-! ## What the buffers hold -/

namespace AsyncLogger

variable {α : Type*} {s t : AsyncLogger α}

/-- A full buffer that the writer has passed is lost with all its entries. -/
theorem left_append (spare : s.nextBuffer = []) (entry : α) :
    (s.append entry).left = if Spared s (.append entry) then s.left ++ [entry] else s.ahead := by
  by_cases hroom : s.currentBuffer.length + 1 < kBufferThreshold
  · have hspared : Spared s (.append entry) := fun _ => hroom
    rw [if_pos hspared, left_room hroom]
  · rw [left_full (Nat.not_lt.mp hroom), spare, List.append_nil, List.append_nil]
    by_cases hclearing : s.phase.clearing = true
    · have hlost : ¬Spared s (.append entry) := fun h => hroom (h hclearing)
      rw [if_pos hclearing, if_neg hlost]
    · have hspared : Spared s (.append entry) := fun h => absurd h hclearing
      rw [if_neg hclearing, if_pos hspared, left]

theorem spare_append (spare : s.nextBuffer = []) (entry : α) :
    (s.append entry).nextBuffer = [] := by
  by_cases hroom : s.currentBuffer.length + 1 < kBufferThreshold
  · rw [append_room hroom]
    exact spare
  · rw [append_full (Nat.not_lt.mp hroom)]

theorem append_sublist (spare : s.nextBuffer = []) (entry : α) :
    (s.append entry).left.Sublist (s.left ++ [entry]) ∧
      ((s.append entry).left = s.left ++ [entry] ↔ Spared s (.append entry)) := by
  rw [left_append spare entry]
  by_cases hspared : Spared s (.append entry)
  · rw [if_pos hspared]
    exact ⟨List.Sublist.refl _, iff_of_true rfl hspared⟩
  · rw [if_neg hspared, left, List.append_assoc]
    refine ⟨List.sublist_append_left _ _, iff_of_false ?_ hspared⟩
    intro hsame
    have hlength := congrArg List.length hsame
    simp only [List.length_append, List.length_singleton] at hlength
    omega

theorem handOver_writes (s : AsyncLogger α) :
    s.handOver.written = s.written ∧ s.handOver.phase.ended = false := by
  unfold handOver
  split
  · exact ⟨rfl, rfl⟩
  · split
    · exact ⟨rfl, rfl⟩
    · exact ⟨rfl, rfl⟩

theorem recycle_writes (s : AsyncLogger α) :
    s.recycle.written = s.written ∧ s.recycle.phase.ended = false := by
  unfold recycle
  split
  · exact ⟨rfl, rfl⟩
  · exact ⟨rfl, rfl⟩

/-- What a step that appends nothing leaves alone. -/
theorem works_of_step {a : LoggerAct α} (other : ∀ e, a ≠ .append e) (hstep : s.step a = some t) :
    Works s t := by
  rcases step_cases hstep with ⟨entry, rfl, -⟩ | ⟨-, hworks⟩
  · exact absurd rfl (other entry)
  · exact hworks

end AsyncLogger

/-! ## What the files hold -/

/-- The files hold these lines behind those that the rotations removed. -/
def Filed (c : LogConfig) (dir : Directory) (files : LogFiles) (lines : List Str) : Prop :=
  ∃ log old groups last, Mirrors c dir files log ∧
    SegmentedLog.Retains c.maxFileSize (c.maxFiles - 1).toNat log old groups last ∧
    old ++ groups.flatten ++ last = lines

section
variable {c : LogConfig} {dir : Directory} {files : LogFiles} {lines : List Str}

theorem filed_fresh (c : LogConfig) (fresh : ∀ suffix, dir (c.current ++ suffix) = none) :
    Filed c dir (openLogFile c dir) [] :=
  ⟨{}, [], [], [], mirrors_openLogFile c fresh, SegmentedLog.retains_empty, rfl⟩

theorem filed_writeLine (bound : 2 ≤ c.maxFiles) (h : Filed c dir files lines) (line : LoggedLine) :
    Filed c dir (writeLine c files line).1 (lines ++ [line.bytes]) := by
  obtain ⟨log, old, groups, last, hmirrors, hretains, rfl⟩ := h
  obtain ⟨hnext, -⟩ := writeLine_simulates bound files log line hmirrors
  obtain ⟨old', groups', last', hlines, hkept⟩ :=
    SegmentedLog.retains_write hretains line.bytes
  exact ⟨_, old', groups', last', hnext, hkept, hlines⟩

/-- Handing on what the stream holds back moves it into the file. -/
theorem mirrors_flush {log : SegmentedLog Byte} (h : Mirrors c dir files log) :
    Mirrors c dir (files.flush c) log := by
  have hother : ∀ name, name ≠ c.current → (files.flush c).dir name = files.dir name :=
    fun name hname => Directory.append_other _ hname
  refine ⟨⟨log.current, close_current h, List.append_nil _⟩, h.size, h.few, ?_, ?_⟩
  · intro i
    rw [hother _ (c.backup_ne_current _), h.backups]
  · intro name hname hbackup
    rw [hother name hname, h.others name hname hbackup]

theorem filed_flush (h : Filed c dir files lines) : Filed c dir (files.flush c) lines := by
  obtain ⟨log, old, groups, last, hmirrors, hkept⟩ := h
  exact ⟨log, old, groups, last, mirrors_flush hmirrors, hkept⟩

/-- A file that is opened again goes on where it ended. -/
theorem mirrors_reopen {log : SegmentedLog Byte} (files : LogFiles)
    (ended : files.dir c.current = some log.current)
    (few : log.kept.length ≤ (c.maxFiles - 1).toNat)
    (backups : ∀ i, files.dir (c.backup (i + 1 : Nat)) = log.kept[i]?)
    (others : ∀ name, name ≠ c.current → (∀ i : Nat, 1 ≤ i → name ≠ c.backup i) →
      files.dir name = dir name) : Mirrors c dir (openLogFile c files.dir) log := by
  have hcreated : files.dir.create c.current c.current = some log.current := by
    rw [Directory.create, Directory.append_same, ended, Option.getD_some, List.append_nil]
  have hother : ∀ name, name ≠ c.current → (openLogFile c files.dir).dir name = files.dir name :=
    fun name hname => Directory.append_other _ hname
  refine ⟨⟨log.current, hcreated, List.append_nil _⟩, ?_, few, ?_, ?_⟩
  · rw [openLogFile, hcreated, Option.getD_some]
  · intro i
    rw [hother _ (c.backup_ne_current _), backups]
  · intro name hname hbackup
    rw [hother name hname, others name hname hbackup]

/-- What `Stop` writes comes behind the lines of the open file. -/
theorem filed_finish (h : Filed c dir files lines) (more : List Str) :
    Filed c dir (openLogFile c (files.finish c more).dir) (lines ++ more) := by
  obtain ⟨log, old, groups, last, hmirrors, hretains, rfl⟩ := h
  have hother : ∀ name, name ≠ c.current → (files.finish c more).dir name = files.dir name :=
    fun name hname => Directory.append_other _ hname
  have hended : (files.finish c more).dir c.current = some (log.current ++ more.flatten) := by
    obtain ⟨content, hcontent, hcurrent⟩ := hmirrors.active
    have happended : (files.finish c more).dir c.current =
        some ((files.dir c.current).getD [] ++ (files.logFile ++ more.flatten)) :=
      Directory.append_same _
    rw [happended, hcontent, Option.getD_some, ← List.append_assoc, hcurrent]
  refine ⟨_, old, groups, last ++ more, ?_, SegmentedLog.retains_append hretains more, ?_⟩
  · refine mirrors_reopen _ hended hmirrors.few ?_ ?_
    · intro i
      rw [hother _ (c.backup_ne_current _), hmirrors.backups]
    · intro name hname hbackup
      rw [hother name hname, hmirrors.others name hname hbackup]
  · rw [List.append_assoc _ last more]

end

/-! ## Steps and runs -/

namespace LogSystem

variable {c : LogConfig} {dir : Directory} {s t : LogSystem}

theorem serving_of_phase {l : AsyncLogger (LogLevel × Str)} (hl : s.logger = some l)
    (phase : l.phase.ended = false) : s.serving = some l := by
  rw [serving, hl, Option.filter_some, phase]
  rfl

theorem serving_of_ended {l : AsyncLogger (LogLevel × Str)} (hl : s.logger = some l)
    (phase : l.phase.ended = true) : s.serving = none := by
  rw [serving, hl, Option.filter_some, phase]
  rfl

theorem serving_of_none (hl : s.logger = none) : s.serving = none := by
  rw [serving, hl]
  rfl

/-- The lines of the files and the buffers. -/
structure Account (c : LogConfig) (dir : Directory) (s : LogSystem) (lines : List Str) : Prop where
  filed : ∃ written, Filed c dir (s.opened c) written ∧ lines = written ++ s.unwritten
  spare : ∀ l ∈ s.logger, l.nextBuffer = []
  closed : s.serving = none → s.files.logFile = []

theorem account_start (c : LogConfig) (fresh : ∀ suffix, dir (c.current ++ suffix) = none) :
    Account c dir (start dir) [] where
  filed := ⟨[], filed_fresh c fresh, rfl⟩
  spare := by
    intro l hl
    cases hl
  closed _ := rfl

section
variable {l next : AsyncLogger (LogLevel × Str)} {files : LogFiles} {written lines : List Str}

/-- The account while the logger serves. -/
theorem account_serving (phase : l.phase.ended = false) (filed : Filed c dir files written)
    (spare : l.nextBuffer = []) :
    Account c dir { s with logger := some l, files } (written ++ l.left.map fileLine) := by
  have hserving : serving { s with logger := some l, files } = some l :=
    serving_of_phase rfl phase
  refine ⟨⟨written, ?_, ?_⟩, ?_, ?_⟩
  · rw [opened, hserving]
    exact filed
  · rw [unwritten, hserving]
    rfl
  · rintro _ ⟨⟩
    exact spare
  · intro hnone
    cases hserving.symm.trans hnone

theorem account_ended (phase : l.phase.ended = true)
    (filed : Filed c dir (openLogFile c files.dir) lines) (spare : l.nextBuffer = [])
    (closed : files.logFile = []) : Account c dir { s with logger := some l, files } lines := by
  have hserving : serving { s with logger := some l, files } = none := serving_of_ended rfl phase
  refine ⟨⟨lines, ?_, ?_⟩, ?_, fun _ => closed⟩
  · rw [opened, hserving]
    exact filed
  · rw [unwritten, hserving]
    exact (List.append_nil _).symm
  · rintro _ ⟨⟩
    exact spare

theorem filed_of_serving (h : Account c dir s lines) (hl : s.logger = some l)
    (phase : l.phase.ended = false) :
    ∃ written, Filed c dir s.files written ∧ lines = written ++ l.left.map fileLine := by
  obtain ⟨written, hfiled, rfl⟩ := h.filed
  have hserving := serving_of_phase hl phase
  rw [opened, hserving] at hfiled
  refine ⟨written, hfiled, ?_⟩
  rw [unwritten, hserving]
  rfl

theorem filed_of_ended (h : Account c dir s lines) (hserving : s.serving = none) :
    Filed c dir (openLogFile c s.files.dir) lines := by
  obtain ⟨written, hfiled, rfl⟩ := h.filed
  rw [opened, hserving] at hfiled
  rw [unwritten, hserving]
  simpa using hfiled

/-- What a step of the writer or of `Stop` takes from the buffers it writes to the files. -/
theorem account_work (bound : 2 ≤ c.maxFiles) (h : Account c dir s lines) (hl : s.logger = some l)
    {a : LoggerAct (LogLevel × Str)} (other : ∀ e, a ≠ .append e) (hstep : l.step a = some next)
    (passed : Nat) : Account c dir
      { s with logger := some next, files := filesAfter c s.files l passed a } lines := by
  have hworks := AsyncLogger.works_of_step other hstep
  obtain ⟨haccount, hspare⟩ := AsyncLogger.moves_works hworks
  have hempty : next.nextBuffer = [] := hspare.trans (h.spare l hl)
  -- the files hold what they held and so do the buffers
  have hidle : next.written = l.written → l.phase.ended = false → next.phase.ended = false →
      ∀ files, (∀ written, Filed c dir s.files written → Filed c dir files written) →
        Account c dir { s with logger := some next, files } lines := by
    intro hwritten hphase hnext files hfiles
    obtain ⟨written, hfiled, rfl⟩ := filed_of_serving h hl hphase
    have hleft : next.left = l.left := by
      rw [hwritten] at haccount
      exact List.append_cancel_left haccount
    rw [← hleft]
    exact account_serving hnext (hfiles written hfiled) hempty
  cases a with
  | append entry => exact absurd rfl (other entry)
  | check =>
    simp only [AsyncLogger.step] at hstep
    split at hstep
    · next hphase =>
      obtain rfl := Option.some.inj hstep
      refine hidle rfl (by rw [hphase]; rfl) ?_ _ fun _ => id
      show WriterPhase.ended (if l.running then .waiting else .exited) = false
      split
      · rfl
      · rfl
    · cases hstep
  | handOver =>
    simp only [AsyncLogger.step] at hstep
    split at hstep
    · next hphase =>
      obtain rfl := Option.some.inj hstep
      obtain ⟨hwritten, hnext⟩ := AsyncLogger.handOver_writes l
      exact hidle hwritten (by rw [hphase]; rfl) hnext _ fun _ => id
    · cases hstep
  | traverse =>
    simp only [AsyncLogger.step] at hstep
    split at hstep
    · next hphase =>
      obtain rfl := Option.some.inj hstep
      exact hidle rfl (by rw [hphase]; rfl) rfl _ fun _ => id
    · cases hstep
  | write =>
    simp only [AsyncLogger.step] at hstep
    split at hstep
    · next entry rest hphase =>
      obtain rfl := Option.some.inj hstep
      obtain ⟨written, hfiled, rfl⟩ := filed_of_serving h hl (by rw [hphase]; rfl)
      have hfiles : filesAfter c s.files l passed .write =
          (writeLine c s.files ⟨entry.2, passed⟩).1 := by
        rw [filesAfter, hphase]
      have hmoved : written ++ l.left.map fileLine = (written ++ [fileLine entry]) ++
          (AsyncLogger.left { l with
            phase := .writing rest, written := l.written ++ [entry] }).map fileLine := by
        rw [List.append_assoc]
        refine congrArg (written ++ ·) ?_
        simp [AsyncLogger.left, AsyncLogger.ahead, hphase]
      rw [hmoved, hfiles]
      exact account_serving rfl (filed_writeLine bound hfiled ⟨entry.2, passed⟩) hempty
    · cases hstep
  | recycle =>
    simp only [AsyncLogger.step] at hstep
    split at hstep
    · next hphase =>
      obtain rfl := Option.some.inj hstep
      obtain ⟨hwritten, hnext⟩ := AsyncLogger.recycle_writes l
      exact hidle hwritten (by rw [hphase]; rfl) hnext _ fun _ => filed_flush
    · cases hstep
  | clear =>
    simp only [AsyncLogger.step] at hstep
    split at hstep
    · next hphase =>
      obtain rfl := Option.some.inj hstep
      exact hidle rfl (by rw [hphase]; rfl) rfl _ fun _ => id
    · cases hstep
  | stop =>
    simp only [AsyncLogger.step] at hstep
    split at hstep
    · obtain rfl := Option.some.inj hstep
      cases hphase : l.phase.ended with
      | false => exact hidle rfl hphase hphase _ fun _ => id
      | true =>
        have hserving := serving_of_ended hl hphase
        exact account_ended hphase (filed_of_ended h hserving) hempty (h.closed hserving)
    · cases hstep
  | flush =>
    simp only [AsyncLogger.step] at hstep
    split at hstep
    · next hphase =>
      obtain rfl := Option.some.inj hstep
      obtain ⟨written, hfiled, rfl⟩ := filed_of_serving h hl (by rw [hphase]; rfl)
      have hleft : l.left = l.flushBuffers.flatten ++ l.currentBuffer := by
        rw [AsyncLogger.left, AsyncLogger.ahead, hphase]
      rw [hleft]
      exact account_ended rfl (filed_finish hfiled _) hempty rfl
    · cases hstep

/-- A message is stored behind the lines in the buffers, or it comes too late. -/
theorem account_append (h : Account c dir s lines) (hl : s.logger = some l)
    (entry : LogLevel × Str) :
    ∃ lines', Account c dir { s with logger := some (l.append entry) } lines' ∧
      lines'.Sublist (lines ++ [fileLine entry]) ∧ (lines' = lines ++ [fileLine entry] ↔
        l.phase.ended = false ∧ AsyncLogger.Spared l (.append entry)) := by
  have hspare := h.spare l hl
  have hphase := AsyncLogger.append_phase l entry
  cases hended : l.phase.ended with
  | true =>
    have hserving := serving_of_ended hl hended
    refine ⟨lines, ?_, List.sublist_append_left _ _, iff_of_false ?_ ?_⟩
    · exact account_ended (hphase ▸ hended) (filed_of_ended h hserving)
        (AsyncLogger.spare_append hspare entry) (h.closed hserving)
    · exact fun hsame => List.cons_ne_nil _ _ (List.self_eq_append_right.mp hsame)
    · rintro ⟨⟨⟩, -⟩
  | false =>
    obtain ⟨written, hfiled, rfl⟩ := filed_of_serving h hl hended
    obtain ⟨hsub, hall⟩ := AsyncLogger.append_sublist hspare entry
    have hnew : written ++ l.left.map fileLine ++ [fileLine entry] =
        written ++ (l.left ++ [entry]).map fileLine := by
      rw [List.map_append, List.append_assoc]
      rfl
    refine ⟨written ++ (l.append entry).left.map fileLine, ?_, ?_, ?_⟩
    · exact account_serving (hphase ▸ hended) hfiled (AsyncLogger.spare_append hspare entry)
    · rw [hnew]
      exact (hsub.map fileLine).append_left written
    · rw [hnew, List.append_cancel_left_eq, ← hall]
      constructor
      · intro hsame
        refine ⟨rfl, hsub.eq_of_length ?_⟩
        simpa using congrArg List.length hsame
      · exact fun hsame => congrArg _ hsame.2

end

theorem account_step (bound : 2 ≤ c.maxFiles) {lines : List Str} (h : Account c dir s lines)
    {a : Act} (hstep : s.step c a = some t) : ∃ lines', Account c dir t lines' ∧
      lines'.Sublist (lines ++ s.stored a) ∧ (lines' = lines ++ s.stored a ↔ s.Spared a) := by
  have hnothing : Account c dir t lines → s.stored a = [] → s.Spared a → ∃ lines',
      Account c dir t lines' ∧ lines'.Sublist (lines ++ s.stored a) ∧
        (lines' = lines ++ s.stored a ↔ s.Spared a) := by
    intro ht hstored hspared
    refine ⟨lines, ht, ?_⟩
    rw [hstored, List.append_nil]
    exact ⟨List.Sublist.refl _, iff_of_true rfl hspared⟩
  cases a with
  | setMinLevel level =>
    obtain rfl := Option.some.inj hstep
    exact hnothing ⟨h.filed, h.spare, h.closed⟩ rfl trivial
  | init =>
    simp only [step] at hstep
    split at hstep
    · exact hnothing (Option.some.inj hstep ▸ h) rfl trivial
    · next hnone =>
      obtain rfl := Option.some.inj hstep
      refine hnothing ?_ rfl trivial
      have hfiled := filed_of_ended h (serving_of_none hnone)
      have hempty : lines ++ (AsyncLogger.left {}).map fileLine = lines := List.append_nil _
      exact hempty ▸ account_serving (s := s) rfl hfiled rfl
  | print line now level msg =>
    simp only [step] at hstep
    split at hstep
    · next hlow =>
      refine hnothing (Option.some.inj hstep ▸ h) (if_pos hlow) ?_
      exact fun hhigh => absurd hlow (Int.not_lt.mpr hhigh)
    · next hlevel =>
      split at hstep
      · next hnone =>
        refine hnothing (Option.some.inj hstep ▸ h) ?_ ?_
        · rw [stored, if_neg hlevel, hnone, Option.elim_none]
        · intro _ l hl
          rw [hnone] at hl
          cases hl
      · next l hl =>
        rw [AsyncLogger.appendMessage, Option.map_map] at hstep
        obtain ⟨text, htext, rfl⟩ := Option.map_eq_some_iff.mp hstep
        have hstored : s.stored (.print line now level msg) = [fileLine (level, text)] := by
          rw [stored, if_neg hlevel, hl, Option.elim_some, htext]
          rfl
        have hspared : s.Spared (.print line now level msg) ↔
            l.phase.ended = false ∧ AsyncLogger.Spared l (.append (level, text)) := by
          constructor
          · exact fun h => h (Int.not_lt.mp hlevel) l hl
          · rintro h - k hk
            obtain rfl := Option.some.inj (hl.symm.trans hk)
            exact h
        rw [hstored, hspared]
        exact account_append h hl (level, text)
  | work a passed =>
    have hother : ∀ e, a ≠ .append e := by
      rintro e rfl
      cases hstep
    cases hl : s.logger with
    | none =>
      cases a with
      | append e => exact absurd rfl (hother e)
      | check | handOver | traverse | write | recycle | clear | stop | flush =>
        simp [step, hl] at hstep
    | some l =>
      have hworked : (l.step a).map (fun next => { s with
          logger := some next, files := filesAfter c s.files l passed a }) = some t := by
        cases a with
        | append e => exact absurd rfl (hother e)
        | check | handOver | traverse | write | recycle | clear | stop | flush =>
          simpa [step, hl] using hstep
      obtain ⟨next, hnext, rfl⟩ := Option.map_eq_some_iff.mp hworked
      exact hnothing (account_work bound h hl hother hnext passed) rfl trivial
  | delete =>
    simp only [step] at hstep
    split at hstep
    · next l hl =>
      obtain ⟨hended, ht⟩ := Option.ite_none_right_eq_some.mp hstep
      obtain rfl := Option.some.inj ht
      have hserving := serving_of_ended hl hended
      have hfiled := filed_of_ended h hserving
      refine hnothing ⟨⟨lines, hfiled, (List.append_nil _).symm⟩, ?_, ?_⟩ rfl trivial
      · intro k hk
        cases hk
      · exact fun _ => h.closed hserving
    · cases hstep

end LogSystem

end WebServer
