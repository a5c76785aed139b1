import WebServer.Bytes
import WebServer.SegmentedLog

/-!
# The rotation of the log files

The writer appends lines to `server.log` and, when the counted size has reached the limit, moves
the chain of numbered files up by one. The directory refines a log kept in segments: the files
are its segments, and the stream may hold back the end of the current one. Opening, renaming and
unlinking succeed where the file is there; renaming or unlinking a missing file changes nothing.
-/

namespace WebServer

open DataRefinement

/-! ## Files -/

/-- The contents of the files, by their names. -/
abbrev Directory := Str → Option Str

namespace Directory

def set (dir : Directory) (name : Str) (content : Option Str) : Directory :=
  fun other => if other = name then content else dir other

def unlink (dir : Directory) (name : Str) : Directory := dir.set name none

/-- An existing target is replaced. -/
def rename (dir : Directory) (source target : Str) : Directory :=
  match dir source with
  | none => dir
  | some content => (dir.set source none).set target (some content)

def append (dir : Directory) (name bytes : Str) : Directory :=
  dir.set name (some ((dir name).getD [] ++ bytes))

/-- Opening for appending creates a missing file. -/
def create (dir : Directory) (name : Str) : Directory := dir.append name []

end Directory

/-- What `Init` is told. -/
structure LogConfig where
  logDir : Str
  maxFileSize : Nat
  maxFiles : Int

namespace LogConfig

def current (c : LogConfig) : Str := c.logDir ++ lit "/server.log"

def backup (c : LogConfig) (i : Int) : Str := c.logDir ++ lit "/server.log." ++ intDec i

end LogConfig

/-- The files, what the stream `logFile_` holds back, and the size counted for the open file. -/
structure LogFiles where
  dir : Directory
  logFile : Str
  currentFileSize : Nat

/-! ## Writing and rotating -/

/-- A line, and how much of what it holds back the stream hands on with it. A flush before the
next line hands on everything. -/
structure LoggedLine where
  text : Str
  passed : Nat

/-- What is written for a line. -/
def LoggedLine.bytes (line : LoggedLine) : Str := line.text ++ [lf]

/-- The size is where the end of the file is. -/
def openLogFile (c : LogConfig) (dir : Directory) : LogFiles where
  dir := dir.create c.current
  logFile := []
  currentFileSize := ((dir.create c.current c.current).getD []).length

/-- `logFile_.close()` -/
def LogFiles.close (c : LogConfig) (s : LogFiles) : Directory := s.dir.append c.current s.logFile

/-- The loop from the given index down to one. -/
def shiftBackups (c : LogConfig) (dir : Directory) : Nat → Directory
  | 0 => dir
  | i + 1 => shiftBackups c (dir.rename (c.backup (i + 1 : Nat)) (c.backup (i + 2 : Nat))) i

def rotateLog (c : LogConfig) (s : LogFiles) : LogFiles :=
  let dir := s.close c
  let dir := dir.unlink (c.backup (c.maxFiles - 1))
  let dir := shiftBackups c dir (c.maxFiles - 2).toNat
  let dir := dir.rename c.current (c.logDir ++ lit "/server.log.1")
  openLogFile c dir

/-- `logFile_ << line << '\n'` and the count of its bytes. -/
def LogFiles.put (c : LogConfig) (s : LogFiles) (line : LoggedLine) : LogFiles :=
  let held := s.logFile ++ line.bytes
  { dir := s.dir.append c.current (held.take line.passed)
    logFile := held.drop line.passed
    currentFileSize := s.currentFileSize + (line.text.length + 1) }

/-- One line of the write loop, and what `server.log` holds when it is closed for a rotation. -/
def writeLine (c : LogConfig) (s : LogFiles) (line : LoggedLine) : LogFiles × Option Str :=
  let s := s.put c line
  if c.maxFileSize ≤ s.currentFileSize then (rotateLog c s, s.close c c.current) else (s, none)

/-- The files from the oldest to `server.log`. -/
def LogFiles.survivors (c : LogConfig) (s : LogFiles) : Str :=
  ((List.range (c.maxFiles - 1).toNat).reverse.flatMap fun i =>
    (s.dir (c.backup (i + 1 : Nat))).getD []) ++ (s.dir c.current).getD []

/-! ## Operations on files -/

namespace Directory

variable {dir : Directory} {name other source target : Str}

@[simp] theorem set_same (content : Option Str) : dir.set name content name = content := if_pos rfl

theorem set_other (content : Option Str) (h : other ≠ name) :
    dir.set name content other = dir other := if_neg h

@[simp] theorem unlink_same : dir.unlink name name = none := set_same none

theorem unlink_other (h : other ≠ name) : dir.unlink name other = dir other := set_other none h

@[simp] theorem append_same (bytes : Str) :
    dir.append name bytes name = some ((dir name).getD [] ++ bytes) := set_same _

theorem append_other (bytes : Str) (h : other ≠ name) :
    dir.append name bytes other = dir other := set_other _ h

/-- Moving a file to a free name. -/
theorem rename_target (free : dir target = none) :
    dir.rename source target target = dir source := by
  unfold rename
  cases h : dir source with
  | none => exact free
  | some content => exact set_same _

theorem rename_source (hne : source ≠ target) : dir.rename source target source = none := by
  unfold rename
  cases h : dir source with
  | none => exact h
  | some content => exact (set_other _ hne).trans (set_same none)

theorem rename_other (hsource : other ≠ source) (htarget : other ≠ target) :
    dir.rename source target other = dir other := by
  unfold rename
  cases dir source with
  | none => rfl
  | some content => exact (set_other _ htarget).trans (set_other _ hsource)

end Directory

/-! ## Names -/

namespace LogConfig

variable (c : LogConfig)

/-- A numbered name goes on behind that of the open file. -/
theorem numbered_eq (suffix : Str) :
    c.logDir ++ lit "/server.log." ++ suffix = c.current ++ (lit "." ++ suffix) := by
  have hname : lit "/server.log." = lit "/server.log" ++ lit "." := by decide
  rw [current, hname]
  simp only [List.append_assoc]

theorem numbered_ne_current (suffix : Str) :
    c.logDir ++ lit "/server.log." ++ suffix ≠ c.current := by
  intro h
  have hlength := congrArg List.length h
  have hdot : (lit ".").length = 1 := by decide
  rw [numbered_eq] at hlength
  simp only [List.length_append, hdot] at hlength
  omega

theorem backup_ne_current (i : Int) : c.backup i ≠ c.current := c.numbered_ne_current (intDec i)

theorem backup_nat (i : Nat) : c.backup i = c.logDir ++ lit "/server.log." ++ toDec i := by
  have hsign : ¬(i : Int) < 0 := by omega
  rw [backup, intDec, if_neg hsign, Int.natAbs_natCast]

theorem backup_inj {i j : Nat} (h : c.backup i = c.backup j) : i = j := by
  rw [backup_nat, backup_nat] at h
  exact toDec_inj (List.append_cancel_left h)

theorem backup_ne {i j : Nat} (h : i ≠ j) : c.backup i ≠ c.backup j := fun hb => h (c.backup_inj hb)

theorem backup_one : c.logDir ++ lit "/server.log.1" = c.backup (1 : Nat) := by
  have hname : lit "/server.log.1" = lit "/server.log." ++ toDec 1 := by decide
  rw [backup_nat, hname, List.append_assoc]

end LogConfig

/-- The loop moves every numbered file up by one when the last name is free. -/
theorem shiftBackups_spec (c : LogConfig) {dir : Directory} {n : Nat}
    (free : dir (c.backup (n + 1 : Nat)) = none) :
    shiftBackups c dir n (c.backup (1 : Nat)) = none ∧
      (∀ j, 1 ≤ j → j ≤ n →
        shiftBackups c dir n (c.backup (j + 1 : Nat)) = dir (c.backup (j : Nat))) ∧
      ∀ name, (∀ j, 1 ≤ j → j ≤ n + 1 → name ≠ c.backup (j : Nat)) →
        shiftBackups c dir n name = dir name := by
  induction n generalizing dir with
  | zero =>
    refine ⟨free, ?_, fun _ _ => rfl⟩
    intro j hj hj0
    omega
  | succ n ih =>
    have hmoved : dir.rename (c.backup (n + 1 : Nat)) (c.backup (n + 2 : Nat))
        (c.backup (n + 1 : Nat)) = none := Directory.rename_source (c.backup_ne (by omega))
    obtain ⟨hfirst, hup, hrest⟩ := ih hmoved
    refine ⟨hfirst, ?_, ?_⟩
    · intro j hj hjn
      by_cases hlast : j = n + 1
      · subst hlast
        have hkept := hrest (c.backup (n + 2 : Nat)) (fun i _ hi => c.backup_ne (by omega))
        rw [shiftBackups, hkept, Directory.rename_target free]
      · rw [shiftBackups, hup j hj (by omega),
          Directory.rename_other (c.backup_ne (by omega)) (c.backup_ne (by omega))]
    · intro name hname
      rw [shiftBackups, hrest name (fun j hj hjn => hname j hj (by omega)),
        Directory.rename_other (hname (n + 1) (by omega) (by omega))
          (hname (n + 2) (by omega) (by omega))]

/-- What a rotation does to each name: the open file is new and empty, the numbered files have
moved up by one, the last of them is gone, and no other file is touched. -/
structure Rotated (c : LogConfig) (s s' : LogFiles) : Prop where
  opened : s'.dir c.current = some [] ∧ s'.logFile = [] ∧ s'.currentFileSize = 0
  newest : s'.dir (c.backup (1 : Nat)) = s.close c c.current
  up : ∀ j, 1 ≤ j → j < (c.maxFiles - 1).toNat →
    s'.dir (c.backup (j + 1 : Nat)) = s.dir (c.backup j)
  past : ∀ j, (c.maxFiles - 1).toNat < j → s'.dir (c.backup j) = s.dir (c.backup j)
  others : ∀ name, name ≠ c.current → (∀ i : Nat, 1 ≤ i → name ≠ c.backup i) →
    s'.dir name = s.dir name

theorem rotateLog_rotated {c : LogConfig} (files : 2 ≤ c.maxFiles) (s : LogFiles) :
    Rotated c s (rotateLog c s) := by
  obtain ⟨k, hk⟩ : ∃ k : Nat, c.maxFiles = k + 2 := ⟨(c.maxFiles - 2).toNat, by omega⟩
  have hlast : c.maxFiles - 1 = (k + 1 : Nat) := by omega
  have hloop : (c.maxFiles - 2).toNat = k := by omega
  -- the directory after each of the four operations
  let closed := s.close c
  let unlinked := closed.unlink (c.backup (k + 1 : Nat))
  let shifted := shiftBackups c unlinked k
  let moved := shifted.rename c.current (c.backup (1 : Nat))
  have hrotate : rotateLog c s = openLogFile c moved := by
    rw [rotateLog, hlast, hloop, c.backup_one]
  have hfree : unlinked (c.backup (k + 1 : Nat)) = none := Directory.unlink_same
  obtain ⟨hfirst, hup, hrest⟩ := shiftBackups_spec c hfree
  -- a name that no operation but the loop may change
  have hloops : ∀ name, name ≠ c.current → name ≠ c.backup (1 : Nat) →
      (openLogFile c moved).dir name = shifted name := by
    intro name hname hone
    have hopened : (openLogFile c moved).dir name = moved name := Directory.append_other _ hname
    exact hopened.trans (Directory.rename_other hname hone)
  have hbefore : ∀ name, name ≠ c.current → name ≠ c.backup (k + 1 : Nat) →
      unlinked name = s.dir name := by
    intro name hname hlast
    have hclosed : closed name = s.dir name := Directory.append_other _ hname
    exact (Directory.unlink_other hlast).trans hclosed
  have hmoved : moved c.current = none := Directory.rename_source (c.backup_ne_current _).symm
  rw [hrotate]
  refine ⟨⟨?_, rfl, ?_⟩, ?_, ?_, ?_, ?_⟩
  · simp [openLogFile, Directory.create, hmoved]
  · simp [openLogFile, Directory.create, hmoved]
  · have hopened : (openLogFile c moved).dir (c.backup (1 : Nat)) = moved (c.backup (1 : Nat)) :=
      Directory.append_other _ (c.backup_ne_current _)
    have hkept : shifted c.current = unlinked c.current :=
      hrest c.current (fun j _ _ => (c.backup_ne_current j).symm)
    have hclosed : unlinked c.current = closed c.current :=
      Directory.unlink_other (c.backup_ne_current _).symm
    have hmoves : moved (c.backup (1 : Nat)) = shifted c.current := Directory.rename_target hfirst
    rw [hopened, hmoves, hkept, hclosed]
  · intro j hj hjk
    rw [hloops _ (c.backup_ne_current _) (c.backup_ne (by omega)),
      ← hbefore _ (c.backup_ne_current _) (c.backup_ne (show j ≠ k + 1 by omega))]
    exact hup j hj (by omega)
  · intro j hj
    rw [hloops _ (c.backup_ne_current _) (c.backup_ne (by omega)),
      ← hbefore _ (c.backup_ne_current _) (c.backup_ne (show j ≠ k + 1 by omega))]
    exact hrest _ (fun i _ hi => c.backup_ne (by omega))
  · intro name hname hbackup
    rw [hloops name hname (hbackup 1 (Nat.le_refl 1)),
      ← hbefore name hname (hbackup (k + 1) (by omega))]
    exact hrest name (fun i hi _ => hbackup i hi)

/-! ## The segments behind the files -/

/-- The open file and what the stream holds back are the current segment, the numbered files are
the segments that are kept, and no other file differs from the start. -/
structure Mirrors (c : LogConfig) (start : Directory) (s : LogFiles) (log : SegmentedLog Byte) :
    Prop where
  active : ∃ content, s.dir c.current = some content ∧ content ++ s.logFile = log.current
  size : s.currentFileSize = log.current.length
  few : log.kept.length ≤ (c.maxFiles - 1).toNat
  backups : ∀ i, s.dir (c.backup (i + 1 : Nat)) = log.kept[i]?
  others : ∀ name, name ≠ c.current → (∀ i : Nat, 1 ≤ i → name ≠ c.backup i) →
    s.dir name = start name

/-- The step of the log that a line makes. -/
def writeSegment (c : LogConfig) (log : SegmentedLog Byte) (line : LoggedLine) :
    SegmentedLog Byte × Option Str :=
  SegmentedLog.write c.maxFileSize (c.maxFiles - 1).toNat log line.bytes

section Refinement

variable {c : LogConfig} {start : Directory} {s : LogFiles} {log : SegmentedLog Byte}

/-- A line goes behind the current segment. -/
theorem mirrors_put (h : Mirrors c start s log) (line : LoggedLine) :
    Mirrors c start (s.put c line)
      { log with current := log.current ++ line.bytes } := by
  obtain ⟨content, hcontent, hcurrent⟩ := h.active
  have hdir : ∀ name, name ≠ c.current → (s.put c line).dir name = s.dir name :=
    fun name hname => Directory.append_other _ hname
  refine ⟨⟨content ++ (s.logFile ++ line.bytes).take line.passed, ?_, ?_⟩, ?_, h.few, ?_, ?_⟩
  · have hsame : (s.put c line).dir c.current = some ((s.dir c.current).getD [] ++
        (s.logFile ++ line.bytes).take line.passed) := Directory.append_same _
    rw [hsame, hcontent, Option.getD_some]
  · rw [LogFiles.put, List.append_assoc, List.take_append_drop, ← List.append_assoc, hcurrent]
  · rw [LogFiles.put, h.size]
    simp [LoggedLine.bytes]
  · intro i
    rw [hdir _ (c.backup_ne_current _), h.backups]
  · intro name hname hbackup
    rw [hdir name hname, h.others name hname hbackup]

/-- Closing hands the current segment to the file. -/
theorem close_current (h : Mirrors c start s log) : s.close c c.current = some log.current := by
  obtain ⟨content, hcontent, hcurrent⟩ := h.active
  rw [LogFiles.close, Directory.append_same, hcontent, Option.getD_some, hcurrent]

/-- A rotation makes the current segment the newest of those kept, and drops the oldest when
there is no number for it. -/
theorem mirrors_rotateLog (files : 2 ≤ c.maxFiles) (h : Mirrors c start s log) :
    Mirrors c start (rotateLog c s)
      { kept := (log.current :: log.kept).take (c.maxFiles - 1).toNat } := by
  have hrotated := rotateLog_rotated files s
  obtain ⟨hempty, hheld, hsize⟩ := hrotated.opened
  have hfew := h.few
  refine ⟨⟨[], hempty, hheld⟩, hsize, List.length_take_le _ _, ?_, ?_⟩
  · intro i
    rw [List.getElem?_take]
    cases i with
    | zero =>
      rw [if_pos (by omega), List.getElem?_cons_zero, hrotated.newest]
      exact close_current h
    | succ i =>
      rw [List.getElem?_cons_succ, ← h.backups i]
      by_cases hi : i + 1 < (c.maxFiles - 1).toNat
      · rw [if_pos hi]
        exact hrotated.up (i + 1) (by omega) hi
      · rw [if_neg hi, hrotated.past (i + 1 + 1) (by omega), h.backups]
        exact List.getElem?_eq_none (by omega)
  · intro name hname hbackup
    rw [hrotated.others name hname hbackup, h.others name hname hbackup]

/-- One line of the write loop is one step of the log. -/
theorem writeLine_simulates (files : 2 ≤ c.maxFiles) :
    Simulates (writeLine c) (writeSegment c) (Mirrors c start) Eq := by
  intro s log line h
  have hput := mirrors_put h line
  have hsize := hput.size
  by_cases full : c.maxFileSize ≤ (log.current ++ line.bytes).length
  · have hwrite : writeLine c s line =
        (rotateLog c (s.put c line), (s.put c line).close c c.current) := if_pos (by rwa [hsize])
    have hlog : writeSegment c log line = _ := SegmentedLog.write_closes full
    rw [hwrite, hlog]
    exact ⟨mirrors_rotateLog files hput, close_current hput⟩
  · have hwrite : writeLine c s line = (s.put c line, none) := if_neg (by rwa [hsize])
    have hlog : writeSegment c log line = _ := SegmentedLog.write_appends full
    rw [hwrite, hlog]
    exact ⟨hput, rfl⟩

/-- A directory without log files is opened with an empty log. -/
theorem mirrors_openLogFile (c : LogConfig) {dir : Directory}
    (fresh : ∀ suffix, dir (c.current ++ suffix) = none) :
    Mirrors c dir (openLogFile c dir) {} := by
  have hnone : dir c.current = none := by simpa using fresh []
  have hopened : ∀ name, name ≠ c.current → (openLogFile c dir).dir name = dir name :=
    fun name hname => Directory.append_other _ hname
  refine ⟨⟨[], ?_, rfl⟩, ?_, Nat.zero_le _, ?_, fun name hname _ => hopened name hname⟩
  · simp [openLogFile, Directory.create, hnone]
  · simp [openLogFile, Directory.create, hnone]
  · intro i
    rw [hopened _ (c.backup_ne_current _), LogConfig.backup, c.numbered_eq, fresh]
    rfl

/-- The files from the oldest to the newest hold the segments that are kept, then the current
one. -/
theorem survivors_eq (h : Mirrors c start s log) :
    s.survivors c ++ s.logFile = log.kept.reverse.flatten ++ log.current := by
  obtain ⟨content, hcontent, hcurrent⟩ := h.active
  have hfiles : (List.range (c.maxFiles - 1).toNat).map (fun i =>
      (s.dir (c.backup (i + 1 : Nat))).getD []) =
      log.kept ++ List.replicate ((c.maxFiles - 1).toNat - log.kept.length) [] := by
    have hfew := h.few
    apply List.ext_getElem
    · simp only [List.length_map, List.length_range, List.length_append, List.length_replicate]
      omega
    · intro i hi _
      rw [List.getElem_map, List.getElem_range, h.backups, List.getElem_append]
      by_cases hkept : i < log.kept.length
      · rw [dif_pos hkept, List.getElem?_eq_getElem hkept, Option.getD_some]
      · rw [dif_neg hkept, List.getElem?_eq_none (by omega), List.getElem_replicate]
        rfl
  rw [LogFiles.survivors, hcontent, Option.getD_some, List.append_assoc, hcurrent,
    List.flatMap_def, List.map_reverse, hfiles]
  simp

end Refinement

/-! ## Every run -/

section Runs

variable {c : LogConfig} {dir : Directory}

/-- The files are those of the segmented log that the same lines make, and the same segments are
closed. -/
theorem mirrors_of_run (files : 2 ≤ c.maxFiles) (fresh : ∀ suffix, dir (c.current ++ suffix) = none)
    (lines : List LoggedLine) :
    let log := run (SegmentedLog.write c.maxFileSize (c.maxFiles - 1).toNat) {}
      (lines.map LoggedLine.bytes)
    Mirrors c dir (run (writeLine c) (openLogFile c dir) lines).1 log.1 ∧
      (run (writeLine c) (openLogFile c dir) lines).2 = log.2 := by
  intro log
  have hlog : run (writeSegment c) {} lines = log :=
    run_map (SegmentedLog.write c.maxFileSize (c.maxFiles - 1).toNat) LoggedLine.bytes {} lines
  have hsim := run_simulates (writeLine_simulates files) (mirrors_openLogFile c fresh) lines
  rw [hlog, List.forall₂_eq_eq_eq] at hsim
  exact hsim

/-- A file with a number behind its name is one of those kept. -/
theorem numbered_of_mirrors {s : LogFiles} {log : SegmentedLog Byte}
    (fresh : ∀ suffix, dir (c.current ++ suffix) = none) (h : Mirrors c dir s log) {suffix : Str}
    (there : s.dir (c.logDir ++ lit "/server.log." ++ suffix) ≠ none) :
    ∃ i, 1 ≤ i ∧ i ≤ log.kept.length ∧ suffix = toDec i := by
  by_cases hnumber : ∃ i : Nat, 1 ≤ i ∧ c.logDir ++ lit "/server.log." ++ suffix = c.backup i
  · obtain ⟨i, hi, hbackup⟩ := hnumber
    refine ⟨i, hi, ?_, ?_⟩
    · by_contra hpast
      apply there
      have hfile := h.backups (i - 1)
      rw [Nat.sub_add_cancel hi, List.getElem?_eq_none (by omega)] at hfile
      rw [hbackup, hfile]
    · rw [c.backup_nat] at hbackup
      exact List.append_cancel_left hbackup
  · refine absurd ?_ there
    rw [h.others _ (c.numbered_ne_current suffix), c.numbered_eq, fresh]
    intro i hi hbackup
    exact hnumber ⟨i, hi, hbackup⟩

/-- From a directory without log files, whatever lines are written and whatever the stream holds
back: the numbered files are the newest closed segments, newest first, and there is no other
one; a segment is a group of consecutive lines that reached the limit with its last line; and
the files read from the oldest to `server.log`, with what the stream holds back, end what was
written. -/
theorem logFiles_of_run (files : 2 ≤ c.maxFiles) (size : 0 < c.maxFileSize)
    (fresh : ∀ suffix, dir (c.current ++ suffix) = none) (lines : List LoggedLine) :
    let s := (run (writeLine c) (openLogFile c dir) lines).1
    let closed := (run (writeLine c) (openLogFile c dir) lines).2.reduceOption
    let kept := min closed.length (c.maxFiles - 1).toNat
    let written := lines.map LoggedLine.bytes
    (∀ i : Nat, 1 ≤ i → i ≤ kept → s.dir (c.backup i) = closed[closed.length - i]?) ∧
      (∀ suffix, s.dir (c.logDir ++ lit "/server.log." ++ suffix) ≠ none →
        ∃ i, 1 ≤ i ∧ i ≤ kept ∧ suffix = toDec i) ∧
      (∃ (groups : List (List Str)) (rest : List Str),
        written = groups.flatten ++ rest ∧ closed = groups.map List.flatten ∧
        ∀ g ∈ groups, ∃ before last, g = before ++ [last] ∧ c.maxFileSize ≤ g.flatten.length ∧
          g.flatten.length < c.maxFileSize + last.length) ∧
      s.survivors c ++ s.logFile <:+ written.flatten := by
  intro s closed kept written
  let log := (run (SegmentedLog.write c.maxFileSize (c.maxFiles - 1).toNat) {} written).1
  obtain ⟨hmirrors, houtputs⟩ := mirrors_of_run files fresh lines
  change Mirrors c dir s log at hmirrors
  have hclosed : closed = SegmentedLog.closed c.maxFileSize (c.maxFiles - 1).toNat {} written :=
    congrArg List.reduceOption houtputs
  have hkept : log.kept = _ := SegmentedLog.kept_of_run written
  obtain ⟨groups, rest, hdivided⟩ :=
    @SegmentedLog.divided_of_run Byte c.maxFileSize (c.maxFiles - 1).toNat size written
  have hnewest := hdivided.newest_suffix (c.maxFiles - 1).toNat
  rw [← hclosed] at hkept hdivided hnewest
  have hlength := congrArg List.length hkept
  rw [List.length_take, List.length_reverse] at hlength
  refine ⟨?_, ?_, ⟨groups, rest, hdivided.chunks_eq, hdivided.segments_eq, ?_⟩, ?_⟩
  · intro i hi hik
    have hfile := hmirrors.backups (i - 1)
    rw [Nat.sub_add_cancel hi, hkept, List.getElem?_take, if_pos (by omega),
      List.getElem?_reverse (by omega)] at hfile
    rw [hfile]
    congr 1
    omega
  · intro suffix there
    obtain ⟨i, hi, hik, hsuffix⟩ := numbered_of_mirrors fresh hmirrors there
    exact ⟨i, hi, by omega, hsuffix⟩
  · intro g hg
    obtain ⟨before, last, rfl, hbelow, hreached⟩ := hdivided.reached g hg
    refine ⟨before, last, rfl, hreached, ?_⟩
    rw [List.flatten_append, List.flatten_singleton, List.length_append]
    omega
  · rw [survivors_eq hmirrors, hkept]
    exact hnewest

end Runs

/-- Three files, a limit of three bytes, and a stream that hands on nothing, a part or all: of
three closed segments the oldest is gone. -/
theorem logFiles_of_run_three :
    let c : LogConfig := { logDir := lit "/l", maxFileSize := 3, maxFiles := 3 }
    let lines : List LoggedLine := [⟨lit "ab", 0⟩, ⟨lit "c", 1⟩, ⟨lit "de", 9⟩, ⟨lit "fgh", 2⟩,
      ⟨lit "i", 1⟩]
    let s := (run (writeLine c) (openLogFile c fun _ => none) lines).1
    s.dir (c.backup 1) = some (lit "fgh\n") ∧ s.dir (c.backup 2) = some (lit "c\nde\n") ∧
      s.dir (c.backup 3) = none ∧ s.dir c.current = some (lit "i") ∧
      s.survivors c ++ s.logFile <:+ lit "ab\nc\nde\nfgh\ni\n" := by
  intro c lines s
  have hrun := @logFiles_of_run c (fun _ => none) (by decide) (by decide) (fun _ => rfl) lines
  obtain ⟨hnumbered, -, -, hsuffix⟩ := hrun
  have hfirst := hnumbered 1 (by decide) (by decide +kernel)
  have hsecond := hnumbered 2 (by decide) (by decide +kernel)
  refine ⟨hfirst.trans (by decide +kernel), hsecond.trans (by decide +kernel),
    by decide +kernel, by decide +kernel, ?_⟩
  have hwritten : (lines.map LoggedLine.bytes).flatten = lit "ab\nc\nde\nfgh\ni\n" := by
    decide +kernel
  rwa [hwritten] at hsuffix

end WebServer
