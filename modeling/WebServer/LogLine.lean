import WebServer.AsyncLogger
import WebServer.StaticFiles

/-!
# The text of a log line

`Append` formats into an array of 512 characters and builds the stored string from the array
and the length that `snprintf` answers, which is that of the whole text and not of what fits.
A string built from more characters than the array has reads outside it, and one of negative
length throws: neither stores a line.
-/

namespace WebServer

/-- A value from outside the enumeration has a name of its own. -/
inductive LogLevel where
  | normal | debug | error
  | outside (value : Int)
  deriving DecidableEq

namespace Log

def levelToString : LogLevel → Str
  | .normal => lit "NORMAL"
  | .debug => lit "DEBUG"
  | .error => lit "ERROR"
  | .outside _ => lit "UNKNOWN"

def levelName (level : LogLevel) : Str := levelToString level

end Log

/-- The number in decimal, with zeros in front. -/
def padded : Nat → Nat → Str
  | 0, _ => []
  | width + 1, n => padded width (n / 10) ++ [(48 + n % 10).toUInt8]

/-- A reading of the system clock in local time. Its range is that of 64 bits of nanoseconds. -/
structure LocalTime where
  year : Fin 10000
  fourDigits : 1000 ≤ year.val
  month : Fin 100
  day : Fin 100
  hour : Fin 100
  minute : Fin 100
  second : Fin 100
  ms : Fin 1000

/-- `strftime` with `%Y-%m-%d %H:%M:%S` -/
def LocalTime.timeBuf (t : LocalTime) : Str :=
  padded 4 t.year ++ lit "-" ++ padded 2 t.month ++ lit "-" ++ padded 2 t.day ++ lit " " ++
    padded 2 t.hour ++ lit ":" ++ padded 2 t.minute ++ lit ":" ++ padded 2 t.second

/-- The array `line`, with what it holds from earlier calls. -/
structure LineArray where
  chars : Str
  size : chars.length = 512

namespace LineArray

/-- `snprintf` into the whole array: it writes what fits and a NUL, and answers the length of
the text, or fails when that is no `int`. -/
def snprintf (a : LineArray) (text : Str) : LineArray × Int where
  fst :=
    { chars := text.take 511 ++ 0 :: a.chars.drop ((text.take 511).length + 1)
      size := by
        have hsize := a.size
        simp only [List.length_append, List.length_take, List.length_cons, List.length_drop]
        omega }
  snd := if text.length < 2 ^ 31 then text.length else -1

/-- `std::string(line, len)`; none when it throws or reads outside the array. -/
def string (a : LineArray) (len : Int) : Option Str :=
  if 0 ≤ len ∧ len ≤ 512 then some (a.chars.take len.toNat) else none

end LineArray

/-- The text that `%s.%03d [%s] %s` makes of the time, the level and a message. -/
def lineText (now : LocalTime) (level : LogLevel) (msg : Str) : Str :=
  now.timeBuf ++ lit "." ++ padded 3 now.ms ++ lit " [" ++ Log.levelName level ++ lit "] " ++ msg

/-- The line that `Append` stores; `%s` ends at the first NUL of the message. -/
def storedLine (line : LineArray) (now : LocalTime) (level : LogLevel) (msg : Str) : Option Str :=
  let (line, len) := line.snprintf (lineText now level (cStr msg))
  line.string len

namespace AsyncLogger

/-- `Append` of a started logger. -/
def appendMessage (s : AsyncLogger (LogLevel × Str)) (line : LineArray) (now : LocalTime)
    (level : LogLevel) (msg : Str) : Option (AsyncLogger (LogLevel × Str)) :=
  (storedLine line now level msg).map fun text => s.append (level, text)

end AsyncLogger

/-! ## Lengths and NULs -/

@[simp] theorem padded_length (width n : Nat) : (padded width n).length = width := by
  induction width generalizing n with
  | zero => rfl
  | succ width ih => simp [padded, ih]

theorem padded_noNul (width n : Nat) : 0 ∉ padded width n := by
  induction width generalizing n with
  | zero => simp [padded]
  | succ width ih =>
    have hdigit : (48 + n % 10).toUInt8 ≠ 0 := by
      intro hzero
      have := congrArg UInt8.toNat hzero
      simp at this
      omega
    simp only [padded, List.mem_append, List.mem_singleton]
    rintro (hmem | hmem)
    · exact ih _ hmem
    · exact hdigit hmem.symm

theorem cStr_noNul (s : Str) : 0 ∉ cStr s := by
  intro hmem
  have hsat := List.mem_takeWhile_imp hmem
  simp at hsat

theorem levelName_noNul (level : LogLevel) : 0 ∉ Log.levelName level := by
  cases level with
  | normal => decide
  | debug => decide
  | error => decide
  | outside value =>
    change 0 ∉ lit "UNKNOWN"
    decide

theorem lineText_length (now : LocalTime) (level : LogLevel) (msg : Str) :
    (lineText now level msg).length = 27 + (Log.levelName level).length + msg.length := by
  have hsep : (lit "-").length = 1 ∧ (lit " ").length = 1 ∧ (lit ":").length = 1 ∧
      (lit ".").length = 1 ∧ (lit " [").length = 2 ∧ (lit "] ").length = 2 := by decide
  obtain ⟨h₁, h₂, h₃, h₄, h₅, h₆⟩ := hsep
  simp only [lineText, LocalTime.timeBuf, List.length_append, padded_length, h₁, h₂, h₃, h₄, h₅,
    h₆]
  omega

theorem lineText_noNul (now : LocalTime) (level : LogLevel) {msg : Str} (h : 0 ∉ msg) :
    0 ∉ lineText now level msg := by
  have hsep : 0 ∉ lit "-" ∧ 0 ∉ lit " " ∧ 0 ∉ lit ":" ∧ 0 ∉ lit "." ∧ 0 ∉ lit " [" ∧
      0 ∉ lit "] " := by decide
  obtain ⟨h₁, h₂, h₃, h₄, h₅, h₆⟩ := hsep
  simp [lineText, LocalTime.timeBuf, padded_noNul, levelName_noNul, h, h₁, h₂, h₃, h₄, h₅, h₆]

theorem lineText_prefix (now : LocalTime) (level : LogLevel) {msg msg' : Str} (h : msg <+: msg') :
    lineText now level msg <+: lineText now level msg' := by
  simpa [lineText] using h

/-! ## What is stored -/

/-- A text that fits is stored as it is. -/
theorem string_fits (a : LineArray) {text : Str} (fits : text.length ≤ 511) :
    (a.snprintf text).1.string (a.snprintf text).2 = some text := by
  have htake : text.take 511 = text := List.take_of_length_le fits
  have hlen : (a.snprintf text).2 = text.length := if_pos (by omega)
  rw [LineArray.string, hlen, if_pos (by omega)]
  simp [LineArray.snprintf, htake]

/-- A text of 512 characters loses its last one to the NUL, which is stored. -/
theorem string_full (a : LineArray) {text : Str} (full : text.length = 512) :
    (a.snprintf text).1.string (a.snprintf text).2 = some (text.take 511 ++ [0]) := by
  have htake : (text.take 511).length = 511 := by
    rw [List.length_take]
    omega
  have hlen : (a.snprintf text).2 = text.length := if_pos (by omega)
  have hrest : a.chars.drop 512 = [] := List.drop_of_length_le (by rw [a.size])
  rw [LineArray.string, hlen, if_pos (by omega)]
  simp only [LineArray.snprintf, htake, hrest, Option.some.injEq]
  apply List.take_of_length_le
  simp [full]

/-- A longer text would be read from outside the array. -/
theorem string_long (a : LineArray) {text : Str} (long : 512 < text.length) :
    (a.snprintf text).1.string (a.snprintf text).2 = none := by
  apply if_neg
  by_cases small : text.length < 2 ^ 31
  · have hlen : (a.snprintf text).2 = text.length := if_pos small
    omega
  · have hlen : (a.snprintf text).2 = -1 := if_neg small
    omega

theorem string_prefix_iff (a : LineArray) {text whole : Str} (noNul : 0 ∉ text)
    (begins : text <+: whole) :
    (∃ stored, (a.snprintf text).1.string (a.snprintf text).2 = some stored ∧ stored <+: whole) ↔
      text.length ≤ 511 := by
  constructor
  · rintro ⟨stored, hstored, hbegin⟩
    by_contra long
    rcases Nat.lt_or_ge 512 text.length with hlong | hfull
    · rw [string_long a hlong] at hstored
      cases hstored
    · rw [string_full a (by omega)] at hstored
      obtain rfl := Option.some.inj hstored
      have hlength : (text.take 511 ++ [0]).length ≤ text.length := by
        simp only [List.length_append, List.length_take, List.length_singleton]
        omega
      have hwithin := List.prefix_of_prefix_length_le hbegin begins hlength
      have hnul : (0 : Byte) ∈ text := hwithin.subset (by simp)
      exact noNul hnul
  · intro fits
    exact ⟨text, string_fits a fits, begins⟩

theorem storedLine_prefix_iff (line : LineArray) (now : LocalTime) (level : LogLevel)
    (msg : Str) :
    (∃ text, storedLine line now level msg = some text ∧ text <+: lineText now level msg) ↔
      (cStr msg).length + (Log.levelName level).length ≤ 484 := by
  have hbegins : lineText now level (cStr msg) <+: lineText now level msg :=
    lineText_prefix now level (List.takeWhile_prefix _)
  have hlength := lineText_length now level (cStr msg)
  have hfits := string_prefix_iff line (lineText_noNul now level (cStr_noNul msg)) hbegins
  unfold storedLine
  rw [hfits]
  omega

/-- A line is stored that begins the text of time, level and message, exactly when the message
up to its first NUL and the name of the level have no more than 484 characters. -/
theorem appendMessage_prefix_iff (s : AsyncLogger (LogLevel × Str)) (line : LineArray)
    (now : LocalTime) (level : LogLevel) (msg : Str) :
    (∃ text, storedLine line now level msg = some text ∧ text <+: lineText now level msg ∧
        s.appendMessage line now level msg = some (s.append (level, text))) ↔
      (cStr msg).length + (Log.levelName level).length ≤ 484 := by
  rw [← storedLine_prefix_iff line now level msg]
  constructor
  · rintro ⟨text, hstored, hbegin, _⟩
    exact ⟨text, hstored, hbegin⟩
  · rintro ⟨text, hstored, hbegin⟩
    refine ⟨text, hstored, hbegin, ?_⟩
    rw [AsyncLogger.appendMessage, hstored, Option.map_some]

/-! ## The line of a rejected path -/

/-- What `Process` logs before it answers 403. -/
def rejectedMessage (path : Str) (fd : Int) : Str :=
  lit "Path traversal attempt detected: " ++ path ++ lit " from fd=" ++ intDec fd

/-- 2026-01-02 03:04:05.006 -/
def someTime : LocalTime where
  year := 2026
  fourDigits := by decide
  month := 1
  day := 2
  hour := 3
  minute := 4
  second := 5
  ms := 6

/-- An array that holds zeros. -/
def LineArray.zeros : LineArray := ⟨List.replicate 512 0, List.length_replicate⟩

/-- For a refused path of 483 bytes the string would be built from outside the array. -/
theorem rejected_path_overreads :
    let path := lit "/.." ++ List.replicate 480 97
    let msg := rejectedMessage path 5
    PathUtil.safePath (.table []) (lit "/w") path = [] ∧
      ¬∃ text, storedLine .zeros someTime .error msg = some text ∧
        text <+: lineText someTime .error msg := by
  intro path msg
  refine ⟨by decide +kernel, ?_⟩
  have hlong : ¬(cStr msg).length + (Log.levelName .error).length ≤ 484 := by decide +kernel
  rwa [storedLine_prefix_iff]

end WebServer
