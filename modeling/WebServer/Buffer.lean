import WebServer.Bytes

/-!
# Network buffer

`buffer_` with its two cursors. The bytes between the cursors are the readable
bytes; those before the read cursor and after the write cursor are stale. Sizes
are natural numbers: the limit of `size_t` is not modelled.
-/

namespace WebServer

structure Buffer where
  storage : Str
  readPos : Nat
  writePos : Nat

namespace Buffer

/-- The constructor `Buffer(initSize)`. -/
def new (initSize : Nat) : Buffer := ⟨List.replicate initSize 0, 0, 0⟩

def readableBytes (b : Buffer) : Nat := b.writePos - b.readPos

def writableBytes (b : Buffer) : Nat := b.storage.length - b.writePos

/-- The range that `PeekReadable` returns, from `ReadBegin`. -/
def peekReadable (b : Buffer) : Str := (b.storage.drop b.readPos).take b.readableBytes

def empty (b : Buffer) : Bool := b.readableBytes = 0

def clear (b : Buffer) : Buffer := { b with readPos := 0, writePos := 0 }

/-- `buffer_.resize(max(2 * size, writePos_ + len))` -/
def grow (b : Buffer) (len : Nat) : Buffer :=
  let newSize := max (b.storage.length * 2) (b.writePos + len)
  { b with storage := b.storage ++ List.replicate (newSize - b.storage.length) 0 }

/-- Move the readable bytes to the front, as `std::copy` does. -/
def compact (b : Buffer) : Buffer :=
  { storage := b.peekReadable ++ b.storage.drop b.readableBytes
    readPos := 0
    writePos := b.readableBytes }

def makeSpace (b : Buffer) (len : Nat) : Buffer :=
  if len ≤ b.writableBytes then b
  else if len ≤ b.readPos + b.writableBytes then
    let b' := b.compact
    if len ≤ b'.writableBytes then b' else b'.grow len
  else b.grow len

def append (b : Buffer) (data : Str) : Buffer :=
  let b' := b.makeSpace data.length
  { b' with
    storage := b'.storage.take b'.writePos ++ data ++ b'.storage.drop (b'.writePos + data.length)
    writePos := b'.writePos + data.length }

/-- Reset both cursors when nothing is left to read. -/
def rewind (b : Buffer) : Buffer := if b.readPos = b.writePos then b.clear else b

def consume (b : Buffer) (len : Nat) : Buffer :=
  rewind { b with readPos := b.readPos + min len b.readableBytes }

def retrieve (b : Buffer) (len : Nat) : Str × Buffer :=
  (b.peekReadable.take (min len b.readableBytes), b.consume len)

def retrieveAll (b : Buffer) : Str × Buffer := (b.peekReadable, b.clear)

/-- The pointer returned, as an offset from `ReadBegin`; `none` is the null pointer. -/
def findCRLF (b : Buffer) : Option Nat := findCrlf b.peekReadable

structure Wf (b : Buffer) : Prop where
  cursors : b.readPos ≤ b.writePos
  inside : b.writePos ≤ b.storage.length

theorem new_wf (initSize : Nat) : (new initSize).Wf := ⟨Nat.le_refl _, Nat.zero_le _⟩

@[simp] theorem new_peekReadable (initSize : Nat) : (new initSize).peekReadable = [] := by
  simp [new, peekReadable, readableBytes]

theorem peekReadable_length {b : Buffer} (h : b.Wf) :
    b.peekReadable.length = b.readableBytes := by
  have := h.cursors
  have := h.inside
  simp only [peekReadable, readableBytes, List.length_take, List.length_drop]
  omega

theorem clear_wf (b : Buffer) : b.clear.Wf := ⟨Nat.le_refl _, Nat.zero_le _⟩

@[simp] theorem clear_peekReadable (b : Buffer) : b.clear.peekReadable = [] := by
  simp [clear, peekReadable, readableBytes]

theorem readableBytes_eq_zero {b : Buffer} (h : b.Wf) :
    b.readableBytes = 0 ↔ b.peekReadable = [] := by
  rw [← peekReadable_length h, List.length_eq_zero_iff]

theorem grow_wf {b : Buffer} (h : b.Wf) (len : Nat) : (b.grow len).Wf := by
  refine ⟨h.cursors, ?_⟩
  have := h.inside
  simp only [grow, List.length_append]
  omega

theorem grow_room {b : Buffer} (len : Nat) : len ≤ (b.grow len).writableBytes := by
  simp only [grow, writableBytes, List.length_append, List.length_replicate]
  omega

theorem grow_peekReadable {b : Buffer} (h : b.Wf) (len : Nat) :
    (b.grow len).peekReadable = b.peekReadable := by
  have hlen : b.readPos ≤ b.storage.length := h.cursors.trans h.inside
  have htake : b.readableBytes ≤ (b.storage.drop b.readPos).length := by
    have := h.inside
    simp only [readableBytes, List.length_drop]
    omega
  change ((b.storage ++ _).drop b.readPos).take b.readableBytes = _
  rw [List.drop_append_of_le_length hlen, List.take_append_of_le_length htake]
  rfl

theorem compact_wf {b : Buffer} (h : b.Wf) : b.compact.Wf := by
  refine ⟨Nat.zero_le _, ?_⟩
  simp only [compact, List.length_append, peekReadable_length h]
  omega

theorem compact_peekReadable {b : Buffer} (h : b.Wf) :
    b.compact.peekReadable = b.peekReadable := by
  change ((b.peekReadable ++ _).drop 0).take (b.readableBytes - 0) = _
  rw [List.drop_zero, Nat.sub_zero, ← peekReadable_length h, List.take_left']
  rfl

/-- `MakeSpace` keeps the readable bytes and leaves room for `len` more. -/
theorem makeSpace_spec {b : Buffer} (h : b.Wf) (len : Nat) :
    (b.makeSpace len).Wf ∧ (b.makeSpace len).peekReadable = b.peekReadable ∧
      len ≤ (b.makeSpace len).writableBytes := by
  unfold makeSpace
  by_cases room : len ≤ b.writableBytes
  · rw [if_pos room]
    exact ⟨h, rfl, room⟩
  rw [if_neg room]
  by_cases front : len ≤ b.readPos + b.writableBytes
  · rw [if_pos front]
    by_cases moved : len ≤ b.compact.writableBytes
    · simp only [if_pos moved]
      exact ⟨compact_wf h, compact_peekReadable h, moved⟩
    · simp only [if_neg moved]
      exact ⟨grow_wf (compact_wf h) len,
        (grow_peekReadable (compact_wf h) len).trans (compact_peekReadable h), grow_room len⟩
  · rw [if_neg front]
    exact ⟨grow_wf h len, grow_peekReadable h len, grow_room len⟩

theorem append_wf {b : Buffer} (h : b.Wf) (data : Str) : (b.append data).Wf := by
  obtain ⟨hw, _, hroom⟩ := makeSpace_spec h data.length
  have hc := hw.cursors
  have hi := hw.inside
  constructor
  · simp only [append]
    omega
  · simp only [append, List.length_append, List.length_take, List.length_drop]
    omega

theorem append_peekReadable {b : Buffer} (h : b.Wf) (data : Str) :
    (b.append data).peekReadable = b.peekReadable ++ data := by
  obtain ⟨hw, hpeek, hroom⟩ := makeSpace_spec h data.length
  rw [← hpeek]
  simp only [append]
  generalize b.makeSpace data.length = m at hw hroom
  have hc := hw.cursors
  have hi := hw.inside
  have hr : m.readPos ≤ (m.storage.take m.writePos).length := by
    rw [List.length_take]
    omega
  have hl : ((m.storage.take m.writePos).drop m.readPos ++ data).length =
      m.writePos + data.length - m.readPos := by
    simp only [List.length_append, List.length_drop, List.length_take]
    omega
  have hpre : (m.storage.take m.writePos).drop m.readPos = m.peekReadable := by
    rw [peekReadable, readableBytes, List.drop_take]
  change ((m.storage.take m.writePos ++ data ++ _).drop m.readPos).take
    (m.writePos + data.length - m.readPos) = _
  rw [List.append_assoc, List.drop_append_of_le_length hr, ← List.append_assoc, ← hl,
    List.take_left, hpre]

theorem rewind_wf {b : Buffer} (h : b.Wf) : b.rewind.Wf := by
  unfold rewind
  split
  · exact clear_wf b
  · exact h

theorem rewind_peekReadable (b : Buffer) : b.rewind.peekReadable = b.peekReadable := by
  unfold rewind
  split
  · rename_i same
    simp [peekReadable, readableBytes, clear, same]
  · rfl

theorem consume_readableBytes (b : Buffer) (len : Nat) :
    (b.consume len).readableBytes = b.readableBytes - len := by
  unfold consume rewind
  split
  · rename_i same
    simp only [readableBytes] at same
    simp only [clear, readableBytes]
    omega
  · simp only [readableBytes]
    omega

theorem consume_wf {b : Buffer} (h : b.Wf) (len : Nat) : (b.consume len).Wf := by
  apply rewind_wf
  refine ⟨?_, h.inside⟩
  have := h.cursors
  simp only [readableBytes]
  omega

theorem consume_peekReadable {b : Buffer} (h : b.Wf) (len : Nat) :
    (b.consume len).peekReadable = b.peekReadable.drop len := by
  have hl := peekReadable_length h
  have hdrop : b.peekReadable.drop len = b.peekReadable.drop (min len b.readableBytes) := by
    by_cases few : len ≤ b.readableBytes
    · rw [Nat.min_eq_left few]
    · rw [Nat.min_eq_right (by omega), List.drop_eq_nil_of_le (by omega),
        List.drop_eq_nil_of_le (by omega)]
  rw [consume, rewind_peekReadable, hdrop]
  generalize hn : min len b.readableBytes = n
  simp only [peekReadable, readableBytes, List.drop_take, List.drop_drop]
  congr 1
  omega

end Buffer

end WebServer
