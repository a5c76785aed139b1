import WebServer.Buffer
import WebServer.FifoQueue

/-!
# The buffer is a queue

Any mix of the operations, from any initial size. The readable bytes are the contents
of a queue of bytes, whatever is stale before and behind the cursors, and the search
for a line end sees the readable bytes only.
-/

namespace WebServer

open DataRefinement

/-- The pair CR LF stands at this position. -/
def CrlfAt (s : Str) (n : Nat) : Prop := crlf <+: s.drop n

theorem crlfAt_zero {a b : Byte} {rest : Str} :
    CrlfAt (a :: b :: rest) 0 ↔ a = cr ∧ b = lf := by
  rw [CrlfAt, List.drop_zero, crlf, List.cons_prefix_cons, List.cons_prefix_cons]
  constructor
  · rintro ⟨rfl, rfl, -⟩
    exact ⟨rfl, rfl⟩
  · rintro ⟨rfl, rfl⟩
    exact ⟨rfl, rfl, List.nil_prefix⟩

theorem findCrlf_short {s : Str} (short : ∀ a b rest, s = a :: b :: rest → False) :
    findCrlf s = none ∧ ∀ n, ¬CrlfAt s n := by
  have hlen : s.length < 2 := by
    match s, short with
    | [], _ => exact Nat.zero_lt_two
    | [a], _ => exact Nat.one_lt_two
    | a :: b :: rest, short => exact absurd rfl (short a b rest)
  constructor
  · rw [findCrlf]
    exact short
  · intro n hat
    have hle : crlf.length ≤ (s.drop n).length := hat.length_le
    rw [List.length_drop, show crlf.length = 2 from rfl] at hle
    omega

theorem findCrlf_none_iff {s : Str} : findCrlf s = none ↔ ∀ n, ¬CrlfAt s n := by
  induction s using findCrlf.induct with
  | case1 a b rest hit =>
    rw [findCrlf, if_pos hit]
    exact iff_of_false (Option.some_ne_none 0) fun hall => hall 0 (crlfAt_zero.mpr hit)
  | case2 a b rest miss ih =>
    rw [findCrlf, if_neg miss, Option.map_eq_none_iff, ih]
    constructor
    · intro hall n
      cases n with
      | zero => exact fun hat => miss (crlfAt_zero.mp hat)
      | succ n => exact hall n
    · exact fun hall n => hall (n + 1)
  | case3 s short =>
    obtain ⟨hnone, hnot⟩ := findCrlf_short short
    exact iff_of_true hnone hnot

theorem findCrlf_some_iff {s : Str} {n : Nat} :
    findCrlf s = some n ↔ CrlfAt s n ∧ ∀ m, m < n → ¬CrlfAt s m := by
  induction s using findCrlf.induct generalizing n with
  | case1 a b rest hit =>
    rw [findCrlf, if_pos hit, Option.some_inj]
    constructor
    · rintro rfl
      exact ⟨crlfAt_zero.mpr hit, fun m hm => absurd hm (Nat.not_lt_zero m)⟩
    · rintro ⟨-, hfirst⟩
      by_contra hne
      exact hfirst 0 (Nat.pos_of_ne_zero (Ne.symm hne)) (crlfAt_zero.mpr hit)
  | case2 a b rest miss ih =>
    rw [findCrlf, if_neg miss, Option.map_eq_some_iff]
    constructor
    · rintro ⟨m, hm, rfl⟩
      obtain ⟨hat, hfirst⟩ := ih.mp hm
      refine ⟨hat, ?_⟩
      intro k hk
      cases k with
      | zero => exact fun hzero => miss (crlfAt_zero.mp hzero)
      | succ k => exact hfirst k (Nat.lt_of_succ_lt_succ hk)
    · rintro ⟨hat, hfirst⟩
      cases n with
      | zero => exact absurd (crlfAt_zero.mp hat) miss
      | succ n => exact ⟨n, ih.mpr ⟨hat, fun k hk => hfirst (k + 1) (Nat.succ_lt_succ hk)⟩, rfl⟩
  | case3 s short =>
    obtain ⟨hnone, hnot⟩ := findCrlf_short short
    rw [hnone]
    exact iff_of_false (Option.some_ne_none n).symm fun hat => hnot n hat.1

/-! ## Operations -/

inductive BufferOp where
  | append (data : Str)
  | retrieve (len : Nat)
  | retrieveAll
  | consume (len : Nat)
  | clear

namespace BufferOp

/-- What the operation does to a queue. -/
def queued : BufferOp → FifoQueue.Op Byte
  | .append data => .push data
  | .retrieve len => .pop len
  | .retrieveAll => .popAll
  | .consume len => .pop len
  | .clear => .popAll

/-- What a caller is handed of the bytes removed. -/
def returned (op : BufferOp) (removed : Str) : Option Str :=
  match op with
  | .retrieve _ => some removed
  | .retrieveAll => some removed
  | _ => none

end BufferOp

namespace Buffer

def apply (b : Buffer) : BufferOp → Buffer × Option Str
  | .append data => (b.append data, none)
  | .retrieve len => ((b.retrieve len).2, some (b.retrieve len).1)
  | .retrieveAll => (b.retrieveAll.2, some b.retrieveAll.1)
  | .consume len => (b.consume len, none)
  | .clear => (b.clear, none)

/-- The queue as its caller sees it. -/
def queueStep (q : Str) (op : BufferOp) : Str × Option Str :=
  ((FifoQueue.step q op.queued).1, op.returned (FifoQueue.step q op.queued).2)

/-- The range that `Append` copies to lies inside the storage. -/
theorem append_inside {b : Buffer} (h : b.Wf) (data : Str) :
    (b.makeSpace data.length).writePos + data.length ≤
      (b.makeSpace data.length).storage.length := by
  obtain ⟨hwf, -, hroom⟩ := makeSpace_spec h data.length
  have hinside := hwf.inside
  rw [writableBytes] at hroom
  omega

theorem retrieve_fst {b : Buffer} (h : b.Wf) (len : Nat) :
    (b.retrieve len).1 = b.peekReadable.take len := by
  rw [retrieve, ← peekReadable_length h, List.take_eq_take_iff, Nat.min_assoc, Nat.min_self]

/-- Each operation does to the readable bytes what it does to the queue. -/
theorem apply_simulates :
    Simulates apply queueStep (fun b q => b.Wf ∧ b.peekReadable = q) Eq := by
  rintro b q op ⟨hwf, rfl⟩
  cases op with
  | append data => exact ⟨⟨append_wf hwf data, append_peekReadable hwf data⟩, rfl⟩
  | retrieve len =>
    exact ⟨⟨consume_wf hwf len, consume_peekReadable hwf len⟩, congrArg some (retrieve_fst hwf len)⟩
  | retrieveAll => exact ⟨⟨clear_wf b, clear_peekReadable b⟩, rfl⟩
  | consume len => exact ⟨⟨consume_wf hwf len, consume_peekReadable hwf len⟩, rfl⟩
  | clear => exact ⟨⟨clear_wf b, clear_peekReadable b⟩, rfl⟩

theorem run_queueStep (q : Str) (ops : List BufferOp) :
    run queueStep q ops =
      ((run FifoQueue.step q (ops.map (·.queued))).1,
        List.zipWith BufferOp.returned ops (run FifoQueue.step q (ops.map (·.queued))).2) := by
  induction ops generalizing q with
  | nil => rfl
  | cons op ops ih => rw [run_cons, ih, List.map_cons, run_cons, List.zipWith_cons_cons, queueStep]

/-- The state of a buffer that holds this queue. -/
structure IsQueue (b : Buffer) (q : Str) : Prop where
  wf : b.Wf
  readable : b.peekReadable = q
  counted : b.readableBytes = q.length
  inside : ∀ data : Str, (b.makeSpace data.length).writePos + data.length ≤
    (b.makeSpace data.length).storage.length
  noLine : b.findCRLF = none ↔ ∀ n, ¬CrlfAt q n
  line : ∀ n, b.findCRLF = some n ↔ CrlfAt q n ∧ ∀ m, m < n → ¬CrlfAt q m

theorem isQueue_readable {b : Buffer} (h : b.Wf) : b.IsQueue b.peekReadable :=
  ⟨h, rfl, (peekReadable_length h).symm, append_inside h, findCrlf_none_iff,
    fun _ => findCrlf_some_iff⟩

/-- After any operations the buffer holds the queue that the same operations make, has
returned what that queue released, and no byte appended is lost or moved. -/
theorem run_isQueue (initSize : Nat) (ops : List BufferOp) :
    let out := run apply (new initSize) ops
    let queue := run FifoQueue.step [] (ops.map (·.queued))
    IsQueue out.1 queue.1 ∧ out.2 = List.zipWith BufferOp.returned ops queue.2 ∧
      queue.2.flatten ++ out.1.peekReadable = FifoQueue.pushed (ops.map (·.queued)) := by
  intro out queue
  obtain ⟨⟨hwf, hreadable⟩, houts⟩ := run_simulates apply_simulates
    ⟨new_wf initSize, new_peekReadable initSize⟩ ops
  rw [run_queueStep] at hreadable houts
  have hqueue : out.1.peekReadable = queue.1 := hreadable
  refine ⟨hqueue ▸ isQueue_readable hwf, ?_, ?_⟩
  · rwa [List.forall₂_eq_eq_eq] at houts
  · rw [hqueue]
    exact (FifoQueue.run_balance [] _).trans (List.nil_append _)

/-- A compaction in between: room for four bytes, and five appended after two are gone. -/
example : (run apply (new 4) [.append [1, 2, 13], .consume 2, .append [10, 3], .retrieve 9]).2 =
    [none, none, none, some [13, 10, 3]] := by
  decide +kernel

end Buffer

end WebServer
