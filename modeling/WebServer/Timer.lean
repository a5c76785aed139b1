import Mathlib.Algebra.Ring.Int.Defs
import Mathlib.Algebra.Ring.Nat
import WebServer.KeyedList

/-!
# Timer

The heap of timer nodes and the index of every descriptor in it. The clock is read
by the caller of the model: an operation that reads it takes the reading as an
argument, and `getNextTick` takes two. A callback is data here, and `tick` answers
the nodes it has removed; a callback that is not empty is called right after its
node has gone. The sifting loops and `tick` have fuel for every node of the heap.
-/

namespace WebServer

universe u

open KeyedList

structure TimerNode (γ : Type u) where
  fd : Int
  expire : Nat
  cb : Option γ
  deriving DecidableEq, Repr

/-- `ref_` gives the index of the node of a descriptor. -/
structure Timer (γ : Type u) where
  heap : List (TimerNode γ) := []
  ref : Dict Int Nat := .empty

namespace Timer

variable {γ : Type u}

/-- `GetMs() + timeoutMs`, in 64 bits without sign. -/
def expireAt (now : Nat) (timeoutMs : Int) : Nat := ((now + timeoutMs) % 2 ^ 64).toNat

/-- `heap_[i].expire < heap_[j].expire` -/
def before (t : Timer γ) (i j : Nat) : Bool :=
  match t.heap[i]?, t.heap[j]? with
  | some a, some b => a.expire < b.expire
  | _, _ => false

def swapNode (t : Timer γ) (i j : Nat) : Timer γ :=
  match t.heap[i]?, t.heap[j]? with
  | some a, some b =>
    { heap := (t.heap.set i b).set j a
      ref := (t.ref.insert b.fd i).insert a.fd j }
  | _, _ => t

def siftUpLoop : Nat → Timer γ → Nat → Timer γ
  | 0, t, _ => t
  | fuel + 1, t, i =>
    let parent := (i - 1) / 2
    if 0 < i ∧ t.before i parent then siftUpLoop fuel (t.swapNode parent i) parent else t

def siftUp (t : Timer γ) (i : Nat) : Timer γ := siftUpLoop i t i

/-- The position of the least of `i` and its children, `i` before `left` before `right`. -/
def smallest (t : Timer γ) (i : Nat) : Nat :=
  let left := i * 2 + 1
  let right := i * 2 + 2
  let s := if left < t.heap.length ∧ t.before left i then left else i
  if right < t.heap.length ∧ t.before right s then right else s

def siftDownLoop : Nat → Timer γ → Nat → Timer γ
  | 0, t, _ => t
  | fuel + 1, t, i =>
    let s := t.smallest i
    if s = i then t else siftDownLoop fuel (t.swapNode i s) s

def siftDown (t : Timer γ) (i : Nat) : Timer γ := siftDownLoop t.heap.length t i

def add (t : Timer γ) (now : Nat) (fd timeoutMs : Int) (cb : Option γ) : Timer γ :=
  let expire := expireAt now timeoutMs
  match t.ref.find fd with
  | some idx =>
    let t := { t with heap := t.heap.modify idx fun node => { node with expire, cb } }
    (t.siftDown idx).siftUp idx
  | none =>
    let idx := t.heap.length
    siftUp { heap := t.heap ++ [⟨fd, expire, cb⟩], ref := t.ref.insert fd idx } idx

def adjust (t : Timer γ) (now : Nat) (fd timeoutMs : Int) : Timer γ :=
  match t.ref.find fd with
  | none => t
  | some idx =>
    let expire := expireAt now timeoutMs
    let t := { t with heap := t.heap.modify idx fun node => { node with expire } }
    (t.siftDown idx).siftUp idx

/-- `heap_.pop_back()` and `ref_.erase(fd)` -/
def popBack (t : Timer γ) (fd : Int) : Timer γ :=
  { heap := t.heap.dropLast, ref := t.ref.erase fd }

def delete (t : Timer γ) (fd : Int) : Timer γ :=
  match t.ref.find fd with
  | none => t
  | some idx =>
    let last := t.heap.length - 1
    if idx < last then (((t.swapNode idx last).popBack fd).siftDown idx).siftUp idx
    else t.popBack fd

/-- The timer left, and the nodes removed in the order in which they went. -/
def tickLoop (now : Nat) : Nat → Timer γ → Timer γ × List (TimerNode γ)
  | 0, t => (t, [])
  | fuel + 1, t =>
    match t.heap.head? with
    | none => (t, [])
    | some node =>
      if now < node.expire then (t, [])
      else
        let (left, fired) := tickLoop now fuel (t.delete node.fd)
        (left, node :: fired)

def tick (t : Timer γ) (now : Nat) : Timer γ × List (TimerNode γ) :=
  tickLoop now t.heap.length t

/-- `static_cast<int>(expire - GetMs())`, with the difference in 64 bits without sign. -/
def remaining (expire now : Nat) : Int := (((expire : Int) - now) % 2 ^ 64).bmod (2 ^ 32)

/-- The clock is read as `now` for `Tick` and as `later` for the difference. -/
def getNextTick (t : Timer γ) (now later : Nat) : Timer γ × List (TimerNode γ) × Int :=
  let (left, fired) := t.tick now
  match left.heap.head? with
  | none => (left, fired, -1)
  | some node =>
    let res := remaining node.expire later
    (left, fired, if 0 < res then res else 0)

end Timer

end WebServer
