import WebServer.DataRefinement

/-!
# First-in first-out queues

A queue is the list of its elements, oldest first. Elements are pushed in blocks and
popped by number; what is popped is released in order. Nothing is lost: what was
pushed is what was released followed by what is left.
-/

namespace FifoQueue

universe u

variable {α : Type u}

inductive Op (α : Type u) where
  | push (block : List α)
  | pop (count : Nat)
  | popAll

/-- The next queue and the elements released. -/
def step (q : List α) : Op α → List α × List α
  | .push block => (q ++ block, [])
  | .pop count => (q.drop count, q.take count)
  | .popAll => ([], q)

/-- What the operations push. -/
def pushed (ops : List (Op α)) : List α :=
  ops.flatMap fun | .push block => block | _ => []

theorem step_balance (q : List α) (op : Op α) :
    (step q op).2 ++ (step q op).1 = q ++ pushed [op] := by
  cases op with
  | push block => simp [step, pushed]
  | pop count => simp [step, pushed]
  | popAll => simp [step, pushed]

/-- Everything pushed has been released, in order, or is still there. -/
theorem run_balance (q : List α) (ops : List (Op α)) :
    (DataRefinement.run step q ops).2.flatten ++ (DataRefinement.run step q ops).1 =
      q ++ pushed ops := by
  induction ops generalizing q with
  | nil => simp [DataRefinement.run, pushed]
  | cons op ops ih =>
    have hpushed : pushed (op :: ops) = pushed [op] ++ pushed ops := by simp [pushed]
    rw [DataRefinement.run_cons, List.flatten_cons, List.append_assoc, ih, ← List.append_assoc,
      step_balance, hpushed, List.append_assoc]

end FifoQueue
