import Mathlib.Data.List.Forall2

/-!
# Runs of machines with outputs

A machine answers every operation with a next state and an output. A simulation
relates the states of two machines and their outputs, one operation at a time; the
two runs of one list of operations are then related as a whole. Neither machine is
assumed to be finite or to have a distinguished start.
-/

namespace DataRefinement

universe u v w x y

variable {σ : Type u} {τ : Type v} {ι : Type w} {ο : Type x} {π : Type y}

/-- The state after the operations, and their outputs in order. -/
def run (step : σ → ι → σ × ο) : σ → List ι → σ × List ο
  | s, [] => (s, [])
  | s, i :: is =>
    let (s', o) := step s i
    let (last, os) := run step s' is
    (last, o :: os)

theorem run_cons (step : σ → ι → σ × ο) (s : σ) (i : ι) (is : List ι) :
    run step s (i :: is) =
      ((run step (step s i).1 is).1, (step s i).2 :: (run step (step s i).1 is).2) := rfl

/-- A machine that reads its operations through a function runs the operations so read. -/
theorem run_map {κ : Type*} (step : σ → ι → σ × ο) (f : κ → ι) (s : σ) (ks : List κ) :
    run (fun s k => step s (f k)) s ks = run step s (ks.map f) := by
  induction ks generalizing s with
  | nil => rfl
  | cons k ks ih => rw [run_cons, ih, List.map_cons, run_cons]

/-- Related states stay related and give related outputs. -/
def Simulates (concrete : σ → ι → σ × ο) (abstract : τ → ι → τ × π) (R : σ → τ → Prop)
    (Q : ο → π → Prop) : Prop :=
  ∀ s t i, R s t → R (concrete s i).1 (abstract t i).1 ∧ Q (concrete s i).2 (abstract t i).2

theorem run_simulates {concrete : σ → ι → σ × ο} {abstract : τ → ι → τ × π}
    {R : σ → τ → Prop} {Q : ο → π → Prop} (sim : Simulates concrete abstract R Q) {s : σ} {t : τ}
    (related : R s t) (is : List ι) :
    R (run concrete s is).1 (run abstract t is).1 ∧
      List.Forall₂ Q (run concrete s is).2 (run abstract t is).2 := by
  induction is generalizing s t with
  | nil => exact ⟨related, .nil⟩
  | cons i is ih =>
    obtain ⟨hnext, hout⟩ := sim s t i related
    obtain ⟨hlast, hrest⟩ := ih hnext
    exact ⟨hlast, .cons hout hrest⟩

end DataRefinement
