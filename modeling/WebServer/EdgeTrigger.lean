import Mathlib.Data.Finset.Basic

/-!
# Edge-triggered readiness

An object has a set of events that are up. A watch is set on some of them and is told of
each only once: a report gives what is up and of interest, and there is no further report
until an event is raised anew or the watch is set again. The watcher keeps the events it
was told of and has not handled.

`Noticed` is what keeps such a watcher from waiting for an event that is already up. It is
restored by setting the watch, whatever happened before; handling an event without setting
the watch has to bring the event down.
-/

namespace EdgeTrigger

universe u

variable {E : Type u} [DecidableEq E]

/-- The events of interest, and whether there is something to report. -/
structure Watch (E : Type u) where
  interest : Finset E
  listed : Bool

namespace Watch

/-- Some events are raised. -/
def wake (w : Watch E) (raised : Finset E) : Watch E :=
  { w with listed := w.listed || decide (w.interest ∩ raised).Nonempty }

/-- Set the watch; what is up at that moment counts as raised. -/
def set (interest up : Finset E) (w : Watch E) : Watch E :=
  { interest, listed := w.listed || decide (interest ∩ up).Nonempty }

def report (w : Watch E) (up : Finset E) : Finset E × Watch E :=
  (if w.listed then w.interest ∩ up else ∅, { w with listed := false })

/-- Of the events of interest that are up, each is told or about to be. -/
def Noticed (w : Watch E) (up told : Finset E) : Prop :=
  w.listed = false → w.interest ∩ up ⊆ told

variable {w : Watch E} {up up' told : Finset E}

@[simp] theorem wake_interest (w : Watch E) (raised : Finset E) :
    (w.wake raised).interest = w.interest := rfl

@[simp] theorem set_interest (interest up : Finset E) (w : Watch E) :
    (w.set interest up).interest = interest := rfl

@[simp] theorem report_interest (w : Watch E) (up : Finset E) :
    (w.report up).2.interest = w.interest := rfl

theorem noticed_wake {raised : Finset E} (h : w.Noticed up told) (rise : up' ⊆ up ∪ raised) :
    (w.wake raised).Noticed up' told := by
  intro hlisted
  obtain ⟨hquiet, hnone⟩ := Bool.or_eq_false_iff.mp hlisted
  rw [decide_eq_false_iff_not, Finset.not_nonempty_iff_eq_empty] at hnone
  intro e he
  obtain ⟨hinterest, hup⟩ := Finset.mem_inter.mp he
  rcases Finset.mem_union.mp (rise hup) with hold | hraised
  · exact h hquiet (Finset.mem_inter.mpr ⟨hinterest, hold⟩)
  · have hboth : e ∈ w.interest ∩ raised := Finset.mem_inter.mpr ⟨hinterest, hraised⟩
    rw [hnone] at hboth
    exact absurd hboth (Finset.notMem_empty e)

/-- After the watch is set nothing needs to have been told. -/
theorem noticed_set (interest up told : Finset E) (w : Watch E) :
    (w.set interest up).Noticed up told := by
  intro hlisted
  obtain ⟨-, hnone⟩ := Bool.or_eq_false_iff.mp hlisted
  rw [decide_eq_false_iff_not, Finset.not_nonempty_iff_eq_empty] at hnone
  show interest ∩ up ⊆ told
  rw [hnone]
  exact Finset.empty_subset told

theorem noticed_report (h : w.Noticed up ∅) :
    (w.report up).2.Noticed up (w.report up).1 := by
  intro _
  show w.interest ∩ up ⊆ if w.listed then w.interest ∩ up else ∅
  cases hlisted : w.listed with
  | true => exact Finset.Subset.refl _
  | false => exact h hlisted

theorem noticed_fall (h : w.Noticed up told) (fall : up' ⊆ up) : w.Noticed up' told :=
  fun hlisted => (Finset.inter_subset_inter_left fall).trans (h hlisted)

/-- An event that was handled is down. -/
theorem noticed_handled {e : E} (h : w.Noticed up told) (fall : up' ⊆ up) (down : e ∉ up') :
    w.Noticed up' (told.erase e) := by
  intro hlisted e' he'
  obtain ⟨hinterest, hup⟩ := Finset.mem_inter.mp he'
  refine Finset.mem_erase.mpr ⟨?_, h hlisted (Finset.mem_inter.mpr ⟨hinterest, fall hup⟩)⟩
  rintro rfl
  exact down hup

/-- With nothing to report and nothing to handle, no event of interest is up. -/
theorem noticed_rest (h : w.Noticed up ∅) (rest : w.listed = false) {e : E}
    (he : e ∈ w.interest) : e ∉ up := by
  intro hup
  have hnone := h rest (Finset.mem_inter.mpr ⟨he, hup⟩)
  exact absurd hnone (Finset.notMem_empty e)

end Watch

end EdgeTrigger
