import Mathlib.Logic.Equiv.Basic
import Mathlib.Order.BoundedOrder.Basic
import Mathlib.Order.Lattice

/-!
# Binary heap order

The keys of a binary heap are a function of the position, and a position outside the
heap carries the greatest key. After one key was replaced, order may fail on both
sides of its position; a descent and then an ascent from that position restore it,
whether the new key is smaller or larger than the old one.
-/

namespace HeapOrder

universe u

variable {T : Type u} [LinearOrder T]

def parent (j : ℕ) : ℕ := (j - 1) / 2

theorem parent_lt {j : ℕ} (h : 0 < j) : parent j < j := by
  unfold parent
  omega

theorem children {c i : ℕ} (hpos : 0 < c) (h : parent c = i) : c = 2 * i + 1 ∨ c = 2 * i + 2 := by
  unfold parent at h
  omega

def Ordered (k : ℕ → T) : Prop := ∀ j, 0 < j → k (parent j) ≤ k j

/-- Order may fail next to `i` only, and the children of `i` are not below its parent. -/
structure Hole (k : ℕ → T) (i : ℕ) : Prop where
  elsewhere : ∀ j, 0 < j → j ≠ i → parent j ≠ i → k (parent j) ≤ k j
  bridge : 0 < i → ∀ j, 0 < j → parent j = i → k (parent i) ≤ k j

/-- Order may fail between `i` and its parent only. -/
structure UpTo (k : ℕ → T) (i : ℕ) : Prop extends Hole k i where
  below : ∀ j, 0 < j → parent j = i → k i ≤ k j

/-- Order may fail between `i` and its children only. -/
structure DownFrom (k : ℕ → T) (i : ℕ) : Prop extends Hole k i where
  above : 0 < i → k (parent i) ≤ k i

/-- Key `i` is exchanged with its least child until no child is smaller. -/
inductive Sinks : (ℕ → T) → ℕ → (ℕ → T) → Prop
  | stay {k : ℕ → T} {i : ℕ} (least : ∀ j, 0 < j → parent j = i → k i ≤ k j) : Sinks k i k
  | swap {k k' : ℕ → T} {i s : ℕ} (pos : 0 < s) (child : parent s = i) (smaller : k s < k i)
      (least : ∀ j, 0 < j → parent j = i → k s ≤ k j)
      (rest : Sinks (k ∘ Equiv.swap i s) s k') : Sinks k i k'

/-- Key `i` is exchanged with its parent until the parent is not larger. -/
inductive Rises : (ℕ → T) → ℕ → (ℕ → T) → Prop
  | stay {k : ℕ → T} {i : ℕ} (above : 0 < i → k (parent i) ≤ k i) : Rises k i k
  | swap {k k' : ℕ → T} {i : ℕ} (pos : 0 < i) (smaller : k i < k (parent i))
      (rest : Rises (k ∘ Equiv.swap (parent i) i) (parent i) k') : Rises k i k'

/-! ## What each step needs and leaves -/

theorem Ordered.upTo {k : ℕ → T} (h : Ordered k) (i : ℕ) : UpTo k i where
  elsewhere j hj _ _ := h j hj
  bridge hi j hj hchild := (h i hi).trans (hchild ▸ h j hj)
  below j hj hchild := hchild ▸ h j hj

theorem UpTo.stop {k : ℕ → T} {i : ℕ} (h : UpTo k i) (above : 0 < i → k (parent i) ≤ k i) :
    Ordered k := by
  intro j hj
  by_cases hji : j = i
  · subst hji
    exact above hj
  · by_cases hchild : parent j = i
    · rw [hchild]
      exact h.below j hj hchild
    · exact h.elsewhere j hj hji hchild

theorem Hole.stay {k : ℕ → T} {i : ℕ} (h : Hole k i)
    (least : ∀ j, 0 < j → parent j = i → k i ≤ k j) : UpTo k i := ⟨h, least⟩

theorem DownFrom.stop {k : ℕ → T} {i : ℕ} (h : DownFrom k i)
    (least : ∀ j, 0 < j → parent j = i → k i ≤ k j) : Ordered k :=
  (h.toHole.stay least).stop h.above

section Swap

omit [LinearOrder T]

variable {k : ℕ → T} {i s j : ℕ}

theorem swap_left : (k ∘ Equiv.swap i s) i = k s := by simp

theorem swap_right : (k ∘ Equiv.swap i s) s = k i := by simp

theorem swap_other (hi : j ≠ i) (hs : j ≠ s) : (k ∘ Equiv.swap i s) j = k j := by
  simp [Equiv.swap_apply_of_ne_of_ne hi hs]

end Swap

/-- The least child takes the place of its parent, and the larger key is now above the
child's own children. -/
theorem Hole.swap {k : ℕ → T} {i s : ℕ} (h : Hole k i) (pos : 0 < s) (child : parent s = i)
    (smaller : k s < k i) (least : ∀ j, 0 < j → parent j = i → k s ≤ k j) :
    DownFrom (k ∘ Equiv.swap i s) s := by
  have his : i < s := child ▸ parent_lt pos
  refine ⟨⟨?_, ?_⟩, ?_⟩
  · intro j hj hjs hpar
    by_cases hji : j = i
    · subst hji
      have hlt := parent_lt hj
      rw [swap_left, swap_other (by omega) (by omega)]
      exact h.bridge hj s pos child
    · rw [swap_other (j := j) hji hjs]
      by_cases hchild : parent j = i
      · rw [hchild, swap_left]
        exact least j hj hchild
      · rw [swap_other hchild hpar]
        exact h.elsewhere j hj hji hchild
  · intro _ j hj hchild
    have hlt := parent_lt hj
    rw [child, swap_left, swap_other (by omega) (by omega), ← hchild]
    exact h.elsewhere j hj (by omega) (by omega)
  · intro _
    rw [child, swap_left, swap_right]
    exact smaller.le

/-- The smaller key takes the place of its parent, above both old children. -/
theorem UpTo.swap {k : ℕ → T} {i : ℕ} (h : UpTo k i) (pos : 0 < i) (smaller : k i < k (parent i)) :
    UpTo (k ∘ Equiv.swap (parent i) i) (parent i) := by
  have hlt := parent_lt pos
  have hgrand : 0 < parent i → k (parent (parent i)) ≤ k (parent i) := by
    intro hp
    have := parent_lt hp
    exact h.elsewhere (parent i) hp (by omega) (by omega)
  refine ⟨⟨?_, ?_⟩, ?_⟩
  · intro j hj hjp hpar
    by_cases hji : j = i
    · exact absurd (congrArg parent hji) hpar
    · rw [swap_other (j := j) hjp hji]
      by_cases hchild : parent j = i
      · rw [hchild, swap_right]
        exact h.bridge pos j hj hchild
      · rw [swap_other hpar hchild]
        exact h.elsewhere j hj hji hchild
  · intro hp j hj hchild
    have hplt := parent_lt hp
    have hjlt := parent_lt hj
    rw [swap_other (j := parent (parent i)) (by omega) (by omega)]
    by_cases hji : j = i
    · subst hji
      rw [swap_right]
      exact hgrand hp
    · rw [swap_other (by omega) hji]
      exact (hgrand hp).trans (hchild ▸ h.elsewhere j hj hji (by omega))
  · intro j hj hchild
    have hjlt := parent_lt hj
    rw [swap_left]
    by_cases hji : j = i
    · subst hji
      rw [swap_right]
      exact smaller.le
    · rw [swap_other (by omega) hji]
      exact smaller.le.trans (hchild ▸ h.elsewhere j hj hji (by omega))

/-! ## The whole descent and the whole ascent -/

theorem DownFrom.sinks {k k' : ℕ → T} {i : ℕ} (h : DownFrom k i) (run : Sinks k i k') :
    Ordered k' := by
  induction run with
  | stay least => exact h.stop least
  | swap pos child smaller least _ ih => exact ih (h.toHole.swap pos child smaller least)

/-- After the descent only the edge above `i` may be wrong: either `i` kept the new key,
or what came up is not below the parent and everything is in order. -/
theorem Hole.sinks {k k' : ℕ → T} {i : ℕ} (h : Hole k i) (run : Sinks k i k') : UpTo k' i := by
  cases run with
  | stay least => exact h.stay least
  | swap pos child smaller least rest =>
    exact ((h.swap pos child smaller least).sinks rest).upTo i

theorem UpTo.rises {k k' : ℕ → T} {i : ℕ} (h : UpTo k i) (run : Rises k i k') : Ordered k' := by
  induction run with
  | stay above => exact h.stop above
  | swap pos smaller _ ih => exact ih (h.swap pos smaller)

theorem Hole.restored {k k' k'' : ℕ → T} {i : ℕ} (h : Hole k i) (down : Sinks k i k')
    (up : Rises k' i k'') : Ordered k'' :=
  (h.sinks down).rises up

/-- The root carries the least key. -/
theorem Ordered.root {k : ℕ → T} (h : Ordered k) (j : ℕ) : k 0 ≤ k j := by
  induction j using Nat.strongRecOn with
  | ind j ih =>
    by_cases hj : 0 < j
    · exact (ih (parent j) (parent_lt hj)).trans (h j hj)
    · have hzero : j = 0 := by omega
      subst hzero
      exact le_rfl

/-! ## Replacing one key -/

theorem Ordered.replace {k : ℕ → T} (h : Ordered k) (i : ℕ) (x : T) :
    Hole (Function.update k i x) i where
  elsewhere j hj hji hpar := by
    rw [Function.update_of_ne hji, Function.update_of_ne hpar]
    exact h j hj
  bridge hi j hj hchild := by
    have hlt := parent_lt hj
    have hplt := parent_lt hi
    rw [Function.update_of_ne (by omega), Function.update_of_ne (by omega)]
    exact (h.upTo i).bridge hi j hj hchild

section Top

variable [OrderTop T]

/-- A leaf leaves the heap. -/
theorem Ordered.shrink {k : ℕ → T} (h : Ordered k) {n : ℕ}
    (leaf : ∀ j, 0 < j → parent j = n → k j = ⊤) : Ordered (Function.update k n ⊤) := by
  intro j hj
  by_cases hjn : j = n
  · rw [hjn, Function.update_self]
    exact le_top
  · rw [Function.update_of_ne hjn]
    by_cases hpar : parent j = n
    · rw [leaf j hj hpar]
      exact le_top
    · rw [Function.update_of_ne hpar]
      exact h j hj

/-- A key enters the heap as a leaf. -/
theorem Ordered.grow {k : ℕ → T} (h : Ordered k) {n : ℕ}
    (leaf : ∀ j, 0 < j → parent j = n → k j = ⊤) (x : T) : UpTo (Function.update k n x) n where
  toHole := h.replace n x
  below j hj hchild := by
    have hlt := parent_lt hj
    have hjn : j ≠ n := by omega
    rw [Function.update_of_ne hjn, leaf j hj hchild]
    exact le_top

end Top

end HeapOrder
