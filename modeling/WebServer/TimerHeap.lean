import Mathlib.Data.Nat.Cast.Order.Basic
import Mathlib.Order.WithBot
import WebServer.DataRefinement
import WebServer.HeapOrder
import WebServer.Timer

/-!
# The timer against its table

The timer stands for a finite map from descriptors to expiries and callbacks. The
heap is read as keys of positions, with `⊤` outside; the sifting loops are the
descent and the ascent of those keys. Expiries may be equal, descriptors and
timeouts are arbitrary, and the clock may read anything at any call.
-/

namespace WebServer

universe u

open KeyedList HeapOrder

namespace Timer

variable {γ : Type u}

/-- The expiry at every position of a heap. -/
def keys (l : List (TimerNode γ)) (i : ℕ) : WithTop ℕ :=
  match l[i]? with
  | some node => WithTop.some node.expire
  | none => ⊤

/-- `ref_` gives exactly the positions of the descriptors in the heap. -/
def Indexed (t : Timer γ) : Prop :=
  ∀ fd i, t.ref.find fd = some i ↔ ∃ node, t.heap[i]? = some node ∧ node.fd = fd

/-- The same nodes in another order, with the index kept in step. -/
structure Shuffled (t t' : Timer γ) : Prop where
  members : ∀ node, node ∈ t'.heap ↔ node ∈ t.heap
  length : t'.heap.length = t.heap.length
  indexed : t.Indexed → t'.Indexed

theorem Shuffled.refl (t : Timer γ) : Shuffled t t := ⟨fun _ => Iff.rfl, rfl, id⟩

theorem Shuffled.trans {t t' t'' : Timer γ} (h : Shuffled t t') (h' : Shuffled t' t'') :
    Shuffled t t'' where
  members node := (h'.members node).trans (h.members node)
  length := h'.length.trans h.length
  indexed hindexed := h'.indexed (h.indexed hindexed)

theorem keys_of_lookup {l : List (TimerNode γ)} {i : ℕ} {node : TimerNode γ}
    (h : l[i]? = some node) : keys l i = WithTop.some node.expire := by
  simp [keys, h]

theorem keys_outside {l : List (TimerNode γ)} {i : ℕ} (h : l.length ≤ i) : keys l i = ⊤ := by
  simp [keys, List.getElem?_eq_none h]

/-! ## Swapping two nodes -/

section Swap

variable {t : Timer γ} {i j : ℕ}

theorem swapNode_eq {a b : TimerNode γ} (hi : t.heap[i]? = some a) (hj : t.heap[j]? = some b) :
    t.swapNode i j = { heap := (t.heap.set i b).set j a
                       ref := (t.ref.insert b.fd i).insert a.fd j } := by
  simp only [swapNode, hi, hj]

theorem swapNode_lookup (hi : i < t.heap.length) (hj : j < t.heap.length) (m : ℕ) :
    (t.swapNode i j).heap[m]? = t.heap[Equiv.swap i j m]? := by
  have ha := List.getElem?_eq_getElem hi
  have hb := List.getElem?_eq_getElem hj
  rw [swapNode_eq ha hb]
  by_cases hmj : m = j
  · subst hmj
    rw [Equiv.swap_apply_right, ha, List.getElem?_set_self (by simpa using hj)]
  · rw [List.getElem?_set_ne (Ne.symm hmj)]
    by_cases hmi : m = i
    · subst hmi
      rw [Equiv.swap_apply_left, hb, List.getElem?_set_self hi]
    · rw [List.getElem?_set_ne (Ne.symm hmi), Equiv.swap_apply_of_ne_of_ne hmi hmj]

theorem swapNode_length (t : Timer γ) (i j : ℕ) :
    (t.swapNode i j).heap.length = t.heap.length := by
  unfold swapNode
  split
  · simp
  · rfl

theorem swapNode_keys (hi : i < t.heap.length) (hj : j < t.heap.length) :
    keys (t.swapNode i j).heap = keys t.heap ∘ Equiv.swap i j := by
  funext m
  simp only [keys, Function.comp_apply, swapNode_lookup hi hj]

/-- Only the two descriptors that have moved change their position. -/
theorem swapNode_indexed (hi : i < t.heap.length) (hj : j < t.heap.length) (h : t.Indexed) :
    (t.swapNode i j).Indexed := by
  have ha := List.getElem?_eq_getElem hi
  have hb := List.getElem?_eq_getElem hj
  have hfind : ∀ fd, (t.swapNode i j).ref.find fd = (t.ref.find fd).map (Equiv.swap i j) := by
    intro fd
    have hai : t.ref.find t.heap[i].fd = some i := (h _ i).mpr ⟨_, ha, rfl⟩
    have hbj : t.ref.find t.heap[j].fd = some j := (h _ j).mpr ⟨_, hb, rfl⟩
    rw [swapNode_eq ha hb]
    by_cases hfa : fd = t.heap[i].fd
    · rw [hfa, Dict.find_insert_self, hai, Option.map_some, Equiv.swap_apply_left]
    · rw [Dict.find_insert_ne _ hfa]
      by_cases hfb : fd = t.heap[j].fd
      · rw [hfb, Dict.find_insert_self, hbj, Option.map_some, Equiv.swap_apply_right]
      · rw [Dict.find_insert_ne _ hfb]
        cases hold : t.ref.find fd with
        | none => rfl
        | some m =>
          obtain ⟨node, hnode, hfd⟩ := (h fd m).mp hold
          have hmi : m ≠ i := by
            rintro rfl
            rw [ha] at hnode
            exact hfa (hfd.symm.trans (congrArg TimerNode.fd (Option.some.inj hnode)).symm)
          have hmj : m ≠ j := by
            rintro rfl
            rw [hb] at hnode
            exact hfb (hfd.symm.trans (congrArg TimerNode.fd (Option.some.inj hnode)).symm)
          rw [Option.map_some, Equiv.swap_apply_of_ne_of_ne hmi hmj]
  intro fd m
  rw [hfind, swapNode_lookup hi hj, ← h fd (Equiv.swap i j m), Option.map_eq_some_iff]
  constructor
  · rintro ⟨m', hm', rfl⟩
    rw [Equiv.swap_apply_self, hm']
  · intro hm
    exact ⟨_, hm, Equiv.swap_apply_self i j m⟩

theorem swapNode_shuffled (hi : i < t.heap.length) (hj : j < t.heap.length) :
    Shuffled t (t.swapNode i j) where
  members node := by
    simp only [List.mem_iff_getElem?]
    constructor
    · rintro ⟨m, hm⟩
      exact ⟨_, (swapNode_lookup hi hj m).symm.trans hm⟩
    · rintro ⟨m, hm⟩
      refine ⟨Equiv.swap i j m, ?_⟩
      rw [swapNode_lookup hi hj, Equiv.swap_apply_self]
      exact hm
  length := swapNode_length t i j
  indexed := swapNode_indexed hi hj

end Swap

/-! ## The sifting loops -/

theorem before_true {t : Timer γ} {i j : ℕ} (h : t.before i j = true) :
    i < t.heap.length ∧ j < t.heap.length ∧ keys t.heap i < keys t.heap j := by
  unfold before at h
  split at h
  · next a b ha hb =>
    obtain ⟨hi, -⟩ := List.getElem?_eq_some_iff.mp ha
    obtain ⟨hj, -⟩ := List.getElem?_eq_some_iff.mp hb
    refine ⟨hi, hj, ?_⟩
    rw [keys_of_lookup ha, keys_of_lookup hb]
    exact WithTop.coe_lt_coe.mpr (of_decide_eq_true h)
  · cases h

theorem before_false {t : Timer γ} {i j : ℕ} (hj : j < t.heap.length)
    (h : ¬t.before i j = true) : keys t.heap j ≤ keys t.heap i := by
  by_cases hi : i < t.heap.length
  · have ha := List.getElem?_eq_getElem hi
    have hb := List.getElem?_eq_getElem hj
    rw [keys_of_lookup ha, keys_of_lookup hb]
    simp only [before, ha, hb, decide_eq_true_eq, Nat.not_lt] at h
    exact WithTop.coe_le_coe.mpr h
  · rw [keys_outside (Nat.le_of_not_lt hi)]
    exact le_top

theorem siftUpLoop_shuffled (fuel : ℕ) (t : Timer γ) (i : ℕ) :
    Shuffled t (siftUpLoop fuel t i) := by
  induction fuel generalizing t i with
  | zero => exact .refl t
  | succ fuel ih =>
    simp only [siftUpLoop]
    split
    · next h =>
      obtain ⟨hi, hp, -⟩ := before_true h.2
      exact (swapNode_shuffled hp hi).trans (ih _ _)
    · exact .refl t

/-- With fuel for every position above, the loop is the whole ascent. -/
theorem siftUpLoop_rises {fuel i : ℕ} {t : Timer γ} (hfuel : i ≤ fuel) (hi : i < t.heap.length) :
    Rises (keys t.heap) i (keys (siftUpLoop fuel t i).heap) := by
  induction fuel generalizing t i with
  | zero => exact .stay (fun hpos => by omega)
  | succ fuel ih =>
    simp only [siftUpLoop]
    split
    · next h =>
      obtain ⟨-, hp, hlt⟩ := before_true h.2
      have hrest := ih (t := t.swapNode ((i - 1) / 2) i) (i := (i - 1) / 2) (by omega)
        (by rwa [swapNode_length])
      rw [swapNode_keys hp hi] at hrest
      exact .swap h.1 hlt hrest
    · next h =>
      refine .stay fun hpos => ?_
      exact before_false ((parent_lt hpos).trans hi) fun hbefore => h ⟨hpos, hbefore⟩

/-- What the comparisons of one round have found: `i` is not above its children, or the
least child is. -/
theorem smallest_spec (t : Timer γ) (i : ℕ) :
    (t.smallest i = i ∧ ∀ j, 0 < j → parent j = i → keys t.heap i ≤ keys t.heap j) ∨
    (i < t.heap.length ∧ t.smallest i < t.heap.length ∧ i < t.smallest i ∧
      parent (t.smallest i) = i ∧ keys t.heap (t.smallest i) < keys t.heap i ∧
      ∀ j, 0 < j → parent j = i → keys t.heap (t.smallest i) ≤ keys t.heap j) := by
  have hnot : ∀ {c s}, s < t.heap.length → ¬(c < t.heap.length ∧ t.before c s = true) →
      keys t.heap s ≤ keys t.heap c := by
    intro c s hs h
    by_cases hc : c < t.heap.length
    · exact before_false hs fun hbefore => h ⟨hc, hbefore⟩
    · rw [keys_outside (Nat.le_of_not_lt hc)]
      exact le_top
  have hchildren : ∀ k : WithTop ℕ, k ≤ keys t.heap (i * 2 + 1) → k ≤ keys t.heap (i * 2 + 2) →
      ∀ j, 0 < j → parent j = i → k ≤ keys t.heap j := by
    intro k hleft hright j hj hchild
    obtain rfl | rfl := children hj hchild
    · rwa [Nat.mul_comm 2 i]
    · rwa [Nat.mul_comm 2 i]
  by_cases hi : i < t.heap.length
  · unfold smallest
    simp only
    by_cases hl : i * 2 + 1 < t.heap.length ∧ t.before (i * 2 + 1) i = true
    · obtain ⟨-, -, hlt⟩ := before_true hl.2
      rw [if_pos hl]
      by_cases hr : i * 2 + 2 < t.heap.length ∧ t.before (i * 2 + 2) (i * 2 + 1) = true
      · obtain ⟨-, -, hrt⟩ := before_true hr.2
        rw [if_pos hr]
        exact .inr ⟨hi, hr.1, by omega, by unfold parent; omega, hrt.trans hlt,
          hchildren _ hrt.le le_rfl⟩
      · rw [if_neg hr]
        exact .inr ⟨hi, hl.1, by omega, by unfold parent; omega, hlt,
          hchildren _ le_rfl (hnot hl.1 hr)⟩
    · rw [if_neg hl]
      by_cases hr : i * 2 + 2 < t.heap.length ∧ t.before (i * 2 + 2) i = true
      · obtain ⟨-, -, hrt⟩ := before_true hr.2
        rw [if_pos hr]
        exact .inr ⟨hi, hr.1, by omega, by unfold parent; omega, hrt,
          hchildren _ (hrt.le.trans (hnot hi hl)) le_rfl⟩
      · rw [if_neg hr]
        exact .inl ⟨rfl, hchildren _ (hnot hi hl) (hnot hi hr)⟩
  · have hl : ¬(i * 2 + 1 < t.heap.length ∧ t.before (i * 2 + 1) i = true) := by omega
    have hr : ¬(i * 2 + 2 < t.heap.length ∧ t.before (i * 2 + 2) i = true) := by omega
    refine .inl ⟨by simp only [smallest, if_neg hl, if_neg hr], ?_⟩
    refine hchildren _ ?_ ?_
    · rw [keys_outside (i := i * 2 + 1) (by omega)]
      exact le_top
    · rw [keys_outside (i := i * 2 + 2) (by omega)]
      exact le_top

theorem siftDownLoop_shuffled (fuel : ℕ) (t : Timer γ) (i : ℕ) :
    Shuffled t (siftDownLoop fuel t i) := by
  induction fuel generalizing t i with
  | zero => exact .refl t
  | succ fuel ih =>
    simp only [siftDownLoop]
    split
    · exact .refl t
    · next h =>
      obtain ⟨hstay, -⟩ | ⟨hi, hs, -⟩ := smallest_spec t i
      · exact absurd hstay h
      · exact (swapNode_shuffled hi hs).trans (ih _ _)

/-- With fuel for every position below, the loop is the whole descent. -/
theorem siftDownLoop_sinks {fuel i : ℕ} {t : Timer γ} (hfuel : t.heap.length ≤ i + fuel) :
    Sinks (keys t.heap) i (keys (siftDownLoop fuel t i).heap) := by
  induction fuel generalizing t i with
  | zero =>
    refine .stay fun j hj hchild => ?_
    have hlt := parent_lt hj
    rw [keys_outside (i := j) (by omega)]
    exact le_top
  | succ fuel ih =>
    simp only [siftDownLoop]
    obtain ⟨hstay, hleast⟩ | ⟨hi, hs, hbelow, hchild, hlt, hleast⟩ := smallest_spec t i
    · rw [if_pos hstay]
      exact .stay hleast
    · have hrest := ih (t := t.swapNode i (t.smallest i)) (i := t.smallest i)
        (by rw [swapNode_length]; omega)
      rw [swapNode_keys hi hs] at hrest
      rw [if_neg (by omega)]
      exact .swap (by omega) hchild hlt hleast hrest

theorem siftUp_shuffled (t : Timer γ) (i : ℕ) : Shuffled t (t.siftUp i) :=
  siftUpLoop_shuffled i t i

theorem siftDown_shuffled (t : Timer γ) (i : ℕ) : Shuffled t (t.siftDown i) :=
  siftDownLoop_shuffled t.heap.length t i

theorem sifted_shuffled (t : Timer γ) (i : ℕ) : Shuffled t ((t.siftDown i).siftUp i) :=
  (siftDown_shuffled t i).trans (siftUp_shuffled _ i)

theorem siftUp_ordered {t : Timer γ} {i : ℕ} (hi : i < t.heap.length)
    (h : UpTo (keys t.heap) i) : Ordered (keys (t.siftUp i).heap) :=
  h.rises (siftUpLoop_rises le_rfl hi)

/-- A descent followed by an ascent at the same index repairs any key. -/
theorem sifted_ordered {t : Timer γ} {i : ℕ} (hi : i < t.heap.length)
    (h : Hole (keys t.heap) i) : Ordered (keys ((t.siftDown i).siftUp i).heap) := by
  have hdown : Sinks (keys t.heap) i (keys (t.siftDown i).heap) := siftDownLoop_sinks (by omega)
  have hlength : i < (t.siftDown i).heap.length := by
    rw [(siftDown_shuffled t i).length]
    exact hi
  exact h.restored hdown (siftUpLoop_rises le_rfl hlength)

end Timer

end WebServer
