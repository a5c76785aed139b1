import WebServer.TimerHeap

/-!
# Runs of the timer

The table says what the timer is for: a descriptor is armed with an expiry and a
callback, rearming overwrites, adjusting keeps the callback, and a tick removes
exactly what has expired. The heap and its index follow the table operation by
operation, and what a tick calls back is what the table lets expire.
-/

namespace WebServer

universe u

open KeyedList HeapOrder DataRefinement

/-- The expiry and the callback of every armed descriptor. -/
abbrev TimerTable (γ : Type u) := Int → Option (Nat × Option γ)

inductive TimerOp (γ : Type u) where
  | add (now : Nat) (fd timeoutMs : Int) (cb : Option γ)
  | adjust (now : Nat) (fd timeoutMs : Int)
  | delete (fd : Int)
  | tick (now : Nat)

variable {γ : Type u}

def TimerNode.of (fd : Int) (entry : Nat × Option γ) : TimerNode γ := ⟨fd, entry.1, entry.2⟩

/-- The table after an operation, and the part of it that expired. -/
def TimerTable.step (M : TimerTable γ) : TimerOp γ → TimerTable γ × TimerTable γ
  | .add now fd timeoutMs cb =>
    (Function.update M fd (some (Timer.expireAt now timeoutMs, cb)), fun _ => none)
  | .adjust now fd timeoutMs =>
    (Function.update M fd ((M fd).map fun entry => (Timer.expireAt now timeoutMs, entry.2)),
      fun _ => none)
  | .delete fd => (Function.update M fd none, fun _ => none)
  | .tick now =>
    (fun fd => (M fd).filter fun entry => now < entry.1,
      fun fd => (M fd).filter fun entry => entry.1 ≤ now)

/-- The nodes are the entries of the table, each descriptor once. -/
structure Lists (nodes : List (TimerNode γ)) (M : TimerTable γ) : Prop where
  distinct : (nodes.map (·.fd)).Nodup
  entries : ∀ fd entry, M fd = some entry ↔ .of fd entry ∈ nodes

namespace Timer

def apply (t : Timer γ) : TimerOp γ → Timer γ × List (TimerNode γ)
  | .add now fd timeoutMs cb => (t.add now fd timeoutMs cb, [])
  | .adjust now fd timeoutMs => (t.adjust now fd timeoutMs, [])
  | .delete fd => (t.delete fd, [])
  | .tick now => t.tick now

/-- No node expires before its parent, and the index is the inverse of the heap. -/
structure Wf (t : Timer γ) : Prop where
  ordered : ∀ (i : ℕ) (above node : TimerNode γ), 0 < i → t.heap[(i - 1) / 2]? = some above →
    t.heap[i]? = some node → above.expire ≤ node.expire
  indexed : t.Indexed

/-- The index and the nodes, before any order is required. -/
structure Stands (t : Timer γ) (M : TimerTable γ) : Prop where
  indexed : t.Indexed
  entries : ∀ fd entry, M fd = some entry ↔ .of fd entry ∈ t.heap

structure Sound (t : Timer γ) (M : TimerTable γ) : Prop extends Stands t M where
  ordered : Ordered (keys t.heap)

theorem Indexed.position {t : Timer γ} (h : t.Indexed) {i : ℕ} {node : TimerNode γ}
    (hnode : t.heap[i]? = some node) : t.ref.find node.fd = some i :=
  (h node.fd i).mpr ⟨node, hnode, rfl⟩

theorem Indexed.unique {t : Timer γ} (h : t.Indexed) {i j : ℕ} {a b : TimerNode γ}
    (ha : t.heap[i]? = some a) (hb : t.heap[j]? = some b) (hfd : a.fd = b.fd) : i = j :=
  Option.some.inj ((h.position ha).symm.trans (hfd ▸ h.position hb))

theorem Indexed.distinct {t : Timer γ} (h : t.Indexed) : (t.heap.map (·.fd)).Nodup := by
  rw [List.nodup_iff_injective_getElem]
  intro i j hij
  have hi : (i : ℕ) < t.heap.length := by simpa using i.isLt
  have hj : (j : ℕ) < t.heap.length := by simpa using j.isLt
  simp only [List.getElem_map] at hij
  exact Fin.ext
    (h.unique (List.getElem?_eq_getElem hi) (List.getElem?_eq_getElem hj) hij)

theorem Stands.lists {t : Timer γ} {M : TimerTable γ} (h : Stands t M) : Lists t.heap M :=
  ⟨h.indexed.distinct, h.entries⟩

theorem Stands.shuffled {t t' : Timer γ} {M : TimerTable γ} (h : Stands t M)
    (hshuffled : Shuffled t t') : Stands t' M where
  indexed := hshuffled.indexed h.indexed
  entries fd entry := (h.entries fd entry).trans (hshuffled.members _).symm

theorem Stands.armed {t : Timer γ} {M : TimerTable γ} (h : Stands t M) {i : ℕ}
    {node : TimerNode γ} (hnode : t.heap[i]? = some node) :
    M node.fd = some (node.expire, node.cb) :=
  (h.entries _ _).mpr (List.mem_iff_getElem?.mpr ⟨i, hnode⟩)

theorem Stands.unarmed {t : Timer γ} {M : TimerTable γ} (h : Stands t M) {fd : Int}
    (hfd : t.ref.find fd = none) : M fd = none := by
  cases hM : M fd with
  | none => rfl
  | some entry =>
    obtain ⟨i, hi⟩ := List.mem_iff_getElem?.mp ((h.entries fd entry).mp hM)
    have hfind := h.indexed.position hi
    rw [show (TimerNode.of fd entry).fd = fd from rfl, hfd] at hfind
    cases hfind

theorem Sound.wf {t : Timer γ} {M : TimerTable γ} (h : Sound t M) : t.Wf where
  ordered i above node hi habove hnode := by
    have hle := h.ordered i hi
    unfold parent at hle
    rw [keys_of_lookup habove, keys_of_lookup hnode] at hle
    exact WithTop.coe_le_coe.mp hle
  indexed := h.indexed

/-- The node in front has the least expiry. -/
theorem Sound.front {t : Timer γ} {M : TimerTable γ} (h : Sound t M) {front node : TimerNode γ}
    (hfront : t.heap.head? = some front) (hnode : node ∈ t.heap) : front.expire ≤ node.expire := by
  obtain ⟨i, hi⟩ := List.mem_iff_getElem?.mp hnode
  have hle := h.ordered.root i
  rw [List.head?_eq_getElem?] at hfront
  rw [keys_of_lookup hfront, keys_of_lookup hi] at hle
  exact WithTop.coe_le_coe.mp hle

/-! ## Overwriting a node -/

section Overwrite

variable {t : Timer γ} {M : TimerTable γ} {idx : ℕ} {old new : TimerNode γ}

theorem keys_set (hidx : idx < t.heap.length) :
    keys (t.heap.set idx new) = Function.update (keys t.heap) idx (WithTop.some new.expire) := by
  funext m
  by_cases hm : m = idx
  · subst hm
    rw [Function.update_self, keys_of_lookup (List.getElem?_set_self hidx)]
  · rw [Function.update_of_ne hm]
    simp only [keys, List.getElem?_set_ne (Ne.symm hm)]

theorem Stands.set (h : Stands t M) (hold : t.heap[idx]? = some old) (hfd : new.fd = old.fd) :
    Stands { t with heap := t.heap.set idx new }
      (Function.update M old.fd (some (new.expire, new.cb))) := by
  obtain ⟨hidx, -⟩ := List.getElem?_eq_some_iff.mp hold
  refine ⟨?_, ?_⟩
  · intro fd i
    refine (h.indexed fd i).trans ?_
    by_cases hi : i = idx
    · subst hi
      rw [List.getElem?_set_self hidx, hold]
      simp [hfd]
    · rw [List.getElem?_set_ne (Ne.symm hi)]
  · intro fd entry
    rw [List.mem_iff_getElem?]
    by_cases hcase : fd = old.fd
    · subst hcase
      rw [Function.update_self]
      constructor
      · rintro hentry
        refine ⟨idx, ?_⟩
        rw [List.getElem?_set_self hidx, ← Option.some.inj hentry, ← hfd]
        rfl
      · rintro ⟨i, hi⟩
        by_cases hne : i = idx
        · subst hne
          rw [List.getElem?_set_self hidx] at hi
          rw [Option.some.inj hi]
          rfl
        · rw [List.getElem?_set_ne (Ne.symm hne)] at hi
          exact absurd (h.indexed.unique hi hold rfl) hne
    · rw [Function.update_of_ne hcase, h.entries, List.mem_iff_getElem?]
      refine exists_congr fun i => ?_
      by_cases hi : i = idx
      · subst hi
        rw [List.getElem?_set_self hidx, hold]
        constructor
        · intro hsame
          exact absurd (congrArg TimerNode.fd (Option.some.inj hsame)).symm hcase
        · intro hsame
          exact absurd ((congrArg TimerNode.fd (Option.some.inj hsame)).symm.trans hfd) hcase
      · rw [List.getElem?_set_ne (Ne.symm hi)]

/-- A node is overwritten in place and sifted down, then up. -/
theorem Sound.overwrite (h : Sound t M) {f : TimerNode γ → TimerNode γ}
    (hold : t.heap[idx]? = some old) (hfd : (f old).fd = old.fd) :
    Sound ((siftDown { t with heap := t.heap.modify idx f } idx).siftUp idx)
      (Function.update M old.fd (some ((f old).expire, (f old).cb))) := by
  obtain ⟨hidx, -⟩ := List.getElem?_eq_some_iff.mp hold
  have hset : t.heap.modify idx f = t.heap.set idx (f old) := by
    simp [List.modify_eq_set_getElem?, hold]
  have hhole : Hole (keys (t.heap.set idx (f old))) idx := by
    rw [keys_set hidx]
    exact h.ordered.replace idx _
  rw [hset]
  exact ⟨(h.toStands.set hold hfd).shuffled (sifted_shuffled _ idx),
    sifted_ordered (t := { t with heap := t.heap.set idx (f old) }) (by simpa using hidx) hhole⟩

end Overwrite

/-! ## A new node, and the last node -/

section Ends

variable {t : Timer γ} {M : TimerTable γ} {fd : Int}

theorem leaf_outside {l : List (TimerNode γ)} {n : ℕ} (hn : l.length ≤ n + 1) (j : ℕ) (hj : 0 < j)
    (hchild : parent j = n) : keys l j = ⊤ := by
  have hlt := parent_lt hj
  exact keys_outside (by omega)

theorem keys_push (l : List (TimerNode γ)) (new : TimerNode γ) :
    keys (l ++ [new]) = Function.update (keys l) l.length (WithTop.some new.expire) := by
  funext m
  by_cases hm : m = l.length
  · subst hm
    rw [Function.update_self, keys_of_lookup List.getElem?_concat_length]
  · rw [Function.update_of_ne hm]
    by_cases hlt : m < l.length
    · simp only [keys, List.getElem?_append_left hlt]
    · rw [keys_outside (l := l) (by omega),
        keys_outside (l := l ++ [new]) (by rw [List.length_append, List.length_singleton]; omega)]

theorem lookup_push {l : List (TimerNode γ)} {new node : TimerNode γ} {i : ℕ} :
    (l ++ [new])[i]? = some node ↔ l[i]? = some node ∨ i = l.length ∧ node = new := by
  by_cases hlt : i < l.length
  · rw [List.getElem?_append_left hlt]
    constructor
    · exact .inl
    · rintro (h | ⟨h, -⟩)
      · exact h
      · omega
  · rw [List.getElem?_append_right (by omega), List.getElem?_eq_none (by omega : l.length ≤ i)]
    by_cases hi : i = l.length
    · subst hi
      simp [eq_comm]
    · have hout : [new].length ≤ i - l.length := by
        rw [List.length_singleton]
        omega
      simp [List.getElem?_eq_none hout, hi]

theorem Stands.push (h : Stands t M) (hnew : t.ref.find fd = none) (entry : Nat × Option γ) :
    Stands { heap := t.heap ++ [.of fd entry], ref := t.ref.insert fd t.heap.length }
      (Function.update M fd (some entry)) := by
  have hfree : ∀ {i : ℕ} {node : TimerNode γ}, t.heap[i]? = some node → node.fd ≠ fd := by
    rintro i node hnode rfl
    rw [h.indexed.position hnode] at hnew
    cases hnew
  refine ⟨?_, ?_⟩
  · intro fd' i
    by_cases hfd : fd' = fd
    · subst hfd
      rw [Dict.find_insert_self]
      constructor
      · intro hi
        exact ⟨_, lookup_push.mpr (.inr ⟨(Option.some.inj hi).symm, rfl⟩), rfl⟩
      · rintro ⟨node, hnode, hsame⟩
        obtain hold | ⟨rfl, -⟩ := lookup_push.mp hnode
        · exact absurd hsame (hfree hold)
        · rfl
    · rw [Dict.find_insert_ne _ hfd, h.indexed fd' i]
      constructor
      · rintro ⟨node, hnode, hsame⟩
        exact ⟨node, lookup_push.mpr (.inl hnode), hsame⟩
      · rintro ⟨node, hnode, hsame⟩
        obtain hold | ⟨-, rfl⟩ := lookup_push.mp hnode
        · exact ⟨node, hold, hsame⟩
        · exact absurd hsame.symm hfd
  · intro fd' entry'
    rw [List.mem_append, List.mem_singleton]
    by_cases hfd : fd' = fd
    · subst hfd
      rw [Function.update_self]
      constructor
      · intro hentry
        exact .inr (congrArg _ (Option.some.inj hentry).symm)
      · rintro (hold | hsame)
        · obtain ⟨i, hi⟩ := List.mem_iff_getElem?.mp hold
          exact absurd rfl (hfree hi)
        · injection hsame with _ hexpire hcb
          rw [Prod.ext hexpire hcb]
    · rw [Function.update_of_ne hfd, h.entries]
      constructor
      · exact .inl
      · rintro (hold | hsame)
        · exact hold
        · exact absurd (congrArg TimerNode.fd hsame) hfd

theorem lookup_dropLast {l : List (TimerNode γ)} {node : TimerNode γ} {i : ℕ} :
    l.dropLast[i]? = some node ↔ i < l.length - 1 ∧ l[i]? = some node := by
  rw [List.getElem?_dropLast]
  split
  · next h => simp [h]
  · next h => simp [h]

theorem keys_dropLast (l : List (TimerNode γ)) :
    keys l.dropLast = Function.update (keys l) (l.length - 1) ⊤ := by
  funext m
  by_cases hlt : m < l.length - 1
  · rw [Function.update_of_ne (by omega)]
    simp only [keys, List.getElem?_dropLast, if_pos hlt]
  · rw [keys_outside (l := l.dropLast) (by rw [List.length_dropLast]; omega)]
    by_cases hm : m = l.length - 1
    · rw [hm, Function.update_self]
    · rw [Function.update_of_ne hm, keys_outside (l := l) (by omega)]

/-- The positions before the last are those of the other descriptors. -/
theorem Indexed.before_last (h : t.Indexed) {last : TimerNode γ}
    (hlast : t.heap[t.heap.length - 1]? = some last) {i : ℕ} {node : TimerNode γ}
    (hi : t.heap[i]? = some node) : i < t.heap.length - 1 ↔ node.fd ≠ last.fd := by
  obtain ⟨hlt, -⟩ := List.getElem?_eq_some_iff.mp hi
  constructor
  · intro hbefore hsame
    have heq := h.unique hi hlast hsame
    omega
  · intro hne
    by_contra hend
    have heq : i = t.heap.length - 1 := by omega
    subst heq
    exact hne (congrArg TimerNode.fd (Option.some.inj (hi.symm.trans hlast)))

theorem Stands.popBack (h : Stands t M) {node : TimerNode γ}
    (hlast : t.heap[t.heap.length - 1]? = some node) :
    Stands (t.popBack node.fd) (Function.update M node.fd none) := by
  have hinside : ∀ {i : ℕ} {node' : TimerNode γ}, t.heap[i]? = some node' →
      (i < t.heap.length - 1 ↔ node'.fd ≠ node.fd) := h.indexed.before_last hlast
  refine ⟨?_, ?_⟩
  · intro fd i
    show (t.ref.erase node.fd).find fd = some i ↔
      ∃ node', t.heap.dropLast[i]? = some node' ∧ node'.fd = fd
    simp only [lookup_dropLast]
    by_cases hfd : fd = node.fd
    · subst hfd
      rw [Dict.find_erase_self]
      constructor
      · intro hnone
        cases hnone
      · rintro ⟨node', ⟨hlt, hi⟩, hsame⟩
        exact absurd hsame ((hinside hi).mp hlt)
    · rw [Dict.find_erase_ne _ hfd, h.indexed fd i]
      constructor
      · rintro ⟨node', hi, rfl⟩
        exact ⟨node', ⟨(hinside hi).mpr hfd, hi⟩, rfl⟩
      · rintro ⟨node', ⟨-, hi⟩, hsame⟩
        exact ⟨node', hi, hsame⟩
  · intro fd entry
    show Function.update M node.fd none fd = some entry ↔ .of fd entry ∈ t.heap.dropLast
    rw [List.mem_iff_getElem?]
    simp only [lookup_dropLast]
    by_cases hfd : fd = node.fd
    · subst hfd
      rw [Function.update_self]
      constructor
      · intro hnone
        cases hnone
      · rintro ⟨i, hlt, hi⟩
        exact absurd rfl ((hinside hi).mp hlt)
    · rw [Function.update_of_ne hfd, h.entries, List.mem_iff_getElem?]
      refine exists_congr fun i => ?_
      constructor
      · intro hi
        exact ⟨(hinside hi).mpr hfd, hi⟩
      · exact And.right

end Ends

/-! ## The operations -/

section Operations

variable {t : Timer γ} {M : TimerTable γ}

/-- The node of an armed descriptor. -/
theorem Stands.find (h : Stands t M) {fd : Int} {idx : ℕ} (hfind : t.ref.find fd = some idx) :
    ∃ node, t.heap[idx]? = some node ∧ node.fd = fd ∧ M fd = some (node.expire, node.cb) := by
  obtain ⟨node, hnode, rfl⟩ := (h.indexed fd idx).mp hfind
  exact ⟨node, hnode, rfl, h.armed hnode⟩

theorem Sound.add (h : Sound t M) (now : Nat) (fd timeoutMs : Int) (cb : Option γ) :
    Sound (t.add now fd timeoutMs cb) (Function.update M fd (some (expireAt now timeoutMs, cb))) := by
  unfold Timer.add
  split
  · next idx hfind =>
    obtain ⟨node, hnode, rfl, -⟩ := h.find hfind
    exact h.overwrite hnode rfl
  · next hfind =>
    have hup : UpTo (keys (t.heap ++ [⟨fd, expireAt now timeoutMs, cb⟩])) t.heap.length := by
      rw [keys_push]
      exact h.ordered.grow (leaf_outside (by omega)) _
    exact ⟨(h.toStands.push hfind (expireAt now timeoutMs, cb)).shuffled (siftUp_shuffled _ _),
      siftUp_ordered (by simp) hup⟩

theorem Sound.adjust (h : Sound t M) (now : Nat) (fd timeoutMs : Int) :
    Sound (t.adjust now fd timeoutMs)
      (Function.update M fd ((M fd).map fun entry => (expireAt now timeoutMs, entry.2))) := by
  unfold Timer.adjust
  split
  · next hfind =>
    rw [h.unarmed hfind, Option.map_none, Function.update_eq_self_iff.mpr (h.unarmed hfind).symm]
    exact h
  · next idx hfind =>
    obtain ⟨node, hnode, rfl, harmed⟩ := h.find hfind
    rw [harmed, Option.map_some]
    exact h.overwrite hnode rfl

/-- What the last node leaves behind when it is put where `idx` was. -/
theorem keys_swapped_popBack {idx : ℕ} (hidx : idx < t.heap.length - 1) (fd : Int) :
    keys ((t.swapNode idx (t.heap.length - 1)).popBack fd).heap =
      Function.update (Function.update (keys t.heap) (t.heap.length - 1) ⊤) idx
        (keys t.heap (t.heap.length - 1)) := by
  show keys (t.swapNode idx (t.heap.length - 1)).heap.dropLast = _
  rw [keys_dropLast, swapNode_length, swapNode_keys (by omega) (by omega)]
  funext m
  by_cases hlast : m = t.heap.length - 1
  · subst hlast
    rw [Function.update_self, Function.update_of_ne (by omega), Function.update_self]
  · rw [Function.update_of_ne hlast]
    by_cases hm : m = idx
    · subst hm
      rw [Function.update_self, swap_left]
    · rw [Function.update_of_ne hm, Function.update_of_ne hlast, swap_other hm hlast]

theorem Sound.delete (h : Sound t M) (fd : Int) :
    Sound (t.delete fd) (Function.update M fd none) := by
  have hshrunk : Ordered (Function.update (keys t.heap) (t.heap.length - 1) ⊤) :=
    h.ordered.shrink (leaf_outside (by omega))
  unfold Timer.delete
  split
  · next hfind =>
    rw [Function.update_eq_self_iff.mpr (h.unarmed hfind).symm]
    exact h
  · next idx hfind =>
    obtain ⟨node, hnode, rfl, -⟩ := h.find hfind
    obtain ⟨hidx, -⟩ := List.getElem?_eq_some_iff.mp hnode
    simp only
    split
    · next hlt =>
      have hshuffled : Shuffled t (t.swapNode idx (t.heap.length - 1)) :=
        swapNode_shuffled (by omega) (by omega)
      have hlast : (t.swapNode idx (t.heap.length - 1)).heap[
          (t.swapNode idx (t.heap.length - 1)).heap.length - 1]? = some node := by
        rw [swapNode_length, swapNode_lookup (by omega) (by omega), Equiv.swap_apply_right, hnode]
      have hstands := (h.toStands.shuffled hshuffled).popBack hlast
      have hinside : idx < ((t.swapNode idx (t.heap.length - 1)).popBack node.fd).heap.length := by
        show idx < (t.swapNode idx (t.heap.length - 1)).heap.dropLast.length
        rw [List.length_dropLast, swapNode_length]
        exact hlt
      refine ⟨hstands.shuffled (sifted_shuffled _ idx), sifted_ordered hinside ?_⟩
      rw [keys_swapped_popBack hlt]
      exact hshrunk.replace idx _
    · next hnlt =>
      have hend : idx = t.heap.length - 1 := by omega
      subst hend
      refine ⟨h.toStands.popBack hnode, ?_⟩
      show Ordered (keys t.heap.dropLast)
      rw [keys_dropLast]
      exact hshrunk

theorem delete_length (fd : Int) {idx : ℕ} (hfind : t.ref.find fd = some idx) :
    (t.delete fd).heap.length = t.heap.length - 1 := by
  simp only [Timer.delete, hfind]
  split
  · rw [(sifted_shuffled _ idx).length]
    show (t.swapNode idx (t.heap.length - 1)).heap.dropLast.length = _
    rw [List.length_dropLast, swapNode_length]
  · exact List.length_dropLast

/-- The nodes that went are listed in the order of their expiries. -/
structure Fired (fired : List (TimerNode γ)) (M : TimerTable γ) : Prop extends Lists fired M where
  sorted : fired.Pairwise fun a b => a.expire ≤ b.expire

theorem fired_none : Fired [] (fun _ => none : TimerTable γ) :=
  ⟨⟨List.nodup_nil, by simp⟩, .nil⟩

/-- The front goes first when it is due, and the rest of what is due after it. -/
theorem Fired.cons {now : Nat} {front : TimerNode γ} {fired : List (TimerNode γ)}
    (harmed : M front.fd = some (front.expire, front.cb)) (hdue : front.expire ≤ now)
    (hleast : ∀ fd entry, M fd = some entry → front.expire ≤ entry.1)
    (h : Fired fired fun fd => (Function.update M front.fd none fd).filter fun e => e.1 ≤ now) :
    Fired (front :: fired) fun fd => (M fd).filter fun e => e.1 ≤ now := by
  have hrest : ∀ {node}, node ∈ fired → node.fd ≠ front.fd ∧
      M node.fd = some (node.expire, node.cb) ∧ node.expire ≤ now := by
    intro node hnode
    have hfired := (h.entries node.fd (node.expire, node.cb)).mpr hnode
    by_cases hfd : node.fd = front.fd
    · rw [hfd, Function.update_self] at hfired
      cases hfired
    · rw [Function.update_of_ne hfd] at hfired
      obtain ⟨hM, hle⟩ := Option.filter_eq_some_iff.mp hfired
      exact ⟨hfd, hM, of_decide_eq_true hle⟩
  refine ⟨⟨?_, ?_⟩, ?_⟩
  · refine List.nodup_cons.mpr ⟨?_, h.distinct⟩
    intro hmem
    obtain ⟨node, hnode, hsame⟩ := List.mem_map.mp hmem
    exact (hrest hnode).1 hsame
  · intro fd entry
    rw [List.mem_cons, ← h.entries]
    by_cases hfd : fd = front.fd
    · subst hfd
      rw [Function.update_self, harmed, Option.filter_some, if_pos (decide_eq_true hdue)]
      constructor
      · intro hentry
        rw [← Option.some.inj hentry]
        exact .inl rfl
      · rintro (hfront | hnone)
        · rw [← hfront]
          rfl
        · cases hnone
    · rw [Function.update_of_ne hfd]
      constructor
      · exact .inr
      · rintro (hfront | hentry)
        · exact absurd (congrArg TimerNode.fd hfront) hfd
        · exact hentry
  · refine List.pairwise_cons.mpr ⟨?_, h.sorted⟩
    intro node hnode
    exact hleast node.fd _ (hrest hnode).2.1

/-- When nothing is due the table is unchanged, and nothing expires. -/
theorem Sound.nothing_due {now : Nat} (h : Sound t M)
    (hlater : ∀ fd entry, M fd = some entry → now < entry.1) :
    Sound t (fun fd => (M fd).filter fun e => now < e.1) ∧
      Fired [] fun fd => (M fd).filter fun e => e.1 ≤ now := by
  have hkept : (fun fd => (M fd).filter fun e => decide (now < e.1)) = M := by
    funext fd
    cases hM : M fd with
    | none => rfl
    | some entry => simp [Option.filter_some, hlater fd entry hM]
  have hnone : (fun fd => (M fd).filter fun e => decide (e.1 ≤ now)) = fun _ => none := by
    funext fd
    cases hM : M fd with
    | none => rfl
    | some entry => simp [Option.filter_some, hlater fd entry hM]
  rw [hkept, hnone]
  exact ⟨h, fired_none⟩

/-- With fuel for every node, exactly what is due at `now` goes. -/
theorem Sound.tickLoop {now fuel : Nat} (h : Sound t M) (hfuel : t.heap.length ≤ fuel) :
    Sound (Timer.tickLoop now fuel t).1 (fun fd => (M fd).filter fun e => now < e.1) ∧
      Fired (Timer.tickLoop now fuel t).2 fun fd => (M fd).filter fun e => e.1 ≤ now := by
  induction fuel generalizing t M with
  | zero =>
    have hempty : t.heap = [] := List.eq_nil_of_length_eq_zero (by omega)
    refine h.nothing_due fun fd entry hM => ?_
    have hmem := (h.entries fd entry).mp hM
    rw [hempty] at hmem
    cases hmem
  | succ fuel ih =>
    unfold Timer.tickLoop
    split
    · next hempty =>
      refine h.nothing_due fun fd entry hM => ?_
      have hmem := (h.entries fd entry).mp hM
      rw [List.head?_eq_none_iff.mp hempty] at hmem
      cases hmem
    · next front hfront =>
      have hleast : ∀ fd entry, M fd = some entry → front.expire ≤ entry.1 := fun fd entry hM =>
        h.front hfront ((h.entries fd entry).mp hM)
      split
      · next hlater =>
        exact h.nothing_due fun fd entry hM => hlater.trans_le (hleast fd entry hM)
      · next hdue =>
        have hzero := List.head?_eq_getElem?.symm.trans hfront
        have harmed := h.armed hzero
        have hlength := delete_length front.fd (h.indexed.position hzero)
        obtain ⟨hleft, hfired⟩ := ih (h.delete front.fd) (by omega)
        have hsame : (fun fd => (Function.update M front.fd none fd).filter
            fun e => decide (now < e.1)) = fun fd => (M fd).filter fun e => decide (now < e.1) := by
          funext fd
          by_cases hfd : fd = front.fd
          · rw [hfd, Function.update_self, harmed, Option.filter_some]
            simp [hdue]
          · rw [Function.update_of_ne hfd]
        rw [hsame] at hleft
        exact ⟨hleft, .cons harmed (by omega) hleast hfired⟩

theorem Sound.tick (h : Sound t M) (now : Nat) :
    Sound (t.tick now).1 (fun fd => (M fd).filter fun e => now < e.1) ∧
      Fired (t.tick now).2 fun fd => (M fd).filter fun e => e.1 ≤ now :=
  h.tickLoop le_rfl

theorem apply_simulates :
    Simulates (apply : Timer γ → TimerOp γ → _) TimerTable.step Sound Fired := by
  intro t M op h
  cases op with
  | add now fd timeoutMs cb => exact ⟨h.add now fd timeoutMs cb, fired_none⟩
  | adjust now fd timeoutMs => exact ⟨h.adjust now fd timeoutMs, fired_none⟩
  | delete fd => exact ⟨h.delete fd, fired_none⟩
  | tick now => exact h.tick now

theorem sound_empty : Sound ({} : Timer γ) fun _ => none where
  indexed := by
    intro fd i
    simp
  entries := by simp
  ordered := by
    intro j _
    rw [keys_outside (l := []) (i := j) (Nat.zero_le j)]
    exact le_top

/-- After any operations from the empty timer the heap is ordered and indexed, its nodes
are the entries of the table after the same operations, the node in front has the least
expiry, and every tick has called back what the table let expire. -/
theorem run_table (ops : List (TimerOp γ)) :
    let (t, fired) := run apply ({} : Timer γ) ops
    let (M, expired) := run TimerTable.step (fun _ => none) ops
    t.Wf ∧ Lists t.heap M ∧
      (∀ front, t.heap.head? = some front → ∀ node ∈ t.heap, front.expire ≤ node.expire) ∧
      List.Forall₂ Fired fired expired := by
  obtain ⟨hsound, hfired⟩ := run_simulates apply_simulates sound_empty ops
  exact ⟨hsound.wf, hsound.lists, fun front hfront node hnode => hsound.front hfront hnode, hfired⟩

theorem expireAt_eq {now timeoutMs : Nat} (h : now + timeoutMs < 2 ^ 64) :
    expireAt now timeoutMs = now + timeoutMs := by
  unfold expireAt
  omega

/-- The casts lose nothing while expiry and clock are less than 2^31 ms apart. -/
theorem remaining_eq {expire now : Nat} (hlate : now ≤ expire + 2 ^ 31)
    (hearly : expire < now + 2 ^ 31) : remaining expire now = (expire : Int) - now := by
  unfold remaining
  rw [Int.bmod_def]
  omega

/-- What `GetNextTick` answers: nothing is left, or the time left of the least expiry. -/
theorem Sound.getNextTick (h : Sound t M) (now later : Nat) :
    Sound (t.getNextTick now later).1 (fun fd => (M fd).filter fun e => now < e.1) ∧
      (((t.getNextTick now later).1.heap = [] ∧ (t.getNextTick now later).2.2 = -1) ∨
        ∃ front, (t.tick now).1.heap.head? = some front ∧ front ∈ (t.getNextTick now later).1.heap ∧
          (t.getNextTick now later).2.2 = max 0 (remaining front.expire later) ∧
          ∀ node ∈ (t.getNextTick now later).1.heap, front.expire ≤ node.expire) := by
  obtain ⟨hleft, -⟩ := h.tick now
  unfold Timer.getNextTick
  generalize t.tick now = out at hleft
  obtain ⟨left, fired⟩ := out
  cases hfront : left.heap.head? with
  | none =>
    simp only [hfront]
    exact ⟨hleft, .inl ⟨List.head?_eq_none_iff.mp hfront, trivial⟩⟩
  | some front =>
    simp only [hfront]
    refine ⟨hleft, .inr ⟨front, rfl, List.mem_of_mem_head? hfront, ?_, ?_⟩⟩
    · split
      · omega
      · omega
    · intro node hnode
      exact hleft.front hfront hnode

end Operations

end Timer

end WebServer
