import Mathlib.Data.List.Perm.Subperm
import WebServer.TimerTable

/-!
# Ticks whose callbacks use the timer

A callback may arm, adjust and delete timers of the timer that is ticking. What the callbacks
do is an oracle: the calls that the callback of each round makes, each with its own reading of
the clock. The loop of `Tick` has fuel, and that it suffices is proved.
-/

namespace WebServer

universe u

open KeyedList DataRefinement

variable {γ : Type u}

namespace TimerOp

/-- A call about this descriptor. -/
def Names (fd : Int) : TimerOp γ → Prop
  | .add _ fd' _ _ | .adjust _ fd' _ | .delete fd' => fd' = fd
  | .tick _ => False

/-- A call made once the clock has read `entry`: the clock does not go back, timeouts are
positive, and both are in the range of their types. -/
def Allowed (entry : Nat) : TimerOp γ → Prop
  | .add now _ timeoutMs _ | .adjust now _ timeoutMs =>
    entry ≤ now ∧ now < 2 ^ 63 ∧ 0 < timeoutMs ∧ timeoutMs < 2 ^ 31
  | .delete _ => True
  | .tick _ => False

end TimerOp

/-- One round of `Tick`: the node that went, the timer when its callback is called, and the
calls that the callback makes. -/
structure Firing (γ : Type u) where
  node : TimerNode γ
  timer : Timer γ
  calls : List (TimerOp γ)

/-- No callback names the descriptor up to the round in which its node goes. -/
def Untouched (fd : Int) : List (Firing γ) → Prop
  | [] => True
  | f :: rest => f.node.fd = fd ∨ (∀ op ∈ f.calls, ¬op.Names fd) ∧ Untouched fd rest

namespace Timer

/-- The loop of `Tick`, from this round on; none when the fuel does not suffice. An empty
callback is not called. -/
def tickCalling (now : Nat) (calls : Nat → List (TimerOp γ)) :
    Nat → Nat → Timer γ → Option (Timer γ × List (Firing γ))
  | 0, _, _ => none
  | fuel + 1, round, t =>
    match t.heap.head? with
    | none => some (t, [])
    | some node =>
      if now < node.expire then some (t, [])
      else
        let timer := t.delete node.fd
        let made := if node.cb.isSome then calls round else []
        (tickCalling now calls fuel (round + 1) (run apply timer made).1).map
          fun (left, fired) => (left, ⟨node, timer, made⟩ :: fired)

/-- Without calls it is the tick of the model. -/
theorem tickCalling_silent (now : Nat) {fuel round : Nat} {t left : Timer γ}
    {fired : List (Firing γ)}
    (h : tickCalling now (fun _ => []) fuel round t = some (left, fired)) :
    tickLoop now fuel t = (left, fired.map (·.node)) := by
  induction fuel generalizing round t left fired with
  | zero => cases h
  | succ fuel ih =>
    unfold tickCalling at h
    unfold tickLoop
    cases hfront : t.heap.head? with
    | none =>
      rw [hfront] at h
      obtain ⟨rfl, rfl⟩ := Prod.mk.inj (Option.some.inj h)
      rfl
    | some node =>
      simp only [hfront] at h
      by_cases hlater : now < node.expire
      · rw [if_pos hlater] at h
        obtain ⟨rfl, rfl⟩ := Prod.mk.inj (Option.some.inj h)
        exact if_pos hlater
      · rw [if_neg hlater] at h
        obtain ⟨⟨left', fired'⟩, hrest, hout⟩ := Option.map_eq_some_iff.mp h
        obtain ⟨rfl, rfl⟩ := Prod.mk.inj hout
        rw [ite_self] at hrest
        have hloop : tickLoop now fuel (t.delete node.fd) = (left', fired'.map (·.node)) := ih hrest
        refine (if_neg hlater).trans ?_
        rw [hloop]
        rfl

end Timer

/-! ## What calls do to the table -/

namespace TimerTable

variable {entry : Nat} {M : TimerTable γ} {fd : Int}

/-- Whatever is armed for the descriptor expires after `entry`. -/
def Later (entry : Nat) (M : TimerTable γ) (fd : Int) : Prop := ∀ e, M fd = some e → entry < e.1

theorem step_unnamed {op : TimerOp γ} (allowed : op.Allowed entry) (other : ¬op.Names fd) :
    (M.step op).1 fd = M fd := by
  cases op with
  | add now fd' timeoutMs cb => exact Function.update_of_ne (Ne.symm other) _ _
  | adjust now fd' timeoutMs => exact Function.update_of_ne (Ne.symm other) _ _
  | delete fd' => exact Function.update_of_ne (Ne.symm other) _ _
  | tick now => exact absurd allowed id

theorem expireAt_later {now : Nat} {timeoutMs : Int} (h : entry ≤ now) (hnow : now < 2 ^ 63)
    (positive : 0 < timeoutMs) (small : timeoutMs < 2 ^ 31) :
    entry < Timer.expireAt now timeoutMs := by
  unfold Timer.expireAt
  omega

theorem step_named {op : TimerOp γ} (allowed : op.Allowed entry) (named : op.Names fd) :
    (M.step op).1.Later entry fd := by
  intro e he
  cases op with
  | add now fd' timeoutMs cb =>
    obtain ⟨h, hnow, positive, small⟩ := allowed
    obtain rfl : fd' = fd := named
    simp only [step, Function.update_self] at he
    rw [← Option.some.inj he]
    exact expireAt_later h hnow positive small
  | adjust now fd' timeoutMs =>
    obtain ⟨h, hnow, positive, small⟩ := allowed
    obtain rfl : fd' = fd := named
    simp only [step, Function.update_self] at he
    obtain ⟨old, _, rfl⟩ := Option.map_eq_some_iff.mp he
    exact expireAt_later h hnow positive small
  | delete fd' =>
    obtain rfl : fd' = fd := named
    simp only [step, Function.update_self] at he
    cases he
  | tick now => exact absurd allowed id

theorem run_later {ops : List (TimerOp γ)} (allowed : ∀ op ∈ ops, op.Allowed entry)
    (h : M.Later entry fd) : (run step M ops).1.Later entry fd := by
  induction ops generalizing M with
  | nil => exact h
  | cons op ops ih =>
    rw [run_cons]
    apply ih (fun op' hop' => allowed op' (List.mem_cons_of_mem _ hop'))
    have hop := allowed op List.mem_cons_self
    by_cases named : op.Names fd
    · exact step_named hop named
    · intro e he
      rw [step_unnamed hop named] at he
      exact h e he

theorem run_unnamed {ops : List (TimerOp γ)} (allowed : ∀ op ∈ ops, op.Allowed entry)
    (other : ∀ op ∈ ops, ¬op.Names fd) : (run step M ops).1 fd = M fd := by
  induction ops generalizing M with
  | nil => rfl
  | cons op ops ih =>
    have hrest := ih (M := (M.step op).1) (fun op' hop' => allowed op' (List.mem_cons_of_mem _ hop'))
      (fun op' hop' => other op' (List.mem_cons_of_mem _ hop'))
    rw [run_cons, hrest]
    exact step_unnamed (allowed op List.mem_cons_self) (other op List.mem_cons_self)

theorem run_named {ops : List (TimerOp γ)} (allowed : ∀ op ∈ ops, op.Allowed entry)
    {op : TimerOp γ} (hop : op ∈ ops) (named : op.Names fd) :
    (run step M ops).1.Later entry fd := by
  induction ops generalizing M with
  | nil => cases hop
  | cons op' ops ih =>
    have hrest : ∀ o ∈ ops, o.Allowed entry := fun o ho => allowed o (List.mem_cons_of_mem _ ho)
    rw [run_cons]
    rcases List.mem_cons.mp hop with rfl | hlater
    · exact run_later hrest (step_named (allowed op List.mem_cons_self) named)
    · exact ih hrest hlater

end TimerTable

/-! ## What fires -/

namespace Timer

/-- The nodes of the rounds are due entries of the table, gone when their callbacks run, one
for each descriptor, in the order of their expiries; and a due entry is among them exactly when
no callback names it first. -/
structure Fires (now : Nat) (fired : List (Firing γ)) (M : TimerTable γ) : Prop where
  due : ∀ f ∈ fired, M f.node.fd = some (f.node.expire, f.node.cb) ∧ f.node.expire ≤ now
  removed : ∀ f ∈ fired, f.timer.Wf ∧ ∀ node ∈ f.timer.heap, node.fd ≠ f.node.fd
  sorted : fired.Pairwise fun a b => a.node.expire ≤ b.node.expire
  distinct : (fired.map (·.node.fd)).Nodup
  exact_ : ∀ fd e, M fd = some e → e.1 ≤ now →
    (Untouched fd fired ↔ fd ∈ fired.map (·.node.fd))

theorem fires_none {now : Nat} {M : TimerTable γ} (later : ∀ fd, M.Later now fd) :
    Fires now [] M where
  due := by simp
  removed := by simp
  sorted := .nil
  distinct := List.nodup_nil
  exact_ := by
    intro fd e he hdue
    have hlater := later fd e he
    omega

section Round

variable {now : Nat} {t : Timer γ} {M : TimerTable γ} {front : TimerNode γ}
  {ops : List (TimerOp γ)}

/-- The table once the front has gone and its callback has made its calls. -/
def afterRound (M : TimerTable γ) (fd : Int) (ops : List (TimerOp γ)) : TimerTable γ :=
  (run TimerTable.step (Function.update M fd none) ops).1

theorem Sound.afterRound (h : Sound t M) (fd : Int) (ops : List (TimerOp γ)) :
    Sound (run apply (t.delete fd) ops).1 (afterRound M fd ops) :=
  (run_simulates apply_simulates (h.delete fd) ops).1

/-- What is still due is another entry, and no call named it. -/
theorem due_afterRound (allowed : ∀ op ∈ ops, op.Allowed now) {fd : Int} {e : Nat × Option γ}
    (he : Timer.afterRound M front.fd ops fd = some e) (hdue : e.1 ≤ now) :
    fd ≠ front.fd ∧ M fd = some e ∧ ∀ op ∈ ops, ¬op.Names fd := by
  have hother : ∀ op ∈ ops, ¬op.Names fd := by
    intro op hop named
    have hlater := TimerTable.run_named allowed hop named e he
    omega
  have hkept := TimerTable.run_unnamed (M := Function.update M front.fd none) allowed hother
  unfold Timer.afterRound at he
  rw [hkept] at he
  by_cases hfd : fd = front.fd
  · rw [hfd, Function.update_self] at he
    cases he
  · rw [Function.update_of_ne hfd] at he
    exact ⟨hfd, he, hother⟩

/-- The round in front of the rounds that follow it. -/
theorem Fires.cons (allowed : ∀ op ∈ ops, op.Allowed now) (h : Sound t M)
    (hfront : t.heap.head? = some front) (hdue : front.expire ≤ now) {fired : List (Firing γ)}
    (rest : Fires now fired (afterRound M front.fd ops)) :
    Fires now (⟨front, t.delete front.fd, ops⟩ :: fired) M := by
  have harmed := h.armed (List.head?_eq_getElem?.symm.trans hfront)
  have hsound := h.delete front.fd
  have hrest : ∀ f ∈ fired, f.node.fd ≠ front.fd ∧
      M f.node.fd = some (f.node.expire, f.node.cb) ∧ ∀ op ∈ ops, ¬op.Names f.node.fd := by
    intro f hf
    obtain ⟨he, hle⟩ := rest.due f hf
    exact due_afterRound allowed he hle
  refine ⟨?_, ?_, ?_, ?_, ?_⟩
  · intro f hf
    rcases List.mem_cons.mp hf with rfl | hf
    · exact ⟨harmed, hdue⟩
    · exact ⟨(hrest f hf).2.1, (rest.due f hf).2⟩
  · intro f hf
    rcases List.mem_cons.mp hf with rfl | hf
    · refine ⟨hsound.wf, ?_⟩
      intro node hnode hsame
      have hentry := (hsound.entries node.fd (node.expire, node.cb)).mpr hnode
      simp only at hsame
      rw [hsame, Function.update_self] at hentry
      cases hentry
    · exact rest.removed f hf
  · refine List.pairwise_cons.mpr ⟨?_, rest.sorted⟩
    intro f hf
    have hnode := (h.entries _ _).mp (hrest f hf).2.1
    exact h.front hfront hnode
  · refine List.nodup_cons.mpr ⟨?_, rest.distinct⟩
    intro hmem
    obtain ⟨f, hf, hsame⟩ := List.mem_map.mp hmem
    exact (hrest f hf).1 hsame
  · intro fd e he hle
    rw [List.map_cons, List.mem_cons]
    by_cases hfd : fd = front.fd
    · subst hfd
      simp [Untouched]
    have hne : front.fd ≠ fd := Ne.symm hfd
    by_cases hother : ∀ op ∈ ops, ¬op.Names fd
    · have hkept : afterRound M front.fd ops fd = some e := by
        unfold afterRound
        rw [TimerTable.run_unnamed allowed hother, Function.update_of_ne hfd]
        exact he
      have hiff := rest.exact_ fd e hkept hle
      simp only [Untouched, hne, hfd, false_or]
      constructor
      · rintro ⟨_, huntouched⟩
        exact hiff.mp huntouched
      · intro hmem
        exact ⟨hother, hiff.mpr hmem⟩
    · simp only [Untouched, hne, hfd, false_or]
      constructor
      · rintro ⟨hnone, _⟩
        exact absurd hnone hother
      · intro hmem
        obtain ⟨f, hf, rfl⟩ := List.mem_map.mp hmem
        exact absurd (hrest f hf).2.2 hother

/-- The nodes of the heap that are due. -/
def due (now : Nat) (t : Timer γ) : List (TimerNode γ) :=
  t.heap.filter fun node => node.expire ≤ now

theorem mem_due {node : TimerNode γ} :
    node ∈ t.due now ↔ node ∈ t.heap ∧ node.expire ≤ now := by
  simp [due]

theorem Sound.due_nodup (h : Sound t M) (now : Nat) : (t.due now).Nodup :=
  h.indexed.distinct.of_map.filter _

/-- A round leaves fewer nodes that are due. -/
theorem due_shrinks (allowed : ∀ op ∈ ops, op.Allowed now) (h : Sound t M)
    (hfront : t.heap.head? = some front) (hdue : front.expire ≤ now) :
    ((run apply (t.delete front.fd) ops).1.due now).length < (t.due now).length := by
  have hafter := h.afterRound front.fd ops
  have hkept : ∀ node ∈ (run apply (t.delete front.fd) ops).1.due now,
      node.fd ≠ front.fd ∧ node ∈ t.due now := by
    intro node hnode
    obtain ⟨hmem, hle⟩ := mem_due.mp hnode
    have he := (hafter.entries node.fd (node.expire, node.cb)).mpr hmem
    obtain ⟨hfd, hM, _⟩ := due_afterRound allowed he hle
    exact ⟨hfd, mem_due.mpr ⟨(h.entries _ _).mp hM, hle⟩⟩
  have hnodup : (front :: (run apply (t.delete front.fd) ops).1.due now).Nodup := by
    refine List.nodup_cons.mpr ⟨?_, hafter.due_nodup now⟩
    intro hmem
    exact (hkept front hmem).1 rfl
  have hsubset : front :: (run apply (t.delete front.fd) ops).1.due now ⊆ t.due now := by
    intro node hnode
    rcases List.mem_cons.mp hnode with rfl | hnode
    · exact mem_due.mpr ⟨List.mem_of_mem_head? hfront, hdue⟩
    · exact (hkept node hnode).2
  have hlength := (List.subperm_of_subset hnodup hsubset).length_le
  rw [List.length_cons] at hlength
  omega

end Round

/-- With more fuel than nodes are due the loop ends, with nothing due. -/
theorem Sound.tickCalling {now : Nat} {calls : Nat → List (TimerOp γ)}
    (allowed : ∀ i, ∀ op ∈ calls i, op.Allowed now) {fuel : Nat} :
    ∀ {t : Timer γ} {M : TimerTable γ} (round : Nat), Sound t M → (t.due now).length < fuel →
      ∃ left fired, Timer.tickCalling now calls fuel round t = some (left, fired) ∧
        (∃ M', Sound left M' ∧ ∀ fd, M'.Later now fd) ∧ Fires now fired M := by
  induction fuel with
  | zero =>
    intro t M round h hfuel
    omega
  | succ fuel ih =>
    intro t M round h hfuel
    have hdone : (∀ fd, M.Later now fd) →
        ∃ left fired, some (t, []) = some (left, fired) ∧
          (∃ M', Sound left M' ∧ ∀ fd, M'.Later now fd) ∧ Fires now fired M :=
      fun later => ⟨t, [], rfl, ⟨M, h, later⟩, fires_none later⟩
    unfold Timer.tickCalling
    cases hfront : t.heap.head? with
    | none =>
      apply hdone
      intro fd e he
      have hmem := (h.entries fd e).mp he
      rw [List.head?_eq_none_iff.mp hfront] at hmem
      cases hmem
    | some front =>
      by_cases hlater : now < front.expire
      · simp only [if_pos hlater]
        apply hdone
        intro fd e he
        exact hlater.trans_le (h.front hfront ((h.entries fd e).mp he))
      · simp only [if_neg hlater]
        have hdue : front.expire ≤ now := by omega
        generalize hmade : (if front.cb.isSome then calls round else []) = made
        have hallowed : ∀ op ∈ made, op.Allowed now := by
          intro op hop
          rw [← hmade] at hop
          split at hop
          · exact allowed round op hop
          · cases hop
        have hshrinks := due_shrinks hallowed h hfront hdue
        obtain ⟨left, fired, hrun, hleft, hfires⟩ :=
          ih (round + 1) (h.afterRound front.fd made) (by omega)
        refine ⟨left, ⟨front, t.delete front.fd, made⟩ :: fired, ?_, hleft, ?_⟩
        · rw [hrun, Option.map_some]
        · exact .cons hallowed h hfront hdue hfires

/-- Every timer that is ordered and indexed stands for a table. -/
theorem Wf.sound {t : Timer γ} (h : t.Wf) : ∃ M, Sound t M := by
  refine ⟨fun fd => ((t.ref.find fd).bind (t.heap[·]?)).map fun node => (node.expire, node.cb),
    ⟨h.indexed, ?_⟩, ?_⟩
  · intro fd entry
    constructor
    · intro hentry
      obtain ⟨node, hnode, rfl⟩ := Option.map_eq_some_iff.mp hentry
      obtain ⟨i, hfind, hi⟩ := Option.bind_eq_some_iff.mp hnode
      obtain ⟨node', hnode', rfl⟩ := (h.indexed fd i).mp hfind
      obtain rfl := Option.some.inj (hi.symm.trans hnode')
      exact List.mem_of_getElem? hi
    · intro hmem
      obtain ⟨i, hi⟩ := List.mem_iff_getElem?.mp hmem
      have hfind : t.ref.find fd = some i := (h.indexed fd i).mpr ⟨_, hi, rfl⟩
      simp [hfind, hi, TimerNode.of]
  · intro j hj
    cases hnode : t.heap[j]? with
    | none =>
      rw [keys_outside (List.getElem?_eq_none_iff.mp hnode)]
      exact le_top
    | some node =>
      obtain ⟨hlt, _⟩ := List.getElem?_eq_some_iff.mp hnode
      have hparent : HeapOrder.parent j < t.heap.length := (HeapOrder.parent_lt hj).trans hlt
      have habove := List.getElem?_eq_getElem hparent
      rw [keys_of_lookup hnode, keys_of_lookup habove]
      exact WithTop.coe_le_coe.mpr (h.ordered j _ node hj habove hnode)

/-- `Tick` with callbacks that use the timer. -/
def tickWithCallbacks (t : Timer γ) (now : Nat) (calls : Nat → List (TimerOp γ)) :
    Option (Timer γ × List (Firing γ)) :=
  tickCalling now calls (t.heap.length + 1) 0 t

/-- Whatever the callbacks arm, adjust and delete, `Tick` ends with an ordered and indexed timer
in which nothing is due. Each node that it fires was due and has gone when its callback runs,
they fire in the order of their expiries, and a node that was due on entry fires once, unless a
callback names it before, and then not at all. -/
theorem tickWithCallbacks_spec {t : Timer γ} (wf : t.Wf) (now : Nat)
    {calls : Nat → List (TimerOp γ)} (allowed : ∀ i, ∀ op ∈ calls i, op.Allowed now) :
    ∃ left fired, t.tickWithCallbacks now calls = some (left, fired) ∧ left.Wf ∧
      (∀ node ∈ left.heap, now < node.expire) ∧
      (∀ f ∈ fired, f.node ∈ t.heap ∧ f.node.expire ≤ now ∧ f.timer.Wf ∧
        ∀ node ∈ f.timer.heap, node.fd ≠ f.node.fd) ∧
      (fired.Pairwise fun a b => a.node.expire ≤ b.node.expire) ∧
      ∀ node ∈ t.heap, node.expire ≤ now →
        (Untouched node.fd fired → node ∈ fired.map (·.node) ∧
          (fired.map (·.node.fd)).count node.fd = 1) ∧
        (¬Untouched node.fd fired → (fired.map (·.node.fd)).count node.fd = 0) := by
  obtain ⟨M, hsound⟩ := wf.sound
  have hfuel : (t.due now).length < t.heap.length + 1 :=
    Nat.lt_succ_of_le (List.length_filter_le _ _)
  obtain ⟨left, fired, hrun, ⟨M', hleft, hlater⟩, hfires⟩ :=
    hsound.tickCalling allowed 0 hfuel
  refine ⟨left, fired, hrun, hleft.wf, ?_, ?_, hfires.sorted, ?_⟩
  · intro node hnode
    exact hlater node.fd _ ((hleft.entries node.fd (node.expire, node.cb)).mpr hnode)
  · intro f hf
    obtain ⟨hM, hdue⟩ := hfires.due f hf
    obtain ⟨hwf, hgone⟩ := hfires.removed f hf
    exact ⟨(hsound.entries _ _).mp hM, hdue, hwf, hgone⟩
  · intro node hnode hdue
    have hM := (hsound.entries node.fd (node.expire, node.cb)).mpr hnode
    have hexact := hfires.exact_ node.fd _ hM hdue
    constructor
    · intro huntouched
      have hmem := hexact.mp huntouched
      refine ⟨?_, List.count_eq_one_of_mem hfires.distinct hmem⟩
      obtain ⟨f, hf, hsame⟩ := List.mem_map.mp hmem
      have hentry := (hfires.due f hf).1
      rw [hsame, hM] at hentry
      obtain ⟨hexpire, hcb⟩ := Prod.mk.inj (Option.some.inj hentry)
      refine List.mem_map.mpr ⟨f, hf, ?_⟩
      obtain ⟨⟨fd, expire, cb⟩, timer, made⟩ := f
      obtain ⟨fd', expire', cb'⟩ := node
      simp only at hsame hexpire hcb
      rw [hsame, hexpire, hcb]
    · intro htouched
      exact List.count_eq_zero_of_not_mem (mt hexact.mpr htouched)

/-- The callback that fires first postpones one timer and arms another. -/
theorem tickWithCallbacks_postponed :
    let t := (({} : Timer Nat).add 0 3 10 (some 1)).add 0 4 5 (some 2)
    let calls : Nat → List (TimerOp Nat) := fun _ => [.adjust 21 3 50, .add 22 6 9 none]
    t.Wf ∧ ∃ left fired, t.tickWithCallbacks 20 calls = some (left, fired) ∧ left.Wf ∧
      ∀ node ∈ left.heap, 20 < node.expire := by
  intro t calls
  have wf : t.Wf := ((sound_empty.add 0 3 10 (some 1)).add 0 4 5 (some 2)).wf
  have allowed : ∀ i, ∀ op ∈ calls i, op.Allowed 20 := by
    intro i op hop
    simp only [calls, List.mem_cons, List.not_mem_nil, or_false] at hop
    rcases hop with rfl | rfl
    · simp [TimerOp.Allowed]
    · simp [TimerOp.Allowed]
  obtain ⟨left, fired, hrun, hwf, hlater, _⟩ := tickWithCallbacks_spec wf 20 allowed
  exact ⟨wf, left, fired, hrun, hwf, hlater⟩

end Timer

end WebServer
