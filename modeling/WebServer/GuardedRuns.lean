import Mathlib.Data.List.Basic

/-!
# Finite runs of partial labelled steps

A step is a partial function of a state and a label. A run executes a list of
labels and fails when one of them is not enabled. Guards restrict the labels
that a run may take in a given state; the invariant rule below asks for
preservation under guarded steps only. Nothing is assumed about fairness,
determinism of a scheduler, or finiteness of the state space.
-/

namespace GuardedRuns

universe u v w

variable {S : Type u} {A : Type v}

/-- Execute the labels from left to right. -/
def exec (step : S → A → Option S) : S → List A → Option S
  | s, [] => some s
  | s, a :: as => (step s a).bind fun t => exec step t as

/-- Every label of the run satisfies the guard in the state where it is taken. -/
def Guarded (step : S → A → Option S) (ok : S → A → Prop) : S → List A → Prop
  | _, [] => True
  | s, a :: as => ok s a ∧ ∀ t, step s a = some t → Guarded step ok t as

@[simp] theorem exec_nil (step : S → A → Option S) (s : S) : exec step s [] = some s := rfl

theorem exec_cons_iff (step : S → A → Option S) (s t : S) (a : A) (as : List A) :
    exec step s (a :: as) = some t ↔ ∃ m, step s a = some m ∧ exec step m as = some t := by
  simp only [exec, Option.bind_eq_some_iff]

theorem exec_append_iff (step : S → A → Option S) (s t : S) (as bs : List A) :
    exec step s (as ++ bs) = some t ↔
      ∃ m, exec step s as = some m ∧ exec step m bs = some t := by
  induction as generalizing s with
  | nil => simp
  | cons a as ih =>
    rw [List.cons_append, exec_cons_iff]
    constructor
    · rintro ⟨m, hm, hrest⟩
      obtain ⟨r, hr, ht⟩ := (ih m).mp hrest
      exact ⟨r, (exec_cons_iff step s r a as).mpr ⟨m, hm, hr⟩, ht⟩
    · rintro ⟨r, hr, ht⟩
      obtain ⟨m, hm, hrest⟩ := (exec_cons_iff step s r a as).mp hr
      exact ⟨m, hm, (ih m).mpr ⟨r, hrest, ht⟩⟩

theorem guarded_append_right {step : S → A → Option S} {ok : S → A → Prop} {s m : S}
    {as bs : List A} (h : Guarded step ok s (as ++ bs)) (run : exec step s as = some m) :
    Guarded step ok m bs := by
  induction as generalizing s with
  | nil =>
    have hs : s = m := Option.some.inj run
    exact hs ▸ h
  | cons a as ih =>
    obtain ⟨t, ht, hrest⟩ := (exec_cons_iff step s m a as).mp run
    exact ih (h.2 t ht) hrest

/-- Guards that can be evaluated can be evaluated along a run. -/
instance decidableGuarded (step : S → A → Option S) (ok : S → A → Prop)
    [∀ s a, Decidable (ok s a)] : ∀ s as, Decidable (Guarded step ok s as)
  | _, [] => .isTrue trivial
  | s, a :: as =>
    match h : step s a with
    | none => decidable_of_iff (ok s a) (by simp [Guarded, h])
    | some t =>
      have := decidableGuarded step ok t as
      decidable_of_iff (ok s a ∧ Guarded step ok t as) (by simp [Guarded, h])

/-- An invariant kept by every guarded step holds at the end of a guarded run. -/
theorem invariant_of_guarded {step : S → A → Option S} {ok : S → A → Prop} (Inv : S → Prop)
    (preserved : ∀ s a t, Inv s → ok s a → step s a = some t → Inv t)
    {s t : S} {as : List A} (start : Inv s) (guarded : Guarded step ok s as)
    (run : exec step s as = some t) : Inv t := by
  induction as generalizing s with
  | nil => exact Option.some.inj run ▸ start
  | cons a as ih =>
    obtain ⟨m, hm, hrest⟩ := (exec_cons_iff step s t a as).mp run
    exact ih (preserved s a m start guarded.1 hm) (guarded.2 m hm) hrest

/-- The unguarded special case. -/
theorem invariant_of_run {step : S → A → Option S} (Inv : S → Prop)
    (preserved : ∀ s a t, Inv s → step s a = some t → Inv t)
    {s t : S} {as : List A} (start : Inv s) (run : exec step s as = some t) : Inv t := by
  induction as generalizing s with
  | nil => exact Option.some.inj run ▸ start
  | cons a as ih =>
    obtain ⟨m, hm, hrest⟩ := (exec_cons_iff step s t a as).mp run
    exact ih (preserved s a m start hm) hrest

/-- An invariant of the state and of the labels taken so far. -/
theorem history_of_guarded {step : S → A → Option S} {ok : S → A → Prop} (Inv : S → List A → Prop)
    (preserved : ∀ s a t before, Inv s before → ok s a → step s a = some t → Inv t (before ++ [a]))
    {s t : S} {before as : List A} (start : Inv s before) (guarded : Guarded step ok s as)
    (run : exec step s as = some t) : Inv t (before ++ as) := by
  induction as generalizing s before with
  | nil =>
    rw [List.append_nil]
    exact Option.some.inj run ▸ start
  | cons a as ih =>
    obtain ⟨m, hm, hrest⟩ := (exec_cons_iff step s t a as).mp run
    have hnext := ih (preserved s a m before start guarded.1 hm) (guarded.2 m hm) hrest
    rwa [List.append_assoc] at hnext

theorem guarded_true (step : S → A → Option S) (s : S) (as : List A) :
    Guarded step (fun _ _ => True) s as := by
  induction as generalizing s with
  | nil => trivial
  | cons a as ih => exact ⟨trivial, fun t _ => ih t⟩

theorem history_of_run {step : S → A → Option S} (Inv : S → List A → Prop)
    (preserved : ∀ s a t before, Inv s before → step s a = some t → Inv t (before ++ [a]))
    {s t : S} {as : List A} (start : Inv s []) (run : exec step s as = some t) : Inv t as :=
  history_of_guarded Inv (fun s a t before h _ => preserved s a t before h) start
    (guarded_true step s as) run

/-- A property of every state that a run goes through, the first and the last included. -/
def Throughout (step : S → A → Option S) (Inv : S → Prop) (s : S) (as : List A) : Prop :=
  ∀ before t, before <+: as → exec step s before = some t → Inv t

theorem throughout_cons {step : S → A → Option S} {Inv : S → Prop} {s m : S} {a : A} {as : List A}
    (next : step s a = some m) :
    Throughout step Inv s (a :: as) ↔ Inv s ∧ Throughout step Inv m as := by
  constructor
  · intro h
    refine ⟨h [] s (List.nil_prefix) rfl, ?_⟩
    intro before t hbefore hrun
    apply h (a :: before) t (List.cons_prefix_cons.mpr ⟨rfl, hbefore⟩)
    exact (exec_cons_iff step s t a before).mpr ⟨m, next, hrun⟩
  · rintro ⟨hs, hm⟩ before t hbefore hrun
    rcases List.prefix_cons_iff.mp hbefore with rfl | ⟨rest, rfl, hrest⟩
    · exact Option.some.inj hrun ▸ hs
    · obtain ⟨r, hr, ht⟩ := (exec_cons_iff step s t a rest).mp hrun
      rw [next] at hr
      exact hm rest t hrest (Option.some.inj hr ▸ ht)

/-- What exactly the guarded steps preserve holds throughout exactly the guarded runs. -/
theorem throughout_iff_guarded {step : S → A → Option S} {ok : S → A → Prop} {Inv : S → Prop}
    (kept : ∀ s a t, Inv s → step s a = some t → (Inv t ↔ ok s a)) {s t : S} {as : List A}
    (start : Inv s) (run : exec step s as = some t) :
    Throughout step Inv s as ↔ Guarded step ok s as := by
  induction as generalizing s with
  | nil =>
    refine iff_of_true ?_ trivial
    intro before r hbefore hrun
    obtain rfl := List.prefix_nil.mp hbefore
    exact Option.some.inj hrun ▸ start
  | cons a as ih =>
    obtain ⟨m, hm, hrest⟩ := (exec_cons_iff step s t a as).mp run
    rw [throughout_cons hm, and_iff_right start]
    constructor
    · intro h
      have hinv : Inv m := h [] m List.nil_prefix rfl
      refine ⟨(kept s a m start hm).mp hinv, ?_⟩
      intro r hr
      obtain rfl := Option.some.inj (hm.symm.trans hr)
      exact (ih hinv hrest).mp h
    · rintro ⟨hok, hguarded⟩
      exact (ih ((kept s a m start hm).mpr hok) hrest).mpr (hguarded m hm)

section Potential

/-- The gains of all labels together. -/
def total (gain : A → ℕ) : List A → ℕ
  | [] => 0
  | a :: as => gain a + total gain as

variable {step : S → A → Option S} {μ : S → ℕ} {gain : A → ℕ}

/-- A potential that no step raises by more than the gain of its label. -/
theorem potential_le (bounded : ∀ s a t, step s a = some t → μ t ≤ μ s + gain a) {s t : S}
    {as : List A} (run : exec step s as = some t) : μ t ≤ μ s + total gain as := by
  induction as generalizing s with
  | nil =>
    rw [Option.some.inj run]
    exact Nat.le_add_right _ _
  | cons a as ih =>
    obtain ⟨m, hm, hrest⟩ := (exec_cons_iff step s t a as).mp run
    have hfirst := bounded s a m hm
    have hlast := ih hrest
    rw [total]
    omega

/-- What every step balances is balanced over a run. -/
theorem balance_of_run {loss : A → ℕ}
    (balanced : ∀ s a t, step s a = some t → μ t + loss a = μ s + gain a) {s t : S} {as : List A}
    (run : exec step s as = some t) : μ t + total loss as = μ s + total gain as := by
  induction as generalizing s with
  | nil => rw [Option.some.inj run, total, total]
  | cons a as ih =>
    obtain ⟨m, hm, hrest⟩ := (exec_cons_iff step s t a as).mp run
    have hfirst := balanced s a m hm
    have hlast := ih hrest
    rw [total, total]
    omega

/-- When every step outside the guard falls short of its gain, so does an unguarded run. -/
theorem potential_lt {ok : S → A → Prop}
    (bounded : ∀ s a t, step s a = some t → μ t ≤ μ s + gain a)
    (short : ∀ s a t, ¬ok s a → step s a = some t → μ t < μ s + gain a) {s t : S} {as : List A}
    (unguarded : ¬Guarded step ok s as) (run : exec step s as = some t) :
    μ t < μ s + total gain as := by
  induction as generalizing s with
  | nil => exact absurd trivial unguarded
  | cons a as ih =>
    obtain ⟨m, hm, hrest⟩ := (exec_cons_iff step s t a as).mp run
    rw [total]
    by_cases hok : ok s a
    · have hfirst := bounded s a m hm
      have hlast := ih (s := m) (fun h => unguarded ⟨hok, fun t' ht' => by
        rw [hm] at ht'
        exact Option.some.inj ht' ▸ h⟩) hrest
      omega
    · have hfirst := short s a m hok hm
      have hlast := potential_le bounded hrest
      omega

/-- Where every step lowers the potential, it bounds the length of the runs. -/
theorem length_le_of_falling (Inv : S → Prop)
    (preserved : ∀ s a t, Inv s → step s a = some t → Inv t)
    (falling : ∀ s a t, Inv s → step s a = some t → μ t < μ s) {s t : S} {as : List A}
    (start : Inv s) (run : exec step s as = some t) : as.length + μ t ≤ μ s := by
  induction as generalizing s with
  | nil =>
    obtain rfl := Option.some.inj run
    show 0 + μ s ≤ μ s
    omega
  | cons a as ih =>
    obtain ⟨m, hm, hrest⟩ := (exec_cons_iff step s t a as).mp run
    have hfirst := falling s a m start hm
    have hlast := ih (preserved s a m start hm) hrest
    rw [List.length_cons]
    omega

end Potential

/-- Two machines that stay related step by step under related labels, and refuse them
together, are related at the end of every run. -/
theorem exec_related {T : Type w} {B : Type v} {step : S → A → Option S}
    {step' : T → B → Option T} {R : S → T → Prop} {Q : A → B → Prop}
    (sim : ∀ s t a b, R s t → Q a b → Option.Rel R (step s a) (step' t b)) {s : S} {t : T}
    (related : R s t) {as : List A} {bs : List B} (labels : List.Forall₂ Q as bs) :
    Option.Rel R (exec step s as) (exec step' t bs) := by
  induction labels generalizing s t with
  | nil => exact .some related
  | @cons a b as bs hlabel _ ih =>
    have hstep := sim s t a b related hlabel
    rw [exec, exec]
    generalize step s a = next at hstep ⊢
    generalize step' t b = next' at hstep ⊢
    cases hstep with
    | none => exact .none
    | some hnext => exact ih hnext

end GuardedRuns
