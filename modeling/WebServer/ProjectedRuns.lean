import WebServer.GuardedRuns

/-!
# Runs seen from one part of a machine

A part of a machine is a machine of its own. Every step of the whole amounts to some
steps of the part, to none when the part is not concerned; a run of the whole then amounts
to a run of the part. What the part puts out is read along with it. The whole may do
anything else: nothing is asked of the steps that do not concern the part.
-/

namespace GuardedRuns

universe u v w x y

variable {S : Type u} {A : Type v} {T : Type w} {B : Type x} {O : Type y}

/-- What `view` sees of a run, step after step. -/
def seen (step : S → A → Option S) (view : S → A → List B) : S → List A → List B
  | _, [] => []
  | s, a :: as => view s a ++ (step s a).elim [] fun t => seen step view t as

theorem seen_cons {step : S → A → Option S} {view : S → A → List B} {s t : S} {a : A}
    (next : step s a = some t) (as : List A) :
    seen step view s (a :: as) = view s a ++ seen step view t as := by
  rw [seen, next, Option.elim_some]

theorem seen_append {step : S → A → Option S} {view : S → A → List B} {s t : S} {as : List A}
    (run : exec step s as = some t) (bs : List A) :
    seen step view s (as ++ bs) = seen step view s as ++ seen step view t bs := by
  induction as generalizing s with
  | nil =>
    obtain rfl := Option.some.inj run
    rfl
  | cons a as ih =>
    obtain ⟨m, hm, hrest⟩ := (exec_cons_iff step s t a as).mp run
    rw [List.cons_append, seen_cons hm, seen_cons hm, ih hrest, List.append_assoc]

theorem seen_nil {step : S → A → Option S} {view : S → A → List B} {f : S → A → List O}
    (none : ∀ s a, view s a = [] → f s a = []) {s t : S} {as : List A}
    (run : exec step s as = some t) (h : seen step view s as = []) : seen step f s as = [] := by
  induction as generalizing s with
  | nil => rfl
  | cons a as ih =>
    obtain ⟨m, hm, hrest⟩ := (exec_cons_iff step s t a as).mp run
    rw [seen_cons hm] at h ⊢
    obtain ⟨hfirst, hlater⟩ := List.append_eq_nil_iff.mp h
    rw [none s a hfirst, ih hrest hlater, List.nil_append]

theorem guarded_append {step : S → A → Option S} {ok : S → A → Prop} {s t : S} {as bs : List A}
    (first : Guarded step ok s as) (run : exec step s as = some t)
    (second : Guarded step ok t bs) : Guarded step ok s (as ++ bs) := by
  induction as generalizing s with
  | nil =>
    obtain rfl := Option.some.inj run
    exact second
  | cons a as ih =>
    obtain ⟨m, hm, hrest⟩ := (exec_cons_iff step s t a as).mp run
    refine ⟨first.1, ?_⟩
    intro r hr
    obtain rfl := Option.some.inj (hm.symm.trans hr)
    exact ih (first.2 m hm) hrest

theorem guarded_both {step : S → A → Option S} {ok ok' : S → A → Prop} {s : S} {as : List A}
    (h : Guarded step ok s as) (h' : Guarded step ok' s as) :
    Guarded step (fun s a => ok s a ∧ ok' s a) s as := by
  induction as generalizing s with
  | nil => trivial
  | cons a as ih => exact ⟨⟨h.1, h'.1⟩, fun t ht => ih (h.2 t ht) (h'.2 t ht)⟩

/-- What no step can bring about, and is so at the end, was so all along. -/
theorem guarded_of_last {step : S → A → Option S} {P Inv : S → Prop}
    (preserved : ∀ s a t, Inv s → step s a = some t → Inv t)
    (back : ∀ s a t, Inv s → step s a = some t → P t → P s) {s t : S} {as : List A}
    (start : Inv s) (run : exec step s as = some t) (last : P t) :
    P s ∧ Guarded step (fun s a => ∀ u, step s a = some u → P u) s as := by
  induction as generalizing s with
  | nil =>
    obtain rfl := Option.some.inj run
    exact ⟨last, trivial⟩
  | cons a as ih =>
    obtain ⟨m, hm, hrest⟩ := (exec_cons_iff step s t a as).mp run
    obtain ⟨hnext, hlater⟩ := ih (preserved s a m start hm) hrest
    refine ⟨back s a m start hm hnext, ?_, ?_⟩
    · intro u hu
      obtain rfl := Option.some.inj (hm.symm.trans hu)
      exact hnext
    · intro u hu
      obtain rfl := Option.some.inj (hm.symm.trans hu)
      exact hlater

/-- A guard on the labels alone can be added. -/
theorem guarded_and {step : S → A → Option S} {ok : S → A → Prop} {q : A → Prop} {s : S}
    {as : List A} (h : Guarded step ok s as) (all : ∀ a ∈ as, q a) :
    Guarded step (fun s a => ok s a ∧ q a) s as := by
  induction as generalizing s with
  | nil => trivial
  | cons a as ih =>
    obtain ⟨hfirst, hrest⟩ := List.forall_mem_cons.mp all
    exact ⟨⟨h.1, hfirst⟩, fun t ht => ih (h.2 t ht) hrest⟩

/-- When a step never adds more to an account than it shows, and all of that exactly when it is
allowed, then so does a run. -/
theorem account_of_run {step : S → A → Option S} {ok : S → A → Prop} {view : S → A → List B}
    (Account : S → List B → Prop)
    (account : ∀ s a t L, Account s L → step s a = some t →
      ∃ M, Account t M ∧ M.Sublist (L ++ view s a) ∧ (M = L ++ view s a ↔ ok s a))
    {s t : S} {as : List A} {L : List B} (start : Account s L) (run : exec step s as = some t) :
    ∃ M, Account t M ∧ M.Sublist (L ++ seen step view s as) ∧
      (M = L ++ seen step view s as ↔ Guarded step ok s as) := by
  induction as generalizing s L with
  | nil =>
    obtain rfl := Option.some.inj run
    refine ⟨L, start, ?_, ?_⟩
    · rw [seen, List.append_nil]
    · rw [seen, List.append_nil]
      exact iff_of_true rfl trivial
  | cons a as ih =>
    obtain ⟨m, hm, hrest⟩ := (exec_cons_iff step s t a as).mp run
    obtain ⟨K, hK, hfirst, hall⟩ := account s a m L start hm
    obtain ⟨M, hM, hlater, hguarded⟩ := ih hK hrest
    rw [seen_cons hm, ← List.append_assoc]
    refine ⟨M, hM, hlater.trans (hfirst.append_right _), ?_, ?_⟩
    · intro hwhole
      have hlengths := hlater.length_le
      simp only [hwhole, List.length_append] at hlengths
      have hsame : K = L ++ view s a := by
        apply hfirst.eq_of_length_le
        rw [List.length_append]
        omega
      refine ⟨hall.mp hsame, fun u hu => ?_⟩
      obtain rfl := Option.some.inj (hm.symm.trans hu)
      rw [← hguarded, hwhole, hsame]
    · rintro ⟨hok, hnext⟩
      rw [hguarded.mpr (hnext m hm), hall.mpr hok]

/-- The part is a component of the whole. -/
theorem exec_projected {step : S → A → Option S} {step' : T → B → Option T} {view : S → A → List B}
    (part : S → T) (Inv : S → Prop)
    (preserved : ∀ s a t, Inv s → step s a = some t → Inv t)
    (project : ∀ s a t, Inv s → step s a = some t → exec step' (part s) (view s a) = some (part t))
    {s t : S} {as : List A} (start : Inv s) (run : exec step s as = some t) :
    exec step' (part s) (seen step view s as) = some (part t) := by
  induction as generalizing s with
  | nil =>
    obtain rfl := Option.some.inj run
    rfl
  | cons a as ih =>
    obtain ⟨m, hm, hrest⟩ := (exec_cons_iff step s t a as).mp run
    rw [seen_cons hm]
    refine (exec_append_iff step' _ _ _ _).mpr ⟨part m, project s a m start hm, ?_⟩
    exact ih (preserved s a m start hm) hrest

/-- One step of the whole is some steps of the part, with the same output, and under guards
of the part that the guard of the whole implies. -/
def Views (step : S → A → Option S) (ok : S → A → Prop) (step' : T → B → Option T)
    (ok' : T → B → Prop) (R : S → T → Prop) (view : S → A → List B) (out : S → A → List O)
    (log : T → List O) : Prop :=
  ∀ s t a s', R s t → ok s a → step s a = some s' →
    Guarded step' ok' t (view s a) ∧
      ∃ t', exec step' t (view s a) = some t' ∧ R s' t' ∧ log t' = log t ++ out s a

variable {step : S → A → Option S} {ok : S → A → Prop} {step' : T → B → Option T}
  {ok' : T → B → Prop} {R : S → T → Prop} {view : S → A → List B} {out : S → A → List O}
  {log : T → List O}

/-- A guarded run of the whole amounts to a guarded run of the part. -/
theorem exec_seen (views : Views step ok step' ok' R view out log) {s s' : S} {t : T} {as : List A}
    (related : R s t) (guarded : Guarded step ok s as) (run : exec step s as = some s') :
    Guarded step' ok' t (seen step view s as) ∧
      ∃ t', exec step' t (seen step view s as) = some t' ∧ R s' t' ∧
        log t' = log t ++ seen step out s as := by
  induction as generalizing s t with
  | nil =>
    obtain rfl := Option.some.inj run
    exact ⟨trivial, t, rfl, related, (List.append_nil _).symm⟩
  | cons a as ih =>
    obtain ⟨m, hm, hrest⟩ := (exec_cons_iff step s s' a as).mp run
    obtain ⟨hfirst, r, hr, hrelated, hlog⟩ := views s t a m related guarded.1 hm
    obtain ⟨hlater, t', ht', hlast, hall⟩ := ih hrelated (guarded.2 m hm) hrest
    rw [seen_cons hm, seen_cons hm]
    refine ⟨guarded_append hfirst hr hlater, t', ?_, hlast, ?_⟩
    · exact (exec_append_iff step' t t' _ _).mpr ⟨r, hr, ht'⟩
    · rw [hall, hlog, List.append_assoc]

end GuardedRuns
