import Mathlib.Data.List.Basic

/-!
# Auditing a trace against an account

An account is folded along a trace of events. An audit asks of every event that it
is permitted in the account reached just before it. Audits of a concatenation split
at the account in between, which is what a step by step proof needs, and a sound
audit can be read off at any event of the trace.
-/

namespace TraceAudit

universe u v

variable {σ : Type u} {E : Type v}

/-- The account after a trace. -/
def account (advance : σ → E → σ) (acc : σ) (trace : List E) : σ := trace.foldl advance acc

/-- Every event is permitted when it happens. -/
def Sound (advance : σ → E → σ) (permits : σ → E → Prop) : σ → List E → Prop
  | _, [] => True
  | acc, e :: rest => permits acc e ∧ Sound advance permits (advance acc e) rest

variable {advance : σ → E → σ} {permits : σ → E → Prop}

theorem account_append (acc : σ) (xs ys : List E) :
    account advance acc (xs ++ ys) = account advance (account advance acc xs) ys :=
  List.foldl_append

theorem sound_append (acc : σ) (xs ys : List E) :
    Sound advance permits acc (xs ++ ys) ↔
      Sound advance permits acc xs ∧ Sound advance permits (account advance acc xs) ys := by
  induction xs generalizing acc with
  | nil => exact (true_and _).symm ▸ Iff.rfl
  | cons x xs ih =>
    constructor
    · rintro ⟨hx, hrest⟩
      obtain ⟨hxs, hys⟩ := (ih (advance acc x)).mp hrest
      exact ⟨⟨hx, hxs⟩, hys⟩
    · rintro ⟨⟨hx, hxs⟩, hys⟩
      exact ⟨hx, (ih (advance acc x)).mpr ⟨hxs, hys⟩⟩

/-- Any event of an audited trace was permitted by the account before it. -/
theorem sound_at {acc : σ} {before after : List E} {e : E}
    (h : Sound advance permits acc (before ++ e :: after)) :
    permits (account advance acc before) e :=
  ((sound_append acc before (e :: after)).mp h).2.1

/-- Events that are always permitted and leave the account alone. -/
def Neutral (advance : σ → E → σ) (permits : σ → E → Prop) (e : E) : Prop :=
  ∀ acc, advance acc e = acc ∧ permits acc e

theorem account_neutral {acc : σ} {trace : List E}
    (h : ∀ e ∈ trace, Neutral advance permits e) : account advance acc trace = acc := by
  induction trace with
  | nil => rfl
  | cons e rest ih =>
    obtain ⟨he, hrest⟩ := List.forall_mem_cons.mp h
    have hstep : advance acc e = acc := (he acc).1
    exact (congrArg (account advance · rest) hstep).trans (ih hrest)

theorem sound_neutral {acc : σ} {trace : List E}
    (h : ∀ e ∈ trace, Neutral advance permits e) : Sound advance permits acc trace := by
  induction trace with
  | nil => trivial
  | cons e rest ih =>
    obtain ⟨he, hrest⟩ := List.forall_mem_cons.mp h
    obtain ⟨hsame, hpermits⟩ := he acc
    exact ⟨hpermits, hsame.symm ▸ ih hrest⟩

end TraceAudit
