import Mathlib.Data.List.Basic

/-!
# Resumable consumers of a byte stream

A consumer looks at its state and at the input read so far and makes one move:
it advances after using a prefix of the input, it halts with an answer, or it
waits for more input. A consumer is stable when a move that is not a wait never
changes by reading more input. For a stable consumer, stopping and resuming at
any point of the stream gives the answer of an uninterrupted pass.
-/

namespace Resumable

universe u v w

/-- One move; `used` counts the input elements it takes. -/
inductive Move (σ : Type u) (ρ : Type v) where
  | wait
  | advance (next : σ) (used : Nat)
  | halt (answer : ρ) (next : σ) (used : Nat)

variable {σ : Type u} {ρ : Type v} {α : Type w}

/-- A move that is not a wait uses only input that is there, and is kept when
the input is extended. -/
structure Stable (move : σ → List α → Move σ ρ) : Prop where
  advance_used : ∀ s xs t n, move s xs = .advance t n → n ≤ xs.length
  halt_used : ∀ s xs r t n, move s xs = .halt r t n → n ≤ xs.length
  advance_extend : ∀ s xs t n ys, move s xs = .advance t n → move s (xs ++ ys) = .advance t n
  halt_extend : ∀ s xs r t n ys, move s xs = .halt r t n → move s (xs ++ ys) = .halt r t n

/-- `Drives move s xs answer t ys`: moves from `s` on input `xs` end in state `t`
with `ys` unread; the answer is `none` when the consumer waits. -/
inductive Drives (move : σ → List α → Move σ ρ) :
    σ → List α → Option ρ → σ → List α → Prop where
  | wait {s xs} : move s xs = .wait → Drives move s xs none s xs
  | halt {s xs r t n} : move s xs = .halt r t n → Drives move s xs (some r) t (xs.drop n)
  | advance {s xs t n r u ys} : move s xs = .advance t n →
      Drives move t (xs.drop n) r u ys → Drives move s xs r u ys

theorem drives_unique {move : σ → List α → Move σ ρ} {s t t' : σ} {xs ys ys' : List α}
    {r r' : Option ρ} (h : Drives move s xs r t ys) (h' : Drives move s xs r' t' ys') :
    r = r' ∧ t = t' ∧ ys = ys' := by
  induction h with
  | wait hm =>
    cases h' with
    | wait => exact ⟨rfl, rfl, rfl⟩
    | halt hm' => rw [hm] at hm'; cases hm'
    | advance hm' => rw [hm] at hm'; cases hm'
  | halt hm =>
    cases h' with
    | wait hm' => rw [hm] at hm'; cases hm'
    | halt hm' => rw [hm] at hm'; cases hm'; exact ⟨rfl, rfl, rfl⟩
    | advance hm' => rw [hm] at hm'; cases hm'
  | advance hm _ ih =>
    cases h' with
    | wait hm' => rw [hm] at hm'; cases hm'
    | halt hm' => rw [hm] at hm'; cases hm'
    | advance hm' hrest => rw [hm] at hm'; cases hm'; exact ih hrest

/-- What advances and halts keep, about the state and the input left, holds at the end. -/
theorem drives_invariant {move : σ → List α → Move σ ρ} (Inv : σ → List α → Prop)
    (advance : ∀ s xs t n, Inv s xs → move s xs = .advance t n → Inv t (xs.drop n))
    (halt : ∀ s xs r t n, Inv s xs → move s xs = .halt r t n → Inv t (xs.drop n))
    {s t : σ} {xs ys : List α} {r : Option ρ} (h : Drives move s xs r t ys) (start : Inv s xs) :
    Inv t ys := by
  induction h with
  | wait => exact start
  | halt hm => exact halt _ _ _ _ _ start hm
  | advance hm _ ih => exact ih (advance _ _ _ _ start hm)

/-- Only a prefix of the input is used. -/
theorem drives_suffix {move : σ → List α → Move σ ρ} {s t : σ} {xs ys : List α} {r : Option ρ}
    (h : Drives move s xs r t ys) : ys <:+ xs := by
  induction h with
  | wait => exact List.suffix_refl _
  | halt => exact List.drop_suffix _ _
  | advance _ _ ih => exact ih.trans (List.drop_suffix _ _)

/-- A consumer without an answer has come to a wait. -/
theorem drives_wait {move : σ → List α → Move σ ρ} {s t : σ} {xs ys : List α}
    (h : Drives move s xs none t ys) : move t ys = .wait := by
  generalize hr : (none : Option ρ) = r at h
  induction h with
  | wait hm => exact hm
  | halt => cases hr
  | advance _ _ ih => exact ih hr

section
variable {move : σ → List α → Move σ ρ} (stable : Stable move)

include stable

/-- An answer reached on a prefix of the stream is the answer on the whole of it. -/
theorem drives_extend {s t : σ} {xs ys : List α} {r : ρ}
    (h : Drives move s xs (some r) t ys) (zs : List α) :
    Drives move s (xs ++ zs) (some r) t (ys ++ zs) := by
  generalize hr : some r = answer at h
  induction h with
  | wait => cases hr
  | @halt s xs r' t n hm =>
    have hd : (xs ++ zs).drop n = xs.drop n ++ zs :=
      List.drop_append_of_le_length (stable.halt_used s xs r' t n hm)
    rw [← hd]
    exact .halt (stable.halt_extend s xs r' t n zs hm)
  | @advance s xs t n r' u ys hm _ ih =>
    have hd : (xs ++ zs).drop n = xs.drop n ++ zs :=
      List.drop_append_of_le_length (stable.advance_used s xs t n hm)
    exact .advance (stable.advance_extend s xs t n zs hm) (hd ▸ ih hr)

/-- A consumer that waited may be resumed on its unread input with more appended. -/
theorem drives_resume {s t u : σ} {xs ys zs vs : List α} {r : Option ρ}
    (h : Drives move s xs none t ys) (more : Drives move t (ys ++ zs) r u vs) :
    Drives move s (xs ++ zs) r u vs := by
  generalize hn : (none : Option ρ) = answer at h
  induction h with
  | wait => exact more
  | halt => cases hn
  | @advance s xs t n r' u ys hm _ ih =>
    have hd : (xs ++ zs).drop n = xs.drop n ++ zs :=
      List.drop_append_of_le_length (stable.advance_used s xs t n hm)
    exact .advance (stable.advance_extend s xs t n zs hm) (hd ▸ ih more hn)

end

/-- Every way of driving on from `t` and `ys` is a way of driving from `s` and `xs`. -/
def Leads (move : σ → List α → Move σ ρ) (s : σ) (xs : List α) (t : σ) (ys : List α) : Prop :=
  ∀ r u zs, Drives move t ys r u zs → Drives move s xs r u zs

theorem leads_refl (move : σ → List α → Move σ ρ) (s : σ) (xs : List α) :
    Leads move s xs s xs := fun _ _ _ h => h

theorem leads_advance {move : σ → List α → Move σ ρ} {s t : σ} {xs : List α} {n : Nat}
    (h : move s xs = .advance t n) : Leads move s xs t (xs.drop n) :=
  fun _ _ _ rest => .advance h rest

theorem leads_trans {move : σ → List α → Move σ ρ} {s t u : σ} {xs ys zs : List α}
    (first : Leads move s xs t ys) (second : Leads move t ys u zs) : Leads move s xs u zs :=
  fun r v ws h => first r v ws (second r v ws h)

end Resumable
