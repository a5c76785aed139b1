import Mathlib.Data.List.Infix

/-!
# Reading values off a stream

A reader takes one value off the front of a stream when it is there in full, and says
nothing otherwise. A steadfast reader does not change its mind when more of the stream
arrives. Whoever reads with it sees a prefix of the values at every moment, and all of
them at the end of a stream of whole encodings.
-/

namespace StreamReader

universe u v w

variable {α : Type u} {β : Type v} {ι : Type w}

/-- What was read stays read, and a value takes at least one element. -/
structure Steadfast (next : List α → Option (β × List α)) : Prop where
  extend : ∀ xs b rest ys, next xs = some (b, rest) → next (xs ++ ys) = some (b, rest ++ ys)
  consumes : ∀ xs b rest, next xs = some (b, rest) → rest.length < xs.length

def readFuel (next : List α → Option (β × List α)) : Nat → List α → List β
  | 0, _ => []
  | fuel + 1, xs =>
    match next xs with
    | none => []
    | some (b, rest) => b :: readFuel next fuel rest

/-- The values that are there in full, one after another. -/
def readAll (next : List α → Option (β × List α)) (xs : List α) : List β :=
  readFuel next xs.length xs

variable {next : List α → Option (β × List α)}

theorem readFuel_enough (steady : Steadfast next) {n m : Nat} {xs : List α} (hn : xs.length ≤ n)
    (hm : xs.length ≤ m) : readFuel next n xs = readFuel next m xs := by
  induction n generalizing m xs with
  | zero =>
    obtain rfl := List.length_eq_zero_iff.mp (Nat.le_zero.mp hn)
    cases m with
    | zero => rfl
    | succ m =>
      cases hnext : next [] with
      | none => simp only [readFuel, hnext]
      | some out => exact absurd (steady.consumes [] out.1 out.2 hnext) (Nat.not_lt_zero _)
  | succ n ih =>
    cases hnext : next xs with
    | none => cases m <;> simp only [readFuel, hnext]
    | some out =>
      have hless := steady.consumes xs out.1 out.2 hnext
      cases m with
      | zero => omega
      | succ m =>
        simp only [readFuel, hnext]
        exact congrArg _ (ih (by omega) (by omega))

theorem readAll_none {xs : List α} (h : next xs = none) : readAll next xs = [] := by
  rw [readAll]
  cases xs.length <;> simp only [readFuel, h]

theorem readAll_some (steady : Steadfast next) {xs rest : List α} {b : β}
    (h : next xs = some (b, rest)) : readAll next xs = b :: readAll next rest := by
  have hless := steady.consumes xs b rest h
  obtain ⟨n, hn⟩ := Nat.exists_eq_succ_of_ne_zero (Nat.ne_of_gt (Nat.zero_lt_of_lt hless))
  rw [readAll, hn]
  simp only [readFuel, h]
  exact congrArg _ (readFuel_enough steady (by omega) (Nat.le_refl _))

/-- More of the stream only adds values behind those read before. -/
theorem readAll_prefix (steady : Steadfast next) {xs ys : List α} (h : xs <+: ys) :
    readAll next xs <+: readAll next ys := by
  obtain ⟨more, rfl⟩ := h
  induction hlength : xs.length using Nat.strong_induction_on generalizing xs with
  | _ n ih =>
    cases hnext : next xs with
    | none =>
      rw [readAll_none hnext]
      exact List.nil_prefix
    | some out =>
      obtain ⟨b, rest⟩ := out
      have hless := steady.consumes xs b rest hnext
      rw [readAll_some steady hnext, readAll_some steady (steady.extend xs b rest more hnext)]
      exact List.cons_prefix_cons.mpr ⟨rfl, ih rest.length (by omega) rfl⟩

/-- Whole encodings are read back as what they encode. -/
theorem readAll_encoded (steady : Steadfast next) {encode : ι → List α} {value : ι → β}
    {items : List ι}
    (reads : ∀ i ∈ items, ∀ rest, next (encode i ++ rest) = some (value i, rest))
    (tail : List α) :
    readAll next (items.flatMap encode ++ tail) = items.map value ++ readAll next tail := by
  induction items with
  | nil => rfl
  | cons i items ih =>
    obtain ⟨hfirst, hrest⟩ := List.forall_mem_cons.mp reads
    rw [List.flatMap_cons, List.append_assoc, readAll_some steady (hfirst _), List.map_cons,
      List.cons_append]
    exact congrArg _ (ih hrest)

end StreamReader
