import Mathlib.Data.List.Forall2
import WebServer.Forms
import WebServer.PercentEncoding

/-!
# Form bodies read back

A form is a list of pairs, each written as a key, an equals sign and a value, with ampersands
in between. `ParseFormBody` walks over the body with two positions; it is the same as splitting
at the ampersands, and from any way of writing the pairs it makes the map in which each key has
the value of its last pair.
-/

namespace WebServer

/-! ## The loop over positions -/

/-- `std::string::find` of a byte, from a position on. -/
def findFrom (c : Byte) (s : Str) (pos : Nat) : Option Nat :=
  if c ∈ s.drop pos then some (pos + ((s.drop pos).takeWhile (· ≠ c)).length) else none

/-- The loop of `ParseFormBody`, from this position on. -/
def parseFormLoop (body : Str) : Nat → Nat → List (Str × Str) → List (Str × Str)
  | 0, _, params => params
  | fuel + 1, pos, params =>
    if pos < body.length then
      let amp := (findFrom ampersand body pos).getD body.length
      let pair := (body.drop pos).take (amp - pos)
      parseFormLoop body fuel (amp + 1) (storePair params pair)
    else params

/-- An empty piece has no equals sign. -/
theorem storePair_empty (params : List (Str × Str)) : storePair params [] = params := rfl

/-- The text in front of a byte that occurs, and the text behind it. -/
theorem split_at_first {c : Byte} {s : Str} (h : c ∈ s) : c ∉ s.takeWhile (· ≠ c) ∧
    s = s.takeWhile (· ≠ c) ++ c :: s.drop ((s.takeWhile (· ≠ c)).length + 1) := by
  constructor
  · intro hmem
    have hsat := List.mem_takeWhile_imp hmem
    simp at hsat
  · induction s with
    | nil => cases h
    | cons b s ih =>
      by_cases hb : b = c
      · simp [hb]
      · have hs : c ∈ s := by
          rcases List.mem_cons.mp h with rfl | hs
          · exact absurd rfl hb
          · exact hs
        simpa [hb] using ih hs

/-- A fuel above what is left of the body suffices. -/
theorem parseFormLoop_eq {body : Str} {fuel pos : Nat} (enough : body.length < pos + fuel)
    (params : List (Str × Str)) : parseFormLoop body fuel pos params =
      ((body.drop pos).splitOn ampersand).foldl storePair params := by
  induction fuel generalizing pos params with
  | zero =>
    have hnone : body.drop pos = [] := List.drop_eq_nil_of_le (by omega)
    simp [parseFormLoop, hnone, storePair_empty]
  | succ fuel ih =>
    unfold parseFormLoop
    by_cases hpos : pos < body.length
    · rw [if_pos hpos]
      by_cases hmem : ampersand ∈ body.drop pos
      · obtain ⟨hfree, hsplit⟩ := split_at_first hmem
        generalize hpiece : (body.drop pos).takeWhile (· ≠ ampersand) = piece at hfree hsplit
        have hamp : (findFrom ampersand body pos).getD body.length = pos + piece.length := by
          rw [findFrom, if_pos hmem, hpiece, Option.getD_some]
        have hpair : (body.drop pos).take (pos + piece.length - pos) = piece := by
          rw [hsplit, Nat.add_sub_cancel_left, List.take_left]
        have hrest : body.drop (pos + piece.length + 1) =
            (body.drop pos).drop (piece.length + 1) := by
          rw [List.drop_drop, Nat.add_assoc]
        have hsplitOn := List.splitOn_append_cons_self_of_not_mem hfree
          ((body.drop pos).drop (piece.length + 1))
        rw [← hsplit] at hsplitOn
        simp only [hamp, hpair]
        rw [ih (by omega), hrest, hsplitOn, List.foldl_cons]
      · have hamp : (findFrom ampersand body pos).getD body.length = body.length := by
          simp [findFrom, hmem]
        have hpair : (body.drop pos).take (body.length - pos) = body.drop pos :=
          List.take_of_length_le (by rw [List.length_drop])
        have hrest : body.drop (body.length + 1) = [] := List.drop_eq_nil_of_le (by omega)
        simp only [hamp, hpair]
        rw [ih (by omega), hrest, List.splitOn_eq_singleton hmem]
        simp [storePair_empty]
    · have hnone : body.drop pos = [] := List.drop_eq_nil_of_le (by omega)
      simp [hpos, hnone, storePair_empty]

theorem parseFormBody_loop (body : Str) :
    parseFormLoop body (body.length + 1) 0 [] = parseFormBody body := by
  rw [parseFormLoop_eq (by omega), List.drop_zero, parseFormBody]

/-! ## Ways of writing a form -/

/-- A byte that may stand for itself: no escape, no plus sign and no separator. -/
def literalIn (separators : Str) (b : Byte) : Prop :=
  b ≠ percent ∧ b ≠ plus ∧ b ∉ separators

/-- The codes of a byte in a form. -/
def FormCode (separators : Str) (b : Byte) (e : Str) : Prop :=
  IsEscape b e ∨ (e = [plus] ∧ b = space) ∨ (e = [b] ∧ literalIn separators b)

/-- A key and a value with an equals sign in between; it is no separator in the value. -/
def WritesPair (pair : Str × Str) (written : Str) : Prop :=
  ∃ key value, Writes (FormCode [ampersand, equalsSign]) pair.1 key ∧
    Writes (FormCode [ampersand]) pair.2 value ∧ written = key ++ equalsSign :: value

theorem urlDecode_formCode {separators : Str} {b : Byte} {e : Str} (rest : Str)
    (h : FormCode separators b e) : urlDecode (e ++ rest) = b :: urlDecode rest := by
  rcases h with h | ⟨rfl, rfl⟩ | ⟨rfl, hpercent, hplus, _⟩
  · exact urlDecode_escape h rest
  · exact urlDecode_plus rest
  · exact urlDecode_itself hpercent hplus rest

/-- A separator occurs in no code. -/
theorem not_mem_formCode {separators : Str} {c b : Byte} {e : Str} (separates : c ∈ separators)
    (hpercent : c ≠ percent) (hplus : c ≠ plus) (hdigit : hexToChar c = none)
    (h : FormCode separators b e) : c ∉ e := by
  rcases h with h | ⟨rfl, _⟩ | ⟨rfl, _, _, hfree⟩
  · intro hmem
    rcases mem_escape h hmem with hc | hc
    · exact hpercent hc
    · exact hc hdigit
  · simpa using hplus
  · rw [List.mem_singleton]
    rintro rfl
    exact hfree separates

theorem ampersand_not_mem {separators s e : Str} (separates : ampersand ∈ separators)
    (h : Writes (FormCode separators) s e) : ampersand ∉ e :=
  not_mem_writes (fun _ _ => not_mem_formCode separates (by decide) (by decide) (by decide)) h

/-- A written pair has no ampersand, and storing it stores the pair. -/
theorem writesPair_stored {pair : Str × Str} {written : Str} (h : WritesPair pair written) :
    ampersand ∉ written ∧ ∀ params, storePair params written =
      KeyedList.put params pair.1 pair.2 := by
  obtain ⟨key, value, hkey, hvalue, rfl⟩ := h
  have hequals : equalsSign ∉ key :=
    not_mem_writes (fun _ _ => not_mem_formCode (by simp) (by decide) (by decide) (by decide)) hkey
  constructor
  · have hk := ampersand_not_mem (by simp) hkey
    have hv := ampersand_not_mem (by simp) hvalue
    have hne : ampersand ≠ equalsSign := by decide
    simp [hk, hv, hne]
  · intro params
    rw [storePair, splitAtByte_first hequals]
    simp only
    rw [urlDecode_writes (fun _ _ => urlDecode_formCode) hkey,
      urlDecode_writes (fun _ _ => urlDecode_formCode) hvalue]

/-- Storing pairs in order leaves each key with the value of its last pair. -/
theorem lookup_stored (pairs : List (Str × Str)) (params : List (Str × Str)) (key : Str) :
    (pairs.foldl (fun params pair => KeyedList.put params pair.1 pair.2) params).lookup key =
      (pairs.reverse.lookup key).or (params.lookup key) := by
  induction pairs generalizing params with
  | nil => rfl
  | cons pair rest ih =>
    obtain ⟨name, value⟩ := pair
    rw [List.foldl_cons, ih, List.reverse_cons, List.lookup_append, Option.or_assoc,
      KeyedList.lookup_put_lawful]
    congr 1
    by_cases hkey : key = name
    · simp [hkey]
    · have hne : (key == name) = false := beq_eq_false_iff_ne.mpr hkey
      simp [List.lookup_cons, hkey, hne]

/-- The same for a whole list of pairs. -/
theorem writesPairs_stored {pairs : List (Str × Str)} {written : List Str}
    (h : List.Forall₂ WritesPair pairs written) : (∀ piece ∈ written, ampersand ∉ piece) ∧
      ∀ params, written.foldl storePair params =
        pairs.foldl (fun params pair => KeyedList.put params pair.1 pair.2) params := by
  induction h with
  | nil => exact ⟨by simp, fun params => rfl⟩
  | cons hpair _ ih =>
    obtain ⟨hfree, hstore⟩ := writesPair_stored hpair
    obtain ⟨hrest, hfold⟩ := ih
    constructor
    · intro piece hpiece
      rcases List.mem_cons.mp hpiece with rfl | hpiece
      · exact hfree
      · exact hrest piece hpiece
    · intro params
      rw [List.foldl_cons, List.foldl_cons, hstore, hfold]

/-- Every way of writing a list of pairs is read back as the map that gives each key the value
of its last pair. -/
theorem parseFormBody_writes {pairs : List (Str × Str)} {written : List Str}
    (h : List.Forall₂ WritesPair pairs written) (key : Str) :
    (parseFormBody ([ampersand].intercalate written)).lookup key = pairs.reverse.lookup key := by
  obtain ⟨hfree, hfold⟩ := writesPairs_stored h
  unfold parseFormBody
  cases h with
  | nil => rfl
  | cons hpair hrest =>
    rw [List.splitOn_intercalate ampersand hfree (List.cons_ne_nil _ _), hfold, lookup_stored]
    exact Option.or_none

/-- A key that comes twice, a space, an escape and an equals sign in a value. -/
theorem parseFormBody_writes_twice :
    (parseFormBody ([ampersand].intercalate [lit "a=+", lit "%61=="])).lookup (lit "a") =
      some (lit "=") := by
  have hfirst : WritesPair (lit "a", lit " ") (lit "a=+") := by
    have hkey : Writes (FormCode [ampersand, equalsSign]) (lit "a") ([97] ++ []) :=
      .cons (.inr (.inr ⟨rfl, by decide, by decide, by decide⟩)) .nil
    have hvalue : Writes (FormCode [ampersand]) (lit " ") ([plus] ++ []) :=
      .cons (.inr (.inl ⟨rfl, by decide⟩)) .nil
    exact ⟨_, _, hkey, hvalue, by decide⟩
  have hsecond : WritesPair (lit "a", lit "=") (lit "%61==") := by
    have hkey : Writes (FormCode [ampersand, equalsSign]) (lit "a") ([percent, 54, 49] ++ []) :=
      .cons (.inl ⟨54, 49, 6, 1, rfl, by decide, by decide, by decide⟩) .nil
    have hvalue : Writes (FormCode [ampersand]) (lit "=") ([equalsSign] ++ []) :=
      .cons (.inr (.inr ⟨rfl, by decide, by decide, by decide⟩)) .nil
    exact ⟨_, _, hkey, hvalue, by decide⟩
  exact parseFormBody_writes (.cons hfirst (.cons hsecond .nil)) (lit "a")

end WebServer
