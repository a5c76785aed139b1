import Mathlib.Algebra.Ring.Nat
import Mathlib.Data.List.Infix
import Mathlib.Data.List.TakeWhile

/-!
# Byte strings and the standard string functions the server relies on

A `std::string` is a list of bytes. The functions below follow the C and C++
library in the C locale: the blanks of `isspace`, `tolower`, `find`, the decimal
form written by `std::to_string`, and the reading of `std::stoul`, which skips
blanks, takes one sign, stops at the first byte that is no digit, wraps negative
values and throws on an empty or too large number.
-/

namespace WebServer

abbrev Byte := UInt8

/-- `std::string` -/
abbrev Str := List Byte

/-- The bytes of an ASCII literal. -/
def lit (s : String) : Str := s.toList.map fun c => c.toNat.toUInt8

def cr : Byte := 13
def lf : Byte := 10
def crlf : Str := [cr, lf]
def space : Byte := 32
def colon : Byte := 58
def slash : Byte := 47

/-- `isspace` of the C locale. -/
def isSpace (b : Byte) : Bool := b == 32 || (9 ≤ b && b ≤ 13)

def isDigit (b : Byte) : Bool := 48 ≤ b && b ≤ 57

/-- `::tolower` of the C locale. -/
def toLower (b : Byte) : Byte := if 65 ≤ b ∧ b ≤ 90 then b + 32 else b

def lower (s : Str) : Str := s.map toLower

/-- What a C function sees of a `c_str()`. -/
def cStr (s : Str) : Str := s.takeWhile (· ≠ 0)

/-- `std::string::find` of a substring. -/
def find (pat : Str) : Str → Option Nat
  | [] => if pat = [] then some 0 else none
  | b :: s => if pat.isPrefixOf (b :: s) then some 0 else (find pat s).map (· + 1)

def contains (s pat : Str) : Bool := (find pat s).isSome

/-- The text before and after the first occurrence of a byte. -/
def splitAtByte (b : Byte) (s : Str) : Option (Str × Str) :=
  if b ∈ s then some (s.takeWhile (· ≠ b), (s.dropWhile (· ≠ b)).tail) else none

theorem splitAtByte_first {b : Byte} {key : Str} (h : b ∉ key) (rest : Str) :
    splitAtByte b (key ++ b :: rest) = some (key, rest) := by
  have hall : ∀ c ∈ key, decide (c ≠ b) = true := by
    intro c hc
    refine decide_eq_true ?_
    rintro rfl
    exact h hc
  have hmem : b ∈ key ++ b :: rest := by simp
  rw [splitAtByte, if_pos hmem, List.takeWhile_append_of_pos hall,
    List.dropWhile_append_of_pos hall]
  simp

/-- `std::to_string` of an unsigned number. -/
def toDec (n : Nat) : Str := (Nat.toDigits 10 n).map fun c => c.toNat.toUInt8

/-- `operator<<` of an `int`. -/
def intDec (n : Int) : Str := if n < 0 then 45 :: toDec n.natAbs else toDec n.natAbs

def decVal (digits : Str) : Nat := digits.foldl (fun n b => 10 * n + (b.toNat - 48)) 0

/-- `std::stoul`; `none` stands for the exceptions it throws. -/
def stoul (s : Str) : Option Nat :=
  let s := s.dropWhile isSpace
  let negative := s.head? = some 45
  let digits := (if negative ∨ s.head? = some 43 then s.tail else s).takeWhile isDigit
  if digits = [] then none
  else if 2 ^ 64 ≤ decVal digits then none
  else some (if negative then (2 ^ 64 - decVal digits) % 2 ^ 64 else decVal digits)

/-- Position of the first CR LF pair. -/
def findCrlf : Str → Option Nat
  | a :: b :: rest =>
    if a = cr ∧ b = lf then some 0 else (findCrlf (b :: rest)).map (· + 1)
  | _ => none

theorem findCrlf_some {s : Str} {n : Nat} (h : findCrlf s = some n) :
    s = s.take n ++ crlf ++ s.drop (n + 2) := by
  induction s using findCrlf.induct generalizing n with
  | case1 a b rest hit =>
    obtain ⟨ha, hb⟩ := hit
    have hn : 0 = n := by simpa [findCrlf, ha, hb] using h
    subst hn ha hb
    rfl
  | case2 a b rest miss ih =>
    rw [findCrlf, if_neg miss] at h
    obtain ⟨m, hm, rfl⟩ := Option.map_eq_some_iff.mp h
    have hrest := ih hm
    calc a :: b :: rest
        = a :: ((b :: rest).take m ++ crlf ++ (b :: rest).drop (m + 2)) := by rw [← hrest]
      _ = (a :: b :: rest).take (m + 1) ++ crlf ++ (a :: b :: rest).drop (m + 1 + 2) := rfl
  | case3 s short => simp [findCrlf] at h

theorem findCrlf_length {s : Str} {n : Nat} (h : findCrlf s = some n) : n + 2 ≤ s.length := by
  have hl := congrArg List.length (findCrlf_some h)
  simp only [List.length_append, List.length_take, List.length_drop, crlf, List.length_cons,
    List.length_nil] at hl
  omega

/-- The first CR LF pair stays first when bytes are appended. -/
theorem findCrlf_append {s : Str} {n : Nat} (h : findCrlf s = some n) (t : Str) :
    findCrlf (s ++ t) = some n := by
  induction s using findCrlf.induct generalizing n with
  | case1 a b rest hit => simpa [findCrlf, hit] using h
  | case2 a b rest miss ih =>
    rw [findCrlf, if_neg miss] at h
    obtain ⟨m, hm, rfl⟩ := Option.map_eq_some_iff.mp h
    have hrest := ih hm
    simp only [List.cons_append, findCrlf, if_neg miss] at hrest ⊢
    rw [hrest]
    rfl
  | case3 s short => simp [findCrlf] at h

/-- A line without a CR LF pair ends at the pair written after it. -/
theorem findCrlf_line {line : Str} (whole : findCrlf line = none) (t : Str) :
    findCrlf (line ++ crlf ++ t) = some line.length := by
  induction line with
  | nil => simp [findCrlf, crlf]
  | cons a rest ih =>
    cases rest with
    | nil => simp [findCrlf, crlf, cr, lf]
    | cons b rest =>
      by_cases hit : a = cr ∧ b = lf
      · simp [findCrlf, hit] at whole
      · rw [findCrlf, if_neg hit, Option.map_eq_none_iff] at whole
        have hrest := ih whole
        simp only [List.cons_append] at hrest ⊢
        rw [findCrlf, if_neg hit, hrest]
        rfl

theorem findCrlf_noCr {s : Str} (h : cr ∉ s) : findCrlf s = none := by
  cases hfound : findCrlf s with
  | none => rfl
  | some n =>
    have hmem : cr ∈ s := by
      rw [findCrlf_some hfound]
      simp [crlf]
    exact absurd hmem h

/-- Two texts without a CR LF pair have none together, unless the second begins with LF. -/
theorem findCrlf_join {s t : Str} (hs : findCrlf s = none) (ht : findCrlf t = none)
    (apart : t.head? ≠ some lf) : findCrlf (s ++ t) = none := by
  induction s with
  | nil => exact ht
  | cons a rest ih =>
    cases rest with
    | nil =>
      cases t with
      | nil => exact hs
      | cons b more =>
        have hb : b ≠ lf := fun hb => apart (congrArg some hb)
        simp [findCrlf, hb, ht]
    | cons b rest =>
      by_cases hit : a = cr ∧ b = lf
      · simp [findCrlf, hit] at hs
      · rw [findCrlf, if_neg hit, Option.map_eq_none_iff] at hs
        have hrest := ih hs
        simp only [List.cons_append] at hrest ⊢
        rw [findCrlf, if_neg hit, hrest]
        rfl

/-- Two neighbours are both in the front, both behind it, or on either side of the border. -/
theorem pair_infix_append_iff {x y : Byte} (s t : Str) :
    [x, y] <:+: s ++ t ↔
      [x, y] <:+: s ∨ [x, y] <:+: t ∨ (s.getLast? = some x ∧ t.head? = some y) := by
  rw [List.infix_append_iff_ne_nil]
  refine or_congr Iff.rfl (or_congr Iff.rfl ?_)
  constructor
  · rintro ⟨left, right, hleft, hright, hpair, hend, hbegin⟩
    have hlengths := congrArg List.length hpair
    rw [List.length_append, List.length_cons, List.length_singleton] at hlengths
    have hl := List.length_pos_iff.mpr hleft
    have hr := List.length_pos_iff.mpr hright
    obtain ⟨a, rfl⟩ := List.length_eq_one_iff.mp (show left.length = 1 by omega)
    obtain ⟨b, rfl⟩ := List.length_eq_one_iff.mp (show right.length = 1 by omega)
    obtain ⟨rfl, rfl⟩ : x = a ∧ y = b := by simpa using hpair
    exact ⟨List.singleton_suffix_iff_getLast?_eq_some.mp hend,
      List.singleton_prefix_iff_head?_eq_some.mp hbegin⟩
  · rintro ⟨hlast, hhead⟩
    exact ⟨[x], [y], List.cons_ne_nil _ _, List.cons_ne_nil _ _, rfl,
      List.singleton_suffix_iff_getLast?_eq_some.mpr hlast,
      List.singleton_prefix_iff_head?_eq_some.mpr hhead⟩

theorem digit_char_byte {c : Char} (h : c.isDigit) :
    48 ≤ c.toNat ∧ c.toNat ≤ 57 ∧ (c.toNat.toUInt8).toNat = c.toNat := by
  simp only [Char.isDigit, Bool.and_eq_true, decide_eq_true_eq, ge_iff_le] at h
  have hlo : 48 ≤ c.toNat := h.1
  have hhi : c.toNat ≤ 57 := h.2
  refine ⟨hlo, hhi, ?_⟩
  simp only [Nat.toUInt8, UInt8.toNat_ofNat']
  omega

theorem isDigit_iff (b : Byte) : isDigit b = true ↔ 48 ≤ b.toNat ∧ b.toNat ≤ 57 := by
  simp [isDigit, UInt8.le_iff_toNat_le]

theorem isDigit_toDec {n : Nat} {b : Byte} (h : b ∈ toDec n) : isDigit b = true := by
  obtain ⟨c, hc, rfl⟩ := List.mem_map.mp h
  obtain ⟨hlo, hhi, hv⟩ :=
    digit_char_byte (Nat.isDigit_of_mem_toDigits (by decide) (by decide) hc)
  rw [isDigit_iff, hv]
  exact ⟨hlo, hhi⟩

theorem toDec_ne_nil (n : Nat) : toDec n ≠ [] := by
  simp [toDec]

theorem decVal_toDec (n : Nat) : decVal (toDec n) = n := by
  have hfold : ∀ (l : List Char) (m : Nat), (∀ c ∈ l, c.isDigit) →
      (l.map fun c => c.toNat.toUInt8).foldl (fun n (b : Byte) => 10 * n + (b.toNat - 48)) m =
        Nat.ofDigitChars 10 l m := by
    intro l
    induction l with
    | nil => intro m _; simp
    | cons c l ih =>
      intro m hl
      obtain ⟨_, _, hv⟩ := digit_char_byte (hl c List.mem_cons_self)
      rw [List.map_cons, List.foldl_cons, Nat.ofDigitChars_cons, hv]
      exact ih _ fun c hc => hl c (List.mem_cons_of_mem _ hc)
  have hdigits : ∀ c ∈ Nat.toDigits 10 n, c.isDigit := fun c hc =>
    Nat.isDigit_of_mem_toDigits (by decide) (by decide) hc
  exact (hfold _ 0 hdigits).trans Nat.ofDigitChars_ten_toDigits

theorem toDec_inj {m n : Nat} (h : toDec m = toDec n) : m = n := by
  rw [← decVal_toDec m, h, decVal_toDec]

theorem isSpace_of_isDigit {b : Byte} (h : isDigit b = true) : isSpace b = false := by
  obtain ⟨hlo, -⟩ := (isDigit_iff b).mp h
  simp only [isSpace, Bool.or_eq_false_iff, beq_eq_false_iff_ne, Bool.and_eq_false_imp,
    decide_eq_true_eq, decide_eq_false_iff_not, UInt8.le_iff_toNat_le]
  refine ⟨?_, fun _ => ?_⟩
  · rintro rfl
    exact absurd hlo (by decide)
  · simp only [UInt8.reduceToNat]
    omega

/-- `std::stoul` on digits between blanks and anything that is no digit. -/
theorem stoul_digits {before digits after : Str} (hbefore : ∀ b ∈ before, isSpace b = true)
    (hne : digits ≠ []) (hdigits : ∀ b ∈ digits, isDigit b = true)
    (hafter : ∀ b ∈ after, isDigit b = false) (small : decVal digits < 2 ^ 64) :
    stoul (before ++ digits ++ after) = some (decVal digits) := by
  obtain ⟨b, rest, rfl⟩ := List.exists_cons_of_ne_nil hne
  have hb : isDigit b = true := hdigits b List.mem_cons_self
  have hdigit := (isDigit_iff b).mp hb
  have hdrop : (before ++ b :: rest ++ after).dropWhile isSpace = b :: rest ++ after := by
    rw [List.append_assoc, List.dropWhile_append_of_pos hbefore, List.cons_append,
      List.dropWhile_cons_of_neg (by simp [isSpace_of_isDigit hb])]
  have hsign : ∀ k : Byte, k.toNat < 48 → (b :: rest ++ after).head? ≠ some k := by
    intro k hk hc
    obtain rfl : b = k := Option.some.inj hc
    omega
  have hstop : after.takeWhile isDigit = [] := by
    cases after with
    | nil => rfl
    | cons c more => exact List.takeWhile_cons_of_neg (by simp [hafter c List.mem_cons_self])
  have htake : (b :: rest ++ after).takeWhile isDigit = b :: rest := by
    rw [List.takeWhile_append_of_pos hdigits, hstop, List.append_nil]
  have hneg := hsign 45 (by decide)
  have hpos := hsign 43 (by decide)
  simp only [stoul, hdrop, hneg, hpos, or_self, if_false, htake, if_neg hne,
    if_neg (Nat.not_le_of_lt small)]

/-- Reading back the decimal form. -/
theorem stoul_toDec {n : Nat} (h : n < 2 ^ 64) : stoul (toDec n) = some n := by
  have hread := stoul_digits (List.forall_mem_nil _) (toDec_ne_nil n)
    (fun b hb => isDigit_toDec hb) (List.forall_mem_nil _) (by rwa [decVal_toDec])
  rwa [List.nil_append, List.append_nil, decVal_toDec] at hread

end WebServer
