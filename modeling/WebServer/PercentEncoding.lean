import WebServer.StaticFiles

/-!
# Percent encodings

Each byte of a string is written by a code of its own choice: as it is, as a percent sign with
two digits, or, in a form, as a plus sign for a space. What is fixed is only which codes a
byte may have; `UrlDecode` reads any of them back.
-/

namespace WebServer

/-- The string is written with one code for each byte. -/
inductive Writes (code : Byte → Str → Prop) : Str → Str → Prop where
  | nil : Writes code [] []
  | cons {b : Byte} {e s t : Str} : code b e → Writes code s t → Writes code (b :: s) (e ++ t)

/-- A percent sign and two hexadecimal digits of either case. -/
def IsEscape (b : Byte) (e : Str) : Prop :=
  ∃ h l hi lo, e = [percent, h, l] ∧ hexToChar h = some hi ∧ hexToChar l = some lo ∧
    b.toNat = hi * 16 + lo

/-! ## Reading one code -/

theorem urlDecode_escape {b : Byte} {e : Str} (h : IsEscape b e) (rest : Str) :
    urlDecode (e ++ rest) = b :: urlDecode rest := by
  obtain ⟨d, l, hi, lo, rfl, hhi, hlo, hb⟩ := h
  have hbyte : (hi * 16 + lo).toUInt8 = b := by
    rw [← hb]
    simp
  simp [urlDecode, hhi, hlo, hbyte]

theorem urlDecode_itself {b : Byte} (hpercent : b ≠ percent) (hplus : b ≠ plus) (rest : Str) :
    urlDecode (b :: rest) = b :: urlDecode rest := by
  rw [urlDecode.eq_def]
  simp only [if_neg hpercent, if_neg hplus]

theorem urlDecode_plus (rest : Str) : urlDecode (plus :: rest) = space :: urlDecode rest := by
  have hne : plus ≠ percent := by decide
  rw [urlDecode.eq_def]
  simp only [if_neg hne, if_true]

/-- The bytes of an escape are the percent sign and digits. -/
theorem mem_escape {b c : Byte} {e : Str} (h : IsEscape b e) (hc : c ∈ e) :
    c = percent ∨ hexToChar c ≠ none := by
  obtain ⟨d, l, hi, lo, rfl, hhi, hlo, _⟩ := h
  simp only [List.mem_cons, List.not_mem_nil, or_false] at hc
  rcases hc with rfl | rfl | rfl
  · exact .inl rfl
  · exact .inr (by simp [hhi])
  · exact .inr (by simp [hlo])

/-! ## Reading a string -/

/-- A decoder that reads every code in front of any rest reads the string. -/
theorem urlDecode_writes {code : Byte → Str → Prop}
    (reads : ∀ b e rest, code b e → urlDecode (e ++ rest) = b :: urlDecode rest) {s e : Str}
    (h : Writes code s e) : urlDecode e = s := by
  induction h with
  | nil => rfl
  | cons hcode _ ih => rw [reads _ _ _ hcode, ih]

/-- What occurs in no code does not occur in what is written. -/
theorem not_mem_writes {code : Byte → Str → Prop} {c : Byte} (none : ∀ b e, code b e → c ∉ e)
    {s e : Str} (h : Writes code s e) : c ∉ e := by
  induction h with
  | nil => simp
  | cons hcode _ ih => simp [none _ _ hcode, ih]

end WebServer
