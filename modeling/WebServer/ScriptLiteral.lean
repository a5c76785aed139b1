import WebServer.Forms

/-!
# The literal in the alert page

The message stands in a single-quoted literal inside a script. A reader of such literals that
refuses raw line ends and unknown escapes reads back the message and stops at the quote of the
template; the script element is ended only by the closing tag behind it.
-/

namespace WebServer

/-! ## Reading a literal -/

def singleQuote : Byte := 39
def doubleQuote : Byte := 34
def backslash : Byte := 92
def lessThan : Byte := 60

/-- The letter of an escape with two hexadecimal digits. -/
def hexLetter : Byte := 120

/-- What the letter behind a backslash stands for. -/
def escapeValue (c : Byte) : Option Byte :=
  if c = backslash ∨ c = singleQuote ∨ c = doubleQuote ∨ c = slash then some c
  else if c = 110 then some lf
  else if c = 114 then some cr
  else if c = 116 then some 9
  else none

/-- Reads the rest of a single-quoted literal: its value, and what follows the closing quote.
None when the line or the text ends first, or an escape is none of those. -/
def readLiteral : Str → Option (Str × Str)
  | [] => none
  | c :: rest =>
    if c = singleQuote then some ([], rest)
    else if c = lf ∨ c = cr then none
    else if c = backslash then
      match rest with
      | [] => none
      | e :: rest =>
        if e = hexLetter then
          match rest with
          | h :: l :: rest => do
            let hi ← hexToChar h
            let lo ← hexToChar l
            let (value, after) ← readLiteral rest
            some ((hi * 16 + lo).toUInt8 :: value, after)
          | _ => none
        else do
          let b ← escapeValue e
          let (value, after) ← readLiteral rest
          some (b :: value, after)
    else do
      let (value, after) ← readLiteral rest
      some (c :: value, after)

/-! ## One character -/

namespace HtmlEscape

/-- A character is written as a backslash and a letter, as a backslash with two digits, or as
it is. -/
theorem escapeJsChar_cases (c : Byte) :
    (∃ e, escapeJsChar c = [backslash, e] ∧ e ≠ hexLetter ∧ 32 ≤ e ∧ escapeValue e = some c) ∨
    (c < 32 ∧ escapeJsChar c = [backslash, hexLetter] ++ hexByte c) ∨
    (escapeJsChar c = [c] ∧ 32 ≤ c ∧ c ≠ backslash ∧ c ≠ singleQuote ∧ c ≠ slash) := by
  unfold escapeJsChar
  split
  · next h => exact .inl ⟨92, by decide, by decide, by decide, by rw [h]; decide⟩
  split
  · next h => exact .inl ⟨39, by decide, by decide, by decide, by rw [h]; decide⟩
  split
  · next h => exact .inl ⟨34, by decide, by decide, by decide, by rw [h]; decide⟩
  split
  · next h => exact .inl ⟨110, by decide, by decide, by decide, by rw [h]; decide⟩
  split
  · next h => exact .inl ⟨114, by decide, by decide, by decide, by rw [h]; decide⟩
  split
  · next h => exact .inl ⟨116, by decide, by decide, by decide, by rw [h]; decide⟩
  split
  · next h => exact .inl ⟨slash, by decide, by decide, by decide, by rw [h]; decide⟩
  split
  · next h => exact .inr (.inl ⟨h, rfl⟩)
  · next hback hquote _ _ _ _ hslash hlow =>
    exact .inr (.inr ⟨rfl, UInt8.not_lt.mp hlow, hback, hquote, hslash⟩)

end HtmlEscape

theorem hexToChar_hexDigit {n : Nat} (h : n < 16) : hexToChar (hexDigit n) = some n := by
  have hall : ∀ n < 16, hexToChar (hexDigit n) = some n := by decide
  exact hall n h

theorem hexDigit_printable {n : Nat} (h : n < 16) : 32 ≤ hexDigit n ∧ hexDigit n ≠ slash := by
  have hall : ∀ n < 16, 32 ≤ hexDigit n ∧ hexDigit n ≠ slash := by decide
  exact hall n h

theorem readLiteral_quote (after : Str) :
    readLiteral (singleQuote :: after) = some ([], after) := by
  rw [readLiteral.eq_def]
  exact if_pos rfl

theorem readLiteral_escape {e b : Byte} (hx : e ≠ hexLetter) (he : escapeValue e = some b)
    (rest : Str) : readLiteral (backslash :: e :: rest) =
      (readLiteral rest).map fun (value, after) => (b :: value, after) := by
  have hquote : backslash ≠ singleQuote := by decide
  have hline : ¬(backslash = lf ∨ backslash = cr) := by decide
  rw [readLiteral.eq_def]
  simp only [if_neg hquote, if_neg hline, if_true, if_neg hx, he]
  cases readLiteral rest <;> rfl

theorem readLiteral_hexByte (b : Byte) (rest : Str) :
    readLiteral ([backslash, hexLetter] ++ hexByte b ++ rest) =
      (readLiteral rest).map fun (value, after) => (b :: value, after) := by
  have hlt := b.toNat_lt
  have hquote : backslash ≠ singleQuote := by decide
  have hline : ¬(backslash = lf ∨ backslash = cr) := by decide
  have hhigh : hexToChar (hexDigit (b.toNat / 16)) = some (b.toNat / 16) :=
    hexToChar_hexDigit (by omega)
  have hlow : hexToChar (hexDigit (b.toNat % 16)) = some (b.toNat % 16) :=
    hexToChar_hexDigit (by omega)
  have hvalue : (b.toNat / 16 * 16 + b.toNat % 16).toUInt8 = b := by
    rw [show b.toNat / 16 * 16 + b.toNat % 16 = b.toNat by omega]
    simp
  simp only [hexByte, List.cons_append, List.nil_append]
  rw [readLiteral.eq_def]
  simp only [if_neg hquote, if_neg hline, if_true, hhigh, hlow]
  cases readLiteral rest with
  | none => rfl
  | some read =>
    change some ((b.toNat / 16 * 16 + b.toNat % 16).toUInt8 :: read.1, read.2) = _
    rw [hvalue, Option.map_some]

theorem readLiteral_itself {c : Byte} (hquote : c ≠ singleQuote) (hline : ¬(c = lf ∨ c = cr))
    (hback : c ≠ backslash) (rest : Str) : readLiteral (c :: rest) =
      (readLiteral rest).map fun (value, after) => (c :: value, after) := by
  rw [readLiteral.eq_def]
  simp only [if_neg hquote, if_neg hline, if_neg hback]
  cases readLiteral rest <;> rfl

namespace HtmlEscape

/-- The reader takes one written character off the front. -/
theorem readLiteral_escapeJsChar (c : Byte) (rest : Str) :
    readLiteral (escapeJsChar c ++ rest) =
      (readLiteral rest).map fun (value, after) => (c :: value, after) := by
  rcases escapeJsChar_cases c with ⟨e, hform, hx, _, he⟩ | ⟨_, hform⟩ |
    ⟨hform, hlow, hback, hquote, _⟩
  · rw [hform]
    exact readLiteral_escape hx he rest
  · rw [hform]
    exact readLiteral_hexByte c rest
  · have hline : ¬(c = lf ∨ c = cr) := by
      rintro (rfl | rfl)
      · exact absurd hlow (by decide)
      · exact absurd hlow (by decide)
    rw [hform]
    exact readLiteral_itself hquote hline hback rest

theorem escapeJsChar_printable {c b : Byte} (h : b ∈ escapeJsChar c) : 32 ≤ b := by
  have hback : 32 ≤ backslash := by decide
  rcases escapeJsChar_cases c with ⟨e, hform, _, hprint, _⟩ | ⟨_, hform⟩ | ⟨hform, hprint, _⟩
  · rw [hform] at h
    rcases List.mem_pair.mp h with rfl | rfl
    · exact hback
    · exact hprint
  · have hlt := c.toNat_lt
    have hhigh := (hexDigit_printable (n := c.toNat / 16) (by omega)).1
    have hlow := (hexDigit_printable (n := c.toNat % 16) (by omega)).1
    have hletter : 32 ≤ hexLetter := by decide
    rw [hform] at h
    simp only [hexByte, List.cons_append, List.nil_append, List.mem_cons, List.not_mem_nil,
      or_false] at h
    rcases h with rfl | rfl | rfl | rfl
    · exact hback
    · exact hletter
    · exact hhigh
    · exact hlow
  · rw [hform, List.mem_singleton] at h
    rwa [h]

/-- What is written for a character does not begin with a slash. -/
theorem escapeJsChar_head (c : Byte) : (escapeJsChar c).head? ≠ some slash := by
  have hback : backslash ≠ slash := by decide
  rcases escapeJsChar_cases c with ⟨e, hform, _⟩ | ⟨_, hform⟩ | ⟨hform, _, _, _, hslash⟩
  · rw [hform]
    simpa using hback
  · rw [hform]
    simpa using hback
  · rw [hform]
    simpa using hslash

theorem escapeJsChar_noClose (c : Byte) : ¬[lessThan, slash] <:+: escapeJsChar c := by
  have hless : lessThan ≠ backslash := by decide
  rcases escapeJsChar_cases c with ⟨e, hform, _⟩ | ⟨_, hform⟩ | ⟨hform, _⟩
  · rw [hform, List.infix_cons_iff, List.cons_prefix_cons]
    rintro (⟨hfirst, _⟩ | hrest)
    · exact hless hfirst
    · have hlength := hrest.length_le
      simp at hlength
  · have hlt := c.toNat_lt
    have hhigh := (hexDigit_printable (n := c.toNat / 16) (by omega)).2
    have hlow := (hexDigit_printable (n := c.toNat % 16) (by omega)).2
    have hletters : slash ≠ backslash ∧ slash ≠ hexLetter := by decide
    intro hpair
    have hmem : slash ∈ escapeJsChar c := hpair.subset (by simp)
    rw [hform] at hmem
    simp [hexByte, hletters, hhigh.symm, hlow.symm] at hmem
  · intro hpair
    have hlength := hpair.length_le
    rw [hform] at hlength
    simp at hlength

/-! ## The whole message -/

theorem readLiteral_escapeJsString (message after : Str) :
    readLiteral (escapeJsString message ++ singleQuote :: after) = some (message, after) := by
  induction message with
  | nil => exact readLiteral_quote after
  | cons c rest ih =>
    rw [escapeJsString, List.flatMap_cons, List.append_assoc, readLiteral_escapeJsChar,
      ← escapeJsString, ih, Option.map_some]

theorem escapeJsString_injective : Function.Injective escapeJsString := by
  intro message message' h
  have hread := readLiteral_escapeJsString message []
  rw [h, readLiteral_escapeJsString message' []] at hread
  exact (Prod.mk.inj (Option.some.inj hread)).1.symm

theorem escapeJsString_printable {message : Str} {b : Byte} (h : b ∈ escapeJsString message) :
    32 ≤ b := by
  obtain ⟨c, _, hb⟩ := List.mem_flatMap.mp h
  exact escapeJsChar_printable hb

/-- Behind a quote or a character that is no slash, no closing tag begins or goes on. -/
theorem escapeJsString_noClose (message : Str) :
    (escapeJsString message).head? ≠ some slash ∧
      ¬[lessThan, slash] <:+: escapeJsString message := by
  induction message with
  | nil => simp [escapeJsString]
  | cons c rest ih =>
    obtain ⟨hhead, hclose⟩ := ih
    have hform : escapeJsString (c :: rest) = escapeJsChar c ++ escapeJsString rest := rfl
    rw [hform, pair_infix_append_iff]
    constructor
    · rw [List.head?_append]
      cases hfirst : (escapeJsChar c).head? with
      | none => simpa using hhead
      | some b =>
        have hne := escapeJsChar_head c
        rwa [hfirst] at hne
    · rintro (h | h | ⟨_, h⟩)
      · exact escapeJsChar_noClose c h
      · exact hclose h
      · exact hhead h

end HtmlEscape

/-! ## The page -/

/-- The page up to the message. -/
def alertOpening : Str :=
  lit "<!DOCTYPE html><html><head><meta charset=\"UTF-8\">" ++
  utf8 "<title>登录结果</title></head><body>" ++ lit "<script>alert('"

/-- What the script does after the alert. -/
def alertRedirect (success : Bool) : Str :=
  lit ");location.href='" ++ HtmlEscape.escapeHtml (redirect success) ++ lit "';"

def alertClosing : Str := lit "</script></body></html>"

/-- The page is the template's opening, the escaped message, the quote of the template, the rest
of the script and the closing tags. From behind the opening the reader of literals takes exactly
the message and stops behind that quote. The literal has no byte below 32, in the script from its
start no closing tag begins before that of the template, and no two messages are escaped alike. -/
theorem buildAlertPage_literal :
    (∀ message success,
      let source := HtmlEscape.escapeJsString message
      buildAlertPage message success =
          alertOpening ++ source ++ singleQuote :: alertRedirect success ++ alertClosing ∧
        readLiteral (source ++ singleQuote :: alertRedirect success ++ alertClosing) =
          some (message, alertRedirect success ++ alertClosing) ∧
        (∀ b ∈ source, 32 ≤ b) ∧ ¬lit "</" <:+: source ∧
        ¬lit "</" <:+: lit "alert('" ++ source ++ singleQuote :: alertRedirect success) ∧
      Function.Injective HtmlEscape.escapeJsString := by
  refine ⟨?_, HtmlEscape.escapeJsString_injective⟩
  intro message success source
  obtain ⟨hhead, hclose⟩ := HtmlEscape.escapeJsString_noClose message
  refine ⟨?_, ?_, ?_, hclose, ?_⟩
  · have hquote : lit "');" = singleQuote :: lit ");" := by decide
    have hredirect : lit ");location.href='" = lit ");" ++ lit "location.href='" := by decide
    have htags : lit "';</script>" = lit "';" ++ lit "</script>" := by decide
    have hclosing : alertClosing = lit "</script>" ++ lit "</body></html>" := by decide
    simp only [buildAlertPage, alertOpening, alertRedirect, hquote, hredirect, htags, hclosing,
      List.append_assoc, List.cons_append, source]
  · rw [List.append_assoc]
    exact HtmlEscape.readLiteral_escapeJsString message _
  · intro b hb
    exact HtmlEscape.escapeJsString_printable hb
  · have hquote : singleQuote ≠ slash := by decide
    have hopen : ¬[lessThan, slash] <:+: lit "alert('" := by decide
    have hrest : ¬[lessThan, slash] <:+: singleQuote :: alertRedirect success := by
      cases success <;> decide
    have hclosing : lit "</" = [lessThan, slash] := by decide
    rw [hclosing, pair_infix_append_iff, pair_infix_append_iff]
    rintro ((h | h | ⟨_, h⟩) | h | ⟨_, h⟩)
    · exact hopen h
    · exact hclose h
    · exact hhead h
    · exact hrest h
    · exact hquote (Option.some.inj h)

end WebServer
