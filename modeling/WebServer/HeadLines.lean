import WebServer.HttpResponse

/-!
# The lines of a head

A head on the wire is what its bytes say: lines ended by CR LF, up to the first blank one.
What `ToString` and `HeadersOnly` write is read back as the status line and one line for
each header, unless a text in them has a line end of its own.
-/

namespace WebServer

open KeyedList

/-- The lines before the first blank one, and what is behind it. -/
def readLines : Nat → Str → Option (List Str × Str)
  | 0, _ => none
  | fuel + 1, s =>
    match findCrlf s with
    | none => none
    | some 0 => some ([], s.drop 2)
    | some (n + 1) =>
      (readLines fuel (s.drop (n + 3))).map fun out => (s.take (n + 1) :: out.1, out.2)

theorem readLines_extend {fuel fuel' : Nat} {s : Str} {ls : List Str} {rest : Str}
    (h : readLines fuel s = some (ls, rest)) (enough : fuel ≤ fuel') (t : Str) :
    readLines fuel' (s ++ t) = some (ls, rest ++ t) := by
  induction fuel generalizing fuel' s ls with
  | zero => cases h
  | succ fuel ih =>
    obtain ⟨fuel', rfl⟩ := Nat.exists_eq_succ_of_ne_zero (by omega : fuel' ≠ 0)
    rw [readLines] at h ⊢
    cases hfind : findCrlf s with
    | none =>
      rw [hfind] at h
      cases h
    | some n =>
      have hlength := findCrlf_length hfind
      rw [findCrlf_append hfind]
      rw [hfind] at h
      cases n with
      | zero =>
        obtain ⟨rfl, rfl⟩ := Prod.mk.inj (Option.some.inj h)
        show some ([], (s ++ t).drop 2) = some ([], s.drop 2 ++ t)
        rw [List.drop_append_of_le_length (by omega)]
      | succ n =>
        obtain ⟨out, hout, hpair⟩ := Option.map_eq_some_iff.mp h
        obtain ⟨rfl, rfl⟩ := Prod.mk.inj hpair
        have hnext := ih hout (by omega : fuel ≤ fuel')
        show (readLines fuel' ((s ++ t).drop (n + 3))).map _ = _
        rw [List.drop_append_of_le_length (by omega), hnext,
          List.take_append_of_le_length (by omega)]
        rfl

theorem readLines_consumes {fuel : Nat} {s : Str} {ls : List Str} {rest : Str}
    (h : readLines fuel s = some (ls, rest)) : rest.length < s.length := by
  induction fuel generalizing s ls with
  | zero => cases h
  | succ fuel ih =>
    rw [readLines] at h
    cases hfind : findCrlf s with
    | none =>
      rw [hfind] at h
      cases h
    | some n =>
      have hlength := findCrlf_length hfind
      rw [hfind] at h
      cases n with
      | zero =>
        obtain ⟨rfl, rfl⟩ := Prod.mk.inj (Option.some.inj h)
        rw [List.length_drop]
        omega
      | succ n =>
        obtain ⟨out, hout, hpair⟩ := Option.map_eq_some_iff.mp h
        obtain ⟨rfl, rfl⟩ := Prod.mk.inj hpair
        have hnext := ih hout
        rw [List.length_drop] at hnext
        omega

/-- Lines without a line end in them, one after another, up to the blank line. -/
theorem readLines_written {ls : List Str} (lines : ∀ l ∈ ls, l ≠ [] ∧ findCrlf l = none)
    {fuel : Nat} (enough : ls.length < fuel) (rest : Str) :
    readLines fuel (ls.flatMap (· ++ crlf) ++ crlf ++ rest) = some (ls, rest) := by
  induction ls generalizing fuel with
  | nil =>
    obtain ⟨fuel, rfl⟩ := Nat.exists_eq_succ_of_ne_zero (by omega : fuel ≠ 0)
    have hfind : findCrlf (crlf ++ rest) = some 0 := @findCrlf_line [] rfl rest
    show readLines (fuel + 1) (crlf ++ rest) = some ([], rest)
    rw [readLines, hfind]
    rfl
  | cons l ls ih =>
    obtain ⟨fuel, rfl⟩ := Nat.exists_eq_succ_of_ne_zero (by omega : fuel ≠ 0)
    obtain ⟨⟨hne, hwhole⟩, hls⟩ := List.forall_mem_cons.mp lines
    obtain ⟨n, hn⟩ := Nat.exists_eq_succ_of_ne_zero
      (Nat.ne_of_gt (List.length_pos_iff.mpr hne))
    have hsplit : (l :: ls).flatMap (· ++ crlf) ++ crlf ++ rest =
        l ++ crlf ++ (ls.flatMap (· ++ crlf) ++ crlf ++ rest) := by
      simp only [List.flatMap_cons, List.append_assoc]
    have hfind := findCrlf_line hwhole (ls.flatMap (· ++ crlf) ++ crlf ++ rest)
    have hnext : readLines fuel (ls.flatMap (· ++ crlf) ++ crlf ++ rest) = some (ls, rest) :=
      ih hls (by rw [List.length_cons] at enough; omega)
    have hdrop : (l ++ crlf ++ (ls.flatMap (· ++ crlf) ++ crlf ++ rest)).drop (n + 3) =
        ls.flatMap (· ++ crlf) ++ crlf ++ rest := by
      have hlength : (l ++ crlf).length = n + 3 := by simp [crlf, hn]
      rw [← hlength, List.drop_left]
    have htake : (l ++ crlf ++ (ls.flatMap (· ++ crlf) ++ crlf ++ rest)).take (n + 1) = l := by
      have hlength : l.length = n + 1 := hn
      rw [← hlength, List.append_assoc, List.take_left]
    rw [hsplit, readLines, hfind, hn]
    show (readLines fuel ((l ++ crlf ++ _).drop (n + 3))).map _ = _
    rw [hdrop, hnext, htake]
    rfl

theorem lines_length (ls : List Str) : ls.length ≤ (ls.flatMap (· ++ crlf)).length := by
  induction ls with
  | nil => exact Nat.le_refl _
  | cons l ls ih =>
    rw [List.flatMap_cons, List.length_append, List.length_append, List.length_cons]
    simp only [crlf, List.length_cons, List.length_nil] at ih ⊢
    omega

theorem findCrlf_toDec (n : Nat) : findCrlf (toDec n) = none :=
  findCrlf_noCr fun hmem => absurd (isDigit_toDec hmem) (by decide)

namespace HttpResponse

/-! ## The head of a response -/

/-- Texts that stay on their line: the name of a header ends at the colon behind it. -/
structure OneLine (name value : Str) : Prop where
  key : findCrlf name = none
  plain : colon ∉ name
  value : findCrlf value = none

/-- A header line, without its end. -/
def fieldText (f : Str × Str) : Str := f.1 ++ [colon, space] ++ f.2

/-- The status line, without its end. -/
def statusText (r : HttpResponse) : Str :=
  lit "HTTP/1.1 " ++ intDec r.statusCode ++ [space] ++ r.status

theorem head_lines (o : HeaderOrder) (r : HttpResponse) :
    r.head o = (r.statusText :: (r.lines o).map fieldText).flatMap (· ++ crlf) ++ crlf := by
  have hfields : ((r.lines o).map fieldText).flatMap (· ++ crlf) =
      (r.lines o).flatMap headerLine := by
    rw [List.flatMap_map]
    rfl
  rw [List.flatMap_cons, hfields]
  rfl

theorem fieldText_whole {f : Str × Str} (h : OneLine f.1 f.2) : findCrlf (fieldText f) = none := by
  have hvalue : findCrlf (colon :: space :: f.2) = none := by
    cases hf : f.2 with
    | nil => decide
    | cons b rest =>
      have hrest := h.value
      rw [hf] at hrest
      simp [findCrlf, colon, space, cr, hrest]
  have hsplit : fieldText f = f.1 ++ colon :: space :: f.2 := by simp [fieldText]
  rw [hsplit]
  exact findCrlf_join h.key hvalue (by simp [colon, lf])

theorem statusText_whole {r : HttpResponse} (h : findCrlf r.status = none) :
    findCrlf r.statusText = none := by
  have hcr : cr ∉ lit "HTTP/1.1 " ++ intDec r.statusCode := by
    have hdigits : cr ∉ toDec r.statusCode.natAbs :=
      fun hmem => absurd (isDigit_toDec hmem) (by decide)
    have hcode : cr ∉ intDec r.statusCode := by
      rw [intDec]
      split
      · exact List.not_mem_cons_of_ne_of_not_mem (by decide) hdigits
      · exact hdigits
    rw [List.mem_append, not_or]
    exact ⟨by decide, hcode⟩
  have hstatus : findCrlf (space :: r.status) = none := by
    cases hr : r.status with
    | nil => decide
    | cons b rest =>
      rw [hr] at h
      simp [findCrlf, space, cr, h]
  have hsplit : r.statusText = (lit "HTTP/1.1 " ++ intDec r.statusCode) ++ space :: r.status := by
    simp [statusText]
  rw [hsplit]
  exact findCrlf_join (findCrlf_noCr hcr) hstatus (by simp [space, lf])

/-- What is written before the body is read back line by line, whatever follows. -/
theorem readLines_head {r : HttpResponse} (status : findCrlf r.status = none)
    (fields : ∀ name value, r.headers.find name = some value → OneLine name value)
    (o : HeaderOrder) (rest : Str) :
    readLines (r.head o ++ rest).length (r.head o ++ rest) =
      some (r.statusText :: (r.lines o).map fieldText, rest) := by
  have hwhole : ∀ l ∈ r.statusText :: (r.lines o).map fieldText, l ≠ [] ∧ findCrlf l = none := by
    intro l hl
    rcases List.mem_cons.mp hl with rfl | hl
    · exact ⟨by simp [statusText], statusText_whole status⟩
    · obtain ⟨⟨name, value⟩, hf, rfl⟩ := List.mem_map.mp hl
      have hfind := (Dict.mem_pairs_iff _ _ _).mp ((o.perm _).mem_iff.mp hf)
      exact ⟨by simp [fieldText], fieldText_whole (fields name value hfind)⟩
  have hfuel := lines_length (r.statusText :: (r.lines o).map fieldText)
  rw [head_lines]
  apply readLines_written hwhole
  rw [List.length_append, List.length_append]
  simp only [crlf, List.length_cons, List.length_nil] at hfuel ⊢
  omega

/-! ## The announced length -/

/-- Field names are compared without regard to letter case. -/
def isContentLength (name : Str) : Bool := lower name = lit "content-length"

/-- The header fields that are named `Content-Length`. -/
def contentLengthLines (lines : List (Str × Str)) : List (Str × Str) :=
  lines.filter fun line => isContentLength line.1

/-- What a line says behind its first colon, if it is named `Content-Length`. -/
def lengthText (line : Str) : Option Str :=
  (splitAtByte colon line).bind fun (name, value) =>
    if isContentLength name then some value else none

theorem lengthText_fieldText {f : Str × Str} (h : OneLine f.1 f.2) :
    lengthText (fieldText f) = if isContentLength f.1 then some (space :: f.2) else none := by
  have hsplit : fieldText f = f.1 ++ colon :: space :: f.2 := by simp [fieldText]
  rw [lengthText, hsplit, splitAtByte_first h.plain]
  rfl

/-- The lines of that name are the fields of that name. -/
theorem lengthTexts_written {fields : List (Str × Str)} (h : ∀ f ∈ fields, OneLine f.1 f.2) :
    (fields.map fieldText).filterMap lengthText =
      (contentLengthLines fields).map fun f => space :: f.2 := by
  induction fields with
  | nil => rfl
  | cons f fields ih =>
    obtain ⟨hf, hfields⟩ := List.forall_mem_cons.mp h
    have hnext := ih hfields
    have htext := lengthText_fieldText hf
    rw [contentLengthLines] at hnext ⊢
    by_cases hname : isContentLength f.1 = true
    · rw [if_pos hname] at htext
      have hfirst : (f :: fields).filter (fun line => isContentLength line.1) =
          f :: fields.filter fun line => isContentLength line.1 := List.filter_cons_of_pos hname
      rw [List.map_cons, List.filterMap_cons_some htext, hnext, hfirst, List.map_cons]
    · rw [if_neg hname] at htext
      have hfirst : (f :: fields).filter (fun line => isContentLength line.1) =
          fields.filter fun line => isContentLength line.1 := List.filter_cons_of_neg hname
      rw [List.map_cons, List.filterMap_cons_none htext, hnext, hfirst]

end HttpResponse

end WebServer
