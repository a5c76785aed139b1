import WebServer.ResponseFraming
import WebServer.StreamReader

/-!
# The client's reading of a response

What a client does with the bytes of a connection: lines up to the blank one, a status
line, fields split at the first colon, and a body of the announced length. Nothing of it
comes from the server. `ToString` of a tidy response is read back as that response, whatever
follows it on the connection.
-/

namespace WebServer

open KeyedList HttpResponse StreamReader

structure ClientResponse where
  code : Nat
  reason : Str
  fields : List (Str × Str)
  body : Str
  deriving DecidableEq

namespace ClientResponse

/-- The status code is a number and is followed by one blank. -/
def readStatus (line : Str) : Option (Nat × Str) :=
  if lit "HTTP/1.1 " <+: line then
    (splitAtByte space (line.drop 9)).bind fun (digits, reason) =>
      if digits ≠ [] ∧ digits.all isDigit then some (decVal digits, reason) else none
  else none

/-- One blank behind the colon belongs to neither name nor value. -/
def readField (line : Str) : Option (Str × Str) :=
  (splitAtByte colon line).bind fun (name, value) =>
    if value.head? = some space then some (name, value.tail) else none

def readFields : List Str → Option (List (Str × Str))
  | [] => some []
  | line :: rest =>
    match readField line, readFields rest with
    | some field, some fields => some (field :: fields)
    | _, _ => none

/-- The length that the one field of that name announces. -/
def bodyLength (fields : List (Str × Str)) : Option Nat :=
  match contentLengthLines fields with
  | [(_, value)] => if value ≠ [] ∧ value.all isDigit then some (decVal value) else none
  | _ => none

/-- A head that has been read, for a body out of what is behind it. -/
def withBody (head : List Str) (rest : Str) : Option (ClientResponse × Str) :=
  match head with
  | [] => none
  | status :: lines =>
    match readStatus status, readFields lines with
    | some (code, reason), some fields =>
      match bodyLength fields with
      | none => none
      | some n =>
        if n ≤ rest.length then some (⟨code, reason, fields, rest.take n⟩, rest.drop n) else none
    | _, _ => none

/-- One response off the front of the connection. -/
def readResponse (s : Str) : Option (ClientResponse × Str) :=
  (readLines s.length s).bind fun out => withBody out.1 out.2

/-! ## What was read stays read -/

/-- What a head and what is behind it must be like to make a response. -/
theorem withBody_some {head : List Str} {rest behind : Str} {r : ClientResponse}
    (h : withBody head rest = some (r, behind)) :
    ∃ n, n ≤ rest.length ∧ r.body = rest.take n ∧ behind = rest.drop n ∧
      ∀ more, withBody head (rest ++ more) = some (r, behind ++ more) := by
  cases head with
  | nil => cases h
  | cons status lines =>
    simp only [withBody] at h ⊢
    cases hstatus : readStatus status with
    | none => simp [hstatus] at h
    | some first =>
      cases hfields : readFields lines with
      | none => simp [hstatus, hfields] at h
      | some fields =>
        cases hlength : bodyLength fields with
        | none => simp [hstatus, hfields, hlength] at h
        | some n =>
          simp only [hstatus, hfields, hlength] at h
          obtain ⟨hn, hpair⟩ := Option.ite_none_right_eq_some.mp h
          obtain ⟨rfl, rfl⟩ := Prod.mk.inj (Option.some.inj hpair)
          refine ⟨n, hn, rfl, rfl, ?_⟩
          intro more
          have hmore : n ≤ (rest ++ more).length := by
            rw [List.length_append]
            omega
          simp only [hlength, if_pos hmore]
          rw [List.take_append_of_le_length hn, List.drop_append_of_le_length hn]

theorem readResponse_steadfast : Steadfast readResponse := by
  constructor
  · intro xs r rest ys h
    obtain ⟨⟨ls, behind⟩, hlines, hbody⟩ := Option.bind_eq_some_iff.mp h
    obtain ⟨n, -, -, -, hextend⟩ := withBody_some hbody
    have hmore := readLines_extend hlines (by rw [List.length_append]; omega :
      xs.length ≤ (xs ++ ys).length) ys
    rw [readResponse, hmore]
    exact hextend ys
  · intro xs r rest h
    obtain ⟨⟨ls, behind⟩, hlines, hbody⟩ := Option.bind_eq_some_iff.mp h
    obtain ⟨n, -, -, hrest, -⟩ := withBody_some hbody
    have hless := readLines_consumes hlines
    have hlength : rest.length = behind.length - n := by
      rw [hrest]
      exact List.length_drop
    omega

/-! ## Reading back what was written -/

theorem readStatus_written {r : HttpResponse} (code : 0 ≤ r.statusCode) :
    readStatus r.statusText = some (r.statusCode.toNat, r.status) := by
  have hdec : intDec r.statusCode = toDec r.statusCode.toNat := by
    rw [intDec, if_neg (by omega)]
    congr 1
    omega
  rw [statusText, hdec]
  generalize r.statusCode.toNat = code
  generalize r.status = reason
  have hspace : space ∉ toDec code := by
    intro hmem
    exact absurd (isDigit_toDec hmem) (by decide)
  have hdrop : (lit "HTTP/1.1 " ++ toDec code ++ [space] ++ reason).drop 9 =
      toDec code ++ space :: reason := by
    have hlength : (lit "HTTP/1.1 ").length = 9 := by decide
    rw [← hlength, List.append_assoc, List.append_assoc, List.drop_left]
    rfl
  have hprefix : lit "HTTP/1.1 " <+: lit "HTTP/1.1 " ++ toDec code ++ [space] ++ reason := by
    simp only [List.append_assoc]
    exact List.prefix_append _ _
  have hdigits : (toDec code).all isDigit = true :=
    List.all_eq_true.mpr fun b hb => isDigit_toDec hb
  rw [readStatus, if_pos hprefix, hdrop, splitAtByte_first hspace]
  show (if _ then _ else _) = _
  rw [if_pos ⟨toDec_ne_nil code, hdigits⟩, decVal_toDec]

theorem readFields_written {fields : List (Str × Str)} (names : ∀ f ∈ fields, colon ∉ f.1) :
    readFields (fields.map fieldText) = some fields := by
  induction fields with
  | nil => rfl
  | cons f fields ih =>
    obtain ⟨hname, hrest⟩ := List.forall_mem_cons.mp names
    have hfield : readField (fieldText f) = some f := by
      have hsplit : fieldText f = f.1 ++ colon :: (space :: f.2) := by
        simp [fieldText]
      rw [readField, hsplit, splitAtByte_first hname]
      rfl
    rw [List.map_cons, readFields, hfield, ih hrest]

theorem bodyLength_written {fields : List (Str × Str)} {name : Str} {n : Nat}
    (h : contentLengthLines fields = [(name, toDec n)]) : bodyLength fields = some n := by
  have hdigits : (toDec n).all isDigit = true :=
    List.all_eq_true.mpr fun b hb => isDigit_toDec hb
  rw [bodyLength, h]
  show (if _ then _ else _) = _
  rw [if_pos ⟨toDec_ne_nil n, hdigits⟩, decVal_toDec]

end ClientResponse

/-! ## Responses that can be read -/

namespace HttpResponse

/-- What a client should read. -/
def seen (o : HeaderOrder) (r : HttpResponse) : ClientResponse :=
  ⟨r.buildDefaultHeaders.statusCode.toNat, r.buildDefaultHeaders.status,
    r.buildDefaultHeaders.lines o, r.body⟩

theorem buildDefaultHeaders_code (r : HttpResponse) :
    r.buildDefaultHeaders.statusCode = r.statusCode := by
  by_cases hnone : r.headers.find (lit "Content-Type") = none <;>
    cases hset : r.contentLengthSet <;> simp [buildDefaultHeaders, hnone, hset, setHeader]

end HttpResponse

namespace ClientResponse

/-- What `ToString` writes of a tidy response is read back, whatever follows. -/
theorem readResponse_written {r : HttpResponse} (tidy : r.Tidy) (code : 0 ≤ r.statusCode)
    (o : HeaderOrder) (rest : Str) :
    readResponse ((r.toString o).1 ++ rest) = some (r.seen o, rest) := by
  have hclean := clean_buildDefaultHeaders tidy.toClean
  have hlength := tidy_lines tidy o
  have hbody := buildDefaultHeaders_body r
  have hcode : 0 ≤ r.buildDefaultHeaders.statusCode := (buildDefaultHeaders_code r).symm ▸ code
  have hseen : r.seen o = ⟨r.buildDefaultHeaders.statusCode.toNat, r.buildDefaultHeaders.status,
    r.buildDefaultHeaders.lines o, r.body⟩ := rfl
  have hwritten : (r.toString o).1 = r.buildDefaultHeaders.head o ++ r.buildDefaultHeaders.body :=
    rfl
  rw [hwritten, hbody, hseen]
  generalize r.buildDefaultHeaders = b at hclean hlength hcode
  have hread : readLines (b.head o ++ r.body ++ rest).length (b.head o ++ r.body ++ rest) =
      some (b.statusText :: (b.lines o).map fieldText, r.body ++ rest) := by
    rw [List.append_assoc]
    exact readLines_head hclean.status hclean.fields o (r.body ++ rest)
  have hfields : readFields ((b.lines o).map fieldText) = some (b.lines o) := by
    apply readFields_written
    rintro ⟨name, value⟩ hf
    exact (hclean.fields name value
      ((Dict.mem_pairs_iff _ _ _).mp ((o.perm _).mem_iff.mp hf))).plain
  have hfits : r.body.length ≤ (r.body ++ rest).length := by
    rw [List.length_append]
    omega
  rw [readResponse, hread]
  show withBody (b.statusText :: (b.lines o).map fieldText) (r.body ++ rest) = _
  simp only [withBody, readStatus_written hcode, hfields, bodyLength_written hlength]
  rw [if_pos hfits, List.take_left, List.drop_left]

end ClientResponse

end WebServer
