import WebServer.PasswordUtil

/-!
# Which stored passwords are accepted

The writer of a stored password and its reader share a format that neither names: the
reader looks for the first colon at position 32, takes what stands before it as the salt
and compares everything after it. So whatever stands in the table, what the reader accepts
is what the writer would have written under some salt, and nothing else.
-/

namespace WebServer

namespace PasswordUtil

variable (sha256 : Sha256)

/-- The texts under which a password may be stored: a salt of thirty-two bytes without a
colon, a colon, and the hash of the salted password. -/
def StoredFor (password stored : Str) : Prop :=
  ∃ salt : Str, salt.length = 32 ∧ colon ∉ salt ∧
    stored = salt ++ [colon] ++ hex (sha256 (salt ++ password)).val

/-- `0` to `9` and `a` to `f`. -/
def isLowerHex (b : Byte) : Bool := isDigit b || (97 ≤ b && b ≤ 102)

theorem hexDigit_isLowerHex : ∀ n < 16, isLowerHex (hexDigit n) = true := by decide

theorem hex_isLowerHex (bytes : Str) : ∀ c ∈ hex bytes, isLowerHex c = true :=
  flatMap_digits hexDigit_isLowerHex bytes

/-- Where a byte is found, the text splits at its first occurrence. -/
theorem split_of_find {b : Byte} {s : Str} {n : Nat} (h : find [b] s = some n) :
    s = s.take n ++ [b] ++ s.drop (n + 1) ∧ b ∉ s.take n ∧ n < s.length := by
  induction s generalizing n with
  | nil => cases h
  | cons c rest ih =>
    by_cases hit : c = b
    · have hn : n = 0 := by simpa [find, List.isPrefixOf, hit] using h.symm
      subst hn hit
      simp
    · have hmiss : ([b].isPrefixOf (c :: rest)) = false := by
        simp [List.isPrefixOf, Ne.symm hit]
      obtain ⟨m, hm, hn⟩ : ∃ m, find [b] rest = some m ∧ m + 1 = n := by
        simpa [find, hmiss] using h
      obtain ⟨hsplit, hfirst, hlt⟩ := ih hm
      subst hn
      refine ⟨?_, ?_, ?_⟩
      · simpa using hsplit
      · simpa [Ne.symm hit] using hfirst
      · simpa using hlt

variable {sha256}

theorem storedFor_hashPassword {salt : Str} (password : Str) (hsalt : salt.length = 32)
    (hcolon : colon ∉ salt) : StoredFor sha256 password (hashPassword sha256 password salt) :=
  ⟨salt, hsalt, hcolon, rfl⟩

theorem verify_of_storedFor {input stored : Str} (h : StoredFor sha256 input stored) :
    verifyPassword sha256 input stored = true := by
  obtain ⟨salt, hsalt, hcolon, hstored⟩ := h
  have hhash : stored = hashPassword sha256 input salt := hstored
  rw [hhash]
  exact (verify_hashPassword_iff input input hsalt hcolon).mpr rfl

/-- The comparison takes in everything after the colon, so nothing may follow the hash. -/
theorem storedFor_of_verify {input stored : Str}
    (h : verifyPassword sha256 input stored = true) : StoredFor sha256 input stored := by
  unfold verifyPassword at h
  split at h
  · cases h
  next hfind =>
    have hfound := not_not.mp hfind
    obtain ⟨hsplit, hfirst, hlt⟩ := split_of_find hfound
    have hsalt : (stored.take 32).length = 32 := List.length_take_of_le (by omega)
    have hhash := (@stored_parts sha256 _ input hsalt).2
    dsimp only at h
    split at h
    · cases h
    next hlength =>
      have hsame := of_decide_eq_true h
      refine ⟨stored.take 32, hsalt, hfirst, ?_⟩
      calc stored
          = stored.take 32 ++ [colon] ++ stored.drop 33 := hsplit
        _ = stored.take 32 ++ [colon] ++ (hashPassword sha256 input (stored.take 32)).drop 33 := by
          rw [hsame]
        _ = stored.take 32 ++ [colon] ++ hex (sha256 (stored.take 32 ++ input)).val := by
          rw [hhash]

variable (sha256)

/-- A stored text is accepted for an input exactly when it has the form in which that input
is stored; what `HashNewPassword` makes fits the column and is accepted. -/
theorem verifyPassword_format :
    (∀ input stored : Str, verifyPassword sha256 input stored = true ↔
      ∃ salt : Str, salt.length = 32 ∧ colon ∉ salt ∧
        stored = salt ++ [colon] ++ hex (sha256 (salt ++ input)).val) ∧
    (∀ data : Str, (hex (sha256 data).val).length = 64 ∧
      ∀ c ∈ hex (sha256 data).val, isLowerHex c = true) ∧
    ∀ (password : Str) (random : SaltBytes),
      (hashNewPassword sha256 password random).length = 97 ∧
        verifyPassword sha256 password (hashNewPassword sha256 password random) = true := by
  refine ⟨?_, ?_, ?_⟩
  · intro input stored
    constructor
    · exact storedFor_of_verify
    · exact verify_of_storedFor
  · intro data
    exact ⟨hexDigest_length data, hex_isLowerHex _⟩
  · intro password random
    refine ⟨hashNewPassword_length password random, ?_⟩
    exact (verify_iff password password random).mpr rfl

end PasswordUtil

end WebServer
