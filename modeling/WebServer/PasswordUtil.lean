import WebServer.Forms

/-!
# Salted password hashes

An account stores a salt and a hash, both in hexadecimal, with a colon between them.
Verification takes the salt from the stored text and hashes the input with it. SHA-256
stands for any function to thirty-two bytes; nothing is assumed about collisions, so a
password is accepted exactly when it hashes like the one that was stored.
-/

namespace WebServer

/-- SHA-256, as a function to `SHA256_DIGEST_LENGTH` bytes. -/
abbrev Sha256 := Str → { digest : Str // digest.length = 32 }

/-- The sixteen bytes read from the random device. -/
abbrev SaltBytes := { bytes : Str // bytes.length = 16 }

namespace PasswordUtil

def hex (bytes : Str) : Str := bytes.flatMap hexByte

/-- `GenerateSalt`, from the bytes it reads. -/
def generateSalt (random : SaltBytes) : Str := hex random.val

variable (sha256 : Sha256)

def hashPassword (password salt : Str) : Str := salt ++ [colon] ++ hex (sha256 (salt ++ password)).val

def verifyPassword (input stored : Str) : Bool :=
  if find [colon] stored ≠ some 32 then false
  else
    let salt := stored.take 32
    let expectedHash := stored.drop 33
    let inputHashHex := (hashPassword sha256 input salt).drop 33
    if inputHashHex.length ≠ expectedHash.length then false else inputHashHex = expectedHash

def hashNewPassword (password : Str) (random : SaltBytes) : Str :=
  hashPassword sha256 password (generateSalt random)

/-! ## Hexadecimal text -/

theorem hexDigit_inj {m n : Nat} (hm : m < 16) (hn : n < 16) (h : hexDigit m = hexDigit n) :
    m = n := by
  have hall : ∀ m < 16, ∀ n < 16, hexDigit m = hexDigit n → m = n := by decide
  exact hall m hm n hn h

theorem hexDigit_ne_colon : ∀ n < 16, hexDigit n ≠ colon := by decide

theorem hexByte_inj {a b : Byte} (h : hexByte a = hexByte b) : a = b := by
  have ha := a.toNat_lt
  have hb := b.toNat_lt
  obtain ⟨hhigh, hrest⟩ := List.cons.inj h
  obtain ⟨hlow, -⟩ := List.cons.inj hrest
  have hdiv := hexDigit_inj (by omega) (by omega) hhigh
  have hmod := hexDigit_inj (by omega) (by omega) hlow
  apply UInt8.toNat_inj.mp
  omega

/-- Two digits for each byte. -/
theorem flatMap_pair_length {digits : Byte → Str} (bytes : Str)
    (h : ∀ b, (digits b).length = 2) : (bytes.flatMap digits).length = 2 * bytes.length := by
  induction bytes with
  | nil => rfl
  | cons b rest ih =>
    have hb := h b
    simp only [List.flatMap_cons, List.length_append, List.length_cons]
    omega

/-- What holds of every digit holds of every byte of the text. -/
theorem flatMap_digits {digit : Nat → Byte} {P : Byte → Prop} (h : ∀ n < 16, P (digit n))
    (bytes : Str) :
    ∀ c ∈ bytes.flatMap fun b => [digit (b.toNat / 16), digit (b.toNat % 16)], P c := by
  intro c hc
  obtain ⟨b, -, hb⟩ := List.mem_flatMap.mp hc
  have hlt := b.toNat_lt
  rcases List.mem_cons.mp hb with hhigh | hlow
  · rw [hhigh]
    apply h
    omega
  · rw [List.mem_singleton.mp hlow]
    apply h
    omega

theorem hex_length (bytes : Str) : (hex bytes).length = 2 * bytes.length :=
  flatMap_pair_length bytes fun _ => rfl

theorem hex_inj {as bs : Str} (h : hex as = hex bs) : as = bs := by
  induction as generalizing bs with
  | nil =>
    have hlength := congrArg List.length h
    rw [hex_length, hex_length, List.length_nil] at hlength
    exact (List.eq_nil_of_length_eq_zero (by omega)).symm
  | cons a rest ih =>
    cases bs with
    | nil => cases h
    | cons b more =>
      have hbytes : hexByte a ++ hex rest = hexByte b ++ hex more := h
      obtain ⟨hbyte, hrest⟩ := List.append_inj hbytes rfl
      rw [hexByte_inj hbyte, ih hrest]

theorem colon_not_mem_hex (bytes : Str) : colon ∉ hex bytes := by
  have hall : ∀ c ∈ hex bytes, c ≠ colon := flatMap_digits hexDigit_ne_colon bytes
  exact fun hmem => hall colon hmem rfl

theorem generateSalt_length (random : SaltBytes) : (generateSalt random).length = 32 := by
  rw [generateSalt, hex_length, random.property]

/-! ## Stored hashes -/

/-- The first byte found is the one in front of which it does not occur. -/
theorem find_byte {b : Byte} {before : Str} (h : b ∉ before) (after : Str) :
    find [b] (before ++ b :: after) = some before.length := by
  induction before with
  | nil => simp [find, List.isPrefixOf]
  | cons c rest ih =>
    have hne : b ≠ c := fun same => h (same ▸ List.mem_cons_self)
    have hrest := ih fun hmem => h (List.mem_cons_of_mem _ hmem)
    simp [find, List.isPrefixOf, hne, hrest]

variable {sha256}

theorem stored_parts {salt : Str} (password : Str) (hsalt : salt.length = 32) :
    (hashPassword sha256 password salt).take 32 = salt ∧
      (hashPassword sha256 password salt).drop 33 = hex (sha256 (salt ++ password)).val := by
  constructor
  · rw [hashPassword, List.append_assoc]
    exact List.take_left' hsalt
  · exact List.drop_left' (by simp [hsalt])

/-- A hash is written with sixty-four digits. -/
theorem hexDigest_length (data : Str) : (hex (sha256 data).val).length = 64 := by
  have hdigest := (sha256 data).property
  have hhex := hex_length (sha256 data).val
  omega

theorem hashPassword_length {salt : Str} (password : Str) (hsalt : salt.length = 32) :
    (hashPassword sha256 password salt).length = 97 := by
  have hdigest := @hexDigest_length sha256 (salt ++ password)
  simp only [hashPassword, List.length_append, List.length_singleton]
  omega

/-- A new hash has ninety-seven bytes, so it fits the column of the table. -/
theorem hashNewPassword_length (password : Str) (random : SaltBytes) :
    (hashNewPassword sha256 password random).length = 97 :=
  hashPassword_length password (generateSalt_length random)

theorem find_hashPassword {salt : Str} (password : Str) (hsalt : salt.length = 32)
    (hcolon : colon ∉ salt) : find [colon] (hashPassword sha256 password salt) = some 32 := by
  have hfound := find_byte hcolon (hex (sha256 (salt ++ password)).val)
  rw [hashPassword, List.append_assoc]
  exact hfound.trans (congrArg some hsalt)

/-- Under a salt without a colon, a password is accepted exactly when it hashes like the
stored one. -/
theorem verify_hashPassword_iff {salt : Str} (input password : Str) (hsalt : salt.length = 32)
    (hcolon : colon ∉ salt) :
    verifyPassword sha256 input (hashPassword sha256 password salt) = true ↔
      sha256 (salt ++ input) = sha256 (salt ++ password) := by
  obtain ⟨htake, hdrop⟩ := @stored_parts sha256 _ password hsalt
  have hinput := (@stored_parts sha256 _ input hsalt).2
  rw [verifyPassword, if_neg (not_not_intro (find_hashPassword password hsalt hcolon))]
  simp only [htake, hdrop, hinput, hexDigest_length, ne_eq, not_true_eq_false, if_false,
    decide_eq_true_eq]
  constructor
  · intro hsame
    exact Subtype.ext (hex_inj hsame)
  · intro hsame
    rw [hsame]

theorem verify_iff (input password : Str) (random : SaltBytes) :
    verifyPassword sha256 input (hashNewPassword sha256 password random) = true ↔
      sha256 (generateSalt random ++ input) = sha256 (generateSalt random ++ password) :=
  verify_hashPassword_iff input password (generateSalt_length random)
    (colon_not_mem_hex random.val)

end PasswordUtil

end WebServer
