import WebServer.StoredPasswords

/-!
# Passwords stored by the SQL scripts

Two scripts write the password column beside the program. `init.sql` inserts two users;
`migrate_passwords.sql` replaces the passwords that it takes for plain text. The text of
`HEX` is in upper case and that of `SHA2` in lower case.

Texts are the bytes of `utf8mb4`; a `VARCHAR` counts characters and `LENGTH` bytes. A
text that is too long is an error, as the strict mode has it. What `LIKE` takes for a
colon is left to the collation, as long as a colon is one. Every evaluation of
`RANDOM_BYTES` draws anew.
-/

namespace WebServer

namespace Sql

/-- The characters of a `utf8mb4` text: its bytes other than continuation bytes. -/
def charLength (text : Str) : Nat := text.countP fun b => b < 128 || 192 ≤ b

/-- A value of type `VARCHAR(n)`. -/
def varchar (n : Nat) (text : Str) : Option Str :=
  if charLength text ≤ n then some text else none

def upperDigit (n : Nat) : Byte := if n < 10 then 48 + n.toUInt8 else 55 + n.toUInt8

/-- `HEX` -/
def hex (bytes : Str) : Str :=
  bytes.flatMap fun b => [upperDigit (b.toNat / 16), upperDigit (b.toNat % 16)]

section
variable (sha256 : Sha256)

/-- `SHA2(text, 256)` -/
def sha2 (text : Str) : Str := PasswordUtil.hex (sha256 text).val

/-- The function `hash_password` of the migration. -/
def hashPassword (plainPassword : Str) (random : SaltBytes) : Option Str := do
  let plainPassword ← varchar 100 plainPassword
  let saltHex ← varchar 32 (hex random.val)
  let hashHex ← varchar 64 (sha2 sha256 (saltHex ++ plainPassword))
  varchar 100 (saltHex ++ [colon] ++ hashHex)

/-- The password that `init.sql` inserts; it evaluates `RANDOM_BYTES(16)` twice. -/
def seedPassword (plainPassword : Str) (random again : SaltBytes) : Option Str :=
  varchar 100 (hex random.val ++ [colon] ++ sha2 sha256 (hex again.val ++ plainPassword))

end

/-- The users of `init.sql` with the passwords they are documented with. -/
def seedUsers : List (Str × Str) :=
  [(lit "admin", lit "123456"), (lit "test", lit "test123")]

/-! ## What the SQL functions write -/

theorem hex_length (bytes : Str) : (hex bytes).length = 2 * bytes.length :=
  PasswordUtil.flatMap_pair_length bytes fun _ => rfl

theorem upperDigit_ne_colon : ∀ n < 16, upperDigit n ≠ colon := by decide

theorem colon_not_mem_hex (bytes : Str) : colon ∉ hex bytes := by
  have hall : ∀ c ∈ hex bytes, c ≠ colon := PasswordUtil.flatMap_digits upperDigit_ne_colon bytes
  exact fun hmem => hall colon hmem rfl

theorem salt_length (random : SaltBytes) : (hex random.val).length = 32 := by
  have hbytes := random.property
  have hhex := hex_length random.val
  omega

/-- No text has more characters than bytes. -/
theorem varchar_of_length {n : Nat} {text : Str} (h : text.length ≤ n) :
    varchar n text = some text := by
  have hcount : charLength text ≤ text.length := List.countP_le_length
  exact if_pos (hcount.trans h)

section
variable {sha256 : Sha256}

/-- The migration's function is `HashPassword` with the salt in upper case. -/
theorem hashPassword_eq {plain : Str} (hchars : charLength plain ≤ 100) (random : SaltBytes) :
    hashPassword sha256 plain random =
      some (PasswordUtil.hashPassword sha256 plain (hex random.val)) := by
  have hsalt := salt_length random
  have hplain : varchar 100 plain = some plain := if_pos hchars
  have hsaltHex : varchar 32 (hex random.val) = some (hex random.val) :=
    varchar_of_length (by omega)
  have hdigest := @PasswordUtil.hexDigest_length sha256 (hex random.val ++ plain)
  have hhashHex : varchar 64 (sha2 sha256 (hex random.val ++ plain)) =
      some (sha2 sha256 (hex random.val ++ plain)) := varchar_of_length (by rw [sha2]; omega)
  have hresult := @PasswordUtil.hashPassword_length sha256 _ plain hsalt
  simp only [hashPassword, hplain, hsaltHex, hhashHex, Option.bind_eq_bind, Option.bind_some]
  apply varchar_of_length
  rw [PasswordUtil.hashPassword] at hresult
  rw [sha2]
  omega

/-- A longer argument is refused before anything is drawn. -/
theorem hashPassword_long {plain : Str} (hchars : ¬charLength plain ≤ 100)
    (random : SaltBytes) : hashPassword sha256 plain random = none := by
  have hplain : varchar 100 plain = none := if_neg hchars
  simp [hashPassword, hplain]

theorem verify_hashPassword {plain stored : Str} {random : SaltBytes}
    (h : hashPassword sha256 plain random = some stored) :
    PasswordUtil.verifyPassword sha256 plain stored = true := by
  by_cases hchars : charLength plain ≤ 100
  · rw [hashPassword_eq hchars] at h
    obtain rfl := Option.some.inj h
    apply PasswordUtil.verify_of_storedFor
    exact PasswordUtil.storedFor_hashPassword plain (salt_length random) (colon_not_mem_hex _)
  · rw [hashPassword_long hchars] at h
    cases h

/-- A seeded password always fits its column. -/
theorem seedPassword_eq (plain : Str) (random again : SaltBytes) :
    seedPassword sha256 plain random again =
      some (hex random.val ++ [colon] ++ sha2 sha256 (hex again.val ++ plain)) := by
  have hsalt := salt_length random
  have hdigest := @PasswordUtil.hexDigest_length sha256 (hex again.val ++ plain)
  apply varchar_of_length
  simp only [List.length_append, List.length_singleton, sha2]
  omega

/-- The salt that is stored is not the one that was hashed. -/
theorem verify_seedPassword_iff (plain : Str) (random again : SaltBytes) :
    PasswordUtil.verifyPassword sha256 plain
        (hex random.val ++ [colon] ++ sha2 sha256 (hex again.val ++ plain)) = true ↔
      sha256 (hex random.val ++ plain) = sha256 (hex again.val ++ plain) := by
  have hsalt := salt_length random
  constructor
  · intro hverify
    obtain ⟨salt, hlength, -, hstored⟩ := PasswordUtil.storedFor_of_verify hverify
    rw [List.append_assoc, List.append_assoc] at hstored
    obtain ⟨hsame, hrest⟩ := List.append_inj hstored (hsalt.trans hlength.symm)
    have hhashes := (List.cons.inj hrest).2
    rw [← hsame] at hhashes
    exact Subtype.ext (PasswordUtil.hex_inj hhashes.symm)
  · intro hsame
    apply PasswordUtil.verify_of_storedFor
    refine ⟨hex random.val, hsalt, colon_not_mem_hex _, ?_⟩
    rw [hsame, sha2]

end

/-! ## The passwords that the scripts make -/

/-- A password that one of the scripts makes, with what it draws. -/
inductive Product where
  | seed (user : Str × Str) (listed : user ∈ seedUsers) (random again : SaltBytes)
  | migrated (plain : Str) (random : SaltBytes)

namespace Product

def plain : Product → Str
  | seed user _ _ _ => user.2
  | migrated plain _ => plain

def stored (sha256 : Sha256) : Product → Option Str
  | seed user _ random again => seedPassword sha256 user.2 random again
  | migrated plain random => hashPassword sha256 plain random

/-- What is stored is accepted for the password it was made from. -/
def Accepted (sha256 : Sha256) (product : Product) : Prop :=
  ∀ text, product.stored sha256 = some text →
    PasswordUtil.verifyPassword sha256 product.plain text = true

/-- The salt that was hashed hashes like the one that is stored. -/
def SaltsAgree (sha256 : Sha256) : Product → Prop
  | seed user _ random again =>
    sha256 (hex random.val ++ user.2) = sha256 (hex again.val ++ user.2)
  | migrated _ _ => True

/-- The migration's passwords are always accepted, the seeded ones when their two draws
agree, or collide under the hash. -/
theorem accepted_iff_saltsAgree (sha256 : Sha256) (product : Product) :
    product.Accepted sha256 ↔ product.SaltsAgree sha256 := by
  cases product with
  | seed user listed random again =>
    have hstored := @seedPassword_eq sha256 user.2 random again
    have hverify := @verify_seedPassword_iff sha256 user.2 random again
    constructor
    · intro haccepted
      exact hverify.mp (haccepted _ hstored)
    · intro hagree text htext
      have hsame := Option.some.inj (hstored.symm.trans htext)
      rw [← hsame]
      exact hverify.mpr hagree
  | migrated plain random =>
    constructor
    · intro _
      trivial
    · intro _ text htext
      exact verify_hashPassword htext

end Product

/-- SHA-256 at the two texts that the draws of the example below give. -/
def sampleSha256 : Sha256 := fun data =>
  if data = lit "00000000000000000000000000000001123456" then
    ⟨[139, 115, 4, 56, 157, 87, 211, 60, 128, 4, 79, 82, 161, 201, 120, 16,
      245, 118, 203, 3, 96, 174, 109, 71, 66, 119, 190, 120, 43, 16, 229, 135], rfl⟩
  else
    ⟨[153, 186, 254, 226, 115, 25, 238, 196, 64, 56, 160, 142, 124, 170, 71, 243,
      161, 125, 85, 206, 19, 220, 7, 98, 115, 206, 220, 148, 184, 193, 172, 174], rfl⟩

def zeroBytes : SaltBytes := ⟨List.replicate 16 0, rfl⟩

def otherBytes : SaltBytes := ⟨List.replicate 15 0 ++ [1], rfl⟩

/-- The administrator's documented password is refused after two different draws. -/
theorem seed_admin_refused :
    ¬(Product.seed (lit "admin", lit "123456") List.mem_cons_self zeroBytes otherBytes).Accepted
      sampleSha256 := by
  intro haccepted
  have hstored := @seedPassword_eq sampleSha256 (lit "123456") zeroBytes otherBytes
  have hverify := haccepted _ hstored
  revert hverify
  decide +kernel

/-! ## The migration -/

/-- What `LIKE '%:%'` finds under a collation; a colon it always finds. -/
structure Collation where
  likeColon : Str → Bool
  literal : ∀ text, colon ∈ text → likeColon text = true

def Collation.binary : Collation where
  likeColon text := decide (colon ∈ text)
  literal _ h := decide_eq_true h

/-- A row of the table `users`. -/
structure UserRow where
  id : Nat
  username : Str
  password : Str
  deriving DecidableEq

section
variable (sha256 : Sha256) (collation : Collation)

/-- The `WHERE` clause: no colon, or not ninety-seven bytes. -/
def selected (password : Str) : Bool :=
  !collation.likeColon password || password.length != 97

def updateRow (random : SaltBytes) (row : UserRow) : Option UserRow :=
  if selected collation row.password then
    (hashPassword sha256 row.password random).map fun v => { row with password := v }
  else some row

/-- One run of the script; each selected row draws its own salt, and an error undoes it. -/
def migratePasswords (random : Nat → SaltBytes) (users : List UserRow) :
    Option (List UserRow) :=
  users.mapM fun row => updateRow sha256 collation (random row.id) row

end

/-- What a row holds: a password of 1 to 100 characters in plain text, or one that
`HashPassword` made with a salt of thirty-two bytes without a colon. -/
inductive Secret where
  | plaintext (plain : Str) (nonempty : 1 ≤ charLength plain) (fits : charLength plain ≤ 100)
  | hashed (plain salt : Str) (hsalt : salt.length = 32) (hcolon : colon ∉ salt)

def Secret.text (sha256 : Sha256) : Secret → Str
  | plaintext plain _ _ => plain
  | hashed plain salt _ _ => PasswordUtil.hashPassword sha256 plain salt

structure User where
  id : Nat
  username : Str
  secret : Secret

def User.row (sha256 : Sha256) (user : User) : UserRow where
  id := user.id
  username := user.username
  password := user.secret.text sha256

/-- What the migration has to make of a row. -/
def Secret.Kept (sha256 : Sha256) (password : Str) : Secret → Prop
  | plaintext plain _ _ => PasswordUtil.verifyPassword sha256 plain password = true
  | hashed plain salt _ _ => password = PasswordUtil.hashPassword sha256 plain salt

def User.Migrated (sha256 : Sha256) (user : User) (after : UserRow) : Prop :=
  after.id = user.id ∧ after.username = user.username ∧ user.secret.Kept sha256 after.password

/-- A password in plain text that the `WHERE` clause takes for a hash is left as it is, so
it must be its own stored form. -/
def Secret.Sound (sha256 : Sha256) (collation : Collation) : Secret → Prop
  | plaintext plain _ _ => collation.likeColon plain = true → plain.length = 97 →
      PasswordUtil.StoredFor sha256 plain plain
  | hashed _ _ _ _ => True

section
variable {sha256 : Sha256} {collation : Collation}

theorem selected_false_iff (password : Str) : selected collation password = false ↔
    collation.likeColon password = true ∧ password.length = 97 := by
  simp [selected]

/-- What `HashPassword` makes is left alone. -/
theorem selected_hashPassword (plain : Str) {salt : Str} (hsalt : salt.length = 32) :
    selected collation (PasswordUtil.hashPassword sha256 plain salt) = false := by
  refine (selected_false_iff _).mpr ⟨collation.literal _ ?_, ?_⟩
  · simp [PasswordUtil.hashPassword]
  · exact PasswordUtil.hashPassword_length plain hsalt

theorem updateRow_hashed (random : SaltBytes) {row : UserRow} {plain salt : Str}
    (hsalt : salt.length = 32) (hrow : row.password = PasswordUtil.hashPassword sha256 plain salt) :
    updateRow sha256 collation random row = some row := by
  have hskip := @selected_hashPassword sha256 collation plain salt hsalt
  rw [updateRow, hrow, hskip]
  rfl

/-- The row that one run leaves for a user. -/
def migratedRow (sha256 : Sha256) (collation : Collation) (random : SaltBytes) (user : User) :
    UserRow :=
  if selected collation (user.secret.text sha256) then
    { user.row sha256 with
      password := PasswordUtil.hashPassword sha256 (user.secret.text sha256) (hex random.val) }
  else user.row sha256

theorem updateRow_row (random : SaltBytes) (user : User) :
    updateRow sha256 collation random (user.row sha256) =
      some (migratedRow sha256 collation random user) := by
  obtain ⟨id, username, secret⟩ := user
  cases secret with
  | plaintext plain nonempty fits =>
    have hhash := @hashPassword_eq sha256 plain fits random
    by_cases hselected : selected collation plain = true
    · simp [updateRow, migratedRow, User.row, Secret.text, hselected, hhash]
    · simp [updateRow, migratedRow, User.row, Secret.text, hselected]
  | hashed plain salt hsalt hcolon =>
    have hskip := @selected_hashPassword sha256 collation plain salt hsalt
    simp [updateRow, migratedRow, User.row, Secret.text, hskip]

/-- A second run leaves what the first one made. -/
theorem updateRow_migratedRow (random again : SaltBytes) (user : User) :
    updateRow sha256 collation again (migratedRow sha256 collation random user) =
      some (migratedRow sha256 collation random user) := by
  unfold migratedRow
  split
  next hselected =>
    exact updateRow_hashed again (salt_length random) rfl
  next hskip =>
    exact if_neg hskip

/-- One run makes of a user what it should exactly when the clause does not mistake the
password. -/
theorem migratedRow_iff (random : SaltBytes) (user : User) :
    user.Migrated sha256 (migratedRow sha256 collation random user) ↔
      user.secret.Sound sha256 collation := by
  obtain ⟨id, username, secret⟩ := user
  cases secret with
  | plaintext plain nonempty fits =>
    by_cases hselected : selected collation plain = true
    · have hverify := PasswordUtil.verify_of_storedFor
        (@PasswordUtil.storedFor_hashPassword sha256 _ plain (salt_length random)
          (colon_not_mem_hex random.val))
      have hsound : (Secret.plaintext plain nonempty fits).Sound sha256 collation := by
        intro hlike hlength
        have hskip := (selected_false_iff plain).mpr ⟨hlike, hlength⟩
        rw [hskip] at hselected
        cases hselected
      simpa [User.Migrated, Secret.Kept, migratedRow, User.row, Secret.text, hselected, hverify]
        using hsound
    · have hskip := (selected_false_iff plain).mp (Bool.eq_false_iff.mpr hselected)
      have hmade :
          migratedRow sha256 collation random ⟨id, username, .plaintext plain nonempty fits⟩ =
            ⟨id, username, plain⟩ := if_neg hselected
      rw [hmade]
      constructor
      · rintro ⟨-, -, hverify⟩ _ _
        exact PasswordUtil.storedFor_of_verify hverify
      · intro hsound
        exact ⟨rfl, rfl, PasswordUtil.verify_of_storedFor (hsound hskip.1 hskip.2)⟩
  | hashed plain salt hsalt hcolon =>
    have hskip := @selected_hashPassword sha256 collation plain salt hsalt
    have hmade :
        migratedRow sha256 collation random ⟨id, username, .hashed plain salt hsalt hcolon⟩ =
          ⟨id, username, PasswordUtil.hashPassword sha256 plain salt⟩ :=
      if_neg (Bool.eq_false_iff.mp hskip)
    rw [hmade]
    exact iff_of_true ⟨rfl, rfl, rfl⟩ trivial

theorem mapM_eq_map {α β : Type} {f : α → Option β} {g : α → β} {l : List α}
    (h : ∀ a ∈ l, f a = some (g a)) : l.mapM f = some (l.map g) := by
  induction l with
  | nil => rfl
  | cons a rest ih =>
    have hrest := ih fun b hb => h b (List.mem_cons_of_mem a hb)
    rw [List.mapM_cons, h a List.mem_cons_self, hrest]
    rfl

theorem migratePasswords_rows (random : Nat → SaltBytes) (users : List User) :
    migratePasswords sha256 collation random (users.map (User.row sha256)) =
      some (users.map fun user => migratedRow sha256 collation (random user.id) user) := by
  rw [migratePasswords, List.mapM_map]
  exact mapM_eq_map fun user _ => updateRow_row (random user.id) user

theorem migratePasswords_again (random again : Nat → SaltBytes) (users : List User) :
    migratePasswords sha256 collation again
        (users.map fun user => migratedRow sha256 collation (random user.id) user) =
      some (users.map fun user => migratedRow sha256 collation (random user.id) user) := by
  rw [migratePasswords, List.mapM_map]
  exact mapM_eq_map fun user _ => updateRow_migratedRow (random user.id) _ user

end

/-- Every table is migrated as it should be, and a second run changes nothing, exactly when
the clause mistakes no password in plain text for a hash. -/
theorem migratePasswords_iff (sha256 : Sha256) (collation : Collation) (users : List User) :
    (∀ random again : Nat → SaltBytes, ∃ after,
      migratePasswords sha256 collation random (users.map (User.row sha256)) = some after ∧
      List.Forall₂ (User.Migrated sha256) users after ∧
      migratePasswords sha256 collation again after = some after) ↔
    ∀ user ∈ users, user.secret.Sound sha256 collation := by
  constructor
  · intro hmigrates user huser
    obtain ⟨after, hrun, hrows, -⟩ :=
      hmigrates (fun _ => zeroBytes) fun _ => zeroBytes
    rw [migratePasswords_rows] at hrun
    obtain rfl := Option.some.inj hrun
    rw [List.forall₂_map_right_iff, List.forall₂_same] at hrows
    exact (migratedRow_iff zeroBytes user).mp (hrows user huser)
  · intro hsound random again
    refine ⟨_, migratePasswords_rows random users, ?_, migratePasswords_again random again users⟩
    rw [List.forall₂_map_right_iff, List.forall₂_same]
    intro user huser
    exact (migratedRow_iff (random user.id) user).mpr (hsound user huser)

/-- Ninety-seven bytes with a colon, which stands in the second place. -/
def colonPassword : Str := lit "a:" ++ List.replicate 95 98

/-- Such a password stays in clear text, and its owner is refused. -/
theorem colonPassword_kept :
    1 ≤ charLength colonPassword ∧ charLength colonPassword ≤ 100 ∧
    migratePasswords sampleSha256 .binary (fun _ => zeroBytes)
        [⟨1, lit "alice", colonPassword⟩] = some [⟨1, lit "alice", colonPassword⟩] ∧
    PasswordUtil.verifyPassword sampleSha256 colonPassword colonPassword = false := by
  decide +kernel

end Sql

end WebServer
