import WebServer.GuardedRuns
import WebServer.HttpResponse
import WebServer.PasswordUtil

/-!
# Registration and login

Any number of `/register` and `/login` handlers run against one table of users. Between
two statements of a handler the others take theirs: the check for an existing name and the
insertion are separate, and the unique key of the table is all that stands between two
handlers that both found the name free. The check may fail, which counts as a free name;
an insertion may fail, also after the row was stored. A `/login` reads the table once, and
what the table has is fetched.

The table is keyed by the name as it is written. What a handler answers is kept in the
order of the answers.
-/

namespace WebServer

open KeyedList PasswordUtil

/-- The fields that the two handlers read. -/
structure AccountForm where
  username : Str
  password : Str
  confirmPassword : Str

def formOf (body : Str) : AccountForm where
  username := formValue body (lit "username")
  password := formValue body (lit "password")
  confirmPassword := formValue body (lit "confirmPassword")

/-! ## Answers -/

inductive Verdict where
  | emptyField | mismatch | badCharacter | badNameLength | badPasswordLength
  | serverError | nameTaken | insertFailed | registered
  | wrongPassword
  | welcome (username : Str)
  deriving DecidableEq

namespace Verdict

def message : Verdict → Str
  | emptyField => utf8 "用户名和密码不能为空"
  | mismatch => utf8 "两次输入的密码不一致"
  | badCharacter => utf8 "用户名只能包含字母、数字和下划线"
  | badNameLength => utf8 "用户名长度必须在 3-50 个字符之间"
  | badPasswordLength => utf8 "密码长度必须在 6-100 个字符之间"
  | serverError => utf8 "服务器内部错误"
  | nameTaken => utf8 "用户名已存在，请选择其他用户名"
  | insertFailed => utf8 "注册失败，请稍后重试"
  | registered => utf8 "注册成功！请登录"
  | wrongPassword => utf8 "用户名或密码错误"
  | welcome username => utf8 "登录成功，欢迎 " ++ HtmlEscape.escapeHtml username

def success : Verdict → Bool
  | registered => true
  | welcome _ => true
  | _ => false

/-- What the handler writes into the response. -/
def respond (v : Verdict) (resp : HttpResponse) : HttpResponse :=
  resp.setHtml (buildAlertPage v.message v.success)

end Verdict

/-! ## Checks of the fields -/

/-- `std::isalnum` of the C locale; it holds for no byte above 127. -/
def isAlnum (c : Byte) : Bool :=
  isDigit c || (65 ≤ c && c ≤ 90) || (97 ≤ c && c ≤ 122)

def underscore : Byte := 95

def AccountForm.incomplete (form : AccountForm) : Bool :=
  form.username.isEmpty || form.password.isEmpty

/-- What `/register` answers without the database, in the order of the source. -/
def registerRefusal (form : AccountForm) : Option Verdict :=
  if form.incomplete then some .emptyField
  else if form.password ≠ form.confirmPassword then some .mismatch
  else if form.username.any (fun c => !isAlnum c && c ≠ underscore) then some .badCharacter
  else if form.username.length < 3 ∨ 50 < form.username.length then some .badNameLength
  else if form.password.length < 6 ∨ 100 < form.password.length then some .badPasswordLength
  else none

/-- A form that `/register` takes to the database. -/
structure Registration where
  body : Str
  valid : registerRefusal (formOf body) = none

def Registration.form (g : Registration) : AccountForm := formOf g.body

theorem registerRefusal_complete {form : AccountForm} (h : registerRefusal form = none) :
    form.incomplete = false := by
  unfold registerRefusal at h
  by_cases hempty : form.incomplete = true
  · rw [if_pos hempty] at h
    cases h
  · exact Bool.eq_false_iff.mpr hempty

/-! ## Handlers at their database steps -/

inductive AccountRequest where
  | register (body : Str)
  | login (body : Str)
  deriving DecidableEq

structure Report where
  request : AccountRequest
  verdict : Verdict
  deriving DecidableEq

inductive AccountHandler where
  | checking (g : Registration)
  | inserting (g : Registration)
  | selecting (body : Str)
  | finished

/-- How an insertion ends: the row is stored and reported, stored but reported as failed,
or not stored. -/
inductive Inserted where
  | stored | lost | refused
  deriving DecidableEq

structure Accounts where
  users : Dict Str Str
  handlers : List AccountHandler
  reports : List Report

namespace Accounts

inductive Act where
  | register (body : Str)
  | login (body : Str)
  /-- No pool, no connection, or a statement that cannot be prepared or, for `/login`, executed. -/
  | fail (who : Nat)
  /-- The check for an existing name; `answered` is false when a statement of it fails. -/
  | check (who : Nat) (answered : Bool)
  /-- The random device cannot be read, and `GenerateSalt` throws. -/
  | throw (who : Nat)
  | insert (who : Nat) (random : SaltBytes) (outcome : Inserted)
  | select (who : Nat)

variable (sha256 : Sha256)

/-- The row as `/login` fetches it: into a buffer of 100 bytes, and a longer one is an error. -/
def fetched (users : Dict Str Str) (username : Str) : Option Str :=
  (users.find username).filter (·.length ≤ 100)

/-- What `/login` answers when its statements succeed. -/
def loginAnswer (users : Dict Str Str) (form : AccountForm) : Verdict :=
  if form.incomplete then .emptyField
  else
    match fetched users form.username with
    | none => .wrongPassword
    | some stored =>
      if verifyPassword sha256 form.password stored then .welcome form.username
      else .wrongPassword

/-- The handler ends and answers. -/
def finish (s : Accounts) (who : Nat) (request : AccountRequest) (v : Verdict) : Accounts :=
  { s with handlers := s.handlers.set who .finished, reports := s.reports ++ [⟨request, v⟩] }

/-- A request that is answered without the database. -/
def refuse (s : Accounts) (request : AccountRequest) (v : Verdict) : Accounts :=
  { s with handlers := s.handlers ++ [.finished], reports := s.reports ++ [⟨request, v⟩] }

def begin (s : Accounts) (h : AccountHandler) : Accounts := { s with handlers := s.handlers ++ [h] }

def move (s : Accounts) (who : Nat) (h : AccountHandler) : Accounts :=
  { s with handlers := s.handlers.set who h }

def add (s : Accounts) (g : Registration) (random : SaltBytes) : Accounts :=
  let hashedPassword := hashNewPassword sha256 g.form.password random
  { s with users := s.users.insert g.form.username hashedPassword }

def step (s : Accounts) : Act → Option Accounts
  | .register body =>
    match h : registerRefusal (formOf body) with
    | some v => some (s.refuse (.register body) v)
    | none => some (s.begin (.checking ⟨body, h⟩))
  | .login body =>
    if (formOf body).incomplete then some (s.refuse (.login body) .emptyField)
    else some (s.begin (.selecting body))
  | .fail who =>
    match s.handlers[who]? with
    | some (.checking g) => some (s.finish who (.register g.body) .serverError)
    | some (.inserting g) => some (s.finish who (.register g.body) .serverError)
    | some (.selecting body) => some (s.finish who (.login body) .serverError)
    | _ => none
  | .check who answered =>
    match s.handlers[who]? with
    | some (.checking g) =>
      let userExists := answered && (s.users.find g.form.username).isSome
      if userExists then some (s.finish who (.register g.body) .nameTaken)
      else some (s.move who (.inserting g))
    | _ => none
  | .throw who =>
    match s.handlers[who]? with
    | some (.inserting _) => some (s.move who .finished)
    | _ => none
  | .insert who random outcome =>
    match s.handlers[who]? with
    | some (.inserting g) =>
      match outcome with
      | .refused => some (s.finish who (.register g.body) .insertFailed)
      | .stored =>
        -- the unique key refuses a second row
        if (s.users.find g.form.username).isSome then none
        else some ((s.add sha256 g random).finish who (.register g.body) .registered)
      | .lost =>
        if (s.users.find g.form.username).isSome then none
        else some ((s.add sha256 g random).finish who (.register g.body) .insertFailed)
    | _ => none
  | .select who =>
    match s.handlers[who]? with
    | some (.selecting body) =>
      some (s.finish who (.login body) (loginAnswer sha256 s.users (formOf body)))
    | _ => none

/-- The table as it is before the first request. -/
def start (users : Dict Str Str) : Accounts := { users, handlers := [], reports := [] }

abbrev exec : Accounts → List Act → Option Accounts := GuardedRuns.exec (step sha256)

/-! ## What a step can do -/

/-- A step changes no row: it answers nothing, refuses a registration or answers a login;
or it adds a row under a name that had none. -/
inductive Progress (s t : Accounts) : Prop where
  | quiet : t.users = s.users → t.reports = s.reports → Progress s t
  | refused (body : Str) (v : Verdict) : v ≠ .registered → t.users = s.users →
      t.reports = s.reports ++ [⟨.register body, v⟩] → Progress s t
  | answered (body : Str) (v : Verdict) :
      v = .serverError ∨ v = loginAnswer sha256 s.users (formOf body) → t.users = s.users →
      t.reports = s.reports ++ [⟨.login body, v⟩] → Progress s t
  | added (g : Registration) (random : SaltBytes) (v : Verdict) :
      s.users.find g.form.username = none →
      t.users = s.users.insert g.form.username
        (hashNewPassword sha256 g.form.password random) →
      t.reports = s.reports ++ [⟨.register g.body, v⟩] → Progress s t

variable {sha256}

theorem refusal_not_registered {form : AccountForm} {v : Verdict}
    (h : registerRefusal form = some v) : v ≠ .registered := by
  rintro rfl
  unfold registerRefusal at h
  repeat' split at h
  all_goals cases h

theorem step_progress {s t : Accounts} {a : Act} (h : step sha256 s a = some t) :
    Progress sha256 s t := by
  cases a with
  | register body =>
    simp only [step] at h
    split at h
    · obtain rfl := Option.some.inj h
      exact .refused body _ (refusal_not_registered ‹_›) rfl rfl
    · obtain rfl := Option.some.inj h
      exact .quiet rfl rfl
  | login body =>
    simp only [step] at h
    split at h
    · obtain rfl := Option.some.inj h
      have hempty : loginAnswer sha256 s.users (formOf body) = .emptyField := by
        rw [loginAnswer, if_pos ‹_›]
      exact .answered body _ (Or.inr hempty.symm) rfl rfl
    · obtain rfl := Option.some.inj h
      exact .quiet rfl rfl
  | fail who =>
    simp only [step] at h
    split at h
    · obtain rfl := Option.some.inj h
      exact .refused _ _ (by decide) rfl rfl
    · obtain rfl := Option.some.inj h
      exact .refused _ _ (by decide) rfl rfl
    · obtain rfl := Option.some.inj h
      exact .answered _ _ (Or.inl rfl) rfl rfl
    · cases h
  | check who answered =>
    simp only [step] at h
    split at h
    · split at h
      · obtain rfl := Option.some.inj h
        exact .refused _ _ (by decide) rfl rfl
      · obtain rfl := Option.some.inj h
        exact .quiet rfl rfl
    · cases h
  | throw who =>
    simp only [step] at h
    split at h
    · obtain rfl := Option.some.inj h
      exact .quiet rfl rfl
    · cases h
  | insert who random outcome =>
    simp only [step] at h
    split at h
    · rename_i g _
      have hnew : ¬(s.users.find g.form.username).isSome = true →
          s.users.find g.form.username = none :=
        fun hnone => Option.not_isSome_iff_eq_none.mp hnone
      cases outcome with
      | refused =>
        obtain rfl := Option.some.inj h
        exact .refused _ _ (by decide) rfl rfl
      | stored =>
        obtain ⟨hnone, hsome⟩ := Option.ite_none_left_eq_some.mp h
        obtain rfl := Option.some.inj hsome
        exact .added g random _ (hnew hnone) rfl rfl
      | lost =>
        obtain ⟨hnone, hsome⟩ := Option.ite_none_left_eq_some.mp h
        obtain rfl := Option.some.inj hsome
        exact .added g random _ (hnew hnone) rfl rfl
    · cases h
  | select who =>
    simp only [step] at h
    split at h
    · obtain rfl := Option.some.inj h
      exact .answered _ _ (Or.inr rfl) rfl rfl
    · cases h

/-! ## Accounts are kept -/

/-- No row is changed or removed. -/
theorem progress_keeps {s t : Accounts} (h : Progress sha256 s t) {username stored : Str}
    (found : s.users.find username = some stored) : t.users.find username = some stored := by
  cases h with
  | quiet users _ => rwa [users]
  | refused _ _ _ users _ => rwa [users]
  | answered _ _ _ users _ => rwa [users]
  | added g random v free users _ =>
    have hne : username ≠ g.form.username := by
      rintro rfl
      exact Option.some_ne_none _ (found.symm.trans free)
    rw [users, Dict.find_insert_ne _ hne]
    exact found

theorem run_keeps {s t : Accounts} {acts : List Act} (run : exec sha256 s acts = some t)
    {username stored : Str} (found : s.users.find username = some stored) :
    t.users.find username = some stored :=
  GuardedRuns.invariant_of_run (fun s => s.users.find username = some stored)
    (fun _ _ _ h hstep => progress_keeps (step_progress hstep) h) found run

/-! ## Logins after a registration -/

/-- With the stored row of a registration, `/login` answers by the hash alone. -/
theorem loginAnswer_registered {users : Dict Str Str} {g : Registration} {random : SaltBytes}
    (found : users.find g.form.username =
      some (hashNewPassword sha256 g.form.password random))
    {form : AccountForm} (name : form.username = g.form.username) :
    (form.password = g.form.password → (loginAnswer sha256 users form).success = true) ∧
      ((loginAnswer sha256 users form).success = true →
        sha256 (generateSalt random ++ form.password) =
          sha256 (generateSalt random ++ g.form.password)) := by
  have hfetched : fetched users form.username =
      some (hashNewPassword sha256 g.form.password random) := by
    rw [fetched, name, found, Option.filter_some, hashNewPassword_length]
    rfl
  have hverify := @verify_iff sha256 form.password g.form.password random
  by_cases hempty : form.incomplete = true
  · rw [loginAnswer, if_pos hempty]
    refine ⟨?_, fun h => by cases h⟩
    intro hpassword
    have hcomplete : form.incomplete = false := by
      rw [AccountForm.incomplete, name, hpassword]
      exact registerRefusal_complete g.valid
    cases hempty.symm.trans hcomplete
  · rw [loginAnswer, if_neg hempty, hfetched]
    by_cases hmatch : verifyPassword sha256 form.password
        (hashNewPassword sha256 g.form.password random) = true
    · simp only [if_pos hmatch]
      exact ⟨fun _ => rfl, fun _ => hverify.mp hmatch⟩
    · simp only [if_neg hmatch]
      refine ⟨?_, fun h => by cases h⟩
      intro hpassword
      exact absurd (hverify.mpr (by rw [hpassword])) hmatch

/-- The two reports are not both successes of registering one name. -/
def OtherName (r l : Report) : Prop :=
  ∀ body body', r = ⟨.register body, .registered⟩ → l = ⟨.register body', .registered⟩ →
    (formOf body).username ≠ (formOf body').username

variable (sha256) in
/-- A login that comes after the success of a registration of the same name, and is not
stopped by the server, succeeds with the same password and with no password of another hash. -/
def Honours (users : Dict Str Str) (r l : Report) : Prop :=
  ∀ body body', r = ⟨.register body, .registered⟩ → l.request = .login body' →
    l.verdict ≠ .serverError → (formOf body').username = (formOf body).username →
    ∃ stored, users.find (formOf body).username = some stored ∧
      ((formOf body').password = (formOf body).password → l.verdict.success = true) ∧
      (l.verdict.success = true →
        sha256 (stored.take 32 ++ (formOf body').password) =
          sha256 (stored.take 32 ++ (formOf body).password))

variable (sha256) in
/-- The reports of a run, in the order they were given, and the rows behind them. -/
structure Kept (s : Accounts) : Prop where
  rows : ∀ r ∈ s.reports, ∀ body, r = ⟨.register body, .registered⟩ → ∃ g random,
    Registration.body g = body ∧ s.users.find g.form.username =
      some (hashNewPassword sha256 g.form.password random)
  once : s.reports.Pairwise OtherName
  honoured : s.reports.Pairwise (Honours sha256 s.users)

theorem honours_kept {users users' : Dict Str Str}
    (keeps : ∀ username stored, users.find username = some stored →
      users'.find username = some stored) {r l : Report} (h : Honours sha256 users r l) :
    Honours sha256 users' r l := by
  intro body body' hr hl hserved hname
  obtain ⟨stored, hfound, hanswer⟩ := h body body' hr hl hserved hname
  exact ⟨stored, keeps _ _ hfound, hanswer⟩

/-- One more report, after a step that keeps the rows. -/
theorem kept_report {s t : Accounts} (h : Kept sha256 s) {r : Report}
    (progress : Progress sha256 s t) (reports : t.reports = s.reports ++ [r])
    (row : ∀ body, r = ⟨.register body, .registered⟩ → ∃ g random,
      Registration.body g = body ∧ s.users.find g.form.username = none ∧
        t.users.find g.form.username = some (hashNewPassword sha256 g.form.password random))
    (honours : ∀ q ∈ s.reports, Honours sha256 t.users q r) : Kept sha256 t := by
  have hkeeps : ∀ username stored, s.users.find username = some stored →
      t.users.find username = some stored := fun _ _ => progress_keeps progress
  constructor
  · intro q hq body hbody
    rw [reports] at hq
    rcases List.mem_append.mp hq with hold | hnew
    · obtain ⟨g, random, hg, hfound⟩ := h.rows q hold body hbody
      exact ⟨g, random, hg, hkeeps _ _ hfound⟩
    · obtain rfl := List.mem_singleton.mp hnew
      obtain ⟨g, random, hg, -, hfound⟩ := row body hbody
      exact ⟨g, random, hg, hfound⟩
  · rw [reports, List.pairwise_append]
    refine ⟨h.once, List.pairwise_singleton _ _, ?_⟩
    intro q hq l hl body body' hbody hbody' hname
    obtain rfl := List.mem_singleton.mp hl
    obtain ⟨g, random, rfl, hfound⟩ := h.rows q hq body hbody
    obtain ⟨g', random', rfl, hfree, -⟩ := row body' hbody'
    have hsame : s.users.find g'.form.username =
        some (hashNewPassword sha256 g.form.password random) := hname ▸ hfound
    exact Option.some_ne_none _ (hsame.symm.trans hfree)
  · rw [reports, List.pairwise_append]
    refine ⟨h.honoured.imp (honours_kept hkeeps), List.pairwise_singleton _ _, ?_⟩
    intro q hq l hl
    obtain rfl := List.mem_singleton.mp hl
    exact honours q hq

theorem kept_step {s t : Accounts} {a : Act} (h : Kept sha256 s)
    (hstep : step sha256 s a = some t) : Kept sha256 t := by
  have hprogress := step_progress hstep
  cases step_progress hstep with
  | quiet users reports =>
    refine ⟨?_, ?_, ?_⟩
    · rw [users, reports]
      exact h.rows
    · rw [reports]
      exact h.once
    · rw [users, reports]
      exact h.honoured
  | refused body v hv users reports =>
    refine kept_report h hprogress reports ?_ ?_
    · intro body' hbody
      exact absurd (Report.mk.inj hbody).2 hv
    · intro q _ body body' _ hlogin
      cases hlogin
  | answered body v hv users reports =>
    refine kept_report h hprogress reports ?_ ?_
    · intro body' hbody
      cases (Report.mk.inj hbody).1
    · intro q hq before body' hbefore hlogin hserved hname
      obtain ⟨g, random, rfl, hfound⟩ := h.rows q hq before hbefore
      obtain rfl := AccountRequest.login.inj hlogin
      obtain ⟨hsame, hother⟩ := loginAnswer_registered hfound hname
      obtain ⟨hsalt, -⟩ :=
        @stored_parts sha256 _ g.form.password (generateSalt_length random)
      rcases hv with herror | hanswer
      · exact absurd herror hserved
      · refine ⟨_, users ▸ hfound, ?_, ?_⟩
        · intro hpassword
          rw [hanswer]
          exact hsame hpassword
        · intro hsuccess
          rw [hanswer] at hsuccess
          rw [hashNewPassword, hsalt]
          exact hother hsuccess
  | added g random v free users reports =>
    refine kept_report h hprogress reports ?_ ?_
    · intro body hbody
      obtain ⟨hrequest, -⟩ := Report.mk.inj hbody
      refine ⟨g, random, AccountRequest.register.inj hrequest, free, ?_⟩
      rw [users]
      exact Dict.find_insert_self _ _ _
    · intro q _ body body' _ hlogin
      cases hlogin

theorem kept_start (users : Dict Str Str) : Kept sha256 (start users) where
  rows := fun _ h => by cases h
  once := .nil
  honoured := .nil

/-- No name is registered twice, no account is changed, and every login that comes after a
success of `/register` is answered by the stored hash. -/
theorem accounts_kept {users : Dict Str Str} {before after : List Act} {m s : Accounts}
    (first : exec sha256 (start users) before = some m) (rest : exec sha256 m after = some s) :
    s.reports.Pairwise OtherName ∧
      (∀ username stored, m.users.find username = some stored →
        s.users.find username = some stored) ∧
      s.reports.Pairwise (Honours sha256 s.users) := by
  have run : exec sha256 (start users) (before ++ after) = some s :=
    (GuardedRuns.exec_append_iff _ _ _ _ _).mpr ⟨m, first, rest⟩
  have hkept := GuardedRuns.invariant_of_run (Kept sha256)
    (fun _ _ _ h hstep => kept_step h hstep) (kept_start users) run
  exact ⟨hkept.once, fun _ _ found => run_keeps rest found, hkept.honoured⟩

/-- Two handlers find the name free; one of them stores it. The two digests are those of
SHA-256 for the salt followed by each password. -/
theorem accounts_kept_race :
    let salt : SaltBytes := ⟨[0, 1, 2, 3, 4, 5, 6, 7, 8, 9, 10, 11, 12, 13, 14, 15], by decide⟩
    let digest : { d : Str // d.length = 32 } :=
      ⟨[96, 45, 102, 216, 128, 144, 13, 218, 170, 23, 145, 222, 196, 27, 72, 99,
        197, 153, 141, 194, 113, 46, 131, 65, 118, 52, 182, 79, 146, 15, 21, 239], by decide⟩
    let digest' : { d : Str // d.length = 32 } :=
      ⟨[57, 53, 127, 104, 114, 208, 231, 184, 60, 195, 156, 81, 21, 185, 129, 45,
        14, 22, 114, 221, 41, 233, 58, 0, 251, 39, 141, 95, 230, 173, 148, 83], by decide⟩
    let sha256 : Sha256 := fun data =>
      if data = lit "000102030405060708090a0b0c0d0e0fsecret" then digest else digest'
    let form := lit "username=bob_1&password=secret&confirmPassword=secret"
    let acts : List Act :=
      [.register form, .register form, .check 0 true, .check 1 true, .insert 0 salt .stored]
    let acts' : List Act :=
      [.insert 1 salt .refused, .login (lit "username=bob%5f1&password=secret"),
        .login (lit "username=bob_1&password=wrong%21"), .select 2, .select 3]
    ∃ m s, exec sha256 (start .empty) acts = some m ∧ exec sha256 m acts' = some s ∧
      s.reports.map (·.verdict) =
        [.registered, .insertFailed, .welcome (lit "bob_1"), .wrongPassword] ∧
      s.reports.Pairwise OtherName ∧ s.reports.Pairwise (Honours sha256 s.users) := by
  intro salt digest digest' sha256 form acts acts'
  have hrun : (exec sha256 (start .empty) (acts ++ acts')).map (·.reports.map (·.verdict)) =
      some [.registered, .insertFailed, .welcome (lit "bob_1"), .wrongPassword] := by
    decide +kernel
  obtain ⟨s, hs, hverdicts⟩ := Option.map_eq_some_iff.mp hrun
  obtain ⟨m, hm, hrest⟩ := (GuardedRuns.exec_append_iff _ _ _ _ _).mp hs
  obtain ⟨honce, -, hhonoured⟩ := accounts_kept hm hrest
  exact ⟨m, s, hm, hrest, hverdicts, honce, hhonoured⟩

end Accounts

end WebServer
