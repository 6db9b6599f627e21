import Vestibule.AdminRuns

/-!
Passwords that are set through `add_user` and checked by `local_auth`. The first trims a password
before it is hashed and the second does not, so the law that the last password opens the account
holds exactly for passwords without surrounding whitespace.
-/
namespace VestibulePasswords
open VestibuleRust KeyedList SharedRegister VestibuleAdmin

structure Cookie where
  name : String
  value : String
  domain : String
  path : String
  sameSiteLax : Bool
  secure : Bool
  httpOnly : Bool
  deriving DecidableEq, Repr

section Login
variable {Salt Text : Type} (argon2 : Argon2 Salt) (yaml : Yaml Text) (toJson : User → String)

def localAuth (config : Config) (hostname login password : String) : Except Nat (Cookie × Nat) :=
  match lookup User.login login config.users with
  | none => .error 401
  | some user =>
    if argon2.parses user.password then
      if argon2.verifyPassword user.password (utf8 password) then
        .ok (⟨"VESTIBULE_AUTH", toJson { user with password := "" },
          (hostname.splitOn ":").headD "", "/", true, false, false⟩, 200)
      else .error 401
    else .error 500

def serveLogin (text : Text) (hostname login password : String) : Except Nat (Cookie × Nat) :=
  match yaml.fromStr text with
  | none => .error 500
  | some config => localAuth argon2 toJson config hostname login password

end Login

def VerifiesHashed {Salt : Type} (argon2 : Argon2 Salt) : Prop :=
  ∀ salt bytes hash, argon2.hashPassword salt bytes = some hash →
    argon2.parses hash = true ∧ ∀ q, argon2.verifyPassword hash q = true ↔ q = bytes

/-- The file, and for each login the last non-empty password that was accepted for it since it was
    last created. -/
structure Account (Text : Type) where
  file : Text
  last : String → Option String

def note {Salt : Type} (last : String → Option String) : AdminRequest Salt → String → Option String
  | .addUser payload _ =>
    if payload.password = "" then last
    else Function.update last payload.login (some payload.password)
  | .deleteUser userLogin => Function.update last userLogin none
  | _ => last

section Runs
variable {Salt Text : Type} (argon2 : Argon2 Salt) (yaml : Yaml Text) (toJson : User → String)

def advance (account : Account Text) (request : AdminRequest Salt) : Account Text :=
  match serve argon2 yaml request account.file with
  | .error _ => account
  | .ok (file, _) => ⟨file, note account.last request⟩

def afterRequests (account : Account Text) (requests : List (AdminRequest Salt)) : Account Text :=
  requests.foldl (advance argon2 yaml) account

def Present (text : Text) (login : String) : Prop :=
  ∃ config, yaml.fromStr text = some config ∧ ∃ user ∈ config.users, user.login = login

/-- A login succeeds exactly with the last non-empty password of a login that is present. -/
def PasswordLaw (account : Account Text) : Prop :=
  ∀ hostname login q,
    (∃ cookie, serveLogin argon2 yaml toJson account.file hostname login q = .ok cookie) ↔
      Present yaml account.file login ∧ account.last login = some q

/-- Every non-empty password that is submitted and can be hashed has no surrounding whitespace. -/
def Trimmed (requests : List (AdminRequest Salt)) : Prop :=
  ∀ payload salt, .addUser payload salt ∈ requests → payload.password ≠ "" →
    argon2.hashPassword salt (utf8 (trim payload.password)) ≠ none →
      trim payload.password = payload.password

/-- What is kept along a run: distinct logins, and for each the hash of its last password as it was
    trimmed. -/
structure Kept (account : Account Text) (config : Config) : Prop where
  read : yaml.fromStr account.file = some config
  distinct : (config.users.map User.login).Nodup
  absent : ∀ login, lookup User.login login config.users = none → account.last login = none
  hashed : ∀ login user, lookup User.login login config.users = some user →
    ∃ p salt, account.last login = some p ∧
      argon2.hashPassword salt (utf8 (trim p)) = some user.password

end Runs

section Steps
variable {Salt Text : Type} {argon2 : Argon2 Salt} {yaml : Yaml Text}

theorem add_user_ok {config config' : Config} {payload : User} {salt : Salt} {answer : Answer}
    (distinct : (config.users.map User.login).Nodup)
    (run : addUser argon2 config payload salt = .ok (config', answer)) :
    (config'.users.map User.login).Nodup ∧ ∃ user,
      (∀ login, lookup User.login login config'.users =
        if login = payload.login then some user else lookup User.login login config.users) ∧
      if payload.password = "" then
        ∃ old, lookup User.login payload.login config.users = some old ∧
          user.password = old.password
      else argon2.hashPassword salt (utf8 (trim payload.password)) = some user.password := by
  obtain ⟨password, same, origin⟩ := add_user_puts run
  subst same
  exact ⟨nodup_put distinct, { payload with password := password }, lookup_put _ _, origin⟩

theorem delete_user_ok {config config' : Config} {userLogin : String} {answer : Answer}
    (distinct : (config.users.map User.login).Nodup)
    (run : deleteUser config userLogin = .ok (config', answer)) :
    (config'.users.map User.login).Nodup ∧ ∀ login, lookup User.login login config'.users =
      if login = userLogin then none else lookup User.login login config.users := by
  obtain ⟨users, removed, same⟩ := delete_user_removes run
  subst same
  exact ⟨nodup_remove_first distinct removed, lookup_remove_first distinct removed⟩

theorem service_users_kept {config config' : Config} {answer : Answer} {request : AdminRequest Salt}
    (run : handle argon2 config request = .ok (config', answer))
    (service : (∀ payload salt, request ≠ .addUser payload salt) ∧ ∀ l, request ≠ .deleteUser l) :
    config'.users = config.users := by
  cases request with
  | addUser payload salt => exact absurd rfl (service.1 payload salt)
  | deleteUser userLogin => exact absurd rfl (service.2 userLogin)
  | addApp payload => rw [add_app_puts run]
  | addDav payload => rw [add_dav_puts run]
  | deleteApp appId =>
    obtain ⟨_, _, same⟩ := delete_app_removes run
    rw [same]
  | deleteDav davId =>
    obtain ⟨_, _, same⟩ := delete_dav_removes run
    rw [same]

theorem kept_add {account : Account Text} {config config' : Config} {payload : User} {salt : Salt}
    {answer : Answer} (kept : Kept argon2 yaml account config)
    (run : addUser argon2 config payload salt = .ok (config', answer)) :
    Kept argon2 yaml ⟨yaml.toString config', note account.last (.addUser payload salt)⟩
      config'.stored := by
  obtain ⟨distinct, user, lookups, password⟩ := add_user_ok kept.distinct run
  have others : ∀ login, login ≠ payload.login →
      note account.last (.addUser payload salt) login = account.last login := by
    intro login other
    simp only [note]
    split
    · rfl
    · exact Function.update_of_ne other _ _
  constructor
  · exact yaml.back config'
  · exact distinct
  · intro login missing
    have missing' := (lookups login).symm.trans missing
    split at missing'
    · cases missing'
    · rename_i other
      simp only [others login other]
      exact kept.absent login missing'
  · intro login found there
    have there' := (lookups login).symm.trans there
    split at there'
    · rename_i same
      cases there'
      subst same
      by_cases blank : payload.password = ""
      · rw [if_pos blank] at password
        obtain ⟨old, before, same⟩ := password
        simp only [note, blank, ↓reduceIte, same]
        exact kept.hashed _ old before
      · rw [if_neg blank] at password
        simp only [note, blank, ↓reduceIte, Function.update_self]
        exact ⟨payload.password, salt, rfl, password⟩
    · rename_i other
      simp only [others login other]
      exact kept.hashed login found there'

theorem kept_delete {account : Account Text} {config config' : Config} {userLogin : String}
    {answer : Answer} (kept : Kept argon2 yaml account config)
    (run : deleteUser config userLogin = .ok (config', answer)) :
    Kept argon2 yaml
      ⟨yaml.toString config', Function.update account.last userLogin none⟩ config'.stored := by
  obtain ⟨distinct, lookups⟩ := delete_user_ok kept.distinct run
  have others : ∀ login, login ≠ userLogin →
      Function.update account.last userLogin none login = account.last login :=
    fun login other => Function.update_of_ne other _ _
  constructor
  · exact yaml.back config'
  · exact distinct
  · intro login missing
    have missing' := (lookups login).symm.trans missing
    split at missing'
    · rename_i same
      simp only [same, Function.update_self]
    · rename_i other
      simp only [others login other]
      exact kept.absent login missing'
  · intro login found there
    have there' := (lookups login).symm.trans there
    split at there'
    · cases there'
    · rename_i other
      simp only [others login other]
      exact kept.hashed login found there'

theorem kept_service {account : Account Text} {config config' : Config}
    (kept : Kept argon2 yaml account config) (same : config'.users = config.users) :
    Kept argon2 yaml ⟨yaml.toString config', account.last⟩ config'.stored := by
  have users : config'.stored.users = config.users := same
  constructor
  · exact yaml.back config'
  · rw [users]
    exact kept.distinct
  · rw [users]
    exact kept.absent
  · rw [users]
    exact kept.hashed

theorem kept_advance {account : Account Text} {config : Config}
    (kept : Kept argon2 yaml account config) (request : AdminRequest Salt) :
    ∃ config', Kept argon2 yaml (advance argon2 yaml account request) config' := by
  unfold advance
  cases served : serve argon2 yaml request account.file with
  | error answer => exact ⟨config, kept⟩
  | ok saved =>
    obtain ⟨file, answer⟩ := saved
    simp only [serve, kept.read] at served
    cases handled : handle argon2 config request with
    | error failed =>
      rw [handled] at served
      cases served
    | ok result =>
      obtain ⟨config', answer'⟩ := result
      rw [handled] at served
      cases served
      have other := service_users_kept handled
      cases request with
      | addUser payload salt => exact ⟨_, kept_add kept handled⟩
      | deleteUser userLogin => exact ⟨_, kept_delete kept handled⟩
      | addApp payload => exact ⟨_, kept_service kept (other (by simp))⟩
      | deleteApp appId => exact ⟨_, kept_service kept (other (by simp))⟩
      | addDav payload => exact ⟨_, kept_service kept (other (by simp))⟩
      | deleteDav davId => exact ⟨_, kept_service kept (other (by simp))⟩

theorem kept_run {account : Account Text} {config : Config}
    (kept : Kept argon2 yaml account config) (requests : List (AdminRequest Salt)) :
    ∃ config', Kept argon2 yaml (afterRequests argon2 yaml account requests) config' := by
  induction requests generalizing account config with
  | nil => exact ⟨config, kept⟩
  | cons request rest ih =>
    obtain ⟨config', kept'⟩ := kept_advance kept request
    exact ih kept'

theorem present_iff {account : Account Text} {config : Config}
    (kept : Kept argon2 yaml account config) {login : String} :
    Present yaml account.file login ↔ account.last login ≠ none := by
  unfold Present
  rw [kept.read]
  constructor
  · intro present
    obtain ⟨_, same, user, member, here⟩ := present
    cases same
    cases found : lookup User.login login config.users with
    | none =>
      apply absurd _ (lookup_none.mp found)
      exact here ▸ List.mem_map_of_mem member
    | some user =>
      obtain ⟨p, salt, last, _⟩ := kept.hashed login user found
      simp [last]
  · intro known
    cases found : lookup User.login login config.users with
    | none => exact absurd (kept.absent login found) known
    | some user => exact ⟨config, rfl, user, List.mem_of_find?_eq_some found, lookup_key found⟩

theorem login_iff (verifies : VerifiesHashed argon2) {account : Account Text} {config : Config}
    (kept : Kept argon2 yaml account config) (toJson : User → String) (hostname login q : String) :
    (∃ cookie, serveLogin argon2 yaml toJson account.file hostname login q = .ok cookie) ↔
      ∃ p, account.last login = some p ∧ q = trim p := by
  simp only [serveLogin, kept.read, localAuth]
  cases found : lookup User.login login config.users with
  | none => simp [kept.absent login found]
  | some user =>
    obtain ⟨p, salt, last, hash⟩ := kept.hashed login user found
    obtain ⟨parses, verified⟩ := verifies salt _ _ hash
    simp only [parses, ↓reduceIte, last, Option.some.injEq, exists_eq_left']
    constructor
    · intro success
      obtain ⟨cookie, success⟩ := success
      split at success
      · rename_i matched
        exact utf8_injective ((verified _).mp matched)
      · cases success
    · intro same
      rw [if_pos ((verified _).mpr (congrArg utf8 same))]
      exact ⟨_, rfl⟩

/-- The law holds of a file exactly when every last password is its own trim. -/
theorem password_law_iff (verifies : VerifiesHashed argon2) {account : Account Text}
    {config : Config} (kept : Kept argon2 yaml account config) (toJson : User → String) :
    PasswordLaw argon2 yaml toJson account ↔
      ∀ login p, account.last login = some p → trim p = p := by
  unfold PasswordLaw
  constructor
  · intro law login p last
    have present : Present yaml account.file login := (present_iff kept).mpr (by simp [last])
    have success := (law "" login p).mpr ⟨present, last⟩
    obtain ⟨p', last', same⟩ := (login_iff verifies kept toJson "" login p).mp success
    rw [last] at last'
    cases last'
    exact same.symm
  · intro trimmed hostname login q
    rw [login_iff verifies kept, present_iff kept]
    constructor
    · intro known
      obtain ⟨p, last, same⟩ := known
      rw [trimmed login p last] at same
      subst same
      exact ⟨by simp [last], last⟩
    · intro known
      exact ⟨q, known.2, (trimmed login q known.2).symm⟩

theorem add_user_accepted {payload : User} {salt : Salt} (config : Config)
    (nonempty : payload.password ≠ "")
    (hashes : argon2.hashPassword salt (utf8 (trim payload.password)) ≠ none) :
    ∃ result, addUser argon2 config payload salt = .ok result := by
  obtain ⟨hash, hashed⟩ := Option.ne_none_iff_exists'.mp hashes
  have set : hashPassword argon2 salt payload = .ok { payload with password := hash } := by
    simp only [hashPassword, hashed]
  unfold addUser
  simp only [nonempty, ne_eq, not_false_eq_true, ↓reduceIte, set]
  split
  · exact ⟨_, rfl⟩
  · exact ⟨_, rfl⟩

theorem advance_add {account : Account Text} {config : Config}
    (kept : Kept argon2 yaml account config) {payload : User} {salt : Salt}
    (nonempty : payload.password ≠ "")
    (hashes : argon2.hashPassword salt (utf8 (trim payload.password)) ≠ none) :
    (advance argon2 yaml account (.addUser payload salt)).last payload.login =
      some payload.password := by
  obtain ⟨result, run⟩ := add_user_accepted config nonempty hashes
  simp only [advance, serve, kept.read, handle, run, note, nonempty, ↓reduceIte,
    Function.update_self]

theorem advance_trimmed {account : Account Text} {config : Config}
    (kept : Kept argon2 yaml account config) {request : AdminRequest Salt}
    (before : ∀ login p, account.last login = some p → trim p = p)
    (submitted : Trimmed argon2 [request]) (login p : String)
    (last : (advance argon2 yaml account request).last login = some p) : trim p = p := by
  unfold advance at last
  cases served : serve argon2 yaml request account.file with
  | error answer =>
    rw [served] at last
    exact before login p last
  | ok saved =>
    rw [served] at last
    cases request with
    | addUser payload salt =>
      simp only [note] at last
      by_cases blank : payload.password = ""
      · rw [if_pos blank] at last
        exact before login p last
      · rw [if_neg blank] at last
        by_cases same : login = payload.login
        · subst same
          rw [Function.update_self] at last
          cases last
          apply submitted payload salt (List.mem_singleton.mpr rfl) blank
          simp only [serve, kept.read, handle] at served
          cases handled : addUser argon2 config payload salt with
          | error failed =>
            rw [handled] at served
            cases served
          | ok result =>
            obtain ⟨config', answer⟩ := result
            obtain ⟨_, user, _, password⟩ := add_user_ok kept.distinct handled
            rw [if_neg blank] at password
            simp [password]
        · rw [Function.update_of_ne same] at last
          exact before login p last
    | deleteUser userLogin =>
      simp only [note] at last
      by_cases same : login = userLogin
      · subst same
        rw [Function.update_self] at last
        cases last
      · rw [Function.update_of_ne same] at last
        exact before login p last
    | addApp payload => exact before login p last
    | deleteApp appId => exact before login p last
    | addDav payload => exact before login p last
    | deleteDav davId => exact before login p last

theorem run_trimmed {account : Account Text} {config : Config}
    (kept : Kept argon2 yaml account config) {requests : List (AdminRequest Salt)}
    (before : ∀ login p, account.last login = some p → trim p = p)
    (submitted : Trimmed argon2 requests) (login p : String)
    (last : (afterRequests argon2 yaml account requests).last login = some p) : trim p = p := by
  induction requests generalizing account config with
  | nil => exact before login p last
  | cons request rest ih =>
    obtain ⟨config', kept'⟩ := kept_advance kept request
    apply ih kept' _ _ last
    · apply advance_trimmed kept before
      intro payload salt member
      rw [List.mem_singleton] at member
      exact submitted payload salt (member ▸ List.mem_cons_self)
    · intro payload salt member
      exact submitted payload salt (List.mem_cons_of_mem _ member)

end Steps

section Law
variable {Salt Text : Type} {argon2 : Argon2 Salt} {yaml : Yaml Text}

theorem empty_kept {file : Text} {config : Config} (read : yaml.fromStr file = some config)
    (empty : config.users = []) : Kept argon2 yaml ⟨file, fun _ => none⟩ config where
  read := read
  distinct := by simp [empty]
  absent login _ := rfl
  hashed login user found := by simp [empty, lookup] at found

/-- In a run from an empty user list the law holds of every state reached exactly when every
    submitted password is its own trim. -/
theorem password_law_of_runs_iff (verifies : VerifiesHashed argon2) {file : Text} {config : Config}
    (read : yaml.fromStr file = some config) (empty : config.users = []) (toJson : User → String)
    (requests : List (AdminRequest Salt)) :
    (∀ earlier, earlier <+: requests →
      PasswordLaw argon2 yaml toJson (afterRequests argon2 yaml ⟨file, fun _ => none⟩ earlier)) ↔
      Trimmed argon2 requests := by
  have begun : Kept argon2 yaml ⟨file, fun _ => none⟩ config := empty_kept read empty
  constructor
  · intro law payload salt member nonempty hashes
    obtain ⟨before, rest, whole⟩ := List.append_of_mem member
    have reached := law (before ++ [.addUser payload salt]) ⟨rest, by simp [whole]⟩
    obtain ⟨config', kept⟩ := kept_run begun before
    obtain ⟨config'', kept'⟩ := kept_advance kept (.addUser payload salt)
    have last := advance_add kept nonempty hashes
    have split : afterRequests argon2 yaml ⟨file, fun _ => none⟩
        (before ++ [.addUser payload salt]) =
          advance argon2 yaml (afterRequests argon2 yaml ⟨file, fun _ => none⟩ before)
            (.addUser payload salt) := List.foldl_append
    rw [split, password_law_iff verifies kept'] at reached
    exact reached payload.login payload.password last
  · intro trimmed earlier inside
    obtain ⟨config', kept⟩ := kept_run begun earlier
    apply (password_law_iff verifies kept toJson).mpr
    apply run_trimmed begun
    · intro login p last
      cases last
    · intro payload salt member
      exact trimmed payload salt (inside.subset member)

end Law

section Samples

def plainHash (bytes : Bytes) : String := String.ofList (bytes.map Char.ofUInt8)

def plainArgon2 : Argon2 Unit where
  hashPassword _ bytes := some (plainHash bytes)
  parses _ := true
  verifyPassword hash q := plainHash q = hash

theorem plain_hash_injective {a b : Bytes} (same : plainHash a = plainHash b) : a = b := by
  have chars := String.ofList_injective same
  apply List.map_injective_iff.mpr _ chars
  intro x y equal
  have value := congrArg Char.val equal
  exact UInt8.toUInt32_inj.mp value

theorem plain_verifies : VerifiesHashed plainArgon2 := by
  intro salt bytes hash hashed
  cases hashed
  constructor
  · rfl
  · intro q
    simp only [plainArgon2, decide_eq_true_eq]
    constructor
    · exact plain_hash_injective
    · intro same
      rw [same]

def sampleLogin (password : String) : AdminRequest Unit := .addUser ⟨"bob", password, ["USERS"]⟩ ()

end Samples

theorem two_passwords_law :
    (∀ earlier, earlier <+: [sampleLogin "one", sampleLogin "two"] →
      PasswordLaw plainArgon2 sampleYaml (fun user => user.login)
        (afterRequests plainArgon2 sampleYaml ⟨sampleConfig, fun _ => none⟩ earlier)) ↔
      Trimmed plainArgon2 [sampleLogin "one", sampleLogin "two"] :=
  password_law_of_runs_iff plain_verifies
    (show sampleYaml.fromStr sampleConfig = some sampleConfig from rfl) rfl _ _

/-- A password with a blank in front is accepted by `add_user` and does not open the account. -/
theorem padded_password_refused :
    VerifiesHashed plainArgon2 ∧
      ¬ PasswordLaw plainArgon2 sampleYaml (fun user => user.login)
        (afterRequests plainArgon2 sampleYaml ⟨sampleConfig, fun _ => none⟩
          [sampleLogin " secret"]) := by
  constructor
  · exact plain_verifies
  · intro law
    have present : Present sampleYaml (afterRequests plainArgon2 sampleYaml
        ⟨sampleConfig, fun _ => none⟩ [sampleLogin " secret"]).file "bob" := by
      exact ⟨_, rfl, _, List.mem_singleton.mpr rfl, rfl⟩
    obtain ⟨cookie, success⟩ := (law "" "bob" " secret").mpr ⟨present, rfl⟩
    have refused : serveLogin plainArgon2 sampleYaml (fun user => user.login)
        (afterRequests plainArgon2 sampleYaml ⟨sampleConfig, fun _ => none⟩
          [sampleLogin " secret"]).file "" "bob" " secret" = .error 401 := by decide
    rw [refused] at success
    cases success

end VestibulePasswords
