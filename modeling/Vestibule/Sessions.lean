import Vestibule.Passwords

/-!
Sessions of administrators: the `User` and `Admin` extractors of `users.rs` and the keys that
`Server::build` draws, one for each router. The roles of a user are copied into a signed cookie at login
and read back from it. Signatures cannot be forged: a cookie is accepted only where it was signed. A
connection stays with its router, so that an old one may still be asked after a reload.
-/
namespace VestibuleSessions
open VestibuleRust KeyedList SharedRegister VestibuleAdmin VestibulePasswords

structure Signed where
  key : Nat
  value : String
  deriving DecidableEq, Repr

/-- The configuration file, how many routers have been built, and every cookie signed so far. The number of
    a router is also that of its key. -/
structure Site (Text : Type) where
  file : Text
  routers : Nat
  issued : List Signed

/-- What a session asks for: one of the changes, or to read the users, apps or davs. -/
inductive AdminAction (Salt : Type) where
  | change (request : AdminRequest Salt)
  | inspect

inductive Event (Salt : Type) where
  | login (router : Nat) (hostname login password : String)
  | admin (router : Nat) (cookie : Option Signed) (action : AdminAction Salt)
  | reload

section Site
variable {Salt Text : Type} (argon2 : Argon2 Salt) (yaml : Yaml Text) (toJson : User → String)
  (fromJson : String → Option User)

/-- `SignedCookieJar::get`. -/
def Site.jarGet (site : Site Text) (router : Nat) (cookie : Option Signed) : Option String :=
  match cookie with
  | none => none
  | some cookie =>
    if cookie.key = router ∧ cookie ∈ site.issued then some cookie.value else none

def userFromRequest (site : Site Text) (router : Nat) (cookie : Option Signed) : Except Nat User :=
  match site.jarGet router cookie with
  | none => .error 401
  | some value =>
    match fromJson value with
    | none => .error 500
    | some user => .ok user

def adminFromRequest (site : Site Text) (router : Nat) (cookie : Option Signed) : Except Nat User :=
  match userFromRequest fromJson site router cookie with
  | .error status => .error status
  | .ok user => if user.roles.contains "ADMINS" then .ok user else .error 401

/-- A request of a session takes effect: the configuration is read, the extractor passes, and the
    handler is done without an error. -/
def takesEffect (site : Site Text) (router : Nat) (cookie : Option Signed) (action : AdminAction Salt) :
    Option Text :=
  match yaml.fromStr site.file, adminFromRequest fromJson site router cookie with
  | some _, .ok _ =>
    match action with
    | .inspect => some site.file
    | .change request =>
      match serve argon2 yaml request site.file with
      | .error _ => none
      | .ok (file, _) => some file
  | _, _ => none

def step (site : Site Text) : Event Salt → Site Text
  | .login router hostname login password =>
    if router < site.routers then
      match serveLogin argon2 yaml toJson site.file hostname login password with
      | .error _ => site
      | .ok (cookie, _) => { site with issued := ⟨router, cookie.value⟩ :: site.issued }
    else site
  | .admin router cookie action =>
    if router < site.routers then
      match takesEffect argon2 yaml fromJson site router cookie action with
      | none => site
      | some file => { site with file := file }
    else site
  | .reload => { site with routers := site.routers + 1 }

def siteAfter (file : Text) (events : List (Event Salt)) : Site Text :=
  events.foldl (step argon2 yaml toJson fromJson) ⟨file, 1, []⟩

def AdminNow (file : Text) (login : String) : Prop :=
  ∃ config user, yaml.fromStr file = some config ∧ user ∈ config.users ∧ user.login = login ∧
    "ADMINS" ∈ user.roles

def Revocable (file : Text) : Prop :=
  ∀ (events : List (Event Salt)) router cookie action user file',
    router < (siteAfter argon2 yaml toJson fromJson file events).routers →
    adminFromRequest fromJson (siteAfter argon2 yaml toJson fromJson file events) router cookie =
      .ok user →
    takesEffect argon2 yaml fromJson (siteAfter argon2 yaml toJson fromJson file events) router cookie
      action = some file' →
    AdminNow yaml (siteAfter argon2 yaml toJson fromJson file events).file user.login

def Faithful : Prop := ∀ user read, fromJson (toJson user) = some read → read = user

def LoggedIn (file : Text) (events : List (Event Salt)) (router : Nat) (value : String) : Prop :=
  ∃ before hostname login password later cookie status,
    events = before ++ .login router hostname login password :: later ∧
    router < (siteAfter argon2 yaml toJson fromJson file before).routers ∧
    serveLogin argon2 yaml toJson (siteAfter argon2 yaml toJson fromJson file before).file hostname
      login password = .ok (cookie, status) ∧
    cookie.value = value

end Site

section Runs
variable {Salt Text : Type} {argon2 : Argon2 Salt} {yaml : Yaml Text} {toJson : User → String}
  {fromJson : String → Option User} {file : Text}

theorem site_after_concat (events : List (Event Salt)) (event : Event Salt) :
    siteAfter argon2 yaml toJson fromJson file (events ++ [event]) =
      step argon2 yaml toJson fromJson (siteAfter argon2 yaml toJson fromJson file events) event :=
  List.foldl_append

theorem logged_in_later {events : List (Event Salt)} {router : Nat} {value : String} (event : Event Salt)
    (before : LoggedIn argon2 yaml toJson fromJson file events router value) :
    LoggedIn argon2 yaml toJson fromJson file (events ++ [event]) router value := by
  obtain ⟨first, hostname, login, password, later, cookie, status, whole, built, success⟩ := before
  exact ⟨first, hostname, login, password, later ++ [event], cookie, status, by simp [whole], built,
    success⟩

theorem jar_get_iff {site : Site Text} {router : Nat} {cookie : Option Signed} {value : String} :
    site.jarGet router cookie = some value ↔
      cookie = some ⟨router, value⟩ ∧ ⟨router, value⟩ ∈ site.issued := by
  unfold Site.jarGet
  cases cookie with
  | none => simp
  | some signed =>
    rw [Option.ite_none_right_eq_some, Option.some.injEq, Option.some.injEq]
    constructor
    · rintro ⟨⟨rfl, inside⟩, rfl⟩
      exact ⟨rfl, inside⟩
    · rintro ⟨rfl, inside⟩
      exact ⟨⟨rfl, inside⟩, rfl⟩

theorem user_from_request_ok {site : Site Text} {router : Nat} {cookie : Option Signed} {user : User}
    (passes : userFromRequest fromJson site router cookie = .ok user) :
    ∃ value, site.jarGet router cookie = some value ∧ fromJson value = some user := by
  unfold userFromRequest at passes
  cases presented : site.jarGet router cookie with
  | none =>
    rw [presented] at passes
    cases passes
  | some value =>
    rw [presented] at passes
    simp only at passes
    cases read : fromJson value with
    | none =>
      rw [read] at passes
      cases passes
    | some user' =>
      rw [read] at passes
      cases passes
      exact ⟨value, rfl, read⟩

theorem admin_from_request_ok {site : Site Text} {router : Nat} {cookie : Option Signed} {user : User}
    (passes : adminFromRequest fromJson site router cookie = .ok user) :
    userFromRequest fromJson site router cookie = .ok user ∧ "ADMINS" ∈ user.roles := by
  unfold adminFromRequest at passes
  cases extracted : userFromRequest fromJson site router cookie with
  | error status =>
    rw [extracted] at passes
    cases passes
  | ok user' =>
    rw [extracted] at passes
    simp only at passes
    split at passes
    · rename_i admin
      cases passes
      exact ⟨rfl, List.contains_iff_mem.mp admin⟩
    · cases passes

theorem issued_logged_in (events : List (Event Salt)) :
    ∀ cookie ∈ (siteAfter argon2 yaml toJson fromJson file events).issued,
      LoggedIn argon2 yaml toJson fromJson file events cookie.key cookie.value := by
  induction events using List.reverseRecOn with
  | nil =>
    intro cookie member
    cases member
  | append_singleton events event ih =>
    rw [site_after_concat]
    generalize here : siteAfter argon2 yaml toJson fromJson file events = site at ih ⊢
    have earlier (cookie : Signed) (old : cookie ∈ site.issued) :
        LoggedIn argon2 yaml toJson fromJson file (events ++ [event]) cookie.key cookie.value :=
      logged_in_later event (ih cookie old)
    cases event with
    | login router hostname login password =>
      unfold step
      dsimp only
      split
      · rename_i built
        cases success : serveLogin argon2 yaml toJson site.file hostname login password with
        | error status => exact earlier
        | ok result =>
          obtain ⟨fresh, status⟩ := result
          intro cookie member
          rcases List.mem_cons.mp member with new | old
          · subst new
            exact ⟨events, hostname, login, password, [], fresh, status, rfl, here ▸ built,
              here ▸ success, rfl⟩
          · exact earlier cookie old
      · exact earlier
    | admin router presented action =>
      unfold step
      dsimp only
      split
      · cases takesEffect argon2 yaml fromJson site router presented action <;> exact earlier
      · exact earlier
    | reload => exact earlier

theorem local_auth_ok {config : Config} {hostname login password : String} {cookie : Cookie}
    {status : Nat}
    (success : localAuth argon2 toJson config hostname login password = .ok (cookie, status)) :
    ∃ found, lookup User.login login config.users = some found ∧
      argon2.verifyPassword found.password (utf8 password) = true ∧
      cookie.value = toJson { found with password := "" } := by
  unfold localAuth at success
  cases found : lookup User.login login config.users with
  | none =>
    rw [found] at success
    cases success
  | some user =>
    rw [found] at success
    simp only at success
    split at success
    · split at success
      · rename_i verified
        cases success
        exact ⟨user, rfl, verified, rfl⟩
      · cases success
    · cases success

end Runs

section Samples

def sampleBob : User := ⟨"bob", "secret", ["ADMINS"]⟩

def sampleToJson (user : User) : String :=
  if user = { sampleBob with password := "" } then "bob" else ""

def sampleFromJson (value : String) : Option User :=
  if value = "bob" then some { sampleBob with password := "" } else none

theorem sample_faithful : Faithful sampleToJson sampleFromJson := by
  intro user read decoded
  unfold sampleToJson sampleFromJson at decoded
  by_cases same : user = { sampleBob with password := "" }
  · simp only [same, ↓reduceIte, Option.some.injEq] at decoded
    rw [same, decoded]
  · simp [same] at decoded

def sampleAdmins : Config := { sampleConfig with users := [sampleBob] }

def sampleDeparture : List (Event Unit) :=
  [.login 0 "vestibule.io" "bob" "secret", .admin 0 (some ⟨0, "bob"⟩) (.change (.deleteUser "bob"))]

end Samples

end VestibuleSessions
