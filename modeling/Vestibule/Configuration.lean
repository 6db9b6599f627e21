import Vestibule.KeyedList
import Vestibule.RustBasics
import Vestibule.SharedRegister

/-!
The configuration file and the requests of administrators that change it: `configuration.rs` and
the handlers of `users.rs`, `apps.rs` and `davs/model.rs`. YAML, JSON and Argon2 come from outside
and are parameters. Reading and writing the file does not fail, and all requests are authorised.
-/
namespace VestibuleAdmin
open VestibuleRust KeyedList SharedRegister

structure App where
  id : Nat
  name : String
  icon : String
  color : String
  isProxy : Bool
  host : String
  forwardTo : String
  secured : Bool
  login : String
  password : String
  openpath : String
  roles : List String
  deriving DecidableEq, Repr

structure Dav where
  id : Nat
  host : String
  directory : String
  writable : Bool
  name : String
  icon : String
  color : String
  secured : Bool
  allowSymlinks : Bool
  roles : List String
  passphrase : String
  key : Option (Vector UInt8 32)
  deriving DecidableEq, Repr

structure User where
  login : String
  password : String
  roles : List String
  deriving DecidableEq, Repr

structure Config where
  hostname : String
  debugMode : Bool
  httpPort : Nat
  autoTls : Bool
  letsencryptEmail : String
  apps : List App
  davs : List Dav
  users : List User
  deriving DecidableEq, Repr

/-- What a file keeps of a configuration: the keys of the davs are skipped. -/
def Config.stored (config : Config) : Config :=
  { config with davs := config.davs.map fun dav => { dav with key := none } }

/-- `serde_yaml` on configurations, for some type of file contents. -/
structure Yaml (Text : Type) where
  toString : Config → Text
  fromStr : Text → Option Config
  back : ∀ config, fromStr (toString config) = some config.stored

/-- The Argon2 crate: hashing under a salt, parsing a hash, and checking a password against one. -/
structure Argon2 (Salt : Type) where
  hashPassword : Salt → Bytes → Option String
  parses : String → Bool
  verifyPassword : String → Bytes → Bool

structure Answer where
  status : Nat
  body : String
  deriving DecidableEq, Repr

/-- A handler up to `to_file`: an error, or the configuration to save and the answer after it. -/
abbrev Handled := Except Answer (Config × Answer)

def deleteUser (config : Config) (userLogin : String) : Handled :=
  match removeFirst User.login userLogin config.users with
  | some users => .ok ({ config with users := users }, ⟨200, "user deleted successfully"⟩)
  | none => .error ⟨400, "user doesn't exist"⟩

def hashPassword {Salt : Type} (argon2 : Argon2 Salt) (salt : Salt) (payload : User) :
    Except Answer User :=
  match argon2.hashPassword salt (utf8 (trim payload.password)) with
  | some hash => .ok { payload with password := hash }
  | none => .error ⟨500, "password hash failed"⟩

/-- The salt is the one the random generator gives when the password is hashed. -/
def addUser {Salt : Type} (argon2 : Argon2 Salt) (config : Config) (payload : User) (salt : Salt) :
    Handled :=
  match lookup User.login payload.login config.users with
  | some user => do
    let payload ←
      if payload.password ≠ "" then hashPassword argon2 salt payload
      else .ok { payload with password := user.password }
    .ok ({ config with users := (replaceFirst User.login payload config.users).getD config.users },
      ⟨201, "user created or updated successfully"⟩)
  | none =>
    if payload.password = "" then .error ⟨406, "password is required"⟩
    else do
      let payload ← hashPassword argon2 salt payload
      .ok ({ config with users := config.users ++ [payload] },
        ⟨201, "user created or updated successfully"⟩)

def deleteApp (config : Config) (appId : Nat) : Handled :=
  match removeFirst App.id appId config.apps with
  | some apps => .ok ({ config with apps := apps }, ⟨200, "app deleted successfully"⟩)
  | none => .error ⟨400, "app doesn't exist"⟩

def addApp (config : Config) (payload : App) : Handled :=
  .ok ({ config with
      apps := (replaceFirst App.id payload config.apps).getD (config.apps ++ [payload]) },
    ⟨201, "app created or updated successfully"⟩)

def deleteDav (config : Config) (davId : Nat) : Handled :=
  match removeFirst Dav.id davId config.davs with
  | some davs => .ok ({ config with davs := davs }, ⟨200, "dav deleted successfully"⟩)
  | none => .error ⟨400, "dav doesn't exist"⟩

def addDav (config : Config) (payload : Dav) : Handled :=
  .ok ({ config with
      davs := (replaceFirst Dav.id payload config.davs).getD (config.davs ++ [payload]) },
    ⟨201, "dav created or updated successfully"⟩)

/-- A request of an administrator, with the salt it will draw where it may need one. -/
inductive AdminRequest (Salt : Type) where
  | addUser (payload : User) (salt : Salt)
  | deleteUser (userLogin : String)
  | addApp (payload : App)
  | deleteApp (appId : Nat)
  | addDav (payload : Dav)
  | deleteDav (davId : Nat)

section Serving
variable {Salt Text : Type} (argon2 : Argon2 Salt) (yaml : Yaml Text)

def handle (config : Config) : AdminRequest Salt → Handled
  | .addUser payload salt => addUser argon2 config payload salt
  | .deleteUser userLogin => deleteUser config userLogin
  | .addApp payload => addApp config payload
  | .deleteApp appId => deleteApp config appId
  | .addDav payload => addDav config payload
  | .deleteDav davId => deleteDav config davId

/-- A whole request as a function of the file it reads: `Config::from_request`, the handler, and
    what `to_file` writes. -/
def serve (request : AdminRequest Salt) : Update Text Answer := fun text =>
  match yaml.fromStr text with
  | none => .error ⟨500, ""⟩
  | some config =>
    match handle argon2 config request with
    | .error answer => .error answer
    | .ok (config, answer) => .ok (yaml.toString config, answer)

end Serving

section Samples

def sampleConfig : Config := ⟨"vestibule.io", false, 8080, false, "foo@bar.com", [], [], []⟩

def sampleYaml : Yaml Config where
  toString := Config.stored
  fromStr := some
  back _ := rfl

end Samples
end VestibuleAdmin
