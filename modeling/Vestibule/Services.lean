import Vestibule.Configuration

/-!
The services of a configuration: `load_config` and `HostType` of `configuration.rs`, `AppWithUri`
of `apps.rs`, and the list of services and the access check of `users.rs`. Parsing URIs is left to
the `http` crate and hashing to `sha2`; both are parameters.
-/
namespace VestibuleServices
open VestibuleRust KeyedList VestibuleAdmin

inductive Scheme where
  | http
  | https
  | other (name : String)
  deriving DecidableEq, Repr

structure Authority where
  text : String
  host : String
  deriving DecidableEq, Repr

structure Uri where
  scheme : Option Scheme
  authority : Option Authority
  pathAndQuery : Option String
  deriving DecidableEq, Repr

/-- What the `http` crate parses. -/
structure Http where
  parseAuthority : String → Option Authority
  parseUri : String → Option Uri

/-- `Uri::from_parts`. -/
def Uri.fromParts (parts : Uri) : Option Uri :=
  if parts.scheme.isSome then
    if parts.authority.isNone || parts.pathAndQuery.isNone then none else some parts
  else if parts.authority.isSome && parts.pathAndQuery.isSome then none
  else some parts

structure AppWithUri where
  inner : App
  appScheme : Scheme
  appAuthority : Authority
  forwardUri : Uri
  forwardScheme : Scheme
  forwardAuthority : Authority
  forwardHost : String
  deriving DecidableEq, Repr

/-- `expect`: a panic with its message, or the value. -/
def expect {α : Type} (value : Option α) (message : String) : Except String α :=
  match value with
  | some a => .ok a
  | none => .error message

def authorityText (host domain : String) (port : Option Nat) : String :=
  match port with
  | some port => host ++ "." ++ domain ++ ":" ++ toString port
  | none => host ++ "." ++ domain

def AppWithUri.fromAppDomainAndHttpPort (http : Http) (inner : App) (domain : String)
    (port : Option Nat) : Except String AppWithUri := do
  let appScheme := if port.isSome then Scheme.http else Scheme.https
  let appAuthority ← expect (http.parseAuthority (authorityText inner.host domain port))
    "could not work out authority from app configuration"
  let forwardScheme := if inner.forwardTo.startsWith "https://" then Scheme.https else Scheme.http
  let forwardParts ← expect (http.parseUri inner.forwardTo) "could not parse app target service"
  let forwardAuthority ← expect forwardParts.authority "could not parse app target service host"
  let forwardUri ← expect
    (Uri.fromParts ⟨some forwardScheme, forwardParts.authority, some "/"⟩)
    "called `Result::unwrap()` on an `Err` value"
  return ⟨inner, appScheme, appAuthority, forwardUri, forwardScheme, forwardAuthority,
    forwardAuthority.host⟩

inductive HostType where
  | app (s : AppWithUri)
  | dav (s : Dav)
  deriving DecidableEq, Repr

def HostType.roles : HostType → List String
  | .app s => s.inner.roles
  | .dav s => s.roles

def HostType.secured : HostType → Bool
  | .app s => s.inner.secured
  | .dav s => s.secured

/-- A `HashMap`: distinct keys. It is iterated in any order. -/
structure ConfigMap where
  entries : List (String × HostType)
  distinct : (entries.map Prod.fst).Nodup

def ConfigMap.get (map : ConfigMap) (key : String) : Option HostType :=
  (lookup Prod.fst key map.entries).map Prod.snd

def ConfigMap.empty : ConfigMap := ⟨[], List.nodup_nil⟩

/-- A key that is there gets the new value. -/
def ConfigMap.insert (map : ConfigMap) (service : String × HostType) : ConfigMap where
  entries := put Prod.fst service map.entries
  distinct := nodup_put map.distinct

def collect (services : List (String × HostType)) : ConfigMap :=
  services.foldl ConfigMap.insert ConfigMap.empty

inductive LoadFailure where
  | unreadable
  | panicked (message : String)
  deriving DecidableEq, Repr

section Loading
variable {Text : Type} (http : Http) (sha256 : Bytes → Vector UInt8 32) (yaml : Yaml Text)

def Config.port (config : Config) : Option Nat :=
  if config.autoTls then none else some config.httpPort

def serviceKey (host : String) (config : Config) : String := host ++ "." ++ config.hostname

def appServices (config : Config) : List App → Except String (List (String × HostType))
  | [] => .ok []
  | app :: rest =>
    match AppWithUri.fromAppDomainAndHttpPort http app config.hostname (Config.port config) with
    | .error message => .error message
    | .ok service =>
      (appServices config rest).map ((serviceKey app.host config, HostType.app service) :: ·)

def withKey (dav : Dav) : Dav :=
  if dav.passphrase ≠ "" then { dav with key := some (sha256 (utf8 dav.passphrase)) } else dav

def davService (config : Config) (dav : Dav) : String × HostType :=
  (serviceKey dav.host config, .dav (withKey sha256 dav))

/-- `load_config`, which `Server::build` runs at each start and reload. -/
def loadConfig (text : Text) : Except LoadFailure (Config × ConfigMap) :=
  match yaml.fromStr text with
  | none => .error .unreadable
  | some config =>
    match appServices http config config.apps with
    | .error message => .error (.panicked message)
    | .ok apps => .ok (config, collect (apps ++ config.davs.map (davService sha256 config)))

end Loading

section Access

/-- A response of `check_user_has_role_or_forbid`: forbidden, or none. -/
abbrev Refusal := Option Nat

def hasRole (userRole : String) : List String → Bool
  | [] => false
  | role :: rest => if userRole = role then true else hasRole userRole rest

/-- The two loops, which return at the first shared role. -/
def sharesRole (roles : List String) : List String → Bool
  | [] => false
  | userRole :: rest => if hasRole userRole roles then true else sharesRole roles rest

def checkUserHasRoleOrForbid (user : Option User) (target : HostType) : Refusal :=
  match user with
  | some user => if sharesRole target.roles user.roles then none else some 403
  | none => some 403

def checkAuthorization (app : HostType) (user : Option User) : Refusal :=
  if app.secured then
    match checkUserHasRoleOrForbid user app with
    | some response => some response
    | none => none
  else none

end Access

section Listing

abbrev Services := List App × List Dav

def stripSensitiveDataAndPushToVec (h : HostType) : Services → Services
  | (apps, davs) =>
    match h with
    | .app s => (apps ++ [{ s.inner with login := "REDACTED", password := "REDACTED" }], davs)
    | .dav s => (apps, davs ++ [{ s with passphrase := "REDACTED" }])

/-- The inner loop: `some` when it breaks out of both. -/
def userRoleLoop (svc : HostType) (svcRole : String) : List String → Services → Option Services
  | [], _ => none
  | userRole :: rest, services =>
    if userRole = svcRole then some (stripSensitiveDataAndPushToVec svc services)
    else userRoleLoop svc svcRole rest services

def svcLoop (svc : HostType) (userRoles : List String) : List String → Services → Services
  | [], services => services
  | svcRole :: rest, services =>
    match userRoleLoop svc svcRole userRoles services with
    | some services => services
    | none => svcLoop svc userRoles rest services

def listStep (user : User) (services : Services) (svc : String × HostType) : Services :=
  if !svc.2.secured then stripSensitiveDataAndPushToVec svc.2 services
  else svcLoop svc.2 user.roles svc.2.roles services

/-- What is serialised: the keys of the davs are skipped. -/
def serialised (services : Services) : Services :=
  (services.1, services.2.map fun dav => { dav with key := none })

/-- `list_services`, on the entries in the order of the iteration. -/
def listServices (order : List (String × HostType)) (user : User) : Services :=
  serialised (order.foldl (listStep user) ([], []))

end Listing
end VestibuleServices
