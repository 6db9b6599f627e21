import Vestibule.ConfigSaves
import Vestibule.Redirects
import Vestibule.Sessions
import Vestibule.WebdavRequests

/-!
The router of `Server::build`: which handler a request comes to, by its host and then by its path, what
each handler extracts before it runs, and what it leaves of the site. The configuration is a file on the
disk that the davs serve. A change of it is computed from the file as it is read when the request comes in
and saved in a later step.
-/
namespace VestibuleSite
open VestibuleRust VestibulePaths VestibuleAdmin VestibulePasswords VestibuleServices VestibuleRedirects
  VestibuleSaves VestibuleStreamer VestibuleCopyMove
open VestibuleSessions (Signed userFromRequest adminFromRequest)
open VestibuleWebdav (Method Outside Outcome KeyedShare copyBody)
open VestibuleRanges (parseUnsigned)

/-- A request with what is drawn and asked of the world while it is served: the cookie that the jar finds
    in its headers, the host that `Host` makes out, the salt, and the steps granted to a copy. -/
structure SiteRequest (Salt Ip : Type) where
  method : String
  uri : Uri
  headers : Headers
  body : Body
  ip : Ip
  cookie : Option Signed
  forHost : Option String
  salt : Salt
  out : Outside
  fuel : Nat

/-- `Json`: the payload of a request, or the status that refuses it. -/
structure Json where
  user : VestibuleWebdav.Request → Except Nat User
  app : VestibuleWebdav.Request → Except Nat App
  dav : VestibuleWebdav.Request → Except Nat Dav
  localAuth : VestibuleWebdav.Request → Except Nat (String × String)

structure Crates (Salt Ip : Type) where
  argon2 : Argon2 Salt
  yaml : Yaml Bytes
  toJson : User → String
  fromJson : String → Option User
  json : Json
  http : HttpText
  sha256 : Bytes → Vector UInt8 32
  client : Ip → String → ProxyRequest → Option ProxyResponse

def methodOf : String → Method
  | "GET" => .get
  | "HEAD" => .head
  | "OPTIONS" => .options
  | "PUT" => .put
  | "DELETE" => .delete
  | "PROPFIND" => .propfind
  | "PROPPATCH" => .proppatch
  | "MKCOL" => .mkcol
  | "COPY" => .copy
  | "MOVE" => .move
  | "LOCK" => .lock
  | "UNLOCK" => .unlock
  | _ => .other

section Requests
variable {Salt Ip : Type} (r : SiteRequest Salt Ip)

def SiteRequest.target : Bytes := utf8 (r.uri.pathAndQuery.getD "/")

def SiteRequest.path : Bytes := r.target.takeWhile (· ≠ 63)

def SiteRequest.query : Bytes := (r.target.dropWhile (· ≠ 63)).drop 1

def SiteRequest.asked : VestibuleWebdav.Request :=
  ⟨methodOf r.method, r.path, r.query, r.headers, r.body⟩

def SiteRequest.proxied : ProxyRequest := ⟨r.method, r.uri, r.headers, (copyBody r.body).1⟩

end Requests

inductive Resource where
  | users
  | apps
  | davs
  deriving DecidableEq, Repr

def Resource.route : Resource → Bytes
  | .users => utf8 "/api/admin/users"
  | .apps => utf8 "/api/admin/apps"
  | .davs => utf8 "/api/admin/davs"

inductive Endpoint where
  | home
  | reload
  | localAuth
  | listServices
  | get (resource : Resource)
  | add (resource : Resource)
  | delete (resource : Resource) (name : Bytes)
  | unrouted
  deriving DecidableEq, Repr

/-- A route for GET answers HEAD as well. -/
def reads (method : String) : Bool := method = "GET" || method = "HEAD"

/-- The two routes of a list. A parameter is one segment that is not empty. -/
def adminEndpoint (method : String) (path : Bytes) (resource : Resource) : Option Endpoint :=
  if path = resource.route then
    some (if reads method then .get resource
      else if method = "POST" then .add resource
      else .unrouted)
  else if (resource.route ++ [slashByte]).isPrefixOf path then
    let name := path.drop (resource.route.length + 1)
    some (if name ≠ [] ∧ slashByte ∉ name ∧ method = "DELETE" then .delete resource name else .unrouted)
  else none

def endpoint (method : String) (path : Bytes) : Endpoint :=
  if path = utf8 "/" then .home
  else if path = utf8 "/reload" then if reads method then .reload else .unrouted
  else if path = utf8 "/auth/local" then if method = "POST" then .localAuth else .unrouted
  else if path = utf8 "/api/user/list_services" then if reads method then .listServices else .unrouted
  else
    (adminEndpoint method path .users <|> adminEndpoint method path .apps <|>
      adminEndpoint method path .davs).getD .unrouted

/-- A configuration on its way to the file, and the answer once it is there. -/
structure Saving where
  config : Config
  answer : Answer
  deriving DecidableEq, Repr

/-- `CONFIG_FILE`, in the working directory. -/
def configFile : DiskPath := pathOf (utf8 "vestibule.yaml")

/-- What is in the file when it is read, or nothing where it cannot be. -/
def readConfig (w : Disk) : Option Bytes :=
  match w.metadata configFile with
  | .ok (.file content) => some content
  | _ => none

/-- `from_str` of what was read. -/
def onFile (yaml : Yaml Bytes) : Yaml (Option Bytes) where
  toString config := some (yaml.toString config)
  fromStr read := read.bind yaml.fromStr
  back := yaml.back

def saveConfig (yaml : Yaml Bytes) (outcome : WriteOutcome) (config : Config) (w : Disk) : Disk :=
  if outcome = .notOpened then w
  else
    match w.openTruncated configFile with
    | (w, .error _) => w
    | (w, .ok (p, n)) => (w.putAt p n (.file (toFile yaml outcome config []).1)).1

/-- `routers` are the maps of services of the routers, in the order in which they were built. The number
    of a router is also that of its key. -/
structure State where
  disk : Disk
  issued : List Signed
  routers : List ConfigMap
  saving : List Saving

inductive SiteAnswer where
  | page (text : String)
  | plain (status : Nat) (text : String)
  | loggedIn (cookie : Cookie) (status : Nat)
  | users (users : List User)
  | apps (apps : List App)
  | davs (davs : List Dav)
  | services (services : Services)
  | dav (response : VestibuleWebdav.Response)
  | proxied (response : ProxyResponse)
  -- the configuration is being saved, the answer comes after that
  | saving
  -- axum answers by itself
  | unrouted
  -- the task panicked
  | aborted
  deriving DecidableEq

/-- `HostType::from_request`: a panic, a rejection, or the service of the host. -/
def hostTypeFromRequest (http : Http) (map : ConfigMap) (headers : Headers) :
    Except String (Except Nat HostType) :=
  match headers.get "host" with
  | none => .ok (.error 404)
  | some value =>
    match (headerText value).bind http.parseAuthority with
    | none => .error "unexpected error getting Host header(s)"
    | some authority =>
      match map.get authority.host with
      | none => .ok (.error 404)
      | some target => .ok (.ok target)

def shareOf (dav : Dav) : KeyedShare :=
  ⟨⟨utf8 dav.directory, dav.writable, dav.allowSymlinks⟩, dav.key⟩

def callAnswer : Outcome → SiteAnswer
  | .ok response => .dav response
  | .error .failed => .dav ⟨500, [], .empty⟩
  | .error (.panicked _) => .aborted
  | .error .unwrapped => .aborted

def proxiedAnswer : Except String ProxyResponse → SiteAnswer
  | .ok response => .proxied response
  | .error _ => .aborted

section Handlers
variable {Salt Ip : Type} (crates : Crates Salt Ip) (st : State) (router : Nat) (r : SiteRequest Salt Ip)

def fromFile (w : Disk) : Option Config := (onFile crates.yaml).fromStr (readConfig w)

def State.session : VestibuleSessions.Site (Option Bytes) :=
  ⟨readConfig st.disk, st.routers.length, st.issued⟩

def requestUser : Except Nat User := userFromRequest crates.fromJson st.session router r.cookie

def webdavHandler (dav : HostType) : Option (State × SiteAnswer) :=
  match checkAuthorization dav (requestUser crates st router r).toOption with
  | some status => some (st, .dav ⟨status, [], .empty⟩)
  | none =>
    match dav with
    | .dav dav =>
      (VestibuleWebdav.handle r.out (shareOf dav) r.fuel st.disk r.asked).map fun done =>
        ({ st with disk := done.1 }, callAnswer done.2)
    | .app _ => some (st, .aborted)

def proxyAnswer (app : HostType) : SiteAnswer :=
  proxiedAnswer (proxyHandler crates.http crates.client (requestUser crates st router r).toOption r.ip app
    r.proxied)

/-- The extractors `Config` and `Admin`, in this order. -/
def adminConfig : Except Nat Config :=
  match fromFile crates st.disk with
  | none => .error 500
  | some config =>
    match adminFromRequest crates.fromJson st.session router r.cookie with
    | .error status => .error status
    | .ok _ => .ok config

def addition (resource : Resource) : Except Nat (AdminRequest Salt) :=
  match resource with
  | .users => (crates.json.user r.asked).map fun payload => .addUser payload r.salt
  | .apps => (crates.json.app r.asked).map .addApp
  | .davs => (crates.json.dav r.asked).map .addDav

def deletion (resource : Resource) (name : Bytes) : Except Nat (AdminRequest Salt) :=
  match decodeUri name with
  | none => .error 400
  | some decoded =>
    match resource with
    | .users =>
      match String.fromUTF8? ⟨decoded.toArray⟩ with
      | none => .error 400
      | some userLogin => .ok (.deleteUser userLogin)
    | .apps =>
      match parseUnsigned (2 ^ 64) decoded with
      | none => .error 400
      | some appId => .ok (.deleteApp appId)
    | .davs =>
      match parseUnsigned (2 ^ 64) decoded with
      | none => .error 400
      | some davId => .ok (.deleteDav davId)

def change (request : Except Nat (AdminRequest Salt)) : State × SiteAnswer :=
  match adminConfig crates st router r with
  | .error status => (st, .plain status "")
  | .ok config =>
    match request with
    | .error status => (st, .plain status "")
    | .ok request =>
      match handle crates.argon2 config request with
      | .error answer => (st, .plain answer.status answer.body)
      | .ok (config, answer) => ({ st with saving := st.saving ++ [⟨config, answer⟩] }, .saving)

def listing (resource : Resource) (config : Config) : SiteAnswer :=
  match resource with
  | .users => .users config.users
  | .apps => .apps config.apps
  | .davs => .davs (config.davs.map fun dav => { dav with key := none })

def login : State × SiteAnswer :=
  match fromFile crates st.disk with
  | none => (st, .plain 500 "")
  | some config =>
    match r.forHost with
    | none => (st, .plain 400 "")
    | some hostname =>
      match crates.json.localAuth r.asked with
      | .error status => (st, .plain status "")
      | .ok (login, password) =>
        match localAuth crates.argon2 crates.toJson config hostname login password with
        | .error status => (st, .plain status "")
        | .ok (cookie, status) =>
          ({ st with issued := ⟨router, cookie.value⟩ :: st.issued }, .loggedIn cookie status)

/-- `website_router`. Whether anybody hears the command to reload is up to the loop of `main`. -/
def website (map : ConfigMap) (heard : Bool) : State × SiteAnswer :=
  match endpoint r.method r.path with
  | .home => (st, .page "Hello world from main server !")
  | .reload => (st, if heard then .page "Apps reloaded !" else .aborted)
  | .localAuth => login crates st router r
  | .listServices =>
    match requestUser crates st router r with
    | .error status => (st, .plain status "")
    | .ok user => (st, .services (listServices map.entries user))
  | .get resource =>
    match adminConfig crates st router r with
    | .error status => (st, .plain status "")
    | .ok config => (st, listing resource config)
  | .add resource => change crates st router r (addition crates r resource)
  | .delete resource name => change crates st router r (deletion resource name)
  | .unrouted => (st, .unrouted)

/-- The request at the router with this number; `none` while it is not answered. -/
def respond (heard : Bool) : Option (State × SiteAnswer) :=
  match st.routers[router]? with
  | none => none
  | some map =>
    match hostTypeFromRequest crates.http.toHttp map r.headers with
    | .error _ => some (st, .aborted)
    | .ok (.error _) => some (website crates st router r map heard)
    | .ok (.ok (.app app)) => some (st, proxyAnswer crates st router r (.app app))
    | .ok (.ok (.dav dav)) => webdavHandler crates st router r (.dav dav)

end Handlers

/-- A router is built, a request comes to a router, or a save of the configuration is done, with nothing
    else between its first and its last call. -/
inductive Event (Salt Ip : Type) where
  | build
  | request (router : Nat) (r : SiteRequest Salt Ip) (heard : Bool)
  | save (i : Nat) (outcome : WriteOutcome)

section Steps
variable {Salt Ip : Type} (crates : Crates Salt Ip)

def load (w : Disk) : Except LoadFailure (Config × ConfigMap) :=
  loadConfig crates.http.toHttp crates.sha256 (onFile crates.yaml) (readConfig w)

def step (st : State) : Event Salt Ip → Option State
  | .build =>
    match load crates st.disk with
    | .error _ => none
    | .ok (_, map) => some { st with routers := st.routers ++ [map] }
  | .request router r heard => (respond crates st router r heard).map Prod.fst
  | .save i outcome =>
    match st.saving[i]? with
    | none => none
    | some saving => some { st with
        disk := saveConfig crates.yaml outcome saving.config st.disk
        saving := st.saving.eraseIdx i }

end Steps

def State.start (disk : Disk) : State := ⟨disk, [], [], []⟩

end VestibuleSite
