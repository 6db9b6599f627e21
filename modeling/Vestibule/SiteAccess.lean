import Vestibule.LoadableConfigs
import Vestibule.ReadOnlyShares
import Vestibule.RedirectRewriting
import Vestibule.ServiceListing
import Vestibule.SiteFiles
import Vestibule.StepRuns

/-!
Who comes to the services of a site, over all its runs: logins, changes of the configuration in any order
of their reads and saves, and any number of routers, each with the key and the services it was built with.
-/
namespace VestibuleSite
open VestibuleRust KeyedList VestibuleAdmin VestibulePasswords VestibuleServices VestibuleRedirects
  VestibuleSaves VestibuleListing VestibuleStreamer VestibuleCopyMove StepRuns
open VestibuleSessions (Signed userFromRequest adminFromRequest)
open VestibuleWebdav (sampleOutside outwardDisk)

def RoundTrips (toJson : User → String) (fromJson : String → Option User) : Prop :=
  ∀ user, fromJson (toJson user) = some user

section Entitlement
variable {Salt Ip : Type} (crates : Crates Salt Ip) (start : State)
  (events : List (Event Salt Ip)) (router : Nat) (cookie : Option Signed)

def LogsIn (found : User) (value : String) (st : State) (event : Event Salt Ip) : Prop :=
  ∃ r heard config login password given, event = .request router r heard ∧
    fromFile crates st.disk = some config ∧ crates.json.localAuth r.asked = .ok (login, password) ∧
    lookup User.login login config.users = some found ∧
    crates.argon2.verifyPassword found.password (utf8 password) = true ∧
    value = crates.toJson { found with password := "" } ∧ given.value = value ∧
    respond crates st router r heard =
      some ({ st with issued := ⟨router, value⟩ :: st.issued }, .loggedIn given 200)

/-- The cookie comes from a login at this router, at which this user was stored. -/
def Holds (found : User) : Prop :=
  ∃ value, cookie = some ⟨router, value⟩ ∧
    Occurred (step crates) start events fun _ => LogsIn crates router found value

/-- The service is open, or the cookie comes from a login of a user who had a role in common with it. -/
def Entitled (svc : HostType) : Prop :=
  svc.secured = false ∨
    ∃ found, Holds crates start events router cookie found ∧ ∃ role ∈ svc.roles, role ∈ found.roles

/-- The cookie comes from a login of a user who was an administrator then. -/
def Administers : Prop :=
  ∃ found, Holds crates start events router cookie found ∧ "ADMINS" ∈ found.roles

end Entitlement

section Responses
variable {Salt Ip : Type} {crates : Crates Salt Ip} {st st' : State} {router : Nat}
  {r : SiteRequest Salt Ip} {heard : Bool} {map : ConfigMap} {answer : SiteAnswer}

/-- What a request leaves of the site when it is no request to a dav: a cookie more, a save more, or
    everything as it was. -/
inductive Leaves (crates : Crates Salt Ip) (st : State) (router : Nat)
    (r : SiteRequest Salt Ip) : State → SiteAnswer → Prop where
  | nothing (answer : SiteAnswer) : Leaves crates st router r st answer
  | cookie (config : Config) (login password : String) (found : User) (given : Cookie)
      (read : fromFile crates st.disk = some config)
      (payload : crates.json.localAuth r.asked = .ok (login, password))
      (stored : lookup User.login login config.users = some found)
      (verified : crates.argon2.verifyPassword found.password (utf8 password) = true)
      (value : given.value = crates.toJson { found with password := "" }) :
      Leaves crates st router r { st with issued := ⟨router, given.value⟩ :: st.issued }
        (.loggedIn given 200)
  | save (config config' : Config) (user : User) (request : AdminRequest Salt) (answer : Answer)
      (read : fromFile crates st.disk = some config)
      (admin : adminFromRequest crates.fromJson st.session router r.cookie = .ok user)
      (origin : ∀ payload, request = .addApp payload → crates.json.app r.asked = .ok payload)
      (handled : handle crates.argon2 config request = .ok (config', answer)) :
      Leaves crates st router r { st with saving := st.saving ++ [⟨config', answer⟩] } .saving

theorem local_auth_status {config : Config} {hostname login password : String} {cookie : Cookie}
    {status : Nat} (success : localAuth crates.argon2 crates.toJson config hostname login password =
      .ok (cookie, status)) : status = 200 := by
  unfold localAuth at success
  split at success
  · cases success
  · split at success
    · split at success
      · cases success
        rfl
      · cases success
    · cases success

theorem admin_config_ok {config : Config} (passes : adminConfig crates st router r = .ok config) :
    fromFile crates st.disk = some config ∧
      ∃ user, adminFromRequest crates.fromJson st.session router r.cookie = .ok user := by
  unfold adminConfig at passes
  cases read : fromFile crates st.disk with
  | none =>
    rw [read] at passes
    cases passes
  | some config' =>
    rw [read] at passes
    cases admin : adminFromRequest crates.fromJson st.session router r.cookie with
    | error status =>
      rw [admin] at passes
      cases passes
    | ok user =>
      rw [admin] at passes
      cases passes
      exact ⟨rfl, user, rfl⟩

theorem login_leaves (done : login crates st router r = (st', answer)) :
    Leaves crates st router r st' answer := by
  unfold login at done
  cases read : fromFile crates st.disk with
  | none =>
    rw [read] at done
    cases done
    exact .nothing _
  | some config =>
    rw [read] at done
    cases host : r.forHost with
    | none =>
      rw [host] at done
      cases done
      exact .nothing _
    | some hostname =>
      rw [host] at done
      cases payload : crates.json.localAuth r.asked with
      | error status =>
        rw [payload] at done
        cases done
        exact .nothing _
      | ok pair =>
        obtain ⟨login, password⟩ := pair
        rw [payload] at done
        dsimp only at done
        cases authorised : localAuth crates.argon2 crates.toJson config hostname login password with
        | error status =>
          rw [authorised] at done
          cases done
          exact .nothing _
        | ok result =>
          obtain ⟨given, status⟩ := result
          rw [authorised] at done
          have ok : status = 200 := local_auth_status authorised
          subst ok
          cases done
          obtain ⟨found, stored, verified, value⟩ := VestibuleSessions.local_auth_ok authorised
          exact .cookie config login password found given read payload stored verified value

theorem addition_app {resource : Resource} {payload : App}
    (asked : addition crates r resource = .ok (.addApp payload)) :
    crates.json.app r.asked = .ok payload := by
  unfold addition at asked
  cases resource with
  | users => cases found : crates.json.user r.asked <;> simp [found, Except.map] at asked
  | apps =>
    cases found : crates.json.app r.asked with
    | error status => simp [found, Except.map] at asked
    | ok app =>
      simp only [found, Except.map, Except.ok.injEq, AdminRequest.addApp.injEq] at asked
      exact congrArg Except.ok asked
  | davs => cases found : crates.json.dav r.asked <;> simp [found, Except.map] at asked

theorem deletion_no_app {resource : Resource} {name : Bytes} {payload : App} :
    (deletion resource name : Except Nat (AdminRequest Salt)) ≠ .ok (.addApp payload) := by
  intro asked
  unfold deletion at asked
  split at asked
  · cases asked
  · split at asked <;> split at asked <;> cases asked

theorem change_leaves {request : Except Nat (AdminRequest Salt)}
    (origin : ∀ payload, request = .ok (.addApp payload) → crates.json.app r.asked = .ok payload)
    (done : change crates st router r request = (st', answer)) : Leaves crates st router r st' answer := by
  unfold change at done
  cases passes : adminConfig crates st router r with
  | error status =>
    rw [passes] at done
    cases done
    exact .nothing _
  | ok config =>
    obtain ⟨read, user, admin⟩ := admin_config_ok passes
    rw [passes] at done
    cases request with
    | error status =>
      cases done
      exact .nothing _
    | ok request =>
      dsimp only at done
      cases handled : handle crates.argon2 config request with
      | error refusal =>
        rw [handled] at done
        cases done
        exact .nothing _
      | ok result =>
        obtain ⟨config', accepted⟩ := result
        rw [handled] at done
        cases done
        exact .save config config' user request accepted read admin
          (fun payload same => origin payload (congrArg Except.ok same)) handled

theorem website_leaves (done : website crates st router r map heard = (st', answer)) :
    Leaves crates st router r st' answer := by
  unfold website at done
  cases routed : endpoint r.method r.path with
  | localAuth =>
    rw [routed] at done
    exact login_leaves done
  | add resource =>
    rw [routed] at done
    exact change_leaves (fun payload => addition_app) done
  | delete resource name =>
    rw [routed] at done
    exact change_leaves (fun payload asked => absurd asked deletion_no_app) done
  | listServices =>
    rw [routed] at done
    dsimp only at done
    split at done <;> cases done <;> exact .nothing _
  | get resource =>
    rw [routed] at done
    dsimp only at done
    split at done <;> cases done <;> exact .nothing _
  | home | reload | unrouted =>
    rw [routed] at done
    cases done
    exact .nothing _

/-- `proxy_handler` once the access check is passed. -/
def forward (crates : Crates Salt Ip) (r : SiteRequest Salt Ip) (app : AppWithUri) :
    Except String ProxyResponse := do
  let req ← alterRequest crates.http app r.proxied
  match crates.client r.ip (uriText app.forwardUri) req with
  | none => return ⟨500, [], []⟩
  | some response => alterLocation crates.http app response

def serve (crates : Crates Salt Ip) (st : State) (r : SiteRequest Salt Ip) :
    HostType → Option (State × SiteAnswer)
  | .app app => some (st, proxiedAnswer (forward crates r app))
  | .dav dav =>
    (VestibuleWebdav.handle r.out (shareOf dav) r.fuel st.disk r.asked).map fun done =>
      ({ st with disk := done.1 }, callAnswer done.2)

def forbidden : HostType → SiteAnswer
  | .app _ => .proxied ⟨403, [], []⟩
  | .dav _ => .dav ⟨403, [], .empty⟩

def Meets (crates : Crates Salt Ip) (st : State) (router : Nat) (r : SiteRequest Salt Ip)
    (svc : HostType) : Prop :=
  ∃ map, st.routers[router]? = some map ∧
    hostTypeFromRequest crates.http.toHttp map r.headers = .ok (.ok svc)

theorem refusal_forbids {svc : HostType} {user : Option User} {status : Nat}
    (refused : checkAuthorization svc user = some status) : status = 403 := by
  unfold checkAuthorization checkUserHasRoleOrForbid at refused
  split at refused
  · split at refused
    · rename_i answered
      split at answered
      · split at answered
        · cases answered
        · cases answered
          cases refused
          rfl
      · cases answered
        cases refused
        rfl
    · cases refused
  · cases refused

theorem respond_serves {svc : HostType} (meets : Meets crates st router r svc)
    (passes : checkAuthorization svc (requestUser crates st router r).toOption = none) :
    respond crates st router r heard = serve crates st r svc := by
  obtain ⟨map, built, met⟩ := meets
  unfold respond
  rw [built]
  simp only [met]
  cases svc with
  | app app =>
    have handled : proxyHandler crates.http crates.client (requestUser crates st router r).toOption r.ip
        (.app app) r.proxied = forward crates r app := by
      unfold proxyHandler
      rw [passes]
      rfl
    simp only [proxyAnswer, handled, serve]
  | dav dav => simp only [webdavHandler, passes, serve]

theorem respond_forbids {svc : HostType} (meets : Meets crates st router r svc)
    (fails : checkAuthorization svc (requestUser crates st router r).toOption ≠ none) :
    respond crates st router r heard = some (st, forbidden svc) := by
  obtain ⟨map, built, met⟩ := meets
  obtain ⟨status, refused⟩ := Option.ne_none_iff_exists'.mp fails
  obtain rfl := refusal_forbids refused
  unfold respond
  rw [built]
  simp only [met]
  cases svc with
  | app app => simp only [proxyAnswer, proxiedAnswer, proxyHandler, refused, forbidden]
  | dav dav => simp only [webdavHandler, refused, forbidden]

/-- A request leaves everything but the disk as the handlers of the website do, and the disk as the dav
    of its host does. -/
theorem respond_leaves (done : respond crates st router r heard = some (st', answer)) :
    Leaves crates st router r st' answer ∨
      ∃ dav, Meets crates st router r (.dav dav) ∧
        checkAuthorization (.dav dav) (requestUser crates st router r).toOption = none ∧
        ∃ disk outcome, VestibuleWebdav.handle r.out (shareOf dav) r.fuel st.disk r.asked =
            some (disk, outcome) ∧ st' = { st with disk } ∧ answer = callAnswer outcome := by
  unfold respond at done
  cases built : st.routers[router]? with
  | none =>
    rw [built] at done
    cases done
  | some map =>
    rw [built] at done
    dsimp only at done
    split at done
    · cases done
      exact .inl (.nothing _)
    · exact .inl (website_leaves (Option.some.inj done))
    · cases done
      exact .inl (.nothing _)
    · rename_i dav met
      unfold webdavHandler at done
      split at done
      · cases done
        exact .inl (.nothing _)
      · rename_i passes
        obtain ⟨⟨disk, outcome⟩, served, same⟩ := Option.map_eq_some_iff.mp done
        cases same
        exact .inr ⟨dav, ⟨map, built, met⟩, passes, disk, outcome, served, rfl, rfl⟩

theorem login_quiet (done : login crates st router r = (st', answer)) (text : String) :
    answer ≠ .page text := by
  intro same
  subst same
  unfold login at done
  repeat' split at done
  all_goals cases done

theorem change_quiet {request : Except Nat (AdminRequest Salt)}
    (done : change crates st router r request = (st', answer)) (text : String) : answer ≠ .page text := by
  intro same
  subst same
  unfold change at done
  repeat' split at done
  all_goals cases done

theorem unheard_quiet (done : respond crates st router r heard = some (st', answer))
    (unheard : heard = false) : answer ≠ .page "Apps reloaded !" := by
  intro same
  subst same unheard
  unfold respond at done
  split at done
  · cases done
  · split at done
    · cases done
    · rename_i map _ status met
      have answered := Option.some.inj done
      unfold website at answered
      cases routed : endpoint r.method r.path with
      | localAuth =>
        rw [routed] at answered
        exact login_quiet answered _ rfl
      | add resource =>
        rw [routed] at answered
        exact change_quiet answered _ rfl
      | delete resource name =>
        rw [routed] at answered
        exact change_quiet answered _ rfl
      | home =>
        rw [routed] at answered
        have texts := SiteAnswer.page.inj (congrArg Prod.snd answered)
        revert texts
        decide
      | listServices =>
        rw [routed] at answered
        dsimp only at answered
        split at answered <;> cases answered
      | get resource =>
        rw [routed] at answered
        dsimp only at answered
        split at answered
        · cases answered
        · cases resource <;> cases answered
      | reload | unrouted =>
        rw [routed] at answered
        cases answered
    · have answered := congrArg Prod.snd (Option.some.inj done)
      simp only [proxyAnswer, proxiedAnswer] at answered
      split at answered <;> cases answered
    · unfold webdavHandler at done
      split at done
      · cases done
      · obtain ⟨⟨disk, outcome⟩, _, same⟩ := Option.map_eq_some_iff.mp done
        have answered := congrArg Prod.snd same
        cases outcome with
        | ok response => cases answered
        | error fault => cases fault <;> cases answered

end Responses

section Disks
variable {Salt Ip : Type} {crates : Crates Salt Ip} {st : State} {router : Nat} {r : SiteRequest Salt Ip}
  {heard : Bool} {map : ConfigMap} {disk : Disk}

def State.on (st : State) (disk : Disk) : State := { st with disk }

theorem session_on (alike : readConfig disk = readConfig st.disk) :
    (st.on disk).session = st.session := by
  unfold State.session State.on
  rw [alike]

theorem from_file_on (alike : readConfig disk = readConfig st.disk) :
    fromFile crates (st.on disk).disk = fromFile crates st.disk :=
  congrArg (onFile crates.yaml).fromStr alike

theorem user_on (alike : readConfig disk = readConfig st.disk) :
    requestUser crates (st.on disk) router r = requestUser crates st router r := by
  unfold requestUser
  rw [session_on alike]

theorem admin_on (alike : readConfig disk = readConfig st.disk) :
    adminConfig crates (st.on disk) router r = adminConfig crates st router r := by
  unfold adminConfig
  rw [from_file_on alike, session_on alike]

theorem login_on (alike : readConfig disk = readConfig st.disk) : login crates (st.on disk) router r =
    ((login crates st router r).1.on disk, (login crates st router r).2) := by
  unfold login
  rw [from_file_on alike]
  cases fromFile crates st.disk with
  | none => rfl
  | some config =>
    dsimp only
    split
    · rfl
    · split
      · rfl
      · split <;> rfl

theorem change_on (alike : readConfig disk = readConfig st.disk)
    (request : Except Nat (AdminRequest Salt)) : change crates (st.on disk) router r request =
      ((change crates st router r request).1.on disk, (change crates st router r request).2) := by
  unfold change
  rw [admin_on alike]
  cases adminConfig crates st router r with
  | error status => rfl
  | ok config =>
    cases request with
    | error status => rfl
    | ok request =>
      dsimp only
      split <;> rfl

theorem website_on (alike : readConfig disk = readConfig st.disk) :
    website crates (st.on disk) router r map heard =
      ((website crates st router r map heard).1.on disk, (website crates st router r map heard).2) := by
  unfold website
  rw [user_on alike, admin_on alike]
  cases endpoint r.method r.path with
  | localAuth => exact login_on alike
  | add resource => exact change_on alike _
  | delete resource name => exact change_on alike _
  | listServices =>
    dsimp only
    split <;> rfl
  | get resource =>
    dsimp only
    split <;> rfl
  | home | reload | unrouted => rfl

theorem respond_on (alike : readConfig disk = readConfig st.disk)
    (kept : ∀ dav, Meets crates st router r (.dav dav) →
      checkAuthorization (.dav dav) (requestUser crates st router r).toOption ≠ none) :
    respond crates (st.on disk) router r heard =
      (respond crates st router r heard).map fun done => (done.1.on disk, done.2) := by
  have routers : (st.on disk).routers = st.routers := rfl
  unfold respond
  rw [routers]
  cases built : st.routers[router]? with
  | none => rfl
  | some map =>
    dsimp only
    cases met : hostTypeFromRequest crates.http.toHttp map r.headers with
    | error message => rfl
    | ok found =>
      cases found with
      | error status => exact congrArg some (website_on alike)
      | ok svc =>
        cases svc with
        | app app =>
          dsimp only [proxyAnswer]
          rw [user_on alike]
          rfl
        | dav dav =>
          have refused := kept dav ⟨map, built, met⟩
          dsimp only [webdavHandler]
          rw [user_on alike]
          cases check : checkAuthorization (.dav dav) (requestUser crates st router r).toOption with
          | none => exact absurd check refused
          | some status => rfl

end Disks

section Steps
variable {Salt Ip : Type} {crates : Crates Salt Ip} {st st' : State}
  {event : Event Salt Ip}

theorem step_cases (taken : step crates st event = some st') :
    (event = .build ∧ ∃ config map, load crates st.disk =
        .ok (config, map) ∧ st' = { st with routers := st.routers ++ [map] }) ∨
    (∃ router r heard answer, event = .request router r heard ∧
      respond crates st router r heard = some (st', answer)) ∨
    ∃ i outcome saving, event = .save i outcome ∧ st.saving[i]? = some saving ∧ st' = { st with
      disk := saveConfig crates.yaml outcome saving.config st.disk
      saving := st.saving.eraseIdx i } := by
  cases event with
  | build =>
    simp only [step] at taken
    split at taken
    · cases taken
    · rename_i config map loaded
      cases taken
      exact .inl ⟨rfl, config, map, loaded, rfl⟩
  | request router r heard =>
    obtain ⟨⟨after, answer⟩, answered, same⟩ := Option.map_eq_some_iff.mp taken
    cases same
    exact .inr (.inl ⟨router, r, heard, answer, rfl, answered⟩)
  | save i outcome =>
    simp only [step] at taken
    split at taken
    · cases taken
    · rename_i saving waits
      cases taken
      exact .inr (.inr ⟨i, outcome, saving, rfl, waits, rfl⟩)

theorem step_issued (taken : step crates st event = some st') : st'.issued = st.issued ∨
    ∃ router found value, LogsIn crates router found value st event ∧
      st'.issued = ⟨router, value⟩ :: st.issued := by
  rcases step_cases taken with ⟨_, _, _, _, same⟩ | ⟨router, r, heard, answer, same, answered⟩ |
    ⟨_, _, _, _, _, same⟩
  · exact .inl (same ▸ rfl)
  · rcases respond_leaves answered with leaves | ⟨_, _, _, _, _, _, kept, _⟩
    · cases leaves with
      | nothing answer => exact .inl rfl
      | cookie config login password found given read payload stored verified value =>
        refine .inr ⟨router, found, given.value, ?_, rfl⟩
        exact ⟨r, heard, config, login, password, given, same, read, payload, stored, verified, value,
          rfl, answered⟩
      | save => exact .inl rfl
    · exact .inl (kept ▸ rfl)
  · exact .inl (same ▸ rfl)

theorem step_routers (taken : step crates st event = some st') (other : event ≠ .build) :
    st'.routers = st.routers := by
  rcases step_cases taken with ⟨same, _⟩ | ⟨_, _, _, _, _, answered⟩ | ⟨_, _, _, _, _, same⟩
  · exact absurd same other
  · rcases respond_leaves answered with leaves | ⟨_, _, _, _, _, _, kept, _⟩
    · cases leaves <;> rfl
    · rw [kept]
  · rw [same]

/-- A request that changes what the configuration file holds. -/
def Overwrites (crates : Crates Salt Ip) (st : State) (event : Event Salt Ip) : Prop :=
  ∃ router r heard after, event = .request router r heard ∧ step crates st event = some after ∧
    readConfig after.disk ≠ readConfig st.disk

theorem spared_reads {router : Nat} {r : SiteRequest Salt Ip} {heard : Bool}
    (spared : ¬ Overwrites crates st (.request router r heard))
    (taken : step crates st (.request router r heard) = some st') :
    readConfig st'.disk = readConfig st.disk := by
  by_contra changed
  exact spared ⟨router, r, heard, st', rfl, taken, changed⟩

theorem reading_keeps {router : Nat} {r : SiteRequest Salt Ip} {heard : Bool} {answer : SiteAnswer}
    (reads : (methodOf r.method).writes = false)
    (answered : respond crates st router r heard = some (st', answer)) : st'.disk = st.disk := by
  rcases respond_leaves answered with leaves | ⟨dav, _, _, disk', outcome, served, kept, _⟩
  · cases leaves <;> rfl
  · subst kept
    by_contra changed
    have writes := (VestibuleWebdav.changed_by_write served changed).2
    rw [SiteRequest.asked] at writes
    exact absurd (reads.symm.trans writes) (by decide)

theorem reading_spares {router : Nat} {r : SiteRequest Salt Ip} {heard : Bool}
    (reads : (methodOf r.method).writes = false) :
    ¬ Overwrites crates st (.request router r heard) := by
  rintro ⟨_, _, _, after, same, taken, changed⟩
  cases same
  obtain ⟨⟨after', answer⟩, answered, same⟩ := Option.map_eq_some_iff.mp taken
  cases same
  exact changed (congrArg readConfig (reading_keeps reads answered))

theorem step_on {other : State} {disk : Disk} {file : Bytes} (stored : readConfig st.disk = some file)
    (stored' : readConfig disk = some file) (spared : ¬ Overwrites crates st event)
    (spared' : ¬ Overwrites crates (st.on disk) event) (taken : step crates st event = some st')
    (taken' : step crates (st.on disk) event = some other) : other = st'.on other.disk ∧
      ∃ file', readConfig st'.disk = some file' ∧ readConfig other.disk = some file' := by
  have alike : readConfig disk = readConfig st.disk := stored'.trans stored.symm
  cases event with
  | build =>
    have same : load crates (st.on disk).disk = load crates st.disk :=
      congrArg (loadConfig crates.http.toHttp crates.sha256 (onFile crates.yaml)) alike
    simp only [step, same] at taken taken'
    split at taken
    · cases taken
    · rename_i config map loaded
      rw [loaded] at taken'
      cases taken
      cases taken'
      exact ⟨rfl, file, stored, stored'⟩
  | request router r heard =>
    have kept := spared_reads spared taken
    have kept' := spared_reads spared' taken'
    refine ⟨?_, file, kept.trans stored, kept'.trans stored'⟩
    obtain ⟨⟨after, answer⟩, answered, same⟩ := Option.map_eq_some_iff.mp taken
    obtain ⟨⟨after', answer'⟩, answered', same'⟩ := Option.map_eq_some_iff.mp taken'
    cases same
    cases same'
    dsimp only
    by_cases through : ∃ dav, Meets crates st router r (.dav dav) ∧
        checkAuthorization (.dav dav) (requestUser crates st router r).toOption = none
    · obtain ⟨dav, meets, passes⟩ := through
      have meets' : Meets crates (st.on disk) router r (.dav dav) := meets
      have passes' : checkAuthorization (.dav dav) (requestUser crates (st.on disk) router r).toOption =
          none := by
        rw [user_on alike]
        exact passes
      rw [respond_serves meets passes] at answered
      rw [respond_serves meets' passes'] at answered'
      obtain ⟨done, _, same⟩ := Option.map_eq_some_iff.mp answered
      obtain ⟨done', _, same'⟩ := Option.map_eq_some_iff.mp answered'
      cases same
      cases same'
      rfl
    · rw [respond_on alike fun dav meets passes => through ⟨dav, meets, passes⟩, answered] at answered'
      cases answered'
      rfl
  | save i outcome =>
    simp only [step, State.on] at taken taken'
    split at taken
    · cases taken
    · rename_i saving waits
      cases taken
      rw [waits] at taken'
      cases taken'
      exact ⟨rfl, _, save_reads stored, save_reads stored'⟩

theorem logs_in_issues {router : Nat} {found : User} {value : String}
    (logs_in : LogsIn crates router found value st event) (taken : step crates st event = some st') :
    st'.issued = ⟨router, value⟩ :: st.issued := by
  obtain ⟨r, heard, config, login, password, given, same, _, _, _, _, _, _, answered⟩ := logs_in
  subst same
  simp only [step, answered, Option.map_some, Option.some.injEq] at taken
  rw [← taken]

end Steps

section Runs
variable {Salt Ip : Type} {crates : Crates Salt Ip} {disk : Disk}
  {events : List (Event Salt Ip)} {st : State} {router : Nat}

theorem issued_iff (ran : run (step crates) (.start disk) events = some st) {value : String} :
    ⟨router, value⟩ ∈ st.issued ↔ ∃ found, Occurred (step crates) (.start disk) events fun _ =>
      LogsIn crates router found value := by
  refine run_rule (I := fun events st => ⟨router, value⟩ ∈ st.issued ↔ ∃ found,
    Occurred (step crates) (.start disk) events fun _ => LogsIn crates router found value)
    ?_ ?_ ran
  · constructor
    · intro none_issued
      cases none_issued
    · rintro ⟨found, occurred⟩
      exact absurd occurred not_occurred
  · intro past event before after earlier ih taken
    simp only [occurred_concat earlier, exists_or]
    rw [← ih]
    rcases step_issued taken with same | ⟨router', found, value', logs_in, same⟩
    · rw [same]
      refine ⟨.inl, fun either => either.resolve_right ?_⟩
      rintro ⟨found, logs_in⟩
      have issued := logs_in_issues logs_in taken
      rw [same] at issued
      simp at issued
    · rw [same, List.mem_cons]
      constructor
      · rintro (now | old)
        · cases now
          exact .inr ⟨found, logs_in⟩
        · exact .inl old
      · rintro (old | ⟨found', now⟩)
        · exact .inr old
        · left
          have issued := logs_in_issues now taken
          rw [same] at issued
          exact (List.cons.inj issued).1.symm

theorem holds_written {cookie : Option Signed} {found : User}
    (holds : Holds crates (.start disk) events router cookie found) :
    cookie = some ⟨router, crates.toJson { found with password := "" }⟩ := by
  obtain ⟨value, same, _, _, _, _, _, _, _, _, _, _, _, _, _, _, _, _, _, written, _⟩ := holds
  rw [same, written]

theorem request_user_iff (roundTrips : RoundTrips crates.toJson crates.fromJson)
    (ran : run (step crates) (.start disk) events = some st) {r : SiteRequest Salt Ip} {user : User} :
    requestUser crates st router r = .ok user ↔ ∃ found,
      Holds crates (.start disk) events router r.cookie found ∧
        user = { found with password := "" } := by
  constructor
  · intro passes
    obtain ⟨value, presented, read⟩ := VestibuleSessions.user_from_request_ok passes
    obtain ⟨given, issued⟩ := VestibuleSessions.jar_get_iff.mp presented
    obtain ⟨found, occurred⟩ := (issued_iff ran).mp issued
    have holds : Holds crates (.start disk) events router r.cookie found := ⟨value, given, occurred⟩
    refine ⟨found, holds, ?_⟩
    have written := congrArg Signed.value (Option.some.inj (given.symm.trans (holds_written holds)))
    dsimp only at written
    rw [written, roundTrips] at read
    exact (Option.some.inj read).symm
  · rintro ⟨found, holds, rfl⟩
    have written := holds_written holds
    obtain ⟨value, same, occurred⟩ := holds
    have presented : st.session.jarGet router r.cookie = some value :=
      VestibuleSessions.jar_get_iff.mpr ⟨same, (issued_iff ran).mpr ⟨found, occurred⟩⟩
    rw [same, Option.some.injEq, Signed.mk.injEq] at written
    unfold requestUser userFromRequest
    rw [presented, written.2]
    simp only [roundTrips _]

theorem no_user_refused {svc : HostType} : checkAuthorization svc none = none ↔ svc.secured = false := by
  unfold checkAuthorization checkUserHasRoleOrForbid
  cases svc.secured <;> simp

/-- The access check lets through exactly those who are entitled. -/
theorem entitled_iff (roundTrips : RoundTrips crates.toJson crates.fromJson)
    (ran : run (step crates) (.start disk) events = some st) {r : SiteRequest Salt Ip}
    {svc : HostType} : checkAuthorization svc (requestUser crates st router r).toOption = none ↔
      Entitled crates (.start disk) events router r.cookie svc := by
  unfold Entitled
  cases user : requestUser crates st router r with
  | error status =>
    rw [Except.toOption, no_user_refused]
    refine ⟨.inl, fun either => either.resolve_right ?_⟩
    rintro ⟨found, holds, _⟩
    rw [(request_user_iff roundTrips ran).mpr ⟨found, holds, rfl⟩] at user
    cases user
  | ok user' =>
    obtain ⟨found, holds, rfl⟩ := (request_user_iff roundTrips ran).mp user
    refine passes_iff.trans (or_congr Iff.rfl ⟨fun shared => ⟨found, holds, shared⟩, ?_⟩)
    rintro ⟨found', holds', shared⟩
    rw [(request_user_iff roundTrips ran).mpr ⟨found', holds', rfl⟩] at user
    obtain ⟨_, _, roles⟩ := User.mk.inj (Except.ok.inj user)
    exact roles ▸ shared

/-- A request is served by the service of its host exactly when it is entitled, and else forbidden,
    which leaves everything as it was. -/
theorem service_reached (roundTrips : RoundTrips crates.toJson crates.fromJson)
    (ran : run (step crates) (.start disk) events = some st) {r : SiteRequest Salt Ip}
    {svc : HostType} (meets : Meets crates st router r svc) (heard : Bool) :
    (Entitled crates (.start disk) events router r.cookie svc →
      respond crates st router r heard = serve crates st r svc) ∧
    (¬ Entitled crates (.start disk) events router r.cookie svc →
      respond crates st router r heard = some (st, forbidden svc)) := by
  rw [← entitled_iff roundTrips ran]
  exact ⟨respond_serves meets, fun refused => respond_forbids meets refused⟩

/-- A save that waits was computed for an administrator from the file as it was then. -/
def Asked (crates : Crates Salt Ip) (start : State) (saving : Saving)
    (past : List (Event Salt Ip)) (before : State) (event : Event Salt Ip) : Prop :=
  ∃ router r heard request config, event = .request router r heard ∧
    Administers crates start past router r.cookie ∧ fromFile crates before.disk = some config ∧
    handle crates.argon2 config request = .ok (saving.config, saving.answer)

theorem administers_of (roundTrips : RoundTrips crates.toJson crates.fromJson)
    (ran : run (step crates) (.start disk) events = some st) {r : SiteRequest Salt Ip} {user : User}
    (passes : adminFromRequest crates.fromJson st.session router r.cookie = .ok user) :
    Administers crates (.start disk) events router r.cookie := by
  obtain ⟨extracted, admin⟩ := VestibuleSessions.admin_from_request_ok passes
  obtain ⟨found, holds, rfl⟩ := (request_user_iff roundTrips ran).mp extracted
  exact ⟨found, holds, admin⟩

theorem savings_asked (roundTrips : RoundTrips crates.toJson crates.fromJson)
    (ran : run (step crates) (.start disk) events = some st) : ∀ saving ∈ st.saving,
      Occurred (step crates) (.start disk) events (Asked crates (.start disk) saving) := by
  refine run_rule (I := fun events st => ∀ saving ∈ st.saving,
    Occurred (step crates) (.start disk) events (Asked crates (.start disk) saving)) ?_ ?_ ran
  · intro saving member
    cases member
  · intro past event before after earlier ih taken saving member
    rw [occurred_concat earlier]
    rcases step_cases taken with ⟨_, _, _, _, same⟩ | ⟨router, r, heard, answer, same, answered⟩ |
      ⟨i, _, _, _, _, same⟩
    · subst same
      exact .inl (ih saving member)
    · rcases respond_leaves answered with leaves | ⟨_, _, _, _, _, _, kept, _⟩
      · cases leaves with
        | nothing answer => exact .inl (ih saving member)
        | cookie => exact .inl (ih saving member)
        | save config config' user request answer read admin origin handled =>
          rcases List.mem_append.mp member with old | new
          · exact .inl (ih saving old)
          · rw [List.mem_singleton.mp new]
            exact .inr ⟨router, r, heard, request, config, same, administers_of roundTrips earlier admin,
              read, handled⟩
      · subst kept
        exact .inl (ih saving member)
    · subst same
      exact .inl (ih saving (List.eraseIdx_subset member))

/-- What is on the disk besides the configuration shows only in the answers of davs to those who are
    entitled to them: as long as no request changes the configuration file, the same events on two disks
    with the same configuration leave the same of everything else, and give everyone else the same
    answers. -/
theorem disk_hidden (roundTrips : RoundTrips crates.toJson crates.fromJson) {disk' : Disk} {st' : State}
    {file : Bytes} (stored : readConfig disk = some file) (stored' : readConfig disk' = some file)
    (ran : run (step crates) (.start disk) events = some st)
    (ran' : run (step crates) (.start disk') events = some st')
    (spared : ¬ Occurred (step crates) (.start disk) events fun _ => Overwrites crates)
    (spared' : ¬ Occurred (step crates) (.start disk') events fun _ => Overwrites crates) :
    st' = st.on st'.disk ∧ readConfig st'.disk = readConfig st.disk ∧
      ∀ (r : SiteRequest Salt Ip) (heard : Bool),
      (∀ dav, Meets crates st router r (.dav dav) →
        ¬ Entitled crates (.start disk) events router r.cookie (.dav dav)) →
      (respond crates st' router r heard).map Prod.snd =
        (respond crates st router r heard).map Prod.snd := by
  have same : st' = st.on st'.disk ∧
      ∃ file', readConfig st.disk = some file' ∧ readConfig st'.disk = some file' := by
    refine run_rule (I := fun events st => ∀ st', run (step crates) (.start disk') events = some st' →
      ¬ Occurred (step crates) (.start disk) events (fun _ => Overwrites crates) →
      ¬ Occurred (step crates) (.start disk') events (fun _ => Overwrites crates) →
      st' = st.on st'.disk ∧
        ∃ file', readConfig st.disk = some file' ∧ readConfig st'.disk = some file')
      ?_ ?_ ran st' ran' spared spared'
    · intro st' ran' _ _
      cases ran'
      exact ⟨rfl, file, stored, stored'⟩
    · intro past event before after earlier ih taken st' ran' spared spared'
      obtain ⟨before', earlier', taken'⟩ := run_concat.mp ran'
      rw [occurred_concat earlier, not_or] at spared
      rw [occurred_concat earlier', not_or] at spared'
      obtain ⟨same, file', stored, stored'⟩ := ih before' earlier' spared.1 spared'.1
      have once := spared'.2
      rw [same] at once taken'
      exact step_on stored stored' spared.2 once taken taken'
  obtain ⟨same, file', stored, stored'⟩ := same
  have alike : readConfig st'.disk = readConfig st.disk := stored'.trans stored.symm
  refine ⟨same, alike, fun r heard outsider => ?_⟩
  rw [same, respond_on alike fun dav meets passes =>
    outsider dav meets ((entitled_iff roundTrips ran).mp passes), Option.map_map]
  rfl

end Runs

section Samples

def sampleCrates : Crates Unit Unit where
  argon2 := plainArgon2
  yaml := textYaml
  toJson user := String.ofList (writeUser user)
  fromJson value := readUser value.toList
  json := ⟨fun _ => .error 415, fun _ => .error 415, fun _ => .error 415, fun _ => .ok ("bob", "secret")⟩
  http := sampleHttp
  sha256 := VestibuleLoading.sampleSha256
  client _ _ _ := none

theorem sample_round_trips : RoundTrips sampleCrates.toJson sampleCrates.fromJson := by
  intro user
  dsimp only [sampleCrates]
  rw [String.toList_ofList, read_user]

def files : Dav := ⟨1, "files", "/d", true, "Files", "", "", true, false, ["USERS"], "", none⟩

def bob : User := ⟨"bob", plainHash (utf8 "secret"), ["USERS", "ADMINS"]⟩

def filesConfig : Config := { sampleConfig with davs := [files], users := [bob] }

@[irreducible] def filesFile : Bytes := textYaml.toString filesConfig

def filesServices : ConfigMap := collect [davService VestibuleLoading.sampleSha256 filesConfig files]

def loginRequest : SiteRequest Unit Unit :=
  ⟨"POST", ⟨none, none, some "/auth/local"⟩, [("host", utf8 "vestibule.io")], [], (), none,
    some "vestibule.io", (), sampleOutside, 0⟩

def putRequest (cookie : Option Signed) : SiteRequest Unit Unit :=
  ⟨"PUT", ⟨none, none, some "/g"⟩, [("host", utf8 "files.vestibule.io")], [.ok [7]], (), cookie, none, (),
    sampleOutside, 0⟩

def bobsCookie : Signed := ⟨0, sampleCrates.toJson { bob with password := "" }⟩

def deleteRequest : SiteRequest Unit Unit :=
  ⟨"DELETE", ⟨none, none, some "/api/admin/davs/1"⟩, [("host", utf8 "vestibule.io")], [], (),
    some bobsCookie, some "vestibule.io", (), sampleOutside, 0⟩

def filesRun : List (Event Unit Unit) := [.build, .request 0 loginRequest false]

def configName : VestibulePaths.Name := utf8 "vestibule.yaml"

def directoryDisk : Disk where
  tree := (FileTree.Tree.bare.put [] [100] .dir VestibuleRanges.directory_fits).put [] configName
    (.file filesFile) (by decide)
  cwd := []
  touched := []

def linkedDisk : Disk where
  tree := outwardDisk.tree.put [] configName (.file filesFile) (by decide)
  cwd := []
  touched := []

theorem directory_stored : readConfig directoryDisk = some filesFile := by rfl

theorem linked_stored : readConfig linkedDisk = some filesFile := by rfl

def afterLogin (disk : Disk) : State := ⟨disk, [bobsCookie], [filesServices], []⟩

theorem files_stored : filesConfig.stored = filesConfig := rfl

theorem files_written : filesFile = textYaml.toString filesConfig := by
  unfold filesFile
  rfl

theorem files_back : textYaml.fromStr filesFile = some filesConfig := by
  have back := textYaml.back filesConfig
  rw [files_stored] at back
  rw [files_written]
  exact back

theorem sample_yaml : sampleCrates.yaml = textYaml := rfl

theorem files_read {disk : Disk} (stored : readConfig disk = some filesFile) :
    fromFile sampleCrates disk = some filesConfig := by
  unfold fromFile
  rw [stored, on_file_some, sample_yaml, files_back]

theorem files_loaded {disk : Disk} (stored : readConfig disk = some filesFile) :
    load sampleCrates disk = .ok (filesConfig, filesServices) := by
  have read := files_read stored
  unfold fromFile at read
  unfold load VestibuleServices.loadConfig
  rw [read]
  rfl

def bobsLogin : Cookie :=
  ⟨"VESTIBULE_AUTH", bobsCookie.value, ("vestibule.io".splitOn ":").headD "", "/", true, false, false⟩

theorem bob_logs_in : localAuth plainArgon2 sampleCrates.toJson filesConfig "vestibule.io" "bob" "secret" =
    .ok (bobsLogin, 200) := by
  rfl

theorem files_logged_in {disk : Disk} (stored : readConfig disk = some filesFile) :
    login sampleCrates ⟨disk, [], [filesServices], []⟩ 0 loginRequest =
      (afterLogin disk, .loggedIn bobsLogin 200) := by
  unfold login
  rw [files_read stored]
  have host : loginRequest.forHost = some "vestibule.io" := rfl
  have payload : sampleCrates.json.localAuth loginRequest.asked = .ok ("bob", "secret") := rfl
  have argon2 : sampleCrates.argon2 = plainArgon2 := rfl
  simp only [host, payload, argon2, bob_logs_in]
  rfl

theorem files_built {disk : Disk} (stored : readConfig disk = some filesFile) :
    step sampleCrates (.start disk) (.build : Event Unit Unit) = some ⟨disk, [], [filesServices], []⟩ := by
  simp only [step, State.start, files_loaded stored]
  rfl

theorem login_taken {disk : Disk} (stored : readConfig disk = some filesFile) :
    step sampleCrates ⟨disk, [], [filesServices], []⟩ (.request 0 loginRequest false) =
      some (afterLogin disk) := by
  have answered : respond sampleCrates ⟨disk, [], [filesServices], []⟩ 0 loginRequest false =
      some (login sampleCrates ⟨disk, [], [filesServices], []⟩ 0 loginRequest) := rfl
  rw [files_logged_in stored] at answered
  simp only [step, answered, Option.map_some]

theorem files_ran {disk : Disk} (stored : readConfig disk = some filesFile) :
    run (step sampleCrates) (.start disk) filesRun = some (afterLogin disk) := by
  simp only [filesRun, run, files_built stored, login_taken stored, Option.bind_some]

theorem files_met (disk : Disk) (cookie : Option Signed) :
    Meets sampleCrates (afterLogin disk) 0 (putRequest cookie) (.dav files) := ⟨_, rfl, by rfl⟩

theorem bob_extracted (disk : Disk) {r : SiteRequest Unit Unit} (given : r.cookie = some bobsCookie) :
    requestUser sampleCrates (afterLogin disk) 0 r = .ok { bob with password := "" } := by
  have presented : (afterLogin disk).session.jarGet 0 r.cookie = some bobsCookie.value :=
    VestibuleSessions.jar_get_iff.mpr ⟨given, List.mem_singleton.mpr rfl⟩
  have read := sample_round_trips { bob with password := "" }
  unfold requestUser userFromRequest
  rw [presented]
  simp only [bobsCookie, read]

theorem bob_entitled {start disk : Disk} {events : List (Event Unit Unit)}
    (ran : run (step sampleCrates) (.start start) events = some (afterLogin disk)) :
    Entitled sampleCrates (.start start) events 0 (some bobsCookie) (.dav files) := by
  have passes : checkAuthorization (.dav files) (requestUser sampleCrates (afterLogin disk) 0
      (putRequest (some bobsCookie))).toOption = none := by
    rw [bob_extracted disk rfl]
    rfl
  have entitled := (entitled_iff sample_round_trips ran).mp passes
  exact entitled

theorem stranger_not_entitled {start : State} {events : List (Event Unit Unit)} :
    ¬ Entitled sampleCrates start events 0 none (.dav files) := by
  rintro (open_ | ⟨_, ⟨_, none_given, _⟩, _⟩)
  · cases open_
  · cases none_given

theorem files_spared {disk : Disk} :
    ¬ Occurred (step sampleCrates) (.start disk) filesRun fun _ => Overwrites sampleCrates := by
  rintro ⟨past, event, later, st, whole, _, overwrites⟩
  have inside : event ∈ filesRun := whole ▸ List.mem_append_right past List.mem_cons_self
  simp only [filesRun, List.mem_cons, List.not_mem_nil, or_false] at inside
  rcases inside with rfl | rfl
  · obtain ⟨_, _, _, _, other, _⟩ := overwrites
    cases other
  · exact reading_spares (by decide) overwrites

theorem put_taken : ∃ st', step sampleCrates (afterLogin linkedDisk)
    (.request 0 (putRequest (some bobsCookie)) false) = some st' ∧ st'.disk ≠ linkedDisk := by
  have passes : checkAuthorization (.dav files) (requestUser sampleCrates (afterLogin linkedDisk) 0
      (putRequest (some bobsCookie))).toOption = none := by
    rw [bob_extracted linkedDisk rfl]
    rfl
  have served : respond sampleCrates (afterLogin linkedDisk) 0 (putRequest (some bobsCookie)) false =
      serve sampleCrates (afterLogin linkedDisk) (putRequest (some bobsCookie)) (.dav files) :=
    respond_serves (files_met linkedDisk (some bobsCookie)) passes
  obtain ⟨after, answered, put⟩ : ∃ after, serve sampleCrates (afterLogin linkedDisk)
      (putRequest (some bobsCookie)) (.dav files) = some after ∧
        after.1.disk.tree.get [[100], [103]] = some (.file [7]) := ⟨_, rfl, by rfl⟩
  refine ⟨after.1, ?_, fun same => ?_⟩
  · simp only [step, served, answered, Option.map_some]
  · rw [same] at put
    cases put

def barredConfig : Config := { filesConfig with davs := [] }

def barring : Saving := ⟨barredConfig, ⟨200, "dav deleted successfully"⟩⟩

theorem delete_waits {disk : Disk} (stored : readConfig disk = some filesFile) :
    step sampleCrates (afterLogin disk) (.request 0 deleteRequest false) =
      some ⟨disk, [bobsCookie], [filesServices], [barring]⟩ := by
  have admin : adminConfig sampleCrates (afterLogin disk) 0 deleteRequest = .ok filesConfig := by
    have user := bob_extracted disk (show deleteRequest.cookie = some bobsCookie from rfl)
    have here : fromFile sampleCrates (afterLogin disk).disk = some filesConfig := files_read stored
    have roles : (({ bob with password := "" } : User).roles.contains "ADMINS") = true := by decide
    unfold requestUser at user
    unfold adminConfig adminFromRequest
    rw [here]
    simp only [user, roles, ↓reduceIte]
  have asked : deletion Resource.davs (utf8 "1") = (.ok (.deleteDav 1) : Except Nat (AdminRequest Unit)) := by
    rfl
  have changed : change sampleCrates (afterLogin disk) 0 deleteRequest (deletion .davs (utf8 "1")) =
      (⟨disk, [bobsCookie], [filesServices], [barring]⟩, .saving) := by
    unfold change
    rw [admin, asked]
    rfl
  have answered : respond sampleCrates (afterLogin disk) 0 deleteRequest false =
      some (change sampleCrates (afterLogin disk) 0 deleteRequest (deletion .davs (utf8 "1"))) := rfl
  rw [changed] at answered
  simp only [step, answered, Option.map_some]

theorem barred_differs : textYaml.toString barredConfig ≠ filesFile := by
  intro same
  have back := textYaml.back barredConfig
  rw [same, files_back] at back
  cases congrArg Config.davs (Option.some.inj back)

theorem save_changes : saveConfig textYaml .written barredConfig linkedDisk ≠ linkedDisk := by
  intro same
  have saved := @save_reads linkedDisk textYaml .written barredConfig filesFile linked_stored
  rw [same, linked_stored, to_file_written] at saved
  exact barred_differs (Option.some.inj saved).symm

theorem save_taken : step sampleCrates ⟨linkedDisk, [bobsCookie], [filesServices], [barring]⟩
    (.save 0 .written : Event Unit Unit) =
      some ⟨saveConfig textYaml .written barredConfig linkedDisk, [bobsCookie], [filesServices], []⟩ := rfl

end Samples

/-- The put of a stranger is forbidden, and that of a user with the role is served. -/
theorem put_reaches :
    respond sampleCrates (afterLogin linkedDisk) 0 (putRequest none) false =
      some (afterLogin linkedDisk, forbidden (.dav files)) ∧
    respond sampleCrates (afterLogin linkedDisk) 0 (putRequest (some bobsCookie)) false =
      serve sampleCrates (afterLogin linkedDisk) (putRequest (some bobsCookie)) (.dav files) := by
  have ran := files_ran linked_stored
  have stranger := service_reached sample_round_trips ran (files_met linkedDisk none) false
  have user := service_reached sample_round_trips ran (files_met linkedDisk (some bobsCookie)) false
  constructor
  · exact stranger.2 stranger_not_entitled
  · exact user.1 (bob_entitled ran)

/-- A stranger cannot tell two disks apart. -/
theorem stranger_told_nothing :
    (respond sampleCrates (afterLogin directoryDisk) 0 (putRequest none) false).map Prod.snd =
      (respond sampleCrates (afterLogin linkedDisk) 0 (putRequest none) false).map Prod.snd := by
  refine (disk_hidden sample_round_trips linked_stored directory_stored (files_ran linked_stored)
    (files_ran directory_stored) files_spared files_spared).2.2 _ _ ?_
  intro dav meets
  obtain ⟨map, built, met⟩ := meets
  obtain ⟨map', built', met'⟩ := files_met linkedDisk none
  rw [built] at built'
  cases built'
  rw [met] at met'
  cases met'
  exact stranger_not_entitled

end VestibuleSite
