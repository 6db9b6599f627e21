import Vestibule.AdminRuns
import Vestibule.Services

/-!
When the configuration file can be loaded. The requests for apps store whatever they are given, and
`load_config` panics on a host or a target that does not parse.
-/
namespace VestibuleLoading
open VestibuleRust KeyedList VestibuleAdmin VestibuleServices

/-- The host makes an authority under the domain, and the target is a URI with an authority. -/
def Servable (http : Http) (config : Config) (app : App) : Prop :=
  http.parseAuthority (authorityText app.host config.hostname (Config.port config)) ≠ none ∧
    ∃ uri, http.parseUri app.forwardTo = some uri ∧ uri.authority ≠ none

theorem expect_ok {α : Type} {value : Option α} {message : String} {a : α} :
    expect value message = .ok a ↔ value = some a := by
  cases value <;> simp [expect]

section Apps
variable {http : Http} {config : Config} {app : App}

theorem from_parts_whole (scheme : Scheme) (authority : Authority) (path : String) :
    Uri.fromParts ⟨some scheme, some authority, some path⟩ =
      some ⟨some scheme, some authority, some path⟩ := rfl

theorem from_app_ok_iff : (∃ service, AppWithUri.fromAppDomainAndHttpPort http app config.hostname
    (Config.port config) = .ok service) ↔ Servable http config app := by
  unfold AppWithUri.fromAppDomainAndHttpPort Servable
  simp only [bind_ok_iff, expect_ok]
  constructor
  · intro made
    obtain ⟨_, authority, host, uri, target, forward, some_authority, _⟩ := made
    exact ⟨by simp [host], uri, target, by simp [some_authority]⟩
  · intro servable
    obtain ⟨host, uri, target, some_authority⟩ := servable
    obtain ⟨authority, host⟩ := Option.ne_none_iff_exists'.mp host
    obtain ⟨forward, some_authority⟩ := Option.ne_none_iff_exists'.mp some_authority
    exact ⟨_, authority, host, uri, target, forward, some_authority, _,
      by rw [some_authority, from_parts_whole], rfl⟩

theorem from_app_inner {service : AppWithUri} (made : AppWithUri.fromAppDomainAndHttpPort http app
    config.hostname (Config.port config) = .ok service) : service.inner = app := by
  unfold AppWithUri.fromAppDomainAndHttpPort at made
  simp only [bind_ok_iff, expect_ok] at made
  obtain ⟨authority, _, uri, _, forward, _, whole, _, same⟩ := made
  cases same
  rfl

theorem app_services_ok_iff (apps : List App) : (∃ services, appServices http config apps = .ok services) ↔
    ∀ app ∈ apps, Servable http config app := by
  induction apps with
  | nil => simp [appServices]
  | cons app rest ih =>
    rw [List.forall_mem_cons, ← from_app_ok_iff, ← ih]
    simp only [appServices]
    cases AppWithUri.fromAppDomainAndHttpPort http app config.hostname (Config.port config) with
    | error message => simp
    | ok service => cases appServices http config rest <;> simp [Except.map]

theorem servable_settings {config' : Config} (same : config'.settings = config.settings) :
    Servable http config' app ↔ Servable http config app := by
  have hostname : config'.settings.hostname = config.settings.hostname := by rw [same]
  have httpPort : config'.settings.httpPort = config.settings.httpPort := by rw [same]
  have autoTls : config'.settings.autoTls = config.settings.autoTls := by rw [same]
  unfold Config.settings at hostname httpPort autoTls
  unfold Servable Config.port
  rw [hostname, httpPort, autoTls]

end Apps

section Loading
variable {Salt Text : Type} {http : Http} {sha256 : Bytes → Vector UInt8 32} {argon2 : Argon2 Salt}
  {yaml : Yaml Text}

def Loads (http : Http) (sha256 : Bytes → Vector UInt8 32) (yaml : Yaml Text) (text : Text) : Prop :=
  ∃ result, loadConfig http sha256 yaml text = .ok result

theorem loads_iff {text : Text} {config : Config} (read : yaml.fromStr text = some config) :
    Loads http sha256 yaml text ↔ ∀ app ∈ config.apps, Servable http config app := by
  unfold Loads loadConfig
  rw [← app_services_ok_iff]
  simp only [read]
  cases appServices http config config.apps <;> simp

theorem handle_servable {config config' : Config} {request : AdminRequest Salt} {answer : Answer}
    (before : ∀ app ∈ config.apps, Servable http config app)
    (added : ∀ payload, request = .addApp payload → Servable http config payload)
    (run : handle argon2 config request = .ok (config', answer)) :
    ∀ app ∈ config'.apps, Servable http config' app := by
  intro app member
  rw [servable_settings (handle_settings run)]
  cases request with
  | addUser payload salt =>
    obtain ⟨_, same, _⟩ := add_user_puts run
    subst same
    exact before app member
  | deleteUser userLogin =>
    obtain ⟨_, _, same⟩ := delete_user_removes run
    subst same
    exact before app member
  | addApp payload =>
    have same := add_app_puts run
    subst same
    rcases mem_put member with new | old
    · rw [new]
      exact added payload rfl
    · exact before app old
  | deleteApp appId =>
    obtain ⟨_, removed, same⟩ := delete_app_removes run
    subst same
    exact before app ((remove_first_sublist removed).subset member)
  | addDav payload =>
    have same := add_dav_puts run
    subst same
    exact before app member
  | deleteDav davId =>
    obtain ⟨_, _, same⟩ := delete_dav_removes run
    subst same
    exact before app member

theorem run_servable {file file' : Text} {config : Config} {requests : List (AdminRequest Salt)}
    (read : yaml.fromStr file = some config)
    (before : ∀ app ∈ config.apps, Servable http config app)
    (added : ∀ payload, .addApp payload ∈ requests → Servable http config payload)
    (run : serveAll argon2 yaml file requests = some file') :
    ∃ config', yaml.fromStr file' = some config' ∧ config'.settings = config.settings ∧
      ∀ app ∈ config'.apps, Servable http config' app := by
  refine serve_all_rule (P := fun now => now.settings = config.settings ∧
    ∀ app ∈ now.apps, Servable http now app) read ⟨rfl, before⟩ ?_ run
  intro earlier request text now next answer inside _ _ kept handled
  obtain ⟨settings, servable⟩ := kept
  refine ⟨(handle_settings handled).trans settings, ?_⟩
  apply handle_servable servable _ handled
  intro payload same
  subst same
  rw [servable_settings settings]
  exact added payload (inside.subset (by simp))

/-- In a run of accepted requests the file can be loaded after every request exactly when every app
    that is added is servable. -/
theorem accepted_configs_load_iff (http : Http) (sha256 : Bytes → Vector UInt8 32)
    (argon2 : Argon2 Salt) (yaml : Yaml Text) {file file' : Text} {config : Config}
    {requests : List (AdminRequest Salt)} (read : yaml.fromStr file = some config)
    (loads : Loads http sha256 yaml file)
    (accepted : serveAll argon2 yaml file requests = some file') :
    (∀ earlier text, earlier <+: requests → serveAll argon2 yaml file earlier = some text →
      Loads http sha256 yaml text) ↔
      ∀ payload, .addApp payload ∈ requests → Servable http config payload := by
  have before := (loads_iff read).mp loads
  constructor
  · intro loaded payload member
    obtain ⟨earlier, later, whole⟩ := List.append_of_mem member
    have split : requests = (earlier ++ [.addApp payload]) ++ later := by simp [whole]
    rw [split, serve_all_append] at accepted
    obtain ⟨text, here, _⟩ := Option.bind_eq_some_iff.mp accepted
    have loads' := loaded _ text ⟨later, split.symm⟩ here
    rw [serve_all_append] at here
    obtain ⟨text₁, first, last⟩ := Option.bind_eq_some_iff.mp here
    obtain ⟨now, found, settings⟩ := serve_all_rule (P := fun now => now.settings = config.settings)
      read rfl (fun _ _ _ _ _ _ _ _ _ kept handled => (handle_settings handled).trans kept) first
    unfold serveAll at last
    split at last
    · cases last
    · rename_i next answer served
      cases last
      obtain ⟨next, handled, saved⟩ := (serve_ok found).mp served
      subst saved
      have same := add_app_puts handled
      subst same
      have servable := (loads_iff (yaml.back _)).mp loads' payload (self_mem_put payload now.apps)
      exact (servable_settings settings).mp servable
  · intro added earlier text inside served
    obtain ⟨config', found, _, servable⟩ := run_servable read before
      (fun payload member => added payload (inside.subset member)) served
    exact (loads_iff found).mpr servable

end Loading

section Samples

def isSlash (c : Char) : Bool := c = '/'

def sampleHttp : Http where
  parseAuthority text := some ⟨text, String.ofList (text.toList.takeWhile (· ≠ ':'))⟩
  parseUri text :=
    if text.toList.any isSlash then some ⟨none, none, some text⟩
    else some ⟨none, some ⟨text, String.ofList (text.toList.takeWhile (· ≠ ':'))⟩, none⟩

def sampleSha256 : Bytes → Vector UInt8 32 := fun _ => Vector.replicate 32 0

def appTo (forwardTo : String) : App :=
  ⟨1, "App", "icon", "#010101", true, "app", forwardTo, true, "", "", "", ["ADMINS"]⟩

theorem sample_loads : Loads sampleHttp sampleSha256 sampleYaml sampleConfig :=
  (loads_iff (show sampleYaml.fromStr sampleConfig = some sampleConfig from rfl)).mpr (by
    intro app member
    cases member)

theorem local_target_servable : Servable sampleHttp sampleConfig (appTo "localhost:8081") := by
  constructor
  · exact Option.some_ne_none _
  · exact ⟨⟨none, some ⟨"localhost:8081", "localhost"⟩, none⟩, by decide, Option.some_ne_none _⟩

end Samples

theorem local_app_loads :
    (serveAll constantArgon2 sampleYaml sampleConfig [.addApp (appTo "localhost:8081")]).isSome = true ∧
      ∀ earlier text, earlier <+: [AdminRequest.addApp (appTo "localhost:8081")] →
        serveAll constantArgon2 sampleYaml sampleConfig earlier = some text →
        Loads sampleHttp sampleSha256 sampleYaml text := by
  constructor
  · rfl
  · apply (accepted_configs_load_iff sampleHttp sampleSha256 constantArgon2 sampleYaml
      (show sampleYaml.fromStr sampleConfig = some sampleConfig from rfl) sample_loads rfl).mpr
    intro payload member
    cases List.mem_singleton.mp member
    exact local_target_servable

/-- A target that is only a path is accepted, and the file it leaves makes `load_config` panic. -/
theorem path_target_panics : Loads sampleHttp sampleSha256 sampleYaml sampleConfig ∧
    ∃ text, serveAll constantArgon2 sampleYaml sampleConfig [.addApp (appTo "/somewhere")] =
        some text ∧
      loadConfig sampleHttp sampleSha256 sampleYaml text =
        .error (.panicked "could not parse app target service host") := by
  exact ⟨sample_loads, _, rfl, rfl⟩

end VestibuleLoading
