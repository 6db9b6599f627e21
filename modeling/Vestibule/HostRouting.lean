import Vestibule.LoadableConfigs

/-!
Which service a host leads to. The file keeps apps and davs by their ids, the map is keyed by hosts
over both, and of two services with one host the later one is left.
-/
namespace VestibuleRouting
open VestibuleRust KeyedList VestibuleAdmin VestibuleServices VestibuleLoading

def hosts (config : Config) : List String :=
  config.apps.map App.host ++ config.davs.map Dav.host

/-- The host of a payload is not one of the other apps and davs: the entry it replaces apart. -/
def Unused {Salt : Type} (config : Config) : AdminRequest Salt → Prop
  | .addApp payload => payload.host ∉ hosts
      { config with apps := (removeFirst App.id payload.id config.apps).getD config.apps }
  | .addDav payload => payload.host ∉ hosts
      { config with davs := (removeFirst Dav.id payload.id config.davs).getD config.davs }
  | _ => True

/-- Each app and dav of the configuration is found under its host, and nothing else is in the map. -/
structure Routed (http : Http) (sha256 : Bytes → Vector UInt8 32) (config : Config)
    (map : ConfigMap) : Prop where
  apps : ∀ app ∈ config.apps, ∃ service, service.inner = app ∧
    AppWithUri.fromAppDomainAndHttpPort http app config.hostname (Config.port config) =
      .ok service ∧
    map.get (serviceKey app.host config) = some (.app service)
  davs : ∀ dav ∈ config.davs,
    map.get (serviceKey dav.host config) = some (.dav (withKey sha256 dav))
  size : map.entries.length = config.apps.length + config.davs.length

theorem service_key_injective {config : Config} {host host' : String}
    (same : serviceKey host config = serviceKey host' config) : host = host' := by
  unfold serviceKey at same
  have chars := congrArg String.toList same
  simp only [String.toList_append, List.append_assoc, List.append_cancel_right_eq] at chars
  exact String.toList_injective chars

section Maps

theorem fold_insert (services : List (String × HostType)) (map : ConfigMap)
    (distinct : ((map.entries ++ services).map Prod.fst).Nodup) :
    (services.foldl ConfigMap.insert map).entries = map.entries ++ services := by
  induction services generalizing map with
  | nil => simp
  | cons service rest ih =>
    have fresh : (map.insert service).entries = map.entries ++ [service] := by
      have missing : lookup Prod.fst service.1 map.entries = none := by
        apply lookup_none.mpr
        intro member
        rw [List.map_append, List.nodup_append] at distinct
        exact distinct.2.2 _ member service.1 (by simp) rfl
      simp [ConfigMap.insert, put, replace_first_none.mpr missing]
    rw [List.foldl_cons, ih, fresh]
    · simp
    · rw [fresh]
      simpa using distinct

theorem collect_distinct {services : List (String × HostType)}
    (distinct : (services.map Prod.fst).Nodup) : (collect services).entries = services := by
  have folded := fold_insert services ConfigMap.empty (by simpa [ConfigMap.empty] using distinct)
  simpa [collect, ConfigMap.empty] using folded

theorem collect_get {services : List (String × HostType)}
    (distinct : (services.map Prod.fst).Nodup) {key : String} {service : HostType}
    (member : (key, service) ∈ services) : (collect services).get key = some service := by
  have found := @lookup_mem _ _ _ Prod.fst _ _ distinct member
  unfold ConfigMap.get
  rw [collect_distinct distinct, found]
  rfl

end Maps

section Loading
variable {Salt Text : Type} {http : Http} {sha256 : Bytes → Vector UInt8 32} {argon2 : Argon2 Salt}
  {yaml : Yaml Text}

theorem app_services_keys {config : Config} {apps : List App} {services : List (String × HostType)}
    (made : appServices http config apps = .ok services) :
    services.map Prod.fst = apps.map (fun app => serviceKey app.host config) ∧
      ∀ app ∈ apps, ∃ service,
        AppWithUri.fromAppDomainAndHttpPort http app config.hostname (Config.port config) =
          .ok service ∧
        (serviceKey app.host config, HostType.app service) ∈ services := by
  induction apps generalizing services with
  | nil =>
    cases made
    exact ⟨rfl, fun app member => by cases member⟩
  | cons app rest ih =>
    simp only [appServices] at made
    split at made
    · cases made
    · rename_i service first
      cases later : appServices http config rest with
      | error message =>
        rw [later] at made
        cases made
      | ok services' =>
        rw [later] at made
        cases made
        obtain ⟨keys, others⟩ := ih later
        refine ⟨by simp [keys], ?_⟩
        intro app' member
        rcases List.mem_cons.mp member with same | behind
        · subst same
          exact ⟨service, first, List.mem_cons_self⟩
        · obtain ⟨service', made', inside⟩ := others app' behind
          exact ⟨service', made', List.mem_cons_of_mem _ inside⟩

theorem load_routed {text : Text} {config : Config} {map : ConfigMap}
    (loads : loadConfig http sha256 yaml text = .ok (config, map))
    (distinct : (hosts config).Nodup) : Routed http sha256 config map := by
  unfold loadConfig at loads
  split at loads
  · cases loads
  · rename_i config' read
    split at loads
    · cases loads
    · rename_i services made
      cases loads
      obtain ⟨keys, apps⟩ := app_services_keys made
      have apart : ((services ++ config.davs.map (davService sha256 config)).map Prod.fst).Nodup := by
        have whole : (services ++ config.davs.map (davService sha256 config)).map Prod.fst =
            (hosts config).map (serviceKey · config) := by
          simp [keys, hosts, davService, Function.comp_def]
        rw [whole]
        exact distinct.map fun _ _ same => service_key_injective same
      constructor
      · intro app member
        obtain ⟨service, made', inside⟩ := apps app member
        exact ⟨service, from_app_inner made', made',
          collect_get apart (List.mem_append_left _ inside)⟩
      · intro dav member
        exact collect_get apart
          (List.mem_append_right _ (List.mem_map.mpr ⟨dav, member, rfl⟩))
      · rw [collect_distinct apart, List.length_append, List.length_map]
        have width := congrArg List.length keys
        rw [List.length_map, List.length_map] at width
        rw [width]

theorem handle_hosts {config config' : Config} {request : AdminRequest Salt} {answer : Answer}
    (distinct : (hosts config).Nodup) (unused : Unused config request)
    (run : handle argon2 config request = .ok (config', answer)) : (hosts config').Nodup := by
  cases request with
  | addUser payload salt =>
    obtain ⟨_, same, _⟩ := add_user_puts run
    subst same
    exact distinct
  | deleteUser userLogin =>
    obtain ⟨_, _, same⟩ := delete_user_removes run
    subst same
    exact distinct
  | addApp payload =>
    have same := add_app_puts run
    subst same
    have perm := ((@put_perm _ _ _ App.id payload config.apps).map App.host).append_right
      (config.davs.map Dav.host)
    have others := ((@remaining_sublist _ _ _ App.id payload config.apps).map App.host).append_right
      (config.davs.map Dav.host)
    exact perm.nodup_iff.mpr (List.nodup_cons.mpr ⟨unused, others.nodup distinct⟩)
  | deleteApp appId =>
    obtain ⟨apps, removed, same⟩ := delete_app_removes run
    subst same
    exact (((remove_first_sublist removed).map App.host).append_right _).nodup distinct
  | addDav payload =>
    have same := add_dav_puts run
    subst same
    have perm := ((@put_perm _ _ _ Dav.id payload config.davs).map Dav.host).append_left
      (config.apps.map App.host)
    have others := ((@remaining_sublist _ _ _ Dav.id payload config.davs).map Dav.host).append_left
      (config.apps.map App.host)
    refine (perm.trans List.perm_middle).nodup_iff.mpr (List.nodup_cons.mpr ⟨unused, ?_⟩)
    exact others.nodup distinct
  | deleteDav davId =>
    obtain ⟨davs, removed, same⟩ := delete_dav_removes run
    subst same
    exact (((remove_first_sublist removed).map Dav.host).append_left _).nodup distinct

/-- The file that a run from a configuration with distinct hosts leaves keeps every service. -/
def NothingShadowed (http : Http) (sha256 : Bytes → Vector UInt8 32) (argon2 : Argon2 Salt)
    (yaml : Yaml Text) (file : Text) (requests : List (AdminRequest Salt)) : Prop :=
  ∀ config text config' map, yaml.fromStr file = some config → (hosts config).Nodup →
    serveAll argon2 yaml file requests = some text →
    loadConfig http sha256 yaml text = .ok (config', map) → Routed http sha256 config' map

/-- Hosts stay apart as long as each added app or dav has one that no other has. -/
theorem unused_hosts_keep_services (http : Http) (sha256 : Bytes → Vector UInt8 32)
    (argon2 : Argon2 Salt) (yaml : Yaml Text) {file : Text} {requests : List (AdminRequest Salt)}
    (unused : ∀ earlier request text now, earlier ++ [request] <+: requests →
      serveAll argon2 yaml file earlier = some text → yaml.fromStr text = some now →
      Unused now request) : NothingShadowed http sha256 argon2 yaml file requests := by
  intro config text config' map read distinct run loads
  obtain ⟨config'', found, apart⟩ := serve_all_rule (P := fun now => (hosts now).Nodup) read distinct
    (by
      intro earlier request text now next answer inside reached here kept handled
      have later := handle_hosts kept (unused earlier request text now inside reached here) handled
      have same : hosts next.stored = hosts next := by
        simp [hosts, Config.stored, Function.comp_def]
      rw [same]
      exact later)
    run
  apply load_routed loads
  have same : config' = config'' := by
    unfold loadConfig at loads
    rw [found] at loads
    simp only at loads
    split at loads <;> cases loads
    rfl
  exact same ▸ apart

end Loading

section Samples

def publicDav (host : String) : Dav :=
  ⟨1, host, "/data", false, "Files", "file", "#020202", false, false, [], "", none⟩

end Samples

theorem two_hosts_kept : NothingShadowed sampleHttp sampleSha256 constantArgon2 sampleYaml sampleConfig
    [.addApp (appTo "localhost:8081"), .addDav (publicDav "files")] := by
  apply unused_hosts_keep_services
  intro earlier request text now inside reached read
  rcases earlier with _ | ⟨first, _ | ⟨second, rest⟩⟩
  · obtain ⟨later, whole⟩ := inside
    cases whole
    cases reached
    cases read
    exact List.not_mem_nil
  · obtain ⟨later, whole⟩ := inside
    cases whole
    cases reached
    cases read
    unfold Unused hosts
    decide
  · have width := inside.length_le
    simp at width

/-- A public dav takes the host of a secured app, which is not served any more. -/
theorem dav_shadows_app : ¬ NothingShadowed sampleHttp sampleSha256 constantArgon2 sampleYaml
    sampleConfig [.addApp (appTo "localhost:8081"), .addDav (publicDav "app")] := by
  intro kept
  have routed := kept sampleConfig _ _ _ rfl List.nodup_nil rfl rfl
  have size := routed.size
  revert size
  decide

end VestibuleRouting
