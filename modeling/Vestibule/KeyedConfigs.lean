import Vestibule.AdminRuns

/-!
The configuration as three keyed maps: what each accepted request leaves under its key and beside
it, along any sequence of requests with saves that succeed.
-/
namespace VestibuleKeyed
open VestibuleRust KeyedList SharedRegister VestibuleAdmin

structure Keyed (config : Config) : Prop where
  users : (config.users.map User.login).Nodup
  apps : (config.apps.map App.id).Nodup
  davs : (config.davs.map Dav.id).Nodup

def keyless (dav : Dav) : Dav := { dav with key := none }

/-- The key of a dav is not read from a file either. -/
def SkipsKeys {Text : Type} (yaml : Yaml Text) : Prop :=
  ∀ text config, yaml.fromStr text = some config → config.stored = config

section Runs
variable {Salt Text : Type} (argon2 : Argon2 Salt) (yaml : Yaml Text)

/-- A request that is answered with an error leaves the file. -/
def nextFile (file : Text) (request : AdminRequest Salt) : Text :=
  match serve argon2 yaml request file with
  | .error _ => file
  | .ok (file, _) => file

def fileAfter (file : Text) (requests : List (AdminRequest Salt)) : Text :=
  requests.foldl (nextFile argon2 yaml) file

def SetsPassword (users : List User) (payload : User) (salt : Salt) (password : String) : Prop :=
  if payload.password = "" then
    ∃ old ∈ users, old.login = payload.login ∧ password = old.password
  else argon2.hashPassword salt (utf8 (trim payload.password)) = some password

def Effect (now next : Config) : AdminRequest Salt → Prop
  | .addUser payload salt =>
    (∃ password, SetsPassword argon2 now.users payload salt password ∧
      Stores User.login { payload with password := password } now.users next.users) ∧
    next = { now with users := next.users }
  | .deleteUser userLogin =>
    Erases User.login userLogin now.users next.users ∧ next = { now with users := next.users }
  | .addApp payload =>
    Stores App.id payload now.apps next.apps ∧ next = { now with apps := next.apps }
  | .deleteApp appId =>
    Erases App.id appId now.apps next.apps ∧ next = { now with apps := next.apps }
  | .addDav payload =>
    Stores Dav.id (keyless payload) now.davs next.davs ∧
      next = { now with davs := next.davs }
  | .deleteDav davId =>
    Erases Dav.id davId now.davs next.davs ∧ next = { now with davs := next.davs }

/-- The password of the user is one that was stored for the login at first, or a hash of one that
    was submitted for it. -/
def Explained (config : Config) (requests : List (AdminRequest Salt)) (user : User) : Prop :=
  (∃ old ∈ config.users, old.login = user.login ∧ old.password = user.password) ∨
    ∃ payload salt, .addUser payload salt ∈ requests ∧ payload.login = user.login ∧
      argon2.hashPassword salt (utf8 (trim payload.password)) = some user.password

end Runs

section Steps
variable {Salt Text : Type} {argon2 : Argon2 Salt} {yaml : Yaml Text} {now next : Config}
  {request : AdminRequest Salt} {answer : Answer}

theorem stored_keys (config : Config) : config.stored.davs.map Dav.id = config.davs.map Dav.id := by
  simp [Config.stored, Function.comp_def]

theorem handle_keyed (keyed : Keyed now) (run : handle argon2 now request = .ok (next, answer)) :
    Keyed next := by
  obtain ⟨users, apps, davs⟩ := keyed
  cases request with
  | addUser payload salt =>
    obtain ⟨_, same, _⟩ := add_user_puts run
    subst same
    exact ⟨nodup_put users, apps, davs⟩
  | deleteUser userLogin =>
    obtain ⟨_, removed, same⟩ := delete_user_removes run
    subst same
    exact ⟨nodup_remove_first users removed, apps, davs⟩
  | addApp payload =>
    have same := add_app_puts run
    subst same
    exact ⟨users, nodup_put apps, davs⟩
  | deleteApp appId =>
    obtain ⟨_, removed, same⟩ := delete_app_removes run
    subst same
    exact ⟨users, nodup_remove_first apps removed, davs⟩
  | addDav payload =>
    have same := add_dav_puts run
    subst same
    exact ⟨users, apps, nodup_put davs⟩
  | deleteDav davId =>
    obtain ⟨_, removed, same⟩ := delete_dav_removes run
    subst same
    exact ⟨users, apps, nodup_remove_first davs removed⟩

theorem stored_iff {config : Config} :
    config.stored = config ↔ config.davs.map keyless = config.davs := by
  constructor
  · intro same
    exact congrArg Config.davs same
  · intro same
    show ({ config with davs := config.davs.map keyless } : Config) = config
    rw [same]

theorem handle_effect (keyed : Keyed now) (normal : now.stored = now)
    (run : handle argon2 now request = .ok (next, answer)) :
    Effect argon2 now next.stored request := by
  have bare := stored_iff.mp normal
  cases request with
  | addUser payload salt =>
    obtain ⟨password, same, origin⟩ := add_user_puts run
    subst same
    refine ⟨⟨password, ?_, put_stores keyed.users⟩, ?_⟩
    · unfold SetsPassword
      split at origin
      · rename_i blank
        obtain ⟨old, found, same⟩ := origin
        rw [if_pos blank]
        exact ⟨old, List.mem_of_find?_eq_some found, lookup_key found, same⟩
      · rename_i given
        rw [if_neg given]
        exact origin
    · exact stored_iff.mpr bare
  | deleteUser userLogin =>
    obtain ⟨_, removed, same⟩ := delete_user_removes run
    subst same
    exact ⟨remove_erases keyed.users removed, stored_iff.mpr bare⟩
  | addApp payload =>
    have same := add_app_puts run
    subst same
    exact ⟨put_stores keyed.apps, stored_iff.mpr bare⟩
  | deleteApp appId =>
    obtain ⟨_, removed, same⟩ := delete_app_removes run
    subst same
    exact ⟨remove_erases keyed.apps removed, stored_iff.mpr bare⟩
  | addDav payload =>
    have same := add_dav_puts run
    subst same
    have put_bare : (put Dav.id payload now.davs).map keyless =
        put Dav.id (keyless payload) now.davs := by
      rw [map_put (f := keyless) fun _ => rfl, bare]
    refine ⟨?_, rfl⟩
    show Stores Dav.id _ now.davs ((put Dav.id payload now.davs).map keyless)
    rw [put_bare]
    exact put_stores keyed.davs
  | deleteDav davId =>
    obtain ⟨davs, removed, same⟩ := delete_dav_removes run
    subst same
    have left_bare : davs.map keyless = davs := by
      have mapped : removeFirst Dav.id davId (now.davs.map keyless) =
          (removeFirst Dav.id davId now.davs).map (List.map keyless) :=
        map_remove_first (f := keyless) (fun _ => rfl) davId now.davs
      rw [bare, removed] at mapped
      exact (Option.some.inj mapped).symm
    refine ⟨?_, rfl⟩
    show Erases Dav.id davId now.davs (davs.map keyless)
    rw [left_bare]
    exact remove_erases keyed.davs removed

theorem handle_explained {config : Config} {earlier : List (AdminRequest Salt)}
    (before : ∀ user ∈ now.users, Explained argon2 config earlier user)
    (run : handle argon2 now request = .ok (next, answer)) :
    ∀ user ∈ next.users, Explained argon2 config (earlier ++ [request]) user := by
  have kept : ∀ user ∈ now.users, Explained argon2 config (earlier ++ [request]) user := by
    intro user member
    rcases before user member with first | ⟨payload, salt, asked, login, hash⟩
    · exact .inl first
    · exact .inr ⟨payload, salt, List.mem_append_left _ asked, login, hash⟩
  intro user member
  cases request with
  | addUser payload salt =>
    obtain ⟨password, same, origin⟩ := add_user_puts run
    subst same
    rcases mem_put member with new | old
    · subst new
      split at origin
      · obtain ⟨old, found, same⟩ := origin
        have login := lookup_key found
        have explained := kept old (List.mem_of_find?_eq_some found)
        unfold Explained at explained ⊢
        rw [login, ← same] at explained
        exact explained
      · exact .inr ⟨payload, salt, by simp, rfl, origin⟩
    · exact kept user old
  | deleteUser userLogin =>
    obtain ⟨_, removed, same⟩ := delete_user_removes run
    subst same
    exact kept user ((remove_first_sublist removed).subset member)
  | addApp payload =>
    have same := add_app_puts run
    subst same
    exact kept user member
  | deleteApp appId =>
    obtain ⟨_, _, same⟩ := delete_app_removes run
    subst same
    exact kept user member
  | addDav payload =>
    have same := add_dav_puts run
    subst same
    exact kept user member
  | deleteDav davId =>
    obtain ⟨_, _, same⟩ := delete_dav_removes run
    subst same
    exact kept user member

theorem next_file_read {file : Text} (read : yaml.fromStr file = some now)
    (request : AdminRequest Salt) :
    match handle argon2 now request with
    | .error _ => nextFile argon2 yaml file request = file
    | .ok (next, _) => yaml.fromStr (nextFile argon2 yaml file request) = some next.stored := by
  unfold nextFile serve
  simp only [read]
  cases handle argon2 now request with
  | error failed => rfl
  | ok result => exact yaml.back result.1

end Steps

section Runs
variable {Salt Text : Type} {argon2 : Argon2 Salt} {yaml : Yaml Text}

theorem file_after_concat (file : Text) (earlier : List (AdminRequest Salt))
    (request : AdminRequest Salt) : fileAfter argon2 yaml file (earlier ++ [request]) =
      nextFile argon2 yaml (fileAfter argon2 yaml file earlier) request := List.foldl_append

structure Sound (argon2 : Argon2 Salt) (config now : Config) (requests : List (AdminRequest Salt)) :
    Prop where
  keyed : Keyed now
  settings : now.settings = config.settings
  explained : ∀ user ∈ now.users, Explained argon2 config requests user

theorem run_sound {file : Text} {config : Config} (read : yaml.fromStr file = some config)
    (keyed : Keyed config) (requests : List (AdminRequest Salt)) :
    ∃ now, yaml.fromStr (fileAfter argon2 yaml file requests) = some now ∧
      Sound argon2 config now requests := by
  induction requests using List.reverseRecOn with
  | nil => exact ⟨config, read, keyed, rfl, fun user member => .inl ⟨user, member, rfl, rfl⟩⟩
  | append_singleton earlier request ih =>
    obtain ⟨now, found, sound⟩ := ih
    have step := @next_file_read _ _ argon2 _ _ _ found request
    rw [file_after_concat]
    cases handled : handle argon2 now request with
    | error failed =>
      rw [handled] at step
      refine ⟨now, by rw [step, found], sound.keyed, sound.settings, ?_⟩
      intro user member
      rcases sound.explained user member with first | ⟨payload, salt, asked, login, hash⟩
      · exact .inl first
      · exact .inr ⟨payload, salt, List.mem_append_left _ asked, login, hash⟩
    | ok result =>
      obtain ⟨next, answer⟩ := result
      rw [handled] at step
      have later := handle_keyed sound.keyed handled
      refine ⟨next.stored, step, ⟨later.users, later.apps, ?_⟩,
        (handle_settings handled).trans sound.settings,
        fun user member => handle_explained sound.explained handled user member⟩
      rw [stored_keys]
      exact later.davs

/-- Along every run from distinct keys the keys stay distinct, the settings stay, each password is
    an old one or a hash, and each request either changes nothing or does what it says. -/
theorem config_is_three_maps (argon2 : Argon2 Salt) (yaml : Yaml Text) (skips : SkipsKeys yaml)
    {file : Text} {config : Config} (read : yaml.fromStr file = some config) (keyed : Keyed config)
    (requests : List (AdminRequest Salt)) :
    (∃ now, yaml.fromStr (fileAfter argon2 yaml file requests) = some now ∧
      Sound argon2 config now requests) ∧
    ∀ earlier request,
      ∃ now next, yaml.fromStr (fileAfter argon2 yaml file earlier) = some now ∧
        yaml.fromStr (fileAfter argon2 yaml file (earlier ++ [request])) = some next ∧
        match handle argon2 now request with
        | .error _ => next = now
        | .ok _ => Effect argon2 now next request := by
  constructor
  · exact run_sound read keyed requests
  · intro earlier request
    obtain ⟨now, found, sound⟩ := @run_sound _ _ argon2 _ _ _ read keyed earlier
    have step := @next_file_read _ _ argon2 _ _ _ found request
    rw [file_after_concat]
    cases handled : handle argon2 now request with
    | error failed =>
      rw [handled] at step
      exact ⟨now, now, found, by rw [step, found], by rw [handled]⟩
    | ok result =>
      obtain ⟨next, answer⟩ := result
      rw [handled] at step
      refine ⟨now, next.stored, found, step, ?_⟩
      rw [handled]
      exact handle_effect sound.keyed (skips _ _ found) handled

end Runs

section Samples

def keylessYaml : Yaml { config : Config // config.stored = config } where
  toString config := ⟨config.stored, by simp [Config.stored, Function.comp_def]⟩
  fromStr file := some file.1
  back _ := rfl

theorem keyless_skips : SkipsKeys keylessYaml := by
  intro text config read
  cases read
  exact text.2

def addBob (password : String) : AdminRequest Unit := .addUser ⟨"bob", password, ["USERS"]⟩ ()

end Samples

theorem sample_run_keyed :
    ∃ now, keylessYaml.fromStr (fileAfter constantArgon2 keylessYaml ⟨sampleConfig, rfl⟩
        [addBob "one", addBob "", .deleteUser "bob", addBob ""]) = some now ∧
      Sound constantArgon2 sampleConfig now
        [addBob "one", addBob "", .deleteUser "bob", addBob ""] :=
  (config_is_three_maps constantArgon2 keylessYaml keyless_skips
    (show keylessYaml.fromStr ⟨sampleConfig, rfl⟩ = some sampleConfig from rfl)
    (show Keyed sampleConfig from ⟨List.nodup_nil, List.nodup_nil, List.nodup_nil⟩) _).1

end VestibuleKeyed
