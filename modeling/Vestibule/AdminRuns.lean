import Mathlib.Data.List.Induction
import Vestibule.Configuration

/-!
Sequential runs of requests of administrators, all answered with success: what one request does to
the configuration, and the rule for whole runs.
-/
namespace VestibuleAdmin
open VestibuleRust KeyedList SharedRegister

section Runs
variable {Salt Text : Type} (argon2 : Argon2 Salt) (yaml : Yaml Text)

/-- The file after the requests, or none when one of them is answered with an error. -/
def serveAll (file : Text) : List (AdminRequest Salt) → Option Text
  | [] => some file
  | request :: rest =>
    match serve argon2 yaml request file with
    | .error _ => none
    | .ok (file, _) => serveAll file rest

/-- What no request changes. -/
def Config.settings (config : Config) : Config := { config with apps := [], davs := [], users := [] }

variable {argon2 yaml}

theorem serve_all_append {file : Text} (first later : List (AdminRequest Salt)) :
    serveAll argon2 yaml file (first ++ later) =
      (serveAll argon2 yaml file first).bind (serveAll argon2 yaml · later) := by
  induction first generalizing file with
  | nil => rfl
  | cons request rest ih =>
    rw [List.cons_append]
    simp only [serveAll]
    cases serve argon2 yaml request file with
    | error answer => rfl
    | ok saved => exact ih

theorem serve_ok {file file' : Text} {config : Config} {request : AdminRequest Salt}
    {answer : Answer} (read : yaml.fromStr file = some config) :
    serve argon2 yaml request file = .ok (file', answer) ↔
      ∃ config', handle argon2 config request = .ok (config', answer) ∧
        file' = yaml.toString config' := by
  unfold serve
  simp only [read]
  cases handle argon2 config request with
  | error failed => simp
  | ok result =>
    obtain ⟨config', answer'⟩ := result
    simp only [Except.ok.injEq, Prod.mk.injEq]
    constructor
    · intro same
      exact ⟨config', ⟨rfl, same.2⟩, same.1.symm⟩
    · intro same
      obtain ⟨_, ⟨config, answer⟩, file⟩ := same
      subst config
      exact ⟨file.symm, answer⟩

theorem serve_all_rule {P : Config → Prop} {file file' : Text} {config : Config}
    {requests : List (AdminRequest Salt)} (read : yaml.fromStr file = some config) (start : P config)
    (step : ∀ earlier request text now next answer, earlier ++ [request] <+: requests →
      serveAll argon2 yaml file earlier = some text → yaml.fromStr text = some now → P now →
      handle argon2 now request = .ok (next, answer) → P next.stored)
    (run : serveAll argon2 yaml file requests = some file') :
    ∃ config', yaml.fromStr file' = some config' ∧ P config' := by
  induction requests using List.reverseRecOn generalizing file' with
  | nil =>
    cases run
    exact ⟨config, read, start⟩
  | append_singleton earlier request ih =>
    rw [serve_all_append] at run
    obtain ⟨text, before, last⟩ := Option.bind_eq_some_iff.mp run
    obtain ⟨now, found, kept⟩ := ih
      (fun earlier' request' text now next answer inside =>
        step earlier' request' text now next answer (inside.trans (List.prefix_append _ _)))
      before
    unfold serveAll at last
    split at last
    · cases last
    · rename_i next_file answer served
      cases last
      obtain ⟨next, handled, saved⟩ := (serve_ok found).mp served
      subst saved
      exact ⟨next.stored, yaml.back next,
        step earlier request text now next answer (List.prefix_refl _) before found kept handled⟩

end Runs

section Effects
variable {Salt : Type} {argon2 : Argon2 Salt} {config config' : Config} {answer : Answer}
  {request : AdminRequest Salt}

theorem add_app_puts {payload : App} (run : addApp config payload = .ok (config', answer)) :
    config' = { config with apps := put App.id payload config.apps } := by
  cases run
  rfl

theorem add_dav_puts {payload : Dav} (run : addDav config payload = .ok (config', answer)) :
    config' = { config with davs := put Dav.id payload config.davs } := by
  cases run
  rfl

theorem delete_app_removes {appId : Nat} (run : deleteApp config appId = .ok (config', answer)) :
    ∃ apps, removeFirst App.id appId config.apps = some apps ∧
      config' = { config with apps := apps } := by
  unfold deleteApp at run
  split at run
  · rename_i apps removed
    cases run
    exact ⟨apps, removed, rfl⟩
  · cases run

theorem delete_dav_removes {davId : Nat} (run : deleteDav config davId = .ok (config', answer)) :
    ∃ davs, removeFirst Dav.id davId config.davs = some davs ∧
      config' = { config with davs := davs } := by
  unfold deleteDav at run
  split at run
  · rename_i davs removed
    cases run
    exact ⟨davs, removed, rfl⟩
  · cases run

theorem delete_user_removes {userLogin : String}
    (run : deleteUser config userLogin = .ok (config', answer)) :
    ∃ users, removeFirst User.login userLogin config.users = some users ∧
      config' = { config with users := users } := by
  unfold deleteUser at run
  split at run
  · rename_i users removed
    cases run
    exact ⟨users, removed, rfl⟩
  · cases run

theorem add_user_puts {payload : User} {salt : Salt}
    (run : addUser argon2 config payload salt = .ok (config', answer)) :
    ∃ password, config' =
        { config with users := put User.login { payload with password := password } config.users } ∧
      if payload.password = "" then
        ∃ old, lookup User.login payload.login config.users = some old ∧ password = old.password
      else argon2.hashPassword salt (utf8 (trim payload.password)) = some password := by
  unfold addUser hashPassword at run
  by_cases blank : payload.password = ""
  · simp only [blank, ne_eq, not_true_eq_false, ↓reduceIte] at run ⊢
    cases found : lookup User.login payload.login config.users with
    | none =>
      rw [found] at run
      cases run
    | some old =>
      rw [found] at run
      cases run
      refine ⟨old.password, ?_, old, rfl, rfl⟩
      cases replaced : replaceFirst User.login { payload with password := old.password }
          config.users with
      | none =>
        rw [replace_first_none.mp replaced] at found
        cases found
      | some users => simp [put, replaced]
  · simp only [blank, ne_eq, not_false_eq_true, ↓reduceIte] at run ⊢
    cases hashed : argon2.hashPassword salt (utf8 (trim payload.password)) with
    | none =>
      rw [hashed] at run
      split at run <;> cases run
    | some hash =>
      rw [hashed] at run
      refine ⟨hash, ?_, rfl⟩
      cases found : lookup User.login payload.login config.users with
      | none =>
        rw [found] at run
        cases run
        have missing : replaceFirst User.login { payload with password := hash } config.users =
            none := replace_first_none.mpr found
        simp [put, missing]
      | some old =>
        rw [found] at run
        cases run
        cases replaced : replaceFirst User.login { payload with password := hash } config.users with
        | none =>
          rw [replace_first_none.mp replaced] at found
          cases found
        | some users => simp [put, replaced]

theorem handle_settings (run : handle argon2 config request = .ok (config', answer)) :
    config'.settings = config.settings := by
  cases request with
  | addUser payload salt =>
    obtain ⟨_, same, _⟩ := add_user_puts run
    rw [same]
    rfl
  | deleteUser userLogin =>
    obtain ⟨_, _, same⟩ := delete_user_removes run
    rw [same]
    rfl
  | addApp payload =>
    rw [add_app_puts run]
    rfl
  | deleteApp appId =>
    obtain ⟨_, _, same⟩ := delete_app_removes run
    rw [same]
    rfl
  | addDav payload =>
    rw [add_dav_puts run]
    rfl
  | deleteDav davId =>
    obtain ⟨_, _, same⟩ := delete_dav_removes run
    rw [same]
    rfl

end Effects

def constantArgon2 : Argon2 Unit where
  hashPassword _ _ := some "hash"
  parses _ := true
  verifyPassword _ _ := true

end VestibuleAdmin
