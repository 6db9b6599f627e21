import Vestibule.AdminRuns

/-!
Saves of the configuration that fail. `to_file` writes over the file it replaces, so a save that
breaks off leaves the part that was written; every other error leaves the file alone.
-/
namespace VestibuleSaves
open VestibuleAdmin

/-- How `tokio::fs::write` goes. Opening truncates the file. -/
inductive WriteOutcome where
  | written
  | notOpened
  | brokeOff (count : Nat)
  deriving DecidableEq, Repr

section Saves
variable {Salt Symbol : Type} (argon2 : Argon2 Salt) (yaml : Yaml (List Symbol))

/-- `to_file`: what is in the file afterwards, and whether it was saved. -/
def toFile (outcome : WriteOutcome) (config : Config) (file : List Symbol) : List Symbol × Bool :=
  let contents := yaml.toString config
  match outcome with
  | .written => (contents, true)
  | .notOpened => (file, false)
  | .brokeOff count => (contents.take count, false)

/-- A whole request, with how its save goes if it comes to one. -/
def serveSaving (outcome : WriteOutcome) (request : AdminRequest Salt) (file : List Symbol) :
    List Symbol × Answer :=
  match yaml.fromStr file with
  | none => (file, ⟨500, ""⟩)
  | some config =>
    match handle argon2 config request with
    | .error answer => (file, answer)
    | .ok (config, answer) =>
      match toFile yaml outcome config file with
      | (file, true) => (file, answer)
      | (file, false) => (file, ⟨500, "could not save configuration"⟩)

def Answer.isError (answer : Answer) : Prop := 400 ≤ answer.status

def ErrorsKeepConfig : Prop :=
  ∀ (outcome : WriteOutcome) (request : AdminRequest Salt) (file : List Symbol),
    Answer.isError (serveSaving argon2 yaml outcome request file).2 →
      yaml.fromStr (serveSaving argon2 yaml outcome request file).1 = yaml.fromStr file

variable {argon2 yaml}

theorem serve_saving_written (request : AdminRequest Salt) (file : List Symbol) :
    serveSaving argon2 yaml .written request file =
      match serve argon2 yaml request file with
      | .error answer => (file, answer)
      | .ok saved => saved := by
  unfold serveSaving serve
  cases yaml.fromStr file with
  | none => rfl
  | some config =>
    simp only
    cases handle argon2 config request <;> rfl

theorem handled_success {config config' : Config} {request : AdminRequest Salt} {answer : Answer}
    (run : handle argon2 config request = .ok (config', answer)) : ¬ Answer.isError answer := by
  have small : answer.status = 200 ∨ answer.status = 201 := by
    cases request with
    | addUser payload salt =>
      simp only [handle, addUser, bind, Except.bind] at run
      repeat' split at run
      all_goals cases run
      all_goals exact .inr rfl
    | deleteUser userLogin =>
      simp only [handle, deleteUser] at run
      split at run <;> cases run
      exact .inl rfl
    | addApp payload =>
      cases run
      exact .inr rfl
    | deleteApp appId =>
      simp only [handle, deleteApp] at run
      split at run <;> cases run
      exact .inl rfl
    | addDav payload =>
      cases run
      exact .inr rfl
    | deleteDav davId =>
      simp only [handle, deleteDav] at run
      split at run <;> cases run
      exact .inl rfl
  unfold Answer.isError
  omega

/-- A request that is answered with an error leaves the file as it was, unless its save broke off:
    then the file holds what had been written of the new configuration. -/
theorem errors_keep_file (argon2 : Argon2 Salt) (yaml : Yaml (List Symbol)) (outcome : WriteOutcome)
    (request : AdminRequest Salt) (file : List Symbol)
    (failed : Answer.isError (serveSaving argon2 yaml outcome request file).2) :
    (serveSaving argon2 yaml outcome request file).1 = file ∨
      ∃ count config next answer, outcome = .brokeOff count ∧ yaml.fromStr file = some config ∧
        handle argon2 config request = .ok (next, answer) ∧
        (serveSaving argon2 yaml outcome request file).1 = (yaml.toString next).take count := by
  unfold serveSaving at failed ⊢
  cases read : yaml.fromStr file with
  | none => exact .inl rfl
  | some config =>
    rw [read] at failed
    simp only at failed ⊢
    cases handled : handle argon2 config request with
    | error answer => exact .inl rfl
    | ok result =>
      obtain ⟨next, answer⟩ := result
      rw [handled] at failed
      cases outcome with
      | written => exact absurd failed (handled_success handled)
      | notOpened => exact .inl rfl
      | brokeOff count => exact .inr ⟨count, config, next, answer, rfl, rfl, handled, rfl⟩

end Saves

section Samples

/-- A file is a list of symbols, and one that is not whole is not read. -/
def symbolYaml : Yaml (List Config) where
  toString config := [config.stored]
  fromStr
    | [config] => some config
    | _ => none
  back _ := rfl

def appConfig : Config :=
  { sampleConfig with
    apps := [⟨1, "App", "icon", "#010101", true, "app", "localhost:8081", true, "", "", "", []⟩] }

end Samples

theorem broken_save_leaves_a_part :
    (serveSaving constantArgon2 symbolYaml (.brokeOff 0) (.deleteApp 1) [appConfig]).1 =
        [appConfig] ∨
      ∃ count config next answer, WriteOutcome.brokeOff 0 = .brokeOff count ∧
        symbolYaml.fromStr [appConfig] = some config ∧
        handle constantArgon2 config (.deleteApp 1) = .ok (next, answer) ∧
        (serveSaving constantArgon2 symbolYaml (.brokeOff 0) (.deleteApp 1) [appConfig]).1 =
          (symbolYaml.toString next).take count :=
  errors_keep_file constantArgon2 symbolYaml (.brokeOff 0) (.deleteApp 1) [appConfig] (by
    unfold Answer.isError
    decide)

/-- A save that breaks off before its first symbol leaves a file that is not read. -/
theorem broken_save_loses_config : ¬ ErrorsKeepConfig constantArgon2 symbolYaml := by
  intro keeps
  have failed : Answer.isError
      (serveSaving constantArgon2 symbolYaml (.brokeOff 0) (.deleteApp 1) [appConfig]).2 := by
    unfold Answer.isError
    decide
  have same := keeps (.brokeOff 0) (.deleteApp 1) [appConfig] failed
  revert same
  decide

end VestibuleSaves
