import Vestibule.LinkedCalls
import Vestibule.LoadableConfigs
import Vestibule.SiteRouter

/-!
The configuration of a site as a file on its disk: what a save leaves there, and when it can be loaded.
-/
namespace VestibuleSite
open VestibuleRust FileTree FileCalls World PlainLookups PlainCalls LinkedLookups LinkedCalls
  VestibulePaths VestibuleAdmin VestibuleServices VestibuleSaves VestibuleLoading VestibuleCopyMove

section Files
variable {w : Disk} {yaml : Yaml Bytes} {outcome : WriteOutcome} {config : Config} {file content : Bytes}

theorem read_config_iff : readConfig w = some content ↔
    ∃ loc, w.lookup true configFile = .ok loc ∧ w.tree.get loc = some (.file content) := by
  rw [← stat_ok_iff]
  unfold readConfig World.metadata
  split
  · rename_i content' read
    rw [read]
    simp
  · rename_i other
    exact iff_of_false (by simp) fun found => other content found

theorem save_puts {p : List Name} {n : Name} (opening : outcome ≠ .notOpened)
    (opens : OpensTo w configFile p n) :
    Puts w (saveConfig yaml outcome config w) (p ++ [n]) (.file (toFile yaml outcome config []).1) := by
  obtain ⟨w₁, opened, _, puts, _⟩ := open_put_done (.file (toFile yaml outcome config []).1) opens
  unfold saveConfig
  rw [if_neg opening, opened]
  exact puts

theorem save_cases : saveConfig yaml outcome config w = w ∨ ∃ p n, OpensTo w configFile p n ∧
    Puts w (saveConfig yaml outcome config w) (p ++ [n]) (.file (toFile yaml outcome config []).1) := by
  by_cases opening : outcome = .notOpened
  · exact .inl (if_pos opening)
  by_cases can : ∃ p n, OpensTo w configFile p n
  · obtain ⟨p, n, opens⟩ := can
    exact .inr ⟨p, n, opens, save_puts opening opens⟩
  · obtain ⟨e, failed⟩ := open_truncated_refused fun p n opens => can ⟨p, n, opens⟩
    left
    unfold saveConfig
    rw [if_neg opening, failed]

theorem overwrites_extend {w' : Disk} {loc : List Name}
    (puts : Puts w w' loc (.file content)) (there : w.tree.get loc = some (.file file)) :
    Extends w.tree w'.tree := by
  constructor
  · intro other found
    rw [puts.get, if_neg]
    · exact found
    · rintro rfl
      rw [there] at found
      cases found
  · intro other target found
    rw [puts.get, if_neg]
    · exact found
    · rintro rfl
      rw [there] at found
      cases found
  · intro other old found
    rw [puts.get]
    split
    · exact ⟨_, rfl⟩
    · exact ⟨_, found⟩

theorem stored_opens (stored : readConfig w = some file) :
    ∃ p n, OpensTo w configFile p n ∧ w.tree.get (p ++ [n]) = some (.file file) := by
  obtain ⟨loc, found, there⟩ := read_config_iff.mp stored
  rcases List.eq_nil_or_concat loc with bare | ⟨p, n, whole⟩
  · rw [bare, w.tree.root] at there
    cases there
  · rw [List.concat_eq_append] at whole
    subst whole
    exact ⟨p, n, ⟨rfl, found, is_dir_iff.mpr (w.tree.closed _ _ _ there), w.tree.named _ _ _ there,
      file_not_dir there⟩, there⟩

theorem save_reads (stored : readConfig w = some file) :
    readConfig (saveConfig yaml outcome config w) = some (toFile yaml outcome config file).1 := by
  obtain ⟨p, n, opens, there⟩ := stored_opens stored
  by_cases opening : outcome = .notOpened
  · subst opening
    exact stored
  · have puts := @save_puts w yaml outcome config p n opening opens
    have found : (saveConfig yaml outcome config w).lookup true configFile = .ok (p ++ [n]) :=
      lookup_extends puts.cwd (overwrites_extend puts there) opens.place (by rw [there]; simp)
    have contents : (toFile yaml outcome config []).1 = (toFile yaml outcome config file).1 := by
      cases outcome with
      | notOpened => exact absurd rfl opening
      | written | brokeOff count => rfl
    exact read_config_iff.mpr ⟨p ++ [n], found, by rw [puts.get, if_pos rfl, contents]⟩

end Files

theorem to_file_written (yaml : Yaml Bytes) (config : Config) (file : Bytes) :
    (toFile yaml .written config file).1 = yaml.toString config := rfl

theorem on_file_some (yaml : Yaml Bytes) (file : Bytes) :
    (onFile yaml).fromStr (some file) = yaml.fromStr file := rfl

section Loads
variable {Salt Ip : Type} {crates : Crates Salt Ip} {w : Disk} {config : Config}

theorem load_ok_iff : (∃ map, load crates w = .ok (config, map)) ↔ fromFile crates w = some config ∧
    ∀ app ∈ config.apps, Servable crates.http.toHttp config app := by
  unfold load fromFile loadConfig
  rw [← app_services_ok_iff]
  cases (onFile crates.yaml).fromStr (readConfig w) with
  | none => simp
  | some read =>
    dsimp only
    constructor
    · rintro ⟨map, loaded⟩
      split at loaded
      · cases loaded
      · rename_i services served
        cases loaded
        exact ⟨rfl, services, served⟩
    · rintro ⟨same, services, served⟩
      cases same
      rw [served]
      exact ⟨_, rfl⟩

end Loads

section Samples

/-- Each character after a plus sign, and a full stop at the end. -/
def writeText (text : List Char) : List Char := text.flatMap (['+', ·]) ++ ['.']

def readTexts : List Char → Option (List (List Char))
  | [] => some []
  | '.' :: rest => (readTexts rest).map ([] :: ·)
  | '+' :: c :: rest =>
    match readTexts rest with
    | some (first :: others) => some ((c :: first) :: others)
    | _ => none
  | _ => none

theorem read_written (text rest : List Char) :
    readTexts (writeText text ++ rest) = (readTexts rest).map (text :: ·) := by
  induction text with
  | nil => simp [writeText, readTexts]
  | cons c more ih =>
    have shape : writeText (c :: more) ++ rest = '+' :: c :: (writeText more ++ rest) := by
      simp [writeText]
    rw [shape, readTexts, ih]
    cases readTexts rest <;> rfl

def writeTexts (texts : List (List Char)) : List Char := texts.flatMap writeText

theorem read_texts (texts : List (List Char)) : readTexts (writeTexts texts) = some texts := by
  induction texts with
  | nil => rfl
  | cons text rest ih =>
    have shape : writeTexts (text :: rest) = writeText text ++ writeTexts rest := rfl
    rw [shape, read_written, ih, Option.map_some]

def writeNames (names : List String) : List Char := writeTexts (names.map String.toList)

def readNames (text : List Char) : Option (List String) := (readTexts text).map (·.map String.ofList)

theorem read_names (names : List String) : readNames (writeNames names) = some names := by
  simp [readNames, writeNames, read_texts, Function.comp_def]

def writeAll {α : Type} (write : α → List Char) (values : List α) : List Char :=
  writeTexts (values.map write)

def readAll {α : Type} (read : List Char → Option α) (text : List Char) : Option (List α) :=
  (readTexts text).bind (·.mapM read)

theorem read_all {α : Type} {write : α → List Char} {read : List Char → Option α} {kept : α → α}
    (back : ∀ value, read (write value) = some (kept value)) (values : List α) :
    readAll read (writeAll write values) = some (values.map kept) := by
  simp only [readAll, writeAll, read_texts, Option.bind_some]
  induction values with
  | nil => rfl
  | cons value rest ih => simp [back, ih]

def tally (n : Nat) : List Char := List.replicate n '|'

def mark (b : Bool) : List Char := if b then ['|'] else []

theorem mark_read (b : Bool) : (!(mark b).isEmpty) = b := by cases b <;> rfl

def writeUser (user : User) : List Char :=
  writeTexts [user.login.toList, user.password.toList, writeNames user.roles]

def readUser (text : List Char) : Option User :=
  match readTexts text with
  | some [login, password, roles] =>
    (readNames roles).map fun roles => ⟨String.ofList login, String.ofList password, roles⟩
  | _ => none

def writeApp (app : App) : List Char :=
  writeTexts [tally app.id, app.name.toList, app.icon.toList, app.color.toList, mark app.isProxy,
    app.host.toList, app.forwardTo.toList, mark app.secured, app.login.toList, app.password.toList,
    app.openpath.toList, writeNames app.roles]

def readApp (text : List Char) : Option App :=
  match readTexts text with
  | some [id, name, icon, color, isProxy, host, forwardTo, secured, login, password, openpath, roles] =>
    (readNames roles).map fun roles => ⟨id.length, String.ofList name, String.ofList icon,
      String.ofList color, !isProxy.isEmpty, String.ofList host, String.ofList forwardTo,
      !secured.isEmpty, String.ofList login, String.ofList password, String.ofList openpath, roles⟩
  | _ => none

def writeDav (dav : Dav) : List Char :=
  writeTexts [tally dav.id, dav.host.toList, dav.directory.toList, mark dav.writable, dav.name.toList,
    dav.icon.toList, dav.color.toList, mark dav.secured, mark dav.allowSymlinks, writeNames dav.roles,
    dav.passphrase.toList]

def readDav (text : List Char) : Option Dav :=
  match readTexts text with
  | some [id, host, directory, writable, name, icon, color, secured, allowSymlinks, roles, passphrase] =>
    (readNames roles).map fun roles => ⟨id.length, String.ofList host, String.ofList directory,
      !writable.isEmpty, String.ofList name, String.ofList icon, String.ofList color, !secured.isEmpty,
      !allowSymlinks.isEmpty, roles, String.ofList passphrase, none⟩
  | _ => none

theorem read_user (user : User) : readUser (writeUser user) = some user := by
  simp [readUser, writeUser, read_texts, read_names]

theorem read_app (app : App) : readApp (writeApp app) = some app := by
  simp [readApp, writeApp, read_texts, read_names, mark_read, tally]

theorem read_dav (dav : Dav) : readDav (writeDav dav) = some { dav with key := none } := by
  simp [readDav, writeDav, read_texts, read_names, mark_read, tally]

def textYaml : Yaml Bytes where
  toString config := utf8 (String.ofList (writeTexts [config.hostname.toList, mark config.debugMode,
    tally config.httpPort, mark config.autoTls, config.letsencryptEmail.toList,
    writeAll writeApp config.apps, writeAll writeDav config.davs, writeAll writeUser config.users]))
  fromStr file :=
    match (String.fromUTF8? ⟨file.toArray⟩).bind fun text => readTexts text.toList with
    | some [hostname, debugMode, httpPort, autoTls, email, apps, davs, users] => do
      return ⟨String.ofList hostname, !debugMode.isEmpty, httpPort.length, !autoTls.isEmpty,
        String.ofList email, ← readAll readApp apps, ← readAll readDav davs, ← readAll readUser users⟩
    | _ => none
  back config := by
    have apps := @read_all App writeApp readApp id read_app config.apps
    have davs := @read_all Dav writeDav readDav (fun dav => { dav with key := none }) read_dav config.davs
    have users := @read_all User writeUser readUser id read_user config.users
    simp [from_utf8, read_texts, mark_read, tally, apps, davs, users, Config.stored]

end Samples
end VestibuleSite
