import Vestibule.Services

/-!
The list of services against the access check. Both decide with nested loops over roles, in the
opposite order and with different exits; each comes down to a shared role.
-/
namespace VestibuleListing
open VestibuleAdmin VestibuleServices

abbrev Passes (user : User) (svc : HostType) : Prop := checkAuthorization svc (some user) = none

def HostType.listedApp : HostType → Option App
  | .app s => some { s.inner with login := "REDACTED", password := "REDACTED" }
  | .dav _ => none

def HostType.listedDav : HostType → Option Dav
  | .app _ => none
  | .dav s => some { s with passphrase := "REDACTED", key := none }

def passed (user : User) (entries : List (String × HostType)) : List HostType :=
  (entries.map Prod.snd).filter fun svc => Passes user svc

def listed (user : User) (entries : List (String × HostType)) : Services :=
  ((passed user entries).filterMap HostType.listedApp,
    (passed user entries).filterMap HostType.listedDav)

/-- A service without the login and password of an app, the passphrase and key of a dav. -/
def HostType.withoutSecrets : HostType → HostType
  | .app s => .app { s with inner := { s.inner with login := "", password := "" } }
  | .dav s => .dav { s with passphrase := "", key := none }

/-- The maps have the same keys, with services that are the same but for secrets. -/
def DifferInSecrets (first second : ConfigMap) : Prop :=
  (first.entries.map fun svc => (svc.1, HostType.withoutSecrets svc.2)).Perm
    (second.entries.map fun svc => (svc.1, HostType.withoutSecrets svc.2))

section Roles
variable {userRole : String} {roles userRoles : List String}

theorem has_role_iff : hasRole userRole roles = true ↔ userRole ∈ roles := by
  induction roles with
  | nil => simp [hasRole]
  | cons role rest ih =>
    unfold hasRole
    by_cases same : userRole = role
    · simp [same]
    · simp [same, ih]

theorem shares_role_iff : sharesRole roles userRoles = true ↔ ∃ role ∈ userRoles, role ∈ roles := by
  induction userRoles with
  | nil => simp [sharesRole]
  | cons userRole rest ih =>
    unfold sharesRole
    by_cases here : hasRole userRole roles = true
    · simp [here, has_role_iff.mp here]
    · simp [here, ih, mt has_role_iff.mpr here]

theorem passes_iff {user : User} {svc : HostType} :
    Passes user svc ↔ svc.secured = false ∨ ∃ role ∈ svc.roles, role ∈ user.roles := by
  unfold Passes checkAuthorization checkUserHasRoleOrForbid
  by_cases secured : svc.secured = true
  · by_cases shared : sharesRole svc.roles user.roles = true
    · obtain ⟨role, mine, here⟩ := shares_role_iff.mp shared
      simp only [secured, shared, ↓reduceIte, Bool.true_eq_false, false_or, true_iff]
      exact ⟨role, here, mine⟩
    · simp only [secured, shared, Bool.false_eq_true, ↓reduceIte, Bool.true_eq_false, false_or,
        reduceCtorEq, false_iff]
      intro both
      obtain ⟨role, here, mine⟩ := both
      exact shared (shares_role_iff.mpr ⟨role, mine, here⟩)
  · simp [secured]

end Roles

section Loops
variable {user : User} {svc : HostType} {services : Services}

theorem user_role_loop_eq (svcRole : String) (userRoles : List String) :
    userRoleLoop svc svcRole userRoles services =
      if svcRole ∈ userRoles then some (stripSensitiveDataAndPushToVec svc services) else none := by
  induction userRoles with
  | nil => rfl
  | cons userRole rest ih =>
    unfold userRoleLoop
    rw [ih]
    by_cases same : userRole = svcRole
    · simp [same]
    · simp [same, Ne.symm same]

theorem svc_loop_eq (userRoles svcRoles : List String) :
    svcLoop svc userRoles svcRoles services =
      if ∃ role ∈ svcRoles, role ∈ userRoles then stripSensitiveDataAndPushToVec svc services
      else services := by
  induction svcRoles with
  | nil => simp [svcLoop]
  | cons svcRole rest ih =>
    unfold svcLoop
    rw [user_role_loop_eq, ih]
    by_cases here : svcRole ∈ userRoles
    · simp [here]
    · simp [here]

theorem list_step_eq (name : String) : listStep user services (name, svc) =
    if Passes user svc then stripSensitiveDataAndPushToVec svc services else services := by
  unfold listStep
  rw [svc_loop_eq]
  by_cases secured : svc.secured = true
  · simp [passes_iff, secured]
  · simp [passes_iff, secured]

theorem passed_cons (name : String) (rest : List (String × HostType)) :
    passed user ((name, svc) :: rest) =
      if Passes user svc then svc :: passed user rest else passed user rest := by
  unfold passed
  rw [List.map_cons, List.filter_cons]
  simp only [decide_eq_true_eq]

theorem fold_listed (entries : List (String × HostType)) (services : Services) :
    serialised (entries.foldl (listStep user) services) =
      ((serialised services).1 ++ (listed user entries).1,
        (serialised services).2 ++ (listed user entries).2) := by
  induction entries generalizing services with
  | nil => simp [listed, passed]
  | cons entry rest ih =>
    obtain ⟨name, svc⟩ := entry
    unfold listed at ih ⊢
    rw [List.foldl_cons, list_step_eq, passed_cons]
    by_cases passes : Passes user svc
    · rw [if_pos passes, if_pos passes, ih]
      cases svc with
      | app s =>
        simp [List.filterMap_cons, serialised, stripSensitiveDataAndPushToVec, HostType.listedApp,
          HostType.listedDav]
      | dav s =>
        simp [List.filterMap_cons, serialised, stripSensitiveDataAndPushToVec, HostType.listedApp,
          HostType.listedDav]
    · rw [if_neg passes, if_neg passes, ih]

theorem list_services_listed (entries : List (String × HostType)) (user : User) :
    listServices entries user = listed user entries := by
  unfold listServices
  rw [fold_listed]
  simp [serialised]

end Loops

section Orders
variable {user : User}

theorem listed_perm {first second : List (String × HostType)} (perm : first.Perm second) :
    (listed user first).1.Perm (listed user second).1 ∧
      (listed user first).2.Perm (listed user second).2 :=
  ⟨((perm.map _).filter _).filterMap _, ((perm.map _).filter _).filterMap _⟩

theorem without_secrets_passes (svc : HostType) :
    Passes user (HostType.withoutSecrets svc) ↔ Passes user svc := by
  rw [passes_iff, passes_iff]
  cases svc <;> rfl

theorem without_secrets_listed (svc : HostType) :
    HostType.listedApp (HostType.withoutSecrets svc) = HostType.listedApp svc ∧
      HostType.listedDav (HostType.withoutSecrets svc) = HostType.listedDav svc := by
  cases svc <;> exact ⟨rfl, rfl⟩

theorem listed_without_secrets (entries : List (String × HostType)) :
    listed user (entries.map fun svc => (svc.1, HostType.withoutSecrets svc.2)) =
      listed user entries := by
  induction entries with
  | nil => rfl
  | cons entry rest ih =>
    obtain ⟨name, svc⟩ := entry
    obtain ⟨app, dav⟩ := without_secrets_listed svc
    unfold listed at ih ⊢
    obtain ⟨apps, davs⟩ := Prod.mk.inj ih
    rw [List.map_cons, passed_cons, passed_cons]
    simp only [without_secrets_passes]
    by_cases passes : Passes user svc
    · rw [if_pos passes, if_pos passes]
      simp only [List.filterMap_cons, app, dav, apps, davs]
    · rw [if_neg passes, if_neg passes, apps, davs]

end Orders

/-- However the map is iterated, the answer has one entry for each service that the user passes and
    nothing else, and two maps that differ only in secrets have the same answer up to order. -/
theorem listing_agrees_and_hides (user : User) :
    (∀ (map : ConfigMap) order, order.Perm map.entries →
      (listServices order user).1.Perm (listed user map.entries).1 ∧
        (listServices order user).2.Perm (listed user map.entries).2) ∧
    ∀ (map₁ map₂ : ConfigMap) order₁ order₂, order₁.Perm map₁.entries → order₂.Perm map₂.entries →
      DifferInSecrets map₁ map₂ →
      (listServices order₁ user).1.Perm (listServices order₂ user).1 ∧
        (listServices order₁ user).2.Perm (listServices order₂ user).2 := by
  constructor
  · intro map order perm
    rw [list_services_listed]
    exact listed_perm perm
  · intro map₁ map₂ order₁ order₂ perm₁ perm₂ alike
    rw [list_services_listed, list_services_listed]
    have one := @listed_perm user _ _ perm₁
    have two := @listed_perm user _ _ perm₂
    have across := @listed_perm user _ _ alike
    rw [listed_without_secrets, listed_without_secrets] at across
    exact ⟨one.1.trans (across.1.trans two.1.symm), one.2.trans (across.2.trans two.2.symm)⟩

section Samples

def sampleDav (passphrase : String) : Dav :=
  ⟨1, "files", "/data", true, "Files", "file", "#010101", true, false, ["USERS"], passphrase, none⟩

def sampleUser : User := ⟨"bob", "", ["USERS", "USERS"]⟩

def sampleMap (passphrase : String) : ConfigMap :=
  collect [("files.vestibule.io", .dav (sampleDav passphrase))]

end Samples

theorem two_passphrases_listed :
    (listServices (sampleMap "one").entries sampleUser).2.Perm
        (listed sampleUser (sampleMap "one").entries).2 ∧
      (listServices (sampleMap "one").entries sampleUser).2.Perm
        (listServices (sampleMap "two").entries sampleUser).2 := by
  obtain ⟨exactly, hidden⟩ := listing_agrees_and_hides sampleUser
  have alike : DifferInSecrets (sampleMap "one") (sampleMap "two") := List.Perm.refl _
  exact ⟨(exactly (sampleMap "one") _ (.refl _)).2, (hidden _ _ _ _ (.refl _) (.refl _) alike).2⟩

end VestibuleListing
