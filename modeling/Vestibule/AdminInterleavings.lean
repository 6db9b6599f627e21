import Vestibule.Configuration

/-!
Concurrent requests of administrators on one configuration file. Nothing keeps a request from
saving over what another saved after its read, so an update can be lost; what the file holds in
the end still comes from running some of the requests one after the other.
-/
namespace VestibuleInterleavings
open VestibuleAdmin SharedRegister

section Requests
variable {Salt Text : Type} (argon2 : Argon2 Salt) (yaml : Yaml Text)
variable (requests : List (AdminRequest Salt)) (file : Text) (schedule : List Nat)

def updates : List (Update Text Answer) := requests.map (serve argon2 yaml)

def finalState : State Text Answer := run (updates argon2 yaml requests) (start file) schedule

def saveOrder : List Nat := savers (updates argon2 yaml requests) (start file) schedule

def oneAfterTheOther (order : List Nat) : Text :=
  sequential (updates argon2 yaml requests) file order

def AllSucceed : Prop :=
  ∀ i, i < requests.length →
    ∃ answer, (finalState argon2 yaml requests file schedule).phase i = .saved answer

/-- No request saves while another is between its read and its save. -/
def NoneDisturbed : Prop := Undisturbed (updates argon2 yaml requests) (start file) schedule

/-- The final file is the one of some sequential execution of all requests. -/
def NothingLost : Prop :=
  AllSucceed argon2 yaml requests file schedule →
    ∃ order, order.Perm (List.range requests.length) ∧
      (finalState argon2 yaml requests file schedule).register =
        oneAfterTheOther argon2 yaml requests file order

variable {argon2 yaml requests file schedule}

/-- The final file comes from running some of the requests one after the other in the order of
    their saves, the last one among them, and all of them when none was disturbed. -/
theorem admin_updates_replayed (success : AllSucceed argon2 yaml requests file schedule) :
    (∃ order, order.Sublist (saveOrder argon2 yaml requests file schedule) ∧
      order.getLast? = (saveOrder argon2 yaml requests file schedule).getLast? ∧
      (finalState argon2 yaml requests file schedule).register =
        oneAfterTheOther argon2 yaml requests file order) ∧
    (saveOrder argon2 yaml requests file schedule).Perm (List.range requests.length) ∧
    (NoneDisturbed argon2 yaml requests file schedule →
      (finalState argon2 yaml requests file schedule).register =
        oneAfterTheOther argon2 yaml requests file
          (saveOrder argon2 yaml requests file schedule)) := by
  have width : (updates argon2 yaml requests).length = requests.length := by simp [updates]
  have all : ∀ i, i < (updates argon2 yaml requests).length → ∃ answer,
      (run (updates argon2 yaml requests) (start file) schedule).phase i = .saved answer := by
    intro i within
    exact success i (width ▸ within)
  obtain ⟨some_of_them, everyone, in_turn⟩ := saved_replayed all
  obtain ⟨order, sub, last, chain⟩ := some_of_them
  constructor
  · exact ⟨order, sub, last, (chain_sequential chain).symm⟩
  constructor
  · rw [← width]
    exact everyone
  · intro undisturbed
    exact (chain_sequential (in_turn undisturbed)).symm

end Requests

section Samples

def sampleApp (id : Nat) : App :=
  ⟨id, "App", "icon", "#010101", true, "app", "localhost:8081", true, "admin", "secret", "",
    ["ADMINS"]⟩

def sampleArgon2 : Argon2 Unit where
  hashPassword _ _ := some "hash"
  parses _ := true
  verifyPassword _ _ := true

def sampleRequests : List (AdminRequest Unit) := [.addApp (sampleApp 1), .addApp (sampleApp 2)]

def sampleSchedule : List Nat := [0, 1, 0, 1, 0, 1]

theorem sample_succeeds :
    AllSucceed sampleArgon2 sampleYaml sampleRequests sampleConfig sampleSchedule := by
  intro i within
  rcases i with _ | _ | i
  · exact ⟨_, rfl⟩
  · exact ⟨_, rfl⟩
  · simp only [sampleRequests, List.length_cons, List.length_nil] at within
    omega

end Samples

theorem two_apps_replayed :
    (∃ order, order.Sublist
        (saveOrder sampleArgon2 sampleYaml sampleRequests sampleConfig sampleSchedule) ∧
      order.getLast? =
        (saveOrder sampleArgon2 sampleYaml sampleRequests sampleConfig sampleSchedule).getLast? ∧
      (finalState sampleArgon2 sampleYaml sampleRequests sampleConfig sampleSchedule).register =
        oneAfterTheOther sampleArgon2 sampleYaml sampleRequests sampleConfig order) :=
  (admin_updates_replayed sample_succeeds).1

/-- Two apps are added, both with success, and only the second is left. -/
theorem interleaved_add_app_loses :
    ¬ NothingLost sampleArgon2 sampleYaml sampleRequests sampleConfig sampleSchedule := by
  intro kept
  obtain ⟨order, perm, same⟩ := kept sample_succeeds
  have width := perm.length_eq
  rcases order with _ | ⟨a, _ | ⟨b, _ | ⟨c, rest⟩⟩⟩
  · cases width
  · cases width
  · have first : a < 2 := List.mem_range.mp (perm.mem_iff.mp (by simp))
    have second : b < 2 := List.mem_range.mp (perm.mem_iff.mp (by simp))
    have distinct : a ≠ b := by
      have nodup := perm.nodup_iff.mpr List.nodup_range
      simpa using nodup
    have lost : ∀ a, a < 2 → ∀ b, b < 2 → a ≠ b →
        (finalState sampleArgon2 sampleYaml sampleRequests sampleConfig sampleSchedule).register ≠
          oneAfterTheOther sampleArgon2 sampleYaml sampleRequests sampleConfig [a, b] := by decide
    exact lost a first b second distinct same
  · cases width

end VestibuleInterleavings
