import Vestibule.ReadContainment

/-!
Which requests can change the tree: the arms of five methods, and of these only for a dav that is
writable.
-/
namespace VestibuleWebdav
open VestibuleRust FileTree FileCalls VestibulePaths VestibuleCopyMove

def Method.writes : Method → Bool
  | .put | .delete | .mkcol | .copy | .move => true
  | _ => false

section Requests
variable {out : Outside} {share : KeyedShare} {fuel : Nat} {w w' : Disk} {request : Request}
  {path : Bytes} {facts : Facts} {outcome : Outcome}

theorem method_keeps (harmless : share.writable = false ∨ request.method.writes = false) :
    ∃ outcome, handleMethod out share fuel w request path facts = some (w, outcome) := by
  unfold handleMethod
  rcases harmless with locked | reading
  · -- each arm tests the share before it touches anything
    cases request.method <;> simp [locked]
  · cases arm : request.method with
    | put | delete | mkcol | copy | move =>
      rw [arm] at reading
      cases reading
    | get | head | options | propfind | proppatch | lock | unlock | other => exact ⟨_, rfl⟩

theorem handle_keeps (harmless : share.writable = false ∨ request.method.writes = false) :
    ∃ outcome, handle out share fuel w request = some (w, outcome) := by
  unfold handle
  split
  · exact ⟨_, rfl⟩
  · exact ⟨_, rfl⟩
  · dsimp only
    split
    · exact ⟨_, rfl⟩
    · exact method_keeps harmless

theorem changed_by_write (run : handle out share fuel w request = some (w', outcome))
    (changed : w' ≠ w) : share.writable = true ∧ request.method.writes = true := by
  by_contra harmless
  have harmless : share.writable = false ∨ request.method.writes = false := by
    rcases Bool.eq_false_or_eq_true share.writable with writable | locked
    · exact .inr (Bool.eq_false_iff.mpr fun writes => harmless ⟨writable, writes⟩)
    · exact .inl locked
  obtain ⟨outcome', kept⟩ := @handle_keeps out share fuel w request harmless
  rw [kept] at run
  cases run
  exact changed rfl

/-- Every request to a dav that is not writable is answered, and nothing has changed after all of them. -/
theorem read_only_kept (locked : share.writable = false) (fuel : Nat) (w : Disk)
    (requests : List (Outside × Request)) : ∃ outcomes, outcomes.length = requests.length ∧
      handleAll share fuel w requests = some (w, outcomes) := by
  induction requests with
  | nil => exact ⟨[], rfl, rfl⟩
  | cons first rest ih =>
    obtain ⟨out, request⟩ := first
    obtain ⟨outcome, kept⟩ : ∃ outcome, handle out share fuel w request = some (w, outcome) :=
      handle_keeps (.inl locked)
    obtain ⟨outcomes, count, later⟩ := ih
    refine ⟨outcome :: outcomes, congrArg Nat.succ count, ?_⟩
    rw [handleAll, kept]
    simp only [later]

end Requests

section Samples

def lockedShare : KeyedShare := ⟨⟨utf8 "/d", false, false⟩, none⟩

def lockedRequests : List (Outside × Request) :=
  [(sampleOutside, ⟨.put, utf8 "/f", [], [], [.ok [7]]⟩),
    (sampleOutside, ⟨.delete, utf8 "/l", [], [], []⟩),
    (sampleOutside, ⟨.move, utf8 "/f", [], [("destination", utf8 "/g")], []⟩)]

end Samples

theorem locked_files_kept : ∃ outcomes, outcomes.length = lockedRequests.length ∧
    handleAll lockedShare 0 outwardDisk lockedRequests = some (outwardDisk, outcomes) :=
  @read_only_kept lockedShare rfl 0 outwardDisk lockedRequests

end VestibuleWebdav
