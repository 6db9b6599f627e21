import Mathlib.Logic.Function.Basic
import Vestibule.StoreRuns

/-!
Several davs on one disk. In directories apart from each other they do not interfere: each is left and
answered as if the requests to the others had not been.
-/
namespace VestibuleWebdav
open VestibuleRust LexicalMotion FileTree FileCalls DocumentStore DirectPaths SealedChunks VestibulePaths
  VestibuleCopyMove VestibuleStreamer VestibuleStorage VestibuleParts VestibuleRanges

section Marked
variable {ι β : Type} [DecidableEq ι] {i j : ι} {b : β} {rest : List (ι × β)}

def only (i : ι) (marked : List (ι × β)) : List β :=
  marked.filterMap fun one => if one.1 = i then some one.2 else none

theorem only_same : only i ((i, b) :: rest) = b :: only i rest := by
  simp [only]

theorem only_other (other : j ≠ i) : only i ((j, b) :: rest) = only i rest := by
  simp [only, other]

end Marked

section Davs

/-- A request to a dav, and what it asks of the store there. -/
structure Errand where
  share : KeyedShare
  out : Outside
  request : Request
  action : Action Name Bytes

def handleEach (fuel : Nat) (w : Disk) :
    List (KeyedShare × (Outside × Request)) → Option (Disk × List Outcome)
  | [] => some (w, [])
  | (share, (out, request)) :: rest =>
    match handle out share fuel w request with
    | none => none
    | some (w, outcome) => (handleEach fuel w rest).map fun done => (done.1, outcome :: done.2)

variable {ι : Type}

def Apart (top : ι → List Name) : Prop := ∀ i j, i ≠ j → ¬ top i <+: top j

/-- A dav in one of several directories, with the key that is used there. -/
structure Serves (key : ι → Option Key) (top : ι → List Name) (share : KeyedShare) (i : ι) : Prop where
  rooted : Rooted share (top i)
  key : share.key = key i

variable [DecidableEq ι] {aead : StreamAead} {key : ι → Option Key} {top : ι → List Name} {w : Disk}
  {s : ι → Store Name Bytes}

theorem served_answers (undoes : Undoes aead) (apart : Apart top)
    (represents : ∀ i, Represents aead (key i) (top i) w (s i)) {share : KeyedShare} {j : ι} {out : Outside}
    {request : Request} {action : Action Name Bytes} (serves : Serves key top share j)
    (asks : Asks aead share (top j) out request action) (fuel : Nat) :
    ∃ w' outcome, handle out share fuel w request = some (w', outcome) ∧
      (∀ i, Represents aead (key i) (top i) w'
        (Function.update s j ((s j).perform action).1 i)) ∧
      Answers out ((s j).perform action).2 outcome := by
  have here := represents j
  rw [← serves.key] at here
  obtain ⟨w', outcome, run, updates, answers⟩ := handle_answers undoes serves.rooted here asks fuel
  refine ⟨w', outcome, run, fun i => ?_, answers⟩
  by_cases same : i = j
  · subst same
    rw [Function.update_self, ← serves.key]
    exact updates.represents
  · rw [Function.update_of_ne same]
    exact represents_elsewhere updates (apart j i (Ne.symm same)) (apart i j same) (represents i)

end Davs

section Samples

def pairShare : Bool → KeyedShare
  | true => sampleShare
  | false => ⟨⟨utf8 "/e", true, false⟩, none⟩

def readersShare : KeyedShare := ⟨⟨utf8 "/e", false, false⟩, none⟩

def pairTop : Bool → List Name
  | true => [[100]]
  | false => [[101]]

def pairStore : Bool → Store Name Bytes
  | true => emptyStore
  | false => ⟨fun _ => none, fun _ _ there => absurd rfl there⟩

theorem pair_apart : Apart pairTop := by
  unfold Apart
  decide

theorem pair_served : ∀ i, Serves (fun i => (pairShare i).key) pairTop (pairShare i) i
  | true => ⟨sample_rooted, rfl⟩
  | false => ⟨⟨⟨false, by decide⟩, by simp [pairTop], by unfold Legal; decide, by decide⟩, rfl⟩

theorem readers_served : Serves (fun i => (pairShare i).key) pairTop readersShare false :=
  ⟨⟨⟨false, by decide⟩, by simp [pairTop], by unfold Legal; decide, by decide⟩, rfl⟩

theorem pair_represented (i : Bool) :
    Represents sampleAead (pairShare i).key (pairTop i) emptyDisk (pairStore i) := by
  cases i with
  | true => exact empty_represented
  | false =>
    refine ⟨by decide, fun names => ?_⟩
    have places : emptyDisk.tree.get (pairTop false ++ names) =
        if [101] :: names = [] ++ [[100]] then some .dir
        else if [101] :: names = [] then some .dir else none := rfl
    rw [places, if_neg (by simp), if_neg (by simp)]
    exact .missing

def pairErrands : List (Bool × Errand) :=
  [(true, ⟨pairShare true, sampleOutside, ⟨.put, utf8 "/f", [], [], [.ok [1], .ok [2, 3]]⟩,
      .put (topTarget [102]) [1, 2, 3]⟩),
    (false, ⟨pairShare false, sampleOutside, ⟨.put, utf8 "/f", [], [], [.ok [9]]⟩,
      .put (topTarget [102]) [9]⟩),
    (false, ⟨readersShare, sampleOutside, ⟨.put, utf8 "/f", [], [], [.ok [8]]⟩, .attempt⟩),
    (true, ⟨pairShare true, sampleOutside, ⟨.get, utf8 "/f", [], [], []⟩, .read (topTarget [102])⟩),
    (false, ⟨readersShare, sampleOutside, ⟨.get, utf8 "/f", [], [], []⟩, .read (topTarget [102])⟩)]

end Samples

end VestibuleWebdav
