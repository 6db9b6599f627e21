import Vestibule.StoreRequests

/-!
Runs of requests to a dav that copy nothing: they are answered as the store answers.
-/
namespace VestibuleWebdav
open VestibuleRust LexicalMotion FileTree FileCalls DocumentStore DirectPaths SealedChunks VestibulePaths
  VestibuleCopyMove VestibuleStreamer VestibuleStorage VestibuleParts VestibuleRanges

section Runs
variable {aead : StreamAead} {share : KeyedShare} {d : List Name} {w : Disk} {s : Store Name Bytes}
  {out : Outside} {request : Request} {action : Action Name Bytes}

theorem handle_answers (undoes : Undoes aead) (rooted : Rooted share d)
    (represents : Represents aead share.key d w s) (asks : Asks aead share d out request action)
    (fuel : Nat) : ∃ w' outcome, handle out share fuel w request = some (w', outcome) ∧
      Updates aead share.key d w w' (s.perform action).1 ∧ Answers out (s.perform action).2 outcome := by
  cases asks with
  | read addresses method bare cipher plain =>
    rw [handle_target rooted represents addresses]
    refine ⟨w, _, ?_, updates_refl represents, (get_answers represents addresses cipher plain fun _ => ?_).1 method⟩
    · simp only [handleMethod, method]
    · rw [plain_query_answers bare]
      rfl
  | readPart addresses method bare cipher plain known fresh wide =>
    rw [handle_target rooted represents addresses]
    refine ⟨w, _, ?_, updates_refl represents,
      part_answers represents addresses method bare cipher plain known fresh wide⟩
    simp only [handleMethod, method]
  | inspect addresses method bare cipher plain =>
    rw [handle_target rooted represents addresses]
    refine ⟨w, _, ?_, updates_refl represents, (get_answers represents addresses cipher plain fun _ => ?_).2 method⟩
    · simp only [handleMethod, method]
    · rw [plain_query_answers bare]
      rfl
  | list addresses method number times =>
    rw [handle_target rooted represents addresses]
    refine ⟨w, _, ?_, updates_refl represents, propfind_answers rooted represents addresses times number⟩
    simp only [handleMethod, method]
  | search addresses method asked cipher plain times json =>
    rw [handle_target rooted represents addresses]
    have dated (loc : List Name) : ∃ time, out.modified loc = some time ∧ 0 ≤ time := by
      obtain ⟨time, known⟩ := Option.ne_none_iff_exists'.mp (times loc)
      exact ⟨time, known, (plain.times loc time known).1⟩
    refine ⟨w, _, ?_, updates_refl represents, (get_answers represents addresses cipher plain fun seen => ?_).1 method⟩
    · simp only [handleMethod, method]
    · rw [search_answers asked]
      exact collection_searched represents addresses.spelled dated json seen _
  | archive addresses method asked cipher plain =>
    rw [handle_target rooted represents addresses]
    refine ⟨w, _, ?_, updates_refl represents, (get_answers represents addresses cipher plain fun seen => ?_).1 method⟩
    · simp only [handleMethod, method]
    · rw [archive_answers asked method]
      exact collection_archived rooted represents addresses cipher seen
  | put addresses method writable cipher whole counters =>
    rw [handle_target rooted represents addresses]
    obtain ⟨w', outcome, run, updates, answers⟩ :=
      put_answers undoes rooted represents addresses.legal cipher whole counters
    refine ⟨w', outcome, ?_, updates, answers⟩
    simp only [handleMethod, method, writable, Bool.not_true, Bool.false_and, Bool.or_false,
      Bool.false_eq_true, ↓reduceIte, addresses.spelled, run]
  | delete addresses method writable =>
    rw [handle_target rooted represents addresses]
    exact delete_answers rooted represents writable addresses.spelled method
  | make addresses method writable bodiless =>
    rw [handle_target rooted represents addresses]
    exact make_answers rooted represents writable addresses.legal addresses.spelled method bodiless
  | move addresses method writable deep destination leads =>
    rw [handle_target rooted represents addresses]
    exact move_answers rooted represents writable addresses.spelled method deep destination leads fuel
  | attempt addresses locked writes =>
    rw [handle_target rooted represents addresses]
    exact ⟨w, _, locked_forbids locked writes, updates_refl represents, _, rfl, rfl⟩
  | other reading =>
    obtain ⟨outcome, run⟩ := @handle_keeps out share fuel w request (.inr reading)
    exact ⟨w, outcome, run, updates_refl represents, trivial⟩

theorem run_answers (undoes : Undoes aead) (rooted : Rooted share d)
    (represents : Represents aead share.key d w s) (fuel : Nat)
    {steps : List ((Outside × Request) × Action Name Bytes)}
    (asks : ∀ step ∈ steps, Asks aead share d step.1.1 step.1.2 step.2) :
    ∃ w' outcomes, handleAll share fuel w (steps.map Prod.fst) = some (w', outcomes) ∧
      Updates aead share.key d w w' (s.performAll (steps.map Prod.snd)).1 ∧
      List.Forall₂ (fun answer outcome => Answers answer.1 answer.2 outcome)
        ((steps.map (·.1.1)).zip (s.performAll (steps.map Prod.snd)).2) outcomes := by
  induction steps generalizing w s with
  | nil => exact ⟨w, [], rfl, updates_refl represents, .nil⟩
  | cons step rest ih =>
    obtain ⟨⟨out, request⟩, action⟩ := step
    obtain ⟨w₁, outcome, run, updates, answers⟩ :=
      handle_answers undoes rooted represents (asks _ List.mem_cons_self) fuel
    obtain ⟨w₂, outcomes, later, updates₂, answers₂⟩ := ih updates.represents
      fun step member => asks step (List.mem_cons_of_mem _ member)
    refine ⟨w₂, outcome :: outcomes, ?_, updates_trans updates updates₂, .cons answers answers₂⟩
    simp only [List.map_cons, handleAll, run, later]

theorem created_answer {target : Address Name} {content : Bytes} {response : Response}
    (answers : Answers out (s.put target content).2 (.ok response)) (created : response.status = 201) :
    (s.put target content).2 = .created := by
  rcases put_result s target content with made | refused | failed
  · exact made
  · rw [refused] at answers
    obtain ⟨response', same, status⟩ := answers
    cases same
    rw [status] at created
    cases created
  · rw [failed] at answers
    cases answers

end Runs

section Samples

def emptyStore : Store Name Bytes where
  get path := if path = [] then some .collection else none
  closed path n there := by simp at there

def sampleShare : KeyedShare := closedShare.under (some sampleKey)

theorem sample_rooted : Rooted sampleShare [[100]] where
  directory := ⟨false, by decide⟩
  inside := by simp
  legal := by unfold Legal; decide
  text := by decide

theorem empty_represented {key : Option Key} :
    Represents sampleAead key [[100]] emptyDisk emptyStore := by
  refine ⟨by decide, fun names => ?_⟩
  have places : emptyDisk.tree.get ([[100]] ++ names) =
      if [[100]] ++ names = [] ++ [[100]] then some .dir
      else if [[100]] ++ names = [] then some .dir else none := rfl
  rw [places]
  cases names with
  | nil => exact .dir
  | cons n rest =>
    rw [if_neg (by simp), if_neg (by simp)]
    exact .missing

def sampleTarget (names : List Name) (bare : names ≠ []) : Address Name :=
  ⟨names, false, fun empty => absurd empty bare⟩

def topTarget (n : Name) : Address Name := sampleTarget [n] (List.cons_ne_nil n [])

theorem sample_unconditional (method : Method) (path : Bytes) {headers : Headers} {range : Option RangeValue}
    (parsed : parseRange headers = range) :
    Unconditional sampleOutside ⟨method, path, [], headers, []⟩ range where
  range := parsed
  noneMatch _ := rfl
  modifiedSince _ := rfl
  times loc time known := by
    cases known
    decide

theorem sample_query : PlainQuery [] := ⟨by decide, by decide⟩

theorem sample_dated (loc : List Name) : Dated sampleOutside loc := ⟨_, rfl, by decide, by decide⟩

theorem sample_addresses {wanted text : Bytes} {names : List Name} (bare : names ≠ [])
    (extracted : extractText wanted sampleShare.directory = .ok (some text))
    (spelled : pathOf text = direct ([[100]] ++ names) false) (legal : Legal names)
    (utf : ∀ n ∈ names, validUtf8 n = true) :
    Addresses sampleShare [[100]] wanted text (sampleTarget names bare) := ⟨extracted, spelled, legal, utf⟩

def askFor (method : Method) (path : Bytes) (headers : Headers) (body : Body) : Outside × Request :=
  (sampleOutside, ⟨method, path, [], headers, body⟩)

def sampleSteps : List ((Outside × Request) × Action Name Bytes) :=
  [(askFor .mkcol (utf8 "/a") [] [], .make (sampleTarget [[97]] (by simp))),
    (askFor .put (utf8 "/a/f") [] [.ok [1], .ok [2, 3]], .put (sampleTarget [[97], [102]] (by simp)) [1, 2, 3]),
    (askFor .move (utf8 "/a") [("destination", utf8 "/b")] [],
      .move (sampleTarget [[97]] (by simp)) (sampleTarget [[98]] (by simp)) true),
    (askFor .get (utf8 "/b/f") [] [], .read (sampleTarget [[98], [102]] (by simp))),
    (askFor .propfind (utf8 "/b") [] [], .list (sampleTarget [[98]] (by simp)) true)]

theorem sample_asks : ∀ step ∈ sampleSteps,
    Asks sampleAead sampleShare [[100]] step.1.1 step.1.2 step.2 := by
  have at_a := @sample_addresses (utf8 "/a") (utf8 "/d/a") [[97]] (by simp) (by decide) (by decide)
    (by unfold Legal; decide) (by decide)
  have at_b := @sample_addresses (utf8 "/b") (utf8 "/d/b") [[98]] (by simp) (by decide) (by decide)
    (by unfold Legal; decide) (by decide)
  have in_a := @sample_addresses (utf8 "/a/f") (utf8 "/d/a/f") [[97], [102]] (by simp) (by decide)
    (by decide) (by unfold Legal; decide) (by decide)
  have in_b := @sample_addresses (utf8 "/b/f") (utf8 "/d/b/f") [[98], [102]] (by simp) (by decide)
    (by decide) (by unfold Legal; decide) (by decide)
  intro step member
  simp only [sampleSteps, List.mem_cons, List.not_mem_nil, or_false] at member
  rcases member with rfl | rfl | rfl | rfl | rfl
  · exact .make at_a rfl rfl rfl
  · exact .put in_a rfl rfl rfl rfl (by decide)
  · exact .move at_a rfl rfl (by decide) (by decide) at_b
  · exact .read in_b rfl sample_query rfl (sample_unconditional _ _ rfl)
  · exact @Asks.list _ _ _ sampleOutside ⟨.propfind, utf8 "/b", [], [], []⟩ _ _ 1 at_b rfl rfl sample_dated

end Samples

end VestibuleWebdav
