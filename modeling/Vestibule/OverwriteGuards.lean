import Vestibule.CopySource

/-!
What the Overwrite and Depth headers of COPY and MOVE guard, when they are present and when they
decode.
-/
namespace VestibuleCopyMove
open VestibuleRust FileTree FileCalls World VestibulePaths

section Guards
variable (uri : Bytes → Option Bytes) (listing : DiskListing) (w : Disk) (path : DiskPath)
  (headers : Headers) (method : CopyMethod) (davPath : Bytes)

def DestinationExists : Prop :=
  ∃ dest, wantedDest uri headers davPath = some dest ∧ (w.symlinkMetadata dest).isOk = true

/-- The request is answered with one of the codes, and nothing has changed. -/
def Refused (codes : List Nat) : Prop :=
  ∃ code ∈ codes, ∀ fuel,
    handleCopymove uri listing fuel w path headers method davPath = some (w, .status code)

/-- An existing Destination is kept unless the Overwrite header is absent or a single T. -/
def OverwriteGuarded : Prop :=
  DestinationExists uri w headers davPath → getAll headers "overwrite" ≠ [] →
    getAll headers "overwrite" ≠ [utf8 "T"] →
      Refused uri listing w path headers method davPath [412, 400]

/-- A Depth header that does not decode is refused. -/
def DepthGuarded : Prop :=
  getAll headers "depth" ≠ [] → decodeDepth (getAll headers "depth") = none →
    Refused uri listing w path headers method davPath [400]

def ParentExists : Prop :=
  ∃ dest, wantedDest uri headers davPath = some dest ∧
    ∃ above, parent dest = some above ∧ pathExists w above = true

/-- A Depth header decodes if it is there; and if the Overwrite header asks for an existing Destination
    to be kept, it is a single F, with the parent of the Destination in place, or the Depth header
    decodes to one that is refused. -/
def HeadersGuard : Prop :=
  (getAll headers "depth" = [] ∨ decodeDepth (getAll headers "depth") ≠ none) ∧
    (DestinationExists uri w headers davPath → getAll headers "overwrite" ≠ [] →
      getAll headers "overwrite" ≠ [utf8 "T"] →
        copyDepth method headers = none ∨
          getAll headers "overwrite" = [utf8 "F"] ∧ ParentExists uri w headers davPath)

end Guards

section Headers
variable {headers : Headers} {method : CopyMethod}

/-- Only a single F keeps the handler from overwriting: a header that does not decode is like one that
    is absent. -/
theorem overwrite_false_iff : (typedGet decodeOverwrite headers "overwrite").getD true = false ↔
    getAll headers "overwrite" = [utf8 "F"] := by
  have apart : utf8 "T" ≠ utf8 "F" := by decide
  unfold typedGet
  generalize getAll headers "overwrite" = values
  match values with
  | [] => simp
  | [line] =>
    by_cases no : line = utf8 "F"
    · simp [decodeOverwrite, one, no]
    · by_cases yes : line = utf8 "T"
      · simp [decodeOverwrite, one, yes, apart]
      · simp [decodeOverwrite, one, no, yes]
  | first :: second :: rest => simp [decodeOverwrite, one]

theorem undecoded_depth (undecoded : decodeDepth (getAll headers "depth") = none) :
    copyDepth method headers = some .infinity := by
  have nothing : typedGet decodeDepth headers "depth" = none := by
    unfold typedGet
    split
    · rfl
    · exact undecoded
  unfold copyDepth
  rw [nothing]

end Headers

section Answers
variable {uri : Bytes → Option Bytes} {listing : DiskListing} {w w' : Disk} {path : DiskPath}
  {headers : Headers} {method : CopyMethod} {davPath : Bytes} {plan : Plan} {fuel : Nat} {reply : Reply}

theorem execute_not_refused (run : plan.execute listing method fuel w = some (w', reply)) :
    reply ≠ .status 412 ∧ reply ≠ .status 400 := by
  unfold Plan.execute at run
  split at run
  · cases run
    exact ⟨by simp, by simp⟩
  · split at run
    · split at run
      · cases run
      · cases run
        exact ⟨by simp, by simp⟩
      · cases run
        split <;> exact ⟨by simp, by simp⟩
    · split at run
      · cases run
        exact ⟨by simp, by simp⟩
      · cases run
        exact ⟨by simp, by simp⟩

theorem check_copymove_deep {depth : Depth} (deep : copyDepth method headers = some depth) :
    checkCopymove uri w path headers method davPath ≠ .error (.status 400) ∧
      (checkCopymove uri w path headers method davPath = .error (.status 412) ↔
        DestinationExists uri w headers davPath ∧ getAll headers "overwrite" = [utf8 "F"] ∧
          ParentExists uri w headers davPath) := by
  unfold checkCopymove DestinationExists ParentExists wantedDest
  rw [deep, ← overwrite_false_iff]
  cases extractDest uri headers davPath with
  | error p => simp
  | ok wanted =>
    cases wanted with
    | none => simp
    | some dest =>
      simp only [Option.some.injEq, exists_eq_left']
      cases parent dest with
      | none => simp
      | some above =>
        simp only [Option.some.injEq, exists_eq_left']
        cases pathExists w above with
        | false => simp
        | true =>
          simp only [Bool.not_true, Bool.false_eq_true, ↓reduceIte, and_true]
          cases present : (w.symlinkMetadata dest).isOk with
          | false => cases samePath path dest <;> simp
          | true =>
            cases (typedGet decodeOverwrite headers "overwrite").getD true with
            | false => simp
            | true => cases samePath path dest <;> simp

theorem refused_iff {codes : List Nat} (few : ∀ code ∈ codes, code = 412 ∨ code = 400) :
    Refused uri listing w path headers method davPath codes ↔
      ∃ code ∈ codes, checkCopymove uri w path headers method davPath = .error (.status code) := by
  unfold Refused handleCopymove
  cases checks : checkCopymove uri w path headers method davPath with
  | error refusal => simp
  | ok plan =>
    simp only [reduceCtorEq, and_false, exists_false, iff_false, not_exists, not_and]
    intro code listed answered
    obtain ⟨notMet, notBad⟩ := execute_not_refused (answered 0)
    rcases few code listed with same | same
    · exact notMet (same ▸ rfl)
    · exact notBad (same ▸ rfl)

theorem check_copymove_shallow (shallow : copyDepth method headers = none) :
    checkCopymove uri w path headers method davPath = .error (.status 400) := by
  unfold checkCopymove
  rw [shallow]

end Answers

/-- The two headers guard what is there if and only if they decode, as far as they are present, and the
    parent of the Destination exists. -/
theorem headers_guard_iff (uri : Bytes → Option Bytes) (listing : DiskListing) (w : Disk)
    (path : DiskPath) (headers : Headers) (method : CopyMethod) (davPath : Bytes) :
    (OverwriteGuarded uri listing w path headers method davPath ∧
      DepthGuarded uri listing w path headers method davPath) ↔
        HeadersGuard uri w headers method davPath := by
  have depth : DepthGuarded uri listing w path headers method davPath ↔
      (getAll headers "depth" = [] ∨ decodeDepth (getAll headers "depth") ≠ none) := by
    unfold DepthGuarded
    rw [refused_iff (by simp)]
    constructor
    · intro guarded
      by_contra both
      rw [not_or, not_not] at both
      obtain ⟨code, listed, refused⟩ := guarded both.1 both.2
      rw [List.mem_singleton.mp listed] at refused
      exact (check_copymove_deep (undecoded_depth both.2)).1 refused
    · rintro (absent | decodes) present undecoded
      · exact absurd absent present
      · exact absurd undecoded decodes
  have overwrite : OverwriteGuarded uri listing w path headers method davPath ↔
      (DestinationExists uri w headers davPath → getAll headers "overwrite" ≠ [] →
        getAll headers "overwrite" ≠ [utf8 "T"] → copyDepth method headers = none ∨
          getAll headers "overwrite" = [utf8 "F"] ∧ ParentExists uri w headers davPath) := by
    unfold OverwriteGuarded
    refine forall_congr' fun there => forall_congr' fun present => forall_congr' fun other => ?_
    rw [refused_iff (by simp)]
    cases deep : copyDepth method headers with
    | none => simp [check_copymove_shallow deep]
    | some depth =>
      obtain ⟨notBad, notMet⟩ := @check_copymove_deep uri w path headers method davPath depth deep
      simp [notBad, notMet, there]
  rw [overwrite, depth, HeadersGuard, and_comm]

def besideDisk : Disk :=
  { nestedDisk with tree := nestedDisk.tree.put [[100]] [103] (.file [2]) (by decide) }

/-- An Overwrite in small letters and a Depth of 2: the file at the Destination is overwritten. -/
theorem misspelled_overwrite_destroys :
    DestinationExists some besideDisk [("destination", utf8 "/g"), ("overwrite", utf8 "f"),
        ("depth", utf8 "2")] (utf8 "/d") ∧
      (handleCopymove some Listing.asOpened 1 besideDisk (pathOf (utf8 "/d/a/b/f"))
        [("destination", utf8 "/g"), ("overwrite", utf8 "f"), ("depth", utf8 "2")] .copy
        (utf8 "/d")).map (fun answer => (answer.1.tree.get [[100], [103]], answer.2)) =
          some (some (.file [1]), .status 204) ∧
      ¬ (OverwriteGuarded some Listing.asOpened besideDisk (pathOf (utf8 "/d/a/b/f"))
          [("destination", utf8 "/g"), ("overwrite", utf8 "f"), ("depth", utf8 "2")] .copy (utf8 "/d") ∧
        DepthGuarded some Listing.asOpened besideDisk (pathOf (utf8 "/d/a/b/f"))
          [("destination", utf8 "/g"), ("overwrite", utf8 "f"), ("depth", utf8 "2")] .copy
          (utf8 "/d")) := by
  refine ⟨⟨pathOf (utf8 "/d/g"), by decide, by decide⟩, by decide, ?_⟩
  rintro ⟨guarded, _⟩
  obtain ⟨code, listed, refused⟩ :=
    guarded ⟨pathOf (utf8 "/d/g"), by decide, by decide⟩ (by decide) (by decide)
  have answer := congrArg (fun run => run.map Prod.snd) (refused 1)
  have done : (handleCopymove some Listing.asOpened 1 besideDisk (pathOf (utf8 "/d/a/b/f"))
      [("destination", utf8 "/g"), ("overwrite", utf8 "f"), ("depth", utf8 "2")] .copy
      (utf8 "/d")).map Prod.snd = some (.status 204) := by
    decide
  have same : code = 204 := by simpa [done] using answer.symm
  rw [same] at listed
  simp at listed

end VestibuleCopyMove
