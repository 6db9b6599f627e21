import Vestibule.CopyContainment
import Vestibule.CreatedParents
import Vestibule.PathConfinement
import Vestibule.ReadOnlyShares

/-!
Where the requests that write reach to in a tree with symbolic links. The path of a request is only
checked if it leads to something, and the Destination is not checked at all, so what is created can be
outside of the directory of the dav; here it is said exactly when it is.
-/
namespace VestibuleWebdav
open VestibuleRust LexicalMotion FileTree FileCalls World PlainLookups PlainCalls LinkedLookups
  LinkedCalls CallFootprints VestibulePaths VestibuleConfinement VestibuleCopyMove VestibuleStreamer
  VestibuleRanges

/-- A place in the directory of the dav, as it is before the request. -/
def Inside (w : Disk) (share : KeyedShare) (place : List Name) : Prop :=
  ∃ dir, w.canonicalize (pathOf share.directory) = .ok dir ∧ dir <+: place

/-- The disk that a request has got to. Only a COPY may not have answered. -/
def diskSoFar (out : Outside) (share : KeyedShare) (fuel : Nat) (w : Disk) (request : Request) : Disk :=
  match handle out share fuel w request with
  | some answer => answer.1
  | none =>
    match extractText request.path share.directory with
    | .ok (some path) =>
      match checkCopymove out.uri w (pathOf path) request.headers .copy share.directory with
      | .ok plan => plan.soFar out.listing fuel w
      | .error _ => w
    | _ => w

/-- All that a request creates, overwrites, removes or copies from is inside, also while it goes on. -/
def WritesInside (out : Outside) (share : KeyedShare) (w : Disk) (request : Request) : Prop :=
  ∀ fuel, TouchesWithin (Inside w share) w (diskSoFar out share fuel w request)

/-- The path of the request and the Destination are in the directory by their names. -/
def NamedInside (out : Outside) (share : KeyedShare) (request : Request) : Prop :=
  Confined share.directory (extractPath request.path share.directory) ∧
    Confined share.directory (extractDest out.uri request.headers share.directory)

section Conditions
variable (inside : List Name → Prop) (w : Disk) (path : DiskPath)

/-- The parent of the path is missing, and `w₁` is a disk on the way to the one where it is there. -/
def Preparing (above : DiskPath) (w₁ : Disk) : Prop :=
  parent path = some above ∧ (w.symlinkMetadata above).isOk = false ∧ Prepared above w w₁

/-- The directories that are missing above the path will be inside, and so is the file it then leads
    to. -/
structure UploadStays : Prop where
  dirs : ∀ above w₁ front p n, Preparing w path above w₁ → Above front above → Creates w₁ front p n →
    inside (p ++ [n])
  file : ∀ w₁ p n, (w₁ = w ∨ ∃ above, Preparing w path above w₁) → OpensTo w₁ path p n →
    inside (p ++ [n])

/-- If the path is a link, the link itself is inside. -/
def DeleteStays : Prop :=
  ∀ loc, w.lookup false path = .ok loc → Linked w.tree loc → inside loc

def MkcolStays : Prop := ∀ p n, Creates w path p n → inside (p ++ [n])

end Conditions

section Uploads
variable {out : Outside} {share : KeyedShare} {inside : List Name → Prop} {w w' : Disk}
  {path above : DiskPath} {body : Body}

theorem upload_opened {w₁ : Disk} (ready : ensurePathParent w path = (w₁, .ok ())) :
    (∃ p n, OpensTo w₁ path p n ∧
        (handleUpload out share w path body).1.touched = w₁.touched ++ [p ++ [n], p ++ [n]]) ∨
      (∀ p n, ¬ OpensTo w₁ path p n) ∧ (handleUpload out share w path body).1 = w₁ := by
  unfold handleUpload
  rw [ready]
  dsimp only
  by_cases can : ∃ p n, OpensTo w₁ path p n
  · obtain ⟨p, n, opens⟩ := can
    refine .inl ⟨p, n, opens, ?_⟩
    obtain ⟨w₂, opened, done, _, touched⟩ := open_put_done (.file (uploaded out share body).1) opens
    rw [opened]
    dsimp only
    generalize w₂.putAt p n (.file (uploaded out share body).1) = result at done touched
    obtain ⟨w₃, written⟩ := result
    dsimp only at done touched
    subst done
    exact touched
  · refine .inr ⟨fun p n opens => can ⟨p, n, opens⟩, ?_⟩
    obtain ⟨e, failed⟩ := open_truncated_refused fun p n opens => can ⟨p, n, opens⟩
    rw [failed]

theorem upload_refused {w₁ : Disk} {e : FsError} (failed : ensurePathParent w path = (w₁, .error e)) :
    (handleUpload out share w path body).1 = w₁ := by
  unfold handleUpload
  rw [failed]

theorem ensure_made (found : parent path = some above) (missing : (w.symlinkMetadata above).isOk = false) :
    ensurePathParent w path = createDirAll (above.steps.length + 1) w above := by
  unfold ensurePathParent
  rw [found]
  dsimp only
  split
  · rename_i node there
    rw [there] at missing
    cases missing
  · rfl

theorem ensure_kept (kept : ∀ above, parent path = some above → (w.symlinkMetadata above).isOk = true) :
    ensurePathParent w path = (w, .ok ()) := by
  unfold ensurePathParent
  cases found : parent path with
  | none => rfl
  | some above =>
    dsimp only
    split
    · rfl
    · rename_i e missing
      have there := kept above found
      rw [missing] at there
      cases there

theorem opens_parent {p : List Name} {n : Name} (found : parent path = some above)
    (some_left : isBlank above = false) (opens : OpensTo w path p n) : isDir w above = true :=
  parent_dir found some_left opens.place

theorem dir_complete {front : DiskPath} (dir : isDir w above = true) (upper : Above front above)
    (p : List Name) (n : Name) : ¬ Creates w front p n := by
  intro creates
  obtain ⟨loc, found, here⟩ := is_dir_path_iff.mp dir
  obtain ⟨named, entered⟩ := dir_entered found here
  have same := entered_not_above entered upper creates
  subst same
  have whole := lookup_entry found creates.entry (.inr (not_linked_missing creates.missing))
  rw [whole, missing_not_dir creates.missing] at here
  cases here

theorem prepared_last {w₁ w₂ : Disk} (ready : Prepared above w w₁) (run : Prepared above w w₂)
    (complete : ∀ front p n, Above front above → ¬ Creates w₂ front p n) : Prepared above w₁ w₂ := by
  rcases prepared_total ready run with onward | back
  · exact onward
  · rcases prepared_step back with same | ⟨front, p, n, upper, creates, _⟩
    · exact same ▸ .start _
    · exact absurd creates (complete front p n upper)

theorem blank_prepared {w₁ : Disk} (blank : isBlank above = true) (ready : Prepared above w w₁) :
    w₁ = w := by
  induction ready with
  | start => rfl
  | more _ upper creates _ =>
    exfalso
    have bare : above.absolute = false ∧ above.steps = [] := by simpa [isBlank] using blank
    rcases above_steps upper with same | ⟨_, s, later, longer⟩
    · have entry := creates.entry
      rw [same, World.entry, blank] at entry
      cases entry
    · rw [bare.2] at longer
      simp at longer

theorem opens_ready {w₁ : Disk} {p : List Name} {n : Name} (opens : OpensTo w₁ path p n)
    (onward : w₁ = w ∨ ∃ above, Preparing w path above w₁) :
    ensurePathParent w path = (w₁, .ok ()) := by
  by_cases kept : ∀ above, parent path = some above → (w.symlinkMetadata above).isOk = true
  · rcases onward with same | ⟨above, found, missing, _⟩
    · rw [same]
      exact ensure_kept kept
    · rw [kept above found] at missing
      cases missing
  · simp only [not_forall, Bool.not_eq_true] at kept
    obtain ⟨above, found, missing⟩ := kept
    have ready : Prepared above w w₁ := by
      rcases onward with same | ⟨above', found', _, ready⟩
      · exact same ▸ .start _
      · rw [found] at found'
        cases found'
        exact ready
    rw [ensure_made found missing]
    cases blank : isBlank above with
    | true =>
      have bare : above.absolute = false ∧ above.steps = [] := by simpa [isBlank] using blank
      unfold createDirAll
      rw [if_pos bare, blank_prepared blank ready]
    | false =>
      have dir := opens_parent found blank opens
      cases run : createDirAll (above.steps.length + 1) w above with
      | mk w₂ outcome =>
        have complete := fun front p n (upper : Above front above) =>
          create_dir_all_complete (Nat.lt_succ_self _) run upper p n
        have same : w₁ = w₂ := by
          rcases prepared_step (prepared_last ready (create_dir_all_prepares run) complete) with
            same | ⟨front, p, n, upper, creates, _⟩
          · exact same
          · exact absurd creates (dir_complete dir upper p n)
        subst same
        cases outcome with
        | ok done => rfl
        | error e =>
          rw [create_dir_all_fails (Nat.lt_succ_self _) run] at dir
          cases dir

theorem upload_touched {w₁ : Disk} {outcome : Except FsError Unit}
    (ready : ensurePathParent w path = (w₁, outcome)) :
    ∃ places, (handleUpload out share w path body).1.touched = w₁.touched ++ places := by
  cases outcome with
  | error e => exact ⟨[], by rw [upload_refused ready, List.append_nil]⟩
  | ok done =>
    rcases @upload_opened out share w path body w₁ ready with ⟨p, n, _, touched⟩ | ⟨_, same⟩
    · exact ⟨_, touched⟩
    · exact ⟨[], by rw [same, List.append_nil]⟩

theorem upload_stays (stays : UploadStays inside w path) :
    TouchesWithin inside w (handleUpload out share w path body).1 := by
  have opened {w₁ : Disk} (ready : ensurePathParent w path = (w₁, .ok ()))
      (onward : w₁ = w ∨ ∃ above, Preparing w path above w₁) :
      TouchesWithin inside w₁ (handleUpload out share w path body).1 := by
    rcases @upload_opened out share w path body w₁ ready with ⟨p, n, opens, touched⟩ | ⟨_, same⟩
    · refine ⟨_, touched, ?_⟩
      have written := stays.file w₁ p n onward opens
      simpa using written
    · exact touches_same (by rw [same])
  by_cases kept : ∀ above, parent path = some above → (w.symlinkMetadata above).isOk = true
  · exact opened (ensure_kept kept) (.inl rfl)
  · simp only [not_forall, Bool.not_eq_true] at kept
    obtain ⟨above, found, missing⟩ := kept
    cases run : createDirAll (above.steps.length + 1) w above with
    | mk w₁ outcome =>
      have made := ensure_made found missing
      have ready := create_dir_all_prepares run
      have dirs : TouchesWithin inside w w₁ := prepared_within ready
        fun w₀ front p n earlier upper creates => stays.dirs above w₀ front p n
          ⟨found, missing, earlier⟩ upper creates
      rw [run] at made
      cases outcome with
      | error e => exact touches_trans dirs (touches_same (by rw [upload_refused made]))
      | ok done =>
        exact touches_trans dirs (opened made (.inr ⟨above, found, missing, ready⟩))

theorem upload_reaches (within : TouchesWithin inside w (handleUpload out share w path body).1) :
    UploadStays inside w path := by
  constructor
  · intro above w₁ front p n ⟨found, missing, ready⟩ upper creates
    obtain ⟨places, touched⟩ := prepared_touched ready
    obtain ⟨_, _, step⟩ := create_dir_done creates
    cases run : createDirAll (above.steps.length + 1) w above with
    | mk w₂ outcome =>
      obtain ⟨more, later⟩ := prepared_touched (prepared_last (.more ready upper creates)
        (create_dir_all_prepares run)
        fun front p n upper => create_dir_all_complete (Nat.lt_succ_self _) run upper p n)
      obtain ⟨rest, done⟩ := @upload_touched out share w path body w₂ outcome
        ((ensure_made found missing).trans run)
      rw [later, step, touched] at done
      simp only [List.append_assoc] at done
      exact (touches_iff done).mp within _ (by simp)
  · intro w₁ p n onward opens
    have ready := opens_ready opens onward
    obtain ⟨places, touched⟩ : ∃ places, w₁.touched = w.touched ++ places := by
      rcases onward with same | ⟨above, _, _, earlier⟩
      · exact ⟨[], by rw [same, List.append_nil]⟩
      · exact prepared_touched earlier
    rcases @upload_opened out share w path body w₁ ready with ⟨p', n', opens', touched'⟩ | ⟨no, _⟩
    · have same := opens.place
      rw [opens'.place] at same
      rw [touched, List.append_assoc] at touched'
      refine (touches_iff touched').mp within _ (List.mem_append_right _ ?_)
      rw [Except.ok.inj same]
      exact List.mem_cons_self
    · exact absurd opens (no p n)

theorem upload_within_iff :
    TouchesWithin inside w (handleUpload out share w path body).1 ↔ UploadStays inside w path :=
  ⟨upload_reaches, upload_stays⟩

end Uploads

section Entries
variable {inside : List Name → Prop} {w : Disk} {path : DiskPath}

theorem mkcol_within_iff :
    TouchesWithin inside w (handleMkcol w path).1 ↔ MkcolStays inside w path := by
  have state : (handleMkcol w path).1 = (w.createDir path).1 := by
    unfold handleMkcol
    split <;> rename_i made <;> rw [made]
  rw [state]
  constructor
  · intro within p n creates
    exact (touches_iff (create_dir_done creates).2.2).mp within _ List.mem_cons_self
  · intro stays
    by_cases can : ∃ p n, Creates w path p n
    · obtain ⟨p, n, creates⟩ := can
      refine (touches_iff (create_dir_done creates).2.2).mpr fun place member => ?_
      exact List.mem_singleton.mp member ▸ stays p n creates
    · obtain ⟨e, failed⟩ := create_dir_refused fun p n creates => can ⟨p, n, creates⟩
      rw [failed]
      exact touches_refl w

theorem delete_within_iff (down : ∀ a b, inside a → a <+: b → inside b)
    (held : ∀ loc node, w.lookup true path = .ok loc → w.tree.get loc = some node → inside loc) :
    TouchesWithin inside w (handleDelete w path (isDir w path)).1 ↔ DeleteStays inside w path := by
  have state : (handleDelete w path (isDir w path)).1 =
      (if isDir w path then w.removeDirAll path else w.removeFile path).1 := by
    unfold handleDelete
    split <;> rename_i removed <;> rw [removed]
  rw [state]
  split
  · rw [remove_dir_all_touches]
    constructor
    · intro all loc found linked
      exact all loc ⟨loc, found, .inl ⟨linked, rfl⟩⟩
    · rintro stays place ⟨top, found, ⟨linked, same⟩ | ⟨dir, below⟩⟩
      · exact same ▸ stays top found linked
      · have here := is_dir_iff.mp dir
        have safe := held top .dir (lookup_followed found (not_linked_dir dir)) here
        rcases below with ⟨inner, _⟩ | ⟨same, _⟩
        · exact down top place safe inner
        · exact same ▸ safe
  · constructor
    · intro within loc found linked
      obtain ⟨plain, p, n, entry, whole⟩ := lookup_linked found linked
      obtain ⟨target, here⟩ := linked
      subst whole
      rw [remove_file_done entry plain here rfl] at within
      exact (touches_iff rfl).mp within _ List.mem_cons_self
    · intro stays
      cases run : w.removeFile path with
      | mk w' outcome =>
        cases outcome with
        | error e =>
          rw [remove_file_refused run]
          exact touches_refl w
        | ok done =>
          obtain ⟨p, n, node, entry, plain, here, other, same⟩ := remove_file_cases run
          subst same
          refine (touches_iff rfl).mpr fun place member => ?_
          rw [List.mem_singleton.mp member]
          cases node with
          | dir => cases other
          | file content =>
            exact held _ _ (entry_lookup entry plain (.inr (not_linked_file here))) here
          | link target => exact stays _ (entry_lookup entry plain (.inl rfl)) ⟨target, here⟩

end Entries

def MethodStays (out : Outside) (share : KeyedShare) (w : Disk) (request : Request) (path : DiskPath) :
    Prop :=
  match request.method with
  | .put => UploadStays (Inside w share) w path
  | .delete => (factsOf w path).isMiss = false → DeleteStays (Inside w share) w path
  | .mkcol => (factsOf w path).isMiss = true → request.body = [] → MkcolStays (Inside w share) w path
  | .copy => (factsOf w path).isMiss = false → ∀ plan,
      checkCopymove out.uri w path request.headers .copy share.directory = .ok plan →
      plan.CopyStays (Inside w share) w
  | .move => (factsOf w path).isMiss = false → ∀ plan,
      checkCopymove out.uri w path request.headers .move share.directory = .ok plan →
      plan.MoveStays (Inside w share) w
  | _ => True

/-- A request that is let through leads to places inside, as far as they can be told from the tree. -/
def WritesStay (out : Outside) (share : KeyedShare) (w : Disk) (request : Request) : Prop :=
  share.writable = true → ∀ path, extractText request.path share.directory = .ok (some path) →
    ((factsOf w (pathOf path)).isMiss = false → Contained w share path) →
    MethodStays out share w request (pathOf path)

def CopiesTree (out : Outside) (share : KeyedShare) (w : Disk) (request : Request) : Prop :=
  request.method = .copy ∧ ∃ path plan, extractText request.path share.directory = .ok (some path) ∧
    checkCopymove out.uri w (pathOf path) request.headers .copy share.directory = .ok plan ∧
    isDir w plan.path = true ∧ plan.depth ≠ .zero

section Methods
variable {out : Outside} {share : KeyedShare} {w w' : Disk} {request : Request} {path : Bytes}
  {fuel : Nat} {outcome : Outcome}

theorem inside_down (a b : List Name) (safe : Inside w share a) (below : a <+: b) : Inside w share b := by
  obtain ⟨dir, canonical, inner⟩ := safe
  exact ⟨dir, canonical, inner.trans below⟩

theorem contained_held (contained : Contained w share path) (loc : List Name) (node : Node Name UInt8)
    (found : w.lookup true (pathOf path) = .ok loc) (_ : w.tree.get loc = some node) :
    Inside w share loc := by
  obtain ⟨dir, loc', directory, canonical, inner⟩ := contained
  have same := (canonicalize_ok_iff.mp canonical).1
  rw [found] at same
  cases same
  exact ⟨dir, directory, inner⟩

theorem facts_dir (path : DiskPath) : (factsOf w path).isDir = isDir w path := by
  unfold factsOf isDir
  cases w.metadata path <;> rfl

theorem present_iff_exists (path : DiskPath) :
    (factsOf w path).isMiss = false ↔ pathExists w path = true := by
  unfold factsOf pathExists
  cases w.metadata path <;> simp [Except.isOk, Except.toBool]

theorem copymove_run {method : CopyMethod} {path : DiskPath} {plan : Plan}
    (checks : checkCopymove out.uri w path request.headers method share.directory = .ok plan) :
    copymove out share fuel w path request.headers method =
      (plan.execute out.listing method fuel w).map fun answer => (answer.1, copyOutcome answer.2) := by
  unfold copymove handleCopymove
  rw [checks]

theorem copymove_refused {method : CopyMethod} {path : DiskPath} {reply : Reply}
    (checks : checkCopymove out.uri w path request.headers method share.directory = .error reply) :
    copymove out share fuel w path request.headers method = some (w, copyOutcome reply) := by
  unfold copymove handleCopymove
  rw [checks]
  rfl

theorem method_cases (writable : share.writable = true)
    (run : handleMethod out share fuel w request path (factsOf w (pathOf path)) = some (w', outcome)) :
    w' = w ∨
      request.method = .put ∧ (handleUpload out share w (pathOf path) request.body).1 = w' ∨
      request.method = .delete ∧ (factsOf w (pathOf path)).isMiss = false ∧
        (handleDelete w (pathOf path) (isDir w (pathOf path))).1 = w' ∨
      request.method = .mkcol ∧ (factsOf w (pathOf path)).isMiss = true ∧ request.body = [] ∧
        (handleMkcol w (pathOf path)).1 = w' ∨
      ∃ method plan reply, request.method = CopyMethod.method method ∧
        (factsOf w (pathOf path)).isMiss = false ∧
        checkCopymove out.uri w (pathOf path) request.headers method share.directory = .ok plan ∧
        plan.execute out.listing method fuel w = some (w', reply) := by
  have executed {method : CopyMethod} (arm : request.method = CopyMethod.method method)
      (present : (factsOf w (pathOf path)).isMiss = false)
      (run : copymove out share fuel w (pathOf path) request.headers method = some (w', outcome)) :
      w' = w ∨ ∃ method plan reply, request.method = CopyMethod.method method ∧
        (factsOf w (pathOf path)).isMiss = false ∧
        checkCopymove out.uri w (pathOf path) request.headers method share.directory = .ok plan ∧
        plan.execute out.listing method fuel w = some (w', reply) := by
    cases checks : checkCopymove out.uri w (pathOf path) request.headers method share.directory with
    | error reply =>
      rw [copymove_refused checks] at run
      cases run
      exact .inl rfl
    | ok plan =>
      rw [copymove_run checks, Option.map_eq_some_iff] at run
      obtain ⟨⟨w₁, reply⟩, done, same⟩ := run
      cases same
      exact .inr ⟨method, plan, reply, arm, present, checks, done⟩
  by_cases writes : request.method.writes = true
  · unfold handleMethod at run
    cases arm : request.method with
    | put =>
      rw [arm] at run
      simp only [writable, Bool.not_true, Bool.false_and, Bool.or_self, Bool.false_eq_true,
        ↓reduceIte, Option.some.injEq] at run
      exact .inr (.inl ⟨rfl, congrArg Prod.fst run⟩)
    | delete =>
      rw [arm] at run
      simp only [writable, Bool.not_true, Bool.false_eq_true, ↓reduceIte] at run
      split at run
      · rename_i present
        rw [facts_dir, Option.some.injEq] at run
        exact .inr (.inr (.inl ⟨rfl, by simpa using present, congrArg Prod.fst run⟩))
      · cases run
        exact .inl rfl
    | mkcol =>
      rw [arm] at run
      simp only [writable, Bool.not_true, Bool.false_eq_true, ↓reduceIte] at run
      split at run
      · cases run
        exact .inl rfl
      · rename_i missing
        split at run
        · cases run
          exact .inl rfl
        · rename_i bare
          rw [Option.some.injEq] at run
          exact .inr (.inr (.inr (.inl ⟨rfl, by simpa using missing, by simpa using bare,
            congrArg Prod.fst run⟩)))
    | copy =>
      rw [arm] at run
      simp only [writable, Bool.not_true, Bool.false_eq_true, ↓reduceIte] at run
      split at run
      · cases run
        exact .inl rfl
      · rename_i there
        rcases @executed .copy arm (by simpa using there) run with kept | done
        · exact .inl kept
        · exact .inr (.inr (.inr (.inr (arm ▸ done))))
    | move =>
      rw [arm] at run
      simp only [writable, Bool.not_true, Bool.or_self, Bool.false_eq_true, ↓reduceIte] at run
      split at run
      · cases run
        exact .inl rfl
      · rename_i there
        rcases @executed .move arm (by simpa using there) run with kept | done
        · exact .inl kept
        · exact .inr (.inr (.inr (.inr (arm ▸ done))))
    | get | head | options | propfind | proppatch | lock | unlock | other =>
      rw [arm] at writes
      cases writes
  · obtain ⟨outcome', kept⟩ := @method_keeps out share fuel w request path _
      (.inr (Bool.not_eq_true _ ▸ writes))
    rw [kept] at run
    cases run
    exact .inl rfl

theorem copymove_arm {method : CopyMethod} {facts : Facts} (arm : request.method = CopyMethod.method method)
    (writable : share.writable = true) (present : facts.isMiss = false) :
    handleMethod out share fuel w request path facts =
      copymove out share fuel w (pathOf path) request.headers method := by
  unfold handleMethod
  cases method <;> simp [arm, CopyMethod.method, writable, present]

theorem method_answers
    (open_ : handleMethod out share fuel w request path (factsOf w (pathOf path)) = none) :
    share.writable = true ∧ request.method = .copy ∧ (factsOf w (pathOf path)).isMiss = false ∧
      ∃ plan, checkCopymove out.uri w (pathOf path) request.headers .copy share.directory = .ok plan := by
  cases writable : share.writable with
  | false =>
    obtain ⟨_, kept⟩ := @method_keeps out share fuel w request path _ (.inl writable)
    rw [kept] at open_
    cases open_
  | true =>
    have planned {method : CopyMethod}
        (open_ : copymove out share fuel w (pathOf path) request.headers method = none) :
        ∃ plan, checkCopymove out.uri w (pathOf path) request.headers method share.directory = .ok plan ∧
          plan.execute out.listing method fuel w = none := by
      cases checks : checkCopymove out.uri w (pathOf path) request.headers method share.directory with
      | error reply =>
        rw [copymove_refused checks] at open_
        cases open_
      | ok plan =>
        rw [copymove_run checks, Option.map_eq_none_iff] at open_
        exact ⟨plan, rfl, open_⟩
    unfold handleMethod at open_
    cases arm : request.method with
    | copy =>
      rw [arm] at open_
      simp only [writable, Bool.not_true, Bool.false_eq_true, ↓reduceIte] at open_
      split at open_
      · cases open_
      · rename_i there
        obtain ⟨plan, checks, _⟩ := planned open_
        exact ⟨rfl, rfl, by simpa using there, plan, checks⟩
    | move =>
      rw [arm] at open_
      simp only [writable, Bool.not_true, Bool.or_self, Bool.false_eq_true, ↓reduceIte] at open_
      split at open_
      · cases open_
      · obtain ⟨plan, _, ended⟩ := planned open_
        obtain ⟨_, run⟩ := @move_answers out.listing fuel plan w
        rw [run] at ended
        cases ended
    | put | delete | mkcol =>
      rw [arm] at open_
      dsimp only at open_
      repeat' split at open_
      all_goals cases open_
    | get | head | options | propfind | proppatch | lock | unlock | other =>
      rw [arm] at open_
      cases open_

end Methods

section Requests
variable {out : Outside} {share : KeyedShare} {w : Disk} {request : Request} {path : Bytes}

theorem handle_admits (found : extractText request.path share.directory = .ok (some path))
    (gate : (factsOf w (pathOf path)).isMiss = false → Contained w share path) (fuel : Nat) :
    handle out share fuel w request =
      handleMethod out share fuel w request path (factsOf w (pathOf path)) := by
  unfold handle
  rw [found]
  dsimp only
  split
  · rename_i stopped
    simp only [Bool.and_eq_true, Bool.not_eq_true'] at stopped
    obtain ⟨⟨_, present⟩, outside⟩ := stopped
    rw [root_contained_iff.mpr (gate present)] at outside
    cases outside
  · rfl

theorem handle_stops (closed : share.allowSymlinks = false)
    (stopped : ∀ path, extractText request.path share.directory = .ok (some path) →
      ¬ ((factsOf w (pathOf path)).isMiss = false → Contained w share path)) (fuel : Nat) :
    ∃ outcome, handle out share fuel w request = some (w, outcome) := by
  unfold handle
  split
  · exact ⟨_, rfl⟩
  · exact ⟨_, rfl⟩
  · rename_i path found
    obtain ⟨present, outside⟩ := Classical.not_imp.mp (stopped path found)
    dsimp only
    rw [if_pos]
    · exact ⟨_, rfl⟩
    · have outside : isRootContained w (pathOf path) (pathOf share.directory) = false :=
        Bool.eq_false_iff.mpr fun inside => outside (root_contained_iff.mp inside)
      rw [closed, present, outside]
      rfl

theorem copy_so_far {plan : Plan}
    (found : extractText request.path share.directory = .ok (some path))
    (gate : (factsOf w (pathOf path)).isMiss = false → Contained w share path)
    (writable : share.writable = true) (copy : request.method = .copy)
    (present : (factsOf w (pathOf path)).isMiss = false)
    (checks : checkCopymove out.uri w (pathOf path) request.headers .copy share.directory = .ok plan)
    (fuel : Nat) : diskSoFar out share fuel w request = plan.soFar out.listing fuel w := by
  unfold diskSoFar
  rw [handle_admits found gate, @copymove_arm out share w request path fuel .copy _ copy writable present,
    copymove_run checks, found]
  cases run : plan.execute out.listing .copy fuel w with
  | none =>
    dsimp only [Option.map]
    rw [checks]
  | some answer => exact (execute_so_far run).symm

theorem answered_so_far {fuel : Nat} {w' : Disk} {outcome : Outcome}
    (run : handle out share fuel w request = some (w', outcome)) :
    diskSoFar out share fuel w request = w' := by
  unfold diskSoFar
  rw [run]

theorem method_within (writable : share.writable = true)
    (found : extractText request.path share.directory = .ok (some path))
    (gate : (factsOf w (pathOf path)).isMiss = false → Contained w share path)
    (stays : MethodStays out share w request (pathOf path)) : WritesInside out share w request := by
  intro fuel
  have copied {plan : Plan} (copy : request.method = .copy)
      (present : (factsOf w (pathOf path)).isMiss = false) (checks : checkCopymove out.uri w
        (pathOf path) request.headers .copy share.directory = .ok plan) :
      TouchesWithin (Inside w share) w (diskSoFar out share fuel w request) := by
    obtain ⟨same, _, _, checked⟩ := check_copymove_ok checks
    have held := contained_held (gate present)
    rw [← same] at held
    unfold MethodStays at stays
    rw [copy] at stays
    rw [copy_so_far found gate writable copy present checks]
    exact copy_within (checked ((present_iff_exists _).mp present)) inside_down held
      (stays present plan checks)
  cases run : handle out share fuel w request with
  | none =>
    rw [handle_admits found gate] at run
    obtain ⟨_, copy, present, plan, checks⟩ := method_answers run
    exact copied copy present checks
  | some answer =>
    obtain ⟨w', outcome⟩ := answer
    have done := answered_so_far run
    rw [handle_admits found gate] at run
    unfold MethodStays at stays
    rcases method_cases writable run with kept | ⟨put, arm⟩ | ⟨delete, present, arm⟩ |
      ⟨mkcol, missing, bare, arm⟩ | ⟨method, plan, reply, arm, present, checks, executed⟩
    · rw [done, kept]
      exact touches_refl w
    · rw [put] at stays
      exact done ▸ arm ▸ upload_within_iff.mpr stays
    · rw [delete] at stays
      exact done ▸ arm ▸ (delete_within_iff inside_down (contained_held (gate present))).mpr (stays present)
    · rw [mkcol] at stays
      exact done ▸ arm ▸ mkcol_within_iff.mpr (stays missing bare)
    · cases method with
      | copy => exact copied arm present checks
      | move =>
        rw [arm] at stays
        exact done ▸ (move_within_iff executed).mpr (stays present plan checks)

/-- The condition is necessary for a request that is let through, for a directory that is copied with what is
    in it if every order of the listings is considered. -/
theorem method_reaches (writable : share.writable = true)
    (found : extractText request.path share.directory = .ok (some path))
    (gate : (factsOf w (pathOf path)).isMiss = false → Contained w share path)
    (whole : CopiesTree out share w request → ∀ listing,
      WritesInside { out with listing := listing } share w request)
    (within : WritesInside out share w request) : MethodStays out share w request (pathOf path) := by
  have answered {w' : Disk} {outcome : Outcome} (run : handleMethod out share 0 w request path
      (factsOf w (pathOf path)) = some (w', outcome)) : TouchesWithin (Inside w share) w w' := by
    rw [← handle_admits found gate] at run
    exact answered_so_far run ▸ within 0
  unfold MethodStays
  cases arm : request.method with
  | put =>
    have run : handleMethod out share 0 w request path (factsOf w (pathOf path)) =
        some (handleUpload out share w (pathOf path) request.body) := by
      unfold handleMethod
      simp [arm, writable]
    exact upload_within_iff.mp (answered run)
  | delete =>
    intro present
    have run : handleMethod out share 0 w request path (factsOf w (pathOf path)) =
        some (handleDelete w (pathOf path) (isDir w (pathOf path))) := by
      unfold handleMethod
      simp [arm, writable, present, facts_dir]
    exact (delete_within_iff inside_down (contained_held (gate present))).mp (answered run)
  | mkcol =>
    intro missing bare
    have run : handleMethod out share 0 w request path (factsOf w (pathOf path)) =
        some (handleMkcol w (pathOf path)) := by
      unfold handleMethod
      simp [arm, writable, missing, bare]
    exact mkcol_within_iff.mp (answered run)
  | copy =>
    intro present plan checks
    obtain ⟨same, _, _, checked⟩ := check_copymove_ok checks
    have held := contained_held (gate present)
    rw [← same] at held
    refine copy_reaches (checked ((present_iff_exists _).mp present)) inside_down held
      (fun dir deep listing fuel => ?_)
      fun fuel => copy_so_far found gate writable arm present checks fuel ▸ within fuel
    have reached := whole ⟨arm, path, plan, found, checks, dir, deep⟩ listing fuel
    rwa [@copy_so_far { out with listing := listing } share w request path plan found gate writable arm
      present checks fuel] at reached
  | move =>
    intro present plan checks
    obtain ⟨⟨w', reply⟩, run⟩ := @move_answers out.listing 0 plan w
    refine (move_within_iff run).mp (@answered w' (copyOutcome reply) ?_)
    rw [@copymove_arm out share w request path 0 .move _ arm writable present, copymove_run checks, run]
    rfl
  | get | head | options | propfind | proppatch | lock | unlock | other => trivial

theorem writes_stay_inside (closed : share.allowSymlinks = false) (stays : WritesStay out share w request) :
    WritesInside out share w request := by
  by_cases through : ∃ path, extractText request.path share.directory = .ok (some path) ∧
      ((factsOf w (pathOf path)).isMiss = false → Contained w share path)
  · obtain ⟨path, found, gate⟩ := through
    cases writable : share.writable with
    | true => exact method_within writable found gate (stays writable path found gate)
    | false =>
      intro fuel
      obtain ⟨_, kept⟩ := @handle_keeps out share fuel w request (.inl writable)
      rw [answered_so_far kept]
      exact touches_refl w
  · intro fuel
    obtain ⟨_, kept⟩ := @handle_stops out share w request closed
      (fun path found gate => through ⟨path, found, gate⟩) fuel
    rw [answered_so_far kept]
    exact touches_refl w

/-- Without symbolic links allowed, all that is written stays inside in every order of the listings if and
    only if the condition holds, and the order makes no difference unless a directory is copied with all that
    is in it. -/
theorem writes_inside_iff (closed : share.allowSymlinks = false) :
    ((∀ listing, WritesInside { out with listing := listing } share w request) ↔
      WritesStay out share w request) ∧
    (¬ CopiesTree out share w request →
      (WritesInside out share w request ↔ WritesStay out share w request)) := by
  refine ⟨⟨fun within writable path found gate => ?_, fun stays listing => ?_⟩, fun other =>
    ⟨fun within writable path found gate => ?_, writes_stay_inside closed⟩⟩
  · exact method_reaches writable found gate (fun _ => within) (within out.listing)
  · exact @writes_stay_inside { out with listing := listing } share w request closed stays
  · exact method_reaches writable found gate (fun tree => absurd tree other) within

end Requests

section Samples

def nestedDisk : Disk where
  tree := ((Tree.bare.put [] [101] .dir (by decide)).put [[101]] [103] (.file [1, 2, 3]) (by decide)
    |>.put [] [100] .dir (by decide)
    |>.put [[100]] [115] .dir (by decide)
    |>.put [[100], [115]] [107] (.link (pathOf (utf8 "/e/g"))) (by decide))
  cwd := []
  touched := []

def plainPut : Request := ⟨.put, utf8 "/g", [], [], [.ok [7]]⟩

def linkedPut : Request := ⟨.put, utf8 "/l/g", [], [], [.ok [7]]⟩

def linkedMove : Request := ⟨.move, utf8 "/f", [], [("destination", utf8 "/l/g")], []⟩

def nestedCopy : Request := ⟨.copy, utf8 "/s", [], [("destination", utf8 "/t")], []⟩

end Samples

/-- The upload of a new file is kept inside. -/
theorem plain_put_inside :
    (handle sampleOutside closedShare 0 outwardDisk plainPut).map (fun answer => answer.1.touched) =
        some [[[100], [103]], [[100], [103]]] ∧
      ∀ listing, WritesInside { sampleOutside with listing := listing } closedShare outwardDisk plainPut := by
  constructor
  · decide
  · apply (writes_inside_iff rfl).1.mpr
    intro _ path found _
    have named : extractText plainPut.path closedShare.directory = .ok (some (utf8 "/d/g")) := by decide
    have same : utf8 "/d/g" = path := Option.some.inj (Except.ok.inj (named.symm.trans found))
    subst same
    have upper : parent (pathOf (utf8 "/d/g")) = some (pathOf (utf8 "/d")) := by decide
    have there : (outwardDisk.symlinkMetadata (pathOf (utf8 "/d"))).isOk = true := by decide
    have unprepared (above : DiskPath) (w₁ : Disk) :
        ¬ Preparing outwardDisk (pathOf (utf8 "/d/g")) above w₁ := by
      rintro ⟨upper', missing, _⟩
      rw [upper] at upper'
      cases upper'
      rw [there] at missing
      cases missing
    constructor
    · intro above w₁ front p n preparing
      exact absurd preparing (unprepared above w₁)
    · intro w₁ p n onward opens
      rcases onward with same | ⟨above, preparing⟩
      · have place : outwardDisk.lookup true (pathOf (utf8 "/d/g")) = .ok [[100], [103]] := by decide
        rw [← same] at place
        rw [← Except.ok.inj (place.symm.trans opens.place)]
        exact ⟨[[100]], by decide, by decide⟩
      · exact absurd preparing (unprepared above w₁)

theorem not_inside {w : Disk} {request : Request} {fuel : Nat} {place : List Name}
    (run : ∃ answer, handle sampleOutside closedShare fuel w request = some answer ∧
      place ∈ answer.1.touched) (fresh : w.touched = [])
    (directory : w.canonicalize (pathOf closedShare.directory) = .ok [[100]])
    (outside : ¬ [[100]] <+: place) : ¬ WritesInside sampleOutside closedShare w request := by
  intro within
  obtain ⟨⟨w', outcome⟩, run, touched⟩ := run
  have extended : w'.touched = w.touched ++ w'.touched := by rw [fresh, List.nil_append]
  have reached := within fuel
  rw [answered_so_far run] at reached
  obtain ⟨dir, canonical, inner⟩ := (touches_iff extended).mp reached place touched
  rw [directory] at canonical
  cases canonical
  exact outside inner

/-- A new file below a link, a Destination below a link, and a link in a directory that is copied lead
    out of the directory, though all these paths are in it by their names. -/
theorem links_lead_outside :
    (NamedInside sampleOutside closedShare linkedPut ∧
        ¬ WritesInside sampleOutside closedShare outwardDisk linkedPut) ∧
      (NamedInside sampleOutside closedShare linkedMove ∧
        ¬ WritesInside sampleOutside closedShare outwardDisk linkedMove) ∧
      NamedInside sampleOutside closedShare nestedCopy ∧
        ¬ WritesInside sampleOutside closedShare nestedDisk nestedCopy := by
  refine ⟨⟨?_, ?_⟩, ⟨?_, ?_⟩, ?_, ?_⟩
  · exact ⟨⟨_, rfl, fun path found => by cases found; decide⟩, ⟨_, rfl, fun path none => by cases none⟩⟩
  · have run : ∃ answer, handle sampleOutside closedShare 0 outwardDisk linkedPut = some answer ∧
        [[101], [103]] ∈ answer.1.touched := ⟨_, rfl, by decide⟩
    exact not_inside run rfl (by decide) (by decide)
  · exact ⟨⟨_, rfl, fun path found => by cases found; decide⟩,
      ⟨_, rfl, fun path found => by cases found; decide⟩⟩
  · have run : ∃ answer, handle sampleOutside closedShare 0 outwardDisk linkedMove = some answer ∧
        [[101], [103]] ∈ answer.1.touched := ⟨_, rfl, by decide⟩
    exact not_inside run rfl (by decide) (by decide)
  · exact ⟨⟨_, rfl, fun path found => by cases found; decide⟩,
      ⟨_, rfl, fun path found => by cases found; decide⟩⟩
  · have run : ∃ answer, handle sampleOutside closedShare 9 nestedDisk nestedCopy = some answer ∧
        [[101], [103]] ∈ answer.1.touched := ⟨_, rfl, by decide⟩
    exact not_inside run rfl (by decide) (by decide)

end VestibuleWebdav
