import Vestibule.MappedFiles
import Vestibule.ReadOnlyShares

/-!
What a dav changes does not depend on what its files hold: COPY and MOVE, the directories above an
upload, DELETE and MKCOL commute with a function of the contents, where the order in which directories
are listed does not look at contents either.
-/
namespace VestibuleWebdav
open VestibuleRust LexicalMotion FileTree FileCalls FileCalls.World VestibulePaths VestibuleCopyMove
  VestibuleStreamer VestibuleRanges
variable {f : Bytes → Bytes}

/-- The orders of directories are the same when only contents differ. -/
structure Blind (out : Outside) : Prop where
  listing : ∀ (f : Bytes → Bytes) opened now loc seen,
    out.listing.next (opened.mapFiles f) (now.mapFiles f) loc seen = out.listing.next opened now loc seen
  walker : ∀ (f : Bytes → Bytes) t loc, out.walker.entries (t.mapFiles f) loc = out.walker.entries t loc

section Facts
variable {w : Disk} {path : DiskPath}

@[simp] theorem is_file_map (node : Node Name UInt8) : isFile (node.mapFile f) = isFile node := by
  cases node <;> rfl

@[simp] theorem path_exists_map : pathExists (w.mapFiles f) path = pathExists w path := by
  unfold pathExists
  rw [metadata_map]
  cases w.metadata path <;> rfl

@[simp] theorem is_dir_map : isDir (w.mapFiles f) path = isDir w path := by
  unfold isDir
  rw [metadata_map]
  cases w.metadata path with
  | error e => rfl
  | ok node => exact is_dir_node_map node

@[simp] theorem dest_is_file_map : destIsFile (w.mapFiles f) path = destIsFile w path := by
  unfold destIsFile
  rw [symlink_metadata_map, metadata_map]
  cases w.symlinkMetadata path with
  | error e => rfl
  | ok node =>
    cases node with
    | dir => rfl
    | file content => rfl
    | link target =>
      cases w.metadata path with
      | error e => rfl
      | ok node => exact is_file_map node

@[simp] theorem is_root_contained_map (directory : DiskPath) :
    isRootContained (w.mapFiles f) path directory = isRootContained w path directory := by
  unfold isRootContained
  rw [canonicalize_map, canonicalize_map]

theorem check_copymove_map (uri : Bytes → Option Bytes) (headers : Headers) (method : CopyMethod)
    (davPath : Bytes) : checkCopymove uri (w.mapFiles f) path headers method davPath =
      checkCopymove uri w path headers method davPath := by
  have present (dest : DiskPath) :
      ((w.symlinkMetadata dest).map (Node.mapFile f)).isOk = (w.symlinkMetadata dest).isOk := by
    cases w.symlinkMetadata dest <;> rfl
  unfold checkCopymove
  simp only [symlink_metadata_map, present, path_exists_map, dest_is_file_map]

end Facts

section Copying
variable {listing : DiskListing} {w : Disk}
  (blank : f [] = [])
  (ordered : ∀ opened now loc seen,
    listing.next (opened.mapFiles f) (now.mapFiles f) loc seen = listing.next opened now loc seen)

include ordered in
theorem copy_entries_map {opened : DiskTree} {loc : List Name}
    {body body' : Disk → Name → Bool → Option (Disk × Except FsError Unit)}
    (same : ∀ w name dir, body' (w.mapFiles f) name dir = (body w name dir).map (mapCall f)) (fuel : Nat)
    (w : Disk) (seen : List Name) (retval : Except FsError Unit) :
    copyEntries listing (opened.mapFiles f) loc body' fuel (w.mapFiles f) seen retval =
      (copyEntries listing opened loc body fuel w seen retval).map (mapCall f) := by
  induction fuel generalizing w seen retval with
  | zero => rfl
  | succ fuel ih =>
    unfold copyEntries
    simp only [map_files_tree, ordered]
    cases listing.next opened w.tree loc seen with
    | none => rfl
    | some name =>
      simp only [map_files_get]
      cases w.tree.get (loc ++ [name]) with
      | none => rfl
      | some node =>
        simp only [Option.map_some, is_dir_node_map, same]
        rcases body w name (isDirNode node) with _ | ⟨w₁, e | ⟨⟩⟩
        · rfl
        · exact ih w₁ (seen ++ [name]) (.error e)
        · exact ih w₁ (seen ++ [name]) retval

include blank ordered in
theorem do_copy_map (fuel : Nat) (w : Disk) (source topdest dest : DiskPath) (destIsDir : Bool)
    (depth : Depth) : doCopy listing fuel (w.mapFiles f) source topdest dest destIsDir depth =
      (doCopy listing fuel w source topdest dest destIsDir depth).map (mapCall f) := by
  induction fuel generalizing w source dest destIsDir with
  | zero => rfl
  | succ fuel ih =>
    unfold doCopy
    have made : (if destIsDir then ((w.mapFiles f).createDir dest).1 else w.mapFiles f) =
        (if destIsDir then (w.createDir dest).1 else w).mapFiles f := by
      split
      · rw [create_dir_map]
        rfl
      · rfl
    split
    · rfl
    · rw [metadata_map]
      cases w.metadata source with
      | error e => rfl
      | ok node =>
        simp only [Except.map, made]
        generalize (if destIsDir then (w.createDir dest).1 else w) = w₁
        cases node with
        | file content =>
          simp only [map_file_file, copy_file_map blank]
          split
          · cases fileName source with
            | none => rfl
            | some name => rfl
          · rfl
        | dir | link target =>
          simp only [map_file_dir, map_file_link, lookup_map]
          split
          · rfl
          · cases w₁.lookup true source with
            | error e => rfl
            | ok loc =>
              simp only [map_files_tree, map_files_is_dir]
              split
              · exact copy_entries_map ordered (fun w name dir => ih w _ _ dir) fuel w₁ [] (.ok ())
              · rfl

theorem make_room_map (plan : Plan) : plan.makeRoom (w.mapFiles f) = mapCall f (plan.makeRoom w) := by
  unfold Plan.makeRoom Plan.removes
  rw [is_dir_map, remove_dir_all_map]
  split
  · rfl
  · rfl

include blank ordered in
theorem execute_map (plan : Plan) (method : CopyMethod) (fuel : Nat) :
    plan.execute listing method fuel (w.mapFiles f) =
      (plan.execute listing method fuel w).map (mapCall f) := by
  unfold Plan.execute
  rw [make_room_map]
  rcases plan.makeRoom w with ⟨w₁, e | ⟨⟩⟩
  · rfl
  · simp only [map_call_pair]
    cases method with
    | copy =>
      simp only [do_copy_map blank ordered]
      rcases doCopy listing fuel w₁ plan.path plan.dest plan.dest (!plan.destIsFile) plan.depth with
        _ | ⟨w₂, e | ⟨⟩⟩
      · rfl
      · rfl
      · rfl
    | move =>
      simp only [rename_map]
      rcases w₁.rename plan.path plan.dest with ⟨w₂, e | ⟨⟩⟩
      · rfl
      · rfl

include blank ordered in
theorem handle_copymove_map (uri : Bytes → Option Bytes) (fuel : Nat) (path : DiskPath)
    (headers : Headers) (method : CopyMethod) (davPath : Bytes) :
    handleCopymove uri listing fuel (w.mapFiles f) path headers method davPath =
      (handleCopymove uri listing fuel w path headers method davPath).map (mapCall f) := by
  unfold handleCopymove
  rw [check_copymove_map]
  cases checkCopymove uri w path headers method davPath with
  | error reply => rfl
  | ok plan => exact execute_map blank ordered plan method fuel

end Copying

section Writing
variable {w : Disk} {path : DiskPath}

theorem create_dir_all_map (fuel : Nat) (w : Disk) (path : DiskPath) :
    createDirAll fuel (w.mapFiles f) path = mapCall f (createDirAll fuel w path) := by
  induction fuel generalizing w path with
  | zero => rfl
  | succ fuel ih =>
    unfold createDirAll
    split
    · rfl
    · simp only [create_dir_map]
      rcases w.createDir path with ⟨w₁, e | ⟨⟩⟩
      · cases e with
        | notFound =>
          simp only [map_call_pair]
          cases parent path with
          | none => rfl
          | some above =>
            simp only [ih]
            rcases createDirAll fuel w₁ above with ⟨w₂, e | ⟨⟩⟩
            · rfl
            · simp only [map_call_pair, create_dir_map]
              rcases w₂.createDir path with ⟨w₃, e | ⟨⟩⟩
              · simp only [map_call_pair, is_dir_map]
              · rfl
        | _ => simp only [map_call_pair, is_dir_map]
      · rfl

theorem ensure_path_parent_map :
    ensurePathParent (w.mapFiles f) path = mapCall f (ensurePathParent w path) := by
  unfold ensurePathParent
  cases parent path with
  | none => rfl
  | some above =>
    simp only [symlink_metadata_map]
    cases w.symlinkMetadata above with
    | ok node => rfl
    | error e => exact create_dir_all_map _ w above

theorem handle_delete_map (isDir : Bool) :
    handleDelete (w.mapFiles f) path isDir = mapCall f (handleDelete w path isDir) := by
  unfold handleDelete
  rw [remove_dir_all_map, remove_file_map]
  cases isDir with
  | true =>
    rcases w.removeDirAll path with ⟨w₁, e | ⟨⟩⟩
    · rfl
    · rfl
  | false =>
    rcases w.removeFile path with ⟨w₁, e | ⟨⟩⟩
    · rfl
    · rfl

theorem handle_mkcol_map : handleMkcol (w.mapFiles f) path = mapCall f (handleMkcol w path) := by
  unfold handleMkcol
  rw [create_dir_map]
  rcases w.createDir path with ⟨w₁, e | ⟨⟩⟩
  · rfl
  · rfl

variable {out : Outside} {share share' : KeyedShare} {request : Request} {text : Bytes}

theorem copymove_map (blank : f [] = []) (blind : Blind out) (same : share'.toShare = share.toShare)
    (fuel : Nat) (headers : Headers) (method : CopyMethod) :
    copymove out share' fuel (w.mapFiles f) path headers method =
      (copymove out share fuel w path headers method).map (mapCall f) := by
  unfold copymove
  rw [handle_copymove_map blank (blind.listing f), same]
  cases handleCopymove out.uri out.listing fuel w path headers method share.directory with
  | none => rfl
  | some answer => rfl

theorem handle_upload_map (blank : f [] = []) (body : Body)
    (stored : uploaded out share' body = (f (uploaded out share body).1, (uploaded out share body).2)) :
    handleUpload out share' (w.mapFiles f) path body = mapCall f (handleUpload out share w path body) := by
  unfold handleUpload
  rw [ensure_path_parent_map]
  rcases ensurePathParent w path with ⟨w₁, e | ⟨⟩⟩
  · rfl
  · simp only [map_call_pair, open_truncated_map blank, stored]
    rcases w₁.openTruncated path with ⟨w₂, e | ⟨p, n⟩⟩
    · rfl
    · simp only [map_call_pair]
      have put := put_at_map (f := f) (w := w₂) p n (.file (uploaded out share body).1)
      rw [map_file_file] at put
      rw [put]
      rcases w₂.putAt p n (.file (uploaded out share body).1) with ⟨w₃, e | ⟨⟩⟩
      · rfl
      · rfl

theorem facts_map : ∃ size, factsOf (w.mapFiles f) path = { factsOf w path with size := size } := by
  unfold factsOf
  rw [metadata_map]
  cases w.metadata path with
  | error e => exact ⟨0, rfl⟩
  | ok node =>
    refine ⟨contentLength (node.mapFile f), ?_⟩
    simp only [Except.map, is_dir_node_map, is_file_map]

/-- The arms that write. A share lets everything be uploaded or nothing, so the size of what is
    replaced makes no difference. -/
theorem method_map (blank : f [] = []) (blind : Blind out) (same : share'.toShare = share.toShare)
    (stored : request.method = .put → uploaded out share' request.body =
      (f (uploaded out share request.body).1, (uploaded out share request.body).2))
    (writes : request.method.writes = true) (fuel : Nat) (facts : Facts) (size : Nat) :
    handleMethod out share' fuel (w.mapFiles f) request text { facts with size := size } =
      (handleMethod out share fuel w request text facts).map (mapCall f) := by
  have writable : share'.writable = share.writable := congrArg Share.writable same
  unfold handleMethod
  simp only [writable]
  cases method : request.method with
  | get | head | options | propfind | proppatch | lock | unlock | other =>
    rw [method] at writes
    cases writes
  | put =>
    dsimp only
    cases share.writable with
    | false => rfl
    | true =>
      simp only [Bool.not_true, Bool.false_and, Bool.or_false, Bool.false_eq_true, ↓reduceIte]
      rw [handle_upload_map blank request.body (stored method)]
      rfl
  | delete =>
    dsimp only
    split
    · rfl
    · split
      · rw [handle_delete_map]
        rfl
      · rfl
  | mkcol =>
    dsimp only
    repeat' split
    · rfl
    · rfl
    · rfl
    · rw [handle_mkcol_map]
      rfl
  | copy =>
    dsimp only
    repeat' split
    · rfl
    · rfl
    · exact copymove_map blank blind same fuel request.headers .copy
  | move =>
    dsimp only
    repeat' split
    · rfl
    · rfl
    · exact copymove_map blank blind same fuel request.headers .move

theorem handle_map (blank : f [] = []) (blind : Blind out) (same : share'.toShare = share.toShare)
    (stored : request.method = .put → uploaded out share' request.body =
      (f (uploaded out share request.body).1, (uploaded out share request.body).2)) (fuel : Nat) :
    (handle out share' fuel (w.mapFiles f) request).map Prod.fst =
      (handle out share fuel w request).map fun answer => answer.1.mapFiles f := by
  by_cases writes : request.method.writes = true
  · have directory : share'.directory = share.directory := congrArg Share.directory same
    have symlinks : share'.allowSymlinks = share.allowSymlinks := congrArg Share.allowSymlinks same
    unfold handle
    rw [directory, symlinks]
    cases extractText request.path share.directory with
    | error p => rfl
    | ok found =>
      cases found with
      | none => rfl
      | some text =>
        obtain ⟨size, facts⟩ := @facts_map f w (pathOf text)
        simp only [facts, is_root_contained_map]
        split
        · rfl
        · rw [method_map blank blind same stored writes fuel]
          cases handleMethod out share fuel w request text (factsOf w (pathOf text)) <;> rfl
  · have reading : request.method.writes = false := Bool.eq_false_iff.mpr writes
    obtain ⟨outcome, kept⟩ := @handle_keeps out share fuel w request (.inr reading)
    obtain ⟨outcome', kept'⟩ := @handle_keeps out share' fuel (w.mapFiles f) request (.inr reading)
    rw [kept, kept']
    rfl

end Writing
end VestibuleWebdav
