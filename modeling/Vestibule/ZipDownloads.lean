import Vestibule.PathItems
import Vestibule.RandomAccess

/-!
The archive of a directory, and the sizes that are announced, against what GET streams of the files.
-/
namespace VestibuleWebdav
open VestibuleRust LexicalMotion FileTree FileCalls World LinkedLookups LinkedCalls PlainLookups
  VestibulePaths VestibuleCopyMove VestibuleStreamer VestibuleStorage VestibuleParts VestibuleAccess
  VestibuleRanges

def regularBelow (t : DiskTree) (loc names : List Name) : Bool :=
  match t.get (loc ++ names) with
  | some (.file _) => validUtf8 (joinSegments names)
  | _ => false

def wholeBody (env : Surroundings) (key : Option Key) (stored : Bytes) : Yielded :=
  (sendWhole env false key stored stored.length .default).body

/-- The entry has the relative path of the file as its name, and the bytes that GET streams of it to
    the end. -/
structure ArchivedAs (out : Outside) (w : Disk) (share : KeyedShare) (dir : Bytes)
    (loc names : List Name) (entry : ZipEntry) : Prop where
  path : entry.path = names.foldl joinText dir
  name : entry.name = joinSegments names
  whole : ∃ stored, w.tree.get (loc ++ names) = some (.file stored) ∧
    Delivers (wholeBody out.toSurroundings share.key stored) entry.bytes
  sent : ∀ headers sent, handleSendFile out.toSurroundings w (pathOf entry.path) headers false
    share.key = .ok sent → sent.status = 200 → Delivers sent.body entry.bytes

section Readers
variable (aead : StreamAead) (key : Key) (stored : Bytes)

structure ReadersAgree : Prop where
  bytes : (copyTo aead key stored).bytes = (intoStream aead key stored).bytes
  ends : (∃ count, (copyTo aead key stored).result = some (.ok count)) ↔
    (intoStream aead key stored).ending = some .done
  fails : (∃ e, (copyTo aead key stored).result = some (.error e)) ↔
    ∃ e, (intoStream aead key stored).ending = some (.error e)

theorem readers_agree : ReadersAgree aead key stored := by
  cases found : retrieveNonce stored with
  | none =>
    have written : copyTo aead key stored = ⟨[], some (.error .unexpectedEof)⟩ := by simp [copyTo, found]
    have stream : intoStream aead key stored = ⟨[], some (.error .unexpectedEof)⟩ := by
      simp [intoStream, found]
    constructor <;> simp [written, stream, Yielded.bytes]
  | some parts =>
    obtain ⟨nonce, rest⟩ := parts
    have same := retrieve_nonce_some found
    subst same
    obtain ⟨plains, ending, _, stream, written⟩ := readers_open aead key nonce rest
    cases ending <;> constructor <;> simp [written, stream, Yielded.bytes, readerEnd, writerEnd]

end Readers

section Files
variable {out : Outside} {w : Disk} {share : KeyedShare} {dir : Bytes} {loc names : List Name}

theorem archived_streams {stored : Bytes} (whole : (archived out share.key stored).2 = true) :
    Delivers (wholeBody out.toSurroundings share.key stored) (archived out share.key stored).1 := by
  unfold wholeBody sendWhole archived at *
  cases keyed : share.key with
  | none => exact stream_whole_delivers stored
  | some key =>
    rw [keyed] at whole
    have agree := readers_agree out.aead key stored
    dsimp only at whole
    split at whole
    · rename_i count written
      exact ⟨agree.bytes.symm, agree.ends.mp ⟨count, written⟩⟩
    · cases whole

theorem send_range_status {env : Surroundings} {headOnly : Bool} {key : Option Key} {stored : Bytes}
    {size : Nat} {res sent : SentFile} {range : RangeValue}
    (run : sendRange env headOnly key stored size res range = .ok sent) : sent.status ≠ 200 := by
  unfold sendRange at run
  repeat' split at run
  all_goals cases run
  all_goals simp

theorem sent_whole {path : DiskPath} {headers : Headers} {sent : SentFile} {stored : Bytes}
    (found : w.lookup true path = .ok loc) (file : w.tree.get loc = some (.file stored))
    (run : handleSendFile out.toSurroundings w path headers false share.key = .ok sent)
    (success : sent.status = 200) : sent.body = wholeBody out.toSurroundings share.key stored := by
  unfold handleSendFile at run
  rw [found] at run
  simp only [file] at run
  obtain ⟨validators, _, run⟩ := bind_ok_iff.mp run
  split at run
  · cases run
    cases success
  · rename_i used _
    dsimp only at run
    split at run
    · cases run
    · obtain ⟨size, _, run⟩ := bind_ok_iff.mp run
      split at run
      · exact absurd success (send_range_status run)
      · cases run
        unfold wholeBody sendWhole
        cases share.key <;> rfl

theorem sent_length {path : DiskPath} {headers : Headers} {headOnly : Bool} {sent : SentFile}
    {stored : Bytes} (found : w.lookup true path = .ok loc) (file : w.tree.get loc = some (.file stored))
    (run : handleSendFile out.toSurroundings w path headers headOnly share.key = .ok sent)
    (success : sent.status = 200) :
    ∃ size, announcedSize out.target share.key stored.length = .ok size ∧
      sent.contentLength = some (toString size) := by
  unfold handleSendFile at run
  rw [found] at run
  simp only [file] at run
  obtain ⟨validators, _, run⟩ := bind_ok_iff.mp run
  split at run
  · cases run
    cases success
  · dsimp only at run
    split at run
    · cases run
    · obtain ⟨size, announced, run⟩ := bind_ok_iff.mp run
      split at run
      · exact absurd success (send_range_status run)
      · cases run
        refine ⟨size, announced, ?_⟩
        unfold sendWhole
        cases headOnly <;> cases share.key <;> rfl

theorem announced_streams {env : Surroundings} (target : Target) {key : Option Key} {stored : Bytes}
    (fits : stored.length < u64Limit) (ends : (wholeBody env key stored).ending = some .done) :
    announcedSize target key stored.length = .ok (wholeBody env key stored).bytes.length := by
  cases key with
  | none => exact congrArg Except.ok (congrArg List.length (stream_whole_delivers stored).1.symm)
  | some key => exact congrArg liftPanic (decrypted_size_delivered target fits ends)

/-- The Content-Length of GET and HEAD and the size in a listing are the number of bytes that GET streams
    of the file, if it streams to the end. -/
theorem lengths_delivered {path : Bytes} {stored : Bytes} (fits : stored.length < u64Limit)
    (found : w.lookup true (pathOf path) = .ok loc) (file : w.tree.get loc = some (.file stored))
    (ends : (wholeBody out.toSurroundings share.key stored).ending = some .done) :
    (∀ headers headOnly sent,
      handleSendFile out.toSurroundings w (pathOf path) headers headOnly share.key = .ok sent →
      sent.status = 200 → sent.contentLength =
        some (toString (wholeBody out.toSurroundings share.key stored).bytes.length)) ∧
    (∀ headers sent,
      handleSendFile out.toSurroundings w (pathOf path) headers false share.key = .ok sent →
      sent.status = 200 → sent.body = wholeBody out.toSurroundings share.key stored) ∧
    ∀ base item, toPathitem out w share path base = .ok (some item) →
      item.size = some (wholeBody out.toSurroundings share.key stored).bytes.length := by
  have announced := announced_streams out.target fits ends
  refine ⟨fun headers headOnly sent run success => ?_, fun headers sent run success => ?_,
    fun base item shown => ?_⟩
  · obtain ⟨size, same, length⟩ := sent_length found file run success
    rw [announced] at same
    cases same
    exact length
  · exact sent_whole found file run success
  · obtain ⟨rel, place, node, itself, mtime, size, _, seen, _, sized, rfl⟩ := pathitem_some shown
    obtain ⟨loc', found', kind⟩ := stat_ok_iff.mp seen.followed
    rw [found] at found'
    cases found'
    rw [file] at kind
    cases kind
    have size_of : sizeOf out share (.file stored) =
        (announcedSize out.target share.key stored.length).map some := rfl
    rw [size_of, announced] at sized
    exact (Except.ok.inj sized).symm

theorem archives_file (found : w.lookup true (pathOf dir) = .ok loc) (isDir : w.tree.isDir loc = true)
    (some_left : names ≠ []) {stored : Bytes} (file : w.tree.get (loc ++ names) = some (.file stored))
    (whole : (archived out share.key stored).2 = true) :
    ArchivedAs out w share dir loc names
      ⟨names.foldl joinText dir, joinSegments names, (archived out share.key stored).1⟩ := by
  have there : w.tree.get (loc ++ names) ≠ none := by
    rw [file]
    exact Option.some_ne_none _
  have place := @below_lookup w loc dir names found isDir some_left there true
    (.inr (not_linked_file file))
  constructor
  · rfl
  · rfl
  · exact ⟨stored, file, archived_streams whole⟩
  · intro headers sent run success
    rw [sent_whole place file run success]
    exact archived_streams whole

theorem zip_loop_archives (found : w.lookup true (pathOf dir) = .ok loc)
    (isDir : w.tree.isDir loc = true) {walked : List (List Name)}
    (below : ∀ names ∈ walked, names ≠ [] ∧ w.tree.get (loc ++ names) ≠ none)
    (closed : (zipLoop out w share dir (walked.map (·.foldl joinText dir))).2 = true) :
    List.Forall₂ (ArchivedAs out w share dir loc) (walked.filter (regularBelow w.tree loc))
      (zipLoop out w share dir (walked.map (·.foldl joinText dir))).1 := by
  induction walked with
  | nil => exact .nil
  | cons names rest ih =>
    obtain ⟨some_left, there⟩ := below names List.mem_cons_self
    have later := ih fun other member => below other (List.mem_cons_of_mem _ member)
    obtain ⟨node, here⟩ := Option.ne_none_iff_exists'.mp there
    have status : w.symlinkMetadata (pathOf (names.foldl joinText dir)) = .ok node :=
      stat_ok_iff.mpr ⟨_, below_lookup found isDir some_left there (.inl rfl), here⟩
    have stripped := strip_prefix_entries dir (below_legal there) some_left
    rw [List.map_cons, zipLoop, status] at closed ⊢
    cases node with
    | dir =>
      rw [List.filter_cons_of_neg (by simp [regularBelow, here])]
      exact later closed
    | link target =>
      rw [List.filter_cons_of_neg (by simp [regularBelow, here])]
      exact later closed
    | file stored =>
      have read : w.metadata (pathOf (names.foldl joinText dir)) = .ok (.file stored) :=
        stat_ok_iff.mpr ⟨_, below_lookup found isDir some_left there (.inr (not_linked_file here)), here⟩
      simp only [stripped, Option.filter_some, read] at closed ⊢
      by_cases utf : validUtf8 (joinSegments names) = true
      · rw [List.filter_cons_of_pos (by simp [regularBelow, here, utf])]
        simp only [utf, ↓reduceIte] at closed ⊢
        by_cases whole : (archived out share.key stored).2 = true
        · simp only [whole, ↓reduceIte] at closed ⊢
          exact .cons (archives_file found isDir some_left here whole) (later closed)
        · simp only [whole, Bool.false_eq_true, ↓reduceIte] at closed
      · rw [List.filter_cons_of_neg (by simp [regularBelow, here, utf])]
        simp only [utf, Bool.false_eq_true, ↓reduceIte] at closed ⊢
        exact later closed

end Files

section Archive
variable {out : Outside} {w : Disk} {share : KeyedShare} {dir : Bytes} {loc names : List Name}

theorem archived_names {files : List (List Name)} {entries : List ZipEntry}
    (matched : List.Forall₂ (ArchivedAs out w share dir loc) files entries) :
    entries.map ZipEntry.name = files.map joinSegments := by
  induction matched with
  | nil => rfl
  | cons first later ih => rw [List.map_cons, List.map_cons, first.name, ih]

theorem regular_below_there (isDir : w.tree.isDir loc = true)
    (regular : regularBelow w.tree loc names = true) :
    names ≠ [] ∧ w.tree.get (loc ++ names) ≠ none := by
  unfold regularBelow at regular
  split at regular
  · rename_i stored here
    constructor
    · intro bare
      rw [bare, List.append_nil, is_dir_iff.mp isDir] at here
      cases here
    · rw [here]
      exact Option.some_ne_none _
  · cases regular

end Archive

/-- A closed archive has one entry for each regular file below the directory, under its relative path
    and with the bytes that GET streams; and on any bytes the reader of the archive and that of GET
    agree. -/
theorem archive_agrees_with_get (out : Outside) (w : Disk) (share : KeyedShare) (dir : Bytes) :
    ((zipDir out w share dir).2 = true → ∀ loc, w.lookup true (pathOf dir) = .ok loc →
      w.tree.isDir loc = true → ∃ files : List (List Name), files.Nodup ∧
        (∀ names, names ∈ files ↔ regularBelow w.tree loc names = true) ∧
        List.Forall₂ (ArchivedAs out w share dir loc) files (zipDir out w share dir).1 ∧
        ((zipDir out w share dir).1.map ZipEntry.name).Nodup) ∧
    ∀ key stored, ReadersAgree out.aead key stored := by
  refine ⟨fun closed loc found isDir => ?_, fun key stored => readers_agree out.aead key stored⟩
  have walked : zipDir out w share dir =
      zipLoop out w share dir ((out.walker.entries w.tree loc).map (·.foldl joinText dir)) := by
    unfold zipDir walkDir
    rw [found]
    simp only [isDir, ↓reduceIte, List.map_map]
    rfl
  rw [walked] at closed ⊢
  have matched := zip_loop_archives found isDir (fun names member => out.walker.sound _ _ _ member) closed
  have once := (out.walker.once w.tree loc).filter (regularBelow w.tree loc)
  refine ⟨_, once, fun names => ?_, matched, ?_⟩
  · rw [List.mem_filter]
    constructor
    · exact And.right
    · intro regular
      obtain ⟨some_left, there⟩ := regular_below_there isDir regular
      exact ⟨out.walker.complete _ _ _ some_left there, regular⟩
  · rw [archived_names matched]
    apply once.map_on
    intro names member others member' same
    obtain ⟨some_left, there⟩ := regular_below_there isDir (List.mem_filter.mp member).2
    obtain ⟨some_left', there'⟩ := regular_below_there isDir (List.mem_filter.mp member').2
    exact joined_injective (below_legal there) (below_legal there') some_left some_left' same

/-- The archive of a directory with a file and a link. -/
theorem sample_archive_agrees :
    (∃ files : List (List Name), files.Nodup ∧
      (∀ names, names ∈ files ↔ regularBelow outwardDisk.tree [[100]] names = true) ∧
      List.Forall₂ (ArchivedAs sampleOutside outwardDisk closedShare (utf8 "/d") [[100]]) files
        (zipDir sampleOutside outwardDisk closedShare (utf8 "/d")).1 ∧
      ((zipDir sampleOutside outwardDisk closedShare (utf8 "/d")).1.map ZipEntry.name).Nodup) ∧
    ReadersAgree sampleOutside.aead sampleKey [1, 2, 3] := by
  obtain ⟨archives, readers⟩ :=
    archive_agrees_with_get sampleOutside outwardDisk closedShare (utf8 "/d")
  exact ⟨archives (by decide) [[100]] (by decide) (by decide), readers sampleKey [1, 2, 3]⟩

end VestibuleWebdav
