import Vestibule.CopyResult
import Vestibule.DirectCopies
import Vestibule.DocumentCopies
import Vestibule.StoreRuns

/-!
COPY against the store: with fuel enough a copy in the disk ends as the copy in the store says, and so does
every run of requests in which some copy. What was uploaded or copied is read back after any of them.
-/
namespace VestibuleWebdav
open VestibuleRust LexicalMotion FileTree FileCalls World PlainLookups PlainCalls LinkedLookups LinkedCalls
  DirectPaths DocumentStore SealedChunks VestibulePaths VestibuleCopyMove VestibuleStreamer
  VestibuleStorage VestibuleParts VestibuleRanges
open StepRuns (Ends Lasting ends_always ends_unique lasting_ends)

section Pieces
variable {aead : StreamAead} {share : KeyedShare} {d : List Name} {w w' : Disk} {s : Store Name Bytes}
  {source dest : Address Name} {path : List Name}

theorem ready_made (rooted : Rooted share d) (represents : Represents aead share.key d w s)
    (legal : Legal path) (slash : Bool) :
    Updates aead share.key d w (made w (direct (d ++ path) slash) true) (s.ready path) := by
  obtain ⟨makes, refuses⟩ := dir_made rooted represents legal slash
  unfold made Store.ready
  rw [if_pos rfl]
  by_cases free : s.Free path
  · obtain ⟨w', run, updates⟩ := makes free
    rw [run, if_pos free]
    exact updates
  · obtain ⟨e, failed⟩ := refuses free
    rw [failed, if_neg free]
    exact updates_refl represents

theorem carried_shows (represents : Represents aead share.key d w s) (source dest rest : List Name) :
    Shows aead share.key (carried w (d ++ source) (d ++ dest) rest) (s.copied source dest rest) := by
  unfold carried Store.copied
  simp only [List.append_assoc, List.prefix_append_right_inj]
  split
  · exact .missing
  · exact represents.same _

theorem fileless_iff (represents : Represents aead share.key d w s) {source dest : List Name} :
    Fileless w (d ++ source) (d ++ dest) [] ↔
      ∀ rest content, s.copied source dest rest ≠ some (.document content) := by
  constructor
  · intro fileless rest content document
    have shows := carried_shows represents source dest rest
    rw [document] at shows
    obtain ⟨stored, file, _⟩ := shows_document shows
    exact fileless rest stored file
  · intro none_copied rest stored file
    have shows := carried_shows represents source dest rest
    rw [show carried w (d ++ source) (d ++ dest) rest = some (.file stored) from file] at shows
    obtain ⟨content, document, _⟩ := shows_file shows
    exact none_copied rest content document

theorem updates_carried (rooted : Rooted share d) (represents : Represents aead share.key d w s)
    {source dest : List Name} (free : s.Free dest)
    (carries : Carried w w w' (d ++ source) (d ++ dest) []) :
    Updates aead share.key d w w' (s.graft source dest free) := by
  have below := carries.below
  have elsewhere := carries.elsewhere
  simp only [List.append_nil, List.nil_append] at below elsewhere
  refine ⟨⟨?_, fun place => ?_⟩, fun place outside => elsewhere place fun inside =>
    outside (List.IsPrefix.trans (List.prefix_append d dest) inside)⟩
  · rw [is_dir_iff, elsewhere _ (above_not_below rooted.inside)]
    exact is_dir_iff.mp represents.above
  · change Shows aead share.key _ (if dest <+: place then s.copied source dest (place.drop dest.length)
      else s.get place)
    by_cases inside : dest <+: place
    · obtain ⟨rest, whole⟩ := inside
      subst whole
      rw [if_pos (List.prefix_append dest rest), List.drop_left, ← List.append_assoc, below]
      exact carried_shows represents source dest rest
    · rw [if_neg inside, elsewhere _ (by rwa [List.prefix_append_right_inj])]
      exact represents.same place

theorem document_placed (rooted : Rooted share d) (represents : Represents aead share.key d w s)
    {origin above : List Name} {n : Name} {content : Bytes} (here : s.get origin = some (.document content))
    (apart : origin ≠ above ++ [n]) (named : FileName.legal n = true) :
    ∃ w' r, w.copyFile (direct (d ++ origin) false) (direct (d ++ above ++ [n]) false) = (w', r) ∧
      Updates aead share.key d w w' (s.place above n content).1 ∧
      (r = .ok () ↔ (s.place above n content).2 = true) := by
  have shows := represents.same origin
  rw [here] at shows
  obtain ⟨stored, file, keeps⟩ := shows_document shows
  have clear := represents_clear represents (above ++ [n])
  have dir := @represents_dir aead share.key d (above ++ [n]) w s represents
  rw [← List.append_assoc] at clear dir
  unfold Store.place
  by_cases fits : s.get above = some .collection ∧ s.get (above ++ [n]) ≠ some .collection
  · have fits' : w.tree.Writable (d ++ above) n :=
      ⟨(represents_dir represents).mpr fits.1, named, by rw [← Bool.not_eq_true, dir]; exact fits.2⟩
    obtain ⟨w', run, puts⟩ := direct_copy_file (represents_clear represents origin) file clear fits'
      (by rw [List.append_assoc]; exact fun same => apart (List.append_cancel_left same))
    rw [List.append_assoc] at puts
    rw [dif_pos fits]
    exact ⟨w', _, run, updates_puts represents rooted.inside puts (.file keeps) fun place => rfl,
      iff_of_true rfl rfl⟩
  · have refused : ∃ e, w.copyFile (direct (d ++ origin) false) (direct (d ++ above ++ [n]) false) =
        (w, .error e) := by
      apply direct_copy_file_refused _ clear
      rintro _ ⟨parent, _, other⟩
      refine fits ⟨(represents_dir represents).mp parent, fun collection => ?_⟩
      rw [dir.mpr collection] at other
      cases other
    obtain ⟨e, failed⟩ := refused
    rw [dif_neg fits]
    exact ⟨w, _, failed, updates_refl represents, iff_of_false (by simp) (by simp)⟩

end Pieces

section Copies
variable {aead : StreamAead} {share : KeyedShare} {d : List Name} {w : Disk} {s : Store Name Bytes}
  {source dest : Address Name} {listing : DiskListing}

def CopyEnds (listing : DiskListing) (w : Disk) (d : List Name) (source dest : Address Name) (destIsDir : Bool)
    (depth : Depth) (w' : Disk) (r : Except FsError Unit) : Prop :=
  Ends (fun fuel => doCopy listing fuel w (direct (d ++ source.path) source.slash)
    (direct (d ++ dest.path) dest.slash) (direct (d ++ dest.path) dest.slash) destIsDir depth) (w', r)

theorem one_call {destIsDir : Bool} {depth : Depth} {w' : Disk} {r : Except FsError Unit}
    (run : ∀ fuel, doCopy listing (fuel + 1) w (direct (d ++ source.path) source.slash)
      (direct (d ++ dest.path) dest.slash) (direct (d ++ dest.path) dest.slash) destIsDir depth =
        some (w', r)) : CopyEnds listing w d source dest destIsDir depth w' r := by
  refine ⟨1, fun fuel plenty => ?_⟩
  obtain ⟨fuel, rfl⟩ : ∃ rest, fuel = rest + 1 := ⟨fuel - 1, by omega⟩
  exact run fuel

theorem document_copied (rooted : Rooted share d) (represents : Represents aead share.key d w s)
    (listing : DiskListing) (depth : Depth) {content : Bytes}
    (seen : s.seen source = some (.document content))
    (legal : Legal source.path) (legal' : Legal dest.path) (onto : source.path ≠ dest.path)
    (aside : source.path.dropLast ≠ dest.path) :
    ∃ w' r, CopyEnds listing w d source dest (!(s.seen dest).any Item.isDocument) depth w' r ∧
      Updates aead share.key d w w' (s.copyDocument source dest content).1 ∧
      (r = .ok () ↔ (s.copyDocument source dest content).2 = true) := by
  obtain ⟨here, plain⟩ := seen_document.mp seen
  obtain ⟨stored, _, file, _⟩ := seen_file_stat represents seen
  obtain ⟨p, n, whole⟩ := (List.eq_nil_or_concat source.path).resolve_left fun bare => by
    rw [source.top bare] at plain
    cases plain
  rw [List.concat_eq_append] at whole
  have differs : d ++ source.path ≠ d ++ dest.path := fun same => onto (List.append_cancel_left same)
  have one (isDir : Bool) (fuel : Nat) : doCopy listing (fuel + 1) w (direct (d ++ source.path) source.slash)
      (direct (d ++ dest.path) dest.slash) (direct (d ++ dest.path) dest.slash) isDir depth =
        some ((made w (direct (d ++ dest.path) dest.slash) isDir).copyFile (direct (d ++ source.path) false)
          (fileTarget (direct (d ++ dest.path) dest.slash) isDir n)) := by
    rw [plain]
    rw [whole, ← List.append_assoc] at differs file ⊢
    exact do_copy_direct_file differs (file_clear file) file
  unfold Store.copyDocument
  by_cases kind : (s.seen dest).any Item.isDocument = true
  · obtain ⟨other, there⟩ : ∃ other, s.seen dest = some (.document other) := by
      cases found : s.seen dest with
      | none =>
        rw [found] at kind
        cases kind
      | some item =>
        cases item with
        | document other => exact ⟨other, rfl⟩
        | collection =>
          rw [found] at kind
          cases kind
    have plain' := (seen_document.mp there).2
    obtain ⟨q, k, whole'⟩ := (List.eq_nil_or_concat dest.path).resolve_left fun bare => by
      rw [dest.top bare] at plain'
      cases plain'
    rw [List.concat_eq_append] at whole'
    obtain ⟨w', r, run, updates, done⟩ := document_placed rooted represents here (whole' ▸ onto)
      (legal' k (by simp [whole']))
    rw [if_pos kind, kind, whole', List.getLast?_concat, List.dropLast_concat]
    refine ⟨w', r, one_call fun fuel => (one false fuel).trans ?_, updates, done⟩
    rw [← run, plain', whole', ← List.append_assoc]
    rfl
  · have updates₁ := ready_made rooted represents legal' dest.slash
    have still : (s.ready dest.path).get source.path = some (.document content) := by
      rw [ready_get, if_neg fun both => onto both.2, here]
    have apart : source.path ≠ dest.path ++ [n] := by
      intro same
      rw [same, List.dropLast_concat] at aside
      exact aside rfl
    obtain ⟨w', r, run, updates, done⟩ := document_placed rooted updates₁.represents still apart
      (legal n (by simp [whole]))
    have other := Bool.eq_false_iff.mpr kind
    rw [if_neg kind, other, whole, List.getLast?_concat]
    refine ⟨w', r, one_call fun fuel => (one true fuel).trans ?_, updates_trans updates₁ updates, done⟩
    rw [← run, ← @child_direct _ _ dest.slash]
    rfl

theorem collection_made (rooted : Rooted share d) (represents : Represents aead share.key d w s)
    (listing : DiskListing) (seen : s.seen source = some .collection) (legal : Legal dest.path)
    (onto : source.path ≠ dest.path) :
    ∃ w', CopyEnds listing w d source dest (!(s.seen dest).any Item.isDocument) .zero w' (.ok ()) ∧
      Updates aead share.key d w w' (s.ready dest.path) := by
  have here := seen_collection.mp seen
  have differs : d ++ source.path ≠ d ++ dest.path := fun same => onto (List.append_cancel_left same)
  have updates := ready_made rooted represents legal dest.slash
  have same (kind : (s.seen dest).any Item.isDocument = true) : s.ready dest.path = s := by
    unfold Store.ready
    rw [if_neg]
    intro free
    unfold Store.seen at kind
    rw [free.1] at kind
    cases kind
  have updates' : Updates aead share.key d w (made w (direct (d ++ dest.path) dest.slash)
      (!(s.seen dest).any Item.isDocument)) (s.ready dest.path) := by
    cases kind : (s.seen dest).any Item.isDocument with
    | true =>
      rw [same kind]
      exact updates_refl represents
    | false => exact updates
  have still : (made w (direct (d ++ dest.path) dest.slash) (!(s.seen dest).any Item.isDocument)).tree.isDir
      (d ++ source.path) = true := by
    rw [represents_dir updates'.represents, ready_get, if_neg fun both => onto both.2, here]
  refine ⟨_, one_call fun fuel => ?_, updates'⟩
  rw [do_copy_direct_dir differs ((represents_dir represents).mpr here) still, if_pos rfl]

theorem stuck_blocked (s : Store Name Bytes) {source dest : Address Name} {overwrite : Bool}
    (allowed : overwrite = true ∨ s.seen dest = none)
    (parent : ¬ (dest.path ≠ [] ∧ s.get dest.path.dropLast = none))
    (there : (s.makeRoom source dest overwrite).get source.path = some .collection)
    (stuck : ¬ (s.makeRoom source dest overwrite).Free dest.path) :
    (s.makeRoom source dest overwrite).blocked dest.path = true := by
  have kinds := room_kinds s source dest overwrite allowed there
  cases found : (s.makeRoom source dest overwrite).get dest.path with
  | some item =>
    cases item with
    | collection => exact absurd found kinds
    | document content => exact blocked_iff.mpr ⟨_, content, List.prefix_rfl, found⟩
  | none =>
    have some_left : dest.path ≠ [] := fun bare => stuck ⟨found, .inl bare⟩
    have other : (s.makeRoom source dest overwrite).get dest.path.dropLast ≠ some .collection :=
      fun collection => stuck ⟨found, .inr collection⟩
    obtain ⟨front, n, whole⟩ := (List.eq_nil_or_concat dest.path).resolve_left some_left
    rw [List.concat_eq_append] at whole
    have same : (s.makeRoom source dest overwrite).get dest.path.dropLast = s.get dest.path.dropLast := by
      unfold Store.makeRoom
      split
      · apply if_neg
        rw [whole, List.dropLast_concat]
        exact not_front_concat
      · rfl
    cases above : s.get dest.path.dropLast with
    | none => exact absurd ⟨some_left, above⟩ parent
    | some item =>
      rw [above] at same
      cases item with
      | collection => exact absurd same other
      | document content => exact blocked_iff.mpr ⟨_, content, List.dropLast_prefix _, same⟩

theorem collection_copied (rooted : Rooted share d) (listing : DiskListing) {overwrite : Bool}
    (represents : Represents aead share.key d w (s.makeRoom source dest overwrite))
    (seen : s.seen source = some .collection) (legal : Legal dest.path) (onto : source.path ≠ dest.path)
    (allowed : overwrite = true ∨ s.seen dest = none)
    (parent : ¬ (dest.path ≠ [] ∧ s.get dest.path.dropLast = none)) :
    ∃ w' r, CopyEnds listing w d source dest (!(s.seen dest).any Item.isDocument) .infinity w' r ∧
      Updates aead share.key d w w' (s.copyCollection source dest overwrite).1 ∧
      (r = .ok () ↔ (s.copyCollection source dest overwrite).2 = true) := by
  unfold Store.copyCollection
  dsimp only
  have stuck := @stuck_blocked s source dest overwrite allowed parent
  have left : (s.makeRoom source dest overwrite).get source.path = none ∨
      (s.makeRoom source dest overwrite).get source.path = some .collection := by
    unfold Store.makeRoom
    split
    · by_cases gone : dest.path <+: source.path
      · exact .inl (if_pos gone)
      · exact .inr ((if_neg gone).trans (seen_collection.mp seen))
    · exact .inr (seen_collection.mp seen)
  have kind (free : (s.makeRoom source dest overwrite).Free dest.path) :
      (s.seen dest).any Item.isDocument = false := by
    cases found : s.seen dest with
    | none => rfl
    | some item =>
      cases item with
      | collection => rfl
      | document content =>
        have same : s.makeRoom source dest overwrite = s := if_neg fun all => by
          rw [found] at all
          cases all.2.2
        have missing := free.1
        rw [same, seen_there found] at missing
        cases missing
  generalize s.makeRoom source dest overwrite = t at represents stuck left kind ⊢
  have differs : d ++ source.path ≠ d ++ dest.path := fun same => onto (List.append_cancel_left same)
  have plain (rest : List Name) (target : DiskPath) :
      w.tree.get (d ++ source.path ++ rest) ≠ some (.link target) := by
    rw [List.append_assoc]
    exact shows_plain (represents.same _) target
  rcases left with gone | there
  · -- the source was in what was removed
    have unseen : t.seen source = none := by
      unfold Store.seen
      rw [gone]
      rfl
    obtain ⟨e, failed⟩ : ∃ e, w.metadata (direct (d ++ source.path) source.slash) = .error e :=
      unseen_stat represents unseen true
    rw [if_pos gone]
    refine ⟨w, .error e, one_call fun fuel => ?_, updates_refl represents, iff_of_false (by simp) (by simp)⟩
    unfold doCopy
    rw [if_neg (mt direct_same.mp differs), failed]
  · have dir := (represents_dir represents).mpr there
    rw [if_neg (by rw [there]; exact Option.some_ne_none _)]
    by_cases free : t.Free dest.path
    · obtain ⟨q, k, place, named, parent⟩ := legal_entry rooted represents legal
      obtain ⟨w', copied, carries⟩ := copy_direct_whole plain dir place (parent.mpr free.2)
        ((shows_none (represents.same dest.path)).mpr free.1) named
      rw [dif_pos free, kind free]
      exact ⟨w', _, copied, updates_carried rooted represents free carries, iff_of_true rfl rfl⟩
    · have blocked := (represents_blocked represents).mpr (stuck there free)
      obtain ⟨r, copied, fine⟩ := @copy_direct_shut listing w (d ++ source.path) (d ++ dest.path) source.slash
        dest.slash dest.slash plain (represents_clear represents dest.path) blocked
        (!(s.seen dest).any Item.isDocument) dir
      rw [dif_neg free]
      refine ⟨w, r, copied, updates_refl represents, ?_⟩
      rw [fine, fileless_iff represents]
      simp only [decide_eq_true_eq]

theorem item_copied (rooted : Rooted share d) (represents : Represents aead share.key d w s)
    (listing : DiskListing) {overwrite : Bool} {depth : Depth} {item : Item Bytes}
    (seen : s.seen source = some item) (deep : depth = .zero ∨ depth = .infinity)
    (legal : Legal source.path) (legal' : Legal dest.path) (onto : source.path ≠ dest.path)
    (aside : source.path.dropLast ≠ dest.path) (allowed : overwrite = true ∨ s.seen dest = none)
    (parent : ¬ (dest.path ≠ [] ∧ s.get dest.path.dropLast = none)) :
    ∃ w₁ w' r, (⟨direct (d ++ source.path) source.slash, direct (d ++ dest.path) dest.slash, overwrite, depth,
        (s.seen dest).isSome, (s.seen dest).any Item.isDocument⟩ : Plan).makeRoom w = (w₁, .ok ()) ∧
      CopyEnds listing w₁ d source dest (!(s.seen dest).any Item.isDocument) depth w' r ∧
      Updates aead share.key d w w' (s.copyItem source dest overwrite (decide (depth ≠ .zero)) item).1 ∧
      (r = .ok () ↔ (s.copyItem source dest overwrite (decide (depth ≠ .zero)) item).2 = true) := by
  have kept (small : isDir w (direct (d ++ source.path) source.slash) = false ∨ depth = .zero) :
      (⟨direct (d ++ source.path) source.slash, direct (d ++ dest.path) dest.slash, overwrite, depth,
        (s.seen dest).isSome, (s.seen dest).any Item.isDocument⟩ : Plan).makeRoom w = (w, .ok ()) := by
    apply make_room_kept
    unfold Plan.removes
    rcases small with file | shallow
    · simp [file]
    · simp [shallow]
  cases item with
  | document content =>
    obtain ⟨w', r, copied, updates, done⟩ :=
      document_copied rooted represents listing depth seen legal legal' onto aside
    refine ⟨w, w', r, kept (.inl ?_), copied, updates, done⟩
    rw [← Bool.not_eq_true, dir_seen represents, seen]
    simp
  | collection =>
    rcases deep with shallow | whole
    · subst shallow
      obtain ⟨w', copied, updates⟩ := collection_made rooted represents listing seen legal' onto
      exact ⟨w, w', _, kept (.inr rfl), copied, updates, iff_of_true rfl rfl⟩
    · subst whole
      obtain ⟨w₁, room, updates₁⟩ := @room_made aead share d w s source dest rooted represents
        ⟨direct (d ++ source.path) source.slash, direct (d ++ dest.path) dest.slash, overwrite, .infinity,
          (s.seen dest).isSome, (s.seen dest).any Item.isDocument⟩ rfl rfl rfl rfl rfl
      obtain ⟨w', r, copied, updates, done⟩ :=
        collection_copied rooted listing updates₁.represents seen legal' onto allowed parent
      exact ⟨w₁, w', r, room, copied, updates_trans updates₁ updates, done⟩

end Copies

section Requests
variable {aead : StreamAead} {share : KeyedShare} {d : List Name} {w : Disk} {s : Store Name Bytes}
  {source dest : Address Name} {out : Outside} {request : Request} {text : Bytes}

def Replies (out : Outside) (reply : Reply Name Bytes) (outcome : Outcome) : Prop :=
  match reply with
  | .result result => Answers out result outcome
  | .replaced => outcome = .ok statusNoContent

theorem copy_answers (rooted : Rooted share d) (represents : Represents aead share.key d w s)
    (writable : share.writable = true) (addresses : Addresses share d request.path text source)
    (method : request.method = .copy) {text' wanted : Bytes} {depth : Depth}
    (deep : copyDepth .copy request.headers = some depth)
    (destination : destinationPath out.uri request.headers = some wanted)
    (leads : Addresses share d wanted text' dest) (aside : source.path.dropLast ≠ dest.path) :
    let reply := s.copyTo source dest ((typedGet decodeOverwrite request.headers "overwrite").getD true)
      (decide (depth ≠ .zero))
    ∃ w' outcome, Ends (fun fuel => handle out share fuel w request) (w', outcome) ∧
      Updates aead share.key d w w' reply.1 ∧ Replies out reply.2 outcome := by
  have checked := @copymove_checked aead share d w s source dest out request rooted represents text' wanted
    .copy depth deep destination leads
  simp only [handle_target rooted represents addresses]
  generalize (typedGet decodeOverwrite request.headers "overwrite").getD true = overwrite at checked ⊢
  unfold handleMethod Store.copyTo
  rw [writable, method]
  dsimp only
  cases seen : s.seen source with
  | none =>
    rw [facts_missing represents seen]
    exact ⟨w, _, ends_always fun _ => rfl, updates_refl represents, rfl⟩
  | some item =>
    rw [seen_hit represents seen]
    simp only [addresses.spelled, Bool.not_true, Bool.false_eq_true, ↓reduceIte, copymove, handleCopymove,
      checked, Option.isNone_iff_eq_none]
    by_cases orphan : dest.path ≠ [] ∧ s.get dest.path.dropLast = none
    · simp only [if_pos orphan]
      exact ⟨w, _, ends_always fun _ => rfl, updates_refl represents, rfl⟩
    simp only [if_neg orphan]
    by_cases kept : (!overwrite && (s.seen dest).isSome) = true
    · simp only [if_pos kept]
      exact ⟨w, _, ends_always fun _ => rfl, updates_refl represents, rfl⟩
    simp only [if_neg kept]
    by_cases onto : source.path = dest.path
    · simp only [if_pos onto]
      exact ⟨w, _, ends_always fun _ => rfl, updates_refl represents, _, rfl, rfl⟩
    simp only [if_neg onto]
    have allowed : overwrite = true ∨ s.seen dest = none := by
      cases overwrite with
      | true => exact .inl rfl
      | false => exact .inr (by simpa using kept)
    obtain ⟨w₁, w', r, room, ⟨enough, copied⟩, updates, done⟩ := item_copied rooted represents out.listing seen
      (copy_depth_cases deep) addresses.legal leads.legal onto aside allowed orphan
    have executed (fuel : Nat) (plenty : enough ≤ fuel) := execute_copy_answers room (copied fuel plenty)
    cases r with
    | error e =>
      have failed : (s.copyItem source dest overwrite (decide (depth ≠ .zero)) item).2 = false :=
        Bool.eq_false_iff.mpr fun ok => by cases done.mpr ok
      refine ⟨w', copyOutcome .failed, ⟨enough, fun fuel plenty => ?_⟩, updates, ?_⟩
      · dsimp only
        rw [executed fuel plenty]
        rfl
      · rw [failed]
        rfl
    | ok _ =>
      refine ⟨w', copyOutcome (.status (if overwrite && (s.seen dest).isSome then 204 else 201)),
        ⟨enough, fun fuel plenty => ?_⟩, updates, ?_⟩
      · dsimp only
        rw [executed fuel plenty]
        rfl
      · rw [done.mp rfl]
        cases present : (s.seen dest).isSome with
        | false =>
          rw [Bool.and_false]
          rfl
        | true =>
          have replaced : overwrite = true := allowed.resolve_right fun missing => by
            rw [missing] at present
            cases present
          rw [replaced]
          rfl

theorem copymove_lasting (out : Outside) (share : KeyedShare) (w : Disk) (path : DiskPath) (headers : Headers)
    (method : CopyMethod) : Lasting fun fuel => copymove out share fuel w path headers method := by
  intro fuel a run more plenty
  dsimp only at run ⊢
  unfold copymove handleCopymove at run ⊢
  cases checks : checkCopymove out.uri w path headers method share.directory with
  | error reply =>
    rw [checks] at run
    exact run
  | ok plan =>
    rw [checks] at run
    obtain ⟨result, executed, same⟩ := Option.map_eq_some_iff.mp run
    exact Option.map_eq_some_iff.mpr
      ⟨result, execute_lasting plan out.listing method w fuel result executed more plenty, same⟩

theorem handle_lasting (out : Outside) (share : KeyedShare) (w : Disk) (request : Request) :
    Lasting fun fuel => handle out share fuel w request := by
  intro fuel a run more plenty
  dsimp only at run ⊢
  unfold handle at run ⊢
  split at run
  · exact run
  · exact run
  · dsimp only at run ⊢
    split at run
    · rename_i gated
      rw [if_pos gated]
      exact run
    · rename_i passes
      rw [if_neg passes]
      unfold handleMethod at run ⊢
      cases arm : request.method with
      | copy | move =>
        rw [arm] at run
        dsimp only at run ⊢
        split at run
        · rename_i closed
          rw [if_pos closed]
          exact run
        rename_i writable
        rw [if_neg writable]
        split at run
        · rename_i gone
          rw [if_pos gone]
          exact run
        · rename_i there
          rw [if_neg there]
          exact copymove_lasting out share w _ request.headers _ fuel a run more plenty
      | _ =>
        rw [arm] at run
        exact run

/-- What a request asks: something of the store, or a copy. Nothing is copied onto the collection that it
    lies in. -/
inductive Wants (aead : StreamAead) (share : KeyedShare) (d : List Name) (out : Outside)
    (request : Request) : Deed Name Bytes → Prop where
  | act {action : Action Name Bytes} (asks : Asks aead share d out request action) :
      Wants aead share d out request (.act action)
  | copy {text text' wanted : Bytes} {source dest : Address Name} {depth : Depth}
      (addresses : Addresses share d request.path text source) (method : request.method = .copy)
      (writable : share.writable = true) (deep : copyDepth .copy request.headers = some depth)
      (destination : destinationPath out.uri request.headers = some wanted)
      (leads : Addresses share d wanted text' dest) (aside : source.path.dropLast ≠ dest.path) :
      Wants aead share d out request (.copy source dest
        ((typedGet decodeOverwrite request.headers "overwrite").getD true) (decide (depth ≠ .zero)))

theorem wanted_answers (undoes : Undoes aead) (rooted : Rooted share d)
    (represents : Represents aead share.key d w s) {deed : Deed Name Bytes}
    (wants : Wants aead share d out request deed) :
    ∃ w' outcome, Ends (fun fuel => handle out share fuel w request) (w', outcome) ∧
      Updates aead share.key d w w' (s.carryOut deed).1 ∧ Replies out (s.carryOut deed).2 outcome := by
  cases wants with
  | act asks =>
    obtain ⟨w', outcome, run, updates, answers⟩ := handle_answers undoes rooted represents asks 0
    exact ⟨w', outcome, lasting_ends (handle_lasting out share w request) run, updates, answers⟩
  | copy addresses method writable deep destination leads aside =>
    exact copy_answers rooted represents writable addresses method deep destination leads aside

theorem run_goes_on {w₁ w₂ : Disk} {outcome : Outcome} {requests : List (Outside × Request)}
    {outcomes : List Outcome} (run : Ends (fun fuel => handle out share fuel w request) (w₁, outcome))
    (later : Ends (fun fuel => handleAll share fuel w₁ requests) (w₂, outcomes)) :
    Ends (fun fuel => handleAll share fuel w ((out, request) :: requests)) (w₂, outcome :: outcomes) := by
  obtain ⟨enough, run⟩ := run
  obtain ⟨enough', later⟩ := later
  refine ⟨max enough enough', fun fuel plenty => ?_⟩
  have here := run fuel (Nat.le_trans (Nat.le_max_left _ _) plenty)
  have there := later fuel (Nat.le_trans (Nat.le_max_right _ _) plenty)
  dsimp only at here there
  simp only [handleAll, here, there]

theorem deeds_answered (undoes : Undoes aead) (rooted : Rooted share d)
    (represents : Represents aead share.key d w s)
    {steps : List ((Outside × Request) × Deed Name Bytes)}
    (wants : ∀ step ∈ steps, Wants aead share d step.1.1 step.1.2 step.2) :
    ∃ w' outcomes, Ends (fun fuel => handleAll share fuel w (steps.map Prod.fst)) (w', outcomes) ∧
      Updates aead share.key d w w' (s.carryOutAll (steps.map Prod.snd)).1 ∧
      List.Forall₂ (fun answer outcome => Replies answer.1 answer.2 outcome)
        ((steps.map (·.1.1)).zip (s.carryOutAll (steps.map Prod.snd)).2) outcomes := by
  induction steps generalizing w s with
  | nil => exact ⟨w, [], ends_always fun _ => rfl, updates_refl represents, .nil⟩
  | cons step rest ih =>
    obtain ⟨⟨out, request⟩, deed⟩ := step
    obtain ⟨w₁, outcome, run, updates, answers⟩ :=
      wanted_answers undoes rooted represents (wants _ List.mem_cons_self)
    obtain ⟨w₂, outcomes, later, updates₂, answers₂⟩ := ih updates.represents
      fun step member => wants step (List.mem_cons_of_mem _ member)
    exact ⟨w₂, outcome :: outcomes, run_goes_on run later, updates_trans updates updates₂,
      .cons answers answers₂⟩

theorem copied_answer {overwrite deep : Bool} {response : Response}
    (replies : Replies out (s.copyTo source dest overwrite deep).2 (.ok response))
    (success : response.status = 201 ∨ response.status = 204) :
    (s.copyTo source dest overwrite deep).2 = .replaced ∨
      (s.copyTo source dest overwrite deep).2 = .result .created := by
  rcases copy_reply s source dest overwrite deep with done | ⟨result, same, kind⟩
  · exact done
  · rw [same] at replies
    rcases kind with rfl | rfl | rfl | rfl | rfl
    · cases replies
      simp [statusNotFound] at success
    · cases replies
      simp at success
    · cases replies
      simp at success
    · obtain ⟨response', same, status⟩ := replies
      cases same
      simp [status] at success
    · cases replies

theorem document_read (undoes : Undoes aead) (rooted : Rooted share d)
    (represents : Represents aead share.key d w s) {get : Outside × Request} {target : Address Name}
    {content : Bytes} (gets : Asks aead share d get.1 get.2 (.read target))
    (here : s.get target.path = some (.document content)) (plain : target.slash = false)
    {between : List ((Outside × Request) × Deed Name Bytes)}
    (wants : ∀ step ∈ between, Wants aead share d step.1.1 step.1.2 step.2)
    (spares : ∀ step ∈ between, step.2.Spares target.path) :
    ∃ w₁ outcomes w₂ path sent,
      Ends (fun fuel => handleAll share fuel w (between.map Prod.fst)) (w₁, outcomes) ∧
      Ends (fun fuel => handle get.1 share fuel w₁ get.2) (w₂, .ok ⟨200, [], .file path sent⟩) ∧
      sent.contentLength = some (toString content.length) ∧ sent.body.bytes = content ∧
      sent.body.ending = some .done := by
  obtain ⟨w₁, outcomes, run, updates, _⟩ := deeds_answered undoes rooted represents wants
  have left : ∀ deed ∈ between.map Prod.snd, deed.Spares target.path := by
    intro deed member
    obtain ⟨step, inside, same⟩ := List.mem_map.mp member
    exact same ▸ spares step inside
  have kept := deeds_spared_kept here left
  obtain ⟨w₂, outcome, later, _, replies⟩ := wanted_answers undoes rooted updates.represents (.act gets)
  have read : (s.carryOutAll (between.map Prod.snd)).1.readAs target .content .collection =
      .content content := by
    unfold Store.readAs
    rw [seen_document.mpr ⟨kept, plain⟩]
  obtain ⟨path, sent, same, announced, bytes, ending⟩ : Answers get.1 (.content content) outcome :=
    read ▸ replies
  exact ⟨w₁, outcomes, w₂, path, sent, run, same ▸ later, announced, bytes, ending⟩

end Requests

section Samples

def inTarget (n m : Name) : Address Name := sampleTarget [n, m] (List.cons_ne_nil n [m])

def copyStep : (Outside × Request) × Deed Name Bytes :=
  (askFor .copy (utf8 "/a") [("destination", utf8 "/b")] [],
    .copy (topTarget [97]) (topTarget [98]) true true)

def deleteStep : (Outside × Request) × Deed Name Bytes :=
  (askFor .delete (utf8 "/a") [] [], .act (.delete (topTarget [97])))

def copySteps : List ((Outside × Request) × Deed Name Bytes) :=
  [(askFor .mkcol (utf8 "/a") [] [], .act (.make (topTarget [97]))),
    (askFor .put (utf8 "/a/f") [] [.ok [1], .ok [2, 3]], .act (.put (inTarget [97] [102]) [1, 2, 3])),
    copyStep, deleteStep,
    (askFor .get (utf8 "/b/f") [] [], .act (.read (inTarget [98] [102])))]

theorem copy_wanted : ∀ step ∈ copySteps,
    Wants sampleAead sampleShare [[100]] step.1.1 step.1.2 step.2 := by
  have at_a := @sample_addresses (utf8 "/a") (utf8 "/d/a") [[97]] (by simp) (by decide) (by decide)
    (by unfold Legal; decide) (by decide)
  have at_b := @sample_addresses (utf8 "/b") (utf8 "/d/b") [[98]] (by simp) (by decide) (by decide)
    (by unfold Legal; decide) (by decide)
  have in_a := @sample_addresses (utf8 "/a/f") (utf8 "/d/a/f") [[97], [102]] (by simp) (by decide)
    (by decide) (by unfold Legal; decide) (by decide)
  have in_b := @sample_addresses (utf8 "/b/f") (utf8 "/d/b/f") [[98], [102]] (by simp) (by decide)
    (by decide) (by unfold Legal; decide) (by decide)
  intro step member
  simp only [copySteps, copyStep, deleteStep, List.mem_cons, List.not_mem_nil, or_false] at member
  rcases member with rfl | rfl | rfl | rfl | rfl
  · exact .act (.make at_a rfl rfl rfl)
  · exact .act (.put in_a rfl rfl rfl rfl (by decide))
  · exact @Wants.copy _ _ _ sampleOutside ⟨.copy, utf8 "/a", [], [("destination", utf8 "/b")], []⟩ _ _ _ _ _
      .infinity at_a rfl rfl (by decide) (by decide) at_b (by decide)
  · exact .act (.delete at_a rfl rfl)
  · exact .act (.read in_b rfl sample_query rfl (sample_unconditional _ _ rfl))

end Samples

end VestibuleWebdav
