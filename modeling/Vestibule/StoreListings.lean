import Vestibule.PropfindHrefs
import Vestibule.ShareStores
import Vestibule.ZipDownloads

/-!
What PROPFIND, the search and the archive tell of a dav, against what its store holds: the paths that
are told of, the sizes that are announced, and the bytes in the archive.
-/
namespace VestibuleWebdav
open VestibuleRust LexicalMotion FileTree FileCalls World PlainLookups LinkedLookups LinkedCalls
  DirectPaths DocumentStore SealedChunks VestibulePaths VestibuleCopyMove VestibuleStreamer
  VestibuleStorage VestibuleParts VestibuleRanges

def shownAs : Item Bytes → PathType × Option Nat
  | .collection => (.dir, none)
  | .document content => (.file, some content.length)

/-- An item tells of what is at a path. If the path is text, its names are the pieces of the name. -/
structure Tells (path : List Name) (item : Item Bytes) (told : PathItem) : Prop where
  named : (∀ n ∈ path, validUtf8 n = true) → solid (segments told.name) = path
  shown : (told.pathType, told.size) = shownAs item

/-- There is one item for each path at which something is shown. -/
def Lists (shows : List Name → Option (Item Bytes)) (items : List PathItem) : Prop :=
  ∃ places : List (List Name), places.Nodup ∧ (∀ place, place ∈ places ↔ shows place ≠ none) ∧
    List.Forall₂ (fun place told => ∃ item, shows place = some item ∧ Tells place item told) places items

/-- There is one file for each document with a path that is text, and it holds the content. -/
def Archives (documents : List Name → Option Bytes) (entries : List ZipEntry) : Prop :=
  ∃ places : List (List Name), places.Nodup ∧
    (∀ place, place ∈ places ↔ documents place ≠ none ∧ validUtf8 (joinSegments place) = true) ∧
    List.Forall₂ (fun place entry => entry.name = joinSegments place ∧ documents place = some entry.bytes)
      places entries

section Collecting
variable {α : Type} {item : Bytes → Except Fault (Option PathItem)} {text : α → Bytes}
  {R : α → PathItem → Prop} {places : List α}

theorem collect_related (each : ∀ place ∈ places, ∃ told, item (text place) = .ok (some told) ∧ R place told) :
    ∃ listed, collectItems item (places.map text) = .ok listed ∧
      List.Forall₂ R places (listed.map Listed.item) := by
  induction places with
  | nil => exact ⟨[], rfl, .nil⟩
  | cons place rest ih =>
    obtain ⟨told, read, related⟩ := each place List.mem_cons_self
    obtain ⟨later, run, all⟩ := ih fun other member => each other (List.mem_cons_of_mem _ member)
    refine ⟨⟨text place, told⟩ :: later, ?_, .cons related all⟩
    rw [List.map_cons, collectItems, read, run]
    rfl

theorem related_from {told : List PathItem} (all : List.Forall₂ R places told) :
    ∀ item ∈ told, ∃ place, R place item := by
  induction all with
  | nil => exact fun item member => by cases member
  | cons first _ ih => exact List.forall_mem_cons.mpr ⟨⟨_, first⟩, ih⟩

end Collecting

section Names
variable {text base : Bytes} {names front : List Name} {slash slash' : Bool}

theorem step_of_name {seg n : Name} (same : stepOf seg = .name n) : seg = n := by
  unfold stepOf at same
  split at same
  · cases same
  split at same
  · cases same
  · exact Step.name.inj same

theorem names_of_steps {segs : List Name} (same : segs.map stepOf = names.map .name) : segs = names := by
  induction segs generalizing names with
  | nil => exact (List.map_eq_nil_iff.mp same.symm).symm
  | cons seg rest ih =>
    obtain ⟨n, names, rfl⟩ := List.exists_cons_of_ne_nil (l := names) (by rintro rfl; cases same)
    rw [List.map_cons, List.map_cons, List.cons.injEq] at same
    rw [step_of_name same.1, ih same.2]

theorem direct_kept (names : List Name) (slash : Bool) :
    (direct names slash).steps.filter (· ≠ .here) = names.map .name := by
  rw [direct, List.filter_eq_self]
  intro step member
  obtain ⟨n, _, same⟩ := List.mem_map.mp member
  subst same
  simp

theorem solid_direct (spelled : pathOf text = direct names slash) : solid (segments text) = names := by
  apply names_of_steps
  rw [← filtered_steps]
  change (pathOf text).steps.filter (· ≠ .here) = _
  rw [spelled, direct_kept]

theorem direct_stripped (spelled : pathOf text = direct (front ++ names) slash)
    (directory : pathOf base = direct front slash') :
    ∃ rel, stripPrefix text base = some rel ∧ solid (segments rel) = names := by
  have parts (names : List Name) (slash : Bool) : components (direct names slash) = names.map .name :=
    direct_kept names slash
  have starts : startsWith (pathOf text) (pathOf base) = true := by
    unfold startsWith
    rw [spelled, directory, parts, parts, List.map_append]
    simp only [Bool.or_eq_true, Bool.and_eq_true]
    exact .inr ⟨by simp [direct], List.isPrefixOf_iff_prefix.mpr (List.prefix_append _ _)⟩
  have found : stripPrefix text base = some (remainder text (pathOf base)) := by
    rw [stripPrefix, if_pos starts]
  refine ⟨_, found, ?_⟩
  rw [(strip_prefix_stripped found).rest, solid_direct spelled, solid_direct directory, List.drop_left]

end Names

section Items
variable {aead : StreamAead} {share : KeyedShare} {d names : List Name} {w : Disk} {s : Store Name Bytes}
  {target : Address Name} {out : Outside} {text base rel : Bytes} {item : Item Bytes}
  {node : Node Name UInt8} {loc : List Name} {time : Int}

theorem represents_node (represents : Represents aead share.key d w s) (there : s.get names = some item) :
    ∃ node, w.tree.get (d ++ names) = some node ∧ Shows aead share.key (some node) (some item) := by
  have shows := represents.same names
  rw [there] at shows
  cases here : w.tree.get (d ++ names) with
  | none =>
    rw [here] at shows
    cases shows
  | some node => exact ⟨node, rfl, here ▸ shows⟩

theorem represents_plain (represents : Represents aead share.key d w s) (names : List Name) :
    ¬ Linked w.tree (d ++ names) := fun ⟨target, link⟩ => shows_plain (represents.same names) target link

theorem pathitem_shows (stripped : stripPrefix text base = some rel) (found : Found w share text loc node node)
    (shows : Shows aead share.key (some node) (some item)) (known : out.modified loc = some time)
    (since : 0 ≤ time) : toPathitem out w share text base =
      .ok (some ⟨(shownAs item).1, strOrDefault rel, time.toNat % u64Limit, (shownAs item).2⟩) := by
  rw [pathitem_found stripped found, modified_at_ok.mpr ⟨time, known, since, rfl⟩]
  cases shows with
  | dir => rfl
  | file keeps =>
    have sized : sizeOf out share (.file _) = .ok (some _) := congrArg (·.map some) (keeps_size keeps out.target)
    rw [sized]
    rfl

theorem pathitem_tells (stripped : stripPrefix text base = some rel) (pieces : solid (segments rel) = names)
    (valid : (∀ n ∈ names, validUtf8 n = true) → validUtf8 rel = true)
    (found : Found w share text loc node node) (shows : Shows aead share.key (some node) (some item))
    (known : out.modified loc = some time) (since : 0 ≤ time) :
    ∃ told, toPathitem out w share text base = .ok (some told) ∧ Tells names item told ∧
      told.mtime = time.toNat % u64Limit := by
  refine ⟨_, pathitem_shows stripped found shows known since, ⟨fun utf => ?_, rfl⟩, rfl⟩
  rw [strOrDefault, if_pos (valid utf), pieces]

theorem target_found (rooted : Rooted share d) (represents : Represents aead share.key d w s)
    (spelled : pathOf text = direct (d ++ target.path) target.slash) (seen : s.seen target = some item)
    (here : w.tree.get (d ++ target.path) = some node)
    (shows : Shows aead share.key (some node) (some item)) :
    Found w share text (d ++ target.path) node node := by
  have ends : target.slash = true → isDirNode node = true := by
    intro slashed
    cases shows with
    | dir => rfl
    | file keeps =>
      rw [(seen_document.mp seen).2] at slashed
      cases slashed
  have stat (follow : Bool) : w.stat follow (direct (d ++ target.path) target.slash) = .ok node :=
    (target_stat represents).mpr ⟨here, ends⟩
  have contained := seen_contained rooted represents seen
  rw [← spelled] at stat contained
  refine ⟨?_, stat true, stat false, .inr (.inr contained)⟩
  obtain ⟨loc, led, found⟩ := stat_ok_iff.mp (stat true)
  rw [spelled] at led ⊢
  have same := ((direct_lookup (represents_clear represents target.path)).mp led).1
  exact canonicalize_ok_iff.mpr ⟨same ▸ led, by rw [here]; exact Option.some_ne_none _⟩

end Items

section Levels
variable {aead : StreamAead} {share : KeyedShare} {d : List Name} {w : Disk} {s : Store Name Bytes}
  {target : Address Name} {out : Outside} {wanted text : Bytes}

def Told (out : Outside) (s : Store Name Bytes) (place : List Name) (told : PathItem) : Prop :=
  (∃ item, s.get place = some item ∧ Tells place item told) ∧ out.toRfc2822 (asI64 told.mtime) ≠ none

theorem collection_place (represents : Represents aead share.key d w s)
    (spelled : pathOf text = direct (d ++ target.path) target.slash)
    (seen : s.seen target = some .collection) :
    w.lookup true (pathOf text) = .ok (d ++ target.path) ∧ w.tree.isDir (d ++ target.path) = true := by
  have dir := (represents_dir represents).mpr (seen_collection.mp seen)
  refine ⟨?_, dir⟩
  rw [spelled]
  exact (direct_lookup (represents_clear represents target.path)).mpr
    ⟨rfl, there_above (is_dir_iff.mp dir), fun _ => dir⟩

theorem below_found (represents : Represents aead share.key d w s)
    (spelled : pathOf text = direct (d ++ target.path) target.slash)
    (seen : s.seen target = some .collection) {rest : List Name} (some_left : rest ≠ [])
    {item : Item Bytes} (there : s.get (target.path ++ rest) = some item) :
    ∃ node, Found w share (rest.foldl joinText text) (d ++ target.path ++ rest) node node ∧
      w.tree.get (d ++ target.path ++ rest) = some node ∧
      Shows aead share.key (some node) (some item) := by
  obtain ⟨found, dir⟩ := collection_place represents spelled seen
  obtain ⟨node, here, shows⟩ := represents_node represents there
  have plain := represents_plain represents (target.path ++ rest)
  rw [← List.append_assoc] at here plain
  have there' : w.tree.get (d ++ target.path ++ rest) ≠ none := by
    rw [here]
    exact Option.some_ne_none _
  have place (follow : Bool) : w.lookup follow (pathOf (rest.foldl joinText text)) =
      .ok (d ++ target.path ++ rest) := below_lookup found dir some_left there' (.inr plain)
  refine ⟨node, ⟨canonicalize_ok_iff.mpr ⟨place true, there'⟩, stat_ok_iff.mpr ⟨_, place true, here⟩,
    stat_ok_iff.mpr ⟨_, place false, here⟩, .inr (.inl ?_)⟩, here, shows⟩
  cases shows <;> rfl

theorem below_iff (represents : Represents aead share.key d w s) (path rest : List Name) :
    w.tree.get (d ++ path ++ rest) ≠ none ↔ s.get (path ++ rest) ≠ none := by
  rw [List.append_assoc]
  exact not_congr (shows_none (represents.same _))

theorem target_named (rooted : Rooted share d) (addresses : Addresses share d wanted text target) :
    ∃ n, getFileName (pathOf text) = some n := by
  have some_left : d ++ target.path ≠ [] := List.append_ne_nil_of_left_ne_nil rooted.inside _
  let n := (d ++ target.path).getLast some_left
  have pieces := solid_direct addresses.spelled
  have piece : n ∈ solid (segments text) := pieces ▸ List.getLast_mem some_left
  have utf : validUtf8 n = true :=
    (valid_segments text).mp (extract_valid addresses.extracted rooted.text) n (List.mem_of_mem_filter piece)
  refine ⟨n, ?_⟩
  rw [getFileName, addresses.spelled, file_name_direct (List.getLast?_eq_some_getLast some_left),
    Option.filter_some, if_pos utf]

theorem target_told (rooted : Rooted share d) (represents : Represents aead share.key d w s)
    (addresses : Addresses share d wanted text target) (times : ∀ loc, Dated out loc) {item : Item Bytes}
    (seen : s.seen target = some item) :
    ∃ told, toPathitem out w share text share.directory = .ok (some told) ∧ Told out s target.path told := by
  obtain ⟨node, here, shows⟩ := represents_node represents (seen_there seen)
  obtain ⟨slash, directory⟩ := rooted.directory
  obtain ⟨rel, stripped, pieces⟩ := direct_stripped addresses.spelled directory
  obtain ⟨time, known, since, written⟩ := times (d ++ target.path)
  have valid := stripped_valid stripped (extract_valid addresses.extracted rooted.text)
  obtain ⟨told, read, tells, dated⟩ := pathitem_tells stripped pieces (fun _ => valid)
    (target_found rooted represents addresses.spelled seen here shows) shows known since
  exact ⟨told, read, ⟨item, seen_there seen, tells⟩, dated ▸ written⟩

theorem children_told (rooted : Rooted share d) (represents : Represents aead share.key d w s)
    (addresses : Addresses share d wanted text target) (times : ∀ loc, Dated out loc)
    (seen : s.seen target = some .collection) :
    ∃ (names : List Name) (child : List Listed), listDir out w share text share.directory = .ok child ∧
      names.Nodup ∧ (∀ n, n ∈ names ↔ s.get (target.path ++ [n]) ≠ none) ∧
      List.Forall₂ (fun n told => Told out s (target.path ++ [n]) told) names (child.map Listed.item) := by
  obtain ⟨found, dir⟩ := collection_place represents addresses.spelled seen
  obtain ⟨names, once, all, run⟩ := @list_dir_items out w share text _ share.directory found dir
  obtain ⟨slash, directory⟩ := rooted.directory
  obtain ⟨rel, stripped, pieces⟩ := direct_stripped addresses.spelled directory
  have there (n : Name) := below_iff represents target.path [n]
  have each : ∀ n ∈ names, ∃ told,
      toPathitem out w share (joinText text n) share.directory = .ok (some told) ∧
        Told out s (target.path ++ [n]) told := by
    intro n member
    obtain ⟨item, here⟩ := Option.ne_none_iff_exists'.mp ((there n).mp ((all n).mp member))
    obtain ⟨node, found', _, shows⟩ := below_found represents addresses.spelled seen (List.cons_ne_nil n []) here
    have legal := below_legal ((all n).mp member) n List.mem_cons_self
    obtain ⟨rel', stripped', pieces'⟩ := strip_prefix_entry stripped legal
    obtain ⟨time, known, since, written⟩ := times (d ++ target.path ++ [n])
    have valid (utf : ∀ m ∈ target.path ++ [n], validUtf8 m = true) : validUtf8 rel' = true :=
      stripped_valid stripped' (valid_join (extract_valid addresses.extracted rooted.text)
        (utf n (List.mem_append_right _ List.mem_cons_self)))
    obtain ⟨told, read, tells, dated⟩ :=
      pathitem_tells stripped' (pieces' ▸ pieces ▸ rfl) valid found' shows known since
    exact ⟨told, read, ⟨item, here, tells⟩, dated ▸ written⟩
  obtain ⟨child, collected, related⟩ := @collect_related Name
    (fun entry => toPathitem out w share entry share.directory) (joinText text) _ names each
  exact ⟨names, child, run.trans collected, once, fun n => (all n).trans (there n), related⟩

theorem told_written {items : List PathItem} {places : List (List Name)}
    (all : List.Forall₂ (Told out s) places items) : ∃ content, itemsXml out items = .ok content := by
  refine items_xml_ok_iff.mpr fun told member => ?_
  obtain ⟨_, _, written⟩ := related_from all told member
  exact written

theorem told_lists {items : List PathItem} {names : List Name} {path : List Name} {deep : Bool}
    (there : s.get path ≠ none) (once : names.Nodup)
    (all : ∀ n, n ∈ names ↔ deep = true ∧ s.get (path ++ [n]) ≠ none)
    (told : List.Forall₂ (Told out s) (path :: names.map (path ++ [·])) items) :
    Lists (s.level path deep) items := by
  obtain ⟨distinct, places⟩ := level_places there once all
  have both := (List.forall₂_and_left _ _).mpr ⟨fun place member => level_shown ((places place).mp member), told⟩
  refine ⟨_, distinct, places, both.imp ?_⟩
  rintro place told ⟨same, ⟨item, here, tells⟩, _⟩
  exact ⟨item, same.trans here, tells⟩

theorem collection_listed (rooted : Rooted share d) (represents : Represents aead share.key d w s)
    (addresses : Addresses share d wanted text target) (times : ∀ loc, Dated out loc)
    (seen : s.seen target = some .collection) {headers : Headers} {depth : Nat}
    (number : propfindDepth headers = some depth) :
    ∃ listed content, handlePropfindDir out w share text headers = .ok (resMultistatus listed content) ∧
      itemsXml out (listed.map Listed.item) = .ok content ∧
      Lists (s.level target.path (decide (depth ≠ 0))) (listed.map Listed.item) := by
  obtain ⟨told, read, itself⟩ := target_told rooted represents addresses times seen
  have there : s.get target.path ≠ none := by
    rw [seen_there seen]
    exact Option.some_ne_none _
  by_cases zero : depth = 0
  · have all : List.Forall₂ (Told out s) [target.path] [told] := .cons itself .nil
    obtain ⟨content, written⟩ := told_written all
    refine ⟨[⟨text, told⟩], content, ?_, written, told_lists there List.nodup_nil (by simp [zero]) all⟩
    simp only [handlePropfindDir, number, read, bind, Except.bind, zero, ↓reduceIte, List.map_cons,
      List.map_nil, written]
    rfl
  · obtain ⟨names, child, below, once, inside, children⟩ :=
      children_told rooted represents addresses times seen
    have all : List.Forall₂ (Told out s) (target.path :: names.map (target.path ++ [·]))
        (told :: child.map Listed.item) := .cons itself (List.forall₂_map_left_iff.mpr children)
    obtain ⟨content, written⟩ := told_written all
    refine ⟨⟨text, told⟩ :: child, content, ?_, written, told_lists there once (by simp [zero, inside]) all⟩
    exact propfind_dir_answers (by simp [number, zero]) (by simp [number]) read below written

theorem document_listed (rooted : Rooted share d) (represents : Represents aead share.key d w s)
    (addresses : Addresses share d wanted text target) (times : ∀ loc, Dated out loc) {body : Bytes}
    (seen : s.seen target = some (.document body)) (deep : Bool) :
    ∃ listed content, handlePropfindFile out w share text = .ok (resMultistatus listed content) ∧
      itemsXml out (listed.map Listed.item) = .ok content ∧
      Lists (s.level target.path deep) (listed.map Listed.item) := by
  obtain ⟨told, read, itself⟩ := target_told rooted represents addresses times seen
  have here := seen_there seen
  have there : s.get target.path ≠ none := by
    rw [here]
    exact Option.some_ne_none _
  have alone (n : Name) : s.get (target.path ++ [n]) = none := by
    by_contra below
    rw [s.closed _ _ below] at here
    cases here
  have all : List.Forall₂ (Told out s) [target.path] [told] := .cons itself .nil
  obtain ⟨content, written⟩ := told_written all
  refine ⟨[⟨text, told⟩], content, ?_, written, told_lists there List.nodup_nil (by simp [alone]) all⟩
  obtain ⟨first, write, rest⟩ := bind_ok_iff.mp written
  cases rest
  simp only [handlePropfindFile, read, bind, Except.bind, write, List.append_nil]
  rfl

end Levels

section Searches
variable {aead : StreamAead} {share : KeyedShare} {d : List Name} {w : Disk} {s : Store Name Bytes}
  {target : Address Name} {out : Outside} {text : Bytes}

theorem walked_dir {loc : List Name} (found : w.lookup true (pathOf text) = .ok loc)
    (dir : w.tree.isDir loc = true) : walkDir out w text =
      (out.walker.entries w.tree loc).map fun names => (names.foldl joinText text, names.getLast?.getD []) := by
  simp only [walkDir, found, dir, ↓reduceIte]

theorem matching_below {loc : List Name} (found : w.lookup true (pathOf text) = .ok loc)
    (dir : w.tree.isDir loc = true) (query : Bytes) : matching out w text query =
      ((out.walker.entries w.tree loc).filter fun names =>
        containsText (out.lowercase query) (out.lowercase (names.getLast?.getD []))).map
          (·.foldl joinText text) := by
  have there : ∀ names ∈ out.walker.entries w.tree loc,
      (w.symlinkMetadata (pathOf (names.foldl joinText text))).isOk = true := by
    intro names member
    obtain ⟨some_left, there⟩ := out.walker.sound _ _ _ member
    obtain ⟨node, here⟩ := Option.ne_none_iff_exists'.mp there
    have kind : w.symlinkMetadata (pathOf (names.foldl joinText text)) = .ok node :=
      stat_ok_iff.mpr ⟨_, below_lookup found dir some_left there (.inl rfl), here⟩
    rw [kind]
    rfl
  rw [matching, walked_dir found dir, List.filterMap_map, ← List.filterMap_eq_filter, List.map_filterMap]
  refine List.filterMap_congr fun names member => ?_
  simp only [Function.comp_apply, there names member, Bool.and_true, Option.guard]
  split <;> rfl

theorem matching_some {path rest : List Name} {wanted : Name → Bool} {item : Item Bytes} :
    s.matching path wanted rest = some item ↔
      (rest ≠ [] ∧ wanted (rest.getLast?.getD []) = true) ∧ s.get (path ++ rest) = some item := by
  unfold Store.matching
  rcases List.eq_nil_or_concat rest with bare | ⟨front, n, whole⟩
  · subst bare
    simp
  · subst whole
    simp

theorem pieces_joined {names : List Name} (legal : Legal names) (some_left : names ≠ []) :
    solid (segments (joinSegments names)) = names := by
  rw [segments_joined some_left fun n inside => (legal_name (legal n inside)).2.1]
  exact List.filter_eq_self.mpr fun n inside => by rw [legal_skipped legal inside]; rfl

theorem below_told (represents : Represents aead share.key d w s)
    (spelled : pathOf text = direct (d ++ target.path) target.slash)
    (times : ∀ loc, ∃ time, out.modified loc = some time ∧ 0 ≤ time)
    (seen : s.seen target = some .collection) {rest : List Name} (some_left : rest ≠ [])
    {item : Item Bytes} (there : s.get (target.path ++ rest) = some item) :
    ∃ told, toPathitem out w share (rest.foldl joinText text) text = .ok (some told) ∧
      Tells rest item told := by
  obtain ⟨node, found, here, shows⟩ := below_found represents spelled seen some_left there
  have legal : Legal rest := below_legal (by rw [here]; exact Option.some_ne_none _)
  obtain ⟨time, known, since⟩ := times (d ++ target.path ++ rest)
  obtain ⟨told, read, tells, _⟩ := pathitem_tells (strip_prefix_entries text legal some_left)
    (pieces_joined legal some_left) (valid_joined rest).mpr found shows known since
  exact ⟨told, read, tells⟩

theorem collection_searched (represents : Represents aead share.key d w s)
    (spelled : pathOf text = direct (d ++ target.path) target.slash)
    (times : ∀ loc, ∃ time, out.modified loc = some time ∧ 0 ≤ time)
    (json : ∀ items, out.toJson items ≠ none) (seen : s.seen target = some .collection) (query : Bytes) :
    ∃ listed json, handleQueryDir out w share text query = .ok ⟨200, [], .items listed json⟩ ∧
      out.toJson (listed.map Listed.item) = some json ∧
      Lists (s.matching target.path fun n => containsText (out.lowercase query) (out.lowercase n))
        (listed.map Listed.item) := by
  obtain ⟨found, dir⟩ := collection_place represents spelled seen
  let wanted (n : Name) : Bool := containsText (out.lowercase query) (out.lowercase n)
  let places := (out.walker.entries w.tree (d ++ target.path)).filter fun names =>
    wanted (names.getLast?.getD [])
  have kept (rest : List Name) : rest ∈ places ↔ s.matching target.path wanted rest ≠ none := by
    rw [List.mem_filter, Option.ne_none_iff_exists']
    constructor
    · rintro ⟨member, named⟩
      obtain ⟨some_left, below⟩ := out.walker.sound _ _ _ member
      obtain ⟨item, here⟩ := Option.ne_none_iff_exists'.mp ((below_iff represents _ _).mp below)
      exact ⟨item, matching_some.mpr ⟨⟨some_left, named⟩, here⟩⟩
    · rintro ⟨item, shown⟩
      obtain ⟨⟨some_left, named⟩, here⟩ := matching_some.mp shown
      refine ⟨out.walker.complete _ _ _ some_left ((below_iff represents _ _).mpr ?_), named⟩
      rw [here]
      exact Option.some_ne_none _
  have each : ∀ rest ∈ places, ∃ told,
      toPathitem out w share (rest.foldl joinText text) text = .ok (some told) ∧
        ∃ item, s.matching target.path wanted rest = some item ∧ Tells rest item told := by
    intro rest member
    obtain ⟨item, shown⟩ := Option.ne_none_iff_exists'.mp ((kept rest).mp member)
    obtain ⟨⟨some_left, _⟩, here⟩ := matching_some.mp shown
    obtain ⟨told, read, tells⟩ := below_told represents spelled times seen some_left here
    exact ⟨told, read, item, shown, tells⟩
  obtain ⟨listed, run, related⟩ := @collect_related (List Name)
    (fun entry => toPathitem out w share entry text) (·.foldl joinText text) _ places each
  obtain ⟨content, written⟩ := Option.ne_none_iff_exists'.mp (json (listed.map Listed.item))
  refine ⟨listed, content, ?_, written, places, (out.walker.once _ _).filter _, kept, related⟩
  have all : queryDir out w share text query = .ok listed := by
    rw [queryDir, matching_below found dir]
    exact run
  simp only [handleQueryDir, all, bind, Except.bind, written]
  rfl

end Searches

section Archive
variable {aead : StreamAead} {share : KeyedShare} {d : List Name} {w : Disk} {s : Store Name Bytes}
  {target : Address Name} {out : Outside} {text : Bytes}

theorem keeps_archived {key : Option Key} {stored content : Bytes} (cipher : out.aead = aead)
    (keeps : Keeps aead key stored content) : archived out key stored = (content, true) := by
  cases key with
  | none =>
    rw [keeps.1]
    rfl
  | some key =>
    obtain ⟨readable, same⟩ := keeps
    rw [readable_archived cipher readable, same]

theorem documents_some {content : Bytes} {path rest : List Name} :
    s.documents path rest = some content ↔ s.get (path ++ rest) = some (.document content) := by
  unfold Store.documents
  cases s.get (path ++ rest) with
  | none => simp
  | some item => cases item <;> simp

theorem zip_loop_documents (represents : Represents aead share.key d w s)
    (spelled : pathOf text = direct (d ++ target.path) target.slash) (cipher : out.aead = aead)
    (seen : s.seen target = some .collection) {walked : List (List Name)}
    (below : ∀ rest ∈ walked, rest ≠ [] ∧ s.get (target.path ++ rest) ≠ none) :
    ∃ entries, zipLoop out w share text (walked.map (·.foldl joinText text)) = (entries, true) ∧
      List.Forall₂ (fun rest entry => entry.name = joinSegments rest ∧
          s.documents target.path rest = some entry.bytes)
        (walked.filter fun rest => (s.documents target.path rest).isSome && validUtf8 (joinSegments rest))
        entries := by
  induction walked with
  | nil => exact ⟨[], rfl, .nil⟩
  | cons rest others ih =>
    obtain ⟨later, run, related⟩ := ih fun other member => below other (List.mem_cons_of_mem _ member)
    obtain ⟨some_left, there⟩ := below rest List.mem_cons_self
    obtain ⟨item, here⟩ := Option.ne_none_iff_exists'.mp there
    obtain ⟨node, found, place, shows⟩ := below_found represents spelled seen some_left here
    have legal : Legal rest := below_legal (by rw [place]; exact Option.some_ne_none _)
    have stripped := strip_prefix_entries text legal some_left
    rw [List.map_cons, zipLoop, found.here]
    cases shows with
    | dir =>
      refine ⟨later, run, ?_⟩
      rw [List.filter_cons_of_neg (by simp [Store.documents, here])]
      exact related
    | file keeps =>
      have document := documents_some.mpr here
      simp only [stripped, found.followed, Option.filter_some]
      by_cases utf : validUtf8 (joinSegments rest) = true
      · refine ⟨_, by simp only [utf, ↓reduceIte, keeps_archived cipher keeps, run]; rfl, ?_⟩
        rw [List.filter_cons_of_pos (by simp [document, utf])]
        exact .cons ⟨rfl, document⟩ related
      · refine ⟨later, by simp only [utf, Bool.false_eq_true, ↓reduceIte, run], ?_⟩
        rw [List.filter_cons_of_neg (by simp [utf])]
        exact related

theorem collection_archived (rooted : Rooted share d) (represents : Represents aead share.key d w s)
    {wanted : Bytes} (addresses : Addresses share d wanted text target) (cipher : out.aead = aead)
    (seen : s.seen target = some .collection) :
    ∃ headers entries, handleZipDir out w share text false = .ok ⟨200, headers, .archive entries true⟩ ∧
      Archives (s.documents target.path) entries := by
  obtain ⟨found, dir⟩ := collection_place represents addresses.spelled seen
  have there (rest : List Name) := below_iff represents target.path rest
  obtain ⟨entries, run, related⟩ := @zip_loop_documents _ _ _ _ _ _ out _ represents addresses.spelled
    cipher seen (out.walker.entries w.tree (d ++ target.path)) fun rest member =>
      ⟨(out.walker.sound _ _ _ member).1, (there rest).mp (out.walker.sound _ _ _ member).2⟩
  have zipped : zipDir out w share text = (entries, true) := by
    rw [zipDir, walked_dir found dir, List.map_map]
    exact run
  obtain ⟨n, named⟩ := target_named rooted addresses
  refine ⟨_, entries, by simp only [handleZipDir, named, Bool.false_eq_true, ↓reduceIte, zipped]; rfl,
    _, (out.walker.once _ _).filter _, fun rest => ?_, related⟩
  rw [List.mem_filter, Bool.and_eq_true, Option.isSome_iff_ne_none]
  refine and_iff_right_of_imp fun ⟨document, _⟩ => ?_
  obtain ⟨content, here⟩ := Option.ne_none_iff_exists'.mp document
  have there' := documents_some.mp here
  refine out.walker.complete _ _ _ ?_ ((there rest).mpr (by rw [there']; exact Option.some_ne_none _))
  rintro rfl
  rw [List.append_nil, seen_there seen] at there'
  cases there'

end Archive
end VestibuleWebdav
