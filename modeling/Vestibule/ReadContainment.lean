import Vestibule.CopyRuns
import Vestibule.LinkedCalls
import Vestibule.TextEntries
import Vestibule.WebdavRequests

/-!
What the read requests of a dav show, and where it comes from. The path of a request is let through
only if it leads inside the directory, the entries below it are met without following links, and a
link that is listed is checked like the path of a request.
-/
namespace VestibuleWebdav
open VestibuleRust LexicalMotion FileTree FileCalls World LinkedLookups LinkedCalls PlainLookups
  VestibulePaths VestibuleCopyMove VestibuleStreamer VestibuleStorage VestibuleRanges

/-- The path leads to a place inside the directory of the dav, links resolved. -/
def Contained (w : Disk) (share : KeyedShare) (path : Bytes) : Prop :=
  ∃ dir loc, w.canonicalize (pathOf share.directory) = .ok dir ∧
    w.canonicalize (pathOf path) = .ok loc ∧ dir <+: loc

def Payload.sources : Payload → List Bytes
  | .file path _ => [path]
  | .archive entries _ => entries.map ZipEntry.path
  | .items listed _ => listed.map Listed.path
  | _ => []

def Payload.ReadFrom (out : Outside) (w : Disk) (share : KeyedShare) : Payload → Prop
  | .file path sent => ∃ headers headOnly,
      handleSendFile out.toSurroundings w (pathOf path) headers headOnly share.key = .ok sent
  | .archive entries _ => ∀ entry ∈ entries, ∃ stored,
      w.metadata (pathOf entry.path) = .ok (.file stored) ∧
        entry.bytes = (archived out share.key stored).1
  | .items listed written =>
      (∀ shown ∈ listed, ∃ base, toPathitem out w share shown.path base = .ok (some shown.item)) ∧
        (out.toJson (listed.map Listed.item) = some written ∨
          ∃ content, itemsXml out (listed.map Listed.item) = .ok content ∧
            written = multistatusXml content)
  | .text written => written = utf8 "Forbidden" ∨ written = utf8 "Not Found"
  | .empty => True

section Places
variable {w : Disk} {share : KeyedShare} {path : DiskPath} {loc : List Name} {n : Name}

theorem canonicalize_ok_iff :
    w.canonicalize path = .ok loc ↔ w.lookup true path = .ok loc ∧ w.tree.get loc ≠ none := by
  unfold canonicalize metadata stat
  cases w.lookup true path with
  | error e => simp
  | ok here =>
    dsimp only
    cases there : w.tree.get here with
    | none =>
      simp only [reduceCtorEq, Except.ok.injEq, false_iff, not_and, not_not]
      intro same
      exact same ▸ there
    | some node =>
      simp only [Except.ok.injEq]
      constructor
      · intro same
        exact ⟨same, by simp [← same, there]⟩
      · exact fun both => both.1

theorem root_contained_iff {path directory : Bytes} :
    isRootContained w (pathOf path) (pathOf directory) = true ↔
      ∃ dir loc, w.canonicalize (pathOf directory) = .ok dir ∧
        w.canonicalize (pathOf path) = .ok loc ∧ dir <+: loc := by
  unfold isRootContained
  cases w.canonicalize (pathOf directory) with
  | error e => simp
  | ok dir =>
    cases w.canonicalize (pathOf path) with
    | error e => simp
    | ok loc => simp

theorem below_entry {base : Bytes} (found : w.lookup true (pathOf base) = .ok loc)
    (dir : w.tree.isDir loc = true) (front : List Name)
    (there : w.tree.get (loc ++ (front ++ [n])) ≠ none) :
    w.entry (pathOf ((front ++ [n]).foldl joinText base)) = .ok (loc ++ front, some n) ∧
      (pathOf ((front ++ [n]).foldl joinText base)).slash = false := by
  induction front using List.reverseRecOn generalizing n with
  | nil =>
    obtain ⟨node, here⟩ := Option.ne_none_iff_exists'.mp there
    have shape : pathOf (joinText base n) = child (pathOf base) n :=
      path_of_entry base (w.tree.named loc n node here)
    simp only [List.nil_append, List.foldl_cons, List.foldl_nil, List.append_nil, shape]
    exact ⟨child_entry found dir n, rfl⟩
  | append_singleton front m ih =>
    obtain ⟨node, here⟩ := Option.ne_none_iff_exists'.mp there
    rw [← List.append_assoc] at here
    have above := w.tree.closed _ _ _ here
    have shape := path_of_entry ((front ++ [m]).foldl joinText base) (w.tree.named _ n node here)
    obtain ⟨entry, plain⟩ := @ih m (by rw [above]; exact Option.some_ne_none _)
    rw [← List.append_assoc] at above
    have dir' := is_dir_iff.mpr above
    have place := @entry_lookup _ _ _ _ _ true _ _ entry plain (.inr (not_linked_dir dir'))
    rw [List.foldl_append, List.foldl_cons, List.foldl_nil, shape, ← List.append_assoc]
    exact ⟨child_entry place dir' n, rfl⟩

theorem below_legal {t : DiskTree} {names : List Name} (there : t.get (loc ++ names) ≠ none) : Legal names := by
  induction names using List.reverseRecOn with
  | nil =>
    intro n member
    cases member
  | append_singleton front n ih =>
    obtain ⟨node, here⟩ := Option.ne_none_iff_exists'.mp there
    rw [← List.append_assoc] at here
    have above := t.closed _ _ _ here
    intro m member
    rcases List.mem_append.mp member with earlier | last
    · exact ih (by rw [above]; exact Option.some_ne_none _) m earlier
    · rw [List.mem_singleton.mp last]
      exact t.named _ n node here

theorem below_lookup {base : Bytes} {names : List Name} (found : w.lookup true (pathOf base) = .ok loc)
    (isDir : w.tree.isDir loc = true)
    (some_left : names ≠ []) (there : w.tree.get (loc ++ names) ≠ none) {follow : Bool}
    (final : follow = false ∨ ¬ Linked w.tree (loc ++ names)) :
    w.lookup follow (pathOf (names.foldl joinText base)) = .ok (loc ++ names) := by
  obtain ⟨front, n, rfl⟩ : ∃ front n, names = front ++ [n] :=
    ⟨names.dropLast, names.getLast some_left, (List.dropLast_append_getLast some_left).symm⟩
  obtain ⟨entry, plain⟩ := below_entry found isDir front there
  rw [← List.append_assoc] at final ⊢
  exact entry_lookup entry plain final

/-- What is not a link is inside, when it is met below a directory that is. -/
theorem below_contained {base : Bytes} {names : List Name} {node : Node Name UInt8}
    (contained : Contained w share base) (found : w.lookup true (pathOf base) = .ok loc)
    (dir : w.tree.isDir loc = true) (some_left : names ≠ [])
    (there : w.tree.get (loc ++ names) ≠ none)
    (kind : w.symlinkMetadata (pathOf (names.foldl joinText base)) = .ok node)
    (plain : isLink node = false) : Contained w share (names.foldl joinText base) := by
  obtain ⟨top, loc', directory, canonical, inside⟩ := contained
  obtain ⟨front, n, rfl⟩ : ∃ front n, names = front ++ [n] :=
    ⟨names.dropLast, names.getLast some_left, (List.dropLast_append_getLast some_left).symm⟩
  obtain ⟨entry, noSlash⟩ := below_entry found dir front there
  have place := @entry_lookup _ _ _ _ _ false _ _ entry noSlash (.inl rfl)
  obtain ⟨_, place', kind⟩ := stat_ok_iff.mp kind
  rw [place] at place'
  cases place'
  have unlinked : ¬ Linked w.tree (loc ++ front ++ [n]) := by
    intro linked
    obtain ⟨target, link⟩ := linked
    rw [link] at kind
    cases kind
    cases plain
  have followed := @entry_lookup _ _ _ _ _ true _ _ entry noSlash (.inr unlinked)
  have same : loc' = loc := by
    have here := (canonicalize_ok_iff.mp canonical).1
    rw [found] at here
    exact (Except.ok.inj here).symm
  subst same
  refine ⟨top, loc' ++ front ++ [n], directory, canonicalize_ok_iff.mpr ⟨followed, ?_⟩, ?_⟩
  · rw [kind]
    exact Option.some_ne_none _
  · rw [List.append_assoc]
    exact inside.trans (List.prefix_append _ _)

end Places

section Listing
variable {out : Outside} {w : Disk} {share : KeyedShare}

theorem walk_dir_below {path entry : Bytes} {n : Name} (listed : (entry, n) ∈ walkDir out w path) :
    ∃ loc names, w.lookup true (pathOf path) = .ok loc ∧ w.tree.isDir loc = true ∧
      names ≠ [] ∧ w.tree.get (loc ++ names) ≠ none ∧ entry = names.foldl joinText path := by
  unfold walkDir at listed
  cases found : w.lookup true (pathOf path) with
  | error e =>
    rw [found] at listed
    cases listed
  | ok loc =>
    rw [found] at listed
    dsimp only at listed
    split at listed
    · rename_i dir
      obtain ⟨names, member, same⟩ := List.mem_map.mp listed
      obtain ⟨some_left, there⟩ := out.walker.sound _ _ _ member
      exact ⟨loc, names, rfl, dir, some_left, there, (congrArg Prod.fst same).symm⟩
    · cases listed

theorem read_names_sound {listing : DiskListing} {t : DiskTree} {loc : List Name} {fuel : Nat}
    {seen : List Name} (before : ∀ n ∈ seen, t.get (loc ++ [n]) ≠ none) {n : Name}
    (listed : n ∈ readNames listing t loc fuel seen) : t.get (loc ++ [n]) ≠ none := by
  induction fuel generalizing seen with
  | zero => exact before n listed
  | succ fuel ih =>
    rw [readNames] at listed
    cases next : listing.next t t loc seen with
    | none =>
      rw [next] at listed
      exact before n listed
    | some m =>
      rw [next] at listed
      apply ih _ listed
      intro k member
      rcases List.mem_append.mp member with old | new
      · exact before k old
      · rw [List.mem_singleton.mp new]
        exact (listing.sound _ _ _ _ _ next).elim id id

theorem read_dir_below {path : Bytes} {names : List Name} {n : Name}
    (read : readDir out w path = .ok names) (member : n ∈ names) :
    ∃ loc, w.lookup true (pathOf path) = .ok loc ∧ w.tree.isDir loc = true ∧
      w.tree.get (loc ++ [n]) ≠ none := by
  unfold readDir at read
  cases found : w.lookup true (pathOf path) with
  | error e =>
    rw [found] at read
    cases read
  | ok loc =>
    rw [found] at read
    dsimp only at read
    split at read
    · rename_i dir
      cases read
      exact ⟨loc, rfl, dir, read_names_sound (fun _ member => by cases member) member⟩
    · cases read

theorem collect_items_mem {item : Bytes → Except Fault (Option PathItem)} {paths : List Bytes}
    {listed : List Listed} (run : collectItems item paths = .ok listed) {shown : Listed}
    (member : shown ∈ listed) : shown.path ∈ paths ∧ item shown.path = .ok (some shown.item) := by
  induction paths generalizing listed with
  | nil =>
    cases run
    cases member
  | cons path rest ih =>
    rw [collectItems] at run
    cases outcome : item path with
    | error fault =>
      rw [outcome] at run
      cases fault with
      | failed =>
        obtain ⟨inside, found⟩ := ih run member
        exact ⟨List.mem_cons_of_mem _ inside, found⟩
      | panicked p => cases run
      | unwrapped => cases run
    | ok found =>
      rw [outcome] at run
      cases found with
      | none =>
        obtain ⟨inside, found⟩ := ih run member
        exact ⟨List.mem_cons_of_mem _ inside, found⟩
      | some found =>
        cases later : collectItems item rest with
        | error fault =>
          simp only [later] at run
          cases run
        | ok listed' =>
          simp only [later] at run
          cases run
          rcases List.mem_cons.mp member with first | more
          · subst first
            exact ⟨List.mem_cons_self, outcome⟩
          · obtain ⟨inside, found⟩ := ih later more
            exact ⟨List.mem_cons_of_mem _ inside, found⟩

theorem pathitem_contained {path basePath : Bytes} {item : PathItem}
    (closed : share.allowSymlinks = false)
    (read : toPathitem out w share path basePath = .ok (some item))
    (plain : ∀ node, w.symlinkMetadata (pathOf path) = .ok node → isLink node = false →
      Contained w share path) : Contained w share path := by
  unfold toPathitem at read
  cases stripped : stripPrefix path basePath with
  | none =>
    rw [stripped] at read
    cases read
  | some relPath =>
    rw [stripped] at read
    dsimp only at read
    split at read
    · rename_i loc target node canonical followed here
      split at read
      · cases read
      · rename_i shown
        cases link : isLink node with
        | false => exact plain node here link
        | true =>
          apply root_contained_iff.mp
          simpa [closed, link] using shown
    · cases read

theorem zip_loop_mem {dir : Bytes} {paths : List Bytes} {entry : ZipEntry}
    (member : entry ∈ (zipLoop out w share dir paths).1) : entry.path ∈ paths ∧
      (∃ content, w.symlinkMetadata (pathOf entry.path) = .ok (.file content)) ∧
      ∃ stored, w.metadata (pathOf entry.path) = .ok (.file stored) ∧
        entry.bytes = (archived out share.key stored).1 := by
  induction paths with
  | nil => cases member
  | cons path rest ih =>
    have later : entry ∈ (zipLoop out w share dir rest).1 → entry.path ∈ path :: rest ∧
        (∃ content, w.symlinkMetadata (pathOf entry.path) = .ok (.file content)) ∧
        ∃ stored, w.metadata (pathOf entry.path) = .ok (.file stored) ∧
          entry.bytes = (archived out share.key stored).1 := by
      intro more
      obtain ⟨inside, found⟩ := ih more
      exact ⟨List.mem_cons_of_mem _ inside, found⟩
    rw [zipLoop] at member
    split at member
    · rename_i content kind
      split at member
      · exact later member
      · split at member
        · rename_i stored read
          dsimp only at member
          split at member
          · rcases List.mem_cons.mp member with first | more
            · subst first
              exact ⟨List.mem_cons_self, ⟨content, kind⟩, stored, read, rfl⟩
            · exact later more
          · rw [List.mem_singleton.mp member]
            exact ⟨List.mem_cons_self, ⟨content, kind⟩, stored, read, rfl⟩
        · cases member
    · exact later member

def Payload.Inside (out : Outside) (w : Disk) (share : KeyedShare) (payload : Payload) : Prop :=
  payload.ReadFrom out w share ∧ ∀ source ∈ payload.sources, Contained w share source

theorem archive_inside {path : Bytes} (contained : Contained w share path) :
    (Payload.archive (zipDir out w share path).1 (zipDir out w share path).2).Inside out w share := by
  constructor
  · intro entry member
    exact (zip_loop_mem member).2.2
  · intro source member
    obtain ⟨entry, listed, same⟩ := List.mem_map.mp member
    subst same
    obtain ⟨inside, ⟨content, kind⟩, _⟩ := zip_loop_mem listed
    obtain ⟨found, walked, same⟩ := List.mem_map.mp inside
    obtain ⟨loc, names, place, dir, some_left, there, named⟩ := walk_dir_below walked
    rw [← same, named] at kind ⊢
    exact below_contained contained place dir some_left there kind rfl

theorem listed_contained {path basePath : Bytes} {listed : List Listed} {paths : List Bytes}
    (closed : share.allowSymlinks = false) (contained : Contained w share path)
    (run : collectItems (fun entry => toPathitem out w share entry basePath) paths = .ok listed)
    (below : ∀ entry ∈ paths, ∃ loc names, w.lookup true (pathOf path) = .ok loc ∧
      w.tree.isDir loc = true ∧ names ≠ [] ∧ w.tree.get (loc ++ names) ≠ none ∧
      entry = names.foldl joinText path) {shown : Listed} (member : shown ∈ listed) :
    Contained w share shown.path ∧ toPathitem out w share shown.path basePath = .ok (some shown.item) := by
  obtain ⟨inside, read⟩ := collect_items_mem run member
  obtain ⟨loc, names, place, dir, some_left, there, named⟩ := below _ inside
  refine ⟨pathitem_contained closed read (fun node kind plain => ?_), read⟩
  rw [named] at kind ⊢
  exact below_contained contained place dir some_left there kind plain

theorem query_dir_contained {path query : Bytes} {listed : List Listed}
    (closed : share.allowSymlinks = false) (contained : Contained w share path)
    (run : queryDir out w share path query = .ok listed) {shown : Listed} (member : shown ∈ listed) :
    Contained w share shown.path ∧ toPathitem out w share shown.path path = .ok (some shown.item) := by
  apply listed_contained closed contained run _ member
  intro entry inside
  obtain ⟨found, walked, kept⟩ := List.mem_filterMap.mp inside
  obtain ⟨_, same⟩ := Option.ite_none_right_eq_some.mp kept
  cases same
  exact walk_dir_below walked

theorem list_dir_contained {path basePath : Bytes} {listed : List Listed}
    (closed : share.allowSymlinks = false) (contained : Contained w share path)
    (run : listDir out w share path basePath = .ok listed) {shown : Listed} (member : shown ∈ listed) :
    Contained w share shown.path ∧
      toPathitem out w share shown.path basePath = .ok (some shown.item) := by
  unfold listDir at run
  cases read : readDir out w path with
  | error e =>
    rw [read] at run
    cases run
  | ok names =>
    rw [read] at run
    apply listed_contained closed contained run _ member
    intro entry inside
    obtain ⟨n, named, same⟩ := List.mem_map.mp inside
    obtain ⟨loc, place, dir, there⟩ := read_dir_below read named
    exact ⟨loc, [n], place, dir, by simp, there, same.symm⟩

end Listing

section Requests
variable {out : Outside} {w w' : Disk} {share : KeyedShare} {request : Request} {path : Bytes}
  {fuel : Nat} {outcome : Outcome} {response : Response}

theorem handle_cases (run : handle out share fuel w request = some (w', outcome)) :
    (w' = w ∧ ((∃ fault, outcome = .error fault) ∨ outcome = .ok statusForbid ∨
      outcome = .ok statusNotFound)) ∨
    ∃ path, (share.allowSymlinks = false → (factsOf w (pathOf path)).isMiss = false →
        Contained w share path) ∧
      handleMethod out share fuel w request path (factsOf w (pathOf path)) = some (w', outcome) := by
  unfold handle at run
  split at run
  · cases run
    exact .inl ⟨rfl, .inl ⟨_, rfl⟩⟩
  · cases run
    exact .inl ⟨rfl, .inr (.inl rfl)⟩
  · rename_i path _
    dsimp only at run
    split at run
    · cases run
      exact .inl ⟨rfl, .inr (.inr rfl)⟩
    · rename_i through
      refine .inr ⟨path, fun closed present => ?_, run⟩
      apply root_contained_iff.mp
      simpa [closed, present] using through

theorem present_of_dir {path : DiskPath} (dir : (factsOf w path).isDir = true) :
    (factsOf w path).isMiss = false := by
  unfold factsOf at dir ⊢
  split at dir
  · cases dir
  · rfl

theorem present_of_file {path : DiskPath} (file : (factsOf w path).isFile = true) :
    (factsOf w path).isMiss = false := by
  unfold factsOf at file ⊢
  split at file
  · cases file
  · rfl

theorem nothing_inside {payload : Payload} (bare : payload.sources = [])
    (read : payload.ReadFrom out w share) : payload.Inside out w share := by
  refine ⟨read, ?_⟩
  rw [bare]
  intro source member
  cases member

theorem get_inside (closed : share.allowSymlinks = false)
    (gate : (factsOf w (pathOf path)).isMiss = false → Contained w share path)
    (run : handleGet out share w request path (factsOf w (pathOf path)) = .ok response) :
    response.payload.Inside out w share := by
  unfold handleGet at run
  dsimp only at run
  split at run
  · rename_i dir
    have contained := gate (present_of_dir dir)
    split at run
    · unfold handleZipDir at run
      split at run
      · cases run
      · dsimp only at run
        split at run
        · cases run
          exact nothing_inside rfl trivial
        · cases run
          exact archive_inside contained
    · split at run
      · unfold handleQueryDir at run
        cases found : queryDir out w share path ((decodeUri (request.query.drop 2)).getD []) with
        | error fault =>
          rw [found] at run
          cases run
        | ok listed =>
          simp only [found, bind, Except.bind] at run
          split at run
          · cases run
          · cases run
            constructor
            · refine ⟨fun shown member => ?_, .inl ‹_›⟩
              exact ⟨path, (query_dir_contained closed contained found member).2⟩
            · intro source member
              obtain ⟨shown, inside, same⟩ := List.mem_map.mp member
              exact same ▸ (query_dir_contained closed contained found inside).1
      · cases run
        exact nothing_inside rfl trivial
  · split at run
    · rename_i file
      have contained := gate (present_of_file file)
      cases sent : handleSendFile out.toSurroundings w (pathOf path) request.headers
          (request.method = .head) share.key with
      | error fault =>
        rw [sent] at run
        cases run
      | ok sent' =>
        rw [sent] at run
        cases run
        constructor
        · exact ⟨_, _, sent⟩
        · intro source member
          exact List.mem_singleton.mp member ▸ contained
    · cases run
      exact nothing_inside rfl (.inr rfl)

theorem multistatus_inside {listed : List Listed} {content : Bytes}
    (made : itemsXml out (listed.map Listed.item) = .ok content)
    (inside : ∀ shown ∈ listed, Contained w share shown.path ∧
      ∃ base, toPathitem out w share shown.path base = .ok (some shown.item)) :
    (resMultistatus listed content).payload.Inside out w share := by
  constructor
  · exact ⟨fun shown member => (inside shown member).2, .inr ⟨content, made, rfl⟩⟩
  · intro source member
    obtain ⟨shown, among, same⟩ := List.mem_map.mp member
    exact same ▸ (inside shown among).1

theorem propfind_dir_inside {headers : Headers} (closed : share.allowSymlinks = false)
    (contained : Contained w share path)
    (run : handlePropfindDir out w share path headers = .ok response) :
    response.payload.Inside out w share := by
  unfold handlePropfindDir at run
  split at run
  · cases run
    exact nothing_inside rfl trivial
  · rename_i depth _
    obtain ⟨found, read, run⟩ := bind_ok_iff.mp run
    cases found with
    | none => cases run
    | some item =>
      dsimp only at run
      split at run
      · obtain ⟨content, made, run⟩ := bind_ok_iff.mp run
        cases run
        apply multistatus_inside made
        intro shown member
        rw [List.mem_singleton.mp member]
        exact ⟨contained, _, read⟩
      · split at run
        · rename_i child children
          obtain ⟨content, made, run⟩ := bind_ok_iff.mp run
          cases run
          apply multistatus_inside made
          intro shown member
          rcases List.mem_cons.mp member with own | below
          · rw [own]
            exact ⟨contained, _, read⟩
          · obtain ⟨inside, read⟩ := list_dir_contained closed contained children below
            exact ⟨inside, _, read⟩
        · cases run
          exact nothing_inside rfl (.inl rfl)
        · cases run

theorem propfind_inside (closed : share.allowSymlinks = false)
    (gate : (factsOf w (pathOf path)).isMiss = false → Contained w share path)
    (run : handlePropfind out share w request path (factsOf w (pathOf path)) = .ok response) :
    response.payload.Inside out w share := by
  unfold handlePropfind at run
  split at run
  · rename_i dir
    exact propfind_dir_inside closed (gate (present_of_dir dir)) run
  · split at run
    · rename_i file
      obtain ⟨found, read, run⟩ := bind_ok_iff.mp run
      cases found with
      | none =>
        cases run
        exact nothing_inside rfl (.inr rfl)
      | some item =>
        obtain ⟨content, made, run⟩ := bind_ok_iff.mp run
        cases run
        have listed : itemsXml out [item] = .ok content := by
          rw [itemsXml, itemsXml, made]
          exact congrArg Except.ok (List.append_nil content)
        refine multistatus_inside listed ?_
        intro shown member
        rw [List.mem_singleton.mp member]
        exact ⟨gate (present_of_file file), _, read⟩
    · cases run
      exact nothing_inside rfl (.inr rfl)

/-- Whatever a GET, a HEAD or a PROPFIND shows of the tree comes from inside the directory. -/
theorem shown_is_inside (closed : share.allowSymlinks = false)
    (reads : request.method = .get ∨ request.method = .head ∨ request.method = .propfind)
    (run : handle out share fuel w request = some (w', .ok response)) :
    response.payload.Inside out w share := by
  rcases handle_cases run with ⟨_, refused⟩ | ⟨path, gate, run⟩
  · rcases refused with ⟨fault, failed⟩ | forbidden | missing
    · cases failed
    · cases forbidden
      exact nothing_inside rfl (.inl rfl)
    · cases missing
      exact nothing_inside rfl (.inr rfl)
  · have gate := gate closed
    unfold handleMethod at run
    rcases reads with get | head | propfind
    · simp only [get, Option.some.injEq, Prod.mk.injEq] at run
      exact get_inside closed gate run.2
    · simp only [head, Option.some.injEq, Prod.mk.injEq] at run
      exact get_inside closed gate run.2
    · simp only [propfind, Option.some.injEq, Prod.mk.injEq] at run
      exact propfind_inside closed gate run.2

end Requests

section Samples

def sampleOutside : Outside where
  toSurroundings := sampleSurroundings
  uri := some
  listing := World.Listing.asOpened
  walker := .asKept
  lowercase := id
  toRfc2822 _ := some []
  escapePcdata := id
  toJson _ := some []
  uuid := []
  nonce := sampleNonce

def outwardDisk : Disk where
  tree := ((Tree.bare.put [] [100] .dir directory_fits).put [] [101] .dir (by decide)
    |>.put [[100]] [102] (.file [1, 2, 3]) (by decide)
    |>.put [[100]] [108] (.link (pathOf (utf8 "/e"))) (by decide))
  cwd := []
  touched := []

def closedShare : KeyedShare := ⟨⟨utf8 "/d", true, false⟩, none⟩

end Samples

/-- The link that leads out of the directory is not listed. -/
theorem outward_link_hidden : ∃ response,
    handle sampleOutside closedShare 0 outwardDisk ⟨.propfind, utf8 "/", [], [], []⟩ =
        some (outwardDisk, .ok response) ∧
      response.payload.sources = [utf8 "/d/", utf8 "/d/f"] ∧
      response.payload.Inside sampleOutside outwardDisk closedShare := by
  have run : ∃ response, handle sampleOutside closedShare 0 outwardDisk
      ⟨.propfind, utf8 "/", [], [], []⟩ = some (outwardDisk, .ok response) ∧
      response.payload.sources = [utf8 "/d/", utf8 "/d/f"] := ⟨_, rfl, by decide⟩
  obtain ⟨response, run, sources⟩ := run
  exact ⟨response, run, sources, shown_is_inside rfl (.inr (.inr rfl)) run⟩

end VestibuleWebdav
