import Vestibule.CallFootprints
import Vestibule.CopyTrees
import Vestibule.UnfinishedCopies

/-!
Runs of `do_copy` in a tree with symbolic links, ended or not: what is written stays below the directory
that is made for the copy, and what is read are the files of the source and what its links lead to, when
as many directories of the copy are there as can be.
-/
namespace VestibuleCopyMove
open VestibuleRust LexicalMotion FileTree FileCalls World VestibulePaths PlainLookups PlainCalls
  LinkedLookups LinkedCalls CallFootprints

/-- The tree has grown at `d` and below, by directories and files only. -/
structure Grown (d : List Name) (w w' : Disk) : Prop where
  cwd : w'.cwd = w.cwd
  more : Extends w.tree w'.tree
  outside : ∀ loc, ¬ d <+: loc → w'.tree.get loc = w.tree.get loc
  plain : ∀ loc, d <+: loc → ¬ Linked w'.tree loc

section Growth
variable {w w₁ w₂ w' : Disk} {d e : List Name}

theorem extends_refl (t : DiskTree) : Extends t t :=
  ⟨fun _ found => found, fun _ _ found => found, fun _ content found => ⟨content, found⟩⟩

theorem extends_there {t t' : DiskTree} {loc : List Name} (more : Extends t t') (there : t.get loc ≠ none) :
    t'.get loc ≠ none := by
  obtain ⟨node, found⟩ := Option.ne_none_iff_exists'.mp there
  cases node with
  | dir => simp [more.dir loc found]
  | link target => simp [more.link loc target found]
  | file content =>
    obtain ⟨content', found'⟩ := more.file loc content found
    simp [found']

theorem missing_grown (missing : w.tree.get d = none) : Grown d w w where
  cwd := rfl
  more := extends_refl _
  outside _ _ := rfl
  plain loc inside := by
    obtain ⟨rest, whole⟩ := inside
    exact not_linked_missing (whole ▸ below_missing w.tree missing rest)

theorem extends_trans {t t₁ t₂ : DiskTree} (first : Extends t t₁) (later : Extends t₁ t₂) :
    Extends t t₂ where
  dir loc found := later.dir loc (first.dir loc found)
  link loc target found := later.link loc target (first.link loc target found)
  file loc content found := by
    obtain ⟨content', found'⟩ := first.file loc content found
    exact later.file loc content' found'

theorem grown_trans (first : Grown d w w₁) (inner : d <+: e) (later : Grown e w₁ w₂) :
    Grown d w w₂ where
  cwd := later.cwd.trans first.cwd
  more := extends_trans first.more later.more
  outside loc out := (later.outside loc fun below => out (inner.trans below)).trans (first.outside loc out)
  plain loc inside := by
    by_cases below : e <+: loc
    · exact later.plain loc below
    · intro linked
      obtain ⟨target, link⟩ := linked
      rw [later.outside loc below] at link
      exact first.plain loc inside ⟨target, link⟩

theorem puts_grown {node : Node Name UInt8} (puts : Puts w w' d node) (missing : w.tree.get d = none)
    (unlinked : ∀ target, node ≠ .link target) : Grown d w w' where
  cwd := puts.cwd
  more := puts_extends puts missing
  outside loc out := by
    rw [puts.get, if_neg]
    intro same
    exact out (same ▸ List.prefix_rfl)
  plain loc inside := by
    intro linked
    obtain ⟨target, link⟩ := linked
    rw [puts.get] at link
    split at link
    · exact unlinked target (Option.some.inj link)
    · exact (missing_grown missing).plain loc inside ⟨target, link⟩

theorem grown_beside {m n : Name} (grown : Grown (e ++ [n]) w w') (other : m ≠ n) :
    w'.tree.get (e ++ [m]) = w.tree.get (e ++ [m]) := by
  apply grown.outside
  intro inside
  rcases List.prefix_concat_iff.mp inside with same | longer
  · exact other (List.append_singleton_inj.mp same).2.symm
  · have width := longer.length_le
    simp only [List.length_append, List.length_singleton] at width
    omega

end Growth

section Calls
variable {listing : DiskListing} {fuel : Nat} {w w' : Disk} {source topdest dest : DiskPath}
  {destIsDir : Bool} {depth : Depth} {result : Option (Except FsError Unit)} {e : List Name} {n : Name}

theorem made_kept (no : ∀ p n, ¬ Creates w dest p n) : made w dest destIsDir = w := by
  obtain ⟨e, failed⟩ := create_dir_refused no
  unfold made
  rw [failed]
  split <;> rfl

theorem made_touches {inside : List Name → Prop} : TouchesWithin inside w (made w dest destIsDir) ↔
    (destIsDir = true → ∀ p n, Creates w dest p n → inside (p ++ [n])) := by
  cases destIsDir with
  | false => exact iff_of_true (touches_refl w) fun isDir => by cases isDir
  | true =>
    constructor
    · intro within _ p n creates
      exact (touches_iff (create_dir_done creates).2.2).mp within _ List.mem_cons_self
    · intro safe
      by_cases can : ∃ p n, Creates w dest p n
      · obtain ⟨p, n, creates⟩ := can
        refine (touches_iff (create_dir_done creates).2.2).mpr fun place member => ?_
        exact List.mem_singleton.mp member ▸ safe rfl p n creates
      · rw [made_kept fun p n creates => can ⟨p, n, creates⟩]
        exact touches_refl w

theorem entries_idle {opened : DiskTree} {loc seen : List Name} {body : Disk → Name → Bool → SoFar}
    {retval : Except FsError Unit} (idle : ∀ name isDir next r, body w name isDir = (next, r) → next = w)
    (run : entriesSoFar listing opened loc body fuel w seen retval = (w', result)) : w' = w := by
  obtain ⟨now, _, same, rests | ⟨name, node, _, _, one, _⟩⟩ := entries_rule
    (P := fun now _ => now = w) (by
      intro now seen name node next r same _ _ one
      subst same
      exact idle _ _ _ _ one) fuel rfl run
  · exact rests.1.trans same
  · subst same
    exact idle _ _ _ _ one

theorem so_far_closed {base : DiskPath} (some_left : isBlank base = false)
    (closed : ∀ loc, w.lookup true base = .ok loc → w.tree.isDir loc = false)
    (run : copySoFar listing fuel w source topdest (child base n) destIsDir depth = (w', result)) :
    w' = w := by
  induction fuel generalizing w' source base n destIsDir result with
  | zero =>
    cases run
    rfl
  | succ fuel ih =>
    have nowhere : ∀ loc, w.lookup true (child base n) ≠ .ok loc := by
      intro loc found
      obtain ⟨mid, place, dir⟩ := child_found some_left found
      rw [closed mid place] at dir
      cases dir
    have same : made w (child base n) destIsDir = w := made_kept fun p m creates => by
      obtain ⟨mid, place, dir⟩ := child_entered some_left creates.entry
      rw [closed mid place] at dir
      cases dir
    rcases so_far_steps run with still | ⟨_, _, still⟩ | ⟨content, name, _, copied⟩ |
      ⟨node, loc, _, _, _, _, loop⟩
    · exact still
    · exact still.trans same
    · rw [same] at copied
      obtain ⟨e, failed⟩ := copy_file_refused (w := w) source (fileTarget (child base n) destIsDir name)
        fun content p m _ opened => by
          have place := opened.place
          unfold fileTarget at place
          split at place
          · obtain ⟨mid, found, _⟩ := child_found (child_not_blank base n) place
            exact nowhere mid found
          · exact nowhere _ place
      rw [copied, failed]
    · rw [same] at loop
      exact entries_idle (fun name isDir next r one =>
        ih (child_not_blank base n) (fun loc found => absurd found (nowhere loc)) one) loop

/-- An entry that is no directory: a file is copied, and of a link the file it leads to. -/
theorem so_far_leaf (place : w.lookup true dest = .ok e) (dir : w.tree.isDir e = true)
    (missing : w.tree.get (e ++ [n]) = none)
    (run : copySoFar listing fuel w source topdest (child dest n) false depth = (w', result)) :
    w' = w ∨ ∃ loc content content', w.lookup true source = .ok loc ∧
      w.tree.get loc = some (.file content) ∧ Puts w w' (e ++ [n]) (.file content') ∧
      w'.touched = w.touched ++ [e ++ [n], loc, e ++ [n]] := by
  have target : w.lookup true (child dest n) = .ok (e ++ [n]) :=
    entry_lookup (child_entry place dir n) rfl (.inr (not_linked_missing missing))
  cases fuel with
  | zero =>
    cases run
    exact .inl rfl
  | succ fuel =>
    rcases so_far_steps run with same | ⟨_, _, same⟩ | ⟨content, name, found, copied⟩ |
      ⟨node, loc, _, _, _, _, loop⟩
    · exact .inl same
    · exact .inl same
    · have copied : w' = (w.copyFile source (child dest n)).1 := copied
      obtain ⟨loc, leads, file⟩ := stat_ok_iff.mp found
      by_cases can : ∃ p m, OpensTo w (child dest n) p m
      · obtain ⟨p, m, opened⟩ := can
        have whole : e ++ [n] = p ++ [m] := by
          have place := opened.place
          rw [target] at place
          exact Except.ok.inj place
        obtain ⟨_, puts, touched⟩ := copy_file_done leads file opened
        rw [← copied, ← whole] at puts touched
        exact .inr ⟨loc, content, _, leads, file, puts, touched⟩
      · obtain ⟨e', failed⟩ := copy_file_refused (w := w) source (child dest n)
          fun _ p m _ opened => can ⟨p, m, opened⟩
        exact .inl (by rw [copied, failed])
    · refine .inl (entries_idle (fun name isDir next r one => ?_) loop)
      refine so_far_closed (child_not_blank dest n) (fun loc found => ?_) one
      rw [target] at found
      cases found
      exact missing_not_dir missing

end Calls

section Spelling
variable {w : Disk} {a b : DiskPath} {loc p q : List Name} {n m : Name}

theorem components_moves (path : DiskPath) : (components path).filter moves = path.steps.filter moves := by
  have dots (steps : List (Step Name)) : (steps.filter (· ≠ .here)).filter moves = steps.filter moves := by
    rw [List.filter_filter]
    congr 1
    funext s
    cases s <;> rfl
  unfold components
  split
  · rename_i rest _ steps
    rw [steps]
    exact dots rest
  · exact dots path.steps

theorem same_path_moves (same : samePath a b = true) (front : List (Step Name)) :
    a.absolute = b.absolute ∧ (front ++ a.steps).filter moves = (front ++ b.steps).filter moves := by
  simp only [samePath, Bool.and_eq_true, decide_eq_true_eq] at same
  refine ⟨same.1, ?_⟩
  rw [List.filter_append, List.filter_append, ← components_moves a, same.2, components_moves b]

theorem same_full_moves (same : samePath a b = true) :
    (w.fullSteps b).filter moves = (w.fullSteps a).filter moves := by
  obtain ⟨rooted, steps⟩ := same_path_moves same []
  obtain ⟨_, relative⟩ := same_path_moves same (w.cwd.map .name)
  unfold fullSteps
  rw [rooted]
  split
  · exact steps.symm
  · exact relative.symm

theorem same_path_dir (same : samePath a b = true) (found : w.lookup true a = .ok loc)
    (dir : w.tree.isDir loc = true) (some_left : isBlank b = false) : w.lookup true b = .ok loc := by
  obtain ⟨_, route, _⟩ := lookup_route_iff.mp found
  rw [Bool.true_or] at route
  exact lookup_route_iff.mpr ⟨some_left,
    route_same_moves route (is_dir_iff.mp dir) (same_full_moves same), fun _ => dir⟩

theorem same_path_entry (same : samePath a b = true) (first : w.entry a = .ok (p, some n))
    (second : w.entry b = .ok (q, some m)) : p = q ∧ n = m := by
  obtain ⟨last, route, dir⟩ := entry_route_iff.mp first
  obtain ⟨last', route', _⟩ := entry_route_iff.mp second
  have moved := same_full_moves (w := w) same
  rw [full_steps_last last, full_steps_last last', List.filter_append, List.filter_append] at moved
  obtain ⟨fronts, names⟩ := List.append_singleton_inj.mp moved
  cases names
  have other := route_same_moves route (is_dir_iff.mp dir) fronts
  exact ⟨route_unique other route', rfl⟩

end Spelling

section Trees
variable {listing : DiskListing} {inside : List Name → Prop} {w₀ w w' now next : Disk}
  {path dest : DiskPath} {depth : Depth} {s d names seen : List Name} {m : Name}
  {result : Option (Except FsError Unit)} {fuel : Nat}

/-- The recursion meets the destination under its own spelling, and passes it over. -/
def Skips (path dest : DiskPath) (s d : List Name) : Prop :=
  ∃ rest, s ++ rest = d ∧ samePath (descend path rest) dest = true

/-- Where the call for the directory at `names` below the source starts. -/
structure TreeCall (w₀ : Disk) (path dest : DiskPath) (s d names : List Name) (w : Disk) : Prop where
  grown : Grown d w₀ w
  found : w.lookup true (descend path names) = .ok (s ++ names)
  dir : w.tree.isDir (s ++ names) = true
  outside : Skips path dest s d → ¬ d <+: s ++ names
  top : ∃ p n, p ++ [n] = d ∧ w.entry dest = .ok (p, some n)
  makes : ∃ p n, p ++ [n] = d ++ names ∧ Creates w (descend dest names) p n

/-- Directories of the copy are copies of directories of the source, or of what is in the destination. -/
def Mirrors (w₀ : Disk) (path dest : DiskPath) (s d x : List Name) : Prop :=
  w₀.tree.isDir (s ++ x) = true ∨ ¬ Skips path dest s d ∧ d <+: s ++ x

structure Copying (w₀ : Disk) (path dest : DiskPath) (s d names : List Name) (w w' : Disk) : Prop where
  grown : Grown (d ++ names) w w'
  mirrors : ∀ x, names <+: x → w'.tree.isDir (d ++ x) = true → Mirrors w₀ path dest s d x

structure Filling (w₀ : Disk) (path dest : DiskPath) (s d names : List Name) (w now : Disk)
    (seen : List Name) : Prop where
  copying : Copying w₀ path dest s d names w now
  kept : Extends (made w (descend dest names) true).tree now.tree
  here : now.tree.isDir (d ++ names) = true
  vacant : ∀ m, m ∉ seen → now.tree.get (d ++ names ++ [m]) = none

theorem call_missing (call : TreeCall w₀ path dest s d names w) : w.tree.get (d ++ names) = none := by
  obtain ⟨p, n, whole, creates⟩ := call.makes
  exact whole ▸ creates.missing

theorem call_different (call : TreeCall w₀ path dest s d names w) :
    samePath (descend path names) dest = false := by
  cases same : samePath (descend path names) dest with
  | false => rfl
  | true =>
    obtain ⟨p, n, whole, entry⟩ := call.top
    have some_left : isBlank dest = false := by
      have last := (entry_walk_iff.mp entry).1
      unfold isBlank
      cases steps : dest.steps with
      | nil =>
        rw [steps] at last
        cases last
      | cons s rest => simp
    have found := same_path_dir same call.found call.dir some_left
    have place := lookup_entry found entry (.inr (whole ▸ call.grown.plain d List.prefix_rfl))
    rw [whole] at place
    exact absurd (place ▸ List.prefix_rfl) (call.outside ⟨names, place, same⟩)

theorem tree_call_started (call : TreeCall w₀ path dest s d names w) :
    Filling w₀ path dest s d names w (made w (descend dest names) true) [] ∧
      (made w (descend dest names) true).touched = w.touched ++ [d ++ names] := by
  obtain ⟨p, n, whole, creates⟩ := call.makes
  obtain ⟨_, puts, touched⟩ := create_dir_done creates
  have first : made w (descend dest names) true = (w.createDir (descend dest names)).1 := rfl
  have missing := call_missing call
  rw [first]
  rw [whole] at puts touched
  refine ⟨⟨⟨puts_grown puts missing (by simp), fun x below dir => ?_⟩, extends_refl _, ?_,
    fun m _ => ?_⟩, touched⟩
  · obtain ⟨rest, same⟩ := below
    subst same
    rw [is_dir_iff, puts.get, ← List.append_assoc] at dir
    split at dir
    · rename_i bare
      rw [List.append_right_eq_self.mp bare, List.append_nil]
      by_cases within : d <+: s ++ names
      · exact .inr ⟨fun skips => call.outside skips within, within⟩
      · rw [Mirrors, is_dir_iff, ← call.grown.outside _ within, ← is_dir_iff]
        exact .inl call.dir
    · rw [below_missing w.tree missing rest] at dir
      cases dir
  · rw [is_dir_iff, puts.get, if_pos rfl]
  · rw [puts.get, if_neg (concat_ne_parent _ _).symm]
    exact below_missing w.tree missing [m]

theorem filling_places (call : TreeCall w₀ path dest s d names w)
    (filling : Filling w₀ path dest s d names w now seen) :
    now.lookup true (descend path names) = .ok (s ++ names) ∧ now.tree.isDir (s ++ names) = true ∧
      now.lookup true (descend dest names) = .ok (d ++ names) := by
  have grown := filling.copying.grown
  obtain ⟨p, n, whole, creates⟩ := call.makes
  refine ⟨?_, is_dir_iff.mpr (grown.more.dir _ (is_dir_iff.mp call.dir)), ?_⟩
  · exact lookup_extends grown.cwd grown.more call.found (by rw [is_dir_iff.mp call.dir]; simp)
  · rw [← whole]
    exact entry_lookup_dir (entry_extends grown.cwd grown.more creates.entry) (whole ▸ filling.here)

theorem tree_child (call : TreeCall w₀ path dest s d names w)
    (filling : Filling w₀ path dest s d names w now seen) (unseen : m ∉ seen)
    (entry : now.tree.get (s ++ names ++ [m]) = some .dir) :
    Skips path dest s d ∧ d = s ++ (names ++ [m]) ∧ samePath (descend path (names ++ [m])) dest = true ∨
      TreeCall w₀ path dest s d (names ++ [m]) now := by
  by_cases skipped : Skips path dest s d ∧ d <+: s ++ (names ++ [m])
  · obtain ⟨skips, within⟩ := skipped
    rw [← List.append_assoc, List.prefix_concat_iff] at within
    have same := within.resolve_right (call.outside skips)
    rw [List.append_assoc] at same
    obtain ⟨rest, whole, spelled⟩ := skips
    rw [same, List.append_cancel_left_eq] at whole
    exact .inl ⟨⟨rest, by rw [same, whole], spelled⟩, same, whole ▸ spelled⟩
  · obtain ⟨source, source_dir, target⟩ := filling_places call filling
    refine .inr ⟨grown_trans call.grown (List.prefix_append _ _) filling.copying.grown, ?_, ?_,
      fun skips within => skipped ⟨skips, within⟩, ?_, d ++ names, m, List.append_assoc _ _ _, ?_⟩
    · rw [descend_concat, ← List.append_assoc]
      exact entry_lookup_dir (child_entry source source_dir m) (is_dir_iff.mpr entry)
    · rw [← List.append_assoc]
      exact is_dir_iff.mpr entry
    · obtain ⟨p, n, whole, named⟩ := call.top
      exact ⟨p, n, whole, entry_extends filling.copying.grown.cwd filling.copying.grown.more named⟩
    · rw [descend_concat]
      exact ⟨child_entry target filling.here m, filling.vacant m unseen, now.tree.named _ _ _ entry⟩

theorem filling_step (filling : Filling w₀ path dest s d names w now seen)
    (copied : Copying w₀ path dest s d (names ++ [m]) now next) :
    Filling w₀ path dest s d names w next (seen ++ [m]) := by
  have place : d ++ (names ++ [m]) = d ++ names ++ [m] := (List.append_assoc _ _ _).symm
  have grown := place ▸ copied.grown
  refine ⟨⟨grown_trans filling.copying.grown (List.prefix_append _ _) grown, fun x below dir => ?_⟩,
    extends_trans filling.kept grown.more,
    is_dir_iff.mpr (grown.more.dir _ (is_dir_iff.mp filling.here)), fun n unseen => ?_⟩
  · by_cases inner : names ++ [m] <+: x
    · exact copied.mirrors x inner dir
    · rw [is_dir_iff, copied.grown.outside _ fun under => inner
        ((List.prefix_append_right_inj d).mp under), ← is_dir_iff] at dir
      exact filling.copying.mirrors x below dir
  · simp only [List.mem_append, List.mem_singleton, not_or] at unseen
    rw [grown_beside grown unseen.2]
    exact filling.vacant n unseen.1

theorem skipped_copying (missing : now.tree.get (d ++ names) = none) :
    Copying w₀ path dest s d names now now where
  grown := missing_grown missing
  mirrors x below dir := by
    obtain ⟨rest, same⟩ := below
    rw [← same, is_dir_iff, ← List.append_assoc, below_missing now.tree missing rest] at dir
    cases dir

theorem file_copying {content : List UInt8} (missing : now.tree.get (d ++ names) = none)
    (puts : Puts now next (d ++ names) (.file content)) : Copying w₀ path dest s d names now next where
  grown := puts_grown puts missing (by simp)
  mirrors x below dir := by
    obtain ⟨rest, same⟩ := below
    rw [← same, is_dir_iff, ← List.append_assoc, puts.get] at dir
    split at dir
    · cases dir
    · rw [below_missing now.tree missing rest] at dir
      cases dir

abbrev entryCall (listing : DiskListing) (fuel : Nat) (path dest : DiskPath) (names : List Name)
    (depth : Depth) (now : Disk) (m : Name) (node : Node Name UInt8) : SoFar :=
  copyEntry listing fuel (descend path names) dest (descend dest names) depth now m (isDirNode node)

theorem leaf_copied {node : Node Name UInt8} (call : TreeCall w₀ path dest s d names w)
    (filling : Filling w₀ path dest s d names w now seen) (unseen : m ∉ seen)
    (plain : isDirNode node = false)
    (run : entryCall listing fuel path dest names depth now m node = (next, result)) :
    next = now ∨ ∃ loc content content', now.lookup true (descend path (names ++ [m])) = .ok loc ∧
      now.tree.get loc = some (.file content) ∧ Puts now next (d ++ (names ++ [m])) (.file content') ∧
      next.touched = now.touched ++ [d ++ (names ++ [m]), loc, d ++ (names ++ [m])] := by
  obtain ⟨_, _, target⟩ := filling_places call filling
  unfold entryCall copyEntry at run
  rw [plain] at run
  have done := so_far_leaf target filling.here (filling.vacant m unseen) run
  rw [List.append_assoc, ← descend_concat] at done
  exact done

theorem entry_copied {node : Node Name UInt8}
    (grows : ∀ {names now next result}, TreeCall w₀ path dest s d names now →
      copySoFar listing fuel now (descend path names) dest (descend dest names) true depth =
        (next, result) → Copying w₀ path dest s d names now next)
    (call : TreeCall w₀ path dest s d names w) (filling : Filling w₀ path dest s d names w now seen)
    (unseen : m ∉ seen) (entry : now.tree.get (s ++ names ++ [m]) = some node)
    (run : entryCall listing fuel path dest names depth now m node = (next, result)) :
    Copying w₀ path dest s d (names ++ [m]) now next := by
  have missing : now.tree.get (d ++ (names ++ [m])) = none :=
    List.append_assoc d _ _ ▸ filling.vacant m unseen
  have leaf (plain : isDirNode node = false) : Copying w₀ path dest s d (names ++ [m]) now next := by
    rcases leaf_copied call filling unseen plain run with same | ⟨_, _, _, _, _, puts, _⟩
    · rw [same]
      exact skipped_copying missing
    · exact file_copying missing puts
  cases node with
  | dir =>
    unfold entryCall copyEntry at run
    rw [← descend_concat, ← descend_concat] at run
    rcases tree_child call filling unseen entry with ⟨_, _, same⟩ | further
    · rw [so_far_skipped same run]
      exact skipped_copying missing
    · exact grows further run
  | file content => exact leaf rfl
  | link target => exact leaf rfl

theorem tree_rule_of {P : Disk → List Name → Prop}
    (grows : ∀ {names now next result}, TreeCall w₀ path dest s d names now →
      copySoFar listing fuel now (descend path names) dest (descend dest names) true depth =
        (next, result) → Copying w₀ path dest s d names now next)
    (call : TreeCall w₀ path dest s d names w) (start : P (made w (descend dest names) true) [])
    (step : ∀ now seen m node next r, Filling w₀ path dest s d names w now seen → P now seen → m ∉ seen →
      now.tree.get (s ++ names ++ [m]) = some node →
      entryCall listing fuel path dest names depth now m node = (next, some r) → P next (seen ++ [m]))
    (run : copySoFar listing (fuel + 1) w (descend path names) dest (descend dest names) true depth =
      (w', result)) :
    ∃ now seen, Filling w₀ path dest s d names w now seen ∧ P now seen ∧
      (w' = now ∧ (result.isSome = true → depth ≠ .zero → ∀ m,
          (made w (descend dest names) true).tree.get (s ++ names ++ [m]) ≠ none → m ∈ seen) ∨
        ∃ m node, m ∉ seen ∧ now.tree.get (s ++ names ++ [m]) = some node ∧
          entryCall listing fuel path dest names depth now m node = (w', none) ∧ result = none) := by
  have different := call_different call
  have node : w.metadata (descend path names) = .ok .dir :=
    stat_ok_iff.mpr ⟨_, call.found, is_dir_iff.mp call.dir⟩
  have started := (tree_call_started call).1
  obtain ⟨source, source_dir, _⟩ := filling_places call started
  by_cases deep : depth = .zero
  · have shallow : w' = made w (descend dest names) true := by
      unfold copySoFar at run
      rw [if_neg (by simp [different]), node] at run
      simp only [if_pos deep] at run
      exact (congrArg Prod.fst run).symm
    exact ⟨_, [], started, start, .inl ⟨shallow, fun _ more => absurd deep more⟩⟩
  · rw [so_far_dir different node deep source source_dir] at run
    obtain ⟨now, seen, ⟨filling, sofar⟩, rests | ⟨m, node, listed, entry, one, open_⟩⟩ := entries_rule
      (P := fun now seen => Filling w₀ path dest s d names w now seen ∧ P now seen) (by
        intro now seen m node next r ⟨filling, sofar⟩ listed entry one
        have unseen := listing.fresh _ _ _ _ _ listed
        exact ⟨filling_step filling (entry_copied grows call filling unseen entry one),
          step now seen m node next r filling sofar unseen entry one⟩)
      fuel ⟨started, start⟩ run
    · refine ⟨now, seen, filling, sofar, .inl ⟨rests.1, fun ended _ m there => ?_⟩⟩
      rcases rests.2 ended with done | ⟨name, listed, gone⟩
      · exact listing.complete _ _ _ _ m done there (extends_there filling.kept there)
      · rcases listing.sound _ _ _ _ _ listed with before | after
        · exact absurd gone (extends_there filling.kept before)
        · exact absurd gone after
    · exact ⟨now, seen, filling, sofar,
        .inr ⟨m, node, listing.fresh _ _ _ _ _ listed, entry, one, open_⟩⟩

theorem tree_copies (call : TreeCall w₀ path dest s d names w)
    (run : copySoFar listing fuel w (descend path names) dest (descend dest names) true depth =
      (w', result)) : Copying w₀ path dest s d names w w' := by
  induction fuel generalizing w w' names result with
  | zero =>
    cases run
    exact skipped_copying (call_missing call)
  | succ fuel ih =>
    obtain ⟨now, seen, filling, _, rests | ⟨m, node, unseen, entry, one, _⟩⟩ :=
      tree_rule_of (P := fun _ _ => True) ih call trivial (fun _ _ _ _ _ _ _ _ _ _ _ => trivial) run
    · rw [rests.1]
      exact filling.copying
    · exact (filling_step filling (entry_copied ih call filling unseen entry one)).copying

/-- The rule for a directory that is copied: what every entry that is done preserves holds where the loop
    rests, or at the entry it is in the middle of. -/
theorem tree_rule {P : Disk → List Name → Prop} (call : TreeCall w₀ path dest s d names w)
    (start : P (made w (descend dest names) true) [])
    (step : ∀ now seen m node next r, Filling w₀ path dest s d names w now seen → P now seen → m ∉ seen →
      now.tree.get (s ++ names ++ [m]) = some node →
      entryCall listing fuel path dest names depth now m node = (next, some r) → P next (seen ++ [m]))
    (run : copySoFar listing (fuel + 1) w (descend path names) dest (descend dest names) true depth =
      (w', result)) :
    ∃ now seen, Filling w₀ path dest s d names w now seen ∧ P now seen ∧
      (w' = now ∧ (result.isSome = true → depth ≠ .zero → ∀ m,
          (made w (descend dest names) true).tree.get (s ++ names ++ [m]) ≠ none → m ∈ seen) ∨
        ∃ m node, m ∉ seen ∧ now.tree.get (s ++ names ++ [m]) = some node ∧
          entryCall listing fuel path dest names depth now m node = (w', none) ∧ result = none) :=
  tree_rule_of tree_copies call start step run

/-- A copy of a directory into itself goes on for ever, unless the destination is passed over. -/
theorem tree_goes_on {r : Except FsError Unit} (deep : depth ≠ .zero) (apart : ¬ Skips path dest s d)
    (call : TreeCall w₀ path dest s d names w) (toward : s ++ names <+: d ++ names)
    (run : copySoFar listing fuel w (descend path names) dest (descend dest names) true depth =
      (w', some r)) : False := by
  induction fuel generalizing w w' names r with
  | zero => cases run
  | succ fuel ih =>
    obtain ⟨rest, whole⟩ := toward
    cases rest with
    | nil =>
      rw [List.append_nil] at whole
      have dir := call.dir
      rw [whole, missing_not_dir (call_missing call)] at dir
      cases dir
    | cons m rest =>
      have onward : s ++ names ++ [m] <+: d ++ names := ⟨rest, by rw [← whole]; simp⟩
      obtain ⟨started, _⟩ := tree_call_started call
      have there : (made w (descend dest names) true).tree.get (s ++ names ++ [m]) = some .dir := by
        obtain ⟨tail, same⟩ := onward
        by_cases bare : tail = []
        · rw [bare, List.append_nil] at same
          exact same ▸ is_dir_iff.mp started.here
        · exact above_is_dir _ bare (same ▸ is_dir_iff.mp started.here)
      obtain ⟨now, seen, _, unseen, rests | ⟨_, _, _, _, _, open_⟩⟩ := tree_rule (P := fun _ seen => m ∉ seen)
        call List.not_mem_nil (by
          intro now seen name node next r filling unseen new entry one listed
          rcases List.mem_append.mp listed with old | last
          · exact unseen old
          · obtain rfl := List.mem_singleton.mp last
            have dir := filling.kept.dir _ there
            rw [entry] at dir
            cases dir
            unfold entryCall copyEntry at one
            rw [← descend_concat, ← descend_concat] at one
            rcases tree_child call filling new entry with ⟨skips, _⟩ | further
            · exact apart skips
            · refine ih further ?_ one
              rw [← List.append_assoc, ← List.append_assoc]
              exact onward.trans (List.prefix_append _ _)) run
      · exact unseen (rests.2 rfl deep m (by rw [there]; simp))
      · cases open_

/-- A directory of the source that can be copied before the entries of `names` are looked at: the way to it
    need not lead to the destination, which the copy would never come back from. -/
def CopiedBefore (w₀ : Disk) (path dest : DiskPath) (s d names x : List Name) : Prop :=
  w₀.tree.isDir (s ++ x) = true ∧
    (Skips path dest s d ∨ ∀ front, s ++ front <+: d → front <+: x → front <+: names)

/-- The directories that are in the copy when the entries of `names` are looked at. -/
def Laid (w₀ : Disk) (path dest : DiskPath) (s d names : List Name) (w : Disk) : Prop :=
  ∀ x, w.tree.isDir (d ++ x) = true → CopiedBefore w₀ path dest s d names x

/-- The files that the links below the source lead to are inside, also by way of directories that the copy
    makes before it comes to the link. -/
def LinksWithin (inside : List Name → Prop) (w₀ : Disk) (path dest : DiskPath) (s d : List Name) : Prop :=
  ∀ w names n loc content, Grown d w₀ w → Laid w₀ path dest s d names w →
    Linked w₀.tree (s ++ names ++ [n]) → w.lookup true (descend path (names ++ [n])) = .ok loc →
    w.tree.get loc = some (.file content) → inside loc

theorem laid_down (laid : Laid w₀ path dest s d names w) (m : Name) :
    Laid w₀ path dest s d (names ++ [m]) w := by
  intro x dir
  obtain ⟨source, routes⟩ := laid x dir
  refine ⟨source, routes.imp_right fun route front toward below => ?_⟩
  exact (route front toward below).trans (List.prefix_append _ _)

theorem call_done {r : Except FsError Unit} {node : Node Name UInt8} (deep : depth ≠ .zero)
    (call : TreeCall w₀ path dest s d names w) (filling : Filling w₀ path dest s d names w now seen)
    (unseen : m ∉ seen) (entry : now.tree.get (s ++ names ++ [m]) = some node)
    (one : entryCall listing fuel path dest names depth now m node = (next, some r)) :
    Skips path dest s d ∨ ¬ s ++ (names ++ [m]) <+: d := by
  by_contra both
  rw [not_or, not_not] at both
  obtain ⟨apart, toward⟩ := both
  have onward := toward.trans (List.prefix_append d names)
  obtain ⟨tail, whole⟩ := onward
  have dir : now.tree.get (s ++ names ++ [m]) = some .dir := by
    rw [List.append_assoc]
    by_cases bare : tail = []
    · rw [bare, List.append_nil] at whole
      exact whole ▸ is_dir_iff.mp filling.here
    · exact above_is_dir _ bare (whole ▸ is_dir_iff.mp filling.here)
  rw [entry] at dir
  cases dir
  unfold entryCall copyEntry at one
  rw [← descend_concat, ← descend_concat] at one
  rcases tree_child call filling unseen entry with ⟨skips, _⟩ | further
  · exact apart skips
  · exact tree_goes_on deep apart further (toward.trans (List.prefix_append _ _)) one

/-- What was copied for an entry that is done leads nowhere near the destination. -/
theorem laid_step {r : Except FsError Unit} {node : Node Name UInt8} (deep : depth ≠ .zero)
    (call : TreeCall w₀ path dest s d names w) (away : ¬ d <+: s ++ names)
    (filling : Filling w₀ path dest s d names w now seen) (unseen : m ∉ seen)
    (entry : now.tree.get (s ++ names ++ [m]) = some node)
    (one : entryCall listing fuel path dest names depth now m node = (next, some r))
    (laid : Laid w₀ path dest s d names now) : Laid w₀ path dest s d names next := by
  have copied := entry_copied tree_copies call filling unseen entry one
  intro x dir
  by_cases inner : names ++ [m] <+: x
  · have below : s ++ (names ++ [m]) <+: s ++ x := (List.prefix_append_right_inj s).mpr inner
    rcases call_done deep call filling unseen entry one with skips | aside
    · exact ⟨(copied.mirrors x inner dir).resolve_right fun other => other.1 skips, .inl skips⟩
    · refine ⟨(copied.mirrors x inner dir).resolve_right fun ⟨_, within⟩ => ?_, .inr ?_⟩
      · rcases List.prefix_or_prefix_of_prefix within below with upper | lower
        · rw [← List.append_assoc, List.prefix_concat_iff, List.append_assoc] at upper
          rcases upper with same | upper
          · exact aside (same ▸ List.prefix_rfl)
          · exact away upper
        · exact aside lower
      · intro front toward upper
        rcases List.prefix_or_prefix_of_prefix upper inner with short | long
        · rcases List.prefix_concat_iff.mp short with same | short
          · exact absurd (same ▸ toward) aside
          · exact short
        · exact absurd (((List.prefix_append_right_inj s).mpr long).trans toward) aside
  · rw [is_dir_iff, copied.grown.outside _ fun under => inner
      ((List.prefix_append_right_inj d).mp under), ← is_dir_iff] at dir
    exact laid x dir

theorem laid_start (call : TreeCall w₀ path dest s d names w) (away : ¬ d <+: s ++ names)
    (laid : Laid w₀ path dest s d names w) :
    Laid w₀ path dest s d names (made w (descend dest names) true) := by
  obtain ⟨p, n, whole, creates⟩ := call.makes
  obtain ⟨_, puts, _⟩ := create_dir_done creates
  rw [whole] at puts
  intro x dir
  rw [is_dir_iff, show made w (descend dest names) true = (w.createDir (descend dest names)).1 from rfl,
    puts.get] at dir
  split at dir
  · rename_i same
    rw [List.append_cancel_left_eq] at same
    subst same
    refine ⟨?_, .inr fun front _ upper => upper⟩
    rw [is_dir_iff, ← call.grown.outside _ away, ← is_dir_iff]
    exact call.dir
  · exact laid x (is_dir_iff.mpr dir)

theorem entry_touches {node : Node Name UInt8} (down : ∀ a b, inside a → a <+: b → inside b)
    (shown : LinksWithin inside w₀ path dest s d) (safe : inside d) (from_inside : inside s)
    (touches : ∀ {names now next result}, TreeCall w₀ path dest s d names now →
      (d <+: s ++ names ∨ Laid w₀ path dest s d names now) →
      copySoFar listing fuel now (descend path names) dest (descend dest names) true depth =
        (next, result) → TouchesWithin inside now next)
    (call : TreeCall w₀ path dest s d names w) (filling : Filling w₀ path dest s d names w now seen)
    (ready : d <+: s ++ names ∨ Laid w₀ path dest s d names now) (unseen : m ∉ seen)
    (entry : now.tree.get (s ++ names ++ [m]) = some node)
    (one : entryCall listing fuel path dest names depth now m node = (next, result)) :
    TouchesWithin inside now next := by
  have leaf (plain : isDirNode node = false) (read : ∀ loc content,
      now.lookup true (descend path (names ++ [m])) = .ok loc →
      now.tree.get loc = some (.file content) → inside loc) : TouchesWithin inside now next := by
    rcases leaf_copied call filling unseen plain one with same | ⟨loc, content, _, leads, file, _, touched⟩
    · rw [same]
      exact touches_refl now
    · have written : inside (d ++ (names ++ [m])) := down _ _ safe (List.prefix_append _ _)
      exact ⟨_, touched, by simp [written, read loc content leads file]⟩
  cases node with
  | dir =>
    unfold entryCall copyEntry at one
    rw [← descend_concat, ← descend_concat] at one
    rcases tree_child call filling unseen entry with ⟨_, _, same⟩ | further
    · rw [so_far_skipped same one]
      exact touches_refl now
    · refine touches further (ready.imp (fun below => ?_) fun laid => laid_down laid m) one
      rw [← List.append_assoc]
      exact below.trans (List.prefix_append _ _)
  | file content =>
    refine leaf rfl fun loc content' leads _ => ?_
    obtain ⟨source, source_dir, _⟩ := filling_places call filling
    rw [descend_concat, entry_lookup (child_entry source source_dir m) rfl
      (.inr (not_linked_file entry))] at leads
    rw [← Except.ok.inj leads]
    exact down _ _ from_inside ((List.prefix_append _ _).trans (List.prefix_append _ _))
  | link target =>
    refine leaf rfl fun loc content leads file => ?_
    have grown := grown_trans call.grown (List.prefix_append _ _) filling.copying.grown
    have outside : ¬ d <+: s ++ names ++ [m] := fun within => grown.plain _ within ⟨target, entry⟩
    have laid := ready.resolve_left fun below => outside (below.trans (List.prefix_append _ _))
    exact shown now names m loc content grown laid ⟨target, grown.outside _ outside ▸ entry⟩ leads file

theorem tree_touches (down : ∀ a b, inside a → a <+: b → inside b)
    (shown : LinksWithin inside w₀ path dest s d) (safe : inside d) (from_inside : inside s)
    (deep : depth ≠ .zero) (call : TreeCall w₀ path dest s d names w)
    (ready : d <+: s ++ names ∨ Laid w₀ path dest s d names w)
    (run : copySoFar listing fuel w (descend path names) dest (descend dest names) true depth =
      (w', result)) : TouchesWithin inside w w' := by
  induction fuel generalizing w w' names result with
  | zero =>
    cases run
    exact touches_refl _
  | succ fuel ih =>
    obtain ⟨started, touched⟩ := tree_call_started call
    have first : TouchesWithin inside w (made w (descend dest names) true) :=
      ⟨_, touched, List.forall_mem_singleton.mpr (down _ _ safe (List.prefix_append _ _))⟩
    have prepared : d <+: s ++ names ∨
        Laid w₀ path dest s d names (made w (descend dest names) true) := by
      by_cases within : d <+: s ++ names
      · exact .inl within
      · exact .inr (laid_start call within (ready.resolve_left within))
    obtain ⟨now, seen, filling, ⟨sofar, ready⟩, rests | ⟨m, node, unseen, entry, one, _⟩⟩ := tree_rule
      (P := fun now _ => TouchesWithin inside w now ∧ (d <+: s ++ names ∨ Laid w₀ path dest s d names now))
      call ⟨first, prepared⟩ (by
        intro now seen m node next r filling ⟨sofar, ready⟩ unseen entry one
        refine ⟨touches_trans sofar (entry_touches down shown safe from_inside ih call filling ready
          unseen entry one), ?_⟩
        by_cases within : d <+: s ++ names
        · exact .inl within
        · exact .inr (laid_step deep call within filling unseen entry one (ready.resolve_left within))) run
    · exact rests.1 ▸ sofar
    · exact touches_trans sofar (entry_touches down shown safe from_inside ih call filling ready unseen
        entry one)

end Trees
end VestibuleCopyMove
