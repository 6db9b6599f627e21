import Vestibule.DirectCopies
import Vestibule.LinkedCopies

/-!
Runs of `do_copy` that come to an end in a tree with symbolic links: where nothing can be written, since
every link that is followed leaves fewer to follow; and for a directory of the source on whose way the
destination does not lie.
-/
namespace VestibuleCopyMove
open VestibuleRust LexicalMotion FileTree FileCalls World VestibulePaths PlainLookups PlainCalls
  LinkedLookups LinkedCalls StepRuns

section Budget
variable {w : Disk} {path : DiskPath} {mid loc : List Name} {n : Name} {left : Nat}

/-- The path leads to a place with so many links left to follow. -/
def LeadsWith (w : Disk) (path : DiskPath) (left : Nat) (mid : List Name) : Prop :=
  ∀ later, walk w.tree true linkBudget [] (w.fullSteps path ++ later) = walk w.tree true left mid later

theorem leads_with (found : w.lookup true path = .ok mid) : ∃ left, LeadsWith w path left mid := by
  obtain ⟨_, route, _⟩ := lookup_route_iff.mp found
  rw [Bool.true_or] at route
  obtain ⟨left, _, same⟩ := walk_resumes route
  exact ⟨left, same⟩

/-- An entry of a directory is next to it, or a link that uses up the budget. -/
theorem leads_child (leads : LeadsWith w path left mid) (dir : w.tree.get mid = some .dir)
    (found : w.lookup true (child path n) = .ok loc) :
    loc = mid ++ [n] ∧ LeadsWith w (child path n) left loc ∨
      ∃ less, less < left ∧ LeadsWith w (child path n) less loc := by
  have full : w.fullSteps (child path n) = w.fullSteps path ++ [.name n] := by
    unfold fullSteps child
    split <;> simp
  have onward (later : List (Step Name)) :
      walk w.tree true linkBudget [] (w.fullSteps (child path n) ++ later) =
        walk w.tree true left mid (.name n :: later) := by
    rw [full, List.append_assoc, leads]
    rfl
  obtain ⟨_, run, _⟩ := lookup_walk_iff.mp found
  rw [Bool.true_or, ← List.append_nil (w.fullSteps (child path n)), onward] at run
  by_cases linked : Linked w.tree (mid ++ [n])
  · cases left with
    | zero =>
      rw [walk_link_stuck dir linked (.inl rfl)] at run
      cases run
    | succ left =>
      obtain ⟨target, here⟩ := linked
      rw [walk_link dir here (.inl rfl), List.append_nil] at run
      obtain ⟨less, within, same⟩ := walk_resumes (walk_ok_iff.mp run)
      refine .inr ⟨less, Nat.lt_succ_of_le within, fun later => ?_⟩
      rw [onward, walk_link dir here (.inl rfl), same]
  · rw [walk_plain dir linked, walk_nil] at run
    cases run
    refine .inl ⟨rfl, fun later => ?_⟩
    rw [onward, walk_plain dir linked]

end Budget

section Shut
variable {listing : DiskListing} {w : Disk} {source topdest dest base : DiskPath} {destIsDir : Bool}
  {depth : Depth} {loc e : List Name} {n : Name}

theorem do_copy_steps :
    (∃ r, ∀ fuel, doCopy listing (fuel + 1) w source topdest dest destIsDir depth = some r) ∨
      ∃ loc, (made w dest destIsDir).lookup true source = .ok loc ∧
        (made w dest destIsDir).tree.isDir loc = true ∧
        ∀ fuel, doCopy listing (fuel + 1) w source topdest dest destIsDir depth =
          copyEntries listing (made w dest destIsDir).tree loc
            (fun w name isDir => doCopy listing fuel w (child source name) topdest (child dest name) isDir
              depth) fuel (made w dest destIsDir) [] (.ok ()) := by
  by_cases same : samePath source topdest = true
  · refine .inl ⟨(w, .ok ()), fun fuel => ?_⟩
    unfold doCopy
    rw [if_pos same]
  cases node : w.metadata source with
  | error e =>
    refine .inl ⟨(w, .error e), fun fuel => ?_⟩
    unfold doCopy
    rw [if_neg same, node]
  | ok kind =>
    have first : (if destIsDir = true then (w.createDir dest).1 else w) = made w dest destIsDir := rfl
    simp only [doCopy, if_neg same, node, first, join_name_child]
    cases kind with
    | file content =>
      left
      dsimp only
      split
      · split <;> exact ⟨_, fun _ => rfl⟩
      · exact ⟨_, fun _ => rfl⟩
    | dir | link target =>
      dsimp only
      by_cases shallow : depth = .zero
      · exact .inl ⟨_, fun _ => if_pos shallow⟩
      simp only [if_neg shallow]
      cases found : (made w dest destIsDir).lookup true source with
      | error e => exact .inl ⟨_, fun _ => rfl⟩
      | ok loc =>
        by_cases dir : (made w dest destIsDir).tree.isDir loc = true
        · exact .inr ⟨loc, rfl, dir, fun fuel => if_pos dir⟩
        · exact .inl ⟨_, fun _ => if_neg dir⟩

/-- A loop over a directory in which every entry ends with nothing changed. -/
theorem shut_loop_ends {body : Nat → Disk → Name → Bool → Option (Disk × Except FsError Unit)}
    (each : ∀ name, w.tree.get (loc ++ [name]) ≠ none → ∀ isDir, ∃ r, Ends (body · w name isDir) (w, r)) :
    ∃ r enough, ∀ depth fuel, enough ≤ depth → enough ≤ fuel →
      copyEntries listing w.tree loc (body depth) fuel w [] (.ok ()) = some (w, r) := by
  have there {now : Disk} {seen : List Name} {name : Name} (same : now = w)
      (next : listing.next w.tree now.tree loc seen = some name) : w.tree.get (loc ++ [name]) ≠ none := by
    rw [same] at next
    exact (listing.sound _ _ _ _ _ next).elim id id
  obtain ⟨now, seen, r, ⟨enough, run⟩, same, _⟩ := @copy_entries_ends listing w.tree loc (entries w.tree loc)
    [] w (.ok ()) body (fun now _ _ => now = w)
    (fun now seen retval name same next => mem_entries.mpr (there same next))
    (fun now seen retval name same next => by
      obtain ⟨node, here⟩ := Option.ne_none_iff_exists'.mp (there same next)
      obtain ⟨r, ended⟩ := each name (there same next) (isDirNode node)
      exact ⟨node, w, r, same ▸ here, same ▸ ended, rfl⟩)
    rfl List.nodup_nil (List.nil_subset _)
  exact ⟨r, enough, fun depth fuel deep plenty => same ▸ run depth fuel deep plenty⟩

theorem shut_unchanged {r : Disk × Except FsError Unit} {fuel : Nat} (some_left : isBlank base = false)
    (closed : ∀ loc, w.lookup true base = .ok loc → w.tree.isDir loc = false)
    (run : doCopy listing fuel w source topdest (child base n) destIsDir depth = some r) : r.1 = w := by
  rw [do_copy_ended, ended_iff] at run
  exact so_far_closed some_left closed run

/-- Below what is no directory a copy ends: what it reads lies deeper with each name, or is reached with
    fewer links left to follow. -/
theorem shut_ends (left height : Nat) {source base : DiskPath} {n : Name} {destIsDir : Bool}
    (some_left : isBlank base = false)
    (closed : ∀ loc, w.lookup true base = .ok loc → w.tree.isDir loc = false)
    (low : ∀ loc, w.lookup true source = .ok loc → ∃ less, LeadsWith w source less loc ∧
      (less < left ∨ less = left ∧ w.tree.height ≤ loc.length + height)) :
    ∃ r, Ends (fun fuel => doCopy listing fuel w source topdest (child base n) destIsDir depth) (w, r) := by
  have nowhere (loc : List Name) : w.lookup true (child base n) ≠ .ok loc := by
    intro found
    obtain ⟨mid, place, dir⟩ := child_found some_left found
    rw [closed mid place] at dir
    cases dir
  have unmade : made w (child base n) destIsDir = w := made_kept fun p m creates => by
    obtain ⟨mid, place, dir⟩ := child_entered some_left creates.entry
    rw [closed mid place] at dir
    cases dir
  rcases @do_copy_steps listing w source topdest (child base n) destIsDir depth with
    ⟨⟨w', r⟩, done⟩ | ⟨loc, found, dir, loop⟩
  · have same : w' = w := shut_unchanged some_left closed (done 0)
    refine ⟨r, 1, fun fuel plenty => ?_⟩
    obtain ⟨fuel, rfl⟩ : ∃ rest, fuel = rest + 1 := ⟨fuel - 1, by omega⟩
    exact same ▸ done fuel
  · rw [unmade] at found dir loop
    obtain ⟨less, leads, bound⟩ := low loc found
    obtain ⟨r, enough, ended⟩ := @shut_loop_ends listing w loc
      (fun fuel w name isDir => doCopy listing fuel w (child source name) topdest
        (child (child base n) name) isDir depth) (by
      intro name there isDir
      have short := length_le_height there
      rw [List.length_append, List.length_singleton] at short
      have further (loc' : List Name) (found' : w.lookup true (child source name) = .ok loc') :
          ∃ less', LeadsWith w (child source name) less' loc' ∧
            (less' < less ∨ less' = less ∧ loc' = loc ++ [name]) := by
        rcases leads_child leads (is_dir_iff.mp dir) found' with ⟨whole, next⟩ | ⟨less', fewer, next⟩
        · exact ⟨less, next, .inr ⟨rfl, whole⟩⟩
        · exact ⟨less', next, .inl fewer⟩
      rcases bound with fewer | ⟨same, low⟩
      · refine shut_ends less w.tree.height (child_not_blank base n)
          (fun loc found => absurd found (nowhere loc)) fun loc' found' => ?_
        obtain ⟨less', next, fewer' | ⟨same, _⟩⟩ := further loc' found'
        · exact ⟨less', next, .inl fewer'⟩
        · exact ⟨less', next, .inr ⟨same, Nat.le_add_left _ _⟩⟩
      · have shorter : height - 1 < height := by omega
        refine shut_ends left (height - 1) (child_not_blank base n)
          (fun loc found => absurd found (nowhere loc)) fun loc' found' => ?_
        obtain ⟨less', next, fewer' | ⟨same', whole⟩⟩ := further loc' found'
        · exact ⟨less', next, .inl (same ▸ fewer')⟩
        · refine ⟨less', next, .inr ⟨same'.trans same, ?_⟩⟩
          rw [whole, List.length_append, List.length_singleton]
          omega)
    refine ⟨r, enough + 1, fun fuel plenty => ?_⟩
    obtain ⟨fuel, rfl⟩ : ∃ rest, fuel = rest + 1 := ⟨fuel - 1, by omega⟩
    exact (loop fuel).trans (ended fuel fuel (by omega) (by omega))
termination_by (left, height)

/-- An entry that is no directory of its own: the copy of a file, or a look at what a link leads to. -/
theorem leaf_ends (place : w.lookup true dest = .ok e) (dir : w.tree.isDir e = true)
    (missing : w.tree.get (e ++ [n]) = none) :
    ∃ w' r, Ends (fun fuel => doCopy listing fuel w source topdest (child dest n) false depth) (w', r) := by
  rcases @do_copy_steps listing w source topdest (child dest n) false depth with
    ⟨⟨w', r⟩, done⟩ | ⟨loc, found, source_dir, loop⟩
  · refine ⟨w', r, 1, fun fuel plenty => ?_⟩
    obtain ⟨fuel, rfl⟩ : ∃ rest, fuel = rest + 1 := ⟨fuel - 1, by omega⟩
    exact done fuel
  · have same : made w (child dest n) false = w := rfl
    rw [same] at found source_dir loop
    obtain ⟨left, leads⟩ := leads_with found
    obtain ⟨r, enough, ended⟩ := @shut_loop_ends listing w loc
      (fun fuel w name isDir => doCopy listing fuel w (child source name) topdest
        (child (child dest n) name) isDir depth) (by
      intro name there isDir
      refine shut_ends left w.tree.height (child_not_blank dest n) (fun loc' found' => ?_)
        fun loc' found' => ?_
      · rw [entry_lookup (child_entry place dir n) rfl (.inr (not_linked_missing missing))] at found'
        cases found'
        exact missing_not_dir missing
      · rcases leads_child leads (is_dir_iff.mp source_dir) found' with ⟨_, next⟩ | ⟨less, fewer, next⟩
        · exact ⟨left, next, .inr ⟨rfl, Nat.le_add_left _ _⟩⟩
        · exact ⟨less, next, .inl fewer⟩)
    refine ⟨w, r, enough + 1, fun fuel plenty => ?_⟩
    obtain ⟨fuel, rfl⟩ : ∃ rest, fuel = rest + 1 := ⟨fuel - 1, by omega⟩
    exact (loop fuel).trans (ended fuel fuel (by omega) (by omega))

end Shut

section Trees
variable {listing : DiskListing} {w₀ w w' now next : Disk} {path dest : DiskPath} {depth : Depth}
  {s d names seen : List Name} {m : Name} {node : Node Name UInt8} {r : Except FsError Unit}

theorem beyond_missing (missing : w₀.tree.get d = none) {loc : List Name} (below : d <+: loc) :
    w₀.tree.get loc = none := by
  obtain ⟨rest, whole⟩ := below
  exact whole ▸ below_missing w₀.tree missing rest

theorem dir_upper {t : DiskTree} {loc front : List Name} (dir : t.isDir loc = true) (upper : front <+: loc) :
    t.isDir front = true := by
  obtain ⟨rest, whole⟩ := upper
  by_cases bare : rest = []
  · rwa [← whole, bare, List.append_nil] at dir
  · exact is_dir_iff.mpr (above_is_dir t bare (whole ▸ is_dir_iff.mp dir))

/-- What is in the directory of the source while it is copied was there when it was opened. -/
theorem filling_opened (call : TreeCall w₀ path dest s d names w) (away : ¬ d <+: s ++ names)
    (filling : Filling w₀ path dest s d names w now seen)
    (there : now.tree.get (s ++ names ++ [m]) ≠ none) :
    (made w (descend dest names) true).tree.get (s ++ names ++ [m]) ≠ none := by
  have started := (tree_call_started call).1
  by_cases copied : d ++ names <+: s ++ names ++ [m]
  · have front : d <+: s ++ names ++ [m] := (List.prefix_append d names).trans copied
    have whole : d = s ++ names ++ [m] := (List.prefix_concat_iff.mp front).resolve_right away
    have bare : d ++ names = s ++ names ++ [m] := by
      refine copied.eq_of_length_le ?_
      rw [← whole, List.length_append]
      exact Nat.le_add_right _ _
    rw [← bare, is_dir_iff.mp started.here]
    exact Option.some_ne_none _
  · rw [filling.copying.grown.outside _ copied] at there
    exact extends_there started.copying.grown.more there

theorem entry_call_ended (call : TreeCall w₀ path dest s d names w)
    (filling : Filling w₀ path dest s d names w now seen) (unseen : m ∉ seen)
    (entry : now.tree.get (s ++ names ++ [m]) = some node)
    (ended : Ends (fun fuel => doCopy listing fuel now (child (descend path names) m) dest
      (child (descend dest names) m) (isDirNode node) depth) (next, r)) :
    Copying w₀ path dest s d (names ++ [m]) now next := by
  obtain ⟨enough, run⟩ := ended
  have done := run enough (Nat.le_refl enough)
  dsimp only at done
  rw [do_copy_ended, ended_iff] at done
  exact entry_copied tree_copies call filling unseen entry done

/-- The directories of the source at `names` and below are in the copy. -/
def DirsCopied (w₀ : Disk) (s d names : List Name) (w : Disk) : Prop :=
  ∀ x, names <+: x → w₀.tree.isDir (s ++ x) = true → w.tree.isDir (d ++ x) = true

theorem filling_kept (call : TreeCall w₀ path dest s d names w)
    (filling : Filling w₀ path dest s d names w now seen) {loc : List Name} (outside : ¬ d <+: loc) :
    now.tree.get loc = w₀.tree.get loc :=
  (grown_trans call.grown (List.prefix_append d names) filling.copying.grown).outside _ outside

/-- An entry of a directory of the source ends, if the calls for directories do. -/
theorem entry_ends (missing : w₀.tree.get d = none) (call : TreeCall w₀ path dest s d names w)
    (away : ¬ d <+: s ++ names) (aside : Skips path dest s d ∨ ¬ s ++ (names ++ [m]) <+: d)
    (filling : Filling w₀ path dest s d names w now seen) (unseen : m ∉ seen)
    (entry : now.tree.get (s ++ names ++ [m]) = some node)
    (ends : TreeCall w₀ path dest s d (names ++ [m]) now → ¬ d <+: s ++ (names ++ [m]) → ∃ w' r,
      Ends (fun fuel => doCopy listing fuel now (descend path (names ++ [m])) dest
        (descend dest (names ++ [m])) true depth) (w', r) ∧ DirsCopied w₀ s d (names ++ [m]) w') :
    ∃ w' r, Ends (fun fuel => doCopy listing fuel now (child (descend path names) m) dest
      (child (descend dest names) m) (isDirNode node) depth) (w', r) ∧
      DirsCopied w₀ s d (names ++ [m]) w' := by
  have source_there {x : List Name} (below : names ++ [m] <+: x) (dir : w₀.tree.isDir (s ++ x) = true) :
      ¬ d <+: s ++ (names ++ [m]) ∧ now.tree.get (s ++ names ++ [m]) = some .dir := by
    have upper := dir_upper dir ((List.prefix_append_right_inj s).mpr below)
    have outside : ¬ d <+: s ++ (names ++ [m]) := fun within => by
      rw [missing_not_dir (beyond_missing missing within)] at upper
      cases upper
    refine ⟨outside, ?_⟩
    rw [List.append_assoc, filling_kept call filling outside]
    exact is_dir_iff.mp upper
  have leaf (no : isDirNode node = false) : ∃ w' r,
      Ends (fun fuel => doCopy listing fuel now (child (descend path names) m) dest
        (child (descend dest names) m) (isDirNode node) depth) (w', r) ∧
      DirsCopied w₀ s d (names ++ [m]) w' := by
    obtain ⟨_, _, target⟩ := filling_places call filling
    obtain ⟨w', r, ended⟩ := @leaf_ends listing now (child (descend path names) m) dest
      (descend dest names) depth _ m target filling.here (filling.vacant m unseen)
    refine ⟨w', r, no ▸ ended, fun x below dir => ?_⟩
    rw [(source_there below dir).2] at entry
    cases entry
    cases no
  cases node with
  | dir =>
    rcases tree_child call filling unseen entry with ⟨_, whole, same⟩ | further
    · refine ⟨now, .ok (), ⟨1, fun fuel plenty => ?_⟩, fun x below dir => ?_⟩
      · obtain ⟨fuel, rfl⟩ : ∃ rest, fuel = rest + 1 := ⟨fuel - 1, by omega⟩
        rw [descend_concat] at same
        exact do_copy_skips same
      · exact absurd (whole ▸ List.prefix_rfl) (source_there below dir).1
    · have onward : ¬ d <+: s ++ (names ++ [m]) := by
        rcases aside with skips | aside
        · exact further.outside skips
        · intro within
          rw [← List.append_assoc] at within
          have whole := (List.prefix_concat_iff.mp within).resolve_right away
          rw [whole, List.append_assoc] at aside
          exact aside List.prefix_rfl
      obtain ⟨w', r, ended, copied⟩ := ends further onward
      rw [descend_concat, descend_concat] at ended
      exact ⟨w', r, ended, copied⟩
  | file content => exact leaf rfl
  | link target => exact leaf rfl

theorem entry_filled (call : TreeCall w₀ path dest s d names w)
    (filling : Filling w₀ path dest s d names w now seen)
    (all : ∀ k ∈ seen, DirsCopied w₀ s d (names ++ [k]) now) (unseen : m ∉ seen)
    (entry : now.tree.get (s ++ names ++ [m]) = some node)
    (ended : Ends (fun fuel => doCopy listing fuel now (child (descend path names) m) dest
      (child (descend dest names) m) (isDirNode node) depth) (next, r))
    (here : DirsCopied w₀ s d (names ++ [m]) next) :
    Filling w₀ path dest s d names w next (seen ++ [m]) ∧
      ∀ k ∈ seen ++ [m], DirsCopied w₀ s d (names ++ [k]) next := by
  have copied := entry_call_ended call filling unseen entry ended
  refine ⟨filling_step filling copied, fun k member x below dir => ?_⟩
  rcases List.mem_append.mp member with before | last
  · exact is_dir_iff.mpr (copied.grown.more.dir _ (is_dir_iff.mp (all k before x below dir)))
  · exact here x (List.mem_singleton.mp last ▸ below) dir

/-- The call for a directory of the source ends, unless it leads to a destination that is not passed over,
    and with it all the directories there are copied. -/
theorem tree_ends (deep : depth ≠ .zero) (missing : w₀.tree.get d = none) (height : Nat)
    {names : List Name} {w : Disk} (low : w₀.tree.height ≤ (s ++ names).length + height)
    (call : TreeCall w₀ path dest s d names w) (away : ¬ d <+: s ++ names)
    (aside : Skips path dest s d ∨ ¬ s ++ names <+: d) :
    ∃ w' r, Ends (fun fuel =>
        doCopy listing fuel w (descend path names) dest (descend dest names) true depth) (w', r) ∧
      DirsCopied w₀ s d names w' := by
  have started := (tree_call_started call).1
  obtain ⟨source, source_dir, _⟩ := filling_places call started
  have one {now : Disk} {seen : List Name} {m : Name} {node : Node Name UInt8}
      (filling : Filling w₀ path dest s d names w now seen) (unseen : m ∉ seen)
      (entry : now.tree.get (s ++ names ++ [m]) = some node) :
      ∃ w' r, Ends (fun fuel => doCopy listing fuel now (child (descend path names) m) dest
        (child (descend dest names) m) (isDirNode node) depth) (w', r) ∧
        DirsCopied w₀ s d (names ++ [m]) w' := by
    have aside' : Skips path dest s d ∨ ¬ s ++ (names ++ [m]) <+: d := by
      refine aside.imp_right fun no toward => no (List.IsPrefix.trans ?_ toward)
      exact (List.prefix_append_right_inj s).mpr (List.prefix_append names [m])
    refine entry_ends missing call away aside' filling unseen entry fun further onward => ?_
    have there := filling_kept call filling onward
    rw [← List.append_assoc, entry] at there
    have short := length_le_height (by rw [← there]; exact Option.some_ne_none _)
    rw [List.length_append, List.length_singleton] at short
    have shorter : height - 1 < height := by omega
    refine tree_ends deep missing (height - 1) ?_ further onward aside'
    rw [← List.append_assoc, List.length_append, List.length_singleton]
    omega
  obtain ⟨now, seen, r, ⟨enough, ended⟩, ⟨filling, all⟩, last⟩ := @copy_entries_ends listing
    (made w (descend dest names) true).tree (s ++ names)
    (entries (made w (descend dest names) true).tree (s ++ names)) [] (made w (descend dest names) true)
    (.ok ()) (fun fuel w name isDir => doCopy listing fuel w (child (descend path names) name) dest
      (child (descend dest names) name) isDir depth)
    (fun now seen _ => Filling w₀ path dest s d names w now seen ∧
      ∀ m ∈ seen, DirsCopied w₀ s d (names ++ [m]) now)
    (fun now seen retval m ⟨filling, _⟩ next => mem_entries.mpr <|
      (listing.sound _ _ _ _ _ next).elim id (filling_opened call away filling))
    (by
      intro now seen retval m ⟨filling, all⟩ next
      have unseen := listing.fresh _ _ _ _ _ next
      have opened := (listing.sound _ _ _ _ _ next).elim id (filling_opened call away filling)
      obtain ⟨node, entry⟩ := Option.ne_none_iff_exists'.mp (extends_there filling.kept opened)
      obtain ⟨next, r, ended, here⟩ := one filling unseen entry
      exact ⟨node, next, r, entry, ended, entry_filled call filling all unseen entry ended here⟩)
    ⟨started, fun _ member => by cases member⟩ List.nodup_nil (List.nil_subset _)
  refine ⟨now, r, ⟨enough + 1, fun fuel plenty => ?_⟩, fun x below dir => ?_⟩
  · obtain ⟨fuel, rfl⟩ : ∃ rest, fuel = rest + 1 := ⟨fuel - 1, by omega⟩
    have node : w.metadata (descend path names) = .ok .dir :=
      stat_ok_iff.mpr ⟨_, call.found, is_dir_iff.mp call.dir⟩
    dsimp only
    rw [do_copy_ended, so_far_dir (call_different call) node deep source source_dir,
      ← entries_ended (fun w name isDir => do_copy_ended fuel w _ dest _ isDir depth)]
    exact ended fuel fuel (by omega) (by omega)
  · obtain ⟨rest, whole⟩ := below
    cases rest with
    | nil =>
      rw [List.append_nil] at whole
      exact whole ▸ filling.here
    | cons m rest =>
      have inner : names ++ [m] <+: x := ⟨rest, by rw [← whole]; simp⟩
      have upper := dir_upper dir ((List.prefix_append_right_inj s).mpr inner)
      rw [← List.append_assoc] at upper
      have opened : (made w (descend dest names) true).tree.get (s ++ names ++ [m]) = some .dir :=
        started.copying.grown.more.dir _ (call.grown.more.dir _ (is_dir_iff.mp upper))
      have there := filling.kept.dir _ opened
      exact all m (listing.complete _ _ _ _ m last (by rw [opened]; exact Option.some_ne_none _)
        (by rw [there]; exact Option.some_ne_none _)) x inner dir
termination_by height

end Trees
end VestibuleCopyMove
