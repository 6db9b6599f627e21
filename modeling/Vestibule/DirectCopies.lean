import Vestibule.CopyTrees
import Vestibule.DirectPaths
import Vestibule.StepRuns

/-!
The recursion of `do_copy` on paths that spell a place from the root down, among files and links of all
kinds elsewhere: where the way to the destination is free it ends with a copy of all that lies below the
source, and where a file stands on that way with nothing changed.
-/
namespace VestibuleCopyMove
open VestibuleRust LexicalMotion FileTree FileCalls World VestibulePaths PlainLookups PlainCalls
  LinkedLookups LinkedCalls DirectPaths StepRuns

section Loop
variable {listing : DiskListing} {opened : DiskTree} {loc names seen : List Name} {w : Disk}
  {retval : Except FsError Unit}

theorem copy_entries_lasting {body body' : Disk → Name → Bool → Option (Disk × Except FsError Unit)}
    (same : ∀ w name isDir r, body w name isDir = some r → body' w name isDir = some r)
    {fuel more : Nat} (plenty : fuel ≤ more) {r : Disk × Except FsError Unit}
    (run : copyEntries listing opened loc body fuel w seen retval = some r) :
    copyEntries listing opened loc body' more w seen retval = some r := by
  induction fuel generalizing w seen retval more with
  | zero => cases run
  | succ fuel ih =>
    obtain ⟨more, rfl⟩ : ∃ rest, more = rest + 1 := ⟨more - 1, by omega⟩
    unfold copyEntries at run ⊢
    split at run
    · exact run
    · split at run
      · exact run
      · split at run
        · cases run
        · rename_i copied
          rw [same _ _ _ _ copied]
          exact ih (by omega) run
        · rename_i failed
          rw [same _ _ _ _ failed]
          exact ih (by omega) run

theorem do_copy_lasting (listing : DiskListing) (w : Disk) (source topdest dest : DiskPath)
    (destIsDir : Bool) (depth : Depth) :
    Lasting fun fuel => doCopy listing fuel w source topdest dest destIsDir depth := by
  intro fuel r run more plenty
  induction fuel generalizing w source dest destIsDir r more with
  | zero => cases run
  | succ fuel ih =>
    obtain ⟨more, rfl⟩ : ∃ rest, more = rest + 1 := ⟨more - 1, by omega⟩
    dsimp only at run ih ⊢
    unfold doCopy at run ⊢
    by_cases same : samePath source topdest = true
    · rwa [if_pos same] at run ⊢
    rw [if_neg same] at run ⊢
    cases node : w.metadata source with
    | error e => rwa [node] at run
    | ok kind =>
      rw [node] at run
      dsimp only at run ⊢
      generalize (if destIsDir = true then (w.createDir dest).1 else w) = w₁ at run ⊢
      cases kind with
      | file content => exact run
      | dir | link target =>
        dsimp only at run ⊢
        split at run
        · rename_i shallow
          rwa [if_pos shallow]
        rename_i deep
        rw [if_neg deep]
        split at run
        · exact run
        · split at run
          · rename_i dir
            rw [if_pos dir]
            refine copy_entries_lasting (fun w name isDir r copied => ?_) (by omega) run
            exact ih _ _ _ _ _ copied more (by omega)
          · rename_i other
            rwa [if_neg other]

theorem execute_lasting (plan : Plan) (listing : DiskListing) (method : CopyMethod) (w : Disk) :
    Lasting fun fuel => plan.execute listing method fuel w := by
  intro fuel r run more plenty
  dsimp only at run ⊢
  unfold Plan.execute at run ⊢
  generalize plan.makeRoom w = room at run ⊢
  obtain ⟨w₁, removed⟩ := room
  cases removed with
  | error e => exact run
  | ok _ =>
    cases method with
    | move => exact run
    | copy =>
      dsimp only at run ⊢
      cases copied : doCopy listing fuel w₁ plan.path plan.dest plan.dest (!plan.destIsFile) plan.depth with
      | none =>
        rw [copied] at run
        cases run
      | some result =>
        have later : doCopy listing more w₁ plan.path plan.dest plan.dest (!plan.destIsFile) plan.depth =
            some result := do_copy_lasting _ _ _ _ _ _ _ fuel result copied more plenty
        rw [copied] at run
        rw [later]
        exact run

theorem copy_entries_ends {body : Nat → Disk → Name → Bool → Option (Disk × Except FsError Unit)}
    {P : Disk → List Name → Except FsError Unit → Prop}
    (listed : ∀ w seen retval name, P w seen retval →
      listing.next opened w.tree loc seen = some name → name ∈ names)
    (step : ∀ w seen retval name, P w seen retval → listing.next opened w.tree loc seen = some name →
      ∃ node w' r, w.tree.get (loc ++ [name]) = some node ∧
        Ends (body · w name (isDirNode node)) (w', r) ∧ P w' (seen ++ [name]) (keepError retval r))
    (start : P w seen retval) (once : seen.Nodup) (inside : seen ⊆ names) :
    ∃ w' seen' r, (∃ enough, ∀ depth fuel, enough ≤ depth → enough ≤ fuel →
        copyEntries listing opened loc (body depth) fuel w seen retval = some (w', r)) ∧
      P w' seen' r ∧ listing.next opened w'.tree loc seen' = none := by
  obtain ⟨left, width⟩ : ∃ left, names.length = seen.length + left :=
    ⟨names.length - seen.length, by have := once.length_le_of_subset inside; omega⟩
  induction left using Nat.strongRecOn generalizing w seen retval with
  | ind left ih =>
    cases next : listing.next opened w.tree loc seen with
    | none =>
      refine ⟨w, seen, retval, ⟨1, fun depth fuel _ plenty => ?_⟩, start, next⟩
      obtain ⟨fuel, rfl⟩ : ∃ rest, fuel = rest + 1 := ⟨fuel - 1, by omega⟩
      unfold copyEntries
      rw [next]
    | some name =>
      obtain ⟨node, w₁, r₁, here, ⟨enough₁, copied⟩, start₁⟩ := step w seen retval name start next
      obtain ⟨once', inside'⟩ := listed_once once inside (listing.fresh _ _ _ _ _ next)
        (listed w seen retval name start next)
      have short := once'.length_le_of_subset inside'
      rw [List.length_append, List.length_singleton] at short
      obtain ⟨w', seen', r, ⟨enough, later⟩, ends⟩ := ih (left - 1) (by omega) start₁ once' inside'
        (by rw [List.length_append, List.length_singleton]; omega)
      refine ⟨w', seen', r, ⟨max enough₁ enough + 1, fun depth fuel deep plenty => ?_⟩, ends⟩
      obtain ⟨fuel, rfl⟩ : ∃ rest, fuel = rest + 1 := ⟨fuel - 1, by omega⟩
      have one : body depth w name (isDirNode node) = some (w₁, r₁) := copied depth (by omega)
      unfold copyEntries
      rw [next]
      dsimp only
      rw [here]
      dsimp only
      rw [one]
      cases r₁ with
      | ok _ => exact later depth fuel (by omega) (by omega)
      | error e => exact later depth fuel (by omega) (by omega)

end Loop

section Calls
variable {listing : DiskListing} {w w' : Disk} {loc top q : List Name} {n k : Name} {slash slash' : Bool}
  {dest : DiskPath} {destIsDir : Bool} {depth : Depth} {fuel : Nat} {content : Bytes}

theorem child_direct : child (direct loc slash) n = direct (loc ++ [n]) false := by
  unfold child direct
  simp

theorem direct_same {a b : List Name} : samePath (direct a slash) (direct b slash') = true ↔ a = b := by
  have steps (loc : List Name) (slash : Bool) : components (direct loc slash) = loc.map .name := by
    unfold components direct
    simp
  unfold samePath
  rw [steps, steps]
  simp only [direct, decide_true, Bool.true_and, decide_eq_true_eq]
  exact (List.map_injective_iff.mpr fun n m same => Step.name.inj same).eq_iff

theorem do_copy_direct_dir (differs : loc ≠ top) (here : w.tree.isDir loc = true)
    (still : (made w dest destIsDir).tree.isDir loc = true) :
    doCopy listing (fuel + 1) w (direct loc slash) (direct top slash') dest destIsDir depth =
      if depth = .zero then some (made w dest destIsDir, .ok ())
      else copyEntries listing (made w dest destIsDir).tree loc
        (fun w name isDir => doCopy listing fuel w (direct (loc ++ [name]) false) (direct top slash')
          (child dest name) isDir depth) fuel (made w dest destIsDir) [] (.ok ()) := by
  have node : w.metadata (direct loc slash) = .ok .dir :=
    (direct_stat (dir_clear here)).mpr ⟨is_dir_iff.mp here, fun _ => rfl⟩
  have found : (made w dest destIsDir).lookup true (direct loc slash) = .ok loc :=
    (direct_lookup (dir_clear still)).mpr ⟨rfl, there_above (is_dir_iff.mp still), fun _ => still⟩
  unfold made at found still ⊢
  conv => lhs; unfold doCopy
  rw [if_neg (mt direct_same.mp differs), node]
  simp only [join_name_child, child_direct, found, still, ↓reduceIte]

theorem do_copy_direct_file (differs : loc ++ [n] ≠ top) (clear : Clear w.tree (loc ++ [n]))
    (here : w.tree.get (loc ++ [n]) = some (.file content)) :
    doCopy listing (fuel + 1) w (direct (loc ++ [n]) false) (direct top slash') dest destIsDir depth =
      some ((made w dest destIsDir).copyFile (direct (loc ++ [n]) false) (fileTarget dest destIsDir n)) := by
  have node : w.metadata (direct (loc ++ [n]) false) = .ok (.file content) :=
    (direct_stat clear).mpr ⟨here, fun slashed => by cases slashed⟩
  have named : fileName (direct (loc ++ [n]) false) = some n := by
    apply file_name_last
    simp [direct]
  unfold made fileTarget
  conv => lhs; unfold doCopy
  rw [if_neg (mt direct_same.mp differs), node]
  cases destIsDir with
  | false => rfl
  | true => simp only [named, join_name_child, ↓reduceIte]

theorem direct_copy_file (clear : Clear w.tree loc) (here : w.tree.get loc = some (.file content))
    (clear' : Clear w.tree (q ++ [k])) (fits : w.tree.Writable q k) (apart : loc ≠ q ++ [k]) :
    ∃ w', w.copyFile (direct loc false) (direct (q ++ [k]) false) = (w', .ok ()) ∧
      Puts w w' (q ++ [k]) (.file content) := by
  have found : w.lookup true (direct loc false) = .ok loc :=
    (direct_lookup clear).mpr ⟨rfl, there_above here, fun slashed => by cases slashed⟩
  obtain ⟨done, puts, _⟩ := copy_file_done found here ((direct_opens clear').mpr ⟨rfl, rfl, rfl, fits⟩)
  rw [if_neg apart] at puts
  exact ⟨_, Prod.ext rfl done, puts⟩

theorem direct_copy_file_refused (source : DiskPath) (clear : Clear w.tree (q ++ [k]))
    (no : slash = false → ¬ w.tree.Writable q k) :
    ∃ e, w.copyFile source (direct (q ++ [k]) slash) = (w, .error e) := by
  apply copy_file_refused
  intro content p n _ opened
  obtain ⟨plain, _, _, fits⟩ := (direct_opens clear).mp opened
  exact no plain fits

end Calls

section Clearings
variable {t : DiskTree} {loc : List Name} {n : Name}

theorem clear_concat (dir : t.isDir loc = true) (plain : ∀ target, t.get (loc ++ [n]) ≠ some (.link target)) :
    Clear t (loc ++ [n]) := by
  intro front upper
  rcases List.prefix_concat_iff.mp upper with same | above
  · rintro ⟨target, found⟩
    exact plain target (same ▸ found)
  · exact dir_clear dir front above

theorem file_clear {content : Bytes} (file : t.get (loc ++ [n]) = some (.file content)) :
    Clear t (loc ++ [n]) := by
  apply clear_concat (is_dir_iff.mpr (t.closed _ _ _ file))
  intro target found
  rw [file] at found
  cases found

theorem file_concat {content : Bytes} (file : t.get loc = some (.file content)) :
    ∃ p n, loc = p ++ [n] := by
  rcases List.eq_nil_or_concat loc with bare | ⟨p, n, whole⟩
  · rw [bare, t.root] at file
    cases file
  · exact ⟨p, n, by rw [whole, List.concat_eq_append]⟩

end Clearings

section Trees
variable {listing : DiskListing} {base w w₁ now : Disk} {s d m q seen : List Name} {n k : Name}

/-- What a copy of `s` to `d` puts below `d`. What lies in `d` itself is left out. -/
def carried (base : Disk) (s d rest : List Name) : Option (Node Name UInt8) :=
  if d <+: s ++ rest then none else base.tree.get (s ++ rest)

structure Carried (base w w' : Disk) (s d m : List Name) : Prop where
  below : ∀ x, w'.tree.get (d ++ (m ++ x)) = carried base s d (m ++ x)
  elsewhere : ∀ place, ¬ d ++ m <+: place → w'.tree.get place = w.tree.get place

/-- The copy of the directory at `m` when some entries were reported. -/
structure Filled (base w now : Disk) (s d m seen : List Name) : Prop where
  top : now.tree.get (d ++ m) = some .dir
  entries : ∀ n x, now.tree.get (d ++ (m ++ n :: x)) =
    if n ∈ seen then carried base s d (m ++ n :: x) else none
  elsewhere : ∀ place, ¬ d ++ m <+: place → now.tree.get place = w.tree.get place

theorem filled_start (missing : w.tree.get (d ++ m) = none) (puts : Puts w w₁ (d ++ m) .dir) :
    Filled base w w₁ s d m [] where
  top := by rw [puts.get, if_pos rfl]
  entries n x := by
    rw [puts.get, if_neg (by simp), ← List.append_assoc]
    exact below_missing w.tree missing _
  elsewhere place outside := by
    rw [puts.get, if_neg]
    intro same
    exact outside (same ▸ List.prefix_rfl)

theorem filled_step {w' : Disk} (filled : Filled base w now s d m seen)
    (carries : Carried base now w' s d (m ++ [n])) : Filled base w w' s d m (seen ++ [n]) where
  top := by
    have aside : ¬ d ++ (m ++ [n]) <+: d ++ m := by
      intro longer
      have width := longer.length_le
      simp only [List.length_append, List.length_singleton] at width
      omega
    rw [carries.elsewhere _ aside, filled.top]
  entries n' x := by
    by_cases same : n' = n
    · subst same
      have copied := carries.below x
      rw [List.append_assoc, List.singleton_append] at copied
      rw [copied, if_pos (by simp)]
    · rw [carries.elsewhere, filled.entries]
      · simp [same]
      · rw [List.prefix_append_right_inj, List.prefix_append_right_inj]
        intro inside
        exact same (List.cons_prefix_cons.mp inside).1.symm
  elsewhere place outside := by
    rw [carries.elsewhere _ fun below => outside (List.IsPrefix.trans ⟨[n], by simp⟩ below),
      filled.elsewhere place outside]

theorem carried_skipped (filled : Filled base w now s d m seen) (new : n ∉ seen)
    (inside : d <+: s ++ (m ++ [n])) : Carried base now now s d (m ++ [n]) where
  below x := by
    have within : d <+: s ++ (m ++ n :: x) := inside.trans ⟨x, by simp⟩
    rw [List.append_assoc, List.singleton_append, filled.entries, if_neg new, carried, if_pos within]
  elsewhere _ _ := rfl

theorem filled_end (filled : Filled base w now s d m seen) (outside : ¬ d <+: s ++ m)
    (here : base.tree.get (s ++ m) = some .dir)
    (all : ∀ n, ¬ d <+: s ++ (m ++ [n]) → base.tree.get (s ++ (m ++ [n])) ≠ none → n ∈ seen) :
    Carried base w now s d m where
  below x := by
    cases x with
    | nil =>
      rw [List.append_nil, filled.top, carried, if_neg outside, here]
    | cons n x =>
      rw [filled.entries]
      split
      · rfl
      · rename_i new
        unfold carried
        split
        · rfl
        · rename_i apart
          have whole : s ++ (m ++ n :: x) = s ++ (m ++ [n]) ++ x := by simp
          rw [whole] at apart ⊢
          have missing : base.tree.get (s ++ (m ++ [n])) = none := by
            by_contra there
            exact new (all n (fun inside => apart (inside.trans (List.prefix_append _ _))) there)
          exact (below_missing base.tree missing x).symm
  elsewhere := filled.elsewhere

section Reports
variable (same : ∀ place, ¬ d <+: place → w.tree.get place = base.tree.get place)
include same

theorem filled_kept (filled : Filled base w now s d m seen) {loc : List Name} (aside : ¬ d <+: loc) :
    now.tree.get loc = base.tree.get loc := by
  rw [filled.elsewhere loc fun below => aside (List.IsPrefix.trans (List.prefix_append d m) below),
    same loc aside]

omit same in
theorem filled_there (filled : Filled base w now s d m seen) : now.tree.get d = some .dir := by
  by_cases bare : m = []
  · have top := filled.top
    rwa [bare, List.append_nil] at top
  · exact above_is_dir now.tree bare filled.top

theorem reported_entry (outside : ¬ d <+: s ++ m) (start : Filled base w w₁ s d m [])
    (filled : Filled base w now s d m seen)
    (next : listing.next w₁.tree now.tree (s ++ m) seen = some n) : d = s ++ m ++ [n] ∨
      ¬ d <+: s ++ m ++ [n] ∧ ∃ node, base.tree.get (s ++ m ++ [n]) = some node := by
  by_cases inside : d <+: s ++ m ++ [n]
  · exact .inl ((List.prefix_concat_iff.mp inside).resolve_right outside)
  · refine .inr ⟨inside, Option.ne_none_iff_exists'.mp ?_⟩
    rcases listing.sound _ _ _ _ _ next with before | after
    · rwa [filled_kept same start inside] at before
    · rwa [filled_kept same filled inside] at after

theorem reported_listed (outside : ¬ d <+: s ++ m) (start : Filled base w w₁ s d m [])
    (filled : Filled base w now s d m seen)
    (next : listing.next w₁.tree now.tree (s ++ m) seen = some n) : n ∈ entries w₁.tree (s ++ m) := by
  apply mem_entries.mpr
  rcases reported_entry same outside start filled next with itself | ⟨aside, node, found⟩
  · rw [← itself, filled_there start]
    exact Option.some_ne_none _
  · rw [filled_kept same start aside, found]
    exact Option.some_ne_none _

theorem filled_entry {slash topSlash : Bool} (outside : ¬ d <+: s ++ m)
    (start : Filled base w w₁ s d m []) (filled : Filled base w now s d m seen)
    (next : listing.next w₁.tree now.tree (s ++ m) seen = some n)
    (copies : ∀ node, ¬ d <+: s ++ (m ++ [n]) → base.tree.get (s ++ (m ++ [n])) = some node →
      ∃ w', Ends (fun fuel => doCopy listing fuel now (direct (s ++ (m ++ [n])) false) (direct d topSlash)
        (direct (d ++ (m ++ [n])) false) (isDirNode node) .infinity) (w', .ok ()) ∧
        Carried base now w' s d (m ++ [n])) :
    ∃ node w', now.tree.get (s ++ m ++ [n]) = some node ∧
      Ends (fun fuel => doCopy listing fuel now (direct (s ++ m ++ [n]) false) (direct d topSlash)
        (child (direct (d ++ m) slash) n) (isDirNode node) .infinity) (w', .ok ()) ∧
      Filled base w w' s d m (seen ++ [n]) := by
  rcases reported_entry same outside start filled next with itself | ⟨aside, node, found⟩
  · refine ⟨.dir, now, itself ▸ filled_there filled, ⟨1, fun fuel plenty => ?_⟩, ?_⟩
    · obtain ⟨fuel, rfl⟩ : ∃ rest, fuel = rest + 1 := ⟨fuel - 1, by omega⟩
      exact do_copy_skips (direct_same.mpr itself.symm)
    · have inside : d <+: s ++ (m ++ [n]) := by
        rw [← List.append_assoc]
        exact itself ▸ List.prefix_rfl
      exact filled_step filled (carried_skipped filled (listing.fresh _ _ _ _ _ next) inside)
  · rw [List.append_assoc] at aside found
    obtain ⟨w', copied, carries⟩ := copies node aside found
    refine ⟨node, w', ?_, ?_, filled_step filled carries⟩
    · rw [List.append_assoc, filled_kept same filled aside, found]
    · rw [child_direct, List.append_assoc, List.append_assoc]
      exact copied

end Reports

theorem copy_direct_file {content : Bytes} {topSlash : Bool} (apart : s ++ m ≠ d) (beyond : s ++ m ≠ d ++ m)
    (outside : ¬ d <+: s ++ m) (here : base.tree.get (s ++ m) = some (.file content))
    (now : w.tree.get (s ++ m) = some (.file content)) (place : d ++ m = q ++ [k])
    (parent : w.tree.isDir q = true) (missing : w.tree.get (d ++ m) = none)
    (legal : FileName.legal k = true) :
    ∃ w', Ends (fun fuel => doCopy listing fuel w (direct (s ++ m) false) (direct d topSlash)
        (direct (d ++ m) false) false .infinity) (w', .ok ()) ∧ Carried base w w' s d m := by
  obtain ⟨p, n, whole⟩ := file_concat now
  have fits : w.tree.Writable q k := ⟨parent, legal, missing_not_dir (place ▸ missing)⟩
  have free : Clear w.tree (q ++ [k]) := by
    apply clear_concat parent
    intro target found
    rw [← place, missing] at found
    cases found
  obtain ⟨w', run, puts⟩ := @direct_copy_file w (s ++ m) q k content
    (whole ▸ file_clear (whole ▸ now)) now free fits (place ▸ beyond)
  refine ⟨w', ⟨1, fun fuel plenty => ?_⟩, fun x => ?_, fun other aside => ?_⟩
  · obtain ⟨fuel, rfl⟩ : ∃ rest, fuel = rest + 1 := ⟨fuel - 1, by omega⟩
    rw [whole] at apart now run ⊢
    dsimp only
    rw [do_copy_direct_file apart (file_clear now) now, ← run, place]
    rfl
  · rw [puts.get, ← place, ← List.append_assoc, carried]
    by_cases bare : x = []
    · subst bare
      rw [List.append_nil, List.append_nil, if_pos rfl, if_neg outside, here]
    · rw [if_neg (by simpa using bare), below_missing w.tree missing, ← List.append_assoc,
        below_file base.tree bare here (by simp)]
      exact (ite_self _).symm
  · rw [puts.get, if_neg]
    intro same
    exact aside (place ▸ same ▸ List.prefix_rfl)

theorem copy_direct_dir {slash slash' topSlash : Bool}
    (same : ∀ place, ¬ d <+: place → w.tree.get place = base.tree.get place)
    (outside : ¬ d <+: s ++ m) (here : base.tree.get (s ++ m) = some .dir) (place : d ++ m = q ++ [k])
    (parent : w.tree.isDir q = true) (missing : w.tree.get (d ++ m) = none)
    (legal : FileName.legal k = true)
    (copies : ∀ now seen n node, Filled base w now s d m seen → n ∉ seen → ¬ d <+: s ++ (m ++ [n]) →
      base.tree.get (s ++ (m ++ [n])) = some node → ∃ w', Ends (fun fuel => doCopy listing fuel now
        (direct (s ++ (m ++ [n])) false) (direct d topSlash) (direct (d ++ (m ++ [n])) false)
        (isDirNode node) .infinity) (w', .ok ()) ∧ Carried base now w' s d (m ++ [n])) :
    ∃ w', Ends (fun fuel => doCopy listing fuel w (direct (s ++ m) slash) (direct d topSlash)
        (direct (d ++ m) slash') true .infinity) (w', .ok ()) ∧ Carried base w w' s d m := by
  have now := (same _ outside).trans here
  have apart : s ++ m ≠ d := fun whole => outside (whole ▸ List.prefix_rfl)
  obtain ⟨w₁, make, puts⟩ := @direct_make _ _ _ _ w q k slash' (dir_clear parent) parent (place ▸ missing) legal
  rw [← place] at make puts
  have opened : made w (direct (d ++ m) slash') true = w₁ := by
    unfold made
    rw [if_pos rfl, make]
  have start : Filled base w w₁ s d m [] := filled_start missing puts
  have still : w₁.tree.isDir (s ++ m) = true := by
    rw [is_dir_iff, filled_kept same start outside, here]
  obtain ⟨w', seen, r, ⟨enough, run⟩, ⟨filled, done⟩, final⟩ := @copy_entries_ends listing w₁.tree
    (s ++ m) (entries w₁.tree (s ++ m)) [] w₁ (.ok ())
    (fun depth w name isDir => doCopy listing depth w (direct (s ++ m ++ [name]) false)
      (direct d topSlash) (child (direct (d ++ m) slash') name) isDir .infinity)
    (fun now seen r => Filled base w now s d m seen ∧ r = .ok ())
    (fun now seen r n filled next => reported_listed same outside start filled.1 next)
    (by
      rintro now seen r n ⟨filled, rfl⟩ next
      obtain ⟨node, w', found, copied, filled'⟩ := filled_entry same outside start filled next
        fun node => copies now seen n node filled (listing.fresh _ _ _ _ _ next)
      exact ⟨node, w', .ok (), found, copied, filled', rfl⟩)
    ⟨start, rfl⟩ List.nodup_nil (List.nil_subset _)
  subst done
  refine ⟨w', ⟨enough + 1, fun fuel plenty => ?_⟩, filled_end filled outside here fun n aside found => ?_⟩
  · obtain ⟨fuel, rfl⟩ : ∃ rest, fuel = rest + 1 := ⟨fuel - 1, by omega⟩
    have step := @do_copy_direct_dir listing w (s ++ m) d slash topSlash (direct (d ++ m) slash') true
      .infinity fuel apart (is_dir_iff.mpr now) (opened ▸ still)
    rw [opened, if_neg (by decide)] at step
    exact step.trans (run fuel fuel (by omega) (by omega))
  · rw [← List.append_assoc] at aside found
    apply listing.complete _ _ _ _ _ final
    · rwa [filled_kept same start aside]
    · rwa [filled_kept same filled aside]

/-- Where the way is free a copy ends, with all that lies below the source. -/
theorem copy_direct_tree (plain : ∀ rest target, base.tree.get (s ++ rest) ≠ some (.link target))
    {topSlash : Bool} (height : Nat) {node : Node Name UInt8} {slash slash' : Bool}
    (same : ∀ place, ¬ d <+: place → w.tree.get place = base.tree.get place)
    (outside : ¬ d <+: s ++ m) (here : base.tree.get (s ++ m) = some node)
    (low : ∀ x, base.tree.get (s ++ (m ++ x)) ≠ none → x.length < height) (place : d ++ m = q ++ [k])
    (parent : w.tree.isDir q = true) (missing : w.tree.get (d ++ m) = none)
    (legal : FileName.legal k = true) (ends : node = .dir ∨ slash = false ∧ slash' = false) :
    ∃ w', Ends (fun fuel => doCopy listing fuel w (direct (s ++ m) slash) (direct d topSlash)
        (direct (d ++ m) slash') (isDirNode node) .infinity) (w', .ok ()) ∧ Carried base w w' s d m := by
  induction height generalizing w m q k node slash slash' with
  | zero =>
    have short := low [] (by rw [List.append_nil, here]; exact Option.some_ne_none _)
    exact absurd short (Nat.not_lt_zero _)
  | succ height ih =>
    cases node with
    | link target => exact absurd here (plain m target)
    | file content =>
      obtain ⟨rfl, rfl⟩ := ends.resolve_left (by simp)
      exact copy_direct_file (fun whole => outside (whole ▸ List.prefix_rfl))
        (fun whole => outside (whole ▸ List.prefix_append d m)) outside here ((same _ outside).trans here)
        place parent missing legal
    | dir =>
      refine copy_direct_dir same outside here place parent missing legal
        fun now seen n node filled new aside found => ?_
      refine ih (fun loc => filled_kept same filled) aside found (fun x below => ?_)
        (List.append_assoc d m [n]).symm (is_dir_iff.mpr filled.top) ?_
        (base.tree.named _ _ _ ((List.append_assoc s m [n]) ▸ found)) (.inr ⟨rfl, rfl⟩)
      · rw [List.append_assoc] at below
        have short := low _ below
        rw [List.length_append, List.length_singleton] at short
        omega
      · rw [filled.entries, if_neg new]

theorem copy_direct_whole (plain : ∀ rest target, w.tree.get (s ++ rest) ≠ some (.link target))
    {slash slash' topSlash : Bool} (dir : w.tree.isDir s = true) (place : d = q ++ [k])
    (parent : w.tree.isDir q = true) (missing : w.tree.get d = none) (legal : FileName.legal k = true) :
    ∃ w', Ends (fun fuel => doCopy listing fuel w (direct s slash) (direct d topSlash)
        (direct d slash') true .infinity) (w', .ok ()) ∧ Carried w w w' s d [] := by
  have outside : ¬ d <+: s := by
    rintro ⟨rest, whole⟩
    rw [← whole, is_dir_iff, below_missing w.tree missing] at dir
    cases dir
  have copied := @copy_direct_tree listing w w s d [] q k plain topSlash (w.tree.height + 1) .dir slash slash'
    (fun _ _ => rfl)
  rw [List.append_nil, List.append_nil] at copied
  refine copied outside (is_dir_iff.mp dir) (fun x below => ?_) place parent missing legal (.inl rfl)
  have short := length_le_height below
  rw [List.length_append, List.nil_append] at short
  omega

end Trees

section Stuck
variable {listing : DiskListing} {w : Disk} {s d m seen : List Name} {n : Name} {slash slash' topSlash : Bool}

def Fileless (w : Disk) (s d m : List Name) : Prop :=
  ∀ x content, carried w s d (m ++ x) ≠ some (.file content)

theorem blocked_clear (clear : Clear w.tree d) (blocked : Blocked w.tree d) (rest : List Name) :
    Clear w.tree (d ++ rest) := by
  obtain ⟨top, content, upper, file⟩ := blocked
  rintro front inside ⟨target, found⟩
  rcases List.prefix_or_prefix_of_prefix inside (upper.trans (List.prefix_append d rest)) with short | ⟨more, whole⟩
  · exact clear front (short.trans upper) ⟨target, found⟩
  · subst whole
    by_cases bare : more = []
    · rw [bare, List.append_nil, file] at found
      cases found
    · rw [below_file w.tree bare file (by simp)] at found
      cases found

theorem blocked_named (blocked : Blocked w.tree d) (rest : List Name) : ∃ q k, d ++ rest = q ++ [k] := by
  rcases List.eq_nil_or_concat (d ++ rest) with bare | ⟨q, k, place⟩
  · rw [(List.append_eq_nil_iff.mp bare).1] at blocked
    exact absurd blocked (dir_not_blocked (is_dir_iff.mpr w.tree.root))
  · exact ⟨q, k, by rw [place, List.concat_eq_append]⟩

theorem blocked_made (clear : Clear w.tree d) (blocked : Blocked w.tree d) (rest : List Name)
    (isDir : Bool) : made w (direct (d ++ rest) slash) isDir = w := by
  have way := blocked_clear clear blocked rest
  obtain ⟨q, k, place⟩ := blocked_named blocked rest
  have inside := blocked_front blocked (List.prefix_append d rest)
  rw [place] at way inside ⊢
  obtain ⟨e, failed⟩ := @direct_make_refused _ _ _ _ w q k slash
    (clear_front way (List.prefix_append _ _)) fun dir missing =>
      dir_not_blocked dir (blocked_concat inside (by simp [missing]))
  unfold made
  rw [failed]
  exact ite_self _

theorem copy_stuck_file (clear : Clear w.tree d) (blocked : Blocked w.tree d) {loc rest : List Name}
    {content : Bytes} {isDir : Bool} {depth : Depth} (differs : loc ≠ d)
    (here : w.tree.get loc = some (.file content)) (deeper : rest ≠ [] ∨ isDir = true) :
    ∃ e, Ends (fun fuel => doCopy listing fuel w (direct loc false) (direct d topSlash)
      (direct (d ++ rest) slash) isDir depth) (w, .error e) := by
  obtain ⟨p, n, whole⟩ := file_concat here
  rw [whole] at differs here ⊢
  obtain ⟨below, slash', some_left, target⟩ : ∃ below slash', below ≠ [] ∧
      fileTarget (direct (d ++ rest) slash) isDir n = direct (d ++ below) slash' := by
    cases isDir with
    | true => exact ⟨rest ++ [n], false, by simp, by rw [← List.append_assoc]; exact child_direct⟩
    | false => exact ⟨rest, slash, deeper.resolve_right (by simp), rfl⟩
  obtain ⟨front, k, same⟩ := (List.eq_nil_or_concat below).resolve_left some_left
  rw [List.concat_eq_append] at same
  subst same
  have way := blocked_clear clear blocked (front ++ [k])
  have inside := blocked_front blocked (List.prefix_append d front)
  rw [← List.append_assoc] at way target
  obtain ⟨e, failed⟩ := @direct_copy_file_refused w (d ++ front) k slash' (direct (p ++ [n]) false) way
    fun _ fits => dir_not_blocked fits.1 inside
  refine ⟨e, 1, fun fuel plenty => ?_⟩
  obtain ⟨fuel, rfl⟩ : ∃ rest, fuel = rest + 1 := ⟨fuel - 1, by omega⟩
  dsimp only
  rw [do_copy_direct_file differs (file_clear here) here, blocked_made clear blocked, target, failed]

theorem passed_fileless (inside : d <+: s ++ m ++ [n]) : Fileless w s d (m ++ [n]) := by
  intro x content
  have within : d <+: s ++ (m ++ [n] ++ x) := inside.trans ⟨x, by simp⟩
  rw [carried, if_pos within]
  simp

theorem fileless_entries (outside : ¬ d <+: s ++ m) (here : w.tree.get (s ++ m) = some .dir)
    (all : ∀ n, ¬ d <+: s ++ (m ++ [n]) → w.tree.get (s ++ (m ++ [n])) ≠ none → n ∈ seen) :
    Fileless w s d m ↔ ∀ n ∈ seen, Fileless w s d (m ++ [n]) := by
  constructor
  · intro fileless n _ x content
    rw [List.append_assoc]
    exact fileless _ content
  · intro each x content found
    cases x with
    | nil =>
      rw [List.append_nil, carried, if_neg outside, here] at found
      cases found
    | cons n x =>
      have whole : m ++ n :: x = m ++ [n] ++ x := by simp
      rw [whole] at found
      by_cases member : n ∈ seen
      · exact each n member x content found
      · unfold carried at found
        split at found
        · cases found
        · rename_i apart
          rw [← List.append_assoc] at apart found
          have missing : w.tree.get (s ++ (m ++ [n])) = none := by
            by_contra there
            exact member (all n (fun inside => apart (inside.trans (List.prefix_append _ _))) there)
          rw [below_missing w.tree missing x] at found
          cases found

theorem copy_stuck_dir (clear : Clear w.tree d) (blocked : Blocked w.tree d) {isDir : Bool}
    (outside : ¬ d <+: s ++ m) (here : w.tree.get (s ++ m) = some .dir)
    (each : ∀ n node, ¬ d <+: s ++ (m ++ [n]) → w.tree.get (s ++ (m ++ [n])) = some node →
      ∃ r, Ends (fun fuel => doCopy listing fuel w (direct (s ++ (m ++ [n])) false) (direct d topSlash)
        (direct (d ++ (m ++ [n])) false) (isDirNode node) .infinity) (w, r) ∧
        (r = .ok () ↔ Fileless w s d (m ++ [n]))) :
    ∃ r, Ends (fun fuel => doCopy listing fuel w (direct (s ++ m) slash) (direct d topSlash)
        (direct (d ++ m) slash') isDir .infinity) (w, r) ∧ (r = .ok () ↔ Fileless w s d m) := by
  have apart : s ++ m ≠ d := fun whole => outside (whole ▸ List.prefix_rfl)
  have opened : made w (direct (d ++ m) slash') isDir = w := blocked_made clear blocked m isDir
  have still : (made w (direct (d ++ m) slash') isDir).tree.isDir (s ++ m) = true := by
    rw [opened, is_dir_iff, here]
  obtain ⟨w', seen, r, ⟨enough, run⟩, ⟨same, kept⟩, final⟩ := @copy_entries_ends listing w.tree (s ++ m)
    (entries w.tree (s ++ m)) [] w (.ok ())
    (fun depth w name isDir => doCopy listing depth w (direct (s ++ m ++ [name]) false)
      (direct d topSlash) (child (direct (d ++ m) slash') name) isDir .infinity)
    (fun now seen r => now = w ∧ (r = .ok () ↔ ∀ n ∈ seen, Fileless w s d (m ++ [n])))
    (by
      rintro now seen r n ⟨rfl, _⟩ next
      exact mem_entries.mpr (or_self_iff.mp (listing.sound _ _ _ _ _ next)))
    (by
      rintro now seen r n ⟨rfl, kept⟩ next
      obtain ⟨node, found⟩ := Option.ne_none_iff_exists'.mp (or_self_iff.mp (listing.sound _ _ _ _ _ next))
      obtain ⟨r', copied, fine⟩ : ∃ r', Ends (fun fuel => doCopy listing fuel now
          (direct (s ++ m ++ [n]) false) (direct d topSlash) (child (direct (d ++ m) slash') n)
          (isDirNode node) .infinity) (now, r') ∧ (r' = .ok () ↔ Fileless now s d (m ++ [n])) := by
        by_cases inside : d <+: s ++ m ++ [n]
        · have itself := (List.prefix_concat_iff.mp inside).resolve_right outside
          refine ⟨.ok (), ⟨1, fun fuel plenty => ?_⟩, iff_of_true rfl (passed_fileless inside)⟩
          obtain ⟨fuel, rfl⟩ : ∃ rest, fuel = rest + 1 := ⟨fuel - 1, by omega⟩
          exact do_copy_skips (direct_same.mpr itself.symm)
        · rw [List.append_assoc] at inside found
          obtain ⟨r', copied, fine⟩ := each n node inside found
          rw [child_direct, List.append_assoc, List.append_assoc]
          exact ⟨r', copied, fine⟩
      refine ⟨node, now, r', found, copied, rfl, ?_⟩
      simp only [List.forall_mem_append, List.forall_mem_singleton, ← fine, ← kept]
      cases r' <;> simp [keepError])
    ⟨rfl, by simp⟩ List.nodup_nil (List.nil_subset _)
  subst same
  refine ⟨r, ⟨enough + 1, fun fuel plenty => ?_⟩, kept.trans (fileless_entries outside here ?_).symm⟩
  · obtain ⟨fuel, rfl⟩ : ∃ rest, fuel = rest + 1 := ⟨fuel - 1, by omega⟩
    have step := @do_copy_direct_dir listing w' (s ++ m) d slash topSlash (direct (d ++ m) slash') isDir
      .infinity fuel apart (is_dir_iff.mpr here) still
    rw [opened, if_neg (by decide)] at step
    exact step.trans (run fuel fuel (by omega) (by omega))
  · intro n _ found
    rw [← List.append_assoc] at found
    exact listing.complete _ _ _ _ _ final found found

/-- Where a file stands in the way a copy ends with nothing changed, and fails if there is a file to be
    copied. -/
theorem copy_direct_stuck (plain : ∀ rest target, w.tree.get (s ++ rest) ≠ some (.link target))
    (clear : Clear w.tree d) (blocked : Blocked w.tree d) (height : Nat) {node : Node Name UInt8}
    {isDir : Bool} (outside : ¬ d <+: s ++ m) (here : w.tree.get (s ++ m) = some node)
    (low : ∀ x, w.tree.get (s ++ (m ++ x)) ≠ none → x.length < height)
    (ends : node = .dir ∨ slash = false ∧ (m ≠ [] ∨ isDir = true)) :
    ∃ r, Ends (fun fuel => doCopy listing fuel w (direct (s ++ m) slash) (direct d topSlash)
        (direct (d ++ m) slash') isDir .infinity) (w, r) ∧ (r = .ok () ↔ Fileless w s d m) := by
  induction height generalizing m node slash slash' isDir with
  | zero =>
    have short := low [] (by rw [List.append_nil, here]; exact Option.some_ne_none _)
    exact absurd short (Nat.not_lt_zero _)
  | succ height ih =>
    have apart : s ++ m ≠ d := fun whole => outside (whole ▸ List.prefix_rfl)
    cases node with
    | link target => exact absurd here (plain m target)
    | file content =>
      obtain ⟨rfl, deeper⟩ := ends.resolve_left (by simp)
      obtain ⟨e, failed⟩ := @copy_stuck_file listing w d slash' topSlash clear blocked (s ++ m) m content
        isDir .infinity apart here deeper
      refine ⟨_, failed, iff_of_false (by simp) fun fileless => fileless [] content ?_⟩
      rw [List.append_nil, carried, if_neg outside, here]
    | dir =>
      refine copy_stuck_dir clear blocked outside here fun n node aside found => ?_
      refine ih aside found (fun x below => ?_) (.inr ⟨rfl, .inl (by simp)⟩)
      rw [List.append_assoc] at below
      have short := low _ below
      rw [List.length_append, List.length_singleton] at short
      omega

theorem copy_direct_shut (plain : ∀ rest target, w.tree.get (s ++ rest) ≠ some (.link target))
    (clear : Clear w.tree d) (blocked : Blocked w.tree d) {isDir : Bool} (dir : w.tree.isDir s = true) :
    ∃ r, Ends (fun fuel => doCopy listing fuel w (direct s slash) (direct d topSlash) (direct d slash')
      isDir .infinity) (w, r) ∧ (r = .ok () ↔ Fileless w s d []) := by
  have outside : ¬ d <+: s := fun inside => dir_not_blocked dir (blocked_front blocked inside)
  have copied := @copy_direct_stuck listing w s d [] slash slash' topSlash plain clear blocked
    (w.tree.height + 1) .dir isDir
  rw [List.append_nil, List.append_nil] at copied
  refine copied outside (is_dir_iff.mp dir) (fun x below => ?_) (.inl rfl)
  have short := length_le_height below
  rw [List.length_append, List.nil_append] at short
  omega

end Stuck
end VestibuleCopyMove
