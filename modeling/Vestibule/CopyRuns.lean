import Vestibule.CopyMove
import Vestibule.PlainCalls

/-!
Runs of `do_copy` where there are no symbolic links: the rule for its loop, what a run can touch,
and what it does where nothing can be written.
-/
namespace VestibuleCopyMove
open VestibuleRust LexicalMotion FileTree FileCalls World VestibulePaths PlainLookups PlainCalls

section Paths

theorem join_name_child (path : DiskPath) (n : Name) : joinName path n = child path n := by
  obtain ⟨absolute, steps, slash⟩ := path
  unfold joinName join child
  cases absolute with
  | true => rfl
  | false =>
    cases steps with
    | nil => rfl
    | cons s rest => rfl

theorem walk_without_here (place : Place Name) (steps : List (Step Name)) :
    place.walk (steps.filter (· ≠ .here)) = place.walk steps := by
  induction steps generalizing place with
  | nil => rfl
  | cons s rest ih =>
    by_cases inert : s = .here
    · subst inert
      exact ih place
    · rw [List.filter_cons_of_pos (by simpa using inert)]
      exact ih (place.step s)

theorem walk_components (place : Place Name) (path : DiskPath) :
    place.walk (components path) = place.walk path.steps := by
  unfold components
  split
  · rename_i rest _ steps
    rw [steps]
    exact walk_without_here place rest
  · exact walk_without_here place path.steps

theorem same_path_place {w : Disk} {a b : DiskPath} (same : samePath a b = true) :
    placeOf w a = placeOf w b := by
  simp only [samePath, Bool.and_eq_true, decide_eq_true_eq] at same
  obtain ⟨absolute, steps⟩ := same
  have walks : ∀ place : Place Name, place.walk a.steps = place.walk b.steps := by
    intro place
    rw [← walk_components, steps, walk_components]
  unfold placeOf fullSteps
  rw [absolute]
  split
  · rw [walks]
  · rw [walk_append, walk_append, walks]

theorem file_name_last {path : DiskPath} {n : Name} (last : path.steps.getLast? = some (.name n)) :
    fileName path = some n := by
  have kept : trimHere path.steps = path.steps := by
    obtain ⟨front, whole⟩ := List.getLast?_eq_some_iff.mp last
    unfold trimHere
    rw [whole, List.reverse_append, List.reverse_singleton, List.singleton_append,
      List.dropWhile_cons_of_neg (by simp), ← List.singleton_append, List.reverse_append,
      List.reverse_reverse, List.reverse_singleton]
  unfold fileName
  rw [kept, last]

end Paths

section Loop
variable {listing : DiskListing} {opened : DiskTree} {loc : List Name}
  {body : Disk → Name → Bool → Option (Disk × Except FsError Unit)}

/-- What `retval` becomes. -/
def keepError (retval r : Except FsError Unit) : Except FsError Unit :=
  match r with
  | .ok _ => retval
  | .error e => .error e

/-- A property of the loop that each entry preserves holds when it ends: at the last entry, or at
    one that is gone when it is looked at. -/
theorem copy_entries_rule {P : Disk → List Name → Except FsError Unit → Prop}
    (step : ∀ w seen retval name node w' r, P w seen retval →
      listing.next opened w.tree loc seen = some name → w.tree.get (loc ++ [name]) = some node →
      body w name (isDirNode node) = some (w', r) → P w' (seen ++ [name]) (keepError retval r))
    (fuel : Nat) {w w' : Disk} {seen : List Name} {retval result : Except FsError Unit}
    (start : P w seen retval)
    (run : copyEntries listing opened loc body fuel w seen retval = some (w', result)) :
    ∃ seen' retval', P w' seen' retval' ∧
      (listing.next opened w'.tree loc seen' = none ∧ result = retval' ∨
        ∃ name e, listing.next opened w'.tree loc seen' = some name ∧
          w'.tree.get (loc ++ [name]) = none ∧ result = .error e) := by
  induction fuel generalizing w seen retval with
  | zero => cases run
  | succ fuel ih =>
    unfold copyEntries at run
    split at run
    · rename_i done
      cases run
      exact ⟨seen, _, start, .inl ⟨done, rfl⟩⟩
    · rename_i name next
      split at run
      · rename_i gone
        cases run
        exact ⟨seen, retval, start, .inr ⟨name, _, next, gone, rfl⟩⟩
      · rename_i node found
        split at run
        · cases run
        · rename_i w₁ _ one_done
          exact ih (step w seen retval name node w₁ _ start next found one_done) run
        · rename_i w₁ e one_failed
          exact ih (step w seen retval name node w₁ _ start next found one_failed) run

end Loop

section Frame

/-- Directories stay, and only `d` and what is below it can differ. -/
structure Within (d : List Name) (w w' : Disk) : Prop where
  cwd : w'.cwd = w.cwd
  outside : ∀ loc, ¬ d <+: loc → w'.tree.get loc = w.tree.get loc
  dirs : ∀ loc, w.tree.isDir loc = true → w'.tree.isDir loc = true
  free : w.tree.LinkFree → w'.tree.LinkFree

theorem within_refl (d : List Name) (w : Disk) : Within d w w :=
  ⟨rfl, fun _ _ => rfl, fun _ dir => dir, fun free => free⟩

theorem within_trans {d : List Name} {w₁ w₂ w₃ : Disk} (first : Within d w₁ w₂)
    (second : Within d w₂ w₃) : Within d w₁ w₃ where
  cwd := second.cwd.trans first.cwd
  outside loc out := (second.outside loc out).trans (first.outside loc out)
  dirs loc dir := second.dirs loc (first.dirs loc dir)
  free free := second.free (first.free free)

theorem within_mono {d e : List Name} {w w' : Disk} (inside : d <+: e) (within : Within e w w') :
    Within d w w' where
  cwd := within.cwd
  outside loc out := within.outside loc fun below => out (inside.trans below)
  dirs := within.dirs
  free := within.free

theorem puts_within {w w' : Disk} {place : List Name} {node : Node Name UInt8}
    (puts : Puts w w' place node) (other : w.tree.isDir place = false)
    (plain : ∀ target, node ≠ .link target) : Within place w w' where
  cwd := puts.cwd
  outside loc out := by
    rw [puts.get, if_neg]
    intro same
    exact out (same ▸ List.prefix_rfl)
  dirs loc dir := by
    rw [is_dir_iff, puts.get, if_neg]
    · exact is_dir_iff.mp dir
    · intro same
      rw [← same, dir] at other
      cases other
  free free := by
    intro loc target found
    rw [puts.get] at found
    split at found
    · exact plain target (Option.some.inj found)
    · exact free loc target found

theorem create_dir_within {w : Disk} (free : w.tree.LinkFree) (path : DiskPath) :
    Within (placeOf w path) w (w.createDir path).1 := by
  by_cases can : ∃ p n, Makeable w path p n
  · obtain ⟨p, n, makes⟩ := can
    obtain ⟨_, puts⟩ := create_dir_makes free makes
    rw [← enters_place makes.enters]
    apply puts_within puts
    · exact missing_not_dir makes.missing
    · intro target same
      cases same
  · obtain ⟨e, failed⟩ := create_dir_fails free fun p n makes => can ⟨p, n, makes⟩
    rw [failed]
    exact within_refl _ w

theorem copy_file_within {w : Disk} (free : w.tree.LinkFree) (source dest : DiskPath) :
    Within (placeOf w dest) w (w.copyFile source dest).1 := by
  by_cases can : ∃ content p n, w.metadata source = .ok (.file content) ∧ Opens w dest p n
  · obtain ⟨content, p, n, node, opens⟩ := can
    obtain ⟨s, found, file⟩ := stat_ok_iff.mp node
    obtain ⟨_, puts⟩ := copy_file_copies free found file opens
    rw [← enters_place opens.enters]
    apply puts_within puts opens.other
    intro target same
    cases same
  · obtain ⟨e, failed⟩ := copy_file_fails free source dest fun content p n node opens =>
      can ⟨content, p, n, node, opens⟩
    rw [failed]
    exact within_refl _ w

def made (w : Disk) (dest : DiskPath) (destIsDir : Bool) : Disk :=
  if destIsDir then (w.createDir dest).1 else w

theorem made_within {w : Disk} (free : w.tree.LinkFree) (dest : DiskPath) (destIsDir : Bool) :
    Within (placeOf w dest) w (made w dest destIsDir) := by
  unfold made
  split
  · exact create_dir_within free dest
  · exact within_refl _ w

def fileTarget (dest : DiskPath) (destIsDir : Bool) (name : Name) : DiskPath :=
  if destIsDir then child dest name else dest

end Frame

/-- What one call of `do_copy` can come to, without links. -/
inductive CopyOutcome (listing : DiskListing) (fuel : Nat) (w : Disk)
    (source topdest dest : DiskPath) (destIsDir : Bool) (depth : Depth) :
    Disk → Except FsError Unit → Prop where
  | skipped (same : samePath source topdest = true) :
      CopyOutcome listing fuel w source topdest dest destIsDir depth w (.ok ())
  | missing (e : FsError) (different : samePath source topdest = false)
      (gone : w.metadata source = .error e) :
      CopyOutcome listing fuel w source topdest dest destIsDir depth w (.error e)
  | file (s p : List Name) (name : Name) (content : List UInt8) (w' : Disk)
      (r : Except FsError Unit) (different : samePath source topdest = false)
      (found : w.lookup true source = .ok s) (whole : s = p ++ [name])
      (node : w.tree.get s = some (.file content))
      (copied : (made w dest destIsDir).copyFile source (fileTarget dest destIsDir name) = (w', r)) :
      CopyOutcome listing fuel w source topdest dest destIsDir depth w' r
  | shallow (s : List Name) (different : samePath source topdest = false)
      (found : w.lookup true source = .ok s) (dir : w.tree.isDir s = true)
      (zero : depth = .zero) :
      CopyOutcome listing fuel w source topdest dest destIsDir depth (made w dest destIsDir) (.ok ())
  | deep (s : List Name) (w' : Disk) (r : Except FsError Unit)
      (different : samePath source topdest = false)
      (found : w.lookup true source = .ok s) (dir : w.tree.isDir s = true)
      (more : depth ≠ .zero)
      (run : copyEntries listing (made w dest destIsDir).tree s
        (fun w name isDir => doCopy listing fuel w (child source name) topdest (child dest name)
          isDir depth) fuel (made w dest destIsDir) [] (.ok ()) = some (w', r)) :
      CopyOutcome listing fuel w source topdest dest destIsDir depth w' r

section Outcome
variable {listing : DiskListing} {fuel : Nat} {w w' : Disk} {source topdest dest : DiskPath}
  {destIsDir : Bool} {depth : Depth} {result : Except FsError Unit}

theorem file_name_leads (free : w.tree.LinkFree) {s : List Name} {content : List UInt8}
    (found : w.lookup true source = .ok s) (node : w.tree.get s = some (.file content)) :
    ∃ p name, s = p ++ [name] ∧ Enters w source p name ∧ fileName source = some name := by
  obtain ⟨some_left, leads, _⟩ := (lookup_ok_iff free).mp found
  obtain ⟨p, name, whole, enters⟩ := leads_other leads some_left (file_not_dir node)
  exact ⟨p, name, whole, enters, file_name_last enters.1⟩

theorem lookup_grows (free : w.tree.LinkFree) {d : List Name} (within : Within d w w')
    {follow : Bool} {s : List Name} (found : w.lookup follow source = .ok s) :
    w'.lookup follow source = .ok s := by
  obtain ⟨some_left, leads, slash⟩ := (lookup_ok_iff free).mp found
  exact (lookup_ok_iff (within.free free)).mpr ⟨some_left,
    leads_grows within.cwd within.dirs leads, fun ends => within.dirs s (slash ends)⟩

theorem do_copy_file (free : w.tree.LinkFree) {s p : List Name} {name : Name}
    {content : List UInt8} (different : samePath source topdest = false)
    (found : w.lookup true source = .ok s) (whole : s = p ++ [name])
    (node : w.tree.get s = some (.file content)) :
    doCopy listing (fuel + 1) w source topdest dest destIsDir depth =
      some ((made w dest destIsDir).copyFile source (fileTarget dest destIsDir name)) := by
  have meta_node : w.metadata source = .ok (.file content) := stat_ok_iff.mpr ⟨s, found, node⟩
  obtain ⟨q, last, same, _, named⟩ := file_name_leads free found node
  obtain ⟨_, alike⟩ := List.append_singleton_inj.mp (whole.symm.trans same)
  subst alike
  unfold doCopy
  rw [if_neg (by simp [different]), meta_node]
  cases destIsDir with
  | false => rfl
  | true =>
    simp only [named, join_name_child]
    rfl

theorem do_copy_dir (free : w.tree.LinkFree) {s : List Name}
    (different : samePath source topdest = false) (found : w.lookup true source = .ok s)
    (dir : w.tree.isDir s = true) :
    doCopy listing (fuel + 1) w source topdest dest destIsDir depth =
      if depth = .zero then some (made w dest destIsDir, .ok ())
      else copyEntries listing (made w dest destIsDir).tree s
        (fun w name isDir => doCopy listing fuel w (child source name) topdest (child dest name)
          isDir depth) fuel (made w dest destIsDir) [] (.ok ()) := by
  have meta_node : w.metadata source = .ok .dir := stat_ok_iff.mpr ⟨s, found, is_dir_iff.mp dir⟩
  have within := made_within free dest destIsDir
  have later := lookup_grows free within found
  have still := within.dirs s dir
  unfold made at later still ⊢
  conv => lhs; unfold doCopy
  rw [if_neg (by simp [different]), meta_node]
  simp only [join_name_child, later, still, ↓reduceIte]

theorem do_copy_outcome (free : w.tree.LinkFree)
    (run : doCopy listing (fuel + 1) w source topdest dest destIsDir depth = some (w', result)) :
    CopyOutcome listing fuel w source topdest dest destIsDir depth w' result := by
  by_cases same : samePath source topdest = true
  · unfold doCopy at run
    rw [if_pos same] at run
    cases run
    exact .skipped same
  have different := Bool.not_eq_true _ ▸ same
  cases node : w.metadata source with
  | error e =>
    unfold doCopy at run
    rw [if_neg same, node] at run
    cases run
    exact .missing e different node
  | ok node' =>
    obtain ⟨s, found, here⟩ := stat_ok_iff.mp node
    cases node' with
    | link target => exact absurd here (free s target)
    | file content =>
      obtain ⟨p, name, whole, _, _⟩ := file_name_leads free found here
      rw [do_copy_file free different found whole here] at run
      exact .file s p name content w' result different found whole here (Option.some.inj run)
    | dir =>
      have dir := is_dir_iff.mpr here
      rw [do_copy_dir free different found dir] at run
      split at run
      · rename_i zero
        cases run
        exact .shallow s different found dir zero
      · rename_i more
        exact .deep s w' result different found dir more run

/-- A run of `do_copy` touches the place of `dest` and what is below it. -/
theorem do_copy_within (free : w.tree.LinkFree)
    (run : doCopy listing fuel w source topdest dest destIsDir depth = some (w', result)) :
    Within (placeOf w dest) w w' := by
  induction fuel generalizing w w' source dest destIsDir result with
  | zero => cases run
  | succ fuel ih =>
    have first := made_within free dest destIsDir
    have place := place_same dest first.cwd
    cases do_copy_outcome free run with
    | skipped same => exact within_refl _ w
    | missing e different gone => exact within_refl _ w
    | shallow s different found dir zero => exact first
    | file s p name content w' r different found whole node copied =>
      have second := copy_file_within (first.free free) source (fileTarget dest destIsDir name)
      rw [copied] at second
      apply within_trans first
      apply within_mono _ second
      unfold fileTarget
      split
      · rw [child_place, place]
        exact List.prefix_append _ _
      · exact place ▸ List.prefix_rfl
    | deep s w' r different found dir more loop =>
      obtain ⟨_, _, whole, _⟩ := copy_entries_rule
        (P := fun now _ _ => Within (placeOf w dest) w now) (by
          intro now seen retval name _ next r sofar _ _ one
          have copied := ih (sofar.free free) one
          rw [child_place, place_same dest sofar.cwd] at copied
          exact within_trans sofar (within_mono (List.prefix_append _ _) copied))
        fuel first loop
      exact whole

theorem made_unchanged (free : w.tree.LinkFree) (no : ∀ p n, ¬ Makeable w dest p n) :
    made w dest destIsDir = w := by
  obtain ⟨e, failed⟩ := create_dir_fails free no
  unfold made
  rw [failed]
  split <;> rfl

theorem not_makeable_above {path : DiskPath} {node : Node Name UInt8}
    {s : List Name} (found : w.tree.get s = some node) (above : placeOf w path <+: s) :
    ∀ p n, ¬ Makeable w path p n := by
  intro p n makes
  rw [← enters_place makes.enters] at above
  obtain ⟨rest, whole⟩ := above
  have gone := below_missing w.tree makes.missing rest
  rw [whole, found] at gone
  cases gone

theorem child_blocked {name : Name}
    (closed : ∀ loc, Leads w dest loc → w.tree.isDir loc = false) :
    ∀ loc, ¬ Leads w (child dest name) loc := by
  intro loc leads
  obtain ⟨p, parent, dir, _⟩ := child_leads.mp leads
  rw [closed p parent] at dir
  cases dir

theorem copy_blocked (free : w.tree.LinkFree) (source : DiskPath) (blocked : ∀ loc, ¬ Leads w dest loc)
    (destIsDir : Bool) (name : Name) :
    ∃ e, w.copyFile source (fileTarget dest destIsDir name) = (w, .error e) := by
  apply copy_file_fails free source
  intro content q n _ opens
  have leads := enters_leads opens.enters
  unfold fileTarget at leads
  split at leads
  · exact child_blocked (fun loc leads => absurd leads (blocked loc)) _ leads
  · exact blocked _ leads

theorem do_copy_blocked (free : w.tree.LinkFree) (blocked : ∀ loc, ¬ Leads w dest loc)
    (run : doCopy listing fuel w source topdest dest destIsDir depth = some (w', result)) :
    w' = w := by
  induction fuel generalizing w w' source dest destIsDir result with
  | zero => cases run
  | succ fuel ih =>
    have same : made w dest destIsDir = w :=
      made_unchanged free fun p n makes => blocked _ (enters_leads makes.enters)
    have closed : ∀ loc, Leads w dest loc → w.tree.isDir loc = false :=
      fun loc leads => absurd leads (blocked loc)
    cases do_copy_outcome free run with
    | skipped _ => rfl
    | missing _ _ _ => rfl
    | shallow _ _ _ _ _ => exact same
    | file s p name content w' r _ _ _ _ copied =>
      rw [same] at copied
      obtain ⟨e, failed⟩ := copy_blocked free source blocked destIsDir name
      rw [failed] at copied
      exact (congrArg Prod.fst copied).symm
    | deep s w' r _ _ _ _ loop =>
      rw [same] at loop
      obtain ⟨_, _, whole, _⟩ := copy_entries_rule (P := fun now _ _ => now = w) (by
          intro now seen retval name _ next r sofar _ _ one
          subst sofar
          exact ih free (child_blocked closed) one)
        fuel rfl loop
      exact whole

end Outcome
end VestibuleCopyMove
