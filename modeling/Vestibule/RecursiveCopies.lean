import Vestibule.CopyResult
import Vestibule.TextEntries

/-!
`do_copy` of a whole directory to a place that does not exist, where calls of the system may fail
for reasons of their own. The place may lie in the directory that is copied.
-/
namespace VestibuleCopyMove
open VestibuleRust LexicalMotion FileTree FileCalls World VestibulePaths PlainLookups PlainCalls

/-- A call that fails, and what `fs::copy` has written by then if it has opened the file. -/
structure CallFault where
  error : FsError
  written : Option Bytes

abbrev CallFaults := Nat → Option CallFault

def CallFaults.none : CallFaults := fun _ => .none

def writePart (w : Disk) (dest : DiskPath) (bytes : Bytes) : Disk :=
  match w.openTruncated dest with
  | (w, .error _) => w
  | (w, .ok (p, n)) => (w.putAt p n (.file bytes)).1

def copyFileUnder (fault : Option CallFault) (w : Disk) (source dest : DiskPath) :
    Disk × Except FsError Unit :=
  match fault with
  | none => w.copyFile source dest
  | some ⟨e, none⟩ => (w, .error e)
  | some ⟨e, some bytes⟩ => (writePart w dest bytes, .error e)

/-- What a part of the copy leaves: the calls made, the world, the result. -/
abbrev CopyAnswer := Nat × Disk × Except FsError Unit

/-- `copyEntries` with calls that fail: `next_entry`, then `dirent.metadata()`. -/
def copyEntriesUnder (faults : CallFaults) (listing : DiskListing) (opened : DiskTree) (loc : List Name)
    (body : Nat → Disk → Name → Bool → Option CopyAnswer) :
    Nat → Nat → Disk → List Name → Except FsError Unit → Option CopyAnswer
  | 0, _, _, _, _ => none
  | fuel + 1, turn, w, seen, retval =>
    match faults turn with
    | some fault => some (turn + 1, w, .error fault.error)
    | none =>
      match listing.next opened w.tree loc seen with
      | none => some (turn + 1, w, retval)
      | some name =>
        match faults (turn + 1) with
        | some fault => some (turn + 2, w, .error fault.error)
        | none =>
          match w.tree.get (loc ++ [name]) with
          | none => some (turn + 2, w, .error .notFound)
          | some node =>
            match body (turn + 2) w name (isDirNode node) with
            | none => none
            | some (turn, w, .ok _) =>
              copyEntriesUnder faults listing opened loc body fuel turn w (seen ++ [name]) retval
            | some (turn, w, .error e) =>
              copyEntriesUnder faults listing opened loc body fuel turn w (seen ++ [name]) (.error e)

/-- `do_copy` with calls that fail: `metadata`, `create_dir`, then `copy` or `read_dir`. -/
def doCopyUnder (faults : CallFaults) (listing : DiskListing) :
    Nat → Nat → Disk → DiskPath → DiskPath → DiskPath → Bool → Depth → Option CopyAnswer
  | 0, _, _, _, _, _, _, _ => none
  | fuel + 1, turn, w, source, topdest, dest, destIsDir, depth =>
    if samePath source topdest then some (turn, w, .ok ())
    else
      match faults turn, w.metadata source with
      | some fault, _ => some (turn + 1, w, .error fault.error)
      | none, .error e => some (turn + 1, w, .error e)
      | none, .ok node =>
        let w := if destIsDir && (faults (turn + 1)).isNone then (w.createDir dest).1 else w
        match node with
        | .file _ =>
          if destIsDir then
            match fileName source with
            | none => some (turn + 2, w, .error .invalidInput)
            | some name => some (turn + 3, copyFileUnder (faults (turn + 2)) w source (joinName dest name))
          else some (turn + 3, copyFileUnder (faults (turn + 2)) w source dest)
        | _ =>
          if depth = .zero then some (turn + 2, w, .ok ())
          else
            match faults (turn + 2), w.lookup true source with
            | some fault, _ => some (turn + 3, w, .error fault.error)
            | none, .error e => some (turn + 3, w, .error e)
            | none, .ok loc =>
              if w.tree.isDir loc then
                copyEntriesUnder faults listing w.tree loc
                  (fun turn w name isDir => doCopyUnder faults listing fuel turn w
                    (joinName source name) topdest (joinName dest name) isDir depth)
                  fuel (turn + 3) w [] (.ok ())
              else some (turn + 3, w, .error .notDirectory)

section Faultless
variable {listing : DiskListing}

theorem copy_entries_faultless {opened : DiskTree} {loc : List Name}
    {body : Nat → Disk → Name → Bool → Option CopyAnswer}
    {plain : Disk → Name → Bool → Option (Disk × Except FsError Unit)}
    (same : ∀ turn w name isDir, (body turn w name isDir).map Prod.snd = plain w name isDir)
    (fuel turn : Nat) (w : Disk) (seen : List Name) (retval : Except FsError Unit) :
    (copyEntriesUnder .none listing opened loc body fuel turn w seen retval).map Prod.snd =
      copyEntries listing opened loc plain fuel w seen retval := by
  induction fuel generalizing turn w seen retval with
  | zero => rfl
  | succ fuel ih =>
    cases next : listing.next opened w.tree loc seen with
    | none => simp [copyEntriesUnder, copyEntries, CallFaults.none, next]
    | some name =>
      cases found : w.tree.get (loc ++ [name]) with
      | none => simp [copyEntriesUnder, copyEntries, CallFaults.none, next, found]
      | some node =>
        have one := same (turn + 2) w name (isDirNode node)
        simp only [copyEntriesUnder, copyEntries, CallFaults.none, next, found, ← one]
        rcases body (turn + 2) w name (isDirNode node) with _ | ⟨turn', w', r⟩
        · rfl
        · cases r with
          | ok _ => exact ih turn' w' _ _
          | error e => exact ih turn' w' _ _

theorem do_copy_faultless (fuel turn : Nat) (w : Disk) (source topdest dest : DiskPath)
    (destIsDir : Bool) (depth : Depth) :
    (doCopyUnder .none listing fuel turn w source topdest dest destIsDir depth).map Prod.snd =
      doCopy listing fuel w source topdest dest destIsDir depth := by
  induction fuel generalizing turn w source dest destIsDir with
  | zero => rfl
  | succ fuel ih =>
    by_cases same : samePath source topdest = true
    · simp [doCopyUnder, doCopy, same]
    cases node : w.metadata source with
    | error e => simp [doCopyUnder, doCopy, same, node, CallFaults.none]
    | ok node' =>
      simp only [doCopyUnder, doCopy, same, node, CallFaults.none, Option.isNone_none, Bool.and_true,
        Bool.false_eq_true, ↓reduceIte]
      generalize (if destIsDir = true then (w.createDir dest).1 else w) = w'
      have deep : ∀ loc, (copyEntriesUnder (fun _ => none) listing w'.tree loc
          (fun turn w name isDir => doCopyUnder (fun _ => none) listing fuel turn w
            (joinName source name) topdest (joinName dest name) isDir depth)
          fuel (turn + 3) w' [] (.ok ())).map Prod.snd =
            copyEntries listing w'.tree loc (fun w name isDir => doCopy listing fuel w
              (joinName source name) topdest (joinName dest name) isDir depth) fuel w' [] (.ok ()) :=
        fun loc => copy_entries_faultless
          (fun turn w name isDir => ih turn w (joinName source name) (joinName dest name) isDir)
          fuel (turn + 3) w' [] (.ok ())
      cases node' with
      | file content =>
        cases destIsDir with
        | false => rfl
        | true => cases fileName source <;> rfl
      | dir | link target =>
        by_cases zero : depth = .zero
        · simp [zero]
        cases found : w'.lookup true source with
        | error e => simp [zero]
        | ok loc =>
          by_cases dir : w'.tree.isDir loc = true
          · simp only [zero, dir, ↓reduceIte]
            exact deep loc
          · simp [zero, dir]

end Faultless

section Answers
variable {faults : CallFaults} {listing : DiskListing} {base w : Disk} {path dest : DiskPath}
  {s d m names : List Name}

theorem write_part_within (free : w.tree.LinkFree) (dest : DiskPath) (bytes : Bytes) :
    Within (placeOf w dest) w (writePart w dest bytes) := by
  by_cases can : ∃ p n, Opens w dest p n
  · obtain ⟨p, n, opens⟩ := can
    obtain ⟨ok, puts, _⟩ := open_truncated_done ((opens_to_iff free).mpr opens)
    have emptied := puts_within puts opens.other (by intro target same; cases same)
    rw [← enters_place opens.enters]
    unfold writePart
    generalize w.openTruncated dest = result at ok puts emptied
    obtain ⟨w₁, outcome⟩ := result
    cases ok
    have empty : w₁.tree.get (p ++ [n]) = some (.file []) := (puts.get _).trans (if_pos rfl)
    have fits : w₁.tree.Writable p n :=
      ⟨emptied.dirs p opens.enters.2.2, opens.legal, file_not_dir empty⟩
    obtain ⟨_, again, _⟩ := put_at_done (.file bytes) fits
    exact within_trans emptied (puts_within again fits.2.2 (by intro target same; cases same))
  · obtain ⟨e, failed⟩ := open_truncated_refused fun p n opened =>
      can ⟨p, n, (opens_to_iff free).mp opened⟩
    unfold writePart
    rw [failed]
    exact within_refl _ w

theorem copy_file_under_within (free : w.tree.LinkFree) (fault : Option CallFault)
    (source dest : DiskPath) : Within (placeOf w dest) w (copyFileUnder fault w source dest).1 := by
  rcases fault with _ | ⟨e, _ | bytes⟩
  · exact copy_file_within free source dest
  · exact within_refl _ w
  · exact write_part_within free dest bytes

theorem copy_entries_under_answers {opened : DiskTree} {loc : List Name}
    {body : Nat → Disk → Name → Bool → Option CopyAnswer} {P : Disk → Prop}
    (bound : ∀ w seen name, P w → listing.next opened w.tree loc seen = some name → name ∈ names)
    (answers : ∀ turn w name node, P w → w.tree.get (loc ++ [name]) = some node →
      ∃ turn' w' r, body turn w name (isDirNode node) = some (turn', w', r) ∧ P w')
    (fuel turn : Nat) {seen : List Name} (retval : Except FsError Unit) (start : P w)
    (once : seen.Nodup) (listed : seen ⊆ names) (enough : names.length < fuel + seen.length) :
    ∃ turn' w' r, copyEntriesUnder faults listing opened loc body fuel turn w seen retval =
      some (turn', w', r) ∧ P w' := by
  induction fuel generalizing turn w seen retval with
  | zero =>
    have width := once.length_le_of_subset listed
    omega
  | succ fuel ih =>
    unfold copyEntriesUnder
    split
    · exact ⟨_, _, _, rfl, start⟩
    split
    · exact ⟨_, _, _, rfl, start⟩
    rename_i name next
    split
    · exact ⟨_, _, _, rfl, start⟩
    split
    · exact ⟨_, _, _, rfl, start⟩
    rename_i node found
    obtain ⟨turn', w', r, answered, still⟩ := answers (turn + 2) w name node start found
    obtain ⟨once', listed'⟩ := listed_once once listed (listing.fresh _ _ _ _ _ next)
      (bound w seen name start next)
    have enough' : names.length < fuel + (seen ++ [name]).length := by
      rw [List.length_append, List.length_singleton]
      omega
    rw [answered]
    cases r with
    | ok _ => exact ih turn' _ still once' listed' enough'
    | error e => exact ih turn' _ still once' listed' enough'

/-- Whatever fails: with fuel for the height of the source and for its widest directory, the copy
    ends, and only the destination and what is below it has changed. -/
theorem do_copy_under_answers (free : base.tree.LinkFree) (source : base.lookup true path = .ok s)
    (target : placeOf base dest = d)
    (spelled : ∀ m, s ++ m = d → samePath (descend path m) dest = true)
    (bound : ∀ m n, ¬ d <+: s ++ m → (s ++ m ++ [n] = d ∨ base.tree.get (s ++ m ++ [n]) ≠ none) →
      n ∈ names)
    (fuel turn : Nat) {height : Nat} (isDir : Bool) {node : Node Name UInt8}
    (within : Within d base w) (outside : ¬ d <+: s ++ m)
    (here : base.tree.get (s ++ m) = some node)
    (low : ∀ x, base.tree.get (s ++ m ++ x) ≠ none → x.length ≤ height)
    (enough : height + names.length + 2 ≤ fuel) :
    ∃ turn' w' r, doCopyUnder faults listing fuel turn w (descend path m) dest (descend dest m) isDir
      .infinity = some (turn', w', r) ∧ Within d base w' := by
  induction fuel generalizing turn w m height isDir node with
  | zero => omega
  | succ fuel ih =>
    have free' := within.free free
    have now : w.tree.get (s ++ m) = some node := by
      rw [within.outside _ outside]
      exact here
    have found := descend_lookup free' (lookup_grows free within source) m now
    have status : w.metadata (descend path m) = .ok node := stat_ok_iff.mpr ⟨_, found, now⟩
    have place : ∀ now, Within d base now → placeOf now (descend dest m) = d ++ m := by
      intro now sofar
      rw [descend_place, within_place sofar target]
    unfold doCopyUnder
    split
    · exact ⟨_, _, _, rfl, within⟩
    rw [status]
    split
    · exact ⟨_, _, _, rfl, within⟩
    · rename_i failed
      cases failed
    rename_i node' _ same
    cases same
    have made' : Within d base (if isDir && (faults (turn + 1)).isNone then
        (w.createDir (descend dest m)).1 else w) := by
      split
      · have change := create_dir_within free' (descend dest m)
        rw [place w within] at change
        exact within_trans within (within_mono (List.prefix_append _ _) change)
      · exact within
    simp only
    generalize (if isDir && (faults (turn + 1)).isNone then (w.createDir (descend dest m)).1 else w) =
      opened at made'
    have copied : ∀ fault source target, d <+: placeOf opened target →
        Within d base (copyFileUnder fault opened source target).1 := fun fault source target inside =>
      within_trans made' (within_mono inside (copy_file_under_within (made'.free free) fault source target))
    cases node with
    | link target => exact absurd here (free _ target)
    | file content =>
      simp only
      split
      · split
        · exact ⟨_, _, _, rfl, made'⟩
        · rename_i name _
          refine ⟨_, _, _, rfl, copied _ _ _ ?_⟩
          rw [join_name_child, child_place, place _ made', List.append_assoc]
          exact List.prefix_append _ _
      · refine ⟨_, _, _, rfl, copied _ _ _ ?_⟩
        rw [place _ made']
        exact List.prefix_append _ _
    | dir =>
      have dir : opened.tree.isDir (s ++ m) = true := by
        rw [is_dir_iff, made'.outside _ outside]
        exact here
      have found' := descend_lookup (made'.free free) (lookup_grows free made' source) m
        (is_dir_iff.mp dir)
      simp only [reduceCtorEq, ↓reduceIte]
      rw [found']
      split
      · exact ⟨_, _, _, rfl, made'⟩
      · rename_i failed
        cases failed
      rename_i loc _ same
      cases same
      rw [if_pos dir]
      have wide : names.length < fuel + ([] : List Name).length := by
        rw [List.length_nil]
        omega
      refine copy_entries_under_answers ?_ ?_ _ _ _ made' List.nodup_nil (List.nil_subset names) wide
      · intro now seen name sofar next
        apply bound m name outside
        by_cases apart : s ++ m ++ [name] = d
        · exact .inl apart
        · have out := entry_outside outside apart
          right
          rcases listing.sound _ _ _ _ _ next with before | after
          · rwa [← made'.outside _ out]
          · rwa [← sofar.outside _ out]
      · intro turn now name node' sofar found
        rw [join_name_child, join_name_child, ← descend_concat, ← descend_concat]
        by_cases apart : s ++ m ++ [name] = d
        · obtain ⟨rest, plenty⟩ : ∃ rest, fuel = rest + 1 := ⟨fuel - 1, by omega⟩
          have same := spelled (m ++ [name]) (by rwa [← List.append_assoc])
          refine ⟨turn, now, .ok (), ?_, sofar⟩
          rw [plenty, doCopyUnder, if_pos same]
        · have out := entry_outside outside apart
          rw [sofar.outside _ out, List.append_assoc] at found
          rw [List.append_assoc] at out
          have step : 1 ≤ height := low [name] (by
            rw [List.append_assoc, found]
            exact Option.some_ne_none _)
          have low' : ∀ x, base.tree.get (s ++ (m ++ [name]) ++ x) ≠ none → x.length ≤ height - 1 := by
            intro x below
            rw [List.append_assoc, List.append_assoc] at below
            have longer := low ([name] ++ x) (by rwa [List.append_assoc])
            rw [List.length_append, List.length_singleton] at longer
            omega
          exact ih turn (isDirNode node') sofar out found low' (by omega)

end Answers

structure NormalBelow (directory path : DiskPath) (names : List Name) : Prop where
  absolute : path.absolute = directory.absolute
  steps : path.steps = directory.steps ++ names.map .name

section Normal
variable {w : Disk} {directory path dest : DiskPath} {names : List Name}

theorem normal_same (normal : NormalBelow directory path names) {more whole : List Name}
    (other : NormalBelow directory dest whole) (same : names ++ more = whole) :
    samePath (descend path more) dest = true := by
  obtain ⟨absolute, steps⟩ := descend_steps path more
  rw [normal.absolute, ← other.absolute] at absolute
  rw [normal.steps, List.append_assoc, ← List.map_append, same, ← other.steps] at steps
  unfold samePath components
  rw [absolute, steps]
  simp

theorem normal_place (normal : NormalBelow directory path names) :
    placeOf w path = placeOf w directory ++ names := by
  obtain ⟨absolute, steps⟩ := descend_steps directory names
  rw [← descend_place, placeOf, placeOf, fullSteps, fullSteps, normal.absolute, normal.steps,
    absolute, steps]

theorem normal_enters (free : w.tree.LinkFree) {front : List Name} {n : Name}
    (normal : NormalBelow directory dest (front ++ [n]))
    (parent : isDir w (descend directory front) = true) :
    Enters w dest (placeOf w directory ++ front) n := by
  obtain ⟨p, found, dir⟩ := is_dir_path_iff.mp parent
  have place := lookup_place free found
  rw [descend_place] at place
  subst place
  have enters := child_enters (n := n) ((lookup_ok_iff free).mp found).2.1 dir
  rw [← descend_concat] at enters
  obtain ⟨absolute, steps⟩ := descend_steps directory (front ++ [n])
  rw [← normal.absolute] at absolute
  rw [← normal.steps] at steps
  unfold Enters Leads fullSteps at enters ⊢
  rwa [absolute, steps] at enters

theorem normal_outside (free : w.tree.LinkFree) {front s : List Name} {n : Name}
    (normal : NormalBelow directory dest (front ++ [n]))
    (parent : isDir w (descend directory front) = true) (missing : pathExists w dest = false)
    (dir : w.tree.isDir s = true) : ¬ placeOf w dest <+: s := by
  have enters := normal_enters free normal parent
  intro above
  obtain ⟨rest, whole⟩ := above
  have top : w.tree.isDir (placeOf w dest) = true := by
    by_cases bare : rest = []
    · rwa [← whole, bare, List.append_nil] at dir
    · rw [is_dir_iff, ← whole] at dir
      exact is_dir_iff.mpr (above_is_dir w.tree bare dir)
  have found : w.lookup true dest = .ok (placeOf w dest) :=
    (lookup_ok_iff free).mpr ⟨enters_not_blank enters, by
      rw [← enters_place enters]
      exact enters_leads enters, fun _ => top⟩
  have there : pathExists w dest = true :=
    path_exists_iff.mpr ⟨_, stat_ok_iff.mpr ⟨_, found, is_dir_iff.mp top⟩⟩
  rw [missing] at there
  cases there

theorem created_makeable (free : w.tree.LinkFree) (created : (w.createDir dest).2 = .ok ()) :
    ∃ p n, Makeable w dest p n := by
  by_contra no
  obtain ⟨e, failed⟩ := create_dir_fails free fun p n makes => no ⟨p, n, makes⟩
  rw [failed] at created
  cases created

end Normal

/-- A directory copied to a place that does not exist, wherever its parent is: the copy ends whatever
    is listed and whatever fails, changes nothing else, and is exact when nothing fails. -/
theorem recursive_copy_ends_exact (listing : DiskListing) (faults : CallFaults) {w : Disk}
    (free : w.tree.LinkFree) {directory path dest : DiskPath} {source front : List Name} {n : Name}
    (sourceNormal : NormalBelow directory path source)
    (destNormal : NormalBelow directory dest (front ++ [n])) (dir : isDir w path = true)
    (missing : pathExists w dest = false) (parent : isDir w (descend directory front) = true) :
    ∃ fuel turns w' r,
      doCopyUnder faults listing fuel 0 w path dest dest (!destIsFile w dest) .infinity =
        some (turns, w', r) ∧
      (∀ loc, ¬ placeOf w dest <+: loc → w'.tree.get loc = w.tree.get loc) ∧
      (faults = .none → (w.createDir dest).2 = .ok () →
        r = .ok () ∧ w'.lookup true dest = .ok (placeOf w dest) ∧
          ∀ rest, w'.tree.get (placeOf w dest ++ rest) = w.tree.get (placeOf w path ++ rest)) := by
  obtain ⟨s, found, top⟩ := is_dir_path_iff.mp dir
  have place := lookup_place free found
  subst place
  have outside := normal_outside free destNormal parent missing top
  have spelled : ∀ m, placeOf w path ++ m = placeOf w dest → samePath (descend path m) dest = true := by
    intro m same
    rw [normal_place sourceNormal, normal_place destNormal, List.append_assoc] at same
    exact normal_same sourceNormal destNormal (List.append_cancel_left same)
  let names := w.tree.support.filterMap List.getLast? ++ [n]
  have bound : ∀ m x, ¬ placeOf w dest <+: placeOf w path ++ m →
      (placeOf w path ++ m ++ [x] = placeOf w dest ∨ w.tree.get (placeOf w path ++ m ++ [x]) ≠ none) →
      x ∈ names := by
    intro m x _ member
    apply List.mem_append.mpr
    rcases member with same | there
    · rw [normal_place destNormal, ← List.append_assoc] at same
      exact .inr (List.mem_singleton.mpr (List.append_singleton_inj.mp same).2)
    · obtain ⟨node, here⟩ := Option.ne_none_iff_exists'.mp there
      exact .inl (List.mem_filterMap.mpr ⟨_, w.tree.finite _ _ here, List.getLast?_concat⟩)
  have low : ∀ x, w.tree.get (placeOf w path ++ [] ++ x) ≠ none → x.length ≤ w.tree.height := by
    intro x below
    have short := length_le_height below
    rw [List.length_append] at short
    exact Nat.le_trans (Nat.le_add_left _ _) short
  have start : w.tree.get (placeOf w path ++ []) = some .dir := by
    rw [List.append_nil]
    exact is_dir_iff.mp top
  obtain ⟨turns, w', r, run, within⟩ := @do_copy_under_answers faults listing w w path dest _ _ [] _
    free found rfl spelled bound (w.tree.height + names.length + 2) 0 _ (!destIsFile w dest) _
    (within_refl _ w) (by rwa [List.append_nil]) start low (Nat.le_refl _)
  refine ⟨_, turns, w', r, run, fun loc out => within.outside loc out, ?_⟩
  intro none_fails created
  obtain ⟨p, n', makes⟩ := created_makeable free created
  have fresh : Fresh w path dest (placeOf w path) (placeOf w dest) :=
    ⟨free, rfl, rfl, by rw [← enters_place makes.enters]; exact makes.missing, spelled⟩
  have plain := @do_copy_faultless listing (w.tree.height + names.length + 2) 0 w path dest
    dest (!destIsFile w dest) .infinity
  subst none_fails
  change (doCopyUnder .none listing _ 0 w (descend path []) dest (descend dest []) _ _).map _ = _ at plain
  rw [run] at plain
  rw [(makeable_absent free makes).2] at plain
  obtain ⟨fine, exactly⟩ := copy_exact _ fresh (fresh_facing fresh found top makes) plain.symm
  simp only [List.append_nil] at exactly
  have made : w'.tree.isDir (placeOf w dest) = true := by
    have here := exactly []
    rw [List.append_nil, List.append_nil, is_dir_iff.mp top] at here
    exact is_dir_iff.mpr here
  refine ⟨fine, (lookup_ok_iff (within.free free)).mpr ⟨enters_not_blank makes.enters, ?_, fun _ => made⟩,
    exactly⟩
  rw [← enters_place makes.enters]
  exact leads_grows within.cwd within.dirs (enters_leads makes.enters)

/-- A directory copied to a new place in its own child: the file in it is found there. -/
theorem copy_into_own_child_ends :
    ∃ fuel turns w' r, doCopyUnder .none Listing.asOpened fuel 0 nestedDisk (pathOf (utf8 "/d/a"))
        (pathOf (utf8 "/d/a/b/c")) (pathOf (utf8 "/d/a/b/c"))
        (!destIsFile nestedDisk (pathOf (utf8 "/d/a/b/c"))) .infinity = some (turns, w', r) ∧
      r = .ok () ∧ w'.tree.get [[100], [97], [98], [99], [98], [102]] = some (.file [1]) := by
  have source : NormalBelow (pathOf (utf8 "/d")) (pathOf (utf8 "/d/a")) [[97]] :=
    ⟨by decide, by decide⟩
  have dest : NormalBelow (pathOf (utf8 "/d")) (pathOf (utf8 "/d/a/b/c")) ([[97], [98]] ++ [[99]]) :=
    ⟨by decide, by decide⟩
  obtain ⟨fuel, turns, w', r, run, _, exactly⟩ := recursive_copy_ends_exact Listing.asOpened .none
    nested_free source dest (by decide) (by decide) (by decide)
  obtain ⟨fine, _, copied⟩ := exactly rfl (by decide)
  exact ⟨fuel, turns, w', r, run, fine, copied [[98], [102]]⟩

end VestibuleCopyMove
