import Vestibule.CopySource
import Vestibule.CopyStuck

/-!
What a successful COPY leaves at the Destination, against the source as it was.
-/
namespace VestibuleCopyMove
open VestibuleRust LexicalMotion FileTree FileCalls World VestibulePaths PlainLookups PlainCalls

structure CopiedTo (w w' : Disk) (path dest : DiskPath) (depth : Depth) (s : List Name) : Prop where
  file : ∀ content, w.tree.get s = some (.file content) → ∃ name d, fileName path = some name ∧
    w'.lookup true (if isDir w dest then joinName dest name else dest) = .ok d ∧
    w'.tree.get d = some (.file content)
  whole : w.tree.isDir s = true → depth ≠ .zero →
    ∃ d, w'.lookup true dest = .ok d ∧ ∀ rest, w'.tree.get (d ++ rest) = w.tree.get (s ++ rest)
  shallow : w.tree.isDir s = true → depth = .zero → isDir w' dest = true

/-- The copy is not taken for a directory, and not of the file onto itself. -/
def Plan.CopiesFile (plan : Plan) (w : Disk) (s : List Name) (content : List UInt8) : Prop :=
  (∀ p n, ¬ Makeable w plan.dest p n) ∧
    (content = [] ∨ (w.lookup true plan.dest ≠ .ok s ∧ w.lookup true plan.dest ≠ .ok s.dropLast))

def Plan.base (plan : Plan) (w : Disk) : Disk :=
  if plan.removes w then w.without (placeOf w plan.dest) else w

/-- In the world that the copy of a whole directory starts in, its source is gone; or a directory
    is made for it, and it was not removed from the source before; or none can be made, and there
    is a file to fail on. -/
def Plan.CopiesFrom (plan : Plan) (w w₁ : Disk) (s : List Name) : Prop :=
  pathExists w₁ plan.path = false ∨
    (∃ p n, Makeable w₁ plan.dest p n) ∧
        (∀ rest, samePath (descend plan.path rest) plan.dest = true → plan.removes w = false) ∨
      (∀ p n, ¬ Makeable w₁ plan.dest p n) ∧ ¬ NothingElse w₁ s plan.path plan.dest

def Plan.CopiesDir (plan : Plan) (w : Disk) (s : List Name) : Prop :=
  (plan.removes w = true ∧ ∀ p n, ¬ Enters (w.clearAt (placeOf w plan.dest)) plan.dest p n) ∨
    plan.CopiesFrom w (plan.base w) s

def Plan.Copies (plan : Plan) (w : Disk) : Prop :=
  ∃ s, w.lookup true plan.path = .ok s ∧
    ((∃ content, w.tree.get s = some (.file content) ∧ plan.CopiesFile w s content) ∨
      w.tree.isDir s = true ∧
        (if plan.depth = .zero then isDir w plan.dest = true ∨ ∃ p n, Makeable w plan.dest p n
        else plan.CopiesDir w s))

/-- Every successful answer to the plan leaves a copy. -/
def Plan.Faithful (plan : Plan) (listing : DiskListing) (w : Disk) (s : List Name) : Prop :=
  ∀ fuel w' reply, plan.execute listing .copy fuel w = some (w', reply) →
    (reply = .status 201 ∨ reply = .status 204) →
    CopiedTo w w' plan.path plan.dest plan.depth s

section Stages
variable {listing : DiskListing} {w w₁ : Disk} {plan : Plan} {s : List Name}

theorem faithful_iff
    (stage : plan.makeRoom w = (w₁, .ok ())) :
    plan.Faithful listing w s ↔ ∀ fuel w',
      doCopy listing fuel w₁ plan.path plan.dest plan.dest (!plan.destIsFile) plan.depth =
        some (w', .ok ()) → CopiedTo w w' plan.path plan.dest plan.depth s := by
  constructor
  · intro faithful fuel w' run
    apply faithful fuel w' _ (execute_copy_answers stage run)
    cases plan.overwrite && plan.present with
    | true => exact .inr rfl
    | false => exact .inl rfl
  · intro copies fuel w' reply run success
    obtain ⟨w₂, removed, stage', answer⟩ := execute_copy_cases run
    rw [stage] at stage'
    cases stage'
    rcases answer with ⟨e, failed, _⟩ | ⟨_, r, copied, ⟨e, _, failed⟩ | ⟨fine, _⟩⟩
    · cases failed
    · subst failed
      rcases success with no | no
      · cases no
      · cases no
    · subst fine
      exact copies fuel w' copied

theorem faithful_refused {e : FsError}
    (stage : plan.makeRoom w = (w₁, .error e)) :
    plan.Faithful listing w s := by
  intro fuel w' reply run success
  rw [execute_removal_failed stage] at run
  cases run
  rcases success with no | no
  · cases no
  · cases no

end Stages

section Files
variable {listing : DiskListing} {w w' : Disk} {plan : Plan} {s : List Name}
  {content : List UInt8}

theorem makeable_absent (free : w.tree.LinkFree) {dest : DiskPath} {p : List Name} {n : Name}
    (makes : Makeable w dest p n) : isDir w dest = false ∧ destIsFile w dest = false := by
  have missing {loc : List Name} (found : w.lookup true dest = .ok loc) :
      w.tree.get loc = none := by
    rw [lookup_place free found, ← enters_place makes.enters]
    exact makes.missing
  constructor
  · by_contra dir
    obtain ⟨loc, found, here⟩ := is_dir_path_iff.mp (Bool.not_eq_false _ ▸ dir)
    rw [is_dir_iff, missing found] at here
    cases here
  · by_contra file
    obtain ⟨loc, bytes, found, here⟩ := (dest_is_file_iff free).mp (Bool.not_eq_false _ ▸ file)
    rw [missing found] at here
    cases here

theorem opens_target (free : w.tree.LinkFree) (checked : plan.Checked w) {q : List Name}
    {name n : Name} (opens : Opens w (fileTarget plan.dest (!plan.destIsFile) name) q n) :
    (if isDir w plan.dest then joinName plan.dest name else plan.dest) =
      fileTarget plan.dest (!plan.destIsFile) name := by
  cases isFile : plan.destIsFile with
  | true =>
    rw [checked.file] at isFile
    obtain ⟨loc, bytes, found, here⟩ := (dest_is_file_iff free).mp isFile
    rw [if_neg]
    · rfl
    · intro dir
      obtain ⟨loc', found', dir⟩ := is_dir_path_iff.mp dir
      rw [found] at found'
      cases found'
      rw [is_dir_iff, here] at dir
      cases dir
  | false =>
    rw [isFile] at opens
    obtain ⟨p, parent, dir, _⟩ := child_leads.mp (enters_leads opens.enters)
    rw [if_pos, join_name_child]
    · rfl
    · exact is_dir_path_iff.mpr
        ⟨p, (lookup_ok_iff free).mpr ⟨checked.some_left, parent, fun _ => dir⟩, dir⟩

/-- A missing Destination becomes a directory with the file in it. -/
theorem makeable_not_faithful (free : w.tree.LinkFree) (checked : plan.Checked w)
    (found : w.lookup true plan.path = .ok s) (file : w.tree.get s = some (.file content))
    {p : List Name} {n : Name} (makes : Makeable w plan.dest p n) :
    ¬ plan.Faithful listing w s := by
  obtain ⟨q, name, whole, _, named⟩ := file_name_leads free found file
  obtain ⟨noDir, noFile⟩ := makeable_absent free makes
  obtain ⟨_, puts⟩ := create_dir_makes free makes
  have grows := made_within free plan.dest true
  have free₁ := grows.free free
  change Puts w (made w plan.dest true) (p ++ [n]) .dir at puts
  have apart : s ≠ p ++ [n] := by
    intro same
    rw [same, makes.missing] at file
    cases file
  have file₁ : (made w plan.dest true).tree.get s = some (.file content) := by
    rw [puts.get, if_neg apart]
    exact file
  have leads : Leads (made w plan.dest true) plan.dest (p ++ [n]) :=
    leads_grows grows.cwd grows.dirs (enters_leads makes.enters)
  have top : (made w plan.dest true).tree.isDir (p ++ [n]) = true := by
    rw [is_dir_iff, puts.get, if_pos rfl]
  have free_place : (made w plan.dest true).tree.get (p ++ [n] ++ [name]) = none := by
    rw [puts.get, if_neg (by simp)]
    exact below_missing w.tree makes.missing _
  have opens : Opens (made w plan.dest true) (child plan.dest name) (p ++ [n]) name :=
    ⟨rfl, child_enters leads top, missing_not_dir free_place,
      w.tree.named q name _ (whole ▸ file)⟩
  obtain ⟨ok, puts₁⟩ := copy_file_copies free₁ (lookup_grows free grows found) file₁ opens
  rw [faithful_iff (make_room_kept (file_not_removed free checked found file))]
  intro copies
  have run : doCopy listing 1 w plan.path plan.dest plan.dest (!plan.destIsFile) plan.depth =
      some ((made w plan.dest (!plan.destIsFile)).copyFile plan.path
        (fileTarget plan.dest (!plan.destIsFile) name)) :=
    do_copy_file free checked.different found whole file
  rw [checked.file, noFile] at run
  change doCopy listing 1 w plan.path plan.dest plan.dest (!false) plan.depth =
    some ((made w plan.dest true).copyFile plan.path (child plan.dest name)) at run
  generalize (made w plan.dest true).copyFile plan.path (child plan.dest name) = answer
    at run ok puts₁
  obtain ⟨w', r⟩ := answer
  cases ok
  obtain ⟨_, d, _, there, copied⟩ := (copies 1 w' (by
    rw [checked.file, noFile]
    exact run)).file content file
  have free' : w'.tree.LinkFree :=
    (puts_within puts₁ opens.other (fun _ same => by cases same)).free free₁
  rw [noDir, if_neg Bool.false_ne_true] at there
  rw [lookup_place free' there, place_same _ puts₁.cwd, place_same _ puts.cwd,
    ← enters_place makes.enters, puts₁.get, if_neg (by simp), puts.get, if_pos rfl] at copied
  cases copied

theorem opened_copied_iff (free : w.tree.LinkFree) (checked : plan.Checked w)
    (found : w.lookup true plan.path = .ok s) (file : w.tree.get s = some (.file content))
    {q : List Name} {name n : Name} (named : fileName plan.path = some name)
    (opens : Opens w (fileTarget plan.dest (!plan.destIsFile) name) q n) :
    CopiedTo w (w.copyFile plan.path (fileTarget plan.dest (!plan.destIsFile) name)).1 plan.path
      plan.dest plan.depth s ↔ (s = q ++ [n] → content = []) := by
  obtain ⟨_, puts⟩ := copy_file_copies free found file opens
  have within := puts_within puts opens.other (fun _ same => by cases same)
  have free' := within.free free
  have target := opens_target free checked opens
  generalize (w.copyFile plan.path (fileTarget plan.dest (!plan.destIsFile) name)).1 = w'
    at puts within free' ⊢
  constructor
  · intro copied alike
    obtain ⟨name', d, named', there, bytes⟩ := copied.file content file
    rw [named] at named'
    cases named'
    rw [target] at there
    rw [lookup_place free' there, place_same _ puts.cwd, ← enters_place opens.enters, puts.get,
      if_pos rfl, if_pos alike] at bytes
    cases bytes
    rfl
  · intro harmless
    have written : (if s = q ++ [n] then [] else content) = content := by
      split
      · rename_i same
        exact (harmless same).symm
      · rfl
    rw [written] at puts
    have no_dir : ¬ w.tree.isDir s = true := by
      rw [is_dir_iff, file]
      intro dir
      cases dir
    refine ⟨fun content' file' => ?_, fun dir => absurd dir no_dir, fun dir => absurd dir no_dir⟩
    rw [file] at file'
    cases file'
    refine ⟨name, q ++ [n], named, ?_, ?_⟩
    · rw [target]
      exact lookup_grows free within (opens_lookup free opens)
    · rw [puts.get, if_pos rfl]

theorem faithful_file (free : w.tree.LinkFree) (checked : plan.Checked w)
    (found : w.lookup true plan.path = .ok s) (file : w.tree.get s = some (.file content)) :
    plan.Faithful listing w s ↔ plan.CopiesFile w s content := by
  by_cases can : ∃ p n, Makeable w plan.dest p n
  · obtain ⟨p, n, makes⟩ := can
    apply iff_of_false
    · exact makeable_not_faithful free checked found file makes
    · exact fun both => both.1 p n makes
  have no : ∀ p n, ¬ Makeable w plan.dest p n := fun p n makes => can ⟨p, n, makes⟩
  obtain ⟨p, name, whole, enters, named⟩ := file_name_leads free found file
  rw [faithful_iff (make_room_kept (file_not_removed free checked found file))]
  have run (fuel : Nat) : doCopy listing (fuel + 1) w plan.path plan.dest plan.dest
      (!plan.destIsFile) plan.depth =
      some (w.copyFile plan.path (fileTarget plan.dest (!plan.destIsFile) name)) := by
    rw [do_copy_file free checked.different found whole file, made_unchanged free no]
  unfold Plan.CopiesFile
  constructor
  · intro copies
    refine ⟨no, ?_⟩
    by_contra onto
    rw [not_or] at onto
    obtain ⟨some_bytes, onto⟩ := onto
    have onto : w.lookup true plan.dest = .ok s ∨ w.lookup true plan.dest = .ok s.dropLast := by
      by_contra neither
      exact onto (not_or.mp neither)
    obtain ⟨q, n, opens, alike⟩ := onto_opens free checked whole enters.2.2 file onto
    obtain ⟨ok, _⟩ := copy_file_copies free found file opens
    have copied := copies 1 _ (by rw [run 0, ← ok])
    exact some_bytes ((opened_copied_iff free checked found file named opens).mp copied alike)
  · intro cond fuel w' copied
    obtain ⟨_, harmless⟩ := cond
    cases fuel with
    | zero => cases copied
    | succ fuel =>
      rw [run] at copied
      have copied := Option.some.inj copied
      by_cases can : ∃ q n, Opens w (fileTarget plan.dest (!plan.destIsFile) name) q n
      · obtain ⟨q, n, opens⟩ := can
        have same : _ = w' := congrArg Prod.fst copied
        rw [← same, opened_copied_iff free checked found file named opens]
        intro alike
        rcases harmless with empty | ⟨apart, aside⟩
        · exact empty
        · rcases opens_target_lookup free checked.some_left opens with onto | up
          · exact absurd (alike ▸ onto) apart
          · exact absurd (alike ▸ up) aside
      · obtain ⟨e, failed⟩ := copy_file_fails free plan.path
          (fileTarget plan.dest (!plan.destIsFile) name) fun _ q n _ opens => can ⟨q, n, opens⟩
        rw [failed] at copied
        cases copied

end Files

section Shallow
variable {listing : DiskListing} {w w' : Disk} {plan : Plan} {s : List Name}

theorem shallow_not_removed (zero : plan.depth = .zero) : plan.removes w = false := by
  simp [Plan.removes, zero]

theorem made_dest_dir (free : w.tree.LinkFree) (checked : plan.Checked w) :
    isDir (made w plan.dest (!plan.destIsFile)) plan.dest = true ↔
      isDir w plan.dest = true ∨ ∃ p n, Makeable w plan.dest p n := by
  by_cases can : ∃ p n, Makeable w plan.dest p n
  · obtain ⟨p, n, makes⟩ := can
    obtain ⟨_, noFile⟩ := makeable_absent free makes
    have grows := made_within free plan.dest true
    obtain ⟨_, puts⟩ := create_dir_makes free makes
    change Puts w (made w plan.dest true) (p ++ [n]) .dir at puts
    rw [checked.file, noFile]
    apply iff_of_true
    · have top : (made w plan.dest true).tree.isDir (p ++ [n]) = true := by
        rw [is_dir_iff, puts.get, if_pos rfl]
      apply is_dir_path_iff.mpr
      refine ⟨p ++ [n], (lookup_ok_iff (grows.free free)).mpr ?_, top⟩
      exact ⟨checked.some_left, leads_grows grows.cwd grows.dirs (enters_leads makes.enters),
        fun _ => top⟩
    · exact .inr ⟨p, n, makes⟩
  · rw [made_unchanged free fun p n makes => can ⟨p, n, makes⟩]
    constructor
    · exact .inl
    · intro either
      exact either.resolve_right can

theorem faithful_shallow (free : w.tree.LinkFree) (checked : plan.Checked w)
    (found : w.lookup true plan.path = .ok s) (dir : w.tree.isDir s = true)
    (zero : plan.depth = .zero) :
    plan.Faithful listing w s ↔
      isDir w plan.dest = true ∨ ∃ p n, Makeable w plan.dest p n := by
  rw [faithful_iff (make_room_kept (shallow_not_removed zero)), ← made_dest_dir free checked]
  have run (fuel : Nat) : doCopy listing (fuel + 1) w plan.path plan.dest plan.dest
      (!plan.destIsFile) plan.depth = some (made w plan.dest (!plan.destIsFile), .ok ()) := by
    rw [do_copy_dir free checked.different found dir, if_pos zero]
  constructor
  · intro copies
    exact (copies 1 _ (run 0)).shallow dir zero
  · intro made_dir fuel w' copied
    cases fuel with
    | zero => cases copied
    | succ fuel =>
      rw [run] at copied
      cases copied
      constructor
      · intro content file
        rw [is_dir_iff.mp dir] at file
        cases file
      · exact fun _ more => absurd zero more
      · exact fun _ _ => made_dir

end Shallow

section Whole
variable {listing : DiskListing} {w w₁ w' : Disk} {plan : Plan} {s : List Name}

structure Alike (w w' : Disk) : Prop where
  cwd : w'.cwd = w.cwd
  get : ∀ loc, w'.tree.get loc = w.tree.get loc

theorem alike_symm (alike : Alike w w') : Alike w' w := ⟨alike.cwd.symm, fun loc => (alike.get loc).symm⟩

theorem alike_dirs (alike : Alike w w') (loc : List Name) (dir : w.tree.isDir loc = true) :
    w'.tree.isDir loc = true := by
  rw [is_dir_iff, alike.get]
  exact is_dir_iff.mp dir

theorem alike_makeable (alike : Alike w w') {path : DiskPath} {p : List Name} {n : Name}
    (makes : Makeable w path p n) : Makeable w' path p n :=
  ⟨enters_grows alike.cwd (alike_dirs alike) makes.enters, by rw [alike.get]; exact makes.missing,
    makes.legal⟩

theorem alike_exists (free : w.tree.LinkFree) (alike : Alike w w') {path : DiskPath}
    (there : pathExists w path = true) : pathExists w' path = true := by
  obtain ⟨node, found⟩ := path_exists_iff.mp there
  obtain ⟨loc, leads, here⟩ := stat_ok_iff.mp found
  obtain ⟨some_left, leads, slash⟩ := (lookup_ok_iff free).mp leads
  have free' : w'.tree.LinkFree := by
    intro place target
    rw [alike.get]
    exact free place target
  apply path_exists_iff.mpr
  refine ⟨node, stat_ok_iff.mpr ⟨loc, (lookup_ok_iff free').mpr ?_, ?_⟩⟩
  · exact ⟨some_left, leads_grows alike.cwd (alike_dirs alike) leads,
      fun ends => alike_dirs alike loc (slash ends)⟩
  · rw [alike.get]
    exact here

theorem alike_copies {w₂ : Disk} (free : w₁.tree.LinkFree) (alike : Alike w₁ w₂)
    (copies : plan.CopiesFrom w w₁ s) : plan.CopiesFrom w w₂ s := by
  rcases copies with gone | ⟨⟨p, n, makes⟩, spelled⟩ | ⟨no, more⟩
  · left
    by_contra there
    have free₂ : w₂.tree.LinkFree := by
      intro place target
      rw [alike.get]
      exact free place target
    rw [alike_exists free₂ (alike_symm alike) (Bool.not_eq_false _ ▸ there)] at gone
    cases gone
  · exact .inr (.inl ⟨⟨p, n, alike_makeable alike makes⟩, spelled⟩)
  · right
    right
    refine ⟨fun p n makes => no p n (alike_makeable (alike_symm alike) makes), ?_⟩
    intro alone
    apply more
    intro rest content file
    exact alone rest content (by rw [alike.get]; exact file)

structure Cleared (plan : Plan) (w w₁ : Disk) : Prop where
  free : w₁.tree.LinkFree
  cwd : w₁.cwd = w.cwd
  same : ∀ loc, (plan.removes w = true → ¬ placeOf w plan.dest <+: loc) →
    w₁.tree.get loc = w.tree.get loc
  gone : plan.removes w = true → w₁.tree.get (placeOf w plan.dest) = none
  closed : ∀ loc, Leads w₁ plan.dest loc → w₁.tree.isDir loc = false

theorem cleared_source (cleared : Cleared plan w w₁) {node node' : Node Name UInt8} {loc : List Name}
    (here : w₁.tree.get loc = some node) (before : w.tree.get loc = some node') : node = node' := by
  by_cases inside : plan.removes w = true ∧ placeOf w plan.dest <+: loc
  · obtain ⟨removes, rest, whole⟩ := inside
    have missing := below_missing w₁.tree (cleared.gone removes) rest
    rw [whole, here] at missing
    cases missing
  · rw [cleared.same loc (fun removes below => inside ⟨removes, below⟩), before] at here
    exact (Option.some.inj here).symm

theorem cleared_made (checked : plan.Checked w) (free : w.tree.LinkFree)
    (cleared : Cleared plan w w₁) {p : List Name} {n : Name} (makes : Makeable w₁ plan.dest p n) :
    plan.destIsFile = false := by
  cases removes : plan.removes w with
  | true =>
    simp only [Plan.removes, Bool.and_eq_true, Bool.not_eq_true'] at removes
    exact removes.2
  | false =>
    have alike : Alike w₁ w :=
      ⟨cleared.cwd.symm, fun loc => (cleared.same loc (by simp [removes])).symm⟩
    rw [checked.file]
    exact (makeable_absent free (alike_makeable alike makes)).2

theorem fresh_facing {path dest : DiskPath} (fresh : Fresh w₁ path dest s (placeOf w₁ dest))
    (found : w₁.lookup true path = .ok s) (dir : w₁.tree.isDir s = true) {p : List Name}
    {n : Name} (makes : Makeable w₁ dest p n) :
    Facing w₁ w₁ path dest s (placeOf w₁ dest) [] .dir := by
  constructor
  · exact within_refl _ _
  · rw [List.append_nil]
    exact found
  · rw [List.append_nil]
    intro above
    obtain ⟨rest, whole⟩ := above
    have missing := below_missing w₁.tree fresh.missing rest
    rw [whole, is_dir_iff.mp dir] at missing
    cases missing
  · rw [List.append_nil]
    exact is_dir_iff.mp dir
  · exact ⟨p, n, by rw [List.append_nil]; exact enters_place makes.enters, makes⟩
  · exact .inl rfl

theorem fresh_steady (listing : DiskListing)
    (fresh : Fresh w₁ plan.path plan.dest s (placeOf w₁ plan.dest))
    (found : w₁.lookup true plan.path = .ok s) :
    Steady listing w₁ plan.path plan.dest s (fun m => placeOf w₁ plan.dest <+: s ++ m)
      (fun now => Within (placeOf w₁ plan.dest) w₁ now) := by
  constructor
  · intro now within
    exact within.free fresh.free
  · intro now within
    exact lookup_grows fresh.free within found
  · intro now m within outside
    exact within.outside _ outside
  · intro now m isDir within
    apply within_trans within
    have grows := made_within (within.free fresh.free) (descend plan.dest m) isDir
    rw [descend_place, place_same _ within.cwd] at grows
    exact within_mono (List.prefix_append _ _) grows
  · intro now w' fuel m isDir r _ within run
    have changed := do_copy_within (within.free fresh.free) run
    rw [descend_place, place_same _ within.cwd] at changed
    exact within_trans within (within_mono (List.prefix_append _ _) changed)
  · intro m n outside inside
    rw [← List.append_assoc] at inside
    rcases List.prefix_concat_iff.mp inside with same | up
    · exact fresh.spelled (m ++ [n]) (by rw [← List.append_assoc, same])
    · exact absurd up outside

theorem faithful_fresh (free : w.tree.LinkFree) (checked : plan.Checked w)
    (dir : w.tree.isDir s = true) (more : plan.depth = .infinity)
    (fresh : Fresh w₁ plan.path plan.dest s (placeOf w₁ plan.dest)) (cleared : Cleared plan w w₁)
    (found : w₁.lookup true plan.path = .ok s) (dir₁ : w₁.tree.isDir s = true) {p : List Name}
    {n : Name} (makes : Makeable w₁ plan.dest p n) :
    (∀ fuel w', doCopy listing fuel w₁ plan.path plan.dest plan.dest (!plan.destIsFile) plan.depth =
        some (w', .ok ()) → CopiedTo w w' plan.path plan.dest plan.depth s) ↔
      ∀ rest, w₁.tree.get (s ++ rest) = w.tree.get (s ++ rest) := by
  have facing := fresh_facing fresh found dir₁ makes
  rw [cleared_made checked free cleared makes, more]
  have copied {fuel : Nat} {w' : Disk} {r : Except FsError Unit}
      (run : doCopy listing fuel w₁ plan.path plan.dest plan.dest (!false) .infinity =
        some (w', r)) :
      r = .ok () ∧ w'.lookup true plan.dest = .ok (placeOf w₁ plan.dest) ∧
        ∀ rest, w'.tree.get (placeOf w₁ plan.dest ++ rest) = w₁.tree.get (s ++ rest) := by
    obtain ⟨fine, exactly⟩ := copy_exact fuel fresh facing run
    simp only [List.append_nil] at exactly
    have within := do_copy_within fresh.free run
    have top : w'.tree.isDir (placeOf w₁ plan.dest) = true := by
      have here := exactly []
      rw [List.append_nil, List.append_nil, is_dir_iff.mp dir₁] at here
      exact is_dir_iff.mpr here
    refine ⟨fine, (lookup_ok_iff (within.free fresh.free)).mpr ?_, exactly⟩
    refine ⟨checked.some_left, leads_grows within.cwd within.dirs ?_, fun _ => top⟩
    rw [← enters_place makes.enters]
    exact enters_leads makes.enters
  constructor
  · intro copies rest
    have bound : ∀ m n, ¬ placeOf w₁ plan.dest <+: s ++ m → placeOf w₁ plan.dest <+: s ++ (m ++ [n]) →
        n ∈ (placeOf w₁ plan.dest).getLast?.toList := by
      intro m n outside inside
      rw [← List.append_assoc] at inside
      rcases List.prefix_concat_iff.mp inside with same | up
      · rw [same, List.getLast?_concat]
        exact List.mem_singleton_self n
      · exact absurd up outside
    obtain ⟨fuel, answered⟩ := steady_answers (fresh_steady listing fresh found)
      (within_refl _ _) facing.outside bound (is_dir_iff.mp dir₁) true
    obtain ⟨⟨w', r⟩, run⟩ := Option.isSome_iff_exists.mp answered
    obtain ⟨fine, there, exactly⟩ := copied run
    subst fine
    obtain ⟨d, there', whole⟩ := (copies fuel w' run).whole dir (by decide)
    rw [there] at there'
    cases there'
    rw [← exactly, whole]
  · intro same fuel w' run
    obtain ⟨_, there, exactly⟩ := copied run
    constructor
    · intro content file
      rw [is_dir_iff.mp dir] at file
      cases file
    · exact fun _ _ => ⟨_, there, fun rest => (exactly rest).trans (same rest)⟩
    · intro _ zero
      cases zero

theorem cleared_unchanged_iff (cleared : Cleared plan w w₁)
    (fresh : Fresh w₁ plan.path plan.dest s (placeOf w₁ plan.dest))
    (dir₁ : w₁.tree.isDir s = true) (top : plan.removes w = true → w.tree.isDir (placeOf w plan.dest) = true) :
    (∀ rest, w₁.tree.get (s ++ rest) = w.tree.get (s ++ rest)) ↔
      ∀ rest, samePath (descend plan.path rest) plan.dest = true → plan.removes w = false := by
  have place : placeOf w₁ plan.dest = placeOf w plan.dest := place_same _ cleared.cwd
  constructor
  · intro same rest spelled
    by_contra removes
    have removes := Bool.not_eq_false _ ▸ removes
    have inside := same_path_place (w := w₁) spelled
    rw [descend_place, fresh.source, place] at inside
    have lost := same rest
    rw [inside, cleared.gone removes, is_dir_iff.mp (top removes)] at lost
    cases lost
  · intro spelled rest
    apply cleared.same
    intro removes below
    by_cases inside : ∃ m, s ++ m = placeOf w₁ plan.dest
    · obtain ⟨m, same⟩ := inside
      have kept := spelled m (fresh.spelled m same)
      rw [removes] at kept
      cases kept
    · rcases List.prefix_or_prefix_of_prefix below (List.prefix_append s rest) with up | down
      · obtain ⟨m, whole⟩ := up
        have missing := below_missing w₁.tree (cleared.gone removes) m
        rw [whole, is_dir_iff.mp dir₁] at missing
        cases missing
      · obtain ⟨m, whole⟩ := down
        exact inside ⟨m, whole.trans place.symm⟩

theorem faithful_made (free : w.tree.LinkFree) (checked : plan.Checked w)
    (dir : w.tree.isDir s = true) (more : plan.depth = .infinity) (cleared : Cleared plan w w₁)
    (top : plan.removes w = true → w.tree.isDir (placeOf w plan.dest) = true)
    (found₁ : w₁.lookup true plan.path = .ok s) (dir₁ : w₁.tree.isDir s = true) {p : List Name}
    {n : Name} (makes : Makeable w₁ plan.dest p n) :
    (∀ fuel w', doCopy listing fuel w₁ plan.path plan.dest plan.dest (!plan.destIsFile) plan.depth =
        some (w', .ok ()) → CopiedTo w w' plan.path plan.dest plan.depth s) ↔
      ∀ rest, samePath (descend plan.path rest) plan.dest = true → plan.removes w = false := by
  have missing : w₁.tree.get (placeOf w₁ plan.dest) = none := by
    rw [← enters_place makes.enters]
    exact makes.missing
  have source : placeOf w₁ plan.path = s := (lookup_place cleared.free found₁).symm
  by_cases spelled : ∀ m, s ++ m = placeOf w₁ plan.dest →
      samePath (descend plan.path m) plan.dest = true
  · have fresh : Fresh w₁ plan.path plan.dest s (placeOf w₁ plan.dest) :=
      ⟨cleared.free, source, rfl, missing, spelled⟩
    rw [faithful_fresh free checked dir more fresh cleared found₁ dir₁ makes,
      cleared_unchanged_iff cleared fresh dir₁ top]
  · -- the destination lies in the source, and is not met there
    obtain ⟨m, inside, other⟩ : ∃ m, s ++ m = placeOf w₁ plan.dest ∧
        samePath (descend plan.path m) plan.dest = false := by
      by_contra none
      apply spelled
      intro m inside
      by_contra other
      exact none ⟨m, inside, Bool.not_eq_true _ ▸ other⟩
    have never : ∀ rest, samePath (descend plan.path rest) plan.dest = false := by
      intro rest
      by_contra same
      have same := Bool.not_eq_false _ ▸ same
      have place := same_path_place (w := w₁) same
      rw [descend_place, source, ← inside] at place
      rw [List.append_cancel_left place, other] at same
      cases same
    apply iff_of_true
    · intro fuel w' run
      exfalso
      rw [cleared_made checked free cleared makes, more] at run
      have deeper : m ≠ [] := by
        intro bare
        rw [← inside, bare, List.append_nil, is_dir_iff.mp dir₁] at missing
        cases missing
      apply copy_inside_fails (m := []) (x := m) (s := s) (d := placeOf w₁ plan.dest) fuel
        cleared.free never (by rwa [List.append_nil]) (by rwa [List.append_nil]) deeper
        (by rw [List.append_nil, List.append_nil, inside]) _ _ run rfl
      · rw [List.append_nil, ← enters_place makes.enters]
        exact enters_leads makes.enters
      · exact fun _ => ⟨p, n, makes⟩
    · intro rest same
      rw [never] at same
      cases same

/-- The copy of a directory where none can be made: it succeeds if there is nothing to fail on, and has
    then copied nothing. -/
theorem faithful_unmade (dir : w.tree.isDir s = true) (more : plan.depth = .infinity)
    (cleared : Cleared plan w w₁) (found₁ : w₁.lookup true plan.path = .ok s)
    (dir₁ : w₁.tree.isDir s = true) (no : ∀ p n, ¬ Makeable w₁ plan.dest p n) :
    (∀ fuel w', doCopy listing fuel w₁ plan.path plan.dest plan.dest (!plan.destIsFile) plan.depth =
        some (w', .ok ()) → CopiedTo w w' plan.path plan.dest plan.depth s) ↔
      ¬ NothingElse w₁ s plan.path plan.dest := by
  rw [more]
  have shut {fuel : Nat} {w' : Disk} {r : Except FsError Unit}
      (run : doCopy listing fuel w₁ plan.path plan.dest plan.dest (!plan.destIsFile) .infinity =
        some (w', r)) :=
    shut_answer fuel cleared.free found₁ dir₁ (closed_entered cleared.free found₁ cleared.closed)
      cleared.closed (made_unchanged cleared.free no) run
  constructor
  · intro copies alone
    have bound : ∀ (m : List Name) (n : Name), ¬ False → False → n ∈ ([] : List Name) :=
      fun _ _ _ apart => absurd apart id
    obtain ⟨fuel, answered⟩ := steady_answers
      (shut_steady listing cleared.free found₁ cleared.closed no) rfl id bound
      (is_dir_iff.mp dir₁) (!plan.destIsFile)
    obtain ⟨⟨w', r⟩, run⟩ := Option.isSome_iff_exists.mp answered
    obtain ⟨still, fine⟩ := shut run
    rw [fine.mpr alone] at run
    subst still
    obtain ⟨d, leads, whole⟩ := (copies fuel w' run).whole dir (by decide)
    have here := whole []
    rw [List.append_nil, List.append_nil, is_dir_iff.mp dir, ← is_dir_iff,
      cleared.closed d ((lookup_ok_iff cleared.free).mp leads).2.1] at here
    cases here
  · intro stranger fuel w' run
    exact absurd ((shut run).2.mp rfl) stranger

theorem faithful_from (free : w.tree.LinkFree) (checked : plan.Checked w)
    (found : w.lookup true plan.path = .ok s) (dir : w.tree.isDir s = true)
    (more : plan.depth = .infinity) (cleared : Cleared plan w w₁)
    (top : plan.removes w = true → w.tree.isDir (placeOf w plan.dest) = true)
    (stage : plan.makeRoom w = (w₁, .ok ())) :
    plan.Faithful listing w s ↔ plan.CopiesFrom w w₁ s := by
  rw [faithful_iff stage]
  cases node : w₁.metadata plan.path with
  | error e =>
    apply iff_of_true
    · intro fuel w' run
      cases fuel with
      | zero => cases run
      | succ fuel =>
        unfold doCopy at run
        rw [if_neg (by simp [checked.different]), node] at run
        cases run
    · left
      simp [pathExists, node, Except.isOk, Except.toBool]
  | ok kind =>
    have there : pathExists w₁ plan.path = true := path_exists_iff.mpr ⟨kind, node⟩
    obtain ⟨s', found₁, here⟩ := stat_ok_iff.mp node
    have same : s' = s := by
      rw [lookup_place cleared.free found₁, place_same _ cleared.cwd, lookup_place free found]
    subst same
    have dir₁ : w₁.tree.isDir s' = true := by
      rw [cleared_source cleared here (is_dir_iff.mp dir)] at here
      exact is_dir_iff.mpr here
    unfold Plan.CopiesFrom
    by_cases can : ∃ p n, Makeable w₁ plan.dest p n
    · obtain ⟨p, n, makes⟩ := can
      rw [faithful_made free checked dir more cleared top found₁ dir₁ makes]
      constructor
      · exact fun spelled => .inr (.inl ⟨⟨p, n, makes⟩, spelled⟩)
      · intro cond
        rcases cond with gone | ⟨_, spelled⟩ | ⟨no, _⟩
        · rw [there] at gone
          cases gone
        · exact spelled
        · exact absurd makes (no p n)
    · have no : ∀ p n, ¬ Makeable w₁ plan.dest p n := fun p n makes => can ⟨p, n, makes⟩
      rw [faithful_unmade dir more cleared found₁ dir₁ no]
      constructor
      · exact fun stranger => .inr (.inr ⟨no, stranger⟩)
      · intro cond
        rcases cond with gone | ⟨made, _⟩ | ⟨_, stranger⟩
        · rw [there] at gone
          cases gone
        · exact absurd made can
        · exact stranger

theorem without_cleared (free : w.tree.LinkFree) (drops : Drops w w₁ (placeOf w plan.dest))
    (removes : plan.removes w = true) : Cleared plan w w₁ where
  free := drops_free drops free
  cwd := drops.cwd
  same loc outside := by
    rw [drops.get, if_neg (outside removes)]
  gone _ := by
    rw [drops.get, if_pos List.prefix_rfl]
  closed loc leads := by
    have place := leads_place leads
    rw [place_same _ drops.cwd] at place
    apply missing_not_dir
    rw [place, drops.get, if_pos List.prefix_rfl]

theorem kept_cleared (free : w.tree.LinkFree) (checked : plan.Checked w)
    (source : isDir w plan.path = true) (more : plan.depth = .infinity)
    (kept : plan.removes w = false) : Cleared plan w w where
  free := free
  cwd := rfl
  same _ _ := rfl
  gone removes := by
    rw [kept] at removes
    cases removes
  closed := kept_closed free checked kept source (by simp [more])

theorem faithful_whole (free : w.tree.LinkFree) (checked : plan.Checked w)
    (found : w.lookup true plan.path = .ok s) (dir : w.tree.isDir s = true)
    (more : plan.depth = .infinity) : plan.Faithful listing w s ↔ plan.CopiesDir w s := by
  have source := is_dir_path_iff.mpr ⟨s, found, dir⟩
  unfold Plan.CopiesDir Plan.base
  cases removes : plan.removes w with
  | false =>
    rw [faithful_from free checked found dir more (kept_cleared free checked source more removes)
      (by simp [removes]) (make_room_kept removes)]
    simp
  | true =>
    obtain ⟨_, _, _, _, top⟩ := removes_dirs free checked removes
    rw [if_pos rfl]
    rcases removal_cases free checked removes with ⟨ok, drops, p, n, enters⟩ |
      ⟨⟨e, failed⟩, _, nameless⟩
    · have inside : placeOf w plan.dest ≠ [] := by
        rw [← place_same plan.dest (clear_at_clears (w := w) _).cwd, ← enters_place enters]
        simp
      have stage : plan.makeRoom w = ((w.removeDirAll plan.dest).1, .ok ()) := by
        rw [make_room_removes removes, ← ok]
      have again := without_drops (w := w) inside
      have alike : Alike (w.without (placeOf w plan.dest)) (w.removeDirAll plan.dest).1 :=
        ⟨drops.cwd.trans again.cwd.symm, fun loc => by rw [drops.get, again.get]⟩
      rw [faithful_from free checked found dir more (without_cleared free drops removes)
        (fun _ => top) stage]
      constructor
      · intro cond
        exact .inr (alike_copies (drops_free drops free) (alike_symm alike) cond)
      · intro cond
        rcases cond with ⟨_, nameless⟩ | cond
        · exact absurd enters (nameless p n)
        · exact alike_copies (drops_free again free) alike cond
    · apply iff_of_true
      · have stage : plan.makeRoom w = ((w.removeDirAll plan.dest).1, .error e) := by
          rw [make_room_removes removes, ← failed]
        exact faithful_refused stage
      · exact .inl ⟨rfl, nameless⟩

end Whole

theorem copy_depth_cases {headers : Headers} {depth : Depth}
    (deep : copyDepth .copy headers = some depth) : depth = .zero ∨ depth = .infinity := by
  unfold copyDepth at deep
  split at deep
  · exact .inr (Option.some.inj deep).symm
  · exact .inr (Option.some.inj deep).symm
  · exact .inl (Option.some.inj deep).symm
  · cases deep

/-- Every successful answer to the request leaves a copy of the source as it was. -/
def CopyCopies (uri : Bytes → Option Bytes) (listing : DiskListing) (w : Disk) (share : Share)
    (wantedPath : Bytes) (headers : Headers) : Prop :=
  ∀ fuel w' reply,
    handleCopy uri listing fuel w share wantedPath headers .copy = some (w', reply) →
    (reply = .status 201 ∨ reply = .status 204) →
    ∃ path dest depth s, extractPath wantedPath share.directory = .ok (some path) ∧
      wantedDest uri headers share.directory = some dest ∧
      copyDepth .copy headers = some depth ∧ w.lookup true path = .ok s ∧
      CopiedTo w w' path dest depth s

section Request
variable {uri : Bytes → Option Bytes} {listing : DiskListing} {w : Disk} {share : Share}
  {wantedPath : Bytes} {headers : Headers} {plan : Plan} {s : List Name}

theorem copies_faithful_iff (plans : planned uri w share wantedPath headers .copy = .ok plan)
    (found : w.lookup true plan.path = .ok s) :
    CopyCopies uri listing w share wantedPath headers ↔ plan.Faithful listing w s := by
  obtain ⟨extracted, dest, deep, _⟩ := planned_request plans
  unfold CopyCopies
  simp only [handle_copy_planned, plans]
  constructor
  · intro copies fuel w' reply run success
    obtain ⟨path, dest', depth, s', extracted', dest₂, deep', found', copied⟩ :=
      copies fuel w' reply run success
    rw [extracted] at extracted'
    cases extracted'
    rw [dest] at dest₂
    cases dest₂
    rw [deep] at deep'
    cases deep'
    rw [found] at found'
    cases found'
    exact copied
  · intro faithful fuel w' reply run success
    exact ⟨plan.path, plan.dest, plan.depth, s, extracted, dest, deep, found,
      faithful fuel w' reply run success⟩

theorem faithful_copies_iff (free : w.tree.LinkFree)
    (plans : planned uri w share wantedPath headers .copy = .ok plan)
    (found : w.lookup true plan.path = .ok s) :
    plan.Faithful listing w s ↔ plan.Copies w := by
  obtain ⟨_, _, deep, checked⟩ := planned_request plans
  obtain ⟨node, here⟩ := checked.source
  obtain ⟨s', found', kind⟩ := stat_ok_iff.mp here
  rw [found] at found'
  cases found'
  unfold Plan.Copies
  simp only [found, Except.ok.injEq, exists_eq_left']
  cases node with
  | link target => exact absurd kind (free s target)
  | file content =>
    rw [faithful_file free checked found kind, file_not_dir kind]
    simp [kind]
  | dir =>
    have dir := is_dir_iff.mpr kind
    rcases copy_depth_cases deep with zero | more
    · rw [faithful_shallow free checked found dir zero]
      simp [kind, dir, zero]
    · rw [faithful_whole free checked found dir more]
      simp [kind, dir, more]

end Request

theorem copy_copies_iff (uri : Bytes → Option Bytes) (listing : DiskListing) (w : Disk)
    (share : Share) (wantedPath : Bytes) (headers : Headers) (free : w.tree.LinkFree) :
    CopyCopies uri listing w share wantedPath headers ↔
      ∀ plan, planned uri w share wantedPath headers .copy = .ok plan → plan.Copies w := by
  cases plans : planned uri w share wantedPath headers .copy with
  | error refusal =>
    constructor
    · intro _ plan same
      cases same
    · intro _ fuel w' reply run success
      rw [handle_copy_planned, plans] at run
      cases run
      have failed := planned_refusals plans
      rcases success with same | same
      · rw [same] at failed
        cases failed
      · rw [same] at failed
        cases failed
  | ok plan =>
    obtain ⟨_, _, _, checked⟩ := planned_request plans
    obtain ⟨node, here⟩ := checked.source
    obtain ⟨s, found, _⟩ := stat_ok_iff.mp here
    rw [copies_faithful_iff plans found, faithful_copies_iff free plans found]
    constructor
    · intro copies plan' same
      cases same
      exact copies
    · exact fun copies => copies plan rfl

theorem sibling_copy_copies : CopyCopies some Listing.asOpened nestedDisk openShare
    (utf8 "/a/b") [("destination", utf8 "/c")] := by
  apply (copy_copies_iff some Listing.asOpened nestedDisk openShare (utf8 "/a/b")
    [("destination", utf8 "/c")] nested_free).mpr
  intro plan plans
  have same : planned some nestedDisk openShare (utf8 "/a/b") [("destination", utf8 "/c")] .copy =
      .ok ⟨pathOf (utf8 "/d/a/b"), pathOf (utf8 "/d/c"), true, .infinity, false, false⟩ := by
    decide
  rw [same] at plans
  cases plans
  refine ⟨[[100], [97], [98]], by decide, .inr ⟨by decide, ?_⟩⟩
  rw [if_neg (by decide)]
  refine .inr (.inr (.inl ⟨⟨[[100]], [99], ?_⟩, fun _ _ => by decide⟩))
  exact ⟨⟨by decide, by unfold Leads; decide, by decide⟩, by decide, by decide⟩

/-- A file copied to a new name becomes a directory of that name with the file in it. -/
theorem file_copy_makes_dir : ¬ CopyCopies some Listing.asOpened nestedDisk openShare
    (utf8 "/a/b/f") [("destination", utf8 "/c")] := by
  have plans : planned some nestedDisk openShare (utf8 "/a/b/f") [("destination", utf8 "/c")] .copy =
      .ok ⟨pathOf (utf8 "/d/a/b/f"), pathOf (utf8 "/d/c"), true, .infinity, false, false⟩ := by
    decide
  have found : nestedDisk.lookup true (pathOf (utf8 "/d/a/b/f")) =
      .ok [[100], [97], [98], [102]] := by
    decide
  have file : nestedDisk.tree.get [[100], [97], [98], [102]] = some (.file [1]) := by decide
  obtain ⟨_, _, _, checked⟩ := planned_request plans
  have makes : Makeable nestedDisk (pathOf (utf8 "/d/c")) [[100]] [99] :=
    ⟨⟨by decide, by unfold Leads; decide, by decide⟩, by decide, by decide⟩
  rw [copies_faithful_iff plans found]
  exact makeable_not_faithful nested_free checked found file makes

end VestibuleCopyMove
