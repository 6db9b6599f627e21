import Vestibule.CopyPlans

/-!
What a COPY does to its own source. The directory that is removed first can hold the source, and a
file that is copied onto itself is truncated before it is read.
-/
namespace VestibuleCopyMove
open VestibuleRust LexicalMotion FileTree FileCalls World VestibulePaths PlainLookups PlainCalls

/-- What of the source outside the Destination, or all of it when the Destination is at the source
    or above it, is as before. -/
def SourceKept (w w' : Disk) (s : List Name) (d : Option (List Name)) : Prop :=
  ∀ rest node, w.tree.get (s ++ rest) = some node →
    (∀ place ∈ d, place <+: s ∨ ¬ place <+: s ++ rest) → w'.tree.get (s ++ rest) = some node

/-- The copy removes its source, or reads it after it has emptied it. -/
def Plan.Destroys (plan : Plan) (w : Disk) : Prop :=
  ∃ s, w.lookup true plan.path = .ok s ∧
    (plan.removes w = true ∧ placeOf w plan.dest <+: s ∧
        (placeOf w plan.dest ≠ s ∨ w.tree.childless s = false ∨
          ∃ n, plan.dest.steps.getLast? = some (.name n)) ∨
      ∃ b content, w.tree.get s = some (.file (b :: content)) ∧
        (w.lookup true plan.dest = .ok s ∨ w.lookup true plan.dest = .ok s.dropLast))

section Keeping
variable {w w' : Disk} {plan : Plan} {listing : DiskListing} {fuel : Nat} {reply : Reply}
  {s : List Name}

theorem kept_outside {d : List Name} (same : ∀ loc, ¬ d <+: loc → w'.tree.get loc = w.tree.get loc)
    (apart : ¬ d <+: s) : SourceKept w w' s (some d) := by
  intro rest node found out
  rcases out d rfl with above | outside
  · exact absurd above apart
  · rw [same _ outside]
    exact found

theorem kept_unchanged (d : Option (List Name)) : SourceKept w w s d := fun _ _ found _ => found

theorem copy_file_keeps (free : w.tree.LinkFree) {source dest : DiskPath} {content : List UInt8}
    (found : w.lookup true source = .ok s) (file : w.tree.get s = some (.file content))
    (harmless : content = [] ∨ ∀ p n, Opens w dest p n → s ≠ p ++ [n]) {r : Except FsError Unit}
    (copied : w.copyFile source dest = (w', r)) : w'.tree.get s = some (.file content) := by
  by_cases can : ∃ p n, Opens w dest p n
  · obtain ⟨p, n, opens⟩ := can
    obtain ⟨_, puts⟩ := copy_file_copies free found file opens
    rw [copied] at puts
    rw [puts.get]
    rcases harmless with empty | elsewhere
    · subst empty
      simp [file]
    · rw [if_neg (elsewhere p n opens)]
      exact file
  · obtain ⟨e, failed⟩ := copy_file_fails free source dest
      fun _ p n _ opens => can ⟨p, n, opens⟩
    rw [failed] at copied
    cases copied
    exact file

theorem opens_target_lookup (free : w.tree.LinkFree) {dest : DiskPath} {destIsDir : Bool}
    {name n : Name} {p : List Name} (some_left : isBlank dest = false)
    (opens : Opens w (fileTarget dest destIsDir name) p n) :
    w.lookup true dest = .ok (p ++ [n]) ∨ w.lookup true dest = .ok (p ++ [n]).dropLast := by
  cases destIsDir with
  | false =>
    left
    exact opens_lookup free opens
  | true =>
    right
    have leads := enters_leads opens.enters
    obtain ⟨q, parent, dir, same⟩ := child_leads.mp leads
    obtain ⟨front, _⟩ := List.append_singleton_inj.mp same
    subst front
    rw [List.dropLast_concat]
    exact (lookup_ok_iff free).mpr ⟨some_left, parent, fun _ => dir⟩

theorem copy_keeps (free : w.tree.LinkFree) (checked : plan.Checked w)
    (found : w.lookup true plan.path = .ok s) (safe : ¬ plan.Destroys w)
    (kept : plan.removes w = false) {r : Except FsError Unit}
    (run : doCopy listing fuel w plan.path plan.dest plan.dest (!plan.destIsFile) plan.depth =
      some (w', r)) : SourceKept w w' s (some (placeOf w plan.dest)) := by
  by_cases above : placeOf w plan.dest <+: s
  case neg => exact kept_outside (do_copy_within free run).outside above
  cases fuel with
  | zero => cases run
  | succ fuel =>
    cases do_copy_outcome free run with
    | skipped _ => exact kept_unchanged _
    | missing _ _ _ => exact kept_unchanged _
    | shallow s' _ found' dir _ =>
      rw [found] at found'
      cases found'
      rw [made_unchanged free (not_makeable_above (is_dir_iff.mp dir) above)]
      exact kept_unchanged _
    | file s' p name content w' r _ found' whole node copied =>
      rw [found] at found'
      cases found'
      rw [made_unchanged free (not_makeable_above node above)] at copied
      have still : w'.tree.get s = some (.file content) := by
        apply copy_file_keeps free found node _ copied
        cases content with
        | nil => exact .inl rfl
        | cons b content =>
          right
          intro q n opens same
          apply safe
          refine ⟨s, found, .inr ⟨b, content, node, ?_⟩⟩
          rw [same]
          exact opens_target_lookup free checked.some_left opens
      intro rest below here _
      by_cases bare : rest = []
      · subst bare
        rw [List.append_nil] at here ⊢
        rw [still, ← here, node]
      · rw [below_file w.tree bare node (by simp)] at here
        cases here
    | deep s' w' r _ found' dir more loop =>
      rw [found] at found'
      cases found'
      rw [made_unchanged free (not_makeable_above (is_dir_iff.mp dir) above)] at loop
      have closed := kept_closed free checked kept (is_dir_path_iff.mpr ⟨s, found, dir⟩) more
      obtain ⟨_, _, whole, _⟩ := copy_entries_rule (P := fun now _ _ => now = w) (by
          intro now seen retval name _ next r sofar _ _ one
          subst sofar
          exact do_copy_blocked free (child_blocked closed) one)
        fuel rfl loop
      rw [whole]
      exact kept_unchanged _

theorem execute_keeps (free : w.tree.LinkFree) (checked : plan.Checked w)
    (found : w.lookup true plan.path = .ok s) (safe : ¬ plan.Destroys w)
    (run : plan.execute listing .copy fuel w = some (w', reply)) :
    SourceKept w w' s (some (placeOf w plan.dest)) := by
  obtain ⟨w₁, removed, stage, answer⟩ := execute_copy_cases run
  cases kept : plan.removes w with
  | false =>
    rw [make_room_kept kept] at stage
    cases stage
    rcases answer with ⟨e, failed, _⟩ | ⟨_, r, copied, _⟩
    · cases failed
    · exact copy_keeps free checked found safe kept copied
  | true =>
    rw [make_room_removes kept] at stage
    by_cases above : placeOf w plan.dest <+: s
    · -- only an empty directory, under a name that cannot be removed, is left in place
      have harmless : placeOf w plan.dest = s ∧ w.tree.childless s = true ∧
          ∀ n, plan.dest.steps.getLast? ≠ some (.name n) := by
        refine ⟨?_, ?_, ?_⟩
        · by_contra apart
          exact safe ⟨s, found, .inl ⟨kept, above, .inl apart⟩⟩
        · by_contra more
          exact safe ⟨s, found, .inl ⟨kept, above, .inr (.inl (Bool.not_eq_true _ ▸ more))⟩⟩
        · intro n last
          exact safe ⟨s, found, .inl ⟨kept, above, .inr (.inr ⟨n, last⟩)⟩⟩
      obtain ⟨same, childless, nameless⟩ := harmless
      rcases removal_cases free checked kept with ⟨_, _, p, n, enters⟩ | ⟨⟨e, failed⟩, clears, _⟩
      · exact absurd enters.1 (nameless n)
      · rw [stage] at failed clears
        rcases answer with ⟨e', _, unchanged, _⟩ | ⟨done, _⟩
        · subst unchanged
          intro rest node here _
          rw [clears.get, if_neg]
          · exact here
          · intro below
            rw [same] at below
            have more : rest ≠ [] := by
              intro bare
              exact below.2 (by simp [bare])
            rw [childless_iff.mp childless rest more] at here
            cases here
        · rw [done] at failed
          cases failed
    · apply kept_outside _ above
      have outside : w₁.cwd = w.cwd ∧ w₁.tree.LinkFree ∧
          ∀ loc, ¬ placeOf w plan.dest <+: loc → w₁.tree.get loc = w.tree.get loc := by
        rcases removal_cases free checked kept with ⟨_, drops, _⟩ | ⟨_, clears, _⟩
        · rw [stage] at drops
          exact ⟨drops.cwd, drops_free drops free, fun loc out => by rw [drops.get, if_neg out]⟩
        · rw [stage] at clears
          exact ⟨clears.cwd, clears_free clears free,
            fun loc out => by rw [clears.get, if_neg fun below => out below.1]⟩
      obtain ⟨cwd, free₁, same⟩ := outside
      rcases answer with ⟨e, _, unchanged, _⟩ | ⟨_, r, copied, _⟩
      · subst unchanged
        exact same
      · intro loc out
        have within := do_copy_within free₁ copied
        rw [place_same _ cwd] at within
        rw [within.outside loc out, same loc out]

end Keeping

section Losing
variable {w w' : Disk} {plan : Plan} {s : List Name} (listing : DiskListing)

theorem gone_source_fails (fuel : Nat) {source topdest : DiskPath} (dest : DiskPath)
    (destIsDir : Bool) (depth : Depth) (free : w.tree.LinkFree) (different : samePath source topdest = false)
    (gone : w.tree.get (placeOf w source) = none) :
    ∃ e, doCopy listing (fuel + 1) w source topdest dest destIsDir depth = some (w, .error e) := by
  cases node : w.metadata source with
  | ok found =>
    obtain ⟨loc, leads, here⟩ := stat_ok_iff.mp node
    rw [lookup_place free leads, gone] at here
    cases here
  | error e =>
    refine ⟨e, ?_⟩
    unfold doCopy
    rw [if_neg (by simp [different]), node]

theorem leads_cleared {path : DiskPath} {top loc : List Name} (childless : w.tree.childless top = true)
    (leads : Leads w path loc) : Leads (w.clearAt top) path loc := by
  have cleared := clear_at_clears (w := w) top
  have dirs : ∀ place, w.tree.isDir place = true → (w.clearAt top).tree.isDir place = true := by
    intro place dir
    rw [is_dir_iff, cleared.get, if_neg]
    · exact is_dir_iff.mp dir
    · intro below
      obtain ⟨⟨rest, whole⟩, more⟩ := below
      subst whole
      have nothing := childless_iff.mp childless rest (by
        intro bare
        exact more (by simp [bare]))
      rw [is_dir_iff.mp dir] at nothing
      cases nothing
  exact leads_grows cleared.cwd dirs leads

theorem removal_loses (free : w.tree.LinkFree) (checked : plan.Checked w)
    (found : w.lookup true plan.path = .ok s) (removes : plan.removes w = true)
    (above : placeOf w plan.dest <+: s)
    (reason : placeOf w plan.dest ≠ s ∨ w.tree.childless s = false ∨
      ∃ n, plan.dest.steps.getLast? = some (.name n)) :
    ∃ w' reply, plan.execute listing .copy 1 w = some (w', reply) ∧
      ¬ SourceKept w w' s (some (placeOf w plan.dest)) := by
  obtain ⟨source, _, _, top, dir⟩ := removes_dirs free checked removes
  obtain ⟨s', found', dirSource⟩ := is_dir_path_iff.mp source
  rw [found] at found'
  cases found'
  have start := is_dir_iff.mp dirSource
  have whole : ∀ place ∈ some (placeOf w plan.dest), place <+: s ∨ ¬ place <+: s ++ [] := by
    intro place same
    cases same
    exact .inl above
  rcases removal_cases free checked removes with ⟨ok, drops, _⟩ | ⟨⟨e, failed⟩, clears, nameless⟩
  · have stage : plan.makeRoom w = ((w.removeDirAll plan.dest).1, .ok ()) := by
      rw [make_room_removes removes, ← ok]
    have gone : (w.removeDirAll plan.dest).1.tree.get s = none := by
      rw [drops.get, if_pos above]
    obtain ⟨e, fails⟩ := gone_source_fails listing 0 plan.dest (!plan.destIsFile) plan.depth
      (drops_free drops free) checked.different (by
        rw [place_same _ drops.cwd, ← lookup_place free found]
        exact gone)
    refine ⟨_, _, execute_copy_answers stage fails, ?_⟩
    intro kept
    have still := kept [] .dir (by rwa [List.append_nil]) whole
    rw [List.append_nil, gone] at still
    cases still
  · have stage : plan.makeRoom w = ((w.removeDirAll plan.dest).1, .error e) := by
      rw [make_room_removes removes, ← failed]
    refine ⟨_, _, execute_removal_failed stage, ?_⟩
    intro kept
    by_cases same : placeOf w plan.dest = s
    · cases childless : w.tree.childless s with
      | true =>
        rcases reason with apart | more | ⟨n, last⟩
        · exact apart same
        · rw [childless] at more
          cases more
        · have leads : Leads w plan.dest s := same ▸ ((lookup_ok_iff free).mp top).2.1
          obtain ⟨p, _, enters⟩ := leads_enters (leads_cleared childless leads) last
          exact nameless p n (same ▸ enters)
      | false =>
        have some_below : ∃ rest, rest ≠ [] ∧ w.tree.get (s ++ rest) ≠ none := by
          by_contra nothing
          have empty : w.tree.childless s = true := by
            apply childless_iff.mpr
            intro rest more
            by_contra here
            exact nothing ⟨rest, more, here⟩
          rw [childless] at empty
          cases empty
        obtain ⟨rest, more, exists_below⟩ := some_below
        obtain ⟨node, here⟩ := Option.ne_none_iff_exists'.mp exists_below
        have still := kept rest node here (by
          intro place same'
          cases same'
          exact .inl above)
        rw [clears.get, if_pos] at still
        · cases still
        · rw [same]
          exact ⟨List.prefix_append _ _, by simpa using more⟩
    · have still := kept [] .dir (by rwa [List.append_nil]) whole
      rw [List.append_nil, clears.get, if_pos ⟨above, same⟩] at still
      cases still

theorem file_not_removed (free : w.tree.LinkFree) (checked : plan.Checked w)
    (found : w.lookup true plan.path = .ok s) {content : List UInt8}
    (file : w.tree.get s = some (.file content)) : plan.removes w = false := by
  cases removes : plan.removes w with
  | false => rfl
  | true =>
    obtain ⟨source, _⟩ := removes_dirs free checked removes
    obtain ⟨s', found', dir⟩ := is_dir_path_iff.mp source
    rw [found] at found'
    cases found'
    rw [is_dir_iff, file] at dir
    cases dir

theorem onto_opens (free : w.tree.LinkFree) (checked : plan.Checked w) {p : List Name} {name : Name}
    {content : List UInt8} (whole : s = p ++ [name]) (dir : w.tree.isDir p = true)
    (file : w.tree.get s = some (.file content))
    (onto : w.lookup true plan.dest = .ok s ∨ w.lookup true plan.dest = .ok s.dropLast) :
    ∃ q n, Opens w (fileTarget plan.dest (!plan.destIsFile) name) q n ∧ s = q ++ [n] := by
  have other : w.tree.isDir s = false := file_not_dir file
  rcases onto with same | up
  · have isFile : plan.destIsFile = true := by
      rw [checked.file]
      exact (dest_is_file_iff free).mpr ⟨s, _, same, file⟩
    obtain ⟨_, leads, slash⟩ := (lookup_ok_iff free).mp same
    obtain ⟨q, n, alike, named⟩ := leads_other leads checked.some_left other
    refine ⟨q, n, ⟨?_, ?_, alike ▸ other, ?_⟩, alike⟩
    · simp only [isFile, fileTarget, Bool.not_true, Bool.false_eq_true, ↓reduceIte]
      cases ends : plan.dest.slash with
      | false => rfl
      | true =>
        rw [slash ends] at other
        cases other
    · simpa only [isFile, fileTarget, Bool.not_true, Bool.false_eq_true, ↓reduceIte] using named
    · exact w.tree.named q n _ (alike ▸ file)
  · subst whole
    rw [List.dropLast_concat] at up
    have plain : plan.destIsFile = false := by
      rw [checked.file]
      by_contra isFile
      obtain ⟨loc, content', found', here⟩ :=
        (dest_is_file_iff free).mp (Bool.not_eq_false _ ▸ isFile)
      rw [up] at found'
      cases found'
      rw [is_dir_iff.mp dir] at here
      cases here
    have leads := ((lookup_ok_iff free).mp up).2.1
    refine ⟨p, name, ⟨?_, ?_, other, ?_⟩, rfl⟩
    · simp [fileTarget, plain, child]
    · simpa only [fileTarget, plain, Bool.not_false, ↓reduceIte] using child_enters leads dir
    · exact w.tree.named p name _ file

theorem file_loses (free : w.tree.LinkFree) (checked : plan.Checked w)
    (found : w.lookup true plan.path = .ok s) {b : UInt8} {content : List UInt8}
    (file : w.tree.get s = some (.file (b :: content)))
    (onto : w.lookup true plan.dest = .ok s ∨ w.lookup true plan.dest = .ok s.dropLast) :
    ∃ w' reply, plan.execute listing .copy 1 w = some (w', reply) ∧
      ¬ SourceKept w w' s (some (placeOf w plan.dest)) := by
  obtain ⟨p, name, whole, enters, _⟩ := file_name_leads free found file
  have stage := make_room_kept (file_not_removed free checked found file)
  have above : placeOf w plan.dest <+: s := by
    rcases onto with same | up
    · exact lookup_place free same ▸ List.prefix_rfl
    · rw [← lookup_place free up]
      exact List.dropLast_prefix s
  obtain ⟨q, n, opens, alike⟩ := onto_opens free checked whole enters.2.2 file onto
  have run : doCopy listing 1 w plan.path plan.dest plan.dest (!plan.destIsFile) plan.depth = _ :=
    do_copy_file free checked.different found whole file
  rw [made_unchanged free (not_makeable_above file above)] at run
  obtain ⟨_, puts⟩ := copy_file_copies free found file opens
  generalize w.copyFile plan.path (fileTarget plan.dest (!plan.destIsFile) name) = result
    at run puts
  obtain ⟨w', r⟩ := result
  refine ⟨_, _, execute_copy_answers stage run, ?_⟩
  intro still
  have now := still [] _ (by rwa [List.append_nil]) (by
    intro place same
    cases same
    exact .inl above)
  rw [List.append_nil, puts.get, if_pos alike, if_pos alike] at now
  cases now

theorem destroys_loses (free : w.tree.LinkFree) (checked : plan.Checked w)
    (destroys : plan.Destroys w) :
    ∃ s w' reply, w.lookup true plan.path = .ok s ∧
      plan.execute listing .copy 1 w = some (w', reply) ∧
      ¬ SourceKept w w' s (some (placeOf w plan.dest)) := by
  obtain ⟨s, found, ⟨removes, above, reason⟩ | ⟨b, content, file, onto⟩⟩ := destroys
  · obtain ⟨w', reply, run, lost⟩ :=
      removal_loses listing free checked found removes above reason
    exact ⟨s, w', reply, found, run, lost⟩
  · obtain ⟨w', reply, run, lost⟩ := file_loses listing free checked found file onto
    exact ⟨s, w', reply, found, run, lost⟩

end Losing

def CopyKeepsSource (uri : Bytes → Option Bytes) (listing : DiskListing) (w : Disk) (share : Share)
    (wantedPath : Bytes) (headers : Headers) : Prop :=
  ∀ path s, extractPath wantedPath share.directory = .ok (some path) →
    w.lookup true path = .ok s →
    ∀ fuel w' reply,
      handleCopy uri listing fuel w share wantedPath headers .copy = some (w', reply) →
      SourceKept w w' s ((wantedDest uri headers share.directory).map (placeOf w))

theorem copy_keeps_source_iff (uri : Bytes → Option Bytes) (listing : DiskListing) (w : Disk)
    (share : Share) (wantedPath : Bytes) (headers : Headers) (free : w.tree.LinkFree) :
    CopyKeepsSource uri listing w share wantedPath headers ↔
      ∀ plan, planned uri w share wantedPath headers .copy = .ok plan → ¬ plan.Destroys w := by
  unfold CopyKeepsSource
  simp only [handle_copy_planned]
  cases plans : planned uri w share wantedPath headers .copy with
  | error refusal =>
    constructor
    · intro _ plan same
      cases same
    · intro _ path s _ _ fuel w' reply run
      cases run
      exact kept_unchanged _
  | ok plan =>
    obtain ⟨extracted, dest, _, checked⟩ := planned_request plans
    rw [dest]
    constructor
    · intro keeps plan' same destroys
      cases same
      obtain ⟨s, w', reply, found, run, lost⟩ := destroys_loses listing free checked destroys
      exact lost (keeps plan.path s extracted found 1 w' reply run)
    · intro safe path s wanted found fuel w' reply run
      rw [extracted] at wanted
      cases wanted
      exact execute_keeps free checked found (safe plan rfl) run

def nestedDisk : Disk where
  tree := ((((Tree.bare.put [] [100] .dir (by decide)).put [[100]] [97] .dir (by decide)).put
    [[100], [97]] [98] .dir (by decide)).put [[100], [97], [98]] [102] (.file [1]) (by decide))
  cwd := []
  touched := []

theorem nested_free : nestedDisk.tree.LinkFree := by
  intro loc target
  simp only [nestedDisk, put_get]
  repeat' split
  all_goals simp [Tree.bare]

def openShare : Share := ⟨utf8 "/d", true, false⟩

theorem sibling_copy_keeps : CopyKeepsSource some Listing.asOpened nestedDisk openShare
    (utf8 "/a/b") [("destination", utf8 "/c")] := by
  apply (copy_keeps_source_iff some Listing.asOpened nestedDisk openShare (utf8 "/a/b")
    [("destination", utf8 "/c")] nested_free).mpr
  intro plan plans destroys
  have same : planned some nestedDisk openShare (utf8 "/a/b") [("destination", utf8 "/c")] .copy =
      .ok ⟨pathOf (utf8 "/d/a/b"), pathOf (utf8 "/d/c"), true, .infinity, false, false⟩ := by
    decide
  rw [same] at plans
  cases plans
  obtain ⟨s, found, ⟨removes, _⟩ | ⟨b, content, file, _⟩⟩ := destroys
  · exact absurd removes (by decide)
  · have place : nestedDisk.lookup true (pathOf (utf8 "/d/a/b")) = .ok [[100], [97], [98]] := by
      decide
    rw [place] at found
    cases found
    have dir : nestedDisk.tree.get [[100], [97], [98]] = some .dir := by decide
    rw [dir] at file
    cases file

/-- A copy to the directory above removes what it should copy. -/
theorem copy_to_parent_loses : ¬ CopyKeepsSource some Listing.asOpened nestedDisk openShare
    (utf8 "/a/b") [("destination", utf8 "/a")] := by
  intro keeps
  have plans : planned some nestedDisk openShare (utf8 "/a/b") [("destination", utf8 "/a")] .copy =
      .ok ⟨pathOf (utf8 "/d/a/b"), pathOf (utf8 "/d/a"), true, .infinity, true, false⟩ := by
    decide
  obtain ⟨extracted, dest, _, checked⟩ := planned_request plans
  have found : nestedDisk.lookup true (pathOf (utf8 "/d/a/b")) = .ok [[100], [97], [98]] := by decide
  obtain ⟨w', reply, run, lost⟩ := removal_loses Listing.asOpened nested_free checked found
    (by decide) (by decide) (.inl (by decide))
  apply lost
  have still := keeps _ _ extracted found 1 w' reply (by
    rw [handle_copy_planned, plans]
    exact run)
  rwa [dest] at still

end VestibuleCopyMove
