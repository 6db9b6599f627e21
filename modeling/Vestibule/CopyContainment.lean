import Vestibule.CopyPlans
import Vestibule.ReachedLinks

/-!
Where COPY and MOVE reach to in a tree with symbolic links, as conditions on the tree before the
request, for a source that is inside.
-/
namespace VestibuleCopyMove
open VestibuleRust LexicalMotion FileTree FileCalls World VestibulePaths PlainLookups PlainCalls
  LinkedLookups LinkedCalls CallFootprints

section Conditions
variable (inside : List Name → Prop) (plan : Plan) (w : Disk)

def Plan.roomFor : Disk :=
  if plan.removes w then
    match w.lookup false plan.dest with
    | .ok top => w.without top
    | .error _ => w
  else w

/-- Nothing has to be removed at the Destination, or it can be removed as a whole. -/
def Plan.RoomMade : Prop :=
  plan.removes w = true → ∃ top, w.lookup false plan.dest = .ok top ∧ Removes w plan.dest top

def Plan.RemovesWithin : Prop :=
  plan.removes w = true → ∀ place, Removes w plan.dest place → inside place

/-- What is removed is inside, and so are the two entries of a rename that goes through. -/
structure Plan.MoveStays : Prop where
  removed : plan.RemovesWithin inside w
  moved : plan.RoomMade w → ∀ s d, Renames (plan.roomFor w) plan.path plan.dest s d →
    inside s ∧ inside d

/-- A directory that is made for the file is inside, and so is the file that is opened. -/
structure Plan.CopyFileStays : Prop where
  made : plan.destIsFile = false → ∀ p n, Creates w plan.dest p n → inside (p ++ [n])
  opened : ∀ name p n, plan.destIsFile = true ∨ fileName plan.path = some name →
    OpensTo w (fileTarget plan.dest (!plan.destIsFile) name) p n → inside (p ++ [n])

/-- What is removed is inside, the directory that is made is inside, and so are the files that the
    links of the source lead to. -/
structure Plan.CopyTreeStays : Prop where
  removed : plan.RemovesWithin inside w
  made : plan.RoomMade w → plan.destIsFile = false → ∀ p n, Creates (plan.roomFor w) plan.dest p n →
    inside (p ++ [n])
  linked : plan.RoomMade w → plan.destIsFile = false → plan.depth ≠ .zero → ∀ p n s,
    Creates (plan.roomFor w) plan.dest p n → (plan.roomFor w).lookup true plan.path = .ok s →
    LinksWithin inside (plan.roomFor w) plan.path plan.dest s (p ++ [n])

def Plan.CopyStays : Prop :=
  if isDir w plan.path then plan.CopyTreeStays inside w else plan.CopyFileStays inside w

end Conditions

def Plan.soFar (plan : Plan) (listing : DiskListing) (fuel : Nat) (w : Disk) : Disk :=
  match plan.makeRoom w with
  | (w, .error _) => w
  | (w, .ok _) =>
    (copySoFar listing fuel w plan.path plan.dest plan.dest (!plan.destIsFile) plan.depth).1

section Room
variable {inside : List Name → Prop} {plan : Plan} {w w₁ : Disk}

theorem make_room_touches : TouchesWithin inside w (plan.makeRoom w).1 ↔ plan.RemovesWithin inside w := by
  unfold Plan.RemovesWithin
  by_cases removes : plan.removes w = true
  · rw [make_room_removes removes, remove_dir_all_touches]
    simp [removes]
  · rw [make_room_kept (Bool.not_eq_true _ ▸ removes)]
    exact iff_of_true (touches_refl w) fun taken => absurd taken removes

theorem make_room_ok_iff : (plan.makeRoom w).2 = .ok () ↔ plan.RoomMade w := by
  unfold Plan.RoomMade
  by_cases removes : plan.removes w = true
  · rw [make_room_removes removes, remove_dir_all_ok_iff]
    simp [removes]
  · rw [make_room_kept (Bool.not_eq_true _ ▸ removes)]
    exact iff_of_true rfl fun taken => absurd taken removes

theorem make_room_same (stage : plan.makeRoom w = (w₁, .ok ())) : SameFiles (plan.roomFor w) w₁ := by
  unfold Plan.roomFor
  by_cases removes : plan.removes w = true
  · rw [make_room_removes removes] at stage
    obtain ⟨top, found, _, inner, drops⟩ := remove_dir_all_ok stage
    have kept := without_drops (w := w) inner
    rw [if_pos removes, found]
    exact ⟨drops.cwd.trans kept.cwd.symm, funext fun loc => (drops.get loc).trans (kept.get loc).symm⟩
  · rw [make_room_kept (Bool.not_eq_true _ ▸ removes)] at stage
    cases stage
    rw [if_neg removes]
    exact ⟨rfl, rfl⟩

theorem room_extends (stage : plan.makeRoom w = (w₁, .ok ())) :
    w₁.cwd = w.cwd ∧ Extends w₁.tree w.tree := by
  by_cases removes : plan.removes w = true
  · rw [make_room_removes removes] at stage
    obtain ⟨top, _, _, _, drops⟩ := remove_dir_all_ok stage
    have kept {loc : List Name} {node : Node Name UInt8} (found : w₁.tree.get loc = some node) :
        w.tree.get loc = some node := by
      rw [drops.get] at found
      split at found
      · cases found
      · exact found
    exact ⟨drops.cwd, fun _ found => kept found, fun _ _ found => kept found,
      fun _ content found => ⟨content, kept found⟩⟩
  · rw [make_room_kept (Bool.not_eq_true _ ▸ removes)] at stage
    cases stage
    exact ⟨rfl, fun _ found => found, fun _ _ found => found, fun _ content found => ⟨content, found⟩⟩

end Room

section Runs
variable {listing : DiskListing} {fuel : Nat} {plan : Plan} {w w₁ w' : Disk} {reply : Reply}

theorem so_far_refused {e : FsError} (stage : plan.makeRoom w = (w₁, .error e)) :
    plan.soFar listing fuel w = w₁ := by
  unfold Plan.soFar
  rw [stage]

theorem so_far_roomed (stage : plan.makeRoom w = (w₁, .ok ())) : plan.soFar listing fuel w =
    (copySoFar listing fuel w₁ plan.path plan.dest plan.dest (!plan.destIsFile) plan.depth).1 := by
  unfold Plan.soFar
  rw [stage]

theorem execute_so_far (run : plan.execute listing .copy fuel w = some (w', reply)) :
    plan.soFar listing fuel w = w' := by
  obtain ⟨w₁, removed, stage, ⟨e, failed, same, _⟩ | ⟨done, r, copied, _⟩⟩ := execute_copy_cases run
  · rw [so_far_refused (failed ▸ stage), same]
  · rw [do_copy_ended, ended_iff] at copied
    rw [so_far_roomed (done ▸ stage), copied]

end Runs

section Moves
variable {inside : List Name → Prop} {listing : DiskListing} {fuel : Nat} {plan : Plan} {w w' : Disk}
  {reply : Reply}

theorem move_answers : ∃ answer, plan.execute listing .move fuel w = some answer := by
  unfold Plan.execute
  split
  · exact ⟨_, rfl⟩
  · dsimp only
    split <;> exact ⟨_, rfl⟩

theorem move_within_iff (run : plan.execute listing .move fuel w = some (w', reply)) :
    TouchesWithin inside w w' ↔ plan.MoveStays inside w := by
  have room := @make_room_touches inside plan w
  cases stage : plan.makeRoom w with
  | mk w₁ outcome =>
    rw [stage] at room
    cases outcome with
    | error e =>
      rw [execute_removal_failed stage] at run
      cases run
      rw [room]
      constructor
      · refine fun removed => ⟨removed, fun made => ?_⟩
        have ok := make_room_ok_iff.mpr made
        rw [stage] at ok
        cases ok
      · exact fun stays => stays.removed
    | ok done =>
      have made : plan.RoomMade w := make_room_ok_iff.mp (by rw [stage])
      have same := make_room_same stage
      have moved : w' = (w₁.rename plan.path plan.dest).1 := by
        unfold Plan.execute at run
        rw [stage] at run
        dsimp only at run
        split at run <;> rename_i renamed <;> rw [renamed] <;> cases run <;> rfl
      have first : TouchesWithin (fun _ => True) w w₁ := by
        have all := @make_room_touches (fun _ => True) plan w
        rw [stage] at all
        exact all.mpr fun _ _ _ => trivial
      have later : TouchesWithin (fun _ => True) w₁ w' := by
        rw [moved]
        exact rename_touches.mpr fun _ _ _ => ⟨trivial, trivial⟩
      rw [touches_both first later, room, moved, rename_touches]
      simp only [same_renames same]
      constructor
      · exact fun both => ⟨both.1, fun _ => both.2⟩
      · exact fun stays => ⟨stays.removed, stays.moved made⟩

end Moves

section Files
variable {inside : List Name → Prop} {listing : DiskListing} {fuel : Nat} {plan : Plan} {w w' : Disk}
  {source topdest dest : DiskPath} {destIsDir : Bool} {depth : Depth}

theorem so_far_one {content : List UInt8} (different : samePath source topdest = false)
    (node : w.metadata source = .ok (.file content)) :
    (destIsDir = true ∧ fileName source = none ∧
        (copySoFar listing (fuel + 1) w source topdest dest destIsDir depth).1 = made w dest destIsDir) ∨
      ∃ name, (destIsDir = false ∨ fileName source = some name) ∧
        (copySoFar listing (fuel + 1) w source topdest dest destIsDir depth).1 =
          ((made w dest destIsDir).copyFile source (fileTarget dest destIsDir name)).1 := by
  unfold copySoFar
  rw [if_neg (by simp [different]), node]
  have same : (if destIsDir = true then (w.createDir dest).1 else w) = made w dest destIsDir := rfl
  dsimp only
  rw [same]
  cases destIsDir with
  | false => exact .inr ⟨[], .inl rfl, rfl⟩
  | true =>
    rw [if_pos rfl]
    split
    · rename_i nameless
      exact .inl ⟨rfl, nameless, rfl⟩
    · rename_i name named
      rw [join_name_child]
      exact .inr ⟨name, .inr named, rfl⟩

theorem dir_not_created {loc : List Name} (found : w.lookup true dest = .ok loc)
    (dir : w.tree.isDir loc = true) (p : List Name) (n : Name) : ¬ Creates w dest p n := by
  intro creates
  have whole := lookup_entry found creates.entry (.inr (not_linked_missing creates.missing))
  rw [whole, missing_not_dir creates.missing] at dir
  cases dir

theorem checked_file (checked : plan.Checked w) (file : isDir w plan.path = false) :
    ∃ content s, w.lookup true plan.path = .ok s ∧ w.tree.get s = some (.file content) := by
  obtain ⟨node, source⟩ := checked.source
  obtain ⟨s, found, here⟩ := stat_ok_iff.mp source
  cases node with
  | dir =>
    rw [is_dir_path_iff.mpr ⟨s, found, is_dir_iff.mpr here⟩] at file
    cases file
  | link target => exact absurd ⟨target, here⟩ (lookup_not_linked found)
  | file content => exact ⟨content, s, found, here⟩

theorem file_target_same {destIsFile : Bool} {name name' : Name}
    (named : (!destIsFile) = false ∨ fileName source = some name)
    (which : destIsFile = true ∨ fileName source = some name') :
    fileTarget dest (!destIsFile) name' = fileTarget dest (!destIsFile) name := by
  rcases which with isFile | some_name
  · simp [fileTarget, isFile]
  · rcases named with isFile | some_name'
    · simp [fileTarget, isFile]
    · rw [some_name] at some_name'
      cases some_name'
      rfl

theorem target_opens_kept {name : Name} {p : List Name} {n : Name} (some_left : isBlank dest = false)
    (opens : OpensTo w (fileTarget dest destIsDir name) p n) : made w dest destIsDir = w := by
  cases destIsDir with
  | false => rfl
  | true =>
    obtain ⟨mid, place, dir⟩ := child_found some_left opens.place
    exact made_kept (dir_not_created place dir)

theorem made_opens {name : Name} {p₀ p : List Name} {n₀ n : Name} (creates : Creates w dest p₀ n₀)
    (opens : OpensTo (w.createDir dest).1 (child dest name) p n) : p₀ ++ [n₀] <+: p ++ [n] := by
  obtain ⟨_, puts, _⟩ := create_dir_done creates
  have grown := puts_grown puts creates.missing (by simp)
  have dir : (w.createDir dest).1.tree.isDir (p₀ ++ [n₀]) = true := by
    rw [is_dir_iff, puts.get, if_pos rfl]
  have place : (w.createDir dest).1.lookup true dest = .ok (p₀ ++ [n₀]) :=
    entry_lookup_dir (entry_extends grown.cwd grown.more creates.entry) dir
  have whole := lookup_entry opens.place (child_entry place dir name)
    (.inr (grown.plain _ (List.prefix_append _ _)))
  rw [whole]
  exact List.prefix_append _ _

theorem one_copy_stays {content : List UInt8} {name : Name} {s : List Name}
    (down : ∀ a b, inside a → a <+: b → inside b) (found : w.lookup true plan.path = .ok s)
    (here : w.tree.get s = some (.file content)) (safe : inside s)
    (named : (!plan.destIsFile) = false ∨ fileName plan.path = some name)
    (stays : plan.CopyFileStays inside w) :
    TouchesWithin inside (made w plan.dest (!plan.destIsFile))
      ((made w plan.dest (!plan.destIsFile)).copyFile plan.path
        (fileTarget plan.dest (!plan.destIsFile) name)).1 := by
  have which : plan.destIsFile = true ∨ fileName plan.path = some name := by simpa using named
  refine copy_file_touches.mpr fun s' content' p n found' here' opens => ?_
  by_cases can : plan.destIsFile = false ∧ ∃ p₀ n₀, Creates w plan.dest p₀ n₀
  · obtain ⟨other, p₀, n₀, creates⟩ := can
    obtain ⟨_, puts, _⟩ := create_dir_done creates
    have grown := puts_grown puts creates.missing (by simp)
    have now : made w plan.dest (!plan.destIsFile) = (w.createDir plan.dest).1 := by
      rw [other]
      rfl
    rw [now] at found' opens
    rw [lookup_extends grown.cwd grown.more found (by simp [here])] at found'
    cases found'
    rw [other] at opens
    exact ⟨safe, down _ _ (stays.made other p₀ n₀ creates) (made_opens creates opens)⟩
  · have unchanged : made w plan.dest (!plan.destIsFile) = w := by
      cases other : plan.destIsFile with
      | true => rfl
      | false => exact made_kept fun p n creates => can ⟨other, p, n, creates⟩
    rw [unchanged] at found' opens
    rw [found] at found'
    cases found'
    exact ⟨safe, stays.opened name p n which opens⟩

theorem copy_one_within_iff (checked : plan.Checked w) (down : ∀ a b, inside a → a <+: b → inside b)
    (held : ∀ loc node, w.lookup true plan.path = .ok loc → w.tree.get loc = some node → inside loc)
    (file : isDir w plan.path = false) :
    (∀ fuel, TouchesWithin inside w (plan.soFar listing fuel w)) ↔ plan.CopyFileStays inside w := by
  have kept : plan.removes w = false := by simp [Plan.removes, file]
  have stage := make_room_kept kept
  obtain ⟨content, s, found, here⟩ := checked_file checked file
  have source := stat_ok_iff.mpr ⟨s, found, here⟩
  have safe := held s _ found here
  have making : TouchesWithin inside w (made w plan.dest (!plan.destIsFile)) ↔
      (plan.destIsFile = false → ∀ p n, Creates w plan.dest p n → inside (p ++ [n])) := by
    rw [made_touches]
    simp
  constructor
  · intro all
    have within := all 1
    rw [so_far_roomed stage] at within
    rcases @so_far_one listing 0 w plan.path plan.dest plan.dest (!plan.destIsFile) plan.depth content
      checked.different source with ⟨intoDir, nameless, same⟩ | ⟨name, named, same⟩
    · rw [same] at within
      refine ⟨making.mp within, fun name p n which => ?_⟩
      rcases which with isFile | some_name
      · simp [isFile] at intoDir
      · rw [nameless] at some_name
        cases some_name
    · rw [same] at within
      have first : TouchesWithin (fun _ => True) w (made w plan.dest (!plan.destIsFile)) :=
        made_touches.mpr fun _ _ _ _ => trivial
      have later : TouchesWithin (fun _ => True) (made w plan.dest (!plan.destIsFile))
          ((made w plan.dest (!plan.destIsFile)).copyFile plan.path
            (fileTarget plan.dest (!plan.destIsFile) name)).1 :=
        copy_file_touches.mpr fun _ _ _ _ _ _ _ => ⟨trivial, trivial⟩
      obtain ⟨making', copies⟩ := (touches_both first later).mp within
      refine ⟨making.mp making', fun name' p n which opens => ?_⟩
      rw [file_target_same named which] at opens
      rw [target_opens_kept checked.some_left opens, copy_file_touches] at copies
      exact (copies s content p n found here opens).2
  · intro stays fuel
    rw [so_far_roomed stage]
    cases fuel with
    | zero => exact touches_refl w
    | succ fuel =>
      rcases @so_far_one listing fuel w plan.path plan.dest plan.dest (!plan.destIsFile) plan.depth content
        checked.different source with ⟨_, _, same⟩ | ⟨name, named, same⟩
      · exact same ▸ making.mpr stays.made
      · rw [same]
        exact touches_trans (making.mpr stays.made) (one_copy_stays down found here safe named stays)

end Files

section Trees
variable {inside : List Name → Prop} {listing : DiskListing} {fuel : Nat} {plan : Plan}
  {w w₁ w' : Disk} {reply : Reply}

theorem same_creates (same : SameFiles w w₁) {path : DiskPath} {p : List Name} {n : Name} :
    Creates w₁ path p n ↔ Creates w path p n := by
  constructor
  · exact fun ⟨entry, missing, legal⟩ => ⟨same_entry same path ▸ entry, same.get ▸ missing, legal⟩
  · exact fun ⟨entry, missing, legal⟩ => ⟨(same_entry same path).symm ▸ entry,
      same.get.symm ▸ missing, legal⟩

theorem same_grown {d : List Name} (same : SameFiles w w₁) (missing : w.tree.get d = none) :
    Grown d w w₁ where
  cwd := same.cwd
  more := ⟨fun _ found => same.get ▸ found, fun _ _ found => same.get ▸ found,
    fun _ content found => ⟨content, same.get ▸ found⟩⟩
  outside loc _ := congrFun same.get loc
  plain loc inner linked := by
    obtain ⟨target, link⟩ := linked
    rw [same.get] at link
    exact (missing_grown missing).plain loc inner ⟨target, link⟩

theorem file_dest_closed (file : destIsFile w plan.dest = true) (loc : List Name)
    (found : w.lookup true plan.dest = .ok loc) : w.tree.isDir loc = false := by
  unfold destIsFile at file
  split at file
  · cases file
  · split at file
    · rename_i node read
      obtain ⟨loc', found', here⟩ := stat_ok_iff.mp read
      rw [found] at found'
      cases found'
      cases node with
      | dir => cases file
      | file content => exact file_not_dir here
      | link target => cases file
    · cases file
  · rename_i node other read
    obtain ⟨loc', found', here⟩ := stat_ok_iff.mp read
    cases node with
    | dir => cases file
    | link target => exact absurd rfl (other target)
    | file content =>
      rw [lookup_followed found' (not_linked_file here)] at found
      cases found
      exact file_not_dir here

theorem room_closed (checked : plan.Checked w) (dir : isDir w plan.path = true)
    (more : plan.depth ≠ .zero) (other : plan.destIsFile = false)
    (stage : plan.makeRoom w = (w₁, .ok ())) (loc : List Name)
    (found : w₁.lookup true plan.dest = .ok loc) : w₁.tree.isDir loc = false := by
  by_contra there
  have there := Bool.not_eq_false _ ▸ there
  obtain ⟨cwd, smaller⟩ := room_extends stage
  have before : w.lookup true plan.dest = .ok loc :=
    lookup_extends cwd.symm smaller found (by rw [is_dir_iff.mp there]; simp)
  have was_dir := is_dir_iff.mpr (smaller.dir loc (is_dir_iff.mp there))
  by_cases removes : plan.removes w = true
  · rw [make_room_removes removes] at stage
    obtain ⟨top, named, kind, _, drops⟩ := remove_dir_all_ok stage
    have gone (place : List Name) (inner : top <+: place) : w₁.tree.get place = none := by
      rw [drops.get, if_pos inner]
    rcases kind with linked | top_dir
    · obtain ⟨_, p, n, entry, whole⟩ := lookup_linked named linked
      have missing : w₁.tree.get (p ++ [n]) = none := gone _ (whole ▸ List.prefix_rfl)
      obtain ⟨entered, now⟩ := dir_entered found there
      obtain ⟨q, last⟩ := entered
      cases last with
      | none =>
        have ends := (entry_walk_iff.mp entry).1
        unfold World.entry at now
        rw [ends] at now
        repeat' split at now
        all_goals cases now
      | some m =>
        have same := entry_extends cwd.symm smaller now
        rw [entry] at same
        cases same
        have place := lookup_entry found now (.inr (not_linked_missing missing))
        rw [place, missing_not_dir missing] at there
        cases there
    · have same : loc = top := by
        rw [lookup_followed named (not_linked_dir top_dir)] at before
        exact (Except.ok.inj before).symm
      rw [same, missing_not_dir (gone top List.prefix_rfl)] at there
      cases there
  · -- the Destination was not there before
    have absent : plan.present = false := by
      rcases checked.allowed with overwrite | absent
      · by_contra present
        exact removes (by simp [Plan.removes, dir, overwrite, more, other, Bool.not_eq_false _ ▸ present])
      · exact absent
    obtain ⟨loc', node, place, here⟩ := lookup_unfollowed before (by rw [is_dir_iff.mp was_dir]; simp)
    have present : (w.symlinkMetadata plan.dest).isOk = true := by
      rw [World.symlinkMetadata, stat_ok_iff.mpr ⟨loc', place, here⟩]
      rfl
    rw [← checked.present, absent] at present
    cases present

theorem so_far_nowhere {source topdest dest : DiskPath} {destIsDir : Bool} {depth : Depth}
    {result : Option (Except FsError Unit)} (some_left : isBlank dest = false)
    (unmade : made w dest destIsDir = w)
    (dir : ∀ content, w.metadata source ≠ .ok (.file content))
    (closed : depth ≠ .zero → ∀ loc, w.lookup true dest = .ok loc → w.tree.isDir loc = false)
    (run : copySoFar listing fuel w source topdest dest destIsDir depth = (w', result)) : w' = w := by
  cases fuel with
  | zero => exact (congrArg Prod.fst run).symm
  | succ fuel =>
    rcases so_far_steps run with same | ⟨_, _, same⟩ | ⟨content, _, node, _⟩ |
      ⟨_, _, _, _, _, more, loop⟩
    · exact same
    · exact same.trans unmade
    · exact absurd node (dir content)
    · rw [unmade] at loop
      exact entries_idle (fun name isDir next r one => so_far_closed some_left (closed more) one) loop

theorem room_source {s₀ loc : List Name} {node : Node Name UInt8}
    (stage : plan.makeRoom w = (w₁, .ok ())) (found₀ : w.lookup true plan.path = .ok s₀)
    (dir₀ : w.tree.isDir s₀ = true) (found : w₁.lookup true plan.path = .ok loc)
    (here : w₁.tree.get loc = some node) : loc = s₀ ∧ node = .dir := by
  obtain ⟨cwd, smaller⟩ := room_extends stage
  have before := lookup_extends cwd.symm smaller found (by simp [here])
  rw [found₀] at before
  cases before
  refine ⟨rfl, ?_⟩
  cases node with
  | dir => rfl
  | file content =>
    obtain ⟨content', file⟩ := smaller.file _ _ here
    rw [file_not_dir file] at dir₀
    cases dir₀
  | link target => exact absurd dir₀ fun dir => not_linked_dir dir ⟨target, smaller.link _ _ here⟩

theorem room_call {path dest : DiskPath} {s p : List Name} {n : Name} (same : SameFiles w w₁)
    (place : w₁.lookup true path = .ok s) (dir : w₁.tree.isDir s = true) (creates : Creates w₁ dest p n) :
    TreeCall w path dest s (p ++ [n]) [] w₁ where
  grown := same_grown same (same.get ▸ creates.missing)
  found := by
    rw [List.append_nil]
    exact place
  dir := by
    rw [List.append_nil]
    exact dir
  outside _ within := by
    obtain ⟨rest, below⟩ := within
    rw [List.append_nil] at below
    have gone := below_missing w₁.tree creates.missing rest
    rw [below, is_dir_iff.mp dir] at gone
    cases gone
  top := ⟨p, n, rfl, creates.entry⟩
  makes := ⟨p, n, (List.append_nil _).symm, creates⟩

theorem copy_made_within {s : List Name} {p : List Name} {n : Name}
    {result : Option (Except FsError Unit)}
    (down : ∀ a b, inside a → a <+: b → inside b) (found : w.lookup true plan.path = .ok s)
    (dir : w.tree.isDir s = true) (safe : inside s) (stage : plan.makeRoom w = (w₁, .ok ()))
    (stays : plan.CopyTreeStays inside w) (other : plan.destIsFile = false)
    (creates : Creates w₁ plan.dest p n)
    (run : copySoFar listing fuel w₁ plan.path plan.dest plan.dest true plan.depth = (w', result)) :
    TouchesWithin inside w₁ w' := by
  cases fuel with
  | zero =>
    cases run
    exact touches_refl w₁
  | succ fuel =>
    have room : plan.RoomMade w := make_room_ok_iff.mp (by rw [stage])
    have same := make_room_same stage
    have made_safe := stays.made room other p n ((same_creates same).mp creates)
    have making : TouchesWithin inside w₁ (made w₁ plan.dest true) := by
      refine (touches_iff (create_dir_done creates).2.2).mpr fun place member => ?_
      exact List.mem_singleton.mp member ▸ made_safe
    rcases so_far_steps run with kept | ⟨_, _, kept⟩ | ⟨content, _, node, _⟩ |
      ⟨node, loc, read, place, _, more, _⟩
    · exact touches_same (congrArg World.touched kept)
    · exact kept ▸ making
    · obtain ⟨loc, place, here⟩ := stat_ok_iff.mp node
      cases (room_source stage found dir place here).2
    · obtain ⟨loc, place, here⟩ := stat_ok_iff.mp read
      obtain ⟨whole, kind⟩ := room_source stage found dir place here
      subst whole kind
      have roomed : (plan.roomFor w).lookup true plan.path = .ok loc := by
        rw [← same_lookup same]
        exact place
      have shown := stays.linked room other more p n loc ((same_creates same).mp creates) roomed
      have call := room_call same place (is_dir_iff.mpr here) creates
      refine tree_touches down shown made_safe safe more call (.inr fun x there => ?_) run
      rw [is_dir_iff, below_missing w₁.tree creates.missing x] at there
      cases there

theorem copy_tree_within (checked : plan.Checked w) (down : ∀ a b, inside a → a <+: b → inside b)
    (held : ∀ loc node, w.lookup true plan.path = .ok loc → w.tree.get loc = some node → inside loc)
    (dir : isDir w plan.path = true) (stays : plan.CopyTreeStays inside w) :
    TouchesWithin inside w (plan.soFar listing fuel w) := by
  cases stage : plan.makeRoom w with
  | mk w₁ removed =>
    have cleared : TouchesWithin inside w w₁ := by
      have all := make_room_touches.mpr stays.removed
      rwa [stage] at all
    cases removed with
    | error e => exact (so_far_refused stage).symm ▸ cleared
    | ok done =>
      refine touches_trans cleared ?_
      rw [so_far_roomed stage]
      obtain ⟨s, found, here⟩ := is_dir_path_iff.mp dir
      have no_file (content : List UInt8) : w₁.metadata plan.path ≠ .ok (.file content) := by
        intro node
        obtain ⟨loc, place, here'⟩ := stat_ok_iff.mp node
        cases (room_source stage found here place here').2
      cases file : plan.destIsFile with
      | true =>
        have unmoved : w₁ = w := by
          have kept : plan.removes w = false := by simp [Plan.removes, file]
          rw [make_room_kept kept] at stage
          exact (congrArg Prod.fst stage).symm
        rw [unmoved] at no_file ⊢
        rw [checked.file] at file
        rw [so_far_nowhere checked.some_left rfl no_file (fun _ => file_dest_closed file) rfl]
        exact touches_refl w
      | false =>
        by_cases can : ∃ p n, Creates w₁ plan.dest p n
        · obtain ⟨p, n, creates⟩ := can
          have safe := held s .dir found (is_dir_iff.mp here)
          exact copy_made_within down found here safe stage stays file creates rfl
        · rw [so_far_nowhere checked.some_left (made_kept fun p n creates => can ⟨p, n, creates⟩) no_file
            (fun more => room_closed checked dir more file stage) rfl]
          exact touches_refl w₁

theorem so_far_first {source topdest dest : DiskPath} {destIsDir : Bool} {depth : Depth}
    (different : samePath source topdest = false) (node : w.metadata source = .ok .dir) :
    (copySoFar listing 1 w source topdest dest destIsDir depth).1 = made w dest destIsDir := by
  have same : (if destIsDir = true then (w.createDir dest).1 else w) = made w dest destIsDir := rfl
  unfold copySoFar
  rw [if_neg (by simp [different]), node]
  dsimp only
  rw [same]
  repeat' split
  all_goals rfl

/-- If the source is gone with what was removed, the directory that could be made was removed, too. -/
theorem source_gone {p : List Name} {n : Name} (dir : isDir w plan.path = true)
    (stage : plan.makeRoom w = (w₁, .ok ())) (removed : plan.RemovesWithin inside w)
    (gone : ∀ node, w₁.metadata plan.path ≠ .ok node) (creates : Creates w₁ plan.dest p n) :
    inside (p ++ [n]) := by
  obtain ⟨s, found, here⟩ := is_dir_path_iff.mp dir
  by_cases removes : plan.removes w = true
  · obtain ⟨top, named, takes⟩ := make_room_ok_iff.mp (by rw [stage]) removes
    obtain ⟨cwd, smaller⟩ := room_extends stage
    have entry := entry_extends cwd.symm smaller creates.entry
    have safe := removed removes top takes
    obtain ⟨top', named', kind⟩ := takes
    rw [named] at named'
    cases named'
    rcases kind with ⟨linked, _⟩ | ⟨_, ⟨_, other, _⟩ | ⟨_, p', n', cleared, whole⟩⟩
    · obtain ⟨_, p', n', entry', whole⟩ := lookup_linked named linked
      rw [entry] at entry'
      cases entry'
      exact whole ▸ safe
    · exact absurd rfl other
    · have same : w.cwd = (w.clearAt top).cwd := rfl
      have entry' := entry_extends same (cleared_extends w top) cleared
      rw [entry] at entry'
      cases entry'
      exact whole ▸ safe
  · rw [make_room_kept (Bool.not_eq_true _ ▸ removes)] at stage
    cases stage
    exact absurd (stat_ok_iff.mpr ⟨s, found, is_dir_iff.mp here⟩) (gone .dir)

theorem copy_tree_reaches (checked : plan.Checked w) (down : ∀ a b, inside a → a <+: b → inside b)
    (dir : isDir w plan.path = true)
    (within : ∀ listing fuel, TouchesWithin inside w (plan.soFar listing fuel w)) :
    plan.CopyTreeStays inside w := by
  obtain ⟨s₀, found₀, dir₀⟩ := is_dir_path_iff.mp dir
  have removed : plan.RemovesWithin inside w := by
    have first := within Listing.asOpened 0
    rw [← make_room_touches]
    cases stage : plan.makeRoom w with
    | mk w₁ outcome =>
      cases outcome with
      | error e => exact so_far_refused stage ▸ first
      | ok done =>
        rw [so_far_roomed stage] at first
        exact first
  have after (room : plan.RoomMade w) : ∃ w₁, plan.makeRoom w = (w₁, .ok ()) ∧
      (plan.destIsFile = false → ∀ listing fuel, TouchesWithin inside w₁
        (copySoFar listing fuel w₁ plan.path plan.dest plan.dest true plan.depth).1) := by
    have stage : plan.makeRoom w = ((plan.makeRoom w).1, .ok ()) :=
      Prod.ext rfl (make_room_ok_iff.mpr room)
    refine ⟨_, stage, fun other listing fuel => ?_⟩
    have all := within listing fuel
    have first := (@make_room_touches (fun _ => True) plan w).mpr fun _ _ _ => trivial
    rw [so_far_roomed stage, other] at all
    exact ((touches_both first (so_far_touch fuel _ _ _ _ _ _)).mp all).2
  have making (room : plan.RoomMade w) (other : plan.destIsFile = false) (p : List Name) (n : Name)
      (creates : Creates (plan.roomFor w) plan.dest p n) : inside (p ++ [n]) := by
    obtain ⟨w₁, stage, reached⟩ := after room
    have creates' := (same_creates (make_room_same stage)).mpr creates
    by_cases there : ∃ node, w₁.metadata plan.path = .ok node
    · obtain ⟨node, read⟩ := there
      obtain ⟨loc, place, here⟩ := stat_ok_iff.mp read
      obtain ⟨_, rfl⟩ := room_source stage found₀ dir₀ place here
      have first := reached other Listing.asOpened 1
      rw [so_far_first checked.different read] at first
      exact made_touches.mp first rfl p n creates'
    · exact source_gone dir stage removed (fun node read => there ⟨node, read⟩) creates'
  refine ⟨removed, making, fun room other more p n s creates found later names k loc content grown laid
    linked leads file => ?_⟩
  obtain ⟨w₁, stage, reached⟩ := after room
  have same := make_room_same stage
  have creates' := (same_creates same).mpr creates
  by_contra outside
  have source_dir : w₁.tree.isDir s = true := by
    obtain ⟨target, link⟩ := linked
    rw [List.append_assoc] at link
    rw [is_dir_iff, same.get]
    exact above_is_dir _ (by simp) link
  have call := room_call same ((same_lookup same _ _).trans found) source_dir creates'
  obtain ⟨listing, fuel, reaches⟩ := link_reached more creates.missing call grown laid linked leads file
    fun below => outside (down _ _ (making room other p n creates) below)
  exact outside (reaches_inside reaches (reached other listing fuel))

theorem copy_shallow_reaches (checked : plan.Checked w) (dir : isDir w plan.path = true)
    (shallow : plan.depth = .zero)
    (within : ∀ fuel, TouchesWithin inside w (plan.soFar listing fuel w)) :
    plan.CopyTreeStays inside w := by
  have kept : plan.removes w = false := by simp [Plan.removes, shallow]
  have stage := make_room_kept kept
  have room : plan.roomFor w = w := by simp [Plan.roomFor, kept]
  refine ⟨fun removes => ?_, fun _ other p n creates => ?_, fun _ _ more => absurd shallow more⟩
  · rw [kept] at removes
    cases removes
  · rw [room] at creates
    obtain ⟨s, found, here⟩ := is_dir_path_iff.mp dir
    have is_dir : w.metadata plan.path = .ok .dir := stat_ok_iff.mpr ⟨s, found, is_dir_iff.mp here⟩
    have copied : (copySoFar listing 1 w plan.path plan.dest plan.dest (!plan.destIsFile)
        plan.depth).1 = made w plan.dest true := by
      unfold copySoFar
      rw [if_neg (by simp [checked.different]), is_dir, other, shallow]
      rfl
    have touched := within 1
    rw [so_far_roomed stage, copied] at touched
    exact made_touches.mp touched rfl p n creates

/-- The condition on a COPY is enough, as far as it may get. -/
theorem copy_within (checked : plan.Checked w) (down : ∀ a b, inside a → a <+: b → inside b)
    (held : ∀ loc node, w.lookup true plan.path = .ok loc → w.tree.get loc = some node → inside loc)
    (stays : plan.CopyStays inside w) : TouchesWithin inside w (plan.soFar listing fuel w) := by
  unfold Plan.CopyStays at stays
  split at stays
  · rename_i dir
    exact copy_tree_within checked down held dir stays
  · rename_i other
    exact (copy_one_within_iff checked down held (Bool.not_eq_true _ ▸ other)).mpr stays fuel

/-- The condition on a COPY is necessary, for a directory that is copied with what is in it if every order
    of the listings is considered. -/
theorem copy_reaches (checked : plan.Checked w) (down : ∀ a b, inside a → a <+: b → inside b)
    (held : ∀ loc node, w.lookup true plan.path = .ok loc → w.tree.get loc = some node → inside loc)
    (whole : isDir w plan.path = true → plan.depth ≠ .zero →
      ∀ listing fuel, TouchesWithin inside w (plan.soFar listing fuel w))
    (within : ∀ fuel, TouchesWithin inside w (plan.soFar listing fuel w)) : plan.CopyStays inside w := by
  unfold Plan.CopyStays
  split
  · rename_i dir
    by_cases shallow : plan.depth = .zero
    · exact copy_shallow_reaches checked dir shallow within
    · exact copy_tree_reaches checked down dir (whole dir shallow)
  · rename_i other
    exact (copy_one_within_iff checked down held (Bool.not_eq_true _ ▸ other)).mp within

end Trees
end VestibuleCopyMove
