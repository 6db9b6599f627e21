import Vestibule.CopySource

/-!
What a MOVE leaves. The existing directory at the Destination is removed before the rename, and
two spellings of one file are renamed to each other.
-/
namespace VestibuleCopyMove
open VestibuleRust LexicalMotion FileTree FileCalls World VestibulePaths PlainLookups PlainCalls

structure MovedWhole (w w' : Disk) (s d : List Name) : Prop where
  gone : w'.tree.get s = none
  there : ∀ rest, w'.tree.get (d ++ rest) = w.tree.get (s ++ rest)
  elsewhere : ∀ loc, ¬ s <+: loc → ¬ d <+: loc → w'.tree.get loc = w.tree.get loc

/-- The directory at the Destination is out of the way, and both paths still lead where they led;
    or it cannot be removed and was empty. Where nothing is removed, the Destination must not lead
    to the source. -/
def Plan.MovesWhole (plan : Plan) (w : Disk) : Prop :=
  if plan.removes w then
    (w.tree.childless (placeOf w plan.dest) = true ∧
        ∀ n, plan.dest.steps.getLast? ≠ some (.name n)) ∨
      (¬ placeOf w plan.path <+: placeOf w plan.dest ∧
        ¬ placeOf w plan.dest <+: placeOf w plan.path ∧
        (∃ p n, Enters (w.without (placeOf w plan.dest)) plan.path p n) ∧
        ∃ p n, Enters (w.without (placeOf w plan.dest)) plan.dest p n)
  else w.lookup true plan.dest ≠ w.lookup true plan.path

section Outcomes
variable {w w' : Disk} {plan : Plan} {s d : List Name}

theorem moves_moved {w₁ : Disk} (moves : Moves w₁ w' s d) (outside : ¬ s <+: d) (above : ¬ d <+: s)
    (same : ∀ loc, ¬ d <+: loc → w₁.tree.get loc = w.tree.get loc) : MovedWhole w w' s d where
  gone := by
    rw [moves.get, if_neg above, if_pos List.prefix_rfl]
  there rest := by
    rw [moves.get, if_pos (List.prefix_append _ _), List.drop_left]
    apply same
    intro inside
    rcases List.prefix_or_prefix_of_prefix inside (List.prefix_append s rest) with up | down
    · exact above up
    · exact outside down
  elsewhere loc other aside := by
    rw [moves.get, if_neg aside, if_neg other, same loc aside]

theorem execute_move {listing : DiskListing} {fuel : Nat} {w₁ : Disk}
    (stage : plan.makeRoom w = (w₁, .ok ())) :
    plan.execute listing .move fuel w = some ((w₁.rename plan.path plan.dest).1,
      match (w₁.rename plan.path plan.dest).2 with
      | .ok _ => .status 201
      | .error _ => .failed) := by
  unfold Plan.execute
  rw [stage]
  simp only
  generalize w₁.rename plan.path plan.dest = result
  obtain ⟨w', r⟩ := result
  cases r <;> rfl

def Settled (w w' : Disk) (s d : List Name) (reply : Reply) : Prop :=
  reply.success = true ∧ MovedWhole w w' s d ∨
    reply.success = false ∧ ∀ loc, w'.tree.get loc = w.tree.get loc

theorem is_dir_node {node : Node Name UInt8} (dir : isDirNode node = true) : node = .dir := by
  cases node with
  | dir => rfl
  | file content => cases dir
  | link target => cases dir

theorem onto_itself (free : w.tree.LinkFree) (checked : plan.Checked w)
    (deep : plan.depth = .infinity) (found : w.lookup true plan.path = .ok s)
    (kept : plan.removes w = false) (onto : w.lookup true plan.dest = .ok s) :
    w.rename plan.path plan.dest = (w, .ok ()) := by
  obtain ⟨some_left, leads, slash⟩ := (lookup_ok_iff free).mp found
  obtain ⟨_, leads', slash'⟩ := (lookup_ok_iff free).mp onto
  have other : w.tree.isDir s = false := by
    by_contra dir
    have dir := Bool.not_eq_false _ ▸ dir
    have closed := kept_closed free checked kept (is_dir_path_iff.mpr ⟨s, found, dir⟩)
      (by simp [deep]) s leads'
    rw [dir] at closed
    cases closed
  obtain ⟨node, here⟩ := checked.source
  obtain ⟨loc, found', node_there⟩ := stat_ok_iff.mp here
  rw [found] at found'
  cases found'
  obtain ⟨p, n, whole, enters⟩ := leads_other leads some_left other
  obtain ⟨p', n', whole', enters'⟩ := leads_other leads' checked.some_left other
  obtain ⟨front, last⟩ := List.append_singleton_inj.mp (whole.symm.trans whole')
  subst front
  subst last
  apply rename_same free enters enters' (whole ▸ node_there)
  rw [Bool.or_eq_false_iff]
  constructor
  · cases ends : plan.path.slash with
    | false => rfl
    | true =>
      rw [slash ends] at other
      cases other
  · cases ends : plan.dest.slash with
    | false => rfl
    | true =>
      rw [slash' ends] at other
      cases other

theorem settled_unremoved (free : w.tree.LinkFree) (checked : plan.Checked w)
    (deep : plan.depth = .infinity) (found : w.lookup true plan.path = .ok s)
    (kept : plan.removes w = false) {listing : DiskListing} {fuel : Nat} {reply : Reply}
    (run : plan.execute listing .move fuel w = some (w', reply)) :
    Settled w w' s (placeOf w plan.dest) reply ↔ w.lookup true plan.dest ≠ .ok s := by
  rw [execute_move (make_room_kept kept)] at run
  constructor
  · intro settled onto
    rw [onto_itself free checked deep found kept onto] at run
    cases run
    rcases settled with ⟨_, moved⟩ | ⟨failed, _⟩
    · obtain ⟨node, here⟩ := checked.source
      obtain ⟨loc, found', there⟩ := stat_ok_iff.mp here
      rw [found] at found'
      cases found'
      rw [moved.gone] at there
      cases there
    · cases failed
  · intro apart
    rcases rename_cases free plan.path plan.dest with ⟨e, failed⟩ |
      ⟨p₁, n₁, p₂, n₂, node, first, second, here, slash, ok, outcome⟩
    · rw [failed] at run
      cases run
      exact .inr ⟨rfl, fun _ => rfl⟩
    · have source : p₁ ++ [n₁] = s := (enters_place first).trans (lookup_place free found).symm
      rw [source] at outcome here
      rcases outcome with ⟨same, _⟩ | ⟨outside, above, _, moves⟩
      · exfalso
        apply apart
        apply (lookup_ok_iff free).mpr
        refine ⟨checked.some_left, ?_, ?_⟩
        · rw [same]
          exact enters_leads second
        · intro ends
          rw [is_dir_iff, here, is_dir_node (slash (by simp [ends]))]
      · rw [ok] at run
        cases run
        rw [← enters_place second]
        exact .inl ⟨rfl, moves_moved moves outside above fun _ _ => rfl⟩

theorem without_enters_cleared {path : DiskPath} (inside : d ≠ []) {p : List Name} {n : Name}
    (enters : Enters (w.without d) path p n) : Enters (w.clearAt d) path p n := by
  have drops := without_drops (w := w) inside
  have clears := clear_at_clears (w := w) d
  have dirs : ∀ loc, (w.without d).tree.isDir loc = true → (w.clearAt d).tree.isDir loc = true := by
    intro loc dir
    rw [is_dir_iff, drops.get] at dir
    rw [is_dir_iff, clears.get]
    split at dir
    · cases dir
    · rename_i outside
      rw [if_neg fun below => outside below.1]
      exact dir
  exact enters_grows (clears.cwd.trans drops.cwd.symm) dirs enters

theorem drops_enters {w₁ w₂ : Disk} {path : DiskPath} (first : Drops w w₁ d)
    (second : Drops w w₂ d) {p : List Name} {n : Name} (enters : Enters w₁ path p n) :
    Enters w₂ path p n := by
  have dirs : ∀ loc, w₁.tree.isDir loc = true → w₂.tree.isDir loc = true := by
    intro loc dir
    rw [is_dir_iff, first.get] at dir
    rw [is_dir_iff, second.get]
    exact dir
  exact enters_grows (second.cwd.trans first.cwd.symm) dirs enters

/-- Once the Destination is gone, the rename alone decides. -/
theorem settled_dropped {w₁ : Disk} (free : w.tree.LinkFree)
    (found : w.lookup true plan.path = .ok s) (dirSource : w.tree.isDir s = true)
    (dir : w.tree.isDir d = true) (place : placeOf w plan.dest = d) (drops : Drops w w₁ d)
    (inside : d ≠ []) :
    Settled w (w₁.rename plan.path plan.dest).1 s d
        (match (w₁.rename plan.path plan.dest).2 with
        | .ok _ => .status 201
        | .error _ => .failed) ↔
      ¬ s <+: d ∧ ¬ d <+: s ∧ (∃ p n, Enters (w.without d) plan.path p n) ∧
        ∃ p n, Enters (w.without d) plan.dest p n := by
  have free₁ := drops_free drops free
  have again := without_drops (w := w) inside
  have source {p : List Name} {n : Name} (enters : Enters w₁ plan.path p n) : p ++ [n] = s := by
    rw [enters_place enters, place_same _ drops.cwd, lookup_place free found]
  have target {p : List Name} {n : Name} (enters : Enters w₁ plan.dest p n) : p ++ [n] = d := by
    rw [enters_place enters, place_same _ drops.cwd, place]
  constructor
  · intro settled
    rcases rename_cases free₁ plan.path plan.dest with ⟨e, failed⟩ |
      ⟨p₁, n₁, p₂, n₂, node, first, second, here, _, _, outcome⟩
    · -- a failed rename comes after the removal
      rw [failed] at settled
      rcases settled with ⟨success, _⟩ | ⟨_, unchanged⟩
      · cases success
      · have lost := unchanged d
        rw [drops.get, if_pos List.prefix_rfl, is_dir_iff.mp dir] at lost
        cases lost
    · rw [source first] at outcome here
      rw [target second] at outcome
      rcases outcome with ⟨same, _⟩ | ⟨outside, above, _, _⟩
      · rw [same, drops.get, if_pos List.prefix_rfl] at here
        cases here
      · exact ⟨outside, above, ⟨p₁, n₁, drops_enters drops again first⟩,
          p₂, n₂, drops_enters drops again second⟩
  · intro clean
    obtain ⟨outside, above, ⟨p₁, n₁, first⟩, p₂, n₂, second⟩ := clean
    have first := drops_enters again drops first
    have second := drops_enters again drops second
    have still : w₁.tree.get (p₁ ++ [n₁]) = some .dir := by
      rw [source first, drops.get, if_neg above]
      exact is_dir_iff.mp dirSource
    have missing : w₁.tree.get (p₂ ++ [n₂]) = none := by
      rw [target second, drops.get, if_pos List.prefix_rfl]
    have legal : FileName.legal n₂ = true :=
      w.tree.named p₂ n₂ .dir (by rw [target second]; exact is_dir_iff.mp dir)
    obtain ⟨ok, moves⟩ := rename_moves free₁ first second still missing
      (by rwa [source first, target second]) legal
    rw [source first, target second] at moves
    rw [ok]
    left
    refine ⟨rfl, moves_moved moves outside above ?_⟩
    intro loc aside
    rw [drops.get, if_neg aside]

theorem cleared_unchanged {w₁ : Disk} (clears : Clears w w₁ d) :
    (∀ loc, w₁.tree.get loc = w.tree.get loc) ↔ w.tree.childless d = true := by
  constructor
  · intro unchanged
    apply childless_iff.mpr
    intro rest more
    rw [← unchanged, clears.get, if_pos]
    exact ⟨List.prefix_append _ _, by simpa using more⟩
  · intro childless loc
    rw [clears.get]
    split
    · rename_i below
      obtain ⟨⟨rest, whole⟩, more⟩ := below
      subst whole
      symm
      apply childless_iff.mp childless
      intro bare
      exact more (by simp [bare])
    · rfl

theorem settled_removed (free : w.tree.LinkFree) (checked : plan.Checked w)
    (found : w.lookup true plan.path = .ok s) (removes : plan.removes w = true)
    {listing : DiskListing} {fuel : Nat} {reply : Reply}
    (run : plan.execute listing .move fuel w = some (w', reply)) :
    Settled w w' s (placeOf w plan.dest) reply ↔
      (w.tree.childless (placeOf w plan.dest) = true ∧
          ∀ n, plan.dest.steps.getLast? ≠ some (.name n)) ∨
        (¬ s <+: placeOf w plan.dest ∧ ¬ placeOf w plan.dest <+: s ∧
          (∃ p n, Enters (w.without (placeOf w plan.dest)) plan.path p n) ∧
          ∃ p n, Enters (w.without (placeOf w plan.dest)) plan.dest p n) := by
  obtain ⟨source, _, _, top, dir⟩ := removes_dirs free checked removes
  obtain ⟨s', found', dirSource⟩ := is_dir_path_iff.mp source
  rw [found] at found'
  cases found'
  -- a Destination that cannot be removed is not one that a clean rename goes to
  have named {p : List Name} {n : Name}
      (enters : Enters (w.without (placeOf w plan.dest)) plan.dest p n)
      (above : ¬ placeOf w plan.dest <+: s) :
      Enters (w.clearAt (placeOf w plan.dest)) plan.dest p n := by
    apply without_enters_cleared _ enters
    intro root
    rw [root] at above
    exact above List.nil_prefix
  rcases removal_cases free checked removes with ⟨ok, drops, p, n, enters⟩ |
    ⟨⟨e, failed⟩, clears, nameless⟩
  · have inside : placeOf w plan.dest ≠ [] := by
      rw [← place_same plan.dest (clear_at_clears (w := w) _).cwd, ← enters_place enters]
      simp
    have stage : plan.makeRoom w = ((w.removeDirAll plan.dest).1, .ok ()) := by
      rw [make_room_removes removes, ← ok]
    rw [execute_move stage] at run
    cases run
    rw [settled_dropped free found dirSource dir rfl drops inside]
    constructor
    · exact .inr
    · intro cond
      rcases cond with ⟨_, no⟩ | clean
      · exact absurd enters.1 (no n)
      · exact clean
  · have stage : plan.makeRoom w = ((w.removeDirAll plan.dest).1, .error e) := by
      rw [make_room_removes removes, ← failed]
    rw [execute_removal_failed stage] at run
    cases run
    have refused : Settled w (w.removeDirAll plan.dest).1 s (placeOf w plan.dest) (.status 500) ↔
        w.tree.childless (placeOf w plan.dest) = true := by
      rw [← cleared_unchanged clears]
      constructor
      · intro settled
        rcases settled with ⟨success, _⟩ | ⟨_, unchanged⟩
        · cases success
        · exact unchanged
      · intro unchanged
        exact .inr ⟨rfl, unchanged⟩
    rw [refused]
    constructor
    · intro childless
      refine .inl ⟨childless, ?_⟩
      intro n last
      have leads := leads_cleared childless ((lookup_ok_iff free).mp top).2.1
      obtain ⟨p, _, enters⟩ := leads_enters leads last
      exact nameless p n enters
    · intro cond
      rcases cond with ⟨childless, _⟩ | ⟨_, above, _, p, n, enters⟩
      · exact childless
      · exact absurd (named enters above) (nameless p n)

end Outcomes

def MoveAllOrNothing (uri : Bytes → Option Bytes) (listing : DiskListing) (w : Disk) (share : Share)
    (wantedPath : Bytes) (headers : Headers) : Prop :=
  ∀ fuel w' reply,
    handleCopy uri listing fuel w share wantedPath headers .move = some (w', reply) →
    (reply.success = true ∧ ∃ path dest s,
        extractPath wantedPath share.directory = .ok (some path) ∧
        wantedDest uri headers share.directory = some dest ∧ w.lookup true path = .ok s ∧
        MovedWhole w w' s (placeOf w dest)) ∨
      reply.success = false ∧ ∀ loc, w'.tree.get loc = w.tree.get loc

theorem move_depth {headers : Headers} {depth : Depth}
    (deep : copyDepth .move headers = some depth) : depth = .infinity := by
  unfold copyDepth at deep
  split at deep
  · exact (Option.some.inj deep).symm
  · exact (Option.some.inj deep).symm
  · cases deep
  · cases deep

theorem move_all_or_nothing_iff (uri : Bytes → Option Bytes) (listing : DiskListing) (w : Disk)
    (share : Share) (wantedPath : Bytes) (headers : Headers) (free : w.tree.LinkFree) :
    MoveAllOrNothing uri listing w share wantedPath headers ↔
      ∀ plan, planned uri w share wantedPath headers .move = .ok plan → plan.MovesWhole w := by
  unfold MoveAllOrNothing
  simp only [handle_copy_planned]
  cases plans : planned uri w share wantedPath headers .move with
  | error refusal =>
    constructor
    · intro _ plan same
      cases same
    · intro _ fuel w' reply run
      cases run
      exact .inr ⟨planned_refusals plans, fun _ => rfl⟩
  | ok plan =>
    obtain ⟨extracted, dest, deep, checked⟩ := planned_request plans
    have deep := move_depth deep
    obtain ⟨node, here⟩ := checked.source
    obtain ⟨s, found, _⟩ := stat_ok_iff.mp here
    have place := lookup_place free found
    have settles {fuel : Nat} {w' : Disk} {reply : Reply}
        (run : plan.execute listing .move fuel w = some (w', reply)) :
        Settled w w' s (placeOf w plan.dest) reply ↔ plan.MovesWhole w := by
      unfold Plan.MovesWhole
      cases removes : plan.removes w with
      | false =>
        rw [if_neg Bool.false_ne_true, found]
        exact settled_unremoved free checked deep found removes run
      | true =>
        rw [if_pos rfl, ← place]
        exact settled_removed free checked found removes run
    constructor
    · intro outcome plan' same
      cases same
      obtain ⟨w', reply, run⟩ : ∃ w' reply, plan.execute listing .move 0 w = some (w', reply) := by
        unfold Plan.execute
        split
        · exact ⟨_, _, rfl⟩
        · simp only
          split
          · exact ⟨_, _, rfl⟩
          · exact ⟨_, _, rfl⟩
      apply (settles run).mp
      rcases outcome 0 w' reply run with ⟨success, path, dest', s', extracted', dest₂, found', moved⟩ |
        failed
      · rw [extracted] at extracted'
        cases extracted'
        rw [dest] at dest₂
        cases dest₂
        rw [found] at found'
        cases found'
        exact .inl ⟨success, moved⟩
      · exact .inr failed
    · intro whole fuel w' reply run
      rcases (settles run).mpr (whole plan rfl) with ⟨success, moved⟩ | failed
      · exact .inl ⟨success, plan.path, plan.dest, s, extracted, dest, found, moved⟩
      · exact .inr failed

theorem sibling_move_settles : MoveAllOrNothing some Listing.asOpened nestedDisk openShare
    (utf8 "/a/b") [("destination", utf8 "/c")] := by
  apply (move_all_or_nothing_iff some Listing.asOpened nestedDisk openShare (utf8 "/a/b")
    [("destination", utf8 "/c")] nested_free).mpr
  intro plan plans
  have same : planned some nestedDisk openShare (utf8 "/a/b") [("destination", utf8 "/c")] .move =
      .ok ⟨pathOf (utf8 "/d/a/b"), pathOf (utf8 "/d/c"), true, .infinity, false, false⟩ := by
    decide
  rw [same] at plans
  cases plans
  unfold Plan.MovesWhole
  rw [if_neg (by decide)]
  decide

/-- A move to the directory above removes what it should move, and fails. -/
theorem move_to_parent_loses : ¬ MoveAllOrNothing some Listing.asOpened nestedDisk openShare
    (utf8 "/a/b") [("destination", utf8 "/a")] := by
  intro settles
  have failed : (handleCopy some Listing.asOpened 0 nestedDisk openShare (utf8 "/a/b")
      [("destination", utf8 "/a")] .move).map Prod.snd = some .failed := by
    decide
  have gone : (handleCopy some Listing.asOpened 0 nestedDisk openShare (utf8 "/a/b")
      [("destination", utf8 "/a")] .move).map (fun answer => answer.1.tree.get [[100], [97]]) =
      some none := by
    decide
  cases run : handleCopy some Listing.asOpened 0 nestedDisk openShare (utf8 "/a/b")
      [("destination", utf8 "/a")] .move with
  | none =>
    rw [run] at failed
    cases failed
  | some answer =>
    obtain ⟨w', reply⟩ := answer
    rw [run] at failed gone
    cases failed
    rcases settles 0 w' _ run with ⟨success, _⟩ | ⟨_, unchanged⟩
    · cases success
    · have before : nestedDisk.tree.get [[100], [97]] = some .dir := by decide
      have lost : w'.tree.get [[100], [97]] = none := Option.some.inj gone
      rw [unchanged, before] at lost
      cases lost

end VestibuleCopyMove
