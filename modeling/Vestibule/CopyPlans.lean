import Vestibule.CopyRuns

/-!
What the checks of COPY and MOVE establish before the first change.
-/
namespace VestibuleCopyMove
open VestibuleRust LexicalMotion FileTree FileCalls World VestibulePaths PlainLookups PlainCalls

/-- The checks of a request, from `handle` to the first change of `handle_copymove`. -/
def planned (uri : Bytes → Option Bytes) (w : Disk) (share : Share) (wantedPath : Bytes)
    (headers : Headers) (method : CopyMethod) : Except Reply Plan :=
  match gatedPath w share wantedPath with
  | .error reply => .error reply
  | .ok path =>
    if !share.writable then .error (.status 403)
    else if !pathExists w path then .error (.status 404)
    else checkCopymove uri w path headers method share.directory

def wantedDest (uri : Bytes → Option Bytes) (headers : Headers) (davPath : Bytes) :
    Option DiskPath :=
  match extractDest uri headers davPath with
  | .ok dest => dest
  | .error _ => none

def Reply.success : Reply → Bool
  | .status code => 200 ≤ code && code < 300
  | _ => false

structure Plan.Checked (plan : Plan) (w : Disk) : Prop where
  source : ∃ node, w.metadata plan.path = .ok node
  some_left : isBlank plan.dest = false
  present : plan.present = (w.symlinkMetadata plan.dest).isOk
  file : plan.destIsFile = VestibuleCopyMove.destIsFile w plan.dest
  allowed : plan.overwrite = true ∨ plan.present = false
  different : samePath plan.path plan.dest = false

section Requests
variable {uri : Bytes → Option Bytes} {w : Disk} {share : Share} {wantedPath : Bytes}
  {headers : Headers} {method : CopyMethod} {plan : Plan}

theorem handle_copy_planned (listing : DiskListing) (fuel : Nat) :
    handleCopy uri listing fuel w share wantedPath headers method =
      match planned uri w share wantedPath headers method with
      | .error reply => some (w, reply)
      | .ok plan => plan.execute listing method fuel w := by
  unfold handleCopy planned handleCopymove
  cases gatedPath w share wantedPath with
  | error reply => rfl
  | ok path =>
    by_cases closed : (!share.writable) = true
    · simp only [closed, ↓reduceIte]
    · by_cases gone : (!pathExists w path) = true
      · simp only [closed, gone, Bool.false_eq_true, ↓reduceIte]
      · cases answer : checkCopymove uri w path headers method share.directory with
        | error reply => simp only [closed, gone, answer, Bool.false_eq_true, ↓reduceIte]
        | ok plan => simp only [closed, gone, answer, Bool.false_eq_true, ↓reduceIte]

theorem path_exists_iff {path : DiskPath} :
    pathExists w path = true ↔ ∃ node, w.metadata path = .ok node := by
  unfold pathExists
  cases w.metadata path with
  | error e => simp [Except.isOk, Except.toBool]
  | ok node => simp [Except.isOk, Except.toBool]

theorem check_copymove_ok {path : DiskPath} {davPath : Bytes}
    (checks : checkCopymove uri w path headers method davPath = .ok plan) :
    plan.path = path ∧ extractDest uri headers davPath = .ok (some plan.dest) ∧
      copyDepth method headers = some plan.depth ∧
      (pathExists w path = true → plan.Checked w) := by
  unfold checkCopymove at checks
  simp only at checks
  split at checks
  · cases checks
  · rename_i depth deep
    split at checks
    · cases checks
    · cases checks
    · rename_i dest extracted
      split at checks
      · cases checks
      · rename_i above parent
        have some_left : isBlank dest = false := by
          cases blank : isBlank dest with
          | false => rfl
          | true =>
            simp only [isBlank, Bool.and_eq_true, Bool.not_eq_true', List.isEmpty_iff] at blank
            simp [VestibulePaths.parent, blank, trimHere] at parent
        split at checks
        · cases checks
        · split at checks
          · cases checks
          · rename_i allowed
            split at checks
            · cases checks
            · rename_i different
              cases checks
              refine ⟨rfl, extracted, deep, fun found => ?_⟩
              refine ⟨path_exists_iff.mp found, some_left, rfl, rfl, ?_, by simpa using different⟩
              simp only [Bool.and_eq_true, Bool.not_eq_true', not_and,
                Bool.not_eq_true] at allowed
              rcases Bool.eq_false_or_eq_true
                ((typedGet decodeOverwrite headers "overwrite").getD true) with yes | no
              · exact .inl yes
              · exact .inr (allowed no)

theorem planned_request (plans : planned uri w share wantedPath headers method = .ok plan) :
    extractPath wantedPath share.directory = .ok (some plan.path) ∧
      wantedDest uri headers share.directory = some plan.dest ∧
      copyDepth method headers = some plan.depth ∧ plan.Checked w := by
  unfold planned gatedPath at plans
  cases extracted : extractPath wantedPath share.directory with
  | error p =>
    rw [extracted] at plans
    cases plans
  | ok wanted =>
    rw [extracted] at plans
    cases wanted with
    | none => cases plans
    | some path =>
      simp only at plans
      split at plans
      · cases plans
      · rename_i path' admitted
        split at admitted
        · cases admitted
        · cases admitted
          split at plans
          · cases plans
          · split at plans
            · cases plans
            · rename_i found
              obtain ⟨same, dest, depth, checked⟩ := check_copymove_ok plans
              refine ⟨by rw [same], ?_, depth, checked (by simpa using found)⟩
              unfold wantedDest
              rw [dest]

end Requests

section Refusals
variable {uri : Bytes → Option Bytes} {w : Disk} {share : Share} {wantedPath : Bytes}
  {headers : Headers} {method : CopyMethod} {reply : Reply}

theorem gate_refusals (refused : gatedPath w share wantedPath = .error reply) :
    reply.success = false := by
  unfold gatedPath at refused
  repeat' split at refused
  all_goals cases refused
  all_goals rfl

theorem check_refusals {path : DiskPath} {davPath : Bytes}
    (refused : checkCopymove uri w path headers method davPath = .error reply) :
    reply.success = false := by
  unfold checkCopymove at refused
  simp only at refused
  repeat' split at refused
  all_goals cases refused
  all_goals rfl

theorem planned_refusals (refused : planned uri w share wantedPath headers method = .error reply) :
    reply.success = false := by
  unfold planned at refused
  split at refused
  · rename_i admitted
    cases refused
    exact gate_refusals admitted
  · split at refused
    · cases refused
      rfl
    · split at refused
      · cases refused
        rfl
      · exact check_refusals refused

end Refusals

section Kinds
variable {w : Disk} {path dest : DiskPath}

theorem lookup_follow (free : w.tree.LinkFree) (follow follow' : Bool) {loc : List Name} :
    w.lookup follow path = .ok loc ↔ w.lookup follow' path = .ok loc := by
  rw [lookup_ok_iff free, lookup_ok_iff free]

theorem is_dir_path_iff :
    isDir w path = true ↔ ∃ loc, w.lookup true path = .ok loc ∧ w.tree.isDir loc = true := by
  unfold isDir
  constructor
  · intro dir
    split at dir
    · rename_i node found
      obtain ⟨loc, leads, here⟩ := stat_ok_iff.mp found
      cases node with
      | dir => exact ⟨loc, leads, is_dir_iff.mpr here⟩
      | file content => cases dir
      | link target => cases dir
    · cases dir
  · intro dir
    obtain ⟨loc, leads, here⟩ := dir
    have node : w.metadata path = .ok .dir := stat_ok_iff.mpr ⟨loc, leads, is_dir_iff.mp here⟩
    rw [node]
    rfl

theorem present_iff (free : w.tree.LinkFree) :
    (w.symlinkMetadata dest).isOk = true ↔
      ∃ loc node, w.lookup true dest = .ok loc ∧ w.tree.get loc = some node := by
  constructor
  · intro ok
    cases found : w.symlinkMetadata dest with
    | error e =>
      rw [found] at ok
      cases ok
    | ok node =>
      obtain ⟨loc, leads, here⟩ := stat_ok_iff.mp found
      exact ⟨loc, node, (lookup_follow free false true).mp leads, here⟩
  · intro found
    obtain ⟨loc, node, leads, here⟩ := found
    have meta_node : w.symlinkMetadata dest = .ok node :=
      stat_ok_iff.mpr ⟨loc, (lookup_follow free true false).mp leads, here⟩
    rw [meta_node]
    rfl

theorem dest_is_file_iff (free : w.tree.LinkFree) :
    destIsFile w dest = true ↔
      ∃ loc content, w.lookup true dest = .ok loc ∧ w.tree.get loc = some (.file content) := by
  unfold destIsFile
  constructor
  · intro file
    split at file
    · cases file
    · rename_i target found
      obtain ⟨loc, _, here⟩ := stat_ok_iff.mp found
      exact absurd here (free loc target)
    · rename_i node _ found
      obtain ⟨loc, leads, here⟩ := stat_ok_iff.mp found
      cases node with
      | dir => cases file
      | link target => cases file
      | file content => exact ⟨loc, content, (lookup_follow free false true).mp leads, here⟩
  · intro found
    obtain ⟨loc, content, leads, here⟩ := found
    have node : w.symlinkMetadata dest = .ok (.file content) :=
      stat_ok_iff.mpr ⟨loc, (lookup_follow free true false).mp leads, here⟩
    rw [node]
    rfl

end Kinds

section Plans
variable {w w' : Disk} {plan : Plan} {listing : DiskListing} {fuel : Nat} {reply : Reply}

theorem lookup_place (free : w.tree.LinkFree) {follow : Bool} {path : DiskPath} {loc : List Name}
    (found : w.lookup follow path = .ok loc) : loc = placeOf w path :=
  leads_place ((lookup_ok_iff free).mp found).2.1

theorem make_room_kept (kept : plan.removes w = false) : plan.makeRoom w = (w, .ok ()) := by
  unfold Plan.makeRoom
  rw [kept]
  rfl

theorem make_room_removes (removes : plan.removes w = true) :
    plan.makeRoom w = w.removeDirAll plan.dest := by
  unfold Plan.makeRoom
  rw [if_pos removes]

theorem execute_copy_cases (run : plan.execute listing .copy fuel w = some (w', reply)) :
    ∃ w₁ removed, plan.makeRoom w = (w₁, removed) ∧
      ((∃ e, removed = .error e ∧ w' = w₁ ∧ reply = .status 500) ∨
        removed = .ok () ∧ ∃ r, doCopy listing fuel w₁ plan.path plan.dest plan.dest
          (!plan.destIsFile) plan.depth = some (w', r) ∧
          ((∃ e, r = .error e ∧ reply = .failed) ∨ r = .ok () ∧
            reply = .status (if plan.overwrite && plan.present then 204 else 201))) := by
  unfold Plan.execute at run
  split at run
  · rename_i w₁ e removed
    cases run
    exact ⟨_, _, removed, .inl ⟨e, rfl, rfl, rfl⟩⟩
  · rename_i w₁ done removed
    refine ⟨w₁, _, removed, .inr ⟨rfl, ?_⟩⟩
    simp only at run
    split at run
    · cases run
    · rename_i w₂ e copied
      cases run
      exact ⟨_, copied, .inl ⟨e, rfl, rfl⟩⟩
    · rename_i w₂ copied
      cases run
      exact ⟨_, copied, .inr ⟨rfl, rfl⟩⟩

theorem execute_copy_answers {w₁ : Disk} {r : Except FsError Unit}
    (stage : plan.makeRoom w = (w₁, .ok ()))
    (run : doCopy listing fuel w₁ plan.path plan.dest plan.dest (!plan.destIsFile) plan.depth =
      some (w', r)) :
    plan.execute listing .copy fuel w = some (w', match r with
      | .ok _ => .status (if plan.overwrite && plan.present then 204 else 201)
      | .error _ => .failed) := by
  unfold Plan.execute
  rw [stage]
  simp only [run]
  cases r <;> rfl

theorem execute_removal_failed {method : CopyMethod} {w₁ : Disk} {e : FsError}
    (stage : plan.makeRoom w = (w₁, .error e)) :
    plan.execute listing method fuel w = some (w₁, .status 500) := by
  unfold Plan.execute
  rw [stage]

theorem removes_dirs (free : w.tree.LinkFree) (checked : plan.Checked w)
    (removes : plan.removes w = true) :
    isDir w plan.path = true ∧ plan.overwrite = true ∧ plan.depth ≠ .zero ∧
      w.lookup true plan.dest = .ok (placeOf w plan.dest) ∧
      w.tree.isDir (placeOf w plan.dest) = true := by
  simp only [Plan.removes, Bool.and_eq_true, decide_eq_true_eq, Bool.not_eq_true', ne_eq] at removes
  obtain ⟨⟨⟨⟨source, allowed⟩, present⟩, more⟩, other⟩ := removes
  rw [checked.present] at present
  obtain ⟨loc, node, found, here⟩ := (present_iff free).mp present
  have place := lookup_place free found
  subst place
  refine ⟨source, allowed, more, found, ?_⟩
  cases node with
  | dir => exact is_dir_iff.mpr here
  | link target => exact absurd here (free _ target)
  | file content =>
    have file := (dest_is_file_iff free).mpr ⟨_, content, found, here⟩
    rw [checked.file, file] at other
    cases other

theorem removal_cases (free : w.tree.LinkFree) (checked : plan.Checked w)
    (removes : plan.removes w = true) :
    ((w.removeDirAll plan.dest).2 = .ok () ∧
        Drops w (w.removeDirAll plan.dest).1 (placeOf w plan.dest) ∧
        ∃ p n, Enters (w.clearAt (placeOf w plan.dest)) plan.dest p n) ∨
      ((∃ e, (w.removeDirAll plan.dest).2 = .error e) ∧
        Clears w (w.removeDirAll plan.dest).1 (placeOf w plan.dest) ∧
        ∀ p n, ¬ Enters (w.clearAt (placeOf w plan.dest)) plan.dest p n) := by
  obtain ⟨_, _, _, found, dir⟩ := removes_dirs free checked removes
  have found := (lookup_follow free true false).mp found
  by_cases enters : ∃ p n, Enters (w.clearAt (placeOf w plan.dest)) plan.dest p n
  · left
    obtain ⟨p, n, named⟩ := enters
    obtain ⟨ok, drops⟩ := remove_dir_all_drops free found dir named
    exact ⟨ok, drops, p, n, named⟩
  · right
    have no : ∀ p n, ¬ Enters (w.clearAt (placeOf w plan.dest)) plan.dest p n :=
      fun p n named => enters ⟨p, n, named⟩
    obtain ⟨failed, clears⟩ := remove_dir_all_clears free found dir no
    exact ⟨failed, clears, no⟩

theorem kept_closed (free : w.tree.LinkFree) (checked : plan.Checked w)
    (kept : plan.removes w = false) (source : isDir w plan.path = true)
    (more : plan.depth ≠ .zero) :
    ∀ loc, Leads w plan.dest loc → w.tree.isDir loc = false := by
  intro loc leads
  by_contra other
  have dir := Bool.not_eq_false _ ▸ other
  have found : w.lookup true plan.dest = .ok loc :=
    (lookup_ok_iff free).mpr ⟨checked.some_left, leads, fun _ => dir⟩
  have present := (present_iff free).mpr ⟨loc, .dir, found, is_dir_iff.mp dir⟩
  have plain : plan.destIsFile = false := by
    rw [checked.file]
    by_contra file
    obtain ⟨loc', content, found', here⟩ := (dest_is_file_iff free).mp (Bool.not_eq_false _ ▸ file)
    rw [found] at found'
    cases found'
    rw [is_dir_iff.mp dir] at here
    cases here
  rcases checked.allowed with allowed | absent
  · simp [Plan.removes, source, allowed, checked.present, present, more, plain] at kept
  · rw [checked.present, present] at absent
    cases absent

end Plans
end VestibuleCopyMove
