import Vestibule.FileCalls

/-!
Files seen through a function of their contents. No call looks into a file, so where the function
leaves the empty file empty, the calls commute with it, errors included.
-/
namespace FileTree
open LexicalMotion
variable {N β γ : Type}

def Node.mapFile (f : List β → List γ) : Node N β → Node N γ
  | .dir => .dir
  | .file content => .file (f content)
  | .link target => .link target

section Nodes
variable {f : List β → List γ} {node : Node N β}

@[simp] theorem map_file_dir : (Node.dir : Node N β).mapFile f = .dir := rfl

@[simp] theorem map_file_file (content : List β) :
    (Node.file content : Node N β).mapFile f = .file (f content) := rfl

@[simp] theorem map_file_link (target : Path N) :
    (Node.link target : Node N β).mapFile f = .link target := rfl

theorem map_file_is_dir : node.mapFile f = .dir ↔ node = .dir := by cases node <;> simp

end Nodes

variable [FileName N]

theorem tree_same {t t' : Tree N β} (get : ∀ loc, t.get loc = t'.get loc)
    (support : t.support = t'.support) : t = t' := by
  cases t
  cases t'
  have nodes := funext get
  dsimp only at nodes support
  subst nodes support
  rfl

def Tree.mapFiles (f : List β → List γ) (t : Tree N β) : Tree N γ where
  get loc := (t.get loc).map (Node.mapFile f)
  support := t.support
  root := by rw [t.root, Option.map_some, map_file_dir]
  closed loc n node found := by
    obtain ⟨before, here, _⟩ := Option.map_eq_some_iff.mp found
    rw [t.closed loc n before here, Option.map_some, map_file_dir]
  finite loc node found := by
    obtain ⟨before, here, _⟩ := Option.map_eq_some_iff.mp found
    exact t.finite loc before here
  named loc n node found := by
    obtain ⟨before, here, _⟩ := Option.map_eq_some_iff.mp found
    exact t.named loc n before here

section Trees
variable {f : List β → List γ} {t : Tree N β}

@[simp] theorem map_files_get (loc : List N) :
    (t.mapFiles f).get loc = (t.get loc).map (Node.mapFile f) := rfl

@[simp] theorem map_files_support : (t.mapFiles f).support = t.support := rfl

@[simp] theorem map_files_is_dir (loc : List N) : (t.mapFiles f).isDir loc = t.isDir loc := by
  rw [Bool.eq_iff_iff, is_dir_iff, is_dir_iff, map_files_get, Option.map_eq_some_iff]
  constructor
  · rintro ⟨node, here, same⟩
    rw [here, map_file_is_dir.mp same]
  · intro here
    exact ⟨.dir, here, rfl⟩

theorem map_files_writable {p : List N} {n : N} :
    (t.mapFiles f).Writable p n ↔ t.Writable p n := by
  simp [Tree.Writable]

theorem map_files_movable {s p : List N} {n : N} :
    (t.mapFiles f).Movable s p n ↔ t.Movable s p n := by
  constructor
  · intro fits
    exact ⟨fits.source, fits.outside, fits.above, map_files_is_dir p ▸ fits.parent, fits.legal⟩
  · intro fits
    exact ⟨fits.source, fits.outside, fits.above, (map_files_is_dir p).symm ▸ fits.parent, fits.legal⟩

variable [DecidableEq N]

@[simp] theorem map_files_childless (top : List N) :
    (t.mapFiles f).childless top = t.childless top := by
  unfold Tree.childless
  simp

theorem map_files_put (p : List N) (n : N) (node : Node N β) (fits : t.Writable p n)
    (fits' : (t.mapFiles f).Writable p n) :
    (t.mapFiles f).put p n (node.mapFile f) fits' = (t.put p n node fits).mapFiles f := by
  refine tree_same (fun loc => ?_) rfl
  rw [map_files_get, put_get, put_get]
  split
  · rfl
  · rfl

theorem map_files_clear (top : List N) : (t.mapFiles f).clear top = (t.clear top).mapFiles f := by
  refine tree_same (fun loc => ?_) rfl
  rw [map_files_get, clear_get, clear_get]
  split
  · rfl
  · rfl

theorem map_files_drop (top : List N) (inside : top ≠ []) :
    (t.mapFiles f).drop top inside = (t.drop top inside).mapFiles f := by
  refine tree_same (fun loc => ?_) rfl
  rw [map_files_get, drop_get, drop_get]
  split
  · rfl
  · rfl

theorem map_files_move (s p : List N) (n : N) (fits : t.Movable s p n)
    (fits' : (t.mapFiles f).Movable s p n) :
    (t.mapFiles f).move s p n fits' = (t.move s p n fits).mapFiles f := by
  refine tree_same (fun loc => ?_) rfl
  rw [map_files_get, move_get, move_get]
  split
  · rfl
  · split
    · rfl
    · rfl

end Trees
end FileTree

namespace FileCalls
open LexicalMotion FileTree
variable {N β γ : Type} [FileName N] {f : List β → List γ}

section Walks
variable {t : Tree N β} {follow : Bool}

theorem walk_steps_map (onLink : List N → List (Step N) → Except FsError (List N)) (base : List N)
    (steps : List (Step N)) :
    walkSteps (t.mapFiles f) follow onLink base steps = walkSteps t follow onLink base steps := by
  induction steps generalizing base with
  | nil => simp [walkSteps]
  | cons s rest ih =>
    unfold walkSteps
    rw [map_files_get]
    cases t.get base with
    | none => rfl
    | some node =>
      cases node with
      | dir =>
        cases s with
        | here => exact ih base
        | up => exact ih base.dropLast
        | name n =>
          simp only [Option.map_some, map_file_dir, map_files_get]
          cases t.get (base ++ [n]) with
          | none => exact ih _
          | some entry =>
            cases entry with
            | dir => exact ih _
            | file content => exact ih _
            | link target => rfl
      | file content => rfl
      | link target => rfl

theorem walk_map (budget : Nat) (base : List N) (steps : List (Step N)) :
    walk (t.mapFiles f) follow budget base steps = walk t follow budget base steps := by
  induction budget generalizing base steps with
  | zero => exact walk_steps_map _ base steps
  | succ budget ih =>
    have same : walk (t.mapFiles f) follow budget = walk t follow budget :=
      funext fun base => funext fun steps => ih base steps
    unfold walk
    rw [same, walk_steps_map]

end Walks

namespace World

def mapFiles (f : List β → List γ) (w : World N β) : World N γ := ⟨w.tree.mapFiles f, w.cwd, w.touched⟩

@[simp] theorem map_files_tree (w : World N β) : (w.mapFiles f).tree = w.tree.mapFiles f := rfl

@[simp] theorem map_files_touched (w : World N β) : (w.mapFiles f).touched = w.touched := rfl

def mapCall {α : Type} (f : List β → List γ) (call : World N β × α) : World N γ × α :=
  (call.1.mapFiles f, call.2)

@[simp] theorem map_call_pair {α : Type} (w : World N β) (a : α) :
    mapCall f (w, a) = (w.mapFiles f, a) := rfl

omit [FileName N] in
@[simp] theorem is_dir_node_map (node : Node N β) : isDirNode (node.mapFile f) = isDirNode node := by
  cases node <;> rfl

section Reading
variable {w : World N β} {path : Path N} {follow : Bool}

@[simp] theorem full_steps_map : (w.mapFiles f).fullSteps path = w.fullSteps path := rfl

@[simp] theorem lookup_map : (w.mapFiles f).lookup follow path = w.lookup follow path := by
  unfold lookup
  simp only [map_files_tree, walk_map, full_steps_map, map_files_is_dir]

@[simp] theorem stat_map : (w.mapFiles f).stat follow path = (w.stat follow path).map (Node.mapFile f) := by
  unfold stat
  rw [lookup_map]
  cases w.lookup follow path with
  | error e => rfl
  | ok loc =>
    simp only [map_files_tree, map_files_get]
    cases w.tree.get loc with
    | none => rfl
    | some node => rfl

@[simp] theorem metadata_map : (w.mapFiles f).metadata path = (w.metadata path).map (Node.mapFile f) :=
  stat_map

@[simp] theorem symlink_metadata_map :
    (w.mapFiles f).symlinkMetadata path = (w.symlinkMetadata path).map (Node.mapFile f) := stat_map

@[simp] theorem canonicalize_map : (w.mapFiles f).canonicalize path = w.canonicalize path := by
  unfold canonicalize
  rw [metadata_map, lookup_map]
  cases w.metadata path with
  | error e => rfl
  | ok node => rfl

@[simp] theorem entry_map : (w.mapFiles f).entry path = w.entry path := by
  unfold entry
  simp only [map_files_tree, walk_map, full_steps_map, map_files_is_dir, map_files_get, Option.isNone_map]

variable [DecidableEq N] in
@[simp] theorem entries_map {t : Tree N β} {loc : List N} : entries (t.mapFiles f) loc = entries t loc := by
  unfold entries
  simp

end Reading

section Changing
variable [DecidableEq N] {w : World N β} {path : Path N}

theorem put_at_map (p : List N) (n : N) (node : Node N β) :
    (w.mapFiles f).putAt p n (node.mapFile f) = mapCall f (w.putAt p n node) := by
  unfold putAt
  by_cases fits : w.tree.Writable p n
  · have fits' : (w.mapFiles f).tree.Writable p n := map_files_writable.mpr fits
    rw [dif_pos fits, dif_pos fits', map_call_pair]
    have same := map_files_put (f := f) p n node fits fits'
    unfold mapFiles at same ⊢
    rw [same]
  · have other : ¬ (w.mapFiles f).tree.Writable p n := fun fits' => fits (map_files_writable.mp fits')
    rw [dif_neg fits, dif_neg other, map_call_pair]

theorem create_dir_map : (w.mapFiles f).createDir path = mapCall f (w.createDir path) := by
  unfold createDir
  rw [entry_map]
  cases w.entry path with
  | error e => rfl
  | ok found =>
    obtain ⟨p, last⟩ := found
    cases last with
    | none => rfl
    | some n =>
      simp only [map_files_tree, map_files_get, Option.isSome_map]
      split
      · rfl
      · exact put_at_map p n .dir

theorem open_truncated_map (blank : f [] = []) :
    (w.mapFiles f).openTruncated path = mapCall f (w.openTruncated path) := by
  unfold openTruncated
  rw [lookup_map]
  split
  · rfl
  · cases w.lookup true path with
    | error e => rfl
    | ok loc =>
      simp only [map_files_tree, map_files_is_dir]
      split
      · rfl
      · cases loc.getLast? with
        | none => rfl
        | some n =>
          have put := put_at_map (f := f) (w := w) loc.dropLast n (.file [])
          rw [map_file_file, blank] at put
          simp only [put]
          rcases w.putAt loc.dropLast n (.file []) with ⟨w₁, _ | _⟩
          · rfl
          · rfl

theorem copy_file_map (blank : f [] = []) (source dest : Path N) :
    (w.mapFiles f).copyFile source dest = mapCall f (w.copyFile source dest) := by
  unfold copyFile
  rw [lookup_map, metadata_map, open_truncated_map blank]
  cases w.lookup true source with
  | error e => rfl
  | ok loc =>
    cases w.metadata source with
    | error e => rfl
    | ok node =>
      cases node with
      | dir => rfl
      | link target => rfl
      | file content =>
        simp only [Except.map, map_file_file]
        rcases w.openTruncated dest with ⟨w₁, _ | ⟨p, n⟩⟩
        · rfl
        · simp only [map_call_pair, map_files_tree, map_files_get]
          cases w₁.tree.get loc with
          | none => rfl
          | some node =>
            cases node with
            | dir => rfl
            | link target => rfl
            | file content =>
              exact put_at_map (w := { w₁ with touched := w₁.touched ++ [loc] }) p n (.file content)

theorem drop_at_map (p : List N) (n : N) : (w.mapFiles f).dropAt p n = (w.dropAt p n).mapFiles f := by
  unfold dropAt mapFiles
  rw [map_files_drop]

theorem remove_file_map : (w.mapFiles f).removeFile path = mapCall f (w.removeFile path) := by
  unfold removeFile
  rw [entry_map]
  cases w.entry path with
  | error e => rfl
  | ok found =>
    obtain ⟨p, last⟩ := found
    cases last with
    | none => rfl
    | some n =>
      simp only [map_files_tree, map_files_get, drop_at_map]
      cases w.tree.get (p ++ [n]) with
      | none => rfl
      | some node =>
        cases node with
        | dir => rfl
        | file content => cases path.slash <;> rfl
        | link target => cases path.slash <;> rfl

theorem remove_dir_map : (w.mapFiles f).removeDir path = mapCall f (w.removeDir path) := by
  unfold removeDir
  rw [entry_map]
  cases w.entry path with
  | error e => rfl
  | ok found =>
    obtain ⟨p, last⟩ := found
    cases last with
    | none => rfl
    | some n =>
      simp only [map_files_tree, map_files_get, drop_at_map, map_files_childless]
      cases w.tree.get (p ++ [n]) with
      | none => rfl
      | some node =>
        cases node with
        | dir => cases w.tree.childless (p ++ [n]) <;> rfl
        | file content => rfl
        | link target => rfl

theorem clear_at_map (top : List N) : (w.mapFiles f).clearAt top = (w.clearAt top).mapFiles f := by
  unfold clearAt mapFiles
  rw [map_files_clear]
  simp only [map_files_support, map_files_get, Option.isSome_map]

theorem remove_dir_all_map : (w.mapFiles f).removeDirAll path = mapCall f (w.removeDirAll path) := by
  unfold removeDirAll
  rw [lookup_map]
  cases w.lookup false path with
  | error e => rfl
  | ok loc =>
    simp only [map_files_tree, map_files_get]
    cases w.tree.get loc with
    | none => rfl
    | some node =>
      cases node with
      | dir => rw [Option.map_some, map_file_dir, clear_at_map, remove_dir_map]
      | file content => rfl
      | link target => exact remove_file_map

theorem rename_at_map (slash : Bool) (p₁ : List N) (n₁ : N) (p₂ : List N) (n₂ : N) :
    (w.mapFiles f).renameAt slash p₁ n₁ p₂ n₂ = mapCall f (w.renameAt slash p₁ n₁ p₂ n₂) := by
  unfold renameAt
  by_cases fits : w.tree.Movable (p₁ ++ [n₁]) p₂ n₂
  · have fits' : (w.mapFiles f).tree.Movable (p₁ ++ [n₁]) p₂ n₂ := map_files_movable.mpr fits
    have moved : (w.mapFiles f).tree.move (p₁ ++ [n₁]) p₂ n₂ fits' =
        (w.tree.move (p₁ ++ [n₁]) p₂ n₂ fits).mapFiles f := map_files_move _ _ _ fits fits'
    simp only [dif_pos fits, dif_pos fits', moved]
    simp only [map_files_tree, map_files_get]
    cases w.tree.get (p₁ ++ [n₁]) with
    | none => rfl
    | some node =>
      simp only [Option.map_some, is_dir_node_map, map_files_is_dir, map_files_childless, Option.isSome_map]
      repeat' split
      all_goals rfl
  · have other : ¬ (w.mapFiles f).tree.Movable (p₁ ++ [n₁]) p₂ n₂ :=
      fun fits' => fits (map_files_movable.mp fits')
    simp only [dif_neg fits, dif_neg other]
    simp only [map_files_tree, map_files_get]
    cases w.tree.get (p₁ ++ [n₁]) with
    | none => rfl
    | some node =>
      simp only [Option.map_some, is_dir_node_map, map_files_is_dir, map_files_childless, Option.isSome_map]
      repeat' split
      all_goals rfl

theorem rename_map (source dest : Path N) :
    (w.mapFiles f).rename source dest = mapCall f (w.rename source dest) := by
  unfold rename
  rw [entry_map, entry_map]
  cases w.entry source with
  | error e => rfl
  | ok from₁ =>
    cases w.entry dest with
    | error e => rfl
    | ok to₂ =>
      obtain ⟨p₁, _ | n₁⟩ := from₁
      · obtain ⟨p₂, _ | n₂⟩ := to₂ <;> rfl
      · obtain ⟨p₂, _ | n₂⟩ := to₂
        · rfl
        · exact rename_at_map _ p₁ n₁ p₂ n₂

end Changing
end World
end FileCalls
