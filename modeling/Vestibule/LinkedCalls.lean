import Vestibule.LinkedLookups
import Vestibule.PlainCalls

/-!
The paths of calls in a tree with symbolic links: what a path leads to, which entry it names, and
what of this stays when the tree grows.
-/
namespace LinkedCalls
open LexicalMotion FileTree FileCalls World PlainLookups PlainCalls LinkedLookups
variable {N β : Type} [FileName N]

section Lookups
variable {w w' : World N β} {path : Path N} {follow : Bool} {p loc : List N} {n : N}

theorem lookup_route_iff : w.lookup follow path = .ok loc ↔
    isBlank path = false ∧
      Route w.tree (follow || path.slash) linkBudget [] (w.fullSteps path) loc ∧
      (path.slash = true → w.tree.isDir loc = true) := by
  rw [lookup_walk_iff, walk_ok_iff]

theorem entry_route_iff : w.entry path = .ok (p, some n) ↔
    path.steps.getLast? = some (.name n) ∧
      Route w.tree true linkBudget [] (w.fullSteps { path with steps := path.steps.dropLast }) p ∧
      w.tree.isDir p = true := by
  rw [entry_walk_iff, walk_ok_iff]

theorem not_linked_dir {t : Tree N β} (dir : t.isDir loc = true) : ¬ Linked t loc :=
  dir_not_linked (is_dir_iff.mp dir)

theorem metadata_plain {node : Node N β} (found : w.metadata path = .ok node) (target : Path N) :
    node ≠ .link target := by
  intro link
  obtain ⟨loc, led, here⟩ := stat_ok_iff.mp found
  obtain ⟨_, route, _⟩ := lookup_route_iff.mp led
  exact route_ends_plain route (dir_not_linked w.tree.root) ⟨target, link ▸ here⟩

theorem not_linked_missing {t : Tree N β} (missing : t.get loc = none) : ¬ Linked t loc := by
  intro linked
  obtain ⟨target, here⟩ := linked
  rw [missing] at here
  cases here

theorem not_linked_file {t : Tree N β} {content : List β}
    (file : t.get loc = some (.file content)) : ¬ Linked t loc := by
  intro linked
  obtain ⟨target, here⟩ := linked
  rw [file] at here
  cases here

theorem entry_lookup (found : w.entry path = .ok (p, some n)) (plain : path.slash = false)
    (final : follow = false ∨ ¬ Linked w.tree (p ++ [n])) :
    w.lookup follow path = .ok (p ++ [n]) := by
  obtain ⟨last, front, dir⟩ := entry_route_iff.mp found
  have some_left : path.steps ≠ [] := by
    intro nothing
    rw [nothing] at last
    cases last
  refine lookup_route_iff.mpr ⟨by simp [isBlank, some_left], ?_, by simp [plain]⟩
  rw [full_steps_last last, plain, Bool.or_false]
  exact route_concat front (is_dir_iff.mp dir) final

theorem lookup_entry (found : w.lookup follow path = .ok loc)
    (entry : w.entry path = .ok (p, some n))
    (final : (follow || path.slash) = false ∨ ¬ Linked w.tree (p ++ [n])) : loc = p ++ [n] := by
  obtain ⟨last, front, _⟩ := entry_route_iff.mp entry
  obtain ⟨_, route, _⟩ := lookup_route_iff.mp found
  rw [full_steps_last last] at route
  obtain ⟨mid, left, front', back⟩ := route_split _ _ _ route
  rw [route_unique front' front] at back
  exact route_last back final

theorem lookup_other (found : w.lookup follow path = .ok loc) (other : w.tree.isDir loc = false) :
    path.slash = false ∧ ∃ p n, w.entry path = .ok (p, some n) := by
  obtain ⟨some_left, route, slash⟩ := lookup_route_iff.mp found
  have plain : path.slash = false := by
    cases ends : path.slash with
    | false => rfl
    | true =>
      rw [slash ends] at other
      cases other
  refine ⟨plain, ?_⟩
  cases last : path.steps.getLast? with
  | none =>
    have bare := List.getLast?_eq_none_iff.mp last
    have rooted : path.absolute = true := by simpa [isBlank, bare] using some_left
    unfold fullSteps at route
    rw [if_pos rooted, bare] at route
    cases route
    rw [is_dir_iff.mpr w.tree.root] at other
    cases other
  | some s =>
    rw [full_steps_last last] at route
    obtain ⟨mid, left, front, back⟩ := route_split _ _ _ route
    have dir := is_dir_iff.mpr (route_base_dir back)
    cases s with
    | here =>
      cases back with
      | here _ rest =>
        cases rest
        rw [dir] at other
        cases other
    | up =>
      cases back with
      | up _ rest =>
        cases rest
        rw [drop_last_is_dir dir] at other
        cases other
    | name n => exact ⟨mid, n, entry_route_iff.mpr ⟨last, front, dir⟩⟩

theorem lookup_linked (found : w.lookup false path = .ok loc) (linked : Linked w.tree loc) :
    path.slash = false ∧ ∃ p n, w.entry path = .ok (p, some n) ∧ loc = p ++ [n] := by
  have other : w.tree.isDir loc = false := by
    by_contra dir
    exact not_linked_dir (Bool.not_eq_false _ ▸ dir) linked
  obtain ⟨plain, p, n, entry⟩ := lookup_other found other
  exact ⟨plain, p, n, entry, lookup_entry found entry (.inl (by simp [plain]))⟩

theorem route_not_linked {t : Tree N β} {budget : Nat} {base : List N} {steps : List (Step N)}
    (route : Route t true budget base steps loc) (plain : ¬ Linked t base) : ¬ Linked t loc := by
  induction route with
  | done => exact plain
  | here _ _ ih => exact ih plain
  | up dir _ ih => exact ih (not_linked_dir (drop_last_is_dir (is_dir_iff.mpr dir)))
  | plain _ other _ ih => exact ih other
  | last _ _ stays _ => cases stays
  | link dir _ _ _ ih =>
    apply ih
    split
    · exact not_linked_dir (is_dir_iff.mpr t.root)
    · exact not_linked_dir (is_dir_iff.mpr dir)

theorem lookup_not_linked (found : w.lookup true path = .ok loc) : ¬ Linked w.tree loc := by
  obtain ⟨_, route, _⟩ := lookup_route_iff.mp found
  rw [Bool.true_or] at route
  exact route_not_linked route (not_linked_dir (is_dir_iff.mpr w.tree.root))

theorem lookup_followed (found : w.lookup false path = .ok loc) (plain : ¬ Linked w.tree loc) :
    w.lookup true path = .ok loc := by
  obtain ⟨some_left, route, ends⟩ := lookup_route_iff.mp found
  refine lookup_route_iff.mpr ⟨some_left, ?_, ends⟩
  rw [Bool.true_or]
  cases slash : path.slash with
  | true => rwa [slash] at route
  | false =>
    rw [slash] at route
    exact route_follow route plain

theorem lookup_unfollowed (found : w.lookup true path = .ok loc) (there : w.tree.get loc ≠ none) :
    ∃ loc' node, w.lookup false path = .ok loc' ∧ w.tree.get loc' = some node := by
  obtain ⟨some_left, route, ends⟩ := lookup_route_iff.mp found
  rw [Bool.true_or] at route
  cases slash : path.slash with
  | true =>
    obtain ⟨node, here⟩ := Option.ne_none_iff_exists'.mp there
    refine ⟨loc, node, lookup_route_iff.mpr ⟨some_left, ?_, ends⟩, here⟩
    rw [slash]
    exact route
  | false =>
    obtain ⟨loc', route', left⟩ := route_unfollowed route there
    obtain ⟨node, here⟩ := Option.ne_none_iff_exists'.mp left
    refine ⟨loc', node, lookup_route_iff.mpr ⟨some_left, ?_, by simp [slash]⟩, here⟩
    rw [slash]
    exact route'

theorem entry_extends (cwd : w'.cwd = w.cwd) (more : Extends w.tree w'.tree)
    (found : w.entry path = .ok (p, some n)) : w'.entry path = .ok (p, some n) := by
  obtain ⟨last, front, dir⟩ := entry_route_iff.mp found
  have dir := is_dir_iff.mp dir
  refine entry_route_iff.mpr ⟨last, ?_, is_dir_iff.mpr (more.dir p dir)⟩
  unfold fullSteps at front ⊢
  rw [cwd]
  exact route_extends more front (by simp [dir])

theorem lookup_extends (cwd : w'.cwd = w.cwd) (more : Extends w.tree w'.tree)
    (found : w.lookup follow path = .ok loc) (there : w.tree.get loc ≠ none) :
    w'.lookup follow path = .ok loc := by
  obtain ⟨some_left, route, slash⟩ := lookup_route_iff.mp found
  refine lookup_route_iff.mpr ⟨some_left, ?_, ?_⟩
  · unfold fullSteps at route ⊢
    rw [cwd]
    exact route_extends more route there
  · intro ends
    exact is_dir_iff.mpr (more.dir loc (is_dir_iff.mp (slash ends)))

theorem full_steps_longer {front : Path N} {tail : List (Step N)} (rooted : path.absolute = front.absolute)
    (longer : path.steps = front.steps ++ tail) : w.fullSteps path = w.fullSteps front ++ tail := by
  unfold fullSteps
  rw [rooted, longer]
  split
  · rfl
  · exact (List.append_assoc _ _ _).symm

theorem entry_beyond {front : Path N} {s : Step N} {later : List (Step N)}
    (rooted : path.absolute = front.absolute) (longer : path.steps = front.steps ++ s :: later)
    (entry : w.entry front = .ok (p, some n)) (missing : w.tree.get (p ++ [n]) = none) :
    w.entry path = .error .notFound := by
  obtain ⟨last, before, dir⟩ := entry_route_iff.mp entry
  have whole : Route w.tree true linkBudget [] (w.fullSteps front) (p ++ [n]) := by
    rw [full_steps_last last]
    exact route_concat before (is_dir_iff.mp dir) (.inr (not_linked_missing missing))
  have some_left : isBlank path = false := by simp [isBlank, longer]
  have steps (tail : List (Step N)) :
      w.fullSteps { path with steps := front.steps ++ tail } = w.fullSteps front ++ tail :=
    full_steps_longer rooted rfl
  unfold World.entry
  rw [some_left]
  simp only [Bool.false_eq_true, ↓reduceIte]
  cases later with
  | nil =>
    have shorter : path.steps.dropLast = front.steps ++ [] := by
      rw [longer, List.dropLast_concat, List.append_nil]
    rw [shorter, steps, List.append_nil, walk_ok_iff.mpr whole]
    simp [missing_not_dir missing, missing]
  | cons s' later =>
    have shorter : path.steps.dropLast = front.steps ++ s :: (s' :: later).dropLast := by
      rw [longer, List.dropLast_append_of_ne_nil (by simp)]
      rfl
    rw [shorter, steps, walk_stuck whole missing]

theorem dir_entered (found : w.lookup true path = .ok loc) (dir : w.tree.isDir loc = true) :
    ∃ named, w.entry path = .ok named := by
  obtain ⟨some_left, route, _⟩ := lookup_route_iff.mp found
  rw [Bool.true_or] at route
  unfold World.entry
  rw [some_left]
  simp only [Bool.false_eq_true, ↓reduceIte]
  cases last : path.steps.getLast? with
  | none =>
    have bare := List.getLast?_eq_none_iff.mp last
    have same : ({ path with steps := path.steps.dropLast } : Path N) = path := by
      obtain ⟨absolute, steps, slash⟩ := path
      simp only at bare
      subst bare
      rfl
    rw [same, walk_ok_iff.mpr route]
    simp [dir]
  | some s =>
    rw [full_steps_last last] at route
    obtain ⟨mid, _, front, back⟩ := route_split _ _ _ route
    rw [walk_ok_iff.mpr front]
    simp only [is_dir_iff.mpr (route_base_dir back), ↓reduceIte]
    split <;> exact ⟨_, rfl⟩

theorem front_dir {front : Path N} {s : Step N} {later : List (Step N)}
    (rooted : path.absolute = front.absolute) (longer : path.steps = front.steps ++ s :: later)
    (some_left : isBlank front = false) (found : w.lookup true path = .ok loc) :
    ∃ mid, w.lookup true front = .ok mid ∧ w.tree.isDir mid = true := by
  obtain ⟨_, route, _⟩ := lookup_route_iff.mp found
  rw [full_steps_longer rooted longer, Bool.true_or] at route
  obtain ⟨mid, _, before, back⟩ := route_split _ _ _ route
  have dir := is_dir_iff.mpr (route_base_dir back)
  exact ⟨mid, lookup_route_iff.mpr ⟨some_left, before, fun _ => dir⟩, dir⟩

theorem entered_front {front : Path N} {s : Step N} {later : List (Step N)}
    (rooted : path.absolute = front.absolute) (longer : path.steps = front.steps ++ s :: later)
    (some_left : isBlank front = false) (entered : w.entry path = .ok (p, some n)) :
    ∃ mid, w.lookup true front = .ok mid ∧ w.tree.isDir mid = true := by
  obtain ⟨_, route, dir⟩ := entry_route_iff.mp entered
  cases later with
  | nil =>
    have shorter : path.steps.dropLast = front.steps ++ [] := by
      rw [longer, List.dropLast_concat, List.append_nil]
    have same : w.fullSteps { path with steps := path.steps.dropLast } = w.fullSteps front ++ [] :=
      full_steps_longer rooted shorter
    rw [same, List.append_nil] at route
    exact ⟨p, lookup_route_iff.mpr ⟨some_left, route, fun _ => dir⟩, dir⟩
  | cons s' later =>
    have shorter : path.steps.dropLast = front.steps ++ s :: (s' :: later).dropLast := by
      rw [longer, List.dropLast_append_of_ne_nil (by simp)]
      rfl
    have same : w.fullSteps { path with steps := path.steps.dropLast } =
        w.fullSteps front ++ s :: (s' :: later).dropLast := full_steps_longer rooted shorter
    rw [same] at route
    obtain ⟨mid, _, before, back⟩ := route_split _ _ _ route
    have dir := is_dir_iff.mpr (route_base_dir back)
    exact ⟨mid, lookup_route_iff.mpr ⟨some_left, before, fun _ => dir⟩, dir⟩

theorem entry_lookup_dir (found : w.entry path = .ok (p, some n)) (dir : w.tree.isDir (p ++ [n]) = true) :
    w.lookup follow path = .ok (p ++ [n]) := by
  obtain ⟨last, front, above⟩ := entry_route_iff.mp found
  have some_left : path.steps ≠ [] := by
    intro nothing
    rw [nothing] at last
    cases last
  refine lookup_route_iff.mpr ⟨by simp [isBlank, some_left], ?_, fun _ => dir⟩
  rw [full_steps_last last]
  exact route_concat front (is_dir_iff.mp above) (.inr (not_linked_dir dir))

theorem child_entry (found : w.lookup true path = .ok loc) (dir : w.tree.isDir loc = true) (n : N) :
    w.entry (child path n) = .ok (loc, some n) := by
  obtain ⟨_, route, _⟩ := lookup_route_iff.mp found
  refine entry_route_iff.mpr ⟨List.getLast?_concat, ?_, dir⟩
  simpa [fullSteps, child] using route

theorem child_entered (some_left : isBlank path = false) {m : N}
    (entered : w.entry (child path n) = .ok (p, some m)) :
    ∃ mid, w.lookup true path = .ok mid ∧ w.tree.isDir mid = true :=
  @entered_front N β _ w (child path n) p m path (.name n) [] rfl rfl some_left entered

theorem child_found (some_left : isBlank path = false) (found : w.lookup true (child path n) = .ok loc) :
    ∃ mid, w.lookup true path = .ok mid ∧ w.tree.isDir mid = true :=
  @front_dir N β _ w (child path n) loc path (.name n) [] rfl rfl some_left found

omit [FileName N] in
theorem child_not_blank (path : Path N) (n : N) : isBlank (child path n) = false := by
  simp [isBlank, child]

structure SameFiles (w w' : World N β) : Prop where
  cwd : w'.cwd = w.cwd
  get : w'.tree.get = w.tree.get

theorem same_is_dir (same : SameFiles w w') : w'.tree.isDir = w.tree.isDir := by
  funext place
  unfold Tree.isDir
  rw [same.get]

theorem same_lookup (same : SameFiles w w') (follow : Bool) (path : Path N) :
    w'.lookup follow path = w.lookup follow path := by
  unfold lookup fullSteps
  rw [walk_same same.get, same_is_dir same, same.cwd]

theorem same_entry (same : SameFiles w w') (path : Path N) : w'.entry path = w.entry path := by
  unfold entry fullSteps
  rw [walk_same same.get, same_is_dir same, same.cwd, same.get]

end Lookups

end LinkedCalls
