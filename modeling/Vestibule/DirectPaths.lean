import Vestibule.CallFootprints

/-!
Calls on paths that spell a place from the root down, where no link stands on the way: what each of
them does is said by the tree, at that place and above it.
-/
namespace DirectPaths
open LexicalMotion FileTree FileCalls World PlainLookups PlainCalls LinkedLookups LinkedCalls
  CallFootprints
variable {N β : Type} [FileName N]

def direct (loc : List N) (slash : Bool) : Path N := ⟨true, loc.map .name, slash⟩

/-- No link stands on the way to a place, or there. -/
def Clear (t : Tree N β) (loc : List N) : Prop := ∀ front, front <+: loc → ¬ Linked t front

def Blocked (t : Tree N β) (loc : List N) : Prop :=
  ∃ front content, front <+: loc ∧ t.get front = some (.file content)

section Ways
variable {t : Tree N β} {p loc : List N} {n : N}

theorem clear_front (clear : Clear t loc) (front : p <+: loc) : Clear t p :=
  fun other upper => clear other (upper.trans front)

theorem dir_clear (dir : t.isDir loc = true) : Clear t loc := by
  intro front upper
  obtain ⟨rest, whole⟩ := upper
  subst whole
  apply dir_not_linked
  by_cases bare : rest = []
  · rw [bare, List.append_nil] at dir
    exact is_dir_iff.mp dir
  · exact above_is_dir t bare (is_dir_iff.mp dir)

theorem dir_not_blocked (dir : t.isDir loc = true) : ¬ Blocked t loc := by
  rintro ⟨front, content, ⟨rest, whole⟩, file⟩
  subst whole
  by_cases bare : rest = []
  · rw [bare, List.append_nil, is_dir_iff, file] at dir
    cases dir
  · rw [above_is_dir t bare (is_dir_iff.mp dir)] at file
    cases file

theorem blocked_front (blocked : Blocked t p) (front : p <+: loc) : Blocked t loc := by
  obtain ⟨top, content, upper, file⟩ := blocked
  exact ⟨top, content, upper.trans front, file⟩

theorem blocked_concat (blocked : Blocked t (p ++ [n])) (other : ∀ content, t.get (p ++ [n]) ≠
    some (.file content)) : Blocked t p := by
  obtain ⟨top, content, upper, file⟩ := blocked
  rcases List.prefix_concat_iff.mp upper with same | above
  · exact absurd (same ▸ file) (other content)
  · exact ⟨top, content, above, file⟩

end Ways

section Walks
variable {t : Tree N β} {follow : Bool} {budget : Nat} {base names loc : List N}

theorem walk_direct (clear : Clear t (base ++ names)) :
    walk t follow budget base (names.map .name) = .ok loc ↔
      loc = base ++ names ∧ (names = [] ∨ t.isDir (base ++ names.dropLast) = true) := by
  induction names generalizing base with
  | nil =>
    rw [List.map_nil, walk_nil, List.append_nil, Except.ok.injEq, eq_comm]
    simp
  | cons n rest ih =>
    have step (dir : t.get base = some .dir) :
        walk t follow budget base (.name n :: rest.map .name) =
          walk t follow budget (base ++ [n]) (rest.map .name) :=
      walk_plain dir (clear _ (by simp))
    have whole : base ++ n :: rest = base ++ [n] ++ rest := by simp
    have last : rest = [] ∨ base ++ (n :: rest).dropLast = base ++ [n] ++ rest.dropLast := by
      cases rest <;> simp
    rw [whole] at clear ⊢
    rw [List.map_cons]
    constructor
    · intro run
      have dir := walk_dir run
      rw [step dir, ih clear] at run
      refine ⟨run.1, .inr ?_⟩
      rcases last with bare | same
      · rw [bare]
        simpa using is_dir_iff.mpr dir
      · rcases run.2 with bare | below
        · rw [bare]
          simpa using is_dir_iff.mpr dir
        · rwa [same]
    · rintro ⟨same, below⟩
      have below := below.resolve_left (by simp)
      have dir : t.get base = some .dir := by
        by_cases bare : (n :: rest).dropLast = []
        · rw [bare, List.append_nil] at below
          exact is_dir_iff.mp below
        · exact above_is_dir t bare (is_dir_iff.mp below)
      rw [step dir, ih clear]
      refine ⟨same, last.imp_right fun same => ?_⟩
      rwa [← same]

theorem walk_direct_error {e : FsError} (clear : Clear t (base ++ names))
    (unblocked : ¬ Blocked t (base ++ names))
    (run : walk t follow budget base (names.map .name) = .error e) : e = .notFound := by
  induction names generalizing base with
  | nil =>
    rw [List.map_nil, walk_nil] at run
    cases run
  | cons n rest ih =>
    have whole : base ++ n :: rest = base ++ [n] ++ rest := by simp
    have upper : base <+: base ++ n :: rest := List.prefix_append _ _
    rw [List.map_cons] at run
    cases here : t.get base with
    | none =>
      rw [walk_missing here] at run
      exact (Except.error.inj run).symm
    | some node =>
      cases node with
      | link target => exact absurd ⟨target, here⟩ (clear base upper)
      | file content => exact absurd ⟨base, content, upper, here⟩ unblocked
      | dir =>
        rw [walk_plain here (clear _ (by simp))] at run
        rw [whole] at clear unblocked
        exact ih clear unblocked run

theorem walk_root (clear : Clear t names) : walk t follow budget [] (names.map .name) = .ok loc ↔
    loc = names ∧ (names = [] ∨ t.isDir names.dropLast = true) := walk_direct clear

theorem walk_root_error {e : FsError} (clear : Clear t names) (unblocked : ¬ Blocked t names)
    (run : walk t follow budget [] (names.map .name) = .error e) : e = .notFound :=
  @walk_direct_error N β _ t follow budget [] names e clear unblocked run

end Walks

section Lookups
variable {w : World N β} {p loc place : List N} {n : N} {slash follow : Bool}

omit [FileName N] in
@[simp] theorem direct_slash : (direct loc slash).slash = slash := rfl

@[simp] theorem direct_full_steps : w.fullSteps (direct loc slash) = loc.map .name := rfl

theorem direct_lookup (clear : Clear w.tree loc) : w.lookup follow (direct loc slash) = .ok place ↔
    place = loc ∧ (loc = [] ∨ w.tree.isDir loc.dropLast = true) ∧
      (slash = true → w.tree.isDir loc = true) := by
  rw [lookup_walk_iff, direct_slash, direct_full_steps, walk_root clear]
  constructor
  · rintro ⟨_, ⟨same, above⟩, ends⟩
    exact ⟨same, above, same ▸ ends⟩
  · rintro ⟨same, above, ends⟩
    exact ⟨rfl, ⟨same, above⟩, same ▸ ends⟩

theorem there_above {node : Node N β} (here : w.tree.get loc = some node) :
    loc = [] ∨ w.tree.isDir loc.dropLast = true := by
  rcases List.eq_nil_or_concat loc with bare | ⟨front, n, same⟩
  · exact .inl bare
  · right
    subst same
    rw [List.concat_eq_append, List.dropLast_concat]
    rw [List.concat_eq_append] at here
    exact is_dir_iff.mpr (w.tree.closed _ _ _ here)

theorem direct_stat {node : Node N β} (clear : Clear w.tree loc) :
    w.stat follow (direct loc slash) = .ok node ↔
      w.tree.get loc = some node ∧ (slash = true → isDirNode node = true) := by
  rw [stat_ok_iff]
  constructor
  · rintro ⟨place, led, here⟩
    obtain ⟨same, _, ends⟩ := (direct_lookup clear).mp led
    subst same
    refine ⟨here, fun slashed => ?_⟩
    have dir := is_dir_iff.mp (ends slashed)
    rw [here] at dir
    cases dir
    rfl
  · rintro ⟨here, ends⟩
    refine ⟨loc, (direct_lookup clear).mpr ⟨rfl, there_above here, fun slashed => ?_⟩, here⟩
    have kind := ends slashed
    cases node with
    | dir => exact is_dir_iff.mpr here
    | file content => cases kind
    | link target => cases kind

theorem direct_entry (clear : Clear w.tree p) {q : List N} {m : N} :
    w.entry (direct (p ++ [n]) slash) = .ok (q, some m) ↔
      q = p ∧ m = n ∧ w.tree.isDir p = true := by
  have last : (direct (p ++ [n]) slash).steps.getLast? = some (.name n) := by simp [direct]
  have front : w.fullSteps { direct (p ++ [n]) slash with
      steps := (direct (p ++ [n]) slash).steps.dropLast } = p.map .name := by
    simp [fullSteps, direct]
  rw [entry_walk_iff, last, front, walk_root clear]
  constructor
  · rintro ⟨name, ⟨same, _⟩, dir⟩
    cases name
    exact ⟨same, rfl, same ▸ dir⟩
  · rintro ⟨same, name, dir⟩
    exact ⟨by rw [name], ⟨same, there_above (is_dir_iff.mp dir)⟩, same ▸ dir⟩

theorem direct_entry_missing (clear : Clear w.tree p) (unblocked : ¬ Blocked w.tree p)
    (missing : w.tree.get p = none) : w.entry (direct (p ++ [n]) slash) = .error .notFound := by
  have front : w.fullSteps { direct (p ++ [n]) slash with
      steps := (direct (p ++ [n]) slash).steps.dropLast } = p.map .name := by
    simp [fullSteps, direct]
  have named : isBlank (direct (p ++ [n]) slash) = false := rfl
  unfold World.entry
  rw [named, front]
  simp only [Bool.false_eq_true, ↓reduceIte]
  cases run : walk w.tree true linkBudget [] (p.map .name) with
  | error e => rw [walk_root_error clear unblocked run]
  | ok q =>
    obtain ⟨same, _⟩ := (walk_root clear).mp run
    subst same
    simp [missing_not_dir missing, missing]

end Lookups

theorem top_entry {w : World N β} {slash : Bool} : w.entry (direct [] slash) = .ok ([], none) := by
  have root : w.tree.isDir [] = true := is_dir_iff.mpr w.tree.root
  have way : walk w.tree true linkBudget [] [] = .ok [] := walk_nil
  simp [World.entry, isBlank, direct, fullSteps, way, root]

theorem not_there {t : Tree N β} {loc : List N} (clear : Clear t loc) (other : ¬ t.isDir loc = true)
    (unblocked : ¬ Blocked t loc) : t.get loc = none := by
  cases here : t.get loc with
  | none => rfl
  | some node =>
    cases node with
    | dir => exact absurd (is_dir_iff.mpr here) other
    | link target => exact absurd ⟨target, here⟩ (clear loc List.prefix_rfl)
    | file content => exact absurd ⟨loc, content, List.prefix_rfl, here⟩ unblocked

section Changes
variable [DecidableEq N] {w : World N β} {p q loc : List N} {n m : N} {slash : Bool}

omit [DecidableEq N] in
theorem direct_creates (clear : Clear w.tree p) : Creates w (direct (p ++ [n]) slash) q m ↔
    q = p ∧ m = n ∧ w.tree.isDir p = true ∧ w.tree.get (p ++ [n]) = none ∧ FileName.legal n = true := by
  constructor
  · intro creates
    obtain ⟨same, name, dir⟩ := (direct_entry clear).mp creates.entry
    have missing := creates.missing
    have legal := creates.legal
    subst same name
    exact ⟨rfl, rfl, dir, missing, legal⟩
  · rintro ⟨same, name, dir, missing, legal⟩
    subst same name
    exact ⟨(direct_entry clear).mpr ⟨rfl, rfl, dir⟩, missing, legal⟩

omit [DecidableEq N] in
theorem direct_opens (clear : Clear w.tree (p ++ [n])) : OpensTo w (direct (p ++ [n]) slash) q m ↔
    slash = false ∧ q = p ∧ m = n ∧ w.tree.Writable p n := by
  constructor
  · intro opened
    obtain ⟨same, _⟩ := (direct_lookup clear).mp opened.place
    obtain ⟨front, name⟩ := List.append_singleton_inj.mp same
    have fits := opened.fits
    subst front name
    exact ⟨opened.plain, rfl, rfl, fits⟩
  · rintro ⟨plain, front, name, fits⟩
    subst plain front name
    refine ⟨rfl, (direct_lookup clear).mpr ⟨rfl, .inr ?_, fun slashed => by cases slashed⟩, fits⟩
    rw [List.dropLast_concat]
    exact fits.1

theorem direct_make (clear : Clear w.tree p) (dir : w.tree.isDir p = true)
    (missing : w.tree.get (p ++ [n]) = none) (legal : FileName.legal n = true) :
    ∃ w', w.createDir (direct (p ++ [n]) slash) = (w', .ok ()) ∧ Puts w w' (p ++ [n]) .dir := by
  obtain ⟨done, puts, _⟩ := create_dir_done ((direct_creates clear).mpr ⟨rfl, rfl, dir, missing, legal⟩)
  exact ⟨_, Prod.ext rfl done, puts⟩

theorem direct_make_taken (clear : Clear w.tree p) (dir : w.tree.isDir p = true)
    (there : w.tree.get (p ++ [n]) ≠ none) :
    w.createDir (direct (p ++ [n]) slash) = (w, .error .alreadyExists) := by
  have isSome := Option.isSome_iff_ne_none.mpr there
  unfold World.createDir
  rw [(direct_entry clear).mpr ⟨rfl, rfl, dir⟩]
  exact if_pos isSome

theorem direct_make_refused (clear : Clear w.tree p)
    (no : w.tree.isDir p = true → w.tree.get (p ++ [n]) ≠ none) :
    ∃ e, w.createDir (direct (p ++ [n]) slash) = (w, .error e) := by
  apply create_dir_refused
  intro q m creates
  obtain ⟨_, _, dir, missing, _⟩ := (direct_creates clear).mp creates
  exact no dir missing

theorem direct_open (clear : Clear w.tree (p ++ [n])) (fits : w.tree.Writable p n) :
    ∃ w', w.openTruncated (direct (p ++ [n]) false) = (w', .ok (p, n)) ∧ Puts w w' (p ++ [n]) (.file []) := by
  obtain ⟨done, puts, _⟩ := open_truncated_done ((direct_opens clear).mpr ⟨rfl, rfl, rfl, fits⟩)
  exact ⟨_, Prod.ext rfl done, puts⟩

theorem direct_open_refused (clear : Clear w.tree (p ++ [n]))
    (no : slash = false → ¬ w.tree.Writable p n) :
    ∃ e, w.openTruncated (direct (p ++ [n]) slash) = (w, .error e) := by
  apply open_truncated_refused
  intro q m opened
  obtain ⟨plain, _, _, fits⟩ := (direct_opens clear).mp opened
  exact no plain fits

/-- What lies strictly below a place does not matter for the way there. -/
theorem cleared_clear (clear : Clear w.tree loc) (top : List N) : Clear (w.clearAt top).tree loc := by
  intro front upper linked
  obtain ⟨target, found⟩ := linked
  rw [(clear_at_clears top).get] at found
  split at found
  · cases found
  · exact clear front upper ⟨target, found⟩

theorem direct_remove_dir (clear : Clear w.tree (p ++ [n])) (dir : w.tree.isDir (p ++ [n]) = true) :
    ∃ w', w.removeDirAll (direct (p ++ [n]) slash) = (w', .ok ()) ∧ Drops w w' (p ++ [n]) := by
  have above : w.tree.isDir p = true := is_dir_iff.mpr (w.tree.closed _ _ _ (is_dir_iff.mp dir))
  have found : w.lookup false (direct (p ++ [n]) slash) = .ok (p ++ [n]) := by
    refine (direct_lookup clear).mpr ⟨rfl, .inr ?_, fun _ => dir⟩
    rwa [List.dropLast_concat]
  have still : (w.clearAt (p ++ [n])).tree.isDir p = true := by
    rw [is_dir_iff, (clear_at_clears _).get, if_neg]
    · exact is_dir_iff.mp above
    · intro below
      have short := below.1.length_le
      rw [List.length_append, List.length_singleton] at short
      omega
  have entry : (w.clearAt (p ++ [n])).entry (direct (p ++ [n]) slash) = .ok (p, some n) :=
    (direct_entry (cleared_clear (clear_front clear (List.prefix_append _ _)) _)).mpr ⟨rfl, rfl, still⟩
  have done : (w.removeDirAll (direct (p ++ [n]) slash)).2 = .ok () :=
    remove_dir_all_ok_iff.mpr ⟨_, found, (removes_dir found dir).mpr (.inr ⟨rfl, p, n, entry, rfl⟩)⟩
  obtain ⟨top, found', _, _, drops⟩ := remove_dir_all_ok (Prod.ext rfl done)
  rw [found] at found'
  cases found'
  exact ⟨_, Prod.ext rfl done, drops⟩

theorem direct_remove_file (clear : Clear w.tree (p ++ [n])) {content : List β}
    (file : w.tree.get (p ++ [n]) = some (.file content)) :
    ∃ w', w.removeFile (direct (p ++ [n]) false) = (w', .ok ()) ∧ Drops w w' (p ++ [n]) := by
  have above : w.tree.isDir p = true := is_dir_iff.mpr (w.tree.closed _ _ _ file)
  have entry : w.entry (direct (p ++ [n]) false) = .ok (p, some n) :=
    (direct_entry (clear_front clear (List.prefix_append _ _))).mpr ⟨rfl, rfl, above⟩
  exact ⟨_, remove_file_done entry rfl file rfl, drop_at_drops p n⟩

end Changes

section Renames
variable [DecidableEq N] {w : World N β} {s p p₁ p₂ : List N} {n n₁ n₂ : N} {slash slash' : Bool}

omit [DecidableEq N] in
theorem direct_entry_error (clear : Clear w.tree p) (other : ¬ w.tree.isDir p = true) :
    ∃ e, w.entry (direct (p ++ [n]) slash) = .error e := by
  cases entry : w.entry (direct (p ++ [n]) slash) with
  | error e => exact ⟨e, rfl⟩
  | ok named =>
    obtain ⟨q, m⟩ := named
    cases m with
    | some m =>
      obtain ⟨_, _, dir⟩ := (direct_entry clear).mp entry
      exact absurd dir other
    | none =>
      have last : (direct (p ++ [n]) slash).steps.getLast? = some (.name n) := by simp [direct]
      unfold World.entry at entry
      rw [last] at entry
      repeat' split at entry
      all_goals cases entry

/-- What has to hold for a node to be renamed to the entry `n` of `p`, where there is no directory. -/
structure Placeable (w : World N β) (slash : Bool) (s p : List N) (n : N) (node : Node N β) : Prop where
  there : w.tree.get s = some node
  ends : slash = true → isDirNode node = true
  outside : ¬ s <+: p ++ [n]
  above : ¬ p ++ [n] <+: s
  parent : w.tree.isDir p = true
  legal : FileName.legal n = true
  room : w.tree.get (p ++ [n]) = none ∨ isDirNode node = false ∧
    ∃ other, w.tree.get (p ++ [n]) = some other ∧ isDirNode other = false

theorem placeable_moves {node : Node N β} (fits : Placeable w slash (p₁ ++ [n₁]) p₂ n₂ node) :
    ∃ w', w.renameAt slash p₁ n₁ p₂ n₂ = (w', .ok ()) ∧ Moves w w' (p₁ ++ [n₁]) (p₂ ++ [n₂]) := by
  have ends : (slash && !isDirNode node) = false := by
    cases slashed : slash with
    | false => rfl
    | true => simp [fits.ends slashed]
  have apart : p₁ ++ [n₁] ≠ p₂ ++ [n₂] := fun same => fits.outside (same ▸ List.prefix_rfl)
  have aside : ¬ p₁ ++ [n₁] <+: p₂ := fun inside =>
    fits.outside (inside.trans (List.prefix_append _ _))
  have across : ¬ p₂ ++ [n₂] <+: p₁ := fun inside => fits.above (inside.trans (List.prefix_append _ _))
  have other : w.tree.isDir (p₂ ++ [n₂]) = false := by
    rcases fits.room with missing | ⟨_, there, found, kind⟩
    · exact missing_not_dir missing
    · by_contra dir
      rw [is_dir_iff.mp (Bool.not_eq_false _ ▸ dir)] at found
      cases found
      cases kind
  have kinds : ((w.tree.get (p₂ ++ [n₂])).isSome && !w.tree.isDir (p₂ ++ [n₂]) && isDirNode node) = false := by
    rcases fits.room with missing | ⟨kind, _⟩
    · simp [missing]
    · simp [kind]
  have childless : w.tree.childless (p₂ ++ [n₂]) = true := by
    refine childless_iff.mpr fun rest more => ?_
    rcases fits.room with missing | ⟨_, there, found, kind⟩
    · exact below_missing w.tree missing rest
    · refine below_file w.tree more found fun dir => ?_
      rw [dir] at kind
      cases kind
  have movable : w.tree.Movable (p₁ ++ [n₁]) p₂ n₂ :=
    ⟨by simp, fits.outside, fits.above, fits.parent, fits.legal⟩
  unfold renameAt
  dsimp only
  rw [fits.there]
  dsimp only
  rw [ends, kinds, other, childless, if_neg Bool.false_ne_true, if_neg apart, if_neg aside, if_neg across,
    if_neg (by simp), if_neg Bool.false_ne_true, if_neg (by simp), dif_pos movable]
  exact ⟨_, rfl, rfl, fun loc => rfl⟩

theorem unplaceable_stays (apart : p₁ ++ [n₁] ≠ p₂ ++ [n₂])
    (kinds : ∀ node, w.tree.get (p₁ ++ [n₁]) = some node → isDirNode node = true →
      w.tree.isDir (p₂ ++ [n₂]) = false)
    (no : ∀ node, ¬ Placeable w slash (p₁ ++ [n₁]) p₂ n₂ node) :
    ∃ e, w.renameAt slash p₁ n₁ p₂ n₂ = (w, .error e) := by
  cases run : w.renameAt slash p₁ n₁ p₂ n₂ with
  | mk w' outcome =>
    rcases rename_at_cases run with ⟨same, e, failed⟩ | ⟨node, found, ends, _, left⟩
    · exact ⟨e, by rw [same, failed]⟩
    · rcases left with ⟨same, _⟩ | ⟨dirs, fits, _⟩
      · exact absurd same apart
      · by_cases room : w.tree.get (p₂ ++ [n₂]) = none
        · exact absurd ⟨found, ends, fits.outside, fits.above, fits.parent, fits.legal, .inl room⟩ (no node)
        · obtain ⟨other, there⟩ := Option.ne_none_iff_exists'.mp room
          cases kind : isDirNode node with
          | true =>
            -- a directory does not take the place of what is none
            have aside := kinds node found kind
            have across : ¬ p₁ ++ [n₁] <+: p₂ := fun inside =>
              fits.outside (inside.trans (List.prefix_append _ _))
            have replaced : ¬ p₂ ++ [n₂] <+: p₁ := fun inside =>
              fits.above (inside.trans (List.prefix_append _ _))
            unfold renameAt at run
            simp [found, kind, apart, across, replaced, aside, there] at run
            exact ⟨_, Prod.ext run.1.symm run.2.symm⟩
          | false =>
            have plain : isDirNode other = false := by
              cases other with
              | dir =>
                rw [dirs (is_dir_iff.mpr there)] at kind
                cases kind
              | file content => rfl
              | link target => rfl
            exact absurd ⟨found, ends, fits.outside, fits.above, fits.parent, fits.legal,
              .inr ⟨kind, other, there, plain⟩⟩ (no node)

theorem direct_rename (clear₁ : Clear w.tree p₁) (clear₂ : Clear w.tree p₂)
    (apart : p₁ ++ [n₁] ≠ p₂ ++ [n₂])
    (kinds : ∀ node, w.tree.get (p₁ ++ [n₁]) = some node → isDirNode node = true →
      w.tree.isDir (p₂ ++ [n₂]) = false) :
    (∀ node, Placeable w (slash || slash') (p₁ ++ [n₁]) p₂ n₂ node →
      ∃ w', w.rename (direct (p₁ ++ [n₁]) slash) (direct (p₂ ++ [n₂]) slash') = (w', .ok ()) ∧
        Moves w w' (p₁ ++ [n₁]) (p₂ ++ [n₂])) ∧
    ((∀ node, ¬ Placeable w (slash || slash') (p₁ ++ [n₁]) p₂ n₂ node) →
      ∃ e, w.rename (direct (p₁ ++ [n₁]) slash) (direct (p₂ ++ [n₂]) slash') = (w, .error e)) := by
  unfold rename
  by_cases dir₁ : w.tree.isDir p₁ = true
  · rw [(direct_entry clear₁).mpr ⟨rfl, rfl, dir₁⟩]
    by_cases dir₂ : w.tree.isDir p₂ = true
    · rw [(direct_entry clear₂).mpr ⟨rfl, rfl, dir₂⟩]
      exact ⟨fun node => placeable_moves, unplaceable_stays apart kinds⟩
    · obtain ⟨e, failed⟩ := @direct_entry_error _ _ _ w p₂ n₂ slash' clear₂ dir₂
      rw [failed]
      exact ⟨fun node fits => absurd fits.parent dir₂, fun _ => ⟨e, rfl⟩⟩
  · obtain ⟨e, failed⟩ := @direct_entry_error _ _ _ w p₁ n₁ slash clear₁ dir₁
    rw [failed]
    refine ⟨fun node fits => absurd (is_dir_iff.mpr (w.tree.closed _ _ _ fits.there)) dir₁, fun _ => ?_⟩
    exact ⟨e, rfl⟩

end Renames
end DirectPaths
