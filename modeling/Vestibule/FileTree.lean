import Mathlib.Data.List.Dedup
import Vestibule.LexicalMotion

/-!
A tree of directories, files and symbolic links, as a map from locations to nodes. A location is
the list of names from the root down. The invariants of the map are fields, and the three ways to
change it (put a node, take away a subtree, move one) keep them.
-/
namespace FileTree
open LexicalMotion

class FileName (N : Type) where
  legal : N → Bool

variable {N β : Type}

inductive Node (N β : Type) where
  | dir
  | file (content : List β)
  | link (target : Path N)
  deriving DecidableEq, Repr

structure Tree (N β : Type) [FileName N] where
  get : List N → Option (Node N β)
  support : List (List N)
  root : get [] = some .dir
  closed : ∀ loc n node, get (loc ++ [n]) = some node → get loc = some .dir
  finite : ∀ loc node, get loc = some node → loc ∈ support
  named : ∀ loc n node, get (loc ++ [n]) = some node → FileName.legal n = true

variable [FileName N]

def Tree.isDir (t : Tree N β) (loc : List N) : Bool :=
  match t.get loc with
  | some .dir => true
  | _ => false

theorem is_dir_iff {t : Tree N β} {loc : List N} : t.isDir loc = true ↔ t.get loc = some .dir := by
  unfold Tree.isDir
  split
  · rename_i here
    simp [here]
  · rename_i other
    simp only [Bool.false_eq_true, false_iff]
    exact fun here => other here

theorem missing_not_dir {t : Tree N β} {loc : List N} (missing : t.get loc = none) :
    t.isDir loc = false := by
  unfold Tree.isDir
  rw [missing]

theorem file_not_dir {t : Tree N β} {loc : List N} {content : List β}
    (file : t.get loc = some (.file content)) : t.isDir loc = false := by
  unfold Tree.isDir
  rw [file]

def Tree.LinkFree (t : Tree N β) : Prop := ∀ loc target, t.get loc ≠ some (.link target)

theorem above_is_dir (t : Tree N β) {loc rest : List N} {node : Node N β} (more : rest ≠ [])
    (found : t.get (loc ++ rest) = some node) : t.get loc = some .dir := by
  induction rest using List.reverseRecOn generalizing node with
  | nil => exact absurd rfl more
  | append_singleton front n ih =>
    rw [← List.append_assoc] at found
    have parent := t.closed _ _ _ found
    by_cases bare : front = []
    · subst bare
      rwa [List.append_nil] at parent
    · exact ih bare parent

theorem below_missing (t : Tree N β) {loc : List N} (missing : t.get loc = none) (rest : List N) :
    t.get (loc ++ rest) = none := by
  by_cases bare : rest = []
  · subst bare
    rwa [List.append_nil]
  · cases found : t.get (loc ++ rest) with
    | none => rfl
    | some node =>
      rw [above_is_dir t bare found] at missing
      cases missing

theorem below_file (t : Tree N β) {loc rest : List N} {node : Node N β} (more : rest ≠ [])
    (here : t.get loc = some node) (other : node ≠ .dir) : t.get (loc ++ rest) = none := by
  cases found : t.get (loc ++ rest) with
  | none => rfl
  | some below =>
    have dir := above_is_dir t more found
    rw [here] at dir
    exact absurd (Option.some.inj dir) other

/-- `n` can be, or already is, an entry of the directory `p` that is not a directory. -/
abbrev Tree.Writable (t : Tree N β) (p : List N) (n : N) : Prop :=
  t.isDir p = true ∧ FileName.legal n = true ∧ t.isDir (p ++ [n]) = false

omit [FileName N] in
theorem concat_ne_parent (p : List N) (n : N) : p ≠ p ++ [n] := by
  intro same
  have width := congrArg List.length same
  simp at width

variable [DecidableEq N]

def Tree.put (t : Tree N β) (p : List N) (n : N) (node : Node N β) (fits : t.Writable p n) :
    Tree N β where
  get loc := if loc = p ++ [n] then some node else t.get loc
  support := (p ++ [n]) :: t.support
  root := by
    rw [if_neg (by simp), t.root]
  closed loc m below found := by
    split at found
    · rename_i same
      obtain ⟨parent, _⟩ := List.append_singleton_inj.mp same
      subst parent
      rw [if_neg (concat_ne_parent loc n)]
      exact is_dir_iff.mp fits.1
    · have parent := t.closed loc m below found
      rw [if_neg _]
      · exact parent
      · intro same
        subst same
        have other := fits.2.2
        rw [is_dir_iff.mpr parent] at other
        cases other
  finite loc below found := by
    split at found
    · rename_i same
      exact same ▸ List.mem_cons_self
    · exact List.mem_cons_of_mem _ (t.finite loc below found)
  named loc m below found := by
    split at found
    · rename_i same
      obtain ⟨_, name⟩ := List.append_singleton_inj.mp same
      exact name ▸ fits.2.1
    · exact t.named loc m below found

/-- The tree without the places a predicate closed downwards holds of. -/
def Tree.without (t : Tree N β) (gone : List N → Prop) [DecidablePred gone] (root : ¬ gone [])
    (down : ∀ loc n, gone loc → gone (loc ++ [n])) : Tree N β where
  get loc := if gone loc then none else t.get loc
  support := t.support
  root := by
    rw [if_neg root, t.root]
  closed loc n below found := by
    split at found
    · cases found
    · rename_i kept
      rw [if_neg (fun taken => kept (down loc n taken))]
      exact t.closed loc n below found
  finite loc below found := by
    split at found
    · cases found
    · exact t.finite loc below found
  named loc n below found := by
    split at found
    · cases found
    · exact t.named loc n below found

def Tree.clear (t : Tree N β) (top : List N) : Tree N β :=
  t.without (fun loc => top <+: loc ∧ top ≠ loc)
    (by
      intro gone
      exact gone.2 (List.prefix_nil.mp gone.1))
    (by
      intro loc n gone
      obtain ⟨tail, same⟩ := gone.1
      subst same
      rw [List.append_assoc]
      constructor
      · exact List.prefix_append _ _
      · intro short
        have width := congrArg List.length short
        simp at width)

/-- The tree without a location other than the root and what lies below it. -/
def Tree.drop (t : Tree N β) (top : List N) (inside : top ≠ []) : Tree N β :=
  t.without (fun loc => top <+: loc) (fun gone => inside (List.prefix_nil.mp gone))
    (fun _ _ gone => gone.trans (List.prefix_append _ _))

structure Tree.Movable (t : Tree N β) (s p : List N) (n : N) : Prop where
  source : s ≠ []
  outside : ¬ s <+: p ++ [n]
  above : ¬ p ++ [n] <+: s
  parent : t.isDir p = true
  legal : FileName.legal n = true

instance (t : Tree N β) (s p : List N) (n : N) : Decidable (t.Movable s p n) :=
  decidable_of_iff (s ≠ [] ∧ ¬ s <+: p ++ [n] ∧ ¬ p ++ [n] <+: s ∧ t.isDir p = true ∧
      FileName.legal n = true)
    ⟨fun ⟨source, outside, above, parent, legal⟩ => ⟨source, outside, above, parent, legal⟩,
      fun fits => ⟨fits.source, fits.outside, fits.above, fits.parent, fits.legal⟩⟩

def Tree.move (t : Tree N β) (s p : List N) (n : N) (fits : t.Movable s p n) : Tree N β where
  get loc :=
    if p ++ [n] <+: loc then t.get (s ++ loc.drop (p ++ [n]).length)
    else if s <+: loc then none
    else t.get loc
  support := t.support.map (fun loc => (p ++ [n]) ++ loc.drop s.length) ++ t.support
  root := by
    rw [if_neg (by simp), if_neg (fun top => fits.source (List.prefix_nil.mp top)), t.root]
  closed loc m below found := by
    have upward : ∀ {top : List N}, top <+: loc → top <+: loc ++ [m] :=
      fun inside => inside.trans (List.prefix_append _ _)
    have parentOutside : ¬ s <+: p := fun inside => fits.outside
      (inside.trans (List.prefix_append _ _))
    split at found
    · rename_i moved
      rcases List.prefix_concat_iff.mp moved with same | inside
      · obtain ⟨parent, _⟩ := List.append_singleton_inj.mp same
        subst parent
        rw [if_neg, if_neg parentOutside]
        · exact is_dir_iff.mp fits.parent
        · intro longer
          have width := longer.length_le
          rw [List.length_append, List.length_singleton] at width
          omega
      · rw [if_pos inside]
        obtain ⟨tail, whole⟩ := inside
        subst whole
        rw [List.append_assoc, List.drop_left, ← List.append_assoc] at found
        rw [List.drop_left]
        exact t.closed _ m below found
    · rename_i other
      split at found
      · cases found
      · rename_i kept
        rw [if_neg (fun inside => other (upward inside)), if_neg (fun inside => kept (upward inside))]
        exact t.closed loc m below found
  finite loc below found := by
    apply List.mem_append.mpr
    split at found
    · rename_i moved
      obtain ⟨tail, whole⟩ := moved
      subst whole
      rw [List.drop_left] at found
      left
      exact List.mem_map.mpr ⟨s ++ tail, t.finite _ _ found, by rw [List.drop_left]⟩
    · split at found
      · cases found
      · right
        exact t.finite loc below found
  named loc m below found := by
    split at found
    · rename_i moved
      rcases List.prefix_concat_iff.mp moved with same | inside
      · obtain ⟨_, name⟩ := List.append_singleton_inj.mp same
        exact name ▸ fits.legal
      · obtain ⟨tail, whole⟩ := inside
        subst whole
        rw [List.append_assoc, List.drop_left, ← List.append_assoc] at found
        exact t.named _ m below found
    · split at found
      · cases found
      · exact t.named loc m below found

section Results
variable (t : Tree N β)

@[simp] theorem put_get (p : List N) (n : N) (node : Node N β) (fits : t.Writable p n)
    (loc : List N) : (t.put p n node fits).get loc =
      if loc = p ++ [n] then some node else t.get loc := rfl

@[simp] theorem clear_get (top loc : List N) : (t.clear top).get loc =
    if top <+: loc ∧ top ≠ loc then none else t.get loc := rfl

@[simp] theorem drop_get (top : List N) (inside : top ≠ []) (loc : List N) :
    (t.drop top inside).get loc = if top <+: loc then none else t.get loc := rfl

@[simp] theorem move_get (s p : List N) (n : N) (fits : t.Movable s p n) (loc : List N) :
    (t.move s p n fits).get loc = if p ++ [n] <+: loc then t.get (s ++ loc.drop (p ++ [n]).length)
      else if s <+: loc then none else t.get loc := rfl

end Results

def Tree.childless (t : Tree N β) (top : List N) : Bool :=
  t.support.all fun loc => !(top.isPrefixOf loc && top ≠ loc && (t.get loc).isSome)

theorem childless_iff {t : Tree N β} {top : List N} :
    t.childless top = true ↔ ∀ rest, rest ≠ [] → t.get (top ++ rest) = none := by
  unfold Tree.childless
  simp only [List.all_eq_true, Bool.not_eq_true', Bool.and_eq_false_iff]
  constructor
  · intro all rest more
    cases found : t.get (top ++ rest) with
    | none => rfl
    | some node =>
      have listed := all _ (t.finite _ _ found)
      have front : top.isPrefixOf (top ++ rest) = true :=
        List.isPrefixOf_iff_prefix.mpr (List.prefix_append _ _)
      simp [found, more, front] at listed
  · intro nothing loc listed
    by_cases below : top.isPrefixOf loc = true
    · obtain ⟨rest, whole⟩ := List.isPrefixOf_iff_prefix.mp below
      subst whole
      by_cases bare : rest = []
      · simp [bare]
      · simp [nothing rest bare]
    · simp [below]

def Tree.height (t : Tree N β) : Nat := t.support.foldr (fun loc height => max loc.length height) 0

omit [DecidableEq N] in
theorem length_le_height {t : Tree N β} {loc : List N} (here : t.get loc ≠ none) :
    loc.length ≤ t.height := by
  obtain ⟨node, found⟩ := Option.ne_none_iff_exists'.mp here
  have listed := t.finite loc node found
  unfold Tree.height
  generalize t.support = places at listed
  induction places with
  | nil => cases listed
  | cons first rest ih =>
    rw [List.foldr_cons]
    rcases List.mem_cons.mp listed with same | later
    · rw [same]
      exact Nat.le_max_left _ _
    · exact Nat.le_trans (ih later) (Nat.le_max_right _ _)

def Tree.bare : Tree N β where
  get loc := if loc = [] then some .dir else none
  support := [[]]
  root := if_pos rfl
  closed loc n node found := by simp at found
  finite loc node found := by
    split at found
    · simp_all
    · cases found
  named loc n node found := by simp at found

end FileTree
