import Mathlib.Data.List.Induction

/-!
Spelled paths over any type of names, and where they lead when their dots are resolved on the
text alone. A motion is what a relative spelling does to a place: so many steps up, then names
down. Nothing is said here about files.
-/
namespace LexicalMotion
variable {N : Type}

inductive Step (N : Type) where
  | here
  | up
  | name (n : N)
  deriving DecidableEq, Repr

/-- A spelling: its steps, whether it starts at the root, and whether a separator ends it. -/
structure Path (N : Type) where
  absolute : Bool
  steps : List (Step N)
  slash : Bool
  deriving DecidableEq, Repr

/-- A place on the text: below the root, or so many steps above an unknown start. -/
structure Place (N : Type) where
  rooted : Bool
  ups : Nat
  names : List N
  deriving DecidableEq, Repr

def Place.root : Place N := ⟨true, 0, []⟩
def Place.origin : Place N := ⟨false, 0, []⟩

/-- There is nothing above the root. -/
def Place.step (place : Place N) : Step N → Place N
  | .here => place
  | .name n => { place with names := place.names ++ [n] }
  | .up =>
    match place.names with
    | [] => if place.rooted then place else { place with ups := place.ups + 1 }
    | _ :: _ => { place with names := place.names.dropLast }

def Place.walk (place : Place N) (steps : List (Step N)) : Place N := steps.foldl Place.step place

/-- The motion of a list of steps: where they lead from an unknown start. -/
def motion (steps : List (Step N)) : Place N := Place.origin.walk steps

def Path.start (path : Path N) : Place N := if path.absolute then .root else .origin

def Path.resolve (path : Path N) : Place N := path.start.walk path.steps

def Place.after (place moved : Place N) : Place N :=
  ⟨place.rooted, if place.rooted then place.ups else place.ups + (moved.ups - place.names.length),
    place.names.take (place.names.length - moved.ups) ++ moved.names⟩

def Place.Contains (outer inner : Place N) : Prop :=
  inner.rooted = outer.rooted ∧ inner.ups = outer.ups ∧ outer.names <+: inner.names

instance [DecidableEq N] (outer inner : Place N) : Decidable (outer.Contains inner) :=
  inferInstanceAs (Decidable (_ ∧ _ ∧ _))

theorem walk_append (place : Place N) (first later : List (Step N)) :
    place.walk (first ++ later) = (place.walk first).walk later :=
  List.foldl_append

theorem step_up_named {place : Place N} (below : place.names ≠ []) :
    place.step .up = { place with names := place.names.dropLast } := by
  obtain ⟨rooted, ups, names⟩ := place
  cases names with
  | nil => exact absurd rfl below
  | cons n rest => rfl

theorem step_up_bare {place : Place N} (bare : place.names = []) :
    place.step .up = if place.rooted then place else { place with ups := place.ups + 1 } := by
  obtain ⟨rooted, ups, names⟩ := place
  subst bare
  rfl

theorem step_rooted (place : Place N) (s : Step N) : (place.step s).rooted = place.rooted := by
  cases s with
  | here => rfl
  | name n => rfl
  | up =>
    by_cases bare : place.names = []
    · rw [step_up_bare bare]
      split <;> rfl
    · rw [step_up_named bare]

theorem walk_rooted (place : Place N) (steps : List (Step N)) :
    (place.walk steps).rooted = place.rooted := by
  induction steps generalizing place with
  | nil => rfl
  | cons s rest ih =>
    have later := ih (place.step s)
    rw [step_rooted] at later
    exact later

theorem motion_unrooted (steps : List (Step N)) : (motion steps).rooted = false :=
  walk_rooted Place.origin steps

theorem after_origin (place : Place N) : place.after .origin = place := by
  unfold Place.after Place.origin
  cases place
  simp

theorem after_step (place moved : Place N) (unrooted : moved.rooted = false) (s : Step N) :
    place.after (moved.step s) = (place.after moved).step s := by
  cases s with
  | here => rfl
  | name n => simp [Place.after, Place.step]
  | up =>
    by_cases bare : moved.names = []
    · have climbed : moved.step .up = ⟨false, moved.ups + 1, []⟩ := by
        rw [step_up_bare bare, unrooted, bare]
        rfl
      by_cases inside : moved.ups < place.names.length
      · have left : (place.after moved).names ≠ [] := by
          simp only [Place.after, bare, List.append_nil]
          intro nothing
          have width := congrArg List.length nothing
          simp only [List.length_take, List.length_nil] at width
          omega
        have one : place.names.length - (moved.ups + 1) = place.names.length - moved.ups - 1 := by
          omega
        have above : moved.ups + 1 - place.names.length = moved.ups - place.names.length := by omega
        have width : (place.names.take (place.names.length - moved.ups)).length - 1 =
            place.names.length - moved.ups - 1 := by
          rw [List.length_take]
          omega
        rw [step_up_named left, climbed]
        simp only [Place.after, bare, List.append_nil]
        rw [List.dropLast_eq_take, List.take_take, width, one, above,
          Nat.min_eq_left (Nat.sub_le _ _)]
      · have nothing : place.names.length - moved.ups = 0 := by omega
        have still : place.names.length - (moved.ups + 1) = 0 := by omega
        have above : moved.ups + 1 - place.names.length = moved.ups - place.names.length + 1 := by
          omega
        have gone : (place.after moved).names = [] := by simp [Place.after, bare, nothing]
        rw [step_up_bare gone, climbed]
        simp only [Place.after, bare, nothing, still, above, List.take_zero, List.append_nil]
        cases place.rooted <;> rfl
    · have left : (place.after moved).names ≠ [] := by
        intro nothing
        exact bare (List.append_eq_nil_iff.mp nothing).2
      rw [step_up_named bare, step_up_named left]
      simp only [Place.after, List.dropLast_append_of_ne_nil bare]

theorem walk_motion (place : Place N) (steps : List (Step N)) :
    place.walk steps = place.after (motion steps) := by
  induction steps using List.reverseRecOn with
  | nil => exact (after_origin place).symm
  | append_singleton rest s ih =>
    have last : motion (rest ++ [s]) = (motion rest).step s := walk_append _ rest [s]
    rw [last, after_step place _ (motion_unrooted rest), ← ih]
    exact walk_append place rest [s]

/-- A motion leaves a place for good unless it comes back through the names it left. -/
theorem contains_after {outer moved : Place N} :
    outer.Contains (outer.after moved) ↔
      (outer.rooted = true ∨ moved.ups ≤ outer.names.length) ∧
        outer.names.drop (outer.names.length - moved.ups) <+: moved.names := by
  have split := List.take_append_drop (outer.names.length - moved.ups) outer.names
  have below : outer.names <+: outer.names.take (outer.names.length - moved.ups) ++ moved.names ↔
      outer.names.drop (outer.names.length - moved.ups) <+: moved.names := by
    conv => lhs; lhs; rw [← split]
    exact List.prefix_append_right_inj _
  unfold Place.Contains Place.after
  simp only [true_and, below]
  cases outer.rooted with
  | true => simp
  | false =>
    simp only [Bool.false_eq_true, ↓reduceIte, false_or]
    apply and_congr_left
    intro _
    omega

end LexicalMotion
