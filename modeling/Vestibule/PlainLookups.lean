import Vestibule.FileCalls

/-!
Lookups and calls where there are no symbolic links. A path then leads to its lexical place or
nowhere, whatever the budget and whether or not the last step is followed, and each call has one
effect at one place.
-/
namespace PlainLookups
open LexicalMotion FileTree FileCalls World
variable {N β : Type} [FileName N]

def stepLoc (base : List N) : Step N → List N
  | .here => base
  | .up => base.dropLast
  | .name n => base ++ [n]

/-- A walk without links: every place that is left has to be a directory. -/
def tread (t : Tree N β) : List N → List (Step N) → Except FsError (List N)
  | base, [] => .ok base
  | base, s :: rest =>
    match t.get base with
    | none => .error .notFound
    | some .dir => tread t (stepLoc base s) rest
    | some _ => .error .notDirectory

def placeOf (w : World N β) (path : Path N) : List N := (Place.root.walk (w.fullSteps path)).names

def Leads (w : World N β) (path : Path N) (loc : List N) : Prop :=
  tread w.tree [] (w.fullSteps path) = .ok loc

def Enters (w : World N β) (path : Path N) (p : List N) (n : N) : Prop :=
  path.steps.getLast? = some (.name n) ∧ Leads w { path with steps := path.steps.dropLast } p ∧
    w.tree.isDir p = true

def child (path : Path N) (n : N) : Path N := ⟨path.absolute, path.steps ++ [.name n], false⟩

section Walks
variable {t : Tree N β}

theorem walk_steps_tread (free : t.LinkFree) (follow : Bool)
    (onLink : List N → List (Step N) → Except FsError (List N)) (base : List N)
    (steps : List (Step N)) : walkSteps t follow onLink base steps = tread t base steps := by
  induction steps generalizing base with
  | nil => rfl
  | cons s rest ih =>
    unfold walkSteps tread
    cases here : t.get base with
    | none => rfl
    | some node =>
      cases node with
      | file content => rfl
      | link target => rfl
      | dir =>
        cases s with
        | here => exact ih base
        | up => exact ih base.dropLast
        | name n =>
          simp only
          split
          · rename_i target found
            exact absurd found (free _ target)
          · exact ih (base ++ [n])

theorem walk_tread (free : t.LinkFree) (follow : Bool) (budget : Nat) (base : List N)
    (steps : List (Step N)) : walk t follow budget base steps = tread t base steps := by
  cases budget with
  | zero => exact walk_steps_tread free _ _ base steps
  | succ budget => exact walk_steps_tread free _ _ base steps

theorem tread_cons_ok {base loc : List N} {s : Step N} {rest : List (Step N)} :
    tread t base (s :: rest) = .ok loc ↔
      t.isDir base = true ∧ tread t (stepLoc base s) rest = .ok loc := by
  rw [is_dir_iff]
  conv => lhs; unfold tread
  cases t.get base with
  | none => simp
  | some node =>
    cases node with
    | dir => simp
    | file content => simp
    | link target => simp

theorem tread_append_ok {base loc : List N} {first later : List (Step N)} :
    tread t base (first ++ later) = .ok loc ↔
      ∃ mid, tread t base first = .ok mid ∧ tread t mid later = .ok loc := by
  induction first generalizing base with
  | nil => simp [tread]
  | cons s rest ih =>
    rw [List.cons_append, tread_cons_ok, ih]
    constructor
    · intro run
      obtain ⟨dir, mid, front, back⟩ := run
      exact ⟨mid, tread_cons_ok.mpr ⟨dir, front⟩, back⟩
    · intro run
      obtain ⟨mid, front, back⟩ := run
      obtain ⟨dir, front⟩ := tread_cons_ok.mp front
      exact ⟨dir, mid, front, back⟩

theorem tread_place {base loc : List N} {steps : List (Step N)}
    (run : tread t base steps = .ok loc) :
    loc = ((⟨true, 0, base⟩ : Place N).walk steps).names := by
  induction steps generalizing base with
  | nil => exact (Except.ok.inj run).symm
  | cons s rest ih =>
    obtain ⟨_, later⟩ := tread_cons_ok.mp run
    have moved : (⟨true, 0, base⟩ : Place N).step s = ⟨true, 0, stepLoc base s⟩ := by
      cases s with
      | here => rfl
      | name n => rfl
      | up => cases base <;> rfl
    have place := ih later
    rw [← moved] at place
    exact place

theorem tread_grows {t' : Tree N β} (dirs : ∀ loc, t.isDir loc = true → t'.isDir loc = true)
    {base loc : List N} {steps : List (Step N)} (run : tread t base steps = .ok loc) :
    tread t' base steps = .ok loc := by
  induction steps generalizing base with
  | nil => exact run
  | cons s rest ih =>
    obtain ⟨dir, later⟩ := tread_cons_ok.mp run
    exact tread_cons_ok.mpr ⟨dirs base dir, ih later⟩

end Walks

section Lookups
variable {w : World N β} {path : Path N}

theorem leads_place {loc : List N} (leads : Leads w path loc) : loc = placeOf w path :=
  tread_place leads

theorem lookup_ok_iff (free : w.tree.LinkFree) {follow : Bool} {loc : List N} :
    w.lookup follow path = .ok loc ↔
      isBlank path = false ∧ Leads w path loc ∧ (path.slash = true → w.tree.isDir loc = true) := by
  unfold Leads
  rw [lookup_walk_iff, walk_tread free]

theorem stat_ok_iff {follow : Bool} {node : Node N β} :
    w.stat follow path = .ok node ↔
      ∃ loc, w.lookup follow path = .ok loc ∧ w.tree.get loc = some node := by
  unfold stat
  cases w.lookup follow path with
  | error e => simp
  | ok loc =>
    cases found : w.tree.get loc <;> simp [found]

theorem full_steps_last {s : Step N} (last : path.steps.getLast? = some s) :
    w.fullSteps path = w.fullSteps { path with steps := path.steps.dropLast } ++ [s] := by
  have whole := List.dropLast_append_getLast? s last
  unfold fullSteps
  by_cases rooted : path.absolute = true
  · rw [if_pos rooted, if_pos rooted]
    exact whole.symm
  · rw [if_neg rooted, if_neg rooted, List.append_assoc, whole]

theorem enters_leads {p : List N} {n : N} (enters : Enters w path p n) :
    Leads w path (p ++ [n]) := by
  obtain ⟨last, parent, dir⟩ := enters
  unfold Leads at parent ⊢
  rw [full_steps_last last]
  exact tread_append_ok.mpr ⟨p, parent, tread_cons_ok.mpr ⟨dir, rfl⟩⟩

theorem leads_enters {loc : List N} {n : N} (leads : Leads w path loc)
    (last : path.steps.getLast? = some (.name n)) : ∃ p, loc = p ++ [n] ∧ Enters w path p n := by
  unfold Leads at leads
  rw [full_steps_last last] at leads
  obtain ⟨p, parent, step⟩ := tread_append_ok.mp leads
  obtain ⟨dir, same⟩ := tread_cons_ok.mp step
  exact ⟨p, (Except.ok.inj same).symm, last, parent, dir⟩

theorem entry_some_iff (free : w.tree.LinkFree) {p : List N} {n : N} :
    w.entry path = .ok (p, some n) ↔ Enters w path p n := by
  unfold Enters Leads
  rw [entry_walk_iff, walk_tread free]

@[simp] theorem child_full_steps (n : N) :
    w.fullSteps (child path n) = w.fullSteps path ++ [.name n] := by
  unfold fullSteps child
  cases path.absolute <;> simp

theorem child_place (n : N) : placeOf w (child path n) = placeOf w path ++ [n] := by
  unfold placeOf
  rw [child_full_steps, walk_append]
  rfl

theorem child_leads {n : N} {loc : List N} :
    Leads w (child path n) loc ↔
      ∃ p, Leads w path p ∧ w.tree.isDir p = true ∧ loc = p ++ [n] := by
  unfold Leads
  rw [child_full_steps, tread_append_ok]
  constructor
  · intro run
    obtain ⟨p, front, step⟩ := run
    obtain ⟨dir, same⟩ := tread_cons_ok.mp step
    exact ⟨p, front, dir, (Except.ok.inj same).symm⟩
  · intro run
    obtain ⟨p, front, dir, same⟩ := run
    exact ⟨p, front, tread_cons_ok.mpr ⟨dir, same ▸ rfl⟩⟩

theorem child_enters {n : N} {p : List N} (leads : Leads w path p) (dir : w.tree.isDir p = true) :
    Enters w (child path n) p n := by
  have whole : Leads w (child path n) (p ++ [n]) := child_leads.mpr ⟨p, leads, dir, rfl⟩
  obtain ⟨q, same, enters⟩ := leads_enters whole (n := n) (by simp [child])
  obtain ⟨front, _⟩ := List.append_singleton_inj.mp same
  exact front ▸ enters

theorem leads_grows {w' : World N β} (cwd : w'.cwd = w.cwd)
    (dirs : ∀ loc, w.tree.isDir loc = true → w'.tree.isDir loc = true) {loc : List N}
    (leads : Leads w path loc) : Leads w' path loc := by
  unfold Leads fullSteps at leads ⊢
  rw [cwd]
  exact tread_grows dirs leads

theorem enters_grows {w' : World N β} (cwd : w'.cwd = w.cwd)
    (dirs : ∀ loc, w.tree.isDir loc = true → w'.tree.isDir loc = true) {p : List N} {n : N}
    (enters : Enters w path p n) : Enters w' path p n :=
  ⟨enters.1, leads_grows cwd dirs enters.2.1, dirs p enters.2.2⟩

theorem place_same (path : Path N) {w' : World N β} (cwd : w'.cwd = w.cwd) :
    placeOf w' path = placeOf w path := by
  unfold placeOf fullSteps
  rw [cwd]

end Lookups
end PlainLookups
