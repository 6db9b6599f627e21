import Vestibule.FileCalls

/-!
Lookups that go through symbolic links, as routes: what a route owes to the tree it is in, how it
splits at a step, and how the place of a path and the entry it names go together.
-/
namespace LinkedLookups
open LexicalMotion FileTree FileCalls World
variable {N β : Type} [FileName N]

def Linked (t : Tree N β) (loc : List N) : Prop := ∃ target, t.get loc = some (.link target)

/-- A walk that ends at `loc`, with so many links left to follow. -/
inductive Route (t : Tree N β) (follow : Bool) :
    Nat → List N → List (Step N) → List N → Prop where
  | done (budget : Nat) (base : List N) : Route t follow budget base [] base
  | here {budget : Nat} {base loc : List N} {rest : List (Step N)} :
      t.get base = some .dir → Route t follow budget base rest loc →
      Route t follow budget base (.here :: rest) loc
  | up {budget : Nat} {base loc : List N} {rest : List (Step N)} :
      t.get base = some .dir → Route t follow budget base.dropLast rest loc →
      Route t follow budget base (.up :: rest) loc
  | plain {budget : Nat} {base loc : List N} {n : N} {rest : List (Step N)} :
      t.get base = some .dir → ¬ Linked t (base ++ [n]) →
      Route t follow budget (base ++ [n]) rest loc →
      Route t follow budget base (.name n :: rest) loc
  | last (budget : Nat) {base : List N} {n : N} :
      t.get base = some .dir → follow = false → Linked t (base ++ [n]) →
      Route t follow budget base [.name n] (base ++ [n])
  | link {budget : Nat} {base loc : List N} {n : N} {target : Path N} {rest : List (Step N)} :
      t.get base = some .dir → t.get (base ++ [n]) = some (.link target) →
      (follow = true ∨ rest ≠ []) →
      Route t follow budget (if target.absolute then [] else base) (linkSteps target ++ rest) loc →
      Route t follow (budget + 1) base (.name n :: rest) loc

def moves : Step N → Bool
  | .here => false
  | _ => true

section Steps
variable {t : Tree N β} {follow : Bool} {budget : Nat} {base : List N} {rest : List (Step N)}

theorem walk_missing (missing : t.get base = none) (s : Step N) :
    walk t follow budget base (s :: rest) = .error .notFound := by
  cases budget <;> simp [walk, walkSteps, missing]

theorem walk_nil : walk t follow budget base [] = .ok base := by
  cases budget <;> rfl

theorem walk_here (dir : t.get base = some .dir) :
    walk t follow budget base (.here :: rest) = walk t follow budget base rest := by
  cases budget <;> simp [walk, walkSteps, dir]

theorem walk_up (dir : t.get base = some .dir) :
    walk t follow budget base (.up :: rest) = walk t follow budget base.dropLast rest := by
  cases budget <;> simp [walk, walkSteps, dir]

theorem walk_plain {n : N} (dir : t.get base = some .dir) (plain : ¬ Linked t (base ++ [n])) :
    walk t follow budget base (.name n :: rest) = walk t follow budget (base ++ [n]) rest := by
  have step (onLink : List N → List (Step N) → Except FsError (List N)) :
      walkSteps t follow onLink base (.name n :: rest) =
        walkSteps t follow onLink (base ++ [n]) rest := by
    conv => lhs; unfold walkSteps
    rw [dir]
    simp only
    split
    · rename_i target found
      exact absurd ⟨target, found⟩ plain
    · rfl
  cases budget with
  | zero => exact step _
  | succ budget => exact step _

theorem walk_last {n : N} (dir : t.get base = some .dir) (linked : Linked t (base ++ [n])) :
    walk t false budget base [.name n] = .ok (base ++ [n]) := by
  obtain ⟨target, found⟩ := linked
  cases budget <;> simp [walk, walkSteps, dir, found]

theorem walk_link_stuck {n : N} (dir : t.get base = some .dir) (linked : Linked t (base ++ [n]))
    (further : follow = true ∨ rest ≠ []) :
    walk t follow 0 base (.name n :: rest) = .error .loop := by
  obtain ⟨target, found⟩ := linked
  have go_on : (follow || !rest.isEmpty) = true := by simpa using further
  simp only [walk, walkSteps, dir, found, go_on, ↓reduceIte]

theorem walk_link {n : N} {target : Path N} (dir : t.get base = some .dir)
    (found : t.get (base ++ [n]) = some (.link target)) (further : follow = true ∨ rest ≠ []) :
    walk t follow (budget + 1) base (.name n :: rest) =
      walk t follow budget (if target.absolute then [] else base) (linkSteps target ++ rest) := by
  have go_on : (follow || !rest.isEmpty) = true := by simpa using further
  simp only [walk, walkSteps, dir, found, go_on, ↓reduceIte]

theorem walk_dir {s : Step N} {loc : List N} (run : walk t follow budget base (s :: rest) = .ok loc) :
    t.get base = some .dir := by
  cases here : t.get base with
  | none =>
    rw [walk_missing here] at run
    cases run
  | some node =>
    cases node with
    | dir => rfl
    | file content => cases budget <;> simp [walk, walkSteps, here] at run
    | link target => cases budget <;> simp [walk, walkSteps, here] at run

end Steps

section Routes
variable {t t' : Tree N β} {follow : Bool} {budget : Nat} {base loc : List N}
  {steps : List (Step N)}

/-- A link that is followed uses up the budget; every other step shortens the list. -/
theorem route_of_walk (budget : Nat) (base : List N) (steps : List (Step N))
    (run : walk t follow budget base steps = .ok loc) : Route t follow budget base steps loc := by
  cases steps with
  | nil =>
    rw [walk_nil] at run
    cases run
    exact .done budget loc
  | cons s rest =>
    have dir := walk_dir run
    cases s with
    | here => exact .here dir (route_of_walk budget base rest (walk_here dir ▸ run))
    | up => exact .up dir (route_of_walk budget base.dropLast rest (walk_up dir ▸ run))
    | name n =>
      by_cases linked : Linked t (base ++ [n])
      · by_cases further : follow = true ∨ rest ≠ []
        · cases budget with
          | zero =>
            rw [walk_link_stuck dir linked further] at run
            cases run
          | succ budget =>
            obtain ⟨target, found⟩ := linked
            rw [walk_link dir found further] at run
            exact .link dir found further (route_of_walk budget _ _ run)
        · simp only [not_or, Bool.not_eq_true, ne_eq, not_not] at further
          obtain ⟨stays, bare⟩ := further
          subst stays bare
          rw [walk_last dir linked] at run
          cases run
          exact .last budget dir rfl linked
      · exact .plain dir linked (route_of_walk budget (base ++ [n]) rest (walk_plain dir linked ▸ run))
termination_by (budget, steps.length)

theorem walk_ok_iff : walk t follow budget base steps = .ok loc ↔
    Route t follow budget base steps loc := by
  constructor
  · exact route_of_walk budget base steps
  · intro route
    induction route with
    | done budget base => exact walk_nil
    | here dir _ ih => rw [walk_here dir, ih]
    | up dir _ ih => rw [walk_up dir, ih]
    | plain dir plain _ ih => rw [walk_plain dir plain, ih]
    | last budget dir stays linked =>
      rw [stays]
      exact walk_last dir linked
    | link dir found further _ ih => rw [walk_link dir found further, ih]

theorem route_unique {loc' : List N} (first : Route t follow budget base steps loc)
    (second : Route t follow budget base steps loc') : loc = loc' :=
  Except.ok.inj ((walk_ok_iff.mpr first).symm.trans (walk_ok_iff.mpr second))

structure Extends (t t' : Tree N β) : Prop where
  dir : ∀ loc, t.get loc = some .dir → t'.get loc = some .dir
  link : ∀ loc target, t.get loc = some (.link target) → t'.get loc = some (.link target)
  file : ∀ loc content, t.get loc = some (.file content) → ∃ content', t'.get loc = some (.file content')

theorem extends_plain (more : Extends t t') {place : List N} (there : t.get place ≠ none)
    (plain : ¬ Linked t place) : ¬ Linked t' place := by
  intro linked
  obtain ⟨target, here⟩ := linked
  obtain ⟨node, found⟩ := Option.ne_none_iff_exists'.mp there
  cases node with
  | dir => simp [more.dir place found] at here
  | link target' => exact plain ⟨target', found⟩
  | file content =>
    obtain ⟨content', found'⟩ := more.file place content found
    simp [found'] at here

theorem route_base_dir {s : Step N} (route : Route t follow budget base (s :: steps) loc) :
    t.get base = some .dir := walk_dir (walk_ok_iff.mpr route)

theorem route_there (route : Route t follow budget base steps loc) (there : t.get loc ≠ none) :
    t.get base ≠ none := by
  cases route with
  | done => exact there
  | here dir _ => simp [dir]
  | up dir _ => simp [dir]
  | plain dir _ _ => simp [dir]
  | last _ dir _ _ => simp [dir]
  | link dir _ _ _ => simp [dir]

theorem route_extends (more : Extends t t') (route : Route t follow budget base steps loc)
    (there : t.get loc ≠ none) : Route t' follow budget base steps loc := by
  induction route with
  | done budget base => exact .done budget base
  | here dir _ ih => exact .here (more.dir _ dir) (ih there)
  | up dir _ ih => exact .up (more.dir _ dir) (ih there)
  | plain dir plain rest ih =>
    exact .plain (more.dir _ dir) (extends_plain more (route_there rest there) plain) (ih there)
  | last budget dir stays linked =>
    obtain ⟨target, found⟩ := linked
    exact .last budget (more.dir _ dir) stays ⟨target, more.link _ target found⟩
  | link dir found further _ ih =>
    exact .link (more.dir _ dir) (more.link _ _ found) further (ih there)

theorem route_moved (dirs : ∀ place, t.get place = some .dir → t'.get place = some .dir)
    (links : ∀ place target, t.get place = some (.link target) → t'.get place = some (.link target))
    (plain : ∀ place, Linked t' place → Linked t place) (route : Route t follow budget base steps loc) :
    Route t' follow budget base steps loc := by
  induction route with
  | done budget base => exact .done budget base
  | here dir _ ih => exact .here (dirs _ dir) ih
  | up dir _ ih => exact .up (dirs _ dir) ih
  | plain dir other _ ih => exact .plain (dirs _ dir) (fun linked => other (plain _ linked)) ih
  | last budget dir stays linked =>
    obtain ⟨target, found⟩ := linked
    exact .last budget (dirs _ dir) stays ⟨target, links _ target found⟩
  | link dir found further _ ih => exact .link (dirs _ dir) (links _ _ found) further ih

theorem route_split {s : Step N} {later : List (Step N)} (budget : Nat) (base : List N)
    (first : List (Step N)) (route : Route t follow budget base (first ++ s :: later) loc) :
    ∃ mid left, Route t true budget base first mid ∧ Route t follow left mid (s :: later) loc := by
  cases first with
  | nil => exact ⟨base, budget, .done budget base, route⟩
  | cons s' first =>
    rw [List.cons_append] at route
    generalize whole : first ++ s :: later = tail at route
    cases route with
    | here dir rest =>
      obtain ⟨mid, left, front, back⟩ := route_split budget base first (whole ▸ rest)
      exact ⟨mid, left, .here dir front, back⟩
    | up dir rest =>
      obtain ⟨mid, left, front, back⟩ := route_split budget base.dropLast first (whole ▸ rest)
      exact ⟨mid, left, .up dir front, back⟩
    | @plain _ _ _ n _ dir plain rest =>
      obtain ⟨mid, left, front, back⟩ := route_split budget (base ++ [n]) first (whole ▸ rest)
      exact ⟨mid, left, .plain dir plain front, back⟩
    | last _ _ _ _ => simp at whole
    | link dir found _ rest =>
      rw [← whole, ← List.append_assoc] at rest
      obtain ⟨mid, left, front, back⟩ := route_split _ _ _ rest
      exact ⟨mid, left, .link dir found (.inl rfl) front, back⟩
termination_by (budget, first.length)

theorem route_concat {n : N} (route : Route t true budget base steps loc)
    (dir : t.get loc = some .dir) (final : follow = false ∨ ¬ Linked t (loc ++ [n])) :
    Route t follow budget base (steps ++ [.name n]) (loc ++ [n]) := by
  induction route with
  | done budget base =>
    by_cases linked : Linked t (base ++ [n])
    · rcases final with stays | plain
      · exact .last budget dir stays linked
      · exact absurd linked plain
    · exact .plain dir linked (.done budget _)
  | here dir' _ ih => exact .here dir' (ih dir final)
  | up dir' _ ih => exact .up dir' (ih dir final)
  | plain dir' plain _ ih => exact .plain dir' plain (ih dir final)
  | last _ _ stays _ => cases stays
  | link dir' found _ _ ih =>
    rw [List.append_assoc] at ih
    exact .link dir' found (.inr (by simp)) (ih dir final)

theorem route_rests {rest : List (Step N)} (dir : t.get base = some .dir) (idle : ∀ s ∈ rest, s = .here)
    (route : Route t follow budget base steps loc) : Route t follow budget base (rest ++ steps) loc := by
  induction rest with
  | nil => exact route
  | cons s rest ih =>
    obtain ⟨first, others⟩ := List.forall_mem_cons.mp idle
    subst first
    exact .here dir (ih others)

/-- Dots make no difference on the way to a directory. -/
theorem route_same_moves {steps' : List (Step N)} (route : Route t true budget base steps loc)
    (dir : t.get loc = some .dir) (same : steps'.filter moves = steps.filter moves) :
    Route t true budget base steps' loc := by
  have idle {front : List (Step N)} (still : ∀ s ∈ front, ¬ moves s = true) : ∀ s ∈ front, s = .here := by
    intro s member
    have here := still s member
    cases s with
    | here => rfl
    | up | name n => exact absurd rfl here
  induction route generalizing steps' with
  | done budget base =>
    rw [← List.append_nil steps']
    exact route_rests dir (idle (List.filter_eq_nil_iff.mp same)) (.done budget base)
  | here dir' _ ih => exact ih dir same
  | up dir' _ ih =>
    obtain ⟨front, rest, rfl, still, _, later⟩ := List.filter_eq_cons_iff.mp same
    exact route_rests dir' (idle still) (.up dir' (ih dir later))
  | plain dir' plain _ ih =>
    obtain ⟨front, rest, rfl, still, _, later⟩ := List.filter_eq_cons_iff.mp same
    exact route_rests dir' (idle still) (.plain dir' plain (ih dir later))
  | last _ _ stays _ => cases stays
  | link dir' found _ _ ih =>
    obtain ⟨front, rest, rfl, still, _, later⟩ := List.filter_eq_cons_iff.mp same
    refine route_rests dir' (idle still) (.link dir' found (.inl rfl) (ih dir ?_))
    rw [List.filter_append, List.filter_append, later]

theorem route_last {n : N} (route : Route t follow budget base [.name n] loc)
    (plain : follow = false ∨ ¬ Linked t (base ++ [n])) : loc = base ++ [n] := by
  cases route with
  | plain _ _ rest =>
    cases rest
    rfl
  | last => rfl
  | link dir found further _ =>
    rcases plain with stays | plain
    · rcases further with goes | more
      · rw [stays] at goes
        cases goes
      · exact absurd rfl more
    · exact absurd ⟨_, found⟩ plain

theorem route_follow (route : Route t false budget base steps loc) (plain : ¬ Linked t loc) :
    Route t true budget base steps loc := by
  induction route with
  | done budget base => exact .done budget base
  | here dir _ ih => exact .here dir (ih plain)
  | up dir _ ih => exact .up dir (ih plain)
  | plain dir plain' _ ih => exact .plain dir plain' (ih plain)
  | last _ _ _ linked => exact absurd linked plain
  | link dir found _ _ ih => exact .link dir found (.inl rfl) (ih plain)

theorem dir_not_linked (dir : t.get base = some .dir) : ¬ Linked t base := by
  rintro ⟨target, found⟩
  rw [dir] at found
  cases found

theorem route_ends_plain (route : Route t true budget base steps loc) (plain : ¬ Linked t base) :
    ¬ Linked t loc := by
  induction route with
  | done budget base => exact plain
  | here dir _ ih => exact ih plain
  | @up budget base loc rest dir _ ih =>
    refine ih (dir_not_linked ?_)
    rcases List.eq_nil_or_concat base with bare | ⟨front, n, whole⟩
    · rw [bare]
      exact t.root
    · rw [whole, List.concat_eq_append] at dir ⊢
      rw [List.dropLast_concat]
      exact t.closed front n .dir dir
  | plain dir plain' _ ih => exact ih plain'
  | last _ _ stays _ => cases stays
  | @link _ base _ _ target _ dir _ _ _ ih =>
    refine ih (dir_not_linked ?_)
    split
    · exact t.root
    · exact dir

theorem route_unfollowed (route : Route t true budget base steps loc) (there : t.get loc ≠ none) :
    ∃ loc', Route t false budget base steps loc' ∧ t.get loc' ≠ none := by
  induction route with
  | done budget base => exact ⟨base, .done budget base, there⟩
  | here dir _ ih =>
    obtain ⟨loc', route, there'⟩ := ih there
    exact ⟨loc', .here dir route, there'⟩
  | up dir _ ih =>
    obtain ⟨loc', route, there'⟩ := ih there
    exact ⟨loc', .up dir route, there'⟩
  | plain dir plain _ ih =>
    obtain ⟨loc', route, there'⟩ := ih there
    exact ⟨loc', .plain dir plain route, there'⟩
  | last _ _ stays _ => cases stays
  | @link budget base loc n target rest dir found _ _ ih =>
    by_cases bare : rest = []
    · subst bare
      exact ⟨base ++ [n], .last _ dir rfl ⟨target, found⟩, by simp [found]⟩
    · obtain ⟨loc', route, there'⟩ := ih there
      exact ⟨loc', .link dir found (.inr bare) route, there'⟩

/-- A walk that goes on behind a directory has the links left that the way there has not used. -/
theorem walk_resumes {mid : List N} (route : Route t true budget base steps mid) :
    ∃ left, left ≤ budget ∧ ∀ later, walk t true budget base (steps ++ later) = walk t true left mid later := by
  induction route with
  | done budget base => exact ⟨budget, Nat.le_refl budget, fun _ => rfl⟩
  | here dir _ ih =>
    obtain ⟨left, less, same⟩ := ih
    exact ⟨left, less, fun later => (walk_here dir).trans (same later)⟩
  | up dir _ ih =>
    obtain ⟨left, less, same⟩ := ih
    exact ⟨left, less, fun later => (walk_up dir).trans (same later)⟩
  | plain dir plain _ ih =>
    obtain ⟨left, less, same⟩ := ih
    exact ⟨left, less, fun later => (walk_plain dir plain).trans (same later)⟩
  | last _ _ stays _ => cases stays
  | link dir found _ _ ih =>
    obtain ⟨left, less, same⟩ := ih
    refine ⟨left, Nat.le_succ_of_le less, fun later => ?_⟩
    rw [List.cons_append, walk_link dir found (.inl rfl), ← List.append_assoc, same]

theorem walk_stuck (route : Route t true budget base steps loc) (missing : t.get loc = none)
    (s : Step N) (later : List (Step N)) :
    walk t follow budget base (steps ++ s :: later) = .error .notFound := by
  induction route with
  | done budget base => exact walk_missing missing s
  | here dir _ ih =>
    rw [List.cons_append, walk_here dir]
    exact ih missing
  | up dir _ ih =>
    rw [List.cons_append, walk_up dir]
    exact ih missing
  | plain dir plain _ ih =>
    rw [List.cons_append, walk_plain dir plain]
    exact ih missing
  | last _ _ stays _ => cases stays
  | link dir found _ _ ih =>
    rw [List.cons_append, walk_link dir found (.inr (by simp)), ← List.append_assoc]
    exact ih missing

theorem walk_same (same : t'.get = t.get) (follow : Bool) (budget : Nat) :
    walk t' follow budget = walk t follow budget := by
  have pass (onLink : List N → List (Step N) → Except FsError (List N)) :
      walkSteps t' follow onLink = walkSteps t follow onLink := by
    funext base steps
    induction steps generalizing base with
    | nil => rfl
    | cons s rest ih =>
      unfold walkSteps
      simp only [same, ih]
  induction budget with
  | zero => exact pass _
  | succ budget ih =>
    unfold walk
    rw [ih, pass]

end Routes
end LinkedLookups
