import Vestibule.FileTree

/-!
System calls on a tree of files: how a spelled path is looked up, links included, and what the
calls do. Calls fail only for what the tree and the path say; there are no faults of the device,
no permissions and no limit on the length of a path. Each call tells which places it touched.
-/
namespace FileCalls
open LexicalMotion FileTree
variable {N β : Type} [FileName N]

inductive FsError where
  | notFound
  | notDirectory
  | isDirectory
  | alreadyExists
  | notEmpty
  | invalidInput
  | busy
  | loop
  deriving DecidableEq, Repr

/-- Symbolic links followed in one lookup. -/
def linkBudget : Nat := 40

/-- A target that ends in a separator has to be a directory. -/
def linkSteps (target : Path N) : List (Step N) :=
  target.steps ++ if target.slash then [.here] else []

/-- One pass over the steps; `onLink` goes on from a link that is followed. The last place may be
    missing. -/
def walkSteps (t : Tree N β) (follow : Bool)
    (onLink : List N → List (Step N) → Except FsError (List N)) :
    List N → List (Step N) → Except FsError (List N)
  | base, [] => .ok base
  | base, s :: rest =>
    match t.get base with
    | none => .error .notFound
    | some .dir =>
      match s with
      | .here => walkSteps t follow onLink base rest
      | .up => walkSteps t follow onLink base.dropLast rest
      | .name n =>
        match t.get (base ++ [n]) with
        | some (.link target) =>
          if follow || !rest.isEmpty then
            onLink (if target.absolute then [] else base) (linkSteps target ++ rest)
          else .ok (base ++ [n])
        | _ => walkSteps t follow onLink (base ++ [n]) rest
    | some _ => .error .notDirectory

def walk (t : Tree N β) (follow : Bool) : Nat → List N → List (Step N) → Except FsError (List N)
  | 0 => walkSteps t follow fun _ _ => .error .loop
  | budget + 1 => walkSteps t follow (walk t follow budget)

/-- The tree, the current directory of the process, and the places touched so far: created,
    overwritten, removed, or read to be copied. -/
structure World (N β : Type) [FileName N] where
  tree : Tree N β
  cwd : List N
  touched : List (List N)

namespace World

def fullSteps (w : World N β) (path : Path N) : List (Step N) :=
  if path.absolute then path.steps else w.cwd.map .name ++ path.steps

def isBlank (path : Path N) : Bool := !path.absolute && path.steps.isEmpty

/-- The place of a path, which may be missing as the last entry of a directory. -/
def lookup (w : World N β) (follow : Bool) (path : Path N) : Except FsError (List N) :=
  if isBlank path then .error .notFound
  else
    match walk w.tree (follow || path.slash) linkBudget [] (w.fullSteps path) with
    | .error e => .error e
    | .ok loc =>
      if path.slash && !w.tree.isDir loc then .error .notDirectory else .ok loc

def stat (w : World N β) (follow : Bool) (path : Path N) : Except FsError (Node N β) :=
  match w.lookup follow path with
  | .error e => .error e
  | .ok loc =>
    match w.tree.get loc with
    | none => .error .notFound
    | some node => .ok node

def metadata (w : World N β) (path : Path N) : Except FsError (Node N β) := w.stat true path
def symlinkMetadata (w : World N β) (path : Path N) : Except FsError (Node N β) := w.stat false path

def canonicalize (w : World N β) (path : Path N) : Except FsError (List N) :=
  match w.metadata path with
  | .error e => .error e
  | .ok _ => w.lookup true path

/-- The directory of the last step, and the name if the last step is one. -/
def entry (w : World N β) (path : Path N) : Except FsError (List N × Option N) :=
  if isBlank path then .error .notFound
  else
    match walk w.tree true linkBudget [] (w.fullSteps { path with steps := path.steps.dropLast }) with
    | .error e => .error e
    | .ok p =>
      if w.tree.isDir p then
        match path.steps.getLast? with
        | some (.name n) => .ok (p, some n)
        | _ => .ok (p, none)
      else if (w.tree.get p).isNone then .error .notFound
      else .error .notDirectory

theorem lookup_walk_iff {w : World N β} {path : Path N} {follow : Bool} {loc : List N} :
    w.lookup follow path = .ok loc ↔
      isBlank path = false ∧
        walk w.tree (follow || path.slash) linkBudget [] (w.fullSteps path) = .ok loc ∧
        (path.slash = true → w.tree.isDir loc = true) := by
  unfold lookup
  cases isBlank path with
  | true => simp
  | false =>
    simp only [Bool.false_eq_true, ↓reduceIte, true_and]
    cases walk w.tree (follow || path.slash) linkBudget [] (w.fullSteps path) with
    | error e => simp
    | ok here =>
      simp only [Bool.and_eq_true, Bool.not_eq_true', Except.ok.injEq]
      split
      · rename_i bad
        simp only [reduceCtorEq, false_iff, not_and]
        intro same needs
        subst same
        rw [needs bad.1] at bad
        cases bad.2
      · rename_i fine
        rw [Except.ok.injEq]
        constructor
        · intro same
          subst same
          refine ⟨rfl, fun slash => ?_⟩
          cases dir : w.tree.isDir here with
          | true => rfl
          | false => exact absurd ⟨slash, dir⟩ fine
        · exact fun both => both.1

theorem entry_walk_iff {w : World N β} {path : Path N} {p : List N} {n : N} :
    w.entry path = .ok (p, some n) ↔
      path.steps.getLast? = some (.name n) ∧
        walk w.tree true linkBudget [] (w.fullSteps { path with steps := path.steps.dropLast }) =
          .ok p ∧
        w.tree.isDir p = true := by
  unfold entry
  by_cases bare : path.steps = []
  · simp only [bare, List.getLast?_nil, reduceCtorEq, false_and, iff_false]
    repeat' split
    all_goals simp
  · have named : isBlank path = false := by simp [isBlank, bare]
    simp only [named, Bool.false_eq_true, ↓reduceIte]
    cases walk w.tree true linkBudget []
        (w.fullSteps { path with steps := path.steps.dropLast }) with
    | error e => simp
    | ok here =>
      dsimp only
      by_cases dir : w.tree.isDir here = true
      · rw [if_pos dir]
        rcases path.steps.getLast? with _ | _ | _ | m
        · simp
        · simp
        · simp
        · simp only [Except.ok.injEq, Prod.mk.injEq, Option.some.injEq, Step.name.injEq]
          constructor
          · intro both
            obtain ⟨same, name⟩ := both
            exact ⟨name, same, same ▸ dir⟩
          · intro both
            exact ⟨both.2.1, both.1⟩
      · rw [if_neg dir]
        constructor
        · intro run
          split at run <;> cases run
        · intro both
          exact absurd (Except.ok.inj both.2.1 ▸ both.2.2) dir

variable [DecidableEq N]

def putAt (w : World N β) (p : List N) (n : N) (node : Node N β) : World N β × Except FsError Unit :=
  if fits : w.tree.Writable p n then
    ({ w with tree := w.tree.put p n node fits, touched := w.touched ++ [p ++ [n]] }, .ok ())
  else (w, .error .invalidInput)

def createDir (w : World N β) (path : Path N) : World N β × Except FsError Unit :=
  match w.entry path with
  | .error e => (w, .error e)
  | .ok (_, none) => (w, .error .alreadyExists)
  | .ok (p, some n) =>
    if (w.tree.get (p ++ [n])).isSome then (w, .error .alreadyExists) else w.putAt p n .dir

/-- Opening to write, which creates or truncates. Links are followed to the end. -/
def openTruncated (w : World N β) (path : Path N) : World N β × Except FsError (List N × N) :=
  if path.slash then (w, .error .isDirectory)
  else
    match w.lookup true path with
    | .error e => (w, .error e)
    | .ok loc =>
      if w.tree.isDir loc then (w, .error .isDirectory)
      else
        match loc.getLast? with
        | none => (w, .error .isDirectory)
        | some n =>
          match w.putAt loc.dropLast n (.file []) with
          | (w, .error e) => (w, .error e)
          | (w, .ok _) => (w, .ok (loc.dropLast, n))

/-- `std::fs::copy`: the destination is truncated before the source is read. -/
def copyFile (w : World N β) (source dest : Path N) : World N β × Except FsError Unit :=
  match w.lookup true source, w.metadata source with
  | .error e, _ => (w, .error e)
  | _, .error e => (w, .error e)
  | .ok loc, .ok (.file _) =>
    match w.openTruncated dest with
    | (w, .error e) => (w, .error e)
    | (w, .ok (p, n)) =>
      match w.tree.get loc with
      | some (.file content) =>
        ({ w with touched := w.touched ++ [loc] } : World N β).putAt p n (.file content)
      | _ => (w, .error .invalidInput)
  | .ok _, .ok _ => (w, .error .invalidInput)

def dropAt (w : World N β) (p : List N) (n : N) : World N β :=
  { w with
    tree := w.tree.drop (p ++ [n]) (List.append_ne_nil_of_right_ne_nil _ (List.cons_ne_nil _ _))
    touched := w.touched ++ [p ++ [n]] }

def removeFile (w : World N β) (path : Path N) : World N β × Except FsError Unit :=
  match w.entry path with
  | .error e => (w, .error e)
  | .ok (_, none) => (w, .error .isDirectory)
  | .ok (p, some n) =>
    match w.tree.get (p ++ [n]) with
    | none => (w, .error .notFound)
    | some .dir => (w, .error .isDirectory)
    | some _ => if path.slash then (w, .error .notDirectory) else (w.dropAt p n, .ok ())

def removeDir (w : World N β) (path : Path N) : World N β × Except FsError Unit :=
  match w.entry path with
  | .error e => (w, .error e)
  | .ok (_, none) => (w, .error .invalidInput)
  | .ok (p, some n) =>
    match w.tree.get (p ++ [n]) with
    | none => (w, .error .notFound)
    | some .dir =>
      if w.tree.childless (p ++ [n]) then (w.dropAt p n, .ok ()) else (w, .error .notEmpty)
    | some _ => (w, .error .notDirectory)

def clearAt (w : World N β) (top : List N) : World N β :=
  { w with
    tree := w.tree.clear top
    touched := w.touched ++
      w.tree.support.filter fun loc => top.isPrefixOf loc && top ≠ loc && (w.tree.get loc).isSome }

def without (w : World N β) (top : List N) : World N β :=
  if inside : top ≠ [] then { w with tree := w.tree.drop top inside } else w

/-- `remove_dir_all`: a link is removed itself; a directory is emptied first and removed by its
    path in the end, which can still fail. -/
def removeDirAll (w : World N β) (path : Path N) : World N β × Except FsError Unit :=
  match w.lookup false path with
  | .error e => (w, .error e)
  | .ok loc =>
    match w.tree.get loc with
    | none => (w, .error .notFound)
    | some .dir => (w.clearAt loc).removeDir path
    | some (.link _) => w.removeFile path
    | some (.file _) => (w, .error .notDirectory)

def isDirNode : Node N β → Bool
  | .dir => true
  | _ => false

/-- `rename`, once both entries are known. Two spellings of one place are left as they are. -/
def renameAt (w : World N β) (slash : Bool) (p₁ : List N) (n₁ : N) (p₂ : List N) (n₂ : N) :
    World N β × Except FsError Unit :=
  let s := p₁ ++ [n₁]
  let d := p₂ ++ [n₂]
  match w.tree.get s with
  | none => (w, .error .notFound)
  | some node =>
    if slash && !isDirNode node then (w, .error .notDirectory)
    else if s = d then (w, .ok ())
    else if s <+: p₂ then (w, .error .invalidInput)
    else if d <+: p₁ then (w, .error .notEmpty)
    else if w.tree.isDir d && !isDirNode node then (w, .error .isDirectory)
    else if (w.tree.get d).isSome && !w.tree.isDir d && isDirNode node then
      (w, .error .notDirectory)
    else if !w.tree.childless d then (w, .error .notEmpty)
    else if fits : w.tree.Movable s p₂ n₂ then
      ({ w with tree := w.tree.move s p₂ n₂ fits, touched := w.touched ++ [s, d] }, .ok ())
    else (w, .error .invalidInput)

def rename (w : World N β) (source dest : Path N) : World N β × Except FsError Unit :=
  match w.entry source, w.entry dest with
  | .error e, _ => (w, .error e)
  | _, .error e => (w, .error e)
  | .ok (p₁, some n₁), .ok (p₂, some n₂) =>
    w.renameAt (source.slash || dest.slash) p₁ n₁ p₂ n₂
  | .ok _, .ok _ => (w, .error .busy)

/-- `read_dir` of an open directory: the next entry, from the tree as it was when the directory
    was opened, the tree now, and the entries reported so far. Entries made or removed in between
    may or may not be reported. -/
structure Listing (N β : Type) [FileName N] where
  next : Tree N β → Tree N β → List N → List N → Option N
  fresh : ∀ opened now loc seen n, next opened now loc seen = some n → n ∉ seen
  sound : ∀ opened now loc seen n, next opened now loc seen = some n →
    opened.get (loc ++ [n]) ≠ none ∨ now.get (loc ++ [n]) ≠ none
  complete : ∀ opened now loc seen n, next opened now loc seen = none →
    opened.get (loc ++ [n]) ≠ none → now.get (loc ++ [n]) ≠ none → n ∈ seen

def entries (t : Tree N β) (loc : List N) : List N :=
  t.support.filterMap fun place =>
    if place.dropLast = loc ∧ (t.get place).isSome then place.getLast? else none

theorem mem_entries {t : Tree N β} {loc : List N} {n : N} :
    n ∈ entries t loc ↔ t.get (loc ++ [n]) ≠ none := by
  unfold entries
  rw [List.mem_filterMap]
  constructor
  · intro listed
    obtain ⟨place, _, here⟩ := listed
    split at here
    · rename_i found
      obtain ⟨front, whole⟩ := List.getLast?_eq_some_iff.mp here
      subst whole
      rw [List.dropLast_concat] at found
      rw [found.1] at found
      exact Option.isSome_iff_ne_none.mp found.2
    · cases here
  · intro found
    obtain ⟨node, here⟩ := Option.ne_none_iff_exists'.mp found
    refine ⟨loc ++ [n], t.finite _ node here, ?_⟩
    rw [if_pos]
    · exact List.getLast?_concat
    · exact ⟨List.dropLast_concat, by simp [here]⟩

def Listing.asOpened : Listing N β where
  next opened _ loc seen := (entries opened loc).find? (· ∉ seen)
  fresh opened now loc seen n found := by simpa using List.find?_some found
  sound opened now loc seen n found := .inl (mem_entries.mp (List.mem_of_find?_eq_some found))
  complete opened now loc seen n done before _ := by
    simpa using List.find?_eq_none.mp done n (mem_entries.mpr before)

end World
end FileCalls
