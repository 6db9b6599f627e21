import Vestibule.RequestPaths

/-!
Where the paths of requests lead when their dots are resolved. The filter for ".." looks at the
text before it is decoded and the join comes after, so an encoded ".." or an absolute remainder
gets through.
-/
namespace VestibuleConfinement
open VestibuleRust LexicalMotion VestibulePaths

/-- No panic, and no path that leaves the directory once its dots are resolved. -/
def Confined (davPath : Bytes) (outcome : Except Panic (Option DiskPath)) : Prop :=
  ∃ result, outcome = .ok result ∧
    ∀ path, result = some path → (pathOf davPath).resolve.Contains path.resolve

/-- A remainder stays in a directory: an absolute one begins with the directory itself, a relative
    one comes back through the names it climbs out of, and does not climb above a relative
    directory. -/
def StaysInside (dir rest : DiskPath) : Prop :=
  if rest.absolute then dir.absolute = true ∧ dir.resolve.names <+: rest.resolve.names
  else (dir.absolute = true ∨ (motion rest.steps).ups ≤ dir.resolve.names.length) ∧
    dir.resolve.names.drop (dir.resolve.names.length - (motion rest.steps).ups) <+:
      (motion rest.steps).names

def Kept (wantedPath davPath : Bytes) : Prop :=
  containsDots wantedPath = true ∨
    firstCharWhole wantedPath = true ∧ ∀ decodedPath, decodeUri (wantedPath.drop 1) = some decodedPath →
      StaysInside (pathOf davPath) (pathOf decodedPath)

theorem start_rooted (path : DiskPath) : path.start.rooted = path.absolute := by
  unfold Path.start
  split
  · rename_i absolute
    exact absolute.symm
  · rename_i relative
    exact (Bool.eq_false_iff.mpr relative).symm

theorem resolve_rooted (path : DiskPath) : path.resolve.rooted = path.absolute := by
  unfold Path.resolve
  rw [walk_rooted, start_rooted]

theorem rooted_ups (path : DiskPath) (absolute : path.absolute = true) : path.resolve.ups = 0 := by
  unfold Path.resolve Path.start
  rw [walk_motion, if_pos absolute]
  simp [Place.after, Place.root]

theorem join_relative {dir rest : DiskPath} (relative : rest.absolute = false) :
    (join dir rest).resolve = dir.resolve.after (motion rest.steps) := by
  unfold join
  rw [if_neg (by simp [relative]), ← walk_motion]
  split
  · rename_i empty
    obtain ⟨unrooted, bare⟩ := empty
    simp [Path.resolve, Path.start, unrooted, bare, relative, Place.walk]
  · exact walk_append _ _ _

theorem join_contained_iff (dir rest : DiskPath) :
    dir.resolve.Contains (join dir rest).resolve ↔ StaysInside dir rest := by
  unfold StaysInside
  split
  · rename_i absolute
    have replaced : join dir rest = rest := by simp [join, absolute]
    rw [replaced]
    unfold Place.Contains
    rw [resolve_rooted, resolve_rooted, absolute]
    constructor
    · intro inside
      exact ⟨inside.1.symm, inside.2.2⟩
    · intro inside
      obtain ⟨rooted, names⟩ := inside
      rw [rooted_ups rest absolute, rooted_ups dir rooted]
      exact ⟨rooted.symm, rfl, names⟩
  · rename_i relative
    rw [join_relative (Bool.eq_false_iff.mpr relative), contains_after, resolve_rooted]

theorem extract_path_confined_iff (wantedPath davPath : Bytes) :
    Confined davPath (extractPath wantedPath davPath) ↔ Kept wantedPath davPath := by
  unfold extractPath Kept
  by_cases dots : containsDots wantedPath = true
  · rw [if_pos dots]
    apply iff_of_true _ (Or.inl dots)
    exact ⟨none, rfl, fun path found => by cases found⟩
  rw [if_neg dots]
  simp only [dots, Bool.false_eq_true, false_or]
  by_cases whole : firstCharWhole wantedPath = true
  · have some_left : wantedPath ≠ [] := by
      intro nothing
      rw [nothing] at whole
      cases whole
    simp only [afterFirst, some_left, whole, ↓reduceIte, ok_bind, true_and]
    cases decoded : decodeUri (wantedPath.drop 1) with
    | none =>
      apply iff_of_true
      · exact ⟨none, rfl, fun path found => by cases found⟩
      · intro decodedPath found
        cases found
    | some decodedPath =>
      constructor
      · intro confined other found
        obtain ⟨result, run, inside⟩ := confined
        have same := Except.ok.inj run
        subst same
        cases found
        exact (join_contained_iff _ _).mp (inside _ rfl)
      · intro stays
        apply Exists.intro _
        constructor
        · rfl
        · intro path found
          cases found
          exact (join_contained_iff _ _).mpr (stays decodedPath rfl)
  · apply iff_of_false
    · intro confined
      obtain ⟨result, run, _⟩ := confined
      unfold afterFirst at run
      split at run
      · cases run
      · cases run
    · intro kept
      exact whole kept.1

/-- Exactly the kept request paths and Destinations end in a path of the directory, or in none. -/
theorem extracted_paths_confined_iff (uri : Bytes → Option Bytes) (headers : Headers)
    (wantedPath davPath : Bytes) :
    (Confined davPath (extractPath wantedPath davPath) ↔ Kept wantedPath davPath) ∧
      (Confined davPath (extractDest uri headers davPath) ↔
        ∀ destPath, destinationPath uri headers = some destPath → Kept destPath davPath) := by
  constructor
  · exact extract_path_confined_iff wantedPath davPath
  · unfold extractDest
    cases found : destinationPath uri headers with
    | none =>
      apply iff_of_true
      · exact ⟨none, rfl, fun path missing => by cases missing⟩
      · intro destPath missing
        cases missing
    | some destPath =>
      simp only [extract_path_confined_iff, Option.some.injEq, forall_eq']

theorem not_confined {davPath : Bytes} {outcome : Except Panic (Option DiskPath)} {path : DiskPath}
    (run : outcome = .ok (some path)) (outside : ¬ (pathOf davPath).resolve.Contains path.resolve) :
    ¬ Confined davPath outcome := by
  intro confined
  obtain ⟨result, same, inside⟩ := confined
  rw [run] at same
  exact outside (inside path (Except.ok.inj same).symm)

/-- An encoded ".." and a second slash leave the directory, and a Destination that is only an
    authority panics. -/
theorem encoded_dots_escape :
    ¬ Confined (utf8 "/srv/data") (extractPath (utf8 "/%2e%2e/test.txt") (utf8 "/srv/data")) ∧
      ¬ Confined (utf8 "/srv/data") (extractPath (utf8 "//etc/passwd") (utf8 "/srv/data")) ∧
      ¬ Confined (utf8 "/srv/data")
        (extractDest (fun _ => some []) [("destination", utf8 "localhost")] (utf8 "/srv/data")) := by
  constructor
  · exact @not_confined _ _ (pathOf (utf8 "/srv/data/../test.txt")) (by decide) (by decide)
  constructor
  · exact @not_confined _ _ (pathOf (utf8 "/etc/passwd")) (by decide) (by decide)
  · intro confined
    obtain ⟨result, run, _⟩ := confined
    cases run

end VestibuleConfinement
