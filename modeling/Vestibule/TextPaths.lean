import Vestibule.RequestPaths

/-!
Paths as the text they are kept in. The calls see a path as its steps; the names of a listing are
pieces of the text.
-/
namespace VestibulePaths
open VestibuleRust LexicalMotion

/-- `PathBuf::push` on the text. -/
def joinText (base rest : Bytes) : Bytes :=
  if rest.head? = some slashByte then rest
  else if base = [] ∨ base.getLast? = some slashByte then base ++ rest
  else base ++ slashByte :: rest

def extractText (wantedPath davPath : Bytes) : Except Panic (Option Bytes) :=
  if containsDots wantedPath then .ok none
  else do
    let tail ← afterFirst wantedPath
    match decodeUri tail with
    | none => return none
    | some decodedPath => return some (joinText davPath decodedPath)

def dropComponents : Nat → List Bytes → List Bytes
  | 0, segs => segs
  | _ + 1, [] => []
  | count + 1, seg :: rest =>
    if seg = [] ∨ seg = [46] then dropComponents (count + 1) rest else dropComponents count rest

/-- Empty segments and dots at the ends are no components. -/
def trimSegments (segs : List Bytes) : List Bytes :=
  let skip (seg : Bytes) : Bool := seg = [] || seg = [46]
  ((segs.dropWhile skip).reverse.dropWhile skip).reverse

def joinSegments (segs : List Bytes) : Bytes := [slashByte].intercalate segs

/-- `Path::starts_with`. -/
def startsWith (path base : DiskPath) : Bool :=
  (components base).isEmpty && !base.absolute ||
    path.absolute = base.absolute && (components base).isPrefixOf (components path)

def remainder (text : Bytes) (base : DiskPath) : Bytes :=
  match base.absolute, base.steps with
  -- nothing is taken off, and the front is kept as it is
  | false, [] =>
    let skip (seg : Bytes) : Bool := seg = [] || seg = [46]
    match segments text with
    | [] => []
    | first :: rest =>
      match (rest.reverse.dropWhile skip).reverse with
      | [] => if first = [] && !rest.isEmpty then [slashByte] else first
      | trimmed => joinSegments (first :: trimmed)
  -- a leading dot is a component
  | false, .here :: _ =>
    joinSegments (trimSegments (dropComponents ((components base).length - 1) ((segments text).drop 1)))
  | _, _ => joinSegments (trimSegments (dropComponents (components base).length (segments text)))

/-- `Path::strip_prefix`. -/
def stripPrefix (text base : Bytes) : Option Bytes :=
  if startsWith (pathOf text) (pathOf base) then some (remainder text (pathOf base)) else none

/-- `to_str` and `unwrap_or_default`. -/
def strOrDefault (text : Bytes) : Bytes := if validUtf8 text then text else []

theorem segments_ne_nil (text : Bytes) : segments text ≠ [] := by
  cases text with
  | nil => simp [segments]
  | cons b rest =>
    rw [segments]
    split
    · simp
    · split <;> simp

theorem segments_append (a b : Bytes) : segments (a ++ slashByte :: b) = segments a ++ segments b := by
  induction a with
  | nil => simp [segments]
  | cons c rest ih =>
    rw [List.cons_append, segments, segments, ih]
    split
    · rfl
    · cases found : segments rest with
      | nil => exact absurd found (segments_ne_nil rest)
      | cons first others => rfl

theorem segments_whole {text : Bytes} (whole : slashByte ∉ text) : segments text = [text] := by
  induction text with
  | nil => rfl
  | cons b rest ih =>
    have other : b ≠ slashByte := fun same => whole (same ▸ List.mem_cons_self)
    rw [segments, if_neg other, ih fun inside => whole (List.mem_cons_of_mem _ inside)]

theorem relative_steps {text : Bytes} (nonempty : text ≠ []) (relative : text.head? ≠ some slashByte) :
    (pathOf text).steps ≠ [] := by
  cases text with
  | nil => exact absurd rfl nonempty
  | cons b rest =>
    have other : b ≠ slashByte := fun same => relative (by rw [same]; rfl)
    have front : ∃ seg others, segments (b :: rest) = (b :: seg) :: others := by
      rw [segments, if_neg other]
      split
      · exact ⟨[], [], rfl⟩
      · exact ⟨_, _, rfl⟩
    obtain ⟨seg, others, same⟩ := front
    simp [pathOf, same]

theorem steps_append (a b : Bytes) :
    (pathOf (a ++ slashByte :: b)).steps = (pathOf a).steps ++ (pathOf b).steps := by
  simp [pathOf, segments_append]

theorem slash_append (a : Bytes) {rest : Bytes} (relative : rest.head? ≠ some slashByte) :
    (pathOf (a ++ slashByte :: rest)).slash =
      ((pathOf rest).steps.isEmpty || (pathOf rest).slash) := by
  by_cases bare : rest = []
  · subst bare
    simp [pathOf, segments]
  · have some_left := relative_steps bare relative
    have last : (a ++ slashByte :: rest).getLast? = rest.getLast? := by
      rw [List.getLast?_append, List.getLast?_cons]
      cases found : rest.getLast? with
      | none => exact absurd (List.getLast?_eq_none_iff.mp found) bare
      | some b => simp
    rw [List.isEmpty_eq_false_iff.mpr some_left]
    simp [pathOf, last]

theorem path_of_join (base rest : Bytes) :
    pathOf (joinText base rest) = join (pathOf base) (pathOf rest) := by
  unfold joinText join
  by_cases absolute : rest.head? = some slashByte
  · have flag : (pathOf rest).absolute = true := by simp [pathOf, absolute]
    rw [if_pos absolute, if_pos flag]
  have flag : ¬ (pathOf rest).absolute = true := by simp [pathOf, absolute]
  rw [if_neg absolute, if_neg flag]
  by_cases bare : base = []
  · subst bare
    simp [pathOf, segments]
  have named : ¬ ((pathOf base).absolute = false ∧ (pathOf base).steps = []) := by
    intro both
    have relative : base.head? ≠ some slashByte := by simpa [pathOf] using both.1
    exact relative_steps bare relative both.2
  rw [if_neg named]
  by_cases ends : base.getLast? = some slashByte
  · obtain ⟨front, whole⟩ := List.getLast?_eq_some_iff.mp ends
    have first : (front ++ slashByte :: rest).head? = base.head? := by
      rw [whole]
      cases front <;> rfl
    have steps : (pathOf base).steps = (pathOf front).steps := by
      rw [whole, steps_append]
      simp [pathOf, segments]
    rw [if_pos (Or.inr ends), steps, ← slash_append front absolute, ← steps_append]
    have text : base ++ rest = front ++ slashByte :: rest := by rw [whole, List.append_assoc]; rfl
    have root : (pathOf (front ++ slashByte :: rest)).absolute = (pathOf base).absolute := by
      simp only [pathOf, first]
    rw [text, ← root]
  · have first : (base ++ slashByte :: rest).head? = base.head? := by
      cases base with
      | nil => exact absurd rfl bare
      | cons b front => rfl
    have root : (pathOf (base ++ slashByte :: rest)).absolute = (pathOf base).absolute := by
      simp only [pathOf, first]
    rw [if_neg (by simp [bare, ends]), ← slash_append base absolute, ← steps_append, ← root]

theorem extract_path_text (wantedPath davPath : Bytes) :
    extractPath wantedPath davPath = (extractText wantedPath davPath).map fun text => text.map pathOf := by
  unfold extractPath extractText
  split
  · rfl
  · cases afterFirst wantedPath with
    | error p => rfl
    | ok tail =>
      simp only [ok_bind]
      cases decodeUri tail with
      | none => rfl
      | some decodedPath =>
        simp only [← path_of_join]
        rfl

theorem path_of_name (base : Bytes) {n : Name} (nonempty : n ≠ []) (whole : slashByte ∉ n) :
    pathOf (joinText base n) = join (pathOf base) ⟨false, [stepOf n], false⟩ := by
  rw [path_of_join]
  have relative : n.head? ≠ some slashByte := fun first => whole (List.mem_of_head? first)
  have ends : n.getLast? ≠ some slashByte := fun last => whole (List.mem_of_getLast? last)
  simp [pathOf, segments_whole whole, nonempty, relative, ends]

end VestibulePaths
