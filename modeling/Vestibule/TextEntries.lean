import Vestibule.CopyTrees
import Vestibule.TextPaths

/-!
The text of the entries below a directory, and what `strip_prefix` leaves of it, however the directory
is spelled.
-/
namespace VestibulePaths
open VestibuleRust LexicalMotion FileTree PlainLookups VestibuleCopyMove

def skipped (seg : Bytes) : Bool := seg = [] || seg = [46]

def Legal (names : List Name) : Prop := ∀ n ∈ names, FileName.legal n = true

section Names
variable {base : Bytes} {n : Name} {names : List Name}

theorem legal_name (legal : FileName.legal n = true) :
    n ≠ [] ∧ slashByte ∉ n ∧ stepOf n = .name n ∧ skipped n = false := by
  simp only [FileName.legal, Bool.and_eq_true, decide_eq_true_eq, List.all_eq_true, ne_eq,
    decide_not, Bool.not_eq_true', decide_eq_false_iff_not] at legal
  obtain ⟨⟨⟨⟨nonempty, notHere⟩, notUp⟩, _⟩, bytes⟩ := legal
  refine ⟨nonempty, fun inside => (bytes slashByte inside).2 rfl, ?_, ?_⟩
  · rw [stepOf, if_neg notHere, if_neg notUp]
  · simp [skipped, nonempty, notHere]

theorem legal_skipped (legal : Legal names) (member : n ∈ names) : skipped n = false :=
  (legal_name (legal n member)).2.2.2

theorem join_segments_cons {second : Name} {rest : List Name} :
    joinSegments (n :: second :: rest) = n ++ slashByte :: joinSegments (second :: rest) := by
  simp [joinSegments, List.intercalate]

theorem segments_joined (some_left : names ≠ []) (whole : ∀ n ∈ names, slashByte ∉ n) :
    segments (joinSegments names) = names := by
  induction names with
  | nil => exact absurd rfl some_left
  | cons n rest ih =>
    have first := segments_whole (whole n List.mem_cons_self)
    cases rest with
    | nil => simpa [joinSegments, List.intercalate] using first
    | cons second rest =>
      have later := ih (List.cons_ne_nil _ _) fun m member => whole m (List.mem_cons_of_mem _ member)
      rw [join_segments_cons, segments_append, first, later]
      rfl

theorem joined_injective {others : List Name} (legal : Legal names) (legal' : Legal others)
    (some_left : names ≠ []) (some_left' : others ≠ [])
    (same : joinSegments names = joinSegments others) : names = others := by
  have whole : ∀ n ∈ names, slashByte ∉ n := fun n member => (legal_name (legal n member)).2.1
  have whole' : ∀ n ∈ others, slashByte ∉ n := fun n member => (legal_name (legal' n member)).2.1
  rw [← segments_joined some_left whole, same, segments_joined some_left' whole']

end Names

section Entries
variable {base : Bytes} {n : Name} {names : List Name}

/-- The segments of a directory that those of its entries begin with. -/
def leading (base : Bytes) : List Bytes :=
  if base = [] then []
  else if base.getLast? = some slashByte then (segments base).dropLast
  else segments base

theorem segments_entry (base : Bytes) (legal : FileName.legal n = true) :
    segments (joinText base n) = leading base ++ [n] := by
  obtain ⟨nonempty, whole, _⟩ := legal_name legal
  have relative : n.head? ≠ some slashByte := fun first => whole (List.mem_of_head? first)
  unfold joinText leading
  rw [if_neg relative]
  by_cases bare : base = []
  · simp [bare, segments_whole whole]
  by_cases ends : base.getLast? = some slashByte
  · obtain ⟨front, text⟩ := List.getLast?_eq_some_iff.mp ends
    rw [if_pos (.inr ends), if_neg bare, if_pos ends, text]
    have shape : front ++ [slashByte] ++ n = front ++ slashByte :: n := by simp
    rw [shape, segments_append, segments_append, segments_whole whole]
    simp [segments]
  · rw [if_neg (by simp [bare, ends]), if_neg bare, if_neg ends, segments_append, segments_whole whole]

theorem leading_entry (base : Bytes) (legal : FileName.legal n = true) :
    leading (joinText base n) = leading base ++ [n] := by
  obtain ⟨nonempty, whole, _⟩ := legal_name legal
  have relative : n.head? ≠ some slashByte := fun first => whole (List.mem_of_head? first)
  have ends : n.getLast? ≠ some slashByte := fun last => whole (List.mem_of_getLast? last)
  have some_left : joinText base n ≠ [] := by
    unfold joinText
    rw [if_neg relative]
    split <;> simp [nonempty]
  have last : (joinText base n).getLast? ≠ some slashByte := by
    have same : (joinText base n).getLast? = n.getLast? := by
      obtain ⟨front, b, rfl⟩ : ∃ front b, n = front ++ [b] :=
        ⟨n.dropLast, n.getLast nonempty, (List.dropLast_append_getLast nonempty).symm⟩
      unfold joinText
      rw [if_neg relative]
      split
      · rw [← List.append_assoc, List.getLast?_concat, List.getLast?_concat]
      · rw [← List.cons_append, ← List.append_assoc, List.getLast?_concat, List.getLast?_concat]
    rwa [same]
  conv => lhs; unfold leading
  rw [if_neg some_left, if_neg last, segments_entry base legal]

theorem segments_entries (base : Bytes) (legal : Legal names) (some_left : names ≠ []) :
    segments (names.foldl joinText base) = leading base ++ names := by
  have all : ∀ front : List Name, Legal front →
      leading (front.foldl joinText base) = leading base ++ front := by
    intro front
    induction front using List.reverseRecOn with
    | nil => intro _; exact (List.append_nil _).symm
    | append_singleton front m ih =>
      intro legal
      rw [List.foldl_append, List.foldl_cons, List.foldl_nil,
        leading_entry _ (legal m (List.mem_append_right _ List.mem_cons_self)),
        ih fun k member => legal k (List.mem_append_left _ member), List.append_assoc]
  obtain ⟨front, n, rfl⟩ : ∃ front n, names = front ++ [n] :=
    ⟨names.dropLast, names.getLast some_left, (List.dropLast_append_getLast some_left).symm⟩
  rw [List.foldl_append, List.foldl_cons, List.foldl_nil,
    segments_entry _ (legal n (List.mem_append_right _ List.mem_cons_self)),
    all front fun k member => legal k (List.mem_append_left _ member), List.append_assoc]

theorem path_of_entry (base : Bytes) (legal : FileName.legal n = true) :
    pathOf (joinText base n) = child (pathOf base) n := by
  obtain ⟨nonempty, whole, named, _⟩ := legal_name legal
  rw [path_of_name base nonempty whole, named, ← join_name_child]
  rfl

theorem path_of_entries (base : Bytes) (legal : Legal names) :
    pathOf (names.foldl joinText base) = descend (pathOf base) names := by
  induction names using List.reverseRecOn with
  | nil => rfl
  | append_singleton front m ih =>
    rw [List.foldl_append, List.foldl_cons, List.foldl_nil, descend_concat,
      path_of_entry _ (legal m (List.mem_append_right _ List.mem_cons_self)),
      ih fun k member => legal k (List.mem_append_left _ member)]

end Entries

section Components
variable {path : DiskPath} {names : List Name}

theorem descend_steps (path : DiskPath) (names : List Name) :
    (descend path names).absolute = path.absolute ∧
      (descend path names).steps = path.steps ++ names.map .name := by
  induction names using List.reverseRecOn with
  | nil => exact ⟨rfl, (List.append_nil _).symm⟩
  | append_singleton front n ih =>
    rw [descend_concat]
    exact ⟨ih.1, by simp [child, ih.2]⟩

theorem components_descend (path : DiskPath) (names : List Name) :
    components (descend path names) = components path ++ names.map .name := by
  obtain ⟨absolute, steps⟩ := descend_steps path names
  have kept : (names.map Step.name).filter (· ≠ .here) = names.map Step.name := by
    apply List.filter_eq_self.mpr
    intro step member
    obtain ⟨n, _, same⟩ := List.mem_map.mp member
    simp [← same]
  have filtered : ∀ rest : List (Step Name), (rest ++ names.map Step.name).filter (· ≠ .here) =
      rest.filter (· ≠ .here) ++ names.map Step.name := by
    intro rest
    rw [List.filter_append, kept]
  unfold components
  rw [absolute, steps]
  cases path.absolute with
  | true => exact filtered path.steps
  | false =>
    cases path.steps with
    | nil =>
      cases names with
      | nil => rfl
      | cons n rest => exact kept
    | cons step rest =>
      cases step with
      | here => exact congrArg (.here :: ·) (filtered rest)
      | up => exact filtered (.up :: rest)
      | name n => exact filtered (.name n :: rest)

theorem starts_with_descend (path : DiskPath) (names : List Name) :
    startsWith (descend path names) path = true := by
  have absolute := (descend_steps path names).1
  simp [startsWith, components_descend, absolute]

end Components

section Remainder
variable {names segs pre : List Name}

theorem drop_components_front (front : List Bytes) (rest : List Bytes) :
    ∃ pre, (∀ seg ∈ pre, skipped seg = true) ∧
      dropComponents (front.countP fun seg => !skipped seg) (front ++ rest) = pre ++ rest := by
  induction front with
  | nil => exact ⟨[], by simp, by simp [dropComponents]⟩
  | cons seg front ih =>
    obtain ⟨pre, skips, same⟩ := ih
    cases skip : skipped seg with
    | true =>
      have dropped : seg = [] ∨ seg = [46] := by simpa [skipped] using skip
      rw [List.countP_cons_of_neg (by simp [skip])]
      cases count : front.countP fun seg => !skipped seg with
      | zero =>
        refine ⟨seg :: front, ?_, rfl⟩
        intro other member
        rcases List.mem_cons.mp member with first | later
        · rwa [first]
        · simpa using List.countP_eq_zero.mp count other later
      | succ k =>
        refine ⟨pre, skips, ?_⟩
        rw [List.cons_append, dropComponents, if_pos dropped, ← count]
        exact same
    | false =>
      have other : ¬ (seg = [] ∨ seg = [46]) := by simpa [skipped] using skip
      rw [List.countP_cons_of_pos (by simp [skip]), List.cons_append, dropComponents, if_neg other]
      exact ⟨pre, skips, same⟩

theorem names_kept (legal : Legal names) : (names.reverse.dropWhile skipped).reverse = names := by
  by_cases bare : names = []
  · subst bare
    rfl
  have last : skipped (names.getLast bare) = false := legal_skipped legal (List.getLast_mem bare)
  have split := List.dropLast_append_getLast bare
  rw [← split, List.reverse_append, List.reverse_singleton, List.singleton_append,
    List.dropWhile_cons_of_neg (by simp [last]), List.reverse_cons, List.reverse_reverse]

theorem trim_segments_front (skips : ∀ seg ∈ pre, skipped seg = true) (legal : Legal names)
    (some_left : names ≠ []) : trimSegments (pre ++ names) = names := by
  obtain ⟨n, rest, rfl⟩ := List.exists_cons_of_ne_nil some_left
  have first : (pre ++ n :: rest).dropWhile skipped = n :: rest := by
    rw [List.dropWhile_append_of_pos skips, List.dropWhile_cons_of_neg]
    simp [legal_skipped legal List.mem_cons_self]
  change (((pre ++ n :: rest).dropWhile skipped).reverse.dropWhile skipped).reverse = _
  rw [first, names_kept legal]

theorem count_steps (segs : List Bytes) :
    (((segs.filter (· ≠ [])).map stepOf).filter (· ≠ .here)).length =
      segs.countP fun seg => !skipped seg := by
  induction segs with
  | nil => rfl
  | cons seg rest ih =>
    by_cases bare : seg = []
    · simpa [bare, skipped] using ih
    · by_cases dot : seg = [46]
      · simpa [dot, skipped, stepOf] using ih
      · have named : stepOf seg ≠ .here := by
          unfold stepOf
          rw [if_neg dot]
          split <;> simp
        simpa [bare, dot, skipped, named] using ih

theorem count_leading (base : Bytes) :
    ((leading base).countP fun seg => !skipped seg) = (segments base).countP fun seg => !skipped seg := by
  unfold leading
  split
  · rename_i bare
    subst bare
    rfl
  split
  · rename_i ends
    obtain ⟨front, text⟩ := List.getLast?_eq_some_iff.mp ends
    rw [text, segments_append]
    simp [segments, skipped]
  · rfl

/-- A relative directory that begins with a dot begins with it as a segment. -/
theorem leading_dot {base : Bytes} {rest : List (Step Name)} (relative : (pathOf base).absolute = false)
    (steps : (pathOf base).steps = .here :: rest) :
    ∃ others, leading base = [46] :: others ∧
      (rest.filter (· ≠ .here)).length = others.countP fun seg => !skipped seg := by
  have nonempty : base ≠ [] := by
    intro bare
    subst bare
    cases steps
  have first : ∃ others, segments base = [46] :: others := by
    cases base with
    | nil => exact absurd rfl nonempty
    | cons b text =>
      have other : b ≠ slashByte := by
        intro same
        subst same
        simp [pathOf] at relative
      have shape : ∃ seg others, segments (b :: text) = (b :: seg) :: others := by
        rw [segments, if_neg other]
        split <;> exact ⟨_, _, rfl⟩
      obtain ⟨seg, others, same⟩ := shape
      simp only [pathOf, same, ne_eq, reduceCtorEq, not_false_eq_true, decide_true,
        List.filter_cons_of_pos, List.map_cons, List.cons.injEq] at steps
      have dot : b :: seg = [46] := by
        have here := steps.1
        unfold stepOf at here
        split at here
        · assumption
        · split at here <;> cases here
      exact ⟨others, by rw [same, dot]⟩
  obtain ⟨others, segs⟩ := first
  have count := count_steps (segments base)
  change ((pathOf base).steps.filter (· ≠ .here)).length = _ at count
  rw [steps, ← count_leading] at count
  have shape : ∃ others, leading base = [46] :: others := by
    unfold leading
    rw [if_neg nonempty]
    split
    · rename_i ends
      obtain ⟨front, text⟩ := List.getLast?_eq_some_iff.mp ends
      rw [text, segments_append] at segs ⊢
      cases found : segments front with
      | nil => exact absurd found (segments_ne_nil front)
      | cons seg more =>
        rw [found] at segs
        cases segs
        refine ⟨more, ?_⟩
        have last : segments ([] : Bytes) = [[]] := rfl
        rw [last, List.cons_append, ← List.cons_append, List.dropLast_concat]
    · exact ⟨others, segs⟩
  obtain ⟨others, same⟩ := shape
  refine ⟨others, same, ?_⟩
  rw [same] at count
  simpa [skipped] using count

theorem trim_dropped {front : List Bytes} {count : Nat} (legal : Legal names) (some_left : names ≠ [])
    (same : count = front.countP fun seg => !skipped seg) :
    trimSegments (dropComponents count (front ++ names)) = names := by
  obtain ⟨pre, skips, rest⟩ := drop_components_front front names
  rw [same, rest]
  exact trim_segments_front skips legal some_left

theorem remainder_entries (base : Bytes) (legal : Legal names) (some_left : names ≠ []) :
    remainder (names.foldl joinText base) (pathOf base) = joinSegments names := by
  have segs := segments_entries base legal some_left
  unfold remainder
  rw [segs]
  split
  · rename_i relative bare
    have empty : base = [] := by
      by_contra nonempty
      exact relative_steps nonempty (by simpa [pathOf] using relative) bare
    obtain ⟨n, rest, rfl⟩ := List.exists_cons_of_ne_nil some_left
    subst empty
    have kept : (rest.reverse.dropWhile fun seg => decide (seg = []) || decide (seg = [46])).reverse =
        rest := names_kept fun m member => legal m (List.mem_cons_of_mem _ member)
    simp only [leading, ↓reduceIte, List.nil_append, kept]
    cases rest with
    | nil => simp [joinSegments, List.intercalate]
    | cons second rest => rfl
  · rename_i rest relative steps
    obtain ⟨others, shape, count⟩ := leading_dot relative steps
    have width : (components (pathOf base)).length - 1 = others.countP fun seg => !skipped seg := by
      unfold components
      rw [relative, steps, ← count]
      rfl
    rw [shape, List.cons_append, List.drop_one, List.tail_cons, trim_dropped legal some_left width]
  · rename_i plain dotted
    have width : (components (pathOf base)).length = (leading base).countP fun seg => !skipped seg := by
      rw [count_leading, ← count_steps]
      change _ = ((pathOf base).steps.filter (· ≠ .here)).length
      unfold components
      split
      · rename_i rest relative steps
        exact absurd steps (dotted rest relative)
      · rfl
    rw [trim_dropped legal some_left width]

theorem strip_prefix_entries (base : Bytes) (legal : Legal names) (some_left : names ≠ []) :
    stripPrefix (names.foldl joinText base) base = some (joinSegments names) := by
  unfold stripPrefix
  rw [path_of_entries base legal, starts_with_descend, remainder_entries base legal some_left]
  rfl

end Remainder
end VestibulePaths
