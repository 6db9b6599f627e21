import Vestibule.TextEntries

/-!
What `strip_prefix` leaves of any path, put back behind the directory: the same path, however both are
spelled.
-/
namespace VestibulePaths
open VestibuleRust LexicalMotion FileTree PlainLookups VestibuleCopyMove

/-- The segments that are components wherever they stand. -/
def solid (segs : List Bytes) : List Bytes := segs.filter fun seg => !skipped seg

section Solid
variable {segs : List Bytes}

theorem solid_append (first later : List Bytes) : solid (first ++ later) = solid first ++ solid later :=
  List.filter_append ..

theorem solid_drop_while (segs : List Bytes) : solid (segs.dropWhile skipped) = solid segs := by
  induction segs with
  | nil => rfl
  | cons seg rest ih =>
    cases skip : skipped seg with
    | true =>
      rw [List.dropWhile_cons_of_pos skip, ih]
      simp [solid, skip]
    | false => rw [List.dropWhile_cons_of_neg (by simp [skip])]

theorem solid_reverse (segs : List Bytes) : solid segs.reverse = (solid segs).reverse :=
  List.filter_reverse ..

theorem solid_trimmed (segs : List Bytes) :
    solid (segs.reverse.dropWhile skipped).reverse = solid segs := by
  rw [solid_reverse, solid_drop_while, solid_reverse, List.reverse_reverse]

theorem solid_trim (segs : List Bytes) : solid (trimSegments segs) = solid segs := by
  change solid ((segs.dropWhile skipped).reverse.dropWhile skipped).reverse = _
  rw [solid_trimmed, solid_drop_while]

theorem solid_dropped (count : Nat) (segs : List Bytes) :
    solid (dropComponents count segs) = (solid segs).drop count := by
  induction segs generalizing count with
  | nil => cases count <;> rfl
  | cons seg rest ih =>
    cases count with
    | zero => rfl
    | succ count =>
      rw [dropComponents]
      split
      · rename_i dropped
        have skip : skipped seg = true := by simpa [skipped] using dropped
        rw [ih]
        simp [solid, skip]
      · rename_i kept
        have skip : skipped seg = false := by simpa [skipped] using kept
        rw [ih]
        simp [solid, skip]

theorem trimmed_front {seg : Bytes} {rest : List Bytes} (shape : trimSegments segs = seg :: rest) :
    skipped seg = false := by
  change ((segs.dropWhile skipped).reverse.dropWhile skipped).reverse = _ at shape
  cases found : segs.dropWhile skipped with
  | nil =>
    rw [found] at shape
    cases shape
  | cons first others =>
    have stands : skipped first = false := by
      have head := List.head_dropWhile_not skipped (l := segs) (by simp [found])
      simpa [found] using head
    have kept : ((first :: others).reverse.dropWhile skipped).reverse =
        first :: (others.reverse.dropWhile skipped).reverse := by
      rw [List.reverse_cons, List.dropWhile_append]
      split
      · rename_i gone
        rw [List.dropWhile_cons_of_neg (by simp [stands])]
        simp [List.isEmpty_iff.mp gone]
      · rw [List.reverse_append]
        rfl
    rw [found, kept] at shape
    cases shape
    exact stands

end Solid

section Texts
variable {text base : Bytes}

def dotted (text : Bytes) : List (Step Name) := if (segments text).head? = some [46] then [.here] else []

theorem solid_step {seg : Bytes} (kept : skipped seg = false) : stepOf seg ≠ .here := by
  have dot : seg ≠ [46] := by
    intro same
    subst same
    cases kept
  unfold stepOf
  rw [if_neg dot]
  split <;> simp

theorem filtered_steps (segs : List Bytes) :
    ((segs.filter (· ≠ [])).map stepOf).filter (· ≠ .here) = (solid segs).map stepOf := by
  induction segs with
  | nil => rfl
  | cons seg rest ih =>
    by_cases bare : seg = []
    · simpa [bare, skipped, solid] using ih
    by_cases dot : seg = [46]
    · simpa [dot, skipped, stepOf, solid] using ih
    · have kept : skipped seg = false := by simp [skipped, bare, dot]
      simpa [bare, kept, solid_step kept, solid] using ih

theorem segments_first (text : Bytes) :
    (segments text).head? = some [] ↔ text = [] ∨ text.head? = some slashByte := by
  cases text with
  | nil => simp [segments]
  | cons b rest =>
    rw [segments]
    split
    · rename_i slash
      simp [slash]
    · rename_i other
      split <;> simp [other]

theorem dot_first (text : Bytes) : (segments text).head? = some [46] ↔
    (pathOf text).absolute = false ∧ ∃ rest, (pathOf text).steps = .here :: rest := by
  have front := segments_first text
  cases found : segments text with
  | nil => exact absurd found (segments_ne_nil text)
  | cons first others =>
    rw [found] at front
    constructor
    · intro dot
      have same : first = [46] := Option.some.inj dot
      have other := mt front.mpr (by simp [same])
      simp only [not_or] at other
      exact ⟨by simpa [pathOf] using other.2, (others.filter (· ≠ [])).map stepOf, by
        simp [pathOf, found, same, stepOf]⟩
    · rintro ⟨relative, rest, shape⟩
      have nonempty : first ≠ [] := by
        intro bare
        rcases front.mp (by rw [bare]; rfl) with empty | slash
        · rw [empty] at shape
          cases shape
        · simp [pathOf, slash] at relative
      simp only [pathOf, found, ne_eq, nonempty, not_false_eq_true, decide_true,
        List.filter_cons_of_pos, List.map_cons, List.cons.injEq] at shape
      have here := shape.1
      unfold stepOf at here
      split at here
      · rename_i dot
        rw [dot]
        rfl
      · split at here <;> cases here

/-- A text says its components by its segments. -/
theorem components_text (text : Bytes) :
    components (pathOf text) = dotted text ++ (solid (segments text)).map stepOf := by
  have steps := filtered_steps (segments text)
  change (pathOf text).steps.filter (· ≠ .here) = _ at steps
  unfold components dotted
  by_cases dot : (segments text).head? = some [46]
  · obtain ⟨relative, rest, shape⟩ := (dot_first text).mp dot
    rw [shape] at steps
    rw [relative, shape, if_pos dot, ← steps]
    rfl
  · rw [if_neg dot, ← steps]
    split
    · rename_i rest relative shape
      exact absurd ((dot_first text).mpr ⟨relative, rest, shape⟩) dot
    · rfl

theorem segments_no_slash (text : Bytes) : ∀ seg ∈ segments text, slashByte ∉ seg := by
  induction text with
  | nil => simp [segments]
  | cons b rest ih =>
    rw [segments]
    split
    · intro seg member
      rcases List.mem_cons.mp member with first | later
      · simp [first]
      · exact ih seg later
    · rename_i other
      cases found : segments rest with
      | nil => exact absurd found (segments_ne_nil rest)
      | cons first others =>
        rw [found] at ih
        intro seg member
        rcases List.mem_cons.mp member with front | later
        · rw [front]
          intro inside
          rcases List.mem_cons.mp inside with same | more
          · exact other same.symm
          · exact ih first List.mem_cons_self more
        · exact ih seg (List.mem_cons_of_mem _ later)

theorem trim_sublist (segs : List Bytes) : (trimSegments segs).Sublist segs := by
  have ends := List.dropWhile_sublist skipped (l := (segs.dropWhile skipped).reverse)
  have back := List.reverse_sublist.mpr ends
  rw [List.reverse_reverse] at back
  exact back.trans (List.dropWhile_sublist skipped)

theorem dropped_sublist (count : Nat) (segs : List Bytes) : (dropComponents count segs).Sublist segs := by
  induction segs generalizing count with
  | nil => cases count <;> exact List.Sublist.refl _
  | cons seg rest ih =>
    cases count with
    | zero => exact List.Sublist.refl _
    | succ count =>
      rw [dropComponents]
      split
      · exact (ih _).cons seg
      · exact (ih _).cons seg

theorem solid_joined {segs : List Bytes} (whole : ∀ seg ∈ segs, slashByte ∉ seg) :
    solid (segments (joinSegments segs)) = solid segs := by
  by_cases bare : segs = []
  · subst bare
    rfl
  · rw [segments_joined bare whole]

/-- A base that is not empty begins with the root or with a step. -/
theorem base_begins (nonempty : base ≠ []) :
    ¬ ((pathOf base).absolute = false ∧ (pathOf base).steps = []) := by
  rintro ⟨relative, bare⟩
  exact relative_steps nonempty (by simpa [pathOf] using relative) bare

theorem components_bare {path : DiskPath} (relative : path.absolute = false)
    (bare : components path = []) : path.steps = [] := by
  unfold components at bare
  rw [relative] at bare
  cases found : path.steps with
  | nil => rfl
  | cons step rest =>
    rw [found] at bare
    cases step <;> simp at bare

theorem dotted_same (nonempty : base ≠ []) (root : (pathOf text).absolute = (pathOf base).absolute)
    (front : components (pathOf base) <+: components (pathOf text)) : dotted base = dotted text := by
  have plain : ∀ other : Bytes, .here ∉ (solid (segments other)).map stepOf := by
    intro other member
    obtain ⟨seg, kept, here⟩ := List.mem_map.mp member
    exact solid_step (by simpa using (List.mem_filter.mp kept).2) here
  have parts := components_text base
  rw [parts, components_text text] at front
  unfold dotted at parts front ⊢
  by_cases dot : (segments base).head? = some [46]
  · rw [if_pos dot] at front ⊢
    split
    · rfl
    · rename_i other
      rw [if_neg other] at front
      exact absurd (front.subset List.mem_cons_self) (plain text)
  · rw [if_neg dot] at parts front ⊢
    split
    · rename_i dot'
      rw [if_pos dot'] at front
      cases shape : (solid (segments base)).map stepOf with
      | nil =>
        rw [shape] at parts
        have relative := root ▸ ((dot_first text).mp dot').1
        exact absurd ⟨relative, components_bare relative parts⟩ (base_begins nonempty)
      | cons step steps =>
        rw [shape, List.nil_append] at front
        obtain ⟨same, _⟩ := List.cons_prefix_cons.mp front
        exact absurd (shape ▸ same ▸ List.mem_cons_self) (plain base)
    · rfl

theorem remainder_segments (nonempty : base ≠ [])
    (root : (pathOf text).absolute = (pathOf base).absolute)
    (front : components (pathOf base) <+: components (pathOf text)) :
    ∃ segs, remainder text (pathOf base) = joinSegments (trimSegments segs) ∧
      segs.Sublist (segments text) ∧
      solid segs = (solid (segments text)).drop (solid (segments base)).length := by
  have parts := components_text base
  have dots := dotted_same nonempty root front
  unfold remainder
  split
  · rename_i relative bare
    exact absurd ⟨relative, bare⟩ (base_begins nonempty)
  · rename_i rest relative steps
    refine ⟨_, rfl, (dropped_sublist _ _).trans (List.drop_sublist _ _), ?_⟩
    have dot := (dot_first base).mpr ⟨relative, rest, steps⟩
    unfold dotted at parts dots
    rw [if_pos dot] at parts dots
    have dot' : (segments text).head? = some [46] := by
      by_contra other
      rw [if_neg other] at dots
      cases dots
    obtain ⟨others, shape⟩ := List.head?_eq_some_iff.mp dot'
    rw [solid_dropped, parts, shape]
    simp [solid, skipped]
  · rename_i plain other
    refine ⟨_, rfl, dropped_sublist _ _, ?_⟩
    have dot : ¬ (segments base).head? = some [46] := by
      intro dot
      obtain ⟨relative, rest, steps⟩ := (dot_first base).mp dot
      exact other rest relative steps
    rw [solid_dropped, parts, dotted, if_neg dot]
    simp

theorem absolute_text (text : Bytes) :
    (pathOf text).absolute = true ↔ ∃ second rest, segments text = [] :: second :: rest := by
  have slash : (pathOf text).absolute = true ↔ text.head? = some slashByte := by simp [pathOf]
  rw [slash]
  cases text with
  | nil => simp [segments]
  | cons b rest =>
    rw [segments]
    split
    · rename_i same
      obtain ⟨second, others, shape⟩ := List.exists_cons_of_ne_nil (segments_ne_nil rest)
      simp [same, shape]
    · rename_i other
      split <;> simp [other]

theorem remainder_bare (text : Bytes) :
    solid (segments (remainder text (pathOf []))) = solid (segments text) ∧
      dotted (remainder text (pathOf [])) = dotted text ∧
      (pathOf (remainder text (pathOf []))).absolute = (pathOf text).absolute ∧
      ∀ seg ∈ segments (remainder text (pathOf [])), seg ∈ segments text ∨ seg = [] := by
  have whole := segments_no_slash text
  obtain ⟨first, rest, shape⟩ := List.exists_cons_of_ne_nil (segments_ne_nil text)
  have later := solid_trimmed rest
  have bare : pathOf [] = ⟨false, [], false⟩ := rfl
  have split_text : solid (segments text) = solid [first] ++ solid rest := by
    rw [shape, ← solid_append, List.singleton_append]
  rw [split_text, Bool.eq_iff_iff, absolute_text, absolute_text, ← later, dotted, dotted]
  rw [shape] at whole ⊢
  cases found : (rest.reverse.dropWhile skipped).reverse with
  | nil =>
    have kept : (rest.reverse.dropWhile fun seg => decide (seg = []) || decide (seg = [46])).reverse =
        [] := found
    simp only [remainder, bare, shape, kept]
    split
    · rename_i alone
      simp only [Bool.and_eq_true, decide_eq_true_eq, Bool.not_eq_true', List.isEmpty_eq_false_iff] at alone
      obtain ⟨second, others, more⟩ := List.exists_cons_of_ne_nil alone.2
      simp [alone.1, more, segments, solid, skipped]
    · rename_i alone
      rw [segments_whole (whole first List.mem_cons_self)]
      refine ⟨(List.append_nil _).symm, rfl, ?_, ?_⟩
      · constructor
        · rintro ⟨second, others, more⟩
          cases more
        · rintro ⟨second, others, more⟩
          cases more
          exact absurd rfl alone
      · intro seg member
        rw [List.mem_singleton.mp member]
        exact .inl List.mem_cons_self
  | cons second others =>
    have kept : (rest.reverse.dropWhile fun seg => decide (seg = []) || decide (seg = [46])).reverse =
        second :: others := found
    have below : ∀ seg ∈ first :: second :: others, seg ∈ first :: rest := by
      intro seg member
      rcases List.mem_cons.mp member with front | more
      · exact front ▸ List.mem_cons_self
      · rw [← found, List.mem_reverse] at more
        exact List.mem_cons_of_mem _ (List.mem_reverse.mp ((List.dropWhile_sublist skipped).subset more))
    have inside : ∀ seg ∈ first :: second :: others, slashByte ∉ seg :=
      fun seg member => whole seg (below seg member)
    simp only [remainder, bare, shape, kept]
    rw [segments_joined (List.cons_ne_nil _ _) inside]
    refine ⟨?_, rfl, ?_, fun seg member => .inl (below seg member)⟩
    · rw [← solid_append, List.singleton_append]
    · have some_left : rest ≠ [] := by
        intro none
        subst none
        cases found
      obtain ⟨third, more, follow⟩ := List.exists_cons_of_ne_nil some_left
      simp [follow]

end Texts

section Back
variable {text base rel : Bytes}

def MaybeSlash (rel shown : Bytes) : Prop := shown = rel ∨ (rel ≠ [] ∧ shown = rel ++ [slashByte])

theorem maybe_slash_same {shown : Bytes} (either : MaybeSlash rel shown) :
    solid (segments shown) = solid (segments rel) ∧ dotted shown = dotted rel ∧
      (pathOf shown).absolute = (pathOf rel).absolute := by
  rcases either with same | ⟨some_left, same⟩
  · rw [same]
    exact ⟨rfl, rfl, rfl⟩
  · obtain ⟨first, rest, shape⟩ := List.exists_cons_of_ne_nil (segments_ne_nil rel)
    obtain ⟨b, more, begins⟩ := List.exists_cons_of_ne_nil some_left
    have longer : segments (rel ++ [slashByte]) = segments rel ++ [[]] := segments_append rel []
    rw [same, dotted, dotted, longer, solid_append]
    refine ⟨List.append_nil _, by simp [shape], ?_⟩
    simp [pathOf, begins]

theorem components_join {base rest : DiskPath} (relative : rest.absolute = false)
    (begins : ¬ (base.absolute = false ∧ base.steps = [])) :
    (join base rest).absolute = base.absolute ∧
      components (join base rest) = components base ++ rest.steps.filter (· ≠ .here) := by
  unfold join
  rw [if_neg (by simp [relative]), if_neg begins]
  refine ⟨rfl, ?_⟩
  unfold components
  cases rooted : base.absolute with
  | true => exact List.filter_append ..
  | false =>
    obtain ⟨step, steps, shape⟩ := List.exists_cons_of_ne_nil fun bare => begins ⟨rooted, bare⟩
    rw [shape]
    cases step <;> simp

/-- What is left has the components behind those of the base, and put back behind it is the path. -/
structure Stripped (text base rel : Bytes) : Prop where
  covered : (solid (segments base)).length ≤ (solid (segments text)).length
  rest : solid (segments rel) = (solid (segments text)).drop (solid (segments base)).length
  pieces : ∀ seg ∈ segments rel, seg ∈ segments text ∨ seg = []
  back : ∀ shown, MaybeSlash rel shown → samePath (pathOf (joinText base shown)) (pathOf text) = true

theorem stripped_bare (text : Bytes) : Stripped text [] (remainder text (pathOf [])) := by
  obtain ⟨rest, dots, root, pieces⟩ := remainder_bare text
  refine ⟨Nat.zero_le _, rest, pieces, ?_⟩
  intro shown either
  obtain ⟨rest', dots', root'⟩ := maybe_slash_same either
  have same : joinText [] shown = shown := by simp [joinText]
  simp [same, samePath, components_text, rest', dots', root', rest, dots, root]

theorem stripped_below (nonempty : base ≠ []) (root : (pathOf text).absolute = (pathOf base).absolute)
    (front : components (pathOf base) <+: components (pathOf text)) :
    Stripped text base (remainder text (pathOf base)) := by
  obtain ⟨segs, left, inside, rest⟩ := remainder_segments nonempty root front
  have whole : ∀ seg ∈ trimSegments segs, slashByte ∉ seg := fun seg member =>
    segments_no_slash text seg (inside.subset ((trim_sublist segs).subset member))
  have kept : solid (segments (remainder text (pathOf base))) =
      (solid (segments text)).drop (solid (segments base)).length := by
    rw [left, solid_joined whole, solid_trim, rest]
  have dots := dotted_same nonempty root front
  have relative : (pathOf (remainder text (pathOf base))).absolute = false := by
    rw [Bool.eq_false_iff, left, ne_eq, absolute_text]
    rintro ⟨second, others, shape⟩
    by_cases bare : trimSegments segs = []
    · rw [bare] at shape
      cases shape
    · rw [segments_joined bare whole] at shape
      exact absurd (trimmed_front shape) (by simp [skipped])
  have covers : (solid (segments base)).map stepOf <+: (solid (segments text)).map stepOf := by
    rw [components_text, components_text, dots] at front
    exact (List.prefix_append_right_inj _).mp front
  refine ⟨by simpa using covers.length_le, kept, ?_, ?_⟩
  · intro seg member
    by_cases bare : trimSegments segs = []
    · rw [left, bare] at member
      exact .inr (List.mem_singleton.mp member)
    · rw [left, segments_joined bare whole] at member
      exact .inl (inside.subset ((trim_sublist segs).subset member))
  · intro shown either
    obtain ⟨rest', _, root'⟩ := maybe_slash_same either
    obtain ⟨rooted, parts⟩ := components_join (root'.trans relative) (base_begins nonempty)
    have steps : (pathOf shown).steps.filter (· ≠ .here) = (solid (segments shown)).map stepOf :=
      filtered_steps (segments shown)
    have first := List.prefix_iff_eq_take.mp covers
    rw [List.length_map, ← List.map_take] at first
    have whole_text : components (pathOf (joinText base shown)) = components (pathOf text) := by
      rw [path_of_join, parts, steps, rest', kept, components_text, components_text, dots, first,
        List.append_assoc, ← List.map_append, List.take_append_drop]
    have same_root : (pathOf (joinText base shown)).absolute = (pathOf text).absolute := by
      rw [path_of_join, rooted, root]
    simp [samePath, whole_text, same_root]

theorem strip_prefix_stripped (found : stripPrefix text base = some rel) : Stripped text base rel := by
  unfold stripPrefix at found
  split at found
  · rename_i starts
    cases found
    by_cases bare : base = []
    · subst bare
      exact stripped_bare text
    · simp only [startsWith, Bool.or_eq_true, Bool.and_eq_true, List.isEmpty_iff, Bool.not_eq_true',
        decide_eq_true_eq, List.isPrefixOf_iff_prefix] at starts
      rcases starts with ⟨empty, relative⟩ | ⟨root, front⟩
      · exact absurd ⟨relative, components_bare relative empty⟩ (base_begins bare)
      · exact stripped_below bare root front
  · cases found

end Back

section Below
variable {path base rel : Bytes} {n : Name}

theorem solid_leading (path : Bytes) : solid (leading path) = solid (segments path) := by
  unfold leading
  split
  · rename_i bare
    subst bare
    rfl
  split
  · rename_i ends
    obtain ⟨front, text⟩ := List.getLast?_eq_some_iff.mp ends
    have last : segments ([] : Bytes) = [[]] := rfl
    rw [text, segments_append, last, List.dropLast_concat, solid_append]
    exact (List.append_nil _).symm
  · rfl

theorem solid_entry (path : Bytes) (legal : FileName.legal n = true) :
    solid (segments (joinText path n)) = solid (segments path) ++ [n] := by
  have kept : solid [n] = [n] := by simp [solid, (legal_name legal).2.2.2]
  rw [segments_entry path legal, solid_append, solid_leading, kept]

theorem components_entry (path : Bytes) (legal : FileName.legal n = true) :
    components (pathOf (joinText path n)) = components (pathOf path) ++ [.name n] := by
  rw [path_of_entry path legal]
  exact components_descend (pathOf path) [n]

theorem strip_prefix_entry (found : stripPrefix path base = some rel) (legal : FileName.legal n = true) :
    ∃ rel', stripPrefix (joinText path n) base = some rel' ∧
      solid (segments rel') = solid (segments rel) ++ [n] := by
  have starts : startsWith (pathOf (joinText path n)) (pathOf base) = true := by
    unfold stripPrefix at found
    split at found
    · rename_i starts
      have root : (pathOf (joinText path n)).absolute = (pathOf path).absolute := by
        rw [path_of_entry path legal]
        rfl
      unfold startsWith at starts ⊢
      rw [root, components_entry path legal]
      simp only [Bool.or_eq_true, Bool.and_eq_true, List.isPrefixOf_iff_prefix] at starts ⊢
      rcases starts with bare | ⟨same, front⟩
      · exact .inl bare
      · exact .inr ⟨same, front.trans (List.prefix_append _ _)⟩
    · cases found
  have found' : stripPrefix (joinText path n) base = some (remainder (joinText path n) (pathOf base)) := by
    rw [stripPrefix, if_pos starts]
  have parts := strip_prefix_stripped found
  refine ⟨_, found', ?_⟩
  rw [(strip_prefix_stripped found').rest, solid_entry path legal,
    List.drop_append_of_le_length parts.covered, parts.rest]

end Below
end VestibulePaths
