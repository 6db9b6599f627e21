import Vestibule.XmlReader

/-!
Which texts are read between two tags as they are written, and which as they were before they were
escaped.
-/
namespace XmlReader

def sectionEnd : List Char := [']', ']', '>']

/-- The markup of a text is escaped. The bracket that closes a tag is so by some and not by others. -/
def escapeChar (closing : Bool) (c : Char) : List Char :=
  if c = '<' then "&lt;".toList
  else if c = '&' then "&amp;".toList
  else if c = '>' && closing then "&gt;".toList
  else [c]

def escapeText (closing : Bool) (text : List Char) : List Char := text.flatMap (escapeChar closing)

theorem escape_no_tag (closing : Bool) (text : List Char) : '<' ∉ escapeText closing text := by
  intro member
  obtain ⟨c, _, inside⟩ := List.mem_flatMap.mp member
  unfold escapeChar at inside
  split at inside
  · exact absurd inside (by decide)
  split at inside
  · exact absurd inside (by decide)
  split at inside
  · exact absurd inside (by decide)
  · rename_i other _ _
    exact other (List.mem_singleton.mp inside).symm

/-- A character that stands for itself, behind characters with so many brackets at their end. -/
def appendChar (strict : Bool) (s : List Char × Nat) (c : Char) : Option (List Char × Nat) :=
  if c = '>' && strict && s.2 = 2 then none
  else some (s.1 ++ [c], if c = ']' then min (s.2 + 1) 2 else 0)

section Characters
variable {strict returned : Bool} {text chars : List Char} {brackets : Nat}

theorem append_char_some {s s' : List Char × Nat} {c : Char} (kept : appendChar strict s c = some s') :
    s'.1 = s.1 ++ [c] := by
  unfold appendChar at kept
  split at kept
  · cases kept
  · cases kept
    rfl

theorem append_returns {read : (List Char × Nat) × Bool} (before : '\r' ∉ chars)
    (run : text.foldlM (lined (appendChar strict)) ((chars, brackets), returned) = some read) :
    '\r' ∉ read.1.1 := by
  induction text generalizing chars brackets returned with
  | nil =>
    cases run
    exact before
  | cons c rest ih =>
    obtain ⟨⟨⟨chars', brackets'⟩, returned'⟩, one, run⟩ := Option.bind_eq_some_iff.mp run
    refine ih ?_ run
    unfold lined at one
    split at one
    · cases one
    · split at one
      · cases one
        exact before
      · obtain ⟨read', kept, same⟩ := Option.map_eq_some_iff.mp one
        cases same
        rw [show chars' = chars ++ [_] from append_char_some kept, List.mem_append, List.mem_singleton]
        rintro (old | new)
        · exact before old
        · split at new
          · exact absurd new (by decide)
          · rename_i other
            exact other new.symm

theorem section_end_cons {c : Char} :
    sectionEnd <:+: c :: text ↔ (c = ']' ∧ [']', '>'] <+: text) ∨ sectionEnd <:+: text := by
  rw [List.infix_cons_iff, sectionEnd, List.cons_prefix_cons, eq_comm]

theorem section_end_brackets {c : Char} (few : brackets ≤ 2) :
    sectionEnd <:+: List.replicate brackets ']' ++ c :: text ↔
      (c = '>' ∧ brackets = 2) ∨
        sectionEnd <:+: List.replicate (if c = ']' then min (brackets + 1) 2 else 0) ']' ++ text := by
  have cases_ : brackets = 0 ∨ brackets = 1 ∨ brackets = 2 := by omega
  rcases cases_ with rfl | rfl | rfl
  all_goals
    by_cases bracket : c = ']'
    · simp [bracket, section_end_cons, List.replicate]
    · by_cases closes : c = '>'
      · simp [closes, section_end_cons, List.replicate]
      · simp [bracket, closes, Ne.symm closes, Ne.symm bracket, section_end_cons, List.replicate]

/-- Without a carriage return every character is kept, unless the end of a section is refused. -/
theorem append_kept_iff (allowed : ∀ c ∈ text, isXmlChar c = true) (plain : '\r' ∉ text) (few : brackets ≤ 2) :
    (text.foldlM (lined (appendChar strict)) ((chars, brackets), false)).map (fun read => read.1.1) =
        some (chars ++ text) ↔
      ¬ (strict = true ∧ sectionEnd <:+: List.replicate brackets ']' ++ text) := by
  induction text generalizing chars brackets with
  | nil =>
    have none_ : ¬ sectionEnd <:+: List.replicate brackets ']' ++ [] := by
      intro inside
      have closes : '>' ∈ List.replicate brackets ']' ++ [] := inside.subset (by simp [sectionEnd])
      simp at closes
    have kept : (([] : List Char).foldlM (lined (appendChar strict)) ((chars, brackets), false)).map
        (fun read => read.1.1) = some (chars ++ []) := by
      rw [List.append_nil]
      rfl
    exact ⟨fun _ both => none_ both.2, fun _ => kept⟩
  | cons c rest ih =>
    have here := allowed c List.mem_cons_self
    have other : c ≠ '\r' := fun same => plain (same ▸ List.mem_cons_self)
    have step : lined (appendChar strict) ((chars, brackets), false) c =
        (appendChar strict (chars, brackets) c).map fun s => (s, false) := by
      simp [lined, here, other]
    have few' : (if c = ']' then min (brackets + 1) 2 else 0) ≤ 2 := by split <;> omega
    have later := @ih (chars ++ [c]) _ (fun d member => allowed d (List.mem_cons_of_mem _ member))
      (fun member => plain (List.mem_cons_of_mem _ member)) few'
    rw [List.foldlM_cons, step, section_end_brackets few]
    by_cases refused : strict = true ∧ c = '>' ∧ brackets = 2
    · simp [appendChar, refused]
    · have kept : appendChar strict (chars, brackets) c =
          some (chars ++ [c], if c = ']' then min (brackets + 1) 2 else 0) := by
        unfold appendChar
        apply if_neg
        simpa using fun greater strictly two => refused ⟨strictly, greater, two⟩
      rw [List.append_assoc, List.singleton_append] at later
      rw [kept, Option.map_some, Option.bind_eq_bind, Option.bind_some, later, and_or_left,
        or_iff_right refused]

theorem append_same_iff (allowed : ∀ c ∈ text, isXmlChar c = true) :
    (text.foldlM (lined (appendChar strict)) (([], 0), false)).map (fun read => read.1.1) = some text ↔
      '\r' ∉ text ∧ (strict = true → ¬ sectionEnd <:+: text) := by
  by_cases plain : '\r' ∈ text
  · constructor
    · intro same
      obtain ⟨read, run, same⟩ := Option.map_eq_some_iff.mp same
      exact absurd plain (same ▸ append_returns List.not_mem_nil run)
    · rintro ⟨absent, _⟩
      exact absurd plain absent
  · have kept := @append_kept_iff strict text [] 0 allowed plain (Nat.zero_le 2)
    rw [List.nil_append] at kept
    rw [kept, not_and]
    exact (and_iff_right plain).symm

end Characters

section Texts
variable {closing returned : Bool} {text chars : List Char} {brackets : Nat}

theorem text_char {strict : Bool} {c : Char} (other : c ≠ '&') (closes : c = '>' → strict = true) :
    lined TextState.step (⟨chars, brackets, none⟩, returned) c =
      (lined (appendChar strict) ((chars, brackets), returned) c).map
        fun read => (⟨read.1.1, read.1.2, none⟩, read.2) := by
  unfold lined
  split
  · rfl
  · split
    · rfl
    · have plain : (if c = '\r' then '\n' else c) ≠ '&' := by
        split
        · decide
        · exact other
      have closes' : (if c = '\r' then '\n' else c) = '>' → strict = true := by
        split
        · intro same
          exact absurd same (by decide)
        · exact closes
      dsimp only [TextState.step, appendChar]
      rw [if_neg plain]
      by_cases refused : (if c = '\r' then '\n' else c) = '>'
      · by_cases two : brackets = 2
        · simp [refused, two, closes' refused]
        · simp [refused, two]
      · simp [refused]

theorem text_appends (free : '&' ∉ text) :
    text.foldlM (lined TextState.step) (⟨chars, brackets, none⟩, returned) =
      (text.foldlM (lined (appendChar true)) ((chars, brackets), returned)).map
        fun read => (⟨read.1.1, read.1.2, none⟩, read.2) := by
  induction text generalizing chars brackets returned with
  | nil => rfl
  | cons c rest ih =>
    obtain ⟨here, later⟩ := List.ne_and_not_mem_of_not_mem_cons free
    have one : lined TextState.step (⟨chars, brackets, none⟩, returned) c =
        (lined (appendChar true) ((chars, brackets), returned) c).map
          fun read => (⟨read.1.1, read.1.2, none⟩, read.2) := text_char (Ne.symm here) fun _ => rfl
    rw [List.foldlM_cons, List.foldlM_cons, one]
    cases lined (appendChar true) ((chars, brackets), returned) c with
    | none => rfl
    | some read => exact ih later

theorem escaped_appends :
    (escapeText closing text).foldlM (lined TextState.step) (⟨chars, brackets, none⟩, returned) =
      (text.foldlM (lined (appendChar !closing)) ((chars, brackets), returned)).map
        fun read => (⟨read.1.1, read.1.2, none⟩, read.2) := by
  induction text generalizing chars brackets returned with
  | nil => rfl
  | cons c rest ih =>
    have one : (escapeChar closing c).foldlM (lined TextState.step) (⟨chars, brackets, none⟩, returned) =
        (lined (appendChar !closing) ((chars, brackets), returned) c).map
          fun read => (⟨read.1.1, read.1.2, none⟩, read.2) := by
      unfold escapeChar
      split
      · rename_i less
        rw [less]
        rfl
      split
      · rename_i ampersand
        rw [ampersand]
        rfl
      split
      · rename_i closes
        obtain ⟨greater, escaped⟩ := Bool.and_eq_true_iff.mp closes
        rw [of_decide_eq_true greater, escaped]
        rfl
      · rename_i plain closes
        rw [List.foldlM_cons]
        simp only [List.foldlM_nil, bind_pure]
        exact text_char plain fun greater => by simpa [greater] using closes
    rw [escapeText, List.flatMap_cons, List.foldlM_append, List.foldlM_cons, one]
    cases lined (appendChar !closing) ((chars, brackets), returned) c with
    | none => rfl
    | some read => exact ih

/-- How many characters a text is read from, those of an open reference included. -/
def TextState.weight (s : TextState) : Nat :=
  s.chars.length +
    match s.reference with
    | none => 0
    | some name => name.length + 1

theorem step_weight {s s' : TextState} {c : Char} (step : s.step c = some s') :
    s'.weight ≤ s.weight + 1 ∧
      (s.reference ≠ none → s'.reference = none → s'.weight < s.weight + 1) ∧
      (c = '&' → s.reference = none → s'.reference ≠ none) := by
  obtain ⟨chars, brackets, reference⟩ := s
  cases reference with
  | some name =>
    dsimp only [TextState.step] at step
    split at step
    · obtain ⟨d, _, same⟩ := Option.map_eq_some_iff.mp step
      cases same
      simp only [TextState.weight, List.length_append, List.length_singleton]
      refine ⟨by omega, fun _ _ => by omega, fun _ absent => ?_⟩
      cases absent
    · cases step
      simp only [TextState.weight, List.length_append, List.length_singleton]
      refine ⟨by omega, fun _ closed => ?_, fun _ absent => ?_⟩
      · cases closed
      · cases absent
  | none =>
    dsimp only [TextState.step] at step
    split at step
    · cases step
      simp [TextState.weight]
    · rename_i other
      split at step
      · cases step
      · cases step
        simp only [TextState.weight, List.length_append, List.length_singleton]
        exact ⟨Nat.le_refl _, fun open_ => absurd rfl open_, fun ampersand => absurd ampersand other⟩

theorem lined_weight {s s' : TextState} {returned' : Bool} {c : Char}
    (one : lined TextState.step (s, returned) c = some (s', returned')) :
    s'.weight ≤ s.weight + 1 ∧
      (s.reference ≠ none → s'.reference = none → s'.weight < s.weight + 1) ∧
      (c = '&' → s.reference = none → s'.reference ≠ none) := by
  unfold lined at one
  split at one
  · cases one
  · split at one
    · rename_i skipped
      cases one
      refine ⟨Nat.le_succ _, fun _ _ => Nat.lt_succ_self _, fun ampersand => ?_⟩
      rw [ampersand] at skipped
      cases skipped
    · obtain ⟨read, step, same⟩ := Option.map_eq_some_iff.mp one
      cases same
      obtain ⟨most, ends, starts⟩ := step_weight step
      refine ⟨most, ends, fun ampersand => starts ?_⟩
      rw [ampersand]
      rfl

theorem text_weight {s : TextState} {read : TextState × Bool}
    (run : text.foldlM (lined TextState.step) (s, returned) = some read) :
    read.1.weight ≤ s.weight + text.length ∧
      (s.reference ≠ none ∨ '&' ∈ text → read.1.reference = none →
        read.1.weight < s.weight + text.length) := by
  induction text generalizing s returned with
  | nil =>
    cases run
    exact ⟨Nat.le_refl _, fun open_ closed => absurd closed (open_.resolve_right List.not_mem_nil)⟩
  | cons c rest ih =>
    obtain ⟨⟨s', returned'⟩, one, run⟩ := Option.bind_eq_some_iff.mp run
    obtain ⟨step, ends, starts⟩ := lined_weight one
    obtain ⟨most, fewer⟩ := ih run
    rw [List.length_cons]
    refine ⟨by omega, fun open_ closed => ?_⟩
    by_cases still : s'.reference ≠ none ∨ '&' ∈ rest
    · have less := fewer still closed
      omega
    · obtain ⟨done, absent⟩ := not_or.mp still
      have done := not_not.mp done
      have before : s.reference ≠ none := by
        rcases open_ with open_ | member
        · exact open_
        · rcases List.mem_cons.mp member with same | member
          · exact fun absent => starts same.symm absent done
          · exact absurd member absent
      have less := ends before done
      omega

theorem read_text_some : readText text = some chars ↔ ∃ brackets returned,
    text.foldlM (lined TextState.step) (.empty, false) = some (⟨chars, brackets, none⟩, returned) := by
  unfold readText
  split
  · rename_i read brackets returned run
    rw [run]
    constructor
    · intro same
      exact ⟨brackets, returned, by rw [Option.some.inj same]⟩
    · rintro ⟨_, _, same⟩
      cases same
      rfl
  · rename_i other
    constructor
    · intro absent
      cases absent
    · rintro ⟨brackets, returned, run⟩
      exact absurd run (other chars brackets returned)

theorem read_text_appended {strict : Bool} {raw : List Char}
    (run : text.foldlM (lined TextState.step) (⟨[], 0, none⟩, false) =
      (raw.foldlM (lined (appendChar strict)) (([], 0), false)).map
        fun read => (⟨read.1.1, read.1.2, none⟩, read.2)) :
    readText text = (raw.foldlM (lined (appendChar strict)) (([], 0), false)).map fun read => read.1.1 := by
  unfold readText TextState.empty
  rw [run]
  cases raw.foldlM (lined (appendChar strict)) (([], 0), false) <;> rfl

/-- A text comes back as it is written if it has no reference, no carriage return and no end of a
    section. -/
theorem read_text_same_iff (allowed : ∀ c ∈ text, isXmlChar c = true) :
    readText text = some text ↔ '&' ∉ text ∧ '\r' ∉ text ∧ ¬ sectionEnd <:+: text := by
  by_cases reference : '&' ∈ text
  · constructor
    · intro same
      obtain ⟨brackets, returned, run⟩ := read_text_some.mp same
      have less := (text_weight run).2 (.inr reference) rfl
      simp [TextState.weight, TextState.empty] at less
    · rintro ⟨absent, _⟩
      exact absurd reference absent
  · have kept := @append_same_iff true text allowed
    rw [read_text_appended (text_appends reference), kept]
    simp [reference]

/-- An escaped text comes back as it was if it has no carriage return, and no end of a section unless
    the closing bracket is escaped too. -/
theorem read_escaped_same_iff (allowed : ∀ c ∈ text, isXmlChar c = true) :
    readText (escapeText closing text) = some text ↔
      '\r' ∉ text ∧ (closing = false → ¬ sectionEnd <:+: text) := by
  rw [read_text_appended escaped_appends, append_same_iff allowed]
  simp

end Texts
end XmlReader
