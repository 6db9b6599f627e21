import Vestibule.XmlReader

/-!
XML that is written tag by tag with texts between the tags, and what a reader makes of it: the elements
as they were meant, with the texts as they are read.
-/
namespace XmlReader

/-- What stands in an element: texts, and elements with and without a stop tag. -/
inductive Content where
  | last (text : List Char)
  | empty (text name : List Char) (rest : Content)
  | full (text name : List Char) (inner rest : Content)

def startTag (name : List Char) : List Char := '<' :: (name ++ ['>'])

def printAttribute (pair : List Char × List Char) : List Char :=
  ' ' :: (pair.1 ++ '=' :: '"' :: (pair.2 ++ ['"']))

def attributeTag (name : List Char) (attributes : Attributes) : List Char :=
  '<' :: (name ++ (attributes.flatMap printAttribute ++ ['>']))

def emptyTag (name : List Char) : List Char := '<' :: (name ++ ['/', '>'])

def stopTag (name : List Char) : List Char := '<' :: '/' :: (name ++ ['>'])

def Content.print : Content → List Char
  | .last text => text
  | .empty text name rest => text ++ (emptyTag name ++ rest.print)
  | .full text name inner rest => text ++ (startTag name ++ (inner.print ++ (stopTag name ++ rest.print)))

def Content.read : Content → Option (List Node)
  | .last text => (readText text).map textNodes
  | .empty text name rest => do
    let before ← readText text
    let after ← rest.read
    return textNodes before ++ .element name [] [] :: after
  | .full text name inner rest => do
    let before ← readText text
    let children ← inner.read
    let after ← rest.read
    return textNodes before ++ .element name [] children :: after

def LegalName (name : List Char) : Prop :=
  (∃ first rest, name = first :: rest ∧ isNameStart first = true) ∧ ∀ c ∈ name, isNameChar c = true

theorem name_written {name : List Char} (legal : LegalName name) : name ≠ [] := by
  obtain ⟨⟨c, rest, same, _⟩, _⟩ := legal
  exact same ▸ List.cons_ne_nil c rest

theorem name_legal {first : Char} {rest : List Char} (start : isNameStart first = true)
    (each : (first :: rest).all isNameChar = true) : LegalName (first :: rest) :=
  ⟨⟨first, rest, rfl, start⟩, List.all_eq_true.mp each⟩

/-- No space but a blank, no markup, and not the quote. -/
def LegalValue (value : List Char) : Prop :=
  ∀ c ∈ value, isXmlChar c = true ∧ (isSpace c = true → c = ' ') ∧ c ≠ '<' ∧ c ≠ '&' ∧ c ≠ '"'

theorem value_legal {value : List Char} (each : (value.all fun c => isXmlChar c && (!isSpace c || c = ' ') &&
    c ≠ '<' && c ≠ '&' && c ≠ '"') = true) : LegalValue value := by
  intro c member
  have plain := List.all_eq_true.mp each c member
  simp only [Bool.and_eq_true, Bool.or_eq_true, Bool.not_eq_true', decide_eq_true_eq] at plain
  obtain ⟨⟨⟨⟨allowed, blank⟩, less⟩, ampersand⟩, quote⟩ := plain
  refine ⟨allowed, fun space => blank.resolve_left ?_, less, ampersand, quote⟩
  rw [space]
  exact Bool.noConfusion

structure LegalAttributes (attributes : Attributes) : Prop where
  names : ∀ pair ∈ attributes, LegalName pair.1
  values : ∀ pair ∈ attributes, LegalValue pair.2
  once : (attributes.map Prod.fst).Nodup

def Content.Legal : Content → Prop
  | .last text => '<' ∉ text
  | .empty text name rest => '<' ∉ text ∧ LegalName name ∧ rest.Legal
  | .full text name inner rest => '<' ∉ text ∧ LegalName name ∧ inner.Legal ∧ rest.Legal

section Steps
variable {σ : Type} {step : σ → Char → Option σ} {s : σ} {returned : Bool} {c : Char} {name : List Char}

theorem lined_plain (allowed : isXmlChar c = true) (newline : c ≠ '\n') (other : c ≠ '\r') :
    lined step (s, returned) c = (step s c).map (·, false) := by
  simp [lined, allowed, newline, other]

theorem name_char_plain (legal : isNameChar c = true) :
    isXmlChar c = true ∧ isSpace c = false ∧ c ≠ '\n' ∧ c ≠ '\r' ∧ c ≠ '>' ∧ c ≠ '/' ∧ c ≠ '?' := by
  have limits : ∀ d : Char, c = d → c.toNat = d.toNat := fun d same => same ▸ rfl
  simp only [isNameChar, isNameStart, Bool.or_eq_true, Bool.and_eq_true, decide_eq_true_eq] at legal
  simp only [isXmlChar, isSpace, Bool.or_eq_true, Bool.and_eq_true, decide_eq_true_eq, Bool.or_eq_false_iff,
    decide_eq_false_iff_not]
  have values : ' '.toNat = 32 ∧ '\t'.toNat = 9 ∧ '\r'.toNat = 13 ∧ '\n'.toNat = 10 ∧ '>'.toNat = 62 ∧
    '/'.toNat = 47 ∧ '?'.toNat = 63 := ⟨rfl, rfl, rfl, rfl, rfl, rfl, rfl⟩
  refine ⟨by omega, ⟨⟨⟨?_, ?_⟩, ?_⟩, ?_⟩, ?_, ?_, ?_, ?_, ?_⟩
  all_goals
    intro same
    have number := limits _ same
    omega

@[simp] theorem run_cons (r : Reader × Bool) (text : List Char) :
    run r (c :: text) = (lined Reader.step r c).bind fun r' => run r' text := rfl

theorem run_append (r : Reader × Bool) (a b : List Char) :
    run r (a ++ b) = (run r a).bind fun r' => run r' b := List.foldlM_append

end Steps

section Tags
variable {name : List Char} {frames : List Frame} {root : Option Node} {first : Bool}

theorem run_name (kind : Kind) (front rest : List Char) (open_ : front ≠ [])
    (legal : ∀ c ∈ rest, isNameChar c = true) :
    run (⟨.name ⟨kind, front, []⟩, frames, root⟩, false) rest =
      some (⟨.name ⟨kind, front ++ rest, []⟩, frames, root⟩, false) := by
  induction rest generalizing front with
  | nil => simp [run]
  | cons c rest ih =>
    have char := legal c List.mem_cons_self
    obtain ⟨allowed, _, newline, other, _⟩ := name_char_plain char
    rw [run_cons, lined_plain allowed newline other]
    simp only [Reader.step, open_, char, ↓reduceIte, Option.map_some, Option.bind_some]
    rw [ih _ (by simp) fun d member => legal d (List.mem_cons_of_mem _ member), List.append_assoc]
    rfl

theorem run_opened (legal : LegalName name) :
    run (⟨.less first, frames, root⟩, false) name =
      some (⟨.name ⟨.start, name, []⟩, frames, root⟩, false) := by
  obtain ⟨⟨c, rest, same, start⟩, chars⟩ := legal
  subst same
  have char := chars c List.mem_cons_self
  obtain ⟨allowed, _, newline, other, _, slash, question⟩ := name_char_plain char
  rw [run_cons, lined_plain allowed newline other]
  simp only [Reader.step, slash, question, start, ↓reduceIte, decide_false, Bool.false_and, Bool.false_eq_true,
    Option.map_some, Option.bind_some]
  exact run_name .start [c] rest (List.cons_ne_nil c []) fun d member => chars d (List.mem_cons_of_mem _ member)

theorem one_root (inside : frames ≠ [] ∨ root = none) : (frames.isEmpty && root.isSome) = false := by
  rcases inside with some_ | none_
  · simp [some_]
  · simp [none_]

theorem run_start_tag (legal : LegalName name) (inside : frames ≠ [] ∨ root = none) (after : List Char) :
    run (⟨.less first, frames, root⟩, false) (name ++ '>' :: after) =
      run (⟨.text .empty, ⟨name, [], []⟩ :: frames, root⟩, false) after := by
  have ends : isNameChar '>' = false ∧ isXmlChar '>' = true ∧ isSpace '>' = false := ⟨rfl, rfl, rfl⟩
  have named := name_written legal
  have room := one_root inside
  rw [run_append, run_opened legal, Option.bind_some, run_cons, lined_plain ends.2.1 (by decide) (by decide)]
  simp [Reader.step, Reader.inTag, Reader.finishTag, named, ends, room]

theorem run_empty_tag {frame : Frame} (legal : LegalName name) (after : List Char) :
    run (⟨.less first, frame :: frames, root⟩, false) (name ++ '/' :: '>' :: after) =
      run (⟨.text .empty, addNodes [.element name [] []] (frame :: frames), root⟩, false) after := by
  have ends : isNameChar '/' = false ∧ isXmlChar '/' = true ∧ isXmlChar '>' = true ∧ isSpace '/' = false :=
    ⟨rfl, rfl, rfl, rfl⟩
  have named := name_written legal
  rw [run_append, run_opened legal, Option.bind_some, run_cons, lined_plain ends.2.1 (by decide) (by decide)]
  simp only [Reader.step, named, ends, Reader.inTag, ↓reduceIte, Bool.false_eq_true, Char.reduceEq, decide_true,
    Bool.and_self, Bool.true_or, Option.map_some, Option.bind_some]
  rw [run_cons, lined_plain ends.2.2.1 (by decide) (by decide)]
  simp [Reader.step, Reader.add]

theorem run_stop_tag {attributes : Attributes} {children : List Node} (legal : LegalName name)
    (after : List Char) :
    run (⟨.less first, ⟨name, attributes, children⟩ :: frames, root⟩, false) ('/' :: (name ++ '>' :: after)) =
      (Reader.add ⟨.text .empty, frames, root⟩ (.element name attributes children)).bind
        fun r => run (r, false) after := by
  have ends : isNameChar '>' = false ∧ isXmlChar '/' = true ∧ isXmlChar '>' = true ∧ isSpace '>' = false :=
    ⟨rfl, rfl, rfl, rfl⟩
  obtain ⟨⟨c, rest, same, start⟩, chars⟩ := legal
  subst same
  have char := chars c List.mem_cons_self
  obtain ⟨allowed, _, newline, other, _⟩ := name_char_plain char
  have read := @run_name (⟨c :: rest, attributes, children⟩ :: frames) root .stop [c] rest
    (List.cons_ne_nil c []) fun d member => chars d (List.mem_cons_of_mem _ member)
  rw [run_cons, lined_plain ends.2.1 (by decide) (by decide)]
  simp only [Reader.step, ↓reduceIte, Option.map_some, Option.bind_some, List.cons_append]
  rw [run_cons, lined_plain allowed newline other]
  simp only [Reader.step, start, ↓reduceIte, Option.map_some, Option.bind_some]
  rw [run_append, read, Option.bind_some, run_cons, lined_plain ends.2.2.1 (by decide) (by decide)]
  simp only [Reader.step, ends, Reader.inTag, Reader.finishTag, List.singleton_append, reduceCtorEq, ↓reduceIte,
    Bool.false_eq_true]
  cases frames with
  | nil => cases root <;> rfl
  | cons frame frames => rfl

end Tags

section Texts
variable {text : List Char} {frame : Frame} {frames : List Frame} {root : Option Node} {s : TextState}
  {returned : Bool}

theorem run_text (free : '<' ∉ text) : run (⟨.text s, frame :: frames, root⟩, returned) text =
    (text.foldlM (lined TextState.step) (s, returned)).map
      fun read => (⟨.text read.1, frame :: frames, root⟩, read.2) := by
  induction text generalizing s returned with
  | nil => rfl
  | cons c rest ih =>
    obtain ⟨here, later⟩ := List.ne_and_not_mem_of_not_mem_cons free
    have one : lined Reader.step (⟨.text s, frame :: frames, root⟩, returned) c =
        (lined TextState.step (s, returned) c).map
          fun read => (⟨.text read.1, frame :: frames, root⟩, read.2) := by
      unfold lined
      split
      · rfl
      · split
        · rfl
        · have other : (if c = '\r' then '\n' else c) ≠ '<' := by
            split
            · decide
            · exact Ne.symm here
          simp only [Reader.step, if_neg other, List.isEmpty_cons, Bool.false_and, Bool.false_eq_true,
            ↓reduceIte, Option.map_map]
          rfl
    rw [run_cons, one, List.foldlM_cons]
    cases lined TextState.step (s, returned) c with
    | none => rfl
    | some read => exact ih later

theorem run_to_tag (free : '<' ∉ text) (after : List Char) :
    run (⟨.text .empty, frame :: frames, root⟩, false) (text ++ '<' :: after) =
      (readText text).bind fun chars =>
        run (⟨.less false, addNodes (textNodes chars) (frame :: frames), root⟩, false) after := by
  have allowed : isXmlChar '<' = true := rfl
  rw [run_append, run_text free, readText]
  cases text.foldlM (lined TextState.step) (TextState.empty, false) with
  | none => rfl
  | some read =>
    obtain ⟨⟨chars, brackets, reference⟩, returned⟩ := read
    rw [Option.map_some, Option.bind_some, run_cons, lined_plain allowed (by decide) (by decide)]
    cases reference with
    | none => rfl
    | some name => rfl

end Texts

section Contents
variable {name : List Char} {frame : Frame} {frames : List Frame} {root : Option Node}

theorem run_content (c : Content) (legal : c.Legal) (after : List Char) :
    run (⟨.text .empty, frame :: frames, root⟩, false) (c.print ++ '<' :: after) =
      c.read.bind fun nodes => run (⟨.less false, addNodes nodes (frame :: frames), root⟩, false) after := by
  induction c generalizing frame frames after with
  | last text =>
    rw [Content.print, run_to_tag legal, Content.read, Option.bind_map]
    rfl
  | empty text name rest ih =>
    obtain ⟨free, named, legal⟩ := legal
    have shape : (Content.empty text name rest).print ++ '<' :: after =
        text ++ '<' :: (name ++ '/' :: '>' :: (rest.print ++ '<' :: after)) := by
      simp [Content.print, emptyTag]
    rw [shape, run_to_tag free, Content.read]
    cases readText text with
    | none => rfl
    | some before =>
      rw [Option.bind_some, addNodes, run_empty_tag named, addNodes, ih legal]
      cases rest.read with
      | none => rfl
      | some nodes => simp [addNodes]
  | full text name inner rest ih ih' =>
    obtain ⟨free, named, legal, legal'⟩ := legal
    have shape : (Content.full text name inner rest).print ++ '<' :: after = text ++ '<' :: (name ++ '>' ::
        (inner.print ++ '<' :: ('/' :: (name ++ '>' :: (rest.print ++ '<' :: after))))) := by
      simp [Content.print, startTag, stopTag]
    rw [shape, run_to_tag free, Content.read]
    cases readText text with
    | none => rfl
    | some before =>
      rw [Option.bind_some, addNodes, run_start_tag named (.inl (List.cons_ne_nil _ _)), ih legal]
      cases inner.read with
      | none => rfl
      | some children =>
        rw [Option.bind_some, addNodes, run_stop_tag named, Reader.add, Option.bind_some, addNodes, ih' legal']
        cases rest.read with
        | none => rfl
        | some nodes => simp [addNodes]

end Contents

section Documents
variable {name key value : List Char} {frames : List Frame} {root : Option Node} {front attributes : Attributes}

theorem run_value (tag : Tag) (before : List Char) (legal : LegalValue value) (after : List Char)
    (fresh : key ∉ tag.attributes.map Prod.fst) :
    run (⟨.value tag key '"' before, frames, root⟩, false) (value ++ '"' :: after) =
      run (⟨.tag { tag with attributes := tag.attributes ++ [(key, before ++ value)] } false, frames, root⟩,
        false) after := by
  induction value generalizing before with
  | nil =>
    rw [List.nil_append, run_cons, lined_plain (show isXmlChar '"' = true from rfl) (by decide) (by decide)]
    simp [Reader.step, fresh]
  | cons c rest ih =>
    obtain ⟨allowed, blank, less, ampersand, quote⟩ := legal c List.mem_cons_self
    have newline : c ≠ '\n' := fun same => absurd (blank (same ▸ rfl)) (same ▸ by decide)
    have other : c ≠ '\r' := fun same => absurd (blank (same ▸ rfl)) (same ▸ by decide)
    have kept : (if isSpace c = true then ' ' else c) = c := by
      split
      · rename_i space
        exact (blank space).symm
      · rfl
    rw [List.cons_append, run_cons, lined_plain allowed newline other]
    simp only [Reader.step, quote, less, ampersand, kept, ↓reduceIte, decide_false, Bool.or_self,
      Bool.false_eq_true, Option.map_some, Option.bind_some]
    rw [ih _ fun d member => legal d (List.mem_cons_of_mem _ member), List.append_assoc]
    rfl

theorem run_key (tag : Tag) (before : List Char) (legal : ∀ c ∈ key, isNameChar c = true) (after : List Char) :
    run (⟨.key tag before, frames, root⟩, false) (key ++ '=' :: '"' :: after) =
      run (⟨.value tag (before ++ key) '"' [], frames, root⟩, false) after := by
  induction key generalizing before with
  | nil =>
    have plain : isXmlChar '=' = true ∧ isXmlChar '"' = true ∧ isNameChar '=' = false := ⟨rfl, rfl, rfl⟩
    rw [List.nil_append, run_cons, lined_plain plain.1 (by decide) (by decide)]
    simp only [Reader.step, plain, Bool.false_eq_true, ↓reduceIte, Option.map_some, Option.bind_some]
    rw [run_cons, lined_plain plain.2.1 (by decide) (by decide)]
    simp [Reader.step]
  | cons c rest ih =>
    have char := legal c List.mem_cons_self
    obtain ⟨allowed, _, newline, other, _⟩ := name_char_plain char
    rw [List.cons_append, run_cons, lined_plain allowed newline other]
    simp only [Reader.step, char, ↓reduceIte, Option.map_some, Option.bind_some]
    rw [ih _ fun d member => legal d (List.mem_cons_of_mem _ member), List.append_assoc]
    rfl

theorem run_attributes (mode : Mode) (legal : LegalAttributes (front ++ attributes))
    (behind : ∀ c, c = ' ' ∨ c = '>' → Reader.step ⟨mode, frames, root⟩ c =
      Reader.inTag ⟨mode, frames, root⟩ ⟨.start, name, front⟩ c)
    (inside : frames ≠ [] ∨ root = none) (after : List Char) :
    run (⟨mode, frames, root⟩, false) (attributes.flatMap printAttribute ++ '>' :: after) =
      run (⟨.text .empty, ⟨name, front ++ attributes, []⟩ :: frames, root⟩, false) after := by
  induction attributes generalizing front mode with
  | nil =>
    have room := one_root inside
    rw [List.flatMap_nil, List.nil_append, run_cons,
      lined_plain (show isXmlChar '>' = true from rfl) (by decide) (by decide), behind _ (.inr rfl)]
    simp [Reader.inTag, Reader.finishTag, show isSpace '>' = false from rfl, room]
  | cons pair rest ih =>
    obtain ⟨key, value⟩ := pair
    have member : (key, value) ∈ front ++ (key, value) :: rest := by simp
    have named := legal.names _ member
    obtain ⟨⟨c, key', same, start⟩, chars⟩ := named
    dsimp only at same
    have fresh : key ∉ front.map Prod.fst := by
      have once := legal.once
      rw [List.map_append, List.map_cons, List.nodup_append] at once
      exact fun inside => once.2.2 _ inside _ List.mem_cons_self rfl
    have char := chars c (same ▸ List.mem_cons_self)
    obtain ⟨allowed, _, newline, other, _⟩ := name_char_plain char
    have shape : ((key, value) :: rest).flatMap printAttribute ++ '>' :: after =
        ' ' :: c :: (key' ++ '=' :: '"' ::
          (value ++ '"' :: (rest.flatMap printAttribute ++ '>' :: after))) := by
      simp [printAttribute, same]
    rw [shape, run_cons, lined_plain (show isXmlChar ' ' = true from rfl) (by decide) (by decide),
      behind _ (.inl rfl)]
    simp only [Reader.inTag, show isSpace ' ' = true from rfl, ↓reduceIte, Option.map_some, Option.bind_some]
    rw [run_cons, lined_plain allowed newline other]
    simp only [Reader.step, start, Bool.and_self, ne_eq, reduceCtorEq, not_false_eq_true, decide_true,
      ↓reduceIte, Option.map_some, Option.bind_some]
    rw [run_key _ _ fun d member => chars d (same ▸ List.mem_cons_of_mem _ member), List.singleton_append,
      ← same, run_value _ _ (legal.values _ member) _ fresh, List.nil_append]
    have further := @ih (front ++ [(key, value)]) (.tag ⟨.start, name, front ++ [(key, value)]⟩ false)
      (by rwa [List.append_assoc, List.singleton_append]) (by
        rintro d (same | same) <;> rw [same] <;> rfl)
    rw [further, List.append_assoc, List.singleton_append]

/-- What is written behind a prolog is one element: its content is read as it is written. -/
theorem read_document {prolog : List Char} {s : TextState} {returned : Bool} {c : Content}
    (begun : run (.initial, false) prolog = some (⟨.text s, [], none⟩, returned)) (open_ : s.reference = none)
    (legal : LegalName name) (legal' : LegalAttributes attributes) (inner : c.Legal) :
    readXml (prolog ++ (attributeTag name attributes ++ (c.print ++ stopTag name))) =
      c.read.map (Node.element name attributes) := by
  have shape : attributeTag name attributes ++ (c.print ++ stopTag name) =
      '<' :: (name ++ (attributes.flatMap printAttribute ++ '>' ::
        (c.print ++ '<' :: ('/' :: (name ++ ['>']))))) := by
    simp [attributeTag, stopTag]
  have named := name_written legal
  have behind : ∀ c, c = ' ' ∨ c = '>' → Reader.step ⟨.name ⟨.start, name, []⟩, [], none⟩ c =
      Reader.inTag ⟨.name ⟨.start, name, []⟩, [], none⟩ ⟨.start, name, []⟩ c := by
    rintro c (same | same) <;> rw [same] <;> simp [Reader.step, named, show isNameChar ' ' = false from rfl,
      show isNameChar '>' = false from rfl]
  have left : lined Reader.step (⟨.text s, [], none⟩, returned) '<' =
      some (⟨.less false, [], none⟩, false) := by
    rw [lined_plain (show isXmlChar '<' = true from rfl) (by decide) (by decide)]
    simp [Reader.step, open_, addNodes]
  have body : run (.initial, false) (prolog ++ (attributeTag name attributes ++ (c.print ++ stopTag name))) =
      c.read.map fun nodes => (⟨.text .empty, [], some (.element name attributes nodes)⟩, false) := by
    rw [shape, run_append, begun, Option.bind_some, run_cons, left, Option.bind_some, run_append,
      run_opened legal, Option.bind_some,
      run_attributes _ (by rwa [List.nil_append]) behind (.inr rfl), run_content c inner]
    cases c.read with
    | none => rfl
    | some nodes =>
      rw [Option.bind_some, addNodes, run_stop_tag legal]
      rfl
  rw [readXml, body]
  cases c.read <;> rfl

end Documents
end XmlReader
