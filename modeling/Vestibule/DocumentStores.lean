import Mathlib.Data.List.Infix
import Mathlib.Data.List.Nodup

/-!
A store of documents in collections, as a client sees one: a map from paths of names to what is there,
with the requests on it and their answers. Nothing stands below what is missing or a document.
-/
namespace DocumentStore
variable {N C : Type}

inductive Item (C : Type) where
  | collection
  | document (content : C)
  deriving DecidableEq, Repr

def Item.isDocument : Item C → Bool
  | .collection => false
  | .document _ => true

instance (found : Option (Item C)) : Decidable (found = some .collection) :=
  decidable_of_iff (found.any (!·.isDocument) = true) (by
    cases found with
    | none => simp
    | some item => cases item <;> simp [Item.isDocument])

structure Store (N C : Type) where
  get : List N → Option (Item C)
  closed : ∀ path n, get (path ++ [n]) ≠ none → get path = some .collection

/-- A path, and whether it is spelled as that of a collection. The top always is. -/
structure Address (N : Type) where
  path : List N
  slash : Bool
  top : path = [] → slash = true

/-- What a target finds: not a document that is spelled as a collection. -/
def Store.seen (s : Store N C) (target : Address N) : Option (Item C) :=
  (s.get target.path).filter fun item => !(target.slash && item.isDocument)

def Store.documentAt (s : Store N C) (path : List N) : Bool := (s.get path).any Item.isDocument

def Store.blocked (s : Store N C) (path : List N) : Bool := path.inits.any s.documentAt

section Facts
variable {s : Store N C} {path rest : List N}

theorem above_collection (s : Store N C) (more : rest ≠ []) (there : s.get (path ++ rest) ≠ none) :
    s.get path = some .collection := by
  induction rest using List.reverseRecOn with
  | nil => exact absurd rfl more
  | append_singleton front n ih =>
    rw [← List.append_assoc] at there
    have parent := s.closed _ _ there
    by_cases bare : front = []
    · rwa [bare, List.append_nil] at parent
    · apply ih bare
      rw [parent]
      exact Option.some_ne_none _

theorem document_at_iff : s.documentAt path = true ↔ ∃ content, s.get path = some (.document content) := by
  unfold Store.documentAt
  cases s.get path with
  | none => simp
  | some item => cases item <;> simp [Item.isDocument]

theorem blocked_iff : s.blocked path = true ↔
    ∃ front content, front <+: path ∧ s.get front = some (.document content) := by
  unfold Store.blocked
  rw [List.any_eq_true]
  constructor
  · rintro ⟨front, upper, document⟩
    obtain ⟨content, here⟩ := document_at_iff.mp document
    exact ⟨front, content, (List.mem_inits _ _).mp upper, here⟩
  · rintro ⟨front, content, upper, here⟩
    exact ⟨front, (List.mem_inits _ _).mpr upper, document_at_iff.mpr ⟨content, here⟩⟩

theorem collection_open (here : s.get path = some .collection) : s.blocked path = false := by
  by_contra blocked
  obtain ⟨front, content, ⟨rest, whole⟩, document⟩ := blocked_iff.mp (Bool.not_eq_false _ ▸ blocked)
  subst whole
  by_cases bare : rest = []
  · rw [bare, List.append_nil, document] at here
    cases here
  · rw [above_collection s bare (by rw [here]; exact Option.some_ne_none _)] at document
    cases document

theorem there_front {front : List N} (there : s.get path ≠ none) (upper : front <+: path)
    (other : front ≠ path) : s.get front = some .collection := by
  obtain ⟨rest, whole⟩ := upper
  subst whole
  exact above_collection s (fun bare => other (by rw [bare, List.append_nil])) there

theorem seen_collection {target : Address N} :
    s.seen target = some .collection ↔ s.get target.path = some .collection := by
  unfold Store.seen
  rw [Option.filter_eq_some_iff]
  simp [Item.isDocument]

theorem seen_document {target : Address N} {content : C} : s.seen target = some (.document content) ↔
    s.get target.path = some (.document content) ∧ target.slash = false := by
  unfold Store.seen
  rw [Option.filter_eq_some_iff]
  simp [Item.isDocument]

theorem seen_there {target : Address N} {item : Item C} (seen : s.seen target = some item) :
    s.get target.path = some item := (Option.filter_eq_some_iff.mp seen).1

theorem seen_none {target : Address N} (none_seen : s.seen target = none) : s.get target.path = none ∨
    target.slash = true ∧ ∃ content, s.get target.path = some (.document content) := by
  cases here : s.get target.path with
  | none => exact .inl rfl
  | some item =>
    cases item with
    | collection =>
      rw [seen_collection.mpr here] at none_seen
      cases none_seen
    | document content =>
      refine .inr ⟨?_, content, rfl⟩
      by_contra plain
      rw [seen_document.mpr ⟨here, Bool.not_eq_true _ ▸ plain⟩] at none_seen
      cases none_seen

end Facts

theorem not_front_concat {path : List N} {n : N} : ¬ path ++ [n] <+: path := by
  intro longer
  have width := longer.length_le
  rw [List.length_append, List.length_singleton] at width
  exact Nat.not_succ_le_self _ width

section Changes
variable [DecidableEq N]

/-- The missing collections down to a path. -/
def Store.ensure (s : Store N C) (path : List N) : Store N C where
  get place := if place <+: path then some .collection else s.get place
  closed place n there := by
    by_cases upper : place <+: path
    · rw [if_pos upper]
    · rw [if_neg upper]
      rw [if_neg fun longer => upper ((List.prefix_append _ _).trans longer)] at there
      exact s.closed place n there

theorem ensure_top (s : Store N C) (place : List N) :
    (s.ensure []).get place = if place = [] then some .collection else s.get place := by
  unfold Store.ensure
  simp only [List.prefix_nil]

theorem ensure_child {s : Store N C} {p : List N} {n : N} (parent : s.get p = some .collection)
    (place : List N) :
    (s.ensure (p ++ [n])).get place = if place = p ++ [n] then some .collection else s.get place := by
  unfold Store.ensure
  simp only [List.prefix_concat_iff]
  by_cases whole : place = p ++ [n]
  · rw [if_pos (.inl whole), if_pos whole]
  · rw [if_neg whole]
    by_cases upper : place <+: p
    · rw [if_pos (.inr upper)]
      by_cases same : place = p
      · rw [same, parent]
      · rw [there_front (by rw [parent]; exact Option.some_ne_none _) upper same]
    · rw [if_neg (not_or.mpr ⟨whole, upper⟩)]

theorem ensure_new {s : Store N C} {path : List N} (parent : path = [] ∨ s.get path.dropLast = some .collection)
    (place : List N) :
    (s.ensure path).get place = if place = path then some .collection else s.get place := by
  rcases List.eq_nil_or_concat path with bare | ⟨p, n, whole⟩
  · rw [bare]
    exact ensure_top s place
  · rw [List.concat_eq_append] at whole
    subst whole
    rw [List.dropLast_concat] at parent
    exact ensure_child (parent.resolve_left (by simp)) place

def Store.write (s : Store N C) (path : List N) (n : N) (item : Item C)
    (parent : s.get path = some .collection) (other : s.get (path ++ [n]) ≠ some .collection) :
    Store N C where
  get place := if place = path ++ [n] then some item else s.get place
  closed place m there := by
    have apart : place ≠ path ++ [n] ∨ s.get (place ++ [m]) = none := by
      by_contra both
      rw [not_or, not_not] at both
      exact other (both.1 ▸ s.closed place m both.2)
    by_cases same : place ++ [m] = path ++ [n]
    · obtain ⟨front, _⟩ := List.append_singleton_inj.mp same
      subst front
      rw [if_neg (by simp)]
      exact parent
    · rw [if_neg same] at there
      rw [if_neg (apart.resolve_right there)]
      exact s.closed place m there

def Store.remove (s : Store N C) (path : List N) : Store N C where
  get place := if path <+: place then none else s.get place
  closed place n there := by
    by_cases below : path <+: place ++ [n]
    · rw [if_pos below] at there
      exact absurd rfl there
    · rw [if_neg below] at there
      rw [if_neg fun inside => below (inside.trans (List.prefix_append _ _))]
      exact s.closed place n there

structure Store.Movable (s : Store N C) (source dest : List N) : Prop where
  outside : ¬ source <+: dest
  above : ¬ dest <+: source
  parent : s.get dest.dropLast = some .collection

def Store.move (s : Store N C) (source dest : List N) (fits : s.Movable source dest) : Store N C where
  get place :=
    if dest <+: place then s.get (source ++ place.drop dest.length)
    else if source <+: place then none
    else s.get place
  closed place n there := by
    have upward {top : List N} (inside : top <+: place) : top <+: place ++ [n] :=
      inside.trans (List.prefix_append _ _)
    have some_left : dest ≠ [] := fun bare => fits.above (bare ▸ List.nil_prefix)
    by_cases moved : dest <+: place ++ [n]
    · rcases List.prefix_concat_iff.mp moved with same | inside
      · have front : dest.dropLast = place := by rw [same, List.dropLast_concat]
        have parent := fits.parent
        rw [front] at parent
        have aside : ¬ dest <+: place := same ▸ not_front_concat
        have outside : ¬ source <+: place := fun inside => fits.outside (same ▸ upward inside)
        rw [if_neg aside, if_neg outside]
        exact parent
      · rw [if_pos moved] at there
        rw [if_pos inside]
        obtain ⟨tail, whole⟩ := inside
        subst whole
        rw [List.append_assoc, List.drop_left, ← List.append_assoc] at there
        rw [List.drop_left]
        exact s.closed _ n there
    · rw [if_neg moved] at there
      by_cases gone : source <+: place ++ [n]
      · rw [if_pos gone] at there
        exact absurd rfl there
      · rw [if_neg gone] at there
        rw [if_neg fun inside => moved (upward inside), if_neg fun inside => gone (upward inside)]
        exact s.closed place n there

instance (s : Store N C) (source dest : List N) : Decidable (s.Movable source dest) :=
  decidable_of_iff (¬ source <+: dest ∧ ¬ dest <+: source ∧ s.get dest.dropLast = some .collection)
    ⟨fun ⟨outside, above, parent⟩ => ⟨outside, above, parent⟩,
      fun fits => ⟨fits.outside, fits.above, fits.parent⟩⟩

end Changes

section Requests
variable [DecidableEq N]

inductive Action (N C : Type) where
  | read (target : Address N)
  | readPart (target : Address N) (first : Nat) (last : Option Nat)
  | inspect (target : Address N)
  | put (target : Address N) (content : C)
  | delete (target : Address N)
  | make (target : Address N)
  | move (source dest : Address N) (overwrite : Bool)
  | list (target : Address N) (deep : Bool)
  | search (target : Address N) (wanted : N → Bool)
  | archive (target : Address N)
  -- a change, where none is allowed
  | attempt
  -- what changes nothing, and of whose answer nothing is said
  | other

/-- An answer. What is listed is listed by its path, what is found or archived by its path below the
    target. -/
inductive Result (N C : Type) where
  | content (content : C)
  | part (content : C) (first : Nat) (last : Option Nat)
  | described (content : C)
  | collection
  | listing (shows : List N → Option (Item C))
  | found (shows : List N → Option (Item C))
  | archived (documents : List N → Option C)
  | created
  | removed
  | missing
  | forbidden
  | conflict
  | taken
  | kept
  | failed
  | anything

/-- What a target is answered with if it is a document, and if it is a collection. -/
def Store.readAs (s : Store N C) (target : Address N) (asDocument : C → Result N C)
    (asCollection : Result N C) : Result N C :=
  match s.seen target with
  | none => .missing
  | some .collection => asCollection
  | some (.document content) => asDocument content

def Store.level (s : Store N C) (path : List N) (deep : Bool) (place : List N) : Option (Item C) :=
  if place = path ∨ deep = true ∧ place ≠ [] ∧ place.dropLast = path then s.get place else none

def Store.matching (s : Store N C) (path : List N) (wanted : N → Bool) (rest : List N) :
    Option (Item C) :=
  if rest.getLast?.any wanted then s.get (path ++ rest) else none

def Store.documents (s : Store N C) (path rest : List N) : Option C :=
  match s.get (path ++ rest) with
  | some (.document content) => some content
  | _ => none

def Store.list (s : Store N C) (target : Address N) (deep : Bool) : Result N C :=
  if (s.seen target).isSome then .listing (s.level target.path deep) else .missing

/-- The collections above a document are made with it. -/
def Store.put (s : Store N C) (target : Address N) (content : C) : Store N C × Result N C :=
  match target.path.getLast? with
  | none => (s, .forbidden)
  | some n =>
    let above := target.path.dropLast
    if s.documentAt above then (s, .forbidden)
    else if s.blocked above then (s, .failed)
    else
      let s := s.ensure above
      if fits : target.slash = false ∧ s.get above = some .collection ∧
          s.get (above ++ [n]) ≠ some .collection then
        (s.write above n (.document content) fits.2.1 fits.2.2, .created)
      else (s, .forbidden)

def Store.delete (s : Store N C) (target : Address N) : Store N C × Result N C :=
  if (s.seen target).isSome then (s.remove target.path, .removed) else (s, .missing)

/-- A collection is made in one that is there; the top is made anew. -/
def Store.make (s : Store N C) (target : Address N) : Store N C × Result N C :=
  if (s.seen target).isSome then (s, .taken)
  else if (s.get target.path).isSome then (s, .conflict)
  else if target.path = [] ∨ s.get target.path.dropLast = some .collection then
    (s.ensure target.path, .created)
  else (s, .conflict)

def Store.makeRoom (s : Store N C) (source dest : Address N) (overwrite : Bool) : Store N C :=
  if overwrite = true ∧ s.seen source = some .collection ∧ s.seen dest = some .collection then
    s.remove dest.path
  else s

/-- A document takes the place of a document or of nothing, a collection only that of nothing. -/
def Store.takesPlace (s : Store N C) (source dest : Address N) : Bool :=
  match s.get source.path with
  | none => false
  | some item =>
    !(item.isDocument && (source.slash || dest.slash)) &&
      (s.get dest.path).all fun there => item.isDocument && there.isDocument

/-- What is at one path takes the place of what is at another, if it can. -/
def Store.replace (s : Store N C) (source dest : Address N) : Store N C × Result N C :=
  if fits : s.takesPlace source dest = true ∧ s.Movable source.path dest.path then
    (s.move source.path dest.path fits.2, .created)
  else (s, .failed)

def Store.moveTo (s : Store N C) (source dest : Address N) (overwrite : Bool) : Store N C × Result N C :=
  if (s.seen source).isNone then (s, .missing)
  else if dest.path ≠ [] ∧ (s.get dest.path.dropLast).isNone then (s, .conflict)
  else if !overwrite && (s.seen dest).isSome then (s, .kept)
  else if source.path = dest.path then (s, .forbidden)
  else (s.makeRoom source dest overwrite).replace source dest

def Store.perform (s : Store N C) : Action N C → Store N C × Result N C
  | .read target => (s, s.readAs target .content .collection)
  | .readPart target first last => (s, s.readAs target (.part · first last) .collection)
  | .inspect target => (s, s.readAs target .described .collection)
  | .put target content => s.put target content
  | .delete target => s.delete target
  | .make target => s.make target
  | .move source dest overwrite => s.moveTo source dest overwrite
  | .list target deep => (s, s.list target deep)
  | .search target wanted => (s, s.readAs target .content (.found (s.matching target.path wanted)))
  | .archive target => (s, s.readAs target .content (.archived (s.documents target.path)))
  | .attempt => (s, .forbidden)
  | .other => (s, .anything)

def Store.performAll (s : Store N C) : List (Action N C) → Store N C × List (Result N C)
  | [] => (s, [])
  | action :: rest =>
    let (s, result) := s.perform action
    let (s, results) := s.performAll rest
    (s, result :: results)

theorem perform_all_append (s : Store N C) (past later : List (Action N C)) :
    (s.performAll (past ++ later)).1 = ((s.performAll past).1.performAll later).1 := by
  induction past generalizing s with
  | nil => rfl
  | cons action rest ih => exact ih (s.perform action).1

section Levels
variable {s : Store N C} {path : List N} {deep : Bool}

theorem level_self (s : Store N C) (path : List N) (deep : Bool) : s.level path deep path = s.get path :=
  if_pos (.inl rfl)

theorem level_child (s : Store N C) (path : List N) (n : N) :
    s.level path true (path ++ [n]) = s.get (path ++ [n]) :=
  if_pos (.inr ⟨rfl, by simp, List.dropLast_concat⟩)

theorem level_shown {place : List N} (shown : s.level path deep place ≠ none) :
    s.level path deep place = s.get place := by
  unfold Store.level at shown ⊢
  split at shown
  · exact if_pos ‹_›
  · exact absurd rfl shown

theorem level_cases {place : List N} (shown : s.level path deep place ≠ none) :
    place = path ∨ deep = true ∧ ∃ n, place = path ++ [n] := by
  unfold Store.level at shown
  by_cases same : place = path
  · exact .inl same
  · by_cases below : deep = true ∧ place ≠ [] ∧ place.dropLast = path
    · obtain ⟨shows, some_left, parent⟩ := below
      refine .inr ⟨shows, place.getLast some_left, ?_⟩
      rw [← parent, List.dropLast_append_getLast]
    · rw [if_neg (by simp [same, below])] at shown
      exact absurd rfl shown

theorem level_places {names : List N} (there : s.get path ≠ none) (once : names.Nodup)
    (all : ∀ n, n ∈ names ↔ deep = true ∧ s.get (path ++ [n]) ≠ none) :
    (path :: names.map (path ++ [·])).Nodup ∧
      ∀ place, place ∈ path :: names.map (path ++ [·]) ↔ s.level path deep place ≠ none := by
  constructor
  · refine List.nodup_cons.mpr ⟨?_, once.map fun n n' same => (List.append_singleton_inj.mp same).2⟩
    intro member
    obtain ⟨n, _, same⟩ := List.mem_map.mp member
    simp at same
  · intro place
    rw [List.mem_cons, List.mem_map]
    constructor
    · rintro (same | ⟨n, member, same⟩)
      · rw [same, level_self]
        exact there
      · obtain ⟨shows, below⟩ := (all n).mp member
        rw [← same, shows, level_child]
        exact below
    · intro shown
      rcases level_cases shown with same | ⟨shows, n, same⟩
      · exact .inl same
      · rw [same, shows, level_child] at shown
        exact .inr ⟨n, (all n).mpr ⟨shows, shown⟩, same.symm⟩

end Levels

theorem room_kinds (s : Store N C) (source dest : Address N) (overwrite : Bool)
    (free : overwrite = true ∨ s.seen dest = none)
    (collection : (s.makeRoom source dest overwrite).get source.path = some .collection) :
    (s.makeRoom source dest overwrite).get dest.path ≠ some .collection := by
  unfold Store.makeRoom at collection ⊢
  split
  · rename_i replaced
    rw [if_pos replaced] at collection
    exact fun there => by cases (if_pos List.prefix_rfl).symm.trans there
  · rename_i same
    rw [if_neg same] at collection
    intro there
    have seen := seen_collection.mpr there
    rcases free with replaced | none_seen
    · exact same ⟨replaced, seen_collection.mpr collection, seen⟩
    · rw [none_seen] at seen
      cases seen

theorem put_top {s : Store N C} {target : Address N} {content : C} (bare : target.path = []) :
    s.put target content = (s, .forbidden) := by
  unfold Store.put
  simp only [bare, List.getLast?_nil]

theorem put_concat {s : Store N C} {target : Address N} {content : C} {p : List N} {n : N}
    (whole : target.path = p ++ [n]) : s.put target content =
      if s.documentAt p then (s, .forbidden)
      else if s.blocked p then (s, .failed)
      else if fits : target.slash = false ∧ (s.ensure p).get p = some .collection ∧
          (s.ensure p).get (p ++ [n]) ≠ some .collection then
        ((s.ensure p).write p n (.document content) fits.2.1 fits.2.2, .created)
      else (s.ensure p, .forbidden) := by
  unfold Store.put
  simp only [whole, List.getLast?_concat, List.dropLast_concat]

theorem put_result (s : Store N C) (target : Address N) (content : C) :
    (s.put target content).2 = .created ∨ (s.put target content).2 = .forbidden ∨
      (s.put target content).2 = .failed := by
  unfold Store.put
  split
  · exact .inr (.inl rfl)
  · dsimp only
    repeat' split
    all_goals simp

def Action.Spares (path : List N) : Action N C → Prop
  | .put target _ => target.path ≠ path
  | .delete target => ¬ target.path <+: path
  | .move source dest _ => ¬ source.path <+: path ∧ ¬ dest.path <+: path
  | _ => True

section Spared
variable {s : Store N C} {path : List N} {content : C}

theorem ensure_spares (here : s.get path = some (.document content)) {made : List N}
    (unblocked : s.blocked made = false) : (s.ensure made).get path = some (.document content) := by
  refine (if_neg fun upper => ?_).trans here
  rw [blocked_iff.mpr ⟨path, content, upper, here⟩] at unblocked
  cases unblocked

theorem put_spares (here : s.get path = some (.document content)) {target : Address N} (other : C)
    (apart : target.path ≠ path) : (s.put target other).1.get path = some (.document content) := by
  rcases List.eq_nil_or_concat target.path with bare | ⟨p, n, whole⟩
  · rw [put_top bare]
    exact here
  · rw [List.concat_eq_append] at whole
    rw [put_concat whole]
    split
    · exact here
    split
    · exact here
    rename_i unblocked
    have ensured := ensure_spares here (Bool.not_eq_true _ ▸ unblocked)
    split
    · exact (if_neg fun same => apart (whole.trans same.symm)).trans ensured
    · exact ensured

theorem make_spares (here : s.get path = some (.document content)) (target : Address N) :
    (s.make target).1.get path = some (.document content) := by
  unfold Store.make
  split
  · exact here
  split
  · exact here
  rename_i missing
  have apart : path ≠ target.path := by
    intro same
    rw [← same, here] at missing
    exact missing rfl
  split
  · rename_i parent
    rw [ensure_new parent, if_neg apart]
    exact here
  · exact here

theorem move_spares (here : s.get path = some (.document content)) {source dest : Address N}
    (kept : ¬ source.path <+: path) (aside : ¬ dest.path <+: path) (overwrite : Bool) :
    (s.moveTo source dest overwrite).1.get path = some (.document content) := by
  have room : (s.makeRoom source dest overwrite).get path = some (.document content) := by
    unfold Store.makeRoom
    split
    · exact (if_neg aside).trans here
    · exact here
  unfold Store.moveTo
  repeat' split
  · exact here
  · exact here
  · exact here
  · exact here
  · unfold Store.replace
    split
    · exact ((if_neg aside).trans (if_neg kept)).trans room
    · exact room

theorem spared_kept (here : s.get path = some (.document content)) {action : Action N C}
    (spares : action.Spares path) : (s.perform action).1.get path = some (.document content) := by
  cases action with
  | read target => exact here
  | readPart target first last => exact here
  | inspect target => exact here
  | list target deep => exact here
  | search target wanted => exact here
  | archive target => exact here
  | attempt => exact here
  | other => exact here
  | put target other => exact put_spares here other spares
  | delete target =>
    unfold Store.perform Store.delete
    dsimp only
    split
    · exact (if_neg spares).trans here
    · exact here
  | make target => exact make_spares here target
  | move source dest overwrite => exact move_spares here spares.1 spares.2 overwrite

theorem all_spared_kept (here : s.get path = some (.document content)) {actions : List (Action N C)}
    (spares : ∀ action ∈ actions, action.Spares path) :
    (s.performAll actions).1.get path = some (.document content) := by
  induction actions generalizing s with
  | nil => exact here
  | cons action rest ih =>
    have next := spared_kept here (spares action List.mem_cons_self)
    exact ih next fun later member => spares later (List.mem_cons_of_mem _ member)

theorem put_there {target : Address N} (created : (s.put target content).2 = .created) :
    (s.put target content).1.get target.path = some (.document content) ∧ target.slash = false := by
  rcases List.eq_nil_or_concat target.path with bare | ⟨p, n, whole⟩
  · rw [put_top bare] at created
    cases created
  · rw [List.concat_eq_append] at whole
    rw [put_concat whole] at created ⊢
    split at created
    · cases created
    · rename_i other
      rw [if_neg other]
      split at created
      · cases created
      · rename_i unblocked
        rw [if_neg unblocked]
        split at created
        · rename_i fits
          rw [dif_pos fits, whole]
          exact ⟨if_pos rfl, fits.1⟩
        · cases created

end Spared

end Requests
end DocumentStore
