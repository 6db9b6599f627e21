import Vestibule.DocumentStores

/-!
Copies in a store of documents, and runs of requests some of which copy.
-/
namespace DocumentStore
variable {N C : Type}

/-- There is nothing at a path, and a collection it would be in. The top would be in none. -/
def Store.Free (s : Store N C) (path : List N) : Prop :=
  s.get path = none ∧ (path = [] ∨ s.get path.dropLast = some .collection)

variable [DecidableEq N]

instance (s : Store N C) (path : List N) : Decidable (s.Free path) := inferInstanceAs (Decidable (_ ∧ _))

/-- What a copy of one path to another shows below it. What is in the other itself is left out. -/
def Store.copied (s : Store N C) (source dest rest : List N) : Option (Item C) :=
  if dest <+: source ++ rest then none else s.get (source ++ rest)

def Store.graft (s : Store N C) (source dest : List N) (free : s.Free dest) : Store N C where
  get place :=
    if dest <+: place then s.copied source dest (place.drop dest.length)
    else s.get place
  closed place n there := by
    by_cases inside : dest <+: place
    · obtain ⟨rest, whole⟩ := inside
      subst whole
      rw [if_pos ⟨rest ++ [n], (List.append_assoc _ _ _).symm⟩, List.append_assoc, List.drop_left] at there
      rw [if_pos (List.prefix_append dest rest), List.drop_left]
      unfold Store.copied at there ⊢
      rw [← List.append_assoc] at there
      split at there
      · exact absurd rfl there
      · rename_i apart
        rw [if_neg fun inside => apart (inside.trans (List.prefix_append _ _))]
        exact s.closed _ n there
    · rw [if_neg inside]
      by_cases whole : dest <+: place ++ [n]
      · have same := (List.prefix_concat_iff.mp whole).resolve_right inside
        have parent := free.2.resolve_left (by simp [same])
        rwa [same, List.dropLast_concat] at parent
      · rw [if_neg whole] at there
        exact s.closed place n there

def Store.ready (s : Store N C) (path : List N) : Store N C :=
  if s.Free path then s.ensure path else s

/-- A document is put into a collection, if there is no collection of that name in it. -/
def Store.place (s : Store N C) (above : List N) (n : N) (content : C) : Store N C × Bool :=
  if fits : s.get above = some .collection ∧ s.get (above ++ [n]) ≠ some .collection then
    (s.write above n (.document content) fits.1 fits.2, true)
  else (s, false)

/-- A document goes into the place of another, or else under its name into a collection, which is made for
    it. -/
def Store.copyDocument (s : Store N C) (source dest : Address N) (content : C) : Store N C × Bool :=
  if (s.seen dest).any Item.isDocument then
    match dest.path.getLast? with
    | none => (s, false)
    | some n => s.place dest.path.dropLast n content
  else
    match source.path.getLast? with
    | none => (s.ready dest.path, false)
    | some n => (s.ready dest.path).place dest.path n content

open Classical in
/-- A collection goes with all that is in it, into the place of another or where there is nothing. Else
    nothing is copied, and it only fails for a document. -/
noncomputable def Store.copyCollection (s : Store N C) (source dest : Address N) (overwrite : Bool) :
    Store N C × Bool :=
  let s := s.makeRoom source dest overwrite
  if s.get source.path = none then (s, false)
  else if free : s.Free dest.path then (s.graft source.path dest.path free, true)
  else (s, decide (∀ rest content, s.copied source.path dest.path rest ≠ some (.document content)))

/-- A shallow copy of a collection only makes a collection. -/
noncomputable def Store.copyItem (s : Store N C) (source dest : Address N) (overwrite deep : Bool) :
    Item C → Store N C × Bool
  | .document content => s.copyDocument source dest content
  | .collection =>
    if deep then s.copyCollection source dest overwrite else (s.ready dest.path, true)

/-- An answer to a request, or what a copy to the place of something is answered. -/
inductive Reply (N C : Type) where
  | result (result : Result N C)
  | replaced

noncomputable def Store.copyTo (s : Store N C) (source dest : Address N) (overwrite deep : Bool) :
    Store N C × Reply N C :=
  match s.seen source with
  | none => (s, .result .missing)
  | some item =>
    if dest.path ≠ [] ∧ s.get dest.path.dropLast = none then (s, .result .conflict)
    else if !overwrite && (s.seen dest).isSome then (s, .result .kept)
    else if source.path = dest.path then (s, .result .forbidden)
    else
      let (left, done) := s.copyItem source dest overwrite deep item
      (left, if !done then .result .failed else if (s.seen dest).isSome then .replaced else .result .created)

inductive Deed (N C : Type) where
  | act (action : Action N C)
  | copy (source dest : Address N) (overwrite deep : Bool)

noncomputable def Store.carryOut (s : Store N C) : Deed N C → Store N C × Reply N C
  | .act action => ((s.perform action).1, .result (s.perform action).2)
  | .copy source dest overwrite deep => s.copyTo source dest overwrite deep

noncomputable def Store.carryOutAll (s : Store N C) : List (Deed N C) → Store N C × List (Reply N C)
  | [] => (s, [])
  | deed :: rest =>
    let (s, reply) := s.carryOut deed
    let (s, replies) := s.carryOutAll rest
    (s, reply :: replies)

def Deed.Spares (path : List N) : Deed N C → Prop
  | .act action => action.Spares path
  | .copy _ dest _ _ => ¬ dest.path <+: path

theorem ready_get (s : Store N C) (path place : List N) :
    (s.ready path).get place = if s.Free path ∧ place = path then some .collection else s.get place := by
  unfold Store.ready
  by_cases free : s.Free path
  · rw [if_pos free, ensure_new free.2]
    simp only [free, true_and]
  · rw [if_neg free, if_neg fun both => free both.1]

section Spared
variable {s : Store N C} {path : List N} {content : C} {source dest : Address N}

theorem ready_spares (here : s.get path = some (.document content)) (made : List N) :
    (s.ready made).get path = some (.document content) := by
  rw [ready_get, if_neg, here]
  rintro ⟨free, same⟩
  rw [same, free.1] at here
  cases here

theorem place_spares (here : s.get path = some (.document content)) {above : List N} {n : N} (other : C)
    (apart : path ≠ above ++ [n]) : (s.place above n other).1.get path = some (.document content) := by
  unfold Store.place
  split
  · exact (if_neg apart).trans here
  · exact here

theorem copy_document_spares (here : s.get path = some (.document content)) (other : C)
    (outside : ¬ dest.path <+: path) :
    (s.copyDocument source dest other).1.get path = some (.document content) := by
  unfold Store.copyDocument
  split
  · split
    · exact here
    · rename_i n last
      apply place_spares here
      intro same
      apply outside
      rw [same, List.dropLast_append_getLast? n last]
  · split
    · exact ready_spares here _
    · exact place_spares (ready_spares here _) other fun same => outside ⟨_, same.symm⟩

theorem copy_collection_spares (here : s.get path = some (.document content)) (overwrite : Bool)
    (outside : ¬ dest.path <+: path) :
    (s.copyCollection source dest overwrite).1.get path = some (.document content) := by
  have room : (s.makeRoom source dest overwrite).get path = some (.document content) := by
    unfold Store.makeRoom
    split
    · exact (if_neg outside).trans here
    · exact here
  unfold Store.copyCollection
  dsimp only
  repeat' split
  · exact room
  · exact (if_neg outside).trans room
  · exact room

theorem copy_item_spares (here : s.get path = some (.document content)) (overwrite deep : Bool)
    (outside : ¬ dest.path <+: path) (item : Item C) :
    (s.copyItem source dest overwrite deep item).1.get path = some (.document content) := by
  cases item with
  | document other => exact copy_document_spares here other outside
  | collection =>
    cases deep with
    | true => exact copy_collection_spares here overwrite outside
    | false => exact ready_spares here _

theorem deed_spared_kept (here : s.get path = some (.document content)) {deed : Deed N C}
    (spares : deed.Spares path) : (s.carryOut deed).1.get path = some (.document content) := by
  cases deed with
  | act action => exact spared_kept here spares
  | copy source dest overwrite deep =>
    unfold Store.carryOut Store.copyTo
    dsimp only
    split
    · exact here
    split
    · exact here
    split
    · exact here
    split
    · exact here
    exact copy_item_spares here overwrite deep spares _

/-- A document stays as long as it is spared. -/
theorem deeds_spared_kept (here : s.get path = some (.document content)) {deeds : List (Deed N C)}
    (spares : ∀ deed ∈ deeds, deed.Spares path) :
    (s.carryOutAll deeds).1.get path = some (.document content) := by
  induction deeds generalizing s with
  | nil => exact here
  | cons deed rest ih =>
    have next := deed_spared_kept here (spares deed List.mem_cons_self)
    exact ih next fun later member => spares later (List.mem_cons_of_mem _ member)

theorem copy_reply (s : Store N C) (source dest : Address N) (overwrite deep : Bool) :
    ((s.copyTo source dest overwrite deep).2 = .replaced ∨
      (s.copyTo source dest overwrite deep).2 = .result .created) ∨
    ∃ result, (s.copyTo source dest overwrite deep).2 = .result result ∧
      (result = .missing ∨ result = .conflict ∨ result = .kept ∨ result = .forbidden ∨ result = .failed) := by
  unfold Store.copyTo
  repeat' split
  all_goals simp

theorem copied_there {rest : List N} {overwrite : Bool} (collection : s.seen source = some .collection)
    (here : s.get (source.path ++ rest) = some (.document content))
    (outside : ¬ dest.path <+: source.path ++ rest)
    (copied : (s.copyTo source dest overwrite true).2 = .replaced ∨
      (s.copyTo source dest overwrite true).2 = .result .created) :
    (s.copyTo source dest overwrite true).1.get (dest.path ++ rest) = some (.document content) := by
  have room : (s.makeRoom source dest overwrite).get (source.path ++ rest) = some (.document content) := by
    unfold Store.makeRoom
    split
    · exact (if_neg outside).trans here
    · exact here
  have shown : (s.makeRoom source dest overwrite).copied source.path dest.path rest =
      some (.document content) := (if_neg outside).trans room
  unfold Store.copyTo at copied ⊢
  rw [collection] at copied ⊢
  dsimp only at copied ⊢
  split at copied
  · simp at copied
  rename_i parent
  split at copied
  · simp at copied
  rename_i allowed
  split at copied
  · simp at copied
  rename_i onto
  rw [if_neg parent, if_neg allowed, if_neg onto]
  unfold Store.copyItem Store.copyCollection at copied ⊢
  simp only [if_pos] at copied ⊢
  split at copied
  · simp at copied
  rename_i there
  rw [if_neg there]
  split at copied
  · rename_i free
    rw [dif_pos free]
    exact (if_pos (List.prefix_append _ _)).trans (by rw [List.drop_left]; exact shown)
  · -- a copy that is stuck fails for this document
    have fails : ¬ ∀ rest content, (s.makeRoom source dest overwrite).copied source.path dest.path rest ≠
        some (.document content) := fun none_copied => none_copied rest content shown
    rw [@decide_eq_false _ (Classical.propDecidable _) fails] at copied
    simp at copied

end Spared

end DocumentStore
