import Mathlib.Data.List.Nodup

/-!
A list searched by a key from the front: the first element with a key is the one that is found,
replaced and removed. Keys need not be distinct, but replacing, adding and removing keep them so.
-/
namespace KeyedList
variable {α κ : Type} [DecidableEq κ] (key : α → κ)

def lookup (k : κ) (xs : List α) : Option α := xs.find? fun x => key x = k

/-- The first element with the key of `x` becomes `x`. -/
def replaceFirst (x : α) : List α → Option (List α)
  | [] => none
  | y :: rest => if key y = key x then some (x :: rest) else (replaceFirst x rest).map (y :: ·)

def removeFirst (k : κ) : List α → Option (List α)
  | [] => none
  | y :: rest => if key y = k then some rest else (removeFirst k rest).map (y :: ·)

variable {key}

theorem lookup_cons (k : κ) (y : α) (rest : List α) :
    lookup key k (y :: rest) = if key y = k then some y else lookup key k rest := by
  unfold lookup
  rw [List.find?_cons]
  by_cases same : key y = k <;> simp [same]

theorem lookup_key {k : κ} {x : α} {xs : List α} (found : lookup key k xs = some x) : key x = k := by
  have same := List.find?_some found
  exact of_decide_eq_true same

theorem lookup_none {k : κ} {xs : List α} : lookup key k xs = none ↔ k ∉ xs.map key := by
  induction xs with
  | nil => simp [lookup]
  | cons y rest ih =>
    rw [lookup_cons]
    by_cases same : key y = k
    · simp [same]
    · simp [same, ih, Ne.symm same]

theorem replace_first_none {x : α} {xs : List α} :
    replaceFirst key x xs = none ↔ lookup key (key x) xs = none := by
  induction xs with
  | nil => simp [replaceFirst, lookup]
  | cons y rest ih =>
    rw [lookup_cons]
    unfold replaceFirst
    by_cases same : key y = key x
    · simp [same]
    · simp [same, ih]

theorem replace_first_keys {x : α} {xs ys : List α} (replaced : replaceFirst key x xs = some ys) :
    ys.map key = xs.map key := by
  induction xs generalizing ys with
  | nil => cases replaced
  | cons y rest ih =>
    unfold replaceFirst at replaced
    split at replaced
    · rename_i same
      cases replaced
      simp [same]
    · obtain ⟨zs, tail, whole⟩ := Option.map_eq_some_iff.mp replaced
      subst whole
      simp [ih tail]

theorem lookup_replace_first {x : α} {xs ys : List α}
    (replaced : replaceFirst key x xs = some ys) (k : κ) :
    lookup key k ys = if k = key x then some x else lookup key k xs := by
  induction xs generalizing ys with
  | nil => cases replaced
  | cons y rest ih =>
    unfold replaceFirst at replaced
    split at replaced
    · rename_i same
      cases replaced
      rw [lookup_cons, lookup_cons, same]
      by_cases here : k = key x
      · simp [here]
      · simp [here, Ne.symm here]
    · rename_i other
      obtain ⟨zs, tail, whole⟩ := Option.map_eq_some_iff.mp replaced
      subst whole
      rw [lookup_cons, lookup_cons, ih tail]
      by_cases here : k = key x
      · subst here
        simp [other]
      · simp [here]

theorem lookup_push {x : α} {xs : List α} (missing : lookup key (key x) xs = none) (k : κ) :
    lookup key k (xs ++ [x]) = if k = key x then some x else lookup key k xs := by
  unfold lookup at missing ⊢
  rw [List.find?_append, List.find?_singleton]
  by_cases here : k = key x
  · subst here
    simp [missing]
  · simp [here, Ne.symm here]

theorem remove_first_sublist {k : κ} {xs ys : List α} (removed : removeFirst key k xs = some ys) :
    ys.Sublist xs := by
  induction xs generalizing ys with
  | nil => cases removed
  | cons y rest ih =>
    unfold removeFirst at removed
    split at removed
    · cases removed
      exact List.sublist_cons_self _ _
    · obtain ⟨zs, tail, whole⟩ := Option.map_eq_some_iff.mp removed
      subst whole
      exact (ih tail).cons_cons _

theorem lookup_remove_first {k : κ} {xs ys : List α} (distinct : (xs.map key).Nodup)
    (removed : removeFirst key k xs = some ys) (j : κ) :
    lookup key j ys = if j = k then none else lookup key j xs := by
  induction xs generalizing ys with
  | nil => cases removed
  | cons y rest ih =>
    rw [List.map_cons, List.nodup_cons] at distinct
    unfold removeFirst at removed
    split at removed
    · rename_i same
      cases removed
      rw [lookup_cons]
      by_cases here : j = k
      · subst here
        rw [if_pos rfl]
        apply lookup_none.mpr
        rw [← same]
        exact distinct.1
      · rw [if_neg here, if_neg (by rw [same]; exact Ne.symm here)]
    · rename_i other
      obtain ⟨zs, tail, whole⟩ := Option.map_eq_some_iff.mp removed
      subst whole
      rw [lookup_cons, lookup_cons, ih distinct.2 tail]
      by_cases here : j = k
      · subst here
        simp [other]
      · simp [here]

theorem nodup_push {x : α} {xs : List α} (distinct : (xs.map key).Nodup)
    (missing : lookup key (key x) xs = none) : ((xs ++ [x]).map key).Nodup := by
  rw [List.map_append, List.map_singleton]
  apply List.nodup_append.mpr
  constructor
  · exact distinct
  constructor
  · exact List.nodup_singleton _
  · intro a member b single same
    rw [List.mem_singleton.mp single] at same
    exact lookup_none.mp missing (same ▸ member)

section Put
variable (key) in
/-- `x` in the place of the first element with its key, or at the end. -/
def put (x : α) (xs : List α) : List α := (replaceFirst key x xs).getD (xs ++ [x])

theorem put_nil (x : α) : put key x [] = [x] := rfl

theorem put_cons (x y : α) (rest : List α) :
    put key x (y :: rest) = if key y = key x then x :: rest else y :: put key x rest := by
  unfold put
  conv => lhs; unfold replaceFirst
  by_cases same : key y = key x
  · rw [if_pos same, if_pos same]
    rfl
  · rw [if_neg same, if_neg same]
    cases replaceFirst key x rest <;> rfl

theorem self_mem_put (x : α) (xs : List α) : x ∈ put key x xs := by
  induction xs with
  | nil => exact List.mem_singleton_self x
  | cons y rest ih =>
    rw [put_cons]
    split
    · exact List.mem_cons_self
    · exact List.mem_cons_of_mem _ ih

theorem mem_put {x y : α} {xs : List α} (member : y ∈ put key x xs) : y = x ∨ y ∈ xs := by
  induction xs with
  | nil => exact .inl (List.mem_singleton.mp member)
  | cons z rest ih =>
    rw [put_cons] at member
    split at member
    · rcases List.mem_cons.mp member with same | later
      · exact .inl same
      · exact .inr (List.mem_cons_of_mem _ later)
    · rcases List.mem_cons.mp member with same | later
      · exact .inr (same ▸ List.mem_cons_self)
      · exact (ih later).imp id (List.mem_cons_of_mem _)

theorem put_perm (x : α) (xs : List α) :
    (put key x xs).Perm (x :: (removeFirst key (key x) xs).getD xs) := by
  induction xs with
  | nil => exact .refl _
  | cons y rest ih =>
    rw [put_cons]
    unfold removeFirst
    by_cases same : key y = key x
    · rw [if_pos same, if_pos same]
      exact .refl _
    · rw [if_neg same, if_neg same]
      have later := (ih.cons y).trans (List.Perm.swap x y _)
      cases removed : removeFirst key (key x) rest with
      | none =>
        rw [removed] at later
        exact later
      | some left =>
        rw [removed] at later
        exact later

theorem nodup_put {x : α} {xs : List α} (distinct : (xs.map key).Nodup) :
    ((put key x xs).map key).Nodup := by
  unfold put
  cases replaced : replaceFirst key x xs with
  | none => exact nodup_push distinct (replace_first_none.mp replaced)
  | some ys =>
    rw [Option.getD_some, replace_first_keys replaced]
    exact distinct

theorem lookup_put (x : α) (xs : List α) (k : κ) :
    lookup key k (put key x xs) = if k = key x then some x else lookup key k xs := by
  unfold put
  cases replaced : replaceFirst key x xs with
  | none => exact lookup_push (replace_first_none.mp replaced) k
  | some ys => exact lookup_replace_first replaced k

theorem others_put (x : α) (xs : List α) :
    (put key x xs).filter (key · ≠ key x) = xs.filter (key · ≠ key x) := by
  induction xs with
  | nil => simp [put_nil]
  | cons y rest ih =>
    rw [put_cons]
    by_cases same : key y = key x
    · simp [same]
    · rw [if_neg same, List.filter_cons, List.filter_cons, ih]

theorem lookup_mem {x : α} {xs : List α} (distinct : (xs.map key).Nodup) (member : x ∈ xs) :
    lookup key (key x) xs = some x := by
  induction xs with
  | nil => cases member
  | cons y rest ih =>
    rw [List.map_cons, List.nodup_cons] at distinct
    rw [lookup_cons]
    rcases List.mem_cons.mp member with same | later
    · rw [if_pos (by rw [same]), same]
    · rw [if_neg, ih distinct.2 later]
      intro same
      exact distinct.1 (same ▸ List.mem_map_of_mem later)

theorem filter_key {x : α} {xs : List α} (distinct : (xs.map key).Nodup)
    (found : lookup key (key x) xs = some x) : xs.filter (key · = key x) = [x] := by
  induction xs with
  | nil => cases found
  | cons y rest ih =>
    rw [List.map_cons, List.nodup_cons] at distinct
    rw [lookup_cons] at found
    by_cases same : key y = key x
    · rw [if_pos same] at found
      cases found
      rw [List.filter_cons_of_pos (by simp), List.filter_eq_nil_iff.mpr]
      intro z later clash
      simp only [decide_eq_true_eq] at clash
      exact distinct.1 (clash ▸ List.mem_map_of_mem later)
    · rw [if_neg same] at found
      rw [List.filter_cons_of_neg (by simpa using same)]
      exact ih distinct.2 found

theorem nodup_remove_first {k : κ} {xs ys : List α} (distinct : (xs.map key).Nodup)
    (removed : removeFirst key k xs = some ys) : (ys.map key).Nodup :=
  ((remove_first_sublist removed).map key).nodup distinct

theorem others_remove_first {k : κ} {xs ys : List α} (removed : removeFirst key k xs = some ys) :
    ys.filter (key · ≠ k) = xs.filter (key · ≠ k) := by
  induction xs generalizing ys with
  | nil => cases removed
  | cons y rest ih =>
    unfold removeFirst at removed
    split at removed
    · rename_i same
      cases removed
      simp [same]
    · obtain ⟨zs, tail, whole⟩ := Option.map_eq_some_iff.mp removed
      subst whole
      rw [List.filter_cons, List.filter_cons, ih tail]

theorem remaining_sublist (x : α) (xs : List α) :
    ((removeFirst key (key x) xs).getD xs).Sublist xs := by
  cases removed : removeFirst key (key x) xs with
  | none => exact .refl xs
  | some ys => exact remove_first_sublist removed

end Put

section Maps
variable (key)

/-- `x` is the one element of `ys` with its key; the others are those of `xs`, in their order. -/
structure Stores (x : α) (xs ys : List α) : Prop where
  here : ys.filter (key · = key x) = [x]
  others : ys.filter (key · ≠ key x) = xs.filter (key · ≠ key x)

structure Erases (k : κ) (xs ys : List α) : Prop where
  here : ys.filter (key · = k) = []
  others : ys.filter (key · ≠ k) = xs.filter (key · ≠ k)

variable {key}

theorem put_stores {x : α} {xs : List α} (distinct : (xs.map key).Nodup) :
    Stores key x xs (put key x xs) where
  here := filter_key (nodup_put distinct) (by rw [lookup_put, if_pos rfl])
  others := others_put x xs

theorem remove_erases {k : κ} {xs ys : List α} (distinct : (xs.map key).Nodup)
    (removed : removeFirst key k xs = some ys) : Erases key k xs ys where
  here := by
    have gone : lookup key k ys = none := by rw [lookup_remove_first distinct removed, if_pos rfl]
    apply List.filter_eq_nil_iff.mpr
    intro y member same
    exact lookup_none.mp gone (of_decide_eq_true same ▸ List.mem_map_of_mem member)
  others := others_remove_first removed

theorem map_put {f : α → α} (kept : ∀ y, key (f y) = key y) (x : α) (xs : List α) :
    (put key x xs).map f = put key (f x) (xs.map f) := by
  induction xs with
  | nil => rfl
  | cons y rest ih =>
    rw [List.map_cons, put_cons, put_cons, kept, kept]
    split
    · rfl
    · rw [List.map_cons, ih]

theorem map_remove_first {f : α → α} (kept : ∀ y, key (f y) = key y) (k : κ) (xs : List α) :
    removeFirst key k (xs.map f) = (removeFirst key k xs).map (List.map f) := by
  induction xs with
  | nil => rfl
  | cons y rest ih =>
    rw [List.map_cons]
    unfold removeFirst
    rw [kept, ih]
    split
    · rfl
    · cases removeFirst key k rest <;> rfl

end Maps

end KeyedList
