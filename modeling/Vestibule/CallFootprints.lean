import Vestibule.LinkedCalls

/-!
What the calls touch in a tree with symbolic links: which places they create, overwrite, remove or
read to copy, for each call from the tree it finds.
-/
namespace CallFootprints
open LexicalMotion FileTree FileCalls World PlainLookups PlainCalls LinkedLookups LinkedCalls
variable {N β : Type} [FileName N]

section Footprints
variable {w w' w'' : World N β} {inside : List N → Prop}

/-- All places touched between two worlds are inside. -/
def TouchesWithin (inside : List N → Prop) (w w' : World N β) : Prop :=
  ∃ places, w'.touched = w.touched ++ places ∧ ∀ place ∈ places, inside place

theorem touches_same (same : w'.touched = w.touched) : TouchesWithin inside w w' :=
  ⟨[], by rw [same, List.append_nil], by simp⟩

theorem touches_refl (w : World N β) : TouchesWithin inside w w := touches_same rfl

theorem touches_trans (first : TouchesWithin inside w w') (later : TouchesWithin inside w' w'') :
    TouchesWithin inside w w'' := by
  obtain ⟨places, touched, all⟩ := first
  obtain ⟨places', touched', all'⟩ := later
  refine ⟨places ++ places', by rw [touched', touched, List.append_assoc], ?_⟩
  intro place member
  rcases List.mem_append.mp member with old | new
  · exact all place old
  · exact all' place new

theorem touches_iff {places : List (List N)} (touched : w'.touched = w.touched ++ places) :
    TouchesWithin inside w w' ↔ ∀ place ∈ places, inside place := by
  constructor
  · rintro ⟨places', touched', all⟩
    rw [touched] at touched'
    exact List.append_cancel_left touched' ▸ all
  · exact fun all => ⟨places, touched, all⟩

theorem touches_both (first : TouchesWithin (fun _ => True) w w')
    (later : TouchesWithin (fun _ => True) w' w'') :
    TouchesWithin inside w w'' ↔ TouchesWithin inside w w' ∧ TouchesWithin inside w' w'' := by
  obtain ⟨places, touched, _⟩ := first
  obtain ⟨places', touched', _⟩ := later
  have whole : w''.touched = w.touched ++ (places ++ places') := by
    rw [touched', touched, List.append_assoc]
  rw [touches_iff touched, touches_iff touched', touches_iff whole]
  exact List.forall_mem_append

end Footprints

section Growth
variable [DecidableEq N] {w w' : World N β} {place : List N} {node : Node N β}

theorem copy_file_touches {source dest : Path N} {inside : List N → Prop} :
    TouchesWithin inside w (w.copyFile source dest).1 ↔
      ∀ s content p n, w.lookup true source = .ok s → w.tree.get s = some (.file content) →
        OpensTo w dest p n → inside s ∧ inside (p ++ [n]) := by
  constructor
  · intro within s content p n found file opens
    obtain ⟨_, _, touched⟩ := copy_file_done found file opens
    have all := (touches_iff touched).mp within
    exact ⟨all s (by simp), all (p ++ [n]) (by simp)⟩
  · intro safe
    by_cases can : ∃ content p n, w.metadata source = .ok (.file content) ∧ OpensTo w dest p n
    · obtain ⟨content, p, n, node, opens⟩ := can
      obtain ⟨s, found, file⟩ := stat_ok_iff.mp node
      obtain ⟨_, _, touched⟩ := copy_file_done found file opens
      have both := safe s content p n found file opens
      exact (touches_iff touched).mpr (by simp [both])
    · obtain ⟨e, failed⟩ := copy_file_refused source dest
        fun content p n node opens => can ⟨content, p, n, node, opens⟩
      rw [failed]
      exact touches_refl w

theorem puts_extends (puts : Puts w w' place node) (missing : w.tree.get place = none) :
    Extends w.tree w'.tree := by
  have kept {loc : List N} {node' : Node N β} (found : w.tree.get loc = some node') :
      w'.tree.get loc = some node' := by
    rw [puts.get, if_neg]
    · exact found
    · intro same
      rw [same, missing] at found
      cases found
  exact ⟨fun _ found => kept found, fun _ _ found => kept found, fun _ content found => ⟨content, kept found⟩⟩

end Growth

section Removals
variable [DecidableEq N] {w w' : World N β} {path : Path N} {inside : List N → Prop}
  {top p place : List N} {n : N}

/-- What `remove_dir_all` takes away: a link itself, or all that is below a directory, and the
    directory if the path still names it when it is empty. -/
def Removes (w : World N β) (path : Path N) (place : List N) : Prop :=
  ∃ top, w.lookup false path = .ok top ∧
    (Linked w.tree top ∧ place = top ∨
      w.tree.isDir top = true ∧ (top <+: place ∧ top ≠ place ∧ w.tree.get place ≠ none ∨
        place = top ∧ ∃ p n, (w.clearAt top).entry path = .ok (p, some n) ∧ p ++ [n] = top))

theorem cleared_extends (w : World N β) (top : List N) : Extends (w.clearAt top).tree w.tree := by
  have kept {loc : List N} {node : Node N β} (found : (w.clearAt top).tree.get loc = some node) :
      w.tree.get loc = some node := by
    rw [(clear_at_clears top).get] at found
    split at found
    · cases found
    · exact found
  exact ⟨fun _ found => kept found, fun _ _ found => kept found, fun _ content found => ⟨content, kept found⟩⟩

theorem remove_emptied (found : w.lookup false path = .ok top) (dir : w.tree.isDir top = true) :
    ((∃ p n, (w.clearAt top).entry path = .ok (p, some n) ∧ p ++ [n] = top ∧
        (w.clearAt top).removeDir path = ((w.clearAt top).dropAt p n, .ok ())) ∨
      (∀ p n, (w.clearAt top).entry path = .ok (p, some n) → p ++ [n] ≠ top) ∧
        ∃ e, (w.clearAt top).removeDir path = (w.clearAt top, .error e)) := by
  have cleared : Clears w (w.clearAt top) top := clear_at_clears top
  have here : (w.clearAt top).tree.get top = some .dir := by
    rw [cleared.get, if_neg (fun below => below.2 rfl)]
    exact is_dir_iff.mp dir
  have childless : (w.clearAt top).tree.childless top = true := by
    apply childless_iff.mpr
    intro rest more
    rw [cleared.get, if_pos ⟨List.prefix_append _ _, by simpa using more⟩]
  unfold removeDir
  cases entry : (w.clearAt top).entry path with
  | error e => exact .inr ⟨(fun p n found => by cases found), e, rfl⟩
  | ok named =>
    obtain ⟨p, last⟩ := named
    cases last with
    | none => exact .inr ⟨(fun p n found => by cases found), _, rfl⟩
    | some n =>
      by_cases whole : p ++ [n] = top
      · refine .inl ⟨p, n, rfl, whole, ?_⟩
        simp only [whole, here, childless, ↓reduceIte]
      · refine .inr ⟨?_, ?_⟩
        · intro p' n' same
          cases same
          exact whole
        · -- with a separator at the end the path can name a link to the directory
          have cwd : w.cwd = (w.clearAt top).cwd := rfl
          have before := entry_extends cwd (cleared_extends w top) entry
          have linked : Linked w.tree (p ++ [n]) := by
            by_contra plain
            exact whole (lookup_entry found before (.inr plain)).symm
          obtain ⟨target, link⟩ := linked
          simp only [cleared.get, link]
          split
          · exact ⟨_, rfl⟩
          · rename_i node same
            split at same <;> cases same
          · exact ⟨_, rfl⟩

theorem clear_at_touched (w : World N β) (top : List N) : ∃ places,
    (w.clearAt top).touched = w.touched ++ places ∧
      ∀ place, place ∈ places ↔ top <+: place ∧ top ≠ place ∧ w.tree.get place ≠ none := by
  refine ⟨_, rfl, fun place => ?_⟩
  simp only [List.mem_filter, Bool.and_eq_true, List.isPrefixOf_iff_prefix, ne_eq,
    decide_not, Bool.not_eq_true', decide_eq_false_iff_not, Option.isSome_iff_ne_none, and_assoc]
  constructor
  · exact fun both => both.2
  · intro kept
    obtain ⟨node, there⟩ := Option.ne_none_iff_exists'.mp kept.2.2
    exact ⟨w.tree.finite _ node there, kept⟩

theorem removes_link (found : w.lookup false path = .ok top) (linked : Linked w.tree top) :
    Removes w path place ↔ place = top := by
  constructor
  · rintro ⟨top', found', self | below⟩
    · rw [found] at found'
      cases found'
      exact self.2
    · rw [found] at found'
      cases found'
      exact absurd linked (not_linked_dir below.1)
  · exact fun same => ⟨top, found, .inl ⟨linked, same⟩⟩

theorem removes_dir (found : w.lookup false path = .ok top) (dir : w.tree.isDir top = true) :
    Removes w path place ↔ top <+: place ∧ top ≠ place ∧ w.tree.get place ≠ none ∨
      place = top ∧ ∃ p n, (w.clearAt top).entry path = .ok (p, some n) ∧ p ++ [n] = top := by
  constructor
  · rintro ⟨top', found', self | below⟩
    · rw [found] at found'
      cases found'
      exact absurd self.1 (not_linked_dir dir)
    · rw [found] at found'
      cases found'
      exact below.2
  · exact fun below => ⟨top, found, .inr ⟨dir, below⟩⟩

/-- Nothing is removed; or a link; or all below a directory, and the directory if the path still names
    it. -/
theorem remove_dir_all_cases (w : World N β) (path : Path N) :
    ((∀ place, ¬ Removes w path place) ∧ ∃ e, w.removeDirAll path = (w, .error e)) ∨
      (∃ p n, w.lookup false path = .ok (p ++ [n]) ∧ Linked w.tree (p ++ [n]) ∧
        w.removeDirAll path = (w.dropAt p n, .ok ())) ∨
      ∃ top, w.lookup false path = .ok top ∧ w.tree.isDir top = true ∧
        ((∃ p n, (w.clearAt top).entry path = .ok (p, some n) ∧ p ++ [n] = top ∧
            w.removeDirAll path = ((w.clearAt top).dropAt p n, .ok ())) ∨
          (∀ p n, (w.clearAt top).entry path = .ok (p, some n) → p ++ [n] ≠ top) ∧
            ∃ e, w.removeDirAll path = (w.clearAt top, .error e)) := by
  unfold removeDirAll
  cases found : w.lookup false path with
  | error e =>
    refine .inl ⟨fun place removes => ?_, e, rfl⟩
    obtain ⟨top, found', _⟩ := removes
    rw [found] at found'
    cases found'
  | ok top =>
    have untouched (plain : ¬ Linked w.tree top) (other : w.tree.isDir top = false)
        (place : List N) : ¬ Removes w path place := by
      rintro ⟨top', found', kind⟩
      rw [found] at found'
      cases found'
      rcases kind with linked | dir
      · exact plain linked.1
      · rw [other] at dir
        cases dir.1
    dsimp only
    cases here : w.tree.get top with
    | none => exact .inl ⟨untouched (not_linked_missing here) (missing_not_dir here), _, rfl⟩
    | some node =>
      cases node with
      | file content => exact .inl ⟨untouched (not_linked_file here) (file_not_dir here), _, rfl⟩
      | link target =>
        obtain ⟨plain, p, n, entry, whole⟩ := lookup_linked found ⟨target, here⟩
        subst whole
        exact .inr (.inl ⟨p, n, rfl, ⟨target, here⟩, remove_file_done entry plain here rfl⟩)
      | dir =>
        have dir := is_dir_iff.mpr here
        exact .inr (.inr ⟨top, rfl, dir, remove_emptied found dir⟩)

theorem remove_dir_all_touches : TouchesWithin inside w (w.removeDirAll path).1 ↔
    ∀ place, Removes w path place → inside place := by
  rcases remove_dir_all_cases w path with ⟨untouched, e, run⟩ | ⟨p, n, found, linked, run⟩ |
    ⟨top, found, dir, ⟨p, n, entry, whole, run⟩ | ⟨elsewhere, e, run⟩⟩
  · rw [run]
    exact iff_of_true (touches_refl w) fun place removes => absurd removes (untouched place)
  · rw [run]
    refine (touches_iff rfl).trans ?_
    simp only [removes_link found linked, List.mem_singleton]
  · rw [run]
    obtain ⟨places, touched, below⟩ := clear_at_touched w top
    have touched' : ((w.clearAt top).dropAt p n).touched = w.touched ++ (places ++ [top]) := by
      rw [← List.append_assoc, ← touched, ← whole]
      rfl
    refine (touches_iff touched').trans (forall_congr' fun place => ?_)
    rw [removes_dir found dir, List.mem_append, List.mem_singleton, below]
    have named : ∃ p n, (w.clearAt top).entry path = .ok (p, some n) ∧ p ++ [n] = top :=
      ⟨p, n, entry, whole⟩
    simp only [named, and_true]
  · rw [run]
    obtain ⟨places, touched, below⟩ := clear_at_touched w top
    refine (touches_iff touched).trans (forall_congr' fun place => ?_)
    rw [removes_dir found dir, below]
    have unnamed : ¬ ∃ p n, (w.clearAt top).entry path = .ok (p, some n) ∧ p ++ [n] = top :=
      fun ⟨p, n, entry, whole⟩ => elsewhere p n entry whole
    simp only [unnamed, and_false, or_false]

theorem remove_dir_all_ok (run : w.removeDirAll path = (w', .ok ())) : ∃ top,
    w.lookup false path = .ok top ∧ (Linked w.tree top ∨ w.tree.isDir top = true) ∧
      top ≠ [] ∧ Drops w w' top := by
  rcases remove_dir_all_cases w path with ⟨_, e, run'⟩ | ⟨p, n, found, linked, run'⟩ |
    ⟨top, found, dir, ⟨p, n, entry, whole, run'⟩ | ⟨_, e, run'⟩⟩
  · rw [run'] at run
    cases run
  · rw [run'] at run
    cases run
    exact ⟨_, found, .inl linked, by simp, drop_at_drops p n⟩
  · rw [run'] at run
    cases run
    subst whole
    refine ⟨_, found, .inr dir, by simp, rfl, fun loc => ?_⟩
    rw [(drop_at_drops p n).get, (clear_at_clears (p ++ [n])).get]
    by_cases inner : p ++ [n] <+: loc
    · rw [if_pos inner, if_pos inner]
    · rw [if_neg inner, if_neg inner, if_neg (fun below => inner below.1)]
  · rw [run'] at run
    cases run

theorem remove_dir_all_ok_iff : (w.removeDirAll path).2 = .ok () ↔
    ∃ top, w.lookup false path = .ok top ∧ Removes w path top := by
  rcases remove_dir_all_cases w path with ⟨untouched, e, run⟩ | ⟨p, n, found, linked, run⟩ |
    ⟨top, found, dir, ⟨p, n, entry, whole, run⟩ | ⟨elsewhere, e, run⟩⟩
  · rw [run]
    exact iff_of_false (by simp) fun ⟨top, _, removes⟩ => untouched top removes
  · rw [run]
    exact iff_of_true rfl ⟨_, found, (removes_link found linked).mpr rfl⟩
  · rw [run]
    exact iff_of_true rfl ⟨top, found, (removes_dir found dir).mpr (.inr ⟨rfl, p, n, entry, whole⟩)⟩
  · rw [run]
    refine iff_of_false (by simp) ?_
    rintro ⟨top', found', removes⟩
    rw [found] at found'
    cases found'
    rcases (removes_dir found dir).mp removes with ⟨_, other, _⟩ | ⟨_, p, n, entry, whole⟩
    · exact other rfl
    · exact elsewhere p n entry whole

end Removals

section Renames
variable [DecidableEq N] {w w' : World N β} {source dest : Path N} {inside : List N → Prop}

structure Renames (w : World N β) (source dest : Path N) (s d : List N) : Prop where
  done : (w.rename source dest).2 = .ok ()
  apart : s ≠ d
  source : ∃ p n, w.entry source = .ok (p, some n) ∧ s = p ++ [n]
  dest : ∃ p n, w.entry dest = .ok (p, some n) ∧ d = p ++ [n]

theorem rename_touches : TouchesWithin inside w (w.rename source dest).1 ↔
    ∀ s d, Renames w source dest s d → inside s ∧ inside d := by
  have still (same : (w.rename source dest).1 = w) (no : ∀ s d, ¬ Renames w source dest s d) :
      TouchesWithin inside w (w.rename source dest).1 ↔
        ∀ s d, Renames w source dest s d → inside s ∧ inside d := by
    rw [same]
    exact iff_of_true (touches_refl w) fun s d renames => absurd renames (no s d)
  cases first : w.entry source with
  | error e =>
    refine still (by simp [rename, first]) fun s d renames => ?_
    obtain ⟨p, n, entry, _⟩ := renames.source
    rw [first] at entry
    cases entry
  | ok named₁ =>
    cases second : w.entry dest with
    | error e =>
      refine still (by simp [rename, first, second]) fun s d renames => ?_
      obtain ⟨p, n, entry, _⟩ := renames.dest
      rw [second] at entry
      cases entry
    | ok named₂ =>
      obtain ⟨p₁, last₁⟩ := named₁
      obtain ⟨p₂, last₂⟩ := named₂
      cases last₁ with
      | none =>
        refine still (by simp [rename, first, second]) fun s d renames => ?_
        obtain ⟨p, n, entry, _⟩ := renames.source
        rw [first] at entry
        cases entry
      | some n₁ =>
        cases last₂ with
        | none =>
          refine still (by simp [rename, first, second]) fun s d renames => ?_
          obtain ⟨p, n, entry, _⟩ := renames.dest
          rw [second] at entry
          cases entry
        | some n₂ =>
          have entries {s d : List N} (renames : Renames w source dest s d) :
              s = p₁ ++ [n₁] ∧ d = p₂ ++ [n₂] := by
            obtain ⟨p, n, entry, whole⟩ := renames.source
            obtain ⟨p', n', entry', whole'⟩ := renames.dest
            rw [first] at entry
            rw [second] at entry'
            cases entry
            cases entry'
            exact ⟨whole, whole'⟩
          have same : w.rename source dest =
              w.renameAt (source.slash || dest.slash) p₁ n₁ p₂ n₂ := by
            simp only [rename, first, second]
          cases run : w.renameAt (source.slash || dest.slash) p₁ n₁ p₂ n₂ with
          | mk w' outcome =>
            rw [run] at same
            rcases rename_at_cases run with ⟨unchanged, e, failed⟩ | ⟨node, found, _, ok, left⟩
            · refine still (by rw [same, unchanged]) fun s d renames => ?_
              have done := renames.done
              rw [same, failed] at done
              cases done
            · rcases left with ⟨alike, unmoved⟩ | ⟨_, fits, moved⟩
              · refine still (by rw [same, unmoved]) fun s d renames => ?_
                obtain ⟨whole, whole'⟩ := entries renames
                exact renames.apart (whole.trans (alike.trans whole'.symm))
              · have touched : (w.rename source dest).1.touched =
                    w.touched ++ [p₁ ++ [n₁], p₂ ++ [n₂]] := by
                  rw [same, moved]
                refine (touches_iff touched).trans ?_
                constructor
                · intro all s d renames
                  obtain ⟨whole, whole'⟩ := entries renames
                  subst whole whole'
                  exact ⟨all _ (by simp), all _ (by simp)⟩
                · intro all
                  have both := all (p₁ ++ [n₁]) (p₂ ++ [n₂])
                    ⟨by rw [same, ok], fun alike => fits.outside (alike ▸ List.prefix_rfl),
                      ⟨p₁, n₁, first, rfl⟩, ⟨p₂, n₂, second, rfl⟩⟩
                  simpa using both

theorem same_childless (same : SameFiles w w') (top : List N) :
    w'.tree.childless top = w.tree.childless top := by
  rw [Bool.eq_iff_iff, childless_iff, childless_iff, same.get]

omit [DecidableEq N] in
theorem same_movable (same : SameFiles w w') (s p : List N) (n : N) :
    w'.tree.Movable s p n ↔ w.tree.Movable s p n := by
  have dirs := same_is_dir same
  constructor
  · exact fun fits => ⟨fits.source, fits.outside, fits.above, dirs ▸ fits.parent, fits.legal⟩
  · exact fun fits => ⟨fits.source, fits.outside, fits.above, dirs ▸ fits.parent, fits.legal⟩

theorem same_rename (same : SameFiles w w') (source dest : Path N) :
    (w'.rename source dest).2 = (w.rename source dest).2 := by
  have at_entries (slash : Bool) (p₁ : List N) (n₁ : N) (p₂ : List N) (n₂ : N) :
      (w'.renameAt slash p₁ n₁ p₂ n₂).2 = (w.renameAt slash p₁ n₁ p₂ n₂).2 := by
    unfold renameAt
    simp only [same.get, same_is_dir same, same_childless same]
    cases w.tree.get (p₁ ++ [n₁]) with
    | none => rfl
    | some node =>
      simp only [apply_ite Prod.snd]
      by_cases fits : w.tree.Movable (p₁ ++ [n₁]) p₂ n₂
      · rw [dif_pos fits, dif_pos ((same_movable same _ _ _).mpr fits)]
      · rw [dif_neg fits, dif_neg (fun other => fits ((same_movable same _ _ _).mp other))]
  unfold rename
  rw [same_entry same, same_entry same]
  split
  · rfl
  · rfl
  · exact at_entries _ _ _ _ _
  · rfl

theorem same_renames (same : SameFiles w w') {s d : List N} :
    Renames w' source dest s d ↔ Renames w source dest s d := by
  constructor
  · rintro ⟨done, apart, first, second⟩
    rw [same_rename same] at done
    rw [same_entry same] at first second
    exact ⟨done, apart, first, second⟩
  · rintro ⟨done, apart, first, second⟩
    rw [← same_rename same] at done
    rw [← same_entry same] at first second
    exact ⟨done, apart, first, second⟩

end Renames
end CallFootprints
