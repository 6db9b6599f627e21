import Vestibule.PlainLookups

/-!
What each of the calls does once its lookups are known; and, where there are no symbolic links, when
each of them succeeds and what it leaves.
-/
namespace PlainCalls
open LexicalMotion FileTree FileCalls World PlainLookups
variable {N β : Type} [FileName N]

structure Makeable (w : World N β) (path : Path N) (p : List N) (n : N) : Prop where
  enters : Enters w path p n
  missing : w.tree.get (p ++ [n]) = none
  legal : FileName.legal n = true

structure Opens (w : World N β) (path : Path N) (p : List N) (n : N) : Prop where
  plain : path.slash = false
  enters : Enters w path p n
  other : w.tree.isDir (p ++ [n]) = false
  legal : FileName.legal n = true

theorem enters_place {w : World N β} {path : Path N} {p : List N} {n : N}
    (enters : Enters w path p n) : p ++ [n] = placeOf w path := leads_place (enters_leads enters)

theorem enters_not_blank {w : World N β} {path : Path N} {p : List N} {n : N}
    (enters : Enters w path p n) : isBlank path = false := by
  have some_left : path.steps ≠ [] := by
    intro nothing
    have last := enters.1
    rw [nothing] at last
    cases last
  simp [isBlank, some_left]

theorem drop_last_is_dir {t : Tree N β} {loc : List N} (dir : t.isDir loc = true) :
    t.isDir loc.dropLast = true := by
  induction loc using List.reverseRecOn with
  | nil => exact dir
  | append_singleton front n =>
    rw [List.dropLast_concat]
    exact is_dir_iff.mpr (t.closed _ _ _ (is_dir_iff.mp dir))

theorem leads_other {w : World N β} {path : Path N} {loc : List N} (leads : Leads w path loc)
    (some_left : isBlank path = false) (other : w.tree.isDir loc = false) :
    ∃ p n, loc = p ++ [n] ∧ Enters w path p n := by
  cases last : path.steps.getLast? with
  | none =>
    have bare := List.getLast?_eq_none_iff.mp last
    have rooted : path.absolute = true := by simpa [isBlank, bare] using some_left
    have top : loc = [] := by
      unfold Leads fullSteps at leads
      rw [if_pos rooted, bare] at leads
      exact (Except.ok.inj leads).symm
    rw [top, is_dir_iff.mpr w.tree.root] at other
    cases other
  | some s =>
    have run := leads
    unfold Leads at run
    rw [full_steps_last last] at run
    obtain ⟨mid, _, step⟩ := tread_append_ok.mp run
    obtain ⟨dir, same⟩ := tread_cons_ok.mp step
    have place := Except.ok.inj same
    cases s with
    | here =>
      rw [← place] at other
      exact absurd (dir.symm.trans other) (by simp)
    | up =>
      rw [← place] at other
      exact absurd ((drop_last_is_dir dir).symm.trans other) (by simp)
    | name n =>
      obtain ⟨p, whole, enters⟩ := leads_enters leads last
      exact ⟨p, n, whole, enters⟩

variable [DecidableEq N]

section Effects

structure Puts (w w' : World N β) (place : List N) (node : Node N β) : Prop where
  cwd : w'.cwd = w.cwd
  get : ∀ loc, w'.tree.get loc = if loc = place then some node else w.tree.get loc

structure Clears (w w' : World N β) (top : List N) : Prop where
  cwd : w'.cwd = w.cwd
  get : ∀ loc, w'.tree.get loc = if top <+: loc ∧ top ≠ loc then none else w.tree.get loc

structure Drops (w w' : World N β) (top : List N) : Prop where
  cwd : w'.cwd = w.cwd
  get : ∀ loc, w'.tree.get loc = if top <+: loc then none else w.tree.get loc

structure Moves (w w' : World N β) (s d : List N) : Prop where
  cwd : w'.cwd = w.cwd
  get : ∀ loc, w'.tree.get loc = if d <+: loc then w.tree.get (s ++ loc.drop d.length)
    else if s <+: loc then none else w.tree.get loc

end Effects

section Calls
variable {w w' : World N β} {path : Path N}

structure Creates (w : World N β) (path : Path N) (p : List N) (n : N) : Prop where
  entry : w.entry path = .ok (p, some n)
  missing : w.tree.get (p ++ [n]) = none
  legal : FileName.legal n = true

/-- The path can be opened to write; what is written is the entry `n` of `p`, links followed. -/
structure OpensTo (w : World N β) (path : Path N) (p : List N) (n : N) : Prop where
  plain : path.slash = false
  place : w.lookup true path = .ok (p ++ [n])
  fits : w.tree.Writable p n

theorem put_at_done {p : List N} {n : N} (node : Node N β) (fits : w.tree.Writable p n) :
    (w.putAt p n node).2 = .ok () ∧ Puts w (w.putAt p n node).1 (p ++ [n]) node ∧
      (w.putAt p n node).1.touched = w.touched ++ [p ++ [n]] := by
  unfold putAt
  rw [dif_pos fits]
  exact ⟨rfl, ⟨rfl, fun loc => rfl⟩, rfl⟩

omit [DecidableEq N] in
theorem creates_dir {p : List N} {n : N} (creates : Creates w path p n) : w.tree.isDir p = true :=
  (entry_walk_iff.mp creates.entry).2.2

theorem create_dir_done {p : List N} {n : N} (creates : Creates w path p n) :
    (w.createDir path).2 = .ok () ∧ Puts w (w.createDir path).1 (p ++ [n]) .dir ∧
      (w.createDir path).1.touched = w.touched ++ [p ++ [n]] := by
  unfold createDir
  rw [creates.entry]
  simp only [creates.missing, Option.isSome_none, Bool.false_eq_true, ↓reduceIte]
  exact put_at_done .dir ⟨creates_dir creates, creates.legal, missing_not_dir creates.missing⟩

theorem create_dir_refused (no : ∀ p n, ¬ Creates w path p n) :
    ∃ e, w.createDir path = (w, .error e) := by
  unfold createDir
  split
  · exact ⟨_, rfl⟩
  · exact ⟨_, rfl⟩
  · rename_i p n found
    split
    · exact ⟨_, rfl⟩
    · rename_i missing
      unfold putAt
      rw [dif_neg _]
      · exact ⟨_, rfl⟩
      · intro fits
        exact no p n ⟨found, by simpa using missing, fits.2.1⟩

theorem open_truncated_done {p : List N} {n : N} (opened : OpensTo w path p n) :
    (w.openTruncated path).2 = .ok (p, n) ∧
      Puts w (w.openTruncated path).1 (p ++ [n]) (.file []) ∧
      (w.openTruncated path).1.touched = w.touched ++ [p ++ [n]] := by
  have written := put_at_done (.file []) opened.fits
  unfold openTruncated
  rw [opened.plain, opened.place]
  simp only [Bool.false_eq_true, ↓reduceIte, opened.fits.2.2, List.getLast?_concat,
    List.dropLast_concat]
  generalize w.putAt p n (.file []) = result at written
  obtain ⟨w', outcome⟩ := result
  obtain ⟨ok, puts⟩ := written
  simp only at ok
  rw [ok]
  exact ⟨rfl, puts⟩

theorem open_truncated_refused (no : ∀ p n, ¬ OpensTo w path p n) :
    ∃ e, w.openTruncated path = (w, .error e) := by
  unfold openTruncated
  split
  · exact ⟨_, rfl⟩
  · rename_i plain
    split
    · exact ⟨_, rfl⟩
    · rename_i loc found
      split
      · exact ⟨_, rfl⟩
      · split
        · exact ⟨_, rfl⟩
        · rename_i n last
          obtain ⟨p, whole⟩ := List.getLast?_eq_some_iff.mp last
          subst whole
          simp only [List.dropLast_concat]
          unfold putAt
          rw [dif_neg _]
          · exact ⟨_, rfl⟩
          · intro fits
            exact no p n ⟨Bool.not_eq_true _ ▸ plain, found, fits⟩

theorem opened_fits {p : List N} {n : N} {w' : World N β} {content : List β} (fits : w.tree.Writable p n)
    (puts : Puts w w' (p ++ [n]) (.file content)) : w'.tree.Writable p n := by
  refine ⟨?_, fits.2.1, ?_⟩
  · rw [is_dir_iff, puts.get, if_neg (concat_ne_parent p n)]
    exact is_dir_iff.mp fits.1
  · simp [Tree.isDir, puts.get]

theorem open_put_done {p : List N} {n : N} (node : Node N β) (opened : OpensTo w path p n) :
    ∃ w₁, w.openTruncated path = (w₁, .ok (p, n)) ∧ (w₁.putAt p n node).2 = .ok () ∧
      Puts w (w₁.putAt p n node).1 (p ++ [n]) node ∧
      (w₁.putAt p n node).1.touched = w.touched ++ [p ++ [n], p ++ [n]] := by
  have written := open_truncated_done opened
  generalize w.openTruncated path = result at written
  obtain ⟨w₁, outcome⟩ := result
  obtain ⟨ok, puts, touched⟩ := written
  simp only at ok puts touched
  subst ok
  obtain ⟨done, again, touched'⟩ := put_at_done node (opened_fits opened.fits puts)
  refine ⟨w₁, rfl, done, ⟨again.cwd.trans puts.cwd, fun loc => ?_⟩, ?_⟩
  · rw [again.get, puts.get]
    split <;> rfl
  · rw [touched', touched, List.append_assoc]
    rfl

theorem copy_file_done {source dest : Path N} {s p : List N} {n : N} {content : List β}
    (found : w.lookup true source = .ok s) (file : w.tree.get s = some (.file content))
    (opened : OpensTo w dest p n) :
    (w.copyFile source dest).2 = .ok () ∧
      Puts w (w.copyFile source dest).1 (p ++ [n]) (.file (if s = p ++ [n] then [] else content)) ∧
      (w.copyFile source dest).1.touched = w.touched ++ [p ++ [n], s, p ++ [n]] := by
  have written := open_truncated_done opened
  have node : w.metadata source = .ok (.file content) := stat_ok_iff.mpr ⟨s, found, file⟩
  unfold copyFile
  rw [found, node]
  simp only
  generalize w.openTruncated dest = result at written
  obtain ⟨w₁, outcome⟩ := result
  obtain ⟨ok, puts, touched⟩ := written
  simp only at ok puts touched
  subst ok
  have now : w₁.tree.get s = some (.file (if s = p ++ [n] then [] else content)) := by
    rw [puts.get]
    split
    · rfl
    · exact file
  simp only [now]
  have fits := opened_fits opened.fits puts
  obtain ⟨done, again, touched'⟩ := @put_at_done N β _ _ { w₁ with touched := w₁.touched ++ [s] } p n
    (.file (if s = p ++ [n] then [] else content)) fits
  refine ⟨done, ⟨again.cwd.trans puts.cwd, fun loc => ?_⟩, ?_⟩
  · rw [again.get]
    split
    · rfl
    · rename_i elsewhere
      exact (puts.get loc).trans (if_neg elsewhere)
  · rw [touched', touched]
    simp

theorem copy_file_refused (source dest : Path N)
    (no : ∀ content p n, w.metadata source = .ok (.file content) → ¬ OpensTo w dest p n) :
    ∃ e, w.copyFile source dest = (w, .error e) := by
  unfold copyFile
  split
  · exact ⟨_, rfl⟩
  · exact ⟨_, rfl⟩
  · rename_i content _ node
    obtain ⟨e, failed⟩ := open_truncated_refused fun p n => no content p n node
    rw [failed]
    exact ⟨e, rfl⟩
  · exact ⟨_, rfl⟩

theorem drop_at_drops (p : List N) (n : N) : Drops w (w.dropAt p n) (p ++ [n]) :=
  ⟨rfl, fun _ => rfl⟩

theorem remove_file_cases (run : w.removeFile path = (w', .ok ())) : ∃ p n node,
    w.entry path = .ok (p, some n) ∧ path.slash = false ∧ w.tree.get (p ++ [n]) = some node ∧
      isDirNode node = false ∧ w' = w.dropAt p n := by
  unfold removeFile at run
  split at run
  · cases run
  · cases run
  · rename_i p n found
    split at run
    · cases run
    · cases run
    · rename_i node other there
      split at run
      · cases run
      · rename_i plain
        cases run
        refine ⟨p, n, node, found, Bool.not_eq_true _ ▸ plain, there, ?_, rfl⟩
        cases node with
        | dir => exact absurd rfl other
        | file content => rfl
        | link target => rfl

theorem remove_file_refused {e : FsError} (run : w.removeFile path = (w', .error e)) : w' = w := by
  unfold removeFile at run
  split at run
  · cases run; rfl
  · cases run; rfl
  · split at run
    · cases run; rfl
    · cases run; rfl
    · split at run
      · cases run; rfl
      · cases run

theorem remove_file_done {p : List N} {n : N} {node : Node N β} (found : w.entry path = .ok (p, some n))
    (plain : path.slash = false) (there : w.tree.get (p ++ [n]) = some node)
    (other : isDirNode node = false) : w.removeFile path = (w.dropAt p n, .ok ()) := by
  unfold removeFile
  rw [found]
  simp only [there, plain]
  cases node with
  | dir => cases other
  | file content => rfl
  | link target => rfl

end Calls

section Writing
variable {w : World N β} {path : Path N}

omit [DecidableEq N] in
theorem creates_iff (free : w.tree.LinkFree) {p : List N} {n : N} :
    Creates w path p n ↔ Makeable w path p n := by
  constructor
  · exact fun creates => ⟨(entry_some_iff free).mp creates.entry, creates.missing, creates.legal⟩
  · exact fun makes => ⟨(entry_some_iff free).mpr makes.enters, makes.missing, makes.legal⟩

omit [DecidableEq N] in
theorem opens_to_iff (free : w.tree.LinkFree) {p : List N} {n : N} :
    OpensTo w path p n ↔ Opens w path p n := by
  constructor
  · intro opened
    obtain ⟨some_left, leads, _⟩ := (lookup_ok_iff free).mp opened.place
    obtain ⟨p', n', whole, enters⟩ := leads_other leads some_left opened.fits.2.2
    obtain ⟨same, name⟩ := List.append_singleton_inj.mp whole
    subst same name
    exact ⟨opened.plain, enters, opened.fits.2.2, opened.fits.2.1⟩
  · intro opens
    refine ⟨opens.plain, (lookup_ok_iff free).mpr ?_, opens.enters.2.2, opens.legal, opens.other⟩
    refine ⟨enters_not_blank opens.enters, enters_leads opens.enters, ?_⟩
    intro slash
    rw [opens.plain] at slash
    cases slash

omit [DecidableEq N] in
theorem opens_lookup (free : w.tree.LinkFree) {p : List N} {n : N} (opens : Opens w path p n) :
    w.lookup true path = .ok (p ++ [n]) := ((opens_to_iff free).mpr opens).place

theorem create_dir_makes (free : w.tree.LinkFree) {p : List N} {n : N}
    (makes : Makeable w path p n) :
    (w.createDir path).2 = .ok () ∧ Puts w (w.createDir path).1 (p ++ [n]) .dir := by
  obtain ⟨done, puts, _⟩ := create_dir_done ((creates_iff free).mpr makes)
  exact ⟨done, puts⟩

theorem create_dir_fails (free : w.tree.LinkFree) (no : ∀ p n, ¬ Makeable w path p n) :
    ∃ e, w.createDir path = (w, .error e) :=
  create_dir_refused fun p n creates => no p n ((creates_iff free).mp creates)

theorem copy_file_copies (free : w.tree.LinkFree) {source dest : Path N} {s p : List N} {n : N}
    {content : List β} (found : w.lookup true source = .ok s)
    (file : w.tree.get s = some (.file content)) (opens : Opens w dest p n) :
    (w.copyFile source dest).2 = .ok () ∧ Puts w (w.copyFile source dest).1 (p ++ [n])
      (.file (if s = p ++ [n] then [] else content)) := by
  obtain ⟨done, puts, _⟩ := copy_file_done found file ((opens_to_iff free).mpr opens)
  exact ⟨done, puts⟩

theorem copy_file_fails (free : w.tree.LinkFree) (source dest : Path N)
    (no : ∀ content p n, w.metadata source = .ok (.file content) → ¬ Opens w dest p n) :
    ∃ e, w.copyFile source dest = (w, .error e) :=
  copy_file_refused source dest fun content p n node opened =>
    no content p n node ((opens_to_iff free).mp opened)

end Writing

section Removing
variable {w : World N β} {path : Path N}

theorem clear_at_clears (top : List N) : Clears w (w.clearAt top) top := ⟨rfl, fun _ => rfl⟩

theorem clears_free {w' : World N β} {top : List N} (clears : Clears w w' top)
    (free : w.tree.LinkFree) : w'.tree.LinkFree := by
  intro loc target found
  rw [clears.get] at found
  split at found
  · cases found
  · exact free loc target found

theorem drops_free {w' : World N β} {top : List N} (drops : Drops w w' top)
    (free : w.tree.LinkFree) : w'.tree.LinkFree := by
  intro loc target found
  rw [drops.get] at found
  split at found
  · cases found
  · exact free loc target found

/-- Removing the directory itself goes by its path, in the tree that is already emptied. -/
theorem remove_dir_all_drops (free : w.tree.LinkFree) {top p : List N} {n : N}
    (found : w.lookup false path = .ok top) (dir : w.tree.isDir top = true)
    (enters : Enters (w.clearAt top) path p n) :
    (w.removeDirAll path).2 = .ok () ∧ Drops w (w.removeDirAll path).1 top := by
  have cleared := clear_at_clears (w := w) top
  have whole : p ++ [n] = top := by
    rw [enters_place enters, place_same _ cleared.cwd]
    exact (leads_place ((lookup_ok_iff free).mp found).2.1).symm
  have here : (w.clearAt top).tree.get (p ++ [n]) = some .dir := by
    rw [cleared.get, whole, if_neg (fun below => below.2 rfl)]
    exact is_dir_iff.mp dir
  have childless : (w.clearAt top).tree.childless (p ++ [n]) = true := by
    apply childless_iff.mpr
    intro rest more
    rw [whole, cleared.get, if_pos]
    exact ⟨List.prefix_append _ _, by simpa using more⟩
  unfold removeDirAll
  rw [found]
  simp only [is_dir_iff.mp dir]
  unfold removeDir
  rw [(entry_some_iff (clears_free cleared free)).mpr enters]
  simp only [here, childless, ↓reduceIte]
  refine ⟨trivial, rfl, ?_⟩
  intro loc
  subst whole
  show (if p ++ [n] <+: loc then none else (w.clearAt (p ++ [n])).tree.get loc) = _
  rw [cleared.get]
  by_cases inside : p ++ [n] <+: loc
  · rw [if_pos inside, if_pos inside]
  · rw [if_neg inside, if_neg inside, if_neg (fun below => inside below.1)]

theorem remove_dir_all_clears (free : w.tree.LinkFree) {top : List N}
    (found : w.lookup false path = .ok top) (dir : w.tree.isDir top = true)
    (no : ∀ p n, ¬ Enters (w.clearAt top) path p n) :
    (∃ e, (w.removeDirAll path).2 = .error e) ∧ Clears w (w.removeDirAll path).1 top := by
  have cleared := clear_at_clears (w := w) top
  unfold removeDirAll
  rw [found]
  simp only [is_dir_iff.mp dir]
  unfold removeDir
  split
  · exact ⟨⟨_, rfl⟩, cleared⟩
  · exact ⟨⟨_, rfl⟩, cleared⟩
  · rename_i p n entry
    exact absurd ((entry_some_iff (clears_free cleared free)).mp entry) (no p n)

theorem without_drops {top : List N} (inside : top ≠ []) : Drops w (w.without top) top := by
  unfold World.without
  rw [dif_pos inside]
  exact ⟨rfl, fun _ => rfl⟩

end Removing

section Renaming
variable {w : World N β} {source dest : Path N}

theorem rename_at_cases {w' : World N β} {slash : Bool} {p₁ p₂ : List N} {n₁ n₂ : N}
    {outcome : Except FsError Unit} (run : w.renameAt slash p₁ n₁ p₂ n₂ = (w', outcome)) :
    (w' = w ∧ ∃ e, outcome = .error e) ∨
      ∃ node, w.tree.get (p₁ ++ [n₁]) = some node ∧ (slash = true → isDirNode node = true) ∧
        outcome = .ok () ∧
        (p₁ ++ [n₁] = p₂ ++ [n₂] ∧ w' = w ∨
          (w.tree.isDir (p₂ ++ [n₂]) = true → isDirNode node = true) ∧
            ∃ fits : w.tree.Movable (p₁ ++ [n₁]) p₂ n₂,
              w' = { w with
                tree := w.tree.move (p₁ ++ [n₁]) p₂ n₂ fits
                touched := w.touched ++ [p₁ ++ [n₁], p₂ ++ [n₂]] }) := by
  have refused {e : FsError} (left : (w, Except.error e) = (w', outcome)) :
      w' = w ∧ ∃ e, outcome = .error e := by
    cases left
    exact ⟨rfl, e, rfl⟩
  unfold renameAt at run
  dsimp only at run
  split at run
  · exact .inl (refused run)
  · rename_i node found
    split at run
    · exact .inl (refused run)
    · rename_i plain
      have slashed : slash = true → isDirNode node = true := by
        intro ends
        simpa [ends] using plain
      split at run
      · rename_i same
        cases run
        exact .inr ⟨node, found, slashed, rfl, .inl ⟨same, rfl⟩⟩
      · split at run
        · exact .inl (refused run)
        · split at run
          · exact .inl (refused run)
          · split at run
            · exact .inl (refused run)
            · rename_i kinds
              split at run
              · exact .inl (refused run)
              · split at run
                · exact .inl (refused run)
                · split at run
                  · rename_i fits
                    cases run
                    refine .inr ⟨node, found, slashed, rfl, .inr ⟨?_, fits, rfl⟩⟩
                    intro dir
                    simpa [dir] using kinds
                  · exact .inl (refused run)

theorem rename_cases (free : w.tree.LinkFree) (source dest : Path N) :
    (∃ e, w.rename source dest = (w, .error e)) ∨
      ∃ p₁ n₁ p₂ n₂ node, Enters w source p₁ n₁ ∧ Enters w dest p₂ n₂ ∧
        w.tree.get (p₁ ++ [n₁]) = some node ∧
        ((source.slash || dest.slash) = true → isDirNode node = true) ∧
        (w.rename source dest).2 = .ok () ∧
        (p₁ ++ [n₁] = p₂ ++ [n₂] ∧ (w.rename source dest).1 = w ∨
          ¬ p₁ ++ [n₁] <+: p₂ ++ [n₂] ∧ ¬ p₂ ++ [n₂] <+: p₁ ++ [n₁] ∧
            (w.tree.isDir (p₂ ++ [n₂]) = true → isDirNode node = true) ∧
            Moves w (w.rename source dest).1 (p₁ ++ [n₁]) (p₂ ++ [n₂])) := by
  unfold rename
  split
  · exact .inl ⟨_, rfl⟩
  · exact .inl ⟨_, rfl⟩
  · rename_i p₁ n₁ p₂ n₂ first second
    have enters₁ := (entry_some_iff free).mp first
    have enters₂ := (entry_some_iff free).mp second
    cases run : w.renameAt (source.slash || dest.slash) p₁ n₁ p₂ n₂ with
    | mk w' outcome =>
      rcases rename_at_cases run with ⟨same, e, failed⟩ | ⟨node, found, slashed, ok, left⟩
      · subst same failed
        exact .inl ⟨e, rfl⟩
      · subst ok
        refine .inr ⟨p₁, n₁, p₂, n₂, node, enters₁, enters₂, found, slashed, rfl, ?_⟩
        rcases left with ⟨same, unmoved⟩ | ⟨kinds, fits, moved⟩
        · exact .inl ⟨same, unmoved⟩
        · subst moved
          exact .inr ⟨fits.outside, fits.above, kinds, rfl, fun loc => rfl⟩
  · exact .inl ⟨_, rfl⟩

theorem rename_same (free : w.tree.LinkFree) {p : List N} {n : N} {node : Node N β}
    (first : Enters w source p n) (second : Enters w dest p n)
    (found : w.tree.get (p ++ [n]) = some node)
    (plain : (source.slash || dest.slash) = false) : w.rename source dest = (w, .ok ()) := by
  unfold rename
  rw [(entry_some_iff free).mpr first, (entry_some_iff free).mpr second]
  simp [renameAt, found, plain]

theorem rename_moves (free : w.tree.LinkFree) {p₁ p₂ : List N} {n₁ n₂ : N}
    (first : Enters w source p₁ n₁) (second : Enters w dest p₂ n₂)
    (found : w.tree.get (p₁ ++ [n₁]) = some .dir) (missing : w.tree.get (p₂ ++ [n₂]) = none)
    (outside : ¬ p₁ ++ [n₁] <+: p₂ ++ [n₂]) (legal : FileName.legal n₂ = true) :
    (w.rename source dest).2 = .ok () ∧
      Moves w (w.rename source dest).1 (p₁ ++ [n₁]) (p₂ ++ [n₂]) := by
  have above : ¬ p₂ ++ [n₂] <+: p₁ ++ [n₁] := by
    intro inside
    obtain ⟨rest, whole⟩ := inside
    have gone := below_missing w.tree missing rest
    rw [whole, found] at gone
    cases gone
  have different : p₁ ++ [n₁] ≠ p₂ ++ [n₂] := fun same => outside (same ▸ List.prefix_rfl)
  have aside : ¬ p₁ ++ [n₁] <+: p₂ := fun inside => outside (inside.trans (List.prefix_append _ _))
  have across : ¬ p₂ ++ [n₂] <+: p₁ := fun inside => above (inside.trans (List.prefix_append _ _))
  have other : w.tree.isDir (p₂ ++ [n₂]) = false := missing_not_dir missing
  have childless : w.tree.childless (p₂ ++ [n₂]) = true :=
    childless_iff.mpr fun rest _ => below_missing w.tree missing rest
  have fits : w.tree.Movable (p₁ ++ [n₁]) p₂ n₂ :=
    ⟨by simp, outside, above, second.2.2, legal⟩
  unfold rename
  rw [(entry_some_iff free).mpr first, (entry_some_iff free).mpr second]
  unfold renameAt
  simp only [found, isDirNode, Bool.not_true, Bool.and_false, Bool.false_eq_true, ↓reduceIte,
    different, aside, across, other, Bool.false_and, missing, Option.isSome_none, childless]
  rw [dif_pos fits]
  exact ⟨rfl, rfl, fun loc => rfl⟩

end Renaming
end PlainCalls
