import Vestibule.CopyTrees

/-!
Copies of a directory that do not get anywhere. Where the destination cannot become a directory,
nothing is written, and the answer is an error as soon as there is a file to copy. A copy into the
source itself that does not meet the destination under its own spelling never succeeds.
-/
namespace VestibuleCopyMove
open VestibuleRust LexicalMotion FileTree FileCalls World VestibulePaths PlainLookups PlainCalls

section Spelling
variable {t : DiskTree}

theorem tread_without_here {base loc : List Name} {steps : List (Step Name)}
    (dir : t.isDir loc = true) :
    tread t base (steps.filter (· ≠ .here)) = .ok loc ↔ tread t base steps = .ok loc := by
  induction steps generalizing base with
  | nil => rfl
  | cons s rest ih =>
    by_cases inert : s = .here
    · subst inert
      rw [List.filter_cons_of_neg (by simp), tread_cons_ok, ih]
      constructor
      · intro run
        refine ⟨?_, run⟩
        cases rest with
        | nil =>
          cases run
          exact dir
        | cons s' rest => exact (tread_cons_ok.mp run).1
      · exact fun both => both.2
    · rw [List.filter_cons_of_pos (by simpa using inert), tread_cons_ok, tread_cons_ok, ih]

theorem tread_components {base loc : List Name} {path : DiskPath} (dir : t.isDir loc = true) :
    tread t base (components path) = .ok loc ↔ tread t base path.steps = .ok loc := by
  unfold components
  split
  · rename_i rest _ steps
    rw [steps, tread_cons_ok, tread_cons_ok, tread_without_here dir]
  · exact tread_without_here dir

theorem same_path_leads {w : Disk} {a b : DiskPath} {loc : List Name}
    (same : samePath a b = true) (leads : Leads w a loc) (dir : w.tree.isDir loc = true) :
    Leads w b loc := by
  simp only [samePath, Bool.and_eq_true, decide_eq_true_eq] at same
  obtain ⟨absolute, steps⟩ := same
  have treads : ∀ base, tread w.tree base a.steps = .ok loc → tread w.tree base b.steps = .ok loc := by
    intro base run
    rw [← tread_components dir, ← steps]
    exact (tread_components dir).mpr run
  unfold Leads fullSteps at leads ⊢
  rw [← absolute]
  split at leads
  · rename_i rooted
    rw [if_pos rooted]
    exact treads [] leads
  · rename_i relative
    rw [if_neg relative]
    obtain ⟨mid, front, back⟩ := tread_append_ok.mp leads
    exact tread_append_ok.mpr ⟨mid, front, treads mid back⟩

end Spelling

section Shut
variable {listing : DiskListing} {w w' : Disk} {source topdest dest : DiskPath} {s : List Name}

/-- Every file at or below a place is the destination itself. -/
def NothingElse (w : Disk) (s : List Name) (source topdest : DiskPath) : Prop :=
  ∀ rest content, w.tree.get (s ++ rest) = some (.file content) →
    samePath (descend source rest) topdest = true

theorem nothing_else_dir (dir : w.tree.isDir s = true) :
    NothingElse w s source topdest ↔
      ∀ name, NothingElse w (s ++ [name]) (child source name) topdest := by
  constructor
  · intro whole name rest content file
    exact whole (name :: rest) content (by rwa [List.append_assoc] at file)
  · intro parts rest content file
    cases rest with
    | nil =>
      rw [List.append_nil, is_dir_iff.mp dir] at file
      cases file
    | cons name rest => exact parts name rest content (by rwa [List.append_assoc])

theorem shut_loop {fuel inner : Nat} {result : Except FsError Unit}
    (below : ∀ {name : Name} {node : Node Name UInt8} {w' : Disk} {r : Except FsError Unit},
      w.tree.get (s ++ [name]) = some node →
      doCopy listing inner w (child source name) topdest (child dest name) (isDirNode node) .infinity =
        some (w', r) →
      w' = w ∧ (r = .ok () ↔ NothingElse w (s ++ [name]) (child source name) topdest))
    (run : copyEntries listing w.tree s
      (fun w name isDir => doCopy listing inner w (child source name) topdest (child dest name)
        isDir .infinity) fuel w [] (.ok ()) = some (w', result)) :
    w' = w ∧ (result = .ok () ↔
      ∀ name, NothingElse w (s ++ [name]) (child source name) topdest) := by
  obtain ⟨seen, retval, ⟨still, sofar⟩, finish⟩ := copy_entries_rule
    (P := fun now seen retval => now = w ∧ (retval = .ok () ↔
      ∀ name ∈ seen, NothingElse w (s ++ [name]) (child source name) topdest)) (by
      intro now seen retval name node next r sofar listed found one
      obtain ⟨still, sofar⟩ := sofar
      subst still
      obtain ⟨unchanged, fine⟩ := below found one
      refine ⟨unchanged, ?_⟩
      simp only [List.mem_append, List.mem_singleton, or_imp, forall_and, forall_eq]
      rw [← sofar, ← fine]
      cases r with
      | ok done => simp [keepError]
      | error e => simp [keepError])
    fuel (by simp) run
  subst still
  refine ⟨rfl, ?_⟩
  rcases finish with ⟨done, same⟩ | ⟨name, e, listed, gone, _⟩
  · rw [same, sofar]
    constructor
    · intro parts name
      by_cases listed : name ∈ seen
      · exact parts name listed
      · intro rest content file
        by_cases missing : w'.tree.get (s ++ [name]) = none
        · rw [below_missing w'.tree missing] at file
          cases file
        · exact absurd (listing.complete _ _ _ _ name done missing missing) listed
    · exact fun parts name _ => parts name
  · rcases listing.sound _ _ _ _ _ listed with here | here
    · exact absurd gone here
    · exact absurd gone here

theorem blocked_answer (fuel : Nat) {destIsDir : Bool} {node : Node Name UInt8}
    {result : Except FsError Unit} (free : w.tree.LinkFree) (blocked : ∀ loc, ¬ Leads w dest loc)
    (found : w.lookup true source = .ok s) (here : w.tree.get s = some node)
    (entered : ∀ rest, w.tree.isDir (s ++ rest) = true →
      samePath (descend source rest) topdest = false)
    (run : doCopy listing fuel w source topdest dest destIsDir .infinity = some (w', result)) :
    w' = w ∧ (result = .ok () ↔ NothingElse w s source topdest) := by
  refine ⟨do_copy_blocked free blocked run, ?_⟩
  induction fuel generalizing w' source dest s node destIsDir result with
  | zero => cases run
  | succ fuel ih =>
    have same : made w dest destIsDir = w :=
      made_unchanged free fun p n makes => blocked _ (enters_leads makes.enters)
    have closed : ∀ loc, Leads w dest loc → w.tree.isDir loc = false :=
      fun loc leads => absurd leads (blocked loc)
    cases do_copy_outcome free run with
    | skipped alike =>
      refine ⟨fun _ => ?_, fun _ => rfl⟩
      intro rest content file
      cases node with
      | link target => exact absurd here (free s target)
      | dir =>
        have other := entered [] (by rw [List.append_nil]; exact is_dir_iff.mpr here)
        change samePath source topdest = false at other
        rw [alike] at other
        cases other
      | file bytes =>
        by_cases bare : rest = []
        · subst bare
          exact alike
        · rw [below_file w.tree bare here (by simp)] at file
          cases file
    | missing e _ gone =>
      have there : w.metadata source = .ok node := stat_ok_iff.mpr ⟨s, found, here⟩
      rw [there] at gone
      cases gone
    | shallow _ _ _ _ zero => cases zero
    | file s' p name content w' r different found' whole file copied =>
      rw [found] at found'
      cases found'
      rw [same] at copied
      obtain ⟨e, failed⟩ := copy_blocked free source blocked destIsDir name
      rw [failed] at copied
      cases copied
      constructor
      · intro fine
        cases fine
      · intro alone
        have alike := alone [] content (by rwa [List.append_nil])
        change samePath source topdest = true at alike
        rw [different] at alike
        cases alike
    | deep s' w' r _ found' dir _ loop =>
      rw [found] at found'
      cases found'
      rw [same] at loop
      rw [nothing_else_dir dir]
      apply (shut_loop _ loop).2
      intro name node w' r there one
      refine ⟨do_copy_blocked free (child_blocked closed) one, ?_⟩
      apply ih (child_blocked closed) (child_lookup free found dir) there _ one
      intro rest inside
      rw [List.append_assoc] at inside
      exact entered (name :: rest) inside

/-- A directory copied to where no directory can be made: nothing is written, and it succeeds only
    when there is nothing else to copy. -/
theorem shut_answer (fuel : Nat) {destIsDir : Bool} {result : Except FsError Unit}
    (free : w.tree.LinkFree) (found : w.lookup true source = .ok s) (dir : w.tree.isDir s = true)
    (entered : ∀ rest, w.tree.isDir (s ++ rest) = true →
      samePath (descend source rest) topdest = false)
    (closed : ∀ loc, Leads w dest loc → w.tree.isDir loc = false)
    (unmade : made w dest destIsDir = w)
    (run : doCopy listing fuel w source topdest dest destIsDir .infinity = some (w', result)) :
    w' = w ∧ (result = .ok () ↔ NothingElse w s source topdest) := by
  cases fuel with
  | zero => cases run
  | succ fuel =>
    have different : samePath source topdest = false := entered [] (by rwa [List.append_nil])
    rw [do_copy_dir free different found dir, if_neg (by decide), unmade] at run
    rw [nothing_else_dir dir]
    apply shut_loop _ run
    intro name node w' r there one
    apply blocked_answer fuel free (child_blocked closed) (child_lookup free found dir) there _ one
    intro rest inside
    rw [List.append_assoc] at inside
    exact entered (name :: rest) inside

theorem closed_entered (free : w.tree.LinkFree) (found : w.lookup true source = .ok s)
    (closed : ∀ loc, Leads w topdest loc → w.tree.isDir loc = false) (rest : List Name)
    (inside : w.tree.isDir (s ++ rest) = true) : samePath (descend source rest) topdest = false := by
  by_contra same
  have same := Bool.not_eq_false _ ▸ same
  have source_leads := descend_lookup free found rest (is_dir_iff.mp inside)
  have leads := same_path_leads same ((lookup_ok_iff free).mp source_leads).2.1 inside
  rw [closed _ leads] at inside
  cases inside

theorem shut_steady (listing : DiskListing) (free : w.tree.LinkFree) (found : w.lookup true source = .ok s)
    (closed : ∀ loc, Leads w dest loc → w.tree.isDir loc = false)
    (no : ∀ p n, ¬ Makeable w dest p n) :
    Steady listing w source dest s (fun _ => False) (fun now => now = w) := by
  have blocked (m : List Name) (n : Name) : ∀ loc, ¬ Leads w (descend dest (m ++ [n])) loc := by
    induction m using List.reverseRecOn generalizing n with
    | nil => exact child_blocked closed
    | append_singleton front n' ih =>
      rw [descend_concat]
      exact child_blocked fun loc leads => absurd leads (ih n' loc)
  constructor
  · intro now same
    rwa [same]
  · intro now same
    rwa [same]
  · intro now m same _
    rw [same]
  · intro now m isDir same
    subst same
    apply made_unchanged free
    intro p n makes
    cases m using List.reverseRecOn with
    | nil => exact no p n makes
    | append_singleton front n' => exact blocked front n' _ (enters_leads makes.enters)
  · intro now w' fuel m isDir r more same run
    subst same
    cases m using List.reverseRecOn with
    | nil => exact absurd rfl more
    | append_singleton front n => exact do_copy_blocked free (blocked front n) run
  · intro m n _ apart
    exact absurd apart id

end Shut

section Inside
variable {listing : DiskListing} {w w' : Disk} {path dest : DiskPath} {s d m : List Name}

theorem descend_append (path : DiskPath) (first later : List Name) :
    descend (descend path first) later = descend path (first ++ later) :=
  List.foldl_append.symm

theorem made_dir (free : w.tree.LinkFree) (leads : Leads w dest d)
    (other : ∀ content, w.tree.get d ≠ some (.file content))
    (makes : w.tree.get d = none → ∃ q n, Makeable w dest q n) :
    (made w dest true).tree.isDir d = true := by
  have place := leads_place leads
  cases there : w.tree.get d with
  | none =>
    obtain ⟨q, n, makes⟩ := makes there
    obtain ⟨_, puts⟩ := create_dir_makes free makes
    change Puts w (made w dest true) (q ++ [n]) .dir at puts
    rw [is_dir_iff, puts.get, if_pos (place.trans (enters_place makes.enters).symm)]
  | some node =>
    cases node with
    | dir => exact (made_within free dest true).dirs _ (is_dir_iff.mpr there)
    | file content => exact absurd there (other content)
    | link target => exact absurd there (free _ target)

theorem copy_onto_file_fails {fuel : Nat} {x : List Name} {content : List UInt8}
    {result : Except FsError Unit} (free : w.tree.LinkFree)
    (never : ∀ rest, samePath (descend path rest) dest = false)
    (found : w.lookup true (descend path m) = .ok (s ++ m)) (dir : w.tree.isDir (s ++ m) = true)
    (inside : d ++ m = s ++ m ++ x) (leads : Leads w (descend dest m) (d ++ m))
    (file : w.tree.get (d ++ m) = some (.file content))
    (run : doCopy listing fuel w (descend path m) dest (descend dest m) true .infinity =
      some (w', result)) : result ≠ .ok () := by
  have place := leads_place leads
  have unmade : made w (descend dest m) true = w :=
    made_unchanged free (not_makeable_above file (place ▸ List.prefix_rfl))
  have closed : ∀ loc, Leads w (descend dest m) loc → w.tree.isDir loc = false := by
    intro loc leads'
    rw [(leads_place leads').trans place.symm]
    exact file_not_dir file
  have entered (rest : List Name) (_ : w.tree.isDir (s ++ m ++ rest) = true) :
      samePath (descend (descend path m) rest) dest = false := by
    rw [descend_append]
    exact never _
  obtain ⟨_, fine⟩ := shut_answer fuel free found dir entered closed unmade run
  intro done
  have alike := fine.mp done x content (by rwa [← inside])
  rw [descend_append, never] at alike
  cases alike

/-- A copy into the source that never meets its destination does not succeed: in the directory
    that leads to the destination there is always one more copy to make. -/
theorem copy_inside_fails (fuel : Nat) {x : List Name} {result : Except FsError Unit}
    (free : w.tree.LinkFree) (never : ∀ rest, samePath (descend path rest) dest = false)
    (found : w.lookup true (descend path m) = .ok (s ++ m)) (dir : w.tree.isDir (s ++ m) = true)
    (deeper : x ≠ []) (inside : d ++ m = s ++ m ++ x) (leads : Leads w (descend dest m) (d ++ m))
    (makes : w.tree.get (d ++ m) = none → ∃ q n, Makeable w (descend dest m) q n)
    (run : doCopy listing fuel w (descend path m) dest (descend dest m) true .infinity =
      some (w', result)) : result ≠ .ok () := by
  induction fuel generalizing w w' m x result with
  | zero => cases run
  | succ fuel ih =>
    have place := leads_place leads
    by_cases file : ∃ content, w.tree.get (d ++ m) = some (.file content)
    · obtain ⟨content, file⟩ := file
      exact copy_onto_file_fails free never found dir inside leads file run
    · rw [do_copy_dir free (never m) found dir, if_neg (by decide)] at run
      have grows := made_within free (descend dest m) true
      rw [← place] at grows
      have top := made_dir free leads (fun content there => file ⟨content, there⟩) makes
      generalize made w (descend dest m) true = opened at grows top run
      obtain ⟨e, y, split_x⟩ := List.exists_cons_of_ne_nil deeper
      have through : d ++ m = s ++ m ++ [e] ++ y := by
        rw [inside, split_x, List.append_assoc _ [e], List.singleton_append]
      have entry {now : Disk} (later : now.tree.isDir (d ++ m) = true) :
          now.tree.isDir (s ++ m ++ [e]) = true := by
        rw [is_dir_iff] at later ⊢
        rw [through] at later
        by_cases bare : y = []
        · rwa [bare, List.append_nil] at later
        · exact above_is_dir now.tree bare later
      obtain ⟨seen, retval, ⟨within, sofar⟩, finish⟩ := copy_entries_rule
        (P := fun now seen retval => Within (d ++ m) opened now ∧ (e ∈ seen → retval ≠ .ok ())) (by
          intro now seen retval name node next r sofar listed here one
          obtain ⟨within, sofar⟩ := sofar
          have total := within_trans grows within
          have free' := total.free free
          rw [← descend_concat, ← descend_concat] at one
          have changed := do_copy_within free' one
          rw [descend_concat, child_place, place_same _ total.cwd, ← place] at changed
          refine ⟨within_trans within (within_mono (List.prefix_append _ _) changed), ?_⟩
          intro member
          rcases List.mem_append.mp member with old | last
          · intro done
            cases r with
            | ok _ => exact sofar old done
            | error _ => cases done
          · cases List.mem_singleton.mp last
            have dirD := within.dirs _ top
            have dirE := entry dirD
            rw [is_dir_iff.mp dirE] at here
            cases here
            have dirS := total.dirs _ dir
            have target := leads_grows total.cwd total.dirs leads
            have failed := ih free' (m := m ++ [e]) (x := y ++ [e])
              (by rw [descend_concat, ← List.append_assoc]
                  exact child_lookup free' (lookup_grows free total found) dirS)
              (by rwa [← List.append_assoc]) (by simp)
              (by rw [← List.append_assoc, through]; simp)
              (by rw [descend_concat, ← List.append_assoc]
                  exact child_leads.mpr ⟨_, target, dirD, rfl⟩)
              (by intro missing
                  refine ⟨d ++ m, e, ?_⟩
                  rw [descend_concat]
                  exact ⟨child_enters target dirD, by rwa [List.append_assoc],
                    now.tree.named _ e _ (is_dir_iff.mp dirE)⟩)
              one
            intro done
            cases r with
            | ok _ => exact failed rfl
            | error _ => cases done)
        fuel ⟨within_refl _ _, fun member => by cases member⟩ run
      rcases finish with ⟨done, same⟩ | ⟨name, e', _, _, same⟩
      · rw [same]
        apply sofar
        apply listing.complete _ _ _ _ e done
        · rw [is_dir_iff.mp (entry top)]
          exact Option.some_ne_none _
        · rw [is_dir_iff.mp (entry (within.dirs _ top))]
          exact Option.some_ne_none _
      · rw [same]
        intro done
        cases done

end Inside
end VestibuleCopyMove
