import Vestibule.CallFootprints
import Vestibule.CopyPlans
import Vestibule.WebdavRequests

/-!
What `create_dir_all` creates for an upload: the missing directories of a path, one after the other
from the first one on, until one of them cannot be made.
-/
namespace VestibuleWebdav
open VestibuleRust LexicalMotion FileTree FileCalls World PlainLookups PlainCalls LinkedLookups
  LinkedCalls CallFootprints VestibulePaths VestibuleCopyMove

inductive Above : DiskPath → DiskPath → Prop where
  | self (path : DiskPath) : Above path path
  | parent {front above path : DiskPath} :
      parent path = some above → Above front above → Above front path

/-- The disks on the way to the one in which a path is a directory: each has one more of the missing
    directories. -/
inductive Prepared (path : DiskPath) : Disk → Disk → Prop where
  | start (w : Disk) : Prepared path w w
  | more {w w₁ : Disk} {front : DiskPath} {p : List Name} {n : Name} :
      Prepared path w w₁ → Above front path → Creates w₁ front p n →
      Prepared path w (w₁.createDir front).1

section Paths
variable {path above front : DiskPath}

theorem trim_here_prefix (steps : List (Step Name)) : trimHere steps <+: steps := by
  unfold trimHere
  have tail := List.dropWhile_suffix (l := steps.reverse) (· = Step.here)
  simpa using List.reverse_prefix.mpr tail

theorem trimmed_longer {steps : List (Step Name)} {s : Step Name} {body : List (Step Name)}
    (trimmed : trimHere steps = s :: body) :
    ∃ s' later, steps = trimHere (s :: body).dropLast ++ s' :: later := by
  have outer : s :: body <+: steps := trimmed ▸ trim_here_prefix steps
  have inner := trim_here_prefix (s :: body).dropLast
  have shorter : (trimHere (s :: body).dropLast).length < steps.length := by
    have short := inner.length_le
    have long := outer.length_le
    simp only [List.length_dropLast, List.length_cons] at short long
    omega
  obtain ⟨rest, whole⟩ := (inner.trans (List.dropLast_prefix _)).trans outer
  cases rest with
  | nil =>
    rw [List.append_nil] at whole
    rw [whole] at shorter
    omega
  | cons s' later => exact ⟨s', later, whole.symm⟩

theorem parent_steps (found : parent path = some above) : path.absolute = above.absolute ∧
    above.slash = false ∧ ∃ s later, path.steps = above.steps ++ s :: later := by
  unfold VestibulePaths.parent at found
  split at found
  · rename_i rest unrooted steps
    split at found
    · cases found
      exact ⟨unrooted, rfl, .here, rest, steps⟩
    · rename_i s body trimmed
      cases found
      obtain ⟨s', later, whole⟩ := trimmed_longer trimmed
      exact ⟨unrooted, rfl, s', later, by rw [steps, List.cons_append, ← whole]⟩
  · split at found
    · cases found
    · rename_i s body trimmed
      cases found
      exact ⟨rfl, rfl, trimmed_longer trimmed⟩

theorem parent_shorter (found : parent path = some above) : above.steps.length < path.steps.length := by
  obtain ⟨_, _, s, later, longer⟩ := parent_steps found
  rw [longer]
  simp only [List.length_append, List.length_cons]
  omega

theorem above_steps (upper : Above front path) : front = path ∨
    path.absolute = front.absolute ∧ ∃ s later, path.steps = front.steps ++ s :: later := by
  induction upper with
  | self => exact .inl rfl
  | parent found _ ih =>
    obtain ⟨rooted, _, s, later, whole⟩ := parent_steps found
    rcases ih with same | ⟨rooted', s', later', whole'⟩
    · subst same
      exact .inr ⟨rooted, s, later, whole⟩
    · refine .inr ⟨rooted.trans rooted', s', later' ++ s :: later, ?_⟩
      rw [whole, whole', List.append_assoc]
      rfl

theorem above_total {front' : DiskPath} (upper : Above front path) (upper' : Above front' path) :
    Above front front' ∨ Above front' front := by
  induction upper with
  | self => exact .inr upper'
  | parent found rest ih =>
    cases upper' with
    | self => exact .inl (.parent found rest)
    | parent found' rest' =>
      rw [found] at found'
      cases found'
      exact ih rest'

end Paths

section Chains
variable {path front front' : DiskPath} {w w₁ w₂ : Disk} {p q : List Name} {n m : Name}

theorem creates_unique (upper : Above front path) (upper' : Above front' path)
    (creates : Creates w front p n) (creates' : Creates w front' q m) : front = front' := by
  have beyond {f g : DiskPath} {p q : List Name} {n m : Name} (upper : Above f g)
      (creates : Creates w f p n) (creates' : Creates w g q m) : f = g := by
    rcases above_steps upper with same | ⟨rooted, s, later, longer⟩
    · exact same
    · have stuck := entry_beyond rooted longer creates.entry creates.missing
      rw [creates'.entry] at stuck
      cases stuck
  rcases above_total upper upper' with first | second
  · exact beyond first creates creates'
  · exact (beyond second creates' creates).symm

theorem prepared_step (ready : Prepared path w w₂) : w = w₂ ∨ ∃ front p n, Above front path ∧
    Creates w front p n ∧ Prepared path (w.createDir front).1 w₂ := by
  induction ready with
  | start => exact .inl rfl
  | more _ upper creates ih =>
    rcases ih with same | ⟨front, p, n, upper', creates', rest⟩
    · subst same
      exact .inr ⟨_, _, _, upper, creates, .start _⟩
    · exact .inr ⟨front, p, n, upper', creates', .more rest upper creates⟩

theorem prepared_total (ready : Prepared path w w₁) (ready' : Prepared path w w₂) :
    Prepared path w₁ w₂ ∨ Prepared path w₂ w₁ := by
  induction ready with
  | start => exact .inl ready'
  | more earlier upper creates ih =>
    rcases ih with first | second
    · rcases prepared_step first with same | ⟨front, p, n, upper', creates', rest⟩
      · subst same
        exact .inr (.more (.start _) upper creates)
      · rw [creates_unique upper upper' creates creates']
        exact .inl rest
    · exact .inr (.more second upper creates)

theorem prepared_touched (ready : Prepared path w w₁) : ∃ places, w₁.touched = w.touched ++ places := by
  induction ready with
  | start => exact ⟨[], (List.append_nil _).symm⟩
  | more _ _ creates ih =>
    obtain ⟨places, touched⟩ := ih
    rw [(create_dir_done creates).2.2, touched, List.append_assoc]
    exact ⟨_, rfl⟩

theorem prepared_within {inside : List Name → Prop} (ready : Prepared path w w₁)
    (each : ∀ w₀ front p n, Prepared path w w₀ → Above front path → Creates w₀ front p n →
      inside (p ++ [n])) : TouchesWithin inside w w₁ := by
  induction ready with
  | start => exact touches_refl _
  | more earlier upper creates ih =>
    refine touches_trans ih ⟨_, (create_dir_done creates).2.2, ?_⟩
    intro place member
    rw [List.mem_singleton.mp member]
    exact each _ _ _ _ earlier upper creates

end Chains

section Runs
variable {path above : DiskPath} {w w' : Disk} {fuel : Nat} {outcome : Except FsError Unit}

theorem created_creates {w : Disk} (run : w.createDir path = (w', .ok ())) :
    ∃ p n, Creates w path p n := by
  by_contra no
  obtain ⟨e, failed⟩ := create_dir_refused fun p n creates => no ⟨p, n, creates⟩
  rw [run] at failed
  cases failed

theorem refused_creates_not {e : FsError} (run : w.createDir path = (w', .error e)) :
    w' = w ∧ ∀ p n, ¬ Creates w path p n := by
  constructor
  · by_cases can : ∃ p n, Creates w path p n
    · obtain ⟨p, n, creates⟩ := can
      have done := (create_dir_done creates).1
      rw [run] at done
      cases done
    · obtain ⟨e', failed⟩ := create_dir_refused fun p n creates => can ⟨p, n, creates⟩
      rw [run] at failed
      cases failed
      rfl
  · intro p n creates
    have done := (create_dir_done creates).1
    rw [run] at done
    cases done

/-- What one round of `create_dir_all` comes to. -/
inductive CreatedAll (fuel : Nat) (w : Disk) (path : DiskPath) : Disk → Except FsError Unit → Prop
  | blank (bare : isBlank path = true) : CreatedAll fuel w path w (.ok ())
  | made {p : List Name} {n : Name} (creates : Creates w path p n) :
      CreatedAll fuel w path (w.createDir path).1 (.ok ())
  | refused {e : FsError} (refused : w.createDir path = (w, .error e)) (other : e ≠ .notFound) :
      CreatedAll fuel w path w (if isDir w path then .ok () else .error e)
  | top (missing : w.createDir path = (w, .error .notFound)) (bare : parent path = none) :
      CreatedAll fuel w path w (.error .notFound)
  | failed {above : DiskPath} {w₂ : Disk} {e : FsError} (found : parent path = some above)
      (earlier : createDirAll fuel w above = (w₂, .error e)) : CreatedAll fuel w path w₂ (.error e)
  | after {above : DiskPath} {w₂ : Disk} {p : List Name} {n : Name} (found : parent path = some above)
      (earlier : createDirAll fuel w above = (w₂, .ok ())) (creates : Creates w₂ path p n) :
      CreatedAll fuel w path (w₂.createDir path).1 (.ok ())
  | again {above : DiskPath} {w₂ : Disk} {e : FsError} (found : parent path = some above)
      (earlier : createDirAll fuel w above = (w₂, .ok ()))
      (refused : w₂.createDir path = (w₂, .error e)) :
      CreatedAll fuel w path w₂ (if isDir w₂ path then .ok () else .error e)

theorem create_dir_all_cases (run : createDirAll (fuel + 1) w path = (w', outcome)) :
    CreatedAll fuel w path w' outcome := by
  unfold createDirAll at run
  split at run
  · rename_i bare
    cases run
    exact .blank (by simp [isBlank, bare])
  · dsimp only at run
    split at run
    · rename_i w₁ made
      cases run
      obtain ⟨p, n, creates⟩ := created_creates made
      have step := @CreatedAll.made fuel w path p n creates
      rwa [made] at step
    · rename_i w₁ missing
      obtain ⟨same, _⟩ := refused_creates_not missing
      subst same
      split at run
      · rename_i bare
        cases run
        exact .top missing bare
      · rename_i above found
        split at run
        · rename_i w₂ e earlier
          cases run
          exact .failed found earlier
        · rename_i w₂ earlier
          split at run
          · rename_i w₃ made
            cases run
            obtain ⟨p, n, creates⟩ := created_creates made
            have step := CreatedAll.after found earlier creates
            rwa [made] at step
          · rename_i w₃ e refused
            cases run
            obtain ⟨same, _⟩ := refused_creates_not refused
            subst same
            exact .again found earlier refused
    · rename_i w₁ e other refused
      cases run
      obtain ⟨same, _⟩ := refused_creates_not refused
      subst same
      exact .refused refused other

/-- The directories are made from the first missing one on. -/
theorem create_dir_all_prepares (run : createDirAll fuel w path = (w', outcome)) :
    Prepared path w w' := by
  induction fuel generalizing w path w' outcome with
  | zero =>
    cases run
    exact .start _
  | succ fuel ih =>
    have lift {above : DiskPath} {w₂ : Disk} (found : parent path = some above)
        (ready : Prepared above w w₂) : Prepared path w w₂ := by
      induction ready with
      | start => exact .start _
      | more _ upper creates ih => exact .more ih (.parent found upper) creates
    cases create_dir_all_cases run with
    | blank | refused | top => exact .start _
    | made creates => exact .more (.start w) (.self path) creates
    | failed found earlier => exact lift found (ih earlier)
    | after found earlier creates => exact .more (lift found (ih earlier)) (.self path) creates
    | again found earlier _ => exact lift found (ih earlier)

theorem not_found_entry (run : w.createDir path = (w', .error .notFound)) :
    w.entry path = .error .notFound := by
  unfold World.createDir at run
  split at run
  · rename_i e failed
    cases run
    exact failed
  · cases run
  · split at run
    · cases run
    · unfold World.putAt at run
      split at run <;> cases run

theorem entered_not_above {front : DiskPath} {named : List Name × Option Name} {p : List Name}
    {n : Name} (entered : w.entry path = .ok named) (upper : Above front path)
    (creates : Creates w front p n) : front = path := by
  rcases above_steps upper with same | ⟨rooted, s, later, longer⟩
  · exact same
  · rw [entry_beyond rooted longer creates.entry creates.missing] at entered
    cases entered

theorem made_complete {p : List Name} {n : Name} (made : Creates w path p n) {front : DiskPath}
    (upper : Above front path) (q : List Name) (m : Name) :
    ¬ Creates (w.createDir path).1 front q m := by
  obtain ⟨_, puts, _⟩ := create_dir_done made
  have entered := entry_extends puts.cwd (puts_extends puts made.missing) made.entry
  intro creates
  have same := entered_not_above entered upper creates
  subst same
  obtain ⟨entry, missing, _⟩ := creates
  rw [entered] at entry
  cases entry
  rw [puts.get, if_pos rfl] at missing
  cases missing

theorem parent_dir {loc : List Name} (found : parent path = some above)
    (some_left : isBlank above = false) (leads : w.lookup true path = .ok loc) :
    isDir w above = true := by
  obtain ⟨rooted, _, s, later, longer⟩ := parent_steps found
  exact is_dir_path_iff.mpr (front_dir rooted longer some_left leads)

theorem not_blank_of_fails {e : FsError} (run : createDirAll fuel w path = (w', .error e))
    (some_fuel : fuel ≠ 0) : isBlank path = false := by
  by_contra blank
  have blank : path.absolute = false ∧ path.steps = [] := by simpa [isBlank] using blank
  cases fuel with
  | zero => exact some_fuel rfl
  | succ fuel =>
    unfold createDirAll at run
    rw [if_pos blank] at run
    cases run

theorem create_dir_all_fails {e : FsError} (enough : path.steps.length < fuel)
    (run : createDirAll fuel w path = (w', .error e)) : isDir w' path = false := by
  induction fuel generalizing w path w' e with
  | zero => omega
  | succ fuel ih =>
    have decided {w : Disk} {e' : FsError}
        (same : (if isDir w path then Except.ok () else .error e') = .error e) :
        isDir w path = false := by
      split at same
      · cases same
      · rename_i other
        exact Bool.not_eq_true _ ▸ other
    generalize failure : Except.error e = outcome at run
    cases create_dir_all_cases run with
    | blank | made | after => cases failure
    | refused | again => exact decided failure.symm
    | top missing _ =>
      by_contra dir
      obtain ⟨loc, found, dir⟩ := is_dir_path_iff.mp (Bool.not_eq_false _ ▸ dir)
      obtain ⟨named, entered⟩ := dir_entered found dir
      rw [not_found_entry missing] at entered
      cases entered
    | failed found earlier =>
      have shorter := parent_shorter found
      by_contra dir
      obtain ⟨loc, leads, _⟩ := is_dir_path_iff.mp (Bool.not_eq_false _ ▸ dir)
      have above_dir := parent_dir found (not_blank_of_fails earlier (by omega)) leads
      rw [ih (by omega) earlier] at above_dir
      cases above_dir

/-- With fuel for every step, no missing directory can be made in the end. -/
theorem create_dir_all_complete (enough : path.steps.length < fuel)
    (run : createDirAll fuel w path = (w', outcome)) {front : DiskPath} (upper : Above front path)
    (p : List Name) (n : Name) : ¬ Creates w' front p n := by
  induction fuel generalizing w path w' outcome front p n with
  | zero => omega
  | succ fuel ih =>
    have earlier_complete {above : DiskPath} {w₂ : Disk} {outcome' : Except FsError Unit}
        (found : parent path = some above) (earlier : createDirAll fuel w above = (w₂, outcome'))
        (no : ∀ p n, ¬ Creates w₂ path p n) : ¬ Creates w₂ front p n := by
      have shorter := parent_shorter found
      cases upper with
      | self => exact no p n
      | parent found' rest =>
        rw [found] at found'
        cases found'
        exact ih (by omega) earlier rest p n
    cases create_dir_all_cases run with
    | blank bare =>
      intro creates
      have bare' : path.absolute = false ∧ path.steps = [] := by simpa [isBlank] using bare
      rcases above_steps upper with same | ⟨_, s, later, longer⟩
      · have entry := creates.entry
        rw [same, World.entry, bare] at entry
        cases entry
      · rw [bare'.2] at longer
        simp at longer
    | made creates | after _ _ creates => exact made_complete creates upper p n
    | top missing bare =>
      cases upper with
      | self => exact (refused_creates_not missing).2 p n
      | parent found =>
        rw [bare] at found
        cases found
    | failed found earlier =>
      have shorter := parent_shorter found
      refine earlier_complete found earlier fun q m creates => ?_
      have some_left := not_blank_of_fails earlier (by omega)
      obtain ⟨rooted, _, s, later, longer⟩ := parent_steps found
      have above_dir : isDir w' _ = true :=
        is_dir_path_iff.mpr (entered_front rooted longer some_left creates.entry)
      rw [create_dir_all_fails (by omega) earlier] at above_dir
      cases above_dir
    | again found earlier refused =>
      exact earlier_complete found earlier (refused_creates_not refused).2
    | refused refused other =>
      intro creates
      rcases above_steps upper with same | ⟨rooted, s, later, longer⟩
      · subst same
        exact (refused_creates_not refused).2 p n creates
      · have stuck := entry_beyond rooted longer creates.entry creates.missing
        apply other
        unfold World.createDir at refused
        rw [stuck] at refused
        cases refused
        rfl

end Runs
end VestibuleWebdav
