import Vestibule.CopyPlans

/-!
Runs of `do_copy` that need not have ended: the same recursion, with the disk as it is when the fuel is
spent, so that something can be said of copies that go on for ever.
-/
namespace VestibuleCopyMove
open VestibuleRust LexicalMotion FileTree FileCalls World VestibulePaths PlainLookups PlainCalls

abbrev SoFar := Disk × Option (Except FsError Unit)

def SoFar.ended (run : SoFar) : Option (Disk × Except FsError Unit) := run.2.map (run.1, ·)

/-- `copyEntries` so far. -/
def entriesSoFar (listing : DiskListing) (opened : DiskTree) (loc : List Name)
    (body : Disk → Name → Bool → SoFar) : Nat → Disk → List Name → Except FsError Unit → SoFar
  | 0, w, _, _ => (w, none)
  | fuel + 1, w, seen, retval =>
    match listing.next opened w.tree loc seen with
    | none => (w, some retval)
    | some name =>
      match w.tree.get (loc ++ [name]) with
      | none => (w, some (.error .notFound))
      | some node =>
        match body w name (isDirNode node) with
        | (w, none) => (w, none)
        | (w, some (.ok _)) => entriesSoFar listing opened loc body fuel w (seen ++ [name]) retval
        | (w, some (.error e)) =>
          entriesSoFar listing opened loc body fuel w (seen ++ [name]) (.error e)

/-- `doCopy` so far. -/
def copySoFar (listing : DiskListing) :
    Nat → Disk → DiskPath → DiskPath → DiskPath → Bool → Depth → SoFar
  | 0, w, _, _, _, _, _ => (w, none)
  | fuel + 1, w, source, topdest, dest, destIsDir, depth =>
    if samePath source topdest then (w, some (.ok ()))
    else
      match w.metadata source with
      | .error e => (w, some (.error e))
      | .ok node =>
        let w := if destIsDir then (w.createDir dest).1 else w
        match node with
        | .file _ =>
          if destIsDir then
            match fileName source with
            | none => (w, some (.error .invalidInput))
            | some name => let copied := w.copyFile source (joinName dest name); (copied.1, some copied.2)
          else let copied := w.copyFile source dest; (copied.1, some copied.2)
        | _ =>
          if depth = .zero then (w, some (.ok ()))
          else
            match w.lookup true source with
            | .error e => (w, some (.error e))
            | .ok loc =>
              if w.tree.isDir loc then
                entriesSoFar listing w.tree loc
                  (fun w name isDir => copySoFar listing fuel w (joinName source name) topdest
                    (joinName dest name) isDir depth)
                  fuel w [] (.ok ())
              else (w, some (.error .notDirectory))

section Ends
variable {listing : DiskListing} {opened : DiskTree} {loc seen : List Name} {w w' : Disk}
  {retval result : Except FsError Unit}

theorem entries_ended {body : Disk → Name → Bool → Option (Disk × Except FsError Unit)}
    {body' : Disk → Name → Bool → SoFar}
    (same : ∀ w name isDir, body w name isDir = (body' w name isDir).ended) (fuel : Nat) :
    copyEntries listing opened loc body fuel w seen retval =
      (entriesSoFar listing opened loc body' fuel w seen retval).ended := by
  induction fuel generalizing w seen retval with
  | zero => rfl
  | succ fuel ih =>
    unfold copyEntries entriesSoFar
    cases listing.next opened w.tree loc seen with
    | none => rfl
    | some name =>
      dsimp only
      cases w.tree.get (loc ++ [name]) with
      | none => rfl
      | some node =>
        dsimp only
        rw [same]
        generalize body' w name (isDirNode node) = one
        obtain ⟨w₁, outcome⟩ := one
        cases outcome with
        | none => rfl
        | some r => cases r <;> exact ih

theorem do_copy_ended (fuel : Nat) (w : Disk) (source topdest dest : DiskPath) (destIsDir : Bool)
    (depth : Depth) : doCopy listing fuel w source topdest dest destIsDir depth =
      (copySoFar listing fuel w source topdest dest destIsDir depth).ended := by
  induction fuel generalizing w source dest destIsDir with
  | zero => rfl
  | succ fuel ih =>
    unfold doCopy copySoFar
    by_cases same : samePath source topdest = true
    · rw [if_pos same, if_pos same]
      rfl
    rw [if_neg same, if_neg same]
    cases w.metadata source with
    | error e => rfl
    | ok node =>
      dsimp only
      generalize (if destIsDir = true then (w.createDir dest).1 else w) = w₁
      cases node with
      | file content =>
        dsimp only
        cases destIsDir with
        | false => rfl
        | true =>
          simp only [↓reduceIte]
          cases fileName source <;> rfl
      | dir | link target =>
        dsimp only
        by_cases shallow : depth = .zero
        · rw [if_pos shallow, if_pos shallow]
          rfl
        rw [if_neg shallow, if_neg shallow]
        cases w₁.lookup true source with
        | error e => rfl
        | ok loc =>
          dsimp only
          split
          · exact entries_ended (fun w name isDir => ih w _ _ isDir) fuel
          · rfl

theorem ended_iff {run : SoFar} : run.ended = some (w', result) ↔ run = (w', some result) := by
  obtain ⟨w, outcome⟩ := run
  cases outcome <;> simp [SoFar.ended]

end Ends

section Loop
variable {listing : DiskListing} {opened : DiskTree} {loc : List Name} {body : Disk → Name → Bool → SoFar}

/-- A loop that got to an entry it does nothing with: the fuel is spent, all was reported, or the entry is
    gone. -/
def Rests (listing : DiskListing) (opened : DiskTree) (loc : List Name) (now : Disk) (seen : List Name)
    (result : Option (Except FsError Unit)) : Prop :=
  result.isSome = true → listing.next opened now.tree loc seen = none ∨
    ∃ name, listing.next opened now.tree loc seen = some name ∧ now.tree.get (loc ++ [name]) = none

/-- A property that each entry preserves holds where the loop rests, or at the entry it is in the middle of. -/
theorem entries_rule {P : Disk → List Name → Prop}
    (step : ∀ now seen name node next r, P now seen → listing.next opened now.tree loc seen = some name →
      now.tree.get (loc ++ [name]) = some node → body now name (isDirNode node) = (next, some r) →
      P next (seen ++ [name]))
    (fuel : Nat) {w w' : Disk} {seen : List Name} {retval : Except FsError Unit}
    {result : Option (Except FsError Unit)} (start : P w seen)
    (run : entriesSoFar listing opened loc body fuel w seen retval = (w', result)) :
    ∃ now seen', P now seen' ∧ (w' = now ∧ Rests listing opened loc now seen' result ∨
      ∃ name node, listing.next opened now.tree loc seen' = some name ∧
        now.tree.get (loc ++ [name]) = some node ∧ body now name (isDirNode node) = (w', none) ∧
        result = none) := by
  induction fuel generalizing w seen retval with
  | zero =>
    cases run
    exact ⟨_, seen, start, .inl ⟨rfl, fun some => by cases some⟩⟩
  | succ fuel ih =>
    unfold entriesSoFar at run
    cases next : listing.next opened w.tree loc seen with
    | none =>
      rw [next] at run
      cases run
      exact ⟨_, seen, start, .inl ⟨rfl, fun _ => .inl next⟩⟩
    | some name =>
      rw [next] at run
      dsimp only at run
      cases found : w.tree.get (loc ++ [name]) with
      | none =>
        rw [found] at run
        cases run
        exact ⟨_, seen, start, .inl ⟨rfl, fun _ => .inr ⟨name, next, found⟩⟩⟩
      | some node =>
        rw [found] at run
        dsimp only at run
        cases one : body w name (isDirNode node) with
        | mk w₁ outcome =>
          rw [one] at run
          cases outcome with
          | none =>
            cases run
            exact ⟨_, seen, start, .inr ⟨name, node, next, found, one, rfl⟩⟩
          | some r =>
            have further := step w seen name node w₁ r start next found one
            cases r <;> exact ih further run

end Loop

section Calls
variable {listing : DiskListing} {fuel : Nat} {w w' : Disk} {source topdest dest : DiskPath}
  {destIsDir : Bool} {depth : Depth} {result : Option (Except FsError Unit)} {loc : List Name}

theorem so_far_skips (same : samePath source topdest = true) :
    copySoFar listing (fuel + 1) w source topdest dest destIsDir depth = (w, some (.ok ())) := by
  unfold copySoFar
  rw [if_pos same]

theorem so_far_skipped (same : samePath source topdest = true)
    (run : copySoFar listing fuel w source topdest dest destIsDir depth = (w', result)) : w' = w := by
  cases fuel with
  | zero => exact (congrArg Prod.fst run).symm
  | succ fuel =>
    rw [so_far_skips same] at run
    exact (congrArg Prod.fst run).symm

abbrev copyEntry (listing : DiskListing) (fuel : Nat) (source topdest dest : DiskPath) (depth : Depth)
    (w : Disk) (name : Name) (isDir : Bool) : SoFar :=
  copySoFar listing fuel w (child source name) topdest (child dest name) isDir depth

theorem so_far_dir (different : samePath source topdest = false) (node : w.metadata source = .ok .dir)
    (deep : depth ≠ .zero) (place : (made w dest destIsDir).lookup true source = .ok loc)
    (dir : (made w dest destIsDir).tree.isDir loc = true) :
    copySoFar listing (fuel + 1) w source topdest dest destIsDir depth =
      entriesSoFar listing (made w dest destIsDir).tree loc
        (copyEntry listing fuel source topdest dest depth) fuel (made w dest destIsDir) [] (.ok ()) := by
  unfold made at place dir ⊢
  conv => lhs; unfold copySoFar
  rw [if_neg (by simp [different]), node]
  simp only [join_name_child, if_neg deep, place, dir, ↓reduceIte]

theorem so_far_steps
    (run : copySoFar listing (fuel + 1) w source topdest dest destIsDir depth = (w', result)) :
    w' = w ∨ (∃ node, w.metadata source = .ok node ∧ w' = made w dest destIsDir) ∨
      (∃ content name, w.metadata source = .ok (.file content) ∧
        w' = ((made w dest destIsDir).copyFile source (fileTarget dest destIsDir name)).1) ∨
      ∃ node loc, w.metadata source = .ok node ∧
        (made w dest destIsDir).lookup true source = .ok loc ∧
        (made w dest destIsDir).tree.isDir loc = true ∧ depth ≠ .zero ∧
        entriesSoFar listing (made w dest destIsDir).tree loc
          (copyEntry listing fuel source topdest dest depth) fuel (made w dest destIsDir) [] (.ok ()) =
            (w', result) := by
  unfold copySoFar at run
  split at run
  · cases run
    exact .inl rfl
  · split at run
    · cases run
      exact .inl rfl
    · rename_i node found
      dsimp only at run
      have same : (if destIsDir = true then (w.createDir dest).1 else w) = made w dest destIsDir := rfl
      rw [same] at run
      split at run
      · rename_i content
        split at run
        · split at run
          · cases run
            exact .inr (.inl ⟨_, found, rfl⟩)
          · rename_i name _
            rw [join_name_child] at run
            cases run
            refine .inr (.inr (.inl ⟨content, name, found, ?_⟩))
            rw [fileTarget, if_pos ‹_›]
        · cases run
          refine .inr (.inr (.inl ⟨content, [], found, ?_⟩))
          rw [fileTarget, if_neg ‹_›]
      · split at run
        · cases run
          exact .inr (.inl ⟨_, found, rfl⟩)
        · rename_i more
          split at run
          · cases run
            exact .inr (.inl ⟨_, found, rfl⟩)
          · rename_i loc place
            split at run
            · rename_i dir
              simp only [join_name_child] at run
              exact .inr (.inr (.inr ⟨node, loc, found, place, dir, more, run⟩))
            · cases run
              exact .inr (.inl ⟨_, found, rfl⟩)

end Calls
end VestibuleCopyMove
