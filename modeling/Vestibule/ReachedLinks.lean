import Vestibule.EndingCopies

/-!
A copy of a directory comes to each of its links when all directories of the copy are there that can be
before it, if the directories are listed in an order that serves: what the links lead to is then read.
-/
namespace VestibuleCopyMove
open VestibuleRust LexicalMotion FileTree FileCalls World VestibulePaths PlainLookups PlainCalls
  LinkedLookups LinkedCalls CallFootprints StepRuns

section Orders
variable {early middle : List Name → Bool} {opened now : DiskTree} {loc seen : List Name} {m k : Name}

/-- The entries of a directory, some of them first and some of them before the others. -/
def inOrder (early middle : List Name → Bool) (opened : DiskTree) (loc : List Name) : List Name :=
  (entries opened loc).filter (fun m => early (loc ++ [m])) ++
    ((entries opened loc).filter (fun m => middle (loc ++ [m])) ++ entries opened loc)

theorem mem_in_order : m ∈ inOrder early middle opened loc ↔ opened.get (loc ++ [m]) ≠ none := by
  rw [← mem_entries]
  unfold inOrder
  simp only [List.mem_append, List.mem_filter]
  tauto

def orderedListing (early middle : List Name → Bool) : DiskListing where
  next opened _ loc seen := (inOrder early middle opened loc).find? (· ∉ seen)
  fresh opened now loc seen n found := by simpa using List.find?_some found
  sound opened now loc seen n found := .inl (mem_in_order.mp (List.mem_of_find?_eq_some found))
  complete opened now loc seen n done before _ := by
    simpa using List.find?_eq_none.mp done n (mem_in_order.mpr before)

theorem ordered_early (next : (orderedListing early middle).next opened now loc seen = some m)
    (late : early (loc ++ [m]) = false) (there : opened.get (loc ++ [k]) ≠ none)
    (first : early (loc ++ [k]) = true) : k ∈ seen := by
  have found : (inOrder early middle opened loc).find? (· ∉ seen) = some m := next
  unfold inOrder at found
  rw [List.find?_append] at found
  cases front : ((entries opened loc).filter fun m => early (loc ++ [m])).find? (· ∉ seen) with
  | some j =>
    rw [front, Option.some_or] at found
    cases found
    have member := (List.mem_filter.mp (List.mem_of_find?_eq_some front)).2
    rw [late] at member
    cases member
  | none => simpa using List.find?_eq_none.mp front k (List.mem_filter.mpr ⟨mem_entries.mpr there, first⟩)

theorem ordered_middle (next : (orderedListing early middle).next opened now loc seen = some m)
    (there : opened.get (loc ++ [k]) ≠ none) (second : middle (loc ++ [k]) = true) (new : k ∉ seen) :
    early (loc ++ [m]) = true ∨ middle (loc ++ [m]) = true := by
  have found : (inOrder early middle opened loc).find? (· ∉ seen) = some m := next
  unfold inOrder at found
  rw [List.find?_append, List.find?_append] at found
  cases front : ((entries opened loc).filter fun m => early (loc ++ [m])).find? (· ∉ seen) with
  | some j =>
    rw [front, Option.some_or] at found
    cases found
    exact .inl (List.mem_filter.mp (List.mem_of_find?_eq_some front)).2
  | none =>
    rw [front, Option.none_or] at found
    cases onward : ((entries opened loc).filter fun m => middle (loc ++ [m])).find? (· ∉ seen) with
    | some j =>
      rw [onward, Option.some_or] at found
      cases found
      exact .inr (List.mem_filter.mp (List.mem_of_find?_eq_some onward)).2
    | none =>
      have all := List.find?_eq_none.mp onward k (List.mem_filter.mpr ⟨mem_entries.mpr there, second⟩)
      simp [new] at all

/-- On the way to a place of the source the entries that lead elsewhere are listed first, those on the way to
    the destination apart if it is not passed over. -/
def Favours (listing : DiskListing) (skips : Prop) (s d place : List Name) : Prop :=
  ∀ opened now front m rest seen k, front ++ m :: rest = place → m ∉ seen →
    opened.get (s ++ front ++ [m]) ≠ none → listing.next opened now (s ++ front) seen = some k →
      (k ≠ m → skips ∨ ¬ s ++ front ++ [k] <+: d) ∧
      (k = m → ∀ j, opened.get (s ++ front ++ [j]) ≠ none → j ≠ m →
        skips ∨ ¬ s ++ front ++ [j] <+: d → j ∈ seen)

theorem favouring_listing (skips : Prop) (s d place : List Name) :
    ∃ listing, Favours listing skips s d place := by
  classical
  refine ⟨orderedListing (fun loc => decide (¬ loc <+: s ++ place ∧ (skips ∨ ¬ loc <+: d)))
    (fun loc => decide (loc <+: s ++ place)), ?_⟩
  intro opened now front m rest seen k whole new there next
  have on_the_way (j : Name) : s ++ front ++ [j] <+: s ++ place ↔ j = m := by
    rw [← whole, List.append_assoc, List.prefix_append_right_inj, List.prefix_append_right_inj,
      List.singleton_prefix_cons_iff]
  constructor
  · intro other
    rcases ordered_middle next there (decide_eq_true ((on_the_way m).mpr rfl)) new with first | second
    · exact (of_decide_eq_true first).2
    · exact absurd ((on_the_way k).mp (of_decide_eq_true second)) other
  · rintro rfl j listed other aside
    refine ordered_early next (decide_eq_false fun first => ?_) listed (decide_eq_true ⟨?_, aside⟩)
    · exact first.1 ((on_the_way k).mpr rfl)
    · exact fun within => other ((on_the_way j).mp within)

end Orders

section Loop
variable {listing : DiskListing} {opened : DiskTree} {loc names seen place : List Name} {w now : Disk}
  {retval : Except FsError Unit} {m : Name} {fuel : Nat} {node : Node Name UInt8}

theorem entries_touch {body : Disk → Name → Bool → SoFar}
    (all : ∀ w name isDir, TouchesWithin (fun _ => True) w (body w name isDir).1) (fuel : Nat) :
    TouchesWithin (fun _ => True) w (entriesSoFar listing opened loc body fuel w seen retval).1 := by
  generalize run : entriesSoFar listing opened loc body fuel w seen retval = result
  obtain ⟨w', result⟩ := result
  obtain ⟨now, _, sofar, ⟨same, _⟩ | ⟨name, node, _, _, one, _⟩⟩ := entries_rule
    (P := fun now _ => TouchesWithin (fun _ => True) w now) (by
      intro now seen name node next r sofar _ _ one
      have further := all now name (isDirNode node)
      rw [one] at further
      exact touches_trans sofar further) fuel (touches_refl w) run
  · exact same ▸ sofar
  · have further := all now name (isDirNode node)
    rw [one] at further
    exact touches_trans sofar further

theorem so_far_touch (fuel : Nat) (w : Disk) (source topdest dest : DiskPath) (destIsDir : Bool)
    (depth : Depth) : TouchesWithin (fun _ => True) w
      (copySoFar listing fuel w source topdest dest destIsDir depth).1 := by
  induction fuel generalizing w source dest destIsDir with
  | zero => exact touches_refl w
  | succ fuel ih =>
    have making : TouchesWithin (fun _ => True) w (made w dest destIsDir) :=
      made_touches.mpr fun _ _ _ _ => trivial
    generalize run : copySoFar listing (fuel + 1) w source topdest dest destIsDir depth = result
    obtain ⟨w', result⟩ := result
    rcases so_far_steps run with same | ⟨_, _, same⟩ | ⟨content, name, _, same⟩ | ⟨_, _, _, _, _, _, loop⟩
    · exact touches_same (congrArg World.touched same)
    · exact same ▸ making
    · exact same ▸ touches_trans making (copy_file_touches.mpr fun _ _ _ _ _ _ _ => ⟨trivial, trivial⟩)
    · refine touches_trans making ?_
      have each (now : Disk) (name : Name) (isDir : Bool) : TouchesWithin (fun _ => True) now
          (copyEntry listing fuel source topdest dest depth now name isDir).1 := ih now _ _ isDir
      exact loop ▸ entries_touch each fuel

theorem ended_touches {source topdest dest : DiskPath} {destIsDir : Bool} {depth : Depth}
    {r : Except FsError Unit}
    (ended : Ends (fun fuel => doCopy listing fuel w source topdest dest destIsDir depth) (now, r)) :
    TouchesWithin (fun _ => True) w now := by
  obtain ⟨enough, run⟩ := ended
  have done := run enough (Nat.le_refl enough)
  dsimp only at done
  rw [do_copy_ended, ended_iff] at done
  have sofar := @so_far_touch listing enough w source topdest dest destIsDir depth
  rwa [done] at sofar

/-- The place is touched on the way from one disk to another. -/
def Reaches (place : List Name) (w w' : Disk) : Prop :=
  ∃ places, w'.touched = w.touched ++ places ∧ place ∈ places

theorem reaches_then {w' : Disk} (first : Reaches place w now)
    (later : TouchesWithin (fun _ => True) now w') : Reaches place w w' := by
  obtain ⟨places, touched, member⟩ := first
  obtain ⟨places', touched', _⟩ := later
  exact ⟨places ++ places', by rw [touched', touched, List.append_assoc], List.mem_append_left _ member⟩

theorem then_reaches {w' : Disk} (first : TouchesWithin (fun _ => True) w now)
    (later : Reaches place now w') : Reaches place w w' := by
  obtain ⟨places, touched, _⟩ := first
  obtain ⟨places', touched', member⟩ := later
  exact ⟨places ++ places', by rw [touched', touched, List.append_assoc], List.mem_append_right _ member⟩

theorem reaches_inside {inside : List Name → Prop} {w' : Disk} (reaches : Reaches place w w')
    (within : TouchesWithin inside w w') : inside place := by
  obtain ⟨places, touched, member⟩ := reaches
  exact (touches_iff touched).mp within place member

/-- What an entry touches is touched by the loop that comes to it. -/
theorem entry_reaches {body : Disk → Name → Bool → SoFar}
    (all : ∀ w name isDir, TouchesWithin (fun _ => True) w (body w name isDir).1)
    (next : listing.next opened now.tree loc seen = some m) (entry : now.tree.get (loc ++ [m]) = some node)
    (reached : Reaches place now (body now m (isDirNode node)).1) :
    Reaches place now (entriesSoFar listing opened loc body (fuel + 1) now seen retval).1 := by
  unfold entriesSoFar
  rw [next]
  dsimp only
  rw [entry]
  dsimp only
  revert reached
  generalize body now m (isDirNode node) = one
  obtain ⟨w₁, outcome⟩ := one
  intro reached
  rcases outcome with _ | _ | _
  · exact reached
  · exact reaches_then reached (entries_touch all fuel)
  · exact reaches_then reached (entries_touch all fuel)

/-- A loop in which every entry ends that is listed before `m` comes to `m`. -/
theorem entries_reach {body : Nat → Disk → Name → Bool → SoFar} {P : Disk → List Name → Prop}
    (listed : ∀ now seen, P now seen → m ∉ seen → ∃ name ∈ names,
      listing.next opened now.tree loc seen = some name)
    (step : ∀ now seen name, P now seen → m ∉ seen → name ≠ m →
      listing.next opened now.tree loc seen = some name →
      ∃ node next r, now.tree.get (loc ++ [name]) = some node ∧
        Ends (fun fuel => (body fuel now name (isDirNode node)).ended) (next, r) ∧ P next (seen ++ [name]))
    (start : P w seen) (new : m ∉ seen) (once : seen.Nodup) (inside : seen ⊆ names) :
    ∃ now seen' retval', P now seen' ∧ m ∉ seen' ∧ listing.next opened now.tree loc seen' = some m ∧
      ∃ enough, ∀ depth fuel, enough ≤ depth → enough ≤ fuel → ∃ rest, fuel ≤ rest + enough ∧
        entriesSoFar listing opened loc (body depth) fuel w seen retval =
          entriesSoFar listing opened loc (body depth) rest now seen' retval' := by
  obtain ⟨left, width⟩ : ∃ left, names.length = seen.length + left :=
    ⟨names.length - seen.length, by have := once.length_le_of_subset inside; omega⟩
  induction left using Nat.strongRecOn generalizing w seen retval with
  | ind left ih =>
    obtain ⟨name, member, next⟩ := listed w seen start new
    by_cases here : name = m
    · subst here
      exact ⟨w, seen, retval, start, new, next, 0, fun depth fuel _ _ => ⟨fuel, Nat.le_refl fuel, rfl⟩⟩
    · obtain ⟨node, w₁, r, entry, ⟨enough₁, ended⟩, start₁⟩ := step w seen name start new here next
      obtain ⟨once', inside'⟩ := listed_once once inside (listing.fresh _ _ _ _ _ next) member
      have short := once'.length_le_of_subset inside'
      rw [List.length_append, List.length_singleton] at short
      have new' : m ∉ seen ++ [name] := by simp [new, Ne.symm here]
      obtain ⟨now, seen', retval', good, unseen, last, enough, later⟩ := @ih (left - 1) (by omega)
        (seen ++ [name]) w₁ (keepError retval r) start₁ new' once' inside' (by
          rw [List.length_append, List.length_singleton]
          omega)
      refine ⟨now, seen', retval', good, unseen, last, max enough₁ enough + 1, ?_⟩
      intro depth fuel deep plenty
      obtain ⟨fuel, rfl⟩ : ∃ rest, fuel = rest + 1 := ⟨fuel - 1, by omega⟩
      obtain ⟨rest, within, same⟩ := later depth fuel (by omega) (by omega)
      refine ⟨rest, by omega, ?_⟩
      have one : body depth w name (isDirNode node) = (w₁, some r) :=
        ended_iff.mp (ended depth (by omega))
      rw [← same]
      conv => lhs; unfold entriesSoFar
      rw [next]
      dsimp only
      rw [entry]
      dsimp only
      rw [one]
      cases r <;> rfl

end Loop

section Links
variable {listing : DiskListing} {w₀ w now : Disk} {path dest : DiskPath} {depth : Depth}
  {s d names front seen loc : List Name} {n m : Name} {content : List UInt8}

/-- What a path leads to outside of the copy it leads to as well when more directories of the copy are
    there. -/
theorem lookup_laid (grown : Grown d w₀ w) (grown' : Grown d w₀ now)
    (dirs : ∀ x, w.tree.isDir (d ++ x) = true → now.tree.isDir (d ++ x) = true)
    (leads : w.lookup true path = .ok loc) (file : w.tree.get loc = some (.file content))
    (outside : ¬ d <+: loc) :
    now.lookup true path = .ok loc ∧ now.tree.get loc = some (.file content) := by
  have beside {place : List Name} (out : ¬ d <+: place) : now.tree.get place = w.tree.get place :=
    (grown'.outside place out).trans (grown.outside place out).symm
  obtain ⟨some_left, route, slash⟩ := lookup_route_iff.mp leads
  have full : now.fullSteps path = w.fullSteps path := by
    unfold fullSteps
    rw [grown'.cwd, grown.cwd]
  refine ⟨lookup_route_iff.mpr ⟨some_left, full ▸ route_moved ?_ ?_ ?_ route, fun slashed => ?_⟩,
    (beside outside).trans file⟩
  · intro place dir
    by_cases inner : d <+: place
    · obtain ⟨x, rfl⟩ := inner
      exact is_dir_iff.mp (dirs x (is_dir_iff.mpr dir))
    · exact (beside inner).trans dir
  · intro place target link
    by_cases inner : d <+: place
    · exact absurd ⟨target, link⟩ (grown.plain place inner)
    · exact (beside inner).trans link
  · intro place linked
    by_cases inner : d <+: place
    · exact absurd linked (grown'.plain place inner)
    · obtain ⟨target, link⟩ := linked
      exact ⟨target, (beside inner).symm.trans link⟩
  · rw [file_not_dir file] at slash
    cases slash slashed

theorem link_reaches {source topdest : DiskPath} {e : List Name} {fuel : Nat}
    (different : samePath source topdest = false) (leads : w.lookup true source = .ok loc)
    (file : w.tree.get loc = some (.file content)) (place : w.lookup true dest = .ok e)
    (dir : w.tree.isDir e = true) (missing : w.tree.get (e ++ [n]) = none)
    (legal : FileName.legal n = true) :
    Reaches loc w (copySoFar listing (fuel + 1) w source topdest (child dest n) false depth).1 := by
  have node : w.metadata source = .ok (.file content) := stat_ok_iff.mpr ⟨loc, leads, file⟩
  have target : w.lookup true (child dest n) = .ok (e ++ [n]) :=
    entry_lookup (child_entry place dir n) rfl (.inr (not_linked_missing missing))
  obtain ⟨_, _, touched⟩ := copy_file_done leads file ⟨rfl, target, dir, legal, missing_not_dir missing⟩
  have copied : (copySoFar listing (fuel + 1) w source topdest (child dest n) false depth).1 =
      (w.copyFile source (child dest n)).1 := by
    unfold copySoFar
    rw [if_neg (by simp [different]), node]
    rfl
  rw [copied]
  exact ⟨_, touched, by simp⟩

theorem link_beyond {rest : List Name} (missing : w₀.tree.get d = none)
    (linked : Linked w₀.tree (s ++ names ++ [n])) (whole : front ++ m :: rest = names ++ [n]) :
    ¬ d <+: s ++ front ∧ w₀.tree.get (s ++ front ++ [m]) ≠ none := by
  obtain ⟨target, link⟩ := linked
  rw [List.append_assoc, ← whole, ← List.append_assoc] at link
  have upper : w₀.tree.get (s ++ front) = some .dir := above_is_dir _ (List.cons_ne_nil m rest) link
  constructor
  · intro within
    rw [beyond_missing missing within] at upper
    cases upper
  · intro gone
    have below := below_missing w₀.tree gone rest
    rw [List.append_assoc (s ++ front), List.singleton_append, link] at below
    cases below

/-- When the entry on the way to the link is listed, all is there that can be copied before it. -/
theorem next_copied {rest : List Name} (favours : Favours listing (Skips path dest s d) s d (names ++ [n]))
    (whole : front ++ m :: rest = names ++ [n]) (call : TreeCall w₀ path dest s d front w)
    (opened : (made w (descend dest front) true).tree.get (s ++ front ++ [m]) ≠ none)
    (before : ∀ x, CopiedBefore w₀ path dest s d names x → ¬ front <+: x →
      w.tree.isDir (d ++ x) = true)
    (filling : Filling w₀ path dest s d front w now seen) (new : m ∉ seen)
    (all : ∀ k ∈ seen, DirsCopied w₀ s d (front ++ [k]) now)
    (next : listing.next (made w (descend dest front) true).tree now.tree (s ++ front) seen = some m)
    {x : List Name} (copied : CopiedBefore w₀ path dest s d names x) (aside : ¬ front ++ [m] <+: x) :
    now.tree.isDir (d ++ x) = true := by
  by_cases inner : front <+: x
  · obtain ⟨later, rfl⟩ := inner
    cases later with
    | nil =>
      rw [List.append_nil]
      exact filling.here
    | cons k later =>
      have below : front ++ [k] <+: front ++ k :: later := ⟨later, by simp⟩
      have other : k ≠ m := fun same => aside (same ▸ below)
      have k_dir := dir_upper copied.1 ((List.prefix_append_right_inj s).mpr below)
      rw [← List.append_assoc] at k_dir
      have k_there := (tree_call_started call).1.copying.grown.more.dir _
        (call.grown.more.dir _ (is_dir_iff.mp k_dir))
      have first : Skips path dest s d ∨ ¬ s ++ front ++ [k] <+: d := by
        refine copied.2.imp_right fun routes toward => ?_
        rw [List.append_assoc] at toward
        have on_the_way := (routes _ toward below).trans (List.prefix_append names [n])
        rw [← whole, List.prefix_append_right_inj, List.singleton_prefix_cons_iff] at on_the_way
        exact other on_the_way
      have listed := (favours _ _ front m rest seen m whole new opened next).2 rfl k
        (by rw [k_there]; exact Option.some_ne_none _) other first
      exact all k listed _ below copied.1
  · exact is_dir_iff.mpr (filling.copying.grown.more.dir _ (is_dir_iff.mp (before x copied inner)))

/-- A directory on the way to a link comes to its next entry with all that can be copied before it. -/
theorem front_reached {rest : List Name} (deep : depth ≠ .zero) (missing : w₀.tree.get d = none)
    (favours : Favours listing (Skips path dest s d) s d (names ++ [n]))
    (linked : Linked w₀.tree (s ++ names ++ [n])) (whole : front ++ m :: rest = names ++ [n])
    (call : TreeCall w₀ path dest s d front w)
    (before : ∀ x, CopiedBefore w₀ path dest s d names x → ¬ front <+: x →
      w.tree.isDir (d ++ x) = true)
    (entered : ∀ now seen node, Filling w₀ path dest s d front w now seen → m ∉ seen →
      now.tree.get (s ++ front ++ [m]) = some node →
      (∀ x, CopiedBefore w₀ path dest s d names x → ¬ front ++ [m] <+: x →
        now.tree.isDir (d ++ x) = true) →
      ∃ enough, ∀ fuel, enough ≤ fuel →
        Reaches loc now (entryCall listing fuel path dest front depth now m node).1) :
    ∃ enough, ∀ fuel, enough ≤ fuel → Reaches loc w (copySoFar listing fuel w (descend path front) dest
      (descend dest front) true depth).1 := by
  obtain ⟨away, there⟩ := link_beyond missing linked whole
  have started := (tree_call_started call).1
  obtain ⟨source, source_dir, _⟩ := filling_places call started
  have opened : (made w (descend dest front) true).tree.get (s ++ front ++ [m]) ≠ none :=
    extends_there started.copying.grown.more (extends_there call.grown.more there)
  obtain ⟨now, seen, retval, ⟨filling, all, sofar⟩, new, next, enough₁, loop⟩ := @entries_reach listing
    (made w (descend dest front) true).tree (s ++ front)
    (entries (made w (descend dest front) true).tree (s ++ front)) [] (made w (descend dest front) true)
    (.ok ()) m (fun fuel => copyEntry listing fuel (descend path front) dest (descend dest front) depth)
    (fun now seen => Filling w₀ path dest s d front w now seen ∧
      (∀ k ∈ seen, DirsCopied w₀ s d (front ++ [k]) now) ∧ TouchesWithin (fun _ => True) w now)
    (by
      intro now seen ⟨filling, _⟩ new
      cases next : listing.next (made w (descend dest front) true).tree now.tree (s ++ front) seen with
      | none =>
        exact absurd (listing.complete _ _ _ _ m next opened (extends_there filling.kept opened)) new
      | some name =>
        refine ⟨name, mem_entries.mpr ?_, rfl⟩
        exact (listing.sound _ _ _ _ _ next).elim id (filling_opened call away filling))
    (by
      intro now seen k ⟨filling, all, sofar⟩ new other next
      have unseen := listing.fresh _ _ _ _ _ next
      have was_there := (listing.sound _ _ _ _ _ next).elim id (filling_opened call away filling)
      obtain ⟨node, entry⟩ := Option.ne_none_iff_exists'.mp (extends_there filling.kept was_there)
      have aside := (favours _ _ front m rest seen k whole new opened next).1 other
      rw [List.append_assoc] at aside
      obtain ⟨after, r, ended, here⟩ := entry_ends missing call away aside filling unseen entry
        fun further onward => tree_ends deep missing w₀.tree.height (Nat.le_add_left _ _) further onward aside
      obtain ⟨filled, all⟩ := entry_filled call filling all unseen entry ended here
      exact ⟨node, after, r, entry, by simpa only [do_copy_ended] using ended, filled, all,
        touches_trans sofar (ended_touches ended)⟩)
    ⟨started, by simp, made_touches.mpr fun _ _ _ _ => trivial⟩ List.not_mem_nil List.nodup_nil
    (List.nil_subset _)
  obtain ⟨node, entry⟩ := Option.ne_none_iff_exists'.mp (extends_there filling.kept opened)
  obtain ⟨enough₂, reached⟩ := entered now seen node filling new entry
    fun x copied aside => next_copied favours whole call opened before filling new all next copied aside
  refine ⟨max (enough₁ + 2) (enough₂ + 1), fun fuel plenty => ?_⟩
  obtain ⟨fuel, rfl⟩ : ∃ rest, fuel = rest + 1 := ⟨fuel - 1, by omega⟩
  have is_dir : w.metadata (descend path front) = .ok .dir :=
    stat_ok_iff.mpr ⟨_, call.found, is_dir_iff.mp call.dir⟩
  rw [so_far_dir (call_different call) is_dir deep source source_dir]
  obtain ⟨rest, within, same⟩ := loop fuel fuel (by omega) (by omega)
  rw [same]
  obtain ⟨rest, rfl⟩ : ∃ less, rest = less + 1 := ⟨rest - 1, by omega⟩
  exact then_reaches sofar (entry_reaches (fun w name isDir => so_far_touch fuel w _ _ _ isDir depth) next
    entry (reached fuel (by omega)))

/-- On the way to a link each directory is called with all that can be copied before it, and so is the link
    in the end. -/
theorem chain_reached (deep : depth ≠ .zero) (missing : w₀.tree.get d = none)
    (favours : Favours listing (Skips path dest s d) s d (names ++ [n]))
    (linked : Linked w₀.tree (s ++ names ++ [n]))
    (shown : ∀ now, Grown d w₀ now →
      (∀ x, CopiedBefore w₀ path dest s d names x → now.tree.isDir (d ++ x) = true) →
      now.lookup true (descend path (names ++ [n])) = .ok loc ∧ now.tree.get loc = some (.file content))
    {rest front : List Name} {m : Name} {w : Disk} (whole : front ++ m :: rest = names ++ [n])
    (call : TreeCall w₀ path dest s d front w)
    (before : ∀ x, CopiedBefore w₀ path dest s d names x → ¬ front <+: x →
      w.tree.isDir (d ++ x) = true) :
    ∃ enough, ∀ fuel, enough ≤ fuel → Reaches loc w (copySoFar listing fuel w (descend path front) dest
      (descend dest front) true depth).1 := by
  induction rest generalizing front m w with
  | nil =>
    obtain ⟨rfl, same⟩ := List.append_inj' whole rfl
    cases same
    refine front_reached deep missing favours linked whole call before ?_
    intro now seen node filling unseen entry copied
    obtain ⟨target, link⟩ := linked
    obtain ⟨source, source_dir, place⟩ := filling_places call filling
    have grown := grown_trans call.grown (List.prefix_append d front) filling.copying.grown
    obtain ⟨leads, file⟩ := shown now grown fun x first => copied x first fun inner => by
      have dir := dir_upper first.1 ((List.prefix_append_right_inj s).mpr inner)
      rw [is_dir_iff, ← List.append_assoc, link] at dir
      cases dir
    have here := grown.more.link _ target link
    rw [entry] at here
    cases here
    have different : samePath (child (descend path front) n) dest = false := by
      by_contra same
      obtain ⟨p, k, top, named⟩ := call.top
      obtain ⟨rfl, rfl⟩ := same_path_entry (Bool.not_eq_false _ ▸ same) (child_entry source source_dir n)
        (entry_extends filling.copying.grown.cwd filling.copying.grown.more named)
      rw [top, missing] at link
      cases link
    refine ⟨1, fun fuel plenty => ?_⟩
    obtain ⟨fuel, rfl⟩ : ∃ rest, fuel = rest + 1 := ⟨fuel - 1, by omega⟩
    rw [descend_concat] at leads
    exact link_reaches different leads file place filling.here (filling.vacant n unseen)
      (now.tree.named _ _ _ entry)
  | cons k rest ih =>
    refine front_reached deep missing favours linked whole call before ?_
    intro now seen node filling unseen entry copied
    obtain ⟨target, link⟩ := linked
    rw [List.append_assoc, ← whole, ← List.singleton_append, ← List.append_assoc front,
      ← List.append_assoc] at link
    have dir : w₀.tree.get (s ++ (front ++ [m])) = some .dir :=
      above_is_dir _ (List.cons_ne_nil k rest) link
    have here := call.grown.more.dir _ dir
    rw [← List.append_assoc] at here
    have now_dir := filling.copying.grown.more.dir _ here
    rw [entry] at now_dir
    cases now_dir
    rcases tree_child call filling unseen entry with ⟨_, same, _⟩ | further
    · rw [same, dir] at missing
      cases missing
    · obtain ⟨enough, reached⟩ := ih (by simpa using whole) further copied
      rw [descend_concat, descend_concat] at reached
      exact ⟨enough, reached⟩

/-- A file that a link of the source leads to is touched, if the directories that stand on the way to it can
    be there when the copy comes to the link. -/
theorem link_reached (deep : depth ≠ .zero) (missing : w₀.tree.get d = none)
    (call : TreeCall w₀ path dest s d [] w) {later : Disk} (grown : Grown d w₀ later)
    (laid : Laid w₀ path dest s d names later) (linked : Linked w₀.tree (s ++ names ++ [n]))
    (leads : later.lookup true (descend path (names ++ [n])) = .ok loc)
    (file : later.tree.get loc = some (.file content)) (outside : ¬ d <+: loc) :
    ∃ listing fuel, Reaches loc w (copySoFar listing fuel w path dest dest true depth).1 := by
  obtain ⟨listing, favours⟩ := favouring_listing (Skips path dest s d) s d (names ++ [n])
  obtain ⟨m, rest, whole⟩ : ∃ m rest, m :: rest = names ++ [n] := by
    cases names with
    | nil => exact ⟨n, [], rfl⟩
    | cons m rest => exact ⟨m, rest ++ [n], rfl⟩
  obtain ⟨enough, reached⟩ := chain_reached deep missing favours linked
    (fun now grown' copied =>
      lookup_laid grown grown' (fun x dir => copied x (laid x dir)) leads file outside)
    (show [] ++ m :: rest = names ++ [n] from whole) call fun x _ other => absurd List.nil_prefix other
  exact ⟨listing, enough, reached enough (Nat.le_refl enough)⟩

end Links
end VestibuleCopyMove
