import Vestibule.CopyPlans

/-!
The recursion of `do_copy` where nothing is in the way: every entry of the source turns up at the
destination with its kind and its bytes. The destination may lie in the source, as long as it is
met there under its own spelling and skipped.
-/
namespace VestibuleCopyMove
open VestibuleRust LexicalMotion FileTree FileCalls World VestibulePaths PlainLookups PlainCalls

def descend (path : DiskPath) (rest : List Name) : DiskPath := rest.foldl child path

section Descend
variable {w : Disk} {path : DiskPath}

theorem descend_concat (path : DiskPath) (rest : List Name) (n : Name) :
    descend path (rest ++ [n]) = child (descend path rest) n := by
  unfold descend
  rw [List.foldl_append]
  rfl

theorem descend_place (rest : List Name) :
    placeOf w (descend path rest) = placeOf w path ++ rest := by
  induction rest using List.reverseRecOn with
  | nil => exact (List.append_nil _).symm
  | append_singleton rest n ih =>
    rw [descend_concat, child_place, ih, List.append_assoc]

theorem child_lookup (free : w.tree.LinkFree) {loc : List Name} {n : Name} {follow : Bool}
    (found : w.lookup true path = .ok loc) (dir : w.tree.isDir loc = true) :
    w.lookup follow (child path n) = .ok (loc ++ [n]) := by
  have leads := ((lookup_ok_iff free).mp found).2.1
  apply (lookup_ok_iff free).mpr
  refine ⟨?_, child_leads.mpr ⟨loc, leads, dir, rfl⟩, ?_⟩
  · simp [isBlank, child]
  · intro ends
    cases ends

end Descend

/-- A copy from `s` to a place `d` that is missing. Inside the source, `d` is spelled as it is in
    `dest`. -/
structure Fresh (base : Disk) (path dest : DiskPath) (s d : List Name) : Prop where
  free : base.tree.LinkFree
  source : placeOf base path = s
  target : placeOf base dest = d
  missing : base.tree.get d = none
  spelled : ∀ m, s ++ m = d → samePath (descend path m) dest = true

structure Facing (base w : Disk) (path dest : DiskPath) (s d m : List Name)
    (node : Node Name UInt8) : Prop where
  within : Within d base w
  found : w.lookup true (descend path m) = .ok (s ++ m)
  outside : ¬ d <+: s ++ m
  kind : base.tree.get (s ++ m) = some node
  makes : ∃ q n, q ++ [n] = d ++ m ∧ Makeable w (descend dest m) q n
  plain : node = .dir ∨ (descend dest m).slash = false

section Exact
variable {listing : DiskListing} {base w w' : Disk} {path dest : DiskPath} {s d m : List Name}
  {node : Node Name UInt8} {result : Except FsError Unit}

theorem facing_different (fresh : Fresh base path dest s d)
    (facing : Facing base w path dest s d m node) : samePath (descend path m) dest = false := by
  cases same : samePath (descend path m) dest with
  | false => rfl
  | true =>
    have place := same_path_place (w := base) same
    rw [descend_place, fresh.source, fresh.target] at place
    exact absurd (place ▸ List.prefix_rfl) facing.outside

theorem facing_node (facing : Facing base w path dest s d m node) :
    w.tree.get (s ++ m) = some node := by
  rw [facing.within.outside _ facing.outside]
  exact facing.kind

theorem within_place {place : List Name} (within : Within d base w) {path : DiskPath}
    (target : placeOf base path = place) : placeOf w path = place := by
  rw [place_same _ within.cwd, target]

theorem copy_exact_file {fuel : Nat} {content : List UInt8} (fresh : Fresh base path dest s d)
    (facing : Facing base w path dest s d m (.file content))
    (run : doCopy listing (fuel + 1) w (descend path m) dest (descend dest m) false .infinity =
      some (w', result)) :
    result = .ok () ∧ ∀ x, w'.tree.get (d ++ m ++ x) = base.tree.get (s ++ m ++ x) := by
  have free := facing.within.free fresh.free
  have node := facing_node facing
  obtain ⟨p, name, whole, _, _⟩ := file_name_leads free facing.found node
  rw [do_copy_file free (facing_different fresh facing) facing.found whole node] at run
  obtain ⟨q, n, place, makes⟩ := facing.makes
  have plain : (descend dest m).slash = false := by
    rcases facing.plain with dir | plain
    · cases dir
    · exact plain
  have opens : Opens w (descend dest m) q n :=
    ⟨plain, makes.enters, missing_not_dir makes.missing, makes.legal⟩
  obtain ⟨ok, puts⟩ := copy_file_copies free facing.found node opens
  have copied := Option.some.inj run
  simp only [made, fileTarget, Bool.false_eq_true, ↓reduceIte] at copied
  rw [copied] at ok puts
  refine ⟨ok, fun x => ?_⟩
  have apart : s ++ m ≠ q ++ [n] := by
    intro same
    apply facing.outside
    rw [same, place]
    exact List.prefix_append _ _
  rw [puts.get, ← place]
  by_cases bare : x = []
  · subst bare
    rw [List.append_nil, List.append_nil, if_pos rfl, if_neg apart, facing.kind]
  · rw [if_neg (by simpa using bare), below_missing w.tree makes.missing x,
      below_file base.tree bare facing.kind (by simp)]

/-- A directory of the source, open, and the directory that has been made for it. -/
structure Opened (base w : Disk) (path dest : DiskPath) (s d m : List Name) : Prop where
  within : Within d base w
  found : w.lookup true (descend path m) = .ok (s ++ m)
  outside : ¬ d <+: s ++ m
  dir : base.tree.get (s ++ m) = some .dir
  leads : Leads w (descend dest m) (d ++ m)
  made : w.tree.isDir (d ++ m) = true

structure Mirrored (base opened w : Disk) (s d m seen : List Name)
    (retval : Except FsError Unit) : Prop where
  within : Within (d ++ m) opened w
  fine : retval = .ok ()
  copied : ∀ n x, n ∈ seen → w.tree.get (d ++ m ++ [n] ++ x) = base.tree.get (s ++ m ++ [n] ++ x)
  untouched : ∀ n x, n ∉ seen → w.tree.get (d ++ m ++ [n] ++ x) = none

theorem entry_outside {n : Name} (outside : ¬ d <+: s ++ m) (apart : s ++ m ++ [n] ≠ d) :
    ¬ d <+: s ++ m ++ [n] := by
  intro inside
  rcases List.prefix_concat_iff.mp inside with same | up
  · exact apart same.symm
  · exact outside up

theorem sibling_outside {top : List Name} {n n' : Name} (x : List Name) (apart : n' ≠ n) :
    ¬ top ++ [n] <+: top ++ [n'] ++ x := by
  intro inside
  rw [List.append_assoc, List.prefix_append_right_inj] at inside
  obtain ⟨tail, whole⟩ := inside
  simp at whole
  exact apart whole.1.symm

theorem opened_facing {opened now : Disk} {seen : List Name} {retval : Except FsError Unit}
    {n : Name} (fresh : Fresh base path dest s d) (opens : Opened base opened path dest s d m)
    (mirrored : Mirrored base opened now s d m seen retval) (new : n ∉ seen)
    (found : now.tree.get (s ++ m ++ [n]) = some node) (apart : s ++ m ++ [n] ≠ d) :
    Facing base now path dest s d (m ++ [n]) node := by
  have within : Within d base now :=
    within_trans opens.within (within_mono (List.prefix_append _ _) mirrored.within)
  have free := within.free fresh.free
  have outside := entry_outside opens.outside apart
  have source := lookup_grows (opens.within.free fresh.free) mirrored.within opens.found
  have target := leads_grows mirrored.within.cwd mirrored.within.dirs opens.leads
  have madeStill := mirrored.within.dirs _ opens.made
  have dirStill : now.tree.isDir (s ++ m) = true := by
    rw [is_dir_iff, within.outside _ opens.outside]
    exact opens.dir
  rw [within.outside _ outside] at found
  constructor
  · exact within
  · rw [descend_concat, ← List.append_assoc]
    exact child_lookup free source dirStill
  · rwa [← List.append_assoc]
  · rwa [← List.append_assoc]
  · refine ⟨d ++ m, n, List.append_assoc _ _ _, ?_⟩
    rw [descend_concat]
    constructor
    · exact child_enters target madeStill
    · have missing := mirrored.untouched n [] new
      rwa [List.append_nil] at missing
    · exact base.tree.named _ n node found
  · right
    rw [descend_concat]
    rfl

theorem mirrored_step {fuel : Nat} {opened now : Disk} {seen : List Name}
    {retval r : Except FsError Unit} {n : Name} (fresh : Fresh base path dest s d)
    (exact_below : ∀ {w w' : Disk} {m : List Name} {node : Node Name UInt8}
      {result : Except FsError Unit}, Facing base w path dest s d m node →
      doCopy listing fuel w (descend path m) dest (descend dest m) (isDirNode node) .infinity =
        some (w', result) →
      result = .ok () ∧ ∀ x, w'.tree.get (d ++ m ++ x) = base.tree.get (s ++ m ++ x))
    (opens : Opened base opened path dest s d m)
    (mirrored : Mirrored base opened now s d m seen retval) (new : n ∉ seen)
    (found : now.tree.get (s ++ m ++ [n]) = some node)
    (run : doCopy listing fuel now (child (descend path m) n) dest (child (descend dest m) n)
      (isDirNode node) .infinity = some (w', r)) :
    Mirrored base opened w' s d m (seen ++ [n]) (keepError retval r) := by
  by_cases apart : s ++ m ++ [n] = d
  · -- the destination is skipped, and there was nothing
    have same := fresh.spelled (m ++ [n]) (by rwa [← List.append_assoc])
    rw [descend_concat] at same
    have skips : w' = now ∧ r = .ok () := by
      cases fuel with
      | zero => cases run
      | succ fuel =>
        unfold doCopy at run
        rw [if_pos same] at run
        cases run
        exact ⟨rfl, rfl⟩
    obtain ⟨still, fine⟩ := skips
    subst still
    subst fine
    constructor
    · exact mirrored.within
    · exact mirrored.fine
    · intro n' x listed
      rcases List.mem_append.mp listed with old | last
      · exact mirrored.copied n' x old
      · cases List.mem_singleton.mp last
        rw [mirrored.untouched n x new, apart, below_missing base.tree fresh.missing]
    · intro n' x other
      exact mirrored.untouched n' x fun old => other (List.mem_append_left _ old)
  · have facing := opened_facing fresh opens mirrored new found apart
    rw [← descend_concat, ← descend_concat] at run
    obtain ⟨fine, copied⟩ := exact_below facing run
    subst fine
    have changed := do_copy_within (facing.within.free fresh.free) run
    rw [descend_place, within_place facing.within fresh.target, ← List.append_assoc] at changed
    constructor
    · exact within_trans mirrored.within (within_mono (List.prefix_append _ _) changed)
    · exact mirrored.fine
    · intro n' x listed
      by_cases same : n' = n
      · subst same
        have now_there := copied x
        rwa [← List.append_assoc, ← List.append_assoc] at now_there
      · rw [changed.outside _ (sibling_outside x same)]
        rcases List.mem_append.mp listed with old | last
        · exact mirrored.copied n' x old
        · exact absurd (List.mem_singleton.mp last) same
    · intro n' x other
      have same : n' ≠ n := by
        intro same
        exact other (List.mem_append_right _ (same ▸ List.mem_singleton_self n))
      rw [changed.outside _ (sibling_outside x same)]
      exact mirrored.untouched n' x fun old => other (List.mem_append_left _ old)

theorem facing_opened (fresh : Fresh base path dest s d)
    (facing : Facing base w path dest s d m .dir) :
    Opened base (made w (descend dest m) true) path dest s d m ∧
      ∀ retval, retval = .ok () → Mirrored base (made w (descend dest m) true)
        (made w (descend dest m) true) s d m [] retval := by
  have free := facing.within.free fresh.free
  obtain ⟨q, n, place, makes⟩ := facing.makes
  obtain ⟨_, puts⟩ := create_dir_makes free makes
  have target : placeOf w (descend dest m) = d ++ m := by
    rw [descend_place, within_place facing.within fresh.target]
  have grows := made_within free (descend dest m) true
  rw [target] at grows
  have leads := leads_grows grows.cwd grows.dirs (enters_leads makes.enters)
  change Puts w (made w (descend dest m) true) (q ++ [n]) .dir at puts
  rw [place] at puts leads
  constructor
  · constructor
    · exact within_trans facing.within (within_mono (List.prefix_append _ _) grows)
    · exact lookup_grows free grows facing.found
    · exact facing.outside
    · exact facing.kind
    · exact leads
    · rw [is_dir_iff, puts.get, if_pos rfl]
  · intro retval fine
    constructor
    · exact within_refl _ _
    · exact fine
    · intro n' x listed
      cases listed
    · intro n' x _
      rw [puts.get, if_neg (by simp), ← place, List.append_assoc _ [n'],
        below_missing w.tree makes.missing]

theorem unseen_missing {opened now : Disk} {seen : List Name} {retval : Except FsError Unit}
    {n : Name} (fresh : Fresh base path dest s d) (opens : Opened base opened path dest s d m)
    (mirrored : Mirrored base opened now s d m seen retval)
    (unseen : opened.tree.get (s ++ m ++ [n]) = none ∨ now.tree.get (s ++ m ++ [n]) = none) :
    base.tree.get (s ++ m ++ [n]) = none := by
  by_cases apart : s ++ m ++ [n] = d
  · rw [apart]
    exact fresh.missing
  · have outside := entry_outside opens.outside apart
    rw [← opens.within.outside _ outside]
    rcases unseen with before | after
    · exact before
    · rwa [← mirrored.within.outside _ fun inside => outside
        ((List.prefix_append _ _).trans inside)]

/-- Every run of `do_copy` for a part of the source that is still to be copied copies it. -/
theorem copy_exact (fuel : Nat) (fresh : Fresh base path dest s d)
    (facing : Facing base w path dest s d m node)
    (run : doCopy listing fuel w (descend path m) dest (descend dest m) (isDirNode node) .infinity =
      some (w', result)) :
    result = .ok () ∧ ∀ x, w'.tree.get (d ++ m ++ x) = base.tree.get (s ++ m ++ x) := by
  induction fuel generalizing w w' m node result with
  | zero => cases run
  | succ fuel ih =>
    have free := facing.within.free fresh.free
    cases node with
    | link target => exact absurd facing.kind (fresh.free _ target)
    | file content => exact copy_exact_file fresh facing run
    | dir =>
      obtain ⟨opens, start⟩ := facing_opened fresh facing
      change doCopy listing (fuel + 1) w (descend path m) dest (descend dest m) true .infinity = _
        at run
      rw [do_copy_dir free (facing_different fresh facing) facing.found
        (is_dir_iff.mpr (facing_node facing)), if_neg (by decide)] at run
      generalize made w (descend dest m) true = opened at opens start run
      obtain ⟨seen, retval, mirrored, finish⟩ := copy_entries_rule
        (P := fun now seen retval => Mirrored base opened now s d m seen retval) (by
          intro now seen retval name node' next r sofar listed found one
          exact mirrored_step fresh ih opens sofar (listing.fresh _ _ _ _ _ listed) found one)
        fuel (start _ rfl) run
      rcases finish with ⟨done, same⟩ | ⟨name, e, listed, gone, _⟩
      · refine ⟨same.trans mirrored.fine, ?_⟩
        intro x
        cases x with
        | nil =>
          rw [List.append_nil, List.append_nil, opens.dir, ← is_dir_iff]
          exact mirrored.within.dirs _ opens.made
        | cons n x =>
          rw [← List.singleton_append, ← List.append_assoc, ← List.append_assoc]
          by_cases listed : n ∈ seen
          · exact mirrored.copied n x listed
          · rw [mirrored.untouched n x listed]
            symm
            apply below_missing
            apply unseen_missing fresh opens mirrored
            by_contra both
            rw [not_or] at both
            exact listed (listing.complete _ _ _ _ n done both.1 both.2)
      · -- an entry that is reported does not go away
        exfalso
        rcases listing.sound _ _ _ _ _ listed with before | after
        · by_cases apart : s ++ m ++ [name] = d
          · have dir : w'.tree.isDir (d ++ m) = true := mirrored.within.dirs _ opens.made
            have top : w'.tree.get d ≠ none := by
              intro missing
              have below := below_missing w'.tree missing m
              rw [is_dir_iff.mp dir] at below
              cases below
            rw [apart] at gone
            exact top gone
          · have outside := entry_outside opens.outside apart
            rw [mirrored.within.outside _ fun inside => outside
              ((List.prefix_append _ _).trans inside)] at gone
            exact before gone
        · exact after gone

end Exact

section Answers
variable {listing : DiskListing} {base w w' : Disk} {path dest : DiskPath} {s d m : List Name}

theorem listed_once {names seen : List Name} {name : Name} (once : seen.Nodup) (listed : seen ⊆ names)
    (new : name ∉ seen) (member : name ∈ names) :
    (seen ++ [name]).Nodup ∧ seen ++ [name] ⊆ names := by
  constructor
  · rw [List.nodup_append]
    refine ⟨once, List.nodup_singleton name, ?_⟩
    intro old member last same
    cases List.mem_singleton.mp same
    intro alike
    exact new (alike ▸ member)
  · intro n member
    rcases List.mem_append.mp member with old | last
    · exact listed old
    · cases List.mem_singleton.mp last
      assumption

theorem copy_entries_answers {opened : DiskTree} {loc names : List Name}
    {body : Disk → Name → Bool → Option (Disk × Except FsError Unit)} {P : Disk → Prop}
    (bound : ∀ w seen name, P w → listing.next opened w.tree loc seen = some name → name ∈ names)
    (answers : ∀ w name node, P w → w.tree.get (loc ++ [name]) = some node →
      ∃ w' r, body w name (isDirNode node) = some (w', r) ∧ P w')
    (fuel : Nat) {seen : List Name} {retval : Except FsError Unit} (start : P w)
    (once : seen.Nodup) (listed : seen ⊆ names) (enough : names.length < fuel + seen.length) :
    (copyEntries listing opened loc body fuel w seen retval).isSome = true := by
  induction fuel generalizing w seen retval with
  | zero =>
    have width := once.length_le_of_subset listed
    omega
  | succ fuel ih =>
    unfold copyEntries
    split
    · rfl
    · rename_i name next
      split
      · rfl
      · rename_i node found
        obtain ⟨w', r, answered, still⟩ := answers w name node start found
        obtain ⟨once', listed'⟩ := listed_once once listed (listing.fresh _ _ _ _ _ next)
          (bound w seen name start next)
        have enough' : names.length < fuel + (seen ++ [name]).length := by
          rw [List.length_append, List.length_singleton]
          omega
        rw [answered]
        cases r with
        | ok _ => exact ih still once' listed' enough'
        | error e => exact ih still once' listed' enough'

theorem descend_lookup (free : w.tree.LinkFree) (found : w.lookup true path = .ok s) (m : List Name)
    {node : Node Name UInt8} (here : w.tree.get (s ++ m) = some node) :
    w.lookup true (descend path m) = .ok (s ++ m) := by
  induction m using List.reverseRecOn generalizing node with
  | nil => rwa [List.append_nil]
  | append_singleton front n ih =>
    rw [← List.append_assoc] at here
    have parent := w.tree.closed _ _ _ here
    rw [descend_concat, ← List.append_assoc]
    exact child_lookup free (ih parent) (is_dir_iff.mpr parent)

/-- What does not change while the source is copied. Places that are set aside may change, and are
    skipped. -/
structure Steady (listing : DiskListing) (base : Disk) (path dest : DiskPath) (s : List Name)
    (aside : List Name → Prop) (Stable : Disk → Prop) : Prop where
  free : ∀ w, Stable w → w.tree.LinkFree
  found : ∀ w, Stable w → w.lookup true path = .ok s
  same : ∀ w m, Stable w → ¬ aside m → w.tree.get (s ++ m) = base.tree.get (s ++ m)
  made : ∀ w m isDir, Stable w → Stable (made w (descend dest m) isDir)
  kept : ∀ w w' fuel m isDir r, m ≠ [] → Stable w →
    doCopy listing fuel w (descend path m) dest (descend dest m) isDir .infinity = some (w', r) →
    Stable w'
  skipped : ∀ m n, ¬ aside m → aside (m ++ [n]) → samePath (descend path (m ++ [n])) dest = true

theorem do_copy_skips {fuel : Nat} {source : DiskPath} {destIsDir : Bool} {depth : Depth}
    (same : samePath source dest = true) {target : DiskPath} :
    doCopy listing (fuel + 1) w source dest target destIsDir depth = some (w, .ok ()) := by
  unfold doCopy
  rw [if_pos same]

theorem do_copy_answers {aside : List Name → Prop} {Stable : Disk → Prop} {names : List Name}
    (steady : Steady listing base path dest s aside Stable)
    (bound : ∀ m n, ¬ aside m → (aside (m ++ [n]) ∨ base.tree.get (s ++ m ++ [n]) ≠ none) → n ∈ names)
    (fuel : Nat) {height : Nat} {isDir : Bool} {node : Node Name UInt8} (stable : Stable w)
    (there : ¬ aside m) (here : base.tree.get (s ++ m) = some node)
    (low : ∀ x, base.tree.get (s ++ m ++ x) ≠ none → x.length ≤ height)
    (enough : height + names.length + 2 ≤ fuel) :
    (doCopy listing fuel w (descend path m) dest (descend dest m) isDir .infinity).isSome = true := by
  induction fuel generalizing w m height isDir node with
  | zero => omega
  | succ fuel ih =>
    cases same : samePath (descend path m) dest with
    | true =>
      rw [do_copy_skips same]
      rfl
    | false =>
      have free := steady.free w stable
      have now : w.tree.get (s ++ m) = some node := by
        rw [steady.same w m stable there]
        exact here
      have found := descend_lookup free (steady.found w stable) m now
      cases node with
      | link target => exact absurd now (free _ target)
      | file content =>
        obtain ⟨p, name, whole, _, _⟩ := file_name_leads free found now
        rw [do_copy_file free same found whole now]
        rfl
      | dir =>
        rw [do_copy_dir free same found (is_dir_iff.mpr now), if_neg (by decide)]
        have opened := steady.made w m isDir stable
        have listed : ∀ now seen name, Stable now →
            listing.next (made w (descend dest m) isDir).tree now.tree (s ++ m) seen = some name →
            name ∈ names := by
          intro now seen name still next
          by_cases apart : aside (m ++ [name])
          · exact bound m name there (.inl apart)
          · apply bound m name there
            right
            rw [List.append_assoc]
            rcases listing.sound _ _ _ _ _ next with before | after
            · rwa [← steady.same _ _ opened apart, ← List.append_assoc]
            · rwa [← steady.same _ _ still apart, ← List.append_assoc]
        apply copy_entries_answers listed _ fuel opened List.nodup_nil (List.nil_subset _)
        · rw [List.length_nil]
          omega
        · intro now name node' still found'
          have answered : (doCopy listing fuel now (child (descend path m) name) dest
              (child (descend dest m) name) (isDirNode node') .infinity).isSome = true := by
            rw [← descend_concat, ← descend_concat]
            by_cases apart : aside (m ++ [name])
            · obtain ⟨rest, plenty⟩ : ∃ rest, fuel = rest + 1 := ⟨fuel - 1, by omega⟩
              rw [plenty, do_copy_skips (steady.skipped m name there apart)]
              rfl
            · rw [List.append_assoc, steady.same now _ still apart] at found'
              have step : 1 ≤ height := low [name] (by
                rw [List.append_assoc, found']
                exact Option.some_ne_none _)
              have low' : ∀ x, base.tree.get (s ++ (m ++ [name]) ++ x) ≠ none →
                  x.length ≤ height - 1 := by
                intro x below
                rw [List.append_assoc, List.append_assoc] at below
                have longer := low ([name] ++ x) (by rwa [List.append_assoc])
                rw [List.length_append, List.length_singleton] at longer
                omega
              exact ih still apart found' low' (by omega)
          obtain ⟨⟨w', r⟩, run⟩ := Option.isSome_iff_exists.mp answered
          refine ⟨w', r, run, ?_⟩
          rw [← descend_concat, ← descend_concat] at run
          exact steady.kept now w' fuel (m ++ [name]) _ r (by simp) still run

/-- There is fuel enough for any tree. -/
theorem steady_answers {aside : List Name → Prop} {Stable : Disk → Prop} {extra : List Name}
    (steady : Steady listing base path dest s aside Stable) (stable : Stable base)
    (there : ¬ aside []) (bound : ∀ m n, ¬ aside m → aside (m ++ [n]) → n ∈ extra)
    {node : Node Name UInt8} (here : base.tree.get s = some node) (isDir : Bool) :
    ∃ fuel, (doCopy listing fuel base path dest dest isDir .infinity).isSome = true := by
  let names := base.tree.support.filterMap List.getLast? ++ extra
  refine ⟨base.tree.height + names.length + 2, ?_⟩
  have listed : ∀ m n, ¬ aside m → (aside (m ++ [n]) ∨ base.tree.get (s ++ m ++ [n]) ≠ none) →
      n ∈ names := by
    intro m n outside member
    apply List.mem_append.mpr
    rcases member with apart | found
    · exact .inr (bound m n outside apart)
    · obtain ⟨node', found⟩ := Option.ne_none_iff_exists'.mp found
      left
      exact List.mem_filterMap.mpr ⟨_, base.tree.finite _ _ found, List.getLast?_concat⟩
  apply do_copy_answers (m := []) steady listed _ stable there (by rwa [List.append_nil])
  · intro x below
    have short := length_le_height below
    rw [List.length_append] at short
    exact Nat.le_trans (Nat.le_add_left _ _) short
  · exact Nat.le_refl _

end Answers
end VestibuleCopyMove
