import Vestibule.DirectPaths
import Vestibule.DocumentStores
import Vestibule.TransparentEncryption

/-!
A dav as a store of documents: directories are its collections, and what a file decrypts to is its
document. One request to the dav is one request to the store.
-/
namespace VestibuleWebdav
open VestibuleRust LexicalMotion FileTree FileCalls World PlainLookups PlainCalls LinkedLookups LinkedCalls
  DirectPaths DocumentStore SealedChunks VestibulePaths VestibuleCopyMove VestibuleStreamer
  VestibuleStorage VestibuleParts VestibuleRanges

/-- A stored file reads as a content. The size of a file is a signed 64-bit number for the system. -/
def Keeps (aead : StreamAead) (key : Option Key) (stored content : Bytes) : Prop :=
  match key with
  | none => stored = content ∧ stored.length < 2 ^ 63
  | some key => Readable aead key stored ∧ plaintext aead key stored = content

/-- What is at a place, and what is in the store for it. There are no links. -/
inductive Shows (aead : StreamAead) (key : Option Key) :
    Option (Node Name UInt8) → Option (Item Bytes) → Prop where
  | missing : Shows aead key none none
  | dir : Shows aead key (some .dir) (some .collection)
  | file {stored content : Bytes} : Keeps aead key stored content →
      Shows aead key (some (.file stored)) (some (.document content))

/-- The directory of a dav is spelled from the root down; it is not the root. -/
structure Rooted (share : KeyedShare) (d : List Name) : Prop where
  directory : ∃ slash, pathOf share.directory = direct d slash
  inside : d ≠ []
  legal : Legal d
  text : validUtf8 share.directory = true

/-- The disk below `d` holds the store. The directory `d` may be missing, those above it may not. -/
structure Represents (aead : StreamAead) (key : Option Key) (d : List Name) (w : Disk)
    (s : Store Name Bytes) : Prop where
  above : w.tree.isDir d.dropLast = true
  same : ∀ names, Shows aead key (w.tree.get (d ++ names)) (s.get names)

/-- The disk now holds another store, and is as before but below `d`. -/
structure Updates (aead : StreamAead) (key : Option Key) (d : List Name) (w w' : Disk)
    (s' : Store Name Bytes) : Prop where
  represents : Represents aead key d w' s'
  elsewhere : ∀ place, ¬ d <+: place → w'.tree.get place = w.tree.get place

structure Addresses (share : KeyedShare) (d : List Name) (wanted text : Bytes) (target : Address Name) :
    Prop where
  extracted : extractText wanted share.directory = .ok (some text)
  spelled : pathOf text = direct (d ++ target.path) target.slash
  legal : Legal target.path
  utf : ∀ n ∈ target.path, validUtf8 n = true

section Parents

theorem trim_here_names (names : List Name) : trimHere (names.map .name) = names.map .name := by
  unfold trimHere
  cases same : (names.map Step.name).reverse with
  | nil => simpa using same.symm
  | cons s rest =>
    have named : s ∈ names.map Step.name := by
      rw [← List.mem_reverse, same]
      exact List.mem_cons_self
    obtain ⟨n, _, whole⟩ := List.mem_map.mp named
    have other : s ≠ .here := by
      rw [← whole]
      simp
    rw [List.dropWhile_cons_of_neg (by simpa using other), ← same, List.reverse_reverse]

theorem parent_direct (p : List Name) (n : Name) (slash : Bool) :
    VestibulePaths.parent (direct (p ++ [n]) slash) = some (direct p false) := by
  have whole := trim_here_names (p ++ [n])
  have front := trim_here_names p
  unfold VestibulePaths.parent direct
  dsimp only
  rw [whole]
  cases steps : (p ++ [n]).map Step.name with
  | nil => simp at steps
  | cons s body =>
    dsimp only
    rw [← steps, List.map_append, List.map_cons, List.map_nil, List.dropLast_concat, front]

variable {w : Disk} {p loc : List Name} {n : Name}

theorem direct_is_dir (clear : Clear w.tree loc) {slash : Bool} :
    isDir w (direct loc slash) = w.tree.isDir loc := by
  rw [Bool.eq_iff_iff, is_dir_path_iff]
  constructor
  · rintro ⟨place, led, dir⟩
    obtain ⟨same, _⟩ := (direct_lookup clear).mp led
    exact same ▸ dir
  · intro dir
    exact ⟨loc, (direct_lookup clear).mpr ⟨rfl, there_above (is_dir_iff.mp dir), fun _ => dir⟩, dir⟩

structure Ensures (w w' : Disk) (loc : List Name) : Prop where
  cwd : w'.cwd = w.cwd
  get : ∀ place, w'.tree.get place = if place <+: loc then some .dir else w.tree.get place

theorem ensures_dir (dir : w.tree.isDir loc = true) : Ensures w w loc := by
  refine ⟨rfl, fun place => ?_⟩
  by_cases upper : place <+: loc
  · obtain ⟨rest, whole⟩ := upper
    rw [if_pos ⟨rest, whole⟩]
    subst whole
    by_cases bare : rest = []
    · rw [bare, List.append_nil] at dir
      exact is_dir_iff.mp dir
    · exact above_is_dir w.tree bare (is_dir_iff.mp dir)
  · rw [if_neg upper]

theorem ensures_made {w₁ w₂ : Disk} (ready : Ensures w w₁ p) (puts : Puts w₁ w₂ (p ++ [n]) .dir) :
    Ensures w w₂ (p ++ [n]) := by
  refine ⟨puts.cwd.trans ready.cwd, fun place => ?_⟩
  rw [puts.get, ready.get]
  by_cases whole : place = p ++ [n]
  · rw [if_pos whole, if_pos (whole ▸ List.prefix_rfl)]
  · rw [if_neg whole]
    have upper : place <+: p ++ [n] ↔ place <+: p := by
      rw [List.prefix_concat_iff]
      exact or_iff_right whole
    simp only [upper]

theorem ensures_clear {w' : Disk} (clear : Clear w.tree loc) (ready : Ensures w w' p) :
    Clear w'.tree loc := by
  rintro front upper ⟨target, found⟩
  rw [ready.get] at found
  split at found
  · cases found
  · exact clear front upper ⟨target, found⟩

theorem create_all_step (fuel : Nat) (w : Disk) (loc : List Name) :
    createDirAll (fuel + 1) w (direct loc false) =
      match w.createDir (direct loc false) with
      | (w, .ok _) => (w, .ok ())
      | (w, .error .notFound) =>
        match VestibulePaths.parent (direct loc false) with
        | none => (w, .error .notFound)
        | some above =>
          match createDirAll fuel w above with
          | (w, .error e) => (w, .error e)
          | (w, .ok _) =>
            match w.createDir (direct loc false) with
            | (w, .ok _) => (w, .ok ())
            | (w, .error e) => (w, if isDir w (direct loc false) then .ok () else .error e)
      | (w, .error e) => (w, if isDir w (direct loc false) then .ok () else .error e) := by
  conv => lhs; unfold createDirAll
  exact if_neg fun bare => by cases bare.1

theorem create_all_direct {fuel : Nat} (enough : loc.length < fuel) (clear : Clear w.tree loc)
    (legal : Legal loc) :
    (Blocked w.tree loc → ∃ e, createDirAll fuel w (direct loc false) = (w, .error e)) ∧
      (¬ Blocked w.tree loc → ∃ w', createDirAll fuel w (direct loc false) = (w', .ok ()) ∧
        Ensures w w' loc) := by
  induction loc using List.reverseRecOn generalizing fuel with
  | nil =>
    have root : w.tree.isDir [] = true := is_dir_iff.mpr w.tree.root
    have done : createDirAll fuel w (direct [] false) = (w, .ok ()) := by
      obtain ⟨rest, plenty⟩ : ∃ rest, fuel = rest + 1 := ⟨fuel - 1, by omega⟩
      have taken : w.createDir (direct [] false) = (w, .error .alreadyExists) := by
        unfold World.createDir
        rw [top_entry]
      have dir : isDir w (direct [] false) = true := (direct_is_dir clear).trans root
      rw [plenty, create_all_step, taken]
      simp [dir]
    exact ⟨fun blocked => absurd blocked (dir_not_blocked root), fun _ => ⟨w, done, ensures_dir root⟩⟩
  | append_singleton p n ih =>
    obtain ⟨rest, plenty⟩ : ∃ rest, fuel = rest + 1 := ⟨fuel - 1, by omega⟩
    have front := clear_front clear (List.prefix_append p [n])
    have legal' : Legal p := fun m member => legal m (List.mem_append_left _ member)
    have named := legal n (List.mem_append_right _ (List.mem_singleton_self n))
    rw [List.length_append, List.length_singleton] at enough
    obtain ⟨fails, makes⟩ := @ih rest (by omega) front legal'
    have dir := @direct_is_dir w (p ++ [n]) clear false
    rw [plenty, create_all_step]
    cases here : w.tree.get (p ++ [n]) with
    | some node =>
      have above : w.tree.isDir p = true := is_dir_iff.mpr (w.tree.closed _ _ _ here)
      have taken := @direct_make_taken _ _ _ _ w p n false front above (by rw [here]; exact Option.some_ne_none _)
      rw [taken]
      cases node with
      | link target => exact absurd ⟨target, here⟩ (clear _ List.prefix_rfl)
      | dir =>
        have top : w.tree.isDir (p ++ [n]) = true := is_dir_iff.mpr here
        refine ⟨fun blocked => absurd blocked (dir_not_blocked top), fun _ => ⟨w, ?_, ensures_dir top⟩⟩
        simp [dir, top]
      | file content =>
        have other := file_not_dir here
        refine ⟨fun _ => ⟨_, by simp only [dir, other]; rfl⟩, fun unblocked => ?_⟩
        exact absurd ⟨_, content, List.prefix_rfl, here⟩ unblocked
    | none =>
      have other := missing_not_dir here
      by_cases above : w.tree.isDir p = true
      · obtain ⟨w', made, puts⟩ := @direct_make _ _ _ _ w p n false front above here named
        rw [made]
        refine ⟨fun blocked => ?_, fun _ => ⟨w', rfl, ensures_made (ensures_dir above) puts⟩⟩
        have upper := blocked_concat blocked (by simp [here])
        exact absurd upper (dir_not_blocked above)
      · by_cases blocked : Blocked w.tree p
        · obtain ⟨e, refused⟩ := @direct_make_refused _ _ _ _ w p n false front fun dir => absurd dir above
          obtain ⟨e', failed⟩ := fails blocked
          refine ⟨fun _ => ?_, fun unblocked =>
            absurd (blocked_front blocked (List.prefix_append p [n])) unblocked⟩
          rw [refused]
          cases e with
          | notFound => exact ⟨e', by simp only [parent_direct, failed]⟩
          | _ => exact ⟨_, by simp only [dir, other]; rfl⟩
        · have missing : w.tree.get p = none := not_there front above blocked
          have absent : w.createDir (direct (p ++ [n]) false) = (w, .error .notFound) := by
            unfold World.createDir
            rw [direct_entry_missing front blocked missing]
          obtain ⟨w₁, earlier, ready⟩ := makes blocked
          have above' : w₁.tree.isDir p = true := by
            rw [is_dir_iff, ready.get, if_pos List.prefix_rfl]
          have here' : w₁.tree.get (p ++ [n]) = none := by
            rw [ready.get, if_neg, here]
            intro longer
            have width := longer.length_le
            rw [List.length_append, List.length_singleton] at width
            omega
          obtain ⟨w', made, puts⟩ :=
            @direct_make _ _ _ _ w₁ p n false (ensures_clear front ready) above' here' named
          refine ⟨fun blocked' => absurd (blocked_concat blocked' (by simp [here])) blocked, fun _ =>
            ⟨w', ?_, ensures_made ready puts⟩⟩
          rw [absent]
          simp only [parent_direct, earlier, made]

end Parents

section Disks
variable {aead : StreamAead} {key : Option Key} {d names : List Name} {w w' : Disk} {s s' : Store Name Bytes}
  {node : Option (Node Name UInt8)} {item : Option (Item Bytes)}

theorem shows_none (shows : Shows aead key node item) : node = none ↔ item = none := by
  cases shows <;> simp

theorem shows_dir (shows : Shows aead key node item) : node = some .dir ↔ item = some .collection := by
  cases shows <;> simp

theorem shows_plain (shows : Shows aead key node item) (target : DiskPath) : node ≠ some (.link target) := by
  cases shows <;> simp

theorem shows_document {content : Bytes} (shows : Shows aead key node (some (.document content))) :
    ∃ stored, node = some (.file stored) ∧ Keeps aead key stored content := by
  cases shows with
  | file keeps => exact ⟨_, rfl, keeps⟩

theorem shows_file {stored : Bytes} (shows : Shows aead key (some (.file stored)) item) :
    ∃ content, item = some (.document content) ∧ Keeps aead key stored content := by
  cases shows with
  | file keeps => exact ⟨_, rfl, keeps⟩

theorem represents_dir (represents : Represents aead key d w s) :
    w.tree.isDir (d ++ names) = true ↔ s.get names = some .collection :=
  is_dir_iff.trans (shows_dir (represents.same names))

theorem represents_top (represents : Represents aead key d w s) {front : List Name} (upper : front <+: d)
    (other : front ≠ d) : w.tree.isDir front = true := by
  rcases List.eq_nil_or_concat d with bare | ⟨body, n, same⟩
  · subst bare
    exact absurd (List.prefix_nil.mp upper) other
  · rw [List.concat_eq_append] at same
    have above := represents.above
    rw [same, List.dropLast_concat] at above
    rw [same] at upper other
    rcases List.prefix_concat_iff.mp upper with whole | ⟨rest, front⟩
    · exact absurd whole other
    · subst front
      by_cases bare : rest = []
      · rwa [bare, List.append_nil] at above
      · exact is_dir_iff.mpr (above_is_dir w.tree bare (is_dir_iff.mp above))

theorem front_cases {front : List Name} (upper : front <+: d ++ names) :
    (front <+: d ∧ front ≠ d) ∨ ∃ rest, front = d ++ rest ∧ rest <+: names := by
  rcases List.prefix_or_prefix_of_prefix upper (List.prefix_append d names) with inside | ⟨rest, same⟩
  · by_cases whole : front = d
    · exact .inr ⟨[], by simp [whole], List.nil_prefix⟩
    · exact .inl ⟨inside, whole⟩
  · subst same
    exact .inr ⟨rest, rfl, (List.prefix_append_right_inj d).mp upper⟩

theorem represents_clear (represents : Represents aead key d w s) (names : List Name) :
    Clear w.tree (d ++ names) := by
  rintro front upper ⟨target, found⟩
  rcases front_cases upper with ⟨inside, other⟩ | ⟨rest, same, _⟩
  · exact dir_not_linked (is_dir_iff.mp (represents_top represents inside other)) ⟨target, found⟩
  · rw [same] at found
    exact shows_plain (represents.same rest) target found

theorem represents_blocked (represents : Represents aead key d w s) :
    Blocked w.tree (d ++ names) ↔ s.blocked names = true := by
  rw [blocked_iff]
  constructor
  · rintro ⟨front, stored, upper, file⟩
    rcases front_cases upper with ⟨inside, other⟩ | ⟨rest, same, upper⟩
    · have dir := represents_top represents inside other
      rw [is_dir_iff, file] at dir
      cases dir
    · have shows := represents.same rest
      rw [← same, file] at shows
      obtain ⟨content, document, _⟩ := shows_file shows
      exact ⟨rest, content, upper, document⟩
  · rintro ⟨front, content, upper, document⟩
    have shows := represents.same front
    rw [document] at shows
    obtain ⟨stored, file, _⟩ := shows_document shows
    exact ⟨d ++ front, stored, (List.prefix_append_right_inj d).mpr upper, file⟩

theorem above_apart (inside : d ≠ []) : d.dropLast ≠ d ++ names := by
  intro same
  have width := congrArg List.length same
  have some_left := List.length_pos_of_ne_nil inside
  rw [List.length_dropLast, List.length_append] at width
  omega

theorem above_not_below (inside : d ≠ []) : ¬ d ++ names <+: d.dropLast := by
  intro below
  have width := below.length_le
  have some_left := List.length_pos_of_ne_nil inside
  rw [List.length_dropLast, List.length_append] at width
  omega

theorem updates_refl (represents : Represents aead key d w s) : Updates aead key d w w s :=
  ⟨represents, fun _ _ => rfl⟩

theorem updates_trans {w'' : Disk} {s'' : Store Name Bytes} (first : Updates aead key d w w' s')
    (later : Updates aead key d w' w'' s'') : Updates aead key d w w'' s'' :=
  ⟨later.represents, fun place outside => (later.elsewhere place outside).trans
    (first.elsewhere place outside)⟩

theorem updates_puts (represents : Represents aead key d w s) (inside : d ≠ [])
    {node : Node Name UInt8} {item : Item Bytes} (puts : Puts w w' (d ++ names) node)
    (shows : Shows aead key (some node) (some item))
    (same : ∀ place, s'.get place = if place = names then some item else s.get place) :
    Updates aead key d w w' s' := by
  refine ⟨⟨?_, fun place => ?_⟩, fun place outside => ?_⟩
  · rw [is_dir_iff, puts.get, if_neg (above_apart inside)]
    exact is_dir_iff.mp represents.above
  · rw [puts.get, same]
    by_cases here : place = names
    · rw [if_pos here, if_pos (congrArg (d ++ ·) here)]
      exact shows
    · rw [if_neg here, if_neg fun whole => here (List.append_cancel_left whole)]
      exact represents.same place
  · rw [puts.get, if_neg]
    intro here
    rw [here] at outside
    exact outside (List.prefix_append d names)

theorem updates_drops (represents : Represents aead key d w s) (inside : d ≠ [])
    (drops : Drops w w' (d ++ names)) : Updates aead key d w w' (s.remove names) := by
  refine ⟨⟨?_, fun place => ?_⟩, fun place outside => ?_⟩
  · rw [is_dir_iff, drops.get, if_neg (above_not_below inside)]
    exact is_dir_iff.mp represents.above
  · rw [drops.get]
    change Shows aead key _ (if names <+: place then none else s.get place)
    simp only [List.prefix_append_right_inj]
    split
    · exact .missing
    · exact represents.same place
  · rw [drops.get, if_neg fun below => outside (List.IsPrefix.trans (List.prefix_append d names) below)]

theorem updates_ensures (represents : Represents aead key d w s) (ready : Ensures w w' (d ++ names)) :
    Updates aead key d w w' (s.ensure names) := by
  refine ⟨⟨?_, fun place => ?_⟩, fun place outside => ?_⟩
  · rw [is_dir_iff, ready.get]
    split
    · rfl
    · exact is_dir_iff.mp represents.above
  · rw [ready.get]
    change Shows aead key _ (if place <+: names then some .collection else s.get place)
    simp only [List.prefix_append_right_inj]
    split
    · exact .dir
    · exact represents.same place
  · -- what is made above `d` was there
    rw [ready.get]
    split
    · rename_i upper
      rcases front_cases upper with ⟨inside, other⟩ | ⟨rest, same, _⟩
      · exact (is_dir_iff.mp (represents_top represents inside other)).symm
      · exact absurd (same ▸ List.prefix_append d rest) outside
    · rfl

theorem updates_moves (represents : Represents aead key d w s) (inside : d ≠ []) {source : List Name}
    (moves : Moves w w' (d ++ source) (d ++ names)) (fits : s.Movable source names) :
    Updates aead key d w w' (s.move source names fits) := by
  refine ⟨⟨?_, fun place => ?_⟩, fun place outside => ?_⟩
  · rw [is_dir_iff, moves.get, if_neg (above_not_below inside), if_neg (above_not_below inside)]
    exact is_dir_iff.mp represents.above
  · rw [moves.get]
    change Shows aead key _ (if names <+: place then s.get (source ++ place.drop names.length)
      else if source <+: place then none else s.get place)
    simp only [List.prefix_append_right_inj]
    have cut : (d ++ place).drop (d ++ names).length = place.drop names.length := by
      rw [List.length_append, ← List.drop_drop, List.drop_left]
    rw [cut, List.append_assoc]
    split
    · exact represents.same _
    · split
      · exact .missing
      · exact represents.same place
  · have apart (below : List Name) : ¬ d ++ below <+: place := fun upper =>
      outside (List.IsPrefix.trans (List.prefix_append d below) upper)
    rw [moves.get, if_neg (apart names), if_neg (apart source)]

theorem represents_elsewhere {key' : Option Key} {d' : List Name} {t : Store Name Bytes}
    (updates : Updates aead key d w w' s') (apart : ¬ d <+: d') (apart' : ¬ d' <+: d)
    (represents : Represents aead key' d' w t) : Represents aead key' d' w' t := by
  have outside (names : List Name) : ¬ d <+: d' ++ names := fun below =>
    (List.prefix_or_prefix_of_prefix below (List.prefix_append d' names)).elim apart apart'
  constructor
  · rw [is_dir_iff, updates.elsewhere _ fun below =>
      apart (List.IsPrefix.trans below (List.dropLast_prefix d'))]
    exact is_dir_iff.mp represents.above
  · intro names
    rw [updates.elsewhere _ (outside names)]
    exact represents.same names

end Disks

theorem file_name_direct {loc : List Name} {n : Name} {slash : Bool} (last : loc.getLast? = some n) :
    fileName (direct loc slash) = some n := by
  apply file_name_last
  rw [direct, List.getLast?_map, last]
  rfl

section Contents
variable {aead : StreamAead} {key : Option Key} {stored content : Bytes}

theorem keeps_size (keeps : Keeps aead key stored content) (machine : Target) :
    announcedSize machine key stored.length = .ok content.length := by
  cases key with
  | none =>
    rw [keeps.1]
    rfl
  | some key => rw [readable_size machine keeps.1, keeps.2]

theorem keeps_small (keeps : Keeps aead key stored content) : content.length < 2 ^ 63 := by
  cases key with
  | none => exact keeps.1 ▸ keeps.2
  | some key => exact Nat.lt_trans (keeps.2 ▸ (readable_small keeps.1).1) (by decide)

structure PartSent (content : Bytes) (range : RangeValue) (sent : SentFile) : Prop where
  contentRange : sent.contentRange = some ("bytes " ++ toString range.start ++ "-" ++
    toString (range.lastByte content.length) ++ "/" ++ toString content.length)
  contentLength : sent.contentLength = some (toString (range.lastByte content.length - range.start + 1))
  bytes : sent.body.bytes =
    (content.drop range.start).take (range.lastByte content.length - range.start + 1)
  ending : sent.body.ending = some .done

theorem part_sent (keeps : Keeps aead key stored content) (env : Surroundings) (cipher : env.aead = aead)
    (wide : env.target.wide = true) {range : RangeValue} (inside : range.start < content.length)
    (forward : range.Forward) (res : SentFile) :
    ∃ sent, sendRange env false key stored content.length res range = .ok sent ∧ sent.status = 206 ∧
      PartSent content range sent := by
  have small := keeps_small keeps
  have limit : u64Limit = 2 * 2 ^ 63 := rfl
  have accepted : range.accepted content.length = true := accepted_iff.mpr ⟨forward, fun _ => inside⟩
  have computed := part_exact env.target inside forward (show content.length < u64Limit by omega)
  have below := (last_byte_bounds inside forward).2
  cases key with
  | none =>
    have seekable : range.start < 2 ^ 63 := by omega
    obtain ⟨bytes, ending⟩ := @stream_sized_delivers env.target env.granted
      (range.lastByte content.length - range.start + 1) (content.drop range.start)
    simp only [sendRange, accepted, computed, ↓reduceIte, Bool.false_eq_true, seekable, keeps.1]
    exact ⟨_, rfl, rfl, rfl, rfl, bytes, ending⟩
  | some key =>
    obtain ⟨readable, same⟩ := keeps
    subst cipher same
    obtain ⟨bytes, ending⟩ := @readable_part env.aead key stored env.target wide readable range.start
      (range.lastByte (plaintext env.aead key stored).length - range.start + 1) (Nat.le_of_lt inside) (by omega)
    simp only [sendRange, accepted, computed, ↓reduceIte, Bool.false_eq_true]
    exact ⟨_, rfl, rfl, rfl, rfl, bytes, ending⟩

theorem whole_sent (keeps : Keeps aead key stored content) (env : Surroundings)
    (cipher : env.aead = aead) (headOnly : Bool) (size : Nat) (res : SentFile)
    (bare : res.body = ⟨[], some .done⟩) :
    (sendWhole env headOnly key stored size res).status = res.status ∧
      (sendWhole env headOnly key stored size res).contentLength = some (toString size) ∧
      (sendWhole env headOnly key stored size res).body.bytes = (if headOnly then [] else content) ∧
      (sendWhole env headOnly key stored size res).body.ending = some .done := by
  unfold sendWhole
  cases headOnly with
  | true =>
    rw [if_pos rfl, if_pos rfl]
    exact ⟨rfl, rfl, by rw [bare]; rfl, by rw [bare]⟩
  | false =>
    cases key with
    | none =>
      obtain ⟨bytes, ending⟩ := @stream_whole_delivers env.granted stored
      rw [keeps.1] at bytes ending
      rw [keeps.1]
      exact ⟨rfl, rfl, bytes, ending⟩
    | some key =>
      obtain ⟨readable, same⟩ := keeps
      subst cipher
      exact ⟨rfl, rfl, same, readable⟩

end Contents

section Targets
variable {aead : StreamAead} {share : KeyedShare} {d : List Name} {w : Disk} {s : Store Name Bytes}
  {target : Address Name}

theorem target_stat (represents : Represents aead share.key d w s) {follow : Bool} {node : Node Name UInt8} :
    w.stat follow (direct (d ++ target.path) target.slash) = .ok node ↔
      w.tree.get (d ++ target.path) = some node ∧ (target.slash = true → isDirNode node = true) :=
  direct_stat (represents_clear represents target.path)

theorem seen_dir_stat (represents : Represents aead share.key d w s)
    (seen : s.seen target = some .collection) (follow : Bool) :
    w.stat follow (direct (d ++ target.path) target.slash) = .ok .dir :=
  (target_stat represents).mpr
    ⟨(shows_dir (represents.same target.path)).mpr (seen_collection.mp seen), fun _ => rfl⟩

theorem seen_file_stat (represents : Represents aead share.key d w s) {content : Bytes}
    (seen : s.seen target = some (.document content)) : ∃ stored, Keeps aead share.key stored content ∧
      w.tree.get (d ++ target.path) = some (.file stored) ∧
      ∀ follow, w.stat follow (direct (d ++ target.path) target.slash) = .ok (.file stored) := by
  obtain ⟨here, plain⟩ := seen_document.mp seen
  have shows := represents.same target.path
  rw [here] at shows
  obtain ⟨stored, file, keeps⟩ := shows_document shows
  refine ⟨stored, keeps, file, fun follow => (target_stat represents).mpr ⟨file, fun slashed => ?_⟩⟩
  rw [plain] at slashed
  cases slashed

theorem unseen_stat (represents : Represents aead share.key d w s) (unseen : s.seen target = none)
    (follow : Bool) : ∃ e, w.stat follow (direct (d ++ target.path) target.slash) = .error e := by
  cases stat : w.stat follow (direct (d ++ target.path) target.slash) with
  | error e => exact ⟨e, rfl⟩
  | ok node =>
    obtain ⟨here, ends⟩ := (target_stat represents).mp stat
    rcases seen_none unseen with missing | ⟨slashed, content, document⟩
    · rw [(shows_none (represents.same target.path)).mpr missing] at here
      cases here
    · have shows := represents.same target.path
      rw [document] at shows
      obtain ⟨stored, file, _⟩ := shows_document shows
      rw [file] at here
      cases here
      cases ends slashed

theorem facts_missing (represents : Represents aead share.key d w s) (unseen : s.seen target = none) :
    factsOf w (direct (d ++ target.path) target.slash) = ⟨true, false, false, 0⟩ := by
  obtain ⟨e, failed⟩ := unseen_stat represents unseen true
  unfold factsOf metadata
  rw [failed]

theorem facts_is_file {path : DiskPath} {stored : Bytes} (stat : w.stat true path = .ok (.file stored)) :
    factsOf w path = ⟨false, false, true, stored.length⟩ := by
  unfold factsOf metadata
  rw [stat]
  rfl

theorem facts_is_dir (represents : Represents aead share.key d w s)
    (seen : s.seen target = some .collection) :
    factsOf w (direct (d ++ target.path) target.slash) = ⟨false, true, false, 0⟩ := by
  unfold factsOf metadata
  rw [seen_dir_stat represents seen]
  rfl

theorem seen_contained (rooted : Rooted share d) (represents : Represents aead share.key d w s)
    {item : Item Bytes} (seen : s.seen target = some item) :
    isRootContained w (direct (d ++ target.path) target.slash) (pathOf share.directory) = true := by
  obtain ⟨slash, directory⟩ := rooted.directory
  have there := seen_there seen
  have top : w.tree.isDir d = true := by
    have base : s.get [] = some .collection := by
      by_cases bare : target.path = []
      · cases item with
        | collection => rw [← bare, there]
        | document content =>
          have plain := (seen_document.mp seen).2
          rw [target.top bare] at plain
          cases plain
      · exact there_front (by rw [there]; exact Option.some_ne_none _) List.nil_prefix (Ne.symm bare)
    have dir := (represents_dir represents).mpr base
    rwa [List.append_nil] at dir
  have found : w.canonicalize (pathOf share.directory) = .ok d := by
    rw [directory, canonicalize_ok_iff, direct_lookup (dir_clear top)]
    have here := is_dir_iff.mp top
    exact ⟨⟨rfl, there_above here, fun _ => top⟩, by rw [here]; exact Option.some_ne_none _⟩
  have stat : ∃ node, w.stat true (direct (d ++ target.path) target.slash) = .ok node := by
    cases item with
    | collection => exact ⟨_, seen_dir_stat represents seen true⟩
    | document content =>
      obtain ⟨stored, _, _, stat⟩ := seen_file_stat represents seen
      exact ⟨_, stat true⟩
  obtain ⟨node, stat⟩ := stat
  obtain ⟨loc, led, here⟩ := stat_ok_iff.mp stat
  have same := ((direct_lookup (represents_clear represents target.path)).mp led).1
  have found' : w.canonicalize (direct (d ++ target.path) target.slash) = .ok (d ++ target.path) :=
    canonicalize_ok_iff.mpr ⟨same ▸ led, by rw [← same, here]; exact Option.some_ne_none _⟩
  unfold isRootContained
  rw [found, found']
  exact List.isPrefixOf_iff_prefix.mpr (List.prefix_append _ _)

theorem handle_target (rooted : Rooted share d) (represents : Represents aead share.key d w s)
    {out : Outside} {request : Request} {text : Bytes} {fuel : Nat}
    (addresses : Addresses share d request.path text target) :
    handle out share fuel w request = handleMethod out share fuel w request text
      (factsOf w (direct (d ++ target.path) target.slash)) := by
  have gate : (!share.allowSymlinks && !(factsOf w (direct (d ++ target.path) target.slash)).isMiss &&
      !isRootContained w (direct (d ++ target.path) target.slash) (pathOf share.directory)) = false := by
    cases seen : s.seen target with
    | none => simp [facts_missing represents seen]
    | some item => simp [seen_contained rooted represents seen]
  unfold handle
  rw [addresses.extracted]
  dsimp only
  rw [addresses.spelled, gate, if_neg Bool.false_ne_true]

end Targets

end VestibuleWebdav
