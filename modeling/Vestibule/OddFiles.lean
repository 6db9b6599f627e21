import Vestibule.PropfindHrefs

/-!
Files of any length and any time in the tree of a dav: when PROPFIND, the search and GET reach their
answer without a subtraction that underflows and without a panic.
-/
namespace VestibuleWebdav
open VestibuleRust LexicalMotion FileTree FileCalls World LinkedLookups LinkedCalls PlainLookups
  VestibulePaths VestibuleCopyMove VestibuleStreamer VestibuleStorage VestibuleRanges

/-- A stored file has this length under a key: the nonce alone, or with a tag at least. -/
def Sized (length : Nat) : Prop := length = nonceSize ∨ nonceSize + encryptionOverhead ≤ length

def chunkCount (length : Nat) : Nat :=
  if 0 < length % encryptedChunkSize then length / encryptedChunkSize + 1 else length / encryptedChunkSize

def plainLength (key : Option Key) (length : Nat) : Nat :=
  match key with
  | none => length
  | some _ => length - encryptionOverhead * chunkCount (length - nonceSize) - nonceSize

section Sizes
variable {target : Target} {length : Nat}

theorem number_of_chunks (small : length < u64Limit) :
    numberOfChunks target length = .ok (chunkCount length) := by
  have chunk : encryptedChunkSize = 1000016 := rfl
  have limit : u64Limit = 18446744073709551616 := rfl
  unfold numberOfChunks chunkCount
  rw [chunk]
  by_cases more : 0 < length % 1000016
  · simp only [more, ↓reduceIte]
    exact add64_exact target (by omega)
  · simp only [more, ↓reduceIte]

theorem chunk_overhead (length : Nat) :
    (encryptionOverhead * chunkCount length ≤ length ↔ length = 0 ∨ encryptionOverhead ≤ length) ∧
      encryptionOverhead * chunkCount length ≤ length + encryptionOverhead := by
  have chunk : encryptedChunkSize = 1000016 := rfl
  have overhead : encryptionOverhead = 16 := rfl
  have whole := Nat.div_add_mod length encryptedChunkSize
  have rest := Nat.mod_lt length (show 0 < encryptedChunkSize by omega)
  unfold chunkCount
  rw [chunk] at whole rest ⊢
  rw [overhead]
  split <;> omega

theorem sized_iff : Sized length ↔ nonceSize ≤ length ∧
    encryptionOverhead * chunkCount (length - nonceSize) ≤ length - nonceSize := by
  have nonce : nonceSize = 19 := rfl
  have overhead : encryptionOverhead = 16 := rfl
  rw [(chunk_overhead _).1, Sized, nonce, overhead]
  omega

theorem decrypted_size_exact (key : Key) (small : length < u64Limit) (sized : Sized length) :
    decryptedSize target length = .ok (plainLength (some key) length) := by
  obtain ⟨nonce, overhead⟩ := sized_iff.mp sized
  have without := sub64_exact target nonce
  have chunks := @number_of_chunks target (length - nonceSize) (by omega)
  have tags := @mul64_exact target encryptionOverhead (chunkCount (length - nonceSize)) (by omega)
  have first := @sub64_exact target length (encryptionOverhead * chunkCount (length - nonceSize)) (by omega)
  have second := @sub64_exact target (length - encryptionOverhead * chunkCount (length - nonceSize))
    nonceSize (by omega)
  simp only [decryptedSize, without, chunks, tags, first, second, ok_bind, plainLength]

theorem sub64_underflows (checked : target.overflowChecks = true) {a b : Nat} (less : a < b) :
    target.sub64 a b = .error .arithmetic := by
  rw [Target.sub64, if_neg (by omega), if_pos checked]

theorem decrypted_size_underflows (checked : target.overflowChecks = true)
    (odd : ¬ Sized length) : decryptedSize target length = .error .arithmetic := by
  by_cases nonce : nonceSize ≤ length
  · have short : ¬ encryptionOverhead * chunkCount (length - nonceSize) ≤ length - nonceSize :=
      fun fits => odd (sized_iff.mpr ⟨nonce, fits⟩)
    obtain ⟨exact_iff, bound⟩ := chunk_overhead (length - nonceSize)
    have tag : length - nonceSize < encryptionOverhead :=
      Nat.lt_of_not_le fun long => short (exact_iff.mpr (.inr long))
    have limit : 2 * encryptionOverhead < u64Limit := by decide
    have without := sub64_exact target nonce
    have chunks := @number_of_chunks target (length - nonceSize) (by omega)
    have tags := @mul64_exact target encryptionOverhead (chunkCount (length - nonceSize)) (by omega)
    simp only [decryptedSize, without, chunks, tags, ok_bind]
    by_cases first : encryptionOverhead * chunkCount (length - nonceSize) ≤ length
    · rw [sub64_exact target first, ok_bind]
      exact sub64_underflows checked (by omega)
    · rw [sub64_underflows checked (by omega)]
      rfl
  · rw [decryptedSize, sub64_underflows checked (by omega)]
    rfl

theorem unchecked_delivers (unchecked : target.overflowChecks = false) (a b : Nat) :
    (∃ r, target.add64 a b = .ok r) ∧ (∃ r, target.mul64 a b = .ok r) ∧ ∃ r, target.sub64 a b = .ok r := by
  unfold Target.add64 Target.mul64 Target.sub64
  rw [unchecked]
  refine ⟨?_, ?_, ?_⟩
  all_goals split <;> exact ⟨_, rfl⟩

theorem decrypted_size_wraps (unchecked : target.overflowChecks = false) (length : Nat) :
    ∃ r, decryptedSize target length = .ok r := by
  obtain ⟨_, _, without, first⟩ := unchecked_delivers unchecked length nonceSize
  have chunks : ∃ r, numberOfChunks target without = .ok r := by
    unfold numberOfChunks
    dsimp only
    split
    · exact (unchecked_delivers unchecked _ 1).1
    · exact ⟨_, rfl⟩
  obtain ⟨count, chunks⟩ := chunks
  obtain ⟨_, ⟨overhead, tags⟩, _⟩ := unchecked_delivers unchecked encryptionOverhead count
  obtain ⟨_, _, less, second⟩ := unchecked_delivers unchecked length overhead
  obtain ⟨_, _, r, third⟩ := unchecked_delivers unchecked less nonceSize
  exact ⟨r, by simp only [decryptedSize, first, chunks, tags, second, third, ok_bind]⟩

/-- The size is announced without a break exactly if its subtractions are not checked, or come out. -/
theorem announced_unbroken {key : Option Key} (small : length < u64Limit) :
    Unbroken (announcedSize target key length) ↔
      (target.overflowChecks = true → key ≠ none → Sized length) := by
  cases key with
  | none => simp [announcedSize]
  | some key =>
    by_cases sized : Sized length
    · simp [announcedSize, decrypted_size_exact key small sized, liftPanic, sized]
    · cases checks : target.overflowChecks with
      | true => simp [announcedSize, decrypted_size_underflows checks sized, liftPanic, sized]
      | false =>
        obtain ⟨r, run⟩ := decrypted_size_wraps checks length
        simp [announcedSize, run, liftPanic]

end Sizes

section Entries
variable (checks : Bool) (out : Outside) (w : Disk) (share : KeyedShare)

/-- A listing reads the entry at a path without a break: the time that it finds is not before 1970,
    and under a key a file has one of the lengths that are written. -/
def InOrder (path : Bytes) : Prop :=
  ∀ loc node itself time, Found w share path loc node itself → out.modified loc = some time →
    0 ≤ time ∧ (checks = true → share.key ≠ none → isDirNode node = false → Sized (contentLength node))

def Writable (path : Bytes) : Prop :=
  ∀ loc node itself time, Found w share path loc node itself → out.modified loc = some time →
    out.toRfc2822 (asI64 (time.toNat % u64Limit)) ≠ none

variable {checks out w share} {path base : Bytes}

/-- The sizes of files are unsigned 64-bit numbers. -/
def Sizable (w : Disk) : Prop :=
  ∀ loc content, w.tree.get loc = some (.file content) → content.length < u64Limit

theorem size_of_unbroken (same : out.target.overflowChecks = checks) {node : Node Name UInt8}
    (small : contentLength node < u64Limit) : Unbroken (sizeOf out share node) ↔
      (checks = true → share.key ≠ none → isDirNode node = false → Sized (contentLength node)) := by
  unfold sizeOf
  cases kind : isDirNode node with
  | true => simp
  | false =>
    have mapped : Except.map some (announcedSize out.target share.key (contentLength node)) =
        some <$> announcedSize out.target share.key (contentLength node) := rfl
    simp [mapped, announced_unbroken small, same]

theorem metadata_small (sizes : Sizable w) {node : Node Name UInt8}
    (found : w.metadata (pathOf path) = .ok node) : contentLength node < u64Limit := by
  obtain ⟨loc, _, here⟩ := stat_ok_iff.mp found
  cases node with
  | file content => exact sizes loc content here
  | dir => exact Nat.two_pow_pos 64
  | link target => exact Nat.two_pow_pos 64

theorem pathitem_in_order (same : out.target.overflowChecks = checks) (sizes : Sizable w) :
    Unbroken (toPathitem out w share path base) ↔
      stripPrefix path base ≠ none ∧ InOrder checks out w share path := by
  rw [pathitem_unbroken]
  refine and_congr_right fun _ => ?_
  constructor
  · intro order loc node itself time found known
    obtain ⟨since, sized⟩ := order loc node itself found time known
    exact ⟨since, (size_of_unbroken same (metadata_small sizes found.followed)).mp sized⟩
  · intro order loc node itself found time known
    obtain ⟨since, sized⟩ := order loc node itself time found known
    exact ⟨since, (size_of_unbroken same (metadata_small sizes found.followed)).mpr sized⟩

theorem shown_writable {item : PathItem} (read : toPathitem out w share path base = .ok (some item)) :
    out.toRfc2822 (asI64 item.mtime) ≠ none ↔ Writable out w share path := by
  constructor
  · intro written loc node itself time found known
    have unbroken : Unbroken (toPathitem out w share path base) := by
      rw [read]
      exact unbroken_ok _
    obtain ⟨item', read', stamp⟩ := pathitem_shown unbroken found known
    rw [read] at read'
    cases read'
    rwa [← stamp]
  · intro writable
    obtain ⟨_, loc, node, itself, mtime, _, _, found, stamp, _, made⟩ := pathitem_some read
    obtain ⟨time, known, _, same⟩ := modified_at_ok.mp stamp
    rw [made, ← same]
    exact writable loc node itself time found known

theorem unshown_writable (unbroken : Unbroken (toPathitem out w share path base))
    (unshown : ∀ item, toPathitem out w share path base ≠ .ok (some item)) :
    Writable out w share path := by
  intro loc node itself time found known
  obtain ⟨item, read, _⟩ := pathitem_shown unbroken found known
  exact absurd read (unshown item)

theorem dav_xml_unbroken {item : PathItem} :
    Unbroken (item.toDavXml out) ↔ out.toRfc2822 (asI64 item.mtime) ≠ none := by
  unfold PathItem.toDavXml
  cases out.toRfc2822 (asI64 item.mtime) <;> simp

theorem items_xml_unbroken {items : List PathItem} :
    Unbroken (itemsXml out items) ↔ ∀ item ∈ items, out.toRfc2822 (asI64 item.mtime) ≠ none := by
  induction items with
  | nil => simp [itemsXml]
  | cons item rest ih =>
    rw [List.forall_mem_cons, ← ih, ← dav_xml_unbroken, itemsXml, unbroken_bind]
    refine and_congr_right fun unbroken => ?_
    have delivered : ∃ first, item.toDavXml out = .ok first :=
      dav_xml_ok_iff.mpr (dav_xml_unbroken.mp unbroken)
    obtain ⟨first, written⟩ := delivered
    simp [written]

theorem collected_writable {paths : List Bytes} {listed : List Listed}
    (run : collectItems (fun entry => toPathitem out w share entry base) paths = .ok listed) :
    (∀ shown ∈ listed, out.toRfc2822 (asI64 shown.item.mtime) ≠ none) ↔
      ∀ entry ∈ paths, Writable out w share entry := by
  have each := collect_items_unbroken.mp (run ▸ unbroken_ok listed)
  constructor
  · intro written entry member
    by_cases shown : ∃ item, toPathitem out w share entry base = .ok (some item)
    · obtain ⟨item, read⟩ := shown
      exact (shown_writable read).mp (written _ (collect_items_shows run member read))
    · exact unshown_writable (each entry member) fun item read => shown ⟨item, read⟩
  · intro writable shown member
    obtain ⟨inside, read⟩ := collect_items_mem run member
    exact (shown_writable read).mpr (writable _ inside)

end Entries

section Serving
variable (checks : Bool) (out : Outside) (w : Disk) (share : KeyedShare)

def ItemServed (path : Bytes) : Prop :=
  stripPrefix path share.directory ≠ none ∧ InOrder checks out w share path ∧ Writable out w share path

/-- PROPFIND of a directory: its entries are read when its own time is known. -/
def ListingServed (headers : Headers) (path : Bytes) (loc : List Name) : Prop :=
  propfindDepth headers ≠ none → ItemServed checks out w share path ∧
    (propfindDepth headers ≠ some 0 → out.modified loc ≠ none →
      ∀ n, w.tree.get (loc ++ [n]) ≠ none → InOrder checks out w share (joinText path n) ∧
        Writable out w share (joinText path n))

def SearchServed (path query : Bytes) (loc : List Name) : Prop :=
  ∀ names, names ≠ [] → w.tree.get (loc ++ names) ≠ none →
    containsText (out.lowercase query) (out.lowercase (names.getLast?.getD [])) = true →
    InOrder checks out w share (names.foldl joinText path)

/-- GET of a file: its time has an HTTP date; and unless it is not sent again, its size is announced,
    and a range with an end that is used begins inside. -/
structure FileServed (headers : Headers) (path : Bytes) (loc : List Name) (stored : Bytes) : Prop where
  dated : ∀ time, out.modified loc = some time → 0 ≤ time ∧ out.httpDate time = true
  sized : ∀ validators used, extractCacheHeaders out.toSurroundings loc stored.length = .ok validators →
    useRange out.toSurroundings headers validators = some used → getFileName (pathOf path) ≠ none →
    checks = true → (share.key ≠ none → Sized stored.length) ∧
      ∀ range, used = true → parseRange headers = some range → range.stop ≠ none → range.Forward →
        range.start < plainLength share.key stored.length

variable {checks out w share} {path : Bytes} {loc : List Name}

theorem propfind_file_unbroken (same : out.target.overflowChecks = checks) (sizes : Sizable w) :
    Unbroken (handlePropfindFile out w share path) ↔ ItemServed checks out w share path := by
  have reads := @pathitem_in_order checks out w share path share.directory same sizes
  unfold handlePropfindFile ItemServed
  rw [unbroken_bind, ← and_assoc, ← reads]
  refine and_congr_right fun unbroken => ?_
  constructor
  · intro answers
    by_cases shown : ∃ item, toPathitem out w share path share.directory = .ok (some item)
    · obtain ⟨item, read⟩ := shown
      have answer := answers _ read
      simp only [bind_pure_comp, unbroken_map] at answer
      exact (shown_writable read).mp (dav_xml_unbroken.mp answer)
    · exact unshown_writable unbroken fun item read => shown ⟨item, read⟩
  · intro writable found read
    cases found with
    | none => exact unbroken_ok _
    | some item =>
      simp only [bind_pure_comp, unbroken_map]
      exact dav_xml_unbroken.mpr ((shown_writable read).mpr writable)

theorem answer_unbroken {listed : List Listed} :
    Unbroken (do
      let content ← itemsXml out (listed.map Listed.item)
      return resMultistatus listed content) ↔
      ∀ shown ∈ listed, out.toRfc2822 (asI64 shown.item.mtime) ≠ none := by
  rw [bind_pure_comp, unbroken_map, items_xml_unbroken, List.forall_mem_map]

theorem entries_unbroken {base : Bytes} (same : out.target.overflowChecks = checks) (sizes : Sizable w)
    (place : w.lookup true (pathOf path) = .ok loc) (dir : w.tree.isDir loc = true)
    (stripped : stripPrefix path base ≠ none) :
    (Unbroken (listDir out w share path base) ∧ ∀ child, listDir out w share path base = .ok child →
      ∀ shown ∈ child, out.toRfc2822 (asI64 shown.item.mtime) ≠ none) ↔
      ∀ n, w.tree.get (loc ++ [n]) ≠ none →
        InOrder checks out w share (joinText path n) ∧ Writable out w share (joinText path n) := by
  obtain ⟨rel, front⟩ := Option.ne_none_iff_exists'.mp stripped
  obtain ⟨names, _, all, collected⟩ := @list_dir_items out w share path loc base place dir
  have entry (n : Name) (there : w.tree.get (loc ++ [n]) ≠ none) :
      Unbroken (toPathitem out w share (joinText path n) base) ↔
        InOrder checks out w share (joinText path n) := by
    obtain ⟨rel', front', _⟩ := strip_prefix_entry front (below_legal there n List.mem_cons_self)
    rw [pathitem_in_order same sizes]
    simp [front']
  rw [collected, collect_items_unbroken, List.forall_mem_map]
  constructor
  · rintro ⟨unbroken, written⟩ n there
    have member := (all n).mpr there
    refine ⟨(entry n there).mp (unbroken n member), ?_⟩
    have reads := (@collect_items_unbroken (fun entry => toPathitem out w share entry base)
      (names.map (joinText path))).mpr (List.forall_mem_map.mpr unbroken)
    cases run : collectItems (fun entry => toPathitem out w share entry base)
        (names.map (joinText path)) with
    | ok child => exact (collected_writable run).mp (written child run) _ (List.mem_map_of_mem member)
    | error fault =>
      rw [run] at reads
      cases fault with
      | failed => exact absurd run collect_items_not_failed
      | panicked p => exact absurd reads (broken_panicked p)
      | unwrapped => exact absurd reads broken_unwrapped
  · intro order
    constructor
    · intro n member
      have there := (all n).mp member
      exact (entry n there).mpr (order n there).1
    · intro child run
      apply (collected_writable run).mpr
      intro text member
      obtain ⟨n, named, same⟩ := List.mem_map.mp member
      exact same ▸ (order n ((all n).mp named)).2

theorem propfind_dir_unbroken {headers : Headers} {itself : Node Name UInt8}
    (same : out.target.overflowChecks = checks) (sizes : Sizable w)
    (found : Found w share path loc .dir itself) (dir : w.tree.isDir loc = true) :
    Unbroken (handlePropfindDir out w share path headers) ↔
      ListingServed checks out w share headers path loc := by
  have reads := @pathitem_in_order checks out w share path share.directory same sizes
  have place := (canonicalize_ok_iff.mp found.canonical).1
  unfold handlePropfindDir ListingServed
  cases depth : propfindDepth headers with
  | none => simp
  | some levels =>
    have asked : some levels ≠ none := Option.some_ne_none levels
    unfold ItemServed
    rw [forall_prop_of_true asked, unbroken_bind, ← and_assoc, ← reads, and_assoc]
    refine and_congr_right fun unbroken => ?_
    have stripped := (reads.mp unbroken).1
    have entries := @entries_unbroken checks out w share path loc share.directory same sizes place dir
      stripped
    cases read : toPathitem out w share path share.directory with
    | error fault =>
      have unshown := unshown_writable unbroken fun item shown => by
        rw [read] at shown
        cases shown
      refine ⟨fun _ => ⟨unshown, fun _ known => ?_⟩, fun _ _ run => by cases run⟩
      obtain ⟨time, known⟩ := Option.ne_none_iff_exists'.mp known
      obtain ⟨item, shown, _⟩ := pathitem_shown unbroken found known
      rw [read] at shown
      cases shown
    | ok seen =>
      cases seen with
      | none =>
        obtain ⟨rel, front⟩ := Option.ne_none_iff_exists'.mp stripped
        rw [pathitem_found front found] at read
        obtain ⟨_, _, read⟩ := bind_ok_iff.mp read
        obtain ⟨_, _, read⟩ := bind_ok_iff.mp read
        cases read
      | some item =>
        obtain ⟨_, loc', _, _, _, _, _, found', stamp, _, _⟩ := pathitem_some read
        have known : out.modified loc ≠ none := by
          obtain ⟨time, known, _⟩ := modified_at_ok.mp stamp
          rw [← (found_unique found found').1, known]
          exact Option.some_ne_none time
        have writes := shown_writable read
        simp only [Except.ok.injEq, forall_eq']
        by_cases zero : levels = 0
        · rw [if_pos zero, answer_unbroken]
          simp [writes, zero]
        · rw [if_neg zero]
          have deep : some levels ≠ some 0 := by simp [zero]
          rw [forall_prop_of_true deep, forall_prop_of_true known, ← entries]
          cases run : listDir out w share path share.directory with
          | ok child =>
            dsimp only
            rw [answer_unbroken]
            simp [writes]
          | error fault =>
            obtain ⟨_, _, _, collected⟩ := @list_dir_items out w share path loc share.directory place dir
            cases fault with
            | failed => exact absurd (collected.symm.trans run) collect_items_not_failed
            | panicked p => simp
            | unwrapped => simp

theorem query_dir_unbroken {query : Bytes} (same : out.target.overflowChecks = checks)
    (sizes : Sizable w) (place : w.lookup true (pathOf path) = .ok loc) (dir : w.tree.isDir loc = true) :
    Unbroken (handleQueryDir out w share path query) ↔
      SearchServed checks out w share path query loc := by
  have json : Unbroken (handleQueryDir out w share path query) ↔
      Unbroken (queryDir out w share path query) := by
    unfold handleQueryDir
    rw [unbroken_bind]
    refine and_iff_left fun paths _ => ?_
    cases out.toJson (paths.map Listed.item) with
    | none => exact unbroken_failed
    | some json => exact unbroken_ok _
  have walked : walkDir out w path = (out.walker.entries w.tree loc).map fun names =>
      (names.foldl joinText path, names.getLast?.getD []) := by
    simp only [walkDir, place, dir, ↓reduceIte]
  have entry (names : List Name) (some_left : names ≠ []) (there : w.tree.get (loc ++ names) ≠ none) :
      Unbroken (toPathitem out w share (names.foldl joinText path) path) ↔
        InOrder checks out w share (names.foldl joinText path) := by
    rw [pathitem_in_order same sizes]
    simp [strip_prefix_entries path (below_legal there) some_left]
  rw [json, queryDir, collect_items_unbroken]
  unfold matching SearchServed
  rw [walked]
  constructor
  · intro unbroken names some_left there matched
    apply (entry names some_left there).mp
    apply unbroken
    obtain ⟨node, here⟩ := Option.ne_none_iff_exists'.mp there
    have kind : w.symlinkMetadata (pathOf (names.foldl joinText path)) = .ok node :=
      stat_ok_iff.mpr ⟨_, below_lookup place dir some_left there (.inl rfl), here⟩
    refine List.mem_filterMap.mpr ⟨_, List.mem_map_of_mem
      (out.walker.complete w.tree loc names some_left there), ?_⟩
    simp [matched, kind, Except.isOk, Except.toBool]
  · intro order text member
    obtain ⟨listed, walked, kept⟩ := List.mem_filterMap.mp member
    obtain ⟨names, below, same⟩ := List.mem_map.mp walked
    obtain ⟨some_left, there⟩ := out.walker.sound w.tree loc names below
    obtain ⟨matched, made⟩ := Option.ite_none_right_eq_some.mp kept
    cases made
    subst same
    rw [Bool.and_eq_true] at matched
    exact (entry names some_left there).mpr (order names some_left there matched.1)

theorem extract_cache_unbroken {env : Surroundings} {size : Nat} :
    Unbroken (extractCacheHeaders env loc size) ↔
      ∀ time, env.modified loc = some time → 0 ≤ time ∧ env.httpDate time = true := by
  unfold extractCacheHeaders
  cases env.modified loc with
  | none => simp
  | some time =>
    by_cases since : 0 ≤ time
    · by_cases dated : env.httpDate time = true
      · simp [toTimestamp, since, dated, bind, Except.bind]
        exact unbroken_ok _
      · simp [toTimestamp, since, dated, bind, Except.bind]
    · simp [toTimestamp, since, bind, Except.bind]

theorem part_wraps {target : Target} (unchecked : target.overflowChecks = false) (range : RangeValue)
    (size : Nat) : ∃ part, range.part target size = .ok part := by
  obtain ⟨_, _, last, first⟩ := unchecked_delivers unchecked size 1
  obtain ⟨_, _, width, second⟩ :=
    unchecked_delivers unchecked (min (range.stop.getD last) last) range.start
  obtain ⟨⟨total, third⟩, _⟩ := unchecked_delivers unchecked width 1
  exact ⟨_, by simp only [RangeValue.part, first, second, third, ok_bind]; rfl⟩

/-- A range breaks an answer only if it has an end, runs forward and begins behind the file. -/
theorem send_range_unbroken {env : Surroundings} {headOnly : Bool} {key : Option Key} {stored : Bytes}
    {size : Nat} {res : SentFile} {range : RangeValue}
    (fits : env.target.overflowChecks = true → size < u64Limit) :
    Unbroken (sendRange env headOnly key stored size res range) ↔
      (env.target.overflowChecks = true → range.stop ≠ none → range.Forward → range.start < size) := by
  have answers (part : Nat × Nat) (computed : range.part env.target size = .ok part) :
      Unbroken (sendRange env headOnly key stored size res range) := by
    unfold sendRange
    rw [computed]
    dsimp only
    repeat' split
    all_goals simp
  have taken := @accepted_iff range size
  cases checks : env.target.overflowChecks with
  | false =>
    obtain ⟨part, computed⟩ := part_wraps checks range size
    exact ⟨fun _ => nofun, fun _ => answers part computed⟩
  | true =>
    by_cases accepted : range.accepted size = true
    · obtain ⟨forward, unbounded⟩ := taken.mp accepted
      by_cases inside : range.start < size
      · exact ⟨fun _ _ _ _ => inside, fun _ => answers _ (part_exact env.target inside forward (fits checks))⟩
      · have bounded : range.stop ≠ none := fun open_range => inside (unbounded open_range)
        have machine : env.target = ⟨env.target.wide, true⟩ := by rw [← checks]
        have underflow : range.part env.target size = .error .arithmetic := by
          rw [machine]
          exact part_underflows (Nat.le_of_not_lt inside)
        have broken : sendRange env headOnly key stored size res range =
            .error (.panicked .arithmetic) := by
          unfold sendRange
          rw [if_pos accepted, underflow]
        rw [broken]
        exact ⟨fun unbroken => absurd unbroken (broken_panicked _),
          fun starts => absurd (starts rfl bounded forward) inside⟩
    · rw [send_refused (Bool.eq_false_iff.mpr accepted)]
      refine ⟨fun _ _ bounded forward => ?_, fun _ => unbroken_ok _⟩
      exact absurd (taken.mpr ⟨forward, fun open_range => absurd open_range bounded⟩) accepted

theorem announced_exact {target : Target} {key : Option Key} {length size : Nat}
    (small : length < u64Limit) (sized : key ≠ none → Sized length)
    (announced : announcedSize target key length = .ok size) : size = plainLength key length := by
  cases key with
  | none => exact (Except.ok.inj announced).symm
  | some key =>
    have exact_size := @decrypted_size_exact target length key small (sized (Option.some_ne_none key))
    rw [announcedSize, exact_size] at announced
    exact (Except.ok.inj announced).symm

theorem announced_delivers {target : Target} {key : Option Key} {length : Nat}
    (unbroken : Unbroken (announcedSize target key length)) :
    ∃ size, announcedSize target key length = .ok size := by
  revert unbroken
  unfold announcedSize liftPanic
  repeat' split
  all_goals simp

theorem plain_length_le (key : Option Key) (length : Nat) : plainLength key length ≤ length := by
  unfold plainLength
  split <;> omega

theorem send_stored_unbroken {headers : Headers} {headOnly : Bool} {stored : Bytes}
    (same : out.target.overflowChecks = checks) (small : stored.length < u64Limit) :
    Unbroken (sendStored out.toSurroundings (pathOf path) headers headOnly share.key loc stored) ↔
      FileServed checks out share headers path loc stored := by
  have split : FileServed checks out share headers path loc stored ↔
      Unbroken (extractCacheHeaders out.toSurroundings loc stored.length) ∧ ∀ validators,
        extractCacheHeaders out.toSurroundings loc stored.length = .ok validators → ∀ used,
        useRange out.toSurroundings headers validators = some used → getFileName (pathOf path) ≠ none →
        checks = true → (share.key ≠ none → Sized stored.length) ∧
          ∀ range, used = true → parseRange headers = some range → range.stop ≠ none → range.Forward →
            range.start < plainLength share.key stored.length := by
    rw [extract_cache_unbroken]
    exact ⟨fun served => ⟨served.dated, fun validators dated used => served.sized validators used dated⟩,
      fun both => ⟨both.1, fun validators used dated => both.2 validators dated used⟩⟩
  rw [split, sendStored, unbroken_bind]
  refine and_congr_right fun _ => forall_congr' fun validators => forall_congr' fun dated => ?_
  cases fresh : useRange out.toSurroundings headers validators with
  | none =>
    refine ⟨fun _ _ sent => ?_, fun _ => unbroken_ok _⟩
    cases sent
  | some used =>
    cases named : getFileName (pathOf path) with
    | none => exact ⟨fun _ _ _ absent => absurd rfl absent, fun _ => unbroken_failed⟩
    | some filename =>
      dsimp only
      rw [unbroken_bind, announced_unbroken small, same]
      constructor
      · rintro ⟨sized, sends⟩ used' again _ checked
        cases again
        refine ⟨sized checked, fun range taken parsed bounded forward => ?_⟩
        obtain ⟨size, announced⟩ := announced_delivers ((announced_unbroken small).mpr (same ▸ sized))
        have exact_size := announced_exact small (sized checked) announced
        have fits : size < u64Limit := by
          rw [exact_size]
          exact Nat.lt_of_le_of_lt (plain_length_le _ _) small
        have send := sends size announced
        simp only [taken, ↓reduceIte, parsed] at send
        rw [← exact_size]
        exact (send_range_unbroken fun _ => fits).mp send (same.trans checked) bounded forward
      · intro order
        refine ⟨fun checked => (order used rfl (Option.some_ne_none _) checked).1, fun size announced => ?_⟩
        cases asked : if used then parseRange headers else none with
        | none => exact unbroken_ok _
        | some range =>
          cases used with
          | false => cases asked
          | true =>
            have facts (checked : checks = true) := order true rfl (Option.some_ne_none _) checked
            have exact_size (checked : checks = true) := announced_exact small (facts checked).1 announced
            refine (send_range_unbroken fun checked => ?_).mpr fun checked bounded forward => ?_
            · rw [exact_size (same.symm.trans checked)]
              exact Nat.lt_of_le_of_lt (plain_length_le _ _) small
            · have checked := same.symm.trans checked
              rw [exact_size checked]
              exact (facts checked).2 range rfl asked bounded forward

end Serving

section Requests
variable (checks : Bool) (out : Outside) (w : Disk) (share : KeyedShare) (request : Request) (path : Bytes)

/-- `handle` accepts the path of the request: it decodes to this path, and what is there is inside the
    directory, unless links are allowed. -/
structure LetThrough : Prop where
  asked : extractText request.path share.directory = .ok (some path)
  gate : share.allowSymlinks = true ∨ (factsOf w (pathOf path)).isMiss = true ∨
    isRootContained w (pathOf path) (pathOf share.directory) = true

structure Served : Prop where
  item : request.method = .propfind → ∀ content, w.metadata (pathOf path) = .ok (.file content) →
    ItemServed checks out w share path
  listing : request.method = .propfind → ∀ loc, w.canonicalize (pathOf path) = .ok loc →
    w.tree.isDir loc = true → ListingServed checks out w share request.headers path loc
  search : request.method = .get → (utf8 "q=").isPrefixOf request.query = true →
    ∀ loc, w.canonicalize (pathOf path) = .ok loc → w.tree.isDir loc = true →
      SearchServed checks out w share path ((decodeUri (request.query.drop 2)).getD []) loc
  file : request.method = .get → ∀ loc stored, w.lookup true (pathOf path) = .ok loc →
    w.tree.get loc = some (.file stored) → FileServed checks out share request.headers path loc stored

def Outside.checking (out : Outside) (checks : Bool) : Outside :=
  { out with target := { out.target with overflowChecks := checks } }

/-- The answer is reached, without an underflow that checks would find, and without a panic. -/
def Answered (fuel : Nat) : Prop :=
  ∀ checks, ∃ outcome, handle (out.checking checks) share fuel w request = some (w, outcome) ∧
    Unbroken outcome

variable {checks out w share request path} {fuel : Nat}

theorem handle_reads (through : LetThrough w share request path)
    (reads : request.method = .propfind ∨ request.method = .get) :
    handle out share fuel w request = some (w,
      if request.method = .propfind then handlePropfind out share w request path (factsOf w (pathOf path))
      else handleGet out share w request path (factsOf w (pathOf path))) := by
  have closed : (!share.allowSymlinks && !(factsOf w (pathOf path)).isMiss &&
      !isRootContained w (pathOf path) (pathOf share.directory)) = false := by
    rcases through.gate with allowed | miss | contained
    · simp [allowed]
    · simp [miss]
    · simp [contained]
  simp only [handle, through.asked, closed, Bool.false_eq_true, ↓reduceIte]
  rcases reads with propfind | get
  · simp [handleMethod, propfind]
  · simp [handleMethod, get]

theorem target_cases (w : Disk) (path : Bytes) :
    (∃ e, w.metadata (pathOf path) = .error e) ∨
      (∃ loc, w.canonicalize (pathOf path) = .ok loc ∧ w.tree.isDir loc = true) ∨
      ∃ loc stored, w.canonicalize (pathOf path) = .ok loc ∧ w.tree.get loc = some (.file stored) := by
  cases found : w.metadata (pathOf path) with
  | error e => exact .inl ⟨e, rfl⟩
  | ok node =>
    obtain ⟨loc, place, here⟩ := stat_ok_iff.mp found
    have canonical : w.canonicalize (pathOf path) = .ok loc :=
      canonicalize_ok_iff.mpr ⟨place, by rw [here]; exact Option.some_ne_none node⟩
    cases node with
    | dir => exact .inr (.inl ⟨loc, canonical, is_dir_iff.mpr here⟩)
    | file stored => exact .inr (.inr ⟨loc, stored, canonical, here⟩)
    | link target => exact absurd ⟨target, here⟩ (lookup_not_linked place)

theorem missing_reads {e : FsError} (missing : w.metadata (pathOf path) = .error e) :
    Unbroken (if request.method = .propfind then
        handlePropfind out share w request path (factsOf w (pathOf path))
      else handleGet out share w request path (factsOf w (pathOf path))) ∧
      Served checks out w share request path := by
  have nowhere (loc : List Name) : w.canonicalize (pathOf path) ≠ .ok loc := by
    unfold World.canonicalize
    rw [missing]
    exact nofun
  have facts : factsOf w (pathOf path) = ⟨true, false, false, 0⟩ := by
    unfold factsOf
    rw [missing]
  constructor
  · rw [facts]
    split <;> exact unbroken_ok _
  · refine ⟨fun _ content found => ?_, fun _ loc found => absurd found (nowhere loc),
      fun _ _ loc found => absurd found (nowhere loc), fun _ loc stored place here => ?_⟩
    · rw [missing] at found
      cases found
    · refine absurd (canonicalize_ok_iff.mpr ⟨place, ?_⟩) (nowhere loc)
      rw [here]
      exact Option.some_ne_none _

theorem file_reads (same : out.target.overflowChecks = checks) (sizes : Sizable w) {loc : List Name}
    {stored : Bytes} (reads : request.method = .propfind ∨ request.method = .get)
    (canonical : w.canonicalize (pathOf path) = .ok loc) (here : w.tree.get loc = some (.file stored)) :
    Unbroken (if request.method = .propfind then
        handlePropfind out share w request path (factsOf w (pathOf path))
      else handleGet out share w request path (factsOf w (pathOf path))) ↔
      Served checks out w share request path := by
  have place := (canonicalize_ok_iff.mp canonical).1
  have kind : w.metadata (pathOf path) = .ok (.file stored) := stat_ok_iff.mpr ⟨loc, place, here⟩
  have facts : factsOf w (pathOf path) = ⟨false, false, true, stored.length⟩ := by
    unfold factsOf
    rw [kind]
    rfl
  have noDir (loc' : List Name) (canonical' : w.canonicalize (pathOf path) = .ok loc') :
      w.tree.isDir loc' = false := by
    rw [canonical] at canonical'
    cases canonical'
    exact file_not_dir here
  rw [facts]
  rcases reads with propfind | get
  · rw [if_pos propfind]
    refine (propfind_file_unbroken same sizes).trans ⟨fun served => ⟨fun _ _ _ => served,
      fun _ loc' found dir => ?_, fun get => ?_, fun get => ?_⟩, fun served => served.item propfind _ kind⟩
    · exact absurd dir (by simp [noDir loc' found])
    all_goals
      rw [propfind] at get
      cases get
  · have other : request.method ≠ .propfind := by
      rw [get]
      exact nofun
    rw [if_neg other]
    have sent := @send_stored_unbroken checks out share path loc request.headers
      (request.method = .head) stored same (sizes loc stored here)
    have answer : handleGet out share w request path ⟨false, false, true, stored.length⟩ =
        (fun sent => (⟨sent.status, [], .file path sent⟩ : Response)) <$> sendStored out.toSurroundings
          (pathOf path) request.headers (request.method = .head) share.key loc stored := by
      simp only [handleGet, handleSendFile, place, here]
      rfl
    rw [answer, unbroken_map, sent]
    refine ⟨fun served => ⟨fun propfind => absurd propfind other, fun propfind => absurd propfind other,
      fun _ _ loc' found dir => ?_, fun _ loc' stored' place' here' => ?_⟩,
      fun served => served.file get loc stored place here⟩
    · exact absurd dir (by simp [noDir loc' found])
    · rw [place] at place'
      cases place'
      rw [here] at here'
      cases here'
      exact served

theorem directory_reads (same : out.target.overflowChecks = checks) (sizes : Sizable w) {loc : List Name}
    (through : LetThrough w share request path)
    (reads : request.method = .propfind ∨ request.method = .get)
    (canonical : w.canonicalize (pathOf path) = .ok loc) (dir : w.tree.isDir loc = true) :
    Unbroken (if request.method = .propfind then
        handlePropfind out share w request path (factsOf w (pathOf path))
      else handleGet out share w request path (factsOf w (pathOf path))) ↔
      Served checks out w share request path := by
  obtain ⟨place, there⟩ := canonicalize_ok_iff.mp canonical
  have kind : w.metadata (pathOf path) = .ok .dir := stat_ok_iff.mpr ⟨loc, place, is_dir_iff.mp dir⟩
  have facts : factsOf w (pathOf path) = ⟨false, true, false, 0⟩ := by
    unfold factsOf
    rw [kind]
    rfl
  have here (loc' : List Name) (found : w.canonicalize (pathOf path) = .ok loc') : loc' = loc := by
    rw [canonical] at found
    exact (Except.ok.inj found).symm
  rw [facts]
  rcases reads with propfind | get
  · rw [if_pos propfind]
    obtain ⟨_, itself, place', kind'⟩ := lookup_unfollowed place there
    have found : Found w share path loc .dir itself := by
      refine ⟨canonical, kind, stat_ok_iff.mpr ⟨_, place', kind'⟩, ?_⟩
      rcases through.gate with allowed | miss | contained
      · exact .inl allowed
      · rw [facts] at miss
        cases miss
      · exact .inr (.inr contained)
    refine (propfind_dir_unbroken same sizes found dir).trans ⟨fun served => ⟨fun _ content file => ?_,
      fun _ loc' found' _ => here loc' found' ▸ served, fun get => ?_, fun get => ?_⟩,
      fun served => served.listing propfind loc canonical dir⟩
    · rw [kind] at file
      cases file
    all_goals
      rw [propfind] at get
      cases get
  · have other : request.method ≠ .propfind := by
      rw [get]
      exact nofun
    rw [if_neg other]
    have noFile (loc' : List Name) (stored : Bytes) (found : w.lookup true (pathOf path) = .ok loc') :
        w.tree.get loc' ≠ some (.file stored) := by
      rw [place] at found
      cases found
      rw [is_dir_iff.mp dir]
      exact nofun
    have shape : Served checks out w share request path ↔ ((utf8 "q=").isPrefixOf request.query = true →
        SearchServed checks out w share path ((decodeUri (request.query.drop 2)).getD []) loc) :=
      ⟨fun served asked => served.search get asked loc canonical dir,
        fun served => ⟨fun propfind => absurd propfind other, fun propfind => absurd propfind other,
          fun _ asked loc' found _ => here loc' found ▸ served asked,
          fun _ loc' stored found file => absurd file (noFile loc' stored found)⟩⟩
    rw [shape]
    unfold handleGet
    dsimp only
    rw [if_pos rfl]
    split
    · rename_i zip
      have asked : (utf8 "q=").isPrefixOf request.query = false := by
        rw [zip]
        decide
      refine iff_of_true ?_ (by simp [asked])
      unfold handleZipDir
      repeat' split
      all_goals first | exact unbroken_failed | exact unbroken_ok _
    · split
      · rename_i asked
        rw [query_dir_unbroken same sizes place dir]
        exact ⟨fun served _ => served, fun served => served asked⟩
      · rename_i other
        exact iff_of_true (unbroken_ok _) fun asked => absurd asked other

theorem reading_unbroken (same : out.target.overflowChecks = checks) (sizes : Sizable w)
    (through : LetThrough w share request path)
    (reads : request.method = .propfind ∨ request.method = .get) :
    (∃ outcome, handle out share fuel w request = some (w, outcome) ∧ Unbroken outcome) ↔
      Served checks out w share request path := by
  rw [handle_reads through reads]
  have one (outcome : Outcome) : (∃ outcome', some (w, outcome) = some (w, outcome') ∧ Unbroken outcome') ↔
      Unbroken outcome := by simp
  rw [one]
  rcases target_cases w path with ⟨e, missing⟩ | ⟨loc, canonical, dir⟩ | ⟨loc, stored, canonical, here⟩
  · obtain ⟨unbroken, served⟩ := missing_reads missing
    exact iff_of_true unbroken served
  · exact directory_reads same sizes through reads canonical dir
  · exact file_reads same sizes reads canonical here

theorem served_checking {machine : Bool} :
    Served checks (out.checking machine) w share request path ↔ Served checks out w share request path := by
  constructor
  · intro served
    exact ⟨served.item, served.listing, served.search, fun get loc stored place here =>
      ⟨(served.file get loc stored place here).dated, (served.file get loc stored place here).sized⟩⟩
  · intro served
    exact ⟨served.item, served.listing, served.search, fun get loc stored place here =>
      ⟨(served.file get loc stored place here).dated, (served.file get loc stored place here).sized⟩⟩

theorem served_unchecked (served : Served true out w share request path) :
    Served checks out w share request path := by
  have order {entry : Bytes} (strict : InOrder true out w share entry) :
      InOrder checks out w share entry := by
    intro loc node itself time found known
    obtain ⟨since, sized⟩ := strict loc node itself time found known
    exact ⟨since, fun _ => sized rfl⟩
  refine ⟨fun propfind content file => ?_, fun propfind loc found dir asked => ?_,
    fun get asked loc found dir names some_left there matched => ?_, fun get loc stored place here => ?_⟩
  · obtain ⟨named, strict, writable⟩ := served.item propfind content file
    exact ⟨named, order strict, writable⟩
  · obtain ⟨⟨named, strict, writable⟩, entries⟩ := served.listing propfind loc found dir asked
    refine ⟨⟨named, order strict, writable⟩, fun deep known n there => ?_⟩
    obtain ⟨strict', writable'⟩ := entries deep known n there
    exact ⟨order strict', writable'⟩
  · exact order (served.search get asked loc found dir names some_left there matched)
  · obtain ⟨dated, sized⟩ := served.file get loc stored place here
    exact ⟨dated, fun validators used fresh used' named _ => sized validators used fresh used' named rfl⟩

end Requests

/-- PROPFIND, the search and GET reach their answer exactly if the files are served. -/
theorem answered_iff (out : Outside) (w : Disk) (share : KeyedShare) (request : Request) (path : Bytes)
    (fuel : Nat) (sizes : Sizable w) (through : LetThrough w share request path)
    (reads : request.method = .propfind ∨ request.method = .get) :
    Answered out w share request fuel ↔ Served true out w share request path := by
  have each (checks : Bool) := @reading_unbroken checks (out.checking checks) w share request path fuel rfl
    sizes through reads
  constructor
  · intro answered
    exact served_checking.mp ((each true).mp (answered true))
  · intro served checks
    exact (each checks).mpr (served_checking.mpr (served_unchecked served))

theorem three_bytes_sizable : Sizable threeBytesDisk := by
  intro loc content here
  simp only [threeBytesDisk, put_get] at here
  split at here
  · cases here
    decide
  split at here
  · cases here
  · simp only [Tree.bare] at here
    split at here <;> cases here

theorem root_let_through (key : Option Key) :
    LetThrough threeBytesDisk { closedShare with key := key } listRoot (utf8 "/d/") := by
  have inside : isRootContained threeBytesDisk (pathOf (utf8 "/d/")) (pathOf (utf8 "/d")) = true := by
    decide
  exact ⟨rfl, .inr (.inr inside)⟩

/-- Without a key the directory of the file is listed. -/
theorem keyless_root_answered : Answered sampleOutside threeBytesDisk closedShare listRoot 0 := by
  have order (path : Bytes) : InOrder true sampleOutside threeBytesDisk closedShare path := by
    intro loc node itself time found known
    cases known
    exact ⟨Int.le_refl 0, fun _ keyed => absurd rfl keyed⟩
  have writes (path : Bytes) : Writable sampleOutside threeBytesDisk closedShare path :=
    fun _ _ _ _ _ _ => Option.some_ne_none _
  have item : ItemServed true sampleOutside threeBytesDisk closedShare (utf8 "/d/") :=
    ⟨by decide, order _, writes _⟩
  exact (answered_iff sampleOutside threeBytesDisk closedShare listRoot (utf8 "/d/") 0 three_bytes_sizable
    (root_let_through none) (.inl rfl)).mpr
    ⟨fun _ _ _ => item, fun _ _ _ _ _ => ⟨item, fun _ _ n _ => ⟨order _, writes _⟩⟩, nofun, nofun⟩

/-- Under a key the same file, which is shorter than a nonce, makes its directory unlistable. -/
theorem short_file_breaks :
    LetThrough threeBytesDisk { closedShare with key := some sampleKey } listRoot (utf8 "/d/") ∧
      handle (sampleOutside.checking true) { closedShare with key := some sampleKey } 0 threeBytesDisk
        listRoot = some (threeBytesDisk, .error (.panicked .arithmetic)) ∧
      ¬ Answered sampleOutside threeBytesDisk { closedShare with key := some sampleKey } listRoot 0 := by
  have run : handle (sampleOutside.checking true) { closedShare with key := some sampleKey } 0
      threeBytesDisk listRoot = some (threeBytesDisk, .error (.panicked .arithmetic)) := rfl
  refine ⟨root_let_through _, run, fun answered => ?_⟩
  obtain ⟨outcome, run', unbroken⟩ := answered true
  rw [run] at run'
  cases run'
  exact broken_panicked _ unbroken

end VestibuleWebdav
