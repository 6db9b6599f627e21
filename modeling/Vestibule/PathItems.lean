import Vestibule.HrefTexts
import Vestibule.ReadContainment

/-!
What a listing reads of each entry, and when an answer is reached: the answer may be an error, but no
operation of it panics.
-/
namespace VestibuleWebdav
open VestibuleRust LexicalMotion FileTree FileCalls World LinkedLookups LinkedCalls PlainLookups
  VestibulePaths VestibuleCopyMove VestibuleStreamer VestibuleStorage VestibuleRanges

/-- No panic and no failed unwrap on the way to this result. -/
def Unbroken {α : Type} (x : Except Fault α) : Prop := x ≠ .error .unwrapped ∧ ∀ p, x ≠ .error (.panicked p)

section Unbroken
variable {α β : Type}

@[simp] theorem unbroken_ok (a : α) : Unbroken (.ok a : Except Fault α) := by simp [Unbroken]

@[simp] theorem unbroken_failed : Unbroken (.error .failed : Except Fault α) := by simp [Unbroken]

@[simp] theorem broken_unwrapped : ¬ Unbroken (.error .unwrapped : Except Fault α) := by simp [Unbroken]

@[simp] theorem broken_panicked (p : Panic) : ¬ Unbroken (.error (.panicked p) : Except Fault α) := by
  simp [Unbroken]

theorem unbroken_bind {x : Except Fault α} {f : α → Except Fault β} :
    Unbroken (x >>= f) ↔ Unbroken x ∧ ∀ a, x = .ok a → Unbroken (f a) := by
  cases x with
  | error fault =>
    have same : (Except.error fault >>= f) = (.error fault : Except Fault β) := rfl
    rw [same]
    cases fault <;> simp
  | ok a =>
    have same : (Except.ok a >>= f) = f a := rfl
    rw [same]
    simp

@[simp] theorem unbroken_map {x : Except Fault α} {f : α → β} : Unbroken (f <$> x) ↔ Unbroken x := by
  cases x with
  | error fault => cases fault <;> simp [Functor.map, Except.map]
  | ok a => simp [Functor.map, Except.map]

end Unbroken

section Names
variable {listing : DiskListing} {t : DiskTree} {loc : List Name}

theorem read_names_once {fuel : Nat} {seen : List Name} (once : seen.Nodup) :
    (readNames listing t loc fuel seen).Nodup := by
  induction fuel generalizing seen with
  | zero => exact once
  | succ fuel ih =>
    rw [readNames]
    cases next : listing.next t t loc seen with
    | none => exact once
    | some n =>
      exact ih (listed_once once (List.subset_append_left seen [n]) (listing.fresh _ _ _ _ _ next)
        (List.mem_append_right _ List.mem_cons_self)).1

theorem read_names_complete {fuel : Nat} {seen : List Name} (once : seen.Nodup)
    (listed : seen ⊆ entries t loc) (enough : (entries t loc).length < fuel + seen.length) {n : Name}
    (there : t.get (loc ++ [n]) ≠ none) : n ∈ readNames listing t loc fuel seen := by
  induction fuel generalizing seen with
  | zero =>
    have bound := once.length_le_of_subset listed
    omega
  | succ fuel ih =>
    rw [readNames]
    cases next : listing.next t t loc seen with
    | none => exact listing.complete _ _ _ _ n next there there
    | some m =>
      have here := (listing.sound _ _ _ _ _ next).elim id id
      obtain ⟨once', listed'⟩ := listed_once once listed (listing.fresh _ _ _ _ _ next)
        (mem_entries.mpr here)
      apply ih once' listed'
      rw [List.length_append, List.length_singleton]
      omega

theorem read_dir_names (listing : DiskListing) (t : DiskTree) (loc : List Name) :
    (readNames listing t loc ((entries t loc).length + 1) []).Nodup ∧
      ∀ n, n ∈ readNames listing t loc ((entries t loc).length + 1) [] ↔ t.get (loc ++ [n]) ≠ none := by
  refine ⟨read_names_once List.nodup_nil, fun n => ?_⟩
  constructor
  · exact read_names_sound fun _ member => by cases member
  · exact read_names_complete List.nodup_nil (List.nil_subset _) (by simp)

end Names

section Collecting
variable {item : Bytes → Except Fault (Option PathItem)} {paths : List Bytes}

/-- The loop of a listing breaks exactly with one of its entries. -/
theorem collect_items_unbroken :
    Unbroken (collectItems item paths) ↔ ∀ path ∈ paths, Unbroken (item path) := by
  induction paths with
  | nil => simp [collectItems]
  | cons path rest ih =>
    rw [collectItems, List.forall_mem_cons, ← ih]
    cases item path with
    | error fault => cases fault <;> simp
    | ok found =>
      cases found with
      | none => simp
      | some found =>
        dsimp only
        simp

theorem collect_items_all (all : ∀ path ∈ paths, ∃ found, item path = .ok (some found)) :
    ∃ listed, collectItems item paths = .ok listed ∧ listed.map Listed.path = paths := by
  induction paths with
  | nil => exact ⟨[], rfl, rfl⟩
  | cons path rest ih =>
    obtain ⟨found, shown⟩ := all path List.mem_cons_self
    obtain ⟨listed, run, paths⟩ := ih fun other member => all other (List.mem_cons_of_mem _ member)
    refine ⟨⟨path, found⟩ :: listed, ?_, by rw [List.map_cons, paths]⟩
    rw [collectItems, shown, run]
    rfl

theorem collect_items_not_failed : collectItems item paths ≠ .error .failed := by
  induction paths with
  | nil =>
    intro failed
    cases failed
  | cons path rest ih =>
    rw [collectItems]
    cases item path with
    | error fault =>
      cases fault with
      | failed => exact ih
      | panicked p =>
        intro failed
        cases failed
      | unwrapped =>
        intro failed
        cases failed
    | ok found =>
      cases found with
      | none => exact ih
      | some found =>
        cases later : collectItems item rest with
        | ok listed =>
          intro failed
          cases failed
        | error fault =>
          intro failed
          cases failed
          exact ih later

theorem collect_items_shows {listed : List Listed} (run : collectItems item paths = .ok listed)
    {path : Bytes} (member : path ∈ paths) {found : PathItem} (read : item path = .ok (some found)) :
    ⟨path, found⟩ ∈ listed := by
  induction paths generalizing listed with
  | nil => cases member
  | cons first rest ih =>
    rw [collectItems] at run
    rcases List.mem_cons.mp member with same | more
    · subst same
      rw [read] at run
      obtain ⟨later, _, run⟩ := bind_ok_iff.mp run
      cases run
      exact List.mem_cons_self
    · cases outcome : item first with
      | error fault =>
        rw [outcome] at run
        cases fault with
        | failed => exact ih run more
        | panicked p => cases run
        | unwrapped => cases run
      | ok shown =>
        rw [outcome] at run
        cases shown with
        | none => exact ih run more
        | some shown =>
          obtain ⟨later, collected, run⟩ := bind_ok_iff.mp run
          cases run
          exact List.mem_cons_of_mem _ (ih collected more)

end Collecting

section Entry
variable (out : Outside) (w : Disk) (share : KeyedShare)

/-- What `to_pathitem` finds at a path that it does not hide: where the path leads, what is there, and
    whether the path is itself a link. -/
structure Found (path : Bytes) (loc : List Name) (node itself : Node Name UInt8) : Prop where
  canonical : w.canonicalize (pathOf path) = .ok loc
  followed : w.metadata (pathOf path) = .ok node
  here : w.symlinkMetadata (pathOf path) = .ok itself
  shown : share.allowSymlinks = true ∨ isLink itself = false ∨
    isRootContained w (pathOf path) (pathOf share.directory) = true

def sizeOf (node : Node Name UInt8) : Except Fault (Option Nat) :=
  if World.isDirNode node then .ok none
  else (announcedSize out.target share.key (contentLength node)).map some

variable {out w share} {path base rel : Bytes} {loc : List Name} {node itself : Node Name UInt8}

theorem found_unique {loc' : List Name} {node' itself' : Node Name UInt8}
    (found : Found w share path loc node itself) (found' : Found w share path loc' node' itself') :
    loc' = loc ∧ node' = node := by
  have place := found'.canonical
  have kind := found'.followed
  rw [found.canonical] at place
  rw [found.followed] at kind
  exact ⟨(Except.ok.inj place).symm, (Except.ok.inj kind).symm⟩

theorem pathitem_found (stripped : stripPrefix path base = some rel)
    (found : Found w share path loc node itself) :
    toPathitem out w share path base = do
      let mtime ← modifiedAt out loc
      let size ← sizeOf out share node
      return some ⟨pathTypeOf (isLink itself) (World.isDirNode node), strOrDefault rel, mtime, size⟩ := by
  have shown : (!share.allowSymlinks && isLink itself &&
      !isRootContained w (pathOf path) (pathOf share.directory)) = false := by
    rcases found.shown with allowed | plain | contained
    · simp [allowed]
    · simp [plain]
    · simp [contained]
  unfold toPathitem sizeOf
  simp only [stripped, found.canonical, found.followed, found.here, shown]
  cases World.isDirNode node <;> rfl

theorem pathitem_missing (stripped : stripPrefix path base = some rel)
    (missing : ∀ loc node itself, ¬ Found w share path loc node itself) :
    toPathitem out w share path base = .error .failed ∨ toPathitem out w share path base = .ok none := by
  unfold toPathitem
  rw [stripped]
  dsimp only
  split
  · rename_i loc node itself canonical followed here
    split
    · exact .inr rfl
    · rename_i shown
      refine absurd ⟨canonical, followed, here, ?_⟩ (missing loc node itself)
      cases allowed : share.allowSymlinks with
      | true => exact .inl rfl
      | false =>
        cases link : isLink itself with
        | false => exact .inr (.inl rfl)
        | true => exact .inr (.inr (by simpa [allowed, link] using shown))
  · exact .inl rfl

theorem pathitem_some {item : PathItem} (run : toPathitem out w share path base = .ok (some item)) :
    ∃ rel loc node itself mtime size, stripPrefix path base = some rel ∧
      Found w share path loc node itself ∧ modifiedAt out loc = .ok mtime ∧
      sizeOf out share node = .ok size ∧
      item = ⟨pathTypeOf (isLink itself) (World.isDirNode node), strOrDefault rel, mtime, size⟩ := by
  cases stripped : stripPrefix path base with
  | none =>
    unfold toPathitem at run
    rw [stripped] at run
    cases run
  | some rel =>
    by_cases there : ∃ loc node itself, Found w share path loc node itself
    · obtain ⟨loc, node, itself, found⟩ := there
      rw [pathitem_found stripped found] at run
      obtain ⟨mtime, time, run⟩ := bind_ok_iff.mp run
      obtain ⟨size, sized, run⟩ := bind_ok_iff.mp run
      cases run
      exact ⟨rel, loc, node, itself, mtime, size, rfl, found, time, sized, rfl⟩
    · have absent : ∀ loc node itself, ¬ Found w share path loc node itself :=
        fun loc node itself found => there ⟨loc, node, itself, found⟩
      rcases @pathitem_missing out w share path base rel stripped absent with failed | hidden
      · rw [failed] at run
        cases run
      · rw [hidden] at run
        cases run

theorem modified_at_ok {mtime : Nat} : modifiedAt out loc = .ok mtime ↔
    ∃ time, out.modified loc = some time ∧ 0 ≤ time ∧ time.toNat % u64Limit = mtime := by
  unfold modifiedAt toTimestamp
  cases out.modified loc with
  | none => simp
  | some time =>
    by_cases since : 0 ≤ time
    · simp [since]
    · simp [since]

theorem pathitem_unbroken : Unbroken (toPathitem out w share path base) ↔
    stripPrefix path base ≠ none ∧ ∀ loc node itself, Found w share path loc node itself →
      ∀ time, out.modified loc = some time → 0 ≤ time ∧ Unbroken (sizeOf out share node) := by
  cases stripped : stripPrefix path base with
  | none =>
    have broken : toPathitem out w share path base = .error .unwrapped := by
      unfold toPathitem
      rw [stripped]
    simp [broken]
  | some rel =>
    by_cases there : ∃ loc node itself, Found w share path loc node itself
    · obtain ⟨loc, node, itself, found⟩ := there
      rw [pathitem_found stripped found]
      have one : (∀ loc' node' itself', Found w share path loc' node' itself' →
          ∀ time, out.modified loc' = some time → 0 ≤ time ∧ Unbroken (sizeOf out share node')) ↔
          ∀ time, out.modified loc = some time → 0 ≤ time ∧ Unbroken (sizeOf out share node) := by
        constructor
        · exact fun all => all loc node itself found
        · intro here loc' node' itself' found'
          obtain ⟨place, kind⟩ := found_unique found found'
          rw [place, kind]
          exact here
      rw [one, unbroken_bind, modifiedAt]
      cases out.modified loc with
      | none => simp
      | some time =>
        dsimp only
        by_cases since : 0 ≤ time
        · simp [toTimestamp, since]
        · simp [toTimestamp, since]
    · have missing := fun loc node itself found => there ⟨loc, node, itself, found⟩
      rcases @pathitem_missing out w share path base rel stripped missing with failed | hidden
      · simpa [failed] using fun loc node itself found => absurd found (missing loc node itself)
      · simpa [hidden] using fun loc node itself found => absurd found (missing loc node itself)

theorem pathitem_shown (unbroken : Unbroken (toPathitem out w share path base))
    (found : Found w share path loc node itself) {time : Int} (known : out.modified loc = some time) :
    ∃ item, toPathitem out w share path base = .ok (some item) ∧
      item.mtime = time.toNat % u64Limit := by
  obtain ⟨named, order⟩ := pathitem_unbroken.mp unbroken
  obtain ⟨rel, stripped⟩ := Option.ne_none_iff_exists'.mp named
  obtain ⟨since, sized⟩ := order loc node itself found time known
  have size : ∃ size, sizeOf out share node = .ok size := by
    revert sized
    unfold sizeOf announcedSize liftPanic
    repeat' split
    all_goals simp [Except.map]
  obtain ⟨size, delivered⟩ := size
  rw [pathitem_found stripped found, modified_at_ok.mpr ⟨time, known, since, rfl⟩, delivered]
  exact ⟨_, rfl, rfl⟩

end Entry
end VestibuleWebdav
