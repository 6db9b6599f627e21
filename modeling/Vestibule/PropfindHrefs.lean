import Vestibule.PathItems

/-!
The hrefs of a PROPFIND against the paths that requests with them ask for.
-/
namespace VestibuleWebdav
open VestibuleRust LexicalMotion FileTree FileCalls World LinkedLookups LinkedCalls PlainLookups
  VestibulePaths VestibuleCopyMove VestibuleStreamer VestibuleStorage VestibuleRanges

section Answers
variable (out : Outside) (w : Disk) (share : KeyedShare)

/-- A PROPFIND is answered with one item for the directory and one for each of its entries, under
    hrefs that are all different, and a request with any of them asks for the path of its item. -/
def HrefsLeadBack (fuel : Nat) (request : Request) (path : Bytes) (loc : List Name) : Prop :=
  ∃ (names : List Name) (listed : List Listed) (content : Bytes),
    handle out share fuel w request = some (w, .ok (resMultistatus listed content)) ∧
    itemsXml out (listed.map Listed.item) = .ok content ∧
    names.Nodup ∧ (∀ n, n ∈ names ↔ w.tree.get (loc ++ [n]) ≠ none) ∧
    listed.map Listed.path = path :: names.map (joinText path) ∧
    (listed.map fun shown => shown.item.href).Nodup ∧
    ∀ shown ∈ listed, ∃ back, extractText shown.item.href share.directory = .ok (some back) ∧
      samePath (pathOf back) (pathOf shown.path) = true

def Dated (place : List Name) : Prop :=
  ∃ time, out.modified place = some time ∧ 0 ≤ time ∧
    out.toRfc2822 (asI64 (time.toNat % u64Limit)) ≠ none

/-- The depth is a number, no two dots stand in the path below the directory of the dav or in the name
    of an entry, and the times of the directory and of its entries can be written. -/
structure Listable (request : Request) (path : Bytes) (loc : List Name) : Prop where
  depth : propfindDepth request.headers ≠ none
  relative : ∃ rel, stripPrefix path share.directory = some rel ∧ containsDots rel = false
  names : ∀ n, w.tree.get (loc ++ [n]) ≠ none → containsDots n = false
  dated : Dated out loc
  entries : ∀ n, w.tree.get (loc ++ [n]) ≠ none → Dated out (loc ++ [n])

end Answers

section Texts
variable {out : Outside}

theorem dav_xml_ok_iff {item : PathItem} :
    (∃ text, item.toDavXml out = .ok text) ↔ out.toRfc2822 (asI64 item.mtime) ≠ none := by
  unfold PathItem.toDavXml
  cases out.toRfc2822 (asI64 item.mtime) <;> simp

theorem items_xml_ok_iff {items : List PathItem} :
    (∃ content, itemsXml out items = .ok content) ↔
      ∀ item ∈ items, out.toRfc2822 (asI64 item.mtime) ≠ none := by
  induction items with
  | nil => simp [itemsXml]
  | cons item rest ih =>
    rw [List.forall_mem_cons, ← ih, ← dav_xml_ok_iff, itemsXml]
    constructor
    · rintro ⟨content, run⟩
      obtain ⟨first, written, run⟩ := bind_ok_iff.mp run
      obtain ⟨later, written', _⟩ := bind_ok_iff.mp run
      exact ⟨⟨first, written⟩, later, written'⟩
    · rintro ⟨⟨first, written⟩, later, written'⟩
      refine ⟨first ++ later, ?_⟩
      rw [written, written']
      rfl

end Texts

section Reading
variable {out : Outside} {w : Disk} {share : KeyedShare} {request : Request} {path : Bytes}
  {top loc : List Name} {fuel : Nat}

theorem handle_propfind (method : request.method = .propfind)
    (asked : extractText request.path share.directory = .ok (some path))
    (contained : Contained w share path) (found : w.canonicalize (pathOf path) = .ok loc)
    (dir : w.tree.isDir loc = true) :
    handle out share fuel w request =
      some (w, handlePropfindDir out w share path request.headers) := by
  have place := (canonicalize_ok_iff.mp found).1
  have kind : w.metadata (pathOf path) = .ok .dir := stat_ok_iff.mpr ⟨loc, place, is_dir_iff.mp dir⟩
  have facts : factsOf w (pathOf path) = ⟨false, true, false, 0⟩ := by
    unfold factsOf
    rw [kind]
    rfl
  have gate := root_contained_iff.mpr contained
  simp only [handle, asked, facts, gate, handleMethod, method, handlePropfind]
  simp

theorem propfind_dir_ok {headers : Headers} {listed : List Listed} {content : Bytes}
    (deep : propfindDepth headers ≠ some 0)
    (run : handlePropfindDir out w share path headers = .ok (resMultistatus listed content)) :
    propfindDepth headers ≠ none ∧ ∃ item child,
      toPathitem out w share path share.directory = .ok (some item) ∧
      listDir out w share path share.directory = .ok child ∧ listed = ⟨path, item⟩ :: child := by
  unfold handlePropfindDir at run
  cases depth : propfindDepth headers with
  | none =>
    rw [depth] at run
    cases run
  | some depth' =>
    rw [depth] at run
    dsimp only at run
    obtain ⟨found, read, run⟩ := bind_ok_iff.mp run
    cases found with
    | none => cases run
    | some item =>
      have other : depth' ≠ 0 := fun same => deep (by rw [depth, same])
      dsimp only at run
      rw [if_neg other] at run
      cases below : listDir out w share path share.directory with
      | error fault =>
        rw [below] at run
        cases fault <;> cases run
      | ok child =>
        rw [below] at run
        obtain ⟨written, _, run⟩ := bind_ok_iff.mp run
        have same := congrArg Response.payload (Except.ok.inj run)
        exact ⟨Option.some_ne_none _, item, child, read, rfl, (Payload.items.inj same).1.symm⟩

theorem propfind_dir_answers {headers : Headers} {item : PathItem} {child : List Listed} {content : Bytes}
    (deep : propfindDepth headers ≠ some 0) (depth : propfindDepth headers ≠ none)
    (read : toPathitem out w share path share.directory = .ok (some item))
    (below : listDir out w share path share.directory = .ok child)
    (written : itemsXml out ((⟨path, item⟩ :: child).map Listed.item) = .ok content) :
    handlePropfindDir out w share path headers = .ok (resMultistatus (⟨path, item⟩ :: child) content) := by
  obtain ⟨depth', number⟩ := Option.ne_none_iff_exists'.mp depth
  have other : depth' ≠ 0 := fun same => deep (by rw [number, same])
  simp only [handlePropfindDir, number, read, below, bind, Except.bind, if_neg other, written]
  rfl

theorem list_dir_items {basePath : Bytes} (found : w.lookup true (pathOf path) = .ok loc)
    (dir : w.tree.isDir loc = true) : ∃ names : List Name, names.Nodup ∧
      (∀ n, n ∈ names ↔ w.tree.get (loc ++ [n]) ≠ none) ∧
      listDir out w share path basePath = collectItems
        (fun entry => toPathitem out w share entry basePath) (names.map (joinText path)) := by
  obtain ⟨once, all⟩ := read_dir_names out.listing w.tree loc
  refine ⟨_, once, all, ?_⟩
  simp only [listDir, readDir, found, dir, ↓reduceIte]

theorem entry_found {n : Name} {node : Node Name UInt8} (found : w.lookup true (pathOf path) = .ok loc)
    (dir : w.tree.isDir loc = true) (here : w.tree.get (loc ++ [n]) = some node)
    (plain : ¬ Linked w.tree (loc ++ [n])) :
    Found w share (joinText path n) (loc ++ [n]) node node := by
  have there : w.tree.get (loc ++ [n]) ≠ none := by
    rw [here]
    exact Option.some_ne_none _
  have place (follow : Bool) : w.lookup follow (pathOf (joinText path n)) = .ok (loc ++ [n]) :=
    below_lookup found dir (List.cons_ne_nil n []) there (.inr plain)
  refine ⟨canonicalize_ok_iff.mpr ⟨place true, there⟩, stat_ok_iff.mpr ⟨_, place true, here⟩,
    stat_ok_iff.mpr ⟨_, place false, here⟩, .inr (.inl ?_)⟩
  cases node with
  | link target => exact absurd ⟨target, here⟩ plain
  | dir => rfl
  | file content => rfl

theorem directory_found (contained : Contained w share path)
    (found : w.canonicalize (pathOf path) = .ok loc) (dir : w.tree.isDir loc = true) :
    ∃ itself, Found w share path loc .dir itself := by
  obtain ⟨place, there⟩ := canonicalize_ok_iff.mp found
  obtain ⟨loc', itself, place', here⟩ := lookup_unfollowed place there
  exact ⟨itself, found, stat_ok_iff.mpr ⟨loc, place, is_dir_iff.mp dir⟩,
    stat_ok_iff.mpr ⟨loc', place', here⟩, .inr (.inr (root_contained_iff.mpr contained))⟩

theorem keyless_sized (keyless : share.key = none) (node : Node Name UInt8) :
    ∃ size, sizeOf out share node = .ok size := by
  unfold sizeOf announcedSize
  rw [keyless]
  split
  · exact ⟨none, rfl⟩
  · exact ⟨some (contentLength node), rfl⟩

theorem listed_iff_dated {base rel : Bytes} {node itself : Node Name UInt8} (keyless : share.key = none)
    (stripped : stripPrefix path base = some rel) (found : Found w share path loc node itself) :
    (∃ item, toPathitem out w share path base = .ok (some item) ∧
      out.toRfc2822 (asI64 item.mtime) ≠ none) ↔ Dated out loc := by
  obtain ⟨size, sized⟩ := @keyless_sized out share keyless node
  rw [pathitem_found stripped found]
  constructor
  · rintro ⟨item, run, written⟩
    obtain ⟨mtime, read, run⟩ := bind_ok_iff.mp run
    obtain ⟨time, known, since, same⟩ := modified_at_ok.mp read
    rw [sized] at run
    cases run
    exact ⟨time, known, since, same ▸ written⟩
  · rintro ⟨time, known, since, written⟩
    have read := modified_at_ok.mpr ⟨time, known, since, rfl⟩
    rw [read, sized]
    exact ⟨_, rfl, written⟩

/-- A request with the href of an item asks for the path that the item was made from, if it is let
    through. -/
theorem href_asks {item : PathItem} (valid : validUtf8 path = true)
    (run : toPathitem out w share path share.directory = .ok (some item)) :
    ∃ rel back, stripPrefix path share.directory = some rel ∧
      samePath (pathOf back) (pathOf path) = true ∧
      extractText item.href share.directory = .ok (if containsDots rel then none else some back) := by
  obtain ⟨rel, _, _, _, _, _, stripped, _, _, _, made⟩ := pathitem_some run
  have valid' := stripped_valid stripped valid
  have named : item.name = rel := by
    rw [made]
    exact if_pos valid'
  obtain ⟨shown, either, asked⟩ := extract_href item share.directory (named ▸ valid')
  rw [named] at either asked
  exact ⟨rel, _, stripped, (strip_prefix_stripped stripped).back shown either, asked⟩

theorem hrefs_distinct {listed : List Listed}
    (apart : (listed.map fun shown => components (pathOf shown.path)).Nodup)
    (back : ∀ shown ∈ listed, ∃ back, extractText shown.item.href share.directory = .ok (some back) ∧
      samePath (pathOf back) (pathOf shown.path) = true) :
    (listed.map fun shown => shown.item.href).Nodup := by
  apply (List.Nodup.of_map _ apart).map_on
  intro shown member shown' member' same
  obtain ⟨text, asked, leads⟩ := back shown member
  obtain ⟨text', asked', leads'⟩ := back shown' member'
  rw [same, asked'] at asked
  cases asked
  apply List.inj_on_of_nodup_map apart member member'
  simp only [samePath, Bool.and_eq_true, decide_eq_true_eq] at leads leads'
  rw [← leads.2, ← leads'.2]

theorem entries_apart {names : List Name} (once : names.Nodup) (legal : Legal names) :
    ((path :: names.map (joinText path)).map fun shown => components (pathOf shown)).Nodup := by
  have entry (n : Name) (member : n ∈ names) := components_entry path (legal n member)
  rw [List.map_cons, List.map_map, List.nodup_cons]
  constructor
  · intro member
    obtain ⟨n, named, same⟩ := List.mem_map.mp member
    have longer := congrArg List.length ((entry n named).symm.trans same)
    simp at longer
  · apply once.map_on
    intro n member n' member' same
    have last := (entry n member).symm.trans (same.trans (entry n' member'))
    simpa using last

theorem led_back_plain {shown : Listed} {rel : Bytes} (valid : validUtf8 shown.path = true)
    (run : toPathitem out w share shown.path share.directory = .ok (some shown.item))
    (stripped : stripPrefix shown.path share.directory = some rel)
    (back : ∃ back, extractText shown.item.href share.directory = .ok (some back) ∧
      samePath (pathOf back) (pathOf shown.path) = true) : containsDots rel = false := by
  obtain ⟨_, _, stripped', _, asked⟩ := href_asks valid run
  obtain ⟨text, asked', _⟩ := back
  rw [stripped] at stripped'
  cases stripped'
  rw [asked'] at asked
  by_contra dots
  rw [Bool.not_eq_false] at dots
  rw [dots] at asked
  cases asked

section Listings
variable (keyless : share.key = none) (contained : Contained w share path)
  (found : w.canonicalize (pathOf path) = .ok loc) (dir : w.tree.isDir loc = true)
  (free : ∀ n, ¬ Linked w.tree (loc ++ [n])) (valid : validUtf8 path = true)
  (utf : ∀ n, w.tree.get (loc ++ [n]) ≠ none → validUtf8 n = true)
  (deep : propfindDepth request.headers ≠ some 0)
  (answered : handle out share fuel w request =
    some (w, handlePropfindDir out w share path request.headers))

include keyless contained found dir free valid utf deep answered

theorem listable_of_hrefs (back : HrefsLeadBack out w share fuel request path loc) :
    Listable out w share request path loc := by
  obtain ⟨names, listed, content, run, written, once, all, paths, _, back⟩ := back
  rw [answered] at run
  obtain ⟨depth, item, child, read, below, same⟩ :=
    propfind_dir_ok deep (congrArg Prod.snd (Option.some.inj run))
  have renders := items_xml_ok_iff.mp ⟨content, written⟩
  have place := (canonicalize_ok_iff.mp found).1
  obtain ⟨itself, here⟩ := directory_found contained found dir
  obtain ⟨rel, _, _, _, _, _, stripped, _⟩ := pathitem_some read
  have first : (⟨path, item⟩ : Listed) ∈ listed := same ▸ List.mem_cons_self
  have plain := @led_back_plain _ _ _ ⟨path, item⟩ rel valid read stripped (back _ first)
  have dated := (listed_iff_dated keyless stripped here).mp
    ⟨item, read, renders item (List.mem_map_of_mem first)⟩
  -- every entry has its item among those of the directory
  have shows : ∀ n, w.tree.get (loc ++ [n]) ≠ none → ∃ shown ∈ listed, shown.path = joinText path n ∧
      toPathitem out w share shown.path share.directory = .ok (some shown.item) := by
    intro n there
    have member : joinText path n ∈ child.map Listed.path := by
      rw [same, List.map_cons] at paths
      rw [(List.cons.inj paths).2]
      exact List.mem_map_of_mem ((all n).mpr there)
    obtain ⟨shown, inside, named⟩ := List.mem_map.mp member
    obtain ⟨_, _, _, collected⟩ := @list_dir_items out w share path loc share.directory place dir
    rw [collected] at below
    exact ⟨shown, same ▸ List.mem_cons_of_mem _ inside, named, (collect_items_mem below inside).2⟩
  refine ⟨depth, ⟨rel, stripped, plain⟩, fun n there => ?_, dated, fun n there => ?_⟩
  · obtain ⟨shown, member, named, read⟩ := shows n there
    have legal := below_legal there n List.mem_cons_self
    obtain ⟨rel', stripped', _⟩ := strip_prefix_entry stripped legal
    have plain' := led_back_plain (named ▸ valid_join valid (utf n there)) read (named ▸ stripped')
      (back shown member)
    rw [dots_entry stripped legal stripped', Bool.or_eq_false_iff] at plain'
    exact plain'.2
  · obtain ⟨shown, member, named, read⟩ := shows n there
    obtain ⟨node, kind⟩ := Option.ne_none_iff_exists'.mp there
    obtain ⟨rel', stripped', _⟩ := strip_prefix_entry stripped (below_legal there n List.mem_cons_self)
    rw [named] at read
    exact (listed_iff_dated keyless stripped' (entry_found place dir kind (free n))).mp
      ⟨shown.item, read, renders shown.item (List.mem_map_of_mem member)⟩

theorem hrefs_of_listable (listable : Listable out w share request path loc) :
    HrefsLeadBack out w share fuel request path loc := by
  have place := (canonicalize_ok_iff.mp found).1
  obtain ⟨itself, here⟩ := directory_found contained found dir
  obtain ⟨rel, stripped, plain⟩ := listable.relative
  obtain ⟨item, read, renders⟩ := (listed_iff_dated keyless stripped here).mpr listable.dated
  obtain ⟨names, once, all, collected⟩ := @list_dir_items out w share path loc share.directory place dir
  have entry : ∀ n ∈ names, ∃ item,
      toPathitem out w share (joinText path n) share.directory = .ok (some item) ∧
        out.toRfc2822 (asI64 item.mtime) ≠ none := by
    intro n member
    have there := (all n).mp member
    obtain ⟨node, kind⟩ := Option.ne_none_iff_exists'.mp there
    obtain ⟨rel', stripped', _⟩ := strip_prefix_entry stripped (below_legal there n List.mem_cons_self)
    exact (listed_iff_dated keyless stripped' (entry_found place dir kind (free n))).mpr
      (listable.entries n there)
  have entries : ∀ text ∈ names.map (joinText path), ∃ item,
      toPathitem out w share text share.directory = .ok (some item) := by
    intro text member
    obtain ⟨n, named, same⟩ := List.mem_map.mp member
    obtain ⟨item, read, _⟩ := entry n named
    exact ⟨item, same ▸ read⟩
  obtain ⟨child, below, paths⟩ := collect_items_all entries
  have mem (shown : Listed) (member : shown ∈ child) := collect_items_mem below member
  have written : ∀ shown ∈ (⟨path, item⟩ : Listed) :: child,
      out.toRfc2822 (asI64 shown.item.mtime) ≠ none := by
    intro shown member
    rcases List.mem_cons.mp member with first | member
    · rw [first]
      exact renders
    · obtain ⟨inside, read⟩ := mem shown member
      obtain ⟨n, named, same⟩ := List.mem_map.mp inside
      obtain ⟨item, read', renders⟩ := entry n named
      rw [same, read] at read'
      cases read'
      exact renders
  obtain ⟨content, texts⟩ := items_xml_ok_iff.mpr (List.forall_mem_map.mpr written)
  have back : ∀ shown ∈ (⟨path, item⟩ : Listed) :: child, ∃ back,
      extractText shown.item.href share.directory = .ok (some back) ∧
        samePath (pathOf back) (pathOf shown.path) = true := by
    intro shown member
    rcases List.mem_cons.mp member with first | member
    · obtain ⟨_, text, stripped', leads, asked⟩ := href_asks valid read
      rw [stripped] at stripped'
      cases stripped'
      rw [plain] at asked
      exact first ▸ ⟨text, asked, leads⟩
    · obtain ⟨inside, read⟩ := mem shown member
      obtain ⟨n, named, same⟩ := List.mem_map.mp inside
      have there := (all n).mp named
      obtain ⟨rel', text, stripped', leads, asked⟩ := href_asks (same ▸ valid_join valid (utf n there)) read
      have dots := dots_entry stripped (below_legal there n List.mem_cons_self) (same ▸ stripped')
      rw [dots, plain, listable.names n there] at asked
      exact ⟨text, asked, leads⟩
  have shape : ((⟨path, item⟩ : Listed) :: child).map Listed.path = path :: names.map (joinText path) := by
    rw [List.map_cons, paths]
  have apart := @entries_apart path names once fun n member =>
    below_legal ((all n).mp member) n List.mem_cons_self
  rw [← shape, List.map_map] at apart
  refine ⟨names, _, content, ?_, texts, once, all, shape, hrefs_distinct apart back, back⟩
  rw [answered, propfind_dir_answers deep listable.depth read (collected.trans below) texts]

end Listings

end Reading

/-- A PROPFIND of a directory without links is answered by hrefs that lead back exactly if it is
    listable. -/
theorem hrefs_lead_back_iff (out : Outside) (w : Disk) (share : KeyedShare) (fuel : Nat)
    (request : Request) (path : Bytes) (top loc : List Name)
    (method : request.method = .propfind) (deep : propfindDepth request.headers ≠ some 0)
    (keyless : share.key = none) (text : validUtf8 share.directory = true)
    (asked : extractText request.path share.directory = .ok (some path))
    (directory : w.canonicalize (pathOf share.directory) = .ok top)
    (found : w.canonicalize (pathOf path) = .ok loc) (inside : top <+: loc)
    (dir : w.tree.isDir loc = true) (free : ∀ place, top <+: place → ¬ Linked w.tree place)
    (utf : ∀ place n, top <+: place → w.tree.get (place ++ [n]) ≠ none → validUtf8 n = true) :
    HrefsLeadBack out w share fuel request path loc ↔ Listable out w share request path loc := by
  have contained : Contained w share path := ⟨top, loc, directory, found, inside⟩
  have answered := @handle_propfind out w share request path loc fuel method asked contained found dir
  have plain (n : Name) : ¬ Linked w.tree (loc ++ [n]) := free _ (inside.trans (List.prefix_append _ _))
  have valid := extract_valid asked text
  exact ⟨listable_of_hrefs keyless contained found dir plain valid (utf loc · inside) deep answered,
    hrefs_of_listable keyless contained found dir plain valid (utf loc · inside) deep answered⟩

section Samples

def listRoot : Request := ⟨.propfind, utf8 "/", [], [], []⟩

def spacedDisk : Disk where
  tree := (Tree.bare.put [] [100] .dir directory_fits).put [[100]] (utf8 "a b%") (.file []) (by decide)
  cwd := []
  touched := []

theorem spaced_free : spacedDisk.tree.LinkFree := by
  intro loc target
  simp only [spacedDisk, put_get]
  repeat' split
  all_goals simp [Tree.bare]

theorem spaced_names {place : List Name} {n : Name}
    (there : spacedDisk.tree.get (place ++ [n]) ≠ none) : n = utf8 "a b%" ∨ n = [100] := by
  simp only [spacedDisk, put_get] at there
  split at there
  · rename_i same
    exact .inl (List.singleton_inj.mp (List.append_inj' same rfl).2)
  split at there
  · rename_i same
    exact .inr (List.singleton_inj.mp (List.append_inj' same rfl).2)
  · simp [Tree.bare] at there

end Samples

/-- A name with a space and a percent sign is led back to. -/
theorem spaced_led_back :
    HrefsLeadBack sampleOutside spacedDisk closedShare 0 listRoot (utf8 "/d/") [[100]] := by
  have text (place : List Name) (n : Name) (there : spacedDisk.tree.get (place ++ [n]) ≠ none) :
      validUtf8 n = true := by
    rcases spaced_names there with same | same <;> subst same <;> decide
  have plain (n : Name) (there : spacedDisk.tree.get ([[100]] ++ [n]) ≠ none) :
      containsDots n = false := by
    rcases spaced_names there with same | same <;> subst same <;> decide
  have dated (place : List Name) : Dated sampleOutside place :=
    ⟨0, rfl, Int.le_refl 0, Option.some_ne_none _⟩
  exact (hrefs_lead_back_iff sampleOutside spacedDisk closedShare 0 listRoot (utf8 "/d/") [[100]] [[100]]
    rfl (by decide) rfl (by decide) (by decide) (by decide) (by decide) (List.prefix_refl _) (by decide)
    (fun place _ ⟨target, here⟩ => spaced_free place target here)
    (fun place n _ there => text place n there)).mpr
    ⟨by decide, ⟨[], by decide, by decide⟩, plain, dated _, fun n _ => dated _⟩

def dottedDisk : Disk where
  tree := (Tree.bare.put [] [100] .dir directory_fits).put [[100]] (utf8 "a..b") (.file []) (by decide)
  cwd := []
  touched := []

/-- A name with two dots is listed under an href that is not let through. -/
theorem dotted_href_refused :
    (∃ listed content, handle sampleOutside closedShare 0 dottedDisk listRoot =
        some (dottedDisk, .ok (resMultistatus listed content)) ∧
      listed.map (fun shown => (shown.path, shown.item.href)) =
        [(utf8 "/d/", utf8 "/"), (utf8 "/d/a..b", utf8 "/a..b")]) ∧
    extractText (utf8 "/a..b") closedShare.directory = .ok none ∧
    ¬ HrefsLeadBack sampleOutside dottedDisk closedShare 0 listRoot (utf8 "/d/") [[100]] := by
  have run : ∃ listed content, handle sampleOutside closedShare 0 dottedDisk listRoot =
        some (dottedDisk, .ok (resMultistatus listed content)) ∧
      listed.map (fun shown => (shown.path, shown.item.href)) =
        [(utf8 "/d/", utf8 "/"), (utf8 "/d/a..b", utf8 "/a..b")] := ⟨_, _, rfl, by decide⟩
  have refused : extractText (utf8 "/a..b") closedShare.directory = .ok none := by decide
  refine ⟨run, refused, ?_⟩
  rintro ⟨_, listed', _, run', _, _, _, _, _, back⟩
  obtain ⟨listed, content, run, shown⟩ := run
  rw [run] at run'
  have same := congrArg Response.payload (Except.ok.inj (Prod.mk.inj (Option.some.inj run')).2)
  have listed_same := (Payload.items.inj same).1
  have member : (utf8 "/d/a..b", utf8 "/a..b") ∈ listed.map fun shown => (shown.path, shown.item.href) := by
    rw [shown]
    exact List.mem_cons_of_mem _ List.mem_cons_self
  obtain ⟨entry, inside, named⟩ := List.mem_map.mp member
  obtain ⟨text, asked, _⟩ := back entry (listed_same ▸ inside)
  rw [(Prod.mk.inj named).2, refused] at asked
  cases asked

end VestibuleWebdav
