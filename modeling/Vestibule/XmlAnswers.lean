import Mathlib.Data.List.TakeWhile
import Vestibule.XmlFaithful

/-!
The answers to PROPFIND, PROPPATCH and LOCK as XML: what they show, and when a client reads it back.
-/
namespace VestibuleWebdav
open VestibuleRust LexicalMotion FileTree FileCalls VestibulePaths VestibuleCopyMove VestibuleStreamer
  VestibuleRanges XmlReader

section Names
variable {text path base rel : Bytes} {n : Name}

theorem trimmed_last (steps : List (Step Name)) :
    (trimHere steps).getLast? = (steps.filter (· ≠ .here)).getLast? := by
  rw [trimHere, List.getLast?_reverse, List.getLast?_eq_head?_reverse, ← List.filter_reverse, List.head?_filter,
    List.find?_eq_head?_dropWhile_not]
  simp

theorem file_name_solid {front : List Bytes} (solid_ : solid (segments text) = front ++ [n])
    (legal : FileName.legal n = true) : fileName (pathOf text) = some n := by
  have steps := filtered_steps (segments text)
  change (pathOf text).steps.filter (· ≠ .here) = _ at steps
  have name := (legal_name legal).2.2.1
  unfold fileName
  rw [trimmed_last, steps, solid_, List.map_append, List.map_singleton, List.getLast?_concat, name]

theorem entry_base_name {parent : Bytes} {item : PathItem} (stripped : stripPrefix parent base ≠ none)
    (legal : FileName.legal n = true) (named : stripPrefix (joinText parent n) base = some item.name)
    (valid : validUtf8 item.name = true) : item.baseName = n := by
  obtain ⟨rel, found⟩ := Option.ne_none_iff_exists'.mp stripped
  obtain ⟨rel', found', solid_⟩ := strip_prefix_entry found legal
  obtain rfl := Option.some.inj (named.symm.trans found')
  have member : n ∈ segments item.name := by
    have inside : n ∈ solid (segments item.name) := by
      rw [solid_]
      simp
    exact List.mem_of_mem_filter inside
  have valid' := (valid_segments _).mp valid n member
  simp [PathItem.baseName, getFileName, file_name_solid solid_ legal, Option.filter_some, valid']

end Names

section Answers
variable {out : Outside} {w w' : Disk} {share : KeyedShare} {fuel : Nat} {request : Request} {path body : Bytes}
  {response : Response} {listed : List Listed}

/-- An item is that of the path, or that of an entry of it under its name. -/
def Names (share : KeyedShare) (path : Bytes) (shown : Listed) : Prop :=
  stripPrefix shown.path share.directory = some shown.item.name ∧
    (shown.path = path ∨ ∃ n, shown.path = joinText path n ∧ shown.item.baseName = n)

def Origin (out : Outside) (w : Disk) (share : KeyedShare) (path : Bytes) (shown : Listed) : Prop :=
  toPathitem out w share shown.path share.directory = .ok (some shown.item) ∧
    (shown.path = path ∨ ∃ n, FileName.legal n = true ∧ shown.path = joinText path n)

theorem handled_path (run : handle out share fuel w request = some (w', .ok response))
    (through : response ≠ statusForbid) (found : response ≠ statusNotFound) :
    ∃ path, extractText request.path share.directory = .ok (some path) ∧
      handleMethod out share fuel w request path (factsOf w (pathOf path)) = some (w', .ok response) := by
  unfold handle at run
  split at run
  · cases run
  · cases run
    exact absurd rfl through
  · rename_i path asked
    dsimp only at run
    split at run
    · cases run
      exact absurd rfl found
    · exact ⟨path, asked, run⟩

theorem item_stripped {item : PathItem} (read : toPathitem out w share path share.directory = .ok (some item)) :
    stripPrefix path share.directory ≠ none := by
  obtain ⟨rel, _, _, _, _, _, found, _⟩ := pathitem_some read
  rw [found]
  exact Option.some_ne_none rel

theorem listing_origin {item : PathItem} {child : List Listed}
    (read : toPathitem out w share path share.directory = .ok (some item))
    (below : child = [] ∨ listDir out w share path share.directory = .ok child) :
    ∀ shown ∈ (⟨path, item⟩ : Listed) :: child, Origin out w share path shown := by
  intro shown member
  rcases List.mem_cons.mp member with first | member
  · rw [first]
    exact ⟨read, .inl rfl⟩
  · rcases below with none_ | below
    · rw [none_] at member
      cases member
    · unfold listDir at below
      cases names : readDir out w path with
      | error e =>
        rw [names] at below
        cases below
      | ok entries =>
        rw [names] at below
        obtain ⟨inside, read⟩ := collect_items_mem below member
        obtain ⟨n, named, same⟩ := List.mem_map.mp inside
        obtain ⟨loc, _, _, there⟩ := read_dir_below names named
        exact ⟨read, .inr ⟨n, below_legal there n List.mem_cons_self, same.symm⟩⟩

theorem propfind_dir_origin {headers : Headers}
    (run : handlePropfindDir out w share path headers = .ok response)
    (payload : response.payload = .items listed body) :
    ∃ content, itemsXml out (listed.map Listed.item) = .ok content ∧ body = multistatusXml content ∧
      stripPrefix path share.directory ≠ none ∧ ∀ shown ∈ listed, Origin out w share path shown := by
  unfold handlePropfindDir at run
  split at run
  · cases run
    cases payload
  · obtain ⟨found, read, run⟩ := bind_ok_iff.mp run
    cases found with
    | none => cases run
    | some item =>
      have stripped := item_stripped read
      dsimp only at run
      split at run
      · obtain ⟨content, made, run⟩ := bind_ok_iff.mp run
        cases run
        cases payload
        exact ⟨content, made, rfl, stripped, listing_origin read (.inl rfl)⟩
      · split at run
        · rename_i child children
          obtain ⟨content, made, run⟩ := bind_ok_iff.mp run
          cases run
          cases payload
          exact ⟨content, made, rfl, stripped, listing_origin read (.inr children)⟩
        · cases run
          cases payload
        · cases run

theorem propfind_origin (method : request.method = .propfind)
    (run : handle out share fuel w request = some (w', .ok response))
    (payload : response.payload = .items listed body) :
    ∃ path content, extractText request.path share.directory = .ok (some path) ∧
      itemsXml out (listed.map Listed.item) = .ok content ∧ body = multistatusXml content ∧
      stripPrefix path share.directory ≠ none ∧ ∀ shown ∈ listed, Origin out w share path shown := by
  have through : response ≠ statusForbid := by
    intro same
    rw [same] at payload
    cases payload
  have found : response ≠ statusNotFound := by
    intro same
    rw [same] at payload
    cases payload
  obtain ⟨path, asked, run⟩ := handled_path run through found
  simp only [handleMethod, method, handlePropfind, Option.some.injEq, Prod.mk.injEq] at run
  obtain ⟨_, run⟩ := run
  split at run
  · obtain ⟨content, facts⟩ := propfind_dir_origin run payload
    exact ⟨path, content, asked, facts⟩
  · split at run
    · unfold handlePropfindFile at run
      obtain ⟨item, read, run⟩ := bind_ok_iff.mp run
      cases item with
      | none =>
        cases run
        exact absurd rfl found
      | some item =>
        obtain ⟨content, made, run⟩ := bind_ok_iff.mp run
        cases run
        cases payload
        have listed : itemsXml out [item] = .ok content := by
          rw [itemsXml, itemsXml, made]
          exact congrArg Except.ok (List.append_nil content)
        exact ⟨path, content, asked, listed, rfl, item_stripped read, listing_origin read (.inl rfl)⟩
    · cases run
      exact absurd rfl found

theorem origin_names {shown : Listed} (origin : Origin out w share path shown)
    (valid : validUtf8 shown.path = true) (stripped : stripPrefix path share.directory ≠ none) :
    Names share path shown := by
  obtain ⟨read, place⟩ := origin
  obtain ⟨rel, _, _, _, _, _, found, _, _, _, made⟩ := pathitem_some read
  have valid' := stripped_valid found valid
  have named : shown.item.name = rel := by
    rw [made]
    exact if_pos valid'
  refine ⟨named ▸ found, place.imp_right ?_⟩
  rintro ⟨n, legal, same⟩
  exact ⟨n, same, entry_base_name stripped legal (same ▸ named ▸ found) (named ▸ valid')⟩

end Answers

section Bodies
variable {out : Outside} {closing : Bool} {path token : Bytes}

theorem multistatus_root : LegalName "D:multistatus".toList := name_legal rfl rfl

theorem lock_root : LegalName "D:prop".toList := name_legal rfl rfl

theorem multistatus_begun :
    run (.initial, false) multistatusProlog = some (⟨.text ⟨['\n'], 0, none⟩, [], none⟩, false) := rfl

theorem lock_begun : run (.initial, false) lockProlog = some (⟨.text ⟨['\n'], 0, none⟩, [], none⟩, false) := rfl

theorem bare_all (each : (path.all fun b => 32 ≤ b && b < 127 && b ≠ 60 && b ≠ 62) = true) :
    ∀ b ∈ path, Bare b := by
  intro b member
  have kind := List.all_eq_true.mp each b member
  simp only [Bool.and_eq_true, decide_eq_true_eq] at kind
  exact ⟨kind.1.1.1, kind.1.1.2, kind.1.2, kind.2⟩

theorem token_all (each : (token.all fun b => 32 ≤ b && b < 127 && b ≠ 60 && b ≠ 62) = true)
    (none_ : 38 ∉ token) : ∀ b ∈ token, Bare b ∧ b ≠ 38 :=
  fun b member => ⟨bare_all each b member, fun same => none_ (same ▸ member)⟩

theorem path_kept {front : List (List Char)} {hrefs names : List Bytes} (bare : ∀ b ∈ path, Bare b)
    (before : front.map encodeText = hrefs) (none_ : names = []) :
    (∃ texts : Texts, (readText (asciiChars path)).map (fun path => (front ++ [path], [])) = some texts ∧
        texts.1.map encodeText = hrefs ++ [path] ∧ texts.2.map encodeText = names) ↔ 38 ∉ path := by
  rw [← (ascii_bare bare).2]
  constructor
  · rintro ⟨texts, mapped, hrefs', _⟩
    obtain ⟨chars, read, same⟩ := Option.map_eq_some_iff.mp mapped
    subst same
    rw [List.map_append, before, List.append_cancel_left_eq] at hrefs'
    have bytes := (List.cons.inj hrefs').1
    rw [← encode_ascii bare] at bytes
    rw [read, encode_injective bytes]
  · intro read
    refine ⟨(front ++ [asciiChars path], []), ?_, ?_, none_.symm⟩
    · rw [read, Option.map_some]
    · rw [List.map_append, before, List.map_singleton, encode_ascii bare]

theorem proppatch_faithful_iff (bare : ∀ b ∈ path, Bare b) :
    Faithful (multistatusXml (proppatchXml path)) [path] [] ↔ 38 ∉ path := by
  have free := (ascii_bare bare).1
  have line : '<' ∉ ['\n'] := by decide
  have legal : (proppatchContent (asciiChars path)).Legal :=
    ⟨line, name_legal rfl rfl, response_legal free newline_legal (by decide), newline_legal⟩
  have shape := proppatch_shape (asciiChars path)
  rw [encode_ascii bare] at shape
  rw [shape, faithful_iff multistatus_begun rfl multistatus_root (by decide) (by decide) legal,
    proppatch_shown]
  exact @path_kept path [] [] [] bare rfl rfl

theorem lock_faithful_iff (bare : ∀ b ∈ path, Bare b) (plain : ∀ b ∈ token, Bare b ∧ b ≠ 38) :
    Faithful (lockXml token path) [token, path] [] ↔ 38 ∉ path := by
  have free := (ascii_bare bare).1
  obtain ⟨free', read, token_⟩ := bare_read plain
  have line : '<' ∉ ['\n'] := by decide
  have nothing : '<' ∉ ([] : List Char) := List.not_mem_nil
  have legal : (lockContent (asciiChars token) (asciiChars path)).Legal :=
    ⟨nothing, name_legal rfl rfl,
      ⟨nothing, name_legal rfl rfl,
        ⟨line, name_legal rfl rfl, ⟨nothing, name_legal rfl rfl, free', nothing⟩,
          ⟨line, name_legal rfl rfl, ⟨nothing, name_legal rfl rfl, free, nothing⟩, newline_legal⟩⟩,
        nothing⟩, nothing⟩
  have shape := lock_shape (asciiChars token) (asciiChars path)
  rw [encode_ascii bare, token_] at shape
  rw [shape, faithful_iff lock_begun rfl lock_root (by decide) (by decide) legal, lock_shown read]
  exact @path_kept path [asciiChars token] [token] [] bare (congrArg (fun token => [token]) token_) rfl

theorem listing_faithful_iff {items : List PathItem} {content : Bytes} (plain : PlainTexts out closing)
    (named : ∀ item ∈ items, XmlName item.baseName) (written : itemsXml out items = .ok content) :
    Faithful (multistatusXml content) (items.map PathItem.href) (items.map PathItem.baseName) ↔
      ∀ item ∈ items, Kept closing item.baseName := by
  have shape : multistatusXml content = encodeText (multistatusProlog ++
      (attributeTag "D:multistatus".toList namespaces ++
        ((listingContent out closing ['\n'] items).print ++ stopTag "D:multistatus".toList))) := by
    rw [encode_append, encode_append, encode_append, ← listing_written plain named written]
    simp only [multistatusXml, utf8_encode, multistatus_texts, encode_append, List.append_assoc]
    rfl
  rw [shape, faithful_iff multistatus_begun rfl multistatus_root (by decide) (by decide)
    (listing_legal plain (by decide) items)]
  exact listing_shown plain ⟨_, fixed_texts.2.1⟩ ⟨['\n', '\n'], rfl⟩ named

end Bodies

/-- The bodies of PROPFIND, PROPPATCH and LOCK are well formed and give back what is in them exactly in
    these cases: the names of a listing are kept, and the path of the other two has no ampersand. -/
theorem bodies_faithful_iff {out : Outside} {closing : Bool} {w w' : Disk} {share : KeyedShare} {fuel : Nat}
    {request : Request} {response : Response} (plain : PlainTexts out closing)
    (uri : ∀ b ∈ request.path, Bare b) (run : handle out share fuel w request = some (w', .ok response)) :
    (request.method = .propfind → ∀ listed body, response.payload = .items listed body →
      (∀ shown ∈ listed, validUtf8 shown.path = true ∧ XmlName shown.item.baseName) →
      (∃ path, extractText request.path share.directory = .ok (some path) ∧
        ∀ shown ∈ listed, Names share path shown) ∧
      (Faithful body (listed.map fun shown => shown.item.href) (listed.map fun shown => shown.item.baseName) ↔
        ∀ shown ∈ listed, Kept closing shown.item.baseName)) ∧
    (request.method = .proppatch → ∀ listed body, response.payload = .items listed body →
      (Faithful body [request.path] [] ↔ 38 ∉ request.path)) ∧
    (request.method = .lock → response.status = 200 → ∀ body, response.payload = .text body →
      (Faithful body [utf8 "opaquelocktoken:" ++ out.uuid, request.path] [] ↔ 38 ∉ request.path)) := by
  refine ⟨fun method listed body payload named => ?_, fun method listed body payload => ?_,
    fun method success body payload => ?_⟩
  · obtain ⟨path, content, asked, made, written, stripped, origin⟩ := propfind_origin method run payload
    have places : ∀ shown ∈ listed, Names share path shown :=
      fun shown member => origin_names (origin shown member) (named shown member).1 stripped
    refine ⟨⟨path, asked, places⟩, ?_⟩
    have names : ∀ item ∈ listed.map Listed.item, XmlName item.baseName :=
      List.forall_mem_map.mpr fun shown member => (named shown member).2
    have whole := listing_faithful_iff plain names made
    rw [List.map_map, List.map_map, List.forall_mem_map] at whole
    rw [written]
    exact whole
  · obtain ⟨path, _, run⟩ := handled_path run (fun same => by rw [same] at payload; cases payload)
      fun same => by rw [same] at payload; cases payload
    simp only [handleMethod, method, Option.some.injEq, Prod.mk.injEq, Except.ok.injEq] at run
    obtain ⟨_, run⟩ := run
    split at run
    · subst run
      cases payload
      exact proppatch_faithful_iff uri
    · subst run
      cases payload
  · obtain ⟨path, _, run⟩ := handled_path run (fun same => by rw [same] at success; cases success)
      fun same => by rw [same] at success; cases success
    simp only [handleMethod, method, Option.some.injEq, Prod.mk.injEq, Except.ok.injEq] at run
    obtain ⟨_, run⟩ := run
    split at run
    · subst run
      cases payload
      have token : ∀ b ∈ utf8 "opaquelocktoken:" ++ out.uuid, Bare b ∧ b ≠ 38 := by
        intro b member
        rcases List.mem_append.mp member with fixed | random
        · exact @token_all (utf8 "opaquelocktoken:") (by decide) (by decide) b fixed
        · exact plain.token b random
      exact lock_faithful_iff uri token
    · subst run
      cases success

section Samples

def plainOutside : Outside :=
  { sampleOutside with
    toRfc2822 := fun _ => some (utf8 "Thu, 1 Jan 1970 00:00:00 +0000")
    escapePcdata := fun b => encodeText (escapeText false ((decodeText b).getD []))
    uuid := utf8 "00000000-0000-4000-8000-000000000000" }

theorem plain_texts : PlainTexts plainOutside false where
  escape chars := by
    simp only [plainOutside, decode_encode, Option.getD_some]
  dates time text written := by
    cases written
    exact token_all (by decide) (by decide)
  token := token_all (by decide) (by decide)

/-- Without a carriage return and the bracket that closes a tag, a name is kept. -/
theorem name_kept {name : Bytes} {chars : List Char} (decoded : decodeText name = some chars)
    (each : (chars.all fun c => isXmlChar c && c ≠ '\r' && c ≠ '>') = true) :
    XmlName name ∧ Kept false name := by
  have kind : ∀ c ∈ chars, isXmlChar c = true ∧ c ≠ '\r' ∧ c ≠ '>' := by
    intro c member
    have kind := List.all_eq_true.mp each c member
    simp only [Bool.and_eq_true, decide_eq_true_eq] at kind
    exact ⟨kind.1.1, kind.1.2, kind.2⟩
  refine ⟨⟨chars, decoded, fun c member => (kind c member).1⟩, chars, decoded,
    fun member => (kind _ member).2.1 rfl, fun _ inside => ?_⟩
  exact (kind '>' (inside.subset (by simp [sectionEnd]))).2.2 rfl

def ampersandDisk : Disk where
  tree := (Tree.bare.put [] [100] .dir directory_fits).put [[100]] (utf8 "a&b") (.file []) (by decide)
  cwd := []
  touched := []

end Samples

/-- A listing with an ampersand in a name is read as it was meant. -/
theorem ampersand_listed : ∃ response listed body,
    handle plainOutside closedShare 0 ampersandDisk listRoot = some (ampersandDisk, .ok response) ∧
      response.payload = .items listed body ∧
      listed.map (fun shown => shown.item.baseName) = [[], utf8 "a&b"] ∧
      Faithful body (listed.map fun shown => shown.item.href)
        (listed.map fun shown => shown.item.baseName) := by
  have run : ∃ response listed body,
      handle plainOutside closedShare 0 ampersandDisk listRoot = some (ampersandDisk, .ok response) ∧
        response.payload = .items listed body ∧
        listed.map (fun shown => shown.item.baseName) = [[], utf8 "a&b"] ∧
        listed.map (fun shown => shown.path) = [utf8 "/d/", utf8 "/d/a&b"] :=
    ⟨_, _, _, rfl, rfl, by decide, by decide⟩
  obtain ⟨response, listed, body, run, payload, names, paths⟩ := run
  have name : ∀ shown ∈ listed, XmlName shown.item.baseName ∧ Kept false shown.item.baseName := by
    intro shown member
    have among : shown.item.baseName ∈ [[], utf8 "a&b"] := names ▸ List.mem_map_of_mem member
    rcases List.mem_cons.mp among with same | among
    · rw [same]
      exact @name_kept [] [] (by decide) rfl
    · rw [List.mem_singleton.mp among]
      exact @name_kept _ "a&b".toList (by decide) rfl
  have path : ∀ shown ∈ listed, validUtf8 shown.path = true := by
    intro shown member
    have among : shown.path ∈ [utf8 "/d/", utf8 "/d/a&b"] := paths ▸ List.mem_map_of_mem member
    rcases List.mem_cons.mp among with same | among
    · rw [same]
      decide
    · rw [List.mem_singleton.mp among]
      decide
  have uri : ∀ b ∈ listRoot.path, Bare b := bare_all (by decide)
  exact ⟨response, listed, body, run, payload, names,
    (((bodies_faithful_iff plain_texts uri run).1 rfl listed body payload fun shown member =>
      ⟨path shown member, (name shown member).1⟩).2).mpr fun shown member => (name shown member).2⟩

/-- The answer to a PROPPATCH of the same file is no XML that gives back its path. -/
theorem ampersand_misread :
    handle plainOutside closedShare 0 ampersandDisk ⟨.proppatch, utf8 "/a&b", [], [], []⟩ =
        some (ampersandDisk, .ok (resMultistatus [] (proppatchXml (utf8 "/a&b")))) ∧
      ¬ Faithful (multistatusXml (proppatchXml (utf8 "/a&b"))) [utf8 "/a&b"] [] := by
  refine ⟨rfl, fun faithful => ?_⟩
  have bare : ∀ b ∈ utf8 "/a&b", Bare b := bare_all (by decide)
  exact (proppatch_faithful_iff bare).mp faithful (by decide)

end VestibuleWebdav
