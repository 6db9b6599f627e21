import Vestibule.PropfindHrefs
import Vestibule.XmlBodies

/-!
When the XML of a dav gives back the paths and the names that are in it.
-/
namespace VestibuleWebdav
open VestibuleRust VestibulePaths VestibuleRanges XmlReader

section Nodes
variable {tag chars : List Char} {nodes : List Node}

theorem named_append (a b : List Node) : namedAll tag (a ++ b) = namedAll tag a ++ namedAll tag b := by
  induction a with
  | nil => rfl
  | cons node rest ih => rw [List.cons_append, namedAll, namedAll, ih, List.append_assoc]

@[simp] theorem contents_text (chars : List Char) : contents (textNodes chars) = chars := by
  unfold textNodes
  split
  · rename_i empty
    exact empty.symm
  · simp [contents, Node.content]

@[simp] theorem named_text (chars : List Char) : namedAll tag (textNodes chars) = [] := by
  unfold textNodes
  split <;> simp [namedAll, Node.named]

theorem fixed_texts : readText [] = some [] ∧ readText ['\n'] = some ['\n'] ∧
    readText "HTTP/1.1 200 OK".toList = some "HTTP/1.1 200 OK".toList ∧
    readText "HTTP/1.1 403 Forbidden".toList = some "HTTP/1.1 403 Forbidden".toList := by
  decide

end Nodes

section Contents

abbrev Texts := List (List Char) × List (List Char)

def both (a b : Texts) : Texts := (a.1 ++ b.1, a.2 ++ b.2)

def shown (c : Content) : Option Texts :=
  c.read.map fun nodes => (namedAll "D:href".toList nodes, namedAll "D:displayname".toList nodes)

variable {text name chars : List Char} {inner rest : Content}

theorem shown_last (read : readText text = some chars) : shown (.last text) = some ([], []) := by
  simp only [shown, Content.read, read, Option.map_some, named_text]

theorem shown_empty (read : readText text = some chars) (href : name ≠ "D:href".toList)
    (displayname : name ≠ "D:displayname".toList) : shown (.empty text name rest) = shown rest := by
  simp only [shown, Content.read, read]
  cases rest.read with
  | none => rfl
  | some nodes =>
    simp only [Option.bind_eq_bind, Option.bind_some, Option.pure_def, Option.map_some, named_append,
      named_text, namedAll, Node.named, if_neg href, if_neg displayname, List.nil_append]

theorem shown_full (read : readText text = some chars) (href : name ≠ "D:href".toList)
    (displayname : name ≠ "D:displayname".toList) :
    shown (.full text name inner rest) = (shown inner).bind fun a => (shown rest).map (both a) := by
  simp only [shown, Content.read, read]
  cases inner.read with
  | none => rfl
  | some children =>
    cases rest.read with
    | none => rfl
    | some nodes =>
      simp only [Option.bind_eq_bind, Option.bind_some, Option.pure_def, Option.map_some, both, named_append,
        named_text, namedAll, Node.named, if_neg href, if_neg displayname, List.nil_append]

theorem shown_href {path : List Char} (read : readText text = some chars) :
    shown (.full text "D:href".toList (.last path) rest) =
      (readText path).bind fun path => (shown rest).map (both ([path], [])) := by
  simp only [shown, Content.read, read]
  cases readText path with
  | none => rfl
  | some path =>
    cases rest.read with
    | none => rfl
    | some nodes =>
      simp [both, named_append, namedAll, Node.named]

theorem shown_name {displayname : List Char} (read : readText text = some chars) :
    shown (.full text "D:displayname".toList (.last displayname) rest) =
      (readText displayname).bind fun displayname => (shown rest).map (both ([], [displayname])) := by
  simp only [shown, Content.read, read]
  cases readText displayname with
  | none => rfl
  | some path =>
    cases rest.read with
    | none => rfl
    | some nodes =>
      simp [both, named_append, namedAll, Node.named]

end Contents

section Bodies
variable {path token href displayname size modified : List Char}

theorem shown_newline : shown newline = some ([], []) := shown_last fixed_texts.2.1

theorem response_shown {prop : Content} {status : String} (read : readText status.toList = some status.toList) :
    shown (responseContent href prop status) =
      (readText href).bind fun href => (shown prop).map (both ([href], [])) := by
  obtain ⟨_, line, _⟩ := fixed_texts
  have closing : shown (field "D:status" status.toList newline) = some ([], []) := by
    rw [field, shown_full line (by decide) (by decide), shown_last read, shown_newline]
    rfl
  rw [responseContent, field, shown_href line, shown_full line (by decide) (by decide),
    shown_full line (by decide) (by decide), closing, shown_newline]
  cases readText href with
  | none => rfl
  | some href => cases shown prop <;> simp [both]

theorem proppatch_shown : shown (proppatchContent path) = (readText path).map fun path => ([path], []) := by
  obtain ⟨_, line, _, forbidden⟩ := fixed_texts
  rw [proppatchContent, shown_full line (by decide) (by decide), response_shown forbidden, shown_newline]
  cases readText path with
  | none => rfl
  | some path => rfl

theorem lock_shown (read : readText token = some token) :
    shown (lockContent token path) = (readText path).map fun path => ([token, path], []) := by
  obtain ⟨nothing, line, _⟩ := fixed_texts
  have ends := shown_last nothing
  rw [lockContent, shown_full nothing (by decide) (by decide), shown_full nothing (by decide) (by decide),
    shown_full line (by decide) (by decide), shown_full line (by decide) (by decide), shown_href nothing,
    shown_href nothing, ends, read, shown_newline]
  cases readText path with
  | none => rfl
  | some path => rfl

theorem prop_shown {isDir : Bool} (sized : readText size = some size)
    (dated : readText modified = some modified) :
    shown (propContent isDir displayname size modified) =
      (readText displayname).map fun displayname => ([], [displayname]) := by
  obtain ⟨nothing, line, _⟩ := fixed_texts
  have ends := shown_last nothing
  cases isDir with
  | true =>
    rw [propContent]
    simp only [↓reduceIte, field]
    rw [shown_name line, shown_full line (by decide) (by decide), shown_last dated,
      shown_full line (by decide) (by decide), shown_empty nothing (by decide) (by decide), ends, shown_newline]
    cases readText displayname <;> rfl
  | false =>
    rw [propContent]
    simp only [Bool.false_eq_true, ↓reduceIte, field]
    rw [shown_name line, shown_full line (by decide) (by decide), shown_last sized,
      shown_full line (by decide) (by decide), shown_last dated, shown_full line (by decide) (by decide), ends,
      shown_newline]
    cases readText displayname <;> rfl

theorem field_legal {name : String} {text : List Char} {rest : Content} (free : '<' ∉ text)
    (legal : LegalName name.toList) (after : rest.Legal) : (field name text rest).Legal :=
  ⟨by decide, legal, free, after⟩

theorem newline_legal : newline.Legal := by
  simp [newline, Content.Legal]

theorem response_legal {prop : Content} {status : String} (free : '<' ∉ href) (legal : prop.Legal)
    (fixed : '<' ∉ status.toList) : (responseContent href prop status).Legal := by
  have line : '<' ∉ ['\n'] := by decide
  exact field_legal free (name_legal rfl rfl)
    ⟨line, name_legal rfl rfl, ⟨line, name_legal rfl rfl, legal,
      field_legal fixed (name_legal rfl rfl) newline_legal⟩, newline_legal⟩

theorem prop_legal {isDir : Bool} (named : '<' ∉ displayname) (sized : '<' ∉ size) (dated : '<' ∉ modified) :
    (propContent isDir displayname size modified).Legal := by
  have line : '<' ∉ ['\n'] := by decide
  have nothing : (Content.last []).Legal := List.not_mem_nil
  cases isDir with
  | true =>
    exact field_legal named (name_legal rfl rfl) (field_legal dated (name_legal rfl rfl)
      ⟨line, name_legal rfl rfl, ⟨List.not_mem_nil, name_legal rfl rfl, nothing⟩, newline_legal⟩)
  | false =>
    exact field_legal named (name_legal rfl rfl) (field_legal sized (name_legal rfl rfl)
      (field_legal dated (name_legal rfl rfl) ⟨line, name_legal rfl rfl, nothing, newline_legal⟩))

theorem faithful_iff {prolog name : List Char} {c : Content} {s : TextState} {returned : Bool}
    {hrefs names : List Bytes}
    (begun : run (.initial, false) prolog = some (⟨.text s, [], none⟩, returned)) (open_ : s.reference = none)
    (legal : LegalName name) (href : name ≠ "D:href".toList) (displayname : name ≠ "D:displayname".toList)
    (inner : c.Legal) :
    Faithful (encodeText (prolog ++ (attributeTag name namespaces ++ (c.print ++ stopTag name)))) hrefs names ↔
      ∃ texts, shown c = some texts ∧ texts.1.map encodeText = hrefs ∧ texts.2.map encodeText = names := by
  have legal' : LegalAttributes namespaces := by
    refine ⟨?_, ?_, ?_⟩
    · intro pair member
      rw [List.mem_singleton.mp member]
      exact name_legal rfl rfl
    · intro pair member
      rw [List.mem_singleton.mp member]
      exact value_legal rfl
    · exact List.nodup_singleton _
  unfold Faithful readBody
  rw [decode_encode, Option.bind_some, read_document begun open_ legal legal' inner]
  unfold shown
  cases c.read with
  | none => simp
  | some nodes =>
    simp only [Option.map_some, Option.some.injEq, exists_eq_left', Node.named, if_neg href, if_neg displayname]

end Bodies

section Listings

/-- What is promised of the texts from outside: names are escaped character by character, the bracket
    that closes a tag as well or not, and times and tokens have no markup. -/
structure PlainTexts (out : Outside) (closing : Bool) : Prop where
  escape : ∀ chars, out.escapePcdata (encodeText chars) = encodeText (escapeText closing chars)
  dates : ∀ time text, out.toRfc2822 time = some text → ∀ b ∈ text, Bare b ∧ b ≠ 38
  token : ∀ b ∈ out.uuid, Bare b ∧ b ≠ 38

def XmlName (name : Bytes) : Prop :=
  ∃ chars, decodeText name = some chars ∧ ∀ c ∈ chars, isXmlChar c = true

/-- A name without a carriage return, and without `]]>` if the closing bracket is not escaped. -/
def Kept (closing : Bool) (name : Bytes) : Prop :=
  ∃ chars, decodeText name = some chars ∧ '\r' ∉ chars ∧ (closing = false → ¬ sectionEnd <:+: chars)

variable (out : Outside) (closing : Bool)

def nameText (item : PathItem) : List Char := (decodeText item.baseName).getD []

def itemContent (item : PathItem) : Content :=
  responseContent (asciiChars item.href)
    (propContent item.isDir (escapeText closing (nameText item)) (toString (item.size.getD 0)).toList
      (asciiChars ((out.toRfc2822 (asI64 item.mtime)).getD []))) "HTTP/1.1 200 OK"

def listingContent (lead : List Char) : List PathItem → Content
  | [] => .last (lead ++ ['\n'])
  | item :: rest => .full lead "D:response".toList (itemContent out closing item) (listingContent [] rest)

variable {out closing} {item : PathItem} {items : List PathItem} {lead : List Char}

theorem uri_bare {b : UInt8} (uri : UriByte b) : Bare b ∧ b ≠ 38 := by
  have each : ∀ n : Fin 128, UriByte (UInt8.ofNat n.val) →
      Bare (UInt8.ofNat n.val) ∧ UInt8.ofNat n.val ≠ 38 := by
    unfold UriByte Bare
    decide
  have here := each ⟨b.toNat, UInt8.lt_iff_toNat_lt.mp (uri_ascii uri)⟩
  rw [UInt8.ofNat_toNat] at here
  exact here uri

theorem href_bare (item : PathItem) : ∀ b ∈ item.href, Bare b ∧ b ≠ 38 := by
  obtain ⟨shown, _, written⟩ := href_written item
  intro b member
  rw [written] at member
  exact uri_bare (encode_uri_bytes member)

theorem bare_read {b : Bytes} (bare : ∀ x ∈ b, Bare x ∧ x ≠ 38) :
    '<' ∉ asciiChars b ∧ readText (asciiChars b) = some (asciiChars b) ∧ encodeText (asciiChars b) = b := by
  have plain : ∀ x ∈ b, Bare x := fun x member => (bare x member).1
  obtain ⟨less, same⟩ := ascii_bare plain
  exact ⟨less, same.mpr fun member => (bare 38 member).2 rfl, encode_ascii plain⟩

variable (plain : PlainTexts out closing)
include plain

theorem dates_read (time : Int) : '<' ∉ asciiChars ((out.toRfc2822 time).getD []) ∧
    readText (asciiChars ((out.toRfc2822 time).getD [])) = some (asciiChars ((out.toRfc2822 time).getD [])) ∧
    encodeText (asciiChars ((out.toRfc2822 time).getD [])) = (out.toRfc2822 time).getD [] := by
  apply bare_read
  cases written : out.toRfc2822 time with
  | none => exact fun b member => absurd member List.not_mem_nil
  | some text => exact plain.dates time text written

theorem item_legal (item : PathItem) : (itemContent out closing item).Legal :=
  response_legal (bare_read (href_bare item)).1
    (prop_legal (escape_no_tag _ _) (digits_bare _).1 (dates_read plain _).1) (by decide)

theorem item_shown (item : PathItem) : shown (itemContent out closing item) =
    (readText (escapeText closing (nameText item))).map fun name => ([asciiChars item.href], [name]) := by
  rw [itemContent, response_shown fixed_texts.2.2.1, (bare_read (href_bare item)).2.1, Option.bind_some,
    prop_shown (digits_bare _).2 (dates_read plain _).2.1]
  cases readText (escapeText closing (nameText item)) <;> rfl

theorem item_written {text : Bytes} (named : XmlName item.baseName) (written : item.toDavXml out = .ok text) :
    text = encodeText (startTag "D:response".toList ++
      ((itemContent out closing item).print ++ stopTag "D:response".toList)) := by
  obtain ⟨chars, decoded, _⟩ := named
  have name : nameText item = chars := by
    rw [nameText, decoded]
    rfl
  obtain ⟨modified, dated⟩ := Option.ne_none_iff_exists'.mp (dav_xml_ok_iff.mp ⟨text, written⟩)
  refine item_shape written (bare_read (href_bare item)).2.2.symm ?_ ?_
  · rw [decode_some.mp decoded, plain.escape, name]
  · rw [(dates_read plain _).2.2, dated]
    rfl

theorem listing_legal (free : '<' ∉ lead) (items : List PathItem) :
    (listingContent out closing lead items).Legal := by
  induction items generalizing lead with
  | nil =>
    have line : '<' ∉ ['\n'] := by decide
    simp [listingContent, Content.Legal, free]
  | cons item rest ih => exact ⟨free, name_legal rfl rfl, item_legal plain item, ih List.not_mem_nil⟩

theorem listing_written {content : Bytes} (named : ∀ item ∈ items, XmlName item.baseName)
    (written : itemsXml out items = .ok content) :
    encodeText lead ++ (content ++ encodeText ['\n']) =
      encodeText (listingContent out closing lead items).print := by
  induction items generalizing lead content with
  | nil =>
    cases written
    rw [List.nil_append, ← encode_append]
    rfl
  | cons item rest ih =>
    obtain ⟨first, one, run⟩ := bind_ok_iff.mp written
    obtain ⟨later, others, run⟩ := bind_ok_iff.mp run
    cases run
    have front := item_written plain (named item List.mem_cons_self) one
    have back := @ih [] later (fun item member => named item (List.mem_cons_of_mem _ member)) others
    rw [show encodeText [] = [] from rfl, List.nil_append] at back
    rw [List.append_assoc, back, front, ← encode_append, ← encode_append, listingContent, Content.print]
    simp only [List.append_assoc]

/-- A listing gives back its hrefs and names exactly if each name is kept. -/
theorem listing_shown (lead_read : ∃ chars, readText lead = some chars)
    (end_read : ∃ chars, readText (lead ++ ['\n']) = some chars)
    (named : ∀ item ∈ items, XmlName item.baseName) :
    (∃ texts, shown (listingContent out closing lead items) = some texts ∧
        texts.1.map encodeText = items.map PathItem.href ∧
        texts.2.map encodeText = items.map PathItem.baseName) ↔
      ∀ item ∈ items, Kept closing item.baseName := by
  obtain ⟨before, lead_read⟩ := lead_read
  induction items generalizing lead before with
  | nil =>
    obtain ⟨chars, end_read⟩ := end_read
    rw [listingContent, shown_last end_read]
    simp
  | cons item rest ih =>
    obtain ⟨chars, decoded, allowed⟩ := named item List.mem_cons_self
    have later := @ih [] ⟨['\n'], fixed_texts.2.1⟩
      (fun item member => named item (List.mem_cons_of_mem _ member)) [] fixed_texts.1
    have name : nameText item = chars := by
      rw [nameText, decoded]
      rfl
    have kept : Kept closing item.baseName ↔ readText (escapeText closing chars) = some chars := by
      rw [read_escaped_same_iff allowed]
      constructor
      · rintro ⟨chars', decoded', kept⟩
        cases decoded.symm.trans decoded'
        exact kept
      · exact fun kept => ⟨chars, decoded, kept⟩
    have bytes : item.baseName = encodeText chars := decode_some.mp decoded
    rw [List.forall_mem_cons, ← later, kept, listingContent, shown_full lead_read (by decide) (by decide),
      item_shown plain, name]
    constructor
    · rintro ⟨texts, run, hrefs, names⟩
      obtain ⟨own, front, back⟩ := Option.bind_eq_some_iff.mp run
      obtain ⟨name', read, same⟩ := Option.map_eq_some_iff.mp front
      obtain ⟨texts', others, same'⟩ := Option.map_eq_some_iff.mp back
      subst same same'
      obtain ⟨_, hrefs⟩ := List.cons.inj hrefs
      obtain ⟨first, names⟩ := List.cons.inj names
      rw [bytes] at first
      exact ⟨encode_injective first ▸ read, texts', others, hrefs, names⟩
    · rintro ⟨read, texts, run, hrefs, names⟩
      refine ⟨both ([asciiChars item.href], [chars]) texts, ?_, ?_, ?_⟩
      · rw [read, run]
        rfl
      · simp [both, hrefs, (bare_read (href_bare item)).2.2]
      · simp [both, names, bytes]

end Listings
end VestibuleWebdav
