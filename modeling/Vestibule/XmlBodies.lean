import Vestibule.HrefTexts
import Vestibule.WebdavRequests
import Vestibule.XmlMarkup
import Vestibule.XmlTexts

/-!
The XML that answers PROPFIND, PROPPATCH and LOCK, and what a client reads of it.
-/
namespace VestibuleWebdav
open VestibuleRust VestibulePaths VestibuleRanges XmlReader

section Reading

def encodeText (chars : List Char) : Bytes := chars.flatMap String.utf8EncodeChar

def decodeText (b : Bytes) : Option (List Char) := (String.fromUTF8? ⟨b.toArray⟩).map String.toList

def readBody (body : Bytes) : Option Node := (decodeText body).bind readXml

/-- A client reads these hrefs and names. -/
def Faithful (body : Bytes) (hrefs names : List Bytes) : Prop :=
  ∃ root, readBody body = some root ∧ (root.named "D:href".toList).map encodeText = hrefs ∧
    (root.named "D:displayname".toList).map encodeText = names

variable {chars : List Char} {b : Bytes}

theorem decode_encode (chars : List Char) : decodeText (encodeText chars) = some chars := by
  have same : (⟨(encodeText chars).toArray⟩ : ByteArray) = (String.ofList chars).toByteArray := by
    apply ByteArray.ext
    simp [encodeText, List.utf8Encode]
  unfold decodeText String.fromUTF8?
  rw [dif_pos (same ▸ (String.ofList chars).isValidUTF8)]
  simp only [same, String.fromUTF8, Option.map_some]
  exact congrArg some String.toList_ofList

theorem encode_injective {other : List Char} (same : encodeText chars = encodeText other) : chars = other :=
  Option.some.inj ((decode_encode chars).symm.trans ((congrArg decodeText same).trans (decode_encode other)))

theorem decode_some {b : Bytes} : decodeText b = some chars ↔ b = encodeText chars := by
  constructor
  · intro read
    have valid : validUtf8 b = true := by
      unfold validUtf8
      rw [ByteArray.validateUTF8_eq_true_iff]
      by_contra other
      unfold decodeText String.fromUTF8? at read
      rw [dif_neg other] at read
      cases read
    obtain ⟨chars', same⟩ := valid_utf8_iff.mp valid
    rw [show b = encodeText chars' from same, decode_encode] at read
    rw [← Option.some.inj read]
    exact same
  · intro same
    rw [same, decode_encode]

theorem encode_append (a b : List Char) : encodeText (a ++ b) = encodeText a ++ encodeText b :=
  List.flatMap_append

theorem utf8_encode (text : String) : utf8 text = encodeText text.toList := by
  rw [← @String.ofList_toList text, utf8_chars, String.toList_ofList]
  rfl

/-- A byte that has no meaning to a reader of XML: ASCII, no control, and no bracket. -/
def Bare (b : UInt8) : Prop := 32 ≤ b ∧ b < 127 ∧ b ≠ 60 ∧ b ≠ 62

def asciiChars (b : Bytes) : List Char := b.map fun b => Char.ofNat b.toNat

theorem encode_ascii (bare : ∀ x ∈ b, Bare x) : encodeText (asciiChars b) = b := by
  apply ascii_chars
  intro x member
  obtain ⟨_, low, _⟩ := bare x member
  exact UInt8.lt_trans low (by decide)

theorem bare_char {x : UInt8} (bare : Bare x) :
    isXmlChar (Char.ofNat x.toNat) = true ∧ Char.ofNat x.toNat ≠ '<' ∧ Char.ofNat x.toNat ≠ '>' ∧
      Char.ofNat x.toNat ≠ '\r' ∧ (Char.ofNat x.toNat = '&' ↔ x = 38) := by
  have each : ∀ n : Fin 128, 32 ≤ n.val → n.val < 127 → n.val ≠ 60 → n.val ≠ 62 →
      isXmlChar (Char.ofNat n.val) = true ∧ Char.ofNat n.val ≠ '<' ∧ Char.ofNat n.val ≠ '>' ∧
        Char.ofNat n.val ≠ '\r' ∧ (Char.ofNat n.val = '&' ↔ n.val = 38) := by decide
  obtain ⟨least, low, less, greater⟩ := bare
  rw [UInt8.le_iff_toNat_le] at least
  rw [UInt8.lt_iff_toNat_lt] at low
  rw [ne_eq, ← UInt8.toNat_inj] at less greater
  rw [← UInt8.toNat_inj]
  exact each ⟨x.toNat, Nat.lt_succ_of_lt low⟩ least low less greater

theorem ascii_bare (bare : ∀ x ∈ b, Bare x) : '<' ∉ asciiChars b ∧
    (readText (asciiChars b) = some (asciiChars b) ↔ 38 ∉ b) := by
  have each : ∀ c ∈ asciiChars b, ∃ x ∈ b, Char.ofNat x.toNat = c := fun c member => List.mem_map.mp member
  have absent : ∀ c, (∀ x, Bare x → Char.ofNat x.toNat ≠ c) → c ∉ asciiChars b := by
    intro c other member
    obtain ⟨x, inside, same⟩ := each c member
    exact other x (bare x inside) same
  have less := absent '<' fun x bare => (bare_char bare).2.1
  have greater := absent '>' fun x bare => (bare_char bare).2.2.1
  have returns := absent '\r' fun x bare => (bare_char bare).2.2.2.1
  have allowed : ∀ c ∈ asciiChars b, isXmlChar c = true := by
    intro c member
    obtain ⟨x, inside, same⟩ := each c member
    exact same ▸ (bare_char (bare x inside)).1
  have ampersand : '&' ∈ asciiChars b ↔ 38 ∈ b := by
    constructor
    · intro member
      obtain ⟨x, inside, same⟩ := each _ member
      exact (bare_char (bare x inside)).2.2.2.2.mp same ▸ inside
    · exact fun member => List.mem_map.mpr ⟨38, member, rfl⟩
  have closes : ¬ sectionEnd <:+: asciiChars b := fun inside =>
    greater (inside.subset (by simp [sectionEnd]))
  refine ⟨less, ?_⟩
  rw [read_text_same_iff allowed, ampersand]
  simp [returns, closes]

theorem digits_bare (n : Nat) : '<' ∉ (toString n).toList ∧
    readText (toString n).toList = some (toString n).toList := by
  have digit : ∀ c ∈ (toString n).toList, 48 ≤ c.toNat ∧ c.toNat ≤ 57 := by
    intro c member
    rw [Nat.toString_eq_repr, Nat.toList_repr] at member
    have digit := Nat.isDigit_of_mem_toDigits (by decide) (by decide) member
    simp only [Char.isDigit, Bool.and_eq_true, decide_eq_true_eq, UInt32.le_iff_toNat_le] at digit
    exact digit
  have absent : ∀ c : Char, c.toNat < 48 ∨ 57 < c.toNat → c ∉ (toString n).toList := by
    intro c outside member
    have inside := digit c member
    omega
  have allowed : ∀ c ∈ (toString n).toList, isXmlChar c = true := by
    intro c member
    have inside := digit c member
    simp only [isXmlChar, Bool.or_eq_true, Bool.and_eq_true, decide_eq_true_eq]
    omega
  have closes : ¬ sectionEnd <:+: (toString n).toList := fun inside =>
    absent '>' (by decide) (inside.subset (by simp [sectionEnd]))
  exact ⟨absent '<' (by decide),
    (read_text_same_iff allowed).mpr ⟨absent '&' (by decide), absent '\r' (by decide), closes⟩⟩

end Reading

section Markup

def field (name : String) (text : List Char) (rest : Content) : Content :=
  .full ['\n'] name.toList (.last text) rest

def newline : Content := .last ['\n']

def propContent (isDir : Bool) (displayname size modified : List Char) : Content :=
  let kind : Content := if isDir then .empty [] "D:collection".toList (.last []) else .last []
  let dated := field "D:getlastmodified" modified (.full ['\n'] "D:resourcetype".toList kind newline)
  field "D:displayname" displayname (if isDir then dated else field "D:getcontentlength" size dated)

def responseContent (href : List Char) (prop : Content) (status : String) : Content :=
  field "D:href" href
    (.full ['\n'] "D:propstat".toList
      (.full ['\n'] "D:prop".toList prop (field "D:status" status.toList newline)) newline)

def proppatchContent (path : List Char) : Content :=
  .full ['\n'] "D:response".toList (responseContent path newline "HTTP/1.1 403 Forbidden") newline

def lockContent (token path : List Char) : Content :=
  .full [] "D:lockdiscovery".toList
    (.full [] "D:activelock".toList
      (.full ['\n'] "D:locktoken".toList (.full [] "D:href".toList (.last token) (.last []))
        (.full ['\n'] "D:lockroot".toList (.full [] "D:href".toList (.last path) (.last [])) newline))
      (.last [])) (.last [])

def namespaces : Attributes := [("xmlns:D".toList, "DAV:".toList)]

def multistatusProlog : List Char := "<?xml version=\"1.0\" encoding=\"utf-8\" ?>\n".toList

def lockProlog : List Char := "<?xml version=\"1.0\" encoding=\"utf-8\"?>\n".toList

section Shapes

theorem multistatus_texts :
    "<?xml version=\"1.0\" encoding=\"utf-8\" ?>\n<D:multistatus xmlns:D=\"DAV:\">\n".toList =
        multistatusProlog ++ (attributeTag "D:multistatus".toList namespaces ++ ['\n']) ∧
      "\n</D:multistatus>".toList = '\n' :: stopTag "D:multistatus".toList := by
  decide

theorem response_texts :
    "<D:response>\n<D:href>".toList =
        startTag "D:response".toList ++ '\n' :: startTag "D:href".toList ∧
      "</D:href>\n<D:propstat>\n<D:prop>\n".toList =
        stopTag "D:href".toList ++ '\n' :: (startTag "D:propstat".toList ++ '\n' ::
          (startTag "D:prop".toList ++ ['\n'])) := by
  decide

theorem item_texts :
    "<D:displayname>".toList = startTag "D:displayname".toList ∧
      "</D:displayname>\n".toList = stopTag "D:displayname".toList ++ ['\n'] ∧
      "<D:getcontentlength>".toList = startTag "D:getcontentlength".toList ∧
      "</D:getcontentlength>\n".toList = stopTag "D:getcontentlength".toList ++ ['\n'] ∧
      "<D:getlastmodified>".toList = startTag "D:getlastmodified".toList ∧
      "</D:getlastmodified>\n".toList = stopTag "D:getlastmodified".toList ++ ['\n'] ∧
      "<D:resourcetype><D:collection/></D:resourcetype>\n".toList =
        startTag "D:resourcetype".toList ++ (emptyTag "D:collection".toList ++
          (stopTag "D:resourcetype".toList ++ ['\n'])) ∧
      "<D:resourcetype></D:resourcetype>\n".toList =
        startTag "D:resourcetype".toList ++ (stopTag "D:resourcetype".toList ++ ['\n']) ∧
      "</D:prop>\n<D:status>HTTP/1.1 200 OK</D:status>\n</D:propstat>\n</D:response>".toList =
        stopTag "D:prop".toList ++ '\n' :: (startTag "D:status".toList ++ ("HTTP/1.1 200 OK".toList ++
          (stopTag "D:status".toList ++ '\n' :: (stopTag "D:propstat".toList ++ '\n' ::
            stopTag "D:response".toList)))) := by
  decide

theorem proppatch_texts :
    "</D:href>\n<D:propstat>\n<D:prop>\n</D:prop>\n<D:status>HTTP/1.1 403 Forbidden</D:status>\n".toList =
        stopTag "D:href".toList ++ '\n' :: (startTag "D:propstat".toList ++ '\n' ::
          (startTag "D:prop".toList ++ '\n' :: (stopTag "D:prop".toList ++ '\n' ::
            (startTag "D:status".toList ++ ("HTTP/1.1 403 Forbidden".toList ++
              (stopTag "D:status".toList ++ ['\n'])))))) ∧
      "</D:propstat>\n</D:response>".toList =
        stopTag "D:propstat".toList ++ '\n' :: stopTag "D:response".toList := by
  decide

theorem lock_texts :
    "<?xml version=\"1.0\" encoding=\"utf-8\"?>\n".toList = lockProlog ∧
      "<D:prop xmlns:D=\"DAV:\"><D:lockdiscovery><D:activelock>\n<D:locktoken><D:href>".toList =
        attributeTag "D:prop".toList namespaces ++ (startTag "D:lockdiscovery".toList ++
          (startTag "D:activelock".toList ++ '\n' ::
            (startTag "D:locktoken".toList ++ startTag "D:href".toList))) ∧
      "</D:href></D:locktoken>\n<D:lockroot><D:href>".toList =
        stopTag "D:href".toList ++ (stopTag "D:locktoken".toList ++ '\n' ::
          (startTag "D:lockroot".toList ++ startTag "D:href".toList)) ∧
      "</D:href></D:lockroot>\n</D:activelock></D:lockdiscovery></D:prop>".toList =
        stopTag "D:href".toList ++ (stopTag "D:lockroot".toList ++ '\n' ::
          (stopTag "D:activelock".toList ++
            (stopTag "D:lockdiscovery".toList ++ stopTag "D:prop".toList))) := by
  decide

theorem lock_shape (token path : List Char) : lockXml (encodeText token) (encodeText path) =
    encodeText (lockProlog ++ (attributeTag "D:prop".toList namespaces ++
      ((lockContent token path).print ++ stopTag "D:prop".toList))) := by
  simp only [lockXml, utf8_encode, ← encode_append, lock_texts, lockContent, newline, Content.print,
    List.append_assoc, List.cons_append, List.nil_append]

theorem proppatch_shape (path : List Char) : multistatusXml (proppatchXml (encodeText path)) =
    encodeText (multistatusProlog ++ (attributeTag "D:multistatus".toList namespaces ++
      ((proppatchContent path).print ++ stopTag "D:multistatus".toList))) := by
  simp only [multistatusXml, proppatchXml, utf8_encode, ← encode_append, multistatus_texts, response_texts,
    proppatch_texts, proppatchContent, responseContent, field, newline, Content.print,
    List.append_assoc, List.cons_append, List.nil_append]

theorem item_shape {out : Outside} {item : PathItem} {text : Bytes} {href displayname modified : List Char}
    (written : item.toDavXml out = .ok text) (href_ : item.href = encodeText href)
    (displayname_ : out.escapePcdata item.baseName = encodeText displayname)
    (modified_ : out.toRfc2822 (asI64 item.mtime) = some (encodeText modified)) :
    text = encodeText (startTag "D:response".toList ++
      ((responseContent href (propContent item.isDir displayname (toString (item.size.getD 0)).toList modified)
        "HTTP/1.1 200 OK").print ++ stopTag "D:response".toList)) := by
  unfold PathItem.toDavXml at written
  rw [modified_] at written
  dsimp only at written
  rw [href_, displayname_] at written
  cases kind : item.isDir with
  | true =>
    simp only [utf8_encode, kind, ↓reduceIte, List.append_nil] at written
    have same := (Except.ok.inj written).symm
    rw [same]
    simp only [← encode_append, response_texts, item_texts, responseContent, propContent, field, newline,
      Content.print, ↓reduceIte, List.append_assoc, List.cons_append, List.nil_append]
  | false =>
    simp only [utf8_encode, kind, Bool.false_eq_true, ↓reduceIte] at written
    have same := (Except.ok.inj written).symm
    rw [same]
    simp only [← encode_append, response_texts, item_texts, responseContent, propContent, field, newline,
      Content.print, Bool.false_eq_true, ↓reduceIte, List.append_assoc, List.cons_append, List.nil_append]

end Shapes

end Markup
end VestibuleWebdav
