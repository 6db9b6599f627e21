import Vestibule.StrippedPaths
import Vestibule.WebdavListing

/-!
Texts that are cut at separators, and texts that are written percent by percent: what is valid UTF-8,
and where two dots stand.
-/
namespace VestibulePaths
open VestibuleRust LexicalMotion FileTree VestibuleRanges VestibuleWebdav

section Utf8

theorem utf8_chars (chars : List Char) : utf8 (String.ofList chars) = chars.flatMap String.utf8EncodeChar := by
  simp [utf8, List.utf8Encode]

theorem valid_utf8_iff {b : Bytes} :
    validUtf8 b = true ↔ ∃ chars : List Char, b = chars.flatMap String.utf8EncodeChar := by
  unfold validUtf8
  rw [ByteArray.validateUTF8_eq_true_iff]
  constructor
  · rintro ⟨chars, same⟩
    have data := congrArg (fun bytes => bytes.data.toList) same
    exact ⟨chars, by simpa [List.utf8Encode] using data⟩
  · rintro ⟨chars, same⟩
    refine ⟨chars, ?_⟩
    rw [same]
    apply ByteArray.ext
    simp [List.utf8Encode]

theorem ascii_in_char {c : Char} {b : UInt8} (low : b < 128) (member : b ∈ String.utf8EncodeChar c) :
    String.utf8EncodeChar c = [b] := by
  have high : ∀ n : Nat, 128 ≤ n % 256 → b ≠ UInt8.ofNat n := by
    intro n large same
    subst same
    rw [UInt8.lt_iff_toNat_lt, UInt8.toNat_ofNat'] at low
    have bound : (128 : UInt8).toNat = 128 := rfl
    omega
  unfold String.utf8EncodeChar at member ⊢
  dsimp only at member ⊢
  split at member
  · rename_i single
    rw [if_pos single, List.mem_singleton.mp member]
  · exfalso
    have bound := c.val.toNat_lt
    split at member
    · simp only [List.mem_cons, List.not_mem_nil, or_false] at member
      rcases member with same | same
      all_goals exact high _ (by omega) same
    split at member
    · simp only [List.mem_cons, List.not_mem_nil, or_false] at member
      rcases member with same | same | same
      all_goals exact high _ (by omega) same
    · simp only [List.mem_cons, List.not_mem_nil, or_false] at member
      rcases member with same | same | same | same
      all_goals exact high _ (by omega) same

theorem ascii_char {b : UInt8} (low : b < 128) :
    String.utf8EncodeChar (Char.ofNat b.toNat) = [b] := by
  have each : ∀ n : Fin 128, String.utf8EncodeChar (Char.ofNat n.val) = [UInt8.ofNat n.val] := by decide
  have here := each ⟨b.toNat, UInt8.lt_iff_toNat_lt.mp low⟩
  rwa [UInt8.ofNat_toNat] at here

theorem ascii_chars {b : Bytes} (low : ∀ x ∈ b, x < 128) :
    (b.map fun x => Char.ofNat x.toNat).flatMap String.utf8EncodeChar = b := by
  rw [List.flatMap_map, List.flatMap_congr fun x member => ascii_char (low x member), List.flatMap_singleton']

/-- A text can be cut at an ASCII byte. -/
theorem valid_utf8_cut {a rest : Bytes} {b : UInt8} (low : b < 128) :
    validUtf8 (a ++ b :: rest) = true ↔ validUtf8 a = true ∧ validUtf8 rest = true := by
  simp only [valid_utf8_iff]
  constructor
  · rintro ⟨chars, same⟩
    induction chars generalizing a with
    | nil => simp at same
    | cons c chars ih =>
      rw [List.flatMap_cons] at same
      rcases List.append_eq_append_iff.mp same with ⟨more, front, later⟩ | ⟨more, front, later⟩
      · -- the piece ends before the character does
        cases more with
        | nil =>
          obtain ⟨_, chars', second⟩ := @ih [] later
          refine ⟨⟨[c], by simpa using front.symm⟩, chars', second⟩
        | cons b' more =>
          cases later
          have member : b ∈ String.utf8EncodeChar c := by
            rw [front]
            exact List.mem_append_right _ List.mem_cons_self
          have single := ascii_in_char low member
          rw [single] at front
          cases a with
          | nil =>
            cases front
            exact ⟨⟨[], rfl⟩, chars, rfl⟩
          | cons _ a =>
            cases a <;> cases front
      · obtain ⟨⟨first, whole⟩, second⟩ := ih later.symm
        exact ⟨⟨c :: first, by rw [front, whole, List.flatMap_cons]⟩, second⟩
  · rintro ⟨⟨first, whole⟩, ⟨second, whole'⟩⟩
    refine ⟨first ++ Char.ofNat b.toNat :: second, ?_⟩
    rw [List.flatMap_append, List.flatMap_cons, ascii_char low, ← whole, ← whole', List.singleton_append]

theorem joined_segments (text : Bytes) : joinSegments (segments text) = text := by
  induction text with
  | nil => rfl
  | cons b rest ih =>
    obtain ⟨first, others, shape⟩ := List.exists_cons_of_ne_nil (segments_ne_nil rest)
    rw [shape] at ih
    rw [segments, shape]
    split
    · rename_i slash
      rw [join_segments_cons, ih, slash]
      rfl
    · rw [← ih]
      cases others with
      | nil => simp [joinSegments, List.intercalate]
      | cons second others =>
        rw [join_segments_cons]
        exact join_segments_cons

theorem valid_joined (segs : List Bytes) :
    validUtf8 (joinSegments segs) = true ↔ ∀ seg ∈ segs, validUtf8 seg = true := by
  have empty : validUtf8 [] = true := valid_utf8_iff.mpr ⟨[], rfl⟩
  induction segs with
  | nil => simpa [joinSegments] using empty
  | cons first rest ih =>
    cases rest with
    | nil => simp [joinSegments, List.intercalate]
    | cons second rest =>
      rw [join_segments_cons, valid_utf8_cut (b := slashByte) (by decide), List.forall_mem_cons]
      exact and_congr_right fun _ => ih

theorem valid_segments (text : Bytes) :
    validUtf8 text = true ↔ ∀ seg ∈ segments text, validUtf8 seg = true := by
  rw [← valid_joined, joined_segments]

theorem valid_join {base rest : Bytes} (valid : validUtf8 base = true) (valid' : validUtf8 rest = true) :
    validUtf8 (joinText base rest) = true := by
  unfold joinText
  split
  · exact valid'
  split
  · rename_i ends
    rcases ends with bare | ends
    · rwa [bare]
    · obtain ⟨front, text⟩ := List.getLast?_eq_some_iff.mp ends
      rw [text] at valid ⊢
      have shape : front ++ [slashByte] ++ rest = front ++ slashByte :: rest := by simp
      rw [shape]
      exact (valid_utf8_cut (by decide)).mpr ⟨((valid_utf8_cut (by decide)).mp valid).1, valid'⟩
  · exact (valid_utf8_cut (by decide)).mpr ⟨valid, valid'⟩

theorem extract_valid {wantedPath davPath path : Bytes}
    (asked : extractText wantedPath davPath = .ok (some path)) (valid : validUtf8 davPath = true) :
    validUtf8 path = true := by
  unfold extractText at asked
  split at asked
  · cases asked
  · obtain ⟨tail, _, asked⟩ := bind_ok_iff.mp asked
    split at asked
    · cases asked
    · rename_i decoded found
      cases asked
      unfold decodeUri at found
      split at found
      · rename_i decodes
        cases found
        exact valid_join valid decodes
      · cases found

theorem stripped_valid {path base rel : Bytes} (found : stripPrefix path base = some rel)
    (valid : validUtf8 path = true) : validUtf8 rel = true := by
  rw [valid_segments] at valid ⊢
  intro seg member
  rcases (strip_prefix_stripped found).pieces seg member with inside | bare
  · exact valid seg inside
  · rw [bare]
    decide

end Utf8

section Dots

theorem dots_cons (b : UInt8) (rest : Bytes) :
    containsDots (b :: rest) = (decide (b = 46 ∧ rest.head? = some 46) || containsDots rest) := by
  cases rest with
  | nil => by_cases dot : b = 46 <;> simp [containsDots, dot]
  | cons b' rest =>
    by_cases both : b = 46 ∧ b' = 46
    · obtain ⟨first, second⟩ := both
      subst first second
      rfl
    · have other : containsDots (b :: b' :: rest) = containsDots (b' :: rest) := by
        rw [containsDots]
        intro more first later
        exact both ⟨first, (List.cons.inj later).1⟩
      have none : decide (b = 46 ∧ (b' :: rest).head? = some 46) = false := by simpa using both
      rw [other, none, Bool.false_or]

theorem dots_cut (a rest : Bytes) :
    containsDots (a ++ slashByte :: rest) = (containsDots a || containsDots rest) := by
  induction a with
  | nil => rfl
  | cons b a ih =>
    have head : (a ++ slashByte :: rest).head? = some 46 ↔ a.head? = some 46 := by
      cases a with
      | nil => simp [slashByte]
      | cons b' a => rfl
    rw [List.cons_append, dots_cons, dots_cons, ih, Bool.or_assoc]
    simp only [head]

theorem dots_joined (segs : List Bytes) : containsDots (joinSegments segs) = segs.any containsDots := by
  induction segs with
  | nil => rfl
  | cons first rest ih =>
    cases rest with
    | nil => simp [joinSegments, List.intercalate]
    | cons second rest => rw [join_segments_cons, dots_cut, ih]; rfl

theorem dots_solid (text : Bytes) : containsDots text = (solid (segments text)).any containsDots := by
  have all : ∀ segs : List Bytes, segs.any containsDots = (solid segs).any containsDots := by
    intro segs
    induction segs with
    | nil => rfl
    | cons seg rest ih =>
      cases skip : skipped seg with
      | true =>
        have short : seg = [] ∨ seg = [46] := by simpa [skipped] using skip
        rcases short with bare | dot
        · simp [bare, solid, skipped, containsDots, ih]
        · simp [dot, solid, skipped, containsDots, ih]
      | false => simp [solid, skip, ih]
  rw [← all, ← dots_joined, joined_segments]

theorem dots_entry {path base rel rel' : Bytes} {n : Name} (found : stripPrefix path base = some rel)
    (legal : FileName.legal n = true) (found' : stripPrefix (joinText path n) base = some rel') :
    containsDots rel' = (containsDots rel || containsDots n) := by
  obtain ⟨_, again, parts⟩ := strip_prefix_entry found legal
  rw [found'] at again
  cases again
  rw [dots_solid rel', dots_solid rel, parts]
  simp

end Dots

section Percents

theorem hex_value_digit {n : UInt8} (small : n < 16) : hexValue (hexDigit n) = some n := by
  have each : ∀ n : Fin 16, hexValue (hexDigit (UInt8.ofNat n.val)) = some (UInt8.ofNat n.val) := by decide
  have here := each ⟨n.toNat, UInt8.lt_iff_toNat_lt.mp small⟩
  rwa [UInt8.ofNat_toNat] at here

theorem percent_decode_plain {b : UInt8} (plain : b ≠ 37) (rest : Bytes) :
    percentDecode (b :: rest) = b :: percentDecode rest := by
  rw [percentDecode]
  intro _ _ _ same
  exact absurd same plain

theorem nibbles_small (b : UInt8) : b / 16 < 16 ∧ b % 16 < 16 := by
  have bound := b.toNat_lt
  constructor
  · rw [UInt8.lt_iff_toNat_lt, UInt8.toNat_div]
    change b.toNat / 16 < 16
    omega
  · rw [UInt8.lt_iff_toNat_lt, UInt8.toNat_mod]
    change b.toNat % 16 < 16
    omega

theorem percent_decode_byte (b : UInt8) (rest : Bytes) :
    percentDecode (encodeByte b ++ rest) = b :: percentDecode rest := by
  unfold encodeByte
  split
  · rename_i kept
    apply percent_decode_plain
    intro same
    subst same
    exact absurd kept (by decide)
  · obtain ⟨high, low⟩ := nibbles_small b
    have whole : b / 16 * 16 + b % 16 = b := by
      apply UInt8.toNat_inj.mp
      have bound := b.toNat_lt
      rw [UInt8.toNat_add, UInt8.toNat_mul, UInt8.toNat_div, UInt8.toNat_mod]
      change (b.toNat / 16 * 16 % 256 + b.toNat % 16) % 256 = b.toNat
      omega
    simp only [List.cons_append, List.nil_append, percentDecode, hex_value_digit high, hex_value_digit low,
      whole]

theorem encode_uri_cons (b : UInt8) (v : Bytes) :
    encodeUri (b :: v) = (if b = slashByte then [b] else encodeByte b) ++ encodeUri v := rfl

theorem encode_uri_append (v rest : Bytes) : encodeUri (v ++ rest) = encodeUri v ++ encodeUri rest :=
  List.flatMap_append

theorem percent_decode_encode (v : Bytes) : percentDecode (encodeUri v) = v := by
  induction v with
  | nil => rfl
  | cons b v ih =>
    rw [encode_uri_cons]
    split
    · rename_i slash
      rw [List.singleton_append, percent_decode_plain (by rw [slash]; decide), ih]
    · rw [percent_decode_byte, ih]

def UriByte (b : UInt8) : Prop :=
  (48 ≤ b ∧ b ≤ 57) ∨ (65 ≤ b ∧ b ≤ 90) ∨ (97 ≤ b ∧ b ≤ 122) ∨
    b = 37 ∨ b = 45 ∨ b = 46 ∨ b = 47 ∨ b = 95 ∨ b = 126

def HexByte (b : UInt8) : Prop := (48 ≤ b ∧ b ≤ 57) ∨ (65 ≤ b ∧ b ≤ 70)

theorem hex_digit_byte {n : UInt8} (small : n < 16) : HexByte (hexDigit n) := by
  have each : ∀ n : Fin 16, (48 ≤ hexDigit (UInt8.ofNat n.val) ∧ hexDigit (UInt8.ofNat n.val) ≤ 57) ∨
      (65 ≤ hexDigit (UInt8.ofNat n.val) ∧ hexDigit (UInt8.ofNat n.val) ≤ 70) := by decide
  have here := each ⟨n.toNat, UInt8.lt_iff_toNat_lt.mp small⟩
  rwa [UInt8.ofNat_toNat] at here

/-- One byte of a text is written as it is, or with three bytes. -/
theorem encode_uri_front (b : UInt8) (v : Bytes) :
    (encodeUri (b :: v) = b :: encodeUri v ∧ UriByte b) ∨
      ∃ high low, encodeUri (b :: v) = 37 :: high :: low :: encodeUri v ∧
        HexByte high ∧ HexByte low ∧ b ≠ 46 := by
  rw [encode_uri_cons]
  by_cases slash : b = slashByte
  · rw [if_pos slash, slash]
    exact .inl ⟨rfl, by simp [UriByte, slashByte]⟩
  rw [if_neg slash]
  unfold encodeByte
  split
  · rename_i kept
    refine .inl ⟨rfl, ?_⟩
    rcases kept with digit | upper | lower | minus | dot | line | tilde
    all_goals simp [UriByte, *]
  · rename_i other
    obtain ⟨high, low⟩ := nibbles_small b
    refine .inr ⟨_, _, rfl, hex_digit_byte high, hex_digit_byte low, ?_⟩
    intro dot
    exact other (by simp [dot])

theorem hex_uri {b : UInt8} (hex : HexByte b) : UriByte b := by
  rcases hex with digit | ⟨low, high⟩
  · exact .inl digit
  · exact .inr (.inl ⟨low, UInt8.le_trans high (by decide)⟩)

theorem encode_uri_bytes {v : Bytes} {b : UInt8} (member : b ∈ encodeUri v) : UriByte b := by
  induction v with
  | nil => cases member
  | cons c v ih =>
    rcases encode_uri_front c v with ⟨front, uri⟩ | ⟨high, low, front, hex, hex', _⟩
    · rw [front] at member
      rcases List.mem_cons.mp member with first | later
      · rwa [first]
      · exact ih later
    · rw [front] at member
      rcases List.mem_cons.mp member with first | member
      · simp [UriByte, first]
      rcases List.mem_cons.mp member with second | member
      · exact hex_uri (second ▸ hex)
      rcases List.mem_cons.mp member with third | later
      · exact hex_uri (third ▸ hex')
      · exact ih later

theorem uri_ascii {b : UInt8} (uri : UriByte b) : b < 128 := by
  rcases uri with ⟨_, high⟩ | ⟨_, high⟩ | ⟨_, high⟩ | same | same | same | same | same | same
  · exact UInt8.lt_of_le_of_lt high (by decide)
  · exact UInt8.lt_of_le_of_lt high (by decide)
  · exact UInt8.lt_of_le_of_lt high (by decide)
  all_goals subst same; decide

theorem hex_not_dot {b : UInt8} (hex : HexByte b) : b ≠ 46 := by
  intro same
  subst same
  revert hex
  unfold HexByte
  decide

theorem dots_encode (v : Bytes) : containsDots (encodeUri v) = containsDots v ∧
    ((encodeUri v).head? = some 46 ↔ v.head? = some 46) := by
  induction v with
  | nil => exact ⟨rfl, Iff.rfl⟩
  | cons b v ih =>
    obtain ⟨dots, head⟩ := ih
    rcases encode_uri_front b v with ⟨front, _⟩ | ⟨high, low, front, hex, hex', other⟩
    · rw [front, dots_cons, dots_cons, dots]
      simp [head]
    · rw [front, dots_cons, dots_cons, dots_cons, dots_cons, dots]
      simp [hex_not_dot hex, hex_not_dot hex', other]

end Percents

section Hrefs
variable {item : PathItem}

theorem href_written (item : PathItem) :
    ∃ shown, MaybeSlash item.name shown ∧ item.href = encodeUri (slashByte :: shown) := by
  unfold PathItem.href
  dsimp only
  split
  · rename_i open_end
    refine ⟨item.name ++ [slashByte], .inr ⟨?_, rfl⟩, ?_⟩
    · intro bare
      have last : (encodeUri [slashByte]).getLast? = some slashByte := by decide
      simp [bare, last] at open_end
    · rw [← List.cons_append]
      exact (encode_uri_append (slashByte :: item.name) [slashByte]).symm
  · exact ⟨item.name, .inl rfl, rfl⟩

theorem maybe_slash_valid {rel shown : Bytes} (either : MaybeSlash rel shown)
    (valid : validUtf8 rel = true) : validUtf8 shown = true := by
  rcases either with same | ⟨_, same⟩
  · rwa [same]
  · rw [same]
    exact (valid_utf8_cut (by decide)).mpr ⟨valid, by decide⟩

theorem extract_href (item : PathItem) (directory : Bytes) (valid : validUtf8 item.name = true) :
    ∃ shown, MaybeSlash item.name shown ∧ extractText item.href directory =
      .ok (if containsDots item.name then none else some (joinText directory shown)) := by
  obtain ⟨shown, either, href⟩ := href_written item
  refine ⟨shown, either, ?_⟩
  have dots : containsDots item.href = containsDots item.name := by
    rw [href, (dots_encode _).1, dots_cons, dots_solid, (maybe_slash_same either).1, ← dots_solid]
    simp [slashByte]
  have after : afterFirst item.href = .ok (encodeUri shown) := by
    have shape : item.href = slashByte :: encodeUri shown := href
    have whole : firstCharWhole item.href = true := by
      rw [shape]
      cases found : encodeUri shown with
      | nil => rfl
      | cons b rest =>
        have uri : UriByte b := encode_uri_bytes (by rw [found]; exact List.mem_cons_self)
        simp [firstCharWhole, uri_ascii uri]
    unfold afterFirst
    rw [if_neg (by simp [shape]), if_pos whole, shape]
    rfl
  have decoded : decodeUri (encodeUri shown) = some shown := by
    unfold decodeUri
    rw [percent_decode_encode, if_pos (maybe_slash_valid either valid)]
  unfold extractText
  rw [dots]
  split
  · rfl
  · rw [after, ok_bind, decoded]
    rfl

end Hrefs
end VestibulePaths
