import Mathlib.Data.List.Infix

/-!
A reader of XML, character by character: an XML declaration, and an element with attributes, text and
references in it. Comments, further instructions, CDATA sections and document types are not read.
-/
namespace XmlReader

def isXmlChar (c : Char) : Bool :=
  let n := c.toNat
  n = 9 || n = 10 || n = 13 || (0x20 ≤ n && n ≤ 0xD7FF) || (0xE000 ≤ n && n ≤ 0xFFFD) || 0x10000 ≤ n

def isSpace (c : Char) : Bool := c = ' ' || c = '\t' || c = '\r' || c = '\n'

def isNameStart (c : Char) : Bool :=
  let n := c.toNat
  n = 58 || n = 95 || (65 ≤ n && n ≤ 90) || (97 ≤ n && n ≤ 122) || (0xC0 ≤ n && n ≤ 0xD6) ||
    (0xD8 ≤ n && n ≤ 0xF6) || (0xF8 ≤ n && n ≤ 0x2FF) || (0x370 ≤ n && n ≤ 0x37D) ||
    (0x37F ≤ n && n ≤ 0x1FFF) || n = 0x200C || n = 0x200D || (0x2070 ≤ n && n ≤ 0x218F) ||
    (0x2C00 ≤ n && n ≤ 0x2FEF) || (0x3001 ≤ n && n ≤ 0xD7FF) || (0xF900 ≤ n && n ≤ 0xFDCF) ||
    (0xFDF0 ≤ n && n ≤ 0xFFFD) || (0x10000 ≤ n && n ≤ 0xEFFFF)

def isNameChar (c : Char) : Bool :=
  let n := c.toNat
  isNameStart c || n = 45 || n = 46 || (48 ≤ n && n ≤ 57) || n = 0xB7 || (0x300 ≤ n && n ≤ 0x36F) ||
    n = 0x203F || n = 0x2040

abbrev Attributes := List (List Char × List Char)

inductive Node where
  | text (chars : List Char)
  | element (name : List Char) (attributes : Attributes) (children : List Node)

mutual

def Node.content : Node → List Char
  | .text chars => chars
  | .element _ _ children => contents children

def contents : List Node → List Char
  | [] => []
  | node :: rest => node.content ++ contents rest

end

mutual

def Node.named (tag : List Char) : Node → List (List Char)
  | .text _ => []
  | .element name _ children =>
    if name = tag then contents children :: namedAll tag children else namedAll tag children

def namedAll (tag : List Char) : List Node → List (List Char)
  | [] => []
  | node :: rest => node.named tag ++ namedAll tag rest

end

/-- Line ends are read as one newline: a carriage return, with or without a newline behind it. The
    flag says that the character before was a carriage return. -/
def lined {σ : Type} (step : σ → Char → Option σ) (s : σ × Bool) (c : Char) : Option (σ × Bool) :=
  if !isXmlChar c then none
  else if c = '\n' && s.2 then some (s.1, false)
  else (step s.1 (if c = '\r' then '\n' else c)).map fun s' => (s', c = '\r')

section References

def digitValue (base : Nat) (c : Char) : Option Nat :=
  let n := c.toNat
  let value := if 48 ≤ n ∧ n ≤ 57 then n - 48
    else if 65 ≤ n ∧ n ≤ 70 then n - 55
    else if 97 ≤ n ∧ n ≤ 102 then n - 87
    else base
  if value < base then some value else none

def number (base : Nat) : List Char → Option Nat
  | [] => none
  | digits => digits.foldlM (fun n c => (digitValue base c).map (n * base + ·)) 0

def numbered (n : Nat) : Option Char :=
  if n.isValidChar && isXmlChar (Char.ofNat n) then some (Char.ofNat n) else none

/-- What stands between `&` and `;`: one of five names, or a number. -/
def resolve (name : List Char) : Option Char :=
  match name with
  | '#' :: 'x' :: digits => (number 16 digits).bind numbered
  | '#' :: digits => (number 10 digits).bind numbered
  | _ =>
    if name = "lt".toList then some '<'
    else if name = "gt".toList then some '>'
    else if name = "amp".toList then some '&'
    else if name = "apos".toList then some '\''
    else if name = "quot".toList then some '"'
    else none

end References

/-- The text between two tags as far as it is read: its characters, how many brackets stand at the end
    of them (two at most), and the reference that is being read. -/
structure TextState where
  chars : List Char
  brackets : Nat
  reference : Option (List Char)
  deriving DecidableEq

def TextState.empty : TextState := ⟨[], 0, none⟩

/-- A character between two tags. The end of a CDATA section must not stand there. -/
def TextState.step (s : TextState) (c : Char) : Option TextState :=
  match s.reference with
  | some name =>
    if c = ';' then (resolve name).map fun d => ⟨s.chars ++ [d], 0, none⟩
    else some { s with reference := some (name ++ [c]) }
  | none =>
    if c = '&' then some { s with reference := some [] }
    else if c = '>' && s.brackets = 2 then none
    else some ⟨s.chars ++ [c], if c = ']' then min (s.brackets + 1) 2 else 0, none⟩

def readText (text : List Char) : Option (List Char) :=
  match text.foldlM (lined TextState.step) (.empty, false) with
  | some (⟨chars, _, none⟩, _) => some chars
  | _ => none

def textNodes (chars : List Char) : List Node := if chars = [] then [] else [.text chars]

inductive Kind where
  | start
  | stop
  | declaration
  deriving DecidableEq

structure Tag where
  kind : Kind
  name : List Char
  attributes : Attributes
  deriving DecidableEq

inductive Mode where
  | beginning
  | text (s : TextState)
  | less (first : Bool)
  | name (tag : Tag)
  | tag (tag : Tag) (spaced : Bool)
  | key (tag : Tag) (key : List Char)
  | equals (tag : Tag) (key : List Char)
  | quote (tag : Tag) (key : List Char)
  | value (tag : Tag) (key : List Char) (quote : Char) (value : List Char)
  | close (tag : Tag)
  deriving DecidableEq

structure Frame where
  name : List Char
  attributes : Attributes
  children : List Node

structure Reader where
  mode : Mode
  frames : List Frame
  root : Option Node

def addNodes (nodes : List Node) : List Frame → List Frame
  | [] => []
  | frame :: frames => { frame with children := frame.children ++ nodes } :: frames

def Reader.add (r : Reader) (element : Node) : Option Reader :=
  match r.frames with
  | [] => if r.root.isNone then some ⟨.text .empty, [], some element⟩ else none
  | frames => some ⟨.text .empty, addNodes [element] frames, r.root⟩

def isEncoding : List Char → Bool
  | [] => false
  | first :: rest => first.isAlpha && rest.all fun c => c.isAlphanum || c = '.' || c = '_' || c = '-'

/-- The version, and then the encoding and whether the document stands alone. -/
def isDeclaration (tag : Tag) : Bool :=
  let version := "version".toList
  let encoding := "encoding".toList
  let alone := "standalone".toList
  let known (value : List Char) : Bool := value = "1.0".toList || value = "1.1".toList
  let answer (value : List Char) : Bool := value = "yes".toList || value = "no".toList
  tag.name = "xml".toList &&
    match tag.attributes with
    | [(k, v)] => k = version && known v
    | [(k, v), (k', v')] =>
      k = version && known v && ((k' = encoding && isEncoding v') || (k' = alone && answer v'))
    | [(k, v), (k', v'), (k'', v'')] =>
      k = version && known v && k' = encoding && isEncoding v' && k'' = alone && answer v''
    | _ => false

/-- The `>` of a start tag or a stop tag. -/
def Reader.finishTag (r : Reader) (tag : Tag) : Option Reader :=
  match tag.kind with
  | .start =>
    if r.frames.isEmpty && r.root.isSome then none
    else some ⟨.text .empty, ⟨tag.name, tag.attributes, []⟩ :: r.frames, r.root⟩
  | .stop =>
    match r.frames with
    | [] => none
    | frame :: frames =>
      if frame.name = tag.name then
        Reader.add ⟨r.mode, frames, r.root⟩ (.element frame.name frame.attributes frame.children)
      else none
  | .declaration => none

/-- A character in a tag, behind its name or an attribute. -/
def Reader.inTag (r : Reader) (tag : Tag) (c : Char) : Option Reader :=
  if isSpace c then some { r with mode := .tag tag true }
  else if c = '>' then r.finishTag tag
  else if (c = '/' && tag.kind = .start) || (c = '?' && tag.kind = .declaration) then
    some { r with mode := .close tag }
  else none

def Reader.step (r : Reader) (c : Char) : Option Reader :=
  match r.mode with
  | .beginning =>
    if c = '<' then some { r with mode := .less true }
    else if isSpace c then some { r with mode := .text .empty }
    else none
  | .text s =>
    if c = '<' then
      if s.reference.isSome then none
      else some { r with mode := .less false, frames := addNodes (textNodes s.chars) r.frames }
    else if r.frames.isEmpty && !isSpace c then none
    else (s.step c).map fun s' => { r with mode := .text s' }
  | .less first =>
    if c = '/' then some { r with mode := .name ⟨.stop, [], []⟩ }
    else if c = '?' && first then some { r with mode := .name ⟨.declaration, [], []⟩ }
    else if isNameStart c then some { r with mode := .name ⟨.start, [c], []⟩ }
    else none
  | .name tag =>
    if tag.name = [] then
      if isNameStart c then some { r with mode := .name { tag with name := [c] } } else none
    else if isNameChar c then some { r with mode := .name { tag with name := tag.name ++ [c] } }
    else r.inTag tag c
  | .tag tag spaced =>
    if isNameStart c && spaced && tag.kind ≠ .stop then some { r with mode := .key tag [c] }
    else r.inTag tag c
  | .key tag key =>
    if isNameChar c then some { r with mode := .key tag (key ++ [c]) }
    else if c = '=' then some { r with mode := .quote tag key }
    else if isSpace c then some { r with mode := .equals tag key }
    else none
  | .equals tag key =>
    if c = '=' then some { r with mode := .quote tag key }
    else if isSpace c then some r
    else none
  | .quote tag key =>
    if c = '"' || c = '\'' then some { r with mode := .value tag key c [] }
    else if isSpace c then some r
    else none
  | .value tag key quote value =>
    if c = quote then
      if key ∈ tag.attributes.map Prod.fst then none
      else some { r with mode := .tag { tag with attributes := tag.attributes ++ [(key, value)] } false }
    else if c = '<' || c = '&' then none
    else some { r with mode := .value tag key quote (value ++ [if isSpace c then ' ' else c]) }
  | .close tag =>
    if c ≠ '>' then none
    else if tag.kind = .start then r.add (.element tag.name tag.attributes [])
    else if isDeclaration tag then some { r with mode := .text .empty }
    else none

def Reader.initial : Reader := ⟨.beginning, [], none⟩

def run (r : Reader × Bool) (text : List Char) : Option (Reader × Bool) :=
  text.foldlM (lined Reader.step) r

/-- The document element of a text. -/
def readXml (text : List Char) : Option Node :=
  match run (.initial, false) text with
  | some (⟨.text _, [], root⟩, _) => root
  | _ => none

end XmlReader
