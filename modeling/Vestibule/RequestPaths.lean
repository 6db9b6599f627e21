import Vestibule.LexicalMotion
import Vestibule.RustBasics

/-!
From the text of a request to a path on disk: the parts of `std::path` that are used, the
decoding of `davs/webdav_server.rs`, `extract_path` and `extract_dest`. Parsing a URI is left to
the `http` crate and is a parameter.
-/
namespace VestibulePaths
open VestibuleRust LexicalMotion

abbrev Name := Bytes
abbrev DiskPath := Path Name

def slashByte : UInt8 := 47

def segments : Bytes → List Bytes
  | [] => [[]]
  | b :: rest =>
    if b = slashByte then [] :: segments rest
    else
      match segments rest with
      | [] => [[b]]
      | first :: others => (b :: first) :: others

def stepOf (segment : Bytes) : Step Name :=
  if segment = [46] then .here else if segment = [46, 46] then .up else .name segment

/-- `Path::new`. -/
def pathOf (text : Bytes) : DiskPath :=
  ⟨text.head? = some slashByte, ((segments text).filter (· ≠ [])).map stepOf,
    text.getLast? = some slashByte⟩

/-- `Path::join`: an absolute argument replaces the base, an empty one adds a separator. -/
def join (base rest : DiskPath) : DiskPath :=
  if rest.absolute then rest
  else if base.absolute = false ∧ base.steps = [] then rest
  else ⟨base.absolute, base.steps ++ rest.steps, rest.steps.isEmpty || rest.slash⟩

def joinName (base : DiskPath) (n : Name) : DiskPath := join base ⟨false, [.name n], false⟩

def trimHere (steps : List (Step Name)) : List (Step Name) :=
  (steps.reverse.dropWhile (· = .here)).reverse

/-- `Path::components`: inner dots are dropped, a leading one is kept. -/
def components (path : DiskPath) : List (Step Name) :=
  match path.absolute, path.steps with
  | false, .here :: rest => .here :: rest.filter (· ≠ .here)
  | _, steps => steps.filter (· ≠ .here)

/-- `==` on paths. -/
def samePath (a b : DiskPath) : Bool := a.absolute = b.absolute && components a = components b

def parent (path : DiskPath) : Option DiskPath :=
  match path.absolute, path.steps with
  | false, .here :: rest =>
    match trimHere rest with
    | [] => some ⟨false, [], false⟩
    | s :: body => some ⟨false, .here :: trimHere (s :: body).dropLast, false⟩
  | absolute, steps =>
    match trimHere steps with
    | [] => none
    | s :: body => some ⟨absolute, trimHere (s :: body).dropLast, false⟩

def fileName (path : DiskPath) : Option Name :=
  match (trimHere path.steps).getLast? with
  | some (.name n) => some n
  | _ => none

def hexValue (b : UInt8) : Option UInt8 :=
  if 48 ≤ b ∧ b ≤ 57 then some (b - 48)
  else if 65 ≤ b ∧ b ≤ 70 then some (b - 55)
  else if 97 ≤ b ∧ b ≤ 102 then some (b - 87)
  else none

/-- `percent_encoding::percent_decode`: a percent sign without two digits stands for itself. -/
def percentDecode : Bytes → Bytes
  | 37 :: a :: b :: rest =>
    match hexValue a, hexValue b with
    | some high, some low => (high * 16 + low) :: percentDecode rest
    | _, _ => 37 :: percentDecode (a :: b :: rest)
  | c :: rest => c :: percentDecode rest
  | [] => []

def decodeUri (v : Bytes) : Option Bytes :=
  if validUtf8 (percentDecode v) then some (percentDecode v) else none

def containsDots : Bytes → Bool
  | 46 :: 46 :: _ => true
  | _ :: rest => containsDots rest
  | [] => false

/-- `is_char_boundary(1)`: there is a first byte, and the character ends with it. -/
def firstCharWhole : Bytes → Bool
  | [] => false
  | [_] => true
  | _ :: b :: _ => b < 128 || 192 ≤ b

/-- `&s[1..]`. -/
def afterFirst (s : Bytes) : Except Panic Bytes :=
  if s = [] then .error .outOfRange
  else if firstCharWhole s then .ok (s.drop 1)
  else .error .notCharBoundary

/-- Off Windows, where the separators are switched. -/
def extractPath (wantedPath davPath : Bytes) : Except Panic (Option DiskPath) :=
  if containsDots wantedPath then .ok none
  else do
    let tail ← afterFirst wantedPath
    match decodeUri tail with
    | none => return none
    | some decodedPath => return some (join (pathOf davPath) (pathOf decodedPath))

/-- A header map: names in lower case, the values of one name in order. -/
abbrev Headers := List (String × Bytes)

def Headers.get (headers : Headers) (name : String) : Option Bytes :=
  (headers.find? fun header => header.1 = name).map Prod.snd

def toStr (value : Bytes) : Option Bytes :=
  if value.all fun b => (32 ≤ b && b < 127) || b = 9 then some value else none

/-- What `extract_dest` passes on: `uri` parses a text and gives the path of the URI. -/
def destinationPath (uri : Bytes → Option Bytes) (headers : Headers) : Option Bytes := do
  let value ← headers.get "destination"
  let dest ← toStr value
  uri dest

def extractDest (uri : Bytes → Option Bytes) (headers : Headers) (davPath : Bytes) :
    Except Panic (Option DiskPath) :=
  match destinationPath uri headers with
  | none => .ok none
  | some wantedPath => extractPath wantedPath davPath

end VestibulePaths
