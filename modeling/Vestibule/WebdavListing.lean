import Vestibule.RangeRequests
import Vestibule.TextPaths

/-!
What a dav tells about its files: `to_pathitem`, `list_dir`, `zip_dir` and the search of
`davs/webdav_server.rs`, and the XML that is made of the items.
-/
namespace VestibuleWebdav
open VestibuleRust LexicalMotion FileTree FileCalls VestibulePaths VestibuleCopyMove
  VestibuleStreamer VestibuleRanges

/-- `async_walkdir::WalkDir`: the names that lead from a directory to each entry below it, without
    following links, in some order. -/
structure Walker where
  entries : DiskTree → List Name → List (List Name)
  sound : ∀ t loc names, names ∈ entries t loc → names ≠ [] ∧ t.get (loc ++ names) ≠ none
  complete : ∀ t loc names, names ≠ [] → t.get (loc ++ names) ≠ none → names ∈ entries t loc
  once : ∀ t loc, (entries t loc).Nodup

def Walker.asKept : Walker where
  entries t loc := t.support.dedup.filterMap fun place =>
    if loc <+: place ∧ place ≠ loc ∧ (t.get place).isSome then some (place.drop loc.length) else none
  sound t loc names listed := by
    obtain ⟨place, _, kept⟩ := List.mem_filterMap.mp listed
    obtain ⟨⟨⟨rest, below⟩, other, there⟩, same⟩ := Option.ite_none_right_eq_some.mp kept
    subst below
    rw [List.drop_left] at same
    cases same
    constructor
    · intro bare
      rw [bare, List.append_nil] at other
      exact other rfl
    · exact Option.isSome_iff_ne_none.mp there
  complete t loc names some_left there := by
    obtain ⟨node, here⟩ := Option.ne_none_iff_exists'.mp there
    refine List.mem_filterMap.mpr ⟨loc ++ names, List.mem_dedup.mpr (t.finite _ node here), ?_⟩
    rw [if_pos ⟨List.prefix_append _ _, by simpa using some_left, by simp [here]⟩, List.drop_left]
  once t loc := by
    refine (t.support.nodup_dedup).filterMap ?_
    intro place place' names kept kept'
    obtain ⟨⟨⟨rest, below⟩, _⟩, same⟩ := Option.ite_none_right_eq_some.mp kept
    obtain ⟨⟨⟨rest', below'⟩, _⟩, same'⟩ := Option.ite_none_right_eq_some.mp kept'
    subst below below'
    rw [List.drop_left] at same same'
    rw [Option.some.inj (same.trans same'.symm)]

inductive PathType where
  | dir
  | symlinkDir
  | file
  | symlinkFile
  deriving DecidableEq, Repr

structure PathItem where
  pathType : PathType
  name : Bytes
  mtime : Nat
  size : Option Nat
  deriving DecidableEq, Repr

structure Listed where
  path : Bytes
  item : PathItem
  deriving DecidableEq, Repr

/-- A file in an archive: its path, its name, and the bytes written for it. -/
structure ZipEntry where
  path : Bytes
  name : Bytes
  bytes : Bytes
  deriving DecidableEq, Repr

/-- What else comes from outside: the parser of URIs, the order of directories, `to_string_lossy` with
    `to_lowercase`, `chrono`, `xml::escape`, `serde_json`, and the random generators. -/
structure Outside extends Surroundings where
  uri : Bytes → Option Bytes
  listing : DiskListing
  walker : Walker
  lowercase : Bytes → Bytes
  toRfc2822 : Int → Option Bytes
  escapePcdata : Bytes → Bytes
  toJson : List PathItem → Option Bytes
  uuid : Bytes
  nonce : Nonce

structure KeyedShare extends Share where
  key : Option Key
  deriving DecidableEq

def containsText (pattern : Bytes) : Bytes → Bool
  | [] => pattern.isEmpty
  | b :: rest => pattern.isPrefixOf (b :: rest) || containsText pattern rest

section Items
variable (out : Outside) (w : Disk) (share : KeyedShare)

def isLink (node : Node Name UInt8) : Bool :=
  match node with
  | .link _ => true
  | _ => false

/-- `meta.len()` of a file; the length of a directory is never asked for. -/
def contentLength (node : Node Name UInt8) : Nat :=
  match node with
  | .file content => content.length
  | _ => 0

def pathTypeOf (isSymlink isDir : Bool) : PathType :=
  match isSymlink, isDir with
  | true, true => .symlinkDir
  | false, true => .dir
  | true, false => .symlinkFile
  | false, false => .file

/-- `meta.modified()` and `to_timestamp`. -/
def modifiedAt (loc : List Name) : Except Fault Nat :=
  match out.modified loc with
  | none => .error .failed
  | some time => toTimestamp time

def toPathitem (path basePath : Bytes) : Except Fault (Option PathItem) :=
  match stripPrefix path basePath with
  | none => .error .unwrapped
  | some relPath =>
    match w.canonicalize (pathOf path), w.metadata (pathOf path), w.symlinkMetadata (pathOf path) with
    | .ok loc, .ok meta1, .ok meta2 =>
      if !share.allowSymlinks && isLink meta2 &&
          !isRootContained w (pathOf path) (pathOf share.directory) then .ok none
      else do
        let isDir := World.isDirNode meta1
        let mtime ← modifiedAt out loc
        let size ←
          if isDir then .ok none
          else (announcedSize out.target share.key (contentLength meta1)).map some
        return some ⟨pathTypeOf (isLink meta2) isDir, strOrDefault relPath, mtime, size⟩
    | _, _, _ => .error .failed

/-- `if let Ok(Some(item))`, path by path: errors are passed over, panics are not. -/
def collectItems (item : Bytes → Except Fault (Option PathItem)) : List Bytes → Except Fault (List Listed)
  | [] => .ok []
  | path :: rest =>
    match item path with
    | .error .failed => collectItems item rest
    | .error fault => .error fault
    | .ok none => collectItems item rest
    | .ok (some found) => do
      let later ← collectItems item rest
      return ⟨path, found⟩ :: later

def readNames (listing : DiskListing) (t : DiskTree) (loc : List Name) : Nat → List Name → List Name
  | 0, seen => seen
  | fuel + 1, seen =>
    match listing.next t t loc seen with
    | none => seen
    | some n => readNames listing t loc fuel (seen ++ [n])

def readDir (path : Bytes) : Except FsError (List Name) :=
  match w.lookup true (pathOf path) with
  | .error e => .error e
  | .ok loc =>
    if w.tree.isDir loc then
      .ok (readNames out.listing w.tree loc ((World.entries w.tree loc).length + 1) [])
    else .error .notDirectory

def listDir (entryPath basePath : Bytes) : Except Fault (List Listed) :=
  match readDir out w entryPath with
  | .error _ => .error .failed
  | .ok names =>
    collectItems (fun path => toPathitem out w share path basePath) (names.map (joinText entryPath))

/-- The entries of `WalkDir`: their paths and their names. A directory that cannot be read has none. -/
def walkDir (path : Bytes) : List (Bytes × Name) :=
  match w.lookup true (pathOf path) with
  | .error _ => []
  | .ok loc =>
    if w.tree.isDir loc then
      (out.walker.entries w.tree loc).map fun names =>
        (names.foldl joinText path, names.getLast?.getD [])
    else []

def matching (path query : Bytes) : List Bytes :=
  (walkDir out w path).filterMap fun entry =>
    if containsText (out.lowercase query) (out.lowercase entry.2) &&
        (w.symlinkMetadata (pathOf entry.1)).isOk then some entry.1
    else none

def queryDir (path query : Bytes) : Except Fault (List Listed) :=
  collectItems (fun entry => toPathitem out w share entry path) (matching out w path query)

/-- What is written for an open file, and whether all of it could be. -/
def archived (key : Option Key) (stored : Bytes) : Bytes × Bool :=
  match key with
  | none => (stored, true)
  | some key =>
    let run := copyTo out.aead key stored
    (run.bytes,
      match run.result with
      | some (.ok _) => true
      | _ => false)

/-- The loop of `zip_dir`: the entries, and whether the archive is closed in the end. -/
def zipLoop (dir : Bytes) : List Bytes → List ZipEntry × Bool
  | [] => ([], true)
  | entryPath :: rest =>
    match w.symlinkMetadata (pathOf entryPath) with
    | .ok (.file _) =>
      match (stripPrefix entryPath dir).filter validUtf8 with
      | none => zipLoop dir rest
      | some filename =>
        -- `File::open` follows links, which `entryPath` does not end in
        match w.metadata (pathOf entryPath) with
        | .ok (.file stored) =>
          let (bytes, whole) := archived out share.key stored
          if whole then
            let (later, closed) := zipLoop dir rest
            (⟨entryPath, filename, bytes⟩ :: later, closed)
          else ([⟨entryPath, filename, bytes⟩], false)
        | _ => ([], false)
    | _ => zipLoop dir rest

def zipDir (dir : Bytes) : List ZipEntry × Bool :=
  zipLoop out w share dir ((walkDir out w dir).map Prod.fst)

end Items

section Texts
variable (out : Outside)

def PathItem.isDir (item : PathItem) : Bool :=
  item.pathType = .dir || item.pathType = .symlinkDir

def PathItem.baseName (item : PathItem) : Bytes := (getFileName (pathOf item.name)).getD []

def asI64 (n : Nat) : Int := if n < 2 ^ 63 then n else n - u64Limit

def PathItem.href (item : PathItem) : Bytes :=
  let href := encodeUri (slashByte :: item.name)
  if item.isDir && href.getLast? ≠ some slashByte then href ++ [slashByte] else href

def PathItem.toDavXml (item : PathItem) : Except Fault Bytes :=
  match out.toRfc2822 (asI64 item.mtime) with
  | none => .error .unwrapped
  | some mtime =>
    let displayname := out.escapePcdata item.baseName
    let length :=
      if item.isDir then []
      else utf8 "<D:getcontentlength>" ++ utf8 (toString (item.size.getD 0)) ++
        utf8 "</D:getcontentlength>\n"
    let modified := utf8 "<D:getlastmodified>" ++ mtime ++ utf8 "</D:getlastmodified>\n"
    let resourcetype :=
      if item.isDir then utf8 "<D:resourcetype><D:collection/></D:resourcetype>\n"
      else utf8 "<D:resourcetype></D:resourcetype>\n"
    .ok (utf8 "<D:response>\n<D:href>" ++ item.href ++ utf8 "</D:href>\n<D:propstat>\n<D:prop>\n" ++
      utf8 "<D:displayname>" ++ displayname ++ utf8 "</D:displayname>\n" ++ length ++ modified ++
      resourcetype ++
      utf8 "</D:prop>\n<D:status>HTTP/1.1 200 OK</D:status>\n</D:propstat>\n</D:response>")

def itemsXml : List PathItem → Except Fault Bytes
  | [] => .ok []
  | item :: rest => do
    let first ← item.toDavXml out
    let later ← itemsXml rest
    return first ++ later

def multistatusXml (content : Bytes) : Bytes :=
  utf8 "<?xml version=\"1.0\" encoding=\"utf-8\" ?>\n<D:multistatus xmlns:D=\"DAV:\">\n" ++ content ++
    utf8 "\n</D:multistatus>"

/-- The body of `handle_proppatch`, before `res_multistatus`. -/
def proppatchXml (reqPath : Bytes) : Bytes :=
  utf8 "<D:response>\n<D:href>" ++ reqPath ++
    utf8 "</D:href>\n<D:propstat>\n<D:prop>\n</D:prop>\n<D:status>HTTP/1.1 403 Forbidden</D:status>\n" ++
    utf8 "</D:propstat>\n</D:response>"

/-- The body of `handle_lock`. -/
def lockXml (token reqPath : Bytes) : Bytes :=
  utf8 "<?xml version=\"1.0\" encoding=\"utf-8\"?>\n" ++
    utf8 "<D:prop xmlns:D=\"DAV:\"><D:lockdiscovery><D:activelock>\n<D:locktoken><D:href>" ++ token ++
    utf8 "</D:href></D:locktoken>\n<D:lockroot><D:href>" ++ reqPath ++
    utf8 "</D:href></D:lockroot>\n</D:activelock></D:lockdiscovery></D:prop>"

end Texts
end VestibuleWebdav
