import Vestibule.FileCalls
import Vestibule.RequestPaths

/-!
COPY and MOVE: `davs/headers.rs`, and `handle_copymove` and `do_copy` of `davs/webdav_server.rs`,
over a tree of files. Whatever can still be running is `none` until there is fuel enough.
-/
namespace VestibuleCopyMove
open VestibuleRust LexicalMotion FileTree FileCalls VestibulePaths

instance : FileName Name where
  legal n := n ≠ [] && n ≠ [46] && n ≠ [46, 46] && n.length ≤ 255 && n.all fun b => b ≠ 0 && b ≠ 47

abbrev Disk := World Name UInt8
abbrev DiskTree := Tree Name UInt8
abbrev DiskListing := World.Listing Name UInt8

inductive Depth where
  | zero
  | one
  | infinity
  deriving DecidableEq, Repr

/-- `one`: exactly one value. -/
def one : List Bytes → Option Bytes
  | [v] => some v
  | _ => none

def decodeDepth (values : List Bytes) : Option Depth := do
  let value ← one values
  if value = utf8 "0" then some .zero
  else if value = utf8 "1" then some .one
  else if value = utf8 "infinity" ∨ value = utf8 "Infinity" then some .infinity
  else none

def decodeOverwrite (values : List Bytes) : Option Bool := do
  let line ← one values
  if line = utf8 "F" then some false
  else if line = utf8 "T" then some true
  else none

def getAll (headers : Headers) (name : String) : List Bytes :=
  (headers.filter fun header => header.1 = name).map Prod.snd

/-- `typed_get`: an absent header and one that does not decode are both `None`. -/
def typedGet {α : Type} (decode : List Bytes → Option α) (headers : Headers) (name : String) :
    Option α :=
  match getAll headers name with
  | [] => none
  | values => decode values

inductive CopyMethod where
  | copy
  | move
  deriving DecidableEq, Repr

/-- How a handler ends: with a status, with an error that `call` answers with 500, or in a
    panic. -/
inductive Reply where
  | status (code : Nat)
  | failed
  | panicked (p : Panic)
  deriving DecidableEq, Repr

/-- The loop over the entries of a directory that is open at `loc`: each is copied by `body` as a
    directory or not, and an error does not end the loop. -/
def copyEntries (listing : DiskListing) (opened : DiskTree) (loc : List Name)
    (body : Disk → Name → Bool → Option (Disk × Except FsError Unit)) :
    Nat → Disk → List Name → Except FsError Unit → Option (Disk × Except FsError Unit)
  | 0, _, _, _ => none
  | fuel + 1, w, seen, retval =>
    match listing.next opened w.tree loc seen with
    | none => some (w, retval)
    | some name =>
      -- `dirent.metadata()` does not follow links
      match w.tree.get (loc ++ [name]) with
      | none => some (w, .error .notFound)
      | some node =>
        match body w name (World.isDirNode node) with
        | none => none
        | some (w, .ok _) => copyEntries listing opened loc body fuel w (seen ++ [name]) retval
        | some (w, .error e) =>
          copyEntries listing opened loc body fuel w (seen ++ [name]) (.error e)

def doCopy (listing : DiskListing) :
    Nat → Disk → DiskPath → DiskPath → DiskPath → Bool → Depth → Option (Disk × Except FsError Unit)
  | 0, _, _, _, _, _, _ => none
  | fuel + 1, w, source, topdest, dest, destIsDir, depth =>
    if samePath source topdest then some (w, .ok ())
    else
      match w.metadata source with
      | .error e => some (w, .error e)
      | .ok node =>
        let w := if destIsDir then (w.createDir dest).1 else w
        match node with
        | .file _ =>
          if destIsDir then
            match fileName source with
            | none => some (w, .error .invalidInput)
            | some name => some (w.copyFile source (joinName dest name))
          else some (w.copyFile source dest)
        | _ =>
          if depth = .zero then some (w, .ok ())
          else
            match w.lookup true source with
            | .error e => some (w, .error e)
            | .ok loc =>
              if w.tree.isDir loc then
                copyEntries listing w.tree loc
                  (fun w name isDir => doCopy listing fuel w (joinName source name) topdest
                    (joinName dest name) isDir depth)
                  fuel w [] (.ok ())
              else some (w, .error .notDirectory)

/-- What the checks of `handle_copymove` leave to be carried out. -/
structure Plan where
  path : DiskPath
  dest : DiskPath
  overwrite : Bool
  depth : Depth
  present : Bool
  destIsFile : Bool
  deriving DecidableEq, Repr

def isFile (node : Node Name UInt8) : Bool :=
  match node with
  | .file _ => true
  | _ => false

def pathExists (w : Disk) (path : DiskPath) : Bool := (w.metadata path).isOk

def isDir (w : Disk) (path : DiskPath) : Bool :=
  match w.metadata path with
  | .ok node => World.isDirNode node
  | .error _ => false

/-- The Destination is a file, or a link to one. -/
def destIsFile (w : Disk) (dest : DiskPath) : Bool :=
  match w.symlinkMetadata dest with
  | .error _ => false
  | .ok (.link _) =>
    match w.metadata dest with
    | .ok node => isFile node
    | .error _ => false
  | .ok node => isFile node

def copyDepth (method : CopyMethod) (headers : Headers) : Option Depth :=
  match typedGet decodeDepth headers "depth" with
  | some .infinity => some .infinity
  | none => some .infinity
  | some .zero => if method = .copy then some .zero else none
  | some .one => none

/-- The checks of `handle_copymove`, up to the first change. -/
def checkCopymove (uri : Bytes → Option Bytes) (w : Disk) (path : DiskPath) (headers : Headers)
    (method : CopyMethod) (davPath : Bytes) : Except Reply Plan :=
  let overwrite := (typedGet decodeOverwrite headers "overwrite").getD true
  match copyDepth method headers with
  | none => .error (.status 400)
  | some depth =>
    match extractDest uri headers davPath with
    | .error p => .error (.panicked p)
    | .ok none => .error (.status 403)
    | .ok (some dest) =>
      let present := (w.symlinkMetadata dest).isOk
      match parent dest with
      | none => .error (.status 409)
      | some parent =>
        if !pathExists w parent then .error (.status 409)
        else if !overwrite && present then .error (.status 412)
        else if samePath path dest then .error (.status 403)
        else .ok ⟨path, dest, overwrite, depth, present, destIsFile w dest⟩

/-- An existing directory is removed before a directory takes its place. -/
def Plan.removes (plan : Plan) (w : Disk) : Bool :=
  isDir w plan.path && plan.overwrite && plan.present && plan.depth ≠ .zero && !plan.destIsFile

def Plan.makeRoom (plan : Plan) (w : Disk) : Disk × Except FsError Unit :=
  if plan.removes w then w.removeDirAll plan.dest else (w, .ok ())

def Plan.execute (plan : Plan) (listing : DiskListing) (method : CopyMethod) (fuel : Nat)
    (w : Disk) : Option (Disk × Reply) :=
  match plan.makeRoom w with
  | (w, .error _) => some (w, .status 500)
  | (w, .ok _) =>
    match method with
    | .copy =>
      match doCopy listing fuel w plan.path plan.dest plan.dest (!plan.destIsFile) plan.depth with
      | none => none
      | some (w, .error _) => some (w, .failed)
      | some (w, .ok _) =>
        some (w, .status (if plan.overwrite && plan.present then 204 else 201))
    | .move =>
      match w.rename plan.path plan.dest with
      | (w, .error _) => some (w, .failed)
      | (w, .ok _) => some (w, .status 201)

def handleCopymove (uri : Bytes → Option Bytes) (listing : DiskListing) (fuel : Nat) (w : Disk)
    (path : DiskPath) (headers : Headers) (method : CopyMethod) (davPath : Bytes) :
    Option (Disk × Reply) :=
  match checkCopymove uri w path headers method davPath with
  | .error reply => some (w, reply)
  | .ok plan => plan.execute listing method fuel w

def isRootContained (w : Disk) (path directory : DiskPath) : Bool :=
  match w.canonicalize directory, w.canonicalize path with
  | .ok dir, .ok loc => dir.isPrefixOf loc
  | _, _ => false

structure Share where
  directory : Bytes
  writable : Bool
  allowSymlinks : Bool
  deriving DecidableEq, Repr

/-- `handle`, up to the arm of the method: the path of the request once it is let through. -/
def gatedPath (w : Disk) (share : Share) (wantedPath : Bytes) : Except Reply DiskPath :=
  match extractPath wantedPath share.directory with
  | .error p => .error (.panicked p)
  | .ok none => .error (.status 403)
  | .ok (some path) =>
    if !share.allowSymlinks && pathExists w path &&
        !isRootContained w path (pathOf share.directory) then .error (.status 404)
    else .ok path

def handleCopy (uri : Bytes → Option Bytes) (listing : DiskListing) (fuel : Nat) (w : Disk)
    (share : Share) (wantedPath : Bytes) (headers : Headers) (method : CopyMethod) :
    Option (Disk × Reply) :=
  match gatedPath w share wantedPath with
  | .error reply => some (w, reply)
  | .ok path =>
    if !share.writable then some (w, .status 403)
    else if !pathExists w path then some (w, .status 404)
    else handleCopymove uri listing fuel w path headers method share.directory

end VestibuleCopyMove
