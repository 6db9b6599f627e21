import Vestibule.WebdavListing

/-!
`WebdavServer::handle` with the handlers of all methods, over a tree of files with symbolic links.
-/
namespace VestibuleWebdav
open VestibuleRust LexicalMotion FileTree FileCalls VestibulePaths VestibuleCopyMove
  VestibuleStreamer VestibuleRanges

inductive Method where
  | get
  | head
  | options
  | put
  | delete
  | propfind
  | proppatch
  | mkcol
  | copy
  | move
  | lock
  | unlock
  | other
  deriving DecidableEq, Repr

structure Request where
  method : Method
  path : Bytes
  query : Bytes
  headers : Headers
  body : Body

inductive Payload where
  | empty
  | text (text : Bytes)
  | file (path : Bytes) (sent : SentFile)
  | archive (entries : List ZipEntry) (closed : Bool)
  | items (listed : List Listed) (text : Bytes)
  deriving DecidableEq, Repr

/-- A response; of a file, the headers are with what is sent. -/
structure Response where
  status : Nat
  headers : List (String × Bytes)
  payload : Payload
  deriving DecidableEq, Repr

def Response.default : Response := ⟨200, [], .empty⟩

def statusForbid : Response := ⟨403, [], .text (utf8 "Forbidden")⟩
def statusNotFound : Response := ⟨404, [], .text (utf8 "Not Found")⟩
def statusNoContent : Response := ⟨204, [], .empty⟩
def statusMethodNotAllowed : Response := ⟨405, [], .text (utf8 "Method not allowed")⟩

def xmlType : String × Bytes := ("content-type", utf8 "application/xml; charset=utf-8")

abbrev Outcome := Except Fault Response

section Reading
variable (out : Outside) (w : Disk) (share : KeyedShare)

def handleQueryDir (path query : Bytes) : Outcome := do
  let paths ← queryDir out w share path query
  match out.toJson (paths.map Listed.item) with
  | none => .error .failed
  | some json => return ⟨200, [], .items paths json⟩

def handleZipDir (path : Bytes) (headOnly : Bool) : Outcome :=
  match getFileName (pathOf path) with
  | none => .error .failed
  | some filename =>
    let headers :=
      [("content-disposition", utf8 "attachment; filename=\"" ++ encodeUri filename ++ utf8 ".zip\""),
        ("content-type", utf8 "application/zip")]
    if headOnly then .ok ⟨200, headers, .empty⟩
    else
      let (entries, closed) := zipDir out w share path
      .ok ⟨200, headers, .archive entries closed⟩

def resMultistatus (listed : List Listed) (content : Bytes) : Response :=
  ⟨207, [xmlType], .items listed (multistatusXml content)⟩

def propfindDepth (headers : Headers) : Option Nat :=
  match headers.get "depth" with
  | none => some 1
  | some v => (toStr v).bind (parseUnsigned (2 ^ 32))

def handlePropfindDir (path : Bytes) (headers : Headers) : Outcome :=
  match propfindDepth headers with
  | none => .ok ⟨400, [], .empty⟩
  | some depth => do
    let found ← toPathitem out w share path share.directory
    match found with
    | none => .error .unwrapped
    | some item =>
      let answer (child : List Listed) : Outcome := do
        let listed := ⟨path, item⟩ :: child
        let content ← itemsXml out (listed.map Listed.item)
        return resMultistatus listed content
      if depth = 0 then answer []
      else
        match listDir out w share path share.directory with
        | .ok child => answer child
        | .error .failed => .ok statusForbid
        | .error fault => .error fault

def handlePropfindFile (path : Bytes) : Outcome := do
  let found ← toPathitem out w share path share.directory
  match found with
  | none => return statusNotFound
  | some item =>
    let content ← item.toDavXml out
    return resMultistatus [⟨path, item⟩] content

def handleProppatch (reqPath : Bytes) : Response := resMultistatus [] (proppatchXml reqPath)

def handleLock (reqPath : Bytes) : Response :=
  let token := utf8 "opaquelocktoken:" ++ out.uuid
  ⟨200, [xmlType, ("lock-token", utf8 "<" ++ token ++ utf8 ">")], .text (lockXml token reqPath)⟩

def webdavHeaders : Response :=
  ⟨200, [("allow", utf8 "GET,HEAD,PUT,OPTIONS,DELETE,PROPFIND,COPY,MOVE"), ("dav", utf8 "1,2")],
    .empty⟩

end Reading

section Writing
variable (out : Outside) (share : KeyedShare)

/-- `create_dir_all` of a path with fewer steps than there is fuel. -/
def createDirAll : Nat → Disk → DiskPath → Disk × Except FsError Unit
  | 0, w, _ => (w, .error .notFound)
  | fuel + 1, w, path =>
    if path.absolute = false ∧ path.steps = [] then (w, .ok ())
    else
      let again (w : Disk) : Disk × Except FsError Unit :=
        match w.createDir path with
        | (w, .ok _) => (w, .ok ())
        | (w, .error e) => (w, if isDir w path then .ok () else .error e)
      match w.createDir path with
      | (w, .ok _) => (w, .ok ())
      | (w, .error .notFound) =>
        match parent path with
        | none => (w, .error .notFound)
        | some above =>
          match createDirAll fuel w above with
          | (w, .error e) => (w, .error e)
          | (w, .ok _) => again w
      | (w, .error e) => (w, if isDir w path then .ok () else .error e)

def ensurePathParent (w : Disk) (path : DiskPath) : Disk × Except FsError Unit :=
  match parent path with
  | none => (w, .ok ())
  | some above =>
    match w.symlinkMetadata above with
    | .ok _ => (w, .ok ())
    | .error _ => createDirAll (above.steps.length + 1) w above

/-- What `io::copy` writes of a body, and whether the body came to its end. -/
def copyBody : Body → Bytes × Bool
  | [] => ([], true)
  | .ok b :: rest => (b ++ (copyBody rest).1, (copyBody rest).2)
  | .error _ :: _ => ([], false)

def uploaded (body : Body) : Bytes × Bool :=
  match share.key with
  | none => copyBody body
  | some key =>
    let run := copyFrom out.aead key out.nonce body
    (run.bytes,
      match run.result with
      | some (.ok _) => true
      | _ => false)

def handleUpload (w : Disk) (path : DiskPath) (body : Body) : Disk × Outcome :=
  match ensurePathParent w path with
  | (w, .error _) => (w, .error .failed)
  | (w, .ok _) =>
    match w.openTruncated path with
    | (w, .error _) => (w, .ok statusForbid)
    | (w, .ok (p, n)) =>
      let (content, whole) := uploaded out share body
      match w.putAt p n (.file content) with
      | (w, .error _) => (w, .error .failed)
      | (w, .ok _) => (w, if whole then .ok ⟨201, [], .empty⟩ else .error .failed)

def handleDelete (w : Disk) (path : DiskPath) (isDir : Bool) : Disk × Outcome :=
  match if isDir then w.removeDirAll path else w.removeFile path with
  | (w, .error _) => (w, .error .failed)
  | (w, .ok _) => (w, .ok statusNoContent)

def handleMkcol (w : Disk) (path : DiskPath) : Disk × Outcome :=
  match w.createDir path with
  | (w, .error _) => (w, .ok ⟨409, [], .empty⟩)
  | (w, .ok _) => (w, .ok ⟨201, [], .empty⟩)

def copyOutcome : Reply → Outcome
  | .status code => .ok ⟨code, [], .empty⟩
  | .failed => .error .failed
  | .panicked p => .error (.panicked p)

/-- `handle_copymove`; `none` while the copy is still running. -/
def copymove (fuel : Nat) (w : Disk) (path : DiskPath) (headers : Headers) (method : CopyMethod) :
    Option (Disk × Outcome) :=
  (handleCopymove out.uri out.listing fuel w path headers method share.directory).map fun answer =>
    (answer.1, copyOutcome answer.2)

end Writing

section Handling
variable (out : Outside) (share : KeyedShare)

/-- What `handle` knows of the path before it looks at the method. -/
structure Facts where
  isMiss : Bool
  isDir : Bool
  isFile : Bool
  size : Nat
  deriving DecidableEq, Repr

def factsOf (w : Disk) (path : DiskPath) : Facts :=
  match w.metadata path with
  | .error _ => ⟨true, false, false, 0⟩
  | .ok node => ⟨false, World.isDirNode node, isFile node, contentLength node⟩

def handleGet (w : Disk) (request : Request) (path : Bytes) (facts : Facts) : Outcome :=
  let headOnly := request.method = .head
  if facts.isDir then
    if request.query = utf8 "zip" then handleZipDir out w share path headOnly
    else if (utf8 "q=").isPrefixOf request.query then
      handleQueryDir out w share path ((decodeUri (request.query.drop 2)).getD [])
    else .ok .default
  else if facts.isFile then
    (handleSendFile out.toSurroundings w (pathOf path) request.headers headOnly share.key).map
      fun sent => ⟨sent.status, [], .file path sent⟩
  else .ok statusNotFound

def handlePropfind (w : Disk) (request : Request) (path : Bytes) (facts : Facts) : Outcome :=
  if facts.isDir then handlePropfindDir out w share path request.headers
  else if facts.isFile then handlePropfindFile out w share path
  else .ok statusNotFound

/-- The arms of the methods, for the path of a request that is let through. -/
def handleMethod (fuel : Nat) (w : Disk) (request : Request) (path : Bytes) (facts : Facts) :
    Option (Disk × Outcome) :=
  let allowUpload := share.writable
  let allowDelete := share.writable
  match request.method with
  | .get => some (w, handleGet out share w request path facts)
  | .head => some (w, handleGet out share w request path facts)
  | .options => some (w, .ok webdavHeaders)
  | .put =>
    if !allowUpload || (!allowDelete && facts.isFile && 0 < facts.size) then some (w, .ok statusForbid)
    else some (handleUpload out share w (pathOf path) request.body)
  | .delete =>
    if !allowDelete then some (w, .ok statusForbid)
    else if !facts.isMiss then some (handleDelete w (pathOf path) facts.isDir)
    else some (w, .ok statusNotFound)
  | .propfind => some (w, handlePropfind out share w request path facts)
  | .proppatch =>
    some (w, .ok (if facts.isFile then handleProppatch request.path else statusNotFound))
  | .mkcol =>
    if !allowUpload then some (w, .ok statusForbid)
    else if !facts.isMiss then some (w, .ok statusMethodNotAllowed)
    else if request.body ≠ [] then some (w, .ok ⟨415, [], .text (utf8 "Unsupported Media Type")⟩)
    else some (handleMkcol w (pathOf path))
  | .copy =>
    if !allowUpload then some (w, .ok statusForbid)
    else if facts.isMiss then some (w, .ok statusNotFound)
    else copymove out share fuel w (pathOf path) request.headers .copy
  | .move =>
    if !allowUpload || !allowDelete then some (w, .ok statusForbid)
    else if facts.isMiss then some (w, .ok statusNotFound)
    else copymove out share fuel w (pathOf path) request.headers .move
  | .lock => some (w, .ok (if facts.isFile then handleLock out request.path else statusNotFound))
  | .unlock => some (w, .ok (if facts.isMiss then statusNotFound else .default))
  | .other => some (w, .ok statusMethodNotAllowed)

/-- `handle`. A copy of a directory runs as long as there is fuel. -/
def handle (fuel : Nat) (w : Disk) (request : Request) : Option (Disk × Outcome) :=
  match extractText request.path share.directory with
  | .error p => some (w, .error (.panicked p))
  | .ok none => some (w, .ok statusForbid)
  | .ok (some path) =>
    let facts := factsOf w (pathOf path)
    if !share.allowSymlinks && !facts.isMiss &&
        !isRootContained w (pathOf path) (pathOf share.directory) then some (w, .ok statusNotFound)
    else handleMethod out share fuel w request path facts

/-- Requests one after the other, each with what comes from outside while it is handled; `none` if one
    of them is still running. -/
def handleAll (fuel : Nat) : Disk → List (Outside × Request) → Option (Disk × List Outcome)
  | w, [] => some (w, [])
  | w, (out, request) :: rest =>
    match handle out share fuel w request with
    | none => none
    | some (w, outcome) =>
      match handleAll fuel w rest with
      | none => none
      | some (w, outcomes) => some (w, outcome :: outcomes)

end Handling

section Copying

def CopyMethod.method : CopyMethod → Method
  | .copy => .copy
  | .move => .move

def replyOf : Outcome → Reply
  | .ok response => .status response.status
  | .error (.panicked p) => .panicked p
  | .error _ => .failed

theorem reply_of_copy (reply : Reply) : replyOf (copyOutcome reply) = reply := by
  cases reply <;> rfl

theorem handle_copy_agrees (out : Outside) (share : KeyedShare) (fuel : Nat) (w : Disk)
    (request : Request) (method : CopyMethod) (same : request.method = CopyMethod.method method) :
    (handle out share fuel w request).map (fun answer => (answer.1, replyOf answer.2)) =
      handleCopy out.uri out.listing fuel w share.toShare request.path request.headers method := by
  have missing (path : DiskPath) : (factsOf w path).isMiss = !pathExists w path := by
    unfold factsOf pathExists
    cases w.metadata path <;> rfl
  have answered (path : DiskPath) :
      (copymove out share fuel w path request.headers method).map
          (fun answer => (answer.1, replyOf answer.2)) =
        handleCopymove out.uri out.listing fuel w path request.headers method share.directory := by
    unfold copymove
    cases handleCopymove out.uri out.listing fuel w path request.headers method share.directory with
    | none => rfl
    | some answer => simp only [Option.map_some, reply_of_copy]
  unfold handle handleCopy gatedPath
  rw [extract_path_text]
  cases extractText request.path share.directory with
  | error p => rfl
  | ok found =>
    cases found with
    | none => rfl
    | some path =>
      simp only [Except.map, Option.map_some, missing, Bool.not_not]
      split
      · rfl
      · dsimp only
        unfold handleMethod
        cases method with
        | copy =>
          simp only [same, CopyMethod.method, missing]
          split
          · rfl
          · split
            · rfl
            · exact answered _
        | move =>
          simp only [same, CopyMethod.method, missing, Bool.or_self]
          split
          · rfl
          · split
            · rfl
            · exact answered _

end Copying
end VestibuleWebdav
