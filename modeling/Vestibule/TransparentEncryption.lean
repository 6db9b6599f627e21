import Vestibule.MappedRequests
import Vestibule.OddFiles
import Vestibule.ZipDownloads

/-!
A share with a key against the same share without: as long as every file decrypts to its end, they
answer alike and the disk of the one is the disk of the other, deciphered.
-/
namespace VestibuleWebdav
open VestibuleRust LexicalMotion FileTree FileCalls World PlainLookups LinkedCalls SealedChunks
  VestibulePaths VestibuleCopyMove VestibuleStreamer VestibuleStorage VestibuleParts VestibuleRanges

/-- What GET streams of a stored file. -/
def plaintext (aead : StreamAead) (key : Key) (stored : Bytes) : Bytes := (intoStream aead key stored).bytes

/-- The file decrypts to its end. -/
def Readable (aead : StreamAead) (key : Key) (stored : Bytes) : Prop :=
  (intoStream aead key stored).ending = some .done

def AllReadable (aead : StreamAead) (key : Key) (w : Disk) : Prop :=
  ∀ loc stored, w.tree.get loc = some (.file stored) → Readable aead key stored

/-- No file is without a byte: a copy of a file onto itself leaves one. -/
def NoneEmptied (w : Disk) : Prop := ∀ loc, w.tree.get loc ≠ some (.file [])

def KeyedShare.under (share : KeyedShare) (key : Option Key) : KeyedShare := { share with key := key }

/-- The same but for the entity tag, which is made of the stored size, and for how the bytes are cut. -/
structure SentAlike (sent plain : SentFile) : Prop where
  status : sent.status = plain.status
  lastModified : sent.lastModified = plain.lastModified
  etag : sent.etag.isSome = plain.etag.isSome
  contentType : sent.contentType = plain.contentType
  contentDisposition : sent.contentDisposition = plain.contentDisposition
  acceptRanges : sent.acceptRanges = plain.acceptRanges
  contentRange : sent.contentRange = plain.contentRange
  contentLength : sent.contentLength = plain.contentLength
  bytes : sent.body.bytes = plain.body.bytes
  ending : sent.body.ending = plain.body.ending

def PayloadAlike : Payload → Payload → Prop
  | .file path sent, .file path' plain => path = path' ∧ SentAlike sent plain
  | payload, plain => payload = plain

structure ResponseAlike (response plain : Response) : Prop where
  status : response.status = plain.status
  headers : response.headers = plain.headers
  payload : PayloadAlike response.payload plain.payload

def EndAlike {α : Type} (alike : α → α → Prop) : Except Fault α → Except Fault α → Prop
  | .ok a, .ok b => alike a b
  | .error fault, .error fault' => fault = fault'
  | _, _ => False

def AnsweredAlike : Outcome → Outcome → Prop := EndAlike ResponseAlike

/-- A request whose answers can be compared: a 64-bit machine, on which a range with an end is used only
    where arithmetic is checked; conditions that judge all entity tags alike; and an upload that comes
    whole and fits the counter of its chunks. -/
structure Comparable (aead : StreamAead) (key : Key) (out : Outside) (request : Request) : Prop where
  cipher : out.aead = aead
  blind : Blind out
  wide : out.target.wide = true
  ranges : out.target.overflowChecks = true ∨
    ∀ range, parseRange request.headers = some range → range.stop = none
  noneMatch : ∀ etag etag', out.noneMatchPasses request.headers etag =
    out.noneMatchPasses request.headers etag'
  ifRange : ∀ etag etag' time, out.ifRangeModified request.headers etag time =
    out.ifRangeModified request.headers etag' time
  upload : request.method = .put → ∃ p, request.body.bytes = some p ∧
    p.length / plainChunkSize ≤ counterMax

theorem sent_alike_refl (sent : SentFile) : SentAlike sent sent := by
  constructor <;> rfl

theorem answered_alike_refl (outcome : Outcome) : AnsweredAlike outcome outcome := by
  cases outcome with
  | error fault => rfl
  | ok response =>
    refine ⟨rfl, rfl, ?_⟩
    cases response.payload with
    | file path sent => exact ⟨rfl, sent_alike_refl sent⟩
    | _ => rfl

section Contents
variable {aead : StreamAead} {key : Key} {stored : Bytes}

theorem into_stream_nil : intoStream aead key [] = ⟨[], some (.error .unexpectedEof)⟩ := by
  have missing : retrieveNonce [] = none := retrieve_nonce_none.mpr (by decide)
  simp [intoStream, missing]

theorem plaintext_nil : plaintext aead key [] = [] := by
  rw [plaintext, into_stream_nil]
  rfl

theorem readable_opened (readable : Readable aead key stored) :
    ∃ (nonce : Nonce) (rest : Bytes) (plains : List Bytes), stored = nonce.1 ++ rest ∧
      Opens (decodeAt aead key nonce) encryptedChunkSize 0 rest plains .finished ∧
      plaintext aead key stored = plains.flatten := by
  unfold Readable at readable
  cases found : retrieveNonce stored with
  | none => simp [intoStream, found] at readable
  | some parts =>
    obtain ⟨nonce, rest⟩ := parts
    have whole := retrieve_nonce_some found
    obtain ⟨plains, ending, run, stream, _⟩ := readers_open aead key nonce rest
    rw [whole, stream] at readable
    cases ending with
    | failed => cases readable
    | finished => exact ⟨nonce, rest, plains, whole, run, by rw [plaintext, whole, stream]; rfl⟩

theorem readable_small (readable : Readable aead key stored) :
    (plaintext aead key stored).length < 2 ^ 53 ∧ stored.length < 2 ^ 54 := by
  obtain ⟨nonce, rest, plains, whole, run, same⟩ := readable_opened readable
  have bounded := opened_bounded run (Nat.zero_le _)
  have limit : plainChunkSize * (counterMax + 1 - 0) < 2 ^ 53 := by decide
  obtain ⟨total, count⟩ := opens_lengths (@decode_shrinks aead key nonce) chunk_positive run
  have chunk : encryptedChunkSize = 1000016 := rfl
  have overhead : encryptionOverhead = 16 := rfl
  have front : nonce.1.length = 19 := nonce.2
  rw [same, whole, List.length_append, front]
  rw [overhead] at total
  rw [chunk] at count
  constructor
  · exact Nat.lt_trans bounded limit
  · split at count <;> omega

theorem readable_size (target : Target) (readable : Readable aead key stored) :
    announcedSize target (some key) stored.length = .ok (plaintext aead key stored).length := by
  have fits : stored.length < u64Limit := Nat.lt_trans (readable_small readable).2 (by decide)
  have size := decrypted_size_delivered target fits readable
  unfold announcedSize plaintext
  dsimp only
  rw [size]
  rfl

theorem readable_part {target : Target} (wide : target.wide = true) (readable : Readable aead key stored)
    {start wanted : Nat} (inside : start ≤ (plaintext aead key stored).length) (fits : wanted < u64Limit) :
    (intoStreamSized target aead key start wanted stored).bytes =
        ((plaintext aead key stored).drop start).take wanted ∧
      (intoStreamSized target aead key start wanted stored).ending = some .done := by
  obtain ⟨nonce, rest, plains, whole, run, same⟩ := readable_opened readable
  have cast : target.usize wanted = wanted := by
    rw [usize_same_iff, Target.usizeBits, if_pos wide]
    exact fits
  rw [same] at inside ⊢
  subst whole
  have delivered := @sized_stream_opened target aead key nonce rest plains start wanted run inside
  rwa [cast] at delivered

theorem readable_archived {out : Outside} (cipher : out.aead = aead) (readable : Readable aead key stored) :
    archived out (some key) stored = (plaintext aead key stored, true) := by
  have agree := readers_agree aead key stored
  obtain ⟨count, result⟩ := agree.ends.mpr readable
  unfold archived plaintext
  dsimp only
  rw [cipher, agree.bytes, result]

end Contents

section Files
variable {aead : StreamAead} {key : Key} {env : Surroundings} {headers : Headers} {path : DiskPath}
  {headOnly : Bool} {stored : Bytes}

theorem with_body_alike {res plain : SentFile} (alike : SentAlike res plain) {body body' : Yielded}
    (bytes : body.bytes = body'.bytes) (ending : body.ending = body'.ending) :
    SentAlike { res with body := body } { plain with body := body' } :=
  ⟨alike.status, alike.lastModified, alike.etag, alike.contentType, alike.contentDisposition,
    alike.acceptRanges, alike.contentRange, alike.contentLength, bytes, ending⟩

theorem send_whole_alike (cipher : env.aead = aead) (readable : Readable aead key stored) (size : Nat)
    {res plain : SentFile} (alike : SentAlike res plain) :
    SentAlike (sendWhole env headOnly (some key) stored size res)
      (sendWhole env headOnly none (plaintext aead key stored) size plain) := by
  have announced : SentAlike { res with contentLength := some (toString size) }
      { plain with contentLength := some (toString size) } :=
    ⟨alike.status, alike.lastModified, alike.etag, alike.contentType, alike.contentDisposition,
      alike.acceptRanges, alike.contentRange, rfl, alike.bytes, alike.ending⟩
  unfold sendWhole
  cases headOnly with
  | true => exact announced
  | false =>
    obtain ⟨bytes, ending⟩ := @stream_whole_delivers env.granted (plaintext aead key stored)
    refine with_body_alike announced ?_ ?_
    · rw [bytes, cipher]
      rfl
    · rw [ending, cipher]
      exact readable

theorem send_range_alike (cipher : env.aead = aead) (wide : env.target.wide = true)
    (readable : Readable aead key stored) {range : RangeValue}
    (bounded : env.target.overflowChecks = true ∨ range.stop = none) {res plain : SentFile}
    (alike : SentAlike res plain) :
    EndAlike SentAlike
      (sendRange env headOnly (some key) stored (plaintext aead key stored).length res range)
      (sendRange env headOnly none (plaintext aead key stored) (plaintext aead key stored).length plain
        range) := by
  have small := (readable_small readable).1
  have limit : (2 : Nat) ^ 53 < u64Limit := by decide
  unfold sendRange
  cases accepted : range.accepted (plaintext aead key stored).length with
  | false =>
    exact ⟨rfl, alike.lastModified, alike.etag, alike.contentType, alike.contentDisposition,
      alike.acceptRanges, rfl, alike.contentLength, alike.bytes, alike.ending⟩
  | true =>
    obtain ⟨forward, openEnded⟩ := accepted_iff.mp accepted
    simp only [↓reduceIte]
    by_cases inside : range.start < (plaintext aead key stored).length
    · have bounds := last_byte_bounds inside forward
      rw [part_exact env.target inside forward (Nat.lt_trans small limit)]
      dsimp only
      have announced (stop width : String) : SentAlike
          { res with status := 206, contentRange := some stop, contentLength := some width }
          { plain with status := 206, contentRange := some stop, contentLength := some width } :=
        ⟨rfl, alike.lastModified, alike.etag, alike.contentType, alike.contentDisposition,
          alike.acceptRanges, rfl, rfl, alike.bytes, alike.ending⟩
      cases headOnly with
      | true => exact announced _ _
      | false =>
        have near : range.start < 2 ^ 63 := by omega
        have fits : range.lastByte (plaintext aead key stored).length - range.start + 1 < u64Limit := by
          omega
        obtain ⟨bytes, ending⟩ := readable_part wide readable (Nat.le_of_lt inside) fits
        obtain ⟨bytes', ending'⟩ := @stream_sized_delivers env.target env.granted
          (range.lastByte (plaintext aead key stored).length - range.start + 1)
          ((plaintext aead key stored).drop range.start)
        simp only [Bool.false_eq_true, ↓reduceIte, near]
        refine with_body_alike (announced _ _) ?_ ?_
        · rw [cipher, bytes, bytes']
        · rw [cipher, ending, ending']
    · have checks : env.target.overflowChecks = true := by
        rcases bounded with checks | unbounded
        · exact checks
        · exact absurd (openEnded unbounded) inside
      have target : env.target = ⟨env.target.wide, true⟩ := by rw [← checks]
      rw [target, part_underflows (Nat.le_of_not_lt inside)]
      rfl

/-- `sendStored` once the entity tag and the time are known. -/
def sendValidated (env : Surroundings) (path : DiskPath) (headers : Headers) (headOnly : Bool)
    (key : Option Key) (stored : Bytes) (validators : Option (String × Int)) : Except Fault SentFile :=
  match useRange env headers validators with
  | none => .ok { SentFile.default with status := 304 }
  | some used =>
    match getFileName path with
    | none => .error .failed
    | some filename => do
      let res := { SentFile.default with
        lastModified := validators.map Prod.snd
        etag := validators.map Prod.fst
        contentType := some ((env.mimeGuess path).getD "application/octet-stream")
        contentDisposition := some (utf8 "inline; filename=\"" ++ encodeUri filename ++ utf8 "\"")
        acceptRanges := some "bytes" }
      let size ← announcedSize env.target key stored.length
      match if used then parseRange headers else none with
      | some range => sendRange env headOnly key stored size res range
      | none => return sendWhole env headOnly key stored size res

theorem send_stored_validated (key : Option Key) (loc : List Name) :
    sendStored env path headers headOnly key loc stored =
      (extractCacheHeaders env loc stored.length).bind
        (sendValidated env path headers headOnly key stored) := rfl

theorem send_validated_alike {out : Outside} {request : Request}
    (comparable : Comparable aead key out request) (readable : Readable aead key stored)
    (validators validators' : Option (String × Int))
    (times : validators.map Prod.snd = validators'.map Prod.snd)
    (judged : useRange out.toSurroundings request.headers validators =
      useRange out.toSurroundings request.headers validators') :
    EndAlike SentAlike
      (sendValidated out.toSurroundings path request.headers headOnly (some key) stored validators)
      (sendValidated out.toSurroundings path request.headers headOnly none (plaintext aead key stored)
        validators') := by
  have tags : (validators.map Prod.fst).isSome = (validators'.map Prod.fst).isSome := by
    have both := congrArg Option.isSome times
    simpa using both
  unfold sendValidated
  rw [judged]
  cases useRange out.toSurroundings request.headers validators' with
  | none => exact sent_alike_refl _
  | some used =>
    cases getFileName path with
    | none => rfl
    | some filename =>
      have itself : announcedSize out.target none (plaintext aead key stored).length =
          .ok (plaintext aead key stored).length := rfl
      simp only [readable_size out.target readable, itself, bind, Except.bind]
      generalize ranged : (if used then parseRange request.headers else none) = range
      cases range with
      | none =>
        refine send_whole_alike comparable.cipher readable _ ?_
        exact ⟨rfl, times, tags, rfl, rfl, rfl, rfl, rfl, rfl, rfl⟩
      | some range =>
        have bounded : out.target.overflowChecks = true ∨ range.stop = none := by
          refine comparable.ranges.imp_right fun unbounded => unbounded range ?_
          split at ranged
          · exact ranged
          · cases ranged
        refine send_range_alike comparable.cipher comparable.wide readable bounded ?_
        exact ⟨rfl, times, tags, rfl, rfl, rfl, rfl, rfl, rfl, rfl⟩

/-- The entity tags differ where a time is known, and the conditions judge them alike. -/
theorem send_stored_alike {out : Outside} {request : Request} (comparable : Comparable aead key out request)
    (readable : Readable aead key stored) (loc : List Name) :
    EndAlike SentAlike
      (sendStored out.toSurroundings path request.headers headOnly (some key) loc stored)
      (sendStored out.toSurroundings path request.headers headOnly none loc
        (plaintext aead key stored)) := by
  rw [send_stored_validated, send_stored_validated]
  unfold extractCacheHeaders
  cases out.modified loc with
  | none =>
    have unknown : useRange out.toSurroundings request.headers none =
        useRange out.toSurroundings request.headers none := rfl
    exact send_validated_alike comparable readable none none rfl unknown
  | some mtime =>
    dsimp only
    cases toTimestamp mtime with
    | error fault => rfl
    | ok timestamp =>
      simp only [bind, Except.bind]
      cases out.httpDate mtime with
      | false => rfl
      | true =>
        refine send_validated_alike comparable readable (some (_, mtime)) (some (_, mtime)) rfl ?_
        unfold useRange
        dsimp only
        rw [comparable.noneMatch _ ("\"" ++ toString timestamp ++ "-" ++
            toString (plaintext aead key stored).length ++ "\""),
          comparable.ifRange _ ("\"" ++ toString timestamp ++ "-" ++
            toString (plaintext aead key stored).length ++ "\"")]

end Files

section Sending
variable {aead : StreamAead} {key : Key} {out : Outside} {request : Request} {w : Disk}

theorem handle_send_file_alike (comparable : Comparable aead key out request)
    (readable : AllReadable aead key w) (path : DiskPath) (headOnly : Bool) :
    EndAlike SentAlike
      (handleSendFile out.toSurroundings w path request.headers headOnly (some key))
      (handleSendFile out.toSurroundings (w.mapFiles (plaintext aead key)) path request.headers headOnly
        none) := by
  unfold handleSendFile
  rw [lookup_map]
  cases w.lookup true path with
  | error e => rfl
  | ok loc =>
    simp only [map_files_tree, map_files_get]
    cases here : w.tree.get loc with
    | none => rfl
    | some node =>
      cases node with
      | dir => rfl
      | link target => rfl
      | file stored => exact send_stored_alike comparable (readable loc stored here) loc

end Sending

section Listing
variable {aead : StreamAead} {key : Key} {out : Outside} {w : Disk} {share : KeyedShare} {f : Bytes → Bytes}

theorem to_pathitem_same (readable : AllReadable aead key w) (path basePath : Bytes) :
    toPathitem out (w.mapFiles (plaintext aead key)) (share.under none) path basePath =
      toPathitem out w (share.under (some key)) path basePath := by
  unfold toPathitem
  rw [canonicalize_map, metadata_map, symlink_metadata_map]
  cases stripPrefix path basePath with
  | none => rfl
  | some relPath =>
    cases w.canonicalize (pathOf path) with
    | error e => rfl
    | ok loc =>
      cases found : w.metadata (pathOf path) with
      | error e => rfl
      | ok meta1 =>
        cases w.symlinkMetadata (pathOf path) with
        | error e => rfl
        | ok meta2 =>
          have link : isLink (meta2.mapFile (plaintext aead key)) = isLink meta2 := by cases meta2 <;> rfl
          simp only [Except.map, link, is_dir_node_map, is_root_contained_map, KeyedShare.under]
          cases meta1 with
          | dir => rfl
          | link target => exact absurd rfl (metadata_plain found target)
          | file stored =>
            obtain ⟨place, _, here⟩ := stat_ok_iff.mp found
            have itself : announcedSize out.target none (plaintext aead key stored).length =
                .ok (plaintext aead key stored).length := rfl
            simp only [map_file_file, contentLength, itself,
              readable_size out.target (readable place stored here)]

theorem collect_same {item item' : Bytes → Except Fault (Option PathItem)} (paths : List Bytes)
    (same : ∀ path, item path = item' path) : collectItems item paths = collectItems item' paths := by
  rw [funext same]

theorem read_dir_same (blind : Blind out) (path : Bytes) :
    readDir out (w.mapFiles f) path = readDir out w path := by
  have names (t : DiskTree) (loc : List Name) (fuel : Nat) (seen : List Name) :
      readNames out.listing (t.mapFiles f) loc fuel seen = readNames out.listing t loc fuel seen := by
    induction fuel generalizing seen with
    | zero => rfl
    | succ fuel ih =>
      unfold readNames
      rw [blind.listing]
      cases out.listing.next t t loc seen with
      | none => rfl
      | some n => exact ih (seen ++ [n])
  unfold readDir
  rw [lookup_map]
  cases w.lookup true (pathOf path) with
  | error e => rfl
  | ok loc => simp only [map_files_tree, map_files_is_dir, entries_map, names]

theorem walk_dir_same (blind : Blind out) (path : Bytes) :
    walkDir out (w.mapFiles f) path = walkDir out w path := by
  unfold walkDir
  rw [lookup_map]
  cases w.lookup true (pathOf path) with
  | error e => rfl
  | ok loc => simp only [map_files_tree, map_files_is_dir, blind.walker]

theorem list_dir_same (blind : Blind out) (readable : AllReadable aead key w)
    (entryPath basePath : Bytes) :
    listDir out (w.mapFiles (plaintext aead key)) (share.under none) entryPath basePath =
      listDir out w (share.under (some key)) entryPath basePath := by
  unfold listDir
  rw [read_dir_same blind]
  cases readDir out w entryPath with
  | error e => rfl
  | ok names => exact collect_same _ fun path => to_pathitem_same readable path basePath

theorem query_dir_same (blind : Blind out) (readable : AllReadable aead key w)
    (path query : Bytes) :
    queryDir out (w.mapFiles (plaintext aead key)) (share.under none) path query =
      queryDir out w (share.under (some key)) path query := by
  have there (entry : Bytes) :
      ((w.mapFiles (plaintext aead key)).symlinkMetadata (pathOf entry)).isOk =
        (w.symlinkMetadata (pathOf entry)).isOk := by
    rw [symlink_metadata_map]
    cases w.symlinkMetadata (pathOf entry) <;> rfl
  unfold queryDir matching
  simp only [walk_dir_same blind, there]
  exact collect_same _ fun entry => to_pathitem_same readable entry path

theorem zip_dir_same (cipher : out.aead = aead) (blind : Blind out)
    (readable : AllReadable aead key w) (dir : Bytes) :
    zipDir out (w.mapFiles (plaintext aead key)) (share.under none) dir =
      zipDir out w (share.under (some key)) dir := by
  unfold zipDir
  rw [walk_dir_same blind]
  generalize (walkDir out w dir).map Prod.fst = paths
  induction paths with
  | nil => rfl
  | cons entryPath rest ih =>
    unfold zipLoop
    rw [symlink_metadata_map, metadata_map]
    cases w.symlinkMetadata (pathOf entryPath) with
    | error e => exact ih
    | ok itself =>
      cases itself with
      | dir => exact ih
      | link target => exact ih
      | file content =>
        simp only [Except.map, map_file_file]
        cases (stripPrefix entryPath dir).filter validUtf8 with
        | none => exact ih
        | some filename =>
          cases found : w.metadata (pathOf entryPath) with
          | error e => rfl
          | ok node =>
            cases node with
            | dir => rfl
            | link target => rfl
            | file stored =>
              obtain ⟨place, _, here⟩ := stat_ok_iff.mp found
              have whole : archived out none (plaintext aead key stored) =
                  (plaintext aead key stored, true) := rfl
              simp only [map_file_file, KeyedShare.under, whole,
                readable_archived cipher (readable place stored here)]
              simp only [KeyedShare.under] at ih
              rw [ih]

end Listing

section Requests
variable {aead : StreamAead} {key : Key} {out : Outside} {w w' : Disk} {share : KeyedShare}
  {request : Request} {fuel : Nat} {outcome : Outcome}

theorem copy_body_whole {body : Body} {p : Bytes} (whole : body.bytes = some p) :
    copyBody body = (p, true) := by
  induction body generalizing p with
  | nil =>
    simp only [Body.bytes, Option.some.injEq] at whole
    subst whole
    rfl
  | cons part rest ih =>
    cases part with
    | error e => cases whole
    | ok b =>
      obtain ⟨later, read, same⟩ := Option.map_eq_some_iff.mp whole
      rw [copyBody, ih read, ← same]

theorem uploaded_readable (share : KeyedShare) (undoes : Undoes aead) (cipher : out.aead = aead)
    {body : Body} {p : Bytes} (whole : body.bytes = some p) (counters : p.length / plainChunkSize ≤ counterMax) :
    ∃ stored, uploaded out (share.under (some key)) body = (stored, true) ∧
      Readable aead key stored ∧ plaintext aead key stored = p := by
  subst cipher
  obtain ⟨bytes, done, _⟩ := @written_read_back out.aead key out.nonce undoes p counters
  refine ⟨_, ?_, done, bytes⟩
  unfold uploaded KeyedShare.under
  dsimp only
  rw [copy_from_spec whole counters]

theorem upload_stored (share : KeyedShare) (undoes : Undoes aead) (comparable : Comparable aead key out request)
    (put : request.method = .put) : uploaded out (share.under none) request.body =
      (plaintext aead key (uploaded out (share.under (some key)) request.body).1,
        (uploaded out (share.under (some key)) request.body).2) := by
  obtain ⟨p, whole, counters⟩ := comparable.upload put
  obtain ⟨stored, run, _, same⟩ :=
    uploaded_readable share undoes comparable.cipher whole counters
  rw [run, same]
  exact copy_body_whole whole

def readableOrEmpty (aead : StreamAead) (key : Key) (stored : Bytes) : Bytes :=
  if (intoStream aead key stored).ending = some .done then stored else []

theorem readable_or_empty_nil : readableOrEmpty aead key [] = [] := by
  unfold readableOrEmpty
  split <;> rfl

theorem kept_readable (kept : w.mapFiles (readableOrEmpty aead key) = w) (filled : NoneEmptied w) :
    AllReadable aead key w := by
  intro loc stored here
  have same := congrArg (fun w : Disk => w.tree.get loc) kept
  simp only [map_files_tree, map_files_get, here, Option.map_some, map_file_file, Option.some.injEq,
    Node.file.injEq] at same
  unfold readableOrEmpty at same
  split at same
  · rename_i readable
    exact readable
  · rw [← same] at here
    exact absurd here (filled loc)

theorem readable_kept (readable : AllReadable aead key w) :
    w.mapFiles (readableOrEmpty aead key) = w := by
  have tree : w.tree.mapFiles (readableOrEmpty aead key) = w.tree := by
    refine tree_same (fun loc => ?_) rfl
    rw [map_files_get]
    cases here : w.tree.get loc with
    | none => rfl
    | some node =>
      cases node with
      | dir => rfl
      | link target => rfl
      | file stored =>
        have whole : readableOrEmpty aead key stored = stored := if_pos (readable loc stored here)
        rw [Option.map_some, map_file_file, whole]
  unfold mapFiles
  rw [tree]

/-- A request leaves no file that cannot be read, but for empty ones: what it moves and copies it does
    not look at, and what it uploads is readable. -/
theorem handle_readable (undoes : Undoes aead) (comparable : Comparable aead key out request)
    (readable : AllReadable aead key w) (filled : NoneEmptied w')
    (run : handle out (share.under (some key)) fuel w request = some (w', outcome)) :
    AllReadable aead key w' := by
  have stored (put : request.method = .put) : uploaded out (share.under (some key)) request.body =
      (readableOrEmpty aead key (uploaded out (share.under (some key)) request.body).1,
        (uploaded out (share.under (some key)) request.body).2) := by
    obtain ⟨p, whole, counters⟩ := comparable.upload put
    obtain ⟨stored, upload, there, _⟩ :=
      uploaded_readable share undoes comparable.cipher whole counters
    rw [upload]
    exact Prod.ext (if_pos there).symm rfl
  have mapped := handle_map (w := w) readable_or_empty_nil comparable.blind rfl stored fuel
  rw [readable_kept readable, run] at mapped
  exact kept_readable (Option.some.inj mapped).symm filled

theorem get_alike (comparable : Comparable aead key out request) (readable : AllReadable aead key w)
    (share : KeyedShare) (path : Bytes) (facts : Facts) (size : Nat) :
    AnsweredAlike (handleGet out (share.under (some key)) w request path facts)
      (handleGet out (share.under none) (w.mapFiles (plaintext aead key)) request path
        { facts with size := size }) := by
  unfold handleGet
  dsimp only
  split
  · split
    · unfold handleZipDir
      rw [zip_dir_same comparable.cipher comparable.blind readable]
      exact answered_alike_refl _
    · split
      · unfold handleQueryDir
        rw [query_dir_same comparable.blind readable]
        exact answered_alike_refl _
      · exact answered_alike_refl _
  · split
    · have sent := handle_send_file_alike comparable readable (pathOf path)
        (decide (request.method = .head))
      simp only [KeyedShare.under]
      revert sent
      generalize handleSendFile out.toSurroundings w (pathOf path) request.headers
        (decide (request.method = .head)) (some key) = keyed
      generalize handleSendFile out.toSurroundings (w.mapFiles (plaintext aead key)) (pathOf path)
        request.headers (decide (request.method = .head)) none = plain
      intro sent
      cases keyed with
      | error fault =>
        cases plain with
        | error fault' => exact sent
        | ok plain => cases sent
      | ok sent₁ =>
        cases plain with
        | error fault' => cases sent
        | ok plain => exact ⟨SentAlike.status sent, rfl, rfl, sent⟩
    · exact answered_alike_refl _

theorem propfind_same (share : KeyedShare) (request : Request) (blind : Blind out)
    (readable : AllReadable aead key w) (path : Bytes) (facts : Facts) (size : Nat) :
    handlePropfind out (share.under none) (w.mapFiles (plaintext aead key)) request path
        { facts with size := size } =
      handlePropfind out (share.under (some key)) w request path facts := by
  unfold handlePropfind handlePropfindDir handlePropfindFile
  simp only [to_pathitem_same readable, list_dir_same blind readable]
  rfl

theorem handle_alike (undoes : Undoes aead) (comparable : Comparable aead key out request)
    (readable : AllReadable aead key w)
    (run : handle out (share.under (some key)) fuel w request = some (w', outcome)) :
    ∃ outcome', handle out (share.under none) fuel (w.mapFiles (plaintext aead key)) request =
        some (w'.mapFiles (plaintext aead key), outcome') ∧ AnsweredAlike outcome outcome' := by
  have stored := upload_stored share undoes comparable
  unfold handle at run ⊢
  have directory (key : Option Key) : (share.under key).directory = share.directory := rfl
  have symlinks (key : Option Key) : (share.under key).allowSymlinks = share.allowSymlinks := rfl
  rw [directory, symlinks] at run ⊢
  cases extracted : extractText request.path share.directory with
  | error p =>
    rw [extracted] at run
    cases run
    exact ⟨_, rfl, answered_alike_refl _⟩
  | ok found =>
    rw [extracted] at run
    cases found with
    | none =>
      cases run
      exact ⟨_, rfl, answered_alike_refl _⟩
    | some text =>
      obtain ⟨size, facts⟩ := @facts_map (plaintext aead key) w (pathOf text)
      simp only [facts, is_root_contained_map] at run ⊢
      split at run
      · rename_i refused
        rw [if_pos refused]
        cases run
        exact ⟨_, rfl, answered_alike_refl _⟩
      · rename_i gated
        rw [if_neg gated]
        by_cases writes : request.method.writes = true
        · have same : (share.under none).toShare = (share.under (some key)).toShare := rfl
          rw [method_map plaintext_nil comparable.blind same stored writes, run]
          exact ⟨outcome, rfl, answered_alike_refl _⟩
        · have get := get_alike comparable readable share text (factsOf w (pathOf text)) size
          have propfind := propfind_same share request comparable.blind readable text
            (factsOf w (pathOf text)) size
          unfold handleMethod at run ⊢
          cases method : request.method with
          | put | delete | mkcol | copy | move =>
            rw [method] at writes
            exact absurd rfl writes
          | get | head =>
            simp only [method, Option.some.injEq, Prod.mk.injEq] at run
            obtain ⟨same, answer⟩ := run
            subst same answer
            exact ⟨_, rfl, get⟩
          | propfind =>
            simp only [method, Option.some.injEq, Prod.mk.injEq] at run
            obtain ⟨same, answer⟩ := run
            subst same answer
            exact ⟨_, rfl, propfind ▸ answered_alike_refl _⟩
          | options | proppatch | lock | unlock | other =>
            simp only [method, Option.some.injEq, Prod.mk.injEq] at run
            obtain ⟨same, answer⟩ := run
            subst same answer
            exact ⟨_, rfl, answered_alike_refl _⟩

end Requests

section Runs
variable {aead : StreamAead} {key : Key} {share : KeyedShare} {fuel : Nat}

def NeverEmptied (share : KeyedShare) (fuel : Nat) : Disk → List (Outside × Request) → Prop
  | _, [] => True
  | w, (out, request) :: rest => ∀ w' outcome, handle out share fuel w request = some (w', outcome) →
      NoneEmptied w' ∧ NeverEmptied share fuel w' rest

end Runs

section Samples

instance (w : Disk) : Decidable (NoneEmptied w) :=
  decidable_of_iff (∀ loc ∈ w.tree.support, w.tree.get loc ≠ some (.file []))
    ⟨fun listed loc here => listed loc (w.tree.finite loc _ here) here, fun all loc _ => all loc⟩

def decideNeverEmptied (share : KeyedShare) (fuel : Nat) :
    (w : Disk) → (requests : List (Outside × Request)) → Decidable (NeverEmptied share fuel w requests)
  | _, [] => isTrue trivial
  | w, (out, request) :: rest =>
    match answered : handle out share fuel w request with
    | none => isTrue fun w' outcome run => by
      rw [answered] at run
      cases run
    | some (w', outcome) =>
      have := decideNeverEmptied share fuel w' rest
      decidable_of_iff (NoneEmptied w' ∧ NeverEmptied share fuel w' rest)
        ⟨fun holds w'' outcome' run => by
          rw [answered] at run
          cases run
          exact holds, fun all => all w' outcome answered⟩

instance (share : KeyedShare) (fuel : Nat) (w : Disk) (requests : List (Outside × Request)) :
    Decidable (NeverEmptied share fuel w requests) := decideNeverEmptied share fuel w requests

theorem sample_blind : Blind sampleOutside where
  listing f opened now loc seen := by
    change (World.entries (opened.mapFiles f) loc).find? _ = (World.entries opened loc).find? _
    rw [entries_map]
  walker f t loc := by
    change ((t.mapFiles f).support.dedup.filterMap _) = t.support.dedup.filterMap _
    simp only [map_files_support, map_files_get, Option.isSome_map]

def emptyDisk : Disk where
  tree := Tree.bare.put [] [100] .dir directory_fits
  cwd := []
  touched := []

def sampleRequests : List (Outside × Request) :=
  [(sampleOutside, ⟨.put, utf8 "/f", [], [], [.ok [1], .ok [2, 3]]⟩),
    (sampleOutside, ⟨.move, utf8 "/f", [], [("destination", utf8 "/g")], []⟩),
    (sampleOutside, ⟨.get, utf8 "/g", [], [("range", utf8 "bytes=1-")], []⟩)]

theorem sample_answered :
    (handleAll (closedShare.under (some sampleKey)) 1 emptyDisk sampleRequests).isSome = true := by
  decide +kernel

def sampleRun : Disk × List Outcome :=
  (handleAll (closedShare.under (some sampleKey)) 1 emptyDisk sampleRequests).get sample_answered

theorem sample_comparable : ∀ step ∈ sampleRequests,
    Comparable sampleAead sampleKey step.1 step.2 := by
  have settled {request : Request}
      (known : parseRange request.headers = none ∨ parseRange request.headers = some ⟨1, none⟩)
      (upload : request.method = .put → ∃ p, request.body.bytes = some p ∧
        p.length / plainChunkSize ≤ counterMax) :
      Comparable sampleAead sampleKey sampleOutside request := by
    refine ⟨rfl, sample_blind, rfl, .inr ?_, fun _ _ => rfl, fun _ _ _ => rfl, upload⟩
    intro range read
    rcases known with absent | one
    · rw [absent] at read
      cases read
    · rw [one] at read
      cases read
      rfl
  intro step member
  simp only [sampleRequests, List.mem_cons, List.not_mem_nil, or_false] at member
  rcases member with rfl | rfl | rfl
  · exact settled (.inl rfl) fun _ => ⟨[1, 2, 3], rfl, by decide⟩
  · exact settled (.inl rfl) fun put => by cases put
  · exact settled (.inr rfl) fun put => by cases put

theorem no_file_unreadable : AllReadable sampleAead sampleKey emptyDisk := by
  intro loc stored here
  have places : emptyDisk.tree.get loc =
      if loc = [] ++ [[100]] then some .dir else if loc = [] then some .dir else none := rfl
  rw [places] at here
  repeat' split at here
  all_goals cases here

end Samples

end VestibuleWebdav
