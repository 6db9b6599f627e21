import Vestibule.DirectCopies
import Vestibule.ReadOnlyShares
import Vestibule.StoreListings

/-!
One request to a dav against the request to its store: which requests ask for what, and that each is
answered as the store answers and leaves the disk that holds what the store holds then.
-/
namespace VestibuleWebdav
open VestibuleRust LexicalMotion FileTree FileCalls World PlainLookups PlainCalls LinkedLookups LinkedCalls
  DirectPaths DocumentStore SealedChunks VestibulePaths VestibuleCopyMove VestibuleStreamer
  VestibuleStorage VestibuleParts VestibuleRanges

/-- A GET or HEAD under no condition, of all of something or of a range, while the times of files can be
    written. -/
structure Unconditional (out : Outside) (request : Request) (range : Option RangeValue) : Prop where
  range : parseRange request.headers = range
  noneMatch : ∀ etag, out.noneMatchPasses request.headers etag = none
  modifiedSince : ∀ time, out.modifiedSince request.headers time = none
  times : ∀ loc time, out.modified loc = some time → 0 ≤ time ∧ out.httpDate time = true

def PlainQuery (query : Bytes) : Prop := query ≠ utf8 "zip" ∧ (utf8 "q=").isPrefixOf query = false

/-- What a request asks of the store. Uploads come whole and fit the counter of their chunks; what is
    listed has a time. -/
inductive Asks (aead : StreamAead) (share : KeyedShare) (d : List Name) (out : Outside)
    (request : Request) : Action Name Bytes → Prop where
  | read {text : Bytes} {target : Address Name} (addresses : Addresses share d request.path text target)
      (method : request.method = .get) (bare : PlainQuery request.query) (cipher : out.aead = aead)
      (plain : Unconditional out request none) : Asks aead share d out request (.read target)
  | readPart {text : Bytes} {target : Address Name} {range : RangeValue}
      (addresses : Addresses share d request.path text target) (method : request.method = .get)
      (bare : PlainQuery request.query) (cipher : out.aead = aead)
      (plain : Unconditional out request (some range)) (known : out.hasRange request.headers = true)
      (fresh : ∀ etag time, out.ifRangeModified request.headers etag time = none)
      (wide : out.target.wide = true) :
      Asks aead share d out request (.readPart target range.start range.stop)
  | inspect {text : Bytes} {target : Address Name} (addresses : Addresses share d request.path text target)
      (method : request.method = .head) (bare : PlainQuery request.query) (cipher : out.aead = aead)
      (plain : Unconditional out request none) : Asks aead share d out request (.inspect target)
  | put {text content : Bytes} {target : Address Name}
      (addresses : Addresses share d request.path text target) (method : request.method = .put)
      (writable : share.writable = true) (cipher : out.aead = aead)
      (whole : request.body.bytes = some content) (counters : content.length / plainChunkSize ≤ counterMax) :
      Asks aead share d out request (.put target content)
  | delete {text : Bytes} {target : Address Name} (addresses : Addresses share d request.path text target)
      (method : request.method = .delete) (writable : share.writable = true) :
      Asks aead share d out request (.delete target)
  | make {text : Bytes} {target : Address Name} (addresses : Addresses share d request.path text target)
      (method : request.method = .mkcol) (writable : share.writable = true)
      (bodiless : request.body = []) : Asks aead share d out request (.make target)
  | move {text text' wanted : Bytes} {source dest : Address Name}
      (addresses : Addresses share d request.path text source) (method : request.method = .move)
      (writable : share.writable = true) (deep : copyDepth .move request.headers = some .infinity)
      (destination : destinationPath out.uri request.headers = some wanted)
      (leads : Addresses share d wanted text' dest) : Asks aead share d out request
        (.move source dest ((typedGet decodeOverwrite request.headers "overwrite").getD true))
  | list {text : Bytes} {target : Address Name} {depth : Nat}
      (addresses : Addresses share d request.path text target) (method : request.method = .propfind)
      (number : propfindDepth request.headers = some depth) (times : ∀ loc, Dated out loc) :
      Asks aead share d out request (.list target (decide (depth ≠ 0)))
  | search {text query : Bytes} {target : Address Name}
      (addresses : Addresses share d request.path text target) (method : request.method = .get)
      (asked : request.query = utf8 "q=" ++ query) (cipher : out.aead = aead)
      (plain : Unconditional out request none) (times : ∀ loc, out.modified loc ≠ none)
      (json : ∀ items, out.toJson items ≠ none) : Asks aead share d out request (.search target fun n =>
        containsText (out.lowercase ((decodeUri query).getD [])) (out.lowercase n))
  | archive {text : Bytes} {target : Address Name} (addresses : Addresses share d request.path text target)
      (method : request.method = .get) (asked : request.query = utf8 "zip") (cipher : out.aead = aead)
      (plain : Unconditional out request none) : Asks aead share d out request (.archive target)
  | attempt {text : Bytes} {target : Address Name} (addresses : Addresses share d request.path text target)
      (locked : share.writable = false) (writes : request.method.writes = true) :
      Asks aead share d out request .attempt
  | other (reading : request.method.writes = false) : Asks aead share d out request .other

def Answers (out : Outside) (result : Result Name Bytes) (outcome : Outcome) : Prop :=
  match result with
  | .content content => ∃ path sent, outcome = .ok ⟨200, [], .file path sent⟩ ∧
      sent.contentLength = some (toString content.length) ∧ sent.body.bytes = content ∧
      sent.body.ending = some .done
  -- nothing is promised of a range with an end that begins behind the content
  | .part content first last =>
    ((⟨first, last⟩ : RangeValue).Forward → first < content.length →
      ∃ path sent, outcome = .ok ⟨206, [], .file path sent⟩ ∧ PartSent content ⟨first, last⟩ sent) ∧
    ((⟨first, last⟩ : RangeValue).accepted content.length = false →
      ∃ path sent, outcome = .ok ⟨416, [], .file path sent⟩ ∧
        sent.contentRange = some ("bytes */" ++ toString content.length) ∧ sent.body.bytes = [])
  | .described content => ∃ path sent, outcome = .ok ⟨200, [], .file path sent⟩ ∧
      sent.contentLength = some (toString content.length) ∧ sent.body.bytes = []
  | .collection => outcome = .ok .default
  | .listing shows => ∃ listed content, outcome = .ok (resMultistatus listed content) ∧
      itemsXml out (listed.map Listed.item) = .ok content ∧ Lists shows (listed.map Listed.item)
  | .found shows => ∃ listed json, outcome = .ok ⟨200, [], .items listed json⟩ ∧
      out.toJson (listed.map Listed.item) = some json ∧ Lists shows (listed.map Listed.item)
  | .archived documents => ∃ headers entries,
      outcome = .ok ⟨200, headers, .archive entries true⟩ ∧ Archives documents entries
  | .created => outcome = .ok ⟨201, [], .empty⟩
  | .removed => outcome = .ok statusNoContent
  | .missing => outcome = .ok statusNotFound
  | .forbidden => ∃ response, outcome = .ok response ∧ response.status = 403
  | .conflict => outcome = .ok ⟨409, [], .empty⟩
  | .taken => outcome = .ok statusMethodNotAllowed
  | .kept => outcome = .ok ⟨412, [], .empty⟩
  | .failed => outcome = .error .failed
  | .anything => True

section Reading
variable {aead : StreamAead} {share : KeyedShare} {d : List Name} {w : Disk} {s : Store Name Bytes}
  {target : Address Name} {out : Outside} {request : Request} {text : Bytes} {fuel : Nat}

theorem validators_known {range : Option RangeValue} (plain : Unconditional out request range)
    (loc : List Name) (size : Nat) :
    ∃ validators, extractCacheHeaders out.toSurroundings loc size = .ok validators := by
  unfold extractCacheHeaders
  cases time : out.modified loc with
  | none => exact ⟨_, rfl⟩
  | some mtime =>
    obtain ⟨since, dated⟩ := plain.times loc mtime time
    simp only [toTimestamp, since, ↓reduceIte, dated]
    exact ⟨_, rfl⟩

theorem direct_named {loc : List Name} {n : Name} {slash : Bool} (last : loc.getLast? = some n)
    (utf : validUtf8 n = true) : getFileName (direct loc slash) = some n := by
  rw [getFileName, file_name_direct last, Option.filter_some, if_pos utf]

theorem document_sent {key : Option Key} {loc : List Name} {n : Name} {stored content : Bytes}
    (cipher : out.aead = aead) (plain : Unconditional out request none)
    (keeps : Keeps aead key stored content) (last : loc.getLast? = some n) (utf : validUtf8 n = true)
    (headOnly : Bool) :
    ∃ sent, sendStored out.toSurroundings (direct loc false) request.headers headOnly key loc stored =
        .ok sent ∧ sent.status = 200 ∧ sent.contentLength = some (toString content.length) ∧
      sent.body.bytes = (if headOnly then [] else content) ∧ sent.body.ending = some .done := by
  have named : getFileName (direct loc false) = some n := direct_named last utf
  obtain ⟨validators, known⟩ := validators_known plain loc stored.length
  obtain ⟨used, negotiated⟩ : ∃ used, useRange out.toSurroundings request.headers validators = some used := by
    unfold useRange
    cases validators with
    | none => exact ⟨_, rfl⟩
    | some both =>
      obtain ⟨etag, time⟩ := both
      simp only [plain.noneMatch, plain.modifiedSince, Bool.false_eq_true, ↓reduceIte]
      split
      · exact ⟨_, rfl⟩
      · exact ⟨_, rfl⟩
  rw [send_stored_validated, known]
  simp only [Except.bind, sendValidated, negotiated, named, keeps_size keeps, bind, plain.range, ite_self]
  obtain ⟨status, announced, bytes, ending⟩ := whole_sent keeps out.toSurroundings cipher headOnly
    content.length { SentFile.default with
      lastModified := validators.map Prod.snd
      etag := validators.map Prod.fst
      contentType := some ((out.mimeGuess (direct loc false)).getD "application/octet-stream")
      contentDisposition := some (utf8 "inline; filename=\"" ++ encodeUri n ++ utf8 "\"")
      acceptRanges := some "bytes" } rfl
  exact ⟨_, rfl, status, announced, bytes, ending⟩

theorem range_sent {key : Option Key} {loc : List Name} {n : Name} {stored content : Bytes}
    {range : RangeValue} (plain : Unconditional out request (some range))
    (known : out.hasRange request.headers = true)
    (fresh : ∀ etag time, out.ifRangeModified request.headers etag time = none)
    (keeps : Keeps aead key stored content) (last : loc.getLast? = some n) (utf : validUtf8 n = true) :
    ∃ res : SentFile, res.body = ⟨[], some .done⟩ ∧
      sendStored out.toSurroundings (direct loc false) request.headers false key loc stored =
        sendRange out.toSurroundings false key stored content.length res range := by
  have named : getFileName (direct loc false) = some n := direct_named last utf
  obtain ⟨validators, dated⟩ := validators_known plain loc stored.length
  have negotiated : useRange out.toSurroundings request.headers validators = some true := by
    unfold useRange
    cases validators with
    | none => rfl
    | some both =>
      obtain ⟨etag, time⟩ := both
      simp [plain.noneMatch, plain.modifiedSince, known, fresh]
  rw [send_stored_validated, dated]
  simp only [Except.bind, sendValidated, negotiated, named, keeps_size keeps, bind, plain.range, ↓reduceIte]
  exact ⟨_, rfl, rfl⟩

theorem get_stored (represents : Represents aead share.key d w s)
    (addresses : Addresses share d request.path text target) {content : Bytes}
    (seen : s.seen target = some (.document content)) :
    ∃ stored n, Keeps aead share.key stored content ∧ (d ++ target.path).getLast? = some n ∧
      validUtf8 n = true ∧
      handleGet out share w request text (factsOf w (direct (d ++ target.path) target.slash)) =
        (sendStored out.toSurroundings (direct (d ++ target.path) false) request.headers
          (decide (request.method = .head)) share.key (d ++ target.path) stored).map
            fun sent => ⟨sent.status, [], .file text sent⟩ := by
  obtain ⟨stored, keeps, file, stat⟩ := seen_file_stat represents seen
  have slash := (seen_document.mp seen).2
  obtain ⟨front, n, whole⟩ : ∃ front n, target.path = front ++ [n] := by
    rcases List.eq_nil_or_concat target.path with bare | ⟨front, n, whole⟩
    · rw [target.top bare] at slash
      cases slash
    · exact ⟨front, n, by rw [whole, List.concat_eq_append]⟩
  refine ⟨stored, n, keeps, ?_, addresses.utf n (by rw [whole]; simp), ?_⟩
  · rw [whole, ← List.append_assoc, List.getLast?_concat]
  · have found : w.lookup true (direct (d ++ target.path) false) = .ok (d ++ target.path) := by
      refine (direct_lookup (represents_clear represents _)).mpr
        ⟨rfl, there_above file, fun slashed => by cases slashed⟩
    rw [facts_is_file (stat true)]
    simp only [handleGet, Bool.false_eq_true, ↓reduceIte, addresses.spelled, slash, handleSendFile,
      found, file]

theorem plain_query_answers (bare : PlainQuery request.query) :
    handleGet out share w request text ⟨false, true, false, 0⟩ = .ok .default := by
  simp only [handleGet, ↓reduceIte, bare.1, bare.2, Bool.false_eq_true]

theorem part_answers (represents : Represents aead share.key d w s)
    (addresses : Addresses share d request.path text target) {range : RangeValue}
    (method : request.method = .get) (bare : PlainQuery request.query) (cipher : out.aead = aead)
    (plain : Unconditional out request (some range)) (known : out.hasRange request.headers = true)
    (fresh : ∀ etag time, out.ifRangeModified request.headers etag time = none)
    (wide : out.target.wide = true) :
    Answers out (s.readAs target (.part · range.start range.stop) .collection)
      (handleGet out share w request text (factsOf w (direct (d ++ target.path) target.slash))) := by
  unfold Store.readAs
  cases seen : s.seen target with
  | none =>
    rw [facts_missing represents seen]
    rfl
  | some item =>
    cases item with
    | collection =>
      rw [facts_is_dir represents seen, plain_query_answers bare]
      rfl
    | document content =>
      obtain ⟨stored, n, keeps, last, utf, run⟩ :=
        @get_stored _ _ _ _ _ _ out _ _ represents addresses _ seen
      obtain ⟨res, empty, send⟩ := range_sent plain known fresh keeps last utf
      rw [run, method]
      change Answers out _ ((sendStored _ _ _ false _ _ _).map _)
      rw [send]
      constructor
      · intro forward inside
        obtain ⟨sent, part, status, carries⟩ := part_sent keeps out.toSurroundings cipher wide inside forward res
        rw [part]
        exact ⟨text, sent, by rw [Except.map, status], carries⟩
      · intro refused
        rw [send_refused refused]
        exact ⟨text, _, rfl, rfl, by rw [empty]; rfl⟩

theorem get_answers (represents : Represents aead share.key d w s)
    (addresses : Addresses share d request.path text target) (cipher : out.aead = aead)
    (plain : Unconditional out request none) {asCollection : Result Name Bytes}
    (collection : s.seen target = some .collection →
      Answers out asCollection (handleGet out share w request text ⟨false, true, false, 0⟩)) :
    (request.method = .get → Answers out (s.readAs target .content asCollection)
        (handleGet out share w request text (factsOf w (direct (d ++ target.path) target.slash)))) ∧
      (request.method = .head → Answers out (s.readAs target .described asCollection)
        (handleGet out share w request text (factsOf w (direct (d ++ target.path) target.slash)))) := by
  unfold Store.readAs
  cases seen : s.seen target with
  | none =>
    rw [facts_missing represents seen]
    exact ⟨fun _ => rfl, fun _ => rfl⟩
  | some item =>
    cases item with
    | collection =>
      rw [facts_is_dir represents seen]
      exact ⟨fun _ => collection seen, fun _ => collection seen⟩
    | document content =>
      obtain ⟨stored, n, keeps, last, utf, run⟩ :=
        @get_stored _ _ _ _ _ _ out _ _ represents addresses _ seen
      obtain ⟨sent, send, status, announced, bytes, ending⟩ := document_sent cipher plain keeps last utf
        (decide (request.method = .head))
      rw [run, send, Except.map, status]
      constructor
      · intro method
        rw [method] at bytes
        exact ⟨text, sent, rfl, announced, bytes, ending⟩
      · intro method
        rw [method] at bytes
        exact ⟨text, sent, rfl, announced, bytes⟩

theorem search_answers {query : Bytes} (asked : request.query = utf8 "q=" ++ query) :
    handleGet out share w request text ⟨false, true, false, 0⟩ =
      handleQueryDir out w share text ((decodeUri query).getD []) := by
  have mark : utf8 "q=" = [113, 61] := by decide
  have other : ¬ (113 :: 61 :: query : Bytes) = utf8 "zip" := by
    have word : utf8 "zip" = [122, 105, 112] := by decide
    simp [word]
  rw [mark] at asked
  simp only [handleGet, ↓reduceIte, asked, List.cons_append, List.nil_append, other, mark,
    List.isPrefixOf, beq_self_eq_true, Bool.and_self, List.drop_succ_cons, List.drop_zero]

theorem archive_answers (asked : request.query = utf8 "zip") (method : request.method = .get) :
    handleGet out share w request text ⟨false, true, false, 0⟩ = handleZipDir out w share text false := by
  simp [handleGet, asked, method]

theorem propfind_answers (rooted : Rooted share d) (represents : Represents aead share.key d w s)
    (addresses : Addresses share d request.path text target) (times : ∀ loc, Dated out loc) {depth : Nat}
    (number : propfindDepth request.headers = some depth) :
    Answers out (s.list target (decide (depth ≠ 0)))
      (handlePropfind out share w request text (factsOf w (direct (d ++ target.path) target.slash))) := by
  unfold Store.list
  cases seen : s.seen target with
  | none =>
    rw [facts_missing represents seen]
    rfl
  | some item =>
    cases item with
    | collection =>
      rw [facts_is_dir represents seen]
      exact collection_listed rooted represents addresses times seen number
    | document content =>
      obtain ⟨stored, _, _, stat⟩ := seen_file_stat represents seen
      have facts := facts_is_file (stat true)
      rw [facts]
      exact document_listed rooted represents addresses times seen _

end Reading

section Uploads
variable {aead : StreamAead} {share : KeyedShare} {d : List Name} {w : Disk} {s : Store Name Bytes}
  {target : Address Name} {out : Outside} {text : Bytes}

/-- The collections above an upload are made where no document is in the way. A document just above is
    left to the opening of the file. -/
theorem parents_made (rooted : Rooted share d) (represents : Represents aead share.key d w s)
    {p : List Name} (legal : Legal p) (n : Name) (slash : Bool) :
    (s.documentAt p = true → ensurePathParent w (direct (d ++ p ++ [n]) slash) = (w, .ok ())) ∧
      (s.documentAt p = false → s.blocked p = true →
        ∃ e, ensurePathParent w (direct (d ++ p ++ [n]) slash) = (w, .error e)) ∧
      (s.blocked p = false → ∃ w₁, ensurePathParent w (direct (d ++ p ++ [n]) slash) = (w₁, .ok ()) ∧
        Updates aead share.key d w w₁ (s.ensure p)) := by
  have clear := represents_clear represents p
  have stat {node : Node Name UInt8} : w.symlinkMetadata (direct (d ++ p) false) = .ok node ↔
      w.tree.get (d ++ p) = some node := by
    unfold symlinkMetadata
    rw [direct_stat clear]
    simp
  have whole : Legal (d ++ p) := by
    intro m member
    rcases List.mem_append.mp member with above | below
    · exact rooted.legal m above
    · exact legal m below
  have enough : (d ++ p).length < (direct (d ++ p) false).steps.length + 1 := by simp [direct]
  obtain ⟨fails, makes⟩ := create_all_direct enough clear whole
  unfold ensurePathParent
  rw [parent_direct]
  dsimp only
  cases here : w.tree.get (d ++ p) with
  | some node =>
    rw [stat.mpr here]
    refine ⟨fun _ => rfl, fun other blocked => ?_, fun free => ⟨w, rfl, ?_⟩⟩
    · cases node with
      | dir =>
        rw [collection_open ((shows_dir (represents.same p)).mp here)] at blocked
        cases blocked
      | link target => exact absurd here (shows_plain (represents.same p) target)
      | file stored =>
        have shows := represents.same p
        rw [here] at shows
        obtain ⟨content, document, _⟩ := shows_file shows
        rw [document_at_iff.mpr ⟨content, document⟩] at other
        cases other
    · have unblocked : ¬ Blocked w.tree (d ++ p) := by
        rw [represents_blocked represents, free]
        exact Bool.false_ne_true
      have dir : w.tree.isDir (d ++ p) = true := by
        by_contra other
        rw [not_there clear other unblocked] at here
        cases here
      exact updates_ensures represents (ensures_dir dir)
  | none =>
    have missing : ∃ e, w.symlinkMetadata (direct (d ++ p) false) = .error e := by
      cases found : w.symlinkMetadata (direct (d ++ p) false) with
      | error e => exact ⟨e, rfl⟩
      | ok node =>
        rw [stat.mp found] at here
        cases here
    obtain ⟨e, missing⟩ := missing
    rw [missing]
    refine ⟨fun document => ?_, fun _ blocked => fails ((represents_blocked represents).mpr blocked),
      fun free => ?_⟩
    · obtain ⟨content, found⟩ := document_at_iff.mp document
      rw [(shows_none (represents.same p)).mp here] at found
      cases found
    · obtain ⟨w₁, made, ready⟩ := makes (by
        rw [represents_blocked represents, free]
        exact Bool.false_ne_true)
      exact ⟨w₁, made, updates_ensures represents ready⟩

theorem upload_kept (undoes : Undoes aead) (cipher : out.aead = aead) {body : Body} {content : Bytes}
    (whole : body.bytes = some content) (counters : content.length / plainChunkSize ≤ counterMax) :
    ∃ stored, uploaded out share body = (stored, true) ∧ Keeps aead share.key stored content := by
  cases keyed : share.key with
  | none =>
    have below := Nat.lt_mul_div_succ content.length plain_positive
    have most : plainChunkSize * (counterMax + 1) < 2 ^ 63 := by decide
    have chunks := Nat.mul_le_mul_left plainChunkSize (Nat.succ_le_succ counters)
    refine ⟨content, ?_, rfl, Nat.lt_of_lt_of_le below (Nat.le_trans chunks (Nat.le_of_lt most))⟩
    unfold uploaded
    rw [keyed]
    exact copy_body_whole whole
  | some key =>
    obtain ⟨stored, run, readable, same⟩ := @uploaded_readable aead key out share undoes cipher body
      content whole counters
    have itself : share.under (some key) = share := by
      unfold KeyedShare.under
      rw [← keyed]
    rw [itself] at run
    exact ⟨stored, run, readable, same⟩

theorem file_written (rooted : Rooted share d) (represents : Represents aead share.key d w s)
    {p : List Name} {n : Name} (legal : FileName.legal n = true) (slash : Bool)
    {stored content : Bytes} (keeps : Keeps aead share.key stored content) :
    (slash = true ∨ s.get p ≠ some .collection ∨ s.get (p ++ [n]) = some .collection →
      ∃ e, w.openTruncated (direct (d ++ p ++ [n]) slash) = (w, .error e)) ∧
    (slash = false → ∀ (parent : s.get p = some .collection)
      (other : s.get (p ++ [n]) ≠ some .collection),
      ∃ w₁ w₂, w.openTruncated (direct (d ++ p ++ [n]) slash) = (w₁, .ok (d ++ p, n)) ∧
        w₁.putAt (d ++ p) n (.file stored) = (w₂, .ok ()) ∧
        Updates aead share.key d w w₂ (s.write p n (.document content) parent other)) := by
  have clear := represents_clear represents (p ++ [n])
  rw [← List.append_assoc] at clear
  have dir (names : List Name) : w.tree.isDir (d ++ names) = true ↔ s.get names = some .collection :=
    represents_dir represents
  constructor
  · intro stuck
    apply direct_open_refused clear
    intro plain fits
    rcases stuck with slashed | orphan | taken
    · rw [plain] at slashed
      cases slashed
    · exact orphan ((dir p).mp fits.1)
    · have here := (dir (p ++ [n])).mpr taken
      rw [← List.append_assoc, fits.2.2] at here
      cases here
  · intro plain parent other
    subst plain
    have fits : w.tree.Writable (d ++ p) n := by
      refine ⟨(dir p).mpr parent, legal, ?_⟩
      by_contra taken
      have here := Bool.not_eq_false _ ▸ taken
      rw [List.append_assoc] at here
      exact other ((dir (p ++ [n])).mp here)
    obtain ⟨w₁, opened, puts⟩ := direct_open clear fits
    have fits' : w₁.tree.Writable (d ++ p) n := by
      refine ⟨?_, legal, ?_⟩
      · rw [is_dir_iff, puts.get, if_neg (concat_ne_parent (d ++ p) n)]
        exact is_dir_iff.mp fits.1
      · simp [Tree.isDir, puts.get]
    obtain ⟨done, again, _⟩ := put_at_done (.file stored) fits'
    refine ⟨w₁, _, opened, Prod.ext rfl done, ?_⟩
    have both : Puts w (w₁.putAt (d ++ p) n (.file stored)).1 (d ++ (p ++ [n])) (.file stored) := by
      refine ⟨again.cwd.trans puts.cwd, fun loc => ?_⟩
      rw [again.get, puts.get, List.append_assoc]
      split
      · rfl
      · rfl
    exact updates_puts represents rooted.inside both (.file keeps) fun place => rfl

theorem put_answers (undoes : Undoes aead) (rooted : Rooted share d)
    (represents : Represents aead share.key d w s) (legal : Legal target.path) (cipher : out.aead = aead)
    {body : Body} {content : Bytes} (whole : body.bytes = some content)
    (counters : content.length / plainChunkSize ≤ counterMax) :
    ∃ w' outcome, handleUpload out share w (direct (d ++ target.path) target.slash) body = (w', outcome) ∧
      Updates aead share.key d w w' (s.put target content).1 ∧
      Answers out (s.put target content).2 outcome := by
  obtain ⟨stored, upload, keeps⟩ := @upload_kept aead share out undoes cipher body content whole counters
  unfold handleUpload
  rcases List.eq_nil_or_concat target.path with bare | ⟨p, n, last⟩
  · -- the directory of the dav itself
    obtain ⟨front, m, same⟩ : ∃ front m, d = front ++ [m] := by
      rcases List.eq_nil_or_concat d with nothing | ⟨front, m, same⟩
      · exact absurd nothing rooted.inside
      · exact ⟨front, m, by rw [same, List.concat_eq_append]⟩
    have above := represents.above
    rw [same, List.dropLast_concat] at above
    have parent : w.symlinkMetadata (direct front false) = .ok .dir :=
      (direct_stat (dir_clear above)).mpr ⟨is_dir_iff.mp above, fun _ => rfl⟩
    have ready : ensurePathParent w (direct (d ++ target.path) target.slash) = (w, .ok ()) := by
      unfold ensurePathParent
      rw [bare, List.append_nil, same, parent_direct]
      simp only [parent]
    have refused : w.openTruncated (direct (d ++ target.path) target.slash) = (w, .error .isDirectory) := by
      unfold World.openTruncated
      rw [target.top bare]
      rfl
    rw [ready, put_top bare]
    simp only [refused]
    exact ⟨w, _, rfl, updates_refl represents, _, rfl, rfl⟩
  · rw [List.concat_eq_append] at last
    have legal' : Legal p := fun m member => legal m (last ▸ List.mem_append_left _ member)
    have named := legal n (last ▸ List.mem_append_right _ (List.mem_singleton_self n))
    obtain ⟨document, fails, makes⟩ := parents_made rooted represents legal' n target.slash
    rw [put_concat last, last, ← List.append_assoc]
    by_cases above : s.documentAt p = true
    · obtain ⟨content', here⟩ := document_at_iff.mp above
      have orphan : s.get p ≠ some .collection := by
        rw [here]
        simp
      obtain ⟨e, refused⟩ := (file_written rooted represents named target.slash keeps).1 (.inr (.inl orphan))
      rw [document above, if_pos above]
      simp only [refused]
      exact ⟨w, _, rfl, updates_refl represents, _, rfl, rfl⟩
    · rw [if_neg above]
      by_cases blocked : s.blocked p = true
      · obtain ⟨e, failed⟩ := fails (Bool.not_eq_true _ ▸ above) blocked
        rw [failed, if_pos blocked]
        exact ⟨w, _, rfl, updates_refl represents, rfl⟩
      · obtain ⟨w₁, ready, updates⟩ := makes (Bool.not_eq_true _ ▸ blocked)
        obtain ⟨stuck, written⟩ := file_written rooted updates.represents named target.slash keeps
        rw [ready, if_neg blocked]
        by_cases fits : target.slash = false ∧ (s.ensure p).get p = some .collection ∧
            (s.ensure p).get (p ++ [n]) ≠ some .collection
        · rw [dif_pos fits]
          obtain ⟨w₂, w₃, opened, put, updates₃⟩ := written fits.1 fits.2.1 fits.2.2
          simp only [opened, upload, put]
          exact ⟨w₃, _, rfl, updates_trans updates updates₃, rfl⟩
        · rw [dif_neg fits]
          have collection : (s.ensure p).get p = some .collection := if_pos List.prefix_rfl
          obtain ⟨e, refused⟩ := stuck (by
            by_contra free
            rw [not_or, not_or, not_not] at free
            exact fits ⟨Bool.not_eq_true _ ▸ free.1, free.2⟩)
          simp only [refused]
          exact ⟨w₁, _, rfl, updates, _, rfl, rfl⟩

end Uploads

section Entries
variable {aead : StreamAead} {share : KeyedShare} {d : List Name} {w : Disk} {s : Store Name Bytes}
  {target : Address Name} {out : Outside} {request : Request} {text : Bytes} {fuel : Nat}

theorem target_entry (rooted : Rooted share d) (path : List Name) :
    ∃ p n, d ++ path = p ++ [n] ∧ (path = [] ∧ p = d.dropLast ∨ ∃ front, path = front ++ [n] ∧ p = d ++ front) := by
  rcases List.eq_nil_or_concat path with bare | ⟨front, n, whole⟩
  · obtain ⟨p, n, same⟩ := (List.eq_nil_or_concat d).resolve_left rooted.inside
    rw [List.concat_eq_append] at same
    refine ⟨p, n, by rw [bare, List.append_nil, same], .inl ⟨bare, ?_⟩⟩
    rw [same, List.dropLast_concat]
  · rw [List.concat_eq_append] at whole
    exact ⟨d ++ front, n, by rw [whole, List.append_assoc], .inr ⟨front, whole, rfl⟩⟩

theorem delete_answers (rooted : Rooted share d) (represents : Represents aead share.key d w s)
    (writable : share.writable = true)
    (spelled : pathOf text = direct (d ++ target.path) target.slash) (method : request.method = .delete) :
    ∃ w' outcome, handleMethod out share fuel w request text
        (factsOf w (direct (d ++ target.path) target.slash)) = some (w', outcome) ∧
      Updates aead share.key d w w' (s.delete target).1 ∧ Answers out (s.delete target).2 outcome := by
  have clear := represents_clear represents target.path
  obtain ⟨p, n, place, _⟩ := target_entry rooted target.path
  unfold handleMethod Store.delete
  rw [writable, method]
  dsimp only
  cases seen : s.seen target with
  | none =>
    rw [facts_missing represents seen]
    exact ⟨w, _, rfl, updates_refl represents, rfl⟩
  | some item =>
    cases item with
    | collection =>
      have dir := (represents_dir represents).mpr (seen_collection.mp seen)
      rw [place] at clear dir
      obtain ⟨w', run, drops⟩ := @direct_remove_dir _ _ _ _ w p n target.slash clear dir
      rw [← place] at drops
      refine ⟨w', .ok statusNoContent, ?_, updates_drops represents rooted.inside drops, rfl⟩
      rw [facts_is_dir represents seen, spelled, place]
      simp [handleDelete, run]
    | document content =>
      obtain ⟨stored, _, file, stat⟩ := seen_file_stat represents seen
      have plain := (seen_document.mp seen).2
      have facts := facts_is_file (stat true)
      rw [place] at clear file
      obtain ⟨w', run, drops⟩ := direct_remove_file clear file
      rw [← place] at drops
      refine ⟨w', .ok statusNoContent, ?_, updates_drops represents rooted.inside drops, rfl⟩
      rw [facts, spelled, place, plain]
      simp [handleDelete, run]

theorem legal_entry (rooted : Rooted share d) (represents : Represents aead share.key d w s) {path : List Name}
    (legal : Legal path) : ∃ p n, d ++ path = p ++ [n] ∧ FileName.legal n = true ∧
      (w.tree.isDir p = true ↔ path = [] ∨ s.get path.dropLast = some .collection) := by
  obtain ⟨p, n, place, above⟩ := target_entry rooted path
  refine ⟨p, n, place, ?_, ?_⟩
  · have member : n ∈ d ++ path := by
      rw [place]
      exact List.mem_append_right _ (List.mem_singleton_self n)
    rcases List.mem_append.mp member with inside | below
    · exact rooted.legal n inside
    · exact legal n below
  · rcases above with ⟨bare, top⟩ | ⟨body, whole, inside⟩
    · rw [top]
      exact iff_of_true represents.above (.inl bare)
    · rw [inside, represents_dir represents, whole, List.dropLast_concat]
      exact ⟨.inr, fun either => either.resolve_left (by simp)⟩

theorem seen_hit (represents : Represents aead share.key d w s) {item : Item Bytes}
    (seen : s.seen target = some item) :
    (factsOf w (direct (d ++ target.path) target.slash)).isMiss = false := by
  cases item with
  | collection => rw [facts_is_dir represents seen]
  | document content =>
    obtain ⟨stored, _, _, stat⟩ := seen_file_stat represents seen
    rw [facts_is_file (stat true)]

theorem dir_made (rooted : Rooted share d) (represents : Represents aead share.key d w s) {path : List Name}
    (legal : Legal path) (slash : Bool) :
    (s.get path = none ∧ (path = [] ∨ s.get path.dropLast = some .collection) →
      ∃ w', w.createDir (direct (d ++ path) slash) = (w', .ok ()) ∧
        Updates aead share.key d w w' (s.ensure path)) ∧
    (¬ (s.get path = none ∧ (path = [] ∨ s.get path.dropLast = some .collection)) →
      ∃ e, w.createDir (direct (d ++ path) slash) = (w, .error e)) := by
  obtain ⟨p, n, place, named, parent⟩ := legal_entry rooted represents legal
  have clear := represents_clear represents path
  have shows := represents.same path
  rw [place] at clear shows ⊢
  have front := clear_front clear (List.prefix_append p [n])
  constructor
  · rintro ⟨free, room⟩
    obtain ⟨w', made, puts⟩ := @direct_make _ _ _ _ w p n slash front (parent.mpr room)
      ((shows_none shows).mpr free) named
    rw [← place] at puts
    exact ⟨w', made, updates_puts represents rooted.inside puts .dir (ensure_new room)⟩
  · intro other
    exact direct_make_refused front fun dir missing =>
      other ⟨(shows_none shows).mp missing, parent.mp dir⟩

theorem make_answers (rooted : Rooted share d) (represents : Represents aead share.key d w s)
    (writable : share.writable = true) (legal : Legal target.path)
    (spelled : pathOf text = direct (d ++ target.path) target.slash)
    (method : request.method = .mkcol) (bodiless : request.body = []) :
    ∃ w' outcome, handleMethod out share fuel w request text
        (factsOf w (direct (d ++ target.path) target.slash)) = some (w', outcome) ∧
      Updates aead share.key d w w' (s.make target).1 ∧ Answers out (s.make target).2 outcome := by
  unfold handleMethod Store.make
  rw [writable, method, bodiless]
  dsimp only
  cases seen : s.seen target with
  | some item =>
    rw [seen_hit represents seen]
    exact ⟨w, _, rfl, updates_refl represents, rfl⟩
  | none =>
    obtain ⟨makes, refuses⟩ := dir_made rooted represents legal target.slash
    rw [facts_missing represents seen, spelled]
    have refused (other : ¬ (s.get target.path = none ∧
        (target.path = [] ∨ s.get target.path.dropLast = some .collection))) :
        handleMkcol w (direct (d ++ target.path) target.slash) = (w, .ok ⟨409, [], .empty⟩) := by
      obtain ⟨e, failed⟩ := refuses other
      simp only [handleMkcol, failed]
    simp only [Option.isSome_none, Bool.false_eq_true, ↓reduceIte, Bool.not_true, ne_eq, not_true_eq_false]
    cases here : s.get target.path with
    | some item =>
      have run := refused fun both => by
        rw [both.1] at here
        cases here
      simp only [Option.isSome_some, ↓reduceIte]
      exact ⟨w, _, congrArg some run, updates_refl represents, rfl⟩
    | none =>
      by_cases parent : target.path = [] ∨ s.get target.path.dropLast = some .collection
      · obtain ⟨w', made, updates⟩ := makes ⟨here, parent⟩
        simp only [Option.isSome_none, Bool.false_eq_true, ↓reduceIte, if_pos parent]
        exact ⟨w', .ok ⟨201, [], .empty⟩, by simp only [handleMkcol, made], updates, rfl⟩
      · have run := refused fun both => parent both.2
        simp only [Option.isSome_none, Bool.false_eq_true, ↓reduceIte, if_neg parent]
        exact ⟨w, _, congrArg some run, updates_refl represents, rfl⟩

theorem locked_forbids (locked : share.writable = false) (writes : request.method.writes = true)
    {facts : Facts} :
    handleMethod out share fuel w request text facts = some (w, .ok statusForbid) := by
  unfold handleMethod
  cases arm : request.method with
  | put | delete | mkcol | copy | move => simp [locked]
  | get | head | options | propfind | proppatch | lock | unlock | other =>
    rw [arm] at writes
    cases writes

end Entries

section Moves
variable {aead : StreamAead} {share : KeyedShare} {d : List Name} {w : Disk} {s : Store Name Bytes}
  {source dest : Address Name} {out : Outside} {request : Request} {text : Bytes}

theorem shows_kind {node : Node Name UInt8} {item : Item Bytes} {key : Option Key}
    (shows : Shows aead key (some node) (some item)) : isDirNode node = !item.isDocument := by
  cases shows <;> rfl

theorem exists_seen (represents : Represents aead share.key d w s) (target : Address Name) (follow : Bool) :
    (w.stat follow (direct (d ++ target.path) target.slash)).isOk = (s.seen target).isSome := by
  cases seen : s.seen target with
  | none =>
    obtain ⟨e, failed⟩ := unseen_stat represents seen follow
    rw [failed]
    rfl
  | some item =>
    cases item with
    | collection =>
      rw [seen_dir_stat represents seen]
      rfl
    | document content =>
      obtain ⟨stored, _, _, stat⟩ := seen_file_stat represents seen
      rw [stat]
      rfl

theorem dest_file_seen (represents : Represents aead share.key d w s) :
    destIsFile w (direct (d ++ dest.path) dest.slash) = (s.seen dest).any Item.isDocument := by
  unfold destIsFile symlinkMetadata metadata
  cases seen : s.seen dest with
  | none =>
    obtain ⟨e, failed⟩ := unseen_stat represents seen false
    rw [failed]
    rfl
  | some item =>
    cases item with
    | collection =>
      rw [seen_dir_stat represents seen]
      rfl
    | document content =>
      obtain ⟨stored, _, _, stat⟩ := seen_file_stat represents seen
      rw [stat]
      rfl

theorem dir_seen (represents : Represents aead share.key d w s) (target : Address Name) :
    isDir w (direct (d ++ target.path) target.slash) = true ↔ s.seen target = some .collection := by
  rw [direct_is_dir (represents_clear represents target.path), represents_dir represents, seen_collection]

theorem parent_seen (rooted : Rooted share d) (represents : Represents aead share.key d w s)
    (target : Address Name) : ∃ above,
      VestibulePaths.parent (direct (d ++ target.path) target.slash) = some above ∧
      (pathExists w above = false ↔ target.path ≠ [] ∧ (s.get target.path.dropLast).isNone) := by
  obtain ⟨p, n, place, above⟩ := target_entry rooted target.path
  refine ⟨direct p false, by rw [place, parent_direct], ?_⟩
  have exact_at (clear : Clear w.tree p) : pathExists w (direct p false) = true ↔ w.tree.get p ≠ none := by
    rw [path_exists_iff]
    unfold metadata
    simp only [direct_stat clear, Bool.false_eq_true, false_implies, and_true]
    exact Option.ne_none_iff_exists'.symm
  rcases above with ⟨bare, top⟩ | ⟨front, whole, inside⟩
  · have dir := represents.above
    rw [← top] at dir
    have there := (exact_at (dir_clear dir)).mpr (by
      rw [is_dir_iff.mp dir]
      exact Option.some_ne_none _)
    simp [there, bare]
  · subst inside
    have shows := represents.same front
    have there := exact_at (represents_clear represents front)
    rw [ne_eq, shows_none shows] at there
    rw [whole, List.dropLast_concat, Option.isNone_iff_eq_none, ← Bool.not_eq_true, there, not_not]
    simp

theorem placeable_iff (rooted : Rooted share d) (represents : Represents aead share.key d w s)
    (legal : Legal dest.path) {p₂ : List Name} {n₂ : Name} (place : d ++ dest.path = p₂ ++ [n₂]) :
    (∃ node, Placeable w (source.slash || dest.slash) (d ++ source.path) p₂ n₂ node) ↔
      s.takesPlace source dest = true ∧ s.Movable source.path dest.path := by
  have from_source := represents.same source.path
  have at_dest := represents.same dest.path
  have nested {a b : List Name} : d ++ a <+: d ++ b ↔ a <+: b := List.prefix_append_right_inj d
  have parent (above : ¬ dest.path <+: source.path) :
      w.tree.isDir p₂ = true ↔ s.get dest.path.dropLast = some .collection := by
    obtain ⟨front, n, whole⟩ := (List.eq_nil_or_concat dest.path).resolve_left
      fun bare => above (bare ▸ List.nil_prefix)
    rw [List.concat_eq_append] at whole
    rw [whole, ← List.append_assoc] at place
    obtain ⟨same, _⟩ := List.append_singleton_inj.mp place
    rw [← same, whole, List.dropLast_concat]
    exact represents_dir represents
  have named : FileName.legal n₂ = true := by
    have member : n₂ ∈ d ++ dest.path := by
      rw [place]
      exact List.mem_append_right _ (List.mem_singleton_self n₂)
    rcases List.mem_append.mp member with inside | below
    · exact rooted.legal n₂ inside
    · exact legal n₂ below
  rw [place] at at_dest
  constructor
  · rintro ⟨node, fits⟩
    have outside := fits.outside
    have above := fits.above
    rw [← place, nested] at outside above
    refine ⟨?_, outside, above, (parent above).mp fits.parent⟩
    rw [fits.there] at from_source
    obtain ⟨item, here⟩ := Option.ne_none_iff_exists'.mp fun missing =>
      Option.some_ne_none node ((shows_none from_source).mpr missing)
    rw [here] at from_source
    have kind := shows_kind from_source
    unfold Store.takesPlace
    rw [here]
    simp only [Bool.and_eq_true, Bool.not_eq_true', Bool.and_eq_false_iff]
    constructor
    · cases slashed : source.slash || dest.slash with
      | false => exact .inr rfl
      | true =>
        left
        rw [fits.ends slashed] at kind
        simpa using kind.symm
    · rcases fits.room with missing | ⟨file, other, found, plain⟩
      · rw [(shows_none at_dest).mp missing]
        rfl
      · rw [found] at at_dest
        obtain ⟨item', there⟩ := Option.ne_none_iff_exists'.mp fun missing =>
          Option.some_ne_none other ((shows_none at_dest).mpr missing)
        rw [there] at at_dest ⊢
        have kind' := shows_kind at_dest
        rw [file] at kind
        rw [plain] at kind'
        simp only [Option.all_some, Bool.and_eq_true]
        exact ⟨by simpa using kind.symm, by simpa using kind'.symm⟩
  · rintro ⟨takes, fits⟩
    unfold Store.takesPlace at takes
    cases here : s.get source.path with
    | none =>
      rw [here] at takes
      cases takes
    | some item =>
      rw [here] at takes from_source
      simp only [Bool.and_eq_true, Bool.not_eq_true', Bool.and_eq_false_iff] at takes
      obtain ⟨ends, room⟩ := takes
      obtain ⟨node, there⟩ := Option.ne_none_iff_exists'.mp fun missing =>
        Option.some_ne_none item ((shows_none from_source).mp missing)
      rw [there] at from_source
      have kind := shows_kind from_source
      refine ⟨node, there, fun slashed => ?_, ?_, ?_, (parent fits.above).mpr fits.parent, named, ?_⟩
      · rcases ends with collection | plain
        · rw [kind, collection]
          rfl
        · rw [plain] at slashed
          cases slashed
      · rw [← place, nested]
        exact fits.outside
      · rw [← place, nested]
        exact fits.above
      · cases found : s.get dest.path with
        | none => exact .inl ((shows_none at_dest).mpr found)
        | some item' =>
          rw [found] at room at_dest
          simp only [Option.all_some, Bool.and_eq_true] at room
          obtain ⟨other, there'⟩ := Option.ne_none_iff_exists'.mp fun missing =>
            Option.some_ne_none item' ((shows_none at_dest).mp missing)
          rw [there'] at at_dest
          exact .inr ⟨by rw [kind, room.1]; rfl, other, there', by rw [shows_kind at_dest, room.2]; rfl⟩

theorem room_made (rooted : Rooted share d) (represents : Represents aead share.key d w s) {plan : Plan}
    (path : plan.path = direct (d ++ source.path) source.slash)
    (target : plan.dest = direct (d ++ dest.path) dest.slash)
    (present : plan.present = (s.seen dest).isSome) (deep : plan.depth = .infinity)
    (file : plan.destIsFile = (s.seen dest).any Item.isDocument) :
    ∃ w₁, plan.makeRoom w = (w₁, .ok ()) ∧
      Updates aead share.key d w w₁ (s.makeRoom source dest plan.overwrite) := by
  have removes : plan.removes w = true ↔
      plan.overwrite = true ∧ s.seen source = some .collection ∧ s.seen dest = some .collection := by
    have kind : (s.seen dest).isSome = true ∧ (s.seen dest).any Item.isDocument = false ↔
        s.seen dest = some .collection := by
      cases s.seen dest with
      | none => simp
      | some item => cases item <;> simp [Item.isDocument]
    unfold Plan.removes
    rw [path, present, deep, file]
    simp only [Bool.and_eq_true, Bool.not_eq_true', dir_seen represents source, ne_eq, reduceCtorEq,
      not_false_eq_true, decide_true, and_true]
    rw [and_assoc, kind]
    exact ⟨fun both => ⟨both.1.2, both.1.1, both.2⟩, fun both => ⟨⟨both.2.1, both.1⟩, both.2.2⟩⟩
  unfold Plan.makeRoom Store.makeRoom
  by_cases replaced : plan.removes w = true
  · rw [if_pos replaced, if_pos (removes.mp replaced)]
    obtain ⟨_, _, collection⟩ := removes.mp replaced
    obtain ⟨p, n, place, _⟩ := target_entry rooted dest.path
    have clear := represents_clear represents dest.path
    have dir := (represents_dir represents).mpr (seen_collection.mp collection)
    rw [place] at clear dir
    obtain ⟨w₁, run, drops⟩ := @direct_remove_dir _ _ _ _ w p n dest.slash clear dir
    rw [target, place, run]
    rw [← place] at drops
    exact ⟨w₁, rfl, updates_drops represents rooted.inside drops⟩
  · rw [if_neg replaced, if_neg (mt removes.mpr replaced)]
    exact ⟨w, rfl, updates_refl represents⟩

theorem copymove_checked (rooted : Rooted share d) (represents : Represents aead share.key d w s)
    {text' wanted : Bytes} {method : CopyMethod} {depth : Depth}
    (deep : copyDepth method request.headers = some depth)
    (destination : destinationPath out.uri request.headers = some wanted)
    (leads : Addresses share d wanted text' dest) :
    checkCopymove out.uri w (direct (d ++ source.path) source.slash) request.headers method
        share.directory =
      let overwrite := (typedGet decodeOverwrite request.headers "overwrite").getD true
      if dest.path ≠ [] ∧ (s.get dest.path.dropLast).isNone then .error (.status 409)
      else if !overwrite && (s.seen dest).isSome then .error (.status 412)
      else if source.path = dest.path then .error (.status 403)
      else .ok ⟨direct (d ++ source.path) source.slash, direct (d ++ dest.path) dest.slash, overwrite,
        depth, (s.seen dest).isSome, (s.seen dest).any Item.isDocument⟩ := by
  obtain ⟨above, up, missing⟩ := parent_seen rooted represents dest
  have asked : extractDest out.uri request.headers share.directory =
      .ok (some (direct (d ++ dest.path) dest.slash)) := by
    unfold extractDest
    rw [destination]
    dsimp only
    rw [extract_path_text, leads.extracted]
    simp [Except.map, leads.spelled]
  have same : samePath (direct (d ++ source.path) source.slash) (direct (d ++ dest.path) dest.slash) =
      true ↔ source.path = dest.path := by
    rw [direct_same, List.append_cancel_left_eq]
  have present := exists_seen represents dest false
  unfold checkCopymove
  simp only [deep, asked, up]
  change ((w.symlinkMetadata _).isOk = _) at present
  rw [present, dest_file_seen represents]
  by_cases orphan : pathExists w above = false
  · rw [if_pos (by simp [orphan]), if_pos (missing.mp orphan)]
  · rw [if_neg (by simpa using orphan), if_neg (mt missing.mpr orphan)]
    split
    · rfl
    · by_cases onto : source.path = dest.path
      · rw [if_pos (same.mpr onto), if_pos onto]
      · rw [if_neg (mt same.mp onto), if_neg onto]

theorem rename_answers (rooted : Rooted share d) (represents : Represents aead share.key d w s)
    (legal : Legal dest.path) (onto : source.path ≠ dest.path)
    (kinds : s.get source.path = some .collection → s.get dest.path ≠ some .collection) :
    ∃ w' outcome, (match w.rename (direct (d ++ source.path) source.slash)
        (direct (d ++ dest.path) dest.slash) with
      | (w, .error _) => (w, copyOutcome .failed)
      | (w, .ok _) => (w, copyOutcome (.status 201))) = (w', outcome) ∧
      Updates aead share.key d w w' (s.replace source dest).1 ∧
      Answers out (s.replace source dest).2 outcome := by
  obtain ⟨p₁, n₁, place₁, _⟩ := target_entry rooted source.path
  obtain ⟨p₂, n₂, place₂, _⟩ := target_entry rooted dest.path
  have clear₁ := represents_clear represents source.path
  have clear₂ := represents_clear represents dest.path
  have apart : d ++ source.path ≠ d ++ dest.path := fun same => onto (List.append_cancel_left same)
  have dirs : ∀ node, w.tree.get (d ++ source.path) = some node → isDirNode node = true →
      w.tree.isDir (d ++ dest.path) = false := by
    intro node found kind
    by_contra dir
    have collection := (represents_dir represents).mp (Bool.not_eq_false _ ▸ dir)
    cases node with
    | dir => exact kinds ((represents_dir represents).mp (is_dir_iff.mpr found)) collection
    | file content => cases kind
    | link target => cases kind
  have fits := @placeable_iff aead share d w s source dest rooted represents legal p₂ n₂ place₂
  rw [place₁] at clear₁ apart dirs fits
  rw [place₂] at clear₂ apart dirs
  obtain ⟨moves, stays⟩ := @direct_rename _ _ _ _ w p₁ p₂ n₁ n₂ source.slash dest.slash
    (clear_front clear₁ (List.prefix_append _ _)) (clear_front clear₂ (List.prefix_append _ _)) apart dirs
  unfold Store.replace
  rw [place₁, place₂]
  by_cases can : s.takesPlace source dest = true ∧ s.Movable source.path dest.path
  · obtain ⟨node, placeable⟩ := fits.mpr can
    obtain ⟨w₂, run, moved⟩ := moves node placeable
    rw [← place₁, ← place₂] at moved
    rw [run, dif_pos can]
    exact ⟨w₂, _, rfl, updates_moves represents rooted.inside moved can.2, rfl⟩
  · obtain ⟨e, run⟩ := stays fun node placeable => can (fits.mp ⟨node, placeable⟩)
    rw [run, dif_neg can]
    exact ⟨w, _, rfl, updates_refl represents, rfl⟩

theorem move_answers (rooted : Rooted share d) (represents : Represents aead share.key d w s)
    (writable : share.writable = true)
    (spelled : pathOf text = direct (d ++ source.path) source.slash) (method : request.method = .move)
    {text' wanted : Bytes} (deep : copyDepth .move request.headers = some .infinity)
    (destination : destinationPath out.uri request.headers = some wanted)
    (leads : Addresses share d wanted text' dest) (fuel : Nat) :
    ∃ w' outcome, handleMethod out share fuel w request text
        (factsOf w (direct (d ++ source.path) source.slash)) = some (w', outcome) ∧
      Updates aead share.key d w w' (s.moveTo source dest
        ((typedGet decodeOverwrite request.headers "overwrite").getD true)).1 ∧
      Answers out (s.moveTo source dest
        ((typedGet decodeOverwrite request.headers "overwrite").getD true)).2 outcome := by
  have checked := @copymove_checked aead share d w s source dest out request rooted represents text' wanted
    .move .infinity deep destination leads
  generalize (typedGet decodeOverwrite request.headers "overwrite").getD true = overwrite at checked ⊢
  unfold handleMethod Store.moveTo
  rw [writable, method]
  dsimp only
  cases seen : s.seen source with
  | none =>
    rw [facts_missing represents seen]
    exact ⟨w, _, rfl, updates_refl represents, rfl⟩
  | some item =>
    rw [seen_hit represents seen, spelled]
    simp only [Bool.not_true, Bool.or_self, Bool.false_eq_true, ↓reduceIte, Option.isNone_some, copymove,
      handleCopymove, checked]
    by_cases orphan : dest.path ≠ [] ∧ (s.get dest.path.dropLast).isNone = true
    · simp only [if_pos orphan]
      exact ⟨w, _, rfl, updates_refl represents, rfl⟩
    simp only [if_neg orphan]
    by_cases kept : (!overwrite && (s.seen dest).isSome) = true
    · simp only [if_pos kept]
      exact ⟨w, _, rfl, updates_refl represents, rfl⟩
    simp only [if_neg kept]
    by_cases onto : source.path = dest.path
    · simp only [if_pos onto]
      exact ⟨w, _, rfl, updates_refl represents, _, rfl, rfl⟩
    simp only [if_neg onto]
    obtain ⟨w₁, made, updates₁⟩ := @room_made aead share d w s source dest rooted represents
      ⟨direct (d ++ source.path) source.slash, direct (d ++ dest.path) dest.slash, overwrite,
        .infinity, (s.seen dest).isSome, (s.seen dest).any Item.isDocument⟩ rfl rfl rfl rfl rfl
    dsimp only at updates₁
    have kinds := room_kinds s source dest overwrite (by
      cases overwrite with
      | true => exact .inl rfl
      | false => exact .inr (by simpa using kept))
    obtain ⟨w', outcome, run, updates', answers⟩ :=
      rename_answers rooted updates₁.represents leads.legal onto kinds
    simp only [Plan.execute, made]
    refine ⟨w', outcome, ?_, updates_trans updates₁ updates', answers⟩
    generalize w₁.rename (direct (d ++ source.path) source.slash) (direct (d ++ dest.path) dest.slash) =
      renamed at run
    obtain ⟨w₂, result⟩ := renamed
    rw [← run]
    cases result <;> rfl

end Moves
end VestibuleWebdav
