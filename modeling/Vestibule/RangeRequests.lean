import Vestibule.CopyMove
import Vestibule.StreamedParts

/-!
GET and HEAD of a file: `parse_range`, `extract_cache_headers` and `handle_send_file` of
`davs/webdav_server.rs`. A range that is bounded is only checked not to run backwards, so one that
begins behind the end of the file is not refused.
-/
namespace VestibuleRanges
open VestibuleRust LexicalMotion FileTree FileCalls SealedChunks VestibulePaths VestibuleCopyMove
  VestibuleStreamer VestibuleStorage VestibuleParts

/-- `RangeValue`; `stop` is its `end`. -/
structure RangeValue where
  start : Nat
  stop : Option Nat
  deriving DecidableEq, Repr

/-- `splitn(2, mark)`. -/
def splitFirst (mark : UInt8) : Bytes → Bytes × Option Bytes
  | [] => ([], none)
  | b :: rest =>
    if b = mark then ([], some rest)
    else (b :: (splitFirst mark rest).1, (splitFirst mark rest).2)

def digitValue (b : UInt8) : Option Nat := if 48 ≤ b ∧ b ≤ 57 then some (b.toNat - 48) else none

/-- `str::parse` for an unsigned type with `limit` values. A plus sign may come first. -/
def parseUnsigned (limit : Nat) (text : Bytes) : Option Nat :=
  let digits :=
    match text with
    | 43 :: rest => rest
    | _ => text
  if digits = [] then none
  else
    match digits.mapM digitValue with
    | none => none
    | some values =>
      let number := values.foldl (fun n d => 10 * n + d) 0
      if number < limit then some number else none

def parseRange (headers : Headers) : Option RangeValue := do
  let rangeHdr ← headers.get "range"
  let hdr ← toStr rangeHdr
  let (units, range) := splitFirst 61 hdr
  if units = utf8 "bytes" then
    let range ← range
    let (first, second) := splitFirst 45 range
    let start ← parseUnsigned u64Limit first
    match second with
    | none => some ⟨start, none⟩
    | some stop =>
      if stop = [] then some ⟨start, none⟩
      else do
        let stop ← parseUnsigned u64Limit stop
        some ⟨start, some stop⟩
  else none

/-- How a request to a file fails: with an error that `call` answers with 500, or in a panic. -/
inductive Fault where
  | failed
  | panicked (p : Panic)
  | unwrapped
  deriving DecidableEq, Repr

def liftPanic {α : Type} : Except Panic α → Except Fault α
  | .error p => .error (.panicked p)
  | .ok a => .ok a

/-- What comes from outside: the machine, the AEAD, what the reads deliver, the times of files in
    milliseconds, the crate `mime_guess`, and the crate `headers` on conditional headers and on the
    times that it can write. -/
structure Surroundings where
  target : Target
  aead : StreamAead
  granted : Nat → Nat
  modified : List Name → Option Int
  mimeGuess : DiskPath → Option String
  httpDate : Int → Bool
  noneMatchPasses : Headers → String → Option Bool
  modifiedSince : Headers → Int → Option Bool
  hasRange : Headers → Bool
  ifRangeModified : Headers → String → Int → Option Bool

structure SentFile where
  status : Nat
  lastModified : Option Int
  etag : Option String
  contentType : Option String
  contentDisposition : Option Bytes
  acceptRanges : Option String
  contentRange : Option String
  contentLength : Option String
  body : Yielded
  deriving DecidableEq, Repr

def SentFile.default : SentFile := ⟨200, none, none, none, none, none, none, none, ⟨[], some .done⟩⟩

/-- A time before 1970 has no duration since then. -/
def toTimestamp (time : Int) : Except Fault Nat :=
  if 0 ≤ time then .ok (time.toNat % u64Limit) else .error .unwrapped

def hexDigit (n : UInt8) : UInt8 := if n < 10 then 48 + n else 55 + n

/-- `urlencoding::encode` on one byte. -/
def encodeByte (b : UInt8) : Bytes :=
  if (48 ≤ b ∧ b ≤ 57) ∨ (65 ≤ b ∧ b ≤ 90) ∨ (97 ≤ b ∧ b ≤ 122) ∨ b = 45 ∨ b = 46 ∨ b = 95 ∨ b = 126 then
    [b]
  else [37, hexDigit (b / 16), hexDigit (b % 16)]

/-- `encode_uri`: the separators stay. -/
def encodeUri (v : Bytes) : Bytes := v.flatMap fun b => if b = slashByte then [b] else encodeByte b

def getFileName (path : DiskPath) : Option Bytes := (fileName path).filter validUtf8

def announcedSize (target : Target) (key : Option Key) (encryptedSize : Nat) : Except Fault Nat :=
  match key with
  | some _ => liftPanic (decryptedSize target encryptedSize)
  | none => .ok encryptedSize

section Sending
variable (env : Surroundings)

def extractCacheHeaders (loc : List Name) (size : Nat) : Except Fault (Option (String × Int)) :=
  match env.modified loc with
  | none => .ok none
  | some mtime => do
    let timestamp ← toTimestamp mtime
    -- `LastModified::from` panics on a time that has no HTTP date
    if env.httpDate mtime then
      return some ("\"" ++ toString timestamp ++ "-" ++ toString size ++ "\"", mtime)
    else .error .unwrapped

/-- `cached` and `use_range`: the file is not sent again, or its range is used or not. -/
def useRange (headers : Headers) : Option (String × Int) → Option Bool
  | none => some true
  | some (etag, lastModified) =>
    let cached :=
      match env.noneMatchPasses headers etag with
      | some passes => !passes
      | none =>
        match env.modifiedSince headers lastModified with
        | some modified => !modified
        | none => false
    if cached then none
    else if env.hasRange headers then
      some ((env.ifRangeModified headers etag lastModified).map (!·) |>.getD true)
    else some false

def RangeValue.accepted (range : RangeValue) (size : Nat) : Bool :=
  match range.stop with
  | none => range.start < size
  | some v => range.start ≤ v

/-- The last byte and the size of the part. The last byte of the file is computed twice, also when
    the range has an end. -/
def RangeValue.part (target : Target) (range : RangeValue) (size : Nat) : Except Panic (Nat × Nat) := do
  let openEnd ← target.sub64 size 1
  let last ← target.sub64 size 1
  let stop := min (range.stop.getD openEnd) last
  let width ← target.sub64 stop range.start
  let partSize ← target.add64 width 1
  return (stop, partSize)

def sendRange (headOnly : Bool) (key : Option Key) (stored : Bytes) (size : Nat) (res : SentFile)
    (range : RangeValue) : Except Fault SentFile :=
  if range.accepted size then
    match range.part env.target size with
    | .error p => .error (.panicked p)
    | .ok (stop, partSize) =>
      let res := { res with
        status := 206
        contentRange :=
          some ("bytes " ++ toString range.start ++ "-" ++ toString stop ++ "/" ++ toString size)
        contentLength := some (toString partSize) }
      if headOnly then .ok res
      else
        match key with
        | some key =>
          .ok { res with body := intoStreamSized env.target env.aead key range.start partSize stored }
        | none =>
          -- the offset of a seek is a signed 64-bit number for the system
          if range.start < 2 ^ 63 then
            .ok { res with body := streamSized env.target env.granted partSize (stored.drop range.start) }
          else .error .failed
  else .ok { res with status := 416, contentRange := some ("bytes */" ++ toString size) }

def sendWhole (headOnly : Bool) (key : Option Key) (stored : Bytes) (size : Nat) (res : SentFile) :
    SentFile :=
  let res := { res with contentLength := some (toString size) }
  if headOnly then res
  else
    match key with
    | some key => { res with body := intoStream env.aead key stored }
    | none => { res with body := streamWhole env.granted stored }

/-- `handle_send_file` on an open file with these contents. -/
def sendStored (path : DiskPath) (headers : Headers) (headOnly : Bool) (key : Option Key)
    (loc : List Name) (stored : Bytes) : Except Fault SentFile := do
  let validators ← extractCacheHeaders env loc stored.length
  match useRange env headers validators with
  | none => return { SentFile.default with status := 304 }
  | some used =>
    let range := if used then parseRange headers else none
    match getFileName path with
    | none => .error .failed
    | some filename =>
      let res := { SentFile.default with
        lastModified := validators.map Prod.snd
        etag := validators.map Prod.fst
        contentType := some ((env.mimeGuess path).getD "application/octet-stream")
        contentDisposition :=
          some (utf8 "inline; filename=\"" ++ encodeUri filename ++ utf8 "\"")
        acceptRanges := some "bytes" }
      let size ← announcedSize env.target key stored.length
      match range with
      | some range => sendRange env headOnly key stored size res range
      | none => return sendWhole env headOnly key stored size res

def handleSendFile (w : Disk) (path : DiskPath) (headers : Headers) (headOnly : Bool)
    (key : Option Key) : Except Fault SentFile :=
  match w.lookup true path with
  | .error _ => .error .failed
  | .ok loc =>
    match w.tree.get loc with
    -- `handle` comes here only with a file
    | some (.file stored) => sendStored env path headers headOnly key loc stored
    | _ => .error .failed

end Sending

def RangeValue.lastByte (range : RangeValue) (size : Nat) : Nat :=
  min (range.stop.getD (size - 1)) (size - 1)

def RangeValue.Forward (range : RangeValue) : Prop :=
  ∀ stop, range.stop = some stop → range.start ≤ stop

/-- What is stored for a plaintext: the plaintext itself, or what an upload under the key left. The
    size of a file is a signed 64-bit number for the system. -/
structure Holds (aead : StreamAead) (key : Option Key) (stored p : Bytes) : Prop where
  small : stored.length < 2 ^ 63
  content :
    match key with
    | none => stored = p
    | some key => ∃ nonce body, body.bytes = some p ∧
        copyFrom aead key nonce body = ⟨stored, some (.ok p.length)⟩

section Negotiation
variable (env : Surroundings) (w : Disk) (path : DiskPath) (headers : Headers) (headOnly : Bool)
  (key : Option Key)

/-- The path is that of a file, and the conditional headers let its range be used. -/
def RangeUsed (stored : Bytes) : Prop :=
  getFileName path ≠ none ∧ ∃ loc validators, w.lookup true path = .ok loc ∧
    w.tree.get loc = some (.file stored) ∧
    extractCacheHeaders env loc stored.length = .ok validators ∧
    useRange env headers validators = some true

/-- No subtraction underflows, whether or not the build checks them; a part is sent only of a range
    that begins inside and runs forward, with its first and last byte and its size; and a range
    that begins behind the end is answered with 416. -/
def Negotiated (range : RangeValue) (size : Nat) : Prop :=
  (∀ p, handleSendFile { env with target := { env.target with overflowChecks := true } } w path
    headers headOnly key ≠ .error (.panicked p)) ∧
  ∃ sent, handleSendFile env w path headers headOnly key = .ok sent ∧
    (sent.status = 206 → range.start < size ∧ range.Forward ∧
      sent.contentRange = some ("bytes " ++ toString range.start ++ "-" ++
        toString (range.lastByte size) ++ "/" ++ toString size) ∧
      sent.contentLength = some (toString (range.lastByte size - range.start + 1)) ∧
      (headOnly = false → sent.body.bytes.length = range.lastByte size - range.start + 1)) ∧
    (size ≤ range.start → sent.status = 416 ∧ sent.contentRange = some ("bytes */" ++ toString size))

/-- A range with an end that does not run backwards begins inside; and a part that is decrypted fits
    the `usize` of the machine. -/
def Answerable (range : RangeValue) (size : Nat) : Prop :=
  (range.stop ≠ none → range.Forward → range.start < size) ∧
    (key ≠ none → headOnly = false → range.Forward → range.start < size →
      range.lastByte size - range.start + 1 < 2 ^ env.target.usizeBits)

end Negotiation

theorem accepted_iff {range : RangeValue} {size : Nat} :
    range.accepted size = true ↔ range.Forward ∧ (range.stop = none → range.start < size) := by
  unfold RangeValue.accepted RangeValue.Forward
  cases range.stop with
  | none => simp
  | some v => simp

theorem last_byte_bounds {range : RangeValue} {size : Nat} (inside : range.start < size)
    (forward : range.Forward) : range.start ≤ range.lastByte size ∧ range.lastByte size < size := by
  unfold RangeValue.lastByte
  cases given : range.stop with
  | none =>
    simp only [Option.getD_none, Nat.min_self]
    omega
  | some stop =>
    have order := forward stop given
    simp only [Option.getD_some]
    omega

theorem part_exact (target : Target) {range : RangeValue} {size : Nat} (inside : range.start < size)
    (forward : range.Forward) (fits : size < u64Limit) :
    range.part target size = .ok (range.lastByte size, range.lastByte size - range.start + 1) := by
  obtain ⟨order, below⟩ := last_byte_bounds inside forward
  have last : target.sub64 size 1 = .ok (size - 1) := sub64_exact target (by omega)
  have width : target.sub64 (min (range.stop.getD (size - 1)) (size - 1)) range.start =
      .ok (range.lastByte size - range.start) := sub64_exact target order
  have total : target.add64 (range.lastByte size - range.start) 1 =
      .ok (range.lastByte size - range.start + 1) := add64_exact target (by omega)
  simp only [RangeValue.part, last, ok_bind, width, total]
  rfl

theorem part_underflows {wide : Bool} {range : RangeValue} {size : Nat} (behind : size ≤ range.start) :
    range.part ⟨wide, true⟩ size = .error .arithmetic := by
  by_cases empty : size = 0
  · subst empty
    rfl
  · have last : (⟨wide, true⟩ : Target).sub64 size 1 = .ok (size - 1) := sub64_exact _ (by omega)
    have least : min (range.stop.getD (size - 1)) (size - 1) < range.start := by omega
    have width : (⟨wide, true⟩ : Target).sub64 (min (range.stop.getD (size - 1)) (size - 1))
        range.start = .error .arithmetic := by
      unfold Target.sub64
      rw [if_neg (Nat.not_le_of_lt least), if_pos rfl]
    simp only [RangeValue.part, last, ok_bind, width]
    rfl

theorem holds_written {aead : StreamAead} {key : Key} {stored p : Bytes}
    (holds : Holds aead (some key) stored p) :
    p.length / plainChunkSize ≤ counterMax ∧ ∃ nonce : Nonce, stored =
      nonce.1 ++ sealedFrom (encodeAt aead key nonce) plainChunkSize p (p.length / plainChunkSize) 0 := by
  obtain ⟨_, nonce, body, whole, run⟩ := holds
  have counters : p.length / plainChunkSize ≤ counterMax :=
    copy_from_counters whole (congrArg Written.result run)
  rw [copy_from_spec whole counters] at run
  exact ⟨counters, nonce, (congrArg Written.bytes run).symm⟩

theorem holds_size {aead : StreamAead} {key : Option Key} {stored p : Bytes}
    (holds : Holds aead key stored p) : p.length ≤ stored.length := by
  cases key with
  | none => exact Nat.le_of_eq (congrArg List.length holds.content).symm
  | some key =>
    obtain ⟨_, nonce, same⟩ := holds_written holds
    have covers := sealed_covers (@encode_grows aead key nonce) plain_positive (p := p)
      (k := p.length / plainChunkSize) (i := 0) (Nat.zero_add _)
    rw [same, List.length_append]
    simp only [Nat.mul_zero, List.drop_zero] at covers
    omega

theorem announced_size {aead : StreamAead} (undoes : Undoes aead) (target : Target)
    {key : Option Key} {stored p : Bytes} (holds : Holds aead key stored p) :
    announcedSize target key stored.length = .ok p.length := by
  cases key with
  | none =>
    have same : stored = p := holds.content
    rw [same]
    rfl
  | some key =>
    obtain ⟨counters, nonce, same⟩ := holds_written holds
    obtain ⟨bytes, ending, _⟩ := @written_read_back _ key nonce undoes _ counters
    rw [← same] at bytes ending
    have fits : stored.length < u64Limit := Nat.lt_trans holds.small (by decide)
    have size := decrypted_size_delivered target fits ending
    rw [bytes] at size
    simp only [announcedSize, size, liftPanic]

section Requests
variable {env : Surroundings} {w : Disk} {path : DiskPath} {headers : Headers} {headOnly : Bool}
  {key : Option Key} {stored p : Bytes} {range : RangeValue}

theorem handle_send_file_range (undoes : Undoes env.aead) (holds : Holds env.aead key stored p)
    (accepted : parseRange headers = some range)
    (used : RangeUsed env w path headers stored) :
    ∃ res, ∀ target, handleSendFile { env with target := target } w path headers headOnly key =
      sendRange { env with target := target } headOnly key stored p.length res range := by
  obtain ⟨named, loc, validators, found, file, dated, fresh⟩ := used
  obtain ⟨name, hasName⟩ := Option.ne_none_iff_exists'.mp named
  refine ⟨{ SentFile.default with
    lastModified := validators.map Prod.snd
    etag := validators.map Prod.fst
    contentType := some ((env.mimeGuess path).getD "application/octet-stream")
    contentDisposition := some (utf8 "inline; filename=\"" ++ encodeUri name ++ utf8 "\"")
    acceptRanges := some "bytes" }, fun target => ?_⟩
  have size := announced_size undoes target holds
  have dated' : extractCacheHeaders { env with target := target } loc stored.length =
      .ok validators := dated
  have fresh' : useRange { env with target := target } headers validators = some true := fresh
  simp only [handleSendFile, found, file, sendStored, dated', fresh', accepted, hasName, ↓reduceIte,
    bind, Except.bind, size]

theorem send_refused {res : SentFile} {size : Nat} (refused : range.accepted size = false) :
    sendRange env headOnly key stored size res range =
      .ok { res with status := 416, contentRange := some ("bytes */" ++ toString size) } := by
  simp [sendRange, refused]

theorem part_delivered (undoes : Undoes env.aead) (holds : Holds env.aead key stored p)
    (inside : range.start < p.length) (forward : range.Forward)
    {body : Yielded}
    (sent : body = match key with
      | some key => intoStreamSized env.target env.aead key range.start
          (range.lastByte p.length - range.start + 1) stored
      | none => streamSized env.target env.granted (range.lastByte p.length - range.start + 1)
          (stored.drop range.start)) :
    body.bytes.length = range.lastByte p.length - range.start + 1 ↔
      (key ≠ none → range.lastByte p.length - range.start + 1 < 2 ^ env.target.usizeBits) := by
  obtain ⟨order, below⟩ := last_byte_bounds inside forward
  have whole : ((p.drop range.start).take (range.lastByte p.length - range.start + 1)).length =
      range.lastByte p.length - range.start + 1 := by
    rw [List.length_take, List.length_drop]
    omega
  cases key with
  | none =>
    have same : stored = p := holds.content
    subst same
    rw [sent, (stream_sized_delivers _ _).1]
    simp [whole]
  | some key =>
    obtain ⟨counters, nonce, written⟩ := holds_written holds
    subst written
    rw [sent, (sized_stream_delivers undoes counters (Nat.le_of_lt inside)).1, List.length_take,
      List.length_drop]
    simp only [ne_eq, reduceCtorEq, not_false_eq_true, forall_const, ← usize_same_iff]
    have cast := usize_le env.target (range.lastByte p.length - range.start + 1)
    omega

/-- What is sent of a range that begins inside and runs forward. -/
theorem send_part (undoes : Undoes env.aead) (holds : Holds env.aead key stored p)
    {res : SentFile} (inside : range.start < p.length)
    (forward : range.Forward) :
    ∃ sent, sendRange env headOnly key stored p.length res range = .ok sent ∧ sent.status = 206 ∧
      sent.contentRange = some ("bytes " ++ toString range.start ++ "-" ++
        toString (range.lastByte p.length) ++ "/" ++ toString p.length) ∧
      sent.contentLength = some (toString (range.lastByte p.length - range.start + 1)) ∧
      (headOnly = false → (sent.body.bytes.length = range.lastByte p.length - range.start + 1 ↔
        (key ≠ none → range.lastByte p.length - range.start + 1 < 2 ^ env.target.usizeBits))) := by
  have length := holds_size holds
  have small := holds.small
  have limit : u64Limit = 2 * 2 ^ 63 := rfl
  have accepted : range.accepted p.length = true := accepted_iff.mpr ⟨forward, fun _ => inside⟩
  have computed := part_exact env.target inside forward (show p.length < u64Limit by omega)
  have delivered := part_delivered undoes holds inside forward rfl
  have seekable : range.start < 2 ^ 63 := by omega
  cases headOnly with
  | true =>
    simp only [sendRange, accepted, computed, ↓reduceIte]
    exact ⟨_, rfl, rfl, rfl, rfl, fun body => by cases body⟩
  | false =>
    cases key with
    | none =>
      simp only [sendRange, accepted, computed, ↓reduceIte, Bool.false_eq_true, seekable]
      exact ⟨_, rfl, rfl, rfl, rfl, fun _ => delivered⟩
    | some key =>
      simp only [sendRange, accepted, computed, ↓reduceIte, Bool.false_eq_true]
      exact ⟨_, rfl, rfl, rfl, rfl, fun _ => delivered⟩

/-- A range that is parsed and used is negotiated as it should be exactly when it is answerable. -/
theorem range_negotiated_iff (undoes : Undoes env.aead) (holds : Holds env.aead key stored p)
    (accepted : parseRange headers = some range)
    (used : RangeUsed env w path headers stored) :
    Negotiated env w path headers headOnly key range p.length ↔
      Answerable env headOnly key range p.length := by
  obtain ⟨res, runs⟩ := @handle_send_file_range env w path headers headOnly key stored p range
    undoes holds accepted used
  have here : handleSendFile env w path headers headOnly key =
      sendRange env headOnly key stored p.length res range := runs env.target
  unfold Negotiated Answerable
  rw [here, runs]
  constructor
  · intro negotiated
    obtain ⟨safe, sent, answer, whole_part, _⟩ := negotiated
    constructor
    · intro bounded forward
      by_contra behind
      have taken : range.accepted p.length = true :=
        accepted_iff.mpr ⟨forward, fun unbounded => absurd unbounded bounded⟩
      apply safe .arithmetic
      simp only [sendRange, taken, ↓reduceIte, part_underflows (Nat.le_of_not_lt behind)]
    · intro keyed whole forward inside
      obtain ⟨sent', answer', status, _, _, body⟩ := @send_part env headOnly key stored p range undoes
        holds res inside forward
      rw [answer] at answer'
      cases answer'
      exact (body whole).mp ((whole_part status).2.2.2.2 whole) keyed
  · intro answerable
    obtain ⟨bounded, small⟩ := answerable
    by_cases taken : range.accepted p.length = true
    · obtain ⟨forward, unbounded⟩ := accepted_iff.mp taken
      have inside : range.start < p.length := by
        by_cases open_range : range.stop = none
        · exact unbounded open_range
        · exact bounded open_range forward
      obtain ⟨sent, answer, status, content, length, body⟩ := @send_part env headOnly key stored p
        range undoes holds res inside forward
      obtain ⟨checked, answer', _⟩ := @send_part
        { env with target := { env.target with overflowChecks := true } } headOnly key stored p
        range undoes holds res inside forward
      constructor
      · intro panic underflow
        rw [answer'] at underflow
        cases underflow
      · refine ⟨sent, answer, fun _ => ⟨inside, forward, content, length, fun whole => ?_⟩,
          fun behind => by omega⟩
        exact (body whole).mpr fun keyed => small keyed whole forward inside
    · have refused : range.accepted p.length = false := Bool.eq_false_iff.mpr taken
      constructor
      · intro panic underflow
        rw [send_refused refused] at underflow
        cases underflow
      · refine ⟨_, send_refused refused, ?_, fun _ => ⟨rfl, rfl⟩⟩
        intro status
        cases status

end Requests

section Samples

def sampleSurroundings : Surroundings where
  target := ⟨true, false⟩
  aead := sampleAead
  granted _ := bufSize
  modified _ := some 0
  mimeGuess _ := none
  httpDate time := time < 253402300800000
  noneMatchPasses _ _ := none
  modifiedSince _ _ := none
  hasRange _ := true
  ifRangeModified _ _ _ := none

theorem directory_fits : (Tree.bare : DiskTree).Writable [] [100] := by decide

def threeBytesDisk : Disk where
  tree := (Tree.bare.put [] [100] .dir directory_fits).put [[100]] [102] (.file [1, 2, 3]) (by decide)
  cwd := []
  touched := []

theorem sample_used (text : Bytes) :
    RangeUsed sampleSurroundings threeBytesDisk (pathOf (utf8 "/d/f")) [("range", text)] [1, 2, 3] :=
  ⟨by decide, [[100], [102]], some ("\"0-3\"", 0), by decide, by decide, by decide, rfl⟩

end Samples

theorem last_bytes_negotiated :
    Negotiated sampleSurroundings threeBytesDisk (pathOf (utf8 "/d/f")) [("range", utf8 "bytes=1-")]
        false none ⟨1, none⟩ [1, 2, 3].length ↔
      Answerable sampleSurroundings false none ⟨1, none⟩ [1, 2, 3].length := by
  have holds : Holds sampleSurroundings.aead none [1, 2, 3] [1, 2, 3] := ⟨by decide, rfl⟩
  have accepted : parseRange [("range", utf8 "bytes=1-")] = some ⟨1, none⟩ := by decide
  exact range_negotiated_iff sample_undoes holds accepted (sample_used _)

/-- The range 3-4 of three bytes is not refused, and its size underflows. -/
theorem range_behind_end_underflows :
    parseRange [("range", utf8 "bytes=3-4")] = some ⟨3, some 4⟩ ∧
      ¬ Negotiated sampleSurroundings threeBytesDisk (pathOf (utf8 "/d/f"))
        [("range", utf8 "bytes=3-4")] false none ⟨3, some 4⟩ 3 := by
  constructor
  · decide
  · intro negotiated
    exact negotiated.1 .arithmetic (by decide)

end VestibuleRanges
