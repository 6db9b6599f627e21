import Vestibule.EncryptedStreamer

/-!
What is stored and what is read back. The three loops are first brought to the chunk-by-chunk
description of `SealedChunks`; the results about whole files follow from it.
-/
namespace VestibuleStorage
open VestibuleRust SealedChunks VestibuleStreamer

theorem plain_positive : 0 < plainChunkSize := by decide

theorem overhead_positive : 0 < encryptionOverhead := by decide

theorem chunk_positive : 0 < encryptedChunkSize := by decide

theorem body_size {body : Body} {p : Bytes} (whole : body.bytes = some p) :
    body.size = p.length := by
  induction body generalizing p with
  | nil =>
    simp only [Body.bytes, Option.some.injEq] at whole
    subst whole
    rfl
  | cons item rest ih =>
    cases item with
    | error e => simp [Body.bytes] at whole
    | ok b =>
      simp only [Body.bytes, Option.map_eq_some_iff] at whole
      obtain ⟨q, tail, same⟩ := whole
      simp [Body.size, ih tail, ← same]

/-- However the body is cut, a bounded read to the end takes its first bytes. -/
theorem read_to_end_spec {body : Body} {p : Bytes} (whole : body.bytes = some p) (limit : Nat) :
    ∃ rest, readToEnd limit body = .ok (p.take limit, rest) ∧
      Body.bytes rest = some (p.drop limit) := by
  induction body generalizing p limit with
  | nil =>
    simp only [Body.bytes, Option.some.injEq] at whole
    subst whole
    exact ⟨[], by simp [readToEnd], by simp [Body.bytes]⟩
  | cons item rest ih =>
    cases item with
    | error e => simp [Body.bytes] at whole
    | ok b =>
      simp only [Body.bytes, Option.map_eq_some_iff] at whole
      obtain ⟨q, tail, same⟩ := whole
      subst same
      by_cases short : b.length < limit
      · obtain ⟨left, read, kept⟩ := ih tail (limit - b.length)
        refine ⟨left, ?_, ?_⟩
        · simp [readToEnd, short, read, List.take_append, List.take_of_length_le (Nat.le_of_lt short)]
        · rw [kept, List.drop_append, List.drop_of_length_le (Nat.le_of_lt short), List.nil_append]
      · refine ⟨.ok (b.drop limit) :: rest, ?_, ?_⟩
        · simp only [readToEnd, short, ↓reduceIte]
          rw [List.take_append_of_le_length (by omega)]
        · rw [List.drop_append_of_le_length (by omega)]
          simp [Body.bytes, tail]

/-- The two halves of STREAM as one function of the last flag. -/
def encodeAt (aead : StreamAead) (key : Key) (nonce : Nonce) : Nat → Bool → Bytes → Bytes :=
  aead.encrypt key nonce

def decodeAt (aead : StreamAead) (key : Key) (nonce : Nonce) (i : Nat) (last : Bool)
    (ciphertext : Bytes) : Option Bytes :=
  if last then decryptLast aead key nonce i ciphertext else decryptNext aead key nonce i ciphertext

section Loops
variable {aead : StreamAead} {key : Key} {nonce : Nonce}

theorem encode_grows (i : Nat) (last : Bool) (x : Bytes) :
    (encodeAt aead key nonce i last x).length = x.length + encryptionOverhead :=
  aead.encrypt_length key nonce i last x

theorem decode_decrypts {i : Nat} {last : Bool} {x q : Bytes}
    (opened : decodeAt aead key nonce i last x = some q) :
    aead.decrypt key nonce i last x = some q := by
  cases last with
  | true => simpa [decodeAt, decryptLast] using opened
  | false =>
    simp only [decodeAt, Bool.false_eq_true, ↓reduceIte, decryptNext] at opened
    split at opened
    · cases opened
    · exact opened

theorem decode_shrinks (i : Nat) (last : Bool) (x q : Bytes)
    (opened : decodeAt aead key nonce i last x = some q) :
    x.length = q.length + encryptionOverhead :=
  aead.decrypt_length key nonce i last x q (decode_decrypts opened)

variable (aead key nonce) in
theorem copy_from_loop {p : Bytes} {fuel k i : Nat} {body : Body}
    (count : i + k = p.length / plainChunkSize) (counters : p.length / plainChunkSize ≤ counterMax)
    (whole : body.bytes = some (p.drop (plainChunkSize * i))) (enough : body.size < fuel) :
    copyFromLoop aead key nonce fuel i body =
      ⟨sealedFrom (encodeAt aead key nonce) plainChunkSize p k i,
        some (.ok (p.drop (plainChunkSize * i)).length)⟩ := by
  induction fuel generalizing k i body with
  | zero => omega
  | succ fuel ih =>
    obtain ⟨rest, read, kept⟩ := read_to_end_spec whole plainChunkSize
    have shape : (p.drop (plainChunkSize * i)).take plainChunkSize = piece plainChunkSize p i := rfl
    rw [shape] at read
    simp only [copyFromLoop, read]
    cases k with
    | zero =>
      have here : i = p.length / plainChunkSize := by omega
      have width := piece_length_last (p := p) plain_positive
      have small := Nat.mod_lt p.length plain_positive
      have last := last_piece (p := p) plain_positive
      rw [← here] at width last
      have short : (piece plainChunkSize p i).length ≠ plainChunkSize := by omega
      simp only [short, ↓reduceIte, sealedFrom, encodeAt, encryptLast, ← last]
    | succ k =>
      have width := piece_length_full (p := p) (show i < p.length / plainChunkSize by omega)
      have allowed : i ≠ counterMax := by omega
      rw [List.drop_drop, ← Nat.mul_succ] at kept
      have shorter : Body.size rest < fuel := by
        have before := body_size whole
        have after := body_size kept
        have total := congrArg List.length (piece_cons plainChunkSize p i)
        have positive := plain_positive
        simp only [List.length_append, width, Nat.succ_eq_add_one] at total after
        omega
      have later := ih (k := k) (i := i + 1) (by omega) kept shorter
      have total := congrArg List.length (piece_cons plainChunkSize p i)
      rw [List.length_append, width] at total
      simp only [width, ↓reduceIte, encryptNext, allowed, later, Written.after, sealedFrom,
        Option.map_some, Except.map, total, encodeAt]

theorem copy_from_spec {p : Bytes} {body : Body} (whole : body.bytes = some p)
    (counters : p.length / plainChunkSize ≤ counterMax) :
    copyFrom aead key nonce body =
      ⟨nonce.1 ++ sealedFrom (encodeAt aead key nonce) plainChunkSize p
        (p.length / plainChunkSize) 0, some (.ok p.length)⟩ := by
  have enough : body.size < body.size + 1 := Nat.lt_succ_self _
  have run := copy_from_loop aead key nonce (p := p) (k := p.length / plainChunkSize) (i := 0)
    (by omega) counters (by simpa using whole) enough
  simp [copyFrom, run]

def readerEnd : Ending → StreamEnd
  | .finished => .done
  | .failed => .error (.aead "error decrypting plaintext")

variable (aead key nonce) in
theorem into_stream_loop {fuel i : Nat} {stored : Bytes} (enough : stored.length < fuel) :
    ∃ ending, Opens (decodeAt aead key nonce) encryptedChunkSize i stored
        (intoStreamLoop aead key nonce fuel i stored).chunks ending ∧
      (intoStreamLoop aead key nonce fuel i stored).ending = some (readerEnd ending) := by
  induction fuel generalizing i stored with
  | zero => omega
  | succ fuel ih =>
    have positive := chunk_positive
    simp only [intoStreamLoop, List.length_take]
    split
    · rename_i width
      have long : encryptedChunkSize ≤ stored.length := by omega
      split
      · rename_i refused
        exact ⟨.failed, .fullRefused long (by simpa [decodeAt] using refused), rfl⟩
      · rename_i plaintext opened
        have shorter : (stored.drop encryptedChunkSize).length < fuel := by
          rw [List.length_drop]; omega
        obtain ⟨ending, tail, same⟩ := ih (i := i + 1) shorter
        exact ⟨ending, .full long (by simpa [decodeAt] using opened) tail, same⟩
    · rename_i width
      have below : stored.length < encryptedChunkSize := by omega
      rw [List.take_of_length_le (Nat.le_of_lt below), Nat.min_eq_right (Nat.le_of_lt below)]
      split
      · rename_i none_left
        have empty := List.length_eq_zero_iff.mp none_left
        subst empty
        exact ⟨.finished, .stop i, rfl⟩
      · rename_i left
        have some_left : stored ≠ [] := fun empty => left (by simp [empty])
        split
        · rename_i refused
          exact ⟨.failed, .shortRefused some_left below (by simpa [decodeAt] using refused), rfl⟩
        · rename_i plaintext opened
          exact ⟨.finished, .short some_left below (by simpa [decodeAt] using opened), rfl⟩

def writerEnd (size : Nat) : Ending → Except IoError Nat
  | .finished => .ok size
  | .failed => .error (.aead "error decrypting ciphertext")

variable (aead key nonce) in
theorem copy_to_loop {fuel i : Nat} {stored : Bytes} (enough : stored.length < fuel) :
    ∃ plains ending, Opens (decodeAt aead key nonce) encryptedChunkSize i stored plains ending ∧
      copyToLoop aead key nonce fuel i stored =
        ⟨plains.flatten, some (writerEnd stored.length ending)⟩ := by
  induction fuel generalizing i stored with
  | zero => omega
  | succ fuel ih =>
    have positive := chunk_positive
    simp only [copyToLoop, List.length_take]
    split
    · rename_i width
      have long : encryptedChunkSize ≤ stored.length := by omega
      split
      · rename_i refused
        exact ⟨[], .failed, .fullRefused long (by simpa [decodeAt] using refused), rfl⟩
      · rename_i plaintext opened
        have shorter : (stored.drop encryptedChunkSize).length < fuel := by
          rw [List.length_drop]; omega
        obtain ⟨plains, ending, tail, same⟩ := ih (i := i + 1) shorter
        refine ⟨plaintext :: plains, ending, .full long (by simpa [decodeAt] using opened) tail, ?_⟩
        rw [same]
        cases ending with
        | finished =>
          simp only [Written.after, writerEnd, Option.map_some, Except.map, List.length_drop,
            List.flatten_cons, width, Nat.add_sub_cancel' long]
        | failed => rfl
    · rename_i width
      have below : stored.length < encryptedChunkSize := by omega
      rw [List.take_of_length_le (Nat.le_of_lt below), Nat.min_eq_right (Nat.le_of_lt below)]
      split
      · rename_i none_left
        have empty := List.length_eq_zero_iff.mp none_left
        subst empty
        exact ⟨[], .finished, .stop i, rfl⟩
      · rename_i left
        have some_left : stored ≠ [] := fun empty => left (by simp [empty])
        split
        · rename_i refused
          exact ⟨[], .failed, .shortRefused some_left below (by simpa [decodeAt] using refused), rfl⟩
        · rename_i plaintext opened
          exact ⟨[plaintext], .finished, .short some_left below (by simpa [decodeAt] using opened),
            by simp [writerEnd]⟩

/-- A plaintext with more full chunks than the counter has values for them is refused. -/
theorem copy_from_loop_refuses {p : Bytes} {fuel i : Nat} {body : Body}
    (few : i ≤ counterMax) (counters : counterMax < p.length / plainChunkSize)
    (whole : body.bytes = some (p.drop (plainChunkSize * i))) (count : Nat) :
    (copyFromLoop aead key nonce fuel i body).result ≠ some (.ok count) := by
  induction fuel generalizing i body count with
  | zero => simp [copyFromLoop]
  | succ fuel ih =>
    obtain ⟨rest, read, kept⟩ := read_to_end_spec whole plainChunkSize
    have shape : (p.drop (plainChunkSize * i)).take plainChunkSize = piece plainChunkSize p i := rfl
    have width := piece_length_full (p := p) (show i < p.length / plainChunkSize by omega)
    rw [shape] at read
    rw [List.drop_drop, ← Nat.mul_succ] at kept
    simp only [copyFromLoop, read, width, ↓reduceIte, encryptNext]
    by_cases full : i = counterMax
    · simp [full]
    · simp only [full, ↓reduceIte, Written.after]
      intro success
      obtain ⟨r, result, counted⟩ := Option.map_eq_some_iff.mp success
      cases r with
      | error e => simp [Except.map] at counted
      | ok later => exact ih (by omega) kept later result

theorem copy_from_counters {p : Bytes} {body : Body} {count : Nat} (whole : body.bytes = some p)
    (success : (copyFrom aead key nonce body).result = some (.ok count)) :
    p.length / plainChunkSize ≤ counterMax := by
  by_cases few : p.length / plainChunkSize ≤ counterMax
  · exact few
  · exact absurd success (copy_from_loop_refuses (Nat.zero_le _)
      (Nat.lt_of_not_le few) (by simpa using whole) count)

theorem retrieve_nonce_append (rest : Bytes) : retrieveNonce (nonce.1 ++ rest) = some (nonce, rest) := by
  have enough : nonceSize ≤ (nonce.1 ++ rest).length := by
    rw [List.length_append, nonce.2]
    exact Nat.le_add_right _ _
  rw [retrieveNonce, dif_pos enough]
  congr 2
  · exact Subtype.ext (List.take_left' nonce.2)
  · exact List.drop_left' nonce.2

theorem retrieve_nonce_some {stored rest : Bytes} (found : retrieveNonce stored = some (nonce, rest)) :
    stored = nonce.1 ++ rest := by
  unfold retrieveNonce at found
  split at found
  · obtain ⟨rfl, rfl⟩ := Prod.mk.inj (Option.some.inj found)
    exact (List.take_append_drop nonceSize stored).symm
  · cases found

theorem retrieve_nonce_none {stored : Bytes} :
    retrieveNonce stored = none ↔ stored.length < nonceSize := by
  unfold retrieveNonce
  split
  · simp only [reduceCtorEq, false_iff]; omega
  · simp only [true_iff]; omega

variable (aead key nonce) in
theorem readers_open (rest : Bytes) :
    ∃ plains ending, Opens (decodeAt aead key nonce) encryptedChunkSize 0 rest plains ending ∧
      intoStream aead key (nonce.1 ++ rest) = ⟨plains, some (readerEnd ending)⟩ ∧
      copyTo aead key (nonce.1 ++ rest) = ⟨plains.flatten, some (writerEnd rest.length ending)⟩ := by
  have enough : rest.length < rest.length + 1 := Nat.lt_succ_self _
  obtain ⟨ending, stream, ends⟩ := into_stream_loop aead key nonce (i := 0) enough
  obtain ⟨plains, ending', file, written⟩ := copy_to_loop aead key nonce (i := 0) enough
  obtain ⟨same, sameEnd⟩ := opens_unique chunk_positive stream file
  subst sameEnd
  refine ⟨plains, ending, file, ?_, ?_⟩
  · simp only [intoStream, retrieve_nonce_append, ← same, ← ends]
  · simp only [copyTo, retrieve_nonce_append, written]

end Loops

/-- Decrypting with the same key, nonce, counter and last flag undoes encryption. -/
def Undoes (aead : StreamAead) : Prop :=
  ∀ key nonce i last p, aead.decrypt key nonce i last (aead.encrypt key nonce i last p) = some p

section RoundTrip
variable {aead : StreamAead} {key : Key} {nonce : Nonce}

theorem undone_at {p : Bytes} (counters : p.length / plainChunkSize ≤ counterMax)
    (back : ∀ i last, i ≤ p.length / plainChunkSize → last = decide (i = p.length / plainChunkSize) →
      aead.decrypt key nonce i last (aead.encrypt key nonce i last (piece plainChunkSize p i)) =
        some (piece plainChunkSize p i)) :
    Undone (encodeAt aead key nonce) (decodeAt aead key nonce) plainChunkSize p := by
  intro i within
  have opened := back i _ within rfl
  by_cases last : i = p.length / plainChunkSize
  · simpa [last, decodeAt, decryptLast, encodeAt] using opened
  · have allowed : i ≠ counterMax := by omega
    simpa [last, decodeAt, decryptNext, allowed, encodeAt] using opened

theorem decrypted_size_delivered (target : Target) {stored : Bytes}
    (fits : stored.length < u64Limit) (done : (intoStream aead key stored).ending = some .done) :
    decryptedSize target stored.length = .ok (intoStream aead key stored).bytes.length := by
  cases found : retrieveNonce stored with
  | none => simp [intoStream, found] at done
  | some parts =>
    obtain ⟨nonce, rest⟩ := parts
    have same := retrieve_nonce_some found
    subst same
    obtain ⟨plains, ending, run, stream, _⟩ := readers_open aead key nonce rest
    rw [stream] at done ⊢
    cases ending with
    | failed => simp [readerEnd] at done
    | finished =>
      obtain ⟨total, count⟩ := opens_lengths decode_shrinks chunk_positive run
      have sizes : (nonce.1 ++ rest).length = nonceSize + rest.length := by
        rw [List.length_append, nonce.2]
      have overhead : encryptionOverhead = 16 := rfl
      simp only [sizes, overhead] at fits total ⊢
      have without : target.sub64 (nonceSize + rest.length) nonceSize = .ok rest.length := by
        rw [sub64_exact target (by omega), Nat.add_sub_cancel_left]
      have chunks : numberOfChunks target rest.length = .ok plains.length := by
        rw [numberOfChunks]
        split at count
        · rename_i more
          rw [if_pos more, add64_exact target (by omega), count]
        · rename_i even
          rw [if_neg even, count]
          rfl
      have tags : target.mul64 encryptionOverhead plains.length =
          .ok (16 * plains.length) := mul64_exact target (by rw [overhead]; omega)
      have first : target.sub64 (nonceSize + rest.length) (16 * plains.length) =
          .ok (nonceSize + rest.length - 16 * plains.length) := sub64_exact target (by omega)
      have second : target.sub64 (nonceSize + rest.length - 16 * plains.length) nonceSize =
          .ok plains.flatten.length := by
        rw [sub64_exact target (by omega)]
        congr 1
        omega
      simp only [decryptedSize, without, Bind.bind, Except.bind, chunks, tags, first, second,
        Yielded.bytes]

theorem written_read_back (undoes : Undoes aead) {p : Bytes}
    (counters : p.length / plainChunkSize ≤ counterMax) :
    (intoStream aead key (nonce.1 ++ sealedFrom (encodeAt aead key nonce) plainChunkSize p
        (p.length / plainChunkSize) 0)).bytes = p ∧
      (intoStream aead key (nonce.1 ++ sealedFrom (encodeAt aead key nonce) plainChunkSize p
        (p.length / plainChunkSize) 0)).ending = some .done ∧
      ∃ count, copyTo aead key (nonce.1 ++ sealedFrom (encodeAt aead key nonce) plainChunkSize p
        (p.length / plainChunkSize) 0) = ⟨p, some (.ok count)⟩ := by
  have undone : Undone (encodeAt aead key nonce) (decodeAt aead key nonce) plainChunkSize p :=
    undone_at counters fun i last _ _ => undoes key nonce i last _
  have sealed := opens_sealed encode_grows undone plain_positive overhead_positive
    (k := p.length / plainChunkSize) (i := 0) (by omega)
  obtain ⟨plains, ending, run, stream, written⟩ := readers_open aead key nonce
    (sealedFrom (encodeAt aead key nonce) plainChunkSize p (p.length / plainChunkSize) 0)
  obtain ⟨same, finished⟩ := opens_unique chunk_positive run sealed
  have together := pieces_flatten (p := p) plain_positive (k := p.length / plainChunkSize)
    (i := 0) (by omega)
  rw [Nat.mul_zero, List.drop_zero, ← same] at together
  subst finished
  exact ⟨by rw [stream]; exact together, by rw [stream]; rfl, _, by rw [written, together]; rfl⟩

/-- What is written is read back by both readers, however the body came in; and a file that reads
    to its end has the length that is announced for it. -/
theorem stored_file_round_trip (aead : StreamAead) (undoes : Undoes aead) (key : Key) :
    (∀ (nonce : Nonce) (body : Body) (p : Bytes), body.bytes = some p →
      p.length / plainChunkSize ≤ counterMax →
      ∃ file, copyFrom aead key nonce body = ⟨file, some (.ok p.length)⟩ ∧
        (intoStream aead key file).bytes = p ∧ (intoStream aead key file).ending = some .done ∧
        ∃ count, copyTo aead key file = ⟨p, some (.ok count)⟩) ∧
    ∀ (target : Target) (stored : Bytes), nonceSize ≤ stored.length → stored.length < u64Limit →
      (intoStream aead key stored).ending = some .done →
      decryptedSize target stored.length = .ok (intoStream aead key stored).bytes.length := by
  constructor
  · intro nonce body p whole counters
    exact ⟨_, copy_from_spec whole counters, written_read_back undoes counters⟩
  · intro target stored _ fits done
    exact decrypted_size_delivered target fits done

end RoundTrip

section Samples

def sampleTag (i : Nat) (last : Bool) : Bytes :=
  UInt8.ofNat i :: (if last then 1 else 0) :: List.replicate 14 0

def sampleAead : StreamAead where
  encrypt _ _ i last p := p ++ sampleTag i last
  decrypt _ _ i last c :=
    if sampleTag i last <:+ c then some (c.take (c.length - encryptionOverhead)) else none
  encrypt_length _ _ i last p := by rw [List.length_append]; rfl
  decrypt_length _ _ i last c p opened := by
    split at opened
    · rename_i tagged
      have long : encryptionOverhead ≤ c.length := tagged.length_le
      rw [← Option.some.inj opened, List.length_take]
      omega
    · cases opened

theorem sample_undoes : Undoes sampleAead := by
  intro key nonce i last p
  have tagged : sampleTag i last <:+ p ++ sampleTag i last := List.suffix_append _ _
  have width : (sampleTag i last).length = encryptionOverhead := rfl
  simp [sampleAead, tagged, width]

def sampleKey : Key := Vector.replicate 32 7
def sampleNonce : Nonce := ⟨List.replicate nonceSize 9, by simp⟩

end Samples

theorem three_bytes_round_trip :
    (∃ file, copyFrom sampleAead sampleKey sampleNonce [.ok [1], .ok [], .ok [2, 3]] =
        ⟨file, some (.ok 3)⟩ ∧
      (intoStream sampleAead sampleKey file).bytes = [1, 2, 3] ∧
      (intoStream sampleAead sampleKey file).ending = some .done ∧
      ∃ count, copyTo sampleAead sampleKey file = ⟨[1, 2, 3], some (.ok count)⟩) ∧
    decryptedSize ⟨true, true⟩ (sampleNonce.1 ++ ([1] ++ sampleTag 0 true)).length =
      .ok (intoStream sampleAead sampleKey (sampleNonce.1 ++ ([1] ++ sampleTag 0 true))).bytes.length :=
  ⟨(stored_file_round_trip sampleAead sample_undoes sampleKey).1 sampleNonce _ [1, 2, 3] rfl
      (by decide),
    (stored_file_round_trip sampleAead sample_undoes sampleKey).2 ⟨true, true⟩ _ (by decide)
      (by decide) (by decide)⟩

section Truncation
variable {aead : StreamAead} {key : Key} {nonce : Nonce}

/-- An ideal AEAD under this key and nonce, when the nonce was used for the one plaintext `p`:
    what decrypts is what was made, with its counter and its last flag. -/
def IdealFor (aead : StreamAead) (key : Key) (nonce : Nonce) (p : Bytes) : Prop :=
  ∀ i last x q, aead.decrypt key nonce i last x = some q ↔
    i ≤ p.length / plainChunkSize ∧ last = decide (i = p.length / plainChunkSize) ∧
      x = aead.encrypt key nonce i last (piece plainChunkSize p i) ∧ q = piece plainChunkSize p i

theorem ideal_genuine {p : Bytes} (ideal : IdealFor aead key nonce p) :
    Genuine (encodeAt aead key nonce) (decodeAt aead key nonce) plainChunkSize p :=
  fun i last x q opened => (ideal i last x q).mp (decode_decrypts opened)

theorem ideal_undone {p : Bytes} (counters : p.length / plainChunkSize ≤ counterMax)
    (ideal : IdealFor aead key nonce p) :
    Undone (encodeAt aead key nonce) (decodeAt aead key nonce) plainChunkSize p :=
  undone_at counters fun i last within flag => (ideal i last _ _).mpr ⟨within, flag, rfl, rfl⟩

def Detected (aead : StreamAead) (key : Key) (stored : Bytes) : Prop :=
  (∃ e, (intoStream aead key stored).ending = some (.error e)) ∧
    ∃ e, (copyTo aead key stored).result = some (.error e)

theorem detected_short {stored : Bytes} (short : stored.length < nonceSize) :
    Detected aead key stored := by
  have missing := retrieve_nonce_none.mpr short
  exact ⟨⟨.unexpectedEof, by simp [intoStream, missing]⟩,
    ⟨.unexpectedEof, by simp [copyTo, missing]⟩⟩

theorem detected_iff_failed {rest : Bytes} {plains : List Bytes} {ending : Ending}
    (stream : intoStream aead key (nonce.1 ++ rest) = ⟨plains, some (readerEnd ending)⟩)
    (written : copyTo aead key (nonce.1 ++ rest) =
      ⟨plains.flatten, some (writerEnd rest.length ending)⟩) :
    Detected aead key (nonce.1 ++ rest) ↔ ending ≠ .finished := by
  rw [Detected, stream, written]
  cases ending <;> simp [readerEnd, writerEnd]

/-- A proper prefix of a written file is refused by both readers exactly when it does not end
    where a chunk ends. -/
theorem truncation_detected_iff {body : Body} {p file stored : Bytes} {count : Nat}
    (whole : body.bytes = some p)
    (made : copyFrom aead key nonce body = ⟨file, some (.ok count)⟩)
    (ideal : IdealFor aead key nonce p) (cut : stored <+: file) (proper : stored ≠ file) :
    Detected aead key stored ↔ ¬ ∃ k, stored.length = nonceSize + k * encryptedChunkSize := by
  have counters := copy_from_counters whole (by rw [made])
  rw [copy_from_spec whole counters] at made
  have content := (Written.mk.inj made).1
  subst content
  by_cases short : stored.length < nonceSize
  · refine ⟨fun _ => ?_, fun _ => detected_short short⟩
    rintro ⟨k, size⟩
    omega
  · obtain ⟨rest, same⟩ := List.prefix_of_prefix_length_le (List.prefix_append nonce.1 _) cut
      (by have := nonce.2; omega)
    subst same
    have restCut := (List.prefix_append_right_inj _).mp cut
    have restProper := fun equal => proper (congrArg (nonce.1 ++ ·) equal)
    obtain ⟨plains, ending, run, stream, written⟩ := readers_open aead key nonce rest
    have noticed := opens_cut encode_grows (ideal_undone counters ideal) (ideal_genuine ideal)
      plain_positive (by omega) restCut restProper run
    rw [detected_iff_failed stream written, Ne, noticed, List.length_append, nonce.2]
    simp only [Nat.add_left_cancel_iff]
    exact not_congr ⟨fun ⟨k, size⟩ => ⟨k, by rw [size, Nat.mul_comm]; rfl⟩,
      fun ⟨k, size⟩ => ⟨k, by rw [size, Nat.mul_comm]; rfl⟩⟩

end Truncation

section IdealSample

/-- The table of what was made: the decryption of an ideal AEAD after these files were written. -/
def tableAead (files : List (Nonce × Bytes)) : StreamAead where
  encrypt := sampleAead.encrypt
  decrypt key nonce i last c :=
    match files.find? (·.1 = nonce) with
    | none => none
    | some (_, p) =>
      if i ≤ p.length / plainChunkSize ∧ last = decide (i = p.length / plainChunkSize) ∧
          c = sampleAead.encrypt key nonce i last (piece plainChunkSize p i)
      then some (piece plainChunkSize p i) else none
  encrypt_length := sampleAead.encrypt_length
  decrypt_length key nonce i last c p opened := by
    split at opened
    · cases opened
    · split at opened
      · rename_i made
        rw [made.2.2, ← Option.some.inj opened]
        exact sampleAead.encrypt_length _ _ _ _ _
      · cases opened

theorem table_ideal (files : List (Nonce × Bytes)) {key : Key} {nonce : Nonce} {p : Bytes}
    (found : files.find? (·.1 = nonce) = some (nonce, p)) :
    IdealFor (tableAead files) key nonce p := by
  intro i last x q
  simp only [tableAead, found]
  constructor
  · intro opened
    split at opened
    · rename_i made
      exact ⟨made.1, made.2.1, made.2.2, (Option.some.inj opened).symm⟩
    · cases opened
  · rintro ⟨within, flag, made, same⟩
    rw [if_pos ⟨within, flag, made⟩, same]

def sampleFiles : List (Nonce × Bytes) := [(sampleNonce, [1, 2, 3])]

def sampleUpload : Written :=
  copyFrom (tableAead sampleFiles) sampleKey sampleNonce [.ok [1, 2, 3]]

end IdealSample

theorem cut_inside_a_chunk_is_detected :
    Detected (tableAead sampleFiles) sampleKey (sampleUpload.bytes.take 30) ↔
      ¬ ∃ k, (sampleUpload.bytes.take 30).length = nonceSize + k * encryptedChunkSize := by
  have whole : Body.bytes [.ok [1, 2, 3]] = some [1, 2, 3] := rfl
  have made : copyFrom (tableAead sampleFiles) sampleKey sampleNonce [.ok [1, 2, 3]] =
      ⟨sampleUpload.bytes, some (.ok 3)⟩ := rfl
  exact truncation_detected_iff whole made (table_ideal sampleFiles rfl) (List.take_prefix _ _)
    (by decide)

/-- A file cut right after its nonce: both readers take it for an empty file. -/
theorem cut_after_the_nonce_is_read :
    sampleUpload.result = some (.ok 3) ∧
      IdealFor (tableAead sampleFiles) sampleKey sampleNonce [1, 2, 3] ∧
      sampleUpload.bytes.take nonceSize <+: sampleUpload.bytes ∧
      sampleUpload.bytes.take nonceSize ≠ sampleUpload.bytes ∧
      ¬ Detected (tableAead sampleFiles) sampleKey (sampleUpload.bytes.take nonceSize) := by
  refine ⟨by decide, table_ideal sampleFiles rfl, List.take_prefix _ _, by decide, ?_⟩
  rintro ⟨⟨e, ending⟩, _⟩
  have done : (intoStream (tableAead sampleFiles) sampleKey
    (sampleUpload.bytes.take nonceSize)).ending = some .done := by decide
  simp [done] at ending

end VestibuleStorage
