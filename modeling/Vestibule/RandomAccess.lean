import Vestibule.StreamedParts

/-!
Positions of a plaintext and positions of the stored file: where the writer puts a chunk, where
`ChunkedPosition::new` looks for it, and what a stream that starts there delivers.
-/
namespace VestibuleAccess
open VestibuleRust SealedChunks VestibuleStreamer VestibuleStorage VestibuleParts

def Delivers (stream : Yielded) (bytes : Bytes) : Prop :=
  stream.bytes = bytes ∧ stream.ending = some .done

section Layout
variable {aead : StreamAead} {key : Key} {nonce : Nonce} {p : Bytes}

theorem sealed_split {j : Nat} (chunk : j ≤ p.length / plainChunkSize) :
    ∃ earlier later, sealedFrom (encodeAt aead key nonce) plainChunkSize p
        (p.length / plainChunkSize) 0 = earlier ++
          aead.encrypt key nonce j (decide (j = p.length / plainChunkSize))
            (piece plainChunkSize p j) ++ later ∧
      earlier.length = encryptedChunkSize * j := by
  have skipped := sealed_drop (@encode_grows aead key nonce)
    (k := p.length / plainChunkSize) (i := 0) (Nat.zero_add _) chunk
  have enough := sealed_enough (@encode_grows aead key nonce) overhead_positive (n := plainChunkSize)
    (p := p) (p.length / plainChunkSize - j) (0 + j)
  rw [← skipped, List.length_drop] at enough
  have front : ((sealedFrom (encodeAt aead key nonce) plainChunkSize p (p.length / plainChunkSize)
      0).take (encryptedChunkSize * j)).length = encryptedChunkSize * j := by
    rw [List.length_take]
    exact Nat.min_eq_left (Nat.le_of_lt (Nat.lt_of_sub_pos (Nat.lt_of_le_of_lt (Nat.zero_le _) enough)))
  rw [Nat.zero_add] at skipped
  have whole := List.take_append_drop (encryptedChunkSize * j) (sealedFrom (encodeAt aead key nonce)
    plainChunkSize p (p.length / plainChunkSize) 0)
  rcases Nat.eq_or_lt_of_le chunk with last | before
  · refine ⟨_, [], ?_, front⟩
    have none_left : p.length / plainChunkSize - j = 0 := by omega
    rw [none_left] at skipped
    rw [List.append_nil, decide_eq_true last]
    exact whole.symm.trans (congrArg _ skipped)
  · obtain ⟨k, more⟩ : ∃ k, p.length / plainChunkSize - j = k + 1 :=
      ⟨p.length / plainChunkSize - j - 1, by omega⟩
    refine ⟨_, sealedFrom (encodeAt aead key nonce) plainChunkSize p k (j + 1), ?_, front⟩
    rw [decide_eq_false (Nat.ne_of_lt before), List.append_assoc]
    rw [more, sealedFrom] at skipped
    exact whole.symm.trans (congrArg _ skipped)

theorem position_in_piece (o : Nat) :
    (piece plainChunkSize p (o / plainChunkSize))[o % plainChunkSize]? = p[o]? := by
  have below := Nat.mod_lt o plain_positive
  rw [piece, List.getElem?_take_of_lt below, List.getElem?_drop, Nat.div_add_mod]

end Layout

/-- The place computed for a position of the plaintext is where the writer put the chunk of that
    position, and nothing overflows on the way. -/
theorem chunk_addressing (target : Target) (aead : StreamAead) (key : Key) (nonce : Nonce)
    {body : Body} {p : Bytes} {count o : Nat} (whole : body.bytes = some p)
    (accepted : (copyFrom aead key nonce body).result = some (.ok count)) (inside : o ≤ p.length) :
    ∃ position earlier later, ChunkedPosition.new target o = .ok position ∧
      position.activeChunkCounter < 2 ^ 32 ∧
      position.offsetInActiveChunk < plainChunkSize ∧
      position.activeChunkCounter * plainChunkSize + position.offsetInActiveChunk = o ∧
      (piece plainChunkSize p position.activeChunkCounter)[position.offsetInActiveChunk]? = p[o]? ∧
      (copyFrom aead key nonce body).bytes = earlier ++
        aead.encrypt key nonce position.activeChunkCounter
          (decide (position.activeChunkCounter = p.length / plainChunkSize))
          (piece plainChunkSize p position.activeChunkCounter) ++ later ∧
      earlier.length = position.beginningOfActiveChunk := by
  have counters := copy_from_counters whole accepted
  have limit : counterMax < 2 ^ 32 := by decide
  have size : plainChunkSize = 1000000 := rfl
  have split := Nat.div_add_mod o plainChunkSize
  have chunk : o / plainChunkSize ≤ p.length / plainChunkSize := Nat.div_le_div_right inside
  have below := Nat.mod_lt o plain_positive
  have small : o < 2 ^ 63 := by
    have product := Nat.mul_le_mul_left plainChunkSize (Nat.le_trans chunk counters)
    have top : plainChunkSize * counterMax + plainChunkSize < 2 ^ 63 := by decide
    omega
  obtain ⟨earlier, later, layout, front⟩ := @sealed_split aead key nonce p _ chunk
  refine ⟨_, nonce.1 ++ earlier, later, chunked_position_exact target small, ?_, below, ?_,
    position_in_piece o, ?_, ?_⟩
  · exact Nat.lt_of_le_of_lt (Nat.le_trans chunk counters) limit
  · rw [Nat.mul_comm]
    exact split
  · rw [copy_from_spec whole counters, layout]
    simp only [List.append_assoc]
  · rw [List.length_append, nonce.2, front, Nat.mul_comm, Nat.add_comm]

def sampleBody : Body := [.ok [1], .ok [2, 3]]
def samplePlain : Bytes := [1, 2, 3]

/-- The end of a body of three bytes. -/
theorem end_of_three_bytes_addressed :
    ∃ position earlier later, ChunkedPosition.new ⟨true, true⟩ 3 = .ok position ∧
      position.activeChunkCounter < 2 ^ 32 ∧
      position.offsetInActiveChunk < plainChunkSize ∧
      position.activeChunkCounter * plainChunkSize + position.offsetInActiveChunk = 3 ∧
      (piece plainChunkSize samplePlain position.activeChunkCounter)[position.offsetInActiveChunk]? =
        samplePlain[3]? ∧
      (copyFrom sampleAead sampleKey sampleNonce sampleBody).bytes = earlier ++
        sampleAead.encrypt sampleKey sampleNonce position.activeChunkCounter
          (decide (position.activeChunkCounter = samplePlain.length / plainChunkSize))
          (piece plainChunkSize samplePlain position.activeChunkCounter) ++ later ∧
      earlier.length = position.beginningOfActiveChunk := by
  have accepted : (copyFrom sampleAead sampleKey sampleNonce sampleBody).result = some (.ok 3) := rfl
  exact chunk_addressing ⟨true, true⟩ sampleAead sampleKey sampleNonce rfl accepted (by decide)

/-- Whatever is stored: where reading it to the end succeeds, reading a part of it gives that part of
    what the whole gives. -/
theorem random_access_agrees (checks : Bool) (aead : StreamAead) (key : Key) {stored : Bytes}
    (finished : (intoStream aead key stored).ending = some .done) {start maxLength : Nat}
    (inside : start ≤ (intoStream aead key stored).bytes.length) (fits : maxLength < u64Limit) :
    Delivers (intoStreamSized ⟨true, checks⟩ aead key start maxLength stored)
      (((intoStream aead key stored).bytes.drop start).take maxLength) := by
  cases found : retrieveNonce stored with
  | none => simp [intoStream, found] at finished
  | some parts =>
    obtain ⟨nonce, rest⟩ := parts
    have same := retrieve_nonce_some found
    subst same
    obtain ⟨plains, ending, run, stream, _⟩ := readers_open aead key nonce rest
    rw [stream] at finished inside ⊢
    cases ending with
    | failed => simp [readerEnd] at finished
    | finished =>
      have wide : maxLength < 2 ^ (Target.mk true checks).usizeBits := fits
      have delivered := @sized_stream_opened ⟨true, checks⟩ aead key nonce _ _ start maxLength run inside
      rwa [usize_same_iff.mpr wide] at delivered

/-- The last two of three bytes. -/
theorem two_of_three_bytes :
    Delivers (intoStreamSized ⟨true, true⟩ sampleAead sampleKey 1 9
        (sampleNonce.1 ++ ([1, 2, 3] ++ sampleTag 0 true)))
      (((intoStream sampleAead sampleKey
        (sampleNonce.1 ++ ([1, 2, 3] ++ sampleTag 0 true))).bytes.drop 1).take 9) :=
  random_access_agrees true sampleAead sampleKey (by decide) (by decide) (by decide)

/-- A front of `usize` length is the front wanted exactly if the cast keeps the number, or there is no
    more than what the cast leaves of it. -/
theorem take_usize_iff {target : Target} {p : Bytes} {wanted : Nat} :
    p.take (target.usize wanted) = p.take wanted ↔
      wanted < 2 ^ target.usizeBits ∨ p.length ≤ wanted % 2 ^ target.usizeBits := by
  have cast := usize_le target wanted
  rw [← usize_same_iff]
  change _ ↔ _ ∨ p.length ≤ target.usize wanted
  constructor
  · intro same
    have lengths := congrArg List.length same
    rw [List.length_take, List.length_take] at lengths
    omega
  · rintro (same | short)
    · rw [same]
    · rw [List.take_of_length_le short, List.take_of_length_le (Nat.le_trans short cast)]

/-- The stream of a plain file delivers the exact count on every machine; the one of an encrypted file
    does if and only if the cast does not take away bytes that are there. -/
theorem sized_streams_exact_iff (target : Target) :
    (∀ (granted : Nat → Nat) (size maxLength : Nat) (stored : Bytes), 0 < size →
      size < 2 ^ target.usizeBits →
        Delivers (streamerSized target granted size maxLength stored) (stored.take maxLength)) ∧
    ∀ (aead : StreamAead) (key : Key) (nonce : Nonce) (body : Body) (p : Bytes)
      (count start maxLength : Nat), Undoes aead → body.bytes = some p →
      (copyFrom aead key nonce body).result = some (.ok count) → start ≤ p.length →
        (Delivers (intoStreamSized target aead key start maxLength (copyFrom aead key nonce body).bytes)
            ((p.drop start).take maxLength) ↔
          maxLength < 2 ^ target.usizeBits ∨
            p.length - start ≤ maxLength % 2 ^ target.usizeBits) := by
  constructor
  · intro granted size maxLength stored positive fits
    exact streamer_sized_delivers positive fits maxLength stored
  · intro aead key nonce body p count start maxLength undoes whole accepted inside
    have counters := copy_from_counters whole accepted
    obtain ⟨bytes, ending⟩ :=
      @sized_stream_delivers target aead key nonce undoes p start maxLength counters inside
    rw [copy_from_spec whole counters, Delivers, bytes, ← List.length_drop, take_usize_iff]
    exact and_iff_left ending

/-- A little more than 2^32 bytes wanted of three, where a `usize` has 32 bits. -/
theorem exact_for_few_bytes :
    Delivers (streamerSized ⟨false, true⟩ (fun _ => 1) 2 (2 ^ 32 + 3) samplePlain)
      (samplePlain.take (2 ^ 32 + 3)) ∧
    (Delivers (intoStreamSized ⟨false, true⟩ sampleAead sampleKey 0 (2 ^ 32 + 3)
        (copyFrom sampleAead sampleKey sampleNonce sampleBody).bytes)
          ((samplePlain.drop 0).take (2 ^ 32 + 3)) ↔
      2 ^ 32 + 3 < 2 ^ (Target.mk false true).usizeBits ∨
        samplePlain.length - 0 ≤ (2 ^ 32 + 3) % 2 ^ (Target.mk false true).usizeBits) :=
  ⟨(sized_streams_exact_iff ⟨false, true⟩).1 _ 2 _ _ (by decide) (by decide),
    (sized_streams_exact_iff ⟨false, true⟩).2 sampleAead sampleKey sampleNonce _ _ 3 0 _ sample_undoes
      rfl rfl (by decide)⟩

/-- With exactly 2^32 wanted, nothing is delivered. -/
theorem four_gigabytes_wanted_none_delivered :
    Undoes sampleAead ∧ sampleBody.bytes = some samplePlain ∧
      (copyFrom sampleAead sampleKey sampleNonce sampleBody).result = some (.ok 3) ∧
      2 ^ 32 < u64Limit ∧
      (intoStreamSized ⟨false, true⟩ sampleAead sampleKey 0 (2 ^ 32)
        (copyFrom sampleAead sampleKey sampleNonce sampleBody).bytes).bytes.length ≠
          min (2 ^ 32) (samplePlain.length - 0) :=
  ⟨sample_undoes, by decide, by decide, by decide, by decide⟩

end VestibuleAccess
