import Vestibule.EncryptedStorage

/-!
The streams that carry a file or a part of one: `davs/streamer.rs`, and the sized stream of an
encrypted file on what the writer leaves. A read may deliver fewer bytes than it was asked for.
-/
namespace VestibuleParts
open VestibuleRust SealedChunks VestibuleStreamer VestibuleStorage

def bufSize : Nat := 65536

/-- The bytes that one read delivers of those wanted and available, when the system grants so many:
    at least one as long as there are any. -/
def readCount (granted wanted available : Nat) : Nat :=
  if min wanted available = 0 then 0 else max 1 (min granted (min wanted available))

theorem read_count_bounds {granted wanted available : Nat} (some_wanted : 0 < wanted) :
    readCount granted wanted available ≤ wanted ∧ readCount granted wanted available ≤ available ∧
      (readCount granted wanted available = 0 ↔ available = 0) := by
  unfold readCount
  split
  · omega
  · omega

section Plain
variable (target : Target) (granted : Nat → Nat)

def streamLoop (granted : Nat → Nat) : Nat → Nat → Bytes → Yielded
  | 0, _, _ => ⟨[], none⟩
  | fuel + 1, turn, stored =>
    let r := readCount (granted turn) bufSize stored.length
    if r = 0 then ⟨[], some .done⟩
    else .after (stored.take r) (streamLoop granted fuel (turn + 1) (stored.drop r))

def streamWhole (stored : Bytes) : Yielded := streamLoop granted (stored.length + 1) 0 stored

def streamSizedLoop (target : Target) (granted : Nat → Nat) (size : Nat) :
    Nat → Nat → Nat → Bytes → Yielded
  | 0, _, _, _ => ⟨[], none⟩
  | fuel + 1, turn, remaining, stored =>
    if remaining = 0 then ⟨[], some .done⟩
    else
      let bs := if size ≤ remaining then size else target.usize remaining
      let r := readCount (granted turn) bs stored.length
      if r = 0 then ⟨[], some .done⟩
      else .after (stored.take r)
        (streamSizedLoop target granted size fuel (turn + 1) (remaining - r) (stored.drop r))

/-- `Streamer::into_stream_sized` of a streamer whose buffer has that size. -/
def streamerSized (size maxLength : Nat) (stored : Bytes) : Yielded :=
  streamSizedLoop target granted size (maxLength + 1) 0 maxLength stored

def streamSized (maxLength : Nat) (stored : Bytes) : Yielded :=
  streamerSized target granted bufSize maxLength stored

theorem after_bytes (chunk : Bytes) (later : Yielded) :
    (Yielded.after chunk later).bytes = chunk ++ later.bytes := by
  simp [Yielded.after, Yielded.bytes]

variable {target granted}

theorem stream_loop_delivers {fuel turn : Nat} {stored : Bytes} (enough : stored.length < fuel) :
    (streamLoop granted fuel turn stored).bytes = stored ∧
      (streamLoop granted fuel turn stored).ending = some .done := by
  induction fuel generalizing turn stored with
  | zero => omega
  | succ fuel ih =>
    obtain ⟨_, within, empty⟩ :=
      @read_count_bounds (granted turn) bufSize stored.length (by decide)
    simp only [streamLoop]
    split
    · rename_i nothing
      have none_left := List.length_eq_zero_iff.mp (empty.mp nothing)
      subst none_left
      exact ⟨rfl, rfl⟩
    · rename_i something
      have shorter : (stored.drop (readCount (granted turn) bufSize stored.length)).length < fuel := by
        rw [List.length_drop]
        omega
      obtain ⟨bytes, ending⟩ := @ih (turn + 1) _ shorter
      rw [after_bytes, bytes]
      exact ⟨List.take_append_drop _ _, ending⟩

theorem stream_whole_delivers (stored : Bytes) :
    (streamWhole granted stored).bytes = stored ∧
      (streamWhole granted stored).ending = some .done :=
  stream_loop_delivers (Nat.lt_succ_self _)

theorem stream_sized_loop_delivers {size fuel turn remaining : Nat} {stored : Bytes}
    (positive : 0 < size) (fits : size < 2 ^ target.usizeBits) (enough : remaining < fuel) :
    (streamSizedLoop target granted size fuel turn remaining stored).bytes = stored.take remaining ∧
      (streamSizedLoop target granted size fuel turn remaining stored).ending = some .done := by
  induction fuel generalizing turn remaining stored with
  | zero => omega
  | succ fuel ih =>
    simp only [streamSizedLoop]
    split
    · rename_i nothing
      subst nothing
      exact ⟨rfl, rfl⟩
    rename_i something
    have cast : (if size ≤ remaining then size else target.usize remaining) = min size remaining := by
      split
      · omega
      · rw [Target.usize, Nat.mod_eq_of_lt (by omega)]
        omega
    rw [cast]
    obtain ⟨fits, within, empty⟩ :=
      @read_count_bounds (granted turn) (min size remaining) stored.length (by omega)
    generalize readCount (granted turn) (min size remaining) stored.length = r at *
    split
    · rename_i nothing
      have none_left := List.length_eq_zero_iff.mp (empty.mp nothing)
      rw [none_left, List.take_nil]
      exact ⟨rfl, rfl⟩
    · obtain ⟨bytes, ending⟩ := @ih (turn + 1) (remaining - r) (stored.drop r) (by omega)
      rw [after_bytes, bytes]
      constructor
      · have split : remaining = r + (remaining - r) := by omega
        conv => rhs; rw [split]
        exact List.take_add.symm
      · exact ending

theorem streamer_sized_delivers {size : Nat} (positive : 0 < size)
    (fits : size < 2 ^ target.usizeBits) (maxLength : Nat) (stored : Bytes) :
    (streamerSized target granted size maxLength stored).bytes = stored.take maxLength ∧
      (streamerSized target granted size maxLength stored).ending = some .done :=
  stream_sized_loop_delivers positive fits (Nat.lt_succ_self _)

theorem small_fits (target : Target) {value : Nat} (small : value < 2 ^ 32) :
    value < 2 ^ target.usizeBits := by
  unfold Target.usizeBits
  split
  · exact Nat.lt_trans small (by decide)
  · exact small

theorem stream_sized_delivers (maxLength : Nat) (stored : Bytes) :
    (streamSized target granted maxLength stored).bytes = stored.take maxLength ∧
      (streamSized target granted maxLength stored).ending = some .done :=
  streamer_sized_delivers (by decide) (small_fits target (by decide)) maxLength stored

end Plain

section Encrypted
variable {target : Target} {aead : StreamAead} {key : Key} {nonce : Nonce}

theorem drain_exact {start offset : Nat} {plaintext : Bytes} (within : offset ≤ plaintext.length)
    (small : plaintext.length ≤ plainChunkSize) (atZero : start = 0 → offset = 0) :
    drain target start offset plaintext = .ok (plaintext.drop offset) := by
  have limit : plainChunkSize < 2 ^ 32 := by decide
  have cast : target.usize offset = offset := usize_small target (by omega)
  unfold drain
  split
  · rename_i zero
    rw [atZero zero]
    rfl
  · rw [cast, if_pos within]

theorem sized_loop_turn {start fuel remaining beginning offset i : Nat} {stored plain : Bytes}
    (wanted : remaining ≠ 0) (some_left : stored ≠ []) (low : i < 2 ^ 32)
    (opened : aead.decrypt key nonce i
      (decide (stored.length < encryptedChunkSize)) (stored.take encryptedChunkSize) = some plain)
    (within : offset ≤ plain.length) (small : plain.length ≤ plainChunkSize)
    (atZero : start = 0 → offset = 0) :
    intoStreamSizedLoop target aead key nonce start (fuel + 1) ⟨beginning, offset, i⟩ remaining stored =
      if target.usize remaining < (plain.drop offset).length then
        ⟨[(plain.drop offset).take (target.usize remaining)], some .done⟩
      else if stored.length < encryptedChunkSize then ⟨[plain.drop offset], some .done⟩
      else .after (plain.drop offset)
        (intoStreamSizedLoop target aead key nonce start fuel ⟨beginning, 0, i + 1⟩
          (remaining - (plain.drop offset).length) (stored.drop encryptedChunkSize)) := by
  have counter : i % 2 ^ 32 = i := Nat.mod_eq_of_lt low
  have drained := @drain_exact target start _ _ within small atZero
  have nonempty := List.length_pos_iff.mpr some_left
  have restart : (if start = 0 then offset else 0) = 0 := by
    split
    · rename_i zero
      exact atZero zero
    · rfl
  by_cases short : stored.length < encryptedChunkSize
  · have taken : stored.take encryptedChunkSize = stored := List.take_of_length_le (by omega)
    have flag : decide (stored.length < encryptedChunkSize) = true := decide_eq_true short
    rw [flag, taken] at opened
    have other : stored.length ≠ encryptedChunkSize := by omega
    have left : stored.length ≠ 0 := by omega
    simp only [intoStreamSizedLoop, wanted, ↓reduceIte, taken, other, left, counter, opened, drained,
      short]
  · have width : (stored.take encryptedChunkSize).length = encryptedChunkSize := by
      rw [List.length_take]
      omega
    have flag : decide (stored.length < encryptedChunkSize) = false := decide_eq_false short
    rw [flag] at opened
    simp only [intoStreamSizedLoop, wanted, ↓reduceIte, width, counter, opened, drained, short, restart]

theorem usize_sub {remaining part : Nat} (covered : part ≤ target.usize remaining) :
    target.usize (remaining - part) = target.usize remaining - part := by
  unfold Target.usize at covered ⊢
  have divided := Nat.div_add_mod remaining (2 ^ target.usizeBits)
  have below := Nat.mod_lt remaining (Nat.two_pow_pos target.usizeBits)
  have moved : remaining - part = 2 ^ target.usizeBits * (remaining / 2 ^ target.usizeBits) +
      (remaining % 2 ^ target.usizeBits - part) := by omega
  rw [moved, Nat.mul_add_mod, Nat.mod_eq_of_lt (by omega)]

/-- From chunk `i` of a file that reads to its end, a sized stream delivers the plaintext from there
    on, up to what the cast leaves of the length wanted. -/
theorem sized_loop_opened {start fuel remaining beginning offset i : Nat} {stored : Bytes}
    {plains : List Bytes}
    (run : Opens (decodeAt aead key nonce) encryptedChunkSize i stored plains .finished)
    (low : i ≤ counterMax) (first : offset ≤ plainChunkSize) (within : offset ≤ plains.flatten.length)
    (atZero : start = 0 → offset = 0) (enough : stored.length < fuel) :
    (intoStreamSizedLoop target aead key nonce start fuel ⟨beginning, offset, i⟩ remaining
        stored).bytes = (plains.flatten.drop offset).take (target.usize remaining) ∧
      (intoStreamSizedLoop target aead key nonce start fuel ⟨beginning, offset, i⟩ remaining
        stored).ending = some .done := by
  have limit : counterMax < 2 ^ 32 := by decide
  generalize finished : Ending.finished = ending at run
  induction run generalizing fuel remaining offset with
  | @full i stored plain later ending long opened tail ih =>
    obtain ⟨fuel, rfl⟩ : ∃ m, fuel = m + 1 := ⟨fuel - 1, by omega⟩
    have allowed : i ≠ counterMax := by
      intro last
      simp [decodeAt, decryptNext, last] at opened
    have chunk : encryptedChunkSize = plainChunkSize + encryptionOverhead := rfl
    have width := decode_shrinks _ _ _ _ opened
    rw [List.length_take, Nat.min_eq_left long] at width
    have some_left : stored ≠ [] := by
      apply List.ne_nil_of_length_pos
      have positive := chunk_positive
      omega
    by_cases nothing : remaining = 0
    · subst nothing
      exact ⟨by simp [intoStreamSizedLoop, Yielded.bytes, Target.usize], by simp [intoStreamSizedLoop]⟩
    have found : aead.decrypt key nonce i (decide (stored.length < encryptedChunkSize))
        (stored.take encryptedChunkSize) = some plain := by
      rw [decide_eq_false (Nat.not_lt.mpr long)]
      exact decode_decrypts opened
    rw [sized_loop_turn nothing some_left (by omega) found (by omega) (by omega) atZero, List.flatten_cons,
      List.drop_append_of_le_length (by omega), List.take_append]
    split
    · rename_i short
      rw [Nat.sub_eq_zero_of_le (Nat.le_of_lt short), List.take_zero, List.append_nil]
      exact ⟨by simp [Yielded.bytes], rfl⟩
    · rename_i covered
      have cut := Nat.le_of_not_lt covered
      have shorter : (stored.drop encryptedChunkSize).length < fuel := by
        have positive := chunk_positive
        rw [List.length_drop]
        omega
      obtain ⟨bytes, ends⟩ := @ih fuel (remaining - (plain.drop offset).length) 0 (by omega)
        (Nat.zero_le _) (Nat.zero_le _) (fun _ => rfl) shorter finished
      rw [if_neg (Nat.not_lt.mpr long), after_bytes, bytes, usize_sub cut, List.take_of_length_le cut,
        List.drop_zero]
      exact ⟨rfl, ends⟩
  | fullRefused => cases finished
  | stop i =>
    obtain ⟨fuel, rfl⟩ : ∃ m, fuel = m + 1 := ⟨fuel - 1, by omega⟩
    have chunk : (0 : Nat) ≠ encryptedChunkSize := by decide
    by_cases nothing : remaining = 0
    · simp [intoStreamSizedLoop, Yielded.bytes, nothing]
    · simp [intoStreamSizedLoop, Yielded.bytes, nothing, chunk]
  | @short i stored plain some_left below opened =>
    obtain ⟨fuel, rfl⟩ : ∃ m, fuel = m + 1 := ⟨fuel - 1, by omega⟩
    have chunk : encryptedChunkSize = plainChunkSize + encryptionOverhead := rfl
    have width := decode_shrinks _ _ _ _ opened
    by_cases nothing : remaining = 0
    · subst nothing
      exact ⟨by simp [intoStreamSizedLoop, Yielded.bytes, Target.usize], by simp [intoStreamSizedLoop]⟩
    rw [List.flatten_cons, List.flatten_nil, List.append_nil] at within ⊢
    have found : aead.decrypt key nonce i (decide (stored.length < encryptedChunkSize))
        (stored.take encryptedChunkSize) = some plain := by
      rw [decide_eq_true below, List.take_of_length_le (Nat.le_of_lt below)]
      exact decode_decrypts opened
    rw [sized_loop_turn nothing some_left (by omega) found within (by omega) atZero]
    split
    · exact ⟨by simp [Yielded.bytes], rfl⟩
    · rename_i covered
      rw [List.take_of_length_le (Nat.le_of_not_lt covered)]
      exact ⟨by simp [Yielded.bytes], rfl⟩
  | shortRefused => cases finished

theorem chunked_position_exact (target : Target) {offset : Nat} (small : offset < 2 ^ 63) :
    ChunkedPosition.new target offset =
      .ok ⟨offset / plainChunkSize * encryptedChunkSize + nonceSize, offset % plainChunkSize,
        offset / plainChunkSize⟩ := by
  have split : 1000000 * (offset / plainChunkSize) + offset % plainChunkSize = offset :=
    Nat.div_add_mod offset plainChunkSize
  have limit : u64Limit = 2 * 2 ^ 63 := rfl
  have chunk : encryptedChunkSize = 1000016 := rfl
  have tag : encryptionOverhead = 16 := rfl
  have front : nonceSize = 19 := rfl
  unfold ChunkedPosition.new encryptedOffset
  generalize offset / plainChunkSize = number at *
  generalize offset % plainChunkSize = inside at *
  dsimp only
  rw [chunk, tag, front, mul64_exact target (by omega), ok_bind, add64_exact target (by omega), ok_bind,
    add64_exact target (by omega), ok_bind, mul64_exact target (by omega), ok_bind,
    add64_exact target (by omega), ok_bind, add64_exact target (by omega), ok_bind,
    add64_exact target (by omega), ok_bind, sub64_exact target (by omega), ok_bind]
  have left : offset + 16 * (number + 1) + 19 - (number * 1000016 + 19 + 16) = inside := by omega
  rw [left]
  rfl

theorem sized_stream_runs {start wanted : Nat} {stored rest : Bytes} {position : ChunkedPosition}
    (found : retrieveNonce stored = some (nonce, rest))
    (made : ChunkedPosition.new target start = .ok position)
    (reachable : position.beginningOfActiveChunk < 2 ^ 63) :
    intoStreamSized target aead key start wanted stored =
      intoStreamSizedLoop target aead key nonce start
        ((stored.drop position.beginningOfActiveChunk).length + 1) position wanted
        (stored.drop position.beginningOfActiveChunk) := by
  unfold intoStreamSized
  rw [found, made]
  exact if_pos reachable

theorem opened_bounded {i : Nat} {stored : Bytes} {plains : List Bytes} {ending : Ending}
    (run : Opens (decodeAt aead key nonce) encryptedChunkSize i stored plains ending)
    (low : i ≤ counterMax) : plains.flatten.length < plainChunkSize * (counterMax + 1 - i) := by
  have chunk : encryptedChunkSize = plainChunkSize + encryptionOverhead := rfl
  induction run with
  | @full i stored plain later ending long opened tail ih =>
    have allowed : i ≠ counterMax := by
      intro last
      simp [decodeAt, decryptNext, last] at opened
    have width := decode_shrinks _ _ _ _ opened
    have rest := ih (by omega)
    have next : counterMax + 1 - i = counterMax + 1 - (i + 1) + 1 := by omega
    rw [List.length_take, Nat.min_eq_left long] at width
    rw [List.flatten_cons, List.length_append, next, Nat.mul_succ]
    omega
  | fullRefused => exact Nat.mul_pos plain_positive (by omega)
  | stop => exact Nat.mul_pos plain_positive (by omega)
  | @short i stored plain some_left below opened =>
    have width := decode_shrinks _ _ _ _ opened
    have next : counterMax + 1 - i = counterMax - i + 1 := by omega
    rw [List.flatten_cons, List.flatten_nil, List.append_nil, next, Nat.mul_succ]
    omega
  | shortRefused => exact Nat.mul_pos plain_positive (by omega)

theorem sized_stream_opened {rest : Bytes} {plains : List Bytes} {start wanted : Nat}
    (run : Opens (decodeAt aead key nonce) encryptedChunkSize 0 rest plains .finished)
    (inside : start ≤ plains.flatten.length) :
    (intoStreamSized target aead key start wanted (nonce.1 ++ rest)).bytes =
        (plains.flatten.drop start).take (target.usize wanted) ∧
      (intoStreamSized target aead key start wanted (nonce.1 ++ rest)).ending = some .done := by
  have bounded : plains.flatten.length < plainChunkSize * (counterMax + 1) :=
    opened_bounded run (Nat.zero_le _)
  have split := Nat.div_add_mod start plainChunkSize
  have below := Nat.mod_lt start plain_positive
  have quotient := Nat.div_le_self start plainChunkSize
  have limit : plainChunkSize * (counterMax + 1) < 2 ^ 53 := by decide
  have beginning : start / plainChunkSize * encryptedChunkSize + nonceSize < 2 ^ 63 := by
    have chunk : encryptedChunkSize = plainChunkSize + 16 := rfl
    have front : nonceSize = 19 := rfl
    rw [chunk, front, Nat.mul_add, Nat.mul_comm (start / plainChunkSize)]
    omega
  obtain ⟨later, there, rest_of⟩ :=
    opens_from decode_shrinks plain_positive run (Nat.le_trans (Nat.mul_div_le _ _) inside)
  have order : start / plainChunkSize * encryptedChunkSize + nonceSize =
      nonce.1.length + encryptedChunkSize * (start / plainChunkSize) := by
    rw [nonce.2, Nat.mul_comm, Nat.add_comm]
  have stored : (nonce.1 ++ rest).drop (start / plainChunkSize * encryptedChunkSize + nonceSize) =
      rest.drop (encryptedChunkSize * (start / plainChunkSize)) := by
    rw [order, List.drop_append, List.drop_of_length_le (Nat.le_add_right _ _), Nat.add_sub_cancel_left,
      List.nil_append]
  have atZero : start = 0 → start % plainChunkSize = 0 := by
    intro zero
    rw [zero, Nat.zero_mod]
  have within : start % plainChunkSize ≤ later.flatten.length := by
    rw [rest_of, List.length_drop]
    omega
  have low : 0 + start / plainChunkSize ≤ counterMax := by
    rw [Nat.zero_add]
    exact Nat.le_of_lt_succ (Nat.div_lt_of_lt_mul (Nat.lt_of_le_of_lt inside bounded))
  have delivered := @sized_loop_opened target aead key nonce start _ wanted
    (start / plainChunkSize * encryptedChunkSize + nonceSize) _ _ _ _ there low
    (Nat.le_of_lt below) within atZero (Nat.lt_succ_self _)
  rw [rest_of, List.drop_drop, split, Nat.zero_add] at delivered
  rw [sized_stream_runs (retrieve_nonce_append _) (chunked_position_exact target (by omega)) beginning,
    stored]
  exact delivered

theorem sized_stream_delivers (undoes : Undoes aead) {p : Bytes} {start wanted : Nat}
    (counters : p.length / plainChunkSize ≤ counterMax) (inside : start ≤ p.length) :
    (intoStreamSized target aead key start wanted
        (nonce.1 ++ sealedFrom (encodeAt aead key nonce) plainChunkSize p
          (p.length / plainChunkSize) 0)).bytes = (p.drop start).take (target.usize wanted) ∧
      (intoStreamSized target aead key start wanted
        (nonce.1 ++ sealedFrom (encodeAt aead key nonce) plainChunkSize p
          (p.length / plainChunkSize) 0)).ending = some .done := by
  have undone : Undone (encodeAt aead key nonce) (decodeAt aead key nonce) plainChunkSize p :=
    undone_at counters fun i last _ _ => undoes key nonce i last _
  have run := opens_sealed encode_grows undone plain_positive overhead_positive (Nat.zero_add _)
  have together := pieces_flatten (p := p) plain_positive (Nat.zero_add (p.length / plainChunkSize))
  rw [Nat.mul_zero, List.drop_zero] at together
  rw [← together] at inside
  have delivered := @sized_stream_opened target aead key nonce _ _ start wanted run inside
  rwa [together] at delivered

end Encrypted
end VestibuleParts
