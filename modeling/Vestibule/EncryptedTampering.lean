import Mathlib.Data.List.Nodup
import Vestibule.EncryptedStorage

/-!
Arbitrary bytes put in place of a stored file, under an AEAD that decrypts only what was made.
The two sequential readers refuse to step past the 32-bit counter; the reader that starts in the
middle casts the number of the chunk to 32 bits.
-/
namespace VestibuleTampering
open VestibuleRust SealedChunks VestibuleStreamer VestibuleStorage

theorem chunked_position_new {target : Target} {offset : Nat} {position : ChunkedPosition}
    (made : ChunkedPosition.new target offset = .ok position) :
    position.activeChunkCounter = offset / plainChunkSize ∧
      position.offsetInActiveChunk = offset % plainChunkSize := by
  obtain ⟨chunks, madeChunks, made⟩ := bind_ok_iff.mp made
  obtain ⟨beginning, madeBeginning, made⟩ := bind_ok_iff.mp made
  obtain ⟨start, madeStart, made⟩ := bind_ok_iff.mp made
  obtain ⟨payload, madePayload, made⟩ := bind_ok_iff.mp made
  obtain ⟨inside, madeInside, made⟩ := bind_ok_iff.mp made
  obtain ⟨count, madeCount, madeStart⟩ := bind_ok_iff.mp madeStart
  obtain ⟨overhead, madeOverhead, madeStart⟩ := bind_ok_iff.mp madeStart
  obtain ⟨sum, madeSum, madeStart⟩ := bind_ok_iff.mp madeStart
  have hChunks := mul64_mod madeChunks
  have hBeginning := add64_mod madeBeginning
  have hCount := add64_mod madeCount
  have hOverhead := mul64_mod madeOverhead
  have hSum := add64_mod madeSum
  have hStart := add64_mod madeStart
  have hPayload := add64_mod madePayload
  have hInside := sub64_mod (by rw [hStart]; exact Nat.mod_lt _ (by decide)) madeInside
  rw [← Except.ok.inj made]
  refine ⟨rfl, ?_⟩
  have split := Nat.div_add_mod offset plainChunkSize
  have small := Nat.mod_lt offset plain_positive
  simp only [plainChunkSize, encryptedChunkSize, encryptionOverhead, nonceSize, u64Limit] at *
  omega

section Readers
variable {aead : StreamAead} {key : Key} {nonce : Nonce} {target : Target}

theorem drain_ok {start offset : Nat} {plaintext left : Bytes} (small : offset < plainChunkSize)
    (atZero : start = 0 → offset = 0) (run : drain target start offset plaintext = .ok left) :
    left = plaintext.drop offset ∧ offset ≤ plaintext.length := by
  have cast : target.usize offset = offset :=
    usize_small target (Nat.lt_trans small (by decide))
  unfold drain at run
  split at run
  · rename_i zero
    rw [atZero zero, ← Except.ok.inj run]
    exact ⟨rfl, Nat.zero_le _⟩
  · rw [cast] at run
    split at run
    · rename_i within
      exact ⟨(Except.ok.inj run).symm, within⟩
    · cases run

theorem take_prefix_of {α : Type} {plain whole : List α} (k : Nat) (inside : plain <+: whole) :
    plain.take k <+: whole :=
  (List.take_prefix k plain).trans inside

theorem drained_piece {p : Bytes} {i offset : Nat}
    (within : offset ≤ (piece plainChunkSize p i).length) :
    (piece plainChunkSize p i).drop offset ++ p.drop (plainChunkSize * (i + 1)) =
      p.drop (plainChunkSize * i + offset) := by
  rw [← List.drop_drop, ← piece_cons plainChunkSize p i, List.drop_append_of_le_length within]

/-- From a chunk below 2^32 on, whatever is stored, a sized stream yields the plaintext from its
    position on, cut somewhere. The counter stays below 2^32: the writer seals no chunk with a
    successor under the last one. -/
theorem sized_loop_faithful {p : Bytes} (counters : p.length / plainChunkSize ≤ counterMax)
    (ideal : IdealFor aead key nonce p) {start : Nat} {fuel remaining : Nat}
    {position : ChunkedPosition} {stored : Bytes} (low : position.activeChunkCounter < 2 ^ 32)
    (small : position.offsetInActiveChunk < plainChunkSize)
    (atZero : start = 0 → position.offsetInActiveChunk = 0) :
    (intoStreamSizedLoop target aead key nonce start fuel position remaining stored).bytes <+:
      p.drop (plainChunkSize * position.activeChunkCounter + position.offsetInActiveChunk) := by
  induction fuel generalizing position remaining stored with
  | zero => exact List.nil_prefix
  | succ fuel ih =>
    have nothing : ∀ ending, (Yielded.mk [] ending).bytes <+: p.drop (plainChunkSize *
        position.activeChunkCounter + position.offsetInActiveChunk) := fun _ => List.nil_prefix
    simp only [intoStreamSizedLoop, Nat.mod_eq_of_lt low]
    split
    · exact nothing _
    split
    · split
      · exact nothing _
      rename_i q opened
      obtain ⟨within, flag, _, same⟩ := (ideal _ _ _ _).mp opened
      have before : position.activeChunkCounter < p.length / plainChunkSize := by
        simp at flag; omega
      split
      · exact nothing _
      rename_i plain drained
      obtain ⟨left, bound⟩ := drain_ok small atZero drained
      subst same left
      have whole := drained_piece bound
      rw [← whole]
      split
      · rw [Yielded.bytes, List.flatten_singleton]
        exact take_prefix_of _ (List.prefix_append _ _)
      · rw [Yielded.bytes, Yielded.after, List.flatten_cons]
        refine (List.prefix_append_right_inj _).mpr ?_
        have restart : (if start = 0 then position.offsetInActiveChunk else 0) = 0 := by
          split
          · rename_i zero; exact atZero zero
          · rfl
        rw [restart]
        have limit : counterMax < 2 ^ 32 := by decide
        have next : position.activeChunkCounter + 1 < 2 ^ 32 := by omega
        have faithful := @ih (remaining - ((piece plainChunkSize p position.activeChunkCounter).drop
            position.offsetInActiveChunk).length)
          { position with
            activeChunkCounter := position.activeChunkCounter + 1, offsetInActiveChunk := 0 }
          (stored.drop encryptedChunkSize) next plain_positive fun _ => rfl
        exact faithful
    · split
      · exact nothing _
      split
      · exact nothing _
      rename_i q opened
      obtain ⟨_, _, _, same⟩ := (ideal _ _ _ _).mp opened
      split
      · exact nothing _
      rename_i plain drained
      obtain ⟨left, bound⟩ := drain_ok small atZero drained
      subst same left
      rw [← drained_piece bound]
      split
      · rw [Yielded.bytes, List.flatten_singleton]
        exact take_prefix_of _ (List.prefix_append _ _)
      · rw [Yielded.bytes, List.flatten_singleton]
        exact List.prefix_append _ _

theorem sized_loop_unknown (unknown : ∀ i last x, aead.decrypt key nonce i last x = none)
    {start fuel remaining : Nat} {position : ChunkedPosition} {stored : Bytes} :
    (intoStreamSizedLoop target aead key nonce start fuel position remaining stored).bytes = [] := by
  cases fuel with
  | zero => rfl
  | succ fuel =>
    simp only [intoStreamSizedLoop, unknown]
    split
    · rfl
    split
    · rfl
    split <;> rfl

theorem opens_unknown (unknown : ∀ i last x, aead.decrypt key nonce i last x = none)
    {size i : Nat} {stored : Bytes} {plains : List Bytes} {ending : Ending}
    (run : Opens (decodeAt aead key nonce) size i stored plains ending) : plains = [] := by
  have closed : ∀ i last x q, decodeAt aead key nonce i last x ≠ some q := fun i last x q opened => by
    simpa [unknown] using decode_decrypts opened
  cases run with
  | full _ opened => exact absurd opened (closed _ _ _ _)
  | fullRefused => rfl
  | stop => rfl
  | short _ _ opened => exact absurd opened (closed _ _ _ _)
  | shortRefused => rfl

/-- The chunk at the front of `stored` is the one of `p` at the number cast to 32 bits, and it goes
    beyond the offset wanted in it. -/
def BeginsWithin (aead : StreamAead) (key : Key) (nonce : Nonce) (p : Bytes) (number offset : Nat)
    (stored : Bytes) : Prop :=
  number % 2 ^ 32 ≤ p.length / plainChunkSize ∧
    stored.take encryptedChunkSize = aead.encrypt key nonce (number % 2 ^ 32)
      (decide (number % 2 ^ 32 = p.length / plainChunkSize))
      (piece plainChunkSize p (number % 2 ^ 32)) ∧
    offset < (piece plainChunkSize p (number % 2 ^ 32)).length

theorem sealed_width {p : Bytes} {i : Nat} (within : i ≤ p.length / plainChunkSize) :
    (aead.encrypt key nonce i (decide (i = p.length / plainChunkSize))
      (piece plainChunkSize p i)).length = encryptedChunkSize ↔ i ≠ p.length / plainChunkSize := by
  rw [aead.encrypt_length]
  by_cases last : i = p.length / plainChunkSize
  · subst last
    have small := Nat.mod_lt p.length plain_positive
    have width := piece_length_last (p := p) plain_positive
    simp only [encryptedChunkSize, ne_eq, not_true_eq_false, iff_false]
    omega
  · have width := piece_length_full (p := p) (show i < p.length / plainChunkSize by omega)
    simp [encryptedChunkSize, width, last]

theorem begins_opened {p : Bytes} (ideal : IdealFor aead key nonce p) {number offset : Nat}
    {stored : Bytes} (begins : BeginsWithin aead key nonce p number offset stored) :
    aead.decrypt key nonce (number % 2 ^ 32)
      (decide ((stored.take encryptedChunkSize).length ≠ encryptedChunkSize))
      (stored.take encryptedChunkSize) = some (piece plainChunkSize p (number % 2 ^ 32)) := by
  obtain ⟨within, same, _⟩ := begins
  have flag : decide ((stored.take encryptedChunkSize).length ≠ encryptedChunkSize) =
      decide (number % 2 ^ 32 = p.length / plainChunkSize) :=
    decide_eq_decide.mpr (by rw [same, ne_eq, sealed_width within, not_not])
  rw [flag]
  exact (ideal _ _ _ _).mpr ⟨within, rfl, same, rfl⟩

theorem opened_begins {p : Bytes} (ideal : IdealFor aead key nonce p) {number offset : Nat}
    {last : Bool} {stored q : Bytes} (beyond : offset < q.length)
    (opened : aead.decrypt key nonce (number % 2 ^ 32) last (stored.take encryptedChunkSize) =
      some q) : BeginsWithin aead key nonce p number offset stored := by
  obtain ⟨within, flag, same, plain⟩ := (ideal _ _ _ _).mp opened
  subst plain flag
  exact ⟨within, same, beyond⟩

theorem wanted_part {plain : Bytes} {wanted : Nat} {later : Yielded} (nonempty : plain ≠ []) :
    (if wanted < plain.length then (⟨[plain.take wanted], some .done⟩ : Yielded)
      else .after plain later).bytes ≠ [] ↔ wanted ≠ 0 := by
  have positive := List.length_pos_iff.mpr nonempty
  split
  · simp [Yielded.bytes, nonempty]
  · simp only [Yielded.bytes, Yielded.after, List.flatten_cons, ne_eq, List.append_eq_nil_iff,
      nonempty, false_and, not_false_eq_true, true_iff]
    omega

theorem sized_loop_begins {p : Bytes} (ideal : IdealFor aead key nonce p) {start : Nat}
    {fuel remaining : Nat} {position : ChunkedPosition} {stored : Bytes} (inside : start ≠ 0)
    (small : position.offsetInActiveChunk < plainChunkSize) :
    (intoStreamSizedLoop target aead key nonce start (fuel + 1) position remaining stored).bytes ≠ []
      ↔ target.usize remaining ≠ 0 ∧ BeginsWithin aead key nonce p position.activeChunkCounter
        position.offsetInActiveChunk stored := by
  have cast : target.usize position.offsetInActiveChunk = position.offsetInActiveChunk :=
    usize_small target (Nat.lt_trans small (by decide))
  by_cases unwanted : remaining = 0
  · simp [intoStreamSizedLoop, unwanted, Yielded.bytes, Target.usize]
  by_cases begins : BeginsWithin aead key nonce p position.activeChunkCounter
      position.offsetInActiveChunk stored
  · have opened := begins_opened ideal begins
    have beyond := begins.2.2
    have nonempty : (piece plainChunkSize p (position.activeChunkCounter % 2 ^ 32)).drop
        position.offsetInActiveChunk ≠ [] := by
      rw [ne_eq, List.drop_eq_nil_iff]; omega
    have drained : drain target start position.offsetInActiveChunk
        (piece plainChunkSize p (position.activeChunkCounter % 2 ^ 32)) =
          .ok ((piece plainChunkSize p (position.activeChunkCounter % 2 ^ 32)).drop
            position.offsetInActiveChunk) := by
      rw [drain, if_neg inside, cast, if_pos (Nat.le_of_lt beyond)]
    generalize piece plainChunkSize p (position.activeChunkCounter % 2 ^ 32) = plain at *
    simp only [intoStreamSizedLoop, unwanted, ↓reduceIte, begins, and_true]
    by_cases full : (stored.take encryptedChunkSize).length = encryptedChunkSize
    · rw [decide_eq_false (not_not.mpr full)] at opened
      simp only [full, ↓reduceIte, opened, drained]
      exact wanted_part nonempty
    · rw [decide_eq_true full] at opened
      have tagged := aead.decrypt_length _ _ _ _ _ _ opened
      have some_left : (stored.take encryptedChunkSize).length ≠ 0 := by
        rw [tagged, encryptionOverhead]; omega
      simp only [full, some_left, ↓reduceIte, opened, drained]
      exact @wanted_part _ _ ⟨[], some .done⟩ nonempty
  · simp only [intoStreamSizedLoop, unwanted, ↓reduceIte, begins, and_false, iff_false, not_not]
    have refused : ∀ q last, aead.decrypt key nonce (position.activeChunkCounter % 2 ^ 32) last
        (stored.take encryptedChunkSize) = some q → q.length ≤ position.offsetInActiveChunk :=
      fun q last opened => Nat.le_of_not_lt fun beyond => begins (opened_begins ideal beyond opened)
    by_cases full : (stored.take encryptedChunkSize).length = encryptedChunkSize
    · simp only [full, ↓reduceIte]
      split
      · rfl
      · rename_i q opened
        have width := aead.decrypt_length _ _ _ _ _ _ opened
        have none_beyond := refused q _ opened
        rw [full, encryptedChunkSize] at width
        omega
    · simp only [full, ↓reduceIte]
      split
      · rfl
      split
      · rfl
      rename_i q opened
      have none_beyond := refused q _ opened
      split
      · rfl
      rename_i plain drained
      rw [drain, if_neg inside, cast] at drained
      split at drained
      · rw [← Except.ok.inj drained, List.drop_of_length_le none_beyond]
        simp [Yielded.bytes]
      · cases drained

end Readers

/-- An ideal AEAD after the files were written under one key: what decrypts is a chunk of one of
    them, with its nonce, its counter and its last flag. -/
def Ideal (aead : StreamAead) (key : Key) (files : List (Nonce × Bytes)) : Prop :=
  ∀ nonce i last x q, aead.decrypt key nonce i last x = some q ↔
    ∃ p, (nonce, p) ∈ files ∧ i ≤ p.length / plainChunkSize ∧
      last = decide (i = p.length / plainChunkSize) ∧
      x = aead.encrypt key nonce i last (piece plainChunkSize p i) ∧ q = piece plainChunkSize p i

/-- The files a writer has left under this key, each plaintext under its nonce. -/
structure WrittenFiles (aead : StreamAead) (key : Key) (files : List (Nonce × Bytes)) : Prop where
  distinct : (files.map Prod.fst).Nodup
  written : ∀ nonce p, (nonce, p) ∈ files → ∃ body count, Body.bytes body = some p ∧
    (copyFrom aead key nonce body).result = some (.ok count)

/-- Every byte is the one at its offset in the file whose nonce the stored bytes start with. -/
def OffsetsKept (files : List (Nonce × Bytes)) (stored : Bytes) (start : Nat) (out : Bytes) : Prop :=
  ∀ (j : Nat) (b : UInt8), out[j]? = some b →
    ∃ nonce rest p, retrieveNonce stored = some (nonce, rest) ∧ (nonce, p) ∈ files ∧
      p[start + j]? = some b

def NotRearranged (target : Target) (aead : StreamAead) (key : Key) (files : List (Nonce × Bytes))
    (stored : Bytes) (start maxLength : Nat) : Prop :=
  OffsetsKept files stored 0 (copyTo aead key stored).bytes ∧
    OffsetsKept files stored 0 (intoStream aead key stored).bytes ∧
    OffsetsKept files stored start
      (intoStreamSized target aead key start maxLength stored).bytes

/-- The chunk a sized stream begins with is, byte for byte, a chunk of the file of the nonce at
    hand, whose number agrees with the wanted one only modulo 2^32, and it goes beyond the wanted
    offset. -/
def StrayChunk (target : Target) (aead : StreamAead) (key : Key) (files : List (Nonce × Bytes))
    (stored : Bytes) (start : Nat) : Prop :=
  ∃ nonce rest position p, retrieveNonce stored = some (nonce, rest) ∧
    ChunkedPosition.new target start = .ok position ∧
    position.beginningOfActiveChunk < 2 ^ 63 ∧ (nonce, p) ∈ files ∧
    BeginsWithin aead key nonce p (start / plainChunkSize) (start % plainChunkSize)
      (stored.drop position.beginningOfActiveChunk)

section Rearranged
variable {target : Target} {aead : StreamAead} {key : Key} {files : List (Nonce × Bytes)}
variable {nonce : Nonce}

theorem file_of_nonce (distinct : (files.map Prod.fst).Nodup) {p q : Bytes}
    (one : (nonce, p) ∈ files) (other : (nonce, q) ∈ files) : p = q :=
  congrArg Prod.snd (List.inj_on_of_nodup_map distinct one other rfl)

theorem file_counters (written : WrittenFiles aead key files) {p : Bytes}
    (member : (nonce, p) ∈ files) : p.length / plainChunkSize ≤ counterMax := by
  obtain ⟨body, count, whole, success⟩ := written.written nonce p member
  exact copy_from_counters whole success

theorem ideal_for_member (ideal : Ideal aead key files) (written : WrittenFiles aead key files)
    {p : Bytes} (member : (nonce, p) ∈ files) : IdealFor aead key nonce p := by
  intro i last x q
  rw [ideal]
  constructor
  · rintro ⟨other, found, made⟩
    rwa [file_of_nonce written.distinct member found]
  · exact fun made => ⟨p, member, made⟩

theorem ideal_unknown (ideal : Ideal aead key files) (unknown : ∀ p, (nonce, p) ∉ files)
    (i : Nat) (last : Bool) (x : Bytes) : aead.decrypt key nonce i last x = none := by
  cases opened : aead.decrypt key nonce i last x with
  | none => rfl
  | some q =>
    obtain ⟨p, member, _⟩ := (ideal _ _ _ _ _).mp opened
    exact absurd member (unknown p)

theorem offsets_kept_nothing (stored : Bytes) (start : Nat) : OffsetsKept files stored start [] :=
  fun j b found => by simp at found

theorem offsets_kept_inside {stored rest p out : Bytes} {start : Nat}
    (found : retrieveNonce stored = some (nonce, rest)) (member : (nonce, p) ∈ files)
    (inside : out <+: p.drop start) : OffsetsKept files stored start out := by
  intro j b here
  obtain ⟨tail, whole⟩ := inside
  refine ⟨nonce, rest, p, found, member, ?_⟩
  rw [← List.getElem?_drop, ← whole, List.getElem?_append_left (List.getElem?_eq_some_iff.mp here).1]
  exact here

theorem sequential_offsets_kept (ideal : Ideal aead key files)
    (written : WrittenFiles aead key files) (stored : Bytes) :
    OffsetsKept files stored 0 (copyTo aead key stored).bytes ∧
      OffsetsKept files stored 0 (intoStream aead key stored).bytes := by
  cases found : retrieveNonce stored with
  | none => simp only [copyTo, intoStream, found]; exact ⟨offsets_kept_nothing _ _, offsets_kept_nothing _ _⟩
  | some parts =>
    obtain ⟨nonce, rest⟩ := parts
    obtain ⟨plains, ending, run, stream, file⟩ := readers_open aead key nonce rest
    rw [← retrieve_nonce_some found] at stream file
    rw [stream, file]
    by_cases known : ∃ p, (nonce, p) ∈ files
    · obtain ⟨p, member⟩ := known
      have faithful := opens_faithful (ideal_genuine (ideal_for_member ideal written member)) run
      exact ⟨offsets_kept_inside found member faithful, offsets_kept_inside found member faithful⟩
    · have nothing := opens_unknown (ideal_unknown ideal (not_exists.mp known)) run
      subst nothing
      exact ⟨offsets_kept_nothing _ _, offsets_kept_nothing _ _⟩

theorem sized_offsets_kept (ideal : Ideal aead key files) (written : WrittenFiles aead key files)
    {stored : Bytes} {start : Nat} (low : start < 2 ^ 32 * plainChunkSize) (maxLength : Nat) :
    OffsetsKept files stored start (intoStreamSized target aead key start maxLength stored).bytes := by
  unfold intoStreamSized
  generalize found : retrieveNonce stored = parts
  generalize made : ChunkedPosition.new target start = outcome
  rcases parts with _ | ⟨nonce, rest⟩
  · exact offsets_kept_nothing _ _
  rcases outcome with panic | position
  · exact offsets_kept_nothing _ _
  obtain ⟨counter, offset⟩ := chunked_position_new made
  have few : start / plainChunkSize < 2 ^ 32 := (Nat.div_lt_iff_lt_mul plain_positive).mpr low
  have small := Nat.mod_lt start plain_positive
  rw [← counter] at few
  rw [← offset] at small
  dsimp only
  split
  · by_cases known : ∃ p, (nonce, p) ∈ files
    · obtain ⟨p, member⟩ := known
      have here : start = plainChunkSize * position.activeChunkCounter +
          position.offsetInActiveChunk := by rw [counter, offset, Nat.div_add_mod]
      refine offsets_kept_inside found member ?_
      conv => rhs; rw [here]
      exact sized_loop_faithful (file_counters written member)
        (ideal_for_member ideal written member) few small
        (fun zero => by rw [offset, zero, Nat.zero_mod])
    · rw [sized_loop_unknown (ideal_unknown ideal (not_exists.mp known))]
      exact offsets_kept_nothing _ _
  · exact offsets_kept_nothing _ _

theorem offsets_kept_high (written : WrittenFiles aead key files) {stored out : Bytes} {start : Nat}
    (high : 2 ^ 32 * plainChunkSize ≤ start) : OffsetsKept files stored start out ↔ out = [] := by
  constructor
  · intro kept
    cases out with
    | nil => rfl
    | cons b tail =>
      obtain ⟨nonce, rest, p, _, member, here⟩ := kept 0 b rfl
      have counters := file_counters written member
      have within := (List.getElem?_eq_some_iff.mp here).1
      have few := (Nat.div_lt_iff_lt_mul plain_positive).mp
        (show p.length / plainChunkSize < 2 ^ 32 by rw [counterMax] at counters; omega)
      omega
  · intro nothing
    rw [nothing]
    exact offsets_kept_nothing _ _

/-- There the sized stream yields something exactly when something is wanted and a stray chunk is
    in front of it. -/
theorem sized_stream_strays (target : Target) (ideal : Ideal aead key files)
    (written : WrittenFiles aead key files) (stored : Bytes) {start : Nat} (inside : start ≠ 0)
    (maxLength : Nat) :
    (intoStreamSized target aead key start maxLength stored).bytes ≠ [] ↔
      target.usize maxLength ≠ 0 ∧ StrayChunk target aead key files stored start := by
  unfold intoStreamSized StrayChunk
  generalize found : retrieveNonce stored = parts
  generalize made : ChunkedPosition.new target start = outcome
  rcases parts with _ | ⟨nonce, rest⟩
  · simp [Yielded.bytes]
  rcases outcome with panic | position
  · simp [Yielded.bytes]
  obtain ⟨counter, offset⟩ := chunked_position_new made
  have small := Nat.mod_lt start plain_positive
  rw [← offset] at small
  simp only [Option.some.injEq, Prod.mk.injEq, Except.ok.injEq, ← counter, ← offset]
  split
  · rename_i seekable
    by_cases known : ∃ p, (nonce, p) ∈ files
    · obtain ⟨p, member⟩ := known
      rw [sized_loop_begins (ideal_for_member ideal written member) inside small]
      refine and_congr_right fun _ => ⟨fun begins => ?_, ?_⟩
      · exact ⟨nonce, rest, position, p, ⟨rfl, rfl⟩, rfl, seekable, member, begins⟩
      · rintro ⟨_, _, _, q, ⟨rfl, _⟩, rfl, _, other, begins⟩
        rwa [file_of_nonce written.distinct member other]
    · rw [sized_loop_unknown (ideal_unknown ideal (not_exists.mp known))]
      refine iff_of_false (fun some_left => some_left rfl) ?_
      rintro ⟨_, _, _, _, q, ⟨rfl, _⟩, _, _, other, _⟩
      exact known ⟨q, other⟩
  · rename_i far
    refine iff_of_false (fun some_left => some_left rfl) ?_
    rintro ⟨_, _, _, _, _, _, rfl, seekable, _⟩
    exact far seekable

/-- Arbitrary bytes in storage: nothing is yielded out of place exactly when the range starts
    below chunk 2^32, nothing is wanted of it, or no stray chunk is in front of it. -/
theorem content_not_rearranged_iff (ideal : Ideal aead key files)
    (written : WrittenFiles aead key files) (stored : Bytes) (start maxLength : Nat) :
    NotRearranged target aead key files stored start maxLength ↔
      start < 2 ^ 32 * plainChunkSize ∨ target.usize maxLength = 0 ∨
        ¬ StrayChunk target aead key files stored start := by
  obtain ⟨copied, streamed⟩ := sequential_offsets_kept ideal written stored
  have sized : NotRearranged target aead key files stored start maxLength ↔
      OffsetsKept files stored start
        (intoStreamSized target aead key start maxLength stored).bytes :=
    ⟨fun kept => kept.2.2, fun kept => ⟨copied, streamed, kept⟩⟩
  rw [sized]
  by_cases low : start < 2 ^ 32 * plainChunkSize
  · exact iff_of_true (sized_offsets_kept ideal written low maxLength) (.inl low)
  · have high := Nat.le_of_not_lt low
    have inside : start ≠ 0 := by
      have positive := plain_positive
      omega
    have strays := sized_stream_strays target ideal written stored inside maxLength
    rw [offsets_kept_high written high, ← not_iff_not, ← ne_eq, strays]
    simp only [low, false_or, not_or, not_not, ne_eq]

end Rearranged

section Samples

theorem table_ideal_files {files : List (Nonce × Bytes)} (key : Key)
    (distinct : (files.map Prod.fst).Nodup) : Ideal (tableAead files) key files := by
  intro nonce i last x q
  cases found : files.find? (·.1 = nonce) with
  | none =>
    have missing := List.find?_eq_none.mp found
    simp only [tableAead, found, reduceCtorEq, false_iff]
    rintro ⟨p, member, _⟩
    exact missing _ member (by simp)
  | some entry =>
    obtain ⟨nonce', p⟩ := entry
    have same : nonce' = nonce := by simpa using List.find?_some found
    subst same
    have member := List.mem_of_find?_eq_some found
    rw [table_ideal files found]
    constructor
    · exact fun made => ⟨p, member, made⟩
    · rintro ⟨other, also, made⟩
      rwa [file_of_nonce distinct member also]

theorem sample_ideal : Ideal (tableAead sampleFiles) sampleKey sampleFiles :=
  table_ideal_files sampleKey (by decide)

theorem sample_written : WrittenFiles (tableAead sampleFiles) sampleKey sampleFiles where
  distinct := by decide
  written nonce p member := by
    obtain ⟨rfl, rfl⟩ := Prod.mk.inj (List.mem_singleton.mp member)
    exact ⟨[.ok [1, 2, 3]], 3, rfl, by decide⟩

def wrappedFile : Bytes :=
  (sampleNonce.1 ++ List.replicate (2 ^ 32 * encryptedChunkSize) 0) ++ ([1, 2, 3] ++ sampleTag 0 true)

theorem wrapped_chunk :
    wrappedFile.drop (2 ^ 32 * encryptedChunkSize + nonceSize) = [1, 2, 3] ++ sampleTag 0 true := by
  apply List.drop_left'
  rw [List.length_append, List.length_replicate, sampleNonce.2, Nat.add_comm]

end Samples

theorem stored_upload_not_rearranged :
    NotRearranged ⟨true, true⟩ (tableAead sampleFiles) sampleKey sampleFiles sampleUpload.bytes 1 2 ↔
      1 < 2 ^ 32 * plainChunkSize ∨ Target.usize ⟨true, true⟩ 2 = 0 ∨
        ¬ StrayChunk ⟨true, true⟩ (tableAead sampleFiles) sampleKey sampleFiles
          sampleUpload.bytes 1 :=
  content_not_rearranged_iff sample_ideal sample_written sampleUpload.bytes 1 2

/-- A range of three bytes at offset 2^32 * 1000000 of a file whose nonce belongs to an upload of
    three bytes: the stream yields these three bytes. -/
theorem chunk_number_wraps :
    Ideal (tableAead sampleFiles) sampleKey sampleFiles ∧
      WrittenFiles (tableAead sampleFiles) sampleKey sampleFiles ∧
      ¬ NotRearranged ⟨true, true⟩ (tableAead sampleFiles) sampleKey sampleFiles wrappedFile
        (2 ^ 32 * plainChunkSize) 3 := by
  refine ⟨sample_ideal, sample_written, ?_⟩
  rintro ⟨_, _, kept⟩
  rw [offsets_kept_high sample_written (Nat.le_refl _)] at kept
  refine (sized_stream_strays _ sample_ideal sample_written _ (by decide) 3).mpr ⟨by decide, ?_⟩ kept
  have found := @retrieve_nonce_append sampleNonce
    (List.replicate (2 ^ 32 * encryptedChunkSize) 0 ++ ([1, 2, 3] ++ sampleTag 0 true))
  rw [← List.append_assoc] at found
  refine ⟨sampleNonce, _, ⟨2 ^ 32 * encryptedChunkSize + nonceSize, 0, 2 ^ 32⟩, [1, 2, 3], found,
    by decide, by decide, List.mem_singleton.mpr rfl, ?_⟩
  rw [wrapped_chunk]
  exact ⟨by decide, by decide, by decide⟩

end VestibuleTampering
