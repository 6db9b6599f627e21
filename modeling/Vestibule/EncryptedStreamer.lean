import Vestibule.RustBasics
import Vestibule.SealedChunks

/-!
`davs/encrypted_streamer.rs`. A stored file is a nonce followed by the ciphertexts of the chunks
of the plaintext. The AEAD and its STREAM construction come from outside and are a parameter.
-/
namespace VestibuleStreamer
open VestibuleRust SealedChunks

def plainChunkSize : Nat := 1000000
def encryptionOverhead : Nat := 16
def encryptedChunkSize : Nat := plainChunkSize + encryptionOverhead
def nonceSize : Nat := 19

/-- The last value of the 32-bit counter. `encrypt_next` and `decrypt_next` refuse it, so that a
    last chunk can still be sealed. -/
def counterMax : Nat := 2 ^ 32 - 1

abbrev Key := Vector UInt8 32
abbrev Nonce := { bytes : Bytes // bytes.length = nonceSize }

/-- XChaCha20Poly1305 under STREAM BE32: key, nonce, counter, last flag, text. -/
structure StreamAead where
  encrypt : Key → Nonce → Nat → Bool → Bytes → Bytes
  decrypt : Key → Nonce → Nat → Bool → Bytes → Option Bytes
  encrypt_length : ∀ key nonce i last p,
    (encrypt key nonce i last p).length = p.length + encryptionOverhead
  decrypt_length : ∀ key nonce i last c p, decrypt key nonce i last c = some p →
    c.length = p.length + encryptionOverhead

inductive IoError where
  | aead (context : String)
  | unexpectedEof
  | invalidSeek
  | upload (message : String)
  deriving DecidableEq, Repr

section Streams
variable (aead : StreamAead) (key : Key) (nonce : Nonce)

/-- `EncryptorBE32` and `DecryptorBE32`, with their position passed along. -/
def encryptNext (position : Nat) (plaintext : Bytes) : Option Bytes :=
  if position = counterMax then none else some (aead.encrypt key nonce position false plaintext)

def encryptLast (position : Nat) (plaintext : Bytes) : Bytes :=
  aead.encrypt key nonce position true plaintext

def decryptNext (position : Nat) (ciphertext : Bytes) : Option Bytes :=
  if position = counterMax then none else aead.decrypt key nonce position false ciphertext

def decryptLast (position : Nat) (ciphertext : Bytes) : Option Bytes :=
  aead.decrypt key nonce position true ciphertext

end Streams

/-- An upload body: what each poll of the stream delivers, bytes or an error. -/
abbrev Body := List (Except IoError Bytes)

def Body.bytes : Body → Option Bytes
  | [] => some []
  | .ok b :: rest => (Body.bytes rest).map (b ++ ·)
  | .error _ :: _ => none

def Body.size : Body → Nat
  | [] => 0
  | .ok b :: rest => b.length + Body.size rest
  | .error _ :: rest => Body.size rest

/-- `take(limit)` and `read_to_end`: the bytes read and what is left of the body. -/
def readToEnd : Nat → Body → Except IoError (Bytes × Body)
  | _, [] => .ok ([], [])
  | limit, .error e :: rest => if limit = 0 then .ok ([], .error e :: rest) else .error e
  | limit, .ok b :: rest =>
    if b.length < limit then
      match readToEnd (limit - b.length) rest with
      | .error e => .error e
      | .ok (more, left) => .ok (b ++ more, left)
    else .ok (b.take limit, .ok (b.drop limit) :: rest)

/-- What a writing loop leaves: the bytes written, and its result unless its fuel ran out. -/
structure Written where
  bytes : Bytes
  result : Option (Except IoError Nat)
  deriving DecidableEq, Repr

def Written.after (bytes : Bytes) (count : Nat) (later : Written) : Written :=
  ⟨bytes ++ later.bytes, later.result.map fun r => r.map (count + ·)⟩

def copyFromLoop (aead : StreamAead) (key : Key) (nonce : Nonce) : Nat → Nat → Body → Written
  | 0, _, _ => ⟨[], none⟩
  | fuel + 1, position, body =>
    match readToEnd plainChunkSize body with
    | .error e => ⟨[], some (.error e)⟩
    | .ok (buffer, rest) =>
      if buffer.length = plainChunkSize then
        match encryptNext aead key nonce position buffer with
        | none => ⟨[], some (.error (.aead "error encrypting plaintext"))⟩
        | some ciphertext =>
          .after ciphertext buffer.length (copyFromLoop aead key nonce fuel (position + 1) rest)
      else ⟨encryptLast aead key nonce position buffer, some (.ok buffer.length)⟩

/-- `copy_from`, for the nonce the random generator gave. -/
def copyFrom (aead : StreamAead) (key : Key) (nonce : Nonce) (body : Body) : Written :=
  let run := copyFromLoop aead key nonce (body.size + 1) 0 body
  ⟨nonce.1 ++ run.bytes, run.result⟩

def retrieveNonce (stored : Bytes) : Option (Nonce × Bytes) :=
  if enough : nonceSize ≤ stored.length then
    some (⟨stored.take nonceSize, by simp [enough]⟩, stored.drop nonceSize)
  else none

def copyToLoop (aead : StreamAead) (key : Key) (nonce : Nonce) : Nat → Nat → Bytes → Written
  | 0, _, _ => ⟨[], none⟩
  | fuel + 1, position, stored =>
    let buffer := stored.take encryptedChunkSize
    if buffer.length = encryptedChunkSize then
      match decryptNext aead key nonce position buffer with
      | none => ⟨[], some (.error (.aead "error decrypting ciphertext"))⟩
      | some plaintext =>
        .after plaintext buffer.length
          (copyToLoop aead key nonce fuel (position + 1) (stored.drop encryptedChunkSize))
    else if buffer.length = 0 then ⟨[], some (.ok 0)⟩
    else
      match decryptLast aead key nonce position buffer with
      | none => ⟨[], some (.error (.aead "error decrypting ciphertext"))⟩
      | some plaintext => ⟨plaintext, some (.ok buffer.length)⟩

/-- `copy_to`. The count is the one of the code: encrypted bytes, without the nonce. -/
def copyTo (aead : StreamAead) (key : Key) (stored : Bytes) : Written :=
  match retrieveNonce stored with
  | none => ⟨[], some (.error .unexpectedEof)⟩
  | some (nonce, rest) => copyToLoop aead key nonce (rest.length + 1) 0 rest

inductive StreamEnd where
  | done
  | error (e : IoError)
  | panic (p : Panic)
  deriving DecidableEq, Repr

/-- What a stream yields before it ends, and how it ends unless the fuel ran out. -/
structure Yielded where
  chunks : List Bytes
  ending : Option StreamEnd
  deriving DecidableEq, Repr

def Yielded.bytes (y : Yielded) : Bytes := y.chunks.flatten

def Yielded.after (chunk : Bytes) (later : Yielded) : Yielded :=
  ⟨chunk :: later.chunks, later.ending⟩

def intoStreamLoop (aead : StreamAead) (key : Key) (nonce : Nonce) : Nat → Nat → Bytes → Yielded
  | 0, _, _ => ⟨[], none⟩
  | fuel + 1, position, stored =>
    let buffer := stored.take encryptedChunkSize
    if buffer.length = encryptedChunkSize then
      match decryptNext aead key nonce position buffer with
      | none => ⟨[], some (.error (.aead "error decrypting plaintext"))⟩
      | some plaintext =>
        .after plaintext
          (intoStreamLoop aead key nonce fuel (position + 1) (stored.drop encryptedChunkSize))
    else if buffer.length = 0 then ⟨[], some .done⟩
    else
      match decryptLast aead key nonce position buffer with
      | none => ⟨[], some (.error (.aead "error decrypting plaintext"))⟩
      | some plaintext => ⟨[plaintext], some .done⟩

def intoStream (aead : StreamAead) (key : Key) (stored : Bytes) : Yielded :=
  match retrieveNonce stored with
  | none => ⟨[], some (.error .unexpectedEof)⟩
  | some (nonce, rest) => intoStreamLoop aead key nonce (rest.length + 1) 0 rest

/-- The block that counts the chunks in `decrypted_size`. -/
def numberOfChunks (target : Target) (encSizeWithoutNonce : Nat) : Except Panic Nat :=
  let d := encSizeWithoutNonce / encryptedChunkSize
  let r := encSizeWithoutNonce % encryptedChunkSize
  if 0 < r then target.add64 d 1 else .ok d

def decryptedSize (target : Target) (encSize : Nat) : Except Panic Nat := do
  let encSizeWithoutNonce ← target.sub64 encSize nonceSize
  let numberOfChunks ← numberOfChunks target encSizeWithoutNonce
  let overhead ← target.mul64 encryptionOverhead numberOfChunks
  let withoutOverhead ← target.sub64 encSize overhead
  target.sub64 withoutOverhead nonceSize

def encryptedOffset (target : Target) (decOffset : Nat) : Except Panic Nat := do
  let numberOfChunks ← target.add64 (decOffset / plainChunkSize) 1
  let overhead ← target.mul64 encryptionOverhead numberOfChunks
  let sum ← target.add64 decOffset overhead
  target.add64 sum nonceSize

structure ChunkedPosition where
  beginningOfActiveChunk : Nat
  offsetInActiveChunk : Nat
  activeChunkCounter : Nat
  deriving DecidableEq, Repr

def ChunkedPosition.new (target : Target) (plainOffset : Nat) : Except Panic ChunkedPosition := do
  let activeChunkCounter := plainOffset / plainChunkSize
  let chunks ← target.mul64 activeChunkCounter encryptedChunkSize
  let beginningOfActiveChunk ← target.add64 chunks nonceSize
  let start ← encryptedOffset target plainOffset
  let payload ← target.add64 beginningOfActiveChunk encryptionOverhead
  let offsetInActiveChunk ← target.sub64 start payload
  return ⟨beginningOfActiveChunk, offsetInActiveChunk, activeChunkCounter⟩

/-- `plaintext.drain(0..offset as usize)`, made only when the stream does not start at 0. -/
def drain (target : Target) (start offset : Nat) (plaintext : Bytes) : Except Panic Bytes :=
  if start = 0 then .ok plaintext
  else if target.usize offset ≤ plaintext.length then .ok (plaintext.drop (target.usize offset))
  else .error .outOfRange

def intoStreamSizedLoop (target : Target) (aead : StreamAead) (key : Key) (nonce : Nonce)
    (start : Nat) : Nat → ChunkedPosition → Nat → Bytes → Yielded
  | 0, _, _, _ => ⟨[], none⟩
  | fuel + 1, position, remaining, stored =>
    if remaining = 0 then ⟨[], some .done⟩
    else
      let buffer := stored.take encryptedChunkSize
      -- `active_chunk_counter as u32`
      let counter := position.activeChunkCounter % 2 ^ 32
      if buffer.length = encryptedChunkSize then
        match aead.decrypt key nonce counter false buffer with
        | none => ⟨[], some (.error (.aead "error decrypting ciphertext"))⟩
        | some plaintext =>
          match drain target start position.offsetInActiveChunk plaintext with
          | .error p => ⟨[], some (.panic p)⟩
          | .ok plaintext =>
            if target.usize remaining < plaintext.length then
              ⟨[plaintext.take (target.usize remaining)], some .done⟩
            else
              .after plaintext (intoStreamSizedLoop target aead key nonce start fuel
                { position with
                  activeChunkCounter := position.activeChunkCounter + 1
                  offsetInActiveChunk :=
                    if start = 0 then position.offsetInActiveChunk else 0 }
                (remaining - plaintext.length) (stored.drop encryptedChunkSize))
      else if buffer.length = 0 then ⟨[], some .done⟩
      else
        match aead.decrypt key nonce counter true buffer with
        | none => ⟨[], some (.error (.aead "error decrypting ciphertext"))⟩
        | some plaintext =>
          match drain target start position.offsetInActiveChunk plaintext with
          | .error p => ⟨[], some (.panic p)⟩
          | .ok plaintext =>
            if target.usize remaining < plaintext.length then
              ⟨[plaintext.take (target.usize remaining)], some .done⟩
            else ⟨[plaintext], some .done⟩

/-- `into_stream_sized`. The offset of a seek is a signed 64-bit number for the system. -/
def intoStreamSized (target : Target) (aead : StreamAead) (key : Key) (start maxLength : Nat)
    (stored : Bytes) : Yielded :=
  match retrieveNonce stored with
  | none => ⟨[], some (.error .unexpectedEof)⟩
  | some (nonce, _) =>
    match ChunkedPosition.new target start with
    | .error p => ⟨[], some (.panic p)⟩
    | .ok position =>
      if position.beginningOfActiveChunk < 2 ^ 63 then
        let rest := stored.drop position.beginningOfActiveChunk
        intoStreamSizedLoop target aead key nonce start (rest.length + 1) position maxLength rest
      else ⟨[], some (.error .invalidSeek)⟩

end VestibuleStreamer
