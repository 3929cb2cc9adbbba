import ErbslandCore.Cryptology.Symmetric.GHash
import ErbslandCore.Library.KeyStream

namespace ErbslandCore.Cryptology
open Library BlockStream
set_option autoImplicit true

/-- Errors of the symmetric encryption: `err::LogicError`, `err::ParameterError` and
`CryptologyError`. -/
inductive SymmetricError where
  | logic (message : String)
  | parameter (message field : String)
  | cryptology (message : String)
  deriving DecidableEq

/-- The selected backends: the AES block cipher, the field multiplication, the ChaCha20 block
function of a key, a nonce and a counter, and Poly1305 with a one-time key. -/
structure AeadPrimitives where
  aes : List UInt8 → Block → Block
  multiply : Multiply
  chaCha20 : List UInt8 → List UInt8 → UInt32 → Vector UInt8 64
  poly1305 : List UInt8 → List UInt8 → Block

namespace Block

/-- The 32-bit big-endian integer at byte 12. -/
def counterValue (block : Block) : Nat := bigEndian (block.toList.drop 12)

def setCounterValue (block : Block) (value : Nat) : Block :=
  ofBytes (block.toList.take 12 ++ toBigEndian 4 value)

/-- SP 800-38D, section 6.2: increment the rightmost 32 bits. -/
def inc32 (block : Block) : Block := block.setCounterValue ((block.counterValue + 1) % 2 ^ 32)

/-- A nonce of 96 bits, followed by the counter one. -/
def initialCounter (nonce : List UInt8) : Block := (ofBytes nonce).setCounterValue 1

end Block

structure AesGcmState where
  key : List UInt8
  gHash : GHash
  initialCounter : Block
  counter : Block
  keyStream : Block := Block.zero
  keyStreamOffset : Nat := 16
  authenticatedDataLength : Nat := 0
  payloadLength : Nat := 0

namespace AesGcmState

def maximumPayloadLength : Nat := 2 ^ 36 - 32

def maximumAuthenticatedDataLength : Nat := 2 ^ 61 - 1

def create (p : AeadPrimitives) (key nonce : List UInt8) : AesGcmState where
  key := key
  gHash := { hashSubkey := p.aes key Block.zero }
  initialCounter := Block.initialCounter nonce
  counter := Block.initialCounter nonce

def addAuthenticatedData (p : AeadPrimitives) (s : AesGcmState) (data : List UInt8) :
    Except SymmetricError AesGcmState :=
  if maximumAuthenticatedDataLength - s.authenticatedDataLength < data.length then
    .error (.cryptology "AES-GCM authenticated data exceeds the per-message limit.")
  else
    .ok { s with
      gHash := s.gHash.addAuthenticatedData p.multiply data
      authenticatedDataLength := s.authenticatedDataLength + data.length }

def generateKeyStreamBlock (p : AeadPrimitives) (s : AesGcmState) : AesGcmState :=
  let counter := s.counter.inc32
  { s with counter := counter, keyStream := p.aes s.key counter, keyStreamOffset := 0 }

/-- The loop of `transform`: combine each byte with the next byte of the key stream. -/
def transformBytes (p : AeadPrimitives) (s : AesGcmState) : List UInt8 → AesGcmState × List UInt8
  | [] => (s, [])
  | byte :: data =>
    let s := if s.keyStreamOffset = 16 then s.generateKeyStreamBlock p else s
    let result := byte ^^^ s.keyStream.toList.getD s.keyStreamOffset 0
    let next := transformBytes p { s with keyStreamOffset := s.keyStreamOffset + 1 } data
    (next.1, result :: next.2)

def transform (p : AeadPrimitives) (s : AesGcmState) (data : List UInt8) (encrypting : Bool) :
    Except SymmetricError (AesGcmState × List UInt8) :=
  if maximumPayloadLength - s.payloadLength < data.length then
    .error (.cryptology "AES-GCM payload exceeds the per-message limit.")
  else
    let next := transformBytes p s data
    .ok ({ next.1 with
      gHash := s.gHash.addCiphertext p.multiply (if encrypting then next.2 else data)
      payloadLength := s.payloadLength + data.length }, next.2)

def finalizeTag (p : AeadPrimitives) (s : AesGcmState) : AesGcmState × Block :=
  let authentication := s.gHash.finalize p.multiply
  ({ s with gHash := authentication.1 }, (p.aes s.key s.initialCounter).xor authentication.2)

end AesGcmState

namespace Aead

/-- Byte `i` of the key stream that SP 800-38D, section 6.5 applies from the counter block after
`J0` on. -/
def gcmStream (cipher : Block → Block) (initialCounter : Block) (i : Nat) : UInt8 :=
  (cipher (Block.inc32^[i / 16 + 1] initialCounter)).toList.getD (i % 16) 0

/-- The bytes that GCM authenticates: SP 800-38D, section 7.1. -/
def gcmInput (authenticatedData ciphertext : List UInt8) : List UInt8 :=
  pad 16 0 authenticatedData ++ pad 16 0 ciphertext ++
    GHash.lengthBlock authenticatedData.length ciphertext.length

/-- The tag of one message under AES-GCM. -/
def gcmTag (p : AeadPrimitives) (key nonce authenticatedData ciphertext : List UInt8) : Block :=
  (p.aes key (Block.initialCounter nonce)).xor
    (ghash p.multiply (p.aes key Block.zero) (gcmInput authenticatedData ciphertext))

/-- The ciphertext of one message under AES-GCM, or the payload of a ciphertext. -/
def gcmCrypt (p : AeadPrimitives) (key nonce data : List UInt8) : List UInt8 :=
  xorStream (gcmStream (p.aes key) (Block.initialCounter nonce)) 0 data

end Aead

namespace AesGcmState
open Aead

variable {p : AeadPrimitives} {s : AesGcmState} {key nonce : List UInt8}

/-- The key stream after `n` bytes of payload. -/
structure InStream (p : AeadPrimitives) (key nonce : List UInt8) (s : AesGcmState) (n : Nat) :
    Prop where
  keyed : s.key = key
  initial : s.initialCounter = Block.initialCounter nonce
  offset : s.keyStreamOffset ≤ 16
  used : ∃ m, n + (16 - s.keyStreamOffset) = 16 * m ∧
    s.counter = Block.inc32^[m] (Block.initialCounter nonce) ∧
    (s.keyStreamOffset < 16 → s.keyStream = p.aes key s.counter)

theorem inStream_create (p : AeadPrimitives) (key nonce : List UInt8) :
    InStream p key nonce (create p key nonce) 0 :=
  ⟨rfl, rfl, le_refl 16, 0, rfl, rfl, fun h => absurd h (lt_irrefl 16)⟩

/-- A block of the key stream is there for the next byte. -/
theorem InStream.refill (h : InStream p key nonce s n) :
    InStream p key nonce (if s.keyStreamOffset = 16 then s.generateKeyStreamBlock p else s) n ∧
      (if s.keyStreamOffset = 16 then s.generateKeyStreamBlock p else s).keyStreamOffset < 16 := by
  split
  case isTrue ho =>
    obtain ⟨m, hm, hc, _⟩ := h.used
    have hn : n = 16 * m := by omega
    refine ⟨⟨h.keyed, h.initial, Nat.zero_le 16, m + 1, ?_, ?_, ?_⟩, ?_⟩
    · change n + 16 = 16 * (m + 1)
      omega
    · rw [Function.iterate_succ_apply', ← hc]
      rfl
    · intro _
      rw [← h.keyed]
      rfl
    · exact Nat.zero_lt_succ 15
  case isFalse ho => exact ⟨h, lt_of_le_of_ne h.offset ho⟩

theorem InStream.byte (h : InStream p key nonce s n) (ho : s.keyStreamOffset < 16) :
    s.keyStream.toList.getD s.keyStreamOffset 0 =
      gcmStream (p.aes key) (Block.initialCounter nonce) n := by
  obtain ⟨m, hm, hc, hk⟩ := h.used
  have hdiv : n / 16 + 1 = m := by omega
  have hmod : n % 16 = s.keyStreamOffset := by omega
  rw [gcmStream, hdiv, hmod, ← hc, hk ho]

theorem InStream.next (h : InStream p key nonce s n) (ho : s.keyStreamOffset < 16) :
    InStream p key nonce { s with keyStreamOffset := s.keyStreamOffset + 1 } (n + 1) := by
  obtain ⟨m, hm, hc, hk⟩ := h.used
  refine ⟨h.keyed, h.initial, ho, m, ?_, hc, fun _ => hk ho⟩
  change n + 1 + (16 - (s.keyStreamOffset + 1)) = 16 * m
  omega

/-- The payload loop applies the key stream from where it stands. -/
theorem transformBytes_eq (h : InStream p key nonce s n) (data : List UInt8) :
    (transformBytes p s data).2 =
        xorStream (gcmStream (p.aes key) (Block.initialCounter nonce)) n data ∧
      InStream p key nonce (transformBytes p s data).1 (n + data.length) ∧
      (transformBytes p s data).1.authenticatedDataLength = s.authenticatedDataLength := by
  induction data generalizing s n with
  | nil => exact ⟨rfl, h, rfl⟩
  | cons byte data ih =>
    obtain ⟨hr, ho⟩ := h.refill
    obtain ⟨hout, hin, hl⟩ := ih (hr.next ho)
    refine ⟨?_, ?_, ?_⟩
    · rw [transformBytes, xorStream, ← hr.byte ho]
      exact congrArg _ hout
    · rw [List.length_cons, Nat.add_comm data.length 1, ← Nat.add_assoc]
      exact hin
    · refine hl.trans ?_
      dsimp only
      split <;> rfl

/-- The state after authenticated data and payload, with the bytes that GHASH took in. -/
structure Holds (p : AeadPrimitives) (key nonce : List UInt8) (s : AesGcmState)
    (input : List UInt8) (a c : Nat) (started : Bool) : Prop where
  stream : InStream p key nonce s c
  hash : s.gHash.Holds p.multiply (p.aes key Block.zero) input a c started
  authenticated : s.authenticatedDataLength = a
  payload : s.payloadLength = c

theorem holds_create (p : AeadPrimitives) (key nonce : List UInt8) :
    Holds p key nonce (create p key nonce) [] 0 0 false :=
  ⟨inStream_create p key nonce, GHash.holds_start _ _, rfl, rfl⟩

theorem Holds.addAuthenticatedData (h : Holds p key nonce s input a c started)
    (hl : a + data.length ≤ maximumAuthenticatedDataLength) :
    ∃ s', s.addAuthenticatedData p data = .ok s' ∧
      Holds p key nonce s' (input ++ data) (a + data.length) c started := by
  have hn : ¬maximumAuthenticatedDataLength - s.authenticatedDataLength < data.length := by
    rw [h.authenticated]
    omega
  refine ⟨_, if_neg hn, ⟨h.stream.keyed, h.stream.initial, h.stream.offset, h.stream.used⟩,
    h.hash.addAuthenticatedData data, ?_, h.payload⟩
  rw [← h.authenticated]

theorem Holds.transform (h : Holds p key nonce s input a c started)
    (hl : c + data.length ≤ maximumPayloadLength) (encrypting : Bool) :
    ∃ s', s.transform p data encrypting =
        .ok (s', xorStream (gcmStream (p.aes key) (Block.initialCounter nonce)) c data) ∧
      Holds p key nonce s'
        (GHash.closed started input ++ (if encrypting then
          xorStream (gcmStream (p.aes key) (Block.initialCounter nonce)) c data else data))
        a (c + data.length) true := by
  have hn : ¬maximumPayloadLength - s.payloadLength < data.length := by
    rw [h.payload]
    omega
  obtain ⟨hout, hin, hal⟩ := transformBytes_eq h.stream data
  have hh := h.hash.addCiphertext (if encrypting then
    xorStream (gcmStream (p.aes key) (Block.initialCounter nonce)) c data else data)
  rw [length_ite_xorStream] at hh
  have ht : s.transform p data encrypting = .ok ({ (transformBytes p s data).1 with
      gHash := s.gHash.addCiphertext p.multiply (if encrypting then (transformBytes p s data).2 else data)
      payloadLength := s.payloadLength + data.length }, (transformBytes p s data).2) := if_neg hn
  rw [hout] at ht
  refine ⟨_, ht, ⟨hin.keyed, hin.initial, hin.offset, hin.used⟩, hh, hal.trans h.authenticated, ?_⟩
  rw [← h.payload]

/-- The tag over what GHASH took in. -/
theorem Holds.finalizeTag (h : Holds p key nonce s input a c started) :
    (s.finalizeTag p).2 = (p.aes key (Block.initialCounter nonce)).xor
      (ghash p.multiply (p.aes key Block.zero)
        (pad 16 0 (GHash.closed started input) ++ GHash.lengthBlock a c)) := by
  change (p.aes s.key s.initialCounter).xor (s.gHash.finalize p.multiply).2 = _
  rw [h.stream.keyed, h.stream.initial, h.hash.finalize]

end AesGcmState
end ErbslandCore.Cryptology
