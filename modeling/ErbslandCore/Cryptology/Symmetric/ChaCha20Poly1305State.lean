import ErbslandCore.Cryptology.Symmetric.AesGcmState
import Mathlib.Data.List.GetD

namespace ErbslandCore.Cryptology
open Library BlockStream
set_option autoImplicit true

/-- Consecutive blocks of the ChaCha20 key stream. -/
def generateBlocks (p : AeadPrimitives) (key nonce : List UInt8) (firstCounter : UInt32)
    (blockCount : Nat) : List UInt8 :=
  (List.range blockCount).flatMap fun blockIndex =>
    (p.chaCha20 key nonce (firstCounter + UInt32.ofNat blockIndex)).toList

/-- The state of ChaCha20-Poly1305; `message` is what the authenticator was updated with. -/
structure ChaCha20Poly1305State where
  key : List UInt8
  nonce : List UInt8
  oneTimeKey : List UInt8
  message : List UInt8 := []
  keyStream : List UInt8 := []
  keyStreamOffset : Nat := 0
  keyStreamLength : Nat := 0
  nextCounter : Nat := 1
  authenticatedDataLength : Nat := 0
  payloadLength : Nat := 0
  authenticatedDataFinished : Bool := false

namespace ChaCha20Poly1305State

def maximumPayloadLength : Nat := 0xffffffff * 64

/-- The largest value of the 64-bit length field. -/
def maximumAuthenticatedDataLength : Nat := 2 ^ 64 - 1

/-- The one-time key is the first half of the block with counter zero. -/
def create (p : AeadPrimitives) (key nonce : List UInt8) : ChaCha20Poly1305State where
  key := key
  nonce := nonce
  oneTimeKey := (generateBlocks p key nonce 0 1).take 32

def update (s : ChaCha20Poly1305State) (data : List UInt8) : ChaCha20Poly1305State :=
  { s with message := s.message ++ data }

def addPadding (s : ChaCha20Poly1305State) (length : Nat) : ChaCha20Poly1305State :=
  let paddingLength := (16 - length % 16) % 16
  if paddingLength = 0 then s else s.update (List.replicate paddingLength 0)

def finishAuthenticatedData (s : ChaCha20Poly1305State) : ChaCha20Poly1305State :=
  if s.authenticatedDataFinished then s
  else { s.addPadding s.authenticatedDataLength with authenticatedDataFinished := true }

def addAuthenticatedData (s : ChaCha20Poly1305State) (data : List UInt8) :
    Except SymmetricError ChaCha20Poly1305State :=
  if maximumAuthenticatedDataLength - s.authenticatedDataLength < data.length then
    .error (.cryptology "ChaCha20-Poly1305 authenticated data exceeds the per-message limit.")
  else
    .ok { s.update data with authenticatedDataLength := s.authenticatedDataLength + data.length }

/-- Refill the stream cache with one block, or with four where the input takes all of them. -/
def generateKeyStream (p : AeadPrimitives) (s : ChaCha20Poly1305State) (remainingInput : Nat) :
    ChaCha20Poly1305State :=
  let canGenerateBatch := 256 ≤ remainingInput ∧ s.nextCounter + 3 ≤ 0xffffffff
  let blockCount := if canGenerateBatch then 4 else 1
  { s with
    keyStream := generateBlocks p s.key s.nonce (UInt32.ofNat s.nextCounter) blockCount
    keyStreamOffset := 0
    keyStreamLength := blockCount * 64
    nextCounter := s.nextCounter + blockCount }

/-- The loop of `transform`. -/
def transformBytes (p : AeadPrimitives) (s : ChaCha20Poly1305State) :
    List UInt8 → ChaCha20Poly1305State × List UInt8
  | [] => (s, [])
  | byte :: data =>
    let s := if s.keyStreamOffset = s.keyStreamLength then
      s.generateKeyStream p (data.length + 1) else s
    let result := byte ^^^ s.keyStream.getD s.keyStreamOffset 0
    let next := transformBytes p { s with keyStreamOffset := s.keyStreamOffset + 1 } data
    (next.1, result :: next.2)

def transform (p : AeadPrimitives) (s : ChaCha20Poly1305State) (data : List UInt8)
    (encrypting : Bool) : Except SymmetricError (ChaCha20Poly1305State × List UInt8) :=
  if data = [] then .ok (s, [])
  else if maximumPayloadLength - s.payloadLength < data.length then
    .error (.cryptology "ChaCha20-Poly1305 payload exceeds the RFC 8439 counter limit.")
  else
    let next := transformBytes p s.finishAuthenticatedData data
    .ok ({ next.1.update (if encrypting then next.2 else data) with
      payloadLength := s.payloadLength + data.length }, next.2)

/-- The two lengths in bytes, as 64-bit little-endian integers. -/
def lengthBlock (authenticatedDataLength payloadLength : Nat) : List UInt8 :=
  toLittleEndian 8 authenticatedDataLength ++ toLittleEndian 8 payloadLength

def finalizeTag (p : AeadPrimitives) (s : ChaCha20Poly1305State) : ChaCha20Poly1305State × Block :=
  let s := (s.finishAuthenticatedData.addPadding s.payloadLength).update
    (lengthBlock s.authenticatedDataLength s.payloadLength)
  (s, p.poly1305 s.oneTimeKey s.message)

end ChaCha20Poly1305State

namespace Aead

/-- Byte `i` of the key stream that RFC 8439, section 2.8 applies from counter one on. -/
def chaChaStream (p : AeadPrimitives) (key nonce : List UInt8) (i : Nat) : UInt8 :=
  (p.chaCha20 key nonce (UInt32.ofNat (i / 64 + 1))).toList.getD (i % 64) 0

/-- The bytes that ChaCha20-Poly1305 authenticates: RFC 8439, section 2.8. -/
def chaChaInput (authenticatedData ciphertext : List UInt8) : List UInt8 :=
  pad 16 0 authenticatedData ++ pad 16 0 ciphertext ++
    ChaCha20Poly1305State.lengthBlock authenticatedData.length ciphertext.length

/-- The tag of one message under ChaCha20-Poly1305. -/
def chaChaTag (p : AeadPrimitives) (key nonce authenticatedData ciphertext : List UInt8) : Block :=
  p.poly1305 ((p.chaCha20 key nonce 0).toList.take 32) (chaChaInput authenticatedData ciphertext)

/-- The ciphertext of one message under ChaCha20-Poly1305, or the payload of a ciphertext. -/
def chaChaCrypt (p : AeadPrimitives) (key nonce data : List UInt8) : List UInt8 :=
  xorStream (chaChaStream p key nonce) 0 data

end Aead

theorem generateBlocks_succ (p : AeadPrimitives) (key nonce : List UInt8) (firstCounter : UInt32)
    (n : Nat) : generateBlocks p key nonce firstCounter (n + 1) =
      generateBlocks p key nonce firstCounter n ++
        (p.chaCha20 key nonce (firstCounter + UInt32.ofNat n)).toList := by
  rw [generateBlocks, generateBlocks, List.range_succ, List.flatMap_append, List.flatMap_singleton]

theorem length_generateBlocks (p : AeadPrimitives) (key nonce : List UInt8) (firstCounter : UInt32)
    (n : Nat) : (generateBlocks p key nonce firstCounter n).length = n * 64 := by
  induction n with
  | zero => rfl
  | succ n ih => rw [generateBlocks_succ, List.length_append, ih, Vector.length_toList, Nat.succ_mul]

/-- A byte of generated blocks is a byte of the block that it falls into. -/
theorem getD_generateBlocks (p : AeadPrimitives) (key nonce : List UInt8) (firstCounter : UInt32)
    (h : i < n * 64) : (generateBlocks p key nonce firstCounter n).getD i 0 =
      (p.chaCha20 key nonce (firstCounter + UInt32.ofNat (i / 64))).toList.getD (i % 64) 0 := by
  induction n with
  | zero => omega
  | succ n ih =>
    have hl := length_generateBlocks p key nonce firstCounter n
    rw [generateBlocks_succ]
    by_cases hi : i < n * 64
    · rw [← ih hi, List.getD_append _ _ _ _ (by rw [hl]; exact hi)]
    · rw [List.getD_append_right _ _ _ _ (by rw [hl]; omega), hl, show i / 64 = n by omega,
        show i % 64 = i - n * 64 by omega]

namespace ChaCha20Poly1305State
open Aead

variable {p : AeadPrimitives} {s : ChaCha20Poly1305State} {key nonce : List UInt8}

/-- The key stream after `n` bytes of payload: the cache holds the bytes that follow. -/
structure InStream (p : AeadPrimitives) (key nonce : List UInt8) (s : ChaCha20Poly1305State)
    (n : Nat) : Prop where
  keyed : s.key = key
  nonced : s.nonce = nonce
  oneTime : s.oneTimeKey = (p.chaCha20 key nonce 0).toList.take 32
  offset : s.keyStreamOffset ≤ s.keyStreamLength
  counter : n + (s.keyStreamLength - s.keyStreamOffset) + 64 = 64 * s.nextCounter
  cached : ∀ i, s.keyStreamOffset + i < s.keyStreamLength →
    s.keyStream.getD (s.keyStreamOffset + i) 0 = chaChaStream p key nonce (n + i)

theorem inStream_create (p : AeadPrimitives) (key nonce : List UInt8) :
    InStream p key nonce (create p key nonce) 0 := by
  refine ⟨rfl, rfl, ?_, le_refl 0, rfl, fun i h => absurd h (Nat.not_lt_zero _)⟩
  change (generateBlocks p key nonce 0 1).take 32 = _
  rw [generateBlocks_succ]
  rfl

theorem InStream.refill (h : InStream p key nonce s n) (remaining : Nat) :
    InStream p key nonce (if s.keyStreamOffset = s.keyStreamLength then
        s.generateKeyStream p remaining else s) n ∧
      (if s.keyStreamOffset = s.keyStreamLength then
        s.generateKeyStream p remaining else s).keyStreamOffset <
      (if s.keyStreamOffset = s.keyStreamLength then
        s.generateKeyStream p remaining else s).keyStreamLength := by
  have hcounter := h.counter
  split
  case isTrue ho =>
    have hb : ∃ blockCount, 0 < blockCount ∧ s.generateKeyStream p remaining = { s with
        keyStream := generateBlocks p s.key s.nonce (UInt32.ofNat s.nextCounter) blockCount
        keyStreamOffset := 0
        keyStreamLength := blockCount * 64
        nextCounter := s.nextCounter + blockCount } := by
      refine ⟨_, ?_, rfl⟩
      split <;> decide
    obtain ⟨blockCount, hpos, hg⟩ := hb
    rw [hg]
    refine ⟨⟨h.keyed, h.nonced, h.oneTime, Nat.zero_le _, ?_, ?_⟩, ?_⟩
    · change n + blockCount * 64 + 64 = 64 * (s.nextCounter + blockCount)
      omega
    · intro i hi
      dsimp only at hi ⊢
      have hdiv : (n + i) / 64 + 1 = s.nextCounter + i / 64 := by omega
      have hmod : (n + i) % 64 = i % 64 := by omega
      rw [Nat.zero_add] at hi ⊢
      rw [getD_generateBlocks p _ _ _ hi, chaChaStream, hdiv, hmod, h.keyed, h.nonced,
        UInt32.ofNat_add]
    · exact Nat.mul_pos hpos (by decide)
  case isFalse ho => exact ⟨h, lt_of_le_of_ne h.offset ho⟩

theorem InStream.next (h : InStream p key nonce s n) (ho : s.keyStreamOffset < s.keyStreamLength) :
    InStream p key nonce { s with keyStreamOffset := s.keyStreamOffset + 1 } (n + 1) := by
  have hcounter := h.counter
  refine ⟨h.keyed, h.nonced, h.oneTime, ho, ?_, ?_⟩
  · change n + 1 + (s.keyStreamLength - (s.keyStreamOffset + 1)) + 64 = 64 * s.nextCounter
    omega
  · intro i hi
    have hc := h.cached (i + 1) (by dsimp only at hi; omega)
    dsimp only
    rw [Nat.add_assoc, Nat.add_assoc, Nat.add_comm 1 i]
    exact hc

theorem transformBytes_eq (h : InStream p key nonce s n) (data : List UInt8) :
    (transformBytes p s data).2 = xorStream (chaChaStream p key nonce) n data ∧
      InStream p key nonce (transformBytes p s data).1 (n + data.length) ∧
      (transformBytes p s data).1.message = s.message ∧
      (transformBytes p s data).1.authenticatedDataLength = s.authenticatedDataLength ∧
      (transformBytes p s data).1.authenticatedDataFinished = s.authenticatedDataFinished := by
  induction data generalizing s n with
  | nil => exact ⟨rfl, h, rfl, rfl, rfl⟩
  | cons byte data ih =>
    obtain ⟨hr, ho⟩ := h.refill (data.length + 1)
    obtain ⟨hout, hin, hm, hl, hf⟩ := ih (hr.next ho)
    have hbyte := hr.cached 0 (by rw [Nat.add_zero]; exact ho)
    simp only [Nat.add_zero] at hbyte
    refine ⟨?_, ?_, hm.trans ?_, hl.trans ?_, hf.trans ?_⟩
    · rw [transformBytes, xorStream, ← hbyte]
      exact congrArg _ hout
    · rw [List.length_cons, Nat.add_comm data.length 1, ← Nat.add_assoc]
      exact hin
    all_goals
      dsimp only
      split <;> rfl

/-- The state after authenticated data and payload, with the bytes that Poly1305 was updated
with. -/
structure Holds (p : AeadPrimitives) (key nonce : List UInt8) (s : ChaCha20Poly1305State)
    (input : List UInt8) (a c : Nat) (done : Bool) : Prop where
  stream : InStream p key nonce s c
  message : s.message = input
  authenticated : s.authenticatedDataLength = a
  payload : s.payloadLength = c
  finished : s.authenticatedDataFinished = done
  unpadded : done = false → input.length = a

theorem holds_create (p : AeadPrimitives) (key nonce : List UInt8) :
    Holds p key nonce (create p key nonce) [] 0 0 false :=
  ⟨inStream_create p key nonce, rfl, rfl, rfl, rfl, fun _ => rfl⟩

theorem addPadding_eq (s : ChaCha20Poly1305State) (length : Nat) :
    s.addPadding length = s.update (List.replicate (padding 16 length) 0) := by
  unfold addPadding
  dsimp only
  split
  case isTrue h =>
    rw [show padding 16 length = 0 from h, update, List.replicate_zero, List.append_nil]
  case isFalse => rfl

theorem Holds.addAuthenticatedData (h : Holds p key nonce s input a c false)
    (hl : a + data.length ≤ maximumAuthenticatedDataLength) :
    ∃ s', s.addAuthenticatedData data = .ok s' ∧
      Holds p key nonce s' (input ++ data) (a + data.length) c false := by
  have hn : ¬maximumAuthenticatedDataLength - s.authenticatedDataLength < data.length := by
    rw [h.authenticated]
    omega
  have hs := h.stream
  refine ⟨_, if_neg hn, ⟨hs.keyed, hs.nonced, hs.oneTime, hs.offset, hs.counter, hs.cached⟩, ?_, ?_,
    h.payload, h.finished, ?_⟩
  · rw [← h.message]
    rfl
  · rw [← h.authenticated]
  · intro _
    rw [List.length_append, h.unpadded rfl]

theorem Holds.finishAuthenticatedData (h : Holds p key nonce s input a c done) :
    Holds p key nonce s.finishAuthenticatedData (GHash.closed done input) a c true := by
  unfold ChaCha20Poly1305State.finishAuthenticatedData GHash.closed
  rw [h.finished]
  cases done with
  | true => exact h
  | false =>
    have hs := h.stream
    refine ⟨?_, ?_, ?_, ?_, rfl, fun hf => absurd hf (by decide)⟩
    · rw [addPadding_eq]
      exact ⟨hs.keyed, hs.nonced, hs.oneTime, hs.offset, hs.counter, hs.cached⟩
    · rw [addPadding_eq, h.authenticated, ← h.unpadded rfl, ← h.message]
      rfl
    · rw [addPadding_eq]
      exact h.authenticated
    · rw [addPadding_eq]
      exact h.payload

theorem Holds.transform (h : Holds p key nonce s input a c done) (hd : data ≠ [])
    (hl : c + data.length ≤ maximumPayloadLength) (encrypting : Bool) :
    ∃ s', s.transform p data encrypting = .ok (s', xorStream (chaChaStream p key nonce) c data) ∧
      Holds p key nonce s'
        (GHash.closed done input ++
          (if encrypting then xorStream (chaChaStream p key nonce) c data else data))
        a (c + data.length) true := by
  have hn : ¬maximumPayloadLength - s.payloadLength < data.length := by
    rw [h.payload]
    omega
  have hf := h.finishAuthenticatedData
  obtain ⟨hout, hin, hm, hal, hfin⟩ := transformBytes_eq hf.stream data
  have ht : s.transform p data encrypting =
      .ok ({ (transformBytes p s.finishAuthenticatedData data).1.update
          (if encrypting then (transformBytes p s.finishAuthenticatedData data).2 else data) with
        payloadLength := s.payloadLength + data.length },
        (transformBytes p s.finishAuthenticatedData data).2) :=
    (if_neg hd).trans (if_neg hn)
  rw [hout] at ht
  refine ⟨_, ht, ⟨hin.keyed, hin.nonced, hin.oneTime, hin.offset, hin.counter, hin.cached⟩, ?_,
    hal.trans hf.authenticated, ?_, hfin.trans hf.finished, fun he => absurd he (by decide)⟩
  · rw [← hf.message, ← hm]
    rfl
  · rw [← h.payload]

/-- The tag over what Poly1305 was updated with. -/
theorem Holds.finalizeTag (h : Holds p key nonce s input a c done) :
    (s.finalizeTag p).2 = p.poly1305 ((p.chaCha20 key nonce 0).toList.take 32)
      (GHash.closed done input ++ List.replicate (padding 16 c) 0 ++ lengthBlock a c) := by
  have hf := h.finishAuthenticatedData
  unfold ChaCha20Poly1305State.finalizeTag
  rw [addPadding_eq, h.payload, h.authenticated]
  change p.poly1305 s.finishAuthenticatedData.oneTimeKey
    (s.finishAuthenticatedData.message ++ _ ++ _) = _
  rw [hf.stream.oneTime, hf.message]

end ChaCha20Poly1305State
end ErbslandCore.Cryptology
