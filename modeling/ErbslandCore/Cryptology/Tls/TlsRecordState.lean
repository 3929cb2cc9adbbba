import ErbslandCore.Cryptology.HashAlgorithm
import ErbslandCore.Library.ByteOrder
import ErbslandCore.Library.Except

namespace ErbslandCore.Cryptology
open Library
set_option autoImplicit true

inductive SymmetricEncryptionType where
  | aes128Gcm
  | aes256Gcm
  | chaCha20Poly1305
  deriving DecidableEq

namespace SymmetricEncryptionType

def keyLength : SymmetricEncryptionType → Nat
  | aes128Gcm => 16
  | aes256Gcm => 32
  | chaCha20Poly1305 => 32

def isAes : SymmetricEncryptionType → Bool
  | aes128Gcm => true
  | aes256Gcm => true
  | chaCha20Poly1305 => false

end SymmetricEncryptionType

inductive TlsCipherSuite where
  | aes128GcmSha256
  | aes256GcmSha384
  | chaCha20Poly1305Sha256
  deriving DecidableEq

namespace TlsCipherSuite

def hashAlgorithm : TlsCipherSuite → HashAlgorithm
  | aes128GcmSha256 => .sha2_256
  | aes256GcmSha384 => .sha2_384
  | chaCha20Poly1305Sha256 => .sha2_256

def encryptionType : TlsCipherSuite → SymmetricEncryptionType
  | aes128GcmSha256 => .aes128Gcm
  | aes256GcmSha384 => .aes256Gcm
  | chaCha20Poly1305Sha256 => .chaCha20Poly1305

end TlsCipherSuite

inductive TlsRecordErrorCategory where
  | decodeError
  | unexpectedMessage
  | badRecordMac
  | recordOverflow
  | keyUsageExhausted
  deriving DecidableEq

/-- Only the record errors are errors at run time; the others report a misuse. -/
inductive TlsRecordFailure where
  | logic (message : String)
  | parameter (message field : String)
  | record (category : TlsRecordErrorCategory) (message : String)
  deriving DecidableEq

/-- The cryptography that protects records: the labelled expansion of a secret, and authenticated
encryption of a plaintext under a key, a nonce and a header. -/
structure RecordCryptology where
  expandLabel (algorithm : HashAlgorithm) (secret label context : List UInt8) (length : Nat) : List UInt8
  encrypt (type : SymmetricEncryptionType) (key nonce header plaintext : List UInt8) :
    List UInt8 × List UInt8
  decrypt (type : SymmetricEncryptionType) (key nonce header ciphertext tag : List UInt8) :
    Option (List UInt8)

/-- A tag has 16 bytes, and what was encrypted is decrypted again. -/
structure RecordCryptology.Correct (c : RecordCryptology) : Prop where
  expandLabel_length : ∀ algorithm secret label context length,
    (c.expandLabel algorithm secret label context length).length = length
  ciphertext_length : ∀ type key nonce header plaintext,
    (c.encrypt type key nonce header plaintext).1.length = plaintext.length
  tag_length : ∀ type key nonce header plaintext,
    (c.encrypt type key nonce header plaintext).2.length = 16
  decrypt_encrypt : ∀ type key nonce header plaintext,
    c.decrypt type key nonce header (c.encrypt type key nonce header plaintext).1
      (c.encrypt type key nonce header plaintext).2 = some plaintext

/-- A secret, which is empty by default. -/
structure TlsTrafficSecret where
  hashAlgorithm : HashAlgorithm := .sha2_256
  data : List UInt8 := []
  deriving DecidableEq

def TlsTrafficSecret.fromBytes (algorithm : HashAlgorithm) (data : List UInt8) :
    Except TlsRecordFailure TlsTrafficSecret :=
  if data.length ≠ algorithm.digestSize then
    .error (.parameter "A TLS traffic secret must match the SHA-256 or SHA-384 digest size." "data")
  else .ok ⟨algorithm, data⟩

/-- One direction of a connection: the keys of a generation, and the number of the next record. -/
structure TlsRecordState where
  suite : TlsCipherSuite
  trafficSecret : TlsTrafficSecret
  key : List UInt8
  staticIv : List UInt8
  sequenceNumber : Nat := 0
  recordCount : Nat := 0
  deriving DecidableEq

namespace TlsRecordState

def cAesUpdateRecordCount : Nat := 2 ^ 24

def cAesMaximumRecordCount : Nat := 23726566

def cMaximumSequenceNumber : Nat := 2 ^ 64 - 1

def cKeyLabel : List UInt8 := [0x6B, 0x65, 0x79]

def cIvLabel : List UInt8 := [0x69, 0x76]

def cTrafficUpdateLabel : List UInt8 :=
  [0x74, 0x72, 0x61, 0x66, 0x66, 0x69, 0x63, 0x20, 0x75, 0x70, 0x64]

/-- The key and the static part of the nonce. -/
def deriveKeyAndIv (c : RecordCryptology) (suite : TlsCipherSuite) (secret : TlsTrafficSecret) :
    List UInt8 × List UInt8 :=
  (c.expandLabel suite.hashAlgorithm secret.data cKeyLabel [] suite.encryptionType.keyLength,
    c.expandLabel suite.hashAlgorithm secret.data cIvLabel [] 12)

def new (c : RecordCryptology) (suite : TlsCipherSuite) (trafficSecret : TlsTrafficSecret) :
    Except TlsRecordFailure TlsRecordState :=
  if trafficSecret.data = [] ∨ trafficSecret.hashAlgorithm ≠ suite.hashAlgorithm then
    .error (.parameter "The TLS traffic secret does not match the cipher suite hash." "trafficSecret")
  else
    let (key, staticIv) := deriveKeyAndIv c suite trafficSecret
    .ok { suite, trafficSecret, key, staticIv }

/-- The nonce of the next record. -/
def recordNonce (s : TlsRecordState) : List UInt8 :=
  let paddedSequence := List.replicate 4 0 ++ toBigEndian 8 s.sequenceNumber
  List.zipWith (· ^^^ ·) s.staticIv paddedSequence

def requireRecordAvailable (s : TlsRecordState) : Except TlsRecordFailure Unit :=
  if s.suite.encryptionType.isAes then
    if s.recordCount ≥ cAesMaximumRecordCount then
      .error (.record .keyUsageExhausted "The TLS AES-GCM record limit is exhausted.")
    else .ok ()
  else if s.sequenceNumber = cMaximumSequenceNumber then
    .error (.record .keyUsageExhausted "The TLS record sequence number is exhausted.")
  else .ok ()

/-- The counters have 64 bits. -/
def recordSucceeded (s : TlsRecordState) : TlsRecordState :=
  { s with
    sequenceNumber := (s.sequenceNumber + 1) % 2 ^ 64
    recordCount := (s.recordCount + 1) % 2 ^ 64 }

def deriveUpdatedTrafficSecret (c : RecordCryptology) (s : TlsRecordState) :
    Except TlsRecordFailure TlsTrafficSecret :=
  TlsTrafficSecret.fromBytes s.suite.hashAlgorithm (c.expandLabel s.suite.hashAlgorithm s.trafficSecret.data
    cTrafficUpdateLabel [] s.suite.hashAlgorithm.digestSize)

def updateApplicationTrafficKeys (c : RecordCryptology) (s : TlsRecordState) :
    Except TlsRecordFailure TlsRecordState := do
  let nextSecret ← s.deriveUpdatedTrafficSecret c
  let (nextKey, nextIv) := deriveKeyAndIv c s.suite nextSecret
  return { s with
    trafficSecret := nextSecret
    key := nextKey
    staticIv := nextIv
    sequenceNumber := 0
    recordCount := 0 }

def isKeyUpdateRequired (s : TlsRecordState) : Bool :=
  if s.suite.encryptionType.isAes then s.recordCount ≥ cAesUpdateRecordCount
  else s.sequenceNumber ≥ cMaximumSequenceNumber - 1

/-- The counters agree, and the nonce has 12 bytes. -/
structure Sound (s : TlsRecordState) : Prop where
  count : s.recordCount = s.sequenceNumber
  bounded : s.sequenceNumber ≤ cMaximumSequenceNumber
  iv : s.staticIv.length = 12

/-- The next generation starts with the first record again. -/
theorem updateApplicationTrafficKeys_sound {c : RecordCryptology} (hc : c.Correct) (s : TlsRecordState) :
    ∃ s', s.updateApplicationTrafficKeys c = .ok s' ∧ s'.Sound ∧ s'.sequenceNumber = 0 := by
  have hsecret : s.deriveUpdatedTrafficSecret c = .ok ⟨_, _⟩ :=
    if_neg (not_not.mpr (hc.expandLabel_length _ _ _ _ _))
  rw [updateApplicationTrafficKeys, hsecret]
  exact ⟨_, rfl, ⟨rfl, Nat.zero_le _, hc.expandLabel_length _ _ _ _ _⟩, rfl⟩

theorem requireRecordAvailable_lt {s : TlsRecordState} (hs : s.Sound)
    (h : s.requireRecordAvailable = .ok ()) : s.sequenceNumber < cMaximumSequenceNumber := by
  have hbounded := hs.bounded
  have hcount := hs.count
  rw [requireRecordAvailable] at h
  split_ifs at h with haes hlimit hmaximum
  · rw [cAesMaximumRecordCount] at hlimit
    rw [cMaximumSequenceNumber]
    omega
  · omega

theorem requireRecordAvailable_error {s : TlsRecordState} (h : s.requireRecordAvailable = .error f) :
    ∃ message, f = .record .keyUsageExhausted message := by
  rw [requireRecordAvailable] at h
  split_ifs at h <;> (cases h; exact ⟨_, rfl⟩)

/-- A record advances the counters by one. -/
theorem recordSucceeded_sound {s : TlsRecordState} (hs : s.Sound)
    (h : s.sequenceNumber < cMaximumSequenceNumber) :
    s.recordSucceeded.Sound ∧ s.recordSucceeded.sequenceNumber = s.sequenceNumber + 1 := by
  have hcount := hs.count
  rw [cMaximumSequenceNumber] at h
  have hnext : (s.sequenceNumber + 1) % 2 ^ 64 = s.sequenceNumber + 1 := Nat.mod_eq_of_lt (by omega)
  refine ⟨⟨?_, ?_, hs.iv⟩, hnext⟩
  · rw [recordSucceeded]
    simp only
    rw [hcount]
  · show (s.sequenceNumber + 1) % 2 ^ 64 ≤ cMaximumSequenceNumber
    rw [hnext, cMaximumSequenceNumber]
    omega

theorem zipWith_xor_cancel {iv : List UInt8} (hlength : iv.length = padded.length)
    (hlength' : iv.length = padded'.length)
    (h : List.zipWith (· ^^^ ·) iv padded = List.zipWith (· ^^^ ·) iv padded') : padded = padded' := by
  induction iv generalizing padded padded' with
  | nil =>
    rw [List.eq_nil_of_length_eq_zero hlength.symm, List.eq_nil_of_length_eq_zero hlength'.symm]
  | cons b iv ih =>
    cases padded with
    | nil => cases hlength
    | cons p padded =>
      cases padded' with
      | nil => cases hlength'
      | cons p' padded' =>
        rw [List.zipWith_cons_cons, List.zipWith_cons_cons, List.cons.injEq] at h
        rw [ih (Nat.succ.inj hlength) (Nat.succ.inj hlength') h.2, (UInt8.xor_right_inj _).mp h.1]

/-- Under the same static part, different sequence numbers have different nonces. -/
theorem recordNonce_inj {s s' : TlsRecordState} (hs : s.Sound) (hs' : s'.Sound)
    (hiv : s.staticIv = s'.staticIv) (h : s.recordNonce = s'.recordNonce) :
    s.sequenceNumber = s'.sequenceNumber := by
  have hbounded := hs.bounded
  have hbounded' := hs'.bounded
  rw [cMaximumSequenceNumber] at hbounded hbounded'
  rw [recordNonce, recordNonce, ← hiv] at h
  have hpadded := zipWith_xor_cancel (by simp [hs.iv]) (by simp [hs.iv]) h
  have hsequence := List.append_cancel_left hpadded
  rw [← bigEndian_toBigEndian_of_lt (show s.sequenceNumber < 256 ^ 8 by omega), hsequence,
    bigEndian_toBigEndian_of_lt (by omega)]

end TlsRecordState
end ErbslandCore.Cryptology
