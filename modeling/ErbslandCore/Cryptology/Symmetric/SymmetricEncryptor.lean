import ErbslandCore.Cryptology.Symmetric.ChaCha20Poly1305State
import ErbslandCore.Cryptology.Tls.TlsRecordState

namespace ErbslandCore.Cryptology
open Library BlockStream
set_option autoImplicit true

namespace SymmetricEncryptionType

def isAead : SymmetricEncryptionType → Bool
  | aes128Gcm => true
  | aes256Gcm => true
  | chaCha20Poly1305 => true

def nonceLength (type : SymmetricEncryptionType) : Nat := if type.isAead then 12 else 0

def tagLength (type : SymmetricEncryptionType) : Nat := if type.isAead then 16 else 0

end SymmetricEncryptionType

/-- The cipher state behind an encryptor or a decryptor. -/
inductive AeadState where
  | aesGcm (state : AesGcmState)
  | chaCha20Poly1305 (state : ChaCha20Poly1305State)

namespace AeadState

def create (p : AeadPrimitives) (type : SymmetricEncryptionType) (key nonce : List UInt8) :
    AeadState :=
  match type with
  | .aes128Gcm => .aesGcm (.create p key nonce)
  | .aes256Gcm => .aesGcm (.create p key nonce)
  | .chaCha20Poly1305 => .chaCha20Poly1305 (.create p key nonce)

def addAuthenticatedData (p : AeadPrimitives) (data : List UInt8) :
    AeadState → Except SymmetricError AeadState
  | .aesGcm s => (s.addAuthenticatedData p data).map .aesGcm
  | .chaCha20Poly1305 s => (s.addAuthenticatedData data).map .chaCha20Poly1305

def transform (p : AeadPrimitives) (data : List UInt8) (encrypting : Bool) :
    AeadState → Except SymmetricError (AeadState × List UInt8)
  | .aesGcm s => (s.transform p data encrypting).map fun next => (.aesGcm next.1, next.2)
  | .chaCha20Poly1305 s =>
    (s.transform p data encrypting).map fun next => (.chaCha20Poly1305 next.1, next.2)

def finalizeTag (p : AeadPrimitives) : AeadState → AeadState × Block
  | .aesGcm s => let next := s.finalizeTag p; (.aesGcm next.1, next.2)
  | .chaCha20Poly1305 s => let next := s.finalizeTag p; (.chaCha20Poly1305 next.1, next.2)

def authenticationFailed : AeadState → SymmetricError
  | .aesGcm _ => .cryptology "AES-GCM authentication failed."
  | .chaCha20Poly1305 _ => .cryptology "ChaCha20-Poly1305 authentication failed."

end AeadState

/-- The data of an encryptor or a decryptor. -/
structure SymmetricData where
  type : SymmetricEncryptionType
  state : AeadState
  tag : Block := Block.zero

inductive SymmetricState where
  | empty
  | active
  | payload
  | finalized
  | failed
  deriving DecidableEq

/-- The two facades differ in the words of their errors and in what they authenticate. -/
inductive SymmetricRole where
  | encryptor
  | decryptor
  deriving DecidableEq

namespace SymmetricRole

def name : SymmetricRole → String
  | encryptor => "encryptor"
  | decryptor => "decryptor"

def action : SymmetricRole → String
  | encryptor => "encryption"
  | decryptor => "decryption"

def verb : SymmetricRole → String
  | encryptor => "encrypt"
  | decryptor => "decrypt"

def encrypting : SymmetricRole → Bool
  | encryptor => true
  | decryptor => false

end SymmetricRole

/-- A `SymmetricEncryptor` or a `SymmetricDecryptor`. -/
structure SymmetricDirection where
  data : Option SymmetricData
  state : SymmetricState

namespace SymmetricDirection

/-- The constructor with a nonce. -/
def create (p : AeadPrimitives) (type : SymmetricEncryptionType) (key nonce : List UInt8) :
    Except SymmetricError SymmetricDirection :=
  if key.length ≠ type.keyLength then
    .error (.parameter "The symmetric key has the wrong length." "key")
  else if type.isAead = false then
    .error (.parameter "This encryption type requires an initialization vector." "type")
  else if nonce.length ≠ type.nonceLength then
    .error (.parameter "The symmetric nonce has the wrong length." "nonce")
  else .ok ⟨some { type := type, state := .create p type key nonce }, .active⟩

def requireUsable (role : SymmetricRole) (d : SymmetricDirection) :
    Except SymmetricError SymmetricData :=
  match d.data with
  | none => .error (.logic ("Cannot use an empty symmetric " ++ role.name ++ "."))
  | some data =>
    if d.state = .failed then
      .error (.logic ("Cannot reuse a symmetric " ++ role.name ++ " after a backend failure."))
    else .ok data

/-- A backend failure makes the object unusable. -/
def fail (d : SymmetricDirection) (error : SymmetricError) :
    SymmetricDirection × Except SymmetricError α :=
  ({ d with state := .failed }, .error error)

def addAuthenticatedData (p : AeadPrimitives) (role : SymmetricRole) (d : SymmetricDirection)
    (data : List UInt8) : SymmetricDirection × Except SymmetricError Unit :=
  match d.requireUsable role with
  | .error error => (d, .error error)
  | .ok backend =>
    if backend.type.isAead = false then
      (d, .error (.logic "Authenticated data requires an AEAD encryption type."))
    else if d.state ≠ .active then
      (d, .error (.logic ("Authenticated data must be added before payload " ++ role.action ++ ".")))
    else
      match backend.state.addAuthenticatedData p data with
      | .error error => d.fail error
      | .ok state => ({ d with data := some { backend with state := state } }, .ok ())

/-- `encrypt` of an encryptor, `decrypt` of a decryptor. -/
def transform (p : AeadPrimitives) (role : SymmetricRole) (d : SymmetricDirection)
    (data : List UInt8) : SymmetricDirection × Except SymmetricError (List UInt8) :=
  match d.requireUsable role with
  | .error error => (d, .error error)
  | .ok backend =>
    if d.state = .finalized then
      (d, .error (.logic ("Cannot " ++ role.verb ++ " data after finalization.")))
    else
      match backend.state.transform p data role.encrypting with
      | .error error => d.fail error
      | .ok (state, result) =>
        (⟨some { backend with state := state }, if data = [] then d.state else .payload⟩, .ok result)

end SymmetricDirection

/-- A call to an encryptor or a decryptor. -/
inductive SymmetricCall where
  | addAuthenticatedData (data : List UInt8)
  | transform (data : List UInt8)
  deriving DecidableEq

namespace SymmetricDirection

def call (p : AeadPrimitives) (role : SymmetricRole) (d : SymmetricDirection) :
    SymmetricCall → SymmetricDirection × Except SymmetricError (List UInt8)
  | .addAuthenticatedData data =>
    let next := d.addAuthenticatedData p role data
    (next.1, next.2.map fun _ => [])
  | .transform data => d.transform p role data

/-- The calls one after the other, with what they return, up to the first error. -/
def run (p : AeadPrimitives) (role : SymmetricRole) (d : SymmetricDirection) :
    List SymmetricCall → Except SymmetricError (List UInt8 × SymmetricDirection)
  | [] => .ok ([], d)
  | c :: calls =>
    match d.call p role c with
    | (_, .error error) => .error error
    | (d, .ok result) => (run p role d calls).map fun next => (result ++ next.1, next.2)

/-- A new object with its calls. -/
def process (p : AeadPrimitives) (role : SymmetricRole) (type : SymmetricEncryptionType)
    (key nonce : List UInt8) (calls : List SymmetricCall) :
    Except SymmetricError (List UInt8 × SymmetricDirection) := do
  (← create p type key nonce).run p role calls

end SymmetricDirection

namespace SymmetricEncryptor

def finalize (p : AeadPrimitives) (d : SymmetricDirection) :
    SymmetricDirection × Except SymmetricError (List UInt8) :=
  match d.requireUsable .encryptor with
  | .error error => (d, .error error)
  | .ok backend =>
    if d.state = .finalized then
      (d, .error (.logic "Cannot finalize encryption more than once."))
    else
      let next := backend.state.finalizeTag p
      (⟨some { backend with state := next.1, tag := next.2 }, .finalized⟩, .ok [])

def tag (d : SymmetricDirection) : Except SymmetricError (List UInt8) :=
  match d.requireUsable .encryptor with
  | .error error => .error error
  | .ok backend =>
    if backend.type.isAead = false then
      .error (.logic "An authentication tag is available only for AEAD encryption.")
    else if d.state ≠ .finalized then
      .error (.logic "The authentication tag is available only after finalization.")
    else .ok backend.tag.toList

end SymmetricEncryptor

namespace SymmetricDecryptor

def finalize (p : AeadPrimitives) (d : SymmetricDirection) (tag : List UInt8) :
    SymmetricDirection × Except SymmetricError (List UInt8) :=
  match d.requireUsable .decryptor with
  | .error error => (d, .error error)
  | .ok backend =>
    if backend.type.isAead = false then
      (d, .error (.logic "Tag finalization requires an AEAD encryption type."))
    else if d.state = .finalized then
      (d, .error (.logic "Cannot finalize decryption more than once."))
    else if tag.length ≠ backend.type.tagLength then
      (d, .error (.parameter "The authentication tag has the wrong length." "tag"))
    else
      let next := backend.state.finalizeTag p
      let data := some { backend with state := next.1, tag := next.2 }
      if next.2.toList = tag then (⟨data, .finalized⟩, .ok [])
      else (⟨data, .failed⟩, .error backend.state.authenticationFailed)

end SymmetricDecryptor

namespace Aead

/-- The key stream of a message. -/
def stream (p : AeadPrimitives) (type : SymmetricEncryptionType) (key nonce : List UInt8) :
    Nat → UInt8 :=
  if type.isAes then gcmStream (p.aes key) (Block.initialCounter nonce) else chaChaStream p key nonce

/-- The one-shot encryption of a payload. -/
def ciphertext (p : AeadPrimitives) (type : SymmetricEncryptionType) (key nonce payload : List UInt8) :
    List UInt8 :=
  xorStream (stream p type key nonce) 0 payload

/-- The one-shot tag of authenticated data and a ciphertext. -/
def tag (p : AeadPrimitives) (type : SymmetricEncryptionType)
    (key nonce authenticatedData ciphertext : List UInt8) : Block :=
  if type.isAes then gcmTag p key nonce authenticatedData ciphertext
  else chaChaTag p key nonce authenticatedData ciphertext

end Aead

def SymmetricEncryptionType.maximumAuthenticatedDataLength (type : SymmetricEncryptionType) : Nat :=
  if type.isAes then AesGcmState.maximumAuthenticatedDataLength
  else ChaCha20Poly1305State.maximumAuthenticatedDataLength

def SymmetricEncryptionType.maximumPayloadLength (type : SymmetricEncryptionType) : Nat :=
  if type.isAes then AesGcmState.maximumPayloadLength else ChaCha20Poly1305State.maximumPayloadLength

/-- What an authenticator took in: its bytes, the lengths, and whether the authenticated data is
closed. -/
structure Intake where
  input : List UInt8 := []
  authenticatedLength : Nat := 0
  payloadLength : Nat := 0
  started : Bool := false

namespace Intake

def authenticate (i : Intake) (data : List UInt8) : Intake :=
  { i with input := i.input ++ data, authenticatedLength := i.authenticatedLength + data.length }

/-- AES-GCM closes the authenticated data with the first call, ChaCha20-Poly1305 with the first
byte. -/
def transform (isAes : Bool) (i : Intake) (ciphertext : List UInt8) : Intake :=
  if isAes = false ∧ ciphertext = [] then i
  else
    { i with
      input := GHash.closed i.started i.input ++ ciphertext
      payloadLength := i.payloadLength + ciphertext.length
      started := true }

theorem transform_payloadLength (i : Intake) (isAes : Bool) (x : List UInt8) :
    (i.transform isAes x).payloadLength = i.payloadLength + x.length := by
  unfold Intake.transform
  split
  case isTrue h => rw [h.2, List.length_nil, Nat.add_zero]
  case isFalse => rfl

@[simp] theorem transform_authenticatedLength (i : Intake) (isAes : Bool) (x : List UInt8) :
    (i.transform isAes x).authenticatedLength = i.authenticatedLength := by
  unfold Intake.transform
  split <;> rfl

end Intake

namespace AeadState

/-- A cipher state that took in the given bytes. -/
def Holds (p : AeadPrimitives) (type : SymmetricEncryptionType) (key nonce : List UInt8)
    (i : Intake) : AeadState → Prop
  | .aesGcm s => type.isAes = true ∧
      s.Holds p key nonce i.input i.authenticatedLength i.payloadLength i.started
  | .chaCha20Poly1305 s => type.isAes = false ∧
      s.Holds p key nonce i.input i.authenticatedLength i.payloadLength i.started

variable {p : AeadPrimitives} {type : SymmetricEncryptionType} {key nonce : List UInt8}
  {s : AeadState} {i : Intake}

theorem holds_create (p : AeadPrimitives) (type : SymmetricEncryptionType) (key nonce : List UInt8) :
    Holds p type key nonce {} (create p type key nonce) := by
  cases type with
  | aes128Gcm => exact ⟨rfl, AesGcmState.holds_create p key nonce⟩
  | aes256Gcm => exact ⟨rfl, AesGcmState.holds_create p key nonce⟩
  | chaCha20Poly1305 => exact ⟨rfl, ChaCha20Poly1305State.holds_create p key nonce⟩

theorem Holds.addAuthenticatedData (h : Holds p type key nonce i s)
    (hi : type.isAes = false → i.started = false)
    (hl : i.authenticatedLength + data.length ≤ type.maximumAuthenticatedDataLength) :
    ∃ s', s.addAuthenticatedData p data = .ok s' ∧
      Holds p type key nonce (i.authenticate data) s' := by
  unfold SymmetricEncryptionType.maximumAuthenticatedDataLength at hl
  cases s with
  | aesGcm s =>
    obtain ⟨ht, h⟩ := h
    rw [ht, if_pos rfl] at hl
    obtain ⟨s', hs, hh⟩ := h.addAuthenticatedData hl
    exact ⟨.aesGcm s', congrArg (Except.map AeadState.aesGcm) hs, ht, hh⟩
  | chaCha20Poly1305 s =>
    obtain ⟨ht, h⟩ := h
    rw [ht, if_neg Bool.false_ne_true] at hl
    rw [hi ht] at h
    obtain ⟨s', hs, hh⟩ := h.addAuthenticatedData hl
    refine ⟨.chaCha20Poly1305 s', congrArg (Except.map AeadState.chaCha20Poly1305) hs, ht, ?_⟩
    have hstarted : (i.authenticate data).started = false := hi ht
    rw [hstarted]
    exact hh

theorem Holds.transform (h : Holds p type key nonce i s)
    (hl : i.payloadLength + data.length ≤ type.maximumPayloadLength) (encrypting : Bool) :
    ∃ s', s.transform p data encrypting =
        .ok (s', xorStream (Aead.stream p type key nonce) i.payloadLength data) ∧
      Holds p type key nonce (i.transform type.isAes (if encrypting then
        xorStream (Aead.stream p type key nonce) i.payloadLength data else data)) s' := by
  unfold SymmetricEncryptionType.maximumPayloadLength at hl
  cases s with
  | aesGcm s =>
    obtain ⟨ht, h⟩ := h
    rw [ht, if_pos rfl] at hl
    obtain ⟨s', hs, hh⟩ := h.transform hl encrypting
    rw [Aead.stream, ht, if_pos rfl, Intake.transform,
      if_neg (fun hc => Bool.noConfusion hc.1)]
    refine ⟨.aesGcm s', by rw [AeadState.transform, hs]; rfl, ht, ?_⟩
    rw [length_ite_xorStream]
    exact hh
  | chaCha20Poly1305 s =>
    obtain ⟨ht, h⟩ := h
    rw [ht, if_neg Bool.false_ne_true] at hl
    rw [Aead.stream, ht, if_neg Bool.false_ne_true, Intake.transform]
    by_cases hd : data = []
    · subst hd
      have he : (if encrypting then
          xorStream (Aead.chaChaStream p key nonce) i.payloadLength [] else []) = [] := by
        cases encrypting <;> rfl
      rw [if_pos ⟨rfl, he⟩]
      exact ⟨.chaCha20Poly1305 s, rfl, ht, h⟩
    · have he : (if encrypting then
          xorStream (Aead.chaChaStream p key nonce) i.payloadLength data else data) ≠ [] := by
        intro hz
        have hz := congrArg List.length hz
        rw [length_ite_xorStream, List.length_nil] at hz
        exact hd (List.eq_nil_of_length_eq_zero hz)
      obtain ⟨s', hs, hh⟩ := h.transform hd hl encrypting
      rw [if_neg (fun hc => he hc.2)]
      refine ⟨.chaCha20Poly1305 s', by rw [AeadState.transform, hs]; rfl, ht, ?_⟩
      rw [length_ite_xorStream]
      exact hh

theorem Holds.addAuthenticatedData_error (h : Holds p type key nonce i s)
    (hm : i.authenticatedLength ≤ type.maximumAuthenticatedDataLength)
    (hl : ¬i.authenticatedLength + data.length ≤ type.maximumAuthenticatedDataLength) :
    ∃ error, s.addAuthenticatedData p data = .error error := by
  unfold SymmetricEncryptionType.maximumAuthenticatedDataLength at hl hm
  cases s with
  | aesGcm s =>
    obtain ⟨ht, h⟩ := h
    rw [ht, if_pos rfl] at hl hm
    have hn : AesGcmState.maximumAuthenticatedDataLength - s.authenticatedDataLength < data.length := by
      rw [h.authenticated]
      omega
    exact ⟨_, congrArg (Except.map AeadState.aesGcm) (if_pos hn)⟩
  | chaCha20Poly1305 s =>
    obtain ⟨ht, h⟩ := h
    rw [ht, if_neg Bool.false_ne_true] at hl hm
    have hn : ChaCha20Poly1305State.maximumAuthenticatedDataLength - s.authenticatedDataLength <
        data.length := by
      rw [h.authenticated]
      omega
    exact ⟨_, congrArg (Except.map AeadState.chaCha20Poly1305) (if_pos hn)⟩

theorem Holds.transform_error (h : Holds p type key nonce i s)
    (hm : i.payloadLength ≤ type.maximumPayloadLength)
    (hl : ¬i.payloadLength + data.length ≤ type.maximumPayloadLength) (encrypting : Bool) :
    ∃ error, s.transform p data encrypting = .error error := by
  unfold SymmetricEncryptionType.maximumPayloadLength at hl hm
  cases s with
  | aesGcm s =>
    obtain ⟨ht, h⟩ := h
    rw [ht, if_pos rfl] at hl hm
    have hn : AesGcmState.maximumPayloadLength - s.payloadLength < data.length := by
      rw [h.payload]
      omega
    have he : s.transform p data encrypting = _ := if_pos hn
    exact ⟨_, by rw [AeadState.transform, he]; rfl⟩
  | chaCha20Poly1305 s =>
    obtain ⟨ht, h⟩ := h
    rw [ht, if_neg Bool.false_ne_true] at hl hm
    have hn : ChaCha20Poly1305State.maximumPayloadLength - s.payloadLength < data.length := by
      rw [h.payload]
      omega
    have hd : data ≠ [] := by
      intro hd
      rw [hd, List.length_nil] at hl
      omega
    have he : s.transform p data encrypting = _ := (if_neg hd).trans (if_pos hn)
    exact ⟨_, by rw [AeadState.transform, he]; rfl⟩

end AeadState
end ErbslandCore.Cryptology
