import Mathlib.Data.List.DropRight
import ErbslandCore.Cryptology.Tls.TlsRecordState

namespace ErbslandCore.Cryptology
open Library
set_option autoImplicit true

inductive TlsRecordContentType where
  | alert
  | handshake
  | applicationData
  deriving DecidableEq

namespace TlsRecordContentType

def toRawValue : TlsRecordContentType → UInt8
  | alert => 21
  | handshake => 22
  | applicationData => 23

def fromRawValue (raw : UInt8) : Option TlsRecordContentType :=
  if raw = 21 then some alert
  else if raw = 22 then some handshake
  else if raw = 23 then some applicationData
  else none

theorem fromRawValue_toRawValue (type : TlsRecordContentType) :
    fromRawValue type.toRawValue = some type := by
  cases type <;> rfl

end TlsRecordContentType

structure TlsRecordPlaintext where
  type : TlsRecordContentType
  content : List UInt8
  deriving DecidableEq

def cHeaderLength : Nat := 5

def cMaximumContentLength : Nat := 2 ^ 14

def cMaximumInnerPlaintextLength : Nat := cMaximumContentLength + 1

def cAuthenticationTagLength : Nat := 16

def cMaximumCiphertextLength : Nat := cMaximumContentLength + 256

/-- The state of a direction; without it there is no key. -/
abbrev TlsRecordDirection := Option TlsRecordState

namespace TlsRecordDirection

/-- A failure at run time erases the state. -/
def terminal (failure : TlsRecordFailure) (s : TlsRecordState) : TlsRecordDirection :=
  match failure with
  | .record _ _ => none
  | .logic _ | .parameter _ _ => some s

/-- The keys of the next generation. -/
def updateApplicationTrafficKeys (c : RecordCryptology) (empty : String) :
    TlsRecordDirection → Except TlsRecordFailure Unit × TlsRecordDirection
  | none => (.error (.logic empty), none)
  | some s => match s.updateApplicationTrafficKeys c with
    | .error failure => (.error failure, terminal failure s)
    | .ok s' => (.ok (), some s')

end TlsRecordDirection

namespace TlsRecordEncryptor

def cEmpty : String := "The TLS record encryptor is empty."

/-- The header of a record, with the length of its encrypted body. -/
def header (encryptedLength : Nat) : List UInt8 :=
  0x17 :: toBigEndian 2 0x0303 ++ toBigEndian 2 (encryptedLength % 2 ^ 16)

/-- The plaintext under the encryption: the content, its type and the padding. -/
def innerPlaintext (type : TlsRecordContentType) (content : List UInt8) (paddingLength : Nat) :
    List UInt8 :=
  content ++ [type.toRawValue] ++ List.replicate paddingLength 0

/-- A complete record. -/
def protectRecord (c : RecordCryptology) (s : TlsRecordState) (type : TlsRecordContentType)
    (content : List UInt8) (paddingLength : Nat) : Except TlsRecordFailure (List UInt8) := do
  s.requireRecordAvailable
  let plaintext := innerPlaintext type content paddingLength
  let header := header (plaintext.length + cAuthenticationTagLength)
  let (encrypted, tag) := c.encrypt s.suite.encryptionType s.key s.recordNonce header plaintext
  return header ++ encrypted ++ tag

def protect (c : RecordCryptology) (e : TlsRecordDirection) (type : TlsRecordContentType)
    (content : List UInt8) (paddingLength : Nat) :
    Except TlsRecordFailure (List UInt8) × TlsRecordDirection :=
  match e with
  | none => (.error (.logic cEmpty), none)
  | some s =>
    if content = [] ∧ type ≠ .applicationData then
      (.error (.parameter "Empty TLS records are permitted only for application data." "content"), e)
    else if content.length > cMaximumContentLength ∨
      paddingLength > cMaximumInnerPlaintextLength - 1 - content.length then
      (.error (.parameter "TLSInnerPlaintext exceeds the RFC 8446 limit of 2^14 + 1 bytes." "content"), e)
    else match protectRecord c s type content paddingLength with
    | .error failure => (.error failure, TlsRecordDirection.terminal failure s)
    | .ok record => (.ok record, some s.recordSucceeded)

def updateApplicationTrafficKeys (c : RecordCryptology) (e : TlsRecordDirection) :
    Except TlsRecordFailure Unit × TlsRecordDirection :=
  TlsRecordDirection.updateApplicationTrafficKeys c cEmpty e

end TlsRecordEncryptor

namespace TlsRecordDecryptor

def cEmpty : String := "The TLS record decryptor is empty."

def reject (category : TlsRecordErrorCategory) (message : String) : Except TlsRecordFailure α :=
  .error (.record category message)

/-- The content of a decrypted plaintext, before its type and the padding. -/
def innerContent (plaintext : List UInt8) : Except TlsRecordFailure TlsRecordPlaintext :=
  match (plaintext.rdropWhile (· = 0)).reverse with
  | [] => reject .unexpectedMessage "TLSInnerPlaintext contains no nonzero content type."
  | rawType :: reversed => match TlsRecordContentType.fromRawValue rawType with
    | none => reject .unexpectedMessage "TLSInnerPlaintext contains an unsupported content type."
    | some type =>
      let content := reversed.reverse
      if content.length > cMaximumContentLength then
        reject .recordOverflow "TLSInnerPlaintext content exceeds 2^14 bytes."
      else if content.length = 0 ∧ type ≠ .applicationData then
        reject .unexpectedMessage "Empty TLSInnerPlaintext is permitted only for application data."
      else .ok ⟨type, content⟩

/-- The encrypted body of a record. -/
def unprotectBody (c : RecordCryptology) (s : TlsRecordState) (header body : List UInt8) :
    Except TlsRecordFailure TlsRecordPlaintext := do
  s.requireRecordAvailable
  let encryptedLength := body.length - cAuthenticationTagLength
  match c.decrypt s.suite.encryptionType s.key s.recordNonce header (body.take encryptedLength)
    (body.drop encryptedLength) with
  | none => reject .badRecordMac "TLS record authentication failed."
  | some plaintext => innerContent plaintext

def unprotectRecord (c : RecordCryptology) (s : TlsRecordState) (record : List UInt8) :
    Except TlsRecordFailure TlsRecordPlaintext :=
  match record with
  | type :: major :: minor :: high :: low :: body =>
    if type ≠ 23 ∨ major ≠ 0x03 ∨ minor ≠ 0x03 then
      reject .unexpectedMessage "The TLSCiphertext outer type or legacy version is invalid."
    else
      let declaredLength := high.toNat * 2 ^ 8 + low.toNat
      if declaredLength > cMaximumCiphertextLength then
        reject .recordOverflow "TLSCiphertext exceeds the RFC 8446 limit of 2^14 + 256 bytes."
      else if record.length ≠ cHeaderLength + declaredLength then
        reject .decodeError "The TLS record length does not match the supplied bytes."
      else if declaredLength < cAuthenticationTagLength + 1 ∨
        declaredLength > cMaximumInnerPlaintextLength + cAuthenticationTagLength then
        reject (if declaredLength > cMaximumInnerPlaintextLength + cAuthenticationTagLength then
            .recordOverflow else .decodeError) "The TLS encrypted record body has an invalid length."
      else unprotectBody c s [type, major, minor, high, low] body
  | _ => reject .decodeError "The TLS record header is truncated."

def unprotect (c : RecordCryptology) (d : TlsRecordDirection) (record : List UInt8) :
    Except TlsRecordFailure TlsRecordPlaintext × TlsRecordDirection :=
  match d with
  | none => (.error (.logic cEmpty), none)
  | some s => match unprotectRecord c s record with
    | .error failure => (.error failure, TlsRecordDirection.terminal failure s)
    | .ok plaintext => (.ok plaintext, some s.recordSucceeded)

def updateApplicationTrafficKeys (c : RecordCryptology) (d : TlsRecordDirection) :
    Except TlsRecordFailure Unit × TlsRecordDirection :=
  TlsRecordDirection.updateApplicationTrafficKeys c cEmpty d

end TlsRecordDecryptor

/-- What `protect` accepts: a content and a padding within the limits. -/
structure IsProtectable (type : TlsRecordContentType) (content : List UInt8) (paddingLength : Nat) :
    Prop where
  nonempty : content = [] → type = .applicationData
  length_le : content.length + paddingLength ≤ cMaximumContentLength

namespace TlsRecordDecryptor

/-- The content is found under its padding. -/
theorem innerContent_innerPlaintext (h : IsProtectable type content paddingLength) :
    innerContent (TlsRecordEncryptor.innerPlaintext type content paddingLength) =
      .ok ⟨type, content⟩ := by
  have hraw : ¬ (decide (type.toRawValue = 0)) = true := by
    cases type <;> decide
  have hdrop : (TlsRecordEncryptor.innerPlaintext type content paddingLength).rdropWhile (· = 0) =
      content ++ [type.toRawValue] := by
    rw [TlsRecordEncryptor.innerPlaintext]
    induction paddingLength with
    | zero => rw [List.replicate_zero, List.append_nil, List.rdropWhile_concat_neg (fun b => decide (b = 0)) content _ hraw]
    | succ n ih =>
      rw [List.replicate_succ', ← List.append_assoc, List.rdropWhile_concat_pos _ _ _ (by simp)]
      exact ih ⟨h.nonempty, by have := h.length_le; omega⟩
  have hlength := h.length_le
  have hempty : ¬ (content.reverse.reverse.length = 0 ∧ type ≠ .applicationData) := by
    rintro ⟨hzero, hne⟩
    rw [List.reverse_reverse] at hzero
    exact hne (h.nonempty (List.eq_nil_of_length_eq_zero hzero))
  rw [innerContent, hdrop, List.reverse_append]
  simp only [List.reverse_singleton, List.singleton_append, TlsRecordContentType.fromRawValue_toRawValue]
  rw [if_neg (by rw [List.reverse_reverse]; omega), if_neg hempty, List.reverse_reverse]

/-- A failure while a record is read is one of the peer or of an exhausted key. -/
theorem unprotectRecord_error {c : RecordCryptology} {s : TlsRecordState} {failure : TlsRecordFailure}
    (h : unprotectRecord c s record = .error failure) :
    ∃ category message, failure = .record category message := by
  have hreject : ∀ {category message}, (reject category message : Except _ TlsRecordPlaintext) =
      .error failure → ∃ category message, failure = .record category message := by
    intro category message hr
    cases hr
    exact ⟨_, _, rfl⟩
  rw [unprotectRecord.eq_def] at h
  split at h
  case h_2 => exact hreject h
  case h_1 type major minor high low body =>
    simp only at h
    split_ifs at h with htype hlong hlength hbody hover
    · exact hreject h
    · exact hreject h
    · exact hreject h
    · exact hreject h
    · exact hreject h
    rw [unprotectBody] at h
    cases hr : s.requireRecordAvailable with
    | error f =>
      rw [hr] at h
      cases h
      obtain ⟨message, rfl⟩ := TlsRecordState.requireRecordAvailable_error hr
      exact ⟨_, _, rfl⟩
    | ok =>
      rw [hr, ok_bind] at h
      simp only at h
      split at h
      case h_1 => exact hreject h
      case h_2 plaintext _ =>
        rw [innerContent] at h
        split at h
        case h_1 => exact hreject h
        case h_2 =>
          split at h
          case h_1 => exact hreject h
          case h_2 =>
            simp only at h
            split_ifs at h
            · exact hreject h
            · exact hreject h

theorem unprotectRecord_available {c : RecordCryptology} {s : TlsRecordState}
    (h : unprotectRecord c s record = .ok plaintext) : s.requireRecordAvailable = .ok () := by
  rw [unprotectRecord.eq_def] at h
  split at h
  case h_2 => cases h
  case h_1 type major minor high low body =>
    simp only at h
    split_ifs at h with htype hlong hlength hbody hover
    · cases h
    · cases h
    · cases h
    · cases h
    · cases h
    rw [unprotectBody] at h
    obtain ⟨_, havailable, -⟩ := bind_eq_ok h
    exact havailable

theorem length_innerPlaintext (type : TlsRecordContentType) (content : List UInt8) (paddingLength : Nat) :
    (TlsRecordEncryptor.innerPlaintext type content paddingLength).length =
      content.length + paddingLength + 1 := by
  simp [TlsRecordEncryptor.innerPlaintext]
  omega

theorem header_eq (h : encryptedLength < 2 ^ 16) :
    ∃ high low : UInt8, TlsRecordEncryptor.header encryptedLength = [23, 0x03, 0x03, high, low] ∧
      high.toNat * 2 ^ 8 + low.toNat = encryptedLength := by
  have hbytes := bigEndian_toBigEndian_of_lt (show encryptedLength % 2 ^ 16 < 256 ^ 2 by omega)
  refine ⟨_, _, rfl, ?_⟩
  rw [toBigEndian, toBigEndian, toBigEndian] at hbytes
  simp only [bigEndian, List.length_cons, List.length_nil] at hbytes
  simp only at hbytes ⊢
  omega

/-- A record that was protected is unprotected under the same keys. -/
theorem unprotectRecord_protectRecord {c : RecordCryptology} (hc : c.Correct) {s : TlsRecordState}
    (hp : IsProtectable type content paddingLength)
    (h : TlsRecordEncryptor.protectRecord c s type content paddingLength = .ok record) :
    unprotectRecord c s record = .ok ⟨type, content⟩ := by
  rw [TlsRecordEncryptor.protectRecord] at h
  obtain ⟨_, hr, h⟩ := bind_eq_ok h
  have hle := hp.length_le
  rw [cMaximumContentLength] at hle
  generalize hplain : TlsRecordEncryptor.innerPlaintext type content paddingLength = plaintext at h
  have hrecord : record = TlsRecordEncryptor.header (plaintext.length + cAuthenticationTagLength) ++
      (c.encrypt s.suite.encryptionType s.key s.recordNonce
        (TlsRecordEncryptor.header (plaintext.length + cAuthenticationTagLength)) plaintext).1 ++
      (c.encrypt s.suite.encryptionType s.key s.recordNonce
        (TlsRecordEncryptor.header (plaintext.length + cAuthenticationTagLength)) plaintext).2 :=
    (Except.ok.inj h).symm
  have hlength : plaintext.length = content.length + paddingLength + 1 := by
    rw [← hplain, length_innerPlaintext]
  obtain ⟨high, low, hheader, hdeclared⟩ :=
    header_eq (show plaintext.length + cAuthenticationTagLength < 2 ^ 16 by
      rw [cAuthenticationTagLength]; omega)
  have hdecrypt := hc.decrypt_encrypt s.suite.encryptionType s.key s.recordNonce
    (TlsRecordEncryptor.header (plaintext.length + cAuthenticationTagLength)) plaintext
  have hcipher := hc.ciphertext_length s.suite.encryptionType s.key s.recordNonce
    (TlsRecordEncryptor.header (plaintext.length + cAuthenticationTagLength)) plaintext
  have htag := hc.tag_length s.suite.encryptionType s.key s.recordNonce
    (TlsRecordEncryptor.header (plaintext.length + cAuthenticationTagLength)) plaintext
  generalize c.encrypt s.suite.encryptionType s.key s.recordNonce
    (TlsRecordEncryptor.header (plaintext.length + cAuthenticationTagLength)) plaintext = sealed at *
  obtain ⟨encrypted, tag⟩ := sealed
  simp only at hcipher htag hdecrypt hrecord
  rw [hheader] at hdecrypt hrecord
  have hbody : (encrypted ++ tag).length = plaintext.length + cAuthenticationTagLength := by
    rw [List.length_append, hcipher, htag, cAuthenticationTagLength]
  rw [hrecord, List.append_assoc]
  show unprotectRecord c s (23 :: 0x03 :: 0x03 :: high :: low :: (encrypted ++ tag)) = _
  rw [unprotectRecord, if_neg (by simp)]
  simp only [hdeclared, List.length_cons, hbody]
  have htagLength : cAuthenticationTagLength = 16 := rfl
  have hmaximum : cMaximumCiphertextLength = 16640 := by decide
  have hinner : cMaximumInnerPlaintextLength = 16385 := by decide
  have hheaderLength : cHeaderLength = 5 := rfl
  have hlong : ¬ plaintext.length + cAuthenticationTagLength > cMaximumCiphertextLength := by omega
  have htotal : plaintext.length + cAuthenticationTagLength + 1 + 1 + 1 + 1 + 1 =
      cHeaderLength + (plaintext.length + cAuthenticationTagLength) := by omega
  have hinner : ¬ (plaintext.length + cAuthenticationTagLength < cAuthenticationTagLength + 1 ∨
      plaintext.length + cAuthenticationTagLength >
        cMaximumInnerPlaintextLength + cAuthenticationTagLength) := by omega
  rw [if_neg hlong, if_neg (not_not.mpr htotal), if_neg hinner, unprotectBody, hr, ok_bind]
  have hsplit : (encrypted ++ tag).length - cAuthenticationTagLength = encrypted.length := by
    rw [hbody, Nat.add_sub_cancel, hcipher]
  simp only [hsplit, List.take_left, List.drop_left, hdecrypt]
  rw [← hplain]
  exact innerContent_innerPlaintext hp

end TlsRecordDecryptor
end ErbslandCore.Cryptology
