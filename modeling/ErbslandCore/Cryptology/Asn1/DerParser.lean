import ErbslandCore.Library.Base128
import ErbslandCore.Mem.ByteReader
import ErbslandCore.Text.StringEncodingTools

namespace ErbslandCore.Cryptology
open Library Mem Text
set_option autoImplicit true

/-- A `ParseError` with its position, or an `OutOfRangeError` when a limit of the parser is
exceeded. The last case stands for a loop that takes more steps than it was given. -/
inductive DerError where
  | parse (reason : String) (byteIndex : Nat)
  | outOfRange (reason : String)
  | stuck
  deriving DecidableEq

inductive Asn1TagClass where
  | universal
  | application
  | context
  | privateUse
  deriving DecidableEq

namespace Asn1UniversalType

def boolean : Nat := 1

def integer : Nat := 2

def bitString : Nat := 3

def octetString : Nat := 4

def null : Nat := 5

def objectIdentifier : Nat := 6

def utf8String : Nat := 12

def sequence : Nat := 16

def set : Nat := 17

def numericString : Nat := 18

def printableString : Nat := 19

def ia5String : Nat := 22

def utcTime : Nat := 23

def generalizedTime : Nat := 24

def universalString : Nat := 28

def bmpString : Nat := 30

end Asn1UniversalType

/-- The class in the upper bits of an identifier. -/
def tagClassOf (identifier : UInt8) : Asn1TagClass :=
  match identifier.toNat / 64 with
  | 0 => .universal
  | 1 => .application
  | 2 => .context
  | _ => .privateUse

def isConstructedIdentifier (identifier : UInt8) : Bool := identifier.toNat / 32 % 2 = 1

inductive Asn1Node where
  | node (encodedData : List UInt8) (headerLength tagNumber : Nat) (children : List Asn1Node)

namespace Asn1Node

def empty : Asn1Node := node [] 0 0 []

def encodedData : Asn1Node → List UInt8
  | node encodedData _ _ _ => encodedData

def tagNumber : Asn1Node → Nat
  | node _ _ tagNumber _ => tagNumber

def children : Asn1Node → List Asn1Node
  | node _ _ _ children => children

def contentData : Asn1Node → List UInt8
  | node encodedData headerLength _ _ => encodedData.drop headerLength

def isEmpty (n : Asn1Node) : Bool := n.encodedData.isEmpty

/-- The identifier of a node that is not empty; zero stands for the identifier of an empty one. -/
def identifier (n : Asn1Node) : UInt8 := n.encodedData.headD 0

def tagClass (n : Asn1Node) : Asn1TagClass := tagClassOf n.identifier

def isConstructed (n : Asn1Node) : Bool := isConstructedIdentifier n.identifier

end Asn1Node

namespace DerParser

def cMaximumLength : Nat := 1024 * 1024

def cMaximumDepth : Nat := 32

def cMaximumNodes : Nat := 8192

def readByte (reader : ByteReader) : Except DerError (UInt8 × ByteReader) :=
  match reader.unread with
  | [] => .error (.parse "DER input is truncated." reader.position)
  | byte :: unread => .ok (byte, ⟨reader.position + 1, unread⟩)

def readTagNumber (identifier : UInt8) (reader : ByteReader) :
    Except DerError (Nat × ByteReader) :=
  let tagNumber := identifier.toNat % 32
  if tagNumber ≠ 31 then .ok (tagNumber, reader)
  else
    match reader.unread with
    | [] => .error (.parse "DER input is truncated." reader.position)
    | first :: _ =>
      if first.toNat % 128 = 0 then
        .error (.parse "DER tag number is not minimally encoded." reader.position)
      else
        match readMinimalBase128 (2 ^ 64) reader.unread with
        | .error .truncated => .error (.parse "DER tag number is truncated." reader.position)
        | .error .overflow => .error (.parse "DER tag number is too large." reader.position)
        | .error .notMinimal =>
          .error (.parse "DER tag number is not minimally encoded." reader.position)
        | .ok (decodedTagNumber, rest) =>
          if 2 ^ 32 ≤ decodedTagNumber then
            .error (.parse "DER tag number is too large." reader.position)
          else if decodedTagNumber < 31 then
            .error (.parse "DER tag number is not minimally encoded." reader.position)
          else .ok (decodedTagNumber, reader.advance (reader.unread.length - rest.length))

def readLength (reader : ByteReader) : Except DerError (Nat × ByteReader) := do
  let lengthOffset := reader.position
  let (firstLength, reader) ← readByte reader
  if firstLength.toNat < 128 then .ok (firstLength.toNat, reader)
  else
    let lengthOctets := firstLength.toNat % 128
    if lengthOctets = 0 then .error (.parse "DER forbids indefinite lengths." lengthOffset)
    else if 3 < lengthOctets then .error (.parse "DER length is too large." lengthOffset)
    else if ¬ reader.canRead lengthOctets then
      .error (.parse "DER input is truncated." reader.position)
    else if reader.peekByte = 0 then
      .error (.parse "DER length is not minimally encoded." reader.position)
    else
      let length := Endianness.big.decode (reader.unread.take lengthOctets)
      if length < 128 then .error (.parse "DER length is not minimally encoded." lengthOffset)
      else .ok (length, reader.advance lengthOctets)

/-- The universal types that only have a primitive form. -/
def primitiveTypes : List Nat := [1, 2, 3, 4, 5, 6, 12, 18, 19, 20, 22, 23, 24, 28, 30]

def validateUniversalForm (tagClass : Asn1TagClass) (tagNumber : Nat) (constructed : Bool)
    (encodedOffset : Nat) : Except DerError Unit :=
  if tagClass ≠ .universal then .ok ()
  else if tagNumber = 0 then
    .error (.parse "DER forbids the end-of-contents tag." encodedOffset)
  else
    let isContainer := tagNumber = Asn1UniversalType.sequence ∨ tagNumber = Asn1UniversalType.set
    if isContainer ↔ constructed = false then
      .error (.parse "DER value uses an invalid primitive or constructed form." encodedOffset)
    else if tagNumber ∈ primitiveTypes ∧ constructed then
      .error (.parse "DER string or primitive value must use primitive encoding." encodedOffset)
    else .ok ()

def validateInteger (content : List UInt8) (contentOffset : Nat) : Except DerError Unit :=
  match content with
  | [] => .error (.parse "DER INTEGER is empty." contentOffset)
  | first :: second :: _ =>
    if (first = 0 ∧ second.toNat < 128) ∨ (first = 0xFF ∧ 128 ≤ second.toNat) then
      .error (.parse "DER INTEGER is not minimally encoded." contentOffset)
    else .ok ()
  | [_] => .ok ()

def validateBitString (content : List UInt8) (contentOffset : Nat) : Except DerError Unit :=
  match content with
  | [] => .error (.parse "DER BIT STRING has an invalid unused-bit count." contentOffset)
  | unused :: bits =>
    if 7 < unused.toNat then
      .error (.parse "DER BIT STRING has an invalid unused-bit count." contentOffset)
    else if bits = [] ∧ unused ≠ 0 then
      .error (.parse "Empty DER BIT STRING has unused bits." contentOffset)
    else if unused ≠ 0 ∧ (content.getLastD 0).toNat % 2 ^ unused.toNat ≠ 0 then
      .error (.parse "DER BIT STRING has nonzero unused bits."
        (contentOffset + (content.length - 1)))
    else .ok ()

/-- The first byte that a test refuses is reported with its position. -/
def validateEach (test : UInt8 → Bool) (reason : String) :
    List UInt8 → Nat → Except DerError Unit
  | [], _ => .ok ()
  | byte :: content, byteIndex =>
    if test byte then validateEach test reason content (byteIndex + 1)
    else .error (.parse reason byteIndex)

def isPrintable (byte : UInt8) : Bool :=
  (65 ≤ byte ∧ byte ≤ 90) ∨ (97 ≤ byte ∧ byte ≤ 122) ∨ (48 ≤ byte ∧ byte ≤ 57) ∨
    byte ∈ [32, 39, 40, 41, 43, 44, 46, 47, 58, 61, 63, 45]

/-- The arcs of an OBJECT IDENTIFIER, in groups of seven bits; at most as many as bytes. -/
def validateArcs : Nat → List UInt8 → Nat → Except DerError Unit
  | _, [], _ => .ok ()
  | 0, _ :: _, _ => .error .stuck
  | fuel + 1, first :: content, arcOffset =>
    if first = 0x80 then
      .error (.parse "DER OBJECT IDENTIFIER arc is not minimally encoded." arcOffset)
    else
      match readMinimalBase128 (2 ^ 64) (first :: content) with
      | .error .truncated => .error (.parse "DER OBJECT IDENTIFIER is truncated." arcOffset)
      | .error .overflow => .error (.parse "DER OBJECT IDENTIFIER arc is too large." arcOffset)
      | .error .notMinimal =>
        .error (.parse "DER OBJECT IDENTIFIER arc is not minimally encoded." arcOffset)
      | .ok (_, rest) =>
        validateArcs fuel rest (arcOffset + ((first :: content).length - rest.length))

/-- `Asn1ObjectIdentifierCodec::validate`. -/
def validateObjectIdentifier (content : List UInt8) (contentOffset : Nat) : Except DerError Unit :=
  if content = [] then .error (.parse "DER OBJECT IDENTIFIER is empty." contentOffset)
  else validateArcs content.length content contentOffset

def validateUtf8String (content : List UInt8) (contentOffset : Nat) : Except DerError Unit :=
  match StringEncodingTools.decode content .utf8 .reject .strict with
  | .error _ => .error (.parse "DER UTF8String contains malformed UTF-8." contentOffset)
  | .ok _ => .ok ()

def validatePrimitive (tagClass : Asn1TagClass) (tagNumber contentOffset : Nat)
    (content : List UInt8) : Except DerError Unit :=
  if tagClass ≠ .universal then .ok ()
  else match tagNumber with
    | 1 =>
      if content = [0] ∨ content = [0xFF] then .ok ()
      else .error (.parse "DER BOOLEAN is malformed or noncanonical." contentOffset)
    | 2 => validateInteger content contentOffset
    | 3 => validateBitString content contentOffset
    | 5 =>
      if content = [] then .ok ()
      else .error (.parse "DER NULL contains content octets." contentOffset)
    | 6 => validateObjectIdentifier content contentOffset
    | 12 => validateUtf8String content contentOffset
    | 18 => validateEach (fun byte => byte = 32 ∨ (48 ≤ byte ∧ byte ≤ 57))
        "DER NumericString contains an invalid character." content contentOffset
    | 19 => validateEach isPrintable "DER PrintableString contains an invalid character." content
        contentOffset
    | 22 | 23 | 24 => validateEach (· ≤ 0x7F) "DER ASCII string contains a non-ASCII character."
        content contentOffset
    | 30 =>
      if content.length % 2 ≠ 0 then
        .error (.parse "DER BMPString has an invalid length." contentOffset)
      else .ok ()
    | 28 =>
      if content.length % 4 ≠ 0 then
        .error (.parse "DER UniversalString has an invalid length." contentOffset)
      else .ok ()
    | _ => .ok ()

/-- The members of a SET, with their positions, are in the order of their encodings. -/
def validateSetOrder : List (Asn1Node × Nat) → Except DerError Unit
  | (previous, _) :: (current, byteIndex) :: children =>
    if current.encodedData < previous.encodedData then
      .error (.parse "DER SET elements are not in canonical order." byteIndex)
    else validateSetOrder ((current, byteIndex) :: children)
  | _ => .ok ()

/-- The children of a node up to the end of its content, with their positions. -/
def parseChildren
    (parseNode : Nat → ByteReader → Except DerError (Asn1Node × Nat × ByteReader))
    (endOffset : Nat) : Nat → Nat → ByteReader →
      Except DerError (List (Asn1Node × Nat) × Nat × ByteReader)
  | fuel, nodeCount, reader =>
    if reader.position < endOffset then
      match fuel with
      | 0 => .error .stuck
      | fuel + 1 => do
        let (child, nodeCount, after) ← parseNode nodeCount reader
        if endOffset < after.position then
          .error (.parse "DER child exceeds its parent value." reader.position)
        else
          let (children, nodeCount, last) ← parseChildren parseNode endOffset fuel nodeCount after
          .ok ((child, reader.position) :: children, nodeCount, last)
    else .ok ([], nodeCount, reader)

/-- The identifier, the tag number and the length of the content. -/
def readHeader (reader : ByteReader) : Except DerError ((UInt8 × Nat × Nat) × ByteReader) := do
  let (identifier, reader) ← readByte reader
  let (tagNumber, reader) ← readTagNumber identifier reader
  let (contentLength, reader) ← readLength reader
  if ¬ reader.canRead contentLength then .error (.parse "DER value is truncated." reader.position)
  else .ok ((identifier, tagNumber, contentLength), reader)

/-- Parse a node where as many levels of nesting are left. -/
def parseNode : Nat → Nat → ByteReader → Except DerError (Asn1Node × Nat × ByteReader)
  | 0, _, _ => .error (.outOfRange "DER nesting exceeds the fixed depth limit.")
  | levels + 1, nodeCount, encoded =>
    if cMaximumNodes ≤ nodeCount then
      .error (.outOfRange "DER input exceeds the fixed node-count limit.")
    else do
      let ((identifier, tagNumber, contentLength), content) ← readHeader encoded
      let tagClass := tagClassOf identifier
      let constructed := isConstructedIdentifier identifier
      let endOffset := content.position + contentLength
      validateUniversalForm tagClass tagNumber constructed encoded.position
      let headerLength := content.position - encoded.position
      let encodedData := encoded.unread.take (endOffset - encoded.position)
      if ¬ constructed then
        validatePrimitive tagClass tagNumber content.position (content.unread.take contentLength)
        .ok (.node encodedData headerLength tagNumber [], nodeCount + 1,
          content.advance contentLength)
      else
        let (children, nodeCount, last) ←
          parseChildren (parseNode levels) endOffset contentLength (nodeCount + 1) content
        if last.position ≠ endOffset then
          .error (.parse "DER constructed value has an invalid length." encoded.position)
        else
          if tagClass = .universal ∧ tagNumber = Asn1UniversalType.set then
            validateSetOrder children
          .ok (.node encodedData headerLength tagNumber (children.map (·.1)), nodeCount, last)

def parseDocument (der : List UInt8) : Except DerError Asn1Node :=
  if cMaximumLength < der.length then
    .error (.parse "DER certificate exceeds the fixed one MiB limit." 0)
  else if der = [] then .error (.parse "DER input is empty." 0)
  else do
    let (root, _, reader) ← parseNode cMaximumDepth 0 ⟨0, der⟩
    if ¬ reader.isAtEnd then .error (.parse "DER input contains trailing data." reader.position)
    else .ok root

end DerParser
end ErbslandCore.Cryptology
