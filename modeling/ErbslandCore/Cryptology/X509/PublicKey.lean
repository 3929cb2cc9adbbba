import ErbslandCore.Cryptology.Asn1.DerParser
import ErbslandCore.Cryptology.HashAlgorithm
import ErbslandCore.Cryptology.X509.X509ServerCertificateValidator

namespace ErbslandCore.Cryptology
open Library Mem
set_option autoImplicit true

/-- Parameters that are absent are the empty node. -/
structure X509AlgorithmIdentifier where
  oid : String
  parameters : Asn1Node

/-- A key that is not empty. -/
structure PublicKey where
  algorithm : X509AlgorithmIdentifier
  keyData : List UInt8
  unusedBitCount : Nat

/-- The exceptions of a verification: a `ParseError`, or one that the parser raises. -/
inductive SignatureError where
  | parse (reason : String)
  | der (error : DerError)
  deriving DecidableEq

namespace SignatureError

/-- A `ParseError` is a `RuntimeError`, an `OutOfRangeError` is a `LogicError`. -/
def family : SignatureError → ErrorFamily
  | .parse _ => .runtime
  | .der (.parse _ _) => .runtime
  | .der (.outOfRange _) => .logic
  | .der .stuck => .logic

end SignatureError

def throwParseError (reason : String) : Except SignatureError α := .error (.parse reason)

/-- A value of the DER parser, with its exceptions. -/
def parseDer (der : List UInt8) : Except SignatureError Asn1Node :=
  match DerParser.parseDocument der with
  | .ok root => .ok root
  | .error error => .error (.der error)

/-- The arcs of the content of an OBJECT IDENTIFIER; at most as many as there are bytes. -/
def decodeArcs : Nat → List UInt8 → Option (List Nat)
  | _, [] => some []
  | 0, _ :: _ => none
  | fuel + 1, first :: content =>
    match readMinimalBase128 (2 ^ 64) (first :: content) with
    | .error _ => none
    | .ok (value, rest) => (decodeArcs fuel rest).map (value :: ·)

/-- The text of arcs, the first of which stands for two. -/
def arcsToString : List Nat → String
  | [] => ""
  | value :: arcs =>
    let first := if value < 40 then 0 else if value < 80 then 1 else 2
    ".".intercalate ((first :: (value - first * 40) :: arcs).map toString)

def Asn1Node.toObjectIdentifier (n : Asn1Node) : Option String :=
  if n.isEmpty ∨ n.tagClass ≠ .universal ∨
      n.tagNumber ≠ Asn1UniversalType.objectIdentifier then none
  else if n.contentData = [] then none
  else (decodeArcs n.contentData.length n.contentData).map arcsToString

/-- The node has a type and a form, or an error is raised. -/
def requireNode (node : Asn1Node) (tagClass : Asn1TagClass) (tagNumber : Nat) (constructed : Bool)
    (reason : String) : Except SignatureError Unit :=
  if node.isEmpty ∨ node.tagClass ≠ tagClass ∨ node.tagNumber ≠ tagNumber ∨
      node.isConstructed ≠ constructed then throwParseError reason
  else .ok ()

/-- A curve over a prime field whose modulus is three modulo four. -/
structure NistPrimeCurve where
  byteLength : Nat
  fieldModulus : Nat
  order : Nat
  coefficientB : Nat
  maximumSignatureLength : Nat
  hash : HashAlgorithm
  oid : String
  deriving DecidableEq

namespace NistPrimeCurve

def p256 : NistPrimeCurve where
  byteLength := 32
  fieldModulus := 0xffffffff00000001000000000000000000000000ffffffffffffffffffffffff
  order := 0xffffffff00000000ffffffffffffffffbce6faada7179e84f3b9cac2fc632551
  coefficientB := 0x5ac635d8aa3a93e7b3ebbd55769886bc651d06b0cc53b0f63bce3c3e27d2604b
  maximumSignatureLength := 72
  hash := .sha2_256
  oid := "1.2.840.10045.3.1.7"

def p384 : NistPrimeCurve where
  byteLength := 48
  fieldModulus := 0xfffffffffffffffffffffffffffffffffffffffffffffffffffffffffffffffeffffffff0000000000000000ffffffff
  order := 0xffffffffffffffffffffffffffffffffffffffffffffffffc7634d81f4372ddf581a0db248b0a77aecec196accc52973
  coefficientB := 0xb3312fa7e23ee7e4988e056be3f82d19181d9c6efe8141120314088f5013875ac656398d8a2ed19d2a85c8edd3ec2aef
  maximumSignatureLength := 104
  hash := .sha2_384
  oid := "1.3.132.0.34"

/-- Square and multiply over the bits of an exponent. -/
def powerModulo (modulus base exponent : Nat) : Nat :=
  if exponent = 0 then 1 % modulus
  else
    let root := powerModulo modulus base (exponent / 2)
    if exponent % 2 = 1 then root * root % modulus * base % modulus else root * root % modulus
termination_by exponent

variable (curve : NistPrimeCurve)

/-- The right side of the equation of the curve. -/
def alpha (x : Nat) : Nat :=
  let p := curve.fieldModulus
  (x * x % p * x % p + (p - x * 3 % p) + curve.coefficientB) % p

def isOnCurve (x y : Nat) : Bool := y * y % curve.fieldModulus = curve.alpha x

/-- The coordinates of a point, compressed or not. -/
def pointFromBytes (bytes : List UInt8) : Option (Nat × Nat) :=
  match bytes with
  | [] => none
  | prefixByte :: coordinates =>
    if prefixByte = 4 then
      if bytes.length ≠ 1 + 2 * curve.byteLength then none
      else
        let x := bigEndian (coordinates.take curve.byteLength)
        let y := bigEndian (coordinates.drop curve.byteLength)
        if curve.fieldModulus ≤ x ∨ curve.fieldModulus ≤ y then none
        else if curve.isOnCurve x y then some (x, y) else none
    else if prefixByte ≠ 2 ∧ prefixByte ≠ 3 then none
    else if bytes.length ≠ 1 + curve.byteLength then none
    else
      let x := bigEndian coordinates
      if curve.fieldModulus ≤ x then none
      else
        let root := powerModulo curve.fieldModulus (curve.alpha x) ((curve.fieldModulus + 1) / 4)
        if root * root % curve.fieldModulus ≠ curve.alpha x then none
        else
          let requestedOdd : Nat := if prefixByte = 3 then 1 else 0
          let y :=
            if root % 2 ≠ requestedOdd then (curve.fieldModulus - root) % curve.fieldModulus
            else root
          if y % 2 ≠ requestedOdd then none
          else if curve.isOnCurve x y then some (x, y) else none

end NistPrimeCurve

inductive Padding where
  | pkcs1V15
  | pss
  deriving DecidableEq

structure SignatureParameters where
  padding : Padding
  hash : HashAlgorithm
  saltLength : Nat
  deriving DecidableEq

structure PublicKeyData where
  modulus : Nat
  exponent : List UInt8
  modulusBits : Nat
  restrictions : Option SignatureParameters

/-- The computations with decoded values, none of which raises an exception. -/
structure SignatureArithmetic where
  verifyEcdsa : NistPrimeCurve → Nat × Nat → Nat → Nat → List UInt8 → Bool
  verifyRsa : SignatureParameters → PublicKeyData → List UInt8 → List UInt8 → Bool
  EdwardsPoint : Type
  decodePoint : List UInt8 → Option EdwardsPoint
  decodeScalar : List UInt8 → Option Nat
  isPrimeOrderPoint : EdwardsPoint → Bool
  verifyEd25519 : EdwardsPoint → EdwardsPoint → Nat → List UInt8 → Bool

namespace Ed25519Signature

def isSignatureAlgorithm (algorithm : X509AlgorithmIdentifier) : Bool :=
  algorithm.oid = "1.3.101.112"

def requireEd25519Algorithm (algorithm : X509AlgorithmIdentifier) : Except SignatureError Unit :=
  if ¬ isSignatureAlgorithm algorithm then
    throwParseError "The X.509 algorithm is not id-Ed25519."
  else if ¬ algorithm.parameters.isEmpty then
    throwParseError "Ed25519 AlgorithmIdentifier parameters must be absent."
  else .ok ()

def verify (arithmetic : SignatureArithmetic) (publicKey : PublicKey)
    (signatureAlgorithm : X509AlgorithmIdentifier) (message signature : List UInt8) :
    Except SignatureError Bool := do
  requireEd25519Algorithm signatureAlgorithm
  requireEd25519Algorithm publicKey.algorithm
  if publicKey.unusedBitCount ≠ 0 ∨ publicKey.keyData.length ≠ 32 then
    throwParseError
      "An Ed25519 SubjectPublicKeyInfo must contain exactly 32 octets and no unused bits."
  else if signature.length ≠ 64 then
    throwParseError "An Ed25519 signature must contain exactly 64 octets."
  else
    match arithmetic.decodePoint publicKey.keyData with
    | none => throwParseError "The Ed25519 public key is not a canonical curve point."
    | some publicPoint =>
      match arithmetic.decodePoint (signature.take 32),
        arithmetic.decodeScalar (signature.drop 32) with
      | some r, some s =>
        if ¬ arithmetic.isPrimeOrderPoint publicPoint then
          throwParseError "The Ed25519 public key is not a nonzero prime-order point."
        else if ¬ arithmetic.isPrimeOrderPoint r then .ok false
        else .ok (arithmetic.verifyEd25519 publicPoint r s message)
      | _, _ => .ok false

end Ed25519Signature

namespace EcdsaSignature

def isSignatureAlgorithm (algorithm : X509AlgorithmIdentifier) : Bool :=
  algorithm.oid = "1.2.840.10045.4.3.2" ∨ algorithm.oid = "1.2.840.10045.4.3.3"

/-- The curve that goes with the hash of the algorithm. -/
def decodeParameters (algorithm : X509AlgorithmIdentifier) : Except SignatureError NistPrimeCurve :=
  if ¬ algorithm.parameters.isEmpty then
    throwParseError "ECDSA signature AlgorithmIdentifier parameters must be absent."
  else if algorithm.oid = "1.2.840.10045.4.3.2" then .ok .p256
  else if algorithm.oid = "1.2.840.10045.4.3.3" then .ok .p384
  else throwParseError
    "The X.509 signature algorithm is not a supported ECDSA SHA-2 algorithm."

def decodePublicKey (publicKey : PublicKey) (curve : NistPrimeCurve) :
    Except SignatureError (Nat × Nat) :=
  if publicKey.algorithm.oid ≠ "1.2.840.10045.2.1" then
    throwParseError "SubjectPublicKeyInfo does not contain an id-ecPublicKey key."
  else
    match publicKey.algorithm.parameters.toObjectIdentifier with
    | none =>
        throwParseError "An ECDSA public key requires named-curve OBJECT IDENTIFIER parameters."
    | some curveOid =>
      if curveOid ≠ NistPrimeCurve.p256.oid ∧ curveOid ≠ NistPrimeCurve.p384.oid then
        throwParseError "SubjectPublicKeyInfo uses an unsupported named curve."
      else if curveOid ≠ curve.oid then
        throwParseError
          "The ECDSA signature hash and public-key curve are not a supported matched pair."
      else if publicKey.unusedBitCount ≠ 0 then
        throwParseError "An ECDSA public-key BIT STRING must not contain unused bits."
      else
        match curve.pointFromBytes publicKey.keyData with
        | none =>
            throwParseError "The ECDSA public point is malformed or is not on the selected curve."
        | some point => .ok point

/-- An integer between zero and the order. -/
def decodeInteger (node : Asn1Node) (curve : NistPrimeCurve) :
    Except SignatureError (Option Nat) := do
  requireNode node .universal Asn1UniversalType.integer false
    "An ECDSA ASN.1 value has an unexpected type or form."
  let contents := node.contentData
  if contents = [] ∨ 128 ≤ (contents.headD 0).toNat then
    throwParseError "An ECDSA signature INTEGER must be nonnegative."
  else
    let magnitude :=
      if contents.headD 0 = 0 ∧ 1 < contents.length then contents.drop 1 else contents
    let value := bigEndian magnitude
    if curve.byteLength < magnitude.length ∨ value = 0 ∨ curve.order ≤ value then .ok none
    else .ok (some value)

def decodeSignature (signature : List UInt8) (curve : NistPrimeCurve) :
    Except SignatureError (Option (Nat × Nat)) :=
  if curve.maximumSignatureLength < signature.length then
    throwParseError "The ECDSA signature exceeds the fixed curve-specific DER bound."
  else do
    let root ← parseDer signature
    requireNode root .universal Asn1UniversalType.sequence true
      "An ECDSA ASN.1 value has an unexpected type or form."
    match root.children with
    | [first, second] =>
      let r ← decodeInteger first curve
      let s ← decodeInteger second curve
      match r, s with
      | some r, some s => .ok (some (r, s))
      | _, _ => .ok none
    | _ => throwParseError "ECDSA-Sig-Value must contain exactly r and s."

def verify (arithmetic : SignatureArithmetic) (publicKey : PublicKey)
    (signatureAlgorithm : X509AlgorithmIdentifier) (message signature : List UInt8) :
    Except SignatureError Bool := do
  let curve ← decodeParameters signatureAlgorithm
  let publicPoint ← decodePublicKey publicKey curve
  match ← decodeSignature signature curve with
  | none => .ok false
  | some (r, s) => .ok (arithmetic.verifyEcdsa curve publicPoint r s message)

end EcdsaSignature

namespace RsaSignature

def cMinimumModulusBits : Nat := 2048

def cMaximumModulusBits : Nat := 8192

def cMaximumExponentBytes : Nat := 32

def unexpected : String := "An RSA ASN.1 value has an unexpected type or form."

def requireNullParameters (parameters : Asn1Node) : Except SignatureError Unit := do
  requireNode parameters .universal Asn1UniversalType.null false unexpected
  if parameters.contentData ≠ [] then
    throwParseError "An RSA AlgorithmIdentifier NULL parameter contains data."
  else .ok ()

/-- A nonnegative integer that fits into the native size. -/
def decodeSmallInteger (node : Asn1Node) : Except SignatureError Nat := do
  requireNode node .universal Asn1UniversalType.integer false unexpected
  let magnitude := node.contentData
  if magnitude = [] ∨ 128 ≤ (magnitude.headD 0).toNat then
    throwParseError "An RSA-PSS INTEGER must be nonnegative."
  else
    let magnitude := if magnitude.headD 0 = 0 then magnitude.drop 1 else magnitude
    if 8 < magnitude.length then
      throwParseError "An RSA-PSS integer exceeds the implementation bound."
    else .ok (bigEndian magnitude)

/-- The magnitude of a positive integer. -/
def decodePositiveInteger (node : Asn1Node) : Except SignatureError (List UInt8) := do
  requireNode node .universal Asn1UniversalType.integer false unexpected
  let contents := node.contentData
  if contents = [] ∨ 128 ≤ (contents.headD 0).toNat then
    throwParseError "An RSA INTEGER must be positive."
  else if contents = [0] then
    throwParseError "An RSA INTEGER must be greater than zero."
  else .ok (if contents.headD 0 = 0 then contents.drop 1 else contents)

def decodeHashAlgorithmIdentifier (node : Asn1Node) : Except SignatureError HashAlgorithm := do
  requireNode node .universal Asn1UniversalType.sequence true unexpected
  match node.children with
  | [first, second] =>
    match first.toObjectIdentifier with
    | none => throwParseError "An RSA-PSS hash AlgorithmIdentifier contains no object identifier."
    | some oid =>
      requireNullParameters second
      if oid = "2.16.840.1.101.3.4.2.1" then .ok .sha2_256
      else if oid = "2.16.840.1.101.3.4.2.2" then .ok .sha2_384
      else throwParseError "RSA-PSS uses an unsupported hash algorithm."
  | _ =>
      throwParseError "An RSA-PSS hash AlgorithmIdentifier must contain an OID and NULL parameters."

/-- The fields of PSS parameters that were read. -/
structure PssFields where
  hash : Option HashAlgorithm := none
  mgfHash : Option HashAlgorithm := none
  saltLength : Nat := 20
  trailerField : Nat := 1
  previousTag : Option Nat := none

def decodeMaskGenAlgorithm (value : Asn1Node) : Except SignatureError HashAlgorithm := do
  requireNode value .universal Asn1UniversalType.sequence true unexpected
  match value.children with
  | [first, second] =>
    if first.toObjectIdentifier ≠ some "1.2.840.113549.1.1.8" then
      throwParseError "RSA-PSS requires MGF1."
    else decodeHashAlgorithmIdentifier second
  | _ => throwParseError "The RSA-PSS mask-generation AlgorithmIdentifier is malformed."

def decodePssField (fields : PssFields) (field : Asn1Node) : Except SignatureError PssFields :=
  match field.children with
  | [value] =>
    if field.tagClass ≠ .context ∨ ¬ field.isConstructed ∨ 3 < field.tagNumber then
      throwParseError "RSASSA-PSS-params contains an invalid field."
    else if fields.previousTag.any (field.tagNumber ≤ ·) then
      throwParseError "RSASSA-PSS-params fields are duplicated or out of order."
    else
      let fields := { fields with previousTag := some field.tagNumber }
      match field.tagNumber with
      | 0 => do
        let hash ← decodeHashAlgorithmIdentifier value
        .ok { fields with hash := some hash }
      | 1 => do
        let hash ← decodeMaskGenAlgorithm value
        .ok { fields with mgfHash := some hash }
      | 2 => do
        let saltLength ← decodeSmallInteger value
        .ok { fields with saltLength := saltLength }
      | _ => do
        let trailerField ← decodeSmallInteger value
        .ok { fields with trailerField := trailerField }
  | _ => throwParseError "RSASSA-PSS-params contains an invalid field."

def decodePssFields : List Asn1Node → PssFields → Except SignatureError PssFields
  | [], fields => .ok fields
  | field :: rest, fields => do
    let fields ← decodePssField fields field
    decodePssFields rest fields

def decodePssParameters (parameters : Asn1Node) : Except SignatureError SignatureParameters := do
  requireNode parameters .universal Asn1UniversalType.sequence true unexpected
  let fields ← decodePssFields parameters.children {}
  match fields.hash with
  | none =>
      throwParseError
        "RSA-PSS requires explicit matching SHA-256 or SHA-384 message and MGF1 hashes."
  | some hash =>
    if fields.mgfHash ≠ some hash then
      throwParseError
        "RSA-PSS requires explicit matching SHA-256 or SHA-384 message and MGF1 hashes."
    else if fields.trailerField ≠ 1 then
      throwParseError "RSA-PSS supports only the trailer field value 1 (0xbc)."
    else if hash.digestSize < fields.saltLength then
      throwParseError "The RSA-PSS salt length exceeds the selected hash length."
    else .ok ⟨.pss, hash, fields.saltLength⟩

def decodeSignatureParameters (algorithm : X509AlgorithmIdentifier) :
    Except SignatureError SignatureParameters :=
  if algorithm.oid = "1.2.840.113549.1.1.11" then do
    requireNullParameters algorithm.parameters
    .ok ⟨.pkcs1V15, .sha2_256, 0⟩
  else if algorithm.oid = "1.2.840.113549.1.1.12" then do
    requireNullParameters algorithm.parameters
    .ok ⟨.pkcs1V15, .sha2_384, 0⟩
  else if algorithm.oid = "1.2.840.113549.1.1.10" then
    if algorithm.parameters.isEmpty then throwParseError "RSA-PSS signature parameters are absent."
    else decodePssParameters algorithm.parameters
  else throwParseError "The X.509 signature algorithm is not a supported RSA SHA-2 algorithm."

/-- What the algorithm of a key restricts its use to. -/
def decodeRestrictions (keyAlgorithm : X509AlgorithmIdentifier) :
    Except SignatureError (Option SignatureParameters) :=
  if keyAlgorithm.oid = "1.2.840.113549.1.1.1" then do
    requireNullParameters keyAlgorithm.parameters
    .ok none
  else if keyAlgorithm.oid = "1.2.840.113549.1.1.10" then
    if keyAlgorithm.parameters.isEmpty then .ok none
    else do
      let parameters ← decodePssParameters keyAlgorithm.parameters
      .ok (some parameters)
  else throwParseError "SubjectPublicKeyInfo does not contain a supported RSA public key."

/-- The values of a key and their bounds. -/
def decodeKeyValues (restrictions : Option SignatureParameters) (root : Asn1Node) :
    Except SignatureError PublicKeyData := do
  requireNode root .universal Asn1UniversalType.sequence true unexpected
  match root.children with
  | [first, second] =>
    let modulus ← decodePositiveInteger first
    let exponent ← decodePositiveInteger second
    let modulusBits := (modulus.length - 1) * 8 + (modulus.headD 0).toNat.size
    if modulusBits < cMinimumModulusBits ∨ cMaximumModulusBits < modulusBits ∨
        (modulus.getLastD 0).toNat % 2 = 0 then
      throwParseError "The RSA modulus must be odd and between 2048 and 8192 bits."
    else if cMaximumExponentBytes < exponent.length ∨ (exponent.getLastD 0).toNat % 2 = 0 then
      throwParseError "The RSA public exponent is outside the fixed 17--256-bit odd bound."
    else if bigEndian exponent ≤ 65536 then
      throwParseError "The RSA public exponent must be greater than 65536."
    else .ok ⟨bigEndian modulus, exponent, modulusBits, restrictions⟩
  | _ => throwParseError "RSAPublicKey must contain exactly modulus and publicExponent."

def decodePublicKey (publicKey : PublicKey) : Except SignatureError PublicKeyData := do
  let restrictions ← decodeRestrictions publicKey.algorithm
  if publicKey.unusedBitCount ≠ 0 then
    throwParseError "An RSA subjectPublicKey BIT STRING must contain complete octets."
  else
    let root ← parseDer publicKey.keyData
    decodeKeyValues restrictions root

def parametersMatchKey (signature : SignatureParameters)
    (restrictions : Option SignatureParameters) : Bool :=
  restrictions.all fun key =>
    signature.padding = .pss && signature.hash = key.hash && key.saltLength ≤ signature.saltLength

def verify (arithmetic : SignatureArithmetic) (publicKey : PublicKey)
    (signatureAlgorithm : X509AlgorithmIdentifier) (message signature : List UInt8) :
    Except SignatureError Bool := do
  let parameters ← decodeSignatureParameters signatureAlgorithm
  let key ← decodePublicKey publicKey
  if ¬ parametersMatchKey parameters key.restrictions then
    throwParseError "The RSA signature algorithm violates the public-key algorithm restrictions."
  else .ok (arithmetic.verifyRsa parameters key message signature)

end RsaSignature

def PublicKey.verifySignature (arithmetic : SignatureArithmetic) (publicKey : PublicKey)
    (signatureAlgorithm : X509AlgorithmIdentifier) (message signature : List UInt8) :
    Except SignatureError Bool :=
  if Ed25519Signature.isSignatureAlgorithm signatureAlgorithm then
    Ed25519Signature.verify arithmetic publicKey signatureAlgorithm message signature
  else if EcdsaSignature.isSignatureAlgorithm signatureAlgorithm then
    EcdsaSignature.verify arithmetic publicKey signatureAlgorithm message signature
  else RsaSignature.verify arithmetic publicKey signatureAlgorithm message signature

end ErbslandCore.Cryptology
