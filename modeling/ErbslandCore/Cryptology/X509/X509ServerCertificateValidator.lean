import ErbslandCore.Time.Timestamp
import Mathlib.Data.List.Basic

namespace ErbslandCore.Cryptology
open Time
set_option autoImplicit true

inductive X509CertificateValidationFailureCategory where
  | emptyPeerCertificates
  | emptyTrustAnchors
  | invalidValidationTime
  | invalidReferenceIdentity
  | invalidPresentedIdentity
  | candidateLimitExceeded
  | pathDepthExceeded
  | signatureLimitExceeded
  | pathLoop
  | issuerNotFound
  | signatureInvalid
  | signatureUnsupported
  | certificateProfileRejected
  | certificateNotYetValid
  | certificateExpired
  | unknownCriticalExtension
  | basicConstraintsRequired
  | notCertificateAuthority
  | keyUsageRejected
  | extendedKeyUsageRejected
  | pathLengthExceeded
  | serverIdentityMismatch
  deriving DecidableEq

/-- The two unrelated families of exceptions: `err::RuntimeError` and `err::LogicError`. -/
inductive ErrorFamily where
  | runtime
  | logic
  deriving DecidableEq

structure X509Extension where
  oid : String
  isCritical : Bool
  deriving DecidableEq

structure X509BasicConstraints where
  isCertificateAuthority : Bool
  pathLength : Option Nat
  deriving DecidableEq

structure X509KeyUsage where
  digitalSignature : Bool
  keyCertificateSign : Bool
  deriving DecidableEq

/-- The fields of certificates, which are identified by their DER, the verification of a
certificate's signature with the key of an issuer, and the canonical form of a DNS name. -/
structure X509Access (Certificate : Type) where
  issuer : Certificate → List UInt8
  subject : Certificate → List UInt8
  issuerId : Certificate → List UInt8
  subjectId : Certificate → List UInt8
  signatureUnusedBitCount : Certificate → Nat
  verifySignature : Certificate → Certificate → Except ErrorFamily Bool
  hasProfileIssues : Certificate → Bool
  validFrom : Certificate → Timestamp
  validTo : Certificate → Timestamp
  extensions : Certificate → List X509Extension
  basicConstraints : Certificate → Option X509BasicConstraints
  keyUsage : Certificate → Option X509KeyUsage
  extendedKeyUsage : Certificate → List String
  ipAddresses : Certificate → List (List UInt8)
  dnsNames : Certificate → List (List Char)
  canonicalName : List Char → Except String (List Char)

/-- A reference identity: an address, or the ASCII form of a name. -/
inductive Host where
  | address (bytes : List UInt8)
  | name (idnaAscii : List Char)
  deriving DecidableEq

/-- What is to be validated: the policy, the peer certificates, the identity and the time. -/
structure X509ValidationRequest (Certificate : Type) where
  access : X509Access Certificate
  trustAnchors : List Certificate
  intermediates : List Certificate
  peerCertificates : List Certificate
  referenceIdentity : Host
  validationTime : Timestamp

structure Candidate (Certificate : Type) where
  certificate : Certificate
  isAnchor : Bool
  deriving DecidableEq

inductive EdgeStatus where
  | valid
  | invalid
  | unsupported
  deriving DecidableEq

structure VerifiedEdge (Certificate : Type) where
  child : Certificate
  issuer : Certificate
  status : EdgeStatus
  deriving DecidableEq

structure X509CertificateValidationFailure (Certificate : Type) where
  category : X509CertificateValidationFailureCategory
  certificate : Option Certificate
  issuerCandidate : Option Certificate
  path : List Certificate
  diagnostic : String
  deriving DecidableEq

inductive X509CertificateValidation (Certificate : Type) where
  | accepted (validatedPath : List Certificate)
  | rejected (failure : X509CertificateValidationFailure Certificate)
  deriving DecidableEq

/-- The state of the validator. -/
structure X509ServerCertificateValidator (Certificate : Type) where
  candidates : List (Candidate Certificate) := []
  path : List Certificate := []
  verifiedEdges : List (VerifiedEdge Certificate) := []
  signatureVerificationCount : Nat := 0
  bestFailureDepth : Nat := 0
  resourceLimitExhausted : Bool := false
  bestFailure : Option (X509CertificateValidationFailure Certificate) := none

namespace X509ServerCertificatePolicy

def cMaximumCandidateCertificates : Nat := 256

def cMaximumPathDepth : Nat := 16

def cMaximumSignatureVerifications : Nat := 1024

end X509ServerCertificatePolicy

/-- Labels of a DNS name. -/
structure DnsName where
  labels : List (List Char)
  hasWildcard : Bool
  deriving DecidableEq

def toAsciiLowercase (c : Char) : Char :=
  if 'A' ≤ c ∧ c ≤ 'Z' then Char.ofNat (c.toNat + 32) else c

/-- Texts between the dots of a name. -/
def splitLabels : List Char → List (List Char)
  | [] => [[]]
  | '.' :: rest => [] :: splitLabels rest
  | c :: rest =>
    match splitLabels rest with
    | [] => [[c]]
    | label :: labels => (c :: label) :: labels

namespace X509ValidationRequest
open X509CertificateValidationFailureCategory

variable {Certificate : Type} (r : X509ValidationRequest Certificate)

/-- A check that failed: its category and diagnostic. -/
abbrev Issue := X509CertificateValidationFailureCategory × String

def criticalOids : List String :=
  ["2.5.29.14", "2.5.29.15", "2.5.29.17", "2.5.29.19", "2.5.29.35", "2.5.29.37"]

def criticalExtensionIssue (certificate : Certificate) : Option Issue :=
  if (r.access.extensions certificate).any
      fun e => e.isCritical && !criticalOids.contains e.oid then
    some (unknownCriticalExtension, "The certificate contains an unsupported critical extension.")
  else none

/-- The checks of `validateNonAnchorCertificate`, in its order. -/
def nonAnchorIssue (certificate : Certificate) : Option Issue :=
  if r.access.hasProfileIssues certificate then
    some (certificateProfileRejected, "The certificate contains compatible-parser profile issues.")
  else if r.validationTime.isBefore (r.access.validFrom certificate) then
    some (certificateNotYetValid,
      "The certificate is not yet valid at the requested validation time.")
  else if (r.access.validTo certificate).isBefore r.validationTime then
    some (certificateExpired, "The certificate is expired at the requested validation time.")
  else r.criticalExtensionIssue certificate

def hasCriticalBasicConstraints (certificate : Certificate) : Bool :=
  match (r.access.extensions certificate).find? (·.oid = "2.5.29.19") with
  | some e => e.isCritical
  | none => false

/-- An absent extension permits every purpose, a present but empty one none. -/
def permitsServerAuthentication (certificate : Certificate) : Bool :=
  if r.access.extendedKeyUsage certificate = [] then
    !(r.access.extensions certificate).any (·.oid = "2.5.29.37")
  else
    (r.access.extendedKeyUsage certificate).any fun oid =>
      oid = "1.3.6.1.5.5.7.3.1" || oid = "2.5.29.37.0"

/-- The checks of `validateTarget`. -/
def targetIssue (certificate : Certificate) : Option Issue :=
  if (r.access.basicConstraints certificate).any (·.isCertificateAuthority) then
    some (notCertificateAuthority, "The target certificate asserts Basic Constraints cA=true.")
  else if (r.access.keyUsage certificate).any (!·.digitalSignature) then
    some (keyUsageRejected, "The target Key Usage does not permit digitalSignature.")
  else if !r.permitsServerAuthentication certificate then
    some (extendedKeyUsageRejected,
      "The target Extended Key Usage does not permit TLS server authentication.")
  else none

def isSelfIssued (certificate : Certificate) : Bool :=
  r.access.issuer certificate = r.access.subject certificate

/-- The certificates below a position, without the target and without the self-issued ones. -/
def subordinateCaCount (path : List Certificate) (pathIndex : Nat) : Nat :=
  ((path.drop 1).take (pathIndex - 1)).countP fun c => !r.isSelfIssued c

/-- The checks of `validateIntermediate`. -/
def intermediateIssue (path : List Certificate) (certificate : Certificate) (pathIndex : Nat) :
    Option Issue :=
  match r.access.basicConstraints certificate with
  | none =>
    some (basicConstraintsRequired,
      "An intermediate requires a critical Basic Constraints extension.")
  | some constraints =>
    if !r.hasCriticalBasicConstraints certificate then
      some (basicConstraintsRequired,
        "An intermediate requires a critical Basic Constraints extension.")
    else if !constraints.isCertificateAuthority then
      some (notCertificateAuthority, "An intermediate certificate does not assert cA=true.")
    else if (r.access.keyUsage certificate).any (!·.keyCertificateSign) then
      some (keyUsageRejected, "The intermediate Key Usage does not permit keyCertSign.")
    else if !r.permitsServerAuthentication certificate then
      some (extendedKeyUsageRejected,
        "The intermediate Extended Key Usage does not permit TLS server authentication.")
    else if constraints.pathLength.any (· < r.subordinateCaCount path pathIndex) then
      some (pathLengthExceeded, "The intermediate Basic Constraints pathLenConstraint is exceeded.")
    else none

/-- Parse a DNS name into the labels of its canonical form; a wildcard is the whole first label. -/
def parseDnsNameOrThrow (name : List Char) (allowWildcard : Bool) : Except String DnsName :=
  if ['*', '.'].isPrefixOf name then
    if !allowWildcard then .error "A DNS reference identity must not contain a wildcard."
    else (r.access.canonicalName (name.drop 2)).map fun canonical =>
      ⟨['*'] :: splitLabels canonical, true⟩
  else if name.contains '*' then
    .error "A certificate wildcard must be the complete leftmost DNS label."
  else (r.access.canonicalName name).map fun canonical => ⟨splitLabels canonical, false⟩

def dnsNameMatches (reference presented : DnsName) : Bool :=
  if reference.labels.length ≠ presented.labels.length then false
  else
    (List.range reference.labels.length).all fun index =>
      (presented.hasWildcard && index = 0) ||
        (reference.labels[index]?.map (·.map toAsciiLowercase) =
          presented.labels[index]?.map (·.map toAsciiLowercase))

/-- The loop over the presented names: whether one matches, and the first reason why one could not
be parsed before. -/
def matchDnsNames (reference : DnsName) :
    List (List Char) → Option String → Bool × Option String
  | [], diagnostic => (false, diagnostic)
  | presented :: rest, diagnostic =>
    match r.parseDnsNameOrThrow presented true with
    | .ok name =>
      if dnsNameMatches reference name then (true, diagnostic)
      else matchDnsNames reference rest diagnostic
    | .error reason => matchDnsNames reference rest (diagnostic <|> some reason)

/-- `matchServerIdentity` with the diagnostic of an invalid presented identity. The reference name
was parsed before. -/
def matchServerIdentity (certificate : Certificate) : Bool × Option String :=
  match r.referenceIdentity with
  | .address bytes => ((r.access.ipAddresses certificate).contains bytes, none)
  | .name idnaAscii =>
    match r.parseDnsNameOrThrow idnaAscii false with
    | .error _ => (false, none)
    | .ok reference => r.matchDnsNames reference (r.access.dnsNames certificate) none

/-- The reason why the reference identity cannot be used. -/
def referenceIssue : Option String :=
  match r.referenceIdentity with
  | .address _ => none
  | .name idnaAscii =>
    match r.parseDnsNameOrThrow idnaAscii false with
    | .error reason => some reason
    | .ok _ => none

def identityIssue (certificate : Certificate) : Option Issue :=
  match r.matchServerIdentity certificate with
  | (true, _) => none
  | (false, some diagnostic) => some (invalidPresentedIdentity, diagnostic)
  | (false, none) =>
    some (serverIdentityMismatch, "No subjectAltName matches the requested DNS name or IP address.")

/-- The first check that fails on a path, with its certificate: on the target, then on the
intermediates from the target on, then on the identity. -/
def selectedPathIssue (path : List Certificate) : Option (Certificate × Issue) :=
  match path with
  | [] => none
  | target :: _ =>
    ((r.nonAnchorIssue target <|> r.targetIssue target).map (target, ·)) <|>
    ((List.range (path.length - 2)).findSome? fun index =>
      path[index + 1]?.bind fun certificate =>
        (r.nonAnchorIssue certificate <|> r.intermediateIssue path certificate (index + 1)).map
          (certificate, ·)) <|>
    ((r.identityIssue target).map (target, ·))

def hasIssuerLink (child issuer : Certificate) : Bool :=
  if r.access.issuer child ≠ r.access.subject issuer then false
  else
    r.access.issuerId child = [] || r.access.subjectId issuer = [] ||
      r.access.issuerId child = r.access.subjectId issuer

end X509ValidationRequest

namespace X509ServerCertificateValidator
open X509CertificateValidationFailureCategory X509ServerCertificatePolicy

variable {Certificate : Type} [DecidableEq Certificate] (r : X509ValidationRequest Certificate)

/-- Keep the failure at the greatest depth, the last one of several. -/
def recordFailure (s : X509ServerCertificateValidator Certificate)
    (category : X509CertificateValidationFailureCategory) (certificate : Option Certificate)
    (diagnostic : String) (issuerCandidate : Option Certificate := none) :
    X509ServerCertificateValidator Certificate :=
  if s.bestFailure.isSome && s.path.length < s.bestFailureDepth then s
  else
    { s with
      bestFailureDepth := s.path.length
      bestFailure := some ⟨category, certificate, issuerCandidate, s.path, diagnostic⟩ }

/-- Add a candidate, or mark the one that is there; the target is none. -/
def addCandidate (target certificate : Certificate) (isAnchor : Bool) :
    List (Candidate Certificate) → List (Candidate Certificate)
  | [] => if certificate = target then [] else [⟨certificate, isAnchor⟩]
  | candidate :: candidates =>
    if candidate.certificate = certificate then
      { candidate with isAnchor := candidate.isAnchor || isAnchor } :: candidates
    else candidate :: addCandidate target certificate isAnchor candidates

/-- Add certificates within the limit; the target is the last candidate. -/
def collect (target : Certificate) :
    List (Certificate × Bool) → Nat → X509ServerCertificateValidator Certificate →
      Bool × X509ServerCertificateValidator Certificate
  | [], _, s => (true, { s with candidates := s.candidates ++ [⟨target, false⟩] })
  | (certificate, anchor) :: rest, count, s =>
    let isNew := certificate ≠ target ∧ ∀ c ∈ s.candidates, c.certificate ≠ certificate
    let count := if isNew then count + 1 else count
    if isNew ∧ cMaximumCandidateCertificates < count then
      (false, { s.recordFailure candidateLimitExceeded (some target)
        "The aggregate unique-certificate limit of 256 was exceeded." with
          resourceLimitExhausted := true })
    else
      collect target rest count { s with
        candidates := addCandidate target certificate anchor s.candidates }

/-- The certificates that `collectCandidates` goes through, with their trust. -/
def pool (r : X509ValidationRequest Certificate) : List (Certificate × Bool) :=
  (r.peerCertificates.tail.map (·, false)) ++ (r.intermediates.map (·, false)) ++
    (r.trustAnchors.map (·, true))

def collectCandidates (target : Certificate) (s : X509ServerCertificateValidator Certificate) :
    Bool × X509ServerCertificateValidator Certificate :=
  collect target (pool r) 1 s

/-- What `verifySignature` gives, where the caught family of exceptions is an unsupported
signature. -/
def signatureStatus (child issuer : Certificate) : Except ErrorFamily EdgeStatus :=
  if r.access.signatureUnusedBitCount child ≠ 0 then .ok .invalid
  else
    match r.access.verifySignature child issuer with
    | .ok true => .ok .valid
    | .ok false => .ok .invalid
    | .error .runtime => .ok .unsupported
    | .error .logic => .error .logic

def verifyEdge (s : X509ServerCertificateValidator Certificate) (child issuer : Certificate) :
    Except ErrorFamily (EdgeStatus × X509ServerCertificateValidator Certificate) :=
  match s.verifiedEdges.find? fun e => e.child = child ∧ e.issuer = issuer with
  | some edge => .ok (edge.status, s)
  | none =>
    if cMaximumSignatureVerifications ≤ s.signatureVerificationCount then
      .ok (.unsupported, { s.recordFailure signatureLimitExceeded (some child)
        "The 1024-attempt signature-verification limit was exhausted." (some issuer) with
          resourceLimitExhausted := true })
    else
      match signatureStatus r child issuer with
      | .error family => .error family
      | .ok status =>
        .ok (status, { s with
          signatureVerificationCount := s.signatureVerificationCount + 1
          verifiedEdges := s.verifiedEdges ++ [⟨child, issuer, status⟩] })

def validateSelectedPath (s : X509ServerCertificateValidator Certificate) :
    Bool × X509ServerCertificateValidator Certificate :=
  match r.selectedPathIssue s.path with
  | none => (true, s)
  | some (certificate, category, diagnostic) =>
    (false, s.recordFailure category (some certificate) diagnostic)

/-- How a search ends: with a path, without one, or with an exception that leaves it. The last
case stands for a search that takes more steps than it was given. -/
inductive Search (Certificate : Type) where
  | accepted (s : X509ServerCertificateValidator Certificate)
  | rejected (s : X509ServerCertificateValidator Certificate)
  | escaped (family : ErrorFamily)
  | stuck

/-- With an issuer that signed at the end of the path, check the path or go on beyond it. -/
def followIssuer
    (next : X509ServerCertificateValidator Certificate → Certificate → Search Certificate)
    (candidate : Candidate Certificate) (s : X509ServerCertificateValidator Certificate) :
    Search Certificate :=
  if candidate.isAnchor then
    let checked := validateSelectedPath r s
    if checked.1 then .accepted checked.2 else .rejected checked.2
  else next s candidate.certificate

/-- What `buildPath` does with the status of an edge: it follows the issuer, gives up at a limit, or
goes on with the other candidates. -/
def afterEdge
    (next : X509ServerCertificateValidator Certificate → Certificate → Search Certificate)
    (child : Certificate) (candidate : Candidate Certificate)
    (others : X509ServerCertificateValidator Certificate → Search Certificate) :
    EdgeStatus → X509ServerCertificateValidator Certificate → Search Certificate
  | .valid, s =>
    match followIssuer r next candidate { s with path := s.path ++ [candidate.certificate] } with
    | .rejected s =>
      let s := { s with path := s.path.dropLast }
      if s.resourceLimitExhausted then .rejected s else others s
    | result => result
  | .unsupported, s =>
    if s.resourceLimitExhausted then .rejected s
    else others (s.recordFailure signatureUnsupported (some child)
      "The certificate signature algorithm is unsupported or malformed."
      (some candidate.certificate))
  | .invalid, s =>
    if s.resourceLimitExhausted then .rejected s
    else others (s.recordFailure signatureInvalid (some child)
      "The issuer candidate did not verify the certificate signature."
      (some candidate.certificate))

/-- The loop of `buildPath` over the candidates. -/
def tryCandidates
    (next : X509ServerCertificateValidator Certificate → Certificate → Search Certificate)
    (child : Certificate) : List (Candidate Certificate) → Bool →
      X509ServerCertificateValidator Certificate → Search Certificate
  | [], foundNameCandidate, s =>
    .rejected (if foundNameCandidate then s else s.recordFailure issuerNotFound (some child)
      "No issuer candidate has the required exact subject-name linkage.")
  | candidate :: rest, foundNameCandidate, s =>
    let issuer := candidate.certificate
    if !r.hasIssuerLink child issuer then tryCandidates next child rest foundNameCandidate s
    else if issuer ∈ s.path then
      tryCandidates next child rest true (s.recordFailure pathLoop (some child)
        "The prospective path repeats a certificate." (some issuer))
    else if cMaximumPathDepth ≤ s.path.length then
      tryCandidates next child rest true (s.recordFailure pathDepthExceeded (some child)
        "The prospective path exceeds the 16-certificate depth limit." (some issuer))
    else
      match verifyEdge r s child issuer with
      | .error family => .escaped family
      | .ok (status, s) =>
        afterEdge r next child candidate (tryCandidates next child rest true) status s

/-- The depth-first search for a path, with as many levels as given. -/
def buildPath : Nat → X509ServerCertificateValidator Certificate → Certificate →
    Search Certificate
  | 0, _, _ => .stuck
  | levels + 1, s, child =>
    if s.resourceLimitExhausted then .rejected s
    else tryCandidates r (buildPath levels) child s.candidates false s

/-- The failure that was recorded, or a general one. -/
def rejectedResult (target : Certificate) (s : X509ServerCertificateValidator Certificate) :
    X509CertificateValidation Certificate :=
  .rejected (s.bestFailure.getD ⟨issuerNotFound, some target, none, s.path,
    "No path to an explicit trust anchor could be constructed."⟩)

/-- How `validate` ends: with its result and whether a limit was hit, or with an exception. -/
inductive Outcome (Certificate : Type) where
  | result (validation : X509CertificateValidation Certificate) (limitHit : Bool)
  | escaped (family : ErrorFamily)
  | stuck
  deriving DecidableEq

/-- The levels that a search can need: one more than the certificates of the longest path. -/
def cSearchLevels : Nat := cMaximumPathDepth + 1

def validate : Outcome Certificate :=
  match r.peerCertificates with
  | [] => .result (.rejected ⟨emptyPeerCertificates, none, none, [],
      "The peer supplied no target certificate."⟩) false
  | target :: _ =>
    if r.trustAnchors = [] then
      .result (.rejected ⟨emptyTrustAnchors, none, none, [],
        "The policy contains no explicit trust anchor."⟩) false
    else if !r.validationTime.isValid then
      .result (.rejected ⟨invalidValidationTime, some target, none, [],
        "The requested validation time is invalid."⟩) false
    else
      let s : X509ServerCertificateValidator Certificate := {}
      match r.referenceIssue with
      | some reason =>
        .result (rejectedResult target
          (s.recordFailure invalidReferenceIdentity (some target) reason)) false
      | none =>
        let collected := collectCandidates r target s
        if !collected.1 then
          .result (rejectedResult target collected.2) collected.2.resourceLimitExhausted
        else
          let s := { collected.2 with path := [target] }
          if target ∈ r.trustAnchors then
            let checked := validateSelectedPath r s
            if checked.1 then .result (.accepted checked.2.path) checked.2.resourceLimitExhausted
            else .result (rejectedResult target checked.2) checked.2.resourceLimitExhausted
          else
            match buildPath r cSearchLevels s target with
            | .accepted s => .result (.accepted s.path) s.resourceLimitExhausted
            | .rejected s => .result (rejectedResult target s) s.resourceLimitExhausted
            | .escaped family => .escaped family
            | .stuck => .stuck

end X509ServerCertificateValidator
end ErbslandCore.Cryptology
