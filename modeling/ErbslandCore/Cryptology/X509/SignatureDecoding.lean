import ErbslandCore.Cryptology.Asn1.DerParserProgress
import ErbslandCore.Cryptology.X509.PublicKey

namespace ErbslandCore.Cryptology
open Library Mem
set_option autoImplicit true

/-- The errors are of the family that the validator catches. -/
abbrev RaisesRuntime (x : Except SignatureError α) : Prop :=
  Ensures x (fun _ => True) fun e => e.family = .runtime

theorem throwParseError_runtime (reason : String) :
    RaisesRuntime (throwParseError reason : Except SignatureError α) := rfl

theorem requireNode_runtime (node : Asn1Node) (tagClass : Asn1TagClass) (tagNumber : Nat)
    (constructed : Bool) (reason : String) :
    RaisesRuntime (requireNode node tagClass tagNumber constructed reason) :=
  .ite (fun _ => throwParseError_runtime _) fun _ => .ok trivial

/-- An error is raised that the validator does not catch. -/
def RaisesLogic (x : Except SignatureError α) : Prop := ∃ e, x = .error e ∧ e.family = .logic

/-- The parser raises an error of the other family when the bytes exceed one of its limits. -/
def ExceedsDerLimits (der : List UInt8) : Prop :=
  ∃ reason, DerParser.parseDocument der = .error (.outOfRange reason)

theorem parseDer_logic {der : List UInt8} :
    RaisesLogic (parseDer der) ↔ ExceedsDerLimits der := by
  unfold RaisesLogic parseDer ExceedsDerLimits
  cases h : DerParser.parseDocument der with
  | ok root => simp
  | error e =>
    cases e with
    | parse reason index => simp [SignatureError.family]
    | outOfRange reason => simp [SignatureError.family]
    | stuck => exact absurd h (DerParser.parseDocument_ne_stuck der)

theorem not_raisesLogic {x : Except SignatureError α} (hx : RaisesRuntime x) : ¬ RaisesLogic x := by
  rintro ⟨e, he, hlogic⟩
  have hruntime := hx.of_eq_error he
  rw [hlogic] at hruntime
  cases hruntime

/-- Only the first of two steps raises the other family of errors. -/
theorem bind_logic {x : Except SignatureError α} {f : α → Except SignatureError β}
    (hf : ∀ a, RaisesRuntime (f a)) : RaisesLogic (x >>= f) ↔ RaisesLogic x := by
  cases x with
  | error e => exact ⟨fun ⟨_, he, h⟩ => ⟨e, rfl, by cases he; exact h⟩,
      fun ⟨_, he, h⟩ => ⟨e, rfl, by cases he; exact h⟩⟩
  | ok a => exact iff_of_false (not_raisesLogic (hf a)) (by simp [RaisesLogic])

/-- Only the second of two steps raises the other family of errors. -/
theorem bind_logic_right {x : Except SignatureError α} {f : α → Except SignatureError β}
    (hx : RaisesRuntime x) : RaisesLogic (x >>= f) ↔ ∃ a, x = .ok a ∧ RaisesLogic (f a) := by
  cases x with
  | error e => exact iff_of_false (not_raisesLogic (x := (.error e : Except _ β)) hx) (by simp)
  | ok a => exact ⟨fun h => ⟨a, rfl, h⟩, fun ⟨_, ha, h⟩ => by cases ha; exact h⟩

theorem ite_logic {p : Prop} [Decidable p] {x y : Except SignatureError α} (hx : RaisesRuntime x) :
    RaisesLogic (if p then x else y) ↔ ¬ p ∧ RaisesLogic y := by
  split
  next h => exact iff_of_false (not_raisesLogic hx) fun ⟨hn, _⟩ => hn h
  next h => exact ⟨fun hy => ⟨h, hy⟩, fun hy => hy.2⟩

theorem Ed25519Signature.verify_runtime (arithmetic : SignatureArithmetic) (publicKey : PublicKey)
    (algorithm : X509AlgorithmIdentifier) (message signature : List UInt8) :
    RaisesRuntime (Ed25519Signature.verify arithmetic publicKey algorithm message signature) := by
  have hrequire (algorithm : X509AlgorithmIdentifier) :
      RaisesRuntime (requireEd25519Algorithm algorithm) :=
    .ite (fun _ => throwParseError_runtime _) fun _ =>
      .ite (fun _ => throwParseError_runtime _) fun _ => .ok trivial
  refine (hrequire _).bind fun _ _ => (hrequire _).bind fun _ _ => ?_
  refine .ite (fun _ => throwParseError_runtime _) fun _ =>
    .ite (fun _ => throwParseError_runtime _) fun _ => ?_
  split
  next => exact throwParseError_runtime _
  next =>
    split
    next =>
      exact .ite (fun _ => throwParseError_runtime _) fun _ =>
        .ite (fun _ => .ok trivial) fun _ => .ok trivial
    next => exact .ok trivial

namespace EcdsaSignature

theorem decodeParameters_runtime (algorithm : X509AlgorithmIdentifier) :
    RaisesRuntime (decodeParameters algorithm) :=
  .ite (fun _ => throwParseError_runtime _) fun _ => .ite (fun _ => .ok trivial) fun _ =>
    .ite (fun _ => .ok trivial) fun _ => throwParseError_runtime _

theorem decodePublicKey_runtime (publicKey : PublicKey) (curve : NistPrimeCurve) :
    RaisesRuntime (decodePublicKey publicKey curve) := by
  refine .ite (fun _ => throwParseError_runtime _) fun _ => ?_
  split
  next => exact throwParseError_runtime _
  next =>
    refine .ite (fun _ => throwParseError_runtime _) fun _ =>
      .ite (fun _ => throwParseError_runtime _) fun _ =>
      .ite (fun _ => throwParseError_runtime _) fun _ => ?_
    split
    next => exact throwParseError_runtime _
    next => exact .ok trivial

theorem decodeInteger_runtime (node : Asn1Node) (curve : NistPrimeCurve) :
    RaisesRuntime (decodeInteger node curve) := by
  refine (requireNode_runtime _ _ _ _ _).bind fun _ _ => ?_
  exact .ite (fun _ => throwParseError_runtime _) fun _ =>
    .ite (fun _ => .ok trivial) fun _ => .ok trivial

theorem decodeSignature_logic {signature : List UInt8} {curve : NistPrimeCurve} :
    RaisesLogic (decodeSignature signature curve) ↔
      signature.length ≤ curve.maximumSignatureLength ∧ ExceedsDerLimits signature := by
  unfold decodeSignature
  rw [ite_logic (throwParseError_runtime _), Nat.not_lt, bind_logic, parseDer_logic]
  intro root
  refine (requireNode_runtime _ _ _ _ _).bind fun _ _ => ?_
  split
  next =>
    refine (decodeInteger_runtime _ _).bind fun r _ =>
      (decodeInteger_runtime _ _).bind fun s _ => ?_
    split
    next => exact .ok trivial
    next => exact .ok trivial
  next => exact throwParseError_runtime _

theorem verify_logic {arithmetic : SignatureArithmetic} {publicKey : PublicKey}
    {algorithm : X509AlgorithmIdentifier} {message signature : List UInt8} :
    RaisesLogic (verify arithmetic publicKey algorithm message signature) ↔
      ∃ curve, decodeParameters algorithm = .ok curve ∧
        (∃ point, decodePublicKey publicKey curve = .ok point) ∧
        signature.length ≤ curve.maximumSignatureLength ∧ ExceedsDerLimits signature := by
  unfold verify
  rw [bind_logic_right (decodeParameters_runtime _)]
  refine exists_congr fun curve => and_congr_right fun _ => ?_
  rw [bind_logic_right (decodePublicKey_runtime _ _), ← exists_and_right]
  refine exists_congr fun point => and_congr_right fun _ => ?_
  rw [bind_logic, decodeSignature_logic]
  intro values
  split
  next => exact .ok trivial
  next => exact .ok trivial

end EcdsaSignature

namespace RsaSignature

theorem requireNullParameters_runtime (parameters : Asn1Node) :
    RaisesRuntime (requireNullParameters parameters) :=
  (requireNode_runtime _ _ _ _ _).bind fun _ _ =>
    .ite (fun _ => throwParseError_runtime _) fun _ => .ok trivial

theorem decodeSmallInteger_runtime (node : Asn1Node) : RaisesRuntime (decodeSmallInteger node) :=
  (requireNode_runtime _ _ _ _ _).bind fun _ _ =>
    .ite (fun _ => throwParseError_runtime _) fun _ =>
      .ite (fun _ => throwParseError_runtime _) fun _ => .ok trivial

theorem decodePositiveInteger_runtime (node : Asn1Node) :
    RaisesRuntime (decodePositiveInteger node) :=
  (requireNode_runtime _ _ _ _ _).bind fun _ _ =>
    .ite (fun _ => throwParseError_runtime _) fun _ =>
      .ite (fun _ => throwParseError_runtime _) fun _ => .ok trivial

theorem decodeHashAlgorithmIdentifier_runtime (node : Asn1Node) :
    RaisesRuntime (decodeHashAlgorithmIdentifier node) := by
  refine (requireNode_runtime _ _ _ _ _).bind fun _ _ => ?_
  split
  next =>
    split
    next => exact throwParseError_runtime _
    next =>
      exact (requireNullParameters_runtime _).bind fun _ _ => .ite (fun _ => .ok trivial)
        fun _ => .ite (fun _ => .ok trivial) fun _ => throwParseError_runtime _
  next => exact throwParseError_runtime _

theorem decodePssField_runtime (fields : PssFields) (field : Asn1Node) :
    RaisesRuntime (decodePssField fields field) := by
  unfold decodePssField
  split
  next =>
    refine .ite (fun _ => throwParseError_runtime _) fun _ =>
      .ite (fun _ => throwParseError_runtime _) fun _ => ?_
    dsimp only
    split
    next => exact (decodeHashAlgorithmIdentifier_runtime _).bind fun _ _ => .ok trivial
    next =>
      refine Ensures.bind (m := fun _ => True) ?_ fun _ _ => .ok trivial
      refine (requireNode_runtime _ _ _ _ _).bind fun _ _ => ?_
      split
      next =>
        exact .ite (fun _ => throwParseError_runtime _) fun _ =>
          decodeHashAlgorithmIdentifier_runtime _
      next => exact throwParseError_runtime _
    next => exact (decodeSmallInteger_runtime _).bind fun _ _ => .ok trivial
    next => exact (decodeSmallInteger_runtime _).bind fun _ _ => .ok trivial
  next => exact throwParseError_runtime _

theorem decodePssFields_runtime (list : List Asn1Node) (fields : PssFields) :
    RaisesRuntime (decodePssFields list fields) := by
  induction list generalizing fields with
  | nil => exact .ok trivial
  | cons field list ih => exact (decodePssField_runtime _ _).bind fun _ _ => ih _

theorem decodePssParameters_runtime (parameters : Asn1Node) :
    RaisesRuntime (decodePssParameters parameters) := by
  refine (requireNode_runtime _ _ _ _ _).bind fun _ _ =>
    (decodePssFields_runtime _ _).bind fun fields _ => ?_
  split
  next => exact throwParseError_runtime _
  next =>
    exact .ite (fun _ => throwParseError_runtime _) fun _ =>
      .ite (fun _ => throwParseError_runtime _) fun _ =>
      .ite (fun _ => throwParseError_runtime _) fun _ => .ok trivial

theorem decodeSignatureParameters_runtime (algorithm : X509AlgorithmIdentifier) :
    RaisesRuntime (decodeSignatureParameters algorithm) :=
  .ite (fun _ => (requireNullParameters_runtime _).bind fun _ _ => .ok trivial) fun _ =>
    .ite (fun _ => (requireNullParameters_runtime _).bind fun _ _ => .ok trivial) fun _ =>
    .ite (fun _ => .ite (fun _ => throwParseError_runtime _)
      fun _ => decodePssParameters_runtime _) fun _ => throwParseError_runtime _

theorem decodeRestrictions_runtime (algorithm : X509AlgorithmIdentifier) :
    RaisesRuntime (decodeRestrictions algorithm) :=
  .ite (fun _ => (requireNullParameters_runtime _).bind fun _ _ => .ok trivial) fun _ =>
    .ite (fun _ => .ite (fun _ => .ok trivial)
      fun _ => (decodePssParameters_runtime _).bind fun _ _ => .ok trivial)
    fun _ => throwParseError_runtime _

theorem decodeKeyValues_runtime (restrictions : Option SignatureParameters) (root : Asn1Node) :
    RaisesRuntime (decodeKeyValues restrictions root) := by
  refine (requireNode_runtime _ _ _ _ _).bind fun _ _ => ?_
  split
  next =>
    refine (decodePositiveInteger_runtime _).bind fun modulus _ =>
      (decodePositiveInteger_runtime _).bind fun exponent _ => ?_
    exact .ite (fun _ => throwParseError_runtime _) fun _ =>
      .ite (fun _ => throwParseError_runtime _) fun _ =>
      .ite (fun _ => throwParseError_runtime _) fun _ => .ok trivial
  next => exact throwParseError_runtime _

theorem decodePublicKey_logic {publicKey : PublicKey} :
    RaisesLogic (decodePublicKey publicKey) ↔
      (∃ restrictions, decodeRestrictions publicKey.algorithm = .ok restrictions) ∧
        publicKey.unusedBitCount = 0 ∧ ExceedsDerLimits publicKey.keyData := by
  unfold decodePublicKey
  rw [bind_logic_right (decodeRestrictions_runtime _), ← exists_and_right]
  refine exists_congr fun restrictions => and_congr_right fun _ => ?_
  rw [ite_logic (throwParseError_runtime _), Decidable.not_not,
    bind_logic (decodeKeyValues_runtime restrictions), parseDer_logic]

theorem verify_logic {arithmetic : SignatureArithmetic} {publicKey : PublicKey}
    {algorithm : X509AlgorithmIdentifier} {message signature : List UInt8} :
    RaisesLogic (verify arithmetic publicKey algorithm message signature) ↔
      (∃ parameters, decodeSignatureParameters algorithm = .ok parameters) ∧
        (∃ restrictions, decodeRestrictions publicKey.algorithm = .ok restrictions) ∧
        publicKey.unusedBitCount = 0 ∧ ExceedsDerLimits publicKey.keyData := by
  unfold verify
  rw [bind_logic_right (decodeSignatureParameters_runtime _), ← exists_and_right]
  refine exists_congr fun parameters => and_congr_right fun _ => ?_
  rw [bind_logic, decodePublicKey_logic]
  exact fun key => .ite (fun _ => throwParseError_runtime _) fun _ => .ok trivial

end RsaSignature

/-- A verification gets to a DER value beyond the limits of the parser: the signature for a usable
key of a matching curve, or the key for usable RSA algorithms. -/
def DecodesBeyondLimits (publicKey : PublicKey) (algorithm : X509AlgorithmIdentifier)
    (signature : List UInt8) : Prop :=
  if Ed25519Signature.isSignatureAlgorithm algorithm then False
  else if EcdsaSignature.isSignatureAlgorithm algorithm then
    ∃ curve, EcdsaSignature.decodeParameters algorithm = .ok curve ∧
      (∃ point, EcdsaSignature.decodePublicKey publicKey curve = .ok point) ∧
      signature.length ≤ curve.maximumSignatureLength ∧ ExceedsDerLimits signature
  else
    (∃ parameters, RsaSignature.decodeSignatureParameters algorithm = .ok parameters) ∧
      (∃ restrictions, RsaSignature.decodeRestrictions publicKey.algorithm = .ok restrictions) ∧
      publicKey.unusedBitCount = 0 ∧ ExceedsDerLimits publicKey.keyData

theorem verifySignature_logic {arithmetic : SignatureArithmetic} {publicKey : PublicKey}
    {algorithm : X509AlgorithmIdentifier} {message signature : List UInt8} :
    RaisesLogic (publicKey.verifySignature arithmetic algorithm message signature) ↔
      DecodesBeyondLimits publicKey algorithm signature := by
  unfold PublicKey.verifySignature DecodesBeyondLimits
  split
  next =>
    exact iff_of_false (not_raisesLogic (Ed25519Signature.verify_runtime _ _ _ _ _)) not_false
  next =>
    split
    next => exact EcdsaSignature.verify_logic
    next => exact RsaSignature.verify_logic

end ErbslandCore.Cryptology
