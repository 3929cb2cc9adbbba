import ErbslandCore.Cryptology.Asn1.DerParser

namespace ErbslandCore.Cryptology.DerParser
open Library Mem Text
set_option autoImplicit true

/-- The loops have enough steps. -/
def NotStuck (e : DerError) : Prop := e ≠ .stuck

theorem ByteReader.le_advance (reader : ByteReader) (n : Nat) :
    reader.position ≤ (reader.advance n).position := by
  exact Nat.le_add_right _ _

theorem readByte_progress (reader : ByteReader) :
    Ensures (readByte reader) (fun r => reader.position < r.2.position) NotStuck := by
  unfold readByte
  split
  next => exact .error nofun
  next => exact .ok (Nat.lt_succ_self _)

theorem readTagNumber_progress (identifier : UInt8) (reader : ByteReader) :
    Ensures (readTagNumber identifier reader) (fun r => reader.position ≤ r.2.position) NotStuck := by
  unfold readTagNumber
  refine .ite (fun _ => .ok (Nat.le_refl _)) fun _ => ?_
  split
  next => exact .error nofun
  next =>
    refine .ite (fun _ => .error nofun) fun _ => ?_
    split
    next => exact .error nofun
    next => exact .error nofun
    next => exact .error nofun
    next =>
      refine .ite (fun _ => .error nofun) fun _ => .ite (fun _ => .error nofun) fun _ => .ok ?_
      exact ByteReader.le_advance _ _

theorem readLength_progress (reader : ByteReader) :
    Ensures (readLength reader) (fun r => reader.position < r.2.position) NotStuck := by
  refine (readByte_progress reader).bind fun ⟨first, after⟩ hlt => ?_
  refine .ite (fun _ => .ok hlt) fun _ => .ite (fun _ => .error nofun) fun _ =>
    .ite (fun _ => .error nofun) fun _ => .ite (fun _ => .error nofun) fun _ =>
    .ite (fun _ => .error nofun) fun _ => .ite (fun _ => .error nofun) fun _ => .ok ?_
  exact Nat.lt_of_lt_of_le hlt (ByteReader.le_advance _ _)

theorem readHeader_progress (reader : ByteReader) :
    Ensures (readHeader reader) (fun r => reader.position < r.2.position) NotStuck := by
  refine (readByte_progress reader).bind fun ⟨identifier, r₁⟩ h₁ => ?_
  refine (readTagNumber_progress identifier r₁).bind fun ⟨tagNumber, r₂⟩ h₂ => ?_
  refine (readLength_progress r₂).bind fun ⟨contentLength, r₃⟩ h₃ => ?_
  refine .ite (fun _ => .error nofun) fun _ => .ok ?_
  dsimp only at h₁ h₂ h₃ ⊢
  omega

/-- A check whose errors are about the input. -/
abbrev Checks (x : Except DerError Unit) : Prop := Ensures x (fun _ => True) NotStuck

theorem validateUniversalForm_checks (tagClass : Asn1TagClass) (tagNumber : Nat)
    (constructed : Bool) (offset : Nat) :
    Checks (validateUniversalForm tagClass tagNumber constructed offset) := by
  unfold validateUniversalForm
  exact .ite (fun _ => .ok trivial) fun _ => .ite (fun _ => .error nofun) fun _ =>
    .ite (fun _ => .error nofun) fun _ => .ite (fun _ => .error nofun) fun _ => .ok trivial

theorem validateArcs_checks {fuel : Nat} {content : List UInt8} (offset : Nat)
    (hfuel : content.length ≤ fuel) : Checks (validateArcs fuel content offset) := by
  induction fuel generalizing content offset with
  | zero =>
    rw [List.length_eq_zero_iff.1 (Nat.le_zero.1 hfuel)]
    exact .ok trivial
  | succ fuel ih =>
    cases content with
    | nil => exact .ok trivial
    | cons first content =>
      unfold validateArcs
      refine .ite (fun _ => .error nofun) fun _ => ?_
      split
      next => exact .error nofun
      next => exact .error nofun
      next => exact .error nofun
      next value rest hread =>
        refine ih _ ?_
        have hlen := congrArg List.length (readMinimalBase128_eq_ok hread)
        have hpos := List.length_pos_iff.2 (toBase128_ne_nil value)
        rw [List.length_append] at hlen
        omega

theorem validateEach_checks (test : UInt8 → Bool) (reason : String) (content : List UInt8)
    (offset : Nat) : Checks (validateEach test reason content offset) := by
  induction content generalizing offset with
  | nil => exact .ok trivial
  | cons byte content ih => exact .ite (fun _ => ih _) fun _ => .error nofun

theorem validatePrimitive_checks (tagClass : Asn1TagClass) (tagNumber offset : Nat)
    (content : List UInt8) : Checks (validatePrimitive tagClass tagNumber offset content) := by
  unfold validatePrimitive
  refine .ite (fun _ => .ok trivial) fun _ => ?_
  split
  next => exact .ite (fun _ => .ok trivial) fun _ => .error nofun
  next =>
    unfold validateInteger
    split
    next => exact .error nofun
    next => exact .ite (fun _ => .error nofun) fun _ => .ok trivial
    next => exact .ok trivial
  next =>
    unfold validateBitString
    split
    next => exact .error nofun
    next =>
      exact .ite (fun _ => .error nofun) fun _ => .ite (fun _ => .error nofun) fun _ =>
        .ite (fun _ => .error nofun) fun _ => .ok trivial
  next => exact .ite (fun _ => .ok trivial) fun _ => .error nofun
  next => exact .ite (fun _ => .error nofun) fun _ => validateArcs_checks _ (Nat.le_refl _)
  next =>
    unfold validateUtf8String
    split
    next => exact .error nofun
    next => exact .ok trivial
  next => exact validateEach_checks _ _ _ _
  next => exact validateEach_checks _ _ _ _
  next => exact validateEach_checks _ _ _ _
  next => exact validateEach_checks _ _ _ _
  next => exact validateEach_checks _ _ _ _
  next => exact .ite (fun _ => .error nofun) fun _ => .ok trivial
  next => exact .ite (fun _ => .error nofun) fun _ => .ok trivial
  next => exact .ok trivial

theorem validateSetOrder_checks (children : List (Asn1Node × Nat)) :
    Checks (validateSetOrder children) := by
  fun_induction validateSetOrder children with
  | case1 => exact .error nofun
  | case2 _ _ _ _ _ _ ih => exact ih
  | case3 => exact .ok trivial

theorem parseChildren_progress
    {next : Nat → ByteReader → Except DerError (Asn1Node × Nat × ByteReader)}
    (hnext : ∀ count reader,
      Ensures (next count reader) (fun r => reader.position < r.2.2.position) NotStuck)
    (endOffset fuel count : Nat) (reader : ByteReader) (hfuel : endOffset ≤ reader.position + fuel) :
    Ensures (parseChildren next endOffset fuel count reader) (fun _ => True) NotStuck := by
  induction fuel generalizing count reader with
  | zero =>
    unfold parseChildren
    rw [if_neg (by omega)]
    exact .ok trivial
  | succ fuel ih =>
    unfold parseChildren
    refine .ite (fun _ => ?_) fun _ => .ok trivial
    refine (hnext count reader).bind fun ⟨child, count, after⟩ hlt => ?_
    refine .ite (fun _ => .error nofun) fun _ => ?_
    dsimp only at hlt
    exact (ih count after (by omega)).bind fun _ _ => .ok trivial

theorem parseNode_progress (levels count : Nat) (encoded : ByteReader) :
    Ensures (parseNode levels count encoded) (fun r => encoded.position < r.2.2.position)
      NotStuck := by
  induction levels generalizing count encoded with
  | zero => exact .error nofun
  | succ levels ih =>
    unfold parseNode
    refine .ite (fun _ => .error nofun) fun _ => ?_
    refine (readHeader_progress encoded).bind
      fun ⟨⟨identifier, tagNumber, contentLength⟩, content⟩ hlt => ?_
    refine (validateUniversalForm_checks _ _ _ _).bind fun _ _ => ?_
    refine .ite (fun _ => ?_) fun _ => ?_
    · refine (validatePrimitive_checks _ _ _ _).bind fun _ _ => .ok ?_
      exact Nat.lt_of_lt_of_le hlt (ByteReader.le_advance _ _)
    · refine (parseChildren_progress ih _ _ _ _ (Nat.le_refl _)).bind
        fun ⟨children, _, last⟩ _ => ?_
      refine .ite (fun _ => .error nofun) fun hend => ?_
      have hend' : encoded.position < last.position := by
        dsimp only at hlt hend
        omega
      exact .ite (fun _ => (validateSetOrder_checks _).bind fun _ _ => .ok hend')
        fun _ => .ok hend'

/-- The parser ends with a tree or with an exception. -/
theorem parseDocument_ne_stuck (der : List UInt8) : parseDocument der ≠ .error .stuck := by
  intro h
  have hnot : Ensures (parseDocument der) (fun _ => True) NotStuck := by
    unfold parseDocument
    refine .ite (fun _ => .error nofun) fun _ => .ite (fun _ => .error nofun) fun _ => ?_
    refine (parseNode_progress _ _ _).bind fun ⟨root, _, reader⟩ _ => ?_
    exact .ite (fun _ => .error nofun) fun _ => .ok trivial
  exact hnot.of_eq_error h rfl

end ErbslandCore.Cryptology.DerParser
