import Mathlib.Data.FinEnum
import ErbslandCore.Cryptology.Symmetric.AeadCalls

namespace ErbslandCore.Cryptology
open Library BlockStream
set_option autoImplicit true

namespace Intake
open SymmetricCall

variable {type : SymmetricEncryptionType} {stream : Nat → UInt8} {encrypting : Bool} {i : Intake}

theorem calls_authenticatedLength (isAes : Bool) (stream : Nat → UInt8) (encrypting : Bool)
    (i : Intake) (cs : List SymmetricCall) :
    (i.calls isAes stream encrypting cs).authenticatedLength =
      i.authenticatedLength + (authenticatedData cs).length := by
  induction cs generalizing i with
  | nil => rfl
  | cons call cs ih =>
    cases call with
    | addAuthenticatedData data =>
      rw [Intake.calls, ih, authenticatedData, List.length_append, ← Nat.add_assoc]
      rfl
    | transform data => rw [Intake.calls, ih, transform_authenticatedLength, authenticatedData]

theorem calls_payloadLength (isAes : Bool) (stream : Nat → UInt8) (encrypting : Bool) (i : Intake)
    (cs : List SymmetricCall) : (i.calls isAes stream encrypting cs).payloadLength =
      i.payloadLength + (payload cs).length := by
  induction cs generalizing i with
  | nil => rfl
  | cons call cs ih =>
    cases call with
    | addAuthenticatedData data => exact ih _
    | transform data =>
      rw [Intake.calls, ih, transform_payloadLength, length_ite_xorStream, payload,
        List.length_append, Nat.add_assoc]

/-- Once the authenticated data is closed, AES-GCM appends what comes. -/
theorem calls_aes_started (h : Admissible type state a c cs) (hi : i.started = true) :
    GHash.closed (i.calls true stream encrypting cs).started (i.calls true stream encrypting cs).input =
      i.input ++ authenticatedData cs ++
        (if encrypting then xorStream stream i.payloadLength (payload cs) else payload cs) := by
  induction cs generalizing i state a c with
  | nil =>
    have hp : (if encrypting then xorStream stream i.payloadLength (payload []) else payload []) = [] := by
      cases encrypting <;> rfl
    rw [hp, Intake.calls, GHash.closed, hi, if_pos rfl, authenticatedData, List.append_nil,
      List.append_nil]
  | cons call cs ih =>
    cases call with
    | addAuthenticatedData data =>
      have hs := ih h.2.2 (i := i.authenticate data) hi
      rw [Intake.calls, hs, authenticatedData, payload]
      simp only [authenticate, List.append_assoc]
    | transform data =>
      have hs := ih h.2 (i := i.transform true
        (if encrypting then xorStream stream i.payloadLength data else data)) rfl
      have hd := h.piece_comm (length_ite_xorStream encrypting stream i.payloadLength data)
      rw [Intake.calls, hs, transform_payloadLength, length_ite_xorStream, authenticatedData, payload,
        ite_xorStream_append]
      simp only [Intake.transform, GHash.closed, hi, Bool.true_eq_false, false_and, if_false,
        if_true, List.append_assoc]
      rw [← List.append_assoc _ (authenticatedData cs), hd, List.append_assoc]

/-- What AES-GCM takes in: the early data, padded, the late data and the ciphertext. -/
theorem calls_aes (h : Admissible type state a c cs) (hi : i.started = false) :
    GHash.closed (i.calls true stream encrypting cs).started (i.calls true stream encrypting cs).input =
      pad 16 0 (i.input ++ earlyData cs) ++ lateData cs ++
        (if encrypting then xorStream stream i.payloadLength (payload cs) else payload cs) := by
  induction cs generalizing i state a c with
  | nil =>
    have hp : (if encrypting then xorStream stream i.payloadLength (payload []) else payload []) = [] := by
      cases encrypting <;> rfl
    rw [hp, Intake.calls, GHash.closed, hi, if_neg Bool.false_ne_true, earlyData, lateData,
      List.append_nil, List.append_nil, List.append_nil]
  | cons call cs ih =>
    cases call with
    | addAuthenticatedData data =>
      have hs := ih h.2.2 (i := i.authenticate data) hi
      rw [Intake.calls, hs, earlyData, lateData, payload, ← List.append_assoc]
      rfl
    | transform data =>
      have hs := @calls_aes_started _ stream encrypting (i.transform true
        (if encrypting then xorStream stream i.payloadLength data else data)) _ _ _ _ h.2 rfl
      have hd := h.piece_comm (length_ite_xorStream encrypting stream i.payloadLength data)
      rw [Intake.calls, hs, transform_payloadLength, length_ite_xorStream, earlyData, lateData, payload,
        ite_xorStream_append, List.append_nil]
      simp only [Intake.transform, GHash.closed, hi, Bool.true_eq_false, Bool.false_eq_true, false_and,
        if_false, List.append_assoc]
      rw [← List.append_assoc _ (authenticatedData cs), hd, List.append_assoc]

/-- Once the authenticated data is closed, ChaCha20-Poly1305 only takes ciphertext. -/
theorem calls_chaCha_started (h : Admissible type .payload a c cs) (hi : i.started = true) :
    GHash.closed (i.calls false stream encrypting cs).started
        (i.calls false stream encrypting cs).input =
      i.input ++ (if encrypting then xorStream stream i.payloadLength (payload cs) else payload cs) := by
  induction cs generalizing i a c with
  | nil =>
    have hp : (if encrypting then xorStream stream i.payloadLength (payload []) else payload []) = [] := by
      cases encrypting <;> rfl
    rw [hp, Intake.calls, GHash.closed, hi, if_pos rfl, List.append_nil]
  | cons call cs ih =>
    cases call with
    | addAuthenticatedData data => exact absurd h.1 (by decide)
    | transform data =>
      have hadm := h.2
      rw [ite_self] at hadm
      rw [payload, ite_xorStream_append, Intake.calls]
      by_cases he : (if encrypting then xorStream stream i.payloadLength data else data) = []
      · have hl := length_ite_xorStream encrypting stream i.payloadLength data
        have hs := ih hadm hi
        rw [he, List.length_nil] at hl
        rw [he, Intake.transform, if_pos ⟨rfl, rfl⟩, hs, ← hl, Nat.add_zero, List.nil_append]
      · have hs := ih hadm (i := i.transform false
          (if encrypting then xorStream stream i.payloadLength data else data)) (by
            rw [Intake.transform, if_neg (fun hc => he hc.2)])
        rw [hs, transform_payloadLength, length_ite_xorStream, Intake.transform,
          if_neg (fun hc => he hc.2)]
        simp only [GHash.closed, hi, if_true, List.append_assoc]

/-- What ChaCha20-Poly1305 takes in: the authenticated data, padded, and the ciphertext. -/
theorem calls_chaCha (h : Admissible type state a c cs) (hi : i.started = false) :
    GHash.closed (i.calls false stream encrypting cs).started
        (i.calls false stream encrypting cs).input =
      pad 16 0 (i.input ++ authenticatedData cs) ++
        (if encrypting then xorStream stream i.payloadLength (payload cs) else payload cs) := by
  induction cs generalizing i state a c with
  | nil =>
    have hp : (if encrypting then xorStream stream i.payloadLength (payload []) else payload []) = [] := by
      cases encrypting <;> rfl
    rw [hp, Intake.calls, GHash.closed, hi, if_neg Bool.false_ne_true, authenticatedData,
      List.append_nil, List.append_nil]
  | cons call cs ih =>
    cases call with
    | addAuthenticatedData data =>
      have hs := ih h.2.2 (i := i.authenticate data) hi
      rw [Intake.calls, hs, authenticatedData, payload, ← List.append_assoc]
      rfl
    | transform data =>
      have hadm := h.2
      rw [payload, ite_xorStream_append, Intake.calls, authenticatedData]
      by_cases hd : data = []
      · have he : (if encrypting then xorStream stream i.payloadLength data else data) = [] :=
          List.eq_nil_of_length_eq_zero (by rw [length_ite_xorStream, hd]; rfl)
        rw [if_pos hd] at hadm
        rw [he, Intake.transform, if_pos ⟨rfl, rfl⟩, ih hadm hi, hd, List.length_nil, Nat.add_zero,
          List.nil_append]
      · have he : (if encrypting then xorStream stream i.payloadLength data else data) ≠ [] := by
          intro he
          have hl := length_ite_xorStream encrypting stream i.payloadLength data
          rw [he, List.length_nil] at hl
          exact hd (List.eq_nil_of_length_eq_zero hl.symm)
        rw [if_neg hd] at hadm
        have hstarted : (i.transform false
            (if encrypting then xorStream stream i.payloadLength data else data)).started = true := by
          rw [Intake.transform, if_neg (fun hc => he hc.2)]
        have hs := @calls_chaCha_started _ stream encrypting _ _ _ _ hadm hstarted
        rw [hs, transform_payloadLength, length_ite_xorStream, Intake.transform,
          if_neg (fun hc => he hc.2), hadm.no_authenticatedData, List.append_nil]
        simp only [GHash.closed, hi, Bool.false_eq_true, if_false, List.append_assoc]

end Intake

/-- Where AES-GCM closes the authenticated data in time: late data must not move what follows. The
early data is made of whole blocks, or the late data of zero bytes. With payload, the late data is
made of whole blocks; without, no block is padded that the whole data would not pad. -/
def GcmAligned (early late : List UInt8) (payloadLength : Nat) : Prop :=
  (16 ∣ early.length ∨ ∀ byte ∈ late, byte = 0) ∧
    if payloadLength = 0 then padding 16 early.length + padding 16 late.length < 16
    else 16 ∣ late.length

instance (early late : List UInt8) (payloadLength : Nat) :
    Decidable (GcmAligned early late payloadLength) := by
  unfold GcmAligned
  infer_instance

/-- Without late data, nothing moves. -/
theorem gcmAligned_nil (early : List UInt8) (payloadLength : Nat) :
    GcmAligned early [] payloadLength := by
  refine ⟨.inr (by simp), ?_⟩
  split
  · rw [List.length_nil, padding_of_dvd (dvd_zero 16), Nat.add_zero]
    exact padding_lt (by decide) _
  · exact dvd_zero 16

/-- What AES-GCM takes in over the calls. -/
def gcmStreamedInput (early late ciphertext : List UInt8) : List UInt8 :=
  pad 16 0 early ++ pad 16 0 (late ++ ciphertext) ++
    GHash.lengthBlock (early.length + late.length) ciphertext.length

theorem padding_move {early late : List UInt8} (h : 16 ∣ early.length ∨ ∀ byte ∈ late, byte = (0 : UInt8)) :
    List.replicate (padding 16 early.length) 0 ++ late =
      late ++ List.replicate (padding 16 early.length) 0 := by
  rcases h with h | h
  · rw [padding_of_dvd h, List.replicate_zero, List.nil_append, List.append_nil]
  · exact replicate_comm h _

theorem gcmStreamedInput_eq {early late ciphertext : List UInt8}
    (h : GcmAligned early late ciphertext.length) :
    gcmStreamedInput early late ciphertext = Aead.gcmInput (early ++ late) ciphertext := by
  obtain ⟨hmove, hlen⟩ := h
  have hm := padding_move hmove
  have hd := dvd_add_padding (k := 16) (by decide) early.length
  rw [gcmStreamedInput, Aead.gcmInput, List.length_append]
  congr 1
  split at hlen
  case isTrue hc =>
    have hz := List.eq_nil_of_length_eq_zero hc
    have hp : padding 16 (early.length + late.length) =
        padding 16 early.length + padding 16 late.length := by
      apply padding_eq_of_dvd (by decide) _ hlen
      have hl := dvd_add_padding (k := 16) (by decide) late.length
      have hsum := Nat.dvd_add hd hl
      rwa [show early.length + late.length + (padding 16 early.length + padding 16 late.length) =
        early.length + padding 16 early.length + (late.length + padding 16 late.length) by omega]
    rw [hz, List.append_nil, pad_nil, List.append_nil, pad, pad, pad, List.length_append, hp,
      List.replicate_add, List.append_assoc, ← List.append_assoc _ late, hm]
    simp only [List.append_assoc]
  case isFalse hc =>
    have hp : padding 16 (early.length + late.length) = padding 16 early.length := by
      rw [Nat.add_comm]
      exact padding_add_of_dvd hlen _
    rw [pad_append_of_dvd 0 hlen]
    simp only [pad, List.length_append, hp, List.append_assoc]
    rw [← List.append_assoc _ late, hm, List.append_assoc]

/-- Equal streams commute the padding and the late data. -/
theorem padding_move_of_eq {late x y : List UInt8} {k : Nat}
    (h : List.replicate k 0 ++ (late ++ x) = late ++ (List.replicate k 0 ++ y)) :
    ∀ byte ∈ late, k ≠ 0 → byte = 0 := by
  rw [← List.append_assoc, ← List.append_assoc] at h
  have hl : (List.replicate k (0 : UInt8) ++ late).length = (late ++ List.replicate k 0).length := by
    rw [List.length_append, List.length_append, Nat.add_comm]
  have hc := List.append_inj_left h hl
  intro byte hb hk
  exact eq_replicate_of_comm (Nat.pos_of_ne_zero hk) hc byte hb

/-- No position holds every byte of a key stream and a byte that does not depend on it. -/
theorem not_forall_xor (v : Option UInt8) (b : UInt8) : ¬∀ e : UInt8, v = some (b ^^^ e) := by
  intro h
  have h01 := (h 0).symm.trans (h 1)
  rw [Option.some.injEq, UInt8.xor_right_inj] at h01
  exact absurd h01 (by decide)

theorem padding_eq_of_stream {late : List UInt8} {j k : Nat} {b : UInt8} {x y : UInt8 → List UInt8}
    (h : ∀ e : UInt8, List.replicate k 0 ++ (late ++ (b ^^^ e) :: x e) =
      late ++ (List.replicate j 0 ++ (b ^^^ e) :: y e)) : j = k := by
  rcases Nat.lt_trichotomy j k with hlt | heq | hgt
  · exfalso
    refine not_forall_xor (List.replicate k 0 ++ late)[late.length + j]? b fun e => ?_
    have hl : (List.replicate k 0 ++ (late ++ (b ^^^ e) :: x e))[late.length + j]? =
        (List.replicate k 0 ++ late)[late.length + j]? := by
      rw [← List.append_assoc]
      exact List.getElem?_append_left (by
        rw [List.length_append, List.length_replicate]
        omega)
    rw [← hl, h e, List.getElem?_append_right (Nat.le_add_right _ _), Nat.add_sub_cancel_left,
      List.getElem?_append_right (by rw [List.length_replicate]), List.length_replicate, Nat.sub_self]
    rfl
  · exact heq
  · exfalso
    refine not_forall_xor (late ++ List.replicate j 0)[k + late.length]? b fun e => ?_
    have hl : (late ++ (List.replicate j 0 ++ (b ^^^ e) :: y e))[k + late.length]? =
        (late ++ List.replicate j 0)[k + late.length]? := by
      rw [← List.append_assoc]
      exact List.getElem?_append_left (by
        rw [List.length_append, List.length_replicate]
        omega)
    have hk : (List.replicate k (0 : UInt8)).length ≤ k + late.length := by
      rw [List.length_replicate]
      exact Nat.le_add_right _ _
    rw [← hl, ← h e, List.getElem?_append_right hk, List.length_replicate, Nat.add_sub_cancel_left,
      List.getElem?_append_right (Nat.le_refl _), Nat.sub_self]
    rfl

/-- Late data that is not aligned moves something, for some key stream of equal bytes. -/
theorem gcmAligned_of_eq {early late payload : List UInt8}
    (h : ∀ e : UInt8, gcmStreamedInput early late (xorStream (fun _ => e) 0 payload) =
      Aead.gcmInput (early ++ late) (xorStream (fun _ => e) 0 payload)) :
    GcmAligned early late payload.length := by
  have hcore : ∀ e : UInt8, List.replicate (padding 16 early.length) 0 ++
      pad 16 0 (late ++ xorStream (fun _ => e) 0 payload) =
        late ++ (List.replicate (padding 16 (early.length + late.length)) 0 ++
          pad 16 0 (xorStream (fun _ => e) 0 payload)) := by
    intro e
    have he := h e
    rw [gcmStreamedInput, Aead.gcmInput, List.length_append] at he
    have hc := List.append_cancel_right he
    simp only [pad, List.length_append, List.append_assoc] at hc ⊢
    exact List.append_cancel_left hc
  have hd := dvd_add_padding (k := 16) (by decide) early.length
  cases payload with
  | nil =>
    have hc := hcore 0
    rw [xorStream, List.append_nil, pad_nil, List.append_nil, pad] at hc
    have hl := congrArg List.length hc
    simp only [List.length_append, List.length_replicate] at hl
    have hj : padding 16 (early.length + late.length) =
        padding 16 early.length + padding 16 late.length := by omega
    have hlt := padding_lt (k := 16) (by decide) (early.length + late.length)
    rw [hj, List.replicate_add] at hc
    refine ⟨?_, ?_⟩
    · by_cases hk : padding 16 early.length = 0
      · exact .inl ((padding_eq_zero (by decide)).mp hk)
      · exact .inr fun byte hb => padding_move_of_eq hc byte hb hk
    · rw [List.length_nil, if_pos rfl, ← hj]
      exact hlt
  | cons b rest =>
    simp only [pad, xorStream, List.append_assoc, List.cons_append] at hcore
    have hj := padding_eq_of_stream hcore
    have hc := hcore 0
    rw [hj] at hc
    refine ⟨?_, ?_⟩
    · by_cases hk : padding 16 early.length = 0
      · exact .inl ((padding_eq_zero (by decide)).mp hk)
      · exact .inr fun byte hb => padding_move_of_eq hc byte hb hk
    · rw [List.length_cons, if_neg (Nat.succ_ne_zero _)]
      have hsum := dvd_add_padding (k := 16) (by decide) (early.length + late.length)
      rw [hj, Nat.add_right_comm] at hsum
      exact (Nat.dvd_add_right hd).mp hsum

end ErbslandCore.Cryptology
