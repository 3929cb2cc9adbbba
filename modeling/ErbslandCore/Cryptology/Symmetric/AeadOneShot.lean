import ErbslandCore.Cryptology.Symmetric.AeadStreaming

namespace ErbslandCore.Cryptology
open Library BlockStream SymmetricCall
set_option autoImplicit true

variable {p : AeadPrimitives} {type : SymmetricEncryptionType} {key nonce : List UInt8}

/-- The tag over what an authenticator took in. -/
def streamedTag (p : AeadPrimitives) (type : SymmetricEncryptionType) (key nonce : List UInt8)
    (i : Intake) : Block :=
  if type.isAes then
    (p.aes key (Block.initialCounter nonce)).xor (ghash p.multiply (p.aes key Block.zero)
      (pad 16 0 (GHash.closed i.started i.input) ++
        GHash.lengthBlock i.authenticatedLength i.payloadLength))
  else
    p.poly1305 ((p.chaCha20 key nonce 0).toList.take 32)
      (GHash.closed i.started i.input ++ List.replicate (padding 16 i.payloadLength) 0 ++
        ChaCha20Poly1305State.lengthBlock i.authenticatedLength i.payloadLength)

theorem AeadState.Holds.finalizeTag {s : AeadState} (h : s.Holds p type key nonce i) :
    (s.finalizeTag p).2 = streamedTag p type key nonce i := by
  cases s with
  | aesGcm s =>
    obtain ⟨ht, h⟩ := h
    rw [streamedTag, ht, if_pos rfl, ← h.finalizeTag]
    rfl
  | chaCha20Poly1305 s =>
    obtain ⟨ht, h⟩ := h
    rw [streamedTag, ht, if_neg Bool.false_ne_true, ← h.finalizeTag]
    rfl

namespace SymmetricDirection

theorem Holds.not_finalized {d : SymmetricDirection} (h : d.Holds p type key nonce i) :
    d.state ≠ .finalized := by
  rcases h.running with hr | hr <;> rw [hr] <;> decide

theorem Holds.encryptor_tag {d : SymmetricDirection} (h : d.Holds p type key nonce i) :
    ∃ d', SymmetricEncryptor.finalize p d = (d', .ok []) ∧
      SymmetricEncryptor.tag d' = .ok (streamedTag p type key nonce i).toList := by
  obtain ⟨data, hu, _, ht, hs⟩ := h.usable .encryptor
  refine ⟨⟨some { data with state := (data.state.finalizeTag p).1, tag := (data.state.finalizeTag p).2 },
    .finalized⟩, ?_, ?_⟩
  · unfold SymmetricEncryptor.finalize
    simp only [hu, if_neg h.not_finalized]
  · unfold SymmetricEncryptor.tag requireUsable
    simp only [reduceCtorEq, if_false, isAead_eq, Bool.true_eq_false, ne_eq, not_true_eq_false]
    rw [hs.finalizeTag]

/-- A decryptor accepts one tag. -/
theorem Holds.decryptor_accepts {d : SymmetricDirection} (h : d.Holds p type key nonce i)
    (tag : List UInt8) : (SymmetricDecryptor.finalize p d tag).2 = .ok [] ↔
      tag = (streamedTag p type key nonce i).toList := by
  obtain ⟨data, hu, _, ht, hs⟩ := h.usable .decryptor
  unfold SymmetricDecryptor.finalize SymmetricEncryptionType.tagLength
  simp only [hu, if_neg h.not_finalized, isAead_eq, Bool.true_eq_false, if_false, if_true]
  rw [hs.finalizeTag]
  by_cases hl : tag.length = 16
  · rw [if_neg (not_not.mpr hl)]
    by_cases he : (streamedTag p type key nonce i).toList = tag
    · rw [if_pos he]
      exact ⟨fun _ => he.symm, fun _ => rfl⟩
    · rw [if_neg he]
      refine ⟨fun h => ?_, fun h => absurd h.symm he⟩
      cases h
  · rw [if_pos hl]
    refine ⟨fun h => ?_, fun h => absurd (h ▸ Vector.length_toList) hl⟩
    cases h

end SymmetricDirection

/-- The tag after the calls, over the ciphertext that came out of them or went in. -/
theorem streamedTag_calls (h : Admissible type .active 0 0 calls) (encrypting : Bool)
    (stream : Nat → UInt8) :
    streamedTag p type key nonce (Intake.calls type.isAes stream encrypting {} calls) =
      if type.isAes then
        (p.aes key (Block.initialCounter nonce)).xor (ghash p.multiply (p.aes key Block.zero)
          (gcmStreamedInput (earlyData calls) (lateData calls)
            (if encrypting then xorStream stream 0 (payload calls) else payload calls)))
      else Aead.chaChaTag p key nonce (authenticatedData calls)
        (if encrypting then xorStream stream 0 (payload calls) else payload calls) := by
  unfold streamedTag
  rw [Intake.calls_authenticatedLength, Intake.calls_payloadLength]
  simp only [Nat.zero_add]
  cases ht : type.isAes with
  | true =>
    have hd := dvd_length_pad (k := 16) (by decide) (0 : UInt8) (earlyData calls)
    rw [if_pos rfl, if_pos rfl, Intake.calls_aes h rfl, List.nil_append, List.append_assoc,
      pad_append_of_dvd 0 hd, gcmStreamedInput, authenticatedData_eq, List.length_append,
      length_ite_xorStream]
  | false =>
    have hd := dvd_length_pad (k := 16) (by decide) (0 : UInt8) (authenticatedData calls)
    rw [if_neg Bool.false_ne_true, if_neg Bool.false_ne_true, Intake.calls_chaCha h rfl,
      List.nil_append, Aead.chaChaTag, Aead.chaChaInput, length_ite_xorStream]
    simp only [pad, length_ite_xorStream, List.append_assoc]

namespace SymmetricCall

/-- The calls with other payload, cut at the same places. -/
def withPayload : List SymmetricCall → List UInt8 → List SymmetricCall
  | [], _ => []
  | .addAuthenticatedData data :: calls, x => .addAuthenticatedData data :: withPayload calls x
  | .transform data :: calls, x =>
    .transform (x.take data.length) :: withPayload calls (x.drop data.length)

theorem authenticatedData_withPayload (calls : List SymmetricCall) (x : List UInt8) :
    authenticatedData (withPayload calls x) = authenticatedData calls := by
  induction calls generalizing x with
  | nil => rfl
  | cons call calls ih =>
    cases call with
    | addAuthenticatedData data => exact congrArg (data ++ ·) (ih x)
    | transform data => exact ih _

theorem earlyData_withPayload (calls : List SymmetricCall) (x : List UInt8) :
    earlyData (withPayload calls x) = earlyData calls := by
  induction calls generalizing x with
  | nil => rfl
  | cons call calls ih =>
    cases call with
    | addAuthenticatedData data => exact congrArg (data ++ ·) (ih x)
    | transform data => rfl

theorem lateData_withPayload (calls : List SymmetricCall) (x : List UInt8) :
    lateData (withPayload calls x) = lateData calls := by
  induction calls generalizing x with
  | nil => rfl
  | cons call calls ih =>
    cases call with
    | addAuthenticatedData data => exact ih x
    | transform data => exact authenticatedData_withPayload calls _

theorem payload_withPayload (h : x.length = (payload calls).length) :
    payload (withPayload calls x) = x := by
  induction calls generalizing x with
  | nil => exact (List.eq_nil_of_length_eq_zero h).symm
  | cons call calls ih =>
    cases call with
    | addAuthenticatedData data => exact ih h
    | transform data =>
      rw [payload, List.length_append] at h
      rw [withPayload, payload, ih (by rw [List.length_drop, h, Nat.add_sub_cancel_left]),
        List.take_append_drop]

theorem Admissible.withPayload (h : Admissible type state a c calls)
    (hl : x.length = (payload calls).length) : Admissible type state a c (withPayload calls x) := by
  induction calls generalizing state a c x with
  | nil => trivial
  | cons call calls ih =>
    cases call with
    | addAuthenticatedData data => exact ⟨h.1, h.2.1, ih h.2.2 hl⟩
    | transform data =>
      rw [payload, List.length_append] at hl
      have ht : (x.take data.length).length = data.length := List.length_take_of_le (by omega)
      have he : x.take data.length = [] ↔ data = [] := by
        rw [← List.length_eq_zero_iff, ht, List.length_eq_zero_iff]
      refine ⟨ht.symm ▸ h.1, ?_⟩
      rw [ht]
      simp only [he]
      exact ih h.2 (by rw [List.length_drop, hl, Nat.add_sub_cancel_left])

end SymmetricCall

/-- What encryption in pieces, and decryption in pieces, must give: the ciphertext and the tag of
the whole message, and back. -/
structure Streams (p : AeadPrimitives) (type : SymmetricEncryptionType) (key nonce : List UInt8)
    (calls cuts : List SymmetricCall) : Prop where
  encrypts : ∃ d d', SymmetricDirection.process p .encryptor type key nonce calls =
      .ok (Aead.ciphertext p type key nonce (payload calls), d) ∧
    SymmetricEncryptor.finalize p d = (d', .ok []) ∧
    SymmetricEncryptor.tag d' = .ok (Aead.tag p type key nonce (authenticatedData calls)
      (Aead.ciphertext p type key nonce (payload calls))).toList
  decrypts : ∃ d, SymmetricDirection.process p .decryptor type key nonce
      (withPayload cuts (Aead.ciphertext p type key nonce (payload calls))) =
        .ok (payload calls, d) ∧
    ∀ tag, (SymmetricDecryptor.finalize p d tag).2 = .ok [] ↔
      tag = (Aead.tag p type key nonce (authenticatedData calls)
        (Aead.ciphertext p type key nonce (payload calls))).toList

/-- The tags that the objects really compute. -/
theorem streams_iff (hk : key.length = type.keyLength) (hn : nonce.length = 12)
    (hcalls : Admissible type .active 0 0 calls) (hcuts : Admissible type .active 0 0 cuts)
    (hdata : authenticatedData cuts = authenticatedData calls)
    (hpayload : (payload cuts).length = (payload calls).length) :
    Streams p type key nonce calls cuts ↔ (type.isAes = true →
      ghash p.multiply (p.aes key Block.zero) (gcmStreamedInput (earlyData calls) (lateData calls)
          (Aead.ciphertext p type key nonce (payload calls))) =
        ghash p.multiply (p.aes key Block.zero) (Aead.gcmInput (authenticatedData calls)
          (Aead.ciphertext p type key nonce (payload calls))) ∧
      ghash p.multiply (p.aes key Block.zero) (gcmStreamedInput (earlyData cuts) (lateData cuts)
          (Aead.ciphertext p type key nonce (payload calls))) =
        ghash p.multiply (p.aes key Block.zero) (Aead.gcmInput (authenticatedData calls)
          (Aead.ciphertext p type key nonce (payload calls)))) := by
  have hlen : (Aead.ciphertext p type key nonce (payload calls)).length = (payload cuts).length := by
    rw [Aead.ciphertext, length_xorStream, hpayload]
  obtain ⟨e, he, hhe⟩ := SymmetricDirection.process_ok p .encryptor hk hn hcalls
  obtain ⟨d, hd, hhd⟩ := SymmetricDirection.process_ok p .decryptor hk hn (hcuts.withPayload hlen)
  obtain ⟨e', hfin, htag⟩ := hhe.encryptor_tag
  have hte : streamedTag p type key nonce _ = _ :=
    streamedTag_calls hcalls true (Aead.stream p type key nonce)
  have htd : streamedTag p type key nonce _ = _ :=
    streamedTag_calls (hcuts.withPayload hlen) false (Aead.stream p type key nonce)
  simp only [if_true, Bool.false_eq_true, if_false] at hte htd
  rw [payload_withPayload hlen, authenticatedData_withPayload, earlyData_withPayload,
    lateData_withPayload, hdata] at htd
  change _ = if _ then (p.aes key _).xor (ghash _ _ (gcmStreamedInput _ _
    (Aead.ciphertext p type key nonce (payload calls)))) else Aead.chaChaTag p key nonce _
      (Aead.ciphertext p type key nonce (payload calls)) at hte
  rw [payload_withPayload hlen, Aead.ciphertext, xorStream_xorStream] at hd
  have hst : Streams p type key nonce calls cuts ↔
      streamedTag p type key nonce
        (Intake.calls type.isAes (Aead.stream p type key nonce) true {} calls) =
          Aead.tag p type key nonce (authenticatedData calls)
            (Aead.ciphertext p type key nonce (payload calls)) ∧
      streamedTag p type key nonce
        (Intake.calls type.isAes (Aead.stream p type key nonce) false {}
          (withPayload cuts (Aead.ciphertext p type key nonce (payload calls)))) =
          Aead.tag p type key nonce (authenticatedData calls)
            (Aead.ciphertext p type key nonce (payload calls)) := by
    constructor
    · rintro ⟨⟨e₁, e₂, he₁, hf₁, ht₁⟩, ⟨d₁, hd₁, ht₂⟩⟩
      rw [he, Except.ok.injEq, Prod.mk.injEq] at he₁
      obtain ⟨_, rfl⟩ := he₁
      rw [hfin, Prod.mk.injEq] at hf₁
      obtain ⟨rfl, _⟩ := hf₁
      rw [htag, Except.ok.injEq] at ht₁
      refine ⟨Vector.toList_inj.mp ht₁, ?_⟩
      rw [Aead.ciphertext, hd, Except.ok.injEq, Prod.mk.injEq] at hd₁
      obtain ⟨_, rfl⟩ := hd₁
      have hacc := (hhd.decryptor_accepts _).mpr rfl
      exact Vector.toList_inj.mp ((ht₂ _).mp hacc)
    · rintro ⟨ht₁, ht₂⟩
      refine ⟨⟨e, e', he, hfin, ?_⟩, d, hd, fun tag => ?_⟩
      · rw [htag]
        exact congrArg (fun b : Block => Except.ok b.toList) ht₁
      · rw [← ht₂]
        exact hhd.decryptor_accepts tag
  rw [hst, hte, htd, Aead.tag]
  cases ht : type.isAes with
  | true =>
    simp only [if_true, Aead.gcmTag, Block.xor_right_inj, true_implies]
  | false => simp

/-- A block cipher that maps every block to equal bytes gives a key stream of equal bytes. -/
theorem ciphertext_const (ht : type.isAes = true) (e : UInt8)
    (h : p.aes = fun _ _ => Vector.replicate 16 e) (payload : List UInt8) :
    Aead.ciphertext p type key nonce payload = xorStream (fun _ => e) 0 payload := by
  have hs : Aead.stream p type key nonce = fun _ => e := by
    funext i
    have hi : i % 16 < 16 := Nat.mod_lt i (by decide)
    rw [Aead.stream, ht, if_pos rfl, Aead.gcmStream, h, Vector.toList_replicate,
      List.getD_eq_getElem?_getD, List.getElem?_replicate_of_lt hi]
    rfl
  rw [Aead.ciphertext, hs]

theorem length_pad_lt (x : List UInt8) : (pad 16 0 x).length < x.length + 16 := by
  have h := padding_lt (k := 16) (by decide) x.length
  rw [pad, List.length_append, List.length_replicate]
  omega

/-- Where every choice of functions hashes what was taken in like the message, no data moved. -/
theorem gcmAligned_of_ghash {early late payload : List UInt8} (ht : type.isAes = true)
    (ha : (early ++ late).length < 2 ^ 64) (hc : payload.length < 2 ^ 64)
    (h : ∀ p : AeadPrimitives, ghash p.multiply (p.aes key Block.zero)
        (gcmStreamedInput early late (Aead.ciphertext p type key nonce payload)) =
      ghash p.multiply (p.aes key Block.zero)
        (Aead.gcmInput (early ++ late) (Aead.ciphertext p type key nonce payload))) :
    GcmAligned early late payload.length := by
  apply gcmAligned_of_eq
  intro e
  by_contra hne
  have hl : (xorStream (fun _ => e) 0 payload).length = payload.length := length_xorStream _ _ _
  have hx : 16 ∣ (gcmStreamedInput early late (xorStream (fun _ => e) 0 payload)).length := by
    rw [gcmStreamedInput, List.length_append, List.length_append, GHash.length_lengthBlock]
    exact Nat.dvd_add (Nat.dvd_add (dvd_length_pad (by decide) _ _)
      (dvd_length_pad (by decide) _ _)) (dvd_refl 16)
  have hy : 16 ∣ (Aead.gcmInput (early ++ late) (xorStream (fun _ => e) 0 payload)).length := by
    rw [Aead.gcmInput, List.length_append, List.length_append, GHash.length_lengthBlock]
    exact Nat.dvd_add (Nat.dvd_add (dvd_length_pad (by decide) _ _)
      (dvd_length_pad (by decide) _ _)) (dvd_refl 16)
  have hlen : (gcmStreamedInput early late (xorStream (fun _ => e) 0 payload)).length +
      (Aead.gcmInput (early ++ late) (xorStream (fun _ => e) 0 payload)).length < 2 ^ 128 := by
    have h₁ := length_pad_lt early
    have h₂ := length_pad_lt (late ++ xorStream (fun _ => e) 0 payload)
    have h₃ := length_pad_lt (early ++ late)
    have h₄ := length_pad_lt (xorStream (fun _ => e) 0 payload)
    simp only [gcmStreamedInput, Aead.gcmInput, List.length_append, GHash.length_lengthBlock, hl]
      at h₁ h₂ h₃ h₄ ha ⊢
    omega
  obtain ⟨multiply, hm⟩ := exists_ghash_ne hx hy hlen hne
  let p : AeadPrimitives :=
    ⟨fun _ _ => Vector.replicate 16 e, multiply, fun _ _ _ => Vector.replicate 64 0,
      fun _ _ => Block.zero⟩
  have hp := h p
  rw [ciphertext_const ht e (p := p) rfl] at hp
  exact hm _ hp

/-- AES-GCM in pieces is the one-shot encryption, for every choice of its functions, exactly where
no authenticated data is moved by a call with empty payload; ChaCha20-Poly1305 always is. -/
theorem streams_exact (type : SymmetricEncryptionType) (key nonce : List UInt8)
    (calls cuts : List SymmetricCall)
    (hcalls : ∃ p r, SymmetricDirection.process p .encryptor type key nonce calls = .ok r)
    (hcuts : ∃ p r, SymmetricDirection.process p .decryptor type key nonce cuts = .ok r)
    (hdata : authenticatedData cuts = authenticatedData calls)
    (hpayload : (payload cuts).length = (payload calls).length) :
    (∀ p, Streams p type key nonce calls cuts) ↔ (type.isAes = true →
      GcmAligned (earlyData calls) (lateData calls) (payload calls).length ∧
        GcmAligned (earlyData cuts) (lateData cuts) (payload calls).length) := by
  obtain ⟨p₁, hp₁⟩ := hcalls
  obtain ⟨p₂, hp₂⟩ := hcuts
  obtain ⟨hk, hn, hadm⟩ := (SymmetricDirection.process_accepts p₁ .encryptor).mp hp₁
  obtain ⟨_, _, hcut⟩ := (SymmetricDirection.process_accepts p₂ .decryptor).mp hp₂
  constructor
  · intro h ht
    obtain ⟨hla, hlc⟩ := hadm.length_le (Nat.zero_le _) (Nat.zero_le _)
    rw [Nat.zero_add, SymmetricEncryptionType.maximumAuthenticatedDataLength, ht, if_pos rfl,
      AesGcmState.maximumAuthenticatedDataLength] at hla
    rw [Nat.zero_add, SymmetricEncryptionType.maximumPayloadLength, ht, if_pos rfl,
      AesGcmState.maximumPayloadLength] at hlc
    have hboth := fun p => (streams_iff hk hn hadm hcut hdata hpayload).mp (h p) ht
    constructor
    · apply gcmAligned_of_ghash ht
      · rw [← authenticatedData_eq]
        omega
      · omega
      · intro p
        rw [← authenticatedData_eq]
        exact (hboth p).1
    · apply gcmAligned_of_ghash ht
      · rw [← authenticatedData_eq, hdata]
        omega
      · omega
      · intro p
        rw [← authenticatedData_eq, hdata]
        exact (hboth p).2
  · intro h p
    rw [streams_iff hk hn hadm hcut hdata hpayload]
    intro ht
    obtain ⟨h₁, h₂⟩ := h ht
    have hl : (Aead.ciphertext p type key nonce (payload calls)).length = (payload calls).length :=
      length_xorStream _ _ _
    rw [← hl] at h₁ h₂
    rw [gcmStreamedInput_eq h₁, gcmStreamedInput_eq h₂, ← authenticatedData_eq, ← authenticatedData_eq,
      hdata]
    exact ⟨rfl, rfl⟩

theorem streams_exact_aligned :
    (∀ p, Streams p .aes128Gcm (List.replicate 16 0) (List.replicate 12 0)
      [.addAuthenticatedData [1], .transform [], .transform [2]]
      [.addAuthenticatedData [1], .transform [3]]) ↔
    (SymmetricEncryptionType.aes128Gcm.isAes = true →
      GcmAligned [1] [] 1 ∧ GcmAligned [1] [] 1) := by
  have h : Admissible .aes128Gcm .active 0 0
      [.addAuthenticatedData [1], .transform [], .transform [2]] :=
    ⟨rfl, by decide, by decide, by decide, trivial⟩
  have h' : Admissible .aes128Gcm .active 0 0 [.addAuthenticatedData [1], .transform [3]] :=
    ⟨rfl, by decide, by decide, trivial⟩
  let p : AeadPrimitives :=
    ⟨fun _ _ => Block.zero, fun b _ => b, fun _ _ _ => Vector.replicate 64 0, fun _ _ => Block.zero⟩
  exact streams_exact .aes128Gcm _ _ _ _
    ⟨p, (SymmetricDirection.process_accepts p .encryptor).mpr ⟨rfl, rfl, h⟩⟩
    ⟨p, (SymmetricDirection.process_accepts p .decryptor).mpr ⟨rfl, rfl, h'⟩⟩ rfl rfl

/-- Functions for which GHASH is the sum of the blocks. -/
def sumPrimitives : AeadPrimitives where
  aes _ _ := Block.zero
  multiply block _ := block
  chaCha20 _ _ _ := Vector.replicate 64 0
  poly1305 _ _ := Block.zero

/-- A call with empty payload between two pieces of authenticated data. -/
def interruptedCalls : List SymmetricCall :=
  [.addAuthenticatedData [1], .transform [], .addAuthenticatedData [2]]

/-- AES-GCM accepts a call with empty payload between two pieces of authenticated data, and closes
the first one: the tag is not the one of the whole message. -/
theorem interrupted_not_streams :
    (∃ r, SymmetricDirection.process sumPrimitives .encryptor .aes128Gcm (List.replicate 16 0)
      (List.replicate 12 0) interruptedCalls = .ok r) ∧
    ¬Streams sumPrimitives .aes128Gcm (List.replicate 16 0) (List.replicate 12 0) interruptedCalls
      interruptedCalls := by
  have h : Admissible .aes128Gcm .active 0 0 interruptedCalls :=
    ⟨rfl, by decide, by decide, rfl, by decide, trivial⟩
  refine ⟨(SymmetricDirection.process_accepts _ _).mpr ⟨rfl, rfl, h⟩, ?_⟩
  intro hs
  have hg := ((streams_iff rfl rfl h h rfl rfl).mp hs rfl).1
  have happ (b x : List UInt8) (hb : b.length = 16) : blocks 16 (b ++ x) = b :: blocks 16 x :=
    blocks_append (by decide) hb x
  have hx : blocks 16 (gcmStreamedInput [1] [2] []) =
      [1 :: List.replicate 15 0, 2 :: List.replicate 15 0, GHash.lengthBlock 2 0] := by
    have he : gcmStreamedInput [1] [2] [] = (1 :: List.replicate 15 0) ++
        ((2 :: List.replicate 15 0) ++ (GHash.lengthBlock 2 0 ++ [])) := by decide
    rw [he, happ _ _ (by decide), happ _ _ (by decide), happ _ _ (by decide), blocks_nil]
  have hy : blocks 16 (Aead.gcmInput [1, 2] []) =
      [1 :: 2 :: List.replicate 14 0, GHash.lengthBlock 2 0] := by
    have he : Aead.gcmInput [1, 2] [] = (1 :: 2 :: List.replicate 14 0) ++
        (GHash.lengthBlock 2 0 ++ []) := by decide
    rw [he, happ _ _ (by decide), happ _ _ (by decide), blocks_nil]
  change ghash _ _ (gcmStreamedInput [1] [2] []) = ghash _ _ (Aead.gcmInput [1, 2] []) at hg
  rw [ghash, ghash, hx, hy] at hg
  have hbyte := congrArg (fun block : Block => block[0]) hg
  simp only [List.foldl_cons, List.foldl_nil, hashStep, sumPrimitives, Block.xor, Block.zero,
    Block.ofBytes, Vector.getElem_zipWith, Vector.getElem_replicate, Vector.getElem_ofFn] at hbyte
  revert hbyte
  decide

end ErbslandCore.Cryptology
