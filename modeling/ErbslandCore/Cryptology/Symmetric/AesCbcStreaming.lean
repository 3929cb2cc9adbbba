import ErbslandCore.Cryptology.Symmetric.AesCbcState

namespace ErbslandCore.Cryptology
open Library BlockChaining MarkerPadding
set_option autoImplicit true

namespace Block

theorem xor_xor (a b : Block) : (a.xor b).xor b = a := by
  apply Vector.ext
  intro i hi
  simp [xor, UInt8.xor_assoc]

theorem ofBytes_nil : ofBytes [] = zero := by
  apply Vector.ext
  intro i hi
  simp [ofBytes, zero]

/-- A byte that is stored after the bytes of a block. -/
theorem set_ofBytes (bytes : List UInt8) (byte : UInt8) :
    (ofBytes bytes).setIfInBounds bytes.length byte = ofBytes (bytes ++ [byte]) := by
  apply Vector.ext
  intro i hi
  rw [Vector.getElem_setIfInBounds]
  simp only [ofBytes, Vector.getElem_ofFn, List.getD_eq_getElem?_getD]
  split_ifs with heq
  · rw [← heq, List.getElem?_concat_length, Option.getD_some]
  · rcases Nat.lt_or_gt_of_ne heq with hlt | hgt
    · rw [List.getElem?_eq_none (by omega), List.getElem?_eq_none (by simp; omega)]
    · rw [List.getElem?_append_left hgt]

/-- The bytes of blocks. -/
def bytes (blocks : List Block) : List UInt8 := blocks.flatMap Vector.toList

theorem bytes_append (a b : List Block) : bytes (a ++ b) = bytes a ++ bytes b := List.flatMap_append

theorem bytes_singleton (b : Block) : bytes [b] = b.toList := by simp [bytes]

theorem length_bytes (blocks : List Block) : (bytes blocks).length = 16 * blocks.length := by
  induction blocks with
  | nil => rfl
  | cons b blocks ih =>
    have hcons : bytes (b :: blocks) = b.toList ++ bytes blocks := rfl
    rw [hcons, List.length_append, ih, Vector.length_toList, List.length_cons]
    omega

theorem bytes_inj {blocks blocks' : List Block} (h : bytes blocks = bytes blocks') :
    blocks = blocks' := by
  induction blocks generalizing blocks' with
  | nil =>
    have hlength := congrArg List.length h
    rw [length_bytes, length_bytes, List.length_nil] at hlength
    exact (List.eq_nil_of_length_eq_zero (by omega)).symm
  | cons b blocks ih =>
    cases blocks' with
    | nil =>
      have hlength := congrArg List.length h
      rw [length_bytes, length_bytes, List.length_nil, List.length_cons] at hlength
      omega
    | cons b' blocks' =>
      have hcons : b.toList ++ bytes blocks = b'.toList ++ bytes blocks' := h
      have hlength : b.toList.length = b'.toList.length := by
        rw [Vector.length_toList, Vector.length_toList]
      obtain ⟨hb, hrest⟩ := List.append_inj hcons hlength
      rw [ih hrest, Vector.toList_inj.mp hb]

/-- Blocks and a rest that is no block are found again in their bytes. -/
theorem bytes_append_inj {blocks blocks' : List Block} {rest rest' : List UInt8}
    (hrest : rest.length < 16) (hrest' : rest'.length < 16)
    (h : bytes blocks ++ rest = bytes blocks' ++ rest') : blocks = blocks' ∧ rest = rest' := by
  have hlength := congrArg List.length h
  rw [List.length_append, List.length_append, length_bytes, length_bytes] at hlength
  have hsame : (bytes blocks).length = (bytes blocks').length := by
    rw [length_bytes, length_bytes]
    omega
  obtain ⟨hbytes, hrests⟩ := List.append_inj h hsame
  exact ⟨bytes_inj hbytes, hrests⟩

end Block

namespace AesCbcState
open Block

variable {s : AesCbcState} {x out rest : List UInt8} {blocks : List Block}

section calls
variable {acceptBlock : AesCbcState → Block → AesCbcState × List UInt8}

theorem acceptBytes_append (s : AesCbcState) (x y : List UInt8) :
    acceptBytes acceptBlock s (x ++ y) =
      ((acceptBytes acceptBlock (acceptBytes acceptBlock s x).1 y).1,
        (acceptBytes acceptBlock s x).2 ++
          (acceptBytes acceptBlock (acceptBytes acceptBlock s x).1 y).2) := by
  induction x generalizing s with
  | nil => rfl
  | cons byte x ih =>
    simp only [List.cons_append, acceptBytes, ih, List.append_assoc]

/-- How a text is cut into pieces does not matter. -/
theorem calls_eq (s : AesCbcState) (pieces : List (List UInt8)) :
    s.calls (acceptBytes acceptBlock) pieces = acceptBytes acceptBlock s pieces.flatten := by
  induction pieces generalizing s with
  | nil => rfl
  | cons piece pieces ih =>
    rw [calls, List.flatten_cons, acceptBytes_append]
    simp only [ih]

end calls

/-- The state after some whole blocks and the start of another one. -/
structure Holding (start s : AesCbcState) (rest : List UInt8) : Prop where
  type : s.type = start.type
  cipher : s.cipher = start.cipher
  short : rest.length < 16
  partialBlock : s.partialBlock = ofBytes rest
  partialLength : s.partialLength = rest.length

variable {start : AesCbcState}

/-- A byte is kept, or it completes the block that is passed on. -/
theorem acceptByte_eq (acceptBlock : AesCbcState → Block → AesCbcState × List UInt8)
    (h : Holding start s rest) (byte : UInt8) :
    acceptByte acceptBlock s byte =
      if rest.length + 1 = 16 then
        ((acceptBlock { s with partialBlock := ofBytes (rest ++ [byte]), partialLength := 16 }
            (ofBytes (rest ++ [byte]))).1.clearPartial,
          (acceptBlock { s with partialBlock := ofBytes (rest ++ [byte]), partialLength := 16 }
            (ofBytes (rest ++ [byte]))).2)
      else
        ({ s with partialBlock := ofBytes (rest ++ [byte]), partialLength := rest.length + 1 }, []) := by
  rw [acceptByte]
  simp only [h.partialBlock, h.partialLength, set_ofBytes]
  split_ifs with hfull
  · simp only [hfull]
  · rfl

/-- A state without bytes of a block. -/
structure Fresh (start : AesCbcState) : Prop where
  partialBlock : start.partialBlock = Block.zero
  partialLength : start.partialLength = 0
  hasPendingCiphertext : start.hasPendingCiphertext = false

theorem create_fresh (createAesBlockCipher : List UInt8 → AesBlockCipher) (type : AesCbcType)
    (key : List UInt8) (iv : Block) : Fresh (create createAesBlockCipher type key iv) :=
  ⟨rfl, rfl, rfl⟩

theorem Fresh.holding (h : Fresh start) : Holding start start [] :=
  ⟨rfl, rfl, by decide, by rw [h.partialBlock, ofBytes_nil], h.partialLength⟩

/-- The ciphertext of whole blocks. -/
def cbcEncrypt (start : AesCbcState) (blocks : List Block) : List Block :=
  BlockChaining.encrypt Block.xor start.cipher.encrypt start.chain blocks

/-- The plaintext of whole blocks. -/
def cbcDecrypt (start : AesCbcState) (blocks : List Block) : List Block :=
  BlockChaining.decrypt Block.xor start.cipher.decrypt start.chain blocks

theorem cbcDecrypt_cbcEncrypt (start : AesCbcState) (blocks : List Block) :
    cbcDecrypt start (cbcEncrypt start blocks) = blocks :=
  BlockChaining.decrypt_encrypt xor_xor start.cipher.decrypt_encrypt start.chain blocks

section encryption

/-- What the encryption of a text returned, and the state it left. -/
structure Encrypting (start s : AesCbcState) (blocks : List Block) (rest out : List UInt8) : Prop
    where
  holding : Holding start s rest
  output : out = bytes (cbcEncrypt start blocks)
  chain : s.chain = chainAfter start.chain (cbcEncrypt start blocks)

theorem Fresh.encrypting (h : Fresh start) : Encrypting start start [] [] [] :=
  ⟨h.holding, rfl, rfl⟩

/-- The ciphertext of the next block. -/
theorem cbcEncrypt_concat (h : Encrypting start s blocks rest out) (block : Block) :
    cbcEncrypt start (blocks ++ [block]) =
      cbcEncrypt start blocks ++ [s.cipher.encrypt (block.xor s.chain)] := by
  rw [cbcEncrypt, encrypt_concat, h.chain, h.holding.cipher]
  rfl

theorem Encrypting.step (h : Encrypting start s blocks rest out) (byte : UInt8) :
    ∃ blocks' rest', bytes blocks' ++ rest' = bytes blocks ++ rest ++ [byte] ∧
      Encrypting start (acceptByte encryptBlock s byte).1 blocks' rest'
        (out ++ (acceptByte encryptBlock s byte).2) := by
  rw [acceptByte_eq encryptBlock h.holding]
  split_ifs with hfull
  · have hlength : (rest ++ [byte]).length = 16 := by rw [List.length_append]; exact hfull
    refine ⟨blocks ++ [ofBytes (rest ++ [byte])], [], ?_, ⟨h.holding.type, h.holding.cipher, by decide,
      ofBytes_nil.symm, rfl⟩, ?_, ?_⟩
    · rw [bytes_append, bytes_singleton, toList_ofBytes hlength, List.append_nil, List.append_assoc]
    · rw [cbcEncrypt_concat h, bytes_append, bytes_singleton, h.output]
      rfl
    · rw [cbcEncrypt_concat h, chainAfter_concat]
      rfl
  · have hshort := h.holding.short
    refine ⟨blocks, rest ++ [byte], (List.append_assoc _ _ _).symm, ⟨h.holding.type, h.holding.cipher, ?_,
      rfl, ?_⟩, ?_, h.chain⟩
    · rw [List.length_append, List.length_singleton]
      omega
    · rw [List.length_append, List.length_singleton]
    · rw [List.append_nil, h.output]

theorem Encrypting.run (h : Encrypting start s blocks rest out) (data : List UInt8) :
    ∃ blocks' rest', bytes blocks' ++ rest' = bytes blocks ++ rest ++ data ∧
      Encrypting start (s.encrypt data).1 blocks' rest' (out ++ (s.encrypt data).2) := by
  induction data generalizing s blocks rest out with
  | nil =>
    refine ⟨blocks, rest, (List.append_nil _).symm, ?_⟩
    rw [encrypt, acceptBytes, List.append_nil]
    exact h
  | cons byte data ih =>
    obtain ⟨blocks₁, rest₁, htext₁, h₁⟩ := h.step byte
    obtain ⟨blocks₂, rest₂, htext₂, h₂⟩ := ih h₁
    refine ⟨blocks₂, rest₂, ?_, ?_⟩
    · rw [htext₂, htext₁, List.append_assoc]
      rfl
    · rw [List.append_assoc] at h₂
      exact h₂

end encryption

section decryption

/-- The whole blocks whose plaintext was returned: all of them, or all but the last one. -/
def passedBlocks (type : AesCbcType) (blocks : List Block) : List Block :=
  match type with
  | .aes256CbcIso9797Method2 => blocks.dropLast
  | .aes256CbcRandomFill => blocks

/-- What the decryption of a text returned, and the state it left. -/
structure Decrypting (start s : AesCbcState) (blocks : List Block) (rest out : List UInt8) : Prop
    where
  holding : Holding start s rest
  output : out = bytes (cbcDecrypt start (passedBlocks start.type blocks))
  chain : s.chain = chainAfter start.chain (passedBlocks start.type blocks)
  pending : start.type = .aes256CbcIso9797Method2 →
    s.hasPendingCiphertext = blocks.getLast?.isSome ∧
      ∀ last, blocks.getLast? = some last → s.pendingCiphertext = last

theorem Fresh.decrypting (h : Fresh start) : Decrypting start start [] [] [] := by
  have hpassed : passedBlocks start.type [] = [] := by
    cases start.type with
    | aes256CbcRandomFill => rfl
    | aes256CbcIso9797Method2 => rfl
  refine ⟨h.holding, ?_, ?_, fun _ => ⟨h.hasPendingCiphertext, nofun⟩⟩
  · rw [hpassed]
    rfl
  · rw [hpassed]
    rfl

/-- The plaintext of a further block. -/
theorem cbcDecrypt_concat (start : AesCbcState) (blocks : List Block) (block : Block) :
    cbcDecrypt start (blocks ++ [block]) = cbcDecrypt start blocks ++
      [(start.cipher.decrypt block).xor (chainAfter start.chain blocks)] := decrypt_concat _ _ _

theorem acceptCiphertextBlock_randomFill (h : s.type = .aes256CbcRandomFill) (block : Block) :
    s.acceptCiphertextBlock block = s.decryptBlock block := by
  rw [acceptCiphertextBlock, h]

theorem acceptCiphertextBlock_first (h : s.type = .aes256CbcIso9797Method2)
    (hpending : s.hasPendingCiphertext = false) (block : Block) :
    s.acceptCiphertextBlock block =
      ({ s with pendingCiphertext := block, hasPendingCiphertext := true }, []) := by
  conv_lhs => rw [acceptCiphertextBlock, h, hpending]
  rfl

theorem acceptCiphertextBlock_later (h : s.type = .aes256CbcIso9797Method2)
    (hpending : s.hasPendingCiphertext = true) (block : Block) :
    s.acceptCiphertextBlock block =
      ({ (s.decryptBlock s.pendingCiphertext).1 with
          pendingCiphertext := block, hasPendingCiphertext := true },
        (s.decryptBlock s.pendingCiphertext).2) := by
  conv_lhs => rw [acceptCiphertextBlock, h, hpending]
  rfl

/-- A whole block is decrypted, or kept in place of the one before it. -/
theorem Decrypting.accept (h : Decrypting start s blocks rest out) (partialBlock block : Block) :
    Decrypting start
      ((acceptCiphertextBlock { s with partialBlock, partialLength := 16 } block).1.clearPartial)
      (blocks ++ [block]) []
      (out ++ (acceptCiphertextBlock { s with partialBlock, partialLength := 16 } block).2) := by
  obtain ⟨⟨htype, hcipher, -, -, -⟩, houtput, hchain, hpending⟩ := h
  cases hstart : start.type with
  | aes256CbcRandomFill =>
    rw [acceptCiphertextBlock_randomFill (s := { s with partialBlock, partialLength := 16 })
      (htype.trans hstart)]
    rw [hstart, passedBlocks] at houtput hchain
    refine ⟨⟨htype, hcipher, by decide, ofBytes_nil.symm, rfl⟩, ?_, ?_, ?_⟩
    · rw [hstart, houtput, passedBlocks, cbcDecrypt_concat, bytes_append, bytes_singleton, ← hcipher,
        ← hchain]
      rfl
    · rw [hstart, passedBlocks, chainAfter_concat]
      rfl
    · rw [hstart]
      exact fun hiso => nomatch hiso
  | aes256CbcIso9797Method2 =>
    obtain ⟨hsome, hlast⟩ := hpending hstart
    rw [hstart, passedBlocks] at houtput hchain
    rcases List.eq_nil_or_concat blocks with rfl | ⟨front, last, rfl⟩
    · rw [acceptCiphertextBlock_first (s := { s with partialBlock, partialLength := 16 })
        (htype.trans hstart) hsome]
      refine ⟨⟨htype, hcipher, by decide, ofBytes_nil.symm, rfl⟩, ?_, ?_, fun _ => ⟨rfl, ?_⟩⟩
      · rw [hstart, houtput]
        rfl
      · rw [hstart]
        exact hchain
      · exact fun last hlast => Option.some.inj hlast
    · rw [List.concat_eq_append] at *
      rw [List.getLast?_concat] at hsome hlast
      rw [List.dropLast_concat] at houtput hchain
      rw [acceptCiphertextBlock_later (s := { s with partialBlock, partialLength := 16 })
        (htype.trans hstart) hsome]
      refine ⟨⟨htype, hcipher, by decide, ofBytes_nil.symm, rfl⟩, ?_, ?_, fun _ => ?_⟩
      · rw [hstart, passedBlocks, List.dropLast_concat, cbcDecrypt_concat, bytes_append, bytes_singleton,
          houtput, ← hcipher, ← hchain, ← hlast last rfl]
        rfl
      · rw [hstart, passedBlocks, List.dropLast_concat, chainAfter_concat, ← hlast last rfl]
        rfl
      · rw [List.getLast?_concat]
        exact ⟨rfl, fun last hlast => Option.some.inj hlast⟩

theorem Decrypting.step (h : Decrypting start s blocks rest out) (byte : UInt8) :
    ∃ blocks' rest', bytes blocks' ++ rest' = bytes blocks ++ rest ++ [byte] ∧
      Decrypting start (acceptByte acceptCiphertextBlock s byte).1 blocks' rest'
        (out ++ (acceptByte acceptCiphertextBlock s byte).2) := by
  rw [acceptByte_eq acceptCiphertextBlock h.holding]
  split_ifs with hfull
  · have hlength : (rest ++ [byte]).length = 16 := by rw [List.length_append]; exact hfull
    refine ⟨blocks ++ [ofBytes (rest ++ [byte])], [], ?_, h.accept _ _⟩
    rw [bytes_append, bytes_singleton, toList_ofBytes hlength, List.append_nil, List.append_assoc]
  · have hshort := h.holding.short
    refine ⟨blocks, rest ++ [byte], (List.append_assoc _ _ _).symm, ⟨h.holding.type, h.holding.cipher,
      ?_, rfl, ?_⟩, ?_, h.chain, h.pending⟩
    · rw [List.length_append, List.length_singleton]
      omega
    · rw [List.length_append, List.length_singleton]
    · rw [List.append_nil, h.output]

theorem Decrypting.run (h : Decrypting start s blocks rest out) (data : List UInt8) :
    ∃ blocks' rest', bytes blocks' ++ rest' = bytes blocks ++ rest ++ data ∧
      Decrypting start (s.decrypt data).1 blocks' rest' (out ++ (s.decrypt data).2) := by
  induction data generalizing s blocks rest out with
  | nil =>
    refine ⟨blocks, rest, (List.append_nil _).symm, ?_⟩
    rw [decrypt, acceptBytes, List.append_nil]
    exact h
  | cons byte data ih =>
    obtain ⟨blocks₁, rest₁, htext₁, h₁⟩ := h.step byte
    obtain ⟨blocks₂, rest₂, htext₂, h₂⟩ := ih h₁
    refine ⟨blocks₂, rest₂, ?_, ?_⟩
    · rw [htext₂, htext₁, List.append_assoc]
      rfl
    · rw [List.append_assoc] at h₂
      exact h₂

end decryption

section padding

namespace MarkerScan

/-- A scan that has found nothing but zeros so far. -/
theorem step_unresolved (index : Nat) (value : UInt8) :
    step {} index value =
      if value = 0 then {}
      else if value = 0x80 then { foundMarker := 1, markerIndex := UInt64.ofNat index }
      else { invalid := 1 } := by
  rw [step]
  by_cases hzero : value = 0
  · subst hzero
    simp
  · by_cases hmarker : value = 0x80
    · subst hmarker
      simp
    · simp [hzero, hmarker]

theorem step_resolved (scan : MarkerScan) (h : scan.foundMarker = 1) (index : Nat)
    (value : UInt8) : scan.step index value = scan := by
  obtain ⟨foundMarker, invalid, markerIndex⟩ := scan
  obtain rfl : foundMarker = 1 := h
  rw [step]
  by_cases hmarker : value = 0x80
  · simp [hmarker]
  · simp [hmarker]

/-- After a byte that is neither zero nor a marker, the scan goes on to the marker. -/
theorem step_invalid (index : Nat) (value : UInt8) :
    step { invalid := 1 } index value =
      if value = 0x80 then { foundMarker := 1, invalid := 1, markerIndex := UInt64.ofNat index }
      else { invalid := 1 } := by
  rw [step]
  by_cases hmarker : value = 0x80
  · subst hmarker
    simp
  · by_cases hzero : value = 0
    · subst hzero
      simp
    · simp [hzero, hmarker]

theorem run_resolved (block : Block) (scan : MarkerScan) (h : scan.foundMarker = 1) (n : Nat) :
    run block scan n = scan := by
  induction n with
  | zero => rfl
  | succ n ih => rw [run, step_resolved scan h, ih]

theorem run_invalid (block : Block) (n : Nat) : (run block { invalid := 1 } n).invalid = 1 := by
  induction n with
  | zero => rfl
  | succ n ih =>
    rw [run, step_invalid]
    split_ifs
    · rw [run_resolved block _ rfl]
    · exact ih

/-- The scan finds the marker before the padding, or that there is none. -/
theorem run_eq (block : Block) (n : Nat) (hn : n ≤ 16) :
    (∀ x, unpad 0x80 0 (block.toList.take n) = some x →
      run block {} n = { foundMarker := 1, markerIndex := UInt64.ofNat x.length }) ∧
    (unpad 0x80 0 (block.toList.take n) = none →
      run block {} n = {} ∨ (run block {} n).invalid = 1) := by
  induction n with
  | zero => exact ⟨nofun, fun _ => .inl rfl⟩
  | succ n ih =>
    have hlt : n < block.toList.length := by
      rw [Vector.length_toList]
      exact hn
    have htake : block.toList.take (n + 1) = block.toList.take n ++ [block.toList.getD n 0] := by
      rw [List.take_succ_eq_append_getElem hlt, List.getD_eq_getElem?_getD,
        List.getElem?_eq_getElem hlt, Option.getD_some]
    have hlength : (block.toList.take n).length = n := List.length_take_of_le hlt.le
    rw [run, htake]
    generalize block.toList.getD n 0 = value
    rw [step_unresolved]
    by_cases hzero : value = 0
    · rw [if_pos hzero, hzero, unpad_filler]
      exact ih (Nat.le_of_succ_le hn)
    · rw [if_neg hzero]
      by_cases hmarker : value = 0x80
      · rw [if_pos hmarker, hmarker, unpad_marker (by decide), run_resolved block _ rfl]
        refine ⟨fun x hx => ?_, nofun⟩
        rw [← Option.some.inj hx, hlength]
      · rw [if_neg hmarker, unpad_other hmarker hzero]
        exact ⟨nofun, fun _ => .inr (run_invalid block n)⟩

end MarkerScan

/-- The end of a ciphertext with a padding: whole blocks, of which the last one is padded. -/
theorem Decrypting.finalize_iso (h : Decrypting start s blocks rest out)
    (hiso : start.type = .aes256CbcIso9797Method2) (final : List UInt8) :
    (∃ s', s.finalizeDecryption = .ok (s', final)) ↔
      rest = [] ∧ ∃ last, blocks.getLast? = some last ∧
        unpad 0x80 0 ((start.cipher.decrypt last).xor s.chain).toList = some final := by
  obtain ⟨⟨htype, hcipher, -, -, hlength⟩, -, -, hpending⟩ := h
  obtain ⟨hsome, hlast⟩ := hpending hiso
  rw [finalizeDecryption, hlength]
  by_cases hrest : rest = []
  · subst hrest
    rw [if_neg (by simp), htype, hiso]
    simp only [hsome, true_and]
    cases hblocks : blocks.getLast? with
    | none => simp [throwFinalizationError]
    | some last =>
      rw [hlast last hblocks, ← hcipher]
      simp only [Option.isSome_some, Bool.not_true, Bool.false_eq_true, if_false, Option.some.injEq,
        exists_eq_left']
      generalize (s.cipher.decrypt last).xor s.chain = block
      obtain ⟨hfound, hnone⟩ := MarkerScan.run_eq block 16 (le_refl 16)
      have hall : block.toList.take 16 = block.toList :=
        List.take_of_length_le (by rw [Vector.length_toList])
      rw [hall] at hfound hnone
      cases hunpad : unpad 0x80 0 block.toList with
      | none =>
        rw [if_pos]
        · simp [throwFinalizationError]
        · rcases hnone hunpad with heq | hinvalid
          · rw [heq]
            decide
          · simp [hinvalid]
      | some x =>
        obtain ⟨n, hblock⟩ := (unpad_eq_some (by decide)).mp hunpad
        have hx : x.length ≤ 16 := by
          have hlength := congrArg List.length hblock
          rw [Vector.length_toList, List.length_append] at hlength
          omega
        have hindex : (UInt64.ofNat x.length).toNat = x.length :=
          UInt64.toNat_ofNat_of_lt' (lt_of_le_of_lt hx (by decide))
        rw [hfound x hunpad, if_neg (by simp), hindex, hblock, List.take_left']
        · simp
        · rfl
  · rw [if_pos (by simpa using hrest)]
    simp [throwFinalizationError, hrest]

end padding

section streams

theorem toList_marker (h : rest.length < 16) :
    (ofBytes (rest ++ [0x80])).toList = rest ++ 0x80 :: List.replicate (15 - rest.length) 0 := by
  have hbytes : rest ++ 0x80 :: List.replicate (15 - rest.length) 0 =
      rest ++ [0x80] ++ List.replicate (15 - rest.length) 0 := by
    rw [List.append_assoc]
    rfl
  rw [hbytes, ← ofBytes_pad (rest ++ [0x80]) (15 - rest.length)]
  apply toList_ofBytes
  rw [List.length_append, List.length_append, List.length_singleton, List.length_replicate]
  omega

theorem take_ofBytes (h : rest.length < 16) : (ofBytes rest).toList.take rest.length = rest := by
  rw [← ofBytes_pad rest (16 - rest.length), toList_ofBytes, List.take_left']
  · rfl
  · rw [List.length_append, List.length_replicate]
    omega

variable {secureRandom : (length : Nat) → Vector UInt8 length}

theorem finalizeEncryption_iso (h : s.type = .aes256CbcIso9797Method2) :
    (s.finalizeEncryption secureRandom).2 = (s.cipher.encrypt
      (Block.xor (s.partialBlock.setIfInBounds s.partialLength 0x80) s.chain)).toList := by
  rw [finalizeEncryption, h]
  rfl

theorem finalizeEncryption_randomFill (h : s.type = .aes256CbcRandomFill)
    (hlength : s.partialLength = n) :
    (s.finalizeEncryption secureRandom).2 =
      if n = 0 then []
      else (s.cipher.encrypt ((ofBytes (s.partialBlock.toList.take n ++
        (secureRandom (16 - n)).toList)).xor s.chain)).toList := by
  subst hlength
  rw [finalizeEncryption, h]
  split_ifs with hzero
  · rfl
  · rfl

theorem encrypted_eq (start : AesCbcState) (pieces : List (List UInt8)) :
    start.encrypted secureRandom pieces = (start.encrypt pieces.flatten).2 ++
      ((start.encrypt pieces.flatten).1.finalizeEncryption secureRandom).2 := by
  have hcalls : start.calls encrypt pieces = start.encrypt pieces.flatten := calls_eq start pieces
  rw [encrypted, hcalls]

/-- The ciphertext ends with the block of the marker. -/
theorem encrypted_iso (h : Fresh start) (hiso : start.type = .aes256CbcIso9797Method2)
    (pieces : List (List UInt8)) :
    ∃ blocks rest, pieces.flatten = bytes blocks ++ rest ∧ rest.length < 16 ∧
      start.encrypted secureRandom pieces =
        bytes (cbcEncrypt start (blocks ++ [ofBytes (rest ++ [0x80])])) := by
  obtain ⟨blocks, rest, htext, hrun⟩ := h.encrypting.run pieces.flatten
  have htype := hrun.holding.type.trans hiso
  refine ⟨blocks, rest, htext.symm, hrun.holding.short, ?_⟩
  have houtput := hrun.output
  rw [List.nil_append] at houtput
  rw [encrypted_eq, cbcEncrypt_concat hrun, bytes_append, bytes_singleton, ← houtput,
    finalizeEncryption_iso htype, hrun.holding.partialBlock, hrun.holding.partialLength, set_ofBytes]

/-- Only a block that is not whole is filled. -/
theorem encrypted_randomFill (h : Fresh start) (hfill : start.type = .aes256CbcRandomFill)
    (pieces : List (List UInt8)) :
    ∃ blocks fill, pieces.flatten ++ fill = bytes blocks ∧ fill.length < 16 ∧
      start.encrypted secureRandom pieces = bytes (cbcEncrypt start blocks) := by
  obtain ⟨blocks, rest, htext, hrun⟩ := h.encrypting.run pieces.flatten
  have htype := hrun.holding.type.trans hfill
  have hshort := hrun.holding.short
  have houtput := hrun.output
  rw [List.nil_append] at houtput
  have htext' : bytes blocks ++ rest = pieces.flatten := htext
  rw [encrypted_eq, finalizeEncryption_randomFill htype hrun.holding.partialLength]
  by_cases hrest : rest = []
  · subst hrest
    refine ⟨blocks, [], ?_, by decide, ?_⟩
    · rw [← htext', List.append_nil, List.append_nil]
    · rw [← houtput]
      exact List.append_nil _
  · have hpos := List.length_pos_iff.mpr hrest
    let fill := (secureRandom (16 - rest.length)).toList
    have hlength : (rest ++ fill).length = 16 := by
      rw [List.length_append, Vector.length_toList]
      omega
    refine ⟨blocks ++ [ofBytes (rest ++ fill)], fill, ?_, ?_, ?_⟩
    · rw [bytes_append, bytes_singleton, toList_ofBytes hlength, ← htext']
      exact List.append_assoc _ _ _
    · rw [Vector.length_toList]
      omega
    · rw [if_neg hpos.ne', hrun.holding.partialBlock, take_ofBytes hshort, cbcEncrypt_concat hrun,
        bytes_append, bytes_singleton, ← houtput]

theorem decrypting_pieces (h : Fresh start) (hrest : rest.length < 16) {pieces : List (List UInt8)}
    (htext : pieces.flatten = bytes blocks ++ rest) :
    Decrypting start (start.calls decrypt pieces).1 blocks rest (start.released pieces) := by
  obtain ⟨blocks', rest', htext', hrun⟩ := h.decrypting.run pieces.flatten
  have hsame : bytes blocks' ++ rest' = bytes blocks ++ rest := htext'.trans htext
  obtain ⟨rfl, rfl⟩ := bytes_append_inj hrun.holding.short hrest hsame
  have hcalls : start.calls decrypt pieces = start.decrypt pieces.flatten := calls_eq start pieces
  rw [released, hcalls]
  rw [List.nil_append] at hrun
  exact hrun

/-- A ciphertext of whole blocks, with a text and its padding in them. -/
def Padded (start : AesCbcState) (ciphertext x : List UInt8) : Prop :=
  ∃ blocks, blocks ≠ [] ∧ ciphertext = bytes blocks ∧
    ∃ n < 16, bytes (cbcDecrypt start blocks) = x ++ 0x80 :: List.replicate n 0

theorem Padded.length (h : Padded start ciphertext x) :
    0 < ciphertext.length ∧ 16 ∣ ciphertext.length := by
  obtain ⟨blocks, hne, rfl, -⟩ := h
  have hpos := List.length_pos_iff.mpr hne
  rw [length_bytes]
  exact ⟨by omega, Nat.dvd_mul_right 16 _⟩

theorem exists_blocks (x : List UInt8) : ∃ blocks rest, x = bytes blocks ++ rest ∧ rest.length < 16 := by
  induction x using List.reverseRecOn with
  | nil => exact ⟨[], [], rfl, by decide⟩
  | append_singleton x byte ih =>
    obtain ⟨blocks, rest, rfl, hrest⟩ := ih
    by_cases hfull : rest.length + 1 = 16
    · refine ⟨blocks ++ [ofBytes (rest ++ [byte])], [], ?_, by decide⟩
      have hlength : (rest ++ [byte]).length = 16 := by rw [List.length_append]; exact hfull
      rw [bytes_append, bytes_singleton, toList_ofBytes hlength, List.append_nil, List.append_assoc]
    · refine ⟨blocks, rest ++ [byte], List.append_assoc _ _ _, ?_⟩
      rw [List.length_append, List.length_singleton]
      omega

/-- A text is returned exactly for a ciphertext with a padding at its end. -/
theorem decrypted_iso_iff (h : Fresh start) (hiso : start.type = .aes256CbcIso9797Method2)
    (pieces : List (List UInt8)) (x : List UInt8) :
    start.decrypted pieces = .ok x ↔ Padded start pieces.flatten x := by
  obtain ⟨blocks, rest, htext, hrest⟩ := exists_blocks pieces.flatten
  have hrun := decrypting_pieces h hrest htext
  have hfinal := hrun.finalize_iso hiso
  have hok : start.decrypted pieces = .ok x ↔ ∃ final,
      (∃ s', (start.calls decrypt pieces).1.finalizeDecryption = .ok (s', final)) ∧
        x = start.released pieces ++ final := by
    rw [decrypted]
    cases (start.calls decrypt pieces).1.finalizeDecryption with
    | error e => simp
    | ok result =>
      obtain ⟨s', final⟩ := result
      simp [eq_comm]
  rw [hok]
  constructor
  · rintro ⟨final, hend, rfl⟩
    obtain ⟨rfl, last, hlast, hunpad⟩ := (hfinal final).mp hend
    obtain ⟨n, hblock⟩ := (unpad_eq_some (by decide)).mp hunpad
    obtain ⟨front, rfl⟩ : ∃ front, blocks = front ++ [last] :=
      List.getLast?_eq_some_iff.mp hlast
    have hn : n < 16 := by
      have hlength := congrArg List.length hblock
      rw [Vector.length_toList, List.length_append, List.length_cons, List.length_replicate] at hlength
      omega
    refine ⟨front ++ [last], by simp, by rw [htext, List.append_nil], n, hn, ?_⟩
    have hchain := hrun.chain
    rw [hiso, passedBlocks, List.dropLast_concat] at hchain
    rw [hchain] at hblock
    rw [cbcDecrypt_concat, bytes_append, bytes_singleton, hblock, hrun.output, hiso, passedBlocks,
      List.dropLast_concat, List.append_assoc]
  · rintro ⟨blocks', hne, htext', n, hn, hplain⟩
    have hsame : bytes blocks ++ rest = bytes blocks' ++ [] := by
      rw [← htext, htext', List.append_nil]
    obtain ⟨rfl, rfl⟩ := bytes_append_inj hrest (by decide) hsame
    obtain ⟨front, last, rfl⟩ := (List.eq_nil_or_concat' blocks).resolve_left hne
    have hchain := hrun.chain
    rw [hiso, passedBlocks, List.dropLast_concat] at hchain
    have hout := hrun.output
    rw [hiso, passedBlocks, List.dropLast_concat] at hout
    rw [cbcDecrypt_concat, bytes_append, bytes_singleton, ← hout] at hplain
    -- The padding is shorter than a block, so that it is in the last one.
    obtain ⟨final, hx⟩ : ∃ final, x = start.released pieces ++ final := by
      rcases List.append_eq_append_iff.mp hplain with ⟨final, hx, -⟩ | ⟨more, hmore, hpad⟩
      · exact ⟨final, hx⟩
      · have hlength := congrArg List.length hpad
        rw [List.length_append, Vector.length_toList, List.length_cons,
          List.length_replicate] at hlength
        have hnil : more = [] := List.eq_nil_of_length_eq_zero (by omega)
        refine ⟨[], ?_⟩
        rw [hmore, hnil, List.append_nil, List.append_nil]
    refine ⟨final, (hfinal final).mpr ⟨rfl, last, List.getLast?_concat, ?_⟩, hx⟩
    apply (unpad_eq_some (by decide)).mpr
    refine ⟨n, ?_⟩
    rw [hx, List.append_assoc] at hplain
    rw [hchain]
    exact List.append_cancel_left hplain

theorem decrypted_encrypted_iso (h : Fresh start) (hiso : start.type = .aes256CbcIso9797Method2)
    (hsame : pieces'.flatten = start.encrypted secureRandom pieces) :
    start.decrypted pieces' = .ok pieces.flatten := by
  obtain ⟨blocks, rest, htext, hrest, hencrypted⟩ := encrypted_iso h hiso pieces
  apply (decrypted_iso_iff h hiso pieces' _).mpr
  refine ⟨_, ?_, hsame.trans hencrypted, 15 - rest.length, by omega, ?_⟩
  · apply List.ne_nil_of_length_pos
    rw [cbcEncrypt, length_encrypt, List.length_append]
    exact Nat.succ_pos _
  · rw [cbcDecrypt_cbcEncrypt, bytes_append, bytes_singleton, toList_marker hrest, htext,
      List.append_assoc]

theorem decrypted_encrypted_randomFill (h : Fresh start)
    (hfill : start.type = .aes256CbcRandomFill)
    (hsame : pieces'.flatten = start.encrypted secureRandom pieces) :
    ∃ fill, start.decrypted pieces' = .ok (pieces.flatten ++ fill) ∧ fill.length < 16 := by
  obtain ⟨blocks, fill, htext, hlength, hencrypted⟩ := encrypted_randomFill h hfill pieces
  refine ⟨fill, ?_, hlength⟩
  have hwhole : pieces'.flatten = bytes (cbcEncrypt start blocks) ++ [] := by
    rw [hsame, hencrypted, List.append_nil]
  have hrun := decrypting_pieces h (by decide) hwhole
  have hout := hrun.output
  rw [hfill, passedBlocks, cbcDecrypt_cbcEncrypt, ← htext] at hout
  have hend : (start.calls decrypt pieces').1.finalizeDecryption =
      .ok ((start.calls decrypt pieces').1, []) := by
    rw [finalizeDecryption, hrun.holding.partialLength, if_neg (by simp), hrun.holding.type, hfill]
  rw [decrypted, hend, hout]
  exact congrArg Except.ok (List.append_nil _)

/-- The only error of the decryption. -/
theorem decrypted_error (start : AesCbcState) (pieces : List (List UInt8))
    (h : ∀ x, start.decrypted pieces ≠ .ok x) :
    start.decrypted pieces = .error ⟨"Invalid AES-CBC ciphertext or padding."⟩ := by
  rw [decrypted] at h ⊢
  cases hend : (start.calls decrypt pieces).1.finalizeDecryption with
  | ok result =>
    rw [hend] at h
    exact absurd rfl (h _)
  | error e =>
    rw [finalizeDecryption] at hend
    have herror : (.error e : Except CryptologyError (AesCbcState × List UInt8)) =
        throwFinalizationError := by
      split at hend
      · exact hend.symm
      · split at hend
        · cases hend
        · split at hend
          · exact hend.symm
          · simp only at hend
            split_ifs at hend
            exact hend.symm
    cases herror
    rfl

/-- Both constructions take back what they encrypted, in any pieces. With a padding, all other
ciphertexts fail, and nothing of the last block is returned before its check. -/
theorem aesCbc_streaming (createAesBlockCipher : List UInt8 → AesBlockCipher) (key : List UInt8)
    (iv : Block) (secureRandom : (length : Nat) → Vector UInt8 length) :
    let iso := create createAesBlockCipher .aes256CbcIso9797Method2 key iv
    let randomFill := create createAesBlockCipher .aes256CbcRandomFill key iv
    (∀ pieces pieces', pieces'.flatten = iso.encrypted secureRandom pieces →
      iso.decrypted pieces' = .ok pieces.flatten) ∧
    (∀ pieces, (pieces.flatten = [] ∨ ¬ 16 ∣ pieces.flatten.length ∨
        ∀ x, ¬ Padded iso pieces.flatten x) →
      iso.decrypted pieces = .error ⟨"Invalid AES-CBC ciphertext or padding."⟩) ∧
    (∀ pieces x, iso.decrypted pieces = .ok x ↔ Padded iso pieces.flatten x) ∧
    (∀ pieces blocks rest, rest.length < 16 → pieces.flatten = bytes blocks ++ rest →
      iso.released pieces = bytes (cbcDecrypt iso blocks.dropLast)) ∧
    ∀ pieces pieces', pieces'.flatten = randomFill.encrypted secureRandom pieces →
      ∃ fill, randomFill.decrypted pieces' = .ok (pieces.flatten ++ fill) ∧ fill.length < 16 := by
  intro iso randomFill
  have hiso : Fresh iso := create_fresh _ _ _ _
  have hfill : Fresh randomFill := create_fresh _ _ _ _
  refine ⟨fun _ _ => decrypted_encrypted_iso hiso rfl, ?_, decrypted_iso_iff hiso rfl, ?_,
    fun _ _ => decrypted_encrypted_randomFill hfill rfl⟩
  · intro pieces hcases
    apply decrypted_error
    intro x hx
    have hpadded := (decrypted_iso_iff hiso rfl pieces x).mp hx
    obtain ⟨hpos, hdvd⟩ := hpadded.length
    rcases hcases with hnil | hlength | hnone
    · rw [hnil] at hpos
      exact absurd hpos (by decide)
    · exact hlength hdvd
    · exact hnone x hpadded
  · intro pieces blocks rest hrest htext
    exact (decrypting_pieces hiso hrest htext).output

end streams

end AesCbcState
end ErbslandCore.Cryptology
