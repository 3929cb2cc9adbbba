import ErbslandCore.Library.BlockHash
import ErbslandCore.Library.BlockStream
import ErbslandCore.Library.ByteOrder

namespace ErbslandCore.Cryptology
open Library BlockStream BlockHash
set_option autoImplicit true

/-- A block of 16 bytes, `mem::ByteArray<16>`. -/
abbrev Block := Vector UInt8 16

namespace Block

def zero : Block := Vector.replicate 16 0

def xor (a b : Block) : Block := Vector.zipWith (· ^^^ ·) a b

/-- A block overwritten with bytes from its start; what they leave is zero. -/
def ofBytes (bytes : List UInt8) : Block := Vector.ofFn fun i => bytes.getD i 0

theorem zero_xor (a : Block) : zero.xor a = a := by
  apply Vector.ext
  intro i hi
  simp [xor, zero]

theorem xor_right_inj (a b c : Block) : a.xor b = a.xor c ↔ b = c := by
  constructor
  · intro h
    apply Vector.ext
    intro i hi
    have hb := congrArg (fun v : Block => v[i]) h
    simp only [xor, Vector.getElem_zipWith] at hb
    exact (UInt8.xor_right_inj _).mp hb
  · exact fun h => by rw [h]

theorem toList_ofBytes {bytes : List UInt8} (h : bytes.length = 16) :
    (ofBytes bytes).toList = bytes := by
  apply List.ext_getElem
  · simp [h]
  · intro i hi hi'
    simp [ofBytes, List.getD_eq_getElem?_getD, hi']

theorem ofBytes_pad (bytes : List UInt8) (n : Nat) :
    ofBytes (bytes ++ List.replicate n 0) = ofBytes bytes := by
  apply Vector.ext
  intro i hi
  simp only [ofBytes, Vector.getElem_ofFn, List.getD_eq_getElem?_getD, List.getElem?_append]
  split
  case isTrue => rfl
  case isFalse h =>
    rw [List.getElem?_eq_none (not_lt.mp h), List.getElem?_replicate]
    split <;> rfl

theorem ofBytes_injective {a b : List UInt8} (ha : a.length = 16) (hb : b.length = 16)
    (h : ofBytes a = ofBytes b) : a = b := by
  rw [← toList_ofBytes ha, ← toList_ofBytes hb, h]

/-- The bits of a byte. -/
def byteBits (byte : UInt8) (i : Fin 8) : ZMod 2 := if byte.toNat.testBit i then 1 else 0

theorem byteBits_xor (a b : UInt8) : byteBits (a ^^^ b) = byteBits a + byteBits b := by
  funext i
  simp only [byteBits, Pi.add_apply, UInt8.toNat_xor, Nat.testBit_xor]
  cases a.toNat.testBit i <;> cases b.toNat.testBit i <;> decide

theorem byteBits_injective : Function.Injective byteBits := by
  intro a b h
  apply UInt8.toNat_inj.mp
  apply Nat.eq_of_testBit_eq
  intro i
  by_cases hi : i < 8
  · have hb := congrFun h ⟨i, hi⟩
    simp only [byteBits] at hb
    cases ha : a.toNat.testBit i <;> cases hb' : b.toNat.testBit i <;> simp_all
  · have hp : 2 ^ 8 ≤ 2 ^ i := Nat.pow_le_pow_right (by decide) (not_lt.mp hi)
    rw [Nat.testBit_lt_two_pow (a.toNat_lt.trans_le hp),
      Nat.testBit_lt_two_pow (b.toNat_lt.trans_le hp)]

theorem byteBits_surjective : Function.Surjective byteBits := by
  let e : UInt8 ≃ Fin 256 :=
    ⟨UInt8.toFin, UInt8.ofFin, fun _ => rfl, fun _ => rfl⟩
  have : Fintype UInt8 := Fintype.ofEquiv _ e.symm
  have hc : Fintype.card UInt8 = Fintype.card (Fin 8 → ZMod 2) := by
    rw [Fintype.card_congr e, Fintype.card_fin, Fintype.card_fun, ZMod.card, Fintype.card_fin]
    rfl
  exact ((Fintype.bijective_iff_injective_and_card byteBits).mpr ⟨byteBits_injective, hc⟩).2

/-- The bits of a block. -/
def bits (block : Block) (i : Fin 16 × Fin 8) : ZMod 2 := byteBits block[i.1] i.2

theorem bits_xor (a b : Block) : bits (a.xor b) = bits a + bits b := by
  funext i
  simp only [bits, xor, Fin.getElem_fin, Vector.getElem_zipWith, byteBits_xor, Pi.add_apply]

theorem bits_bijective : Function.Bijective bits := by
  constructor
  · intro a b h
    apply Vector.ext
    intro i hi
    apply byteBits_injective
    funext j
    exact congrFun h (⟨i, hi⟩, j)
  · intro g
    choose byte hbyte using fun i : Fin 16 => byteBits_surjective fun j => g (i, j)
    refine ⟨Vector.ofFn byte, ?_⟩
    funext i
    simp only [bits, Fin.getElem_fin, Vector.getElem_ofFn, hbyte]

end Block

/-- The field multiplication of `GaloisMultiplier`. -/
abbrev Multiply := Block → Block → Block

/-- SP 800-38D, equation 2: one step of GHASH. -/
def hashStep (multiply : Multiply) (hashSubkey : Block) (value : Block) (block : List UInt8) : Block :=
  multiply (value.xor (Block.ofBytes block)) hashSubkey

/-- SP 800-38D, section 6.4: GHASH of whole blocks. -/
def ghash (multiply : Multiply) (hashSubkey : Block) (x : List UInt8) : Block :=
  (blocks 16 x).foldl (hashStep multiply hashSubkey) Block.zero

theorem ghash_eq_chain (multiply : Multiply) (hashSubkey : Block) (x : List UInt8) :
    ghash multiply hashSubkey x =
      chain Block.xor (fun b => multiply b hashSubkey) Block.zero ((blocks 16 x).map Block.ofBytes) := by
  rw [chain, List.foldl_map]
  rfl

theorem map_ofBytes_injective {xs ys : List (List UInt8)} (hx : ∀ b ∈ xs, b.length = 16)
    (hy : ∀ b ∈ ys, b.length = 16) (h : xs.map Block.ofBytes = ys.map Block.ofBytes) : xs = ys := by
  have hl : xs.length = ys.length := by simpa using congrArg List.length h
  apply List.ext_getElem hl
  intro i hi hi'
  have hb : (xs.map Block.ofBytes)[i]? = (ys.map Block.ofBytes)[i]? := by rw [h]
  simp only [List.getElem?_map, List.getElem?_eq_getElem hi, List.getElem?_eq_getElem hi',
    Option.map_some, Option.some.injEq] at hb
  exact Block.ofBytes_injective (hx _ (List.getElem_mem hi)) (hy _ (List.getElem_mem hi')) hb

/-- Some multiplication tells two different sequences of blocks apart. -/
theorem exists_ghash_ne {x y : List UInt8} (hx : 16 ∣ x.length) (hy : 16 ∣ y.length)
    (hlen : x.length + y.length < 2 ^ 128) (h : x ≠ y) :
    ∃ multiply : Multiply, ∀ hashSubkey, ghash multiply hashSubkey x ≠ ghash multiply hashSubkey y := by
  have hne : (blocks 16 x).map Block.ofBytes ≠ (blocks 16 y).map Block.ofBytes := by
    intro heq
    have hb := map_ofBytes_injective (length_of_mem_blocks (by decide) hx)
      (length_of_mem_blocks (by decide) hy) heq
    refine h ?_
    rw [← flatten_blocks (by decide) hx, hb, flatten_blocks (by decide) hy]
  have hbx := length_blocks (k := 16) (by decide) hx
  have hby := length_blocks (k := 16) (by decide) hy
  obtain ⟨f, hf⟩ := exists_chain_ne_of_bits (n := 128) (by rfl) (by decide)
    (Equiv.ofBijective Block.bits Block.bits_bijective) Block.bits_xor Block.zero_xor hne
    (by rw [List.length_map, List.length_map]; omega)
  refine ⟨fun b _ => f b, ?_⟩
  intro hashSubkey
  rw [ghash_eq_chain, ghash_eq_chain]
  exact hf

theorem length_nil_lt : ([] : List UInt8).length < 16 := Nat.zero_lt_succ 15

/-- The incremental GHASH state; `partialBlock` is the used part of `_partial`, the rest of which
is zero. -/
structure GHash where
  hashSubkey : Block
  accumulator : Block := Block.zero
  partialBlock : List UInt8 := []
  authenticatedDataLength : Nat := 0
  ciphertextLength : Nat := 0
  ciphertextStarted : Bool := false
  finalized : Bool := false
  partialLength_lt : partialBlock.length < 16 := by first | exact length_nil_lt | decide

namespace GHash

def processBlock (multiply : Multiply) (g : GHash) (block : Block) : GHash :=
  { g with accumulator := multiply (g.accumulator.xor block) g.hashSubkey }

/-- Absorb bytes into the current section, up to the end of the partial block in each turn. -/
def add (multiply : Multiply) (g : GHash) (data : List UInt8) : GHash :=
  if data = [] then g
  else
    let count := min (16 - g.partialBlock.length) data.length
    let filled := g.partialBlock ++ data.take count
    if hfull : filled.length = 16 then
      add multiply { g.processBlock multiply (Block.ofBytes filled) with
        partialBlock := [], partialLength_lt := length_nil_lt } (data.drop count)
    else
      add multiply { g with
        partialBlock := filled
        partialLength_lt := by
          have := g.partialLength_lt
          simp only [filled, count, List.length_append, List.length_take] at hfull ⊢
          omega } (data.drop count)
termination_by data.length
decreasing_by
  all_goals
    rename_i h
    have hp := List.length_pos_iff.mpr h
    have hg := g.partialLength_lt
    rw [List.length_drop]
    omega

def finishPartialBlock (multiply : Multiply) (g : GHash) : GHash :=
  if g.partialBlock.length ≠ 0 then
    { g.processBlock multiply (Block.ofBytes g.partialBlock) with
      partialBlock := [], partialLength_lt := length_nil_lt }
  else g

def addAuthenticatedData (multiply : Multiply) (g : GHash) (data : List UInt8) : GHash :=
  add multiply { g with authenticatedDataLength := g.authenticatedDataLength + data.length } data

/-- Close the authenticated data, where the ciphertext has not started yet. -/
def startCiphertext (multiply : Multiply) (g : GHash) : GHash :=
  if g.ciphertextStarted then g
  else { g.finishPartialBlock multiply with ciphertextStarted := true }

def addCiphertext (multiply : Multiply) (g : GHash) (data : List UInt8) : GHash :=
  let g := g.startCiphertext multiply
  add multiply { g with ciphertextLength := g.ciphertextLength + data.length } data

/-- The two lengths in bits, as 64-bit big-endian integers. -/
def lengthBlock (authenticatedDataLength ciphertextLength : Nat) : List UInt8 :=
  toBigEndian 8 (authenticatedDataLength * 8) ++ toBigEndian 8 (ciphertextLength * 8)

def finalize (multiply : Multiply) (g : GHash) : GHash × Block :=
  if g.finalized then (g, g.accumulator)
  else
    let g := (g.startCiphertext multiply).finishPartialBlock multiply
    let g := { g.processBlock multiply
        (Block.ofBytes (lengthBlock g.authenticatedDataLength g.ciphertextLength)) with
      finalized := true }
    (g, g.accumulator)

/-- The bytes that a GHASH state took in, with the two lengths. -/
structure Holds (multiply : Multiply) (hashSubkey : Block) (g : GHash) (input : List UInt8)
    (authenticatedDataLength ciphertextLength : Nat) (started : Bool) : Prop where
  subkey : g.hashSubkey = hashSubkey
  absorbed : absorb (hashStep multiply hashSubkey) 16 ⟨Block.zero, []⟩ input =
    ⟨g.accumulator, g.partialBlock⟩
  authenticated : g.authenticatedDataLength = authenticatedDataLength
  ciphertext : g.ciphertextLength = ciphertextLength
  started : g.ciphertextStarted = started
  running : g.finalized = false

variable {multiply : Multiply} {hashSubkey : Block} {g : GHash} {input : List UInt8}

theorem holds_start (multiply : Multiply) (hashSubkey : Block) :
    Holds multiply hashSubkey { hashSubkey } [] 0 0 false :=
  ⟨rfl, rfl, rfl, rfl, rfl, rfl⟩

theorem Holds.add (h : Holds multiply hashSubkey g input a c s) (data : List UInt8) :
    Holds multiply hashSubkey (g.add multiply data) (input ++ data) a c s := by
  induction hn : data.length using Nat.strong_induction_on generalizing g input data with
  | _ n ih =>
    rw [GHash.add]
    split
    case isTrue hd => rw [hd, List.append_nil]; exact h
    case isFalse hd =>
      have hp := List.length_pos_iff.mpr hd
      have hg := g.partialLength_lt
      have hcount : 0 < min (16 - g.partialBlock.length) data.length := by omega
      have hne : data.take (min (16 - g.partialBlock.length) data.length) ≠ [] := by
        intro he
        have hl := congrArg List.length he
        rw [List.length_take, List.length_nil] at hl
        omega
      have hlt : (data.drop (min (16 - g.partialBlock.length) data.length)).length < n := by
        rw [List.length_drop]
        omega
      have happ := List.take_append_drop (min (16 - g.partialBlock.length) data.length) data
      dsimp only
      split
      case isTrue hfull =>
        rw [List.length_append] at hfull
        have hfilled : Holds multiply hashSubkey
            { g.processBlock multiply (Block.ofBytes (g.partialBlock ++
                data.take (min (16 - g.partialBlock.length) data.length))) with
              partialBlock := [], partialLength_lt := length_nil_lt }
            (input ++ data.take (min (16 - g.partialBlock.length) data.length)) a c s :=
          ⟨h.subkey, by rw [absorb_append, h.absorbed, absorb_fill _ _ hfull hne,
            ← h.subkey]; rfl, h.authenticated, h.ciphertext, h.started, h.running⟩
        have hh := ih _ hlt hfilled _ rfl
        rw [List.append_assoc, happ] at hh
        exact hh
      case isFalse hfull =>
        have hshort : (g.partialBlock ++
            data.take (min (16 - g.partialBlock.length) data.length)).length < 16 := by
          rw [List.length_append, List.length_take] at hfull ⊢
          omega
        have hkept : Holds multiply hashSubkey
            { g with
              partialBlock := g.partialBlock ++
                data.take (min (16 - g.partialBlock.length) data.length)
              partialLength_lt := hshort }
            (input ++ data.take (min (16 - g.partialBlock.length) data.length)) a c s :=
          ⟨h.subkey, by
            rw [absorb_append, h.absorbed, absorb_short _ _ (by rwa [List.length_append] at hshort)],
            h.authenticated, h.ciphertext, h.started, h.running⟩
        have hh := ih _ hlt hkept _ rfl
        rw [List.append_assoc, happ] at hh
        exact hh

theorem Holds.length_partialBlock (h : Holds multiply hashSubkey g input a c s) :
    g.partialBlock.length = input.length % 16 := by
  have hl : (absorb (hashStep multiply hashSubkey) 16 ⟨Block.zero, []⟩ input).pending.length = _ :=
    length_pending (by decide) ⟨Block.zero, []⟩ input (by decide)
  rw [h.absorbed, List.length_nil, Nat.zero_add] at hl
  exact hl

/-- Closing the partial block takes in the zero bytes that complete it. -/
theorem Holds.finishPartialBlock (h : Holds multiply hashSubkey g input a c s) :
    Holds multiply hashSubkey (g.finishPartialBlock multiply) (pad 16 0 input) a c s := by
  have hl := h.length_partialBlock
  unfold GHash.finishPartialBlock
  split
  case isTrue hn =>
    have hd : ¬16 ∣ input.length := by
      intro hd
      exact hn (hl.trans (Nat.mod_eq_zero_of_dvd hd))
    have hp := padding_of_not_dvd (k := 16) (by decide) hd
    have hlt := g.partialLength_lt
    refine ⟨h.subkey, ?_, h.authenticated, h.ciphertext, h.started, h.running⟩
    rw [pad, absorb_append, h.absorbed, hp, absorb_fill, hashStep, Block.ofBytes_pad, ← h.subkey]
    · rfl
    · rw [List.length_replicate]
      change g.partialBlock.length + _ = _
      omega
    · intro he
      have hz := congrArg List.length he
      rw [List.length_replicate, List.length_nil] at hz
      omega
  case isFalse hn =>
    have hd : 16 ∣ input.length := Nat.dvd_of_mod_eq_zero (hl.symm.trans (not_not.mp hn))
    rw [pad_of_dvd 0 hd]
    exact h

theorem Holds.addAuthenticatedData (h : Holds multiply hashSubkey g input a c s)
    (data : List UInt8) :
    Holds multiply hashSubkey (g.addAuthenticatedData multiply data) (input ++ data)
      (a + data.length) c s := by
  refine Holds.add ?_ data
  exact ⟨h.subkey, h.absorbed, by rw [← h.authenticated], h.ciphertext, h.started, h.running⟩

/-- The bytes that were taken in once the ciphertext has started. -/
def closed (started : Bool) (input : List UInt8) : List UInt8 :=
  if started then input else pad 16 0 input

theorem Holds.startCiphertext (h : Holds multiply hashSubkey g input a c s) :
    Holds multiply hashSubkey (g.startCiphertext multiply) (closed s input) a c true := by
  unfold GHash.startCiphertext closed
  rw [h.started]
  cases s with
  | true => exact h
  | false =>
    have hf := h.finishPartialBlock
    exact ⟨hf.subkey, hf.absorbed, hf.authenticated, hf.ciphertext, rfl, hf.running⟩

theorem Holds.addCiphertext (h : Holds multiply hashSubkey g input a c s) (data : List UInt8) :
    Holds multiply hashSubkey (g.addCiphertext multiply data) (closed s input ++ data) a
      (c + data.length) true := by
  have hs := h.startCiphertext
  refine Holds.add ?_ data
  exact ⟨hs.subkey, hs.absorbed, hs.authenticated, by rw [← hs.ciphertext], hs.started, hs.running⟩

theorem length_lengthBlock (a c : Nat) : (lengthBlock a c).length = 16 := by
  rw [lengthBlock, List.length_append, toBigEndian_length, toBigEndian_length]

/-- The value of GHASH over the closed input and the lengths. -/
theorem Holds.finalize (h : Holds multiply hashSubkey g input a c s) :
    (g.finalize multiply).2 =
      ghash multiply hashSubkey (pad 16 0 (closed s input) ++ lengthBlock a c) := by
  have hf := h.startCiphertext.finishPartialBlock
  have hd := dvd_length_pad (k := 16) (by decide) 0 (closed s input)
  have hb : absorb (hashStep multiply hashSubkey) 16 ⟨Block.zero, []⟩ _ = _ :=
    absorb_blocks (by decide) Block.zero hd
  rw [hf.absorbed] at hb
  have hv := congrArg Absorber.value hb
  dsimp only at hv
  have hlast := blocks_concat (by decide) hd (length_lengthBlock a c)
  unfold GHash.finalize
  rw [if_neg (by rw [h.running]; decide)]
  rw [ghash, hlast, List.foldl_append, ← hv]
  change multiply _ _ = hashStep _ _ _ _
  rw [hashStep, hf.subkey, hf.authenticated, hf.ciphertext]

end GHash
end ErbslandCore.Cryptology
