import ErbslandCore.Compression.DeflateDecoder
import ErbslandCore.Library.Lz77

namespace ErbslandCore.Compression.Deflate
open Library Mem
set_option autoImplicit true

/-- All links of a match table lead to positions before `p`. -/
def Linked (links : Array (Option Nat)) (p : Nat) : Prop :=
  ∀ i q : Nat, links[i]! = some q → q < p

structure MatchTables.Linked (tables : MatchTables) (p : Nat) : Prop where
  head : Deflate.Linked tables.head p
  previous : Deflate.Linked tables.previous p

theorem Linked.mono {links : Array (Option Nat)} (h : Linked links p) (hp : p ≤ q) :
    Linked links q :=
  fun i r hr => Nat.lt_of_lt_of_le (h i r hr) hp

theorem linked_replicate (n p : Nat) : Linked (Array.replicate n none) p := by
  intro i q h
  rw [getElem!_def] at h
  by_cases hi : i < n
  · simp [hi] at h
  · simp [hi] at h

theorem Linked.set {links : Array (Option Nat)} (h : Linked links p)
    (hv : ∀ q, value = some q → q < p) : Linked (links.set! k value) p := by
  intro i q hq
  rw [getElem!_def, Array.set!_eq_setIfInBounds, Array.getElem?_setIfInBounds] at hq
  by_cases hik : k = i
  · rw [if_pos hik] at hq
    split at hq
    case h_1 x hx =>
      split at hx
      case isTrue => cases hx; exact hv q hq
      case isFalse => cases hx
    case h_2 => cases hq
  · rw [if_neg hik] at hq
    exact h i q (by rw [getElem!_def]; exact hq)

theorem MatchTables.create_linked (input : List UInt8) (p : Nat) :
    (MatchTables.create input).Linked p :=
  ⟨linked_replicate _ _, linked_replicate _ _⟩

theorem MatchTables.Linked.mono {tables : MatchTables} (h : tables.Linked p) (hp : p ≤ q) :
    tables.Linked q :=
  ⟨h.head.mono hp, h.previous.mono hp⟩

/-- The links stay before the inserted position, which only the head table names. -/
theorem MatchTables.Linked.insert {tables : MatchTables} (h : tables.Linked p)
    (input : List UInt8) : (tables.insert input p).Linked (p + 1) ∧
      Deflate.Linked (tables.insert input p).previous p := by
  have hprev : Deflate.Linked (tables.insert input p).previous p :=
    h.previous.set fun q hq => h.head _ q hq
  refine ⟨⟨?_, hprev.mono (Nat.le_succ p)⟩, hprev⟩
  refine (h.head.mono (Nat.le_succ p)).set fun q hq => ?_
  cases hq
  exact Nat.lt_succ_self p

theorem MatchTables.Linked.insertRange {tables : MatchTables} (h : tables.Linked first)
    (last : Nat) (hle : first ≤ last) (input : List UInt8) :
    (tables.insertRange input first last).Linked last := by
  fun_induction MatchTables.insertRange tables input first last with
  | case1 tables first hc ih => exact ih (h.insert input).1 hc.1
  | case2 tables first hc => exact h.mono hle

theorem matchLength_spec (input : List UInt8) (candidate position length maximum : Nat)
    (hl : length ≤ maximum)
    (h : ∀ i, i < length → input[candidate + i]! = input[position + i]!) :
    matchLength input candidate position length maximum ≤ maximum ∧
      ∀ i, i < matchLength input candidate position length maximum →
        input[candidate + i]! = input[position + i]! := by
  fun_induction matchLength input candidate position length maximum with
  | case1 length hc ih =>
    refine ih hc.1 fun i hi => ?_
    rcases Nat.lt_succ_iff_lt_or_eq.mp hi with hi | rfl
    · exact h i hi
    · exact hc.2
  | case2 length hc => exact ⟨hl, h⟩

/-- The limits of Deflate's length and distance codes. -/
def limits : TokenLimits where
  minimumLength := cMinimumMatchLength
  maximumLength := cMaximumMatchLength
  maximumDistance := cMaximumMatchDistance

/-- A found match is either too short to be used or a reference within the limits. -/
def Usable (input : List UInt8) (position : Nat) (best : Nat × Nat) : Prop :=
  cMinimumMatchLength ≤ best.1 → BackReference input position best.2 best.1 ∧
    best.1 ≤ cMaximumMatchLength ∧ best.2 ≤ cMaximumMatchDistance

theorem searchChain_usable {input : List UInt8} (hp : position ≤ input.length)
    (hl : Linked previous position) (hb : Usable input position best)
    (hc : ∀ q, candidate = some q → q < position) :
    Usable input position (searchChain input position previous best depth candidate) := by
  induction depth generalizing best candidate with
  | zero => exact hb
  | succ depth ih =>
    cases candidate with
    | none => exact hb
    | some candidate =>
      rw [searchChain]
      split
      case isTrue => exact hb
      case isFalse hd =>
        have hlt := hc candidate rfl
        refine ih ?_ (hl _)
        split
        case isFalse => exact hb
        case isTrue hlen =>
          obtain ⟨hmax, hagree⟩ := matchLength_spec input candidate position 0
            (min cMaximumMatchLength (input.length - position)) (Nat.zero_le _)
            (fun i hi => absurd hi (Nat.not_lt_zero i))
          intro _
          simp only at *
          refine ⟨⟨by omega, by omega, by omega, fun i hi => ?_⟩, by omega, by omega⟩
          rw [show position - (position - candidate) = candidate by omega]
          exact hagree i hi

theorem findMatch_usable (level : CompressionLevel) {input : List UInt8} (hp : position ≤ input.length)
    (hl : tables.Linked position) :
    Usable input position (findMatch level input position tables).1 ∧
      (findMatch level input position tables).2.Linked (position + 1) := by
  unfold findMatch
  split
  case isTrue =>
    obtain ⟨h₁, h₂⟩ := hl.insert input
    refine ⟨searchChain_usable hp h₂ (fun h => ?_) (hl.head _), h₁⟩
    exact absurd h (by decide)
  case isFalse =>
    refine ⟨fun h => ?_, hl.mono (Nat.le_succ _)⟩
    simp only [cMinimumMatchLength] at h
    omega

/-- The bits of a symbol in the fixed literal and length alphabet. -/
def symbolBits (symbol : Nat) : List Bool :=
  natBits (fixedCode symbol).2 (reverseBits (fixedCode symbol).1 (fixedCode symbol).2)

theorem fixedCode_length (symbol : Nat) : 7 ≤ (fixedCode symbol).2 ∧ (fixedCode symbol).2 ≤ 9 := by
  unfold fixedCode
  split_ifs <;> simp

/-- The code of a length or a distance: a table index and the value of its extra bits. -/
structure Extra where
  index : Nat
  value : Nat

/-- A length code that restores its length. -/
structure LengthCode (length : Nat) (e : Extra) : Prop where
  index_lt : e.index < cLengthBase.length
  value_lt : e.value < 2 ^ cLengthExtra[e.index]!
  restore : cLengthBase[e.index]! + e.value = length

structure DistanceCode (distance : Nat) (e : Extra) : Prop where
  index_lt : e.index < cDistanceBase.length
  value_lt : e.value < 2 ^ cDistanceExtra[e.index]!
  restore : cDistanceBase[e.index]! + e.value = distance

def Extra.lengthBits (e : Extra) : List Bool :=
  symbolBits (257 + e.index) ++ natBits cLengthExtra[e.index]! e.value

def Extra.distanceBits (e : Extra) : List Bool :=
  natBits 5 (reverseBits e.index 5) ++ natBits cDistanceExtra[e.index]! e.value

theorem length_ranges : ∀ i < 28,
    cLengthBase[i + 1]! ≤ cLengthBase[i]! + 2 ^ cLengthExtra[i]! ∧ cLengthExtra[i]! ≤ 5 := by
  decide

theorem length_bases_pos : ∀ i < 29, 0 < cLengthBase[i]! := by
  decide

theorem distance_ranges : ∀ i < 30, cDistanceExtra[i]! ≤ 13 ∧
    (i + 1 < 30 → cDistanceBase[i + 1]! = cDistanceBase[i]! + 2 ^ cDistanceExtra[i]!) := by
  decide

theorem writeFixedSymbol_holds {w : BitWriter} (h : w.Holds bits) (symbol : Nat)
    (hs : bits.length + 9 ≤ cSizeMaximum) :
    ∃ w', writeFixedSymbol w symbol = .ok w' ∧ w'.Holds (bits ++ symbolBits symbol) := by
  have hl := fixedCode_length symbol
  exact h.writeBits _ (by omega) (by omega)

/-- The loop over the length table writes the first range that holds the length. -/
theorem writeLengthFrom_holds {w : BitWriter} (h : w.Holds bits) (hi : index < 29)
    (hlow : cLengthBase[index]! ≤ length) (hmax : length ≤ cMaximumMatchLength)
    (hs : bits.length + 14 ≤ cSizeMaximum) :
    ∃ e w', writeLengthFrom w length index = .ok w' ∧ LengthCode length e ∧
      w'.Holds (bits ++ e.lengthBits) := by
  induction hn : 29 - index generalizing index with
  | zero => omega
  | succ n ih =>
    rw [writeLengthFrom, if_pos (show index < cLengthBase.length from hi)]
    simp only
    by_cases hlast : index + 1 < 29
    · rw [if_pos (show index + 1 < cLengthBase.length from hlast)]
      obtain ⟨hrange, hextra⟩ := length_ranges index (by omega)
      by_cases hle : length ≤ cLengthBase[index + 1]! - 1
      · rw [if_pos hle]
        have hnext : 0 < cLengthBase[index + 1]! := length_bases_pos _ hlast
        obtain ⟨w₁, h₁, hw₁⟩ := writeFixedSymbol_holds h (257 + index) (by omega)
        have hl₁ := fixedCode_length (257 + index)
        obtain ⟨w₂, h₂, hw₂⟩ := hw₁.writeBits (length - cLengthBase[index]!)
          (n := cLengthExtra[index]!) (by omega)
          (by simp only [symbolBits, List.length_append, natBits_length]; omega)
        refine ⟨⟨index, length - cLengthBase[index]!⟩, w₂, ?_, ⟨hi, ?_, ?_⟩, ?_⟩
        · rw [h₁]
          exact h₂
        · simp only
          omega
        · simp only
          omega
        · rwa [List.append_assoc] at hw₂
      · rw [if_neg hle]
        exact ih hlast (by omega) (by omega)
    · obtain rfl : index = 28 := by omega
      have hbase : cLengthBase[28]! = 258 := rfl
      have hextra : cLengthExtra[28]! = 0 := rfl
      have hle : length ≤ (if 28 + 1 < cLengthBase.length then cLengthBase[28 + 1]! - 1
          else cMaximumMatchLength) := hmax
      rw [if_pos hle, hbase, hextra]
      simp only [cMaximumMatchLength] at hmax
      obtain ⟨w₁, h₁, hw₁⟩ := writeFixedSymbol_holds h (257 + 28) (by omega)
      have hl₁ := fixedCode_length (257 + 28)
      obtain ⟨w₂, h₂, hw₂⟩ := hw₁.writeBits (length - 258) (n := 0) (by omega)
        (by simp only [symbolBits, List.length_append, natBits_length]; omega)
      refine ⟨⟨28, length - 258⟩, w₂, ?_, ⟨hi, ?_, ?_⟩, ?_⟩
      · rw [h₁]
        exact h₂
      · simp only [hextra]
        omega
      · simp only [hbase]
        omega
      · rwa [List.append_assoc] at hw₂

theorem writeLength_holds {w : BitWriter} (h : w.Holds bits) (hmin : cMinimumMatchLength ≤ length)
    (hmax : length ≤ cMaximumMatchLength) (hs : bits.length + 14 ≤ cSizeMaximum) :
    ∃ e w', writeLength w length = .ok w' ∧ LengthCode length e ∧
      w'.Holds (bits ++ e.lengthBits) :=
  writeLengthFrom_holds h (by decide) hmin hmax hs

/-- The loop over the distance table writes the first range that holds the distance. -/
theorem writeDistanceFrom_holds {w : BitWriter} (h : w.Holds bits) (hi : index < 30)
    (hlow : cDistanceBase[index]! ≤ distance) (hmax : distance ≤ cMaximumMatchDistance)
    (hs : bits.length + 18 ≤ cSizeMaximum) :
    ∃ e w', writeDistanceFrom w distance index = .ok w' ∧ DistanceCode distance e ∧
      w'.Holds (bits ++ e.distanceBits) := by
  induction hn : 30 - index generalizing index with
  | zero => omega
  | succ n ih =>
    rw [writeDistanceFrom, if_pos (show index < cDistanceBase.length from hi)]
    simp only [Nat.one_shiftLeft]
    obtain ⟨hextra, hrange⟩ := distance_ranges index hi
    have hpow := Nat.two_pow_pos cDistanceExtra[index]!
    by_cases hle : distance ≤ cDistanceBase[index]! + (2 ^ cDistanceExtra[index]! - 1)
    · rw [if_pos hle]
      obtain ⟨w₁, h₁, hw₁⟩ := h.writeBits (reverseBits index 5) (n := 5) (by omega) (by omega)
      obtain ⟨w₂, h₂, hw₂⟩ := hw₁.writeBits (distance - cDistanceBase[index]!)
        (n := cDistanceExtra[index]!) (by omega)
        (by simp only [List.length_append, natBits_length]; omega)
      refine ⟨⟨index, distance - cDistanceBase[index]!⟩, w₂, ?_, ⟨hi, ?_, ?_⟩, ?_⟩
      · rw [h₁]
        exact h₂
      · simp only
        omega
      · simp only
        omega
      · rwa [List.append_assoc] at hw₂
    · rw [if_neg hle]
      by_cases hlast : index + 1 < 30
      · have := hrange hlast
        exact ih hlast (by omega) (by omega)
      · obtain rfl : index = 29 := by omega
        exact absurd hmax hle

theorem writeDistance_holds {w : BitWriter} (h : w.Holds bits) (hpos : 0 < distance)
    (hmax : distance ≤ cMaximumMatchDistance) (hs : bits.length + 18 ≤ cSizeMaximum) :
    ∃ e w', writeDistance w distance = .ok w' ∧ DistanceCode distance e ∧
      w'.Holds (bits ++ e.distanceBits) :=
  writeDistanceFrom_holds h (by decide) hpos hmax hs

/-- The bits of a token under some choice of its codes. -/
inductive TokenBits : Token UInt8 → List Bool → Prop where
  | literal (value : UInt8) : TokenBits (.literal value) (symbolBits value.toNat)
  | reference : LengthCode length e → DistanceCode distance f →
      TokenBits (.reference length distance) (e.lengthBits ++ f.distanceBits)

inductive TokensBits : List (Token UInt8) → List Bool → Prop where
  | nil : TokensBits [] []
  | cons : TokenBits token bits → TokensBits tokens rest →
      TokensBits (token :: tokens) (bits ++ rest)

theorem lengthBits_length (h : LengthCode length e) : e.lengthBits.length ≤ 14 := by
  have hl := fixedCode_length (257 + e.index)
  have hx : ∀ i < 29, cLengthExtra[i]! ≤ 5 := by decide
  have := hx e.index h.index_lt
  simp only [Extra.lengthBits, symbolBits, List.length_append, natBits_length]
  omega

theorem distanceBits_length (h : DistanceCode distance e) : e.distanceBits.length ≤ 18 := by
  have := (distance_ranges e.index h.index_lt).1
  simp only [Extra.distanceBits, List.length_append, natBits_length]
  omega

/-- The encoder loop writes tokens that describe the rest of the input. -/
theorem encodeLoop_holds (level : CompressionLevel) {w : BitWriter} (h : w.Holds bits) (hl : tables.Linked position)
    (hp : position ≤ input.length)
    (hs : bits.length + 32 * (input.length - position) ≤ cSizeMaximum) :
    ∃ tokens tokenBits w', encodeLoop level input tables position w = .ok w' ∧
      TokensBits tokens tokenBits ∧ Parse limits input position tokens input.length ∧
      tokenBits.length ≤ 32 * (input.length - position) ∧ w'.Holds (bits ++ tokenBits) := by
  induction hn : input.length - position using Nat.strong_induction_on
    generalizing w bits tables position with
  | _ n ih =>
    subst hn
    rw [encodeLoop]
    by_cases hlt : position < input.length
    · obtain ⟨husable, hlinked⟩ := findMatch_usable level hp hl
      rw [if_pos hlt]
      simp only
      generalize findMatch level input position tables = found at *
      by_cases hlit : found.1.1 < cMinimumMatchLength
      · rw [if_pos hlit]
        obtain ⟨w₁, h₁, hw₁⟩ := writeFixedSymbol_holds h input[position]!.toNat (by omega)
        have hlen := fixedCode_length input[position]!.toNat
        have hbits : (symbolBits input[position]!.toNat).length ≤ 9 := by
          simp only [symbolBits, natBits_length]
          omega
        obtain ⟨tokens, tokenBits, w', h', ht, hparse, hb, hw'⟩ := ih _ (by omega) hw₁ hlinked hlt
          (by rw [List.length_append]; omega) rfl
        refine ⟨_, _, w', ?_, .cons (.literal input[position]!) ht, .literal hlt hparse, ?_, ?_⟩
        · rw [h₁]
          exact h'
        · rw [List.length_append]
          omega
        · rwa [List.append_assoc] at hw'
      · rw [if_neg hlit]
        have hmin := Nat.le_of_not_gt hlit
        obtain ⟨href, hmax, hdist⟩ := husable hmin
        have hwithin := href.within
        simp only [cMinimumMatchLength] at hmin
        obtain ⟨e, w₁, h₁, he, hw₁⟩ := writeLength_holds h hmin hmax (by omega)
        have hel := lengthBits_length he
        obtain ⟨f, w₂, h₂, hf, hw₂⟩ := writeDistance_holds hw₁ href.distance_pos hdist
          (by rw [List.length_append]; omega)
        have hfl := distanceBits_length hf
        obtain ⟨tokens, tokenBits, w', h', ht, hparse, hb, hw'⟩ := ih _ (by omega) hw₂
          (hlinked.insertRange (position + found.1.1) (by omega) input) hwithin
          (by simp only [List.length_append]; omega) rfl
        refine ⟨_, _, w', ?_, .cons (.reference he hf) ht,
          .reference href hmin hmax hdist hparse, ?_, ?_⟩
        · rw [h₁]
          simp only [h₂]
          exact h'
        · simp only [List.length_append]
          omega
        · rw [← List.append_assoc, ← List.append_assoc]
          exact hw'
    · rw [if_neg hlt, show position = input.length by omega]
      exact ⟨[], [], w, rfl, .nil, .nil, by simp, by rwa [List.append_nil]⟩

/-- A fixed block is its header, the tokens of the new input and the end symbol. -/
theorem encodeFixed_holds (level : CompressionLevel) (final : Bool) {w : BitWriter} (h : w.Holds []) (hstart : start ≤ input.length)
    (hs : 32 * (input.length - start) + 64 ≤ cSizeMaximum) :
    ∃ tokens tokenBits w', encodeFixed level input start final w = .ok w' ∧
      TokensBits tokens tokenBits ∧ Parse limits input start tokens input.length ∧
      tokenBits.length ≤ 32 * (input.length - start) ∧
      w'.Holds (natBits 1 final.toNat ++ natBits 2 1 ++ tokenBits ++
        symbolBits cEndOfBlockSymbol) := by
  obtain ⟨w₁, h₁, hw₁⟩ := h.writeBits (if final then 1 else 0) (n := 1) (by omega)
    (by rw [List.length_nil]; omega)
  obtain ⟨w₂, h₂, hw₂⟩ := hw₁.writeBits 1 (n := 2) (by omega)
    (by simp only [List.length_append, natBits_length, List.length_nil]; omega)
  have hlinked : ((MatchTables.create input).insertRange input 0 start).Linked start :=
    (MatchTables.create_linked input 0).insertRange _ (Nat.zero_le _) input
  obtain ⟨tokens, tokenBits, w₃, h₃, ht, hparse, hb, hw₃⟩ := encodeLoop_holds level
    hw₂ hlinked hstart (by simp only [List.length_append, natBits_length, List.length_nil]; omega)
  obtain ⟨w₄, h₄, hw₄⟩ := writeFixedSymbol_holds hw₃ cEndOfBlockSymbol
    (by simp only [List.length_append, natBits_length, List.length_nil]; omega)
  refine ⟨tokens, tokenBits, w₄, ?_, ht, hparse, hb, ?_⟩
  · rw [encodeFixed, h₁]
    simp only [bind, Except.bind, h₂, h₃, h₄]
  · cases final <;> exact hw₄

end ErbslandCore.Compression.Deflate
