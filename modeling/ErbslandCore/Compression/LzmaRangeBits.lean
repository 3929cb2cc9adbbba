import ErbslandCore.Compression.LzmaRangeDecoder
import ErbslandCore.Compression.LzmaRangeIntervals

namespace ErbslandCore.Compression.Lzma
open Library RangeCoder LzmaRangeEncoder
set_option autoImplicit true

/-- The final bytes of an encoder that ends in the state `f`. -/
structure Final (f : LzmaRangeEncoder) (final : List UInt8) : Prop where
  number_eq : bigEndian final = f.number
  length_eq : final.length = f.shifted + 4
  range_pos : 0 < f.range

theorem final_of_normal {f : LzmaRangeEncoder} (h : f.Normal) : Final f f.finalize.output := by
  obtain ⟨hnumber, hlength⟩ := finalize_spec h
  exact ⟨hnumber, hlength, Nat.lt_of_lt_of_le (by decide) h.top_le⟩

/-- The leading bytes of the final ones lie in the interval of every earlier state. -/
theorem Final.digits {e f : LzmaRangeEncoder} (hf : Final f final) (hn : e.Narrows f)
    (hsplit : final = consumed ++ left) (hlen : consumed.length = e.shifted + 4) :
    e.number ≤ bigEndian consumed ∧ bigEndian consumed < e.number + e.range ∧
      e.shifted + left.length = f.shifted := by
  obtain ⟨shifts, hshifts, hnested⟩ := hn
  have hlength := hf.length_eq
  rw [hsplit, List.length_append] at hlength
  have hleft : left.length = shifts := by omega
  have hdigits : f.interval.low = bigEndian consumed * 256 ^ shifts + bigEndian left := by
    rw [interval, ← hf.number_eq, hsplit, bigEndian_append, hleft]
  have hrest : bigEndian left < 256 ^ shifts := hleft ▸ bigEndian_lt left
  obtain ⟨hlow, hhigh⟩ := hnested.digits hf.range_pos hdigits hrest
  exact ⟨hlow, hhigh, by omega⟩

/-- The decoder has read the leading bytes: its code is their distance from the encoder's number. -/
structure Follows (final rest : List UInt8) (e : LzmaRangeEncoder) (d : LzmaRangeDecoder) :
    Prop where
  range_eq : d.range = e.range
  digits : ∃ consumed left, final = consumed ++ left ∧ d.source.unread = left ++ rest ∧
    consumed.length = e.shifted + 4 ∧ bigEndian consumed = e.number + d.code

theorem Follows.code_lt {e f : LzmaRangeEncoder} (h : Follows final rest e d) (hf : Final f final)
    (hn : e.Narrows f) : d.code < e.range := by
  obtain ⟨consumed, left, hsplit, _, hlen, hvalue⟩ := h.digits
  have hbounds := hf.digits hn hsplit hlen
  omega

/-- The code tells which part of the range was selected. -/
theorem Follows.part {e f : LzmaRangeEncoder} {skipped range : Nat} (h : Follows final rest e d)
    (hf : Final f final) (hn : (e.part skipped range).Narrows f) :
    skipped ≤ d.code ∧ d.code < skipped + range ∧
      Follows final rest (e.part skipped range)
        { d with range := range, code := d.code - skipped } := by
  obtain ⟨consumed, left, hsplit, hunread, hlen, hvalue⟩ := h.digits
  obtain ⟨hlow, hhigh, _⟩ := hf.digits hn hsplit hlen
  rw [part_number] at hlow hhigh
  change _ < e.number + skipped + range at hhigh
  refine ⟨by omega, by omega, rfl, consumed, left, hsplit, hunread, hlen, ?_⟩
  rw [part_number]
  change _ = e.number + skipped + (d.code - skipped)
  omega

theorem shiftCode_spec {d : LzmaRangeDecoder} (h : d.source.unread = b :: rest)
    (hcode : d.code < 2 ^ 24) : ∃ d', d.shiftCode = .ok d' ∧ d'.range = d.range ∧
      d'.code = d.code * 256 + b.toNat ∧ d'.source.unread = rest := by
  obtain ⟨source, hbyte, hunread⟩ := CodecReader.byte_of_cons h
  have hread : d.readByte = .ok (b.toNat, { d with source := source }) := by
    rw [LzmaRangeDecoder.readByte, hbyte]
  refine ⟨{ d with source := source, code := (d.code <<< 8) % 2 ^ 32 ||| b.toNat }, ?_, rfl, ?_,
    hunread⟩
  · rw [LzmaRangeDecoder.shiftCode, hread]
    rfl
  · have hsmall : (d.code <<< 8) % 2 ^ 32 = d.code <<< 8 := by
      rw [Nat.shiftLeft_eq]
      omega
    change (d.code <<< 8) % 2 ^ 32 ||| b.toNat = _
    rw [hsmall, ← Nat.shiftLeft_add_eq_or_of_lt b.toNat_lt, Nat.shiftLeft_eq]

theorem Follows.normalize {e f : LzmaRangeEncoder} (h : Follows final rest e d)
    (hfits : e.Fits e.range) (hpos : 0 < e.range) (hf : Final f final) (he : e.Narrows e.normalize)
    (hn : e.normalize.Narrows f) :
    ∃ d', d.normalize = .ok d' ∧ Follows final rest e.normalize d' := by
  have hcode := h.code_lt hf (he.trans hn)
  rcases Nat.lt_or_ge e.range cTopValue with hlt | hge
  · obtain ⟨hnumber, hrange, hshifted, _⟩ := normalize_of_lt hfits hpos hlt
    obtain ⟨consumed, left, hsplit, hunread, hlen, hvalue⟩ := h.digits
    obtain ⟨_, _, hleft⟩ := hf.digits (he.trans hn) hsplit hlen
    obtain ⟨shifts, hshifts, _⟩ := hn
    have hlt' : e.range < 2 ^ 24 := hlt
    -- A state is still to come after the shift, so that one byte at least is left.
    cases left with
    | nil =>
      rw [List.length_nil] at hleft
      omega
    | cons b left =>
      have hscale : (d.range <<< 8) % 2 ^ 32 = e.range * 256 := by
        rw [h.range_eq, Nat.shiftLeft_eq]
        omega
      obtain ⟨d', hok, hrange', hcode', hunread'⟩ :=
        shiftCode_spec (d := { d with range := e.range * 256 }) hunread (hcode.trans hlt')
      refine ⟨d', ?_, ?_, consumed ++ [b], left, ?_, hunread', ?_, ?_⟩
      · rw [LzmaRangeDecoder.normalize, h.range_eq, if_pos hlt, ← h.range_eq, hscale]
        exact hok
      · rw [hrange', hrange]
      · rw [hsplit, List.append_assoc]
        rfl
      · rw [List.length_append, List.length_singleton, hlen, hshifted]
      · rw [bigEndian_concat, hvalue, hnumber, hcode', Nat.add_mul, Nat.add_assoc]
  · refine ⟨d, ?_, ?_⟩
    · rw [LzmaRangeDecoder.normalize, h.range_eq, if_neg (Nat.not_lt.mpr hge)]
    · rw [normalize_of_le hge]
      exact h

theorem decodeBit_of_lt {d d' : LzmaRangeDecoder} (h : d.code < bound d.range p)
    (hd : LzmaRangeDecoder.normalize { d with range := bound d.range p } = .ok d') :
    d.decodeBit p = .ok (0, d', adapted p 0) := by
  rw [LzmaRangeDecoder.decodeBit]
  change (if d.code < bound d.range p then _ else _) = _
  rw [if_pos h]
  change (LzmaRangeDecoder.normalize { d with range := bound d.range p }).bind _ = _
  rw [hd]
  rfl

theorem decodeBit_of_le {d d' : LzmaRangeDecoder} (h : bound d.range p ≤ d.code)
    (hle : bound d.range p ≤ d.range) (hlt : d.range < 2 ^ 32)
    (hd : LzmaRangeDecoder.normalize
      { d with range := d.range - bound d.range p, code := d.code - bound d.range p } = .ok d') :
    d.decodeBit p = .ok (1, d', adapted p 1) := by
  have hsub : (d.range + 2 ^ 32 - bound d.range p) % 2 ^ 32 = d.range - bound d.range p := by omega
  rw [LzmaRangeDecoder.decodeBit]
  change (if d.code < bound d.range p then _ else _) = _
  rw [if_neg (Nat.not_lt.mpr h)]
  change (LzmaRangeDecoder.normalize { d with
    range := (d.range + 2 ^ 32 - bound d.range p) % 2 ^ 32
    code := d.code - bound d.range p }).bind _ = _
  rw [hsub, hd]
  rfl

theorem decodeDirectBit_of_le {d d' : LzmaRangeDecoder} (h : d.range / 2 ≤ d.code)
    (hd : LzmaRangeDecoder.normalize
      { d with range := d.range / 2, code := d.code - d.range / 2 } = .ok d') :
    d.decodeDirectBit = .ok (1, d') := by
  have hhalf : d.range >>> 1 = d.range / 2 := Nat.shiftRight_eq_div_pow ..
  rw [LzmaRangeDecoder.decodeDirectBit, hhalf, if_pos h]
  change (LzmaRangeDecoder.normalize _).bind _ = _
  rw [hd]
  rfl

theorem decodeDirectBit_of_lt {d d' : LzmaRangeDecoder} (h : d.code < d.range / 2)
    (hd : LzmaRangeDecoder.normalize { d with range := d.range / 2 } = .ok d') :
    d.decodeDirectBit = .ok (0, d') := by
  have hhalf : d.range >>> 1 = d.range / 2 := Nat.shiftRight_eq_div_pow ..
  rw [LzmaRangeDecoder.decodeDirectBit, hhalf, if_neg (Nat.not_le.mpr h)]
  change (LzmaRangeDecoder.normalize _).bind _ = _
  rw [hd]
  rfl

theorem adapted_ne_zero (h : bit ≠ 0) (p : Nat) : adapted p bit = adapted p 1 := by
  rw [adapted_one h, adapted_one Nat.one_ne_zero]

/-- One adaptive bit: the decoder takes the part that the encoder has selected. -/
theorem decodeBit_spec {e f : LzmaRangeEncoder} (h : Follows final rest e d) (he : e.Normal)
    (hp : ReachableProbability p) (hf : Final f final) (hn : (e.encodeBit p bit).1.Narrows f) :
    ∃ d', d.decodeBit p = .ok (if bit = 0 then 0 else 1, d', (e.encodeBit p bit).2) ∧
      Follows final rest (e.encodeBit p bit).1 d' := by
  obtain ⟨skipped, range, hle, hmin, hok, hzero, hone⟩ := encodeBit_spec he hp bit
  obtain ⟨_, hb⟩ := bound_bounds he.top_le he.range_lt hp
  obtain ⟨_, _, hnorm⟩ := part_normal he hle hmin
  rw [hok] at hn ⊢
  obtain ⟨hlow, hhigh, hfollows⟩ := h.part hf (hnorm.trans hn)
  have hpos : 0 < range := Nat.lt_of_lt_of_le (by decide) hmin
  obtain ⟨d', hd, hfollows'⟩ := hfollows.normalize (part_fits he hle) hpos hf hnorm hn
  have hlt := he.range_lt
  rw [← h.range_eq] at hb hlt hzero hone
  refine ⟨d', ?_, hfollows'⟩
  by_cases hbit : bit = 0
  · obtain ⟨rfl, rfl⟩ := hzero hbit
    rw [Nat.zero_add] at hhigh
    rw [if_pos hbit, hbit]
    exact decodeBit_of_lt hhigh hd
  · obtain ⟨rfl, rfl⟩ := hone hbit
    rw [if_neg hbit, adapted_ne_zero hbit]
    exact decodeBit_of_le hlow (by omega) hlt hd

theorem encodeBit_normal {e : LzmaRangeEncoder} (he : e.Normal) (hp : ReachableProbability p)
    (bit : Nat) : (e.encodeBit p bit).1.Normal ∧ e.Narrows (e.encodeBit p bit).1 ∧
      ReachableProbability (e.encodeBit p bit).2 := by
  obtain ⟨skipped, range, hle, hmin, hok, _⟩ := encodeBit_spec he hp bit
  obtain ⟨hnormal, hpart, hnorm⟩ := part_normal he hle hmin
  rw [hok]
  exact ⟨hnormal, hpart.trans hnorm, hp.adapted bit⟩

theorem half_bounds {e : LzmaRangeEncoder} (he : e.Normal) : 2 ^ 16 ≤ e.range / 2 := by
  have htop : 2 ^ 24 ≤ e.range := he.top_le
  omega

theorem encodeDirectBit_normal {e : LzmaRangeEncoder} (he : e.Normal) (bit : Nat) :
    (e.encodeDirectBit bit).Normal ∧ e.Narrows (e.encodeDirectBit bit) := by
  obtain ⟨skipped, hle, hok, _⟩ := encodeDirectBit_spec he bit
  obtain ⟨hnormal, hpart, hnorm⟩ := part_normal he hle (half_bounds he)
  rw [hok]
  exact ⟨hnormal, hpart.trans hnorm⟩

/-- One direct bit. -/
theorem decodeDirectBit_spec {e f : LzmaRangeEncoder} (h : Follows final rest e d) (he : e.Normal)
    (hf : Final f final) (hn : (e.encodeDirectBit bit).Narrows f) :
    ∃ d', d.decodeDirectBit = .ok (if bit = 0 then 0 else 1, d') ∧
      Follows final rest (e.encodeDirectBit bit) d' := by
  obtain ⟨skipped, hle, hok, hzero, hone⟩ := encodeDirectBit_spec he bit
  have hmin := half_bounds he
  obtain ⟨_, _, hnorm⟩ := part_normal he hle hmin
  rw [hok] at hn ⊢
  obtain ⟨hlow, hhigh, hfollows⟩ := h.part hf (hnorm.trans hn)
  have hpos : 0 < e.range / 2 := Nat.lt_of_lt_of_le (by decide) hmin
  obtain ⟨d', hd, hfollows'⟩ := hfollows.normalize (part_fits he hle) hpos hf hnorm hn
  rw [← h.range_eq] at hhigh hd hone
  refine ⟨d', ?_, hfollows'⟩
  by_cases hbit : bit = 0
  · rw [hzero hbit, Nat.zero_add] at hhigh
    rw [hzero hbit] at hd
    rw [if_pos hbit]
    exact decodeDirectBit_of_lt hhigh hd
  · rw [hone hbit] at hlow hd
    rw [if_neg hbit]
    exact decodeDirectBit_of_le hlow hd

end ErbslandCore.Compression.Lzma
