import ErbslandCore.Compression.LzmaRangeEncoder

namespace ErbslandCore.Compression.Lzma
open Library RangeCoder
set_option autoImplicit true

/-- The values that a probability can have after it was initialized. -/
inductive ReachableProbability : Nat → Prop where
  | initial : ReachableProbability cInitialProbability
  | adapted (bit : Nat) : ReachableProbability p → ReachableProbability (adapted p bit)

theorem adapted_zero (h : p ≤ cProbabilityTotal) : adapted p 0 = p + (2048 - p) / 32 := by
  have h : p ≤ 2048 := h
  rw [adapted, if_pos rfl, Int.shiftRight_eq_div_pow]
  change (((p : Int) + (2048 - p) / 32) % 65536).toNat = _
  omega

theorem adapted_one (h : bit ≠ 0) (p : Nat) : adapted p bit = p - p / 32 := by
  rw [adapted, if_neg h, Nat.shiftRight_eq_div_pow]
  rfl

/-- No probability comes close to zero or to the total. -/
theorem ReachableProbability.bounds (h : ReachableProbability p) : 31 ≤ p ∧ p ≤ 2017 := by
  induction h with
  | initial => decide
  | @adapted p bit _ ih =>
    obtain ⟨hlow, hhigh⟩ := ih
    by_cases hb : bit = 0
    · subst hb
      rw [adapted_zero (show p ≤ 2048 by omega)]
      omega
    · rw [adapted_one hb]
      omega

namespace LzmaRangeEncoder

/-- The bytes that a carry can still change. -/
def delayed (e : LzmaRangeEncoder) : List UInt8 :=
  e.cache :: List.replicate (e.cacheSize - 1) cPendingByteValue

/-- The number that the encoder has built so far. -/
def number (e : LzmaRangeEncoder) : Nat := bigEndian (e.output ++ e.delayed) * 2 ^ 32 + e.low

/-- The number of bytes that were shifted out of the low accumulator. -/
def shifted (e : LzmaRangeEncoder) : Nat := e.output.length + e.cacheSize

def interval (e : LzmaRangeEncoder) : Interval := ⟨e.number, e.range⟩

/-- The delayed bytes can take the carry of every number that is `width` larger at most. -/
structure Fits (e : LzmaRangeEncoder) (width : Nat) : Prop where
  carry_le : bigEndian e.delayed * 2 ^ 32 + e.low + width ≤ 256 ^ e.cacheSize * 2 ^ 32
  low_le : e.low + width ≤ 2 ^ 33

/-- The invariant between two bits. -/
structure Normal (e : LzmaRangeEncoder) : Prop where
  fits : e.Fits e.range
  top_le : cTopValue ≤ e.range
  range_lt : e.range < 2 ^ 32

theorem start_normal : ({} : LzmaRangeEncoder).Normal := by
  refine ⟨⟨?_, ?_⟩, ?_, ?_⟩ <;> decide

theorem Fits.mono {e : LzmaRangeEncoder} (h : e.Fits width) (hle : width' ≤ width) :
    e.Fits width' := by
  constructor
  · exact (Nat.add_le_add_left hle _).trans h.carry_le
  · exact (Nat.add_le_add_left hle _).trans h.low_le

theorem delayed_length (e : LzmaRangeEncoder) : e.delayed.length = e.cacheSize := by
  rw [delayed, List.length_cons, List.length_replicate, Nat.sub_add_cancel e.cacheSize_pos]

theorem number_eq (e : LzmaRangeEncoder) :
    e.number = (bigEndian e.output * 256 ^ e.cacheSize + bigEndian e.delayed) * 2 ^ 32 + e.low := by
  rw [number, bigEndian_append, delayed_length]

theorem appendDelayed_zero (value : UInt8) (count : Nat) (output : List UInt8) :
    appendDelayed 0 value (count + 1) output =
      output ++ value :: List.replicate count cPendingByteValue := by
  induction count generalizing value output with
  | zero =>
    rw [appendDelayed, appendDelayed, Nat.add_zero, UInt8.ofNat_toNat]
    rfl
  | succ count ih =>
    rw [appendDelayed, ih, Nat.add_zero, UInt8.ofNat_toNat, List.append_assoc]
    rfl

/-- A carry makes zeros of the pending bytes. -/
theorem appendDelayed_one (value : UInt8) (count : Nat) (output : List UInt8) :
    appendDelayed 1 value (count + 1) output =
      output ++ UInt8.ofNat (value.toNat + 1) :: List.replicate count 0 := by
  induction count generalizing value output with
  | zero => rfl
  | succ count ih =>
    rw [appendDelayed, ih, List.append_assoc]
    rfl

/-- In a fitting state, a carry does not leave the cached byte. -/
theorem Fits.cache_lt {e : LzmaRangeEncoder} (h : e.Fits width) (hw : 0 < width)
    (hcarry : 2 ^ 32 ≤ e.low) : e.cache.toNat < 255 := by
  have hle := h.carry_le
  have hlt : (bigEndian e.delayed + 1) * 2 ^ 32 < 256 ^ e.cacheSize * 2 ^ 32 := by
    rw [Nat.add_mul, Nat.one_mul]
    omega
  have hlt := Nat.lt_of_mul_lt_mul_right hlt
  obtain ⟨count, hcount⟩ := Nat.exists_eq_succ_of_ne_zero (Nat.ne_of_gt e.cacheSize_pos)
  by_contra hge
  have hcache : e.cache = 255 := by
    have hb := e.cache.toNat_lt
    apply UInt8.toNat_inj.mp
    change e.cache.toNat = 255
    omega
  have hones : bigEndian e.delayed + 1 = 256 ^ e.cacheSize := by
    rw [delayed, hcache, hcount]
    exact bigEndian_ones (count + 1)
  omega

theorem shiftLow_low (e : LzmaRangeEncoder) : e.shiftLow.low = e.low * 256 % 2 ^ 32 := by
  have hlow : (e.low % 2 ^ 32) <<< 8 % 2 ^ 32 = e.low * 256 % 2 ^ 32 := by
    rw [Nat.shiftLeft_eq]
    omega
  rw [shiftLow]
  split
  case isTrue => exact hlow
  case isFalse => exact hlow

theorem shiftLow_range (e : LzmaRangeEncoder) : e.shiftLow.range = e.range := by
  rw [shiftLow]
  split <;> rfl

/-- A carry is propagated through all the pending bytes. -/
theorem shiftLow_carry {e : LzmaRangeEncoder} (hcarry : 2 ^ 32 ≤ e.low) (hlow : e.low < 2 ^ 33) :
    e.shiftLow.output =
      e.output ++ UInt8.ofNat (e.cache.toNat + 1) :: List.replicate (e.cacheSize - 1) 0 := by
  have hone : e.low >>> 32 = 1 := by
    rw [Nat.shiftRight_eq_div_pow]
    omega
  have hsize : e.cacheSize = e.cacheSize - 1 + 1 := (Nat.sub_add_cancel e.cacheSize_pos).symm
  rw [shiftLow, hone, if_pos (.inr (by decide))]
  change appendDelayed 1 e.cache e.cacheSize e.output = _
  rw [hsize, appendDelayed_one]
  rfl

theorem delayed_stall (e : LzmaRangeEncoder) :
    e.cache :: List.replicate e.cacheSize cPendingByteValue = e.delayed ++ [cPendingByteValue] := by
  have hsize : e.cacheSize = e.cacheSize - 1 + 1 := (Nat.sub_add_cancel e.cacheSize_pos).symm
  rw [delayed, List.cons_append, ← List.replicate_succ', ← hsize]

/-- A low accumulator without a stable high byte or a carry. -/
theorem unstable_low {low : Nat} (h : low < 2 ^ 33) (hhigh : ¬low % 2 ^ 32 < cStableLowLimit)
    (hcarry : ¬(low >>> 32) % 2 ^ 32 ≠ 0) :
    low / 2 ^ 24 = 255 ∧ low * 256 = 255 * 2 ^ 32 + low * 256 % 2 ^ 32 := by
  have hhigh : 0xff000000 ≤ low % 2 ^ 32 := Nat.le_of_not_lt hhigh
  have hcarry := Decidable.not_not.mp hcarry
  rw [Nat.shiftRight_eq_div_pow] at hcarry
  omega

/-- What a shift does to the bytes: the high byte of the low accumulator comes behind them. -/
theorem shiftLow_spec {e : LzmaRangeEncoder} (h : e.Fits width) (hw : 0 < width)
    (hw' : width ≤ 2 ^ 24) :
    bigEndian (e.shiftLow.output ++ e.shiftLow.delayed) =
        bigEndian (e.output ++ e.delayed) * 256 + e.low / 2 ^ 24 ∧
      e.shiftLow.shifted = e.shifted + 1 ∧ e.shiftLow.Fits (width * 256) := by
  obtain ⟨hcarry, hlow⟩ := h
  have hstored := e.shiftLow_low
  have hlow' : e.shiftLow.low + width * 256 ≤ 2 ^ 33 := by
    rw [hstored]
    omega
  by_cases hflush : e.low % 2 ^ 32 < cStableLowLimit ∨ (e.low >>> 32) % 2 ^ 32 ≠ 0
  · -- The delayed bytes are written, and the high byte is the only one that is delayed.
    have hsize : e.cacheSize = e.cacheSize - 1 + 1 := (Nat.sub_add_cancel e.cacheSize_pos).symm
    have hdelayed : e.shiftLow.delayed = [UInt8.ofNat ((e.low % 2 ^ 32) >>> 24)] := by
      rw [shiftLow, if_pos hflush]
      rfl
    have hcount : e.shiftLow.cacheSize = 1 := by rw [shiftLow, if_pos hflush]
    have hcache : (UInt8.ofNat ((e.low % 2 ^ 32) >>> 24)).toNat = e.low % 2 ^ 32 / 2 ^ 24 := by
      rw [UInt8.toNat_ofNat', Nat.shiftRight_eq_div_pow]
      omega
    obtain ⟨written, hwritten, hvalue, hlength⟩ : ∃ written, e.shiftLow.output =
        e.output ++ written ∧ bigEndian written = bigEndian e.delayed + e.low / 2 ^ 32 ∧
        written.length = e.cacheSize := by
      by_cases hc : 2 ^ 32 ≤ e.low
      · refine ⟨_, shiftLow_carry hc (by omega), ?_, ?_⟩
        · rw [bigEndian_carry (Fits.cache_lt ⟨hcarry, hlow⟩ hw hc), show e.low / 2 ^ 32 = 1 by omega]
          rfl
        · rw [List.length_cons, List.length_replicate, ← hsize]
      · have hzero : e.low >>> 32 = 0 := by
          rw [Nat.shiftRight_eq_div_pow]
          omega
        refine ⟨e.delayed, ?_, ?_, e.delayed_length⟩
        · rw [shiftLow, if_pos hflush, hzero]
          change appendDelayed 0 e.cache e.cacheSize e.output = _
          rw [hsize, appendDelayed_zero]
          rfl
        · rw [Nat.div_eq_of_lt (Nat.lt_of_not_le hc), Nat.add_zero]
    have hbound : e.low % 2 ^ 32 + width ≤ 2 ^ 32 := by
      rcases hflush with hstable | hc
      · change e.low % 2 ^ 32 < 0xff000000 at hstable
        omega
      · rw [Nat.shiftRight_eq_div_pow] at hc
        omega
    refine ⟨?_, ?_, ?_, hlow'⟩
    · rw [hdelayed, bigEndian_concat, hwritten, bigEndian_append, bigEndian_append, hvalue, hlength,
        delayed_length, hcache]
      generalize bigEndian e.output * 256 ^ e.cacheSize = digits
      omega
    · rw [shifted, shifted, hwritten, hcount, List.length_append, hlength, Nat.add_assoc]
    · have hone := bigEndian_concat [] (UInt8.ofNat ((e.low % 2 ^ 32) >>> 24))
      rw [List.nil_append, hcache] at hone
      rw [hdelayed, hone, hcount, hstored, bigEndian, pow_one]
      clear hcarry
      omega
  · -- The high byte may still change, so that it is counted only.
    obtain ⟨hunstable, hzero⟩ := not_or.mp hflush
    obtain ⟨htop, hbyte⟩ := unstable_low (by omega) hunstable hzero
    have houtput : e.shiftLow.output = e.output := by rw [shiftLow, if_neg hflush]
    have hcount : e.shiftLow.cacheSize = e.cacheSize + 1 := by rw [shiftLow, if_neg hflush]
    have hdelayed : e.shiftLow.delayed = e.delayed ++ [cPendingByteValue] := by
      rw [← delayed_stall, shiftLow, if_neg hflush]
      rfl
    refine ⟨?_, ?_, ?_, hlow'⟩
    · rw [hdelayed, houtput, ← List.append_assoc, bigEndian_concat, htop]
      rfl
    · rw [shifted, shifted, houtput, hcount, Nat.add_assoc]
    · rw [hdelayed, bigEndian_concat, hcount, hstored, pow_succ]
      change (bigEndian e.delayed * 256 + 255) * 2 ^ 32 + _ + _ ≤ _
      calc (bigEndian e.delayed * 256 + 255) * 2 ^ 32 + e.low * 256 % 2 ^ 32 + width * 256
          = bigEndian e.delayed * 2 ^ 32 * 256 + (255 * 2 ^ 32 + e.low * 256 % 2 ^ 32) +
            width * 256 := by ring
        _ = (bigEndian e.delayed * 2 ^ 32 + e.low + width) * 256 := by
          rw [← hbyte]
          ring
        _ ≤ 256 ^ e.cacheSize * 2 ^ 32 * 256 := Nat.mul_le_mul_right _ hcarry
        _ = 256 ^ e.cacheSize * 256 * 2 ^ 32 := by ring

theorem shiftLow_number {e : LzmaRangeEncoder} (h : e.Fits width) (hw : 0 < width)
    (hw' : width ≤ 2 ^ 24) : e.shiftLow.number = e.number * 256 := by
  rw [number, number, (shiftLow_spec h hw hw').1, shiftLow_low]
  omega

/-- The encoder that has selected a part of its range. -/
def part (e : LzmaRangeEncoder) (skipped range : Nat) : LzmaRangeEncoder :=
  { e with low := e.low + skipped, range := range }

theorem part_number (e : LzmaRangeEncoder) (skipped range : Nat) :
    (e.part skipped range).number = e.number + skipped := (Nat.add_assoc ..).symm

/-- A later state of an encoder: its interval lies in the earlier one. -/
def Narrows (e f : LzmaRangeEncoder) : Prop :=
  ∃ shifts, f.shifted = e.shifted + shifts ∧ Nested 256 e.interval f.interval shifts

theorem Narrows.refl (e : LzmaRangeEncoder) : e.Narrows e := ⟨0, rfl, .refl ..⟩

theorem Narrows.trans {a b c : LzmaRangeEncoder} (h : a.Narrows b) (h' : b.Narrows c) :
    a.Narrows c := by
  obtain ⟨m, hm, hn⟩ := h
  obtain ⟨n, hn', hnest⟩ := h'
  exact ⟨m + n, by rw [hn', hm, Nat.add_assoc], hn.trans hnest⟩

theorem part_narrows {e : LzmaRangeEncoder} {skipped range : Nat} (h : skipped + range ≤ e.range) :
    e.Narrows (e.part skipped range) := by
  refine ⟨0, rfl, ?_⟩
  have hpart := Nested.part 256 (i := e.interval) h
  change Nested 256 e.interval ⟨e.number + skipped, range⟩ 0 at hpart
  rwa [← part_number e skipped range] at hpart

theorem part_fits {e : LzmaRangeEncoder} {skipped range : Nat} (h : e.Normal) (hr : skipped + range ≤ e.range) :
    (e.part skipped range).Fits (e.part skipped range).range := by
  obtain ⟨⟨hcarry, hlow⟩, _, _⟩ := h
  have hle : e.low + skipped + range ≤ e.low + e.range := by omega
  constructor
  · change bigEndian e.delayed * 2 ^ 32 + (e.low + skipped) + range ≤ _
    refine Nat.le_trans ?_ hcarry
    rw [Nat.add_assoc (bigEndian e.delayed * 2 ^ 32), Nat.add_assoc (bigEndian e.delayed * 2 ^ 32)]
    exact Nat.add_le_add_left hle _
  · exact hle.trans hlow

theorem normalize_of_le {e : LzmaRangeEncoder} (h : cTopValue ≤ e.range) : e.normalize = e :=
  if_neg (Nat.not_lt.mpr h)

theorem normalize_of_lt {e : LzmaRangeEncoder} (hf : e.Fits e.range) (hpos : 0 < e.range)
    (h : e.range < cTopValue) : e.normalize.number = e.number * 256 ∧
      e.normalize.range = e.range * 256 ∧ e.normalize.shifted = e.shifted + 1 ∧
      e.normalize.Fits e.normalize.range := by
  have hlt : e.range < 2 ^ 24 := h
  have hrange : (e.range <<< 8) % 2 ^ 32 = e.range * 256 := by
    rw [Nat.shiftLeft_eq]
    omega
  have hnorm : e.normalize = shiftLow { e with range := e.range * 256 } := by
    rw [normalize, if_pos h, hrange]
  have hf' : Fits { e with range := e.range * 256 } e.range :=
    ⟨hf.carry_le, hf.low_le⟩
  obtain ⟨_, hshifted, hfits⟩ := shiftLow_spec hf' hpos hlt.le
  have hnumber := shiftLow_number hf' hpos hlt.le
  have hsame := shiftLow_range { e with range := e.range * 256 }
  rw [← hnorm] at hshifted hfits hnumber hsame
  exact ⟨hnumber, hsame, hshifted, hsame ▸ hfits⟩

/-- After a bit, one normalization is enough. -/
theorem normalize_normal {e : LzmaRangeEncoder} (hf : e.Fits e.range) (hlow : 2 ^ 16 ≤ e.range)
    (hhigh : e.range < 2 ^ 32) : e.normalize.Normal ∧ e.Narrows e.normalize := by
  rcases Nat.lt_or_ge e.range cTopValue with h | h
  · obtain ⟨hnumber, hrange, hshifted, hfits⟩ := normalize_of_lt hf (by omega) h
    have hlt : e.range < 2 ^ 24 := h
    refine ⟨⟨hfits, ?_, ?_⟩, 1, hshifted, ?_⟩
    · rw [hrange]
      change 2 ^ 24 ≤ _
      omega
    · rw [hrange]
      omega
    · have hscale := Nested.scale 256 e.interval
      rwa [interval, ← hnumber, ← hrange] at hscale
  · rw [normalize_of_le h]
    exact ⟨⟨hf, h, hhigh⟩, .refl e⟩

/-- The part of the range that stands for a zero. -/
def bound (range probability : Nat) : Nat := (range >>> cProbabilityBits) * probability % 2 ^ 32

theorem bound_bounds {range : Nat} (htop : cTopValue ≤ range) (hlt : range < 2 ^ 32)
    (hp : ReachableProbability p) : 2 ^ 16 ≤ bound range p ∧ bound range p + 2 ^ 16 ≤ range := by
  have htop : 2 ^ 24 ≤ range := htop
  obtain ⟨hlow, hhigh⟩ := hp.bounds
  have hunit : range >>> cProbabilityBits = range / 2048 := Nat.shiftRight_eq_div_pow ..
  have hmin : range / 2048 * 31 ≤ range / 2048 * p := Nat.mul_le_mul_left _ hlow
  have hmax : range / 2048 * p ≤ range / 2048 * 2017 := Nat.mul_le_mul_left _ hhigh
  have hmod : bound range p = range / 2048 * p := by
    rw [bound, hunit]
    exact Nat.mod_eq_of_lt (by omega)
  rw [hmod]
  omega

/-- A bit selects one of the two parts of the range, and the encoder is normalized again. -/
theorem encodeBit_spec {e : LzmaRangeEncoder} (h : e.Normal) (hp : ReachableProbability p)
    (bit : Nat) : ∃ skipped range, skipped + range ≤ e.range ∧ 2 ^ 16 ≤ range ∧
      e.encodeBit p bit = ((e.part skipped range).normalize, adapted p bit) ∧
      (bit = 0 → skipped = 0 ∧ range = bound e.range p) ∧
      (bit ≠ 0 → skipped = bound e.range p ∧ range = e.range - bound e.range p) := by
  obtain ⟨hmin, hmax⟩ := bound_bounds h.top_le h.range_lt hp
  have hlow := h.fits.low_le
  have hlt := h.range_lt
  by_cases hb : bit = 0
  · refine ⟨0, bound e.range p, by omega, hmin, ?_, fun _ => ⟨rfl, rfl⟩, fun hne => absurd hb hne⟩
    rw [encodeBit, if_pos hb]
    rfl
  · refine ⟨bound e.range p, e.range - bound e.range p, by omega, by omega, ?_,
      fun he => absurd he hb, fun _ => ⟨rfl, rfl⟩⟩
    have hadd : (e.low + bound e.range p) % 2 ^ 64 = e.low + bound e.range p :=
      Nat.mod_eq_of_lt (by omega)
    have hsub : (e.range + 2 ^ 32 - bound e.range p) % 2 ^ 32 = e.range - bound e.range p := by omega
    rw [bound] at hadd hsub
    rw [encodeBit, if_neg hb]
    simp only [hadd, hsub]
    rfl

/-- A direct bit selects one of the two halves of the range. -/
theorem encodeDirectBit_spec {e : LzmaRangeEncoder} (h : e.Normal) (bit : Nat) :
    ∃ skipped, skipped + e.range / 2 ≤ e.range ∧
      e.encodeDirectBit bit = (e.part skipped (e.range / 2)).normalize ∧
      (bit = 0 → skipped = 0) ∧ (bit ≠ 0 → skipped = e.range / 2) := by
  have hlow := h.fits.low_le
  have hhalf : e.range >>> 1 = e.range / 2 := Nat.shiftRight_eq_div_pow ..
  by_cases hb : bit = 0
  · refine ⟨0, by omega, ?_, fun _ => rfl, fun hne => absurd hb hne⟩
    rw [encodeDirectBit, if_neg (fun hne => hne hb), hhalf]
    rfl
  · refine ⟨e.range / 2, by omega, ?_, fun he => absurd he hb, fun _ => rfl⟩
    have hadd : (e.low + e.range / 2) % 2 ^ 64 = e.low + e.range / 2 :=
      Nat.mod_eq_of_lt (by omega)
    rw [encodeDirectBit, if_pos hb]
    simp only [hhalf, hadd]
    rfl

/-- Selecting a part that is not too small keeps the invariant. -/
theorem part_normal {e : LzmaRangeEncoder} {skipped range : Nat} (h : e.Normal) (hr : skipped + range ≤ e.range)
    (hmin : 2 ^ 16 ≤ range) : (e.part skipped range).normalize.Normal ∧
      e.Narrows (e.part skipped range) ∧
      (e.part skipped range).Narrows (e.part skipped range).normalize := by
  have hlt : range < 2 ^ 32 := by
    have hlt := h.range_lt
    omega
  obtain ⟨hnormal, hnarrows⟩ := normalize_normal (part_fits h hr) hmin hlt
  exact ⟨hnormal, part_narrows hr, hnarrows⟩

/-- The final bytes are the number that the encoder has built. -/
theorem finalize_spec {e : LzmaRangeEncoder} (h : e.Normal) :
    bigEndian e.finalize.output = e.number ∧ e.finalize.output.length = e.shifted + 4 := by
  have hpos : 0 < e.range := Nat.lt_of_lt_of_le (by decide) h.top_le
  have step {e : LzmaRangeEncoder} (hf : e.Fits 1) : e.shiftLow.Fits 1 ∧
      e.shiftLow.number = e.number * 256 ∧ e.shiftLow.shifted = e.shifted + 1 :=
    have hspec := shiftLow_spec hf Nat.one_pos (by decide)
    ⟨hspec.2.2.mono (by decide), shiftLow_number hf Nat.one_pos (by decide), hspec.2.1⟩
  obtain ⟨hf₁, hn₁, hs₁⟩ := step (h.fits.mono hpos)
  obtain ⟨hf₂, hn₂, hs₂⟩ := step hf₁
  obtain ⟨hf₃, hn₃, hs₃⟩ := step hf₂
  obtain ⟨hf₄, hn₄, hs₄⟩ := step hf₃
  obtain ⟨hf₅, hn₅, hs₅⟩ := step hf₄
  have hfinal : e.finalize = e.shiftLow.shiftLow.shiftLow.shiftLow.shiftLow := rfl
  have hzero : e.shiftLow.shiftLow.shiftLow.shiftLow.low = 0 := by
    rw [shiftLow_low, shiftLow_low, shiftLow_low, shiftLow_low]
    omega
  generalize e.shiftLow.shiftLow.shiftLow.shiftLow = last at *
  have hlast : last.shiftLow.low = 0 ∧ last.shiftLow.cacheSize = 1 ∧ last.shiftLow.cache = 0 := by
    rw [shiftLow, hzero]
    exact ⟨rfl, rfl, rfl⟩
  obtain ⟨hlow, hsize, hcache⟩ := hlast
  rw [← hfinal] at hn₅ hs₅ hlow hsize hcache
  constructor
  · rw [number_eq, delayed, hsize, hcache, hlow] at hn₅
    change (_ * 256 + 0) * 2 ^ 32 + 0 = _ at hn₅
    omega
  · rw [shifted, hsize] at hs₅
    omega

end LzmaRangeEncoder
end ErbslandCore.Compression.Lzma
