import ErbslandCore.Library.ByteOrder

namespace ErbslandCore.Library.RangeCoder
set_option autoImplicit true

/-- The numbers from `low` on, `range` of them. -/
structure Interval where
  low : Nat
  range : Nat
  deriving DecidableEq

/-- An interval that lies in another one after `shifts` more digits. -/
structure Nested (base : Nat) (outer inner : Interval) (shifts : Nat) : Prop where
  low_le : outer.low * base ^ shifts ≤ inner.low
  high_le : inner.low + inner.range ≤ (outer.low + outer.range) * base ^ shifts

theorem Nested.refl (base : Nat) (i : Interval) : Nested base i i 0 := by
  constructor
  · rw [pow_zero, Nat.mul_one]
  · rw [pow_zero, Nat.mul_one]

/-- A part of an interval. -/
theorem Nested.part (base : Nat) {i : Interval} (h : skipped + range ≤ i.range) :
    Nested base i ⟨i.low + skipped, range⟩ 0 := by
  constructor
  · rw [pow_zero, Nat.mul_one]
    exact Nat.le_add_right _ _
  · rw [pow_zero, Nat.mul_one, Nat.add_assoc]
    exact Nat.add_le_add_left h _

/-- The same interval with one more digit. -/
theorem Nested.scale (base : Nat) (i : Interval) :
    Nested base i ⟨i.low * base, i.range * base⟩ 1 := by
  constructor
  · rw [pow_one]
  · rw [pow_one, Nat.add_mul]

theorem Nested.trans (h : Nested base a b m) (h' : Nested base b c n) :
    Nested base a c (m + n) := by
  constructor
  · calc a.low * base ^ (m + n) = a.low * base ^ m * base ^ n := by rw [pow_add, Nat.mul_assoc]
      _ ≤ b.low * base ^ n := Nat.mul_le_mul_right _ h.low_le
      _ ≤ c.low := h'.low_le
  · calc c.low + c.range ≤ (b.low + b.range) * base ^ n := h'.high_le
      _ ≤ (a.low + a.range) * base ^ m * base ^ n := Nat.mul_le_mul_right _ h.high_le
      _ = (a.low + a.range) * base ^ (m + n) := by rw [pow_add, Nat.mul_assoc]

/-- The first digits of a number of the inner interval are in the outer one. -/
theorem Nested.digits {outer inner : Interval} (h : Nested base outer inner shifts)
    (hpos : 0 < inner.range)
    (hdigits : inner.low = leading * base ^ shifts + rest) (hrest : rest < base ^ shifts) :
    outer.low ≤ leading ∧ leading < outer.low + outer.range := by
  constructor
  · have hlt : outer.low * base ^ shifts < (leading + 1) * base ^ shifts := by
      have hle := h.low_le
      rw [Nat.add_mul, Nat.one_mul]
      omega
    exact Nat.le_of_lt_succ (Nat.lt_of_mul_lt_mul_right hlt)
  · have hlt : leading * base ^ shifts < (outer.low + outer.range) * base ^ shifts := by
      have hle := h.high_le
      omega
    exact Nat.lt_of_mul_lt_mul_right hlt

theorem bigEndian_zeros (count : Nat) : bigEndian (List.replicate count 0) = 0 := by
  induction count with
  | zero => rfl
  | succ count ih =>
    rw [List.replicate_succ, bigEndian, ih]
    exact Nat.zero_mul _

theorem bigEndian_ones (count : Nat) : bigEndian (List.replicate count 255) + 1 = 256 ^ count := by
  induction count with
  | zero => rfl
  | succ count ih =>
    rw [List.replicate_succ, bigEndian, List.length_replicate, Nat.add_assoc, ih, pow_succ]
    change 255 * 256 ^ count + 256 ^ count = 256 ^ count * 256
    ring

/-- Adding one to a digit that is followed by the largest ones. -/
theorem bigEndian_carry (hc : cache.toNat < 255) (count : Nat) :
    bigEndian (UInt8.ofNat (cache.toNat + 1) :: List.replicate count 0) =
      bigEndian (cache :: List.replicate count 255) + 1 := by
  have hsucc : (UInt8.ofNat (cache.toNat + 1)).toNat = cache.toNat + 1 := by
    rw [UInt8.toNat_ofNat']
    omega
  rw [bigEndian, bigEndian, bigEndian_zeros, hsucc, List.length_replicate, List.length_replicate,
    Nat.add_assoc, bigEndian_ones, Nat.add_zero, Nat.add_mul, Nat.one_mul]

theorem bigEndian_concat (bytes : List UInt8) (b : UInt8) :
    bigEndian (bytes ++ [b]) = bigEndian bytes * 256 + b.toNat := by
  rw [bigEndian_append, bigEndian, bigEndian, List.length_nil, List.length_singleton, pow_zero,
    pow_one, Nat.mul_one, Nat.add_zero]

end ErbslandCore.Library.RangeCoder
