import ErbslandCore.Library.BitString

namespace ErbslandCore.Mem
open Library
set_option autoImplicit true

inductive BitOrder where
  | mostSignificantFirst
  | leastSignificantFirst
  deriving DecidableEq

/-- The low bits of a number in the order in which they are transmitted. -/
def fieldBits (order : BitOrder) (n v : Nat) : List Bool :=
  match order with
  | .leastSignificantFirst => natBits n v
  | .mostSignificantFirst => (natBits n v).reverse

/-- The number that transmitted bits stand for. -/
def fieldValue (order : BitOrder) (bits : List Bool) : Nat :=
  match order with
  | .leastSignificantFirst => bitsValue bits
  | .mostSignificantFirst => bitsValue bits.reverse

/-- The bits of a byte sequence in the order in which they are transmitted. -/
def orderedBits (order : BitOrder) (bytes : List UInt8) : List Bool :=
  bytes.flatMap fun b => fieldBits order 8 b.toNat

/-- The place in a field of its transmitted bit. -/
def bitIndex (order : BitOrder) (n i : Nat) : Nat :=
  match order with
  | .leastSignificantFirst => i
  | .mostSignificantFirst => n - 1 - i

variable (order : BitOrder)

theorem orderedBits_least (bytes : List UInt8) :
    orderedBits .leastSignificantFirst bytes = bitsOf bytes := rfl

@[simp] theorem fieldBits_length (n v : Nat) : (fieldBits order n v).length = n := by
  cases order with
  | leastSignificantFirst => exact natBits_length n v
  | mostSignificantFirst => rw [fieldBits, List.length_reverse, natBits_length]

theorem fieldBits_getElem? (n v i : Nat) : (fieldBits order n v)[i]? =
    if i < n then some (v.testBit (bitIndex order n i)) else none := by
  cases order with
  | leastSignificantFirst => exact natBits_getElem? n v i
  | mostSignificantFirst =>
    rw [fieldBits, bitIndex]
    split
    case isTrue h =>
      rw [List.getElem?_reverse (by rwa [natBits_length]), natBits_length, natBits_getElem?,
        if_pos (by omega)]
    case isFalse h =>
      exact List.getElem?_eq_none (by rw [List.length_reverse, natBits_length]; omega)

theorem fieldBits_zero (v : Nat) : fieldBits order 0 v = [] :=
  List.length_eq_zero_iff.mp (fieldBits_length order 0 v)

theorem fieldBits_mod (n v : Nat) : fieldBits order n (v % 2 ^ n) = fieldBits order n v := by
  cases order with
  | leastSignificantFirst => exact natBits_mod n v
  | mostSignificantFirst => rw [fieldBits, fieldBits, natBits_mod]

theorem fieldValue_fieldBits (n v : Nat) : fieldValue order (fieldBits order n v) = v % 2 ^ n := by
  cases order with
  | leastSignificantFirst => exact bitsValue_natBits n v
  | mostSignificantFirst => rw [fieldBits, fieldValue, List.reverse_reverse, bitsValue_natBits]

theorem fieldValue_lt (bits : List Bool) : fieldValue order bits < 2 ^ bits.length := by
  cases order with
  | leastSignificantFirst => exact bitsValue_lt bits
  | mostSignificantFirst =>
    have h := bitsValue_lt bits.reverse
    rwa [List.length_reverse] at h

theorem fieldBits_fieldValue (bits : List Bool) :
    fieldBits order bits.length (fieldValue order bits) = bits := by
  cases order with
  | leastSignificantFirst => exact natBits_bitsValue bits
  | mostSignificantFirst =>
    rw [fieldBits, fieldValue, ← bits.length_reverse, natBits_bitsValue, List.reverse_reverse]

theorem fieldBits_inj (h : fieldBits order n v = fieldBits order n w) (hv : v < 2 ^ n)
    (hw : w < 2 ^ n) : v = w := by
  have he := congrArg (fieldValue order) h
  rwa [fieldValue_fieldBits, fieldValue_fieldBits, Nat.mod_eq_of_lt hv, Nat.mod_eq_of_lt hw] at he

@[simp] theorem orderedBits_nil : orderedBits order [] = [] := rfl

theorem orderedBits_cons (b : UInt8) (bytes : List UInt8) :
    orderedBits order (b :: bytes) = fieldBits order 8 b.toNat ++ orderedBits order bytes := rfl

theorem orderedBits_append (a b : List UInt8) :
    orderedBits order (a ++ b) = orderedBits order a ++ orderedBits order b :=
  List.flatMap_append

@[simp] theorem orderedBits_length (bytes : List UInt8) :
    (orderedBits order bytes).length = 8 * bytes.length := by
  induction bytes with
  | nil => rfl
  | cons b bytes ih =>
    rw [orderedBits_cons, List.length_append, fieldBits_length, ih, List.length_cons]
    omega

theorem orderedBits_take (bytes : List UInt8) (n : Nat) :
    orderedBits order (bytes.take n) = (orderedBits order bytes).take (8 * n) := by
  by_cases hn : n ≤ bytes.length
  · conv_rhs => rw [← List.take_append_drop n bytes, orderedBits_append]
    rw [List.take_left' (by simp [hn])]
  · rw [List.take_of_length_le (by omega), List.take_of_length_le (by simp; omega)]

theorem orderedBits_drop (bytes : List UInt8) (n : Nat) :
    orderedBits order (bytes.drop n) = (orderedBits order bytes).drop (8 * n) := by
  by_cases hn : n ≤ bytes.length
  · conv_rhs => rw [← List.take_append_drop n bytes, orderedBits_append]
    rw [List.drop_left' (by simp [hn])]
  · rw [List.drop_eq_nil_of_le (by omega), List.drop_eq_nil_of_le (by simp; omega), orderedBits_nil]

/-- The bit at a position is a bit of the byte it falls into. -/
theorem orderedBits_getElem? (bytes : List UInt8) (i : Nat) : (orderedBits order bytes)[i]? =
    bytes[i / 8]?.map (fun b => b.toNat.testBit (bitIndex order 8 (i % 8))) := by
  induction bytes generalizing i with
  | nil => simp
  | cons b bytes ih =>
    rw [orderedBits_cons]
    by_cases h : i < 8
    · rw [List.getElem?_append_left (by simpa), fieldBits_getElem?, if_pos h, Nat.div_eq_of_lt h,
        Nat.mod_eq_of_lt h]
      rfl
    · obtain ⟨j, rfl⟩ := Nat.exists_eq_add_of_le (Nat.le_of_not_gt h)
      rw [List.getElem?_append_right (by simp), fieldBits_length, Nat.add_sub_cancel_left, ih,
        Nat.add_mod_left, Nat.add_div_left _ (by omega), List.getElem?_cons_succ]

theorem orderedBits_injective {a b : List UInt8} (h : orderedBits order a = orderedBits order b) :
    a = b := by
  induction a generalizing b with
  | nil =>
    have hl := congrArg List.length h
    rw [orderedBits_length, orderedBits_length] at hl
    exact (List.length_eq_zero_iff.mp (by simpa using hl.symm)).symm
  | cons x a ih =>
    cases b with
    | nil =>
      have hl := congrArg List.length h
      simp at hl
    | cons y b =>
      rw [orderedBits_cons, orderedBits_cons] at h
      obtain ⟨h₁, h₂⟩ := List.append_inj h (by simp)
      rw [UInt8.toNat_inj.mp (fieldBits_inj order h₁ x.toNat_lt y.toNat_lt), ih h₂]

/-- The shift that brings bits of a byte to its low end. -/
def byteShift (order : BitOrder) (bitOffset count : Nat) : Nat :=
  match order with
  | .leastSignificantFirst => bitOffset
  | .mostSignificantFirst => 8 - bitOffset - count

/-- Bits within one byte are the low bits of the shifted byte. -/
theorem orderedBits_field (data : List UInt8) (hp : position / 8 < data.length)
    (hc : position % 8 + count ≤ 8) :
    ((orderedBits order data).drop position).take count = fieldBits order count
      (data[position / 8]!.toNat >>> byteShift order (position % 8) count) := by
  apply List.ext_getElem?
  intro i
  rw [fieldBits_getElem?]
  split
  case isTrue hi =>
    have hb : (position + i) / 8 = position / 8 := by omega
    rw [List.getElem?_take_of_lt hi, List.getElem?_drop, orderedBits_getElem?, hb,
      List.getElem?_eq_getElem hp, getElem!_pos data _ hp, Option.map_some,
      Nat.testBit_shiftRight]
    congr 2
    cases order <;> simp only [bitIndex, byteShift] <;> omega
  case isFalse hi =>
    apply List.getElem?_eq_none
    rw [List.length_take]
    omega

/-- Bits in front of others stand for the higher part where the most significant bit is first. -/
theorem fieldValue_append_most (a b : List Bool) :
    fieldValue .mostSignificantFirst (a ++ b) =
      fieldValue .mostSignificantFirst a * 2 ^ b.length + fieldValue .mostSignificantFirst b := by
  rw [fieldValue, fieldValue, fieldValue, List.reverse_append, bitsValue_append,
    List.length_reverse, Nat.add_comm, Nat.mul_comm]

end ErbslandCore.Mem
