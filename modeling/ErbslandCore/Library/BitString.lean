import Mathlib

namespace ErbslandCore.Library
set_option autoImplicit true

/-- The `n` low bits of a number, the least significant first. -/
def natBits (n v : Nat) : List Bool :=
  (List.range n).map v.testBit

/-- The number with the given bits, the least significant first. -/
def bitsValue : List Bool → Nat
  | [] => 0
  | b :: bs => b.toNat + 2 * bitsValue bs

/-- The bits of a byte sequence, the least significant bit of every byte first. -/
def bitsOf (bytes : List UInt8) : List Bool :=
  bytes.flatMap fun b => natBits 8 b.toNat

@[simp] theorem natBits_length (n v : Nat) : (natBits n v).length = n := by
  simp [natBits]

@[simp] theorem natBits_zero (v : Nat) : natBits 0 v = [] := rfl

theorem natBits_getElem? (n v i : Nat) :
    (natBits n v)[i]? = if i < n then some (v.testBit i) else none := by
  split
  case isTrue h => simp [natBits, h]
  case isFalse h => simp [natBits, Nat.le_of_not_gt h]

/-- A wide field is a narrow one followed by the bits above it. -/
theorem natBits_add (m n v : Nat) : natBits (m + n) v = natBits m v ++ natBits n (v >>> m) := by
  simp only [natBits, List.range_add, List.map_append, List.map_map]
  congr 1
  apply List.map_congr_left
  intro i _
  simp [Nat.testBit_shiftRight]

theorem natBits_succ (n v : Nat) : natBits (n + 1) v = v.testBit 0 :: natBits n (v >>> 1) := by
  rw [Nat.add_comm, natBits_add]
  rfl

theorem natBits_mod (n v : Nat) : natBits n (v % 2 ^ n) = natBits n v := by
  apply List.ext_getElem?
  intro i
  simp only [natBits_getElem?, Nat.testBit_mod_two_pow]
  split
  case isTrue h => simp [h]
  case isFalse => rfl

@[simp] theorem bitsOf_nil : bitsOf [] = [] := rfl

@[simp] theorem bitsOf_cons (b : UInt8) (bytes : List UInt8) :
    bitsOf (b :: bytes) = natBits 8 b.toNat ++ bitsOf bytes := rfl

@[simp] theorem bitsOf_append (a b : List UInt8) : bitsOf (a ++ b) = bitsOf a ++ bitsOf b :=
  List.flatMap_append

@[simp] theorem bitsOf_length (bytes : List UInt8) : (bitsOf bytes).length = 8 * bytes.length := by
  induction bytes with
  | nil => rfl
  | cons b bytes ih =>
    rw [bitsOf_cons, List.length_append, natBits_length, ih, List.length_cons]
    omega

theorem bitsOf_drop (bytes : List UInt8) (n : Nat) :
    bitsOf (bytes.drop n) = (bitsOf bytes).drop (8 * n) := by
  induction n generalizing bytes with
  | zero => rfl
  | succ n ih =>
    cases bytes with
    | nil => rfl
    | cons b bytes =>
      have hb : (natBits 8 b.toNat).drop (8 * (n + 1)) = [] :=
        List.drop_eq_nil_of_le (by rw [natBits_length]; omega)
      rw [List.drop_succ_cons, ih, bitsOf_cons, List.drop_append, hb, natBits_length,
        List.nil_append]
      congr 1

theorem bitsOf_take (bytes : List UInt8) (n : Nat) :
    bitsOf (bytes.take n) = (bitsOf bytes).take (8 * n) := by
  by_cases hn : n ≤ bytes.length
  · conv_rhs => rw [← List.take_append_drop n bytes, bitsOf_append]
    rw [List.take_left' (by simp [hn])]
  · rw [List.take_of_length_le (by omega), List.take_of_length_le (by simp; omega)]

theorem natBits_inj (h : natBits n v = natBits n w) (hv : v < 2 ^ n) (hw : w < 2 ^ n) : v = w := by
  apply Nat.eq_of_testBit_eq
  intro i
  by_cases hi : i < n
  · have he := congrArg (·[i]?) h
    simpa only [natBits_getElem?, hi, ↓reduceIte, Option.some.injEq] using he
  · have hp : 2 ^ n ≤ 2 ^ i := Nat.pow_le_pow_right (by omega) (by omega)
    rw [Nat.testBit_lt_two_pow (by omega), Nat.testBit_lt_two_pow (by omega)]

theorem bitsOf_injective {a b : List UInt8} (h : bitsOf a = bitsOf b) : a = b := by
  induction a generalizing b with
  | nil =>
    have hl := congrArg List.length h
    rw [bitsOf_length, bitsOf_length] at hl
    exact (List.length_eq_zero_iff.mp (by simpa using hl.symm)).symm
  | cons x a ih =>
    cases b with
    | nil =>
      have hl := congrArg List.length h
      simp at hl
    | cons y b =>
      rw [bitsOf_cons, bitsOf_cons] at h
      obtain ⟨h₁, h₂⟩ := List.append_inj h (by simp)
      rw [UInt8.toNat_inj.mp (natBits_inj h₁ x.toNat_lt y.toNat_lt), ih h₂]

/-- The bit at a position is a bit of the byte it falls into. -/
theorem bitsOf_getElem? (bytes : List UInt8) (i : Nat) :
    (bitsOf bytes)[i]? = bytes[i / 8]?.map (fun b => b.toNat.testBit (i % 8)) := by
  induction bytes generalizing i with
  | nil => simp
  | cons b bytes ih =>
    rw [bitsOf_cons]
    by_cases h : i < 8
    · rw [List.getElem?_append_left (by simpa), natBits_getElem?, if_pos h, Nat.div_eq_of_lt h,
        Nat.mod_eq_of_lt h]
      rfl
    · obtain ⟨j, rfl⟩ := Nat.exists_eq_add_of_le (Nat.le_of_not_gt h)
      rw [List.getElem?_append_right (by simp), natBits_length, Nat.add_sub_cancel_left, ih,
        Nat.add_mod_left, Nat.add_div_left _ (by omega), List.getElem?_cons_succ]

@[simp] theorem bitsValue_nil : bitsValue [] = 0 := rfl

theorem bitsValue_lt (bs : List Bool) : bitsValue bs < 2 ^ bs.length := by
  induction bs with
  | nil => simp
  | cons b bs ih =>
    have hb := Bool.toNat_lt b
    rw [bitsValue, List.length_cons, Nat.pow_succ]
    omega

theorem bitsValue_append (a b : List Bool) :
    bitsValue (a ++ b) = bitsValue a + 2 ^ a.length * bitsValue b := by
  induction a with
  | nil => simp
  | cons x a ih =>
    rw [List.cons_append, bitsValue, ih, bitsValue, List.length_cons, Nat.pow_succ]
    ring

theorem bitsValue_natBits (n v : Nat) : bitsValue (natBits n v) = v % 2 ^ n := by
  induction n generalizing v with
  | zero => simp [Nat.mod_one]
  | succ n ih =>
    rw [natBits_succ, bitsValue, ih, Nat.shiftRight_one, Nat.testBit_zero, Nat.pow_succ,
      Nat.mul_comm (2 ^ n), Nat.mod_mul]
    congr 1
    rcases Nat.mod_two_eq_zero_or_one v with h | h <;> simp [h]

theorem bitsValue_natBits_of_lt (h : v < 2 ^ n) : bitsValue (natBits n v) = v := by
  rw [bitsValue_natBits, Nat.mod_eq_of_lt h]

theorem natBits_bitsValue (bs : List Bool) : natBits bs.length (bitsValue bs) = bs := by
  induction bs with
  | nil => rfl
  | cons b bs ih =>
    rw [List.length_cons, natBits_succ, bitsValue]
    congr 1
    · rw [Nat.testBit_zero]
      cases b <;> simp [Nat.add_mod]
    · rw [Nat.shiftRight_one]
      have hb := Bool.toNat_lt b
      rw [show (b.toNat + 2 * bitsValue bs) / 2 = bitsValue bs by omega, ih]

end ErbslandCore.Library
