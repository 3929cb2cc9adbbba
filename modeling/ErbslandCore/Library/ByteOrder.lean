import Mathlib.Algebra.Order.Ring.Nat
import Mathlib.Data.List.Basic
import Mathlib.Data.UInt
import Mathlib.Tactic.Ring

namespace ErbslandCore.Library
set_option autoImplicit true

/-- The number that bytes denote, the most significant first. -/
def bigEndian : List UInt8 → Nat
  | [] => 0
  | b :: bytes => b.toNat * 256 ^ bytes.length + bigEndian bytes

/-- The last bytes of a number, the most significant first. -/
def toBigEndian : Nat → Nat → List UInt8
  | 0, _ => []
  | width + 1, n => UInt8.ofNat (n / 256 ^ width) :: toBigEndian width n

def littleEndian (bytes : List UInt8) : Nat := bigEndian bytes.reverse

def toLittleEndian (width n : Nat) : List UInt8 := (toBigEndian width n).reverse

@[simp] theorem toBigEndian_length (width n : Nat) : (toBigEndian width n).length = width := by
  induction width with
  | zero => rfl
  | succ width ih => rw [toBigEndian, List.length_cons, ih]

@[simp] theorem toLittleEndian_length (width n : Nat) :
    (toLittleEndian width n).length = width := by
  rw [toLittleEndian, List.length_reverse, toBigEndian_length]

theorem bigEndian_lt (bytes : List UInt8) : bigEndian bytes < 256 ^ bytes.length := by
  induction bytes with
  | nil => exact Nat.one_pos
  | cons b bytes ih =>
    have hb := b.toNat_lt
    calc bigEndian (b :: bytes) < b.toNat * 256 ^ bytes.length + 256 ^ bytes.length := by
          rw [bigEndian]; omega
      _ = (b.toNat + 1) * 256 ^ bytes.length := by ring
      _ ≤ 256 * 256 ^ bytes.length := Nat.mul_le_mul_right _ hb
      _ = 256 ^ (b :: bytes).length := by rw [List.length_cons, pow_succ]; ring

theorem bigEndian_append (a b : List UInt8) :
    bigEndian (a ++ b) = bigEndian a * 256 ^ b.length + bigEndian b := by
  induction a with
  | nil => rw [List.nil_append, bigEndian, Nat.zero_mul, Nat.zero_add]
  | cons x a ih =>
    rw [List.cons_append, bigEndian, ih, bigEndian, List.length_append, pow_add]
    ring

theorem littleEndian_cons (b : UInt8) (bytes : List UInt8) :
    littleEndian (b :: bytes) = b.toNat + 256 * littleEndian bytes := by
  rw [littleEndian, littleEndian, List.reverse_cons, bigEndian_append, bigEndian, bigEndian,
    List.length_nil, pow_zero, List.length_singleton, pow_one]
  ring

theorem littleEndian_lt (bytes : List UInt8) : littleEndian bytes < 256 ^ bytes.length := by
  have h := bigEndian_lt bytes.reverse
  rwa [List.length_reverse] at h

theorem bigEndian_toBigEndian (width n : Nat) :
    bigEndian (toBigEndian width n) = n % 256 ^ width := by
  induction width with
  | zero => rw [pow_zero, Nat.mod_one]; rfl
  | succ width ih =>
    have hsplit : n % 256 ^ (width + 1) = n % 256 ^ width + 256 ^ width * (n / 256 ^ width % 256) := by
      rw [pow_succ, Nat.mod_mul]
    rw [toBigEndian, bigEndian, toBigEndian_length, ih, UInt8.toNat_ofNat', hsplit, Nat.mul_comm,
      Nat.add_comm]

theorem bigEndian_toBigEndian_of_lt (h : n < 256 ^ width) :
    bigEndian (toBigEndian width n) = n := by
  rw [bigEndian_toBigEndian, Nat.mod_eq_of_lt h]

theorem littleEndian_toLittleEndian_of_lt (h : n < 256 ^ width) :
    littleEndian (toLittleEndian width n) = n := by
  rw [littleEndian, toLittleEndian, List.reverse_reverse, bigEndian_toBigEndian_of_lt h]

theorem toBigEndian_add_mul (width n k m : Nat) (h : width ≤ k) :
    toBigEndian width (m * 256 ^ k + n) = toBigEndian width n := by
  induction width with
  | zero => rfl
  | succ width ih =>
    rw [toBigEndian, toBigEndian, ih (by omega)]
    congr 1
    apply UInt8.toNat_inj.mp
    obtain ⟨j, rfl⟩ : ∃ j, k = width + 1 + j := ⟨k - (width + 1), by omega⟩
    rw [UInt8.toNat_ofNat', UInt8.toNat_ofNat',
      show m * 256 ^ (width + 1 + j) + n = n + 256 ^ width * (256 * (m * 256 ^ j)) by ring,
      Nat.add_mul_div_left _ _ (pow_pos (by decide) _)]
    omega

/-- Bytes are the digits of the number that they denote. -/
theorem toBigEndian_bigEndian (bytes : List UInt8) :
    toBigEndian bytes.length (bigEndian bytes) = bytes := by
  induction bytes with
  | nil => rfl
  | cons b bytes ih =>
    have hlt := bigEndian_lt bytes
    rw [List.length_cons, toBigEndian, bigEndian, toBigEndian_add_mul _ _ _ _ (le_refl _), ih,
      Nat.add_comm, Nat.add_mul_div_right _ _ (pow_pos (by decide) _), Nat.div_eq_of_lt hlt,
      Nat.zero_add, UInt8.ofNat_toNat]

theorem toLittleEndian_littleEndian (bytes : List UInt8) :
    toLittleEndian bytes.length (littleEndian bytes) = bytes := by
  have h := toBigEndian_bigEndian bytes.reverse
  rw [List.length_reverse] at h
  rw [toLittleEndian, littleEndian, h, List.reverse_reverse]

theorem cons_lt_cons {a b : UInt8} (h : a.toNat < b.toNat ∨ a.toNat = b.toNat ∧ s < t) :
    a :: s < b :: t := by
  rw [List.cons_lt_cons_iff]
  exact h.imp (fun h => h) fun ⟨h, hst⟩ => ⟨UInt8.toNat_inj.mp h, hst⟩

theorem append_lt_append (p : List UInt8) (h : s < t) : p ++ s < p ++ t := by
  induction p with
  | nil => exact h
  | cons a p ih => exact cons_lt_cons (.inr ⟨rfl, ih⟩)

/-- Numbers of one width are ordered like their bytes, whatever follows them. -/
theorem toBigEndian_lt (h : v < w) (hw : w < 256 ^ width) (s t : List UInt8) :
    toBigEndian width v ++ s < toBigEndian width w ++ t := by
  induction width generalizing v w with
  | zero => rw [pow_zero] at hw; omega
  | succ width ih =>
    have hp : 0 < 256 ^ width := pow_pos (by decide) _
    have hd : w / 256 ^ width < 256 := by
      rw [Nat.div_lt_iff_lt_mul hp, Nat.mul_comm, ← pow_succ]
      exact hw
    have hle : v / 256 ^ width ≤ w / 256 ^ width := Nat.div_le_div_right h.le
    rw [toBigEndian, toBigEndian, List.cons_append, List.cons_append]
    apply cons_lt_cons
    rw [UInt8.toNat_ofNat', UInt8.toNat_ofNat', Nat.mod_eq_of_lt (by omega), Nat.mod_eq_of_lt hd]
    rcases Nat.lt_or_eq_of_le hle with hlt | heq
    · exact .inl hlt
    · refine .inr ⟨heq, ?_⟩
      have hv := Nat.div_add_mod v (256 ^ width)
      have hw' := Nat.div_add_mod w (256 ^ width)
      rw [heq] at hv
      have hmod : toBigEndian width v = toBigEndian width (v % 256 ^ width) := by
        conv_lhs => rw [← Nat.div_add_mod v (256 ^ width), Nat.mul_comm]
        exact toBigEndian_add_mul _ _ _ _ (le_refl _)
      have hmod' : toBigEndian width w = toBigEndian width (w % 256 ^ width) := by
        conv_lhs => rw [← Nat.div_add_mod w (256 ^ width), Nat.mul_comm]
        exact toBigEndian_add_mul _ _ _ _ (le_refl _)
      rw [hmod, hmod']
      exact ih (by omega) (Nat.mod_lt _ hp)

end ErbslandCore.Library
