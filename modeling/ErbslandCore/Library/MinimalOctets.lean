import ErbslandCore.Library.ByteOrder
import Mathlib.Data.Nat.Log

namespace ErbslandCore.Library
set_option autoImplicit true

/-- The least number of bytes that hold a number. -/
def octetCount (n : Nat) : Nat := Nat.log 256 n + 1

/-- A number in as few bytes as possible, the most significant first. -/
def minimalOctets (n : Nat) : List UInt8 := toBigEndian (octetCount n) n

theorem lt_pow_octetCount (n : Nat) : n < 256 ^ octetCount n :=
  Nat.lt_pow_succ_log_self (by decide) n

theorem octetCount_le (hk : 0 < k) (h : n < 256 ^ k) : octetCount n ≤ k := by
  by_cases hn : n = 0
  · subst hn
    rw [octetCount, Nat.log_zero_right]
    exact hk
  · exact (Nat.log_lt_iff_lt_pow (by decide) hn).2 h

theorem octetCount_eq (hle : 256 ^ k ≤ n) (hlt : n < 256 ^ (k + 1)) : octetCount n = k + 1 := by
  rw [octetCount, Nat.log_eq_of_pow_le_of_lt_pow hle hlt]

theorem octetCount_div (h : 256 ≤ n) : octetCount (n / 256) + 1 = octetCount n := by
  rw [octetCount, octetCount, Nat.log_of_one_lt_of_le (by decide) h]

@[simp] theorem length_minimalOctets (n : Nat) : (minimalOctets n).length = octetCount n :=
  toBigEndian_length _ _

theorem bigEndian_minimalOctets (n : Nat) : bigEndian (minimalOctets n) = n :=
  bigEndian_toBigEndian_of_lt (lt_pow_octetCount n)

/-- Bytes that do not start with zero are the shortest ones for their number. -/
theorem minimalOctets_bigEndian {first : UInt8} (h : first ≠ 0) (bytes : List UInt8) :
    minimalOctets (bigEndian (first :: bytes)) = first :: bytes := by
  have hpos : 0 < first.toNat := Nat.pos_of_ne_zero fun hz => h (UInt8.toNat_inj.1 hz)
  have hle : 256 ^ bytes.length ≤ bigEndian (first :: bytes) := by
    rw [bigEndian]
    exact Nat.le_add_right_of_le (Nat.le_mul_of_pos_left _ hpos)
  rw [minimalOctets, octetCount_eq hle (bigEndian_lt (first :: bytes))]
  exact toBigEndian_bigEndian (first :: bytes)

/-- The first byte of a positive number is not zero. -/
theorem head_minimalOctets (hn : n ≠ 0) :
    ∃ first bytes, minimalOctets n = first :: bytes ∧ first ≠ 0 := by
  refine ⟨UInt8.ofNat (n / 256 ^ Nat.log 256 n), toBigEndian (Nat.log 256 n) n, rfl, ?_⟩
  intro hzero
  have hle : 256 ^ Nat.log 256 n ≤ n := Nat.pow_log_le_self 256 hn
  have hlt : n / 256 ^ Nat.log 256 n < 256 := by
    rw [Nat.div_lt_iff_lt_mul (Nat.pow_pos (by decide)), Nat.mul_comm, ← Nat.pow_succ]
    exact lt_pow_octetCount n
  have hpos : 0 < n / 256 ^ Nat.log 256 n := Nat.div_pos hle (Nat.pow_pos (by decide))
  have hvalue := congrArg UInt8.toNat hzero
  rw [UInt8.toNat_ofNat', Nat.mod_eq_of_lt hlt] at hvalue
  exact absurd hvalue (Nat.ne_of_gt hpos)

end ErbslandCore.Library
