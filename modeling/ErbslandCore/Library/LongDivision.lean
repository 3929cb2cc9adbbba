import Mathlib.Algebra.Order.Ring.Nat
import Mathlib.Tactic.Ring
import Mathlib.Tactic.Linarith

namespace ErbslandCore.Library.LongDivision
set_option autoImplicit true

/-- What is divided at a place: the remainder of the places above with the digit of the place. -/
def window (b n d i : Nat) : Nat := n / b ^ (i + 1) % d * b + n / b ^ i % b

theorem div_pow_split (b n i : Nat) : n / b ^ i = b * (n / b ^ (i + 1)) + n / b ^ i % b := by
  rw [Nat.pow_succ, ← Nat.div_div_eq_div_mul, Nat.div_add_mod]

theorem div_pow_eq_window (b n d i : Nat) :
    n / b ^ i = d * (b * (n / b ^ (i + 1) / d)) + window b n d i := by
  calc n / b ^ i = b * (n / b ^ (i + 1)) + n / b ^ i % b := div_pow_split b n i
    _ = b * (d * (n / b ^ (i + 1) / d) + n / b ^ (i + 1) % d) + n / b ^ i % b := by
        rw [Nat.div_add_mod]
    _ = d * (b * (n / b ^ (i + 1) / d)) + window b n d i := by
        rw [window]
        ring

theorem window_lt (hb : 0 < b) (hd : 0 < d) (n i : Nat) : window b n d i < b * d := by
  have hrem : n / b ^ (i + 1) % d < d := Nat.mod_lt _ hd
  have hdigit : n / b ^ i % b < b := Nat.mod_lt _ hb
  calc window b n d i < n / b ^ (i + 1) % d * b + b := Nat.add_lt_add_left hdigit _
    _ = (n / b ^ (i + 1) % d + 1) * b := (Nat.succ_mul _ _).symm
    _ ≤ d * b := Nat.mul_le_mul_right b hrem
    _ = b * d := Nat.mul_comm d b

/-- At a place that the number does not reach above the divisor the window is what is left of it. -/
theorem window_of_lt (h : n / b ^ (i + 1) < d) : window b n d i = n / b ^ i := by
  rw [window, Nat.mod_eq_of_lt h, Nat.mul_comm, ← div_pow_split]

/-- The windows below a place do not see a multiple of the divisor at that place. -/
theorem window_add_mul (hb : 0 < b) (hi : i < j) (n q : Nat) :
    window b (n + b ^ j * (q * d)) d i = window b n d i := by
  have hsplit : ∀ l ≤ j, (n + b ^ j * (q * d)) / b ^ l = n / b ^ l + b ^ (j - l) * (q * d) := by
    intro l hl
    have hpow : b ^ j = b ^ l * b ^ (j - l) := by rw [← Nat.pow_add, Nat.add_sub_cancel' hl]
    rw [hpow, Nat.mul_assoc, Nat.add_mul_div_left _ _ (Nat.pow_pos hb)]
  have hdigit : b ^ (j - i) * (q * d) = b * (b ^ (j - i - 1) * (q * d)) := by
    have hsucc : j - i = j - i - 1 + 1 := (Nat.sub_add_cancel (Nat.sub_pos_of_lt hi)).symm
    conv_lhs => rw [hsucc, Nat.pow_succ', Nat.mul_assoc]
  rw [window, window, hsplit (i + 1) hi, hsplit i (Nat.le_of_lt hi), hdigit,
    Nat.add_mul_mod_self_left, ← Nat.mul_assoc _ q d, Nat.add_mul_mod_self_right]

/-- The window of the highest place left is the remainder with the next digit. -/
theorem window_last (hlow : low < b ^ j) (hrem : rem < d) (hdigit : digit < b) :
    window b (low + b ^ j * (digit + b * rem)) d j = digit + b * rem := by
  have hb : 0 < b := Nat.zero_lt_of_lt hdigit
  have hplace : (low + b ^ j * (digit + b * rem)) / b ^ j = digit + b * rem := by
    rw [Nat.add_mul_div_left _ _ (Nat.pow_pos hb), Nat.div_eq_of_lt hlow, Nat.zero_add]
  have habove : (low + b ^ j * (digit + b * rem)) / b ^ (j + 1) = rem := by
    rw [Nat.pow_succ, ← Nat.div_div_eq_div_mul, hplace, Nat.add_mul_div_left _ _ hb,
      Nat.div_eq_of_lt hdigit, Nat.zero_add]
  rw [window, hplace, habove, Nat.mod_eq_of_lt hrem, Nat.add_mul_mod_self_left,
    Nat.mod_eq_of_lt hdigit]
  ring

section Estimate
variable {b v₁ v₂ s t p v₀ w₀ q : Nat}

/-- A digit whose product with the two leading divisor digits exceeds the leading part of the
dividend is too large. -/
theorem lt_of_leading_lt (v₀ : Nat) (hw : w₀ < p) (h : s * b + t < q * (v₁ * b + v₂)) :
    (s * b + t) * p + w₀ < q * ((v₁ * b + v₂) * p + v₀) := by
  calc (s * b + t) * p + w₀ < (s * b + t) * p + p := Nat.add_lt_add_left hw _
    _ = (s * b + t + 1) * p := (Nat.succ_mul _ _).symm
    _ ≤ q * (v₁ * b + v₂) * p := Nat.mul_le_mul_right p h
    _ ≤ q * ((v₁ * b + v₂) * p + v₀) := by
        rw [Nat.mul_assoc]
        exact Nat.mul_le_mul_left q (Nat.le_add_right _ _)

/-- A digit whose product with the two leading divisor digits does not exceed the leading part is
at most one too large. -/
theorem pred_mul_le_of_leading_le (hv : v₀ < p) (hq : q ≤ v₁ * b + v₂)
    (h : q * (v₁ * b + v₂) ≤ s * b + t) :
    (q - 1) * ((v₁ * b + v₂) * p + v₀) ≤ (s * b + t) * p + w₀ := by
  cases q with
  | zero =>
    rw [Nat.zero_sub, Nat.zero_mul]
    exact Nat.zero_le _
  | succ q =>
    have hsmall : q * v₀ ≤ (v₁ * b + v₂) * p :=
      Nat.mul_le_mul (Nat.le_of_succ_le hq) (Nat.le_of_lt hv)
    calc (q + 1 - 1) * ((v₁ * b + v₂) * p + v₀) =
          q * (v₁ * b + v₂) * p + q * v₀ := by
          rw [Nat.add_sub_cancel]
          ring
      _ ≤ q * (v₁ * b + v₂) * p + (v₁ * b + v₂) * p := Nat.add_le_add_left hsmall _
      _ = (q + 1) * (v₁ * b + v₂) * p := by ring
      _ ≤ (s * b + t) * p := Nat.mul_le_mul_right p h
      _ ≤ (s * b + t) * p + w₀ := Nat.le_add_right _ _

end Estimate

/-- The factor that makes the leading divisor digit at least half of an even base. -/
theorem base_le_two_mul (heven : b % 2 = 0) (hlow : 2 ≤ x) (hx : x ≤ b) :
    b ≤ 2 * (b / x * (x - 1)) := by
  have hdiv := Nat.div_add_mod b x
  have hmod : b % x < x := Nat.mod_lt b (by omega)
  obtain ⟨y, rfl⟩ : ∃ y, x = y + 1 := ⟨x - 1, by omega⟩
  rw [Nat.add_sub_cancel]
  rcases Nat.lt_or_ge (b / (y + 1)) 2 with hlt | hge
  · have hone : b / (y + 1) = 1 := by
      have hpos : 0 < b / (y + 1) := Nat.div_pos hx (by omega)
      omega
    rw [hone] at hdiv ⊢
    omega
  · -- The remainder is no larger than the quotient, taken less than `y` times.
    have hrem : b % (y + 1) ≤ b / (y + 1) * (y - 1) := by
      rcases Nat.lt_or_ge y 2 with hy | hy
      · obtain rfl : y = 1 := by omega
        omega
      · have hmul : 2 * (y - 1) ≤ b / (y + 1) * (y - 1) := Nat.mul_le_mul_right _ hge
        omega
    obtain ⟨z, rfl⟩ : ∃ z, y = z + 1 := ⟨y - 1, by omega⟩
    rw [Nat.add_sub_cancel] at hrem
    have hexpand : (z + 1 + 1) * (b / (z + 1 + 1)) =
        b / (z + 1 + 1) * z + b / (z + 1 + 1) + b / (z + 1 + 1) := by ring
    have htarget : b / (z + 1 + 1) * (z + 1) = b / (z + 1 + 1) * z + b / (z + 1 + 1) := by ring
    omega

end ErbslandCore.Library.LongDivision
