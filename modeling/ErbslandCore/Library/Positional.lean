import Mathlib.Data.List.DropRight
import Mathlib.Data.Nat.Digits.Lemmas

namespace ErbslandCore.Library.Positional
open Nat (ofDigits)
set_option autoImplicit true

/-- Little-endian digits without a zero at the most significant end. -/
structure Canonical (b : Nat) (digits : List Nat) : Prop where
  lt : ∀ digit ∈ digits, digit < b
  last : ∀ h, digits.getLast h ≠ 0

theorem canonical_nil (b : Nat) : Canonical b [] where
  lt := nofun
  last h := absurd rfl h

theorem Canonical.ext (hb : 1 < b) (hx : Canonical b xs) (hy : Canonical b ys)
    (h : ofDigits b xs = ofDigits b ys) : xs = ys := by
  rw [← Nat.digits_ofDigits b hb xs hx.lt hx.last, h, Nat.digits_ofDigits b hb ys hy.lt hy.last]

theorem ofDigits_lt (hb : 1 < b) (h : ∀ digit ∈ xs, digit < b) : ofDigits b xs < b ^ xs.length :=
  Nat.ofDigits_lt_base_pow_length hb h

theorem ofDigits_concat (b : Nat) (xs : List Nat) (x : Nat) :
    ofDigits b (xs ++ [x]) = ofDigits b xs + b ^ xs.length * x := by
  rw [Nat.ofDigits_append, Nat.ofDigits_singleton]

/-- The leading digit alone makes a canonical number as large as its place. -/
theorem Canonical.pow_le (h : Canonical b xs) (hne : xs ≠ []) :
    b ^ (xs.length - 1) ≤ ofDigits b xs := by
  induction xs using List.reverseRecOn with
  | nil => exact absurd rfl hne
  | append_singleton ys y _ =>
    have hy : y ≠ 0 := by
      have hlast := h.last hne
      rwa [List.getLast_concat] at hlast
    rw [ofDigits_concat, List.length_append, List.length_singleton, Nat.add_sub_cancel]
    exact (Nat.le_mul_of_pos_right _ (Nat.pos_of_ne_zero hy)).trans (Nat.le_add_left _ _)

/-- Digits are canonical when their number reaches the place of the leading digit. -/
theorem canonical_of_pow_le (hb : 1 < b) (h : ∀ digit ∈ xs, digit < b)
    (hle : xs ≠ [] → b ^ (xs.length - 1) ≤ ofDigits b xs) : Canonical b xs where
  lt := h
  last hne hz := by
    induction xs using List.reverseRecOn with
    | nil => exact absurd rfl hne
    | append_singleton ys y _ =>
      rw [List.getLast_concat] at hz
      have hlt : ofDigits b ys < b ^ ys.length :=
        ofDigits_lt hb fun digit hmem => h digit (List.mem_append_left _ hmem)
      have hpow := hle hne
      rw [ofDigits_concat, hz, List.length_append, List.length_singleton, Nat.add_sub_cancel] at hpow
      exact absurd hlt (Nat.not_lt.mpr hpow)

/-- The number between two powers of the base tells the number of its digits. -/
theorem Canonical.length_eq (h : Canonical b xs) (hb : 1 < b) (hlow : b ^ n ≤ ofDigits b xs)
    (hhigh : ofDigits b xs < b ^ (n + 1)) : xs.length = n + 1 := by
  have hpos : 0 < b := Nat.zero_lt_of_lt hb
  have hlt : n < xs.length := by
    rw [← Nat.pow_lt_pow_iff_right hb]
    exact hlow.trans_lt (ofDigits_lt hb h.lt)
  have hne : xs ≠ [] := List.length_pos_iff.mp (Nat.zero_lt_of_lt hlt)
  have hle : xs.length - 1 < n + 1 := by
    rw [← Nat.pow_lt_pow_iff_right hb]
    exact (h.pow_le hne).trans_lt hhigh
  omega

theorem Canonical.ofDigits_eq_zero (h : Canonical b xs) (hb : 0 < b) :
    ofDigits b xs = 0 ↔ xs = [] := by
  constructor
  · intro hz
    by_contra hne
    have hle := h.pow_le hne
    rw [hz] at hle
    exact absurd (Nat.pow_pos hb) (Nat.not_lt.mpr hle)
  · rintro rfl
    rfl

/-- The digits without the zeros at the most significant end. -/
def trim (digits : List Nat) : List Nat := digits.rdropWhile (· == 0)

theorem trim_concat (xs : List Nat) (x : Nat) :
    trim (xs ++ [x]) = if x = 0 then trim xs else xs ++ [x] := by
  rw [trim, List.rdropWhile_concat]
  simp only [beq_iff_eq]
  rfl

theorem ofDigits_trim (b : Nat) (xs : List Nat) : ofDigits b (trim xs) = ofDigits b xs := by
  induction xs using List.reverseRecOn with
  | nil => rfl
  | append_singleton xs x ih =>
    rw [trim_concat]
    split
    case isTrue hx => rw [ih, hx, Nat.ofDigits_append_zero]
    case isFalse => rfl

theorem canonical_trim (h : ∀ digit ∈ xs, digit < b) : Canonical b (trim xs) where
  lt digit hmem := h digit ((List.rdropWhile_prefix _ _).subset hmem)
  last hne hz := by
    have hlast := List.rdropWhile_last_not _ _ hne
    rw [beq_iff_eq] at hlast
    exact hlast hz

/-- Digits that are below the base after trimming were so before. -/
theorem lt_of_canonical_trim (hb : 0 < b) (h : Canonical b (trim xs)) :
    ∀ digit ∈ xs, digit < b := by
  induction xs using List.reverseRecOn with
  | nil => nofun
  | append_singleton xs x ih =>
    rw [trim_concat] at h
    intro digit hmem
    split at h
    case isFalse => exact h.lt digit hmem
    case isTrue hx =>
      rcases List.mem_append.mp hmem with hmem | hmem
      · exact ih h digit hmem
      · rw [List.mem_singleton.mp hmem, hx]
        exact hb

/-- The order of two digits at one place, with the digits before them equally many. -/
theorem ofDigits_concat_lt (hb : 1 < b) (hx : ∀ digit ∈ xs, digit < b)
    (hlen : xs.length = ys.length) (hlt : x < y) :
    ofDigits b (xs ++ [x]) < ofDigits b (ys ++ [y]) := by
  rw [ofDigits_concat, ofDigits_concat, ← hlen]
  calc ofDigits b xs + b ^ xs.length * x < b ^ xs.length + b ^ xs.length * x :=
        Nat.add_lt_add_right (ofDigits_lt hb hx) _
    _ = b ^ xs.length * (x + 1) := by rw [Nat.mul_succ, Nat.add_comm]
    _ ≤ b ^ xs.length * y := Nat.mul_le_mul_left _ hlt
    _ ≤ ofDigits b ys + b ^ xs.length * y := Nat.le_add_left _ _

end ErbslandCore.Library.Positional
