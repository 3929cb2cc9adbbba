import ErbslandCore.Library.Periodic

namespace ErbslandCore.Mem
open Library
set_option autoImplicit true

/-- Errors raised by the byte containers; the library throws `err::OutOfRangeError`. -/
inductive MemError where
  | outOfRange (message : String)
  deriving DecidableEq

/-- The largest value of `std::size_t`. -/
def cSizeMaximum : Nat := 2 ^ 64 - 1

/-- The doubling copy of `appendRepeated`: `appended` holds the bytes written so far. -/
def appendRepeatedLoop [Inhabited α] (appended : List α) (appendedLength : Nat) : List α :=
  let copied := appended.length
  if 0 < copied ∧ copied < appendedLength then
    let count := min copied (appendedLength - copied)
    appendRepeatedLoop (appended ++ appended.take count) appendedLength
  else appended
termination_by appendedLength - appended.length
decreasing_by
  simp only [List.length_append, List.length_take]
  omega

/-- Append `appendedLength` bytes by cyclically repeating an existing source range. -/
def appendRepeated [Inhabited α] (data : List α) (source sourceLength appendedLength : Nat) :
    Except MemError (List α) :=
  if appendedLength = 0 then .ok data
  else if sourceLength = 0 ∨ data.length < source + sourceLength then
    .error (.outOfRange "Repeated byte source exceeds the available data.")
  else
    let copied := min sourceLength appendedLength
    .ok (data ++ appendRepeatedLoop ((data.drop source).take copied) appendedLength)

theorem appendRepeatedLoop_full [Inhabited α] (l : List α) (h : n ≤ l.length) :
    appendRepeatedLoop l n = l := by
  rw [appendRepeatedLoop]
  simp only [ite_eq_right_iff, and_imp]
  intro _ hlt
  exact absurd hlt (by omega)

theorem appendRepeatedLoop_cycle [Inhabited α] (p : List α)
    (hd : p.length ∣ k) (hk : 0 < k) (hkn : k ≤ n) :
    appendRepeatedLoop (cycle p k) n = cycle p n := by
  induction hm : n - k using Nat.strong_induction_on generalizing k with
  | _ m ih =>
    rw [appendRepeatedLoop]
    simp only [cycle_length, hk, true_and]
    split
    case isTrue hlt =>
      rw [cycle_append_take p hd (Nat.min_le_left _ _)]
      by_cases hc : k ≤ n - k
      · rw [Nat.min_eq_left hc]
        exact ih (n - (k + k)) (by omega) (Nat.dvd_add hd hd) (by omega) (by omega) rfl
      · rw [Nat.min_eq_right (by omega), Nat.add_sub_cancel' hkn,
          appendRepeatedLoop_full _ (by simp)]
    case isFalse hge =>
      rw [show k = n by omega]

/-- The doubling copy appends the endless repetition of the source range. -/
theorem appendRepeated_eq_cycle [Inhabited α] (data : List α) (hl : 0 < sourceLength)
    (hs : source + sourceLength ≤ data.length) (n : Nat) :
    appendRepeated data source sourceLength n =
      .ok (data ++ cycle ((data.drop source).take sourceLength) n) := by
  have hp : ((data.drop source).take sourceLength).length = sourceLength := by
    simp; omega
  unfold appendRepeated
  split
  case isTrue h => rw [h, cycle_zero, List.append_nil]
  case isFalse h =>
    rw [if_neg (by omega)]
    simp only [Except.ok.injEq, List.append_cancel_left_eq]
    by_cases hn : n ≤ sourceLength
    · rw [Nat.min_eq_right hn, cycle_of_le _ (by omega), List.take_take, Nat.min_eq_left hn,
        appendRepeatedLoop_full _ (by simp; omega)]
    · have hc : (data.drop source).take sourceLength =
          cycle ((data.drop source).take sourceLength) sourceLength := by
        rw [cycle_of_le _ (by omega), List.take_take, Nat.min_self]
      rw [Nat.min_eq_left (by omega)]
      conv_lhs => rw [hc]
      exact appendRepeatedLoop_cycle _ (by rw [hp]) hl (by omega)

end ErbslandCore.Mem
