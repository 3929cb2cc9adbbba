import Mathlib.Data.List.Nodup
import Mathlib.Data.List.Perm.Basic
import Mathlib.Data.List.Perm.Subperm
import Mathlib.Data.Nat.ModEq
import Mathlib.Data.Nat.GCD.Basic
import Mathlib.Data.Nat.Log
import Mathlib.Tactic.Ring

namespace ErbslandCore.Library.EntropyStates
set_option autoImplicit true

/-- A walk with a coprime step does not meet a place twice. -/
theorem walk_inj (hc : Nat.Coprime n step) (hi : i < n) (hj : j < n)
    (h : i * step % n = j * step % n) : i = j := by
  have hmod : i ≡ j [MOD n] := Nat.ModEq.cancel_right_of_coprime hc h
  rwa [Nat.ModEq, Nat.mod_eq_of_lt hi, Nat.mod_eq_of_lt hj] at hmod

/-- A walk with a coprime step visits every place once. -/
theorem walk_perm (hn : 0 < n) (hc : Nat.Coprime n step) :
    ((List.range n).map fun i => i * step % n).Perm (List.range n) := by
  have hnodup : ((List.range n).map fun i => i * step % n).Nodup := by
    refine List.Nodup.map_on (fun i hi j hj h => ?_) List.nodup_range
    exact walk_inj hc (List.mem_range.mp hi) (List.mem_range.mp hj) h
  have hsub : ((List.range n).map fun i => i * step % n) ⊆ List.range n := by
    intro x hx
    obtain ⟨i, _, rfl⟩ := List.mem_map.mp hx
    exact List.mem_range.mpr (Nat.mod_lt _ hn)
  exact (hnodup.subperm hsub).perm_of_length_le (by simp)

/-- The places below `low` that the first `i` steps of a walk visit. -/
def visited (n step low i : Nat) : List Nat :=
  ((List.range i).map fun i => i * step % n).filter fun place => place < low

theorem visited_succ_of_lt (h : i * step % n < low) :
    visited n step low (i + 1) = visited n step low i ++ [i * step % n] := by
  rw [visited, List.range_succ, List.map_append, List.filter_append]
  congr 1
  exact List.filter_cons_of_pos (decide_eq_true h)

theorem visited_succ_of_le (h : low ≤ i * step % n) :
    visited n step low (i + 1) = visited n step low i := by
  rw [visited, List.range_succ, List.map_append, List.filter_append, List.map_singleton,
    List.filter_cons_of_neg (by simpa using h), List.filter_nil, List.append_nil]
  rfl

theorem mem_visited : place ∈ visited n step low i ↔ ∃ k < i, k * step % n = place ∧ place < low := by
  rw [visited, List.mem_filter, List.mem_map]
  constructor
  · rintro ⟨⟨k, hk, hplace⟩, hlow⟩
    exact ⟨k, List.mem_range.mp hk, hplace, of_decide_eq_true hlow⟩
  · rintro ⟨k, hk, hplace, hlow⟩
    exact ⟨⟨k, List.mem_range.mpr hk, hplace⟩, decide_eq_true hlow⟩

theorem visited_perm (hn : 0 < n) (hc : Nat.Coprime n step) (hlow : low ≤ n) :
    (visited n step low n).Perm (List.range low) := by
  refine ((walk_perm hn hc).filter _).trans (List.Perm.of_eq ?_)
  rw [← Nat.add_sub_cancel' hlow, List.range_add, List.filter_append]
  have hkeep : (List.range low).filter (fun place => decide (place < low)) = List.range low :=
    List.filter_eq_self.mpr fun a ha => decide_eq_true (List.mem_range.mp ha)
  have hdrop : ((List.range (n - low)).map (low + ·)).filter (fun place => decide (place < low)) =
      [] := by
    refine List.filter_eq_nil_iff.mpr fun a ha => ?_
    obtain ⟨b, _, rfl⟩ := List.mem_map.mp ha
    simp
  rw [hkeep, hdrop, List.append_nil]

theorem visited_length (hn : 0 < n) (hc : Nat.Coprime n step) (hlow : low ≤ n) :
    (visited n step low n).length = low :=
  (visited_perm hn hc hlow).length_eq.trans List.length_range

theorem visited_length_le (h : i ≤ j) :
    (visited n step low i).length ≤ (visited n step low j).length := by
  obtain ⟨d, rfl⟩ := Nat.exists_eq_add_of_le h
  rw [visited, visited, List.range_add, List.map_append, List.filter_append, List.length_append]
  exact Nat.le_add_right _ _

/-- A walk that stands on a place below `low` and has visited all of them is back at its start. -/
theorem eq_of_visited_length (hn : 0 < n) (hc : Nat.Coprime n step) (hlow : low ≤ n) (hi : i ≤ n)
    (hplace : i * step % n < low) (h : (visited n step low i).length = low) : i = n := by
  refine Nat.le_antisymm hi (Nat.le_of_not_lt fun hlt => ?_)
  have hle : (visited n step low (i + 1)).length ≤ (visited n step low n).length :=
    visited_length_le hlt
  rw [visited_length hn hc hlow, visited_succ_of_lt hplace, List.length_append, h] at hle
  exact absurd hle (Nat.not_succ_le_self low)

/-- The number of bits that the state `x` of a symbol takes to reach a state below `2 ^ limit`. -/
def stateBits (limit x : Nat) : Nat := limit - Nat.log2 x

/-- The first state that the state `x` of a symbol reaches. -/
def stateBase (limit x : Nat) : Nat := x * 2 ^ stateBits limit x - 2 ^ limit

theorem log2_le (hx : 0 < x) (h : x < 2 ^ (limit + 1)) : Nat.log2 x ≤ limit :=
  Nat.le_of_lt_succ ((Nat.log2_lt (by omega)).mpr h)

theorem scaled_bounds (hx : 0 < x) (h : x < 2 ^ (limit + 1)) :
    2 ^ limit ≤ x * 2 ^ stateBits limit x ∧ (x + 1) * 2 ^ stateBits limit x ≤ 2 ^ (limit + 1) := by
  have hl := log2_le hx h
  have hlow : 2 ^ Nat.log2 x ≤ x := Nat.log2_self_le (by omega)
  have hhigh : x + 1 ≤ 2 ^ (Nat.log2 x + 1) := Nat.lt_log2_self
  have hpow : 2 ^ limit = 2 ^ Nat.log2 x * 2 ^ stateBits limit x := by
    rw [← Nat.pow_add, stateBits, Nat.add_sub_cancel' hl]
  have hpow' : 2 ^ (limit + 1) = 2 ^ (Nat.log2 x + 1) * 2 ^ stateBits limit x := by
    rw [Nat.pow_succ, hpow, Nat.pow_succ]
    ring
  rw [hpow', hpow]
  exact ⟨Nat.mul_le_mul_right _ hlow, Nat.mul_le_mul_right _ hhigh⟩

/-- The states that `x` reaches are those that start with `x` once they are scaled. -/
theorem reaches_iff (hx : 0 < x) (h : x < 2 ^ (limit + 1)) (t : Nat) :
    stateBase limit x ≤ t ∧ t < stateBase limit x + 2 ^ stateBits limit x ↔
      (t + 2 ^ limit) / 2 ^ stateBits limit x = x := by
  have hb := (scaled_bounds hx h).1
  have hp : 0 < 2 ^ stateBits limit x := Nat.two_pow_pos _
  rw [Nat.div_eq_iff hp, stateBase]
  have hadd : x * 2 ^ stateBits limit x + 2 ^ stateBits limit x = (x + 1) * 2 ^ stateBits limit x := by ring
  constructor
  · rintro ⟨h₁, h₂⟩
    omega
  · rintro ⟨h₁, h₂⟩
    omega

theorem base_add_le (hx : 0 < x) (h : x < 2 ^ (limit + 1)) :
    stateBase limit x + 2 ^ stateBits limit x ≤ 2 ^ limit := by
  obtain ⟨h₁, h₂⟩ := scaled_bounds hx h
  have hadd : x * 2 ^ stateBits limit x + 2 ^ stateBits limit x = (x + 1) * 2 ^ stateBits limit x := by ring
  rw [Nat.pow_succ] at h₂
  rw [stateBase]
  omega

theorem log2_scaled (hT : 2 ^ limit ≤ T) (hT' : T < 2 ^ (limit + 1)) (h : k ≤ limit) :
    Nat.log2 (T / 2 ^ (limit - k)) = k := by
  have hpow : 2 ^ limit = 2 ^ k * 2 ^ (limit - k) := by rw [← Nat.pow_add, Nat.add_sub_cancel' h]
  have hlow : 2 ^ k ≤ T / 2 ^ (limit - k) := by
    rw [Nat.le_div_iff_mul_le (Nat.two_pow_pos _), ← hpow]
    exact hT
  have hhigh : T / 2 ^ (limit - k) < 2 ^ (k + 1) := by
    rw [Nat.div_lt_iff_lt_mul (Nat.two_pow_pos _), Nat.pow_succ, Nat.mul_right_comm, ← hpow]
    exact hT'
  have hpos : T / 2 ^ (limit - k) ≠ 0 := by
    have h0 := Nat.two_pow_pos k
    omega
  exact (Nat.log2_eq_iff hpos).mpr ⟨hlow, hhigh⟩

/-- The longer of two states that start the same number is at least twice the shorter one. -/
theorem two_mul_le (h : T / 2 ^ stateBits limit x = x) (h' : T / 2 ^ stateBits limit y = y)
    (hl : Nat.log2 y ≤ limit) (hlt : Nat.log2 x < Nat.log2 y) : 2 * x ≤ y := by
  have hsplit : stateBits limit x = stateBits limit y + (Nat.log2 y - Nat.log2 x) := by
    rw [stateBits, stateBits]
    omega
  have hx : x = y / 2 ^ (Nat.log2 y - Nat.log2 x) := by
    conv_lhs => rw [← h, hsplit, Nat.pow_add, ← Nat.div_div_eq_div_mul, h']
  have hpow : 2 ^ 1 ≤ 2 ^ (Nat.log2 y - Nat.log2 x) := Nat.pow_le_pow_right (by omega) (by omega)
  have hmul := Nat.div_mul_le_self y (2 ^ (Nat.log2 y - Nat.log2 x))
  rw [← hx] at hmul
  have hle := Nat.mul_le_mul_left x hpow
  omega

/-- The states of a symbol that occurs `c` times are `c, …, 2 * c - 1`, and exactly one of them
reaches a given state. -/
theorem existsUnique_state (hc : 0 < c) (hle : c ≤ 2 ^ limit) (ht : t < 2 ^ limit) :
    ∃! x, (c ≤ x ∧ x < 2 * c) ∧
      stateBase limit x ≤ t ∧ t < stateBase limit x + 2 ^ stateBits limit x := by
  have hsmall (x : Nat) (hx : c ≤ x ∧ x < 2 * c) : 0 < x ∧ x < 2 ^ (limit + 1) := by
    rw [Nat.pow_succ]
    omega
  have hiff (x : Nat) (hx : c ≤ x ∧ x < 2 * c) := reaches_iff (hsmall x hx).1 (hsmall x hx).2 t
  have hT : 2 ^ limit ≤ t + 2 ^ limit := Nat.le_add_left _ _
  have hT' : t + 2 ^ limit < 2 ^ (limit + 1) := by
    rw [Nat.pow_succ]
    omega
  generalize t + 2 ^ limit = T at hT hT' hiff
  have hl : Nat.log2 c ≤ limit := log2_le hc (by rw [Nat.pow_succ]; omega)
  have hlow : 2 ^ Nat.log2 c ≤ c := Nat.log2_self_le (by omega)
  have hhigh : c < 2 ^ (Nat.log2 c + 1) := Nat.lt_log2_self
  have hstart := log2_scaled hT hT' hl
  have hex : ∃ x, (c ≤ x ∧ x < 2 * c) ∧ T / 2 ^ stateBits limit x = x := by
    have hlog : T / 2 ^ (limit - Nat.log2 c) < 2 ^ (Nat.log2 c + 1) := by
      conv_rhs => rw [← hstart]
      exact Nat.lt_log2_self
    rw [Nat.pow_succ] at hlog
    by_cases hcase : c ≤ T / 2 ^ (limit - Nat.log2 c)
    · refine ⟨T / 2 ^ (limit - Nat.log2 c), ⟨hcase, by omega⟩, ?_⟩
      rw [stateBits, hstart]
    · -- The number starts below `c`, so that one more of its bits belongs to the state.
      have hlt : Nat.log2 c < limit := by
        by_contra hge
        rw [show limit - Nat.log2 c = 0 by omega, Nat.pow_zero, Nat.div_one] at hcase
        omega
      have hnext := log2_scaled hT hT' (show Nat.log2 c + 1 ≤ limit by omega)
      have hhalf : T / 2 ^ (limit - (Nat.log2 c + 1)) / 2 = T / 2 ^ (limit - Nat.log2 c) := by
        rw [Nat.div_div_eq_div_mul, ← Nat.pow_succ]
        congr 2
        omega
      have hge : 2 ^ (Nat.log2 c + 1) ≤ T / 2 ^ (limit - (Nat.log2 c + 1)) := by
        conv_lhs => rw [← hnext]
        refine Nat.log2_self_le fun h0 => ?_
        rw [h0] at hnext
        cases hnext
      refine ⟨T / 2 ^ (limit - (Nat.log2 c + 1)), ⟨by omega, by omega⟩, ?_⟩
      rw [stateBits, hnext]
  obtain ⟨x, hx, hreach⟩ := hex
  refine ⟨x, ⟨hx, (hiff x hx).mpr hreach⟩, fun y ⟨hy, hreach'⟩ => ?_⟩
  have hreach' := (hiff y hy).mp hreach'
  have hlx := log2_le (hsmall x hx).1 (hsmall x hx).2
  have hly := log2_le (hsmall y hy).1 (hsmall y hy).2
  rcases Nat.lt_trichotomy (Nat.log2 x) (Nat.log2 y) with hlt | heq | hgt
  · have htwo := two_mul_le hreach hreach' hly hlt
    omega
  · rw [← hreach, ← hreach', stateBits, stateBits, heq]
  · have htwo := two_mul_le hreach' hreach hlx hgt
    omega

/-- An element stands exactly once with a given number of copies before it. -/
theorem existsUnique_index [DecidableEq α] {l : List α} {a : α} (h : r < l.count a) :
    ∃! i, l[i]? = some a ∧ (l.take i).count a = r := by
  induction l generalizing r with
  | nil => cases h
  | cons b l ih =>
    by_cases hb : b = a
    · subst hb
      rw [List.count_cons_self] at h
      cases r with
      | zero =>
        refine ⟨0, ⟨rfl, rfl⟩, fun i ⟨_, hi⟩ => ?_⟩
        cases i with
        | zero => rfl
        | succ i =>
          rw [List.take_succ_cons, List.count_cons_self] at hi
          cases hi
      | succ r =>
        obtain ⟨i, ⟨hget, hcount⟩, huniq⟩ := ih (Nat.lt_of_succ_lt_succ h)
        refine ⟨i + 1, ⟨hget, ?_⟩, fun j ⟨hj, hjc⟩ => ?_⟩
        · rw [List.take_succ_cons, List.count_cons_self, hcount]
        · cases j with
          | zero => cases hjc
          | succ j =>
            rw [List.take_succ_cons, List.count_cons_self] at hjc
            rw [huniq j ⟨hj, Nat.succ.inj hjc⟩]
    · rw [List.count_cons_of_ne hb] at h
      obtain ⟨i, ⟨hget, hcount⟩, huniq⟩ := ih h
      refine ⟨i + 1, ⟨hget, ?_⟩, fun j ⟨hj, hjc⟩ => ?_⟩
      · rw [List.take_succ_cons, List.count_cons_of_ne hb, hcount]
      · cases j with
        | zero => exact absurd (Option.some.inj hj) hb
        | succ j =>
          rw [List.take_succ_cons, List.count_cons_of_ne hb] at hjc
          rw [huniq j ⟨hj, hjc⟩]

end ErbslandCore.Library.EntropyStates
