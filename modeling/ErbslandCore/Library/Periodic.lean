import Mathlib

namespace ErbslandCore.Library
set_option autoImplicit true

/-- The first `n` elements of the endless repetition of a pattern. -/
def cycle [Inhabited α] (pattern : List α) (n : Nat) : List α :=
  (List.range n).map fun i => pattern[i % pattern.length]!

@[simp] theorem cycle_length [Inhabited α] (p : List α) (n : Nat) :
    (cycle p n).length = n := by
  simp [cycle]

@[simp] theorem cycle_zero [Inhabited α] (p : List α) : cycle p 0 = [] := rfl

theorem cycle_getElem! [Inhabited α] (p : List α) (h : i < n) :
    (cycle p n)[i]! = p[i % p.length]! := by
  simp [cycle, getElem!_pos, h]

theorem getElem!_take [Inhabited α] (l : List α) (h : i < n) :
    (l.take n)[i]! = l[i]! := by
  simp only [List.getElem!_eq_getElem?_getD, List.getElem?_take_of_lt h]

theorem getElem!_drop [Inhabited α] (l : List α) (n i : Nat) :
    (l.drop n)[i]! = l[n + i]! := by
  simp only [List.getElem!_eq_getElem?_getD, List.getElem?_drop]

theorem getElem!_append_left [Inhabited α] (l m : List α) (h : i < l.length) :
    (l ++ m)[i]! = l[i]! := by
  simp only [List.getElem!_eq_getElem?_getD, List.getElem?_append_left h]

theorem getElem!_append_right [Inhabited α] (l m : List α) (h : l.length ≤ i) :
    (l ++ m)[i]! = m[i - l.length]! := by
  simp only [List.getElem!_eq_getElem?_getD, List.getElem?_append_right h]

/-- Lists of one length are equal once their elements agree. -/
theorem ext_getElem! [Inhabited α] {l m : List α} (hl : l.length = m.length)
    (h : ∀ i, i < l.length → l[i]! = m[i]!) : l = m := by
  apply List.ext_getElem hl
  intro i hi hi'
  have he := h i hi
  rwa [getElem!_pos l i hi, getElem!_pos m i hi'] at he

theorem take_succ_getElem! [Inhabited α] (l : List α) (h : n < l.length) :
    l.take (n + 1) = l.take n ++ [l[n]!] := by
  rw [List.take_add_one, List.getElem?_eq_getElem h, getElem!_pos l n h]
  rfl

theorem drop_eq_cons [Inhabited α] {l : List α} (h : l.drop p = a :: t) :
    p < l.length ∧ l[p]! = a ∧ l.drop (p + 1) = t := by
  have hp : p < l.length := by
    rw [← Nat.not_le, ← List.drop_eq_nil_iff, h]
    exact List.cons_ne_nil a t
  rw [List.drop_eq_getElem_cons hp] at h
  cases h
  exact ⟨hp, getElem!_pos l p hp, rfl⟩

theorem drop_eq_append {l : List α} (h : l.drop p = a ++ t) :
    (l.drop p).take a.length = a ∧ l.drop (p + a.length) = t := by
  rw [← List.drop_drop, h]
  simp

/-- A repetition is continued by its own beginning, as long as whole periods were copied. -/
theorem cycle_append_take [Inhabited α] (p : List α) (hd : p.length ∣ n) (hm : m ≤ n) :
    cycle p n ++ (cycle p n).take m = cycle p (n + m) := by
  apply ext_getElem!
  · simp only [List.length_append, cycle_length, List.length_take, Nat.min_eq_left hm]
  intro i hi
  have hi' : i < n + m := by simpa [Nat.min_eq_left hm] using hi
  rw [cycle_getElem! _ hi']
  by_cases hin : i < n
  · rw [getElem!_append_left _ _ (by simpa using hin), cycle_getElem! _ hin]
  · have hge : n ≤ i := Nat.le_of_not_gt hin
    obtain ⟨k, rfl⟩ := hd
    rw [getElem!_append_right _ _ (by simpa using hge), cycle_length,
      getElem!_take _ (by omega), cycle_getElem! _ (by omega)]
    congr 1
    conv_rhs => rw [← Nat.sub_add_cancel hge]
    rw [Nat.add_mul_mod_self_left]

theorem cycle_of_le [Inhabited α] (p : List α) (h : n ≤ p.length) : cycle p n = p.take n := by
  apply ext_getElem!
  · simpa using h
  intro i hi
  have hi' : i < n := by simpa using hi
  rw [cycle_getElem! _ hi', getElem!_take _ hi', Nat.mod_eq_of_lt (by omega)]

theorem append_cycle [Inhabited α] (p : List α) (n : Nat) :
    p ++ cycle p n = cycle p (p.length + n) := by
  apply ext_getElem!
  · simp
  intro i hi
  have hi' : i < p.length + n := by simpa using hi
  rw [cycle_getElem! _ hi']
  by_cases hip : i < p.length
  · rw [getElem!_append_left _ _ hip, Nat.mod_eq_of_lt hip]
  · have hge := Nat.le_of_not_gt hip
    rw [getElem!_append_right _ _ hge, cycle_getElem! _ (by omega), ← Nat.mod_eq_sub_mod hge]

/-- A repetition can be continued from its own last period. -/
theorem cycle_add [Inhabited α] (p : List α) (m n : Nat) :
    cycle p m ++ cycle ((p ++ cycle p m).drop m) n = cycle p (m + n) := by
  have hq : ((p ++ cycle p m).drop m).length = p.length := by simp
  apply ext_getElem!
  · simp
  intro i hi
  have hi' : i < m + n := by simpa using hi
  rw [cycle_getElem! _ hi']
  by_cases him : i < m
  · rw [getElem!_append_left _ _ (by simpa using him), cycle_getElem! _ him]
  · obtain ⟨j, rfl⟩ := Nat.exists_eq_add_of_le (Nat.le_of_not_gt him)
    rw [getElem!_append_right _ _ (by simp), cycle_length, Nat.add_sub_cancel_left,
      cycle_getElem! _ (by omega), hq, getElem!_drop, append_cycle]
    by_cases hp : p.length = 0
    · rw [List.length_eq_zero_iff.mp hp]
      simp [cycle]
    · have hj := Nat.mod_lt j (Nat.pos_of_ne_zero hp)
      rw [cycle_getElem! _ (by omega), Nat.add_mod_mod]

/-- Copy elements one at a time from a distance before the end. -/
def copyBack [Inhabited α] (distance : Nat) : Nat → List α → List α
  | 0, l => l
  | n + 1, l => copyBack distance n (l ++ [l[l.length - distance]!])

/-- Copying from a distance repeats the last elements, also past the distance. -/
theorem copyBack_eq_cycle [Inhabited α] {l : List α} (hl : d ≤ l.length) (n : Nat) :
    copyBack d n l = l ++ cycle (l.drop (l.length - d)) n := by
  induction n generalizing l with
  | zero => rw [copyBack, cycle_zero, List.append_nil]
  | succ n ih =>
    have hlen : (l ++ [l[l.length - d]!]).length = l.length + 1 := List.length_append
    have hone : cycle (l.drop (l.length - d)) 1 = [l[l.length - d]!] := by
      have h := getElem!_drop l (l.length - d) 0
      rw [Nat.add_zero] at h
      rw [← h]
      simp [cycle]
    have hlast : (l ++ [l[l.length - d]!]).drop (l.length + 1 - d) =
        (l.drop (l.length - d) ++ [l[l.length - d]!]).drop 1 := by
      rw [← List.drop_append_of_le_length (Nat.sub_le _ _), List.drop_drop]
      congr 1
      omega
    rw [copyBack, ih (by omega), hlen, hlast, List.append_assoc, ← hone, cycle_add,
      Nat.add_comm 1 n]

/-- A list agrees with its own shift on a range exactly when the range repeats the shift's period. -/
theorem getElem!_mod_of_shift [Inhabited α] (l : List α) (hd : 0 < d) (hdp : d ≤ p)
    (h : ∀ i, i < n → l[p - d + i]! = l[p + i]!) :
    ∀ i, i < n → l[p + i]! = l[p - d + i % d]! := by
  intro i
  induction i using Nat.strong_induction_on with
  | _ i ih =>
    intro hi
    by_cases hid : i < d
    · rw [Nat.mod_eq_of_lt hid, h i hi]
    · have hs := ih (i - d) (by omega) (by omega)
      have hp : p + (i - d) = p - d + i := by omega
      rw [hp] at hs
      rw [← h i hi, hs, ← Nat.mod_eq_sub_mod (Nat.le_of_not_gt hid)]

/-- The `n` elements of `l` at `p` repeat those `d` places before them. -/
structure BackReference [Inhabited α] (l : List α) (p d n : Nat) : Prop where
  distance_pos : 0 < d
  distance_le : d ≤ p
  within : p + n ≤ l.length
  agree : ∀ i, i < n → l[p - d + i]! = l[p + i]!

/-- Repeating the last `d` elements of a prefix extends the prefix over a back-reference. -/
theorem BackReference.take_append_cycle [Inhabited α] {l : List α} (h : BackReference l p d n) :
    l.take p ++ cycle ((l.take p).drop (p - d)) n = l.take (p + n) := by
  obtain ⟨hd, hdp, hn, h⟩ := h
  have hp : (l.take p).length = p := by simp; omega
  apply ext_getElem!
  · simp; omega
  intro i hi
  have hi' : i < p + n := by simpa [hp] using hi
  rw [getElem!_take _ hi']
  by_cases hip : i < p
  · rw [getElem!_append_left _ _ (by omega), getElem!_take _ hip]
  · obtain ⟨j, rfl⟩ := Nat.exists_eq_add_of_le (Nat.le_of_not_gt hip)
    have hlen : ((l.take p).drop (p - d)).length = d := by simp; omega
    have hj : j % d < d := Nat.mod_lt _ hd
    rw [getElem!_append_right _ _ (by omega), hp, Nat.add_sub_cancel_left,
      cycle_getElem! _ (by omega), hlen, getElem!_drop, getElem!_take _ (by omega)]
    exact (getElem!_mod_of_shift l hd hdp h j (by omega)).symm

end ErbslandCore.Library
