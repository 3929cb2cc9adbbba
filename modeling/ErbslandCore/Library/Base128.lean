import ErbslandCore.Library.ByteOrder

namespace ErbslandCore.Library
set_option autoImplicit true

/-- The groups of seven bits of a number without its last one, each with a continuation bit. -/
def continuationGroups (n : Nat) : List UInt8 :=
  if _h : n = 0 then [] else continuationGroups (n / 128) ++ [UInt8.ofNat (128 + n % 128)]
termination_by n
decreasing_by exact Nat.div_lt_self (Nat.pos_of_ne_zero ‹_›) (by decide)

/-- A number in groups of seven bits, the most significant first. -/
def toBase128 (n : Nat) : List UInt8 := continuationGroups (n / 128) ++ [UInt8.ofNat (n % 128)]

/-- Why bytes are no number in groups of seven bits. -/
inductive Base128Error where
  | notMinimal
  | overflow
  | truncated
  deriving DecidableEq

/-- The number below a limit that the groups denote after those read before, and what follows. -/
def readBase128 (limit : Nat) : List UInt8 → Nat → Except Base128Error (Nat × List UInt8)
  | [], _ => .error .truncated
  | byte :: bytes, value =>
    if limit ≤ value * 128 then .error .overflow
    else if byte.toNat < 128 then .ok (value * 128 + byte.toNat, bytes)
    else readBase128 limit bytes (value * 128 + byte.toNat % 128)

/-- The number that bytes start with, which does not start with an empty group. -/
def readMinimalBase128 (limit : Nat) (bytes : List UInt8) :
    Except Base128Error (Nat × List UInt8) :=
  if bytes.head? = some 0x80 then .error .notMinimal else readBase128 limit bytes 0

@[simp] theorem continuationGroups_zero : continuationGroups 0 = [] := by
  rw [continuationGroups, dif_pos rfl]

theorem continuationGroups_append {v : Nat} {byte : UInt8} (hbyte : 128 ≤ byte.toNat)
    (h : v * 128 + byte.toNat % 128 ≠ 0) :
    continuationGroups (v * 128 + byte.toNat % 128) = continuationGroups v ++ [byte] := by
  have hlt := byte.toNat_lt
  rw [continuationGroups, dif_neg h]
  congr 2
  · omega
  · apply UInt8.toNat_inj.1
    rw [UInt8.toNat_ofNat']
    omega

theorem toBase128_ne_nil (n : Nat) : toBase128 n ≠ [] := by
  simp [toBase128]

/-- The first group of a number is not an empty one. -/
theorem head_continuationGroups {n : Nat} {byte : UInt8}
    (h : byte ∈ (continuationGroups n).head?) : byte.toNat % 128 ≠ 0 ∧ 128 ≤ byte.toNat := by
  induction n using Nat.strongRecOn with
  | ind n ih =>
    rw [continuationGroups] at h
    split at h
    next => simp at h
    next hn =>
      by_cases hzero : n / 128 = 0
      · rw [hzero, continuationGroups_zero, List.nil_append, List.head?_cons,
          Option.mem_some_iff] at h
        rw [← h, UInt8.toNat_ofNat']
        omega
      · refine ih (n / 128) (by omega) ?_
        have hne : continuationGroups (n / 128) ≠ [] := by
          rw [continuationGroups, dif_neg hzero]
          simp
        rwa [List.head?_append_of_ne_nil _ hne] at h

theorem readBase128_groups {limit n : Nat} (hn : n < limit) (bytes : List UInt8) :
    readBase128 limit (continuationGroups n ++ bytes) 0 = readBase128 limit bytes n := by
  induction n using Nat.strongRecOn generalizing bytes with
  | ind n ih =>
    rw [continuationGroups]
    split
    next hzero => rw [List.nil_append, hzero]
    next hn' =>
      have hgroup : (UInt8.ofNat (128 + n % 128)).toNat = 128 + n % 128 := by
        rw [UInt8.toNat_ofNat']
        omega
      rw [List.append_assoc, ih (n / 128) (by omega) (by omega), List.singleton_append,
        readBase128, hgroup, if_neg (by omega), if_neg (by omega)]
      congr 1
      omega

/-- The first group of a number is not an empty one. -/
theorem head_toBase128 (n : Nat) (bytes : List UInt8) :
    ∃ first, (toBase128 n ++ bytes).head? = some first ∧ first.toNat ≠ 128 ∧
      (n ≠ 0 → first.toNat % 128 ≠ 0) := by
  have hlast : (UInt8.ofNat (n % 128)).toNat = n % 128 := by
    rw [UInt8.toNat_ofNat']
    omega
  rw [toBase128]
  cases hgroups : continuationGroups (n / 128) with
  | nil =>
    refine ⟨_, rfl, by omega, fun hn => ?_⟩
    have hzero : n / 128 = 0 := by
      by_contra hne
      rw [continuationGroups, dif_neg hne] at hgroups
      simp at hgroups
    omega
  | cons first groups =>
    have hfirst : first.toNat % 128 ≠ 0 ∧ 128 ≤ first.toNat :=
      head_continuationGroups (n := n / 128) (by simp [hgroups])
    exact ⟨first, rfl, by omega, fun _ => hfirst.1⟩

/-- What was written is read back. -/
theorem readMinimalBase128_toBase128 {limit n : Nat} (hn : n < limit) (bytes : List UInt8) :
    readMinimalBase128 limit (toBase128 n ++ bytes) = .ok (n, bytes) := by
  obtain ⟨first, hhead, hne, _⟩ := head_toBase128 n bytes
  have hgroup : (UInt8.ofNat (n % 128)).toNat = n % 128 := by
    rw [UInt8.toNat_ofNat']
    omega
  rw [readMinimalBase128, if_neg, toBase128, List.append_assoc, readBase128_groups (by omega),
    List.singleton_append, readBase128, hgroup, if_neg (by omega), if_pos (by omega)]
  · congr 2
    omega
  · rw [hhead, Option.some_inj]
    rintro rfl
    exact hne rfl

/-- What is read, without empty groups in front, is what would have been written. -/
theorem readBase128_eq_ok {limit v n : Nat} {bytes rest : List UInt8}
    (h : readBase128 limit bytes v = .ok (n, rest))
    (hfirst : v = 0 → ∀ byte ∈ bytes.head?, byte.toNat ≠ 128) :
    ∃ used, bytes = used ++ rest ∧ continuationGroups v ++ used = toBase128 n := by
  induction bytes generalizing v with
  | nil => cases h
  | cons byte bytes ih =>
    have hlt := byte.toNat_lt
    rw [readBase128] at h
    split at h
    next => cases h
    next =>
      split at h
      next hlast =>
        cases h
        refine ⟨[byte], rfl, ?_⟩
        rw [toBase128]
        congr 2
        · omega
        · apply UInt8.toNat_inj.1
          rw [UInt8.toNat_ofNat']
          omega
      next hmore =>
        have hne : v * 128 + byte.toNat % 128 ≠ 0 := by
          by_cases hv : v = 0
          · have := hfirst hv byte rfl
            omega
          · omega
        obtain ⟨used, rfl, hused⟩ := ih h (fun hzero => absurd hzero hne)
        refine ⟨byte :: used, rfl, ?_⟩
        rw [← hused, continuationGroups_append (by omega) hne, List.append_assoc,
          List.singleton_append]

theorem readMinimalBase128_eq_ok {limit n : Nat} {bytes rest : List UInt8}
    (h : readMinimalBase128 limit bytes = .ok (n, rest)) : bytes = toBase128 n ++ rest := by
  rw [readMinimalBase128] at h
  split at h
  next => cases h
  next hfirst =>
    obtain ⟨used, rfl, hused⟩ := readBase128_eq_ok h fun _ byte hbyte heq => hfirst <| by
      rw [hbyte, Option.some_inj]
      exact UInt8.toNat_inj.1 heq
    rw [← hused, continuationGroups_zero, List.nil_append]

end ErbslandCore.Library
