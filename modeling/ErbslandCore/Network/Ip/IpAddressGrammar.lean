import ErbslandCore.Network.Ip.IpAddress
import ErbslandCore.Text.IntegerRoundTrip

namespace ErbslandCore.Network.Ip
open Text.IntegerConversion
open Text (digitValue appendDigits ofDigits)
set_option autoImplicit true

/-- One to four hexadecimal digits. -/
structure HexGroup (g : List Nat) (w : Nat) : Prop where
  length_pos : 1 ≤ g.length
  length_le : g.length ≤ 4
  value : ofDigits 16 g = some w

/-- A decimal number up to 255 without leading zeros. -/
structure DecByte (g : List Nat) (b : Nat) : Prop where
  length_pos : 1 ≤ g.length
  value : ofDigits 10 g = some b
  le : b ≤ 255
  leading : g.head? = some 0x30 → g.length = 1

/-- Numbers with points between them. -/
inductive Dotted : List Nat → List Nat → Prop
  | last (h : DecByte g b) : Dotted g [b]
  | cons (h : DecByte g b) (ht : Dotted t bs) : Dotted (g ++ 0x2E :: t) (b :: bs)

/-- The dotted form of an IPv4 address. -/
def V4Text (t bs : List Nat) : Prop := Dotted t bs ∧ bs.length = 4

/-- Groups with colons between them, where the last piece may be of another kind. -/
inductive Pieces (P : List Nat → Prop) (E : List Nat → List Nat → Prop) : List Nat → List Nat → Prop
  | last (h : E t ws) : Pieces P E t ws
  | cons (h : HexGroup g w) (hp : P g) (ht : Pieces P E t ws) : Pieces P E (g ++ 0x3A :: t) (w :: ws)

/-- The last piece is a group. -/
def HexEnd (P : List Nat → Prop) (t ws : List Nat) : Prop := ∃ w, HexGroup t w ∧ P t ∧ ws = [w]

/-- The last piece is an IPv4 address. -/
def DottedEnd (t ws : List Nat) : Prop := ∃ bs, V4Text t bs ∧ ws = IpAddress.v4Words bs

/-- The last piece is a group or an IPv4 address. -/
def AddressEnd (P : List Nat → Prop) (t ws : List Nat) : Prop := HexEnd P t ws ∨ DottedEnd t ws

/-- The last piece is a group with a colon behind it. -/
def DanglingEnd (P : List Nat → Prop) (t ws : List Nat) : Prop :=
  ∃ g, t = g ++ [0x3A] ∧ HexEnd P g ws

/-- The text of an IPv6 address: eight words, or less with one compression. -/
inductive V6Text (P : List Nat → Prop) (E : List Nat → List Nat → Prop) : List Nat → List Nat → Prop
  | full (h : Pieces P E t ws) (hlength : ws.length = 8) : V6Text P E t ws
  | compressed (hl : l = [] ∧ ls = [] ∨ Pieces P (HexEnd P) l ls)
      (hr : r = [] ∧ rs = [] ∨ Pieces P E r rs) (hlength : ls.length + rs.length ≤ 7) :
      V6Text P E (l ++ 0x3A :: 0x3A :: r)
        (ls ++ List.replicate (8 - (ls.length + rs.length)) 0 ++ rs)

/-- Groups of any digits. -/
def AnyGroup (_ : List Nat) : Prop := True

/-- Groups that do not start like the prefix of a binary number. -/
def PlainGroup (g : List Nat) : Prop :=
  g.head? = some 0x30 → g.tail.head? ≠ some 0x62 ∧ g.tail.head? ≠ some 0x42

/-- The last pieces that the parser accepts. -/
def ParsedEnd (t ws : List Nat) : Prop :=
  AddressEnd PlainGroup t ws ∨ DanglingEnd PlainGroup t ws

section digits
variable {b : Nat}

theorem digitValue_lt (h : digitValue b c = some digit) : digit < b := by
  rw [digitValue] at h
  exact of_decide_eq_true (Option.filter_eq_some_iff.mp h).2

theorem digit_range (h : digitValue b c = some digit) :
    0x30 ≤ c ∧ c ≤ 0x39 ∨ 0x41 ≤ c ∧ c ≤ 0x5A ∨ 0x61 ≤ c ∧ c ≤ 0x7A := by
  rw [digitValue] at h
  have hvalue := (Option.filter_eq_some_iff.mp h).1
  by_contra hnot
  rw [not_or, not_or] at hnot
  have hdigit : ¬ Text.isAsciiDigit c = true := by
    rw [Text.isAsciiDigit, Bool.and_eq_true, decide_eq_true_eq, decide_eq_true_eq]
    exact hnot.1
  rw [if_neg hdigit, if_neg hnot.2.1, if_neg hnot.2.2] at hvalue
  cases hvalue

theorem mul_pow_le_appendDigits (h : appendDigits b start g = some v) :
    start * b ^ g.length ≤ v := by
  induction g generalizing start with
  | nil =>
    cases h
    simp
  | cons c g ih =>
    rw [appendDigits] at h
    obtain ⟨digit, -, h⟩ := Option.bind_eq_some_iff.mp h
    calc start * b ^ (c :: g).length = start * b * b ^ g.length := by
          rw [List.length_cons, Nat.pow_succ, Nat.mul_assoc, Nat.mul_comm b]
      _ ≤ (start * b + digit) * b ^ g.length := Nat.mul_le_mul_right _ (Nat.le_add_right _ _)
      _ ≤ v := ih h

theorem le_of_appendDigits (hb : 0 < b) (h : appendDigits b start g = some v) : start ≤ v :=
  (Nat.le_mul_of_pos_right start (Nat.pow_pos hb)).trans (mul_pow_le_appendDigits h)

theorem appendDigits_lt (h : appendDigits b start g = some v) :
    v < (start + 1) * b ^ g.length := by
  induction g generalizing start with
  | nil =>
    cases h
    simp
  | cons c g ih =>
    rw [appendDigits] at h
    obtain ⟨digit, hdigit, h⟩ := Option.bind_eq_some_iff.mp h
    have hlt := digitValue_lt hdigit
    calc v < (start * b + digit + 1) * b ^ g.length := ih h
      _ ≤ ((start + 1) * b) * b ^ g.length := by
        apply Nat.mul_le_mul_right
        rw [Nat.add_mul, Nat.one_mul]
        omega
      _ = (start + 1) * b ^ (c :: g).length := by
        rw [List.length_cons, Nat.pow_succ, Nat.mul_assoc, Nat.mul_comm b]

theorem ofDigits_lt (h : ofDigits b g = some v) : v < b ^ g.length := by
  have hlt := appendDigits_lt h
  rwa [Nat.zero_add, Nat.one_mul] at hlt

/-- All characters of a number are digits. -/
theorem isSome_of_appendDigits (h : appendDigits b start g = some v) (hc : c ∈ g) :
    (digitValue b c).isSome = true := by
  induction g generalizing start with
  | nil => exact absurd hc List.not_mem_nil
  | cons c' g ih =>
    rw [appendDigits] at h
    obtain ⟨digit, hdigit, h⟩ := Option.bind_eq_some_iff.mp h
    rcases List.mem_cons.mp hc with rfl | hc
    · rw [hdigit]
      rfl
    · exact ih h hc

end digits

/-- The options of the numbers in addresses. -/
def groupOptions (base : IntegerBase) (maximum : Nat) : IntegerParseOptions :=
  { fixedBase := some base, minimumDigits := 1, maximumDigits := some maximum }

/-- What may stand behind a number in an address. -/
def Stops (rest : List Nat) : Prop :=
  rest.head? = none ∨ rest.head? = some 0x2E ∨ rest.head? = some 0x3A

section scan
variable {base : IntegerBase} {maximum : Nat}

theorem digitValue_stop (base : IntegerBase) :
    digitValue base.baseFactor 0x2E = none ∧ digitValue base.baseFactor 0x3A = none := by
  cases base <;> decide

theorem scanDigits_run (position : Nat) (h : appendDigits base.baseFactor result g = some v)
    (hcount : count + g.length ≤ maximum) (hv : v < 2 ^ 64) (hrest : Stops rest) :
    StringCharReader.scanDigits (groupOptions base maximum) base.baseFactor result count false
        position (g ++ rest) =
      .ok (v, count + g.length, false, ⟨position + g.length, rest⟩) := by
  induction g generalizing result count position with
  | nil =>
    cases h
    cases rest with
    | nil => rfl
    | cons c rest =>
      have hc : c = 0x2E ∨ c = 0x3A := by
        rcases hrest with h | h | h
        · cases h
        · exact .inl (Option.some.inj h)
        · exact .inr (Option.some.inj h)
      have hnone : digitValue base.baseFactor c = none := by
        rcases hc with rfl | rfl
        · exact (digitValue_stop base).1
        · exact (digitValue_stop base).2
      have hsignal : ¬ StringCharReader.isSignal c = true := by
        rcases hc with rfl | rfl <;> decide
      rw [List.nil_append, StringCharReader.scanDigits, if_neg (fun h => Bool.false_ne_true h.2),
        if_neg hsignal, if_neg (fun h => Bool.false_ne_true h.1)]
      simp only [hnone, Bool.false_eq_true, if_false]
      rfl
  | cons c g ih =>
    rw [appendDigits] at h
    obtain ⟨digit, hdigit, h⟩ := Option.bind_eq_some_iff.mp h
    have hle := le_of_appendDigits (Nat.zero_lt_of_lt (baseFactor_pos base)) h
    have hrange := digit_range hdigit
    rw [List.length_cons] at hcount
    have hmany : ¬ ((groupOptions base maximum).maximumDigits.any (· ≤ count)) = true := by
      rw [groupOptions, Option.any_some, decide_eq_true_eq]
      omega
    have hsignal : ¬ StringCharReader.isSignal c = true := by
      rw [StringCharReader.isSignal, decide_eq_true_eq]
      omega
    rw [List.cons_append, StringCharReader.scanDigits, if_neg (fun h => Bool.false_ne_true h.2),
      if_neg hsignal, if_neg (fun h => Bool.false_ne_true h.1)]
    simp only [hdigit]
    rw [if_neg hmany, if_neg (by omega), if_neg (by omega), ih _ h (by omega)]
    simp only [List.length_cons, Except.ok.injEq, Prod.mk.injEq, StringCharReader.mk.injEq,
      true_and, and_true]
    omega

theorem scanDigits_sound (hcount : count ≤ maximum)
    (h : StringCharReader.scanDigits (groupOptions base maximum) base.baseFactor result count false
      position t = .ok (v, n, last, behind)) :
    ∃ g, t = g ++ behind.remaining ∧ appendDigits base.baseFactor result g = some v ∧
      n = count + g.length ∧ n ≤ maximum := by
  induction t generalizing result count position with
  | nil =>
    cases h
    exact ⟨[], rfl, rfl, rfl, hcount⟩
  | cons c t ih =>
    rw [StringCharReader.scanDigits, if_neg (fun h => Bool.false_ne_true h.2)] at h
    split at h
    · cases h
    rw [if_neg (fun h => Bool.false_ne_true h.1)] at h
    cases hdigit : digitValue base.baseFactor c with
    | none =>
      simp only [hdigit, Bool.false_eq_true, if_false] at h
      cases h
      exact ⟨[], rfl, rfl, rfl, hcount⟩
    | some digit =>
      simp only [hdigit] at h
      split at h
      · cases h
      · rename_i hmany
        split_ifs at h
        have hmany : ¬ maximum ≤ count := fun hle => hmany (decide_eq_true hle)
        obtain ⟨g, rfl, hvalue, hn, hle⟩ := ih (by omega) h
        refine ⟨c :: g, rfl, ?_, by rw [List.length_cons]; omega, hle⟩
        rw [appendDigits, hdigit]
        exact hvalue

/-- A number of an address, as it is scanned. -/
structure Scanned (base : IntegerBase) (maximum : Nat) (t : List Nat) (result : ReadIntegerResult)
    (rest : List Nat) (g : List Nat) : Prop where
  text : t = g ++ rest
  length_pos : 1 ≤ g.length
  length_le : g.length ≤ maximum
  value : ofDigits base.baseFactor g = some result.value
  digitCount : result.digitCount = g.length
  unprefixed : StringCharReader.prefixedBase ⟨0, t⟩ = none

theorem prefixedBase_position (position : Nat) (t : List Nat) :
    StringCharReader.prefixedBase ⟨position, t⟩ = StringCharReader.prefixedBase ⟨0, t⟩ := by
  rcases t with _ | ⟨c, _ | ⟨d, t⟩⟩ <;> rfl

/-- The scan of a number without a sign and with a fixed base. -/
theorem scanInteger_group (hmax : 1 ≤ maximum) (reader : StringCharReader) :
    reader.scanInteger (groupOptions base maximum) =
      if reader.current = some 0x2D ∨ reader.current = some 0x2B then
        reader.fail .decimal reader.position .parseError
      else if reader.prefixedBase.isSome then
        reader.fail .decimal reader.advance.position .parseError
      else StringCharReader.scanMagnitude (groupOptions base maximum) reader false base reader := by
  have hlimits : ¬ ((groupOptions base maximum).maximumDigits.any
      (· < (groupOptions base maximum).minimumDigits)) = true := by
    rw [groupOptions, Option.any_some, decide_eq_true_eq]
    exact Nat.not_lt.mpr hmax
  rw [StringCharReader.scanInteger, if_neg hlimits]
  by_cases hminus : reader.current = some 0x2D
  · rw [if_pos hminus, if_pos (Or.inl hminus)]
    rfl
  by_cases hplus : reader.current = some 0x2B
  · rw [if_neg hminus, if_pos hplus, if_pos (Or.inr hplus)]
    rfl
  rw [if_neg hminus, if_neg hplus, if_neg (not_or.mpr ⟨hminus, hplus⟩),
    StringCharReader.scanUnsigned]
  cases reader.prefixedBase with
  | some found => rfl
  | none => rfl

theorem fail_status (reader : StringCharReader) (status : ReadNumberStatus) :
    (reader.fail base position status).1.status = status := rfl

theorem scanInteger_sound (hmax : 1 ≤ maximum)
    (h : (StringCharReader.scanInteger (groupOptions base maximum) ⟨position, t⟩) = (result, behind))
    (hstatus : result.status = .success) :
    ∃ g, Scanned base maximum t result behind.remaining g := by
  have hfail (b : IntegerBase) (n : Nat) (status : ReadNumberStatus) (hne : status ≠ .success) :
      StringCharReader.fail ⟨position, t⟩ b n status ≠ (result, behind) := by
    intro heq
    rw [← (Prod.mk.inj heq).1] at hstatus
    exact hne hstatus
  rw [scanInteger_group hmax] at h
  split at h
  · exact absurd h (hfail _ _ _ (by rintro ⟨⟩))
  split at h
  · exact absurd h (hfail _ _ _ (by rintro ⟨⟩))
  rename_i hunprefixed
  rw [prefixedBase_position, Option.not_isSome_iff_eq_none] at hunprefixed
  rw [StringCharReader.scanMagnitude] at h
  split at h
  case h_1 status n hscan =>
    exact absurd h (hfail _ _ _ (StringCharReader.scanDigits_error hscan))
  case h_2 v n last found hscan =>
    obtain ⟨g, htext, hvalue, hcount, hle⟩ := scanDigits_sound (Nat.zero_le _) hscan
    split at h
    · exact absurd h (hfail _ _ _ (by rintro ⟨⟩))
    split at h
    · exact absurd h (hfail _ _ _ (by rintro ⟨⟩))
    split at h
    · exact absurd h (hfail _ _ _ (by rintro ⟨⟩))
    obtain ⟨rfl, rfl⟩ := Prod.mk.inj h
    exact ⟨g, htext, by omega, by omega, hvalue, hcount.trans (Nat.zero_add _), hunprefixed⟩

variable (base) in
/-- A number with an end that may stand there is scanned whole. -/
theorem scanInteger_complete (hmax : 1 ≤ maximum) (hle : maximum ≤ 4)
    (hlength : 1 ≤ g.length ∧ g.length ≤ maximum) (hvalue : ofDigits base.baseFactor g = some v)
    (hrest : Stops rest) (hplain : StringCharReader.prefixedBase ⟨0, g ++ rest⟩ = none) :
    StringCharReader.scanInteger (groupOptions base maximum) ⟨position, g ++ rest⟩ =
      ({ value := v, digitCount := g.length, isNegative := false, base, position,
         status := .success }, ⟨position + g.length, rest⟩) := by
  have hlt : v < 2 ^ 64 := by
    calc v < base.baseFactor ^ g.length := ofDigits_lt hvalue
      _ ≤ 16 ^ g.length := Nat.pow_le_pow_left (baseFactor_le base) _
      _ ≤ 16 ^ 4 := Nat.pow_le_pow_right (by decide) (by omega)
      _ < 2 ^ 64 := by decide
  have hsign : ¬ (StringCharReader.current ⟨position, g ++ rest⟩ = some 0x2D ∨
      StringCharReader.current ⟨position, g ++ rest⟩ = some 0x2B) := by
    cases g with
    | nil => exact absurd hlength.1 (by decide)
    | cons c g =>
      obtain ⟨digit, hdigit⟩ := Option.isSome_iff_exists.mp
        (isSome_of_appendDigits hvalue List.mem_cons_self)
      have hrange := digit_range hdigit
      have hcurrent : StringCharReader.current ⟨position, c :: g ++ rest⟩ = some c := rfl
      rw [hcurrent, Option.some.injEq, Option.some.injEq]
      omega
  have hcount : 0 + g.length ≤ maximum := (Nat.zero_add _).trans_le hlength.2
  have hscan := scanDigits_run position hvalue hcount hlt hrest
  rw [Nat.zero_add] at hscan
  have hfew : ¬ g.length < (groupOptions base maximum).minimumDigits := Nat.not_lt.mpr hlength.1
  have hsome : ¬ (none : Option IntegerBase).isSome = true := Bool.false_ne_true
  rw [scanInteger_group hmax, if_neg hsign, prefixedBase_position, hplain, if_neg hsome,
    StringCharReader.scanMagnitude]
  simp only [hscan, Bool.false_eq_true, if_false, if_neg (Nat.one_le_iff_ne_zero.mp hlength.1),
    if_neg hfew]

end scan

/-- Whether a group looks like a prefix. -/
theorem prefixedBase_group (hvalue : ofDigits 16 g = some v) (hne : 1 ≤ g.length)
    (hrest : Stops rest) :
    StringCharReader.prefixedBase ⟨0, g ++ rest⟩ = none ↔ PlainGroup g := by
  cases g with
  | nil => exact absurd hne (by decide)
  | cons c g =>
    rw [StringCharReader.prefixedBase, PlainGroup, List.head?_cons]
    have hcurrent : StringCharReader.current ⟨0, c :: g ++ rest⟩ = some c := rfl
    by_cases hc : c = 0x30
    · rw [hcurrent, if_pos (congrArg some hc), forall_prop_of_true (congrArg some hc), List.tail_cons]
      cases g with
      | nil =>
        refine iff_of_true ?_ ⟨by rintro ⟨⟩, by rintro ⟨⟩⟩
        have hnext : (StringCharReader.advance ⟨0, [c] ++ rest⟩).current = rest.head? := rfl
        rw [hnext]
        rcases hrest with h | h | h <;> rw [h] <;> rfl
      | cons d g =>
        have hnext : (StringCharReader.advance ⟨0, c :: d :: g ++ rest⟩).current = some d := rfl
        have hdigit := isSome_of_appendDigits hvalue (List.mem_cons_of_mem c List.mem_cons_self)
        have hnot (c' : Nat) (h : digitValue 16 c' = none) : d ≠ c' := by
          rintro rfl
          rw [h] at hdigit
          cases hdigit
        have hx := hnot 0x78 (by decide)
        have hX := hnot 0x58 (by decide)
        have ho := hnot 0x6F (by decide)
        have hO := hnot 0x4F (by decide)
        rw [hnext, Option.bind_some, IntegerBase.fromPrefixChar, if_neg (not_or.mpr ⟨hx, hX⟩),
          if_neg (not_or.mpr ⟨ho, hO⟩), List.head?_cons, ne_eq, ne_eq, Option.some.injEq,
          Option.some.injEq, ← not_or]
        split_ifs with hb
        · exact iff_of_false (by rintro ⟨⟩) (not_not.mpr hb)
        · exact iff_of_true rfl hb
    · have hne : ¬ some c = some 0x30 := fun h => hc (Option.some.inj h)
      rw [hcurrent, if_neg hne]
      exact iff_of_true rfl fun h => absurd h hne

/-- A decimal number up to 255 without leading zeros has at most three digits. -/
theorem DecByte.length_le (h : DecByte g b) : g.length ≤ 3 := by
  by_contra hlong
  rw [not_le] at hlong
  cases g with
  | nil => exact absurd hlong (by decide)
  | cons c g =>
    rw [List.length_cons] at hlong
    have hc : c ≠ 0x30 := by
      intro hc
      have hone := h.leading (congrArg some hc)
      rw [List.length_cons] at hone
      omega
    have hvalue := h.value
    rw [ofDigits, appendDigits] at hvalue
    obtain ⟨digit, hdigit, hvalue⟩ := Option.bind_eq_some_iff.mp hvalue
    have hpos : 1 ≤ digit := by
      have hrange := digit_range hdigit
      have hlt := digitValue_lt hdigit
      rw [digitValue] at hdigit
      have hsome := (Option.filter_eq_some_iff.mp hdigit).1
      split_ifs at hsome with h₁ h₂ h₃ <;> cases hsome
      · rw [Text.isAsciiDigit, Bool.and_eq_true, decide_eq_true_eq, decide_eq_true_eq] at h₁
        omega
      · omega
      · omega
    have hge := mul_pow_le_appendDigits hvalue
    have hpow : 10 ^ 3 ≤ 10 ^ g.length := Nat.pow_le_pow_right (by decide) (by omega)
    have hmul := Nat.mul_le_mul_right (10 ^ g.length) hpos
    have hle := h.le
    rw [Nat.zero_mul, Nat.zero_add] at hge
    omega

theorem stops_nil : Stops [] := .inl rfl

theorem stops_point (rest : List Nat) : Stops (0x2E :: rest) := .inr (.inl rfl)

theorem stops_colon (rest : List Nat) : Stops (0x3A :: rest) := .inr (.inr rfl)

theorem Scanned.head? (h : Scanned base maximum t result rest g) : g.head? = t.head? := by
  rw [h.text]
  cases g with
  | nil => exact absurd h.length_pos (by decide)
  | cons c g => rfl

theorem appendDigits_isSome (h : ∀ c ∈ g, (digitValue b c).isSome = true) (start : Nat) :
    ∃ v, appendDigits b start g = some v := by
  induction g generalizing start with
  | nil => exact ⟨start, rfl⟩
  | cons c g ih =>
    obtain ⟨digit, hdigit⟩ := Option.isSome_iff_exists.mp (h c List.mem_cons_self)
    obtain ⟨v, hv⟩ := ih (fun d hd => h d (List.mem_cons_of_mem c hd)) (start * b + digit)
    exact ⟨v, by rw [appendDigits, hdigit]; exact hv⟩

/-- A decimal number is scanned as a group before the point behind it is seen. -/
theorem DecByte.hexGroup (h : DecByte g b) : (∃ w, HexGroup g w) ∧ PlainGroup g := by
  have hdigits : ∀ c ∈ g, (digitValue 16 c).isSome = true := by
    intro c hc
    obtain ⟨digit, hdigit⟩ := Option.isSome_iff_exists.mp (isSome_of_appendDigits h.value hc)
    rw [digitValue] at hdigit ⊢
    obtain ⟨hsome, hlt⟩ := Option.filter_eq_some_iff.mp hdigit
    have hlt : digit < 10 := of_decide_eq_true hlt
    rw [hsome, Option.filter_some, if_pos (decide_eq_true (by omega))]
    rfl
  obtain ⟨w, hw⟩ := appendDigits_isSome hdigits 0
  refine ⟨⟨w, h.length_pos, h.length_le.trans (by decide), hw⟩, fun hhead => ?_⟩
  obtain ⟨c, rfl⟩ := List.length_eq_one_iff.mp (h.leading hhead)
  exact ⟨nofun, nofun⟩

namespace IpAddress

theorem v4Scan_sound {position : Nat}
    (h : StringCharReader.scanInteger v4Options ⟨position, t⟩ = (result, behind))
    (hgood : ¬ (result.status ≠ .success ∨ 255 < result.value ∨
      1 < result.digitCount ∧ StringCharReader.current ⟨position, t⟩ = some 0x30)) :
    ∃ g, DecByte g result.value ∧ t = g ++ behind.remaining := by
  rw [not_or, not_or, not_not, not_lt, not_and] at hgood
  obtain ⟨hstatus, hle, hleading⟩ := hgood
  obtain ⟨g, hg⟩ := scanInteger_sound (by decide) h hstatus
  refine ⟨g, ⟨hg.length_pos, hg.value, hle, fun hhead => ?_⟩, hg.text⟩
  have hone : ¬ 1 < result.digitCount := fun hlt => hleading hlt (hg.head?.symm.trans hhead)
  rw [hg.digitCount] at hone
  exact Nat.le_antisymm (not_lt.mp hone) hg.length_pos

theorem v4Scan_complete (h : DecByte g b) (hrest : Stops rest) (position : Nat) :
    ∃ result, StringCharReader.scanInteger v4Options ⟨position, g ++ rest⟩ =
        (result, ⟨position + g.length, rest⟩) ∧ result.value = b ∧
      ¬ (result.status ≠ .success ∨ 255 < result.value ∨
        1 < result.digitCount ∧ StringCharReader.current ⟨position, g ++ rest⟩ = some 0x30) := by
  obtain ⟨⟨w, hw⟩, hplain⟩ := h.hexGroup
  have hunprefixed := (prefixedBase_group hw.value h.length_pos hrest).mpr hplain
  refine ⟨_, scanInteger_complete .decimal (by decide) (by decide)
    ⟨h.length_pos, h.length_le⟩ h.value hrest hunprefixed, rfl, ?_⟩
  rw [not_or, not_or, not_not, not_lt, not_and]
  refine ⟨rfl, h.le, fun hlong hcurrent => ?_⟩
  have hhead : g.head? = some 0x30 := by
    cases g with
    | nil => exact absurd h.length_pos (by decide)
    | cons c g => exact hcurrent
  exact absurd (h.leading hhead) (Nat.ne_of_gt hlong)

theorem v6Scan_sound {position : Nat}
    (h : StringCharReader.scanInteger v6Options ⟨position, t⟩ = (result, behind))
    (hstatus : result.status = .success) (hrest : Stops behind.remaining) :
    ∃ g, HexGroup g result.value ∧ PlainGroup g ∧ t = g ++ behind.remaining := by
  obtain ⟨g, hg⟩ := scanInteger_sound (by decide) h hstatus
  have hunprefixed := hg.unprefixed
  rw [hg.text] at hunprefixed
  exact ⟨g, ⟨hg.length_pos, hg.length_le, hg.value⟩,
    (prefixedBase_group hg.value hg.length_pos hrest).mp hunprefixed, hg.text⟩

theorem v6Scan_complete (h : HexGroup g w) (hplain : PlainGroup g) (hrest : Stops rest)
    (position : Nat) : ∃ result, StringCharReader.scanInteger v6Options ⟨position, g ++ rest⟩ =
        (result, ⟨position + g.length, rest⟩) ∧ result.value = w ∧ result.status = .success :=
  ⟨_, scanInteger_complete .hexadecimal (by decide) (by decide)
    ⟨h.length_pos, h.length_le⟩ h.value hrest
    ((prefixedBase_group h.value h.length_pos hrest).mpr hplain), rfl, rfl⟩

theorem parseV4From_sound {left position : Nat} (h : parseV4From left ⟨position, t⟩ = some bs) :
    Dotted t bs ∧ bs.length = left + 1 := by
  induction left generalizing position t bs with
  | zero =>
    rw [parseV4From] at h
    obtain ⟨result, behind, hscan⟩ : ∃ result behind,
        StringCharReader.scanInteger v4Options ⟨position, t⟩ = (result, behind) := ⟨_, _, rfl⟩
    simp only [hscan] at h
    split_ifs at h with hbad hend
    cases h
    obtain ⟨g, hbyte, htext⟩ := v4Scan_sound hscan hbad
    rw [htext, hend, List.append_nil]
    exact ⟨.last hbyte, rfl⟩
  | succ left ih =>
    rw [parseV4From] at h
    obtain ⟨result, behind, hscan⟩ : ∃ result behind,
        StringCharReader.scanInteger v4Options ⟨position, t⟩ = (result, behind) := ⟨_, _, rfl⟩
    simp only [hscan] at h
    split_ifs at h with hbad hpoint
    obtain ⟨g, hbyte, htext⟩ := v4Scan_sound hscan hbad
    obtain ⟨n, rest⟩ := behind
    cases rest with
    | nil => cases hpoint
    | cons c rest =>
      obtain rfl : c = 0x2E := Option.some.inj hpoint
      obtain ⟨others, hothers, rfl⟩ := Option.map_eq_some_iff.mp h
      obtain ⟨hdotted, hlength⟩ := ih hothers
      rw [htext]
      exact ⟨.cons hbyte hdotted, by rw [List.length_cons, hlength]⟩

theorem parseV4From_complete {left : Nat} (h : Dotted t bs) (hlength : bs.length = left + 1)
    (position : Nat) : parseV4From left ⟨position, t⟩ = some bs := by
  induction h generalizing left position with
  | @last g b hbyte =>
    obtain rfl : left = 0 := by simpa using hlength.symm
    obtain ⟨result, hscan, rfl, hgood⟩ := v4Scan_complete hbyte stops_nil position
    rw [List.append_nil] at hscan hgood
    rw [parseV4From, hscan]
    simp only [if_neg hgood, if_true]
  | @cons g b t bs hbyte ht ih =>
    cases left with
    | zero =>
      rw [List.length_cons] at hlength
      cases ht <;> simp at hlength
    | succ left =>
      obtain ⟨result, hscan, rfl, hgood⟩ := v4Scan_complete hbyte (stops_point t) position
      have hnext : StringCharReader.advance ⟨position + g.length, 0x2E :: t⟩ =
          ⟨position + g.length + 1, t⟩ := rfl
      have hcurrent : StringCharReader.current ⟨position + g.length, 0x2E :: t⟩ = some 0x2E := rfl
      rw [parseV4From, hscan]
      simp only [if_neg hgood, hcurrent, if_true, hnext]
      rw [ih (by simpa using hlength)]
      rfl

theorem parseV4_iff (position : Nat) (t bs : List Nat) :
    parseV4 ⟨position, t⟩ = some bs ↔ V4Text t bs :=
  ⟨parseV4From_sound, fun h => parseV4From_complete h.1 h.2 position⟩

/-- All or a part of the groups that the loop reads after a compression. -/
def Rest (t ws : List Nat) : Prop := t = [] ∧ ws = [] ∨ Pieces PlainGroup ParsedEnd t ws

theorem parseGroups_sound {position : Nat}
    (h : parseGroups fuel words compression ⟨position, t⟩ = some (words', compression')) :
    (compression' = compression ∧ ∃ ws, words' = words ++ ws ∧ Rest t ws) ∨
    (compression = none ∧ ∃ l ls r rs, t = l ++ 0x3A :: 0x3A :: r ∧
      Pieces PlainGroup (HexEnd PlainGroup) l ls ∧ Rest r rs ∧ words' = words ++ (ls ++ rs) ∧
      compression' = some (words.length + ls.length)) := by
  induction fuel generalizing words compression position t with
  | zero => cases h
  | succ fuel ih =>
    rw [parseGroups] at h
    obtain ⟨result, behind, hscan⟩ : ∃ result behind,
        StringCharReader.scanInteger v6Options ⟨position, t⟩ = (result, behind) := ⟨_, _, rfl⟩
    obtain ⟨n, rest⟩ := behind
    simp only [hscan] at h
    split_ifs at h with hnil hmany hstatus hpoint hsix hend hcolon hdouble hsome
    · -- The end of the text.
      cases h
      exact .inl ⟨rfl, [], (List.append_nil _).symm, .inl ⟨hnil, rfl⟩⟩
    · -- An IPv4 address.
      obtain ⟨bs, hbs, heq⟩ := Option.map_eq_some_iff.mp h
      cases heq
      exact .inl ⟨rfl, v4Words bs, rfl,
        .inr (.last (.inl (.inr ⟨bs, (parseV4_iff position t bs).mp hbs, rfl⟩)))⟩
    · -- The last group.
      cases h
      obtain ⟨g, hgroup, hplain, htext⟩ := v6Scan_sound hscan (not_not.mp hstatus) (.inl (by
        rw [hend]
        rfl))
      have hend : rest = [] := hend
      rw [hend, List.append_nil] at htext
      rw [htext]
      exact .inl ⟨rfl, [result.value], rfl, .inr (.last (.inl (.inl ⟨_, hgroup, hplain, rfl⟩)))⟩
    · -- A compression.
      obtain ⟨g, hgroup, hplain, htext⟩ := v6Scan_sound hscan (not_not.mp hstatus) (.inr (.inr hcolon))
      obtain ⟨r, rfl⟩ : ∃ r, rest = 0x3A :: 0x3A :: r := by
        rcases rest with _ | ⟨c, _ | ⟨d, r⟩⟩
        · cases hcolon
        · cases hdouble
        · obtain rfl : c = 0x3A := Option.some.inj hcolon
          obtain rfl : d = 0x3A := Option.some.inj hdouble
          exact ⟨r, rfl⟩
      have hnone : compression = none := Option.not_isSome_iff_eq_none.mp hsome
      rcases ih h with ⟨hcompression, rs, hwords, hr⟩ | ⟨hfalse, -⟩
      · refine .inr ⟨hnone, g, [result.value], r, rs, htext, .last ⟨_, hgroup, hplain, rfl⟩, hr,
          ?_, hcompression⟩
        rw [hwords, List.append_assoc]
      · cases hfalse
    · -- A colon before the next group.
      obtain ⟨g, hgroup, hplain, htext⟩ := v6Scan_sound hscan (not_not.mp hstatus) (.inr (.inr hcolon))
      obtain ⟨t', rfl⟩ : ∃ t', rest = 0x3A :: t' := by
        cases rest with
        | nil => cases hcolon
        | cons c t' =>
          obtain rfl : c = 0x3A := Option.some.inj hcolon
          exact ⟨t', rfl⟩
      have htext : t = g ++ 0x3A :: t' := htext
      rcases ih h with ⟨hcompression, ws, hwords, hrest⟩ | ⟨hnone, l, ls, r, rs, ht', hl, hr, hwords, hcompression⟩
      · refine .inl ⟨hcompression, result.value :: ws, ?_, .inr ?_⟩
        · rw [hwords, List.append_assoc]
          rfl
        · rcases hrest with ⟨rfl, rfl⟩ | hpieces
          · exact .last (.inr ⟨g, htext, _, hgroup, hplain, rfl⟩)
          · rw [htext]
            exact .cons hgroup hplain hpieces
      · refine .inr ⟨hnone, g ++ 0x3A :: l, result.value :: ls, r, rs, ?_, .cons hgroup hplain hl, hr,
          ?_, ?_⟩
        · rw [htext, ht', List.append_assoc]
          rfl
        · rw [hwords, List.append_assoc]
          rfl
        · rw [hcompression, List.length_append, List.length_cons, List.length_cons, List.length_nil,
            Nat.add_assoc, Nat.add_comm 1]

section steps
variable {position fuel : Nat} {words : List Nat} {compression : Option Nat}

/-- The state of the loop behind a group. -/
theorem parseGroups_group (hgroup : HexGroup g w) (hplain : PlainGroup g) (hrest : Stops rest)
    (hcount : words.length < 8) :
    parseGroups (fuel + 1) words compression ⟨position, g ++ rest⟩ =
      if rest.head? = some 0x2E then
        if 6 < words.length then none
        else (fun bytes => (words ++ v4Words bytes, compression)) <$>
          parseV4 ⟨position, g ++ rest⟩
      else if rest = [] then some (words ++ [w], compression)
      else if rest.head? = some 0x3A then
        if rest.tail.head? = some 0x3A then
          if compression.isSome then none
          else parseGroups fuel (words ++ [w]) (some (words.length + 1))
            ⟨position + g.length + 2, rest.tail.tail⟩
        else parseGroups fuel (words ++ [w]) compression ⟨position + g.length + 1, rest.tail⟩
      else none := by
  obtain ⟨result, hscan, rfl, hstatus⟩ := v6Scan_complete hgroup hplain hrest position
  have hne : g ++ rest ≠ [] := by
    have hpos := hgroup.length_pos
    intro hnil
    rw [(List.append_eq_nil_iff.mp hnil).1] at hpos
    exact absurd hpos (by decide)
  rw [parseGroups, if_neg hne, if_neg (not_le.mpr hcount), hscan]
  simp only [hstatus, ne_eq, not_true_eq_false, if_false]
  rcases rest with _ | ⟨c, _ | ⟨d, rest⟩⟩ <;> rfl

theorem parseGroups_point (hgroup : HexGroup g w) (hplain : PlainGroup g)
    (hcount : words.length ≤ 6) :
    parseGroups (fuel + 1) words compression ⟨position, g ++ 0x2E :: rest⟩ =
      (fun bytes => (words ++ v4Words bytes, compression)) <$>
        parseV4 ⟨position, g ++ 0x2E :: rest⟩ := by
  rw [parseGroups_group hgroup hplain (stops_point rest) (by omega), List.head?_cons, if_pos rfl,
    if_neg (not_lt.mpr hcount)]

theorem parseGroups_colon (hgroup : HexGroup g w) (hplain : PlainGroup g)
    (hcount : words.length < 8) (hnext : rest.head? ≠ some 0x3A) :
    parseGroups (fuel + 1) words compression ⟨position, g ++ 0x3A :: rest⟩ =
      parseGroups fuel (words ++ [w]) compression ⟨position + g.length + 1, rest⟩ := by
  rw [parseGroups_group hgroup hplain (stops_colon rest) hcount, List.head?_cons, if_neg nofun,
    if_neg (List.cons_ne_nil _ _), if_pos rfl, List.tail_cons, if_neg hnext]

theorem parseGroups_double (hgroup : HexGroup g w) (hplain : PlainGroup g)
    (hcount : words.length < 8) :
    parseGroups (fuel + 1) words none ⟨position, g ++ 0x3A :: 0x3A :: rest⟩ =
      parseGroups fuel (words ++ [w]) (some (words.length + 1)) ⟨position + g.length + 2, rest⟩ := by
  rw [parseGroups_group hgroup hplain (stops_colon _) hcount, List.head?_cons, if_neg nofun,
    if_neg (List.cons_ne_nil _ _), if_pos rfl, List.tail_cons, List.head?_cons, if_pos rfl,
    if_neg (by exact Bool.false_ne_true), List.tail_cons]

end steps

end IpAddress

/-- A text starts with another character than a colon. -/
def StartsPiece (t : List Nat) : Prop := ∃ c, t.head? = some c ∧ c ≠ 0x3A

theorem startsPiece_of_digits {b : Nat} (hvalue : ofDigits b g = some v) (hne : 1 ≤ g.length)
    (rest : List Nat) : StartsPiece (g ++ rest) := by
  cases g with
  | nil => exact absurd hne (by decide)
  | cons c g =>
    obtain ⟨digit, hdigit⟩ := Option.isSome_iff_exists.mp
      (isSome_of_appendDigits hvalue List.mem_cons_self)
    have hrange := digit_range hdigit
    exact ⟨c, rfl, by omega⟩

theorem HexGroup.startsPiece (h : HexGroup g w) (rest : List Nat) : StartsPiece (g ++ rest) :=
  startsPiece_of_digits h.value h.length_pos rest

theorem HexEnd.startsPiece (h : HexEnd P t ws) : StartsPiece t := by
  obtain ⟨w, hgroup, -, -⟩ := h
  have hstart := hgroup.startsPiece []
  rwa [List.append_nil] at hstart

theorem Dotted.startsPiece (h : Dotted t bs) : StartsPiece t := by
  cases h with
  | last h =>
    have hstart := startsPiece_of_digits h.value h.length_pos []
    rwa [List.append_nil] at hstart
  | cons h ht => exact startsPiece_of_digits h.value h.length_pos _

theorem AddressEnd.startsPiece (h : AddressEnd P t ws) : StartsPiece t := by
  rcases h with h | ⟨bs, h, -⟩
  · exact h.startsPiece
  · exact h.1.startsPiece

theorem ParsedEnd.startsPiece (h : ParsedEnd t ws) : StartsPiece t := by
  rcases h with h | ⟨g, rfl, w, hgroup, -, -⟩
  · exact h.startsPiece
  · exact hgroup.startsPiece _

theorem Pieces.startsPiece (hE : ∀ t ws, E t ws → StartsPiece t) (h : Pieces P E t ws) :
    StartsPiece t := by
  cases h with
  | last h => exact hE _ _ h
  | cons hgroup hp ht => exact hgroup.startsPiece _

theorem length_v4Words (h : bs.length = 4) : (IpAddress.v4Words bs).length = 2 := by
  match bs, h with
  | [_, _, _, _], _ => rfl

namespace IpAddress

theorem parseGroups_complete {words : List Nat} (h : Pieces PlainGroup ParsedEnd t ws)
    (hcount : words.length + ws.length ≤ 8) (hfuel : t.length < fuel) (position : Nat) :
    parseGroups fuel words compression ⟨position, t⟩ = some (words ++ ws, compression) := by
  induction h generalizing words fuel position with
  | last h =>
    obtain ⟨fuel, rfl⟩ := Nat.exists_eq_succ_of_ne_zero (Nat.ne_of_gt (Nat.zero_lt_of_lt hfuel))
    rcases h with (⟨w, hgroup, hplain, rfl⟩ | ⟨bs, hbs, rfl⟩) | ⟨g, rfl, w, hgroup, hplain, rfl⟩
    · -- The last group.
      have hstep : parseGroups (fuel + 1) words compression ⟨position, _ ++ []⟩ = _ :=
        parseGroups_group hgroup hplain stops_nil (by simpa using hcount)
      rw [List.append_nil] at hstep
      exact hstep
    · -- An IPv4 address.
      obtain ⟨hdotted, hlength⟩ := id hbs
      rw [length_v4Words hlength] at hcount
      cases hdotted with
      | last => cases hlength
      | @cons g b t bs hbyte ht =>
        obtain ⟨⟨w, hgroup⟩, hplain⟩ := hbyte.hexGroup
        rw [Nat.succ_eq_add_one, parseGroups_point hgroup hplain (by omega),
          (parseV4_iff position _ _).mpr hbs]
        rfl
    · -- A colon that nothing follows.
      have hend : ([] : List Nat).head? ≠ some 0x3A := by decide
      rw [Nat.succ_eq_add_one, parseGroups_colon hgroup hplain (by simpa using hcount) hend]
      obtain ⟨fuel, rfl⟩ : ∃ n, fuel = n + 1 := by
        rw [List.length_append, List.length_singleton] at hfuel
        have hpos := hgroup.length_pos
        exact ⟨fuel - 1, by omega⟩
      rfl
  | @cons g w t ws hgroup hplain ht ih =>
    obtain ⟨fuel, rfl⟩ := Nat.exists_eq_succ_of_ne_zero (Nat.ne_of_gt (Nat.zero_lt_of_lt hfuel))
    obtain ⟨c, hhead, hc⟩ := ht.startsPiece fun _ _ h => h.startsPiece
    rw [List.length_cons] at hcount
    rw [List.length_append, List.length_cons] at hfuel
    have hcolon : t.head? ≠ some 0x3A := by
      rw [hhead, ne_eq, Option.some.injEq]
      exact hc
    rw [Nat.succ_eq_add_one, parseGroups_colon hgroup hplain (by omega) hcolon,
      ih (by rw [List.length_append, List.length_singleton]; omega) (by omega), List.append_assoc]
    rfl

theorem parseGroups_rest {words : List Nat} (h : Rest t ws) (hcount : words.length + ws.length ≤ 8)
    (hfuel : t.length < fuel) (position : Nat) :
    parseGroups fuel words compression ⟨position, t⟩ = some (words ++ ws, compression) := by
  rcases h with ⟨rfl, rfl⟩ | h
  · obtain ⟨fuel, rfl⟩ := Nat.exists_eq_succ_of_ne_zero (Nat.ne_of_gt hfuel)
    rw [List.append_nil]
    rfl
  · exact parseGroups_complete h hcount hfuel position

/-- A text with a compression behind some groups. -/
theorem parseGroups_compressed {words : List Nat} (hl : Pieces PlainGroup (HexEnd PlainGroup) l ls)
    (hr : Rest r rs) (hcount : words.length + (ls.length + rs.length) ≤ 8)
    (hfuel : (l ++ 0x3A :: 0x3A :: r).length < fuel) (position : Nat) :
    parseGroups fuel words none ⟨position, l ++ 0x3A :: 0x3A :: r⟩ =
      some (words ++ (ls ++ rs), some (words.length + ls.length)) := by
  induction hl generalizing words fuel position with
  | @last g ls h =>
    obtain ⟨w, hgroup, hplain, rfl⟩ := h
    obtain ⟨fuel, rfl⟩ := Nat.exists_eq_succ_of_ne_zero (Nat.ne_of_gt (Nat.zero_lt_of_lt hfuel))
    rw [List.length_singleton] at hcount
    rw [List.length_append, List.length_cons, List.length_cons] at hfuel
    rw [Nat.succ_eq_add_one, parseGroups_double hgroup hplain (by omega), parseGroups_rest hr
      (by rw [List.length_append, List.length_singleton]; omega) (by omega), List.append_assoc]
    rfl
  | @cons g w l ls hgroup hplain hl ih =>
    obtain ⟨fuel, rfl⟩ := Nat.exists_eq_succ_of_ne_zero (Nat.ne_of_gt (Nat.zero_lt_of_lt hfuel))
    obtain ⟨c, hhead, hc⟩ := hl.startsPiece fun _ _ h => h.startsPiece
    rw [List.length_cons] at hcount
    rw [List.append_assoc, List.length_append, List.cons_append, List.length_cons] at hfuel
    have hcolon : (l ++ 0x3A :: 0x3A :: r).head? ≠ some 0x3A := by
      rw [List.head?_append, hhead, Option.some_or, ne_eq, Option.some.injEq]
      exact hc
    rw [List.append_assoc, List.cons_append, Nat.succ_eq_add_one,
      parseGroups_colon hgroup hplain (by omega) hcolon,
      ih (by rw [List.length_append, List.length_singleton]; omega) (by omega), List.append_assoc,
      List.length_append, List.length_singleton, List.length_cons, Nat.add_assoc, Nat.add_comm 1]
    rfl

/-- The words around a compression, with zeros between them. -/
theorem expandWords_compressed (h : ls.length + rs.length ≤ 7) :
    expandWords (ls ++ rs) (some ls.length) =
      some (ls ++ List.replicate (8 - (ls.length + rs.length)) 0 ++ rs) := by
  have hlength : ¬ 8 ≤ (ls ++ rs).length := by
    rw [List.length_append]
    omega
  rw [expandWords, if_neg hlength]
  refine congrArg some (List.ext_getElem ?_ fun index h₁ h₂ => ?_)
  · simp only [List.length_map, List.length_range, List.length_append, List.length_replicate]
    omega
  · simp only [List.length_map, List.length_range] at h₁
    simp only [List.getElem_map, List.getElem_range, List.length_append, List.append_assoc]
    split_ifs with hleft hright
    · rw [List.getElem?_append_left hleft, List.getElem_append_left hleft,
        List.getElem?_eq_getElem hleft, Option.getD_some]
    · rw [List.getElem?_append_right (by omega), List.getElem_append_right (by omega),
        List.getElem_append_right (by rw [List.length_replicate]; omega),
        List.getElem?_eq_getElem (by omega), Option.getD_some]
      simp only [List.length_replicate]
      congr 1
      omega
    · rw [List.getElem_append_right (by omega),
        List.getElem_append_left (by rw [List.length_replicate]; omega), List.getElem_replicate]

/-- The parser accepts the texts of addresses whose groups do not look like prefixes, also with one
colon too much. -/
theorem parseV6_iff (position : Nat) (t ws : List Nat) :
    parseV6 ⟨position, t⟩ = some ws ↔ V6Text PlainGroup ParsedEnd t ws := by
  rw [parseV6]
  constructor
  · intro h
    obtain ⟨⟨words, compression⟩, hgroups, hexpand⟩ := Option.bind_eq_some_iff.mp h
    rw [readGroups] at hgroups
    simp only at hgroups
    split_ifs at hgroups with hcolon hdouble
    · -- A compression at the start.
      obtain ⟨r, rfl⟩ : ∃ r, t = 0x3A :: 0x3A :: r := by
        rcases t with _ | ⟨c, _ | ⟨d, r⟩⟩
        · cases hcolon
        · cases hdouble
        · obtain rfl : c = 0x3A := Option.some.inj hcolon
          obtain rfl : d = 0x3A := Option.some.inj hdouble
          exact ⟨r, rfl⟩
      rcases parseGroups_sound hgroups with ⟨rfl, rs, hwords, hr⟩ | ⟨hfalse, -⟩
      · obtain rfl : words = rs := hwords
        simp only [expandWords] at hexpand
        split_ifs at hexpand with hmany
        have hle : ([] : List Nat).length + words.length ≤ 7 := by
          rw [List.length_nil]
          omega
        have hcompressed := V6Text.compressed (P := PlainGroup) (.inl ⟨rfl, rfl⟩) hr hle
        have heq := expandWords_compressed hle
        rw [List.nil_append, expandWords, if_neg hmany] at heq
        rw [← Option.some.inj (hexpand.symm.trans heq)] at hcompressed
        exact hcompressed
      · cases hfalse
    · rcases parseGroups_sound hgroups with
        ⟨rfl, ws', hwords, hrest⟩ | ⟨-, l, ls, r, rs, rfl, hl, hr, hwords, rfl⟩
      · obtain rfl : words = ws' := hwords
        simp only [expandWords] at hexpand
        split_ifs at hexpand with height
        cases hexpand
        rcases hrest with ⟨-, rfl⟩ | hpieces
        · cases height
        · exact .full hpieces height
      · obtain rfl : words = ls ++ rs := hwords
        rw [List.length_nil, Nat.zero_add] at hexpand
        have hle : ls.length + rs.length ≤ 7 := by
          rw [expandWords] at hexpand
          simp only at hexpand
          split_ifs at hexpand with hmany
          rw [List.length_append] at hmany
          omega
        rw [expandWords_compressed hle] at hexpand
        cases hexpand
        exact .compressed (.inr hl) hr hle
  · intro h
    cases h with
    | full hpieces height =>
      obtain ⟨c, hhead, hc⟩ := hpieces.startsPiece fun _ _ h => h.startsPiece
      have hcolon : ¬ StringCharReader.current ⟨position, t⟩ = some 0x3A := by
        rw [StringCharReader.current, hhead, Option.some.injEq]
        exact hc
      have hgroups : parseGroups (t.length + 1) [] none ⟨position, t⟩ = some ([] ++ ws, none) :=
        parseGroups_complete hpieces (by rw [height]; decide) (Nat.lt_succ_self _) position
      rw [readGroups]
      simp only [if_neg hcolon, hgroups]
      exact if_pos height
    | @compressed l ls r rs hl hr hle =>
      have hexpand := expandWords_compressed hle
      rcases hl with ⟨rfl, rfl⟩ | hl
      · have hgroups : readGroups ⟨position, [] ++ 0x3A :: 0x3A :: r⟩ = some ([] ++ rs, some 0) :=
          parseGroups_rest hr (by rw [List.length_nil] at hle ⊢; omega)
            (by simp only [List.nil_append, List.length_cons]; omega) _
        rw [hgroups]
        exact hexpand
      · obtain ⟨c, hhead, hc⟩ := hl.startsPiece fun _ _ h => h.startsPiece
        have hcolon : ¬ StringCharReader.current ⟨position, l ++ 0x3A :: 0x3A :: r⟩ = some 0x3A := by
          rw [StringCharReader.current, List.head?_append, hhead, Option.some_or, Option.some.injEq]
          exact hc
        have hgroups : readGroups ⟨position, l ++ 0x3A :: 0x3A :: r⟩ =
            some (ls ++ rs, some ls.length) := by
          rw [readGroups]
          simp only [if_neg hcolon]
          rw [parseGroups_compressed hl hr (by rw [List.length_nil]; omega) (Nat.lt_succ_self _),
            List.nil_append, List.length_nil, Nat.zero_add]
        rw [hgroups]
        exact hexpand

end IpAddress

end ErbslandCore.Network.Ip
