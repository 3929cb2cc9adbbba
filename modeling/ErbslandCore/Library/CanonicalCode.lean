import ErbslandCore.Library.BitString

namespace ErbslandCore.Library.CanonicalCode
set_option autoImplicit true

variable (lengths : List Nat)

/-- How many symbols have a code of this length. Length zero means no code. -/
def countOf (length : Nat) : Nat := if length = 0 then 0 else lengths.count length

/-- The first code of each length follows the last shorter code. -/
def firstCode : Nat → Nat
  | 0 => 0
  | length + 1 => 2 * (firstCode length + countOf lengths length)

/-- The end of the codes of a length. -/
def endCode (length : Nat) : Nat := firstCode lengths length + countOf lengths length

def Present (symbol : Nat) : Prop := symbol < lengths.length ∧ lengths[symbol]! ≠ 0

instance : Decidable (Present lengths symbol) :=
  inferInstanceAs (Decidable (symbol < lengths.length ∧ lengths[symbol]! ≠ 0))

/-- The number of earlier symbols with the same length. -/
def rank (symbol : Nat) : Nat := (lengths.take symbol).count lengths[symbol]!

/-- The canonical code of a symbol. -/
def codeOf (symbol : Nat) : Nat := firstCode lengths lengths[symbol]! + rank lengths symbol

/-- The bits of the canonical code of a symbol, the most significant first. -/
def codeBits (symbol : Nat) : List Bool :=
  (natBits lengths[symbol]! (codeOf lengths symbol)).reverse

/-- The Kraft sum of the lengths up to a limit, in units of the shortest code space. -/
def weight (limit : Nat) : Nat :=
  (lengths.map fun length =>
    if length = 0 ∨ limit < length then 0 else 2 ^ (limit - length)).sum

/-- The codes up to the limit do not fit into the code space. -/
def Oversubscribed (limit : Nat) : Prop := 2 ^ limit < weight lengths limit

instance : Decidable (Oversubscribed lengths limit) :=
  inferInstanceAs (Decidable (2 ^ limit < weight lengths limit))

variable {lengths}

@[simp] theorem codeBits_length (symbol : Nat) :
    (codeBits lengths symbol).length = lengths[symbol]! := by
  rw [codeBits, List.length_reverse, natBits_length]

theorem firstCode_succ (length : Nat) :
    firstCode lengths (length + 1) = 2 * endCode lengths length := rfl

theorem weight_succ (limit : Nat) :
    weight lengths (limit + 1) = 2 * weight lengths limit + countOf lengths (limit + 1) := by
  induction lengths with
  | nil => rfl
  | cons length lengths ih =>
    simp only [weight, List.map_cons, List.sum_cons, countOf, Nat.add_one_ne_zero, ↓reduceIte,
      List.count_cons, beq_iff_eq] at ih ⊢
    rw [ih]
    by_cases hz : length = 0
    · rw [if_pos (.inl hz), if_pos (.inl hz), if_neg (by omega)]
      omega
    · by_cases hs : length ≤ limit
      · rw [if_neg (by omega), if_neg (by omega), if_neg (by omega), Nat.succ_sub hs,
          Nat.pow_succ]
        omega
      · by_cases he : length = limit + 1
        · rw [if_neg (by omega), if_pos (by omega), if_pos he, he, Nat.sub_self, Nat.pow_zero]
          omega
        · rw [if_pos (by omega), if_pos (by omega), if_neg he]
          omega

/-- The end of the codes of a length is the Kraft sum so far. -/
theorem endCode_eq_weight (limit : Nat) : endCode lengths limit = weight lengths limit := by
  induction limit with
  | zero =>
    have hzero : ∀ length ∈ lengths,
        (if length = 0 ∨ 0 < length then 0 else 2 ^ (0 - length)) = 0 := by
      intro length _
      rw [if_pos (by omega)]
    rw [weight, List.map_congr_left hzero, endCode, firstCode, countOf, if_pos rfl]
    simp
  | succ limit ih => rw [weight_succ, ← ih, endCode, firstCode_succ]

/-- Longer codes start behind the extensions of the shorter ones. -/
theorem mul_endCode_le (h : length < limit) :
    endCode lengths length * 2 ^ (limit - length) ≤ firstCode lengths limit := by
  induction limit with
  | zero => cases h
  | succ limit ih =>
    rw [firstCode_succ]
    by_cases he : length = limit
    · rw [he, Nat.add_sub_cancel_left, Nat.pow_one, Nat.mul_comm]
    · have hle := ih (by omega)
      have hfirst : firstCode lengths limit ≤ endCode lengths limit := Nat.le_add_right _ _
      rw [Nat.succ_sub (by omega), Nat.pow_succ, ← Nat.mul_assoc]
      omega

theorem endCode_le (hf : ¬ Oversubscribed lengths limit) (h : length ≤ limit) :
    endCode lengths length ≤ 2 ^ length := by
  rw [Oversubscribed, ← endCode_eq_weight, Nat.not_lt] at hf
  rcases Nat.lt_or_eq_of_le h with hlt | rfl
  · have hle : endCode lengths length * 2 ^ (limit - length) ≤ firstCode lengths limit :=
      mul_endCode_le hlt
    have hfirst : firstCode lengths limit ≤ endCode lengths limit := Nat.le_add_right _ _
    have hpow : 2 ^ limit = 2 ^ length * 2 ^ (limit - length) := by
      rw [← Nat.pow_add, Nat.add_sub_cancel' h]
    rw [hpow] at hf
    exact Nat.le_of_mul_le_mul_right (hle.trans (hfirst.trans hf)) (Nat.two_pow_pos _)
  · exact hf

/-- A code space that is exceeded once stays exceeded. -/
theorem oversubscribed_of_endCode (h : length ≤ limit) (hlt : 2 ^ length < endCode lengths length) :
    Oversubscribed lengths limit := by
  by_contra hf
  exact absurd (endCode_le hf h) (Nat.not_le.mpr hlt)

theorem count_take_succ (h : symbol < lengths.length) (length : Nat) :
    (lengths.take (symbol + 1)).count length =
      (lengths.take symbol).count length + if lengths[symbol]! = length then 1 else 0 := by
  rw [List.take_add_one, List.getElem?_eq_getElem h, List.count_append, getElem!_pos lengths _ h]
  simp [List.count_singleton]

theorem rank_lt (h : Present lengths symbol) :
    rank lengths symbol < countOf lengths lengths[symbol]! := by
  have hle := (List.take_sublist (symbol + 1) lengths).count_le lengths[symbol]!
  rw [count_take_succ h.1, if_pos rfl] at hle
  rw [countOf, if_neg h.2, rank]
  omega

theorem rank_lt_rank (h : symbol < other) (ho : other < lengths.length)
    (he : lengths[symbol]! = lengths[other]!) : rank lengths symbol < rank lengths other := by
  have hsub : (lengths.take (symbol + 1)).Sublist (lengths.take other) :=
    (List.take_prefix_take_left h).sublist
  have hle := hsub.count_le lengths[symbol]!
  rw [count_take_succ (by omega), if_pos rfl] at hle
  rw [rank, rank, ← he]
  omega

theorem codeOf_lt_endCode (h : Present lengths symbol) :
    codeOf lengths symbol < endCode lengths lengths[symbol]! :=
  Nat.add_lt_add_left (rank_lt h) _

theorem codeOf_lt (hf : ¬ Oversubscribed lengths limit) (h : Present lengths symbol)
    (hl : lengths[symbol]! ≤ limit) : codeOf lengths symbol < 2 ^ lengths[symbol]! :=
  (codeOf_lt_endCode h).trans_le (endCode_le hf hl)

/-- The beginning of a code lies behind all codes of its length. -/
theorem endCode_le_div (symbol : Nat) (h : length < lengths[symbol]!) :
    endCode lengths length ≤ codeOf lengths symbol / 2 ^ (lengths[symbol]! - length) := by
  rw [Nat.le_div_iff_mul_le (Nat.two_pow_pos _)]
  exact (mul_endCode_le h).trans (Nat.le_add_right _ _)

/-- The leading bits of a number are its quotient. -/
theorem take_natBits_reverse (h : m ≤ n) (v : Nat) :
    (natBits n v).reverse.take m = (natBits m (v / 2 ^ (n - m))).reverse := by
  have hsplit : natBits n v = natBits (n - m) v ++ natBits m (v >>> (n - m)) := by
    rw [← natBits_add, Nat.sub_add_cancel h]
  rw [hsplit, List.reverse_append, List.take_left' (by simp), Nat.shiftRight_eq_div_pow]

theorem natBits_reverse_inj (h : (natBits n v).reverse = (natBits n w).reverse) (hv : v < 2 ^ n)
    (hw : w < 2 ^ n) : v = w :=
  natBits_inj (List.reverse_injective h) hv hw

/-- No code begins another one. -/
theorem prefix_free (hf : ¬ Oversubscribed lengths limit) (hl : ∀ length ∈ lengths, length ≤ limit)
    (hs : Present lengths symbol) (ho : Present lengths other)
    (h : codeBits lengths symbol <+: codeBits lengths other) : symbol = other := by
  have le (s : Nat) (hs : Present lengths s) : lengths[s]! ≤ limit := by
    rw [getElem!_pos lengths s hs.1]
    exact hl _ (List.getElem_mem hs.1)
  have hle := h.length_le
  rw [codeBits_length, codeBits_length] at hle
  have hbits : (natBits lengths[symbol]! (codeOf lengths symbol)).reverse =
      (natBits lengths[symbol]! (codeOf lengths other /
        2 ^ (lengths[other]! - lengths[symbol]!))).reverse := by
    rw [← take_natBits_reverse hle]
    have htake := List.prefix_iff_eq_take.mp h
    rwa [codeBits_length] at htake
  have hcode := codeOf_lt hf hs (le symbol hs)
  have hother := codeOf_lt hf ho (le other ho)
  have hdiv : codeOf lengths other / 2 ^ (lengths[other]! - lengths[symbol]!) <
      2 ^ lengths[symbol]! := by
    rw [Nat.div_lt_iff_lt_mul (Nat.two_pow_pos _), ← Nat.pow_add, Nat.add_sub_cancel' hle]
    exact hother
  have heq := natBits_reverse_inj hbits hcode hdiv
  rcases Nat.lt_or_eq_of_le hle with hlt | hlen
  · -- A shorter code lies below the beginnings of all longer ones.
    have hend := codeOf_lt_endCode hs
    have hbehind := endCode_le_div other hlt
    omega
  · rw [hlen, Nat.sub_self, Nat.pow_zero, Nat.div_one, codeOf, codeOf, hlen,
      Nat.add_left_cancel_iff] at heq
    rcases Nat.lt_trichotomy symbol other with hlt | he | hgt
    · have hrank := rank_lt_rank hlt ho.1 hlen
      omega
    · exact he
    · have hrank := rank_lt_rank hgt hs.1 hlen.symm
      omega

end ErbslandCore.Library.CanonicalCode
