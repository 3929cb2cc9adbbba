import ErbslandCore.Library.Positional
import ErbslandCore.Text.IntegerConversion

namespace ErbslandCore.Text.IntegerConversion
open Library Math
set_option autoImplicit true

namespace StringCharReader

/-- A failed loop never reports a success. -/
theorem scanDigits_error {position : Nat}
    (h : scanDigits options baseValue result digitCount last position t = .error (status, n)) :
    status ≠ .success := by
  induction t generalizing result digitCount last position with
  | nil => cases h
  | cons next rest ih =>
    rw [scanDigits] at h
    split at h
    · cases h
    split at h
    · cases h
      exact nofun
    split at h
    · split at h
      · cases h
        exact nofun
      · exact ih h
    split at h
    · split at h
      · cases h
        exact nofun
      · cases h
    · split_ifs at h
      · cases h
        exact nofun
      · cases h
        exact nofun
      · cases h
        exact nofun
      · exact ih h

theorem fail_restores : (fail reader base errorPosition status).2 = reader := rfl

theorem scanMagnitude_restores
    (h : (scanMagnitude options state isNegative base reader).1.status ≠ .success) :
    (scanMagnitude options state isNegative base reader).2 = state := by
  rw [scanMagnitude] at h ⊢
  split
  case h_1 => rfl
  case h_2 value digitCount lastWasSeparator behind hscan =>
    rw [hscan] at h
    simp only at h ⊢
    split_ifs at h ⊢
    · rfl
    · rfl
    · rfl
    · exact absurd rfl h

theorem scanUnsigned_restores
    (h : (scanUnsigned options state isNegative reader).1.status ≠ .success) :
    (scanUnsigned options state isNegative reader).2 = state := by
  rw [scanUnsigned] at h ⊢
  split at h
  case h_1 base hbase =>
    split_ifs at h ⊢
    · rfl
    · exact scanMagnitude_restores h
  case h_2 hbase => exact scanMagnitude_restores h

/-- A failure restores the reader. -/
theorem scanInteger_restores (options : IntegerParseOptions) (reader : StringCharReader)
    (h : (reader.scanInteger options).1.status ≠ .success) :
    (reader.scanInteger options).2 = reader := by
  rw [scanInteger] at h ⊢
  split_ifs at h ⊢
  · rfl
  · exact scanUnsigned_restores h
  · rfl
  · exact scanUnsigned_restores h
  · rfl
  · exact scanUnsigned_restores h

end StringCharReader

theorem baseFactor_pos (base : IntegerBase) : 1 < base.baseFactor := by cases base <;> decide

theorem baseFactor_le (base : IntegerBase) : base.baseFactor ≤ 16 := by cases base <;> decide

/-- Digit characters are read as their digits. -/
theorem digitValue_fromDigitValue {base : IntegerBase} (h : digit < base.baseFactor) (letterCase : LetterCase) :
    digitValue base.baseFactor (fromDigitValue digit letterCase) = some digit := by
  have hlt := h.trans_le (baseFactor_le base)
  revert h
  cases base <;> cases letterCase <;> interval_cases digit <;> decide

theorem fromDigitValue_range (h : digit < 16) (letterCase : LetterCase) :
    0x30 ≤ fromDigitValue digit letterCase ∧ fromDigitValue digit letterCase ≤ 0x66 := by
  rw [fromDigitValue]
  cases letterCase <;> split_ifs <;> omega

theorem fromDigitValue_eq_zero (h : digit < 16) (letterCase : LetterCase) :
    fromDigitValue digit letterCase = 0x30 ↔ digit = 0 := by
  rw [fromDigitValue]
  cases letterCase <;> split_ifs <;> omega

/-- The digit eleven is the only one that looks like a prefix. -/
theorem fromPrefixChar_digit (h : digit < 16) (letterCase : LetterCase) :
    IntegerBase.fromPrefixChar (fromDigitValue digit letterCase) =
      if digit = 11 then some .binary else none := by
  cases letterCase <;> interval_cases digit <;> rfl

theorem fromPrefixChar_prefixChar (h : base.prefixChar letterCase = some character) :
    IntegerBase.fromPrefixChar character = some base := by
  cases base <;> cases letterCase <;> cases h <;> rfl

/-- The array has room for all digits. -/
theorem collectDigits_eq (hb : 1 < b) (h : m < b ^ (room + 1)) :
    collectDigits b (room + 1) m = if m = 0 then [0] else Nat.digits b m := by
  induction room generalizing m with
  | zero =>
    have hm : m < b := by simpa using h
    rw [collectDigits, if_pos (Nat.div_eq_of_lt hm), Nat.mod_eq_of_lt hm]
    split_ifs with hz
    · rw [hz]
    · exact (Nat.digits_of_lt b m hz hm).symm
  | succ room ih =>
    rw [collectDigits]
    by_cases hdiv : m / b = 0
    · have hm : m < b := (Nat.div_eq_zero_iff_lt (Nat.zero_lt_of_lt hb)).mp hdiv
      rw [if_pos hdiv, Nat.mod_eq_of_lt hm]
      split_ifs with hz
      · rw [hz]
      · exact (Nat.digits_of_lt b m hz hm).symm
    · have hlt : m / b < b ^ (room + 1) := Nat.div_lt_of_lt_mul (by rwa [← Nat.pow_succ'])
      have hz : m ≠ 0 := fun hz => hdiv (by rw [hz, Nat.zero_div])
      rw [if_neg hdiv, ih hlt, if_neg hdiv, if_neg hz, Nat.digits_of_two_le_of_pos hb
        (Nat.pos_of_ne_zero hz)]

/-- The digits of a magnitude, and the leading one of a number with several digits. -/
theorem collectDigits_spec (hb : 1 < b) (h : m < b ^ (room + 1)) :
    Nat.ofDigits b (collectDigits b (room + 1) m) = m ∧
      (∀ digit ∈ collectDigits b (room + 1) m, digit < b) ∧
      collectDigits b (room + 1) m ≠ [] := by
  rw [collectDigits_eq hb h]
  split_ifs with hz
  · refine ⟨by rw [hz]; rfl, fun digit hd => ?_, List.cons_ne_nil _ _⟩
    rw [List.mem_singleton.mp hd]
    exact Nat.zero_lt_of_lt hb
  · exact ⟨Nat.ofDigits_digits b m, fun digit hd => Nat.digits_lt_base hb hd,
      Nat.digits_ne_nil_iff_ne_zero.mpr hz⟩

theorem collectDigits_canonical (hb : 1 < b) (h : m < b ^ (room + 1)) (hz : m ≠ 0) :
    Positional.Canonical b (collectDigits b (room + 1) m) := by
  rw [collectDigits_eq hb h, if_neg hz]
  exact ⟨fun digit hd => Nat.digits_lt_base hb hd, fun _ => Nat.getLast_digit_ne_zero b hz⟩

/-- The characters of a digit, and of the separator before it. -/
def digitText (letterCase : LetterCase) (piece : Bool × Nat) : List Nat :=
  if piece.1 then [0x27, fromDigitValue piece.2 letterCase]
  else [fromDigitValue piece.2 letterCase]

/-- The value of digits after other digits. -/
def digitsValue (b start : Nat) (digits : List Nat) : Nat :=
  digits.foldl (fun value digit => value * b + digit) start

theorem le_digitsValue (hb : 0 < b) (start : Nat) (digits : List Nat) :
    start ≤ digitsValue b start digits := by
  induction digits generalizing start with
  | nil => exact Nat.le_refl start
  | cons digit digits ih =>
    calc start ≤ start * b := Nat.le_mul_of_pos_right start hb
      _ ≤ start * b + digit := Nat.le_add_right _ _
      _ ≤ digitsValue b start (digit :: digits) := ih _

theorem digitsValue_replicate (b count : Nat) (digits : List Nat) :
    digitsValue b 0 (List.replicate count 0 ++ digits) = digitsValue b 0 digits := by
  induction count with
  | zero => rfl
  | succ count ih =>
    rw [List.replicate_succ, List.cons_append, digitsValue, List.foldl_cons, Nat.zero_mul]
    exact ih

theorem digitsValue_reverse (b : Nat) (digits : List Nat) :
    digitsValue b 0 digits.reverse = Nat.ofDigits b digits := by
  rw [digitsValue, List.foldl_reverse, Nat.ofDigits_eq_foldr]
  congr 1
  funext digit value
  rw [Nat.add_comm, Nat.mul_comm]
  rfl

namespace StringCharReader

section
variable {options : IntegerParseOptions} {base : IntegerBase} (letterCase : LetterCase)
  {position result digitCount : Nat} {pieces : List (Bool × Nat)}

theorem scanDigits_digit (hmaximum : options.maximumDigits = none)
    (hseparator : options.separator = 0x27) (hdigit : digit < base.baseFactor)
    (hvalue : result * base.baseFactor + digit < 2 ^ 64) (rest : List Nat) :
    scanDigits options base.baseFactor result digitCount last position
        (fromDigitValue digit letterCase :: rest) =
      scanDigits options base.baseFactor (result * base.baseFactor + digit) (digitCount + 1) false
        (position + 1) rest := by
  have hrange := fromDigitValue_range (hdigit.trans_le (baseFactor_le base)) letterCase
  have hsignal : ¬ isSignal (fromDigitValue digit letterCase) = true := by
    rw [isSignal, decide_eq_true_eq]
    omega
  have hnot : ¬ (options.allowSeparator ∧ fromDigitValue digit letterCase = options.separator) := by
    rintro ⟨-, heq⟩
    omega
  rw [scanDigits, hmaximum, Option.any_none, if_neg (fun h => Bool.false_ne_true h.1),
    if_neg hsignal, if_neg hnot]
  simp only [digitValue_fromDigitValue hdigit letterCase, Bool.false_eq_true, if_false]
  rw [if_neg (by omega), if_neg (by omega)]

theorem scanDigits_separator (hmaximum : options.maximumDigits = none)
    (hallow : options.allowSeparator = true) (hseparator : options.separator = 0x27)
    (hcount : digitCount ≠ 0) (rest : List Nat) :
    scanDigits options b result digitCount false position (0x27 :: rest) =
      scanDigits options b result digitCount true (position + 1) rest := by
  rw [scanDigits, hmaximum, Option.any_none, if_neg (fun h => Bool.false_ne_true h.1),
    if_neg (by decide), if_pos ⟨hallow, hseparator.symm⟩, if_neg]
  rintro (hzero | hlast)
  · exact hcount hzero
  · exact Bool.false_ne_true hlast

/-- The scan of a whole digit field. -/
theorem scanDigits_pieces (hmaximum : options.maximumDigits = none)
    (hallow : options.allowSeparator = true) (hseparator : options.separator = 0x27)
    (hdigits : ∀ piece ∈ pieces, piece.2 < base.baseFactor)
    (hfirst : digitCount = 0 → ∀ piece ∈ pieces.head?, piece.1 = false)
    (hvalue : digitsValue base.baseFactor result (pieces.map Prod.snd) < 2 ^ 64) :
    scanDigits options base.baseFactor result digitCount false position
        (pieces.flatMap (digitText letterCase)) =
      .ok (digitsValue base.baseFactor result (pieces.map Prod.snd), digitCount + pieces.length,
        false, ⟨position + (pieces.flatMap (digitText letterCase)).length, []⟩) := by
  induction pieces generalizing result digitCount position with
  | nil => rfl
  | cons piece pieces ih =>
    have hdigit := hdigits piece List.mem_cons_self
    rw [List.map_cons, digitsValue, List.foldl_cons] at hvalue
    have hnext := (le_digitsValue (Nat.zero_lt_of_lt (baseFactor_pos base)) _ _).trans_lt hvalue
    have hothers : ∀ other ∈ pieces, other.2 < base.baseFactor := fun other hmem =>
      hdigits other (List.mem_cons_of_mem piece hmem)
    have hcounted (n : Nat) : n + 1 = 0 → ∀ piece ∈ pieces.head?, piece.1 = false :=
      fun hzero => absurd hzero (Nat.succ_ne_zero n)
    obtain ⟨separated, digit⟩ := piece
    cases separated with
    | true =>
      have hcount : digitCount ≠ 0 := fun hzero => Bool.noConfusion (hfirst hzero _ rfl)
      rw [List.flatMap_cons, digitText, if_pos rfl, List.cons_append, List.singleton_append,
        scanDigits_separator hmaximum hallow hseparator hcount,
        scanDigits_digit letterCase hmaximum hseparator hdigit hnext, ih hothers (hcounted _) hvalue]
      simp only [List.map_cons, digitsValue, List.foldl_cons, List.length_cons, Except.ok.injEq,
        Prod.mk.injEq, StringCharReader.mk.injEq, true_and, and_true]
      omega
    | false =>
      rw [List.flatMap_cons, digitText, if_neg Bool.false_ne_true, List.singleton_append,
        scanDigits_digit letterCase hmaximum hseparator hdigit hnext, ih hothers (hcounted _) hvalue]
      simp only [List.map_cons, digitsValue, List.foldl_cons, List.length_cons, Except.ok.injEq,
        Prod.mk.injEq, StringCharReader.mk.injEq, true_and, and_true]
      omega

/-- A digit field looks like a binary prefix when it starts with a zero and the digit eleven. -/
theorem prefixedBase_pieces (position : Nat) (hdigits : ∀ piece ∈ pieces, piece.2 < 16)
    (hfirst : ∀ piece ∈ pieces.head?, piece.1 = false) :
    prefixedBase ⟨position, pieces.flatMap (digitText letterCase)⟩ =
      if pieces[0]? = some (false, 0) ∧ pieces[1]? = some (false, 11) then some .binary
      else none := by
  cases pieces with
  | nil => rfl
  | cons piece pieces =>
    obtain ⟨separated, digit⟩ := piece
    have hdigit : digit < 16 := hdigits _ List.mem_cons_self
    obtain rfl : separated = false := hfirst _ rfl
    have hcurrent : current ⟨position, ((false, digit) :: pieces).flatMap (digitText letterCase)⟩ =
        some 0x30 ↔ digit = 0 :=
      Option.some_inj.trans (fromDigitValue_eq_zero hdigit letterCase)
    rw [prefixedBase]
    by_cases hzero : digit = 0
    · rw [if_pos (hcurrent.mpr hzero)]
      cases pieces with
      | nil => simp [advance, current, digitText]
      | cons piece pieces =>
        obtain ⟨separated, digit'⟩ := piece
        have hdigit' : digit' < 16 := hdigits _ (List.mem_cons_of_mem _ List.mem_cons_self)
        cases separated with
        | true => simp [advance, current, digitText, IntegerBase.fromPrefixChar]
        | false =>
          have hnext : (advance ⟨position,
              ((false, digit) :: (false, digit') :: pieces).flatMap (digitText letterCase)⟩).current =
              some (fromDigitValue digit' letterCase) := rfl
          rw [hnext, Option.bind_some, fromPrefixChar_digit hdigit']
          simp [hzero]
    · rw [if_neg fun h => hzero (hcurrent.mp h), if_neg]
      rintro ⟨heq, -⟩
      cases heq
      exact hzero rfl

end

end StringCharReader

/-- There is a separator before a digit of a field. -/
def separatedAt (format : IntegerFormat) (paddedDigitCount index : Nat) : Bool :=
  let groupSize := format.base.digitGroupSize
  let firstGroupSize :=
    if paddedDigitCount % groupSize = 0 then groupSize else paddedDigitCount % groupSize
  format.separator && decide (0 < index ∧ firstGroupSize ≤ index ∧
    (index - firstGroupSize) % groupSize = 0)

theorem separatedAt_zero : separatedAt format count 0 = false := by
  simp [separatedAt]

/-- Only a group of one digit is separated from the second digit. -/
theorem separatedAt_one (hbase : format.base = .hexadecimal) :
    separatedAt format count 1 = true ↔ format.separator = true ∧ count % 4 = 1 := by
  have hsize : format.base.digitGroupSize = 4 := by rw [hbase]; rfl
  rw [separatedAt, hsize, Bool.and_eq_true, decide_eq_true_eq]
  refine and_congr_right fun _ => ?_
  split_ifs <;> omega

/-- The digits of a padded field, with the separators. -/
def fieldPieces (format : IntegerFormat) (zeroPadCount : Nat) (digits : List Nat) :
    List (Bool × Nat) :=
  (List.range (digits.length + zeroPadCount)).map fun index =>
    (separatedAt format (digits.length + zeroPadCount) index,
      (List.replicate zeroPadCount 0 ++ digits.reverse)[index]?.getD 0)

theorem fieldPieces_snd (format : IntegerFormat) (zeroPadCount : Nat) (digits : List Nat) :
    (fieldPieces format zeroPadCount digits).map Prod.snd =
      List.replicate zeroPadCount 0 ++ digits.reverse := by
  rw [fieldPieces, List.map_map]
  apply List.ext_getElem
  · simp [Nat.add_comm]
  · intro index h₁ h₂
    simp [List.getElem?_eq_getElem h₂]

theorem fieldPieces_head (format : IntegerFormat) (zeroPadCount : Nat) (digits : List Nat) :
    ∀ piece ∈ (fieldPieces format zeroPadCount digits).head?, piece.1 = false := by
  intro piece hmem
  rw [fieldPieces, List.head?_map] at hmem
  obtain ⟨index, hindex, rfl⟩ := Option.map_eq_some_iff.mp hmem
  rw [List.head?_range] at hindex
  split_ifs at hindex
  cases hindex
  exact separatedAt_zero

theorem length_fieldPieces (format : IntegerFormat) (zeroPadCount : Nat) (digits : List Nat) :
    (fieldPieces format zeroPadCount digits).length = digits.length + zeroPadCount := by
  rw [fieldPieces, List.length_map, List.length_range]

/-- The characters of a field are those of its digits. -/
theorem appendDigitField_eq (digits : List Nat) (zeroPadCount : Nat) (format : IntegerFormat) :
    appendDigitField (digits.map (fromDigitValue · format.letterCase)) zeroPadCount format =
      (fieldPieces format zeroPadCount digits).flatMap (digitText format.letterCase) := by
  rw [appendDigitField, fieldPieces, List.flatMap_map, List.length_map]
  apply List.flatMap_congr
  intro index hindex
  have hlt : index < digits.length + zeroPadCount := List.mem_range.mp hindex
  have hdigit : (if index < zeroPadCount then 0x30 else
      (digits.map (fromDigitValue · format.letterCase))[digits.length - 1 -
        (index - zeroPadCount)]?.getD 0) =
      fromDigitValue ((List.replicate zeroPadCount 0 ++ digits.reverse)[index]?.getD 0)
        format.letterCase := by
    split_ifs with hpad
    · rw [List.getElem?_append_left (by rwa [List.length_replicate]),
        List.getElem?_replicate_of_lt hpad]
      rfl
    · rw [List.getElem?_append_right (by rw [List.length_replicate]; omega), List.length_replicate,
        List.getElem?_reverse (by omega), List.getElem?_map]
      rw [List.getElem?_eq_getElem (by omega)]
      rfl
  rw [fieldPiece]
  simp only [List.length_map, hdigit, digitText, separatedAt, Bool.and_eq_true, decide_eq_true_eq]

/-- The number of digits that a format asks for. -/
def IntegerFormat.paddedWidth (format : IntegerFormat) : Nat :=
  max (format.precision.getD 0) (if format.zeroFill then format.fieldWidth else 0)

theorem add_zeroPadding (digitCount : Nat) (format : IntegerFormat) :
    digitCount + zeroPadding digitCount format = max digitCount format.paddedWidth := by
  rw [zeroPadding, IntegerFormat.paddedWidth]
  cases format.zeroFill with
  | true => simp only [if_true]; omega
  | false => simp only [Bool.false_eq_true, if_false]; omega

/-- The text of a magnitude starts with one zero and the hexadecimal digit eleven. -/
def LooksPrefixed (format : IntegerFormat) (magnitude : Nat) : Prop :=
  format.base = .hexadecimal ∧ format.basePrefix = false ∧
    ∃ n, 11 * 16 ^ n ≤ magnitude ∧ magnitude < 12 * 16 ^ n ∧ format.paddedWidth = n + 2 ∧
      ¬ (format.separator = true ∧ (n + 2) % 4 = 1)

/-- The leading digit of a number, from the two multiples of a power around the number. -/
theorem getLast?_digits (hb : 1 < b) (hlt : ∀ digit ∈ digits, digit < b)
    (hlead : digit ≠ 0) : digits.getLast? = some digit ↔
      ∃ n, digits.length = n + 1 ∧ digit * b ^ n ≤ Nat.ofDigits b digits ∧
        Nat.ofDigits b digits < (digit + 1) * b ^ n := by
  rcases List.eq_nil_or_concat' digits with rfl | ⟨lower, top, rfl⟩
  · simp
  have hlower : Nat.ofDigits b lower < b ^ lower.length :=
    Nat.ofDigits_lt_base_pow_length hb fun digit hd => hlt digit (List.mem_append_left _ hd)
  have hpos : 0 < b ^ lower.length := Nat.pow_pos (Nat.zero_lt_of_lt hb)
  rw [List.getLast?_concat, Option.some.injEq, Nat.ofDigits_append, Nat.ofDigits_singleton,
    List.length_append, List.length_singleton]
  constructor
  · rintro rfl
    refine ⟨lower.length, rfl, ?_, ?_⟩
    · rw [Nat.mul_comm]
      exact Nat.le_add_left _ _
    · rw [Nat.succ_mul, Nat.mul_comm, Nat.add_comm]
      exact Nat.add_lt_add_left hlower _
  · rintro ⟨n, hn, hlow, hhigh⟩
    obtain rfl : n = lower.length := by omega
    have hle : digit < top + 1 := by
      refine lt_of_mul_lt_mul_right (a := b ^ lower.length) ?_ (Nat.zero_le _)
      nlinarith
    have hge : top < digit + 1 := by
      refine lt_of_mul_lt_mul_right (a := b ^ lower.length) ?_ (Nat.zero_le _)
      rw [Nat.mul_comm]
      exact (Nat.le_add_left _ _).trans_lt hhigh
    omega

/-- The start of a field, in the digits and the padding. -/
theorem fieldPieces_start (hdigits : digits ≠ []) (hzero : digits.getLast? = some 0 → digits = [0]) :
    (fieldPieces format zeroPadCount digits)[0]? = some (false, 0) ∧
        (fieldPieces format zeroPadCount digits)[1]? = some (false, 11) ↔
      zeroPadCount = 1 ∧ digits.getLast? = some 11 ∧
        separatedAt format (digits.length + 1) 1 = false := by
  have hlength : 0 < digits.length := List.length_pos_iff.mpr hdigits
  have hget (index : Nat) (h : index < digits.length + zeroPadCount) :
      (fieldPieces format zeroPadCount digits)[index]? =
        some (separatedAt format (digits.length + zeroPadCount) index,
          (List.replicate zeroPadCount 0 ++ digits.reverse)[index]?.getD 0) := by
    rw [fieldPieces, List.getElem?_map, List.getElem?_range h]
    rfl
  match zeroPadCount with
  | 0 =>
    refine iff_of_false ?_ fun h => absurd h.1 Nat.zero_ne_one
    rintro ⟨hfirst, hsecond⟩
    rw [hget 0 hlength, List.replicate_zero, List.nil_append, ← List.head?_eq_getElem?,
      List.head?_reverse] at hfirst
    cases hlast : digits.getLast? with
    | none => exact hdigits (List.getLast?_eq_none_iff.mp hlast)
    | some top =>
      rw [hlast, Option.getD_some, Option.some.injEq, Prod.mk.injEq] at hfirst
      rw [hzero (hlast.trans (congrArg some hfirst.2)), List.getElem?_eq_none] at hsecond
      · cases hsecond
      · rw [length_fieldPieces]
        exact Nat.le_refl 1
  | 1 =>
    rw [hget 0 (Nat.succ_pos _), hget 1 (Nat.succ_lt_succ hlength), separatedAt_zero,
      List.replicate_one, List.singleton_append, List.getElem?_cons_zero, List.getElem?_cons_succ,
      ← List.head?_eq_getElem?, List.head?_reverse, Option.getD_some, Option.some.injEq,
      Prod.mk.injEq]
    cases hlast : digits.getLast? with
    | none => exact absurd (List.getLast?_eq_none_iff.mp hlast) hdigits
    | some top =>
      rw [Option.getD_some, Option.some.injEq]
      constructor
      · intro h
        obtain ⟨hsep, htop⟩ := Prod.mk.inj h.2
        exact ⟨rfl, congrArg some htop, hsep⟩
      · intro h
        exact ⟨⟨rfl, rfl⟩, Prod.ext h.2.2 (Option.some.inj h.2.1)⟩
  | count + 2 =>
    refine iff_of_false ?_ fun h => absurd h.1 (by omega)
    rintro ⟨-, hsecond⟩
    rw [hget 1 (by omega), List.replicate_succ, List.replicate_succ, Option.some.injEq,
      Prod.mk.injEq] at hsecond
    exact absurd hsecond.2 (by decide : 0 ≠ 11)

/-- A hexadecimal field looks like a prefix exactly when its number does. -/
theorem fieldPieces_looksPrefixed (hbase : format.base = .hexadecimal)
    (hplain : format.basePrefix = false) (hm : m < 16 ^ (room + 1)) :
    let digits := collectDigits 16 (room + 1) m
    ((fieldPieces format (zeroPadding digits.length format) digits)[0]? = some (false, 0) ∧
        (fieldPieces format (zeroPadding digits.length format) digits)[1]? = some (false, 11)) ↔
      LooksPrefixed format m := by
  intro digits
  obtain ⟨hvalue, hlt, hne⟩ := collectDigits_spec (by decide : 1 < 16) hm
  have hcanonical (hz : m ≠ 0) : Positional.Canonical 16 digits :=
    collectDigits_canonical (by decide) hm hz
  have hzero : digits.getLast? = some 0 → digits = [0] := by
    intro hlast
    by_cases hz : m = 0
    · exact (collectDigits_eq (by decide) hm).trans (if_pos hz)
    · rw [List.getLast?_eq_some_getLast hne, Option.some.injEq] at hlast
      exact absurd hlast ((hcanonical hz).last hne)
  have hpadding := add_zeroPadding digits.length format
  rw [fieldPieces_start hne hzero, getLast?_digits (by decide) hlt (by decide : 11 ≠ 0), hvalue]
  constructor
  · rintro ⟨hone, ⟨n, hlength, hlow, hhigh⟩, hnot⟩
    have hone : zeroPadding digits.length format = 1 := hone
    have hlength : digits.length = n + 1 := hlength
    refine ⟨hbase, hplain, n, hlow, hhigh, by omega, fun hs => ?_⟩
    have hsep : separatedAt format (digits.length + 1) 1 = true := by
      rw [separatedAt_one hbase, hlength]
      exact hs
    rw [hsep] at hnot
    cases hnot
  · rintro ⟨-, -, n, hlow, hhigh, hwidth, hnot⟩
    have hpos : 0 < 16 ^ n := by positivity
    have hlength : digits.length = n + 1 := by
      apply (hcanonical (by omega)).length_eq (by decide)
      · rw [hvalue]
        omega
      · rw [hvalue, Nat.pow_succ]
        omega
    refine ⟨?_, ⟨n, hlength, hlow, hhigh⟩, ?_⟩
    · show zeroPadding digits.length format = 1
      omega
    · rw [← Bool.not_eq_true, separatedAt_one hbase]
      show ¬ (_ ∧ (digits.length + 1) % 4 = 1)
      rw [hlength]
      exact hnot

/-- The options that read the texts of a format: signs and separators are accepted, and the base is
fixed unless a prefix tells it. -/
def IntegerFormat.parseOptions (format : IntegerFormat) : IntegerParseOptions where
  fixedBase := if prefixText format = [] then some format.base else none
  allowSeparator := true
  acceptMinusSign := true
  ignorePlusSign := true

/-- The digit field of a magnitude. -/
def fieldText (format : IntegerFormat) (room magnitude : Nat) : List Nat :=
  let digits := (collectDigits format.base.baseFactor (room + 1) magnitude).map
    (fromDigitValue · format.letterCase)
  appendDigitField digits (zeroPadding digits.length format) format

/-- The pieces of the digit field of a magnitude. -/
def piecesOf (format : IntegerFormat) (room magnitude : Nat) : List (Bool × Nat) :=
  let digits := collectDigits format.base.baseFactor (room + 1) magnitude
  fieldPieces format (zeroPadding digits.length format) digits

theorem fieldText_eq (format : IntegerFormat) (room magnitude : Nat) :
    fieldText format room magnitude =
      (piecesOf format room magnitude).flatMap (digitText format.letterCase) := by
  rw [fieldText, piecesOf, ← appendDigitField_eq, List.length_map]

theorem piecesOf_head (format : IntegerFormat) (room magnitude : Nat) :
    ∀ piece ∈ (piecesOf format room magnitude).head?, piece.1 = false := fieldPieces_head _ _ _

section
variable {format : IntegerFormat} (hm : m < format.base.baseFactor ^ (room + 1))
include hm

theorem piecesOf_spec : (∀ piece ∈ piecesOf format room m, piece.2 < format.base.baseFactor) ∧
    digitsValue format.base.baseFactor 0 ((piecesOf format room m).map Prod.snd) = m ∧
    piecesOf format room m ≠ [] := by
  obtain ⟨hvalue, hlt, hne⟩ := collectDigits_spec (baseFactor_pos format.base) hm
  have hsnd := fieldPieces_snd format
    (zeroPadding (collectDigits format.base.baseFactor (room + 1) m).length format)
    (collectDigits format.base.baseFactor (room + 1) m)
  rw [← piecesOf] at hsnd
  refine ⟨fun piece hmem => ?_, ?_, fun hnil => ?_⟩
  · have hdigit : piece.2 ∈ (piecesOf format room m).map Prod.snd := List.mem_map_of_mem hmem
    rw [hsnd] at hdigit
    rcases List.mem_append.mp hdigit with hzero | hdigit
    · rw [List.eq_of_mem_replicate hzero]
      exact Nat.zero_lt_of_lt (baseFactor_pos format.base)
    · exact hlt _ (List.mem_reverse.mp hdigit)
  · rw [hsnd, digitsValue_replicate, digitsValue_reverse, hvalue]
  · rw [hnil, List.map_nil] at hsnd
    exact hne (List.reverse_eq_nil_iff.mp (List.append_eq_nil_iff.mp hsnd.symm).2)

theorem piecesOf_looksPrefixed (hplain : format.basePrefix = false ∨ format.base = .decimal) :
    ((piecesOf format room m)[0]? = some (false, 0) ∧
        (piecesOf format room m)[1]? = some (false, 11)) ↔ LooksPrefixed format m := by
  by_cases hbase : format.base = .hexadecimal
  · have hnot : format.base ≠ .decimal := by
      rw [hbase]
      exact nofun
    have heq : format.base.baseFactor = 16 := by
      rw [hbase]
      rfl
    rw [heq] at hm
    rw [piecesOf, heq]
    exact fieldPieces_looksPrefixed hbase (hplain.resolve_right hnot) hm
  · refine iff_of_false ?_ fun h => hbase h.1
    rintro ⟨-, hsecond⟩
    have hlt := (piecesOf_spec hm).1 _ (List.mem_of_getElem? hsecond)
    revert hbase hlt
    cases format.base <;> decide

/-- The field of a magnitude is scanned whole. -/
theorem scanMagnitude_field (hsize : m < 2 ^ 64) (state : StringCharReader) (isNegative : Bool)
    (position : Nat) :
    StringCharReader.scanMagnitude format.parseOptions state isNegative format.base
        ⟨position, fieldText format room m⟩ =
      ({ value := m, digitCount := (piecesOf format room m).length, isNegative, base := format.base,
         position := state.position, status := .success },
        ⟨position + (fieldText format room m).length, []⟩) := by
  obtain ⟨hdigits, hvalue, hne⟩ := piecesOf_spec hm
  have hscan : StringCharReader.scanDigits format.parseOptions format.base.baseFactor 0 0 false
      position ((piecesOf format room m).flatMap (digitText format.letterCase)) = _ :=
    StringCharReader.scanDigits_pieces format.letterCase rfl rfl rfl hdigits
      (fun _ => piecesOf_head format room m) (hvalue.symm ▸ hsize)
  rw [hvalue, Nat.zero_add, ← fieldText_eq] at hscan
  have hcount : (piecesOf format room m).length ≠ 0 := fun h => hne (List.length_eq_zero_iff.mp h)
  rw [StringCharReader.scanMagnitude, hscan]
  simp only [if_neg hcount, Bool.false_eq_true, if_false]
  rfl

/-- The body of a text: the prefix and the field. -/
theorem scanUnsigned_body (hsize : m < 2 ^ 64) (state : StringCharReader) (isNegative : Bool)
    (position : Nat) :
    (LooksPrefixed format m → (StringCharReader.scanUnsigned format.parseOptions state isNegative
      ⟨position, prefixText format ++ fieldText format room m⟩).1.status ≠ .success) ∧
    (¬ LooksPrefixed format m → StringCharReader.scanUnsigned format.parseOptions state isNegative
        ⟨position, prefixText format ++ fieldText format room m⟩ =
      ({ value := m, digitCount := (piecesOf format room m).length, isNegative, base := format.base,
         position := state.position, status := .success },
        ⟨position + (prefixText format ++ fieldText format room m).length, []⟩)) := by
  by_cases hplain : format.basePrefix = false ∨ format.base = .decimal
  · -- Without a prefix the field itself may look like one.
    have hunprefixed : prefixText format = [] := by
      rw [prefixText]
      rcases hplain with hplain | hbase
      · rw [hplain, if_neg Bool.false_ne_true]
      · rw [hbase, IntegerBase.prefixChar]
        exact ite_self []
    have hfixed : format.parseOptions.fixedBase = some format.base := if_pos hunprefixed
    have hbase := StringCharReader.prefixedBase_pieces format.letterCase position
      (fun piece hmem => ((piecesOf_spec hm).1 piece hmem).trans_le (baseFactor_le format.base))
      (piecesOf_head format room m)
    have hlooks := piecesOf_looksPrefixed hm hplain
    rw [← fieldText_eq] at hbase
    rw [hunprefixed, List.nil_append, StringCharReader.scanUnsigned, hfixed]
    refine ⟨fun h => ?_, fun h => ?_⟩
    · rw [hbase, if_pos (hlooks.mpr h)]
      exact nofun
    · rw [hbase, if_neg fun hpieces => h (hlooks.mp hpieces)]
      exact scanMagnitude_field hm hsize state isNegative position
  · obtain ⟨hwritten, hbase⟩ := not_or.mp hplain
    rw [Bool.not_eq_false] at hwritten
    obtain ⟨character, hchar⟩ : ∃ character, format.base.prefixChar format.letterCase = some character := by
      revert hbase
      cases format.base <;> cases format.letterCase <;> simp [IntegerBase.prefixChar]
    have hunprefixed : prefixText format = [0x30, character] := by
      rw [prefixText, if_pos hwritten, hchar]
    have hfixed : format.parseOptions.fixedBase = none :=
      if_neg (by rw [hunprefixed]; exact List.cons_ne_nil _ _)
    have hfrom : StringCharReader.prefixedBase
        ⟨position, 0x30 :: character :: fieldText format room m⟩ = some format.base :=
      fromPrefixChar_prefixChar hchar
    have hlooks : ¬ LooksPrefixed format m := by
      rintro ⟨-, hnot, -⟩
      rw [hwritten] at hnot
      cases hnot
    refine ⟨fun h => absurd h hlooks, fun _ => ?_⟩
    rw [hunprefixed, List.cons_append, List.cons_append, List.nil_append,
      StringCharReader.scanUnsigned, hfrom, hfixed]
    simp only [Option.isSome_none, Bool.false_eq_true, if_false]
    refine (scanMagnitude_field hm hsize state isNegative (position + 2)).trans ?_
    rw [List.length_cons, List.length_cons, Nat.add_assoc, Nat.add_comm 2]

theorem head?_fieldText : ∃ digit < 16, (fieldText format room m).head? =
    some (fromDigitValue digit format.letterCase) := by
  obtain ⟨hdigits, -, hne⟩ := piecesOf_spec hm
  have hfirst := piecesOf_head format room m
  rw [fieldText_eq]
  cases hpieces : piecesOf format room m with
  | nil => exact absurd hpieces hne
  | cons piece pieces =>
    rw [hpieces] at hdigits hfirst
    obtain ⟨separated, digit⟩ := piece
    obtain rfl : separated = false := hfirst _ rfl
    exact ⟨digit, (hdigits _ List.mem_cons_self).trans_le (baseFactor_le format.base), rfl⟩

/-- A body starts with a digit. -/
theorem head?_body : ∃ digit < 16, (prefixText format ++ fieldText format room m).head? =
    some (fromDigitValue digit format.letterCase) := by
  rw [prefixText]
  split_ifs
  · split
    · exact ⟨0, by decide, rfl⟩
    · exact head?_fieldText hm
  · exact head?_fieldText hm

/-- The whole text without spaces. -/
theorem scanInteger_text (hsize : m < 2 ^ 64) (hspace : format.signMode ≠ .space)
    (isNegative : Bool) :
    let text := signText isNegative format.signMode ++ prefixText format ++ fieldText format room m
    (LooksPrefixed format m →
      (StringCharReader.scanInteger format.parseOptions ⟨0, text⟩).1.status ≠ .success) ∧
    (¬ LooksPrefixed format m →
      StringCharReader.scanInteger format.parseOptions ⟨0, text⟩ =
        ({ value := m, digitCount := (piecesOf format room m).length, isNegative,
           base := format.base, position := 0, status := .success }, ⟨text.length, []⟩)) := by
  intro text
  obtain ⟨digit, hdigit, hhead⟩ := head?_body hm
  have hrange := fromDigitValue_range hdigit format.letterCase
  have htext : text = signText isNegative format.signMode ++
      (prefixText format ++ fieldText format room m) := List.append_assoc _ _ _
  have hbody := scanUnsigned_body hm hsize ⟨0, text⟩ isNegative
    (signText isNegative format.signMode).length
  have hscan : StringCharReader.scanInteger format.parseOptions ⟨0, text⟩ =
      StringCharReader.scanUnsigned format.parseOptions ⟨0, text⟩ isNegative
        ⟨(signText isNegative format.signMode).length,
          prefixText format ++ fieldText format room m⟩ := by
    rw [htext]
    cases isNegative with
    | true => rfl
    | false =>
      cases hmode : format.signMode with
      | negativeOnly =>
        have hcurrent : StringCharReader.current
            ⟨0, prefixText format ++ fieldText format room m⟩ =
            some (fromDigitValue digit format.letterCase) := hhead
        rw [signText, if_neg Bool.false_ne_true, List.nil_append, StringCharReader.scanInteger,
          hcurrent, if_neg, if_neg, if_neg]
        · rfl
        · rw [Option.some.injEq]
          omega
        · rw [Option.some.injEq]
          omega
        · exact nofun
      | always => rfl
      | space => exact absurd hmode hspace
  rw [hscan]
  refine ⟨hbody.1, fun h => (hbody.2 h).trans ?_⟩
  simp only [htext, List.length_append]

end

theorem int64_half : StringCharReader.int64.half = 2 ^ 63 := rfl

theorem uint64_maximum : StringCharReader.uint64.maximum = 2 ^ 64 - 1 := rfl

/-- All types have at most 64 bits. -/
theorem half_le (T : NativeInteger) : T.half ≤ 2 ^ 63 := by
  rcases T.size_valid with h | h | h | h <;> simp [NativeInteger.half, NativeInteger.bits, h]

/-- The sign and the magnitude of a value. -/
theorem fromValue_magnitude (value : Value T) : ∃ magnitude : SignedMagnitude T,
    SignedMagnitude.fromValue T value = .ok magnitude ∧
      magnitude.magnitude.val.toNat = value.val.natAbs ∧
      (magnitude.isNegative = true ↔ value.val < 0) := by
  obtain ⟨magnitude, heq, hvalue⟩ := SignedMagnitude.fromValue_eq rfl value
  refine ⟨magnitude, heq, ?_⟩
  rw [← hvalue, SignedMagnitude.isNegative]
  rcases magnitude.toInt_cases with ⟨hsign, hpos, hint⟩ | ⟨hsign, hpos, hint⟩
  · rw [hint, hsign]
    exact ⟨by omega, by simp only [true_iff]; omega⟩
  · rw [hint, hsign]
    exact ⟨by omega, by simp only [Bool.false_eq_true, false_iff]; omega⟩

theorem natAbs_le (value : Value T) : (value.val.natAbs : Int) ≤ 2 * T.half - 1 := by
  have hp := T.half_pos
  obtain ⟨hlow, hhigh⟩ := value.represents
  cases hs : T.isSigned with
  | true =>
    rw [NativeInteger.minimum_signed hs] at hlow
    rw [NativeInteger.maximum_signed hs] at hhigh
    omega
  | false =>
    rw [NativeInteger.minimum_unsigned hs] at hlow
    rw [NativeInteger.maximum_unsigned hs] at hhigh
    omega

theorem natAbs_lt (value : Value T) : value.val.natAbs < 2 ^ 64 := by
  have hle := natAbs_le value
  have hhalf := half_le T
  omega

namespace StringCharReader

/-- A scanned value of a signed type. -/
theorem toSigned_value (hs : T.isSigned = true) (value : Value T)
    (hvalue : result.value = value.val.natAbs) (hsign : result.isNegative = true ↔ value.val < 0) :
    toSigned T result = .ok value := by
  have hhalf := half_le T
  have hlt := natAbs_lt value
  obtain ⟨hlow, hhigh⟩ := value.represents
  have hp := T.half_pos
  have hmin := NativeInteger.minimum_signed hs
  have hmax := NativeInteger.maximum_signed hs
  have hrange (v : Int) (hl : T.minimum ≤ v) (hh : v ≤ T.maximum) : int64.Represents v := by
    have h₁ : int64.minimum = -2 ^ 63 := rfl
    have h₂ : int64.maximum = 2 ^ 63 - 1 := rfl
    exact ⟨by omega, by omega⟩
  have hminimum : (Value.staticCast int64 T.minimum).val = T.minimum :=
    Value.staticCast_val (hrange _ (le_refl _) (by omega))
  have hmaximum : (Value.staticCast int64 T.maximum).val = T.maximum :=
    Value.staticCast_val (hrange _ (by omega) (le_refl _))
  have hle : (Value.staticCast int64 T.minimum).val ≤ (Value.staticCast int64 T.maximum).val := by
    omega
  have hint : (SignedMagnitude.fromSignAndMagnitude (T := int64) result.isNegative
      (.staticCast _ result.value)).toInt = value.val := by
    have hcast : (Value.staticCast int64.makeUnsigned result.value).val = result.value :=
      Value.staticCast_val (SignedMagnitude.unsigned_represents (by omega)
        (by rw [int64_half]; omega))
    rw [SignedMagnitude.fromSignAndMagnitude_toInt, hcast]
    split_ifs with hneg
    · have := hsign.mp hneg
      omega
    · have : ¬ value.val < 0 := fun h => hneg (hsign.mpr h)
      omega
  have hclamp : (SignedMagnitude.clampBetween (Value.staticCast int64 T.minimum)
      (Value.staticCast int64 T.maximum) value.val).val = value.val :=
    SignedMagnitude.clampBetween_within (hminimum.trans_le hlow) (hhigh.trans_eq hmaximum.symm)
  rw [toSigned]
  simp only [SignedMagnitude.wouldSaturate_eq hle, SignedMagnitude.toSaturatingValue_eq hle, hint,
    hclamp, ne_eq, not_true_eq_false, decide_false, Except.mapError, ok_bind, Bool.false_eq_true,
    if_false]
  exact congrArg Except.ok (Value.ext (Value.staticCast_val value.represents))

/-- A scanned value of an unsigned type. -/
theorem toUnsigned_value (hs : T.isSigned = false) (value : Value T)
    (hvalue : result.value = value.val.natAbs) (hsign : result.isNegative = true ↔ value.val < 0) :
    toUnsigned T result = .ok value := by
  have hlt := natAbs_lt value
  obtain ⟨hlow, hhigh⟩ := value.represents
  rw [NativeInteger.minimum_unsigned hs] at hlow
  have hneg : ¬ result.isNegative = true := fun h => absurd (hsign.mp h) (not_lt.mpr hlow)
  have hcast : (Value.staticCast uint64 result.value).val = value.val := by
    rw [Value.staticCast_val]
    · omega
    · have h₁ : uint64.minimum = 0 := rfl
      have h₂ := uint64_maximum
      exact ⟨by omega, by omega⟩
  rw [toUnsigned, if_neg hneg, willCastOverflow_eq, hcast, decide_eq_true value.represents,
    Bool.not_true, if_neg Bool.false_ne_true, saturatingCast_eq, hcast]
  exact congrArg Except.ok (Value.ext (Value.clamp_of_represents value.represents))

theorem readIntegerOrThrow_success (value : Value T)
    (h : scanInteger options reader = (result, behind)) (hstatus : result.status = .success)
    (hvalue : result.value = value.val.natAbs) (hsign : result.isNegative = true ↔ value.val < 0) :
    readIntegerOrThrow T options reader = (.ok value, behind) := by
  rw [readIntegerOrThrow, h]
  simp only [hstatus, ne_eq, not_true_eq_false, if_false]
  cases hs : T.isSigned with
  | true => simp only [if_true, toSigned_value hs value hvalue hsign]
  | false => simp only [Bool.false_eq_true, if_false, toUnsigned_value hs value hvalue hsign]

theorem readIntegerOrThrow_failure (value : Value T)
    (h : (scanInteger options reader).1.status ≠ .success) :
    (readIntegerOrThrow T options reader).1 ≠ .ok value := by
  rw [readIntegerOrThrow]
  simp only [if_pos h]
  exact nofun

end StringCharReader

/-- The written text of a value. -/
theorem appendInteger_eq (value : Value T) (hwidth : format.zeroFill = true ∨ format.fieldWidth = 0) :
    ∃ isNegative, (isNegative = true ↔ value.val < 0) ∧
      appendInteger value format = .ok (signText isNegative format.signMode ++ prefixText format ++
        fieldText format T.bits value.val.natAbs) := by
  obtain ⟨magnitude, heq, hmagnitude, hsign⟩ := fromValue_magnitude value
  have hspaces (digitCount : Nat) : spacePadding digitCount format = 0 := by
    rw [spacePadding]
    rcases hwidth with hfill | hzero
    · rw [if_pos hfill]
    · rw [hzero, Nat.zero_sub]
      exact ite_self 0
  refine ⟨magnitude.isNegative, hsign, ?_⟩
  rw [appendInteger, heq, ok_bind, hmagnitude]
  simp only [hspaces, List.replicate_zero, List.nil_append]
  rfl

/-- A number that is written without spaces is read again, unless it looks like a prefix; and a
failed scan leaves the reader where it was. -/
theorem readIntegerOrThrow_appendInteger (value : Value T) (format : IntegerFormat)
    (hspace : format.signMode ≠ .space)
    (hwidth : format.zeroFill = true ∨ format.fieldWidth = 0) :
    (∃ text, appendInteger value format = .ok text ∧
      (StringCharReader.readIntegerOrThrow T format.parseOptions ⟨0, text⟩ =
        (.ok value, ⟨text.length, []⟩) ↔ ¬ LooksPrefixed format value.val.natAbs)) ∧
    ∀ (options : IntegerParseOptions) (reader : StringCharReader),
      (reader.scanInteger options).1.status ≠ .success → (reader.scanInteger options).2 = reader := by
  refine ⟨?_, StringCharReader.scanInteger_restores⟩
  obtain ⟨isNegative, hsign, htext⟩ := appendInteger_eq value hwidth
  have hroom : value.val.natAbs < format.base.baseFactor ^ (T.bits + 1) := by
    have hle := natAbs_le value
    have hhalf : ((2 ^ T.bits : Nat) : Int) = 2 * T.half := by
      rcases T.size_valid with h | h | h | h <;> simp [NativeInteger.half, NativeInteger.bits, h]
    have hlt : value.val.natAbs < 2 ^ T.bits := by omega
    calc value.val.natAbs < 2 ^ T.bits := hlt
      _ ≤ 2 ^ (T.bits + 1) := Nat.pow_le_pow_right (by decide) (Nat.le_succ _)
      _ ≤ format.base.baseFactor ^ (T.bits + 1) := Nat.pow_le_pow_left (baseFactor_pos _) _
  obtain ⟨hlooks, hplain⟩ := scanInteger_text hroom (natAbs_lt value) hspace isNegative
  refine ⟨_, htext, fun h hl => ?_, fun h => ?_⟩
  · exact StringCharReader.readIntegerOrThrow_failure value (hlooks hl) (congrArg Prod.fst h)
  · exact StringCharReader.readIntegerOrThrow_success value (hplain h) rfl rfl hsign

/-- A negative number with two padding zeros is read again. -/
theorem readIntegerOrThrow_appendInteger_padded :
    let T : NativeInteger := { isSigned := true, size := 2 }
    let value : Value T := ⟨-179, by decide⟩
    let format : IntegerFormat := { base := .hexadecimal, zeroFill := true, fieldWidth := 4 }
    ∃ text, appendInteger value format = .ok text ∧
      StringCharReader.readIntegerOrThrow T format.parseOptions ⟨0, text⟩ =
        (.ok value, ⟨text.length, []⟩) := by
  intro T value format
  obtain ⟨⟨text, htext, hiff⟩, -⟩ :=
    readIntegerOrThrow_appendInteger value format nofun (.inl rfl)
  refine ⟨text, htext, hiff.mpr ?_⟩
  rintro ⟨-, -, n, hlow, -, hwidth, -⟩
  obtain rfl : n = 2 := Nat.add_right_cancel hwidth.symm
  exact absurd hlow (by decide)

/-- The text `0b1` of the number 177 is taken for a binary prefix. -/
theorem readIntegerOrThrow_looksPrefixed :
    let T : NativeInteger := { isSigned := false, size := 1 }
    let value : Value T := ⟨177, by decide⟩
    let format : IntegerFormat := { base := .hexadecimal, zeroFill := true, fieldWidth := 3 }
    appendInteger value format = .ok [0x30, 0x62, 0x31] ∧
      StringCharReader.readIntegerOrThrow T format.parseOptions ⟨0, [0x30, 0x62, 0x31]⟩ =
        (.error (.parseNumber "Integer number has invalid syntax" .parseError (some 1)),
          ⟨0, [0x30, 0x62, 0x31]⟩) := by
  exact ⟨rfl, rfl⟩

end ErbslandCore.Text.IntegerConversion
