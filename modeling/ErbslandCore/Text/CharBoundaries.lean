import ErbslandCore.Library.Boundaries
import ErbslandCore.Text.U8String

namespace ErbslandCore.Text
open Library
set_option autoImplicit true

namespace Utf8

def IsContinuation (byte : UInt8) : Prop := 0x80 ≤ byte.toNat ∧ byte.toNat < 0xC0

/-- The byte, with the byte after it, begins a sequence of a size. -/
def StartsSequence (size : Nat) (byte second : UInt8) : Prop :=
  (size = 2 ∧ 0xC2 ≤ byte.toNat ∧ byte.toNat < 0xE0) ∨
  (size = 3 ∧ 0xE0 ≤ byte.toNat ∧ byte.toNat < 0xF0 ∧
    (byte.toNat ≠ 0xE0 ∨ 0xA0 ≤ second.toNat)) ∨
  (size = 4 ∧ 0xF0 ≤ byte.toNat ∧ byte.toNat < 0xF5 ∧
    (byte.toNat ≠ 0xF0 ∨ 0x90 ≤ second.toNat))

instance (byte : UInt8) : Decidable (IsContinuation byte) := inferInstanceAs (Decidable (_ ∧ _))

instance (size : Nat) (byte second : UInt8) : Decidable (StartsSequence size byte second) :=
  inferInstanceAs (Decidable (_ ∨ _))

/-- The first byte begins a sequence of a size that the bytes after it continue. -/
def IsSequence (size : Nat) (byte : UInt8) (buffer : List UInt8) : Prop :=
  StartsSequence size byte (buffer[0]?.getD 0) ∧
    ∀ k, k + 1 < size → ∃ next, buffer[k]? = some next ∧ IsContinuation next

theorem StartsSequence.size_le (h : StartsSequence size byte second) : 2 ≤ size ∧ size ≤ 4 := by
  rcases h with h | h | h <;> omega

theorem StartsSequence.not_continuation (h : StartsSequence size byte second) :
    ¬ IsContinuation byte := by
  rintro ⟨-, hlt⟩
  rcases h with h | h | h <;> omega

theorem isContinuationByte_iff (buffer : List UInt8) (k : Nat) :
    (buffer[k]?.map fun byte => decide (byte &&& 0b11000000 = 0b10000000)).getD false = true ↔
      ∃ next, buffer[k]? = some next ∧ IsContinuation next := by
  cases hb : buffer[k]? with
  | none => simp
  | some next => simp [continuation_iff, IsContinuation]

theorem lead_iff (byte second : UInt8) :
    ((byte ≠ 0xE0 ∨ second ≥ 0xA0) ↔ byte.toNat ≠ 0xE0 ∨ 0xA0 ≤ second.toNat) ∧
    ((byte ≠ 0xF0 ∨ second ≥ 0x90) ↔ byte.toNat ≠ 0xF0 ∨ 0x90 ≤ second.toNat) := by
  obtain ⟨-, -, -, hE0, hF0⟩ := firstByte_comparisons byte
  have hA0 : second ≥ 0xA0 ↔ 0xA0 ≤ second.toNat := ge_iff second 0xA0 (by decide)
  have h90 : second ≥ 0x90 ↔ 0x90 ≤ second.toNat := ge_iff second 0x90 (by decide)
  constructor
  · rw [ne_eq, hE0, hA0]
  · rw [ne_eq, hF0, h90]

theorem fastAdvanceChar_sequence (h : IsSequence size byte buffer) :
    fastAdvanceChar (byte :: buffer) = size := by
  obtain ⟨h₅, h₂, h₃, h₄⟩ := firstByte_ranges byte
  obtain ⟨h80, hF5, hC2, -, -⟩ := firstByte_comparisons byte
  obtain ⟨hE0, hF0⟩ := lead_iff byte (buffer[0]?.getD 0)
  obtain ⟨hstart, hnext⟩ := h
  have hcontinues : ∀ k, k + 1 < size → (buffer[k]?.map fun byte =>
      decide (byte &&& 0b11000000 = 0b10000000)).getD false = true :=
    fun k hk => (isContinuationByte_iff buffer k).mpr (hnext k hk)
  have hfirst : ¬ (byte < 0x80 ∨ byte &&& 0b11111000 = 0b11111000) := by
    rw [h80, h₅]
    rcases hstart with h | h | h <;> omega
  rw [fastAdvanceChar]
  simp only [if_neg hfirst]
  rcases hstart with ⟨rfl, hl, hu⟩ | ⟨rfl, hl, hu, hlead⟩ | ⟨rfl, hl, hu, hlead⟩
  · rw [if_pos (h₂.mpr (by omega)), if_pos ⟨hC2.mpr hl, hcontinues 0 (by decide)⟩]
  · rw [if_neg (by rw [h₂]; omega), if_pos (h₃.mpr ⟨hl, hu⟩),
      if_pos ⟨hcontinues 0 (by decide), hcontinues 1 (by decide), hE0.mpr hlead⟩]
  · rw [if_neg (by rw [h₂]; omega), if_neg (by rw [h₃]; omega), if_pos (h₄.mpr (by omega)),
      if_pos ⟨hF5.mpr hu, hcontinues 0 (by decide), hcontinues 1 (by decide),
        hcontinues 2 (by decide), hF0.mpr hlead⟩]

theorem fastAdvanceChar_cases (byte : UInt8) (buffer : List UInt8) :
    fastAdvanceChar (byte :: buffer) = 1 ∨
      IsSequence (fastAdvanceChar (byte :: buffer)) byte buffer := by
  obtain ⟨h₅, h₂, h₃, h₄⟩ := firstByte_ranges byte
  obtain ⟨h80, hF5, hC2, -, -⟩ := firstByte_comparisons byte
  obtain ⟨hE0, hF0⟩ := lead_iff byte (buffer[0]?.getD 0)
  have hcontinues := isContinuationByte_iff buffer
  rw [fastAdvanceChar]
  split_ifs with h1 hr2 hs2 hr3 hs3 hr4 hs4
  · exact .inl rfl
  · refine .inr ⟨.inl ⟨rfl, hC2.mp hs2.1, (h₂.mp hr2).2⟩, fun k hk => ?_⟩
    obtain rfl : k = 0 := by omega
    exact (hcontinues 0).mp hs2.2
  · exact .inl rfl
  · refine .inr ⟨.inr (.inl ⟨rfl, (h₃.mp hr3).1, (h₃.mp hr3).2, hE0.mp hs3.2.2⟩), fun k hk => ?_⟩
    rcases (by omega : k = 0 ∨ k = 1) with rfl | rfl
    · exact (hcontinues 0).mp hs3.1
    · exact (hcontinues 1).mp hs3.2.1
  · exact .inl rfl
  · refine .inr ⟨.inr (.inr ⟨rfl, (h₄.mp hr4).1, hF5.mp hs4.1, hF0.mp hs4.2.2.2.2⟩),
      fun k hk => ?_⟩
    rcases (by omega : k = 0 ∨ k = 1 ∨ k = 2) with rfl | rfl | rfl
    · exact (hcontinues 0).mp hs4.2.1
    · exact (hcontinues 1).mp hs4.2.2.1
    · exact (hcontinues 2).mp hs4.2.2.2.1
  · exact .inl rfl
  · exact .inl rfl

/-- The characters of a buffer, as the tolerant decoder passes over them. -/
def byteUnits : Boundaries.Units UInt8 where
  length := fastAdvanceChar
  IsContinuation := IsContinuation
  length_pos byte buffer := by
    rcases fastAdvanceChar_cases byte buffer with h | h
    · rw [h]
      exact Nat.one_pos
    · exact Nat.lt_of_lt_of_le (by decide) h.1.size_le.1
  length_le buffer := by
    cases buffer with
    | nil => exact Nat.le_refl 0
    | cons byte buffer =>
      rcases fastAdvanceChar_cases byte buffer with h | h
      · rw [h]
        exact Nat.succ_pos _
      · have hsize := h.1.size_le.1
        obtain ⟨next, hnext, -⟩ := h.2 (fastAdvanceChar (byte :: buffer) - 2) (by omega)
        have hlt := (List.getElem?_eq_some_iff.mp hnext).1
        rw [List.length_cons]
        omega
  start byte buffer h := by
    rcases fastAdvanceChar_cases byte buffer with hone | hlong
    · omega
    · exact hlong.1.not_continuation
  continuation byte buffer k next hk hnext := by
    rcases fastAdvanceChar_cases byte buffer with hone | hlong
    · omega
    · obtain ⟨found, hfound, hcontinues⟩ := hlong.2 k hk
      rw [hfound, Option.some.injEq] at hnext
      exact hnext ▸ hcontinues

end Utf8

namespace U8String
open Utf8

/-- The next position of the tolerant decoder; nothing moves at the end. -/
def fastAdvanceChar (buffer : List UInt8) (position : Nat) : Nat :=
  if position < buffer.length then position + Utf8.fastAdvanceChar (buffer.drop position)
  else position

theorem lengthByte_eq (buffer : List UInt8) (h : delta ≤ index) :
    lengthByte buffer index delta =
      if IsContinuation (buffer[index - delta]?.getD 0) then 0
      else if StartsSequence delta (buffer[index - delta]?.getD 0)
        (buffer[index - delta + 1]?.getD 0) then delta
      else 1 := by
  obtain ⟨h₅, h₂, h₃, h₄⟩ := firstByte_ranges (buffer[index - delta]?.getD 0)
  obtain ⟨h80, hF5, hC2, -, -⟩ := firstByte_comparisons (buffer[index - delta]?.getD 0)
  obtain ⟨hE0, hF0⟩ :=
    lead_iff (buffer[index - delta]?.getD 0) (buffer[index - delta + 1]?.getD 0)
  rw [lengthByte, if_neg (Nat.not_lt.mpr h)]
  simp only [continuation_iff, h80, hF5, hC2, h₅, h₂, h₃, h₄, hE0, hF0]
  by_cases hc : IsContinuation (buffer[index - delta]?.getD 0)
  · rw [if_pos hc]
    exact if_pos hc
  · rw [if_neg hc]
    rw [IsContinuation] at hc
    by_cases hs : StartsSequence delta (buffer[index - delta]?.getD 0)
        (buffer[index - delta + 1]?.getD 0)
    · rw [if_pos hs]
      rw [StartsSequence] at hs
      split_ifs <;> omega
    · rw [if_neg hs]
      rw [StartsSequence] at hs
      split_ifs <;> omega

/-- The distances nearer than a first byte ask for a longer one. -/
theorem find_lengthByte (buffer : List UInt8) (h₀ : 0 < delta) (h₄ : delta ≤ 4)
    (hnear : ∀ near, 0 < near → near < delta → lengthByte buffer index near = 0)
    (h : 0 < lengthByte buffer index delta) :
    ([1, 2, 3, 4].map (lengthByte buffer index)).find? (0 < ·) =
      some (lengthByte buffer index delta) := by
  have hzero : ∀ near, 0 < near → near < delta →
      decide (0 < lengthByte buffer index near) = false :=
    fun near hpos hlt => by rw [hnear near hpos hlt]; rfl
  have hfound : decide (0 < lengthByte buffer index delta) = true := decide_eq_true h
  simp only [List.map_cons, List.map_nil, List.find?_cons]
  rcases (by omega : delta = 1 ∨ delta = 2 ∨ delta = 3 ∨ delta = 4) with rfl | rfl | rfl | rfl
  · simp only [hfound]
  · simp only [hzero 1 (by decide) (by decide), hfound]
  · simp only [hzero 1 (by decide) (by decide), hzero 2 (by decide) (by decide), hfound]
  · simp only [hzero 1 (by decide) (by decide), hzero 2 (by decide) (by decide),
      hzero 3 (by decide) (by decide), hfound]

theorem find_lengthByte_none (buffer : List UInt8)
    (h : ∀ near, 0 < near → near ≤ 4 → lengthByte buffer index near = 0) :
    ([1, 2, 3, 4].map (lengthByte buffer index)).find? (0 < ·) = none := by
  apply List.find?_eq_none.mpr
  intro result hresult
  obtain ⟨near, hnear, rfl⟩ := List.mem_map.mp hresult
  rw [h near (by grind) (by grind)]
  decide

theorem lengthByte_zero (buffer : List UInt8) (h : lengthByte buffer index delta = 0) :
    delta ≤ index ∧ IsContinuation (buffer[index - delta]?.getD 0) := by
  have hle : delta ≤ index := by
    by_contra hlt
    rw [lengthByte, if_pos (Nat.not_le.mp hlt)] at h
    exact absurd h (by decide)
  refine ⟨hle, ?_⟩
  by_contra hc
  rw [lengthByte_eq buffer hle, if_neg hc] at h
  split_ifs at h with hs
  exact absurd hs.size_le.1 (by omega)

/-- The distance that decides the step back: none but continuation bytes are nearer. -/
theorem fastRetreatChar_nearest (buffer : List UInt8) (h₀ : 0 < p) (hp : p ≤ buffer.length) :
    fastRetreatChar buffer p = p - 1 ∨
      ∃ delta, delta ≤ p ∧ fastRetreatChar buffer p = p - delta ∧
        StartsSequence delta (buffer[p - delta]?.getD 0) (buffer[p - delta + 1]?.getD 0) ∧
        ∀ near, 0 < near → near < delta → IsContinuation (buffer[p - near]?.getD 0) := by
  have hexists : ∃ delta, 0 < delta ∧ 0 < lengthByte buffer p delta := by
    refine ⟨p + 1, Nat.succ_pos p, ?_⟩
    rw [lengthByte, if_pos (Nat.lt_succ_self p)]
    exact Nat.one_pos
  obtain ⟨hpos, hlength⟩ := Nat.find_spec hexists
  have hnear : ∀ near, 0 < near → near < Nat.find hexists → lengthByte buffer p near = 0 := by
    intro near hn hlt
    by_contra hne
    exact Nat.find_min hexists hlt ⟨hn, Nat.pos_of_ne_zero hne⟩
  rw [fastRetreatChar, min_eq_left hp]
  simp only [if_neg (Nat.pos_iff_ne_zero.mp h₀)]
  rcases Nat.lt_or_ge 4 (Nat.find hexists) with hfar | h₄
  · rw [find_lengthByte_none buffer fun near hn hle => hnear near hn (hle.trans_lt hfar)]
    exact .inl rfl
  · rw [find_lengthByte buffer hpos h₄ hnear hlength]
    rcases Nat.lt_or_ge p (Nat.find hexists) with hout | hle
    · rw [lengthByte, if_pos hout]
      exact .inl rfl
    · rw [lengthByte_eq buffer hle] at hlength ⊢
      split_ifs at hlength ⊢ with hc hs
      · exact absurd hlength (Nat.lt_irrefl 0)
      · exact .inr ⟨_, hle, rfl, hs, fun near hn hlt =>
          (lengthByte_zero buffer (hnear near hn hlt)).2⟩
      · exact .inl rfl

theorem advance_of_start (buffer : List UInt8) (hend : p + delta ≤ buffer.length)
    (hstart : StartsSequence delta (buffer[p]?.getD 0) (buffer[p + 1]?.getD 0))
    (hnext : ∀ k, 0 < k → k < delta → IsContinuation (buffer[p + k]?.getD 0)) :
    Utf8.fastAdvanceChar (buffer.drop p) = delta := by
  have hp : p < buffer.length := by
    have htwo := hstart.size_le.1
    omega
  rw [List.getElem?_eq_getElem hp, Option.getD_some] at hstart
  rw [List.drop_eq_getElem_cons hp]
  apply fastAdvanceChar_sequence
  constructor
  · rwa [List.getElem?_drop, Nat.add_zero]
  · intro k hk
    have hin : p + (k + 1) < buffer.length := by omega
    have hc := hnext (k + 1) (Nat.succ_pos k) hk
    rw [List.getElem?_eq_getElem hin, Option.getD_some] at hc
    refine ⟨buffer[p + (k + 1)], ?_, hc⟩
    rw [List.getElem?_drop, Nat.add_assoc, Nat.add_comm 1 k, List.getElem?_eq_getElem hin]

theorem start_of_advance (buffer : List UInt8) (hp : p < buffer.length)
    (h : 1 < Utf8.fastAdvanceChar (buffer.drop p)) :
    StartsSequence (Utf8.fastAdvanceChar (buffer.drop p)) (buffer[p]?.getD 0)
      (buffer[p + 1]?.getD 0) ∧
    ∀ k, 0 < k → k < Utf8.fastAdvanceChar (buffer.drop p) →
      IsContinuation (buffer[p + k]?.getD 0) := by
  rw [List.drop_eq_getElem_cons hp] at h ⊢
  rcases fastAdvanceChar_cases buffer[p] (buffer.drop (p + 1)) with hone | ⟨hstart, hnext⟩
  · omega
  · rw [List.getElem?_drop, Nat.add_zero] at hstart
    rw [List.getElem?_eq_getElem hp, Option.getD_some]
    refine ⟨hstart, fun k hk hlt => ?_⟩
    obtain ⟨next, hget, hc⟩ := hnext (k - 1) (by omega)
    rw [List.getElem?_drop, Nat.add_assoc, Nat.add_sub_cancel' hk] at hget
    rwa [hget, Option.getD_some]

theorem fastRetreatChar_of_start (buffer : List UInt8) (hend : p + delta ≤ buffer.length)
    (hstart : StartsSequence delta (buffer[p]?.getD 0) (buffer[p + 1]?.getD 0))
    (hnext : ∀ k, 0 < k → k < delta → IsContinuation (buffer[p + k]?.getD 0)) :
    fastRetreatChar buffer (p + delta) = p := by
  obtain ⟨htwo, hfour⟩ := hstart.size_le
  have hpos : 0 < delta := Nat.lt_of_lt_of_le (by decide) htwo
  have hlength : lengthByte buffer (p + delta) delta = delta := by
    rw [lengthByte_eq buffer (Nat.le_add_left delta p), Nat.add_sub_cancel,
      if_neg hstart.not_continuation, if_pos hstart]
  have hnear : ∀ near, 0 < near → near < delta → lengthByte buffer (p + delta) near = 0 := by
    intro near hn hlt
    have hindex : p + delta - near = p + (delta - near) := by omega
    rw [lengthByte_eq buffer (by omega), hindex, if_pos (hnext _ (by omega) (by omega))]
  rw [fastRetreatChar, min_eq_left hend]
  simp only [if_neg (by omega : ¬ p + delta = 0)]
  rw [find_lengthByte buffer hpos hfour hnear (by rwa [hlength]), hlength]
  exact Nat.add_sub_cancel p delta

/-- The step back takes exactly the sequences that the decoder passes over as one. -/
theorem fastRetreatChar_retreats (buffer : List UInt8) :
    byteUnits.Retreats buffer (fastRetreatChar buffer) where
  of_unit p hp hlong := by
    obtain ⟨hstart, hnext⟩ := start_of_advance buffer hp hlong
    apply fastRetreatChar_of_start buffer _ hstart hnext
    have hle := byteUnits.length_le (buffer.drop p)
    rw [List.length_drop] at hle
    exact (Nat.add_le_of_le_sub' hp.le hle)
  cases p h₀ hp := by
    rcases fastRetreatChar_nearest buffer h₀ hp with hone | ⟨delta, hle, hback, hstart, hnear⟩
    · exact .inl hone
    · obtain ⟨htwo, -⟩ := hstart.size_le
      have hsize : Utf8.fastAdvanceChar (buffer.drop (p - delta)) = delta := by
        apply advance_of_start buffer (by omega) hstart
        intro k hk hlt
        have hindex : p - delta + k = p - (delta - k) := by omega
        rw [hindex]
        exact hnear (delta - k) (by omega) (by omega)
      right
      rw [hback]
      have hlength : byteUnits.length (buffer.drop (p - delta)) = delta := hsize
      rw [hlength]
      exact ⟨by omega, htwo, Nat.sub_add_cancel hle⟩

/-- The character boundaries of any bytes are the same in both directions. -/
theorem boundaries_agree (buffer : List UInt8) :
    (∀ k, (fastAdvanceChar buffer)^[k] 0 < buffer.length →
      fastRetreatChar buffer ((fastAdvanceChar buffer)^[k + 1] 0) =
        (fastAdvanceChar buffer)^[k] 0) ∧
    ∀ position, (∃ k, (fastAdvanceChar buffer)^[k] 0 = position) ↔
      ∃ k, (fastRetreatChar buffer)^[k] buffer.length = position := by
  have hretreats := fastRetreatChar_retreats buffer
  have hadvance : fastAdvanceChar buffer = byteUnits.advance buffer := rfl
  rw [hadvance]
  refine ⟨fun k hk => ?_, fun position => ?_⟩
  · rw [Function.iterate_succ_apply']
    exact hretreats.retreat_advance ⟨k, rfl⟩ hk
  · have hzero : fastRetreatChar buffer 0 = 0 := by
      rw [fastRetreatChar, Nat.zero_min]
      rfl
    exact hretreats.isBoundary_iff hzero

end U8String

end ErbslandCore.Text
