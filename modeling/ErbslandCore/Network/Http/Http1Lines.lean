import ErbslandCore.Network.Http.Http1Turn

namespace ErbslandCore.Network
open Library Text
set_option autoImplicit true

/-- A line of a header or trailer section, with the field that it holds. -/
structure HeaderLine (line : List UInt8) (field : HttpField) : Prop where
  wire : ∃ before after, line = field.name.text ++ 0x3A :: (before ++ field.value ++ after) ∧
    ∀ b ∈ before ++ after, b = 0x20 ∨ b = 0x09
  clean : ∀ b ∈ line, b ≠ 0x00 ∧ b ≠ 0x0A ∧ b ≠ 0x0D
  start : ∀ b, line.head? = some b → b ≠ 0x20 ∧ b ≠ 0x09

theorem isAsciiBlank_onlyAscii : U8String.OnlyAscii isAsciiBlank := by
  intro c hc
  simp only [isAsciiBlank, Bool.or_eq_true, decide_eq_true_eq] at hc
  omega

theorem isAsciiBlank_byte {b : UInt8} (h : isAsciiBlank b.toNat = true) : b = 0x20 ∨ b = 0x09 := by
  simp only [isAsciiBlank, Bool.or_eq_true, decide_eq_true_eq] at h
  exact h.imp (fun h => UInt8.toNat_inj.mp h) (fun h => UInt8.toNat_inj.mp h)

theorem isHttpToken_range (h : isHttpToken c = true) : 0x20 < c ∧ c < 0x7F ∧ c ≠ 0x3A := by
  simp [isHttpToken, isAsciiAlphanumeric, isAsciiLetter, isAsciiDigit] at h
  omega

/-- A token has only bytes of token characters. -/
theorem isToken_bytes (h : HttpGrammar.isToken text = true) :
    text ≠ [] ∧ ∀ b ∈ text, isHttpToken b.toNat = true := by
  rw [HttpGrammar.isToken, Bool.and_eq_true, decide_eq_true_eq, U8String.containsOnly,
    List.all_eq_true] at h
  obtain ⟨hne, htoken⟩ := h
  refine ⟨hne, fun b hb => ?_⟩
  obtain ⟨-, hcharacters⟩ := Utf8.ascii_of_characters fun c hc => by
    have := isHttpToken_range (htoken c hc)
    omega
  rw [hcharacters] at htoken
  exact htoken _ (List.mem_map_of_mem hb)

/-- A text of field characters has no control bytes but tabs. -/
theorem fieldCharacters_bytes (h : U8String.containsOnly isFieldCharacter text = true) (b : UInt8)
    (hb : b ∈ text) : b ≠ 0x00 ∧ b ≠ 0x0A ∧ b ≠ 0x0D := by
  rw [U8String.containsOnly, List.all_eq_true] at h
  by_contra hc
  have hcontrol : b.toNat = 0x00 ∨ b.toNat = 0x0A ∨ b.toNat = 0x0D := by
    by_contra hne
    rw [not_or, not_or] at hne
    exact hc ⟨fun hz => hne.1 (by rw [hz]; rfl), fun hz => hne.2.1 (by rw [hz]; rfl),
      fun hz => hne.2.2 (by rw [hz]; rfl)⟩
  have hfield := h b.toNat ((Utf8.mem_characters_ascii text (by omega)).mpr ⟨b, hb, rfl⟩)
  rcases hcontrol with hz | hz | hz <;> (rw [hz] at hfield; exact absurd hfield (by decide))

/-- A field value neither starts nor ends with a blank. -/
theorem isFieldValue_ends (h : HttpGrammar.isFieldValue value = true) :
    U8String.containsOnly isFieldCharacter value = true ∧
      (∀ b, value.head? = some b → isAsciiBlank b.toNat = false) ∧
      (∀ b, value.getLast? = some b → isAsciiBlank b.toNat = false) := by
  rw [HttpGrammar.isFieldValue] at h
  split at h
  case isTrue => cases h
  case isFalse hends =>
    simp only [Bool.or_eq_true, not_or] at hends
    obtain ⟨⟨⟨h₁, h₂⟩, h₃⟩, h₄⟩ := hends
    rw [U8String.startsWith_eq value (by decide)] at h₁ h₂
    rw [U8String.endsWith_eq value (by decide)] at h₃ h₄
    refine ⟨h, fun b hb => ?_, fun b hb => ?_⟩
    · rw [hb, Option.map_some, Option.some_inj] at h₁ h₂
      simp [isAsciiBlank, h₁, h₂]
    · rw [hb, Option.map_some, Option.some_inj] at h₃ h₄
      simp [isAsciiBlank, h₃, h₄]

theorem slice_to_end (text : List UInt8) (start : Nat) :
    U8String.slice text start text.length = text.drop start := by
  rw [U8String.slice, List.take_length]

namespace Http1Message

/-- A line that is parsed as a field holds this field. -/
theorem parseFieldLine_ok {m : Http1Message} (h : m.parseFieldLine line trailer = .ok (field, bytes)) :
    HeaderLine line field ∧ bytes = m.fieldBytes + field.wireLength ∧
      (trailer = true → field.name.type.isKnown = false) := by
  rw [parseFieldLine] at h
  split at h
  case isTrue => cases h
  case isFalse hfold =>
    split at h
    case h_1 => cases h
    case h_2 => cases h
    case h_3 colon hcolon =>
      split at h
      case isTrue => cases h
      case isFalse =>
        generalize (if trailer = true then m.limits.trailerLimits else m.limits.headerLimits) = limits at h
        generalize (if trailer = true then Http1FailureReason.trailerLimitExceeded
          else Http1FailureReason.headerLimitExceeded) = limitReason at h
        simp only at h
        split_ifs at h with hlength hcount haggregate hvalid htrailer
        · cases h
        · cases h
        · cases h
        · cases h
        swap
        · cases h
        cases h
        obtain ⟨-, hget, -⟩ := U8String.findFirstOf_some hcolon
        obtain ⟨hlt, hget⟩ := List.getElem?_eq_some_iff.mp hget
        have hline : line = U8String.slice line 0 (colon + 1) ++
            0x3A :: U8String.slice line (colon + 2) line.length := by
          have hdrop := List.drop_eq_getElem_cons hlt
          rw [hget] at hdrop
          rw [slice_to_end, U8String.slice, List.drop_zero, ← hdrop, List.take_append_drop]
        obtain ⟨before, after, hsplit, hblank⟩ := U8String.trimmed_split isAsciiBlank_onlyAscii
          (U8String.slice line (colon + 2) line.length)
        obtain ⟨hne, htoken⟩ := isToken_bytes hvalid.1
        have hvalue := (isFieldValue_ends hvalid.2).1
        have hwire : line = U8String.slice line 0 (colon + 1) ++ 0x3A :: (before ++
            U8String.trimmed isAsciiBlank (U8String.slice line (colon + 2) line.length) ++ after) := by
          rw [← hsplit]
          exact hline
        refine ⟨⟨⟨before, after, hwire, fun b hb => isAsciiBlank_byte (hblank b hb)⟩, fun b hb => ?_,
          fun b hb => ?_⟩, ?_, ?_⟩
        · rw [hwire] at hb
          rcases List.mem_append.mp hb with hb | hb
          · have := isHttpToken_range (htoken b hb)
            exact ⟨fun hz => by simp [hz] at this, fun hz => by simp [hz] at this,
              fun hz => by simp [hz] at this⟩
          · rcases List.mem_cons.mp hb with rfl | hb
            · decide
            · rcases List.mem_append.mp hb with hb | hb
              · rcases List.mem_append.mp hb with hb | hb
                · rcases isAsciiBlank_byte (hblank b (List.mem_append_left _ hb)) with rfl | rfl <;> decide
                · exact fieldCharacters_bytes hvalue b hb
              · rcases isAsciiBlank_byte (hblank b (List.mem_append_right _ hb)) with rfl | rfl <;> decide
        · rw [hline, List.head?_append_of_ne_nil _ hne] at hb
          have := isHttpToken_range (htoken b (List.mem_of_mem_head? hb))
          exact ⟨fun hz => by simp [hz] at this, fun hz => by simp [hz] at this⟩
        · simp only [HttpField.wireLength]
          omega
        · intro ht
          simpa [ht] using htrailer

end Http1Message
end ErbslandCore.Network
