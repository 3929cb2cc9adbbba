import Mathlib.Data.List.Lex
import ErbslandCore.Library.ByteOrder

namespace ErbslandCore.Library.Utf8
set_option autoImplicit true

/-- A Unicode scalar value. -/
def IsScalar (c : Nat) : Prop := c ≤ 0x10FFFF ∧ (c < 0xD800 ∨ 0xDFFF < c)

/-- The low six bits of a code point, as a continuation byte. -/
def continuation (c : Nat) : UInt8 := UInt8.ofNat (0x80 + c % 64)

/-- The UTF-8 sequence of a code point. -/
def encode (c : Nat) : List UInt8 :=
  if c ≤ 0x7F then [UInt8.ofNat c]
  else if c ≤ 0x7FF then [UInt8.ofNat (0xC0 + c / 64), continuation c]
  else if c ≤ 0xFFFF then
    [UInt8.ofNat (0xE0 + c / 4096), continuation (c / 64), continuation c]
  else
    [UInt8.ofNat (0xF0 + c / 262144), continuation (c / 4096), continuation (c / 64),
      continuation c]

def encodeAll (cs : List Nat) : List UInt8 := cs.flatMap encode

@[simp] theorem encodeAll_nil : encodeAll [] = [] := rfl

@[simp] theorem encodeAll_cons : encodeAll (c :: cs) = encode c ++ encodeAll cs := rfl

@[simp] theorem encodeAll_append : encodeAll (cs ++ ds) = encodeAll cs ++ encodeAll ds :=
  List.flatMap_append

theorem continuation_toNat (c : Nat) : (continuation c).toNat = 0x80 + c % 64 := by
  rw [continuation, UInt8.toNat_ofNat', Nat.mod_eq_of_lt (by omega)]

theorem encode_ne_nil (c : Nat) : encode c ≠ [] := by
  unfold encode
  split_ifs <;> simp

/-- The forms of a sequence, with the numbers that its bytes hold. -/
theorem encode_cases (h : c ≤ 0x10FFFF) :
    c ≤ 0x7F ∧ (∃ a : UInt8, encode c = [a] ∧ a.toNat = c) ∨
    0x80 ≤ c ∧ c ≤ 0x7FF ∧ (∃ a b : UInt8, encode c = [a, b] ∧ a.toNat = 0xC0 + c / 64 ∧
      b.toNat = 0x80 + c % 64) ∨
    0x800 ≤ c ∧ c ≤ 0xFFFF ∧ (∃ a b d : UInt8, encode c = [a, b, d] ∧
      a.toNat = 0xE0 + c / 4096 ∧ b.toNat = 0x80 + c / 64 % 64 ∧ d.toNat = 0x80 + c % 64) ∨
    0x10000 ≤ c ∧ (∃ a b d e : UInt8, encode c = [a, b, d, e] ∧
      a.toNat = 0xF0 + c / 262144 ∧ b.toNat = 0x80 + c / 4096 % 64 ∧
      d.toNat = 0x80 + c / 64 % 64 ∧ e.toNat = 0x80 + c % 64) := by
  unfold encode
  split_ifs with h₁ h₂ h₃
  · refine .inl ⟨h₁, _, rfl, ?_⟩
    rw [UInt8.toNat_ofNat', Nat.mod_eq_of_lt (by omega)]
  · refine .inr (.inl ⟨by omega, h₂, _, _, rfl, ?_, continuation_toNat c⟩)
    rw [UInt8.toNat_ofNat', Nat.mod_eq_of_lt (by omega)]
  · refine .inr (.inr (.inl ⟨by omega, h₃, _, _, _, rfl, ?_, continuation_toNat _,
      continuation_toNat c⟩))
    rw [UInt8.toNat_ofNat', Nat.mod_eq_of_lt (by omega)]
  · refine .inr (.inr (.inr ⟨by omega, _, _, _, _, rfl, ?_, continuation_toNat _,
      continuation_toNat _, continuation_toNat c⟩))
    rw [UInt8.toNat_ofNat', Nat.mod_eq_of_lt (by omega)]

/-- Sequences of code points are ordered like the code points, whatever follows them. -/
theorem encode_lt (h : c < d) (hd : d ≤ 0x10FFFF) (s t : List UInt8) :
    encode c ++ s < encode d ++ t := by
  rcases encode_cases (show c ≤ 0x10FFFF by omega) with
    ⟨_, a, ha, h₁⟩ | ⟨_, _, a, b, ha, h₁, h₂⟩ | ⟨_, _, a, b, e, ha, h₁, h₂, h₃⟩ |
      ⟨_, a, b, e, f, ha, h₁, h₂, h₃, h₄⟩ <;>
    rcases encode_cases hd with
      ⟨_, a', ha', h₁'⟩ | ⟨_, _, a', b', ha', h₁', h₂'⟩ | ⟨_, _, a', b', e', ha', h₁', h₂', h₃'⟩ |
        ⟨_, a', b', e', f', ha', h₁', h₂', h₃', h₄'⟩ <;>
    rw [ha, ha'] <;>
    -- Between forms of different lengths, the first byte decides.
    first
    | omega
    | exact cons_lt_cons (.inl (by omega))
    | skip
  · refine cons_lt_cons ?_
    by_cases e₁ : a.toNat < a'.toNat
    · exact .inl e₁
    · exact .inr ⟨by omega, cons_lt_cons (.inl (by omega))⟩
  · refine cons_lt_cons ?_
    by_cases e₁ : a.toNat < a'.toNat
    · exact .inl e₁
    refine .inr ⟨by omega, cons_lt_cons ?_⟩
    by_cases e₂ : b.toNat < b'.toNat
    · exact .inl e₂
    · exact .inr ⟨by omega, cons_lt_cons (.inl (by omega))⟩
  · refine cons_lt_cons ?_
    by_cases e₁ : a.toNat < a'.toNat
    · exact .inl e₁
    refine .inr ⟨by omega, cons_lt_cons ?_⟩
    by_cases e₂ : b.toNat < b'.toNat
    · exact .inl e₂
    refine .inr ⟨by omega, cons_lt_cons ?_⟩
    by_cases e₃ : e.toNat < e'.toNat
    · exact .inl e₃
    · exact .inr ⟨by omega, cons_lt_cons (.inl (by omega))⟩

/-- Lists of code points are ordered like their bytes. -/
theorem encodeAll_lt (hcs : ∀ c ∈ cs, c ≤ 0x10FFFF) (hds : ∀ d ∈ ds, d ≤ 0x10FFFF) (h : cs < ds) :
    encodeAll cs < encodeAll ds := by
  induction cs generalizing ds with
  | nil =>
    cases ds with
    | nil => exact absurd h (List.lt_irrefl _)
    | cons d ds =>
      rw [encodeAll_cons]
      obtain ⟨a, t, ht⟩ := List.exists_cons_of_ne_nil (encode_ne_nil d)
      rw [ht]
      exact List.nil_lt_cons _ _
  | cons c cs ih =>
    cases ds with
    | nil => exact absurd h (List.not_lt_nil _)
    | cons d ds =>
      rw [encodeAll_cons, encodeAll_cons]
      rcases List.cons_lt_cons_iff.mp h with hlt | ⟨rfl, hlt⟩
      · exact encode_lt hlt (hds d (List.mem_cons_self ..)) _ _
      · exact append_lt_append _ (ih (fun x hx => hcs x (List.mem_cons_of_mem _ hx))
          (fun x hx => hds x (List.mem_cons_of_mem _ hx)) hlt)

theorem encodeAll_lt_iff (hcs : ∀ c ∈ cs, c ≤ 0x10FFFF) (hds : ∀ d ∈ ds, d ≤ 0x10FFFF) :
    encodeAll cs < encodeAll ds ↔ cs < ds := by
  refine ⟨fun h => ?_, encodeAll_lt hcs hds⟩
  rcases lt_trichotomy cs ds with hlt | rfl | hgt
  · exact hlt
  · exact absurd h (List.lt_irrefl _)
  · exact absurd h (List.lt_asymm (encodeAll_lt hds hcs hgt))

end ErbslandCore.Library.Utf8
