import ErbslandCore.Data.DataError
import ErbslandCore.Mem.ByteWriter
import ErbslandCore.Text.StringMap
import ErbslandCore.Time.Timestamp

namespace ErbslandCore.Data.Bson
open Library Mem Text Time
set_option autoImplicit true

/-- A value tree. Doubles are kept as their bits; an opaque value is the framed payload of a type
without a representation of its own. -/
inductive BsonValue where
  | null
  | bool (value : Bool)
  | int32 (value : Int32)
  | int64 (value : Int64)
  | double (bits : UInt64)
  | text (value : List UInt8)
  | binary (bytes : List UInt8) (subtype : UInt8)
  | dateTime (value : Timestamp)
  | array (values : List BsonValue)
  | document (entries : List (List UInt8 × BsonValue))
  | opaqueValue (typeCode : UInt8) (payload : List UInt8)

/-- Induction over a value, with the members of its containers. -/
theorem BsonValue.induction {motive : BsonValue → Prop} (null : motive .null)
    (bool : ∀ value, motive (.bool value)) (int32 : ∀ value, motive (.int32 value))
    (int64 : ∀ value, motive (.int64 value)) (double : ∀ bits, motive (.double bits))
    (text : ∀ value, motive (.text value))
    (binary : ∀ bytes subtype, motive (.binary bytes subtype))
    (dateTime : ∀ value, motive (.dateTime value))
    (array : ∀ values, (∀ v ∈ values, motive v) → motive (.array values))
    (document : ∀ entries, (∀ e ∈ entries, motive e.2) → motive (.document entries))
    (opaqueValue : ∀ typeCode payload, motive (.opaqueValue typeCode payload)) (v : BsonValue) :
    motive v := by
  refine BsonValue.rec (motive_2 := fun values => ∀ v ∈ values, motive v)
    (motive_3 := fun entries => ∀ e ∈ entries, motive e.2) (motive_4 := fun e => motive e.2)
    null bool int32 int64 double text binary dateTime array document opaqueValue ?_ ?_ ?_ ?_ ?_ v
  · exact fun _ h => absurd h List.not_mem_nil
  · intro head tail ih iht v hv
    rcases List.mem_cons.mp hv with rfl | hv
    · exact ih
    · exact iht v hv
  · exact fun _ h => absurd h List.not_mem_nil
  · intro head tail ih iht e he
    rcases List.mem_cons.mp he with rfl | he
    · exact ih
    · exact iht e he
  · exact fun _ _ ih => ih

structure BsonParseOptions where
  maximumInputLength : Nat := 16 * 1024 * 1024
  maximumNesting : Nat := 64
  maximumValueCount : Nat := 1000000
  maximumStringLength : Nat := 8 * 1024 * 1024

/-- The decimal digits of a number. -/
def fromInteger (value : Nat) : List UInt8 :=
  (Nat.toDigits 10 value).map fun digit => UInt8.ofNat digit.toNat

theorem fromInteger_digits (value : Nat) :
    ∀ b ∈ fromInteger value, 0x30 ≤ b.toNat ∧ b.toNat ≤ 0x39 := by
  intro b hb
  obtain ⟨digit, hd, rfl⟩ := List.mem_map.mp hb
  have hdigit : digit.isDigit = true := Nat.isDigit_of_mem_toDigits (by decide) (by decide) hd
  rw [Char.isDigit, Bool.and_eq_true, decide_eq_true_eq, decide_eq_true_eq] at hdigit
  obtain ⟨hl, hu⟩ := hdigit
  have hl : 0x30 ≤ digit.toNat := UInt32.le_iff_toNat_le.mp hl
  have hu : digit.toNat ≤ 0x39 := UInt32.le_iff_toNat_le.mp hu
  rw [UInt8.toNat_ofNat_of_lt' (by show digit.toNat < 256; omega)]
  exact ⟨hl, hu⟩

theorem eq_fromInteger (h : Text.compare key (fromInteger value) = .eq) : key = fromInteger value :=
  eq_of_compare_ascii h fun b hb => by
    have := fromInteger_digits value b hb
    omega

end ErbslandCore.Data.Bson
