import ErbslandCore.Data.DataError
import ErbslandCore.Text.StringMap

namespace ErbslandCore.Data.Cbor
open Library Mem Text
set_option autoImplicit true

/-- A value tree over the time stamps of a clock. Floats are kept as their bits. -/
inductive CborValue (τ : Type) where
  | null
  | bool (value : Bool)
  | signed (value : Int64)
  | unsigned (value : UInt64)
  | float (bits : UInt64)
  | text (value : List UInt8)
  | bytes (value : List UInt8)
  | array (items : List (CborValue τ))
  | map (entries : List (List UInt8 × CborValue τ))
  | dateTime (value : τ)
  | link (cid : List UInt8)

namespace CborValue

/-- Induction over a value, with the members of its containers. -/
theorem induction {motive : CborValue τ → Prop} (null : motive .null)
    (bool : ∀ value, motive (.bool value)) (signed : ∀ value, motive (.signed value))
    (unsigned : ∀ value, motive (.unsigned value)) (float : ∀ bits, motive (.float bits))
    (text : ∀ value, motive (.text value)) (bytes : ∀ value, motive (.bytes value))
    (array : ∀ items, (∀ v ∈ items, motive v) → motive (.array items))
    (map : ∀ entries, (∀ e ∈ entries, motive e.2) → motive (.map entries))
    (dateTime : ∀ value, motive (.dateTime value)) (link : ∀ cid, motive (.link cid))
    (v : CborValue τ) : motive v := by
  refine CborValue.rec (motive_2 := fun items => ∀ v ∈ items, motive v)
    (motive_3 := fun entries => ∀ e ∈ entries, motive e.2) (motive_4 := fun e => motive e.2)
    null bool signed unsigned float text bytes array map dateTime link ?_ ?_ ?_ ?_ ?_ v
  · exact fun _ h => absurd h List.not_mem_nil
  · intro head tail ih iht v hv
    rcases List.mem_cons.mp hv with rfl | hv
    · exact ih
    · exact iht v hv
  · exact fun _ h => absurd h List.not_mem_nil
  · intro head tail ih iht e he
    rcases List.mem_cons.mp he with rfl | he
    · exact ih
    · exact iht e he
  · exact fun _ _ ih => ih

end CborValue

/-- The parts of the time library that the codec calls. -/
structure Clock where
  Timestamp : Type
  /-- A valid date and time in ISO format, as a time stamp. -/
  fromIsoString : List UInt8 → Option Timestamp
  /-- The ISO format with nanoseconds, of a valid time stamp. -/
  toIsoString : Timestamp → Option (List UInt8)
  /-- The POSIX epoch, in seconds. -/
  epoch : Int
  fromTicks : Int → Nat → Option Timestamp
  /-- The whole seconds and the nanoseconds of a float, if they represent it exactly. -/
  splitSeconds : UInt64 → Option (Int × Nat)

structure CborParseOptions where
  dagCbor : Bool := false
  maximumInputLength : Nat := 16 * 1024 * 1024
  maximumNesting : Nat := 64
  maximumValueCount : Nat := 1000000
  maximumStringLength : Nat := 8 * 1024 * 1024

structure CborFormatOptions where
  dagCbor : Bool := false

/-- A finite number: the exponent is not the largest. -/
def isFinite (bits : UInt64) : Bool := (bits >>> 52) &&& 0x7FF ≠ 0x7FF

def isZero (bits : UInt64) : Bool := bits &&& 0x7FFFFFFFFFFFFFFF = 0

def signbit (bits : UInt64) : Bool := bits >>> 63 = 1

end ErbslandCore.Data.Cbor
