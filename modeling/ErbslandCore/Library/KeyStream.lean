import Mathlib.Data.List.Basic

namespace ErbslandCore.Library
set_option autoImplicit true

/-- Bytes combined with a key stream from its byte `n` on. -/
def xorStream (stream : Nat → UInt8) (n : Nat) : List UInt8 → List UInt8
  | [] => []
  | byte :: data => (byte ^^^ stream n) :: xorStream stream (n + 1) data

@[simp] theorem length_xorStream (stream : Nat → UInt8) (n : Nat) (data : List UInt8) :
    (xorStream stream n data).length = data.length := by
  induction data generalizing n with
  | nil => rfl
  | cons byte data ih => rw [xorStream, List.length_cons, List.length_cons, ih]

/-- Bytes that are combined with the stream or not are as many. -/
theorem length_ite_xorStream (combined : Bool) (stream : Nat → UInt8) (n : Nat) (data : List UInt8) :
    (if combined then xorStream stream n data else data).length = data.length := by
  cases combined with
  | true => exact length_xorStream _ _ _
  | false => rfl

theorem xorStream_append (stream : Nat → UInt8) (n : Nat) (x y : List UInt8) :
    xorStream stream n (x ++ y) = xorStream stream n x ++ xorStream stream (n + x.length) y := by
  induction x generalizing n with
  | nil => rfl
  | cons byte x ih =>
    rw [List.cons_append, xorStream, xorStream, ih, List.length_cons, List.cons_append,
      Nat.add_assoc, Nat.add_comm 1]

theorem ite_xorStream_append (combined : Bool) (stream : Nat → UInt8) (n : Nat) (x y : List UInt8) :
    (if combined then xorStream stream n (x ++ y) else x ++ y) =
      (if combined then xorStream stream n x else x) ++
        (if combined then xorStream stream (n + x.length) y else y) := by
  cases combined with
  | true => exact xorStream_append stream n x y
  | false => rfl

/-- The same stream takes the bytes back. -/
theorem xorStream_xorStream (stream : Nat → UInt8) (n : Nat) (data : List UInt8) :
    xorStream stream n (xorStream stream n data) = data := by
  induction data generalizing n with
  | nil => rfl
  | cons byte data ih =>
    rw [xorStream, xorStream, ih, UInt8.xor_assoc, UInt8.xor_self, UInt8.xor_zero]

end ErbslandCore.Library
