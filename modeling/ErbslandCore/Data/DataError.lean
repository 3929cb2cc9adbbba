import ErbslandCore.Library.Progress
import ErbslandCore.Mem.ByteReader

namespace ErbslandCore.Data
open Library Mem
set_option autoImplicit true

/-- The exceptions of the data formats; a recursion without fuel is not one of theirs. -/
inductive DataError where
  | parse (message : String)
  | outOfRange (message : String)
  | parameter (message parameterName : String)
  | outOfFuel
  deriving DecidableEq

/-- An error of the byte containers passes through the codec. -/
def fromMem : Except MemError α → Except DataError α
  | .ok a => .ok a
  | .error (.outOfRange message) => .error (.outOfRange message)

theorem fromMem_eq_ok {x : Except MemError α} (h : fromMem x = .ok a) : x = .ok a := by
  cases x with
  | error e => cases e; cases h
  | ok b => cases h; rfl

theorem fromMem_ensures {x : Except MemError α} (h : ∀ a, x = .ok a → post a) :
    Ensures (fromMem x) post (· ≠ .outOfFuel) := by
  cases x with
  | error e =>
    cases e
    exact fun hc => by cases hc
  | ok a => exact h a rfl

end ErbslandCore.Data
