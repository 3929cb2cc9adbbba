import Mathlib.Init

namespace ErbslandCore.Cryptology

inductive HashAlgorithm where
  | sha2_256
  | sha2_384
  deriving DecidableEq

def HashAlgorithm.digestSize : HashAlgorithm → Nat
  | sha2_256 => 32
  | sha2_384 => 48

end ErbslandCore.Cryptology
