import ErbslandCore.Math.NativeInteger

namespace ErbslandCore.Math
open Library NativeInteger
set_option autoImplicit true

/-- Overload resolution prefers the template with one type to the template with two. -/
def resolve (one : Value A → Value A → α) (two : Value A → Value B → α) (first : Value A)
    (second : Value B) : α :=
  if h : A = B then one first (h ▸ second) else two first second

section casts
variable (target : NativeInteger) (value : Value source)

def saturatingCastMaxIfTargetLarger : Value target :=
  if value.val > (Value.staticCast source target.maximum).val then .highest target
  else .staticCast target value.val

def saturatingCastMixedSign : Value target :=
  if !target.isSigned then
    if target.size < source.size then
      if value.val < 0 then .staticCast target 0 else saturatingCastMaxIfTargetLarger target value
    else if value.val < 0 then .staticCast target 0 else .staticCast target value.val
  else if target.size ≤ source.size then saturatingCastMaxIfTargetLarger target value
  else .staticCast target value.val

def saturatingCastDownSize : Value target :=
  if target.isSigned then
    if value.val < (Value.staticCast source target.minimum).val then .lowest target
    else saturatingCastMaxIfTargetLarger target value
  else saturatingCastMaxIfTargetLarger target value

def saturatingCast : Value target :=
  if h : target = source then h ▸ value
  else if !sameSignedness source target then saturatingCastMixedSign target value
  else if target.size < source.size then saturatingCastDownSize target value
  else .staticCast target value.val

def willCastOverflow : Bool :=
  if !sameSignedness source target then
    if !target.isSigned then
      if source.size > target.size then
        value.val < 0 || value.val > (Value.staticCast source target.maximum).val
      else value.val < 0
    else if source.size ≥ target.size then
      value.val > (Value.staticCast source target.maximum).val
    else false
  else if source.size > target.size then
    if target.isSigned then
      value.val < (Value.staticCast source target.minimum).val ||
        value.val > (Value.staticCast source target.maximum).val
    else value.val > (Value.staticCast source target.maximum).val
  else false

end casts

/-- The absolute value, computed modulo the number of values of the unsigned type. -/
def toUnsignedAbsolute (value : Value T) : Except Fault (Value T.makeUnsigned) :=
  if T.isSigned then
    if value.val < 0 then do
      let difference ← minus (.staticCast T.makeUnsigned 0) (.staticCast T.makeUnsigned value.val)
      return .staticCast T.makeUnsigned difference.val
    else return .staticCast T.makeUnsigned value.val
  else return .staticCast T.makeUnsigned value.val

section oneType
variable (first second : Value T)

/-- The flag and the wrapped result of the overflow built-ins. -/
def builtinOverflow (T : NativeInteger) (exact : Int) : Bool × Value T :=
  (!decide (T.Represents exact), .staticCast T exact)

def saturatingAdd₁ : Value T :=
  let (overflow, result) := builtinOverflow T (first.val + second.val)
  if overflow then
    if T.isSigned then if first.val < 0 then .lowest T else .highest T
    else .highest T
  else result

def willAddOverflow₁ : Bool := (builtinOverflow T (first.val + second.val)).1

def saturatingSubtract₁ : Value T :=
  let (overflow, result) := builtinOverflow T (first.val - second.val)
  if overflow then if second.val < 0 then .highest T else .lowest T
  else result

def willSubtractOverflow₁ : Bool := (builtinOverflow T (first.val - second.val)).1

def saturatingMultiply₁ : Value T :=
  let (overflow, result) := builtinOverflow T (first.val * second.val)
  if overflow then
    if T.isSigned then
      if decide (first.val < 0) ^^ decide (second.val < 0) then .lowest T else .highest T
    else .highest T
  else result

def willMultiplyOverflow₁ : Bool := (builtinOverflow T (first.val * second.val)).1

def saturatingDivide₁ : Except Fault (Value T) :=
  if second.val = 0 then .error .terminate
  else if T.isSigned then
    if first.val = T.minimum ∧ second.val = -1 then return .highest T
    else do
      let quotient ← dividedBy first second
      return .staticCast T quotient.val
  else do
    let quotient ← dividedBy first second
    return .staticCast T quotient.val

def willDivideOverflow₁ : Bool :=
  if T.isSigned then first.val = T.minimum && second.val = -1 else false

def saturatingModulo₁ : Except Fault (Value T) :=
  if second.val = 0 then .error .terminate
  else if T.isSigned ∧ first.val = T.minimum ∧ second.val = -1 then return .staticCast T 0
  else do
    let rest ← remainder first second
    return .staticCast T rest.val

end oneType

section twoTypes
variable (first : Value A) (second : Value B)

/-- The operands in the wider type of a pair of one signedness. -/
def widen (operation : Value (compatible A B) → Value (compatible A B) → α) : α :=
  operation (.staticCast _ first.val) (.staticCast _ second.val)

/-- The part of a large unsigned operand above the range of the signed type. -/
def remaining (A : NativeInteger) (second : Value B) : Except Fault (Value B.promoted) := do
  let limit ← shiftOne B (A.size * 8 - 1)
  arithmetic B.promoted (second.val - limit.val)

def saturatingSubtractSameSignedness : Value A :=
  saturatingCast A (widen first second saturatingSubtract₁)

def willSubtractOverflowSameSignedness : Bool :=
  if widen first second willSubtractOverflow₁ then true
  else willCastOverflow A (widen first second saturatingSubtract₁)

def saturatingAdd₂ : Except Fault (Value A) :=
  if sameSignedness A B then return saturatingCast A (widen first second saturatingAdd₁)
  else if A.isSigned then
    if secondHasGreaterPositiveRange A B ∧ willCastOverflow A second then do
      let rest ← remaining A second
      return saturatingAdd₁
        (saturatingAdd₁ (saturatingAdd₁ first (.highest A)) (.staticCast A 1))
        (saturatingCast A rest)
    else return saturatingAdd₁ first (saturatingCast A second)
  else if second.val < 0 then do
    let absolute ← toUnsignedAbsolute second
    return saturatingSubtract₁ first (saturatingCast A absolute)
  else return saturatingAdd₁ first (saturatingCast A second)

def willAddOverflow₂ : Except Fault Bool :=
  if sameSignedness A B then
    if widen first second willAddOverflow₁ then return true
    else return willCastOverflow A (widen first second saturatingAdd₁)
  else if A.isSigned then
    if secondHasGreaterPositiveRange A B ∧ willCastOverflow A second then
      if willAddOverflow₁ first (.highest A) then return true
      else
        let first := saturatingAdd₁ first (.highest A)
        if willAddOverflow₁ first (.staticCast A 1) then return true
        else do
          let first := saturatingAdd₁ first (.staticCast A 1)
          let rest ← remaining A second
          if willCastOverflow A rest then return true
          else return willAddOverflow₁ first (saturatingCast A rest)
    else return willAddOverflow₁ first (saturatingCast A second)
  else if second.val < 0 then do
    let absolute ← toUnsignedAbsolute second
    if willCastOverflow A absolute then return true
    else return willSubtractOverflow₁ first (saturatingCast A absolute)
  else if willCastOverflow A second then return true
  else return willAddOverflow₁ first (saturatingCast A second)

def saturatingSubtract₂ : Except Fault (Value A) :=
  if sameSignedness A B then return saturatingSubtractSameSignedness first second
  else if A.isSigned then
    if secondHasGreaterPositiveRange A B ∧ willCastOverflow A second then do
      let rest ← remaining A second
      return saturatingSubtract₁
        (saturatingSubtract₁ (saturatingSubtract₁ first (.highest A)) (.staticCast A 1))
        (saturatingCast A rest)
    else return saturatingSubtract₁ first (saturatingCast A second)
  else if second.val < 0 then do
    let absolute ← toUnsignedAbsolute second
    return saturatingAdd₁ first (saturatingCast A absolute)
  else return saturatingSubtract₁ first (saturatingCast A second)

def willSubtractOverflow₂ : Except Fault Bool :=
  if sameSignedness A B then return willSubtractOverflowSameSignedness first second
  else if A.isSigned then
    if secondHasGreaterPositiveRange A B ∧ willCastOverflow A second then
      if willSubtractOverflow₁ first (.highest A) then return true
      else
        let first := saturatingSubtract₁ first (.highest A)
        -- The literal is an `int`, so this is the overload for two signed types.
        let one : Value int := .staticCast int 1
        if resolve willSubtractOverflow₁ willSubtractOverflowSameSignedness first one then
          return true
        else do
          let first := resolve saturatingSubtract₁ saturatingSubtractSameSignedness first one
          let rest ← remaining A second
          if willCastOverflow A rest then return true
          else return willSubtractOverflow₁ first (saturatingCast A rest)
    else return willSubtractOverflow₁ first (saturatingCast A second)
  else if second.val < 0 then do
    let absolute ← toUnsignedAbsolute second
    if willCastOverflow A absolute then return true
    else return willAddOverflow₁ first (saturatingCast A absolute)
  else if willCastOverflow A second then return true
  else return willSubtractOverflow₁ first (saturatingCast A second)

/-- The end of the range that a product with an operand out of range saturates to. -/
def extremeIntFromMultiplication : Value A :=
  if A.isSigned then
    if (A.isSigned && first.val < 0) != (B.isSigned && second.val < 0) then .lowest A
    else .highest A
  else .highest A

def saturatingMultiply₂ : Value A :=
  if first.val = 0 ∨ second.val = 0 then .staticCast A 0
  else if !A.isSigned && B.isSigned then
    if second.val < 0 then .staticCast A 0
    else if willCastOverflow A second then extremeIntFromMultiplication first second
    else saturatingMultiply₁ first (saturatingCast A second)
  else if willCastOverflow A second then extremeIntFromMultiplication first second
  else saturatingMultiply₁ first (saturatingCast A second)

def willMultiplyOverflow₂ : Except Fault Bool :=
  if first.val = 0 ∨ second.val = 0 ∨ second.val = 1 then return false
  else if (!A.isSigned && B.isSigned) ∧ second.val < 0 then return true
  else do
    let isEdge ←
      if A.isSigned && secondHasGreaterPositiveRange A B then do
        let absolute ← toUnsignedAbsolute (.lowest A)
        pure (first.val = -1 && second.val = (Value.staticCast B absolute.val).val)
      else pure false
    if isEdge then return false
    else if willCastOverflow A second && first.val ≠ 0 then return true
    else return willMultiplyOverflow₁ first (saturatingCast A second)

def saturatingDivide₂ : Except Fault (Value A) :=
  if !A.isSigned && B.isSigned then
    if secondHasGreaterPositiveRange A B then
      if second.val < 0 then return .staticCast A 0
      else do
        let absolute ← toUnsignedAbsolute second
        if first.val < absolute.val then return .staticCast A 0
        else saturatingDivide₁ first (saturatingCast A second)
    else if second.val < 0 then return .staticCast A 0
    else saturatingDivide₁ first (saturatingCast A second)
  else if secondHasGreaterPositiveRange A B then do
    let absoluteA ← toUnsignedAbsolute first
    let absoluteB ← toUnsignedAbsolute second
    if absoluteA.val < absoluteB.val then return .staticCast A 0
    else saturatingDivide₁ first (saturatingCast A second)
  else saturatingDivide₁ first (saturatingCast A second)

def willDivideOverflow₂ : Except Fault Bool :=
  if !A.isSigned && B.isSigned then
    if second.val ≥ 0 ∨ first.val = 0 then return false
    else do
      let absolute ← toUnsignedAbsolute second
      return first.val ≥ absolute.val
  else if A.isSigned && B.isSigned then return first.val = A.minimum && second.val = -1
  else return false

/-- The remainder by an absolute divisor that may exceed the range of the dividend. -/
def moduloByAbsolute (absoluteB : Value C) : Except Fault (Value A) := do
  let absoluteA ← toUnsignedAbsolute first
  if absoluteA.val = absoluteB.val then return .staticCast A 0
  else if willCastOverflow A absoluteB then return first
  else saturatingModulo₁ first (saturatingCast A absoluteB)

def saturatingModulo₂ : Except Fault (Value A) :=
  if second.val = 0 then .error .terminate
  else do
    let absoluteB ← toUnsignedAbsolute second
    if B.isSigned || secondHasGreaterPositiveRange A B then
      if secondHasGreaterPositiveRange A B.makeUnsigned then moduloByAbsolute first absoluteB
      else saturatingModulo₁ first (saturatingCast A absoluteB)
    else moduloByAbsolute first absoluteB

def saturatingAdd : Except Fault (Value A) :=
  resolve (fun x y => .ok (saturatingAdd₁ x y)) saturatingAdd₂ first second

def willAddOverflow : Except Fault Bool :=
  resolve (fun x y => .ok (willAddOverflow₁ x y)) willAddOverflow₂ first second

def saturatingSubtract : Except Fault (Value A) :=
  resolve (fun x y => .ok (saturatingSubtract₁ x y)) saturatingSubtract₂ first second

def willSubtractOverflow : Except Fault Bool :=
  resolve (fun x y => .ok (willSubtractOverflow₁ x y)) willSubtractOverflow₂ first second

def saturatingMultiply : Except Fault (Value A) :=
  .ok (resolve saturatingMultiply₁ saturatingMultiply₂ first second)

def willMultiplyOverflow : Except Fault Bool :=
  resolve (fun x y => .ok (willMultiplyOverflow₁ x y)) willMultiplyOverflow₂ first second

def saturatingDivide : Except Fault (Value A) :=
  resolve saturatingDivide₁ saturatingDivide₂ first second

def willDivideOverflow : Except Fault Bool :=
  resolve (fun x y => .ok (willDivideOverflow₁ x y)) willDivideOverflow₂ first second

def saturatingModulo : Except Fault (Value A) :=
  resolve saturatingModulo₁ saturatingModulo₂ first second

/-- Every remainder is representable. -/
def willModuloOverflow (_first : Value A) (_second : Value B) : Except Fault Bool := .ok false

end twoTypes
end ErbslandCore.Math
