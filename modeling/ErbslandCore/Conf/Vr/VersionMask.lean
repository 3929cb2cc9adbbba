import ErbslandCore.Math.SaturatingInteger

namespace ErbslandCore.Conf
open Math NativeInteger
set_option autoImplicit true

abbrev Integer := Math.Value int64

namespace Integer

instance : LinearOrder Integer := LinearOrder.lift' Math.Value.val fun _ _ => Math.Value.ext

@[simp] theorem le_iff {a b : Integer} : a ≤ b ↔ a.val ≤ b.val := Iff.rfl

@[simp] theorem lt_iff {a b : Integer} : a < b ↔ a.val < b.val := Iff.rfl

@[simp] theorem max_val (a b : Integer) : (max a b).val = max a.val b.val := by
  rcases le_total a b with h | h
  · rw [max_eq_right h, max_eq_right (le_iff.mp h)]
  · rw [max_eq_left h, max_eq_left (le_iff.mp h)]

@[simp] theorem min_val (a b : Integer) : (min a b).val = min a.val b.val := by
  rcases le_total a b with h | h
  · rw [min_eq_left h, min_eq_left (le_iff.mp h)]
  · rw [min_eq_right h, min_eq_right (le_iff.mp h)]

def zero : Integer := Math.Value.zero int64

def maxInt : Integer := Math.Value.highest int64

@[simp] theorem zero_val : zero.val = 0 := rfl

@[simp] theorem maxInt_val : maxInt.val = 9223372036854775807 := rfl

theorem val_le (a : Integer) : a.val ≤ 9223372036854775807 := (int64_represents.mp a.represents).2

/-- The result of an operator, unless it overflows. -/
def checked (v : Int) : Option Integer :=
  if h : int64.Represents v then some ⟨v, h⟩ else none

theorem checked_eq (hlow : 0 ≤ v) (hhigh : v ≤ 9223372036854775807) :
    ∃ a : Integer, checked v = some a ∧ a.val = v := by
  have h : int64.Represents v := int64_represents.mpr ⟨by omega, hhigh⟩
  exact ⟨⟨v, h⟩, dif_pos h, rfl⟩

end Integer

open Integer

/-- A closed range of versions that are not negative. -/
structure ConfVersionRange where
  first : Integer
  last : Integer
  nonneg : 0 ≤ first.val
  ordered : first.val ≤ last.val

namespace ConfVersionRange

def clampVersion (value : Integer) : Integer := max value zero

def ofValue (value : Integer) : ConfVersionRange where
  first := clampVersion value
  last := clampVersion value
  nonneg := by simp [clampVersion]
  ordered := le_refl _

/-- The range between two ends, in any order. -/
def ofBounds (first last : Integer) : ConfVersionRange where
  first := min (clampVersion first) (clampVersion last)
  last := max (clampVersion first) (clampVersion last)
  nonneg := by simp [clampVersion]
  ordered := by
    rw [min_val, max_val]
    exact min_le_max

def all : ConfVersionRange := ofBounds zero maxInt

def matchesVersion (range : ConfVersionRange) (version : Integer) : Bool :=
  version ≥ range.first && version ≤ range.last

/-- Move the end of a range to a later one. -/
def extended (range : ConfVersionRange) (last : Integer) : ConfVersionRange where
  first := range.first
  last := max range.last last
  nonneg := range.nonneg
  ordered := by
    rw [max_val]
    exact range.ordered.trans (le_max_left _ _)

end ConfVersionRange

/-- A mask holds its ranges; the default mask matches every version. -/
structure VersionMask where
  ranges : List ConfVersionRange := [.all]

namespace VersionMask
open ConfVersionRange

def empty : VersionMask := ⟨[]⟩

def isEmpty (mask : VersionMask) : Bool := mask.ranges.isEmpty

def isAny (mask : VersionMask) : Bool :=
  match mask.ranges with
  | [range] => range.first = zero && range.last = maxInt
  | _ => false

def matchesVersion (mask : VersionMask) (version : Integer) : Bool :=
  mask.ranges.any fun range => range.matchesVersion version

def lessStartThenEnd (a b : ConfVersionRange) : Bool :=
  a.first < b.first || (a.first = b.first && a.last < b.last)

/-- The first version after a range that does not end the versions is that of the next range. -/
def isAdjacent (cur range : ConfVersionRange) : Option Bool :=
  if cur.last < maxInt then do
    let next ← checked (cur.last.val + 1)
    return range.first = next
  else some false

/-- Merge the ranges that follow into the current one. -/
def mergeFrom (cur : ConfVersionRange) :
    List ConfVersionRange → Option (List ConfVersionRange)
  | [] => some [cur]
  | range :: ranges => do
    let adjacent ← isAdjacent cur range
    if range.first ≤ cur.last || adjacent then mergeFrom (cur.extended range.last) ranges
    else do
      let out ← mergeFrom range ranges
      return cur :: out

def normalize (ranges : List ConfVersionRange) : Option (List ConfVersionRange) :=
  match ranges.mergeSort fun a b => !lessStartThenEnd b a with
  | [] => some []
  | cur :: ranges => mergeFrom cur ranges

def fromRanges (values : List ConfVersionRange) : Option VersionMask :=
  VersionMask.mk <$> normalize values

def fromIntegers (values : List Integer) : Option VersionMask := fromRanges (values.map ofValue)

def unionWith (mask other : VersionMask) : Option VersionMask :=
  if mask.isAny || other.isAny then some {}
  else if mask.isEmpty then some other
  else if other.isEmpty then some mask
  else VersionMask.mk <$> normalize (mask.ranges ++ other.ranges)

/-- Add a common part after the parts found before. -/
def appendPart (result : List ConfVersionRange) (start last : Integer) :
    Option (List ConfVersionRange) :=
  match result.getLast? with
  | none => some (result ++ [ofBounds start last])
  | some back => do
    let next ← checked (back.last.val + 1)
    if start ≤ next then return result.dropLast ++ [back.extended last]
    else return result ++ [ofBounds start last]

/-- Add the common part of two ranges, if they overlap. -/
def addOverlap (result : List ConfVersionRange) (ra rb : ConfVersionRange) :
    Option (List ConfVersionRange) :=
  let start := max ra.first rb.first
  let last := min ra.last rb.last
  if start ≤ last then appendPart result start last else some result

/-- Find the common parts of two lists of ranges, side by side. -/
def sweep (result : List ConfVersionRange) :
    List ConfVersionRange → List ConfVersionRange → Option (List ConfVersionRange)
  | ra :: a, rb :: b => do
    let result ← addOverlap result ra rb
    if ra.last < rb.last then sweep result a (rb :: b) else sweep result (ra :: a) b
  | _, _ => some result
termination_by a b => a.length + b.length

def intersectionWith (mask other : VersionMask) : Option VersionMask :=
  if mask.isEmpty || other.isEmpty then some empty
  else if mask.isAny then some other
  else if other.isAny then some mask
  else do
    let a ← normalize mask.ranges
    let b ← normalize other.ranges
    VersionMask.mk <$> sweep [] a b

def gapBefore (range : ConfVersionRange) : Option (List ConfVersionRange) :=
  if range.first > zero then do
    let gapEnd ← checked (range.first.val - 1)
    return [ofBounds zero gapEnd]
  else some []

/-- The gaps between a range and those after it; nothing is left after the largest version. -/
def gapsBetween (prev : ConfVersionRange) : List ConfVersionRange → Option (List ConfVersionRange)
  | [] => some []
  | cur :: ranges =>
    if prev.last = maxInt then some []
    else do
      let gapStart ← checked (prev.last.val + 1)
      let gapEnd ← checked (cur.first.val - 1)
      let gaps ← gapsBetween cur ranges
      return if gapStart ≤ gapEnd then ofBounds gapStart gapEnd :: gaps else gaps

def gapAfter (range : ConfVersionRange) : Option (List ConfVersionRange) :=
  if range.last < maxInt then do
    let gapStart ← checked (range.last.val + 1)
    return [ofBounds gapStart maxInt]
  else some []

def complement (mask : VersionMask) : Option VersionMask :=
  if mask.isAny then some empty
  else
    match mask.ranges with
    | [] => some ⟨[.all]⟩
    | range :: ranges => do
      let front ← gapBefore range
      let between ← gapsBetween range ranges
      let back ← gapAfter ((range :: ranges).getLast (List.cons_ne_nil _ _))
      return ⟨front ++ between ++ back⟩

end VersionMask
end ErbslandCore.Conf
