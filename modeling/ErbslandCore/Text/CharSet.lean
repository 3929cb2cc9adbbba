import Mathlib.Data.Finset.Sort
import ErbslandCore.Library.RangeSets
import ErbslandCore.Text.Utf8

namespace ErbslandCore.Text
open Library
set_option autoImplicit true

/-- A range of characters, from `low` to `high`; the ends of an empty one are no characters. -/
abbrev CharRange := RangeSets.Range Nat

namespace CharRange

def cEmptyValue : Nat := 0x110000

def empty : CharRange := ⟨cEmptyValue, cEmptyValue⟩

def ofChar (character : Nat) : CharRange :=
  if isValidUnicode character then ⟨character, character⟩ else empty

/-- The range between two characters, in either order. -/
def ofChars (first second : Nat) : CharRange :=
  if ¬ isValidUnicode first ∨ ¬ isValidUnicode second then empty
  else if second < first then ⟨second, first⟩
  else ⟨first, second⟩

def isEmpty (range : CharRange) : Bool :=
  !isValidUnicode range.low || !isValidUnicode range.high || decide (range.high < range.low)

def contains (range : CharRange) (character : Nat) : Bool :=
  !isEmpty range && isValidUnicode character && decide (range.low ≤ character) &&
    decide (character ≤ range.high)

def overlaps (range other : CharRange) : Bool :=
  !isEmpty range && !isEmpty other &&
    !(decide (other.high < range.low) || decide (other.low > range.high))

def nextScalarValue (value : Nat) : Nat :=
  if value = 0xD7FF then 0xE000 else if value < 0x10FFFF then value + 1 else cEmptyValue

def isAdjacentTo (range other : CharRange) : Bool :=
  !isEmpty range && !isEmpty other &&
    (nextScalarValue range.high = other.low || nextScalarValue other.high = range.low)

def canMergeWith (range other : CharRange) : Bool := overlaps range other || isAdjacentTo range other

def mergedWith (range other : CharRange) : CharRange :=
  if ¬ canMergeWith range other then empty
  else ofChars (min range.low other.low) (max range.high other.high)

end CharRange

inductive CharSetError where
  | overflow (message : String)
  deriving DecidableEq

namespace CharSet

/-- Up to two ranges are stored inline; unused ones are empty. -/
inductive Storage where
  | inline (first second : CharRange)
  | shared (ranges : List CharRange)
  deriving DecidableEq

def inlineRangeCount (first second : CharRange) : Nat :=
  if CharRange.isEmpty first then 0 else if CharRange.isEmpty second then 1 else 2

def Storage.ranges : Storage → List CharRange
  | .inline first second => [first, second].take (inlineRangeCount first second)
  | .shared ranges => ranges

end CharSet

/-- A set of characters, as ranges in ascending order. -/
structure CharSet where
  storage : CharSet.Storage := .inline CharRange.empty CharRange.empty
  deriving DecidableEq

namespace CharSet

def rangeSpan (set : CharSet) : List CharRange := set.storage.ranges

def isEmpty (set : CharSet) : Bool := set.rangeSpan.isEmpty

def nextScalar (character : Nat) : Option Nat :=
  if ¬ isValidUnicode character ∨ character = 0x10FFFF then none
  else if character = 0xD7FF then some 0xE000
  else some (character + 1)

def previousScalar (character : Nat) : Option Nat :=
  if ¬ isValidUnicode character ∨ character = 0 then none
  else if character = 0xE000 then some 0xD7FF
  else some (character - 1)

def overflowError : CharSetError := .overflow "Character set range count exceeds supported bounds"

/-- The number of elements of shared data is a 32-bit integer. -/
def canAllocateWithCapacity (capacity : Nat) : Bool := capacity ≤ 0xFFFFFFFF

/-- The ranges that shared data of a capacity takes over. -/
def ensureSharedCapacity (set : CharSet) (requiredCapacity : Nat) :
    Except CharSetError (List CharRange) :=
  if ¬ canAllocateWithCapacity requiredCapacity then .error overflowError else .ok set.rangeSpan

/-- A range merged with the ranges that follow it, and the number of these. -/
def mergeFollowing (range : CharRange) : List CharRange → CharRange × Nat
  | [] => (range, 0)
  | existing :: ranges =>
    if CharRange.canMergeWith range existing then
      let (merged, count) := mergeFollowing (CharRange.mergedWith range existing) ranges
      (merged, count + 1)
    else (range, 0)

/-- The position of the first range that an added one replaces. -/
def insertionIndex (ranges : List CharRange) (range : CharRange) : Nat :=
  let first := (ranges.takeWhile fun existing => existing.low < range.low).length
  if first > 0 ∧ CharRange.canMergeWith (ranges[first - 1]?.getD CharRange.empty) range then first - 1
  else first

def addWithCapacity (set : CharSet) (range : CharRange) (capacityHint : Nat) :
    Except CharSetError CharSet :=
  if CharRange.isEmpty range then .ok set
  else
    let oldRanges := set.rangeSpan
    let first := insertionIndex oldRanges range
    let (merged, removedCount) := mergeFollowing range (oldRanges.drop first)
    if removedCount = 1 ∧ oldRanges[first]? = some merged then .ok set
    else
      let newCount := oldRanges.length - removedCount + 1
      if newCount ≤ 2 then
        let replacement := oldRanges.take first ++ merged :: oldRanges.drop (first + removedCount)
        .ok { storage := .inline (replacement[0]?.getD CharRange.empty)
                (replacement[1]?.getD CharRange.empty) }
      else do
        let data ← ensureSharedCapacity set (max newCount capacityHint)
        return { storage := .shared (data.take first ++ merged :: data.drop (first + removedCount)) }

def addRange (set : CharSet) (range : CharRange) : Except CharSetError CharSet :=
  addWithCapacity set range 0

def addChar (set : CharSet) (character : Nat) : Except CharSetError CharSet :=
  addRange set (CharRange.ofChar character)

def addCharacters (capacityHint : Nat) :
    CharSet → List Nat → Except CharSetError CharSet
  | set, [] => .ok set
  | set, character :: characters => do
    let set ← addWithCapacity set (CharRange.ofChar character) capacityHint
    addCharacters capacityHint set characters

def ofChar (character : Nat) : Except CharSetError CharSet := addChar {} character

/-- The characters of a text, which is decoded tolerantly. -/
def ofString (characters : List UInt8) : Except CharSetError CharSet :=
  addCharacters characters.length {} (Utf8.characters characters)

/-- A list and an initializer list of characters. -/
def ofList (characters : List Nat) : Except CharSetError CharSet :=
  addCharacters characters.length {} characters

end CharSet

/-- Builds a character set from ranges in ascending order. -/
structure CharSetRangeBuilder where
  maximumRangeCount : Nat
  storage : CharSet.Storage := .inline CharRange.empty CharRange.empty

namespace CharSetRangeBuilder

def count (builder : CharSetRangeBuilder) : Nat := builder.storage.ranges.length

/-- Shared data with the two inline ranges. -/
def promote (builder : CharSetRangeBuilder) (first second : CharRange) :
    Except CharSetError (List CharRange) :=
  let capacity := max builder.maximumRangeCount 3
  if ¬ CharSet.canAllocateWithCapacity capacity then .error CharSet.overflowError
  else .ok [first, second]

def append (builder : CharSetRangeBuilder) (range : CharRange) :
    Except CharSetError CharSetRangeBuilder :=
  match builder.storage with
  | .inline first second =>
    match CharSet.inlineRangeCount first second with
    | 0 => .ok { builder with storage := .inline range second }
    | 1 => .ok { builder with storage := .inline first range }
    | _ => do
      let data ← promote builder first second
      return { builder with storage := .shared (data ++ [range]) }
  | .shared data => .ok { builder with storage := .shared (data ++ [range]) }

/-- Another last range in place of the current one. -/
def replaceLast (builder : CharSetRangeBuilder) (range : CharRange) : CharSetRangeBuilder :=
  match builder.storage with
  | .inline first second =>
    if CharSet.inlineRangeCount first second = 2 then { builder with storage := .inline first range }
    else { builder with storage := .inline range second }
  | .shared data => { builder with storage := .shared (data.dropLast ++ [range]) }

def add (builder : CharSetRangeBuilder) (range : CharRange) :
    Except CharSetError CharSetRangeBuilder :=
  if CharRange.isEmpty range then .ok builder
  else match builder.storage.ranges.getLast? with
    | none => append builder range
    | some last =>
      if CharRange.canMergeWith last range then
        .ok (replaceLast builder (CharRange.mergedWith last range))
      else append builder range

def take (builder : CharSetRangeBuilder) : CharSet := { storage := builder.storage }

def addCharacters (builder : CharSetRangeBuilder) :
    List Nat → Except CharSetError CharSetRangeBuilder
  | [] => .ok builder
  | character :: characters => do
    let builder ← add builder (CharRange.ofChar character)
    addCharacters builder characters

end CharSetRangeBuilder

namespace CharSet
open CharSetRangeBuilder (add take)

/-- An ordered set of characters. -/
def ofSet (characters : Finset Nat) : Except CharSetError CharSet := do
  let builder ← CharSetRangeBuilder.addCharacters { maximumRangeCount := characters.card }
    characters.sort
  return take builder

def fromRange (first second : Nat) : Except CharSetError CharSet := do
  let builder ← add { maximumRangeCount := 1 } (CharRange.ofChars first second)
  return take builder

def contains (set : CharSet) (character : Nat) : Bool :=
  if ¬ isValidUnicode character then false
  else
    let ranges := set.rangeSpan
    if ranges.length ≤ 2 then ranges.any fun range => CharRange.contains range character
    else match (ranges.takeWhile fun range => range.low ≤ character).getLast? with
      | none => false
      | some range => CharRange.contains range character

/-- Every range on the left lies in the first one on the right that does not end before it. -/
def isSubsetOfRanges : List CharRange → List CharRange → Bool
  | [], _ => true
  | leftRange :: left, right =>
    match right.dropWhile fun rightRange => rightRange.high < leftRange.low with
    | [] => false
    | rightRange :: right =>
      if rightRange.low > leftRange.low ∨ rightRange.high < leftRange.high then false
      else isSubsetOfRanges left (rightRange :: right)

def isSubsetOf (set other : CharSet) : Bool := isSubsetOfRanges set.rangeSpan other.rangeSpan

/-- Equality compares the ranges of both sets. -/
def equals (set other : CharSet) : Bool := set.rangeSpan = other.rangeSpan

def uniteRanges (builder : CharSetRangeBuilder) :
    List CharRange → List CharRange → Except CharSetError CharSetRangeBuilder
  | [], [] => .ok builder
  | leftRange :: left, [] => do
    let builder ← add builder leftRange
    uniteRanges builder left []
  | [], rightRange :: right => do
    let builder ← add builder rightRange
    uniteRanges builder [] right
  | leftRange :: left, rightRange :: right =>
    if leftRange.low ≤ rightRange.low then do
      let builder ← add builder leftRange
      uniteRanges builder left (rightRange :: right)
    else do
      let builder ← add builder rightRange
      uniteRanges builder (leftRange :: left) right
  termination_by left right => left.length + right.length

def unitedWith (set other : CharSet) : Except CharSetError CharSet := do
  let left := set.rangeSpan
  let right := other.rangeSpan
  let builder ← uniteRanges { maximumRangeCount := left.length + right.length } left right
  return take builder

def intersectRanges (builder : CharSetRangeBuilder) :
    List CharRange → List CharRange → Except CharSetError CharSetRangeBuilder
  | leftRange :: left, rightRange :: right =>
    if leftRange.high < rightRange.low then intersectRanges builder left (rightRange :: right)
    else if rightRange.high < leftRange.low then intersectRanges builder (leftRange :: left) right
    else do
      let builder ← add builder (CharRange.ofChars (max leftRange.low rightRange.low)
        (min leftRange.high rightRange.high))
      if leftRange.high < rightRange.high then intersectRanges builder left (rightRange :: right)
      else intersectRanges builder (leftRange :: left) right
  | _, _ => .ok builder
  termination_by left right => left.length + right.length

def intersectedWith (set other : CharSet) : Except CharSetError CharSet := do
  let left := set.rangeSpan
  let right := other.rangeSpan
  let builder ← intersectRanges { maximumRangeCount := left.length + right.length } left right
  return take builder

/-- The part of a range from `remainderStart` on that is before a range on the right. -/
def addRemainderBefore (builder : CharSetRangeBuilder) (leftHigh remainderStart : Nat)
    (rightRange : CharRange) : Except CharSetError CharSetRangeBuilder :=
  if rightRange.low > remainderStart then
    match previousScalar rightRange.low with
    | some stop =>
      if remainderStart ≤ stop then
        add builder (CharRange.ofChars remainderStart (min stop leftHigh))
      else .ok builder
    | none => .ok builder
  else .ok builder

/-- The parts of a range from `remainderStart` on that are between the ranges on the right. -/
def subtractFrom (builder : CharSetRangeBuilder) (leftHigh remainderStart : Nat) :
    List CharRange → Except CharSetError CharSetRangeBuilder
  | [] =>
    if remainderStart ≤ leftHigh then add builder (CharRange.ofChars remainderStart leftHigh)
    else .ok builder
  | rightRange :: right =>
    if rightRange.low ≤ leftHigh then do
      let builder ← addRemainderBefore builder leftHigh remainderStart rightRange
      if rightRange.high ≥ leftHigh then .ok builder
      else match nextScalar rightRange.high with
        | some next =>
          if next > leftHigh then .ok builder else subtractFrom builder leftHigh next right
        | none => .ok builder
    else if remainderStart ≤ leftHigh then
      add builder (CharRange.ofChars remainderStart leftHigh)
    else .ok builder

def subtractRanges (builder : CharSetRangeBuilder) :
    List CharRange → List CharRange → Except CharSetError CharSetRangeBuilder
  | [], _ => .ok builder
  | leftRange :: left, right => do
    let right := right.dropWhile fun rightRange => rightRange.high < leftRange.low
    let builder ← subtractFrom builder leftRange.high leftRange.low right
    subtractRanges builder left right

def subtractedBy (set other : CharSet) : Except CharSetError CharSet := do
  let left := set.rangeSpan
  let right := other.rangeSpan
  let builder ← subtractRanges { maximumRangeCount := left.length + right.length } left right
  return take builder

/-- The next range of a list, if there is one, and those after it. -/
def nextRange : List CharRange → Option CharRange × List CharRange
  | [] => (none, [])
  | range :: ranges => (some range, ranges)

/-- The ranges that are left on one side: the current one and those after it. -/
abbrev Remaining := Option CharRange × List CharRange

def Remaining.size (remaining : Remaining) : Nat :=
  (if remaining.1.isSome then 1 else 0) + remaining.2.length

theorem Remaining.size_some (range : CharRange) (ranges : List CharRange) :
    Remaining.size (some range, ranges) = ranges.length + 1 := Nat.add_comm 1 ranges.length

theorem Remaining.size_none (ranges : List CharRange) :
    Remaining.size (none, ranges) = ranges.length := Nat.zero_add ranges.length

theorem Remaining.size_map_le (start : Option Nat) (trim : Nat → CharRange)
    (ranges : List CharRange) : Remaining.size (start.map trim, ranges) ≤ ranges.length + 1 := by
  cases start with
  | none => exact (Remaining.size_none ranges).trans_le (Nat.le_succ _)
  | some start => exact (Remaining.size_some (trim start) ranges).le

theorem nextRange_size (ranges : List CharRange) :
    Remaining.size (nextRange ranges) = ranges.length := by
  cases ranges with
  | nil => rfl
  | cons range ranges => exact Nat.add_comm 1 ranges.length

/-- The part of two overlapping ranges before the one that begins later. -/
def addDifferenceBefore (builder : CharSetRangeBuilder) (leftRange rightRange : CharRange) :
    Except CharSetError CharSetRangeBuilder :=
  if leftRange.low < rightRange.low then
    match previousScalar rightRange.low with
    | some stop => add builder (CharRange.ofChars leftRange.low stop)
    | none => .ok builder
  else if rightRange.low < leftRange.low then
    match previousScalar leftRange.low with
    | some stop => add builder (CharRange.ofChars rightRange.low stop)
    | none => .ok builder
  else .ok builder

/-- The ranges of exactly one side; an overlap leaves the part of the range that ends later. -/
def differRanges (builder : CharSetRangeBuilder) (left right : Remaining) :
    Except CharSetError CharSetRangeBuilder :=
  match left, right with
  | (none, _), (none, _) => .ok builder
  | (some leftRange, left), (none, right) => do
    let builder ← add builder leftRange
    differRanges builder (nextRange left) (none, right)
  | (none, left), (some rightRange, right) => do
    let builder ← add builder rightRange
    differRanges builder (none, left) (nextRange right)
  | (some leftRange, left), (some rightRange, right) =>
    if leftRange.high < rightRange.low then do
      let builder ← add builder leftRange
      differRanges builder (nextRange left) (some rightRange, right)
    else if rightRange.high < leftRange.low then do
      let builder ← add builder rightRange
      differRanges builder (some leftRange, left) (nextRange right)
    else do
      let builder ← addDifferenceBefore builder leftRange rightRange
      if leftRange.high < rightRange.high then
        differRanges builder (nextRange left)
          ((nextScalar leftRange.high).map fun start => CharRange.ofChars start rightRange.high, right)
      else if rightRange.high < leftRange.high then
        differRanges builder
          ((nextScalar rightRange.high).map fun start => CharRange.ofChars start leftRange.high, left)
          (nextRange right)
      else differRanges builder (nextRange left) (nextRange right)
  termination_by left.size + right.size
  decreasing_by
    all_goals simp only [nextRange_size, Remaining.size_some, Remaining.size_none]
    all_goals first
      | omega
      | exact Nat.add_lt_add_of_lt_of_le (Nat.lt_succ_self _) (Remaining.size_map_le _ _ _)
      | exact Nat.add_lt_add_of_le_of_lt (Remaining.size_map_le _ _ _) (Nat.lt_succ_self _)

def symmetricDifferenceWith (set other : CharSet) : Except CharSetError CharSet := do
  let left := set.rangeSpan
  let right := other.rangeSpan
  let builder ← differRanges { maximumRangeCount := left.length + right.length }
    (nextRange left) (nextRange right)
  return take builder

/-- The part of a range before another one. -/
def keepBefore (builder : CharSetRangeBuilder) (existing range : CharRange) :
    Except CharSetError CharSetRangeBuilder :=
  if existing.low < range.low then
    match previousScalar range.low with
    | some leftEnd =>
      if existing.low ≤ leftEnd then add builder (CharRange.ofChars existing.low leftEnd)
      else .ok builder
    | none => .ok builder
  else .ok builder

/-- The part of a range after another one. -/
def keepAfter (builder : CharSetRangeBuilder) (existing range : CharRange) :
    Except CharSetError CharSetRangeBuilder :=
  if existing.high > range.high then
    match nextScalar range.high with
    | some rightStart =>
      if rightStart ≤ existing.high then add builder (CharRange.ofChars rightStart existing.high)
      else .ok builder
    | none => .ok builder
  else .ok builder

def removeFromRanges (builder : CharSetRangeBuilder) (range : CharRange) :
    List CharRange → Except CharSetError CharSetRangeBuilder
  | [] => .ok builder
  | existing :: source =>
    if ¬ CharRange.overlaps existing range then do
      let builder ← add builder existing
      removeFromRanges builder range source
    else do
      let builder ← keepBefore builder existing range
      let builder ← keepAfter builder existing range
      removeFromRanges builder range source

def removeRange (set : CharSet) (range : CharRange) : Except CharSetError CharSet :=
  if set.isEmpty ∨ CharRange.isEmpty range then .ok set
  else do
    let source := set.rangeSpan
    let builder ← removeFromRanges { maximumRangeCount := source.length + 1 } range source
    return take builder

def removeChar (set : CharSet) (character : Nat) : Except CharSetError CharSet :=
  removeRange set (CharRange.ofChar character)

def addSet (set other : CharSet) : Except CharSetError CharSet :=
  if other.isEmpty then .ok set else unitedWith set other

def removeSet (set other : CharSet) : Except CharSetError CharSet :=
  if set.isEmpty ∨ other.isEmpty then .ok set else subtractedBy set other

end CharSet

end ErbslandCore.Text
