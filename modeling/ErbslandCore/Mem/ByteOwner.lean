import ErbslandCore.Mem.ByteModifyTools
import ErbslandCore.Mem.RingBuffer

namespace ErbslandCore.Mem
open Library
set_option autoImplicit true

namespace BestGrowth

def minimumGrowthBlock : Nat := 16

def maximumGrowthBlock : Nat := 0x10000

/-- The largest finite byte length. -/
def maximumLength : Nat := 2 ^ 64 - 2

def fromSizeT (value : Nat) : Nat := min value maximumLength

def alignUpOrMaximum (value alignment : Nat) : Nat :=
  let aligned := alignUp value alignment
  if aligned > cSizeMaximum then maximumLength else aligned

/-- Double from one on until the size is exceeded. -/
def doubledAbove (requested : Nat) : Nat → Nat → Nat
  | 0, result => result
  | fuel + 1, result =>
    if result ≤ requested then
      if result > maximumLength / 2 then maximumLength
      else doubledAbove requested fuel (result * 2)
    else result

def compactGrowth (requested : Nat) : Nat :=
  if requested > maximumGrowthBlock then
    let aligned := alignUpOrMaximum requested maximumGrowthBlock
    if aligned = requested then
      if requested + maximumGrowthBlock > cSizeMaximum then maximumLength
      else fromSizeT (requested + maximumGrowthBlock)
    else fromSizeT aligned
  else fromSizeT (doubledAbove requested 64 1)

/-- The compact strategy, on allocation sizes. -/
def bestCompactGrowth (current requested : Nat) : Nat :=
  let current := fromSizeT current
  let requested := fromSizeT requested
  if requested ≤ current then current
  else if requested < minimumGrowthBlock then minimumGrowthBlock
  else compactGrowth requested

theorem fromSizeT_le (value : Nat) : fromSizeT value ≤ maximumLength := min_le_right _ _

theorem compactGrowth_le (requested : Nat) : compactGrowth requested ≤ maximumLength := by
  unfold compactGrowth
  split
  · dsimp only
    split
    · split
      · exact le_refl _
      · exact fromSizeT_le _
    · exact fromSizeT_le _
  · exact fromSizeT_le _

theorem bestCompactGrowth_le (current requested : Nat) :
    bestCompactGrowth current requested ≤ maximumLength := by
  unfold bestCompactGrowth
  dsimp only
  split
  · exact fromSizeT_le _
  · split
    · decide
    · exact compactGrowth_le _

end BestGrowth

/-- How a container allocates its bytes: the limit of its size type, the bytes that precede the
data in an allocation, and whether containers can share an allocation. -/
structure StorageType where
  supportsSharedOwnership : Bool
  maximumSize : Nat
  allocationOverhead : Nat
  maximumSize_le : maximumSize ≤ cSizeMaximum - allocationOverhead

namespace StorageType

def byteBlockData (allocationOverhead : Nat) (h : allocationOverhead ≤ 2 ^ 63) : StorageType where
  supportsSharedOwnership := true
  maximumSize := 2 ^ 32 - 1
  allocationOverhead := allocationOverhead
  maximumSize_le := by
    rw [cSizeMaximum]
    omega

def byteBufferData : StorageType where
  supportsSharedOwnership := false
  maximumSize := cSizeMaximum
  allocationOverhead := 0
  maximumSize_le := le_refl _

variable (T : StorageType)

def canAllocateWithCapacity (capacity : Nat) : Bool :=
  decide (capacity ≤ T.maximumSize) && decide (capacity ≤ cSizeMaximum - T.allocationOverhead)

def allocationSizeForCapacity (capacity : Nat) : Nat :=
  if T.canAllocateWithCapacity capacity then T.allocationOverhead + capacity else cSizeMaximum

def bestGrowth (current requested : Nat) : Nat :=
  if requested ≤ current then current
  else if !T.canAllocateWithCapacity requested then requested
  else
    let target := BestGrowth.bestCompactGrowth
      (BestGrowth.fromSizeT (T.allocationSizeForCapacity current))
      (BestGrowth.fromSizeT (T.allocationSizeForCapacity requested))
    if target ≤ T.allocationOverhead then requested
    else
      let targetCapacity := target - T.allocationOverhead
      if targetCapacity < requested || !T.canAllocateWithCapacity targetCapacity then requested
      else targetCapacity

/-- The largest size of a container; no length is finite beyond it. -/
def maximumLength : Nat := min T.maximumSize BestGrowth.maximumLength

theorem canAllocateWithCapacity_iff (capacity : Nat) :
    T.canAllocateWithCapacity capacity = true ↔ capacity ≤ T.maximumSize := by
  have h := T.maximumSize_le
  simp only [canAllocateWithCapacity, Bool.and_eq_true, decide_eq_true_eq]
  exact ⟨And.left, fun hle => ⟨hle, hle.trans h⟩⟩

theorem requested_le_bestGrowth (current requested : Nat) :
    requested ≤ T.bestGrowth current requested := by
  unfold bestGrowth
  split
  case isTrue h => exact h
  case isFalse =>
    split
    case isTrue => exact le_refl _
    case isFalse =>
      dsimp only
      split
      case isTrue => exact le_refl _
      case isFalse =>
        split
        case isTrue => exact le_refl _
        case isFalse h =>
          rw [Bool.or_eq_true, not_or, decide_eq_true_eq, not_lt] at h
          exact h.1

theorem bestGrowth_le {current requested : Nat} (hc : current ≤ T.maximumLength)
    (hr : requested ≤ T.maximumLength) : T.bestGrowth current requested ≤ T.maximumLength := by
  unfold bestGrowth
  split
  case isTrue => exact hc
  case isFalse =>
    split
    case isTrue => exact hr
    case isFalse =>
      dsimp only
      split
      case isTrue => exact hr
      case isFalse =>
        split
        case isTrue => exact hr
        case isFalse h =>
          rw [Bool.or_eq_true, not_or, Bool.not_eq_true', Bool.not_eq_false,
            canAllocateWithCapacity_iff] at h
          exact le_min h.2 ((Nat.sub_le _ _).trans (BestGrowth.bestCompactGrowth_le _ _))

end StorageType

/-- The ends of a modification that yields no container. -/
inductive ModifyError where
  | outOfRange (message : String)
  | badAllocation
  | terminate
  | nullAccess
  | outOfBounds
  | overlap
  deriving DecidableEq

/-- An allocation: all bytes of its capacity, and how many of them are visible. -/
structure ByteData (T : StorageType) where
  bytes : List UInt8
  size : Nat
  sensitive : Bool
  size_le : size ≤ bytes.length
  capacity_le : bytes.length ≤ T.maximumLength

namespace ByteData
open RingBuffer
variable (data : ByteData T)

def visible : List UInt8 := data.bytes.take data.size

def capacity : Nat := data.bytes.length

/-- Bytes from elsewhere are written to a position. -/
def store (position : Nat) (bytes : List UInt8) : Except ModifyError (ByteData T) :=
  if h : position + bytes.length ≤ data.bytes.length then
    .ok { data with
      bytes := overwrite data.bytes position bytes
      size_le := by rw [length_overwrite _ _ _ h]; exact data.size_le
      capacity_le := by rw [length_overwrite _ _ _ h]; exact data.capacity_le }
  else .error .outOfBounds

/-- A move reads all bytes before it writes the first one. -/
def memmove (destination source count : Nat) : Except ModifyError (ByteData T) :=
  if source + count ≤ data.bytes.length then
    data.store destination ((data.bytes.drop source).take count)
  else .error .outOfBounds

/-- A copy between overlapping ranges is undefined. -/
def memcpy (destination source count : Nat) : Except ModifyError (ByteData T) :=
  if destination + count ≤ source ∨ source + count ≤ destination then
    data.memmove destination source count
  else .error .overlap

def secureErase (position count : Nat) : Except ModifyError (ByteData T) :=
  data.store position (List.replicate count 0)

def setSize (newSize : Nat) : Except ModifyError (ByteData T) :=
  if h : newSize ≤ data.bytes.length then .ok { data with size := newSize, size_le := h }
  else .error .terminate

def setSensitive : ByteData T := { data with sensitive := true }

/-- Memory of a capacity; what it holds at first is arbitrary. -/
def create (T : StorageType) (memory : Nat → UInt8) (size capacity : Nat) (sensitive : Bool) :
    Except ModifyError (ByteData T) :=
  if h : size ≤ capacity ∧ T.canAllocateWithCapacity capacity = true then
    if hm : capacity ≤ BestGrowth.maximumLength then
      .ok {
        bytes := (List.range capacity).map memory
        size := size
        sensitive := sensitive
        size_le := by rw [List.length_map, List.length_range]; exact h.1
        capacity_le := by
          rw [List.length_map, List.length_range]
          exact le_min ((T.canAllocateWithCapacity_iff capacity).mp h.2) hm }
    else .error .badAllocation
  else .error (.outOfRange "Byte storage size exceeds the supported limit")

/-- A copy of the bytes, with no capacity beyond them. -/
def createCopy (T : StorageType) (memory : Nat → UInt8) (bytes : List UInt8) (sensitive : Bool) :
    Except ModifyError (ByteData T) := do
  let data ← create T memory bytes.length bytes.length sensitive
  if bytes.isEmpty then return data else data.store 0 bytes

/-- A separate allocation with the visible bytes. -/
def clone (memory : Nat → UInt8) : Except ModifyError (ByteData T) := do
  let copy ← create T memory data.size data.capacity data.sensitive
  copy.store 0 data.visible

end ByteData

/-- The handle of a container on its allocation. A type that shares allocations has no
allocation of capacity zero, which stands for the null handle. -/
structure ByteOwner (T : StorageType) where
  data : ByteData T
  shared : Bool
  shared_supported : shared = true → T.supportsSharedOwnership = true

/-- The bytes a modification reads: of another object, or a part of its own allocation. -/
inductive ByteSource where
  | external (bytes : List UInt8)
  | own (offset length : Nat)
  deriving DecidableEq

def ByteSource.bytes (source : ByteSource) (data : ByteData T) : List UInt8 :=
  match source with
  | .external bytes => bytes
  | .own offset length => (data.bytes.drop offset).take length

/-- Whether the span starts at a position of the allocation. -/
def ByteSource.startsAt (source : ByteSource) (position : Nat) : Bool :=
  match source with
  | .external _ => false
  | .own offset _ => offset == position

namespace ByteOwner
variable (o : ByteOwner T)

def isNull : Bool := T.supportsSharedOwnership && o.data.capacity == 0

def isShared : Bool := !o.isNull && o.shared

def isSensitive : Bool := !o.isNull && o.data.sensitive

def visible : List UInt8 := o.data.visible

def length : Nat := o.data.size

def markAsSensitive : ByteOwner T :=
  if o.isNull then o else { o with data := o.data.setSensitive }

/-- The handle of one container on new data. -/
def ofData (data : ByteData T) : ByteOwner T := ⟨data, false, nofun⟩

def mutableData : Except ModifyError (ByteData T) :=
  if o.isNull then .error .nullAccess else .ok o.data

def checkedCombinedLength (T : StorageType) (first second : Nat) : Except ModifyError Nat :=
  if first + second > cSizeMaximum ∨ first + second > T.maximumSize then
    .error (.outOfRange "Byte block size exceeds the supported limit")
  else .ok (first + second)

variable (memory : Nat → UInt8)

def ensureUnique : Except ModifyError (ByteOwner T) :=
  if o.isShared then do
    let copy ← o.data.clone memory
    return ofData copy
  else .ok o

def ensureCapacity (requestedCapacity : Nat) : Except ModifyError (ByteOwner T) :=
  let oldLength := o.length
  if !T.canAllocateWithCapacity requestedCapacity then
    .error (.outOfRange "Byte storage capacity exceeds the supported limit")
  else
    let oldCapacity := o.data.capacity
    if !o.isNull && !o.isShared && requestedCapacity ≤ oldCapacity then .ok o
    else do
      let newCapacity := T.bestGrowth oldCapacity (max oldLength requestedCapacity)
      let replacement ← ByteData.create T memory oldLength newCapacity o.isSensitive
      if !o.isNull && oldLength ≠ 0 then do
        let replacement ← replacement.store 0 o.visible
        return ofData replacement
      else return ofData replacement

/-- A part of the own allocation is copied before the allocation changes. -/
def stableSource (source : ByteSource) : Except ModifyError (List UInt8) :=
  match source with
  | .external bytes => .ok bytes
  | .own offset length =>
    let bytes := (ByteSource.own offset length).bytes o.data
    if bytes.isEmpty then .ok bytes
    else do
      let snapshot ← ByteData.createCopy T memory bytes o.isSensitive
      return snapshot.visible

end ByteOwner
end ErbslandCore.Mem
