import Mathlib.Data.List.Rotate
import ErbslandCore.Library.Except

namespace ErbslandCore.Mem
open Library
set_option autoImplicit true

namespace BestGrowth

def alignUp (value alignment : Nat) : Nat :=
  let remainder := value % alignment
  if remainder = 0 then value else value + (alignment - remainder)

def allocationPageSize : Nat := 0x1000

/-- Double the capacity until it suffices; no size has more than 64 bits. -/
def doubled (requested : Nat) : Nat → Nat → Nat
  | 0, result => result
  | fuel + 1, result => if result < requested then doubled requested fuel (result * 2) else result

def geometricGrowth (current requested : Nat) : Nat :=
  doubled (alignUp requested allocationPageSize) 64
    (max allocationPageSize (alignUp current allocationPageSize))

def bestGrowth (current requested : Nat) : Nat :=
  if requested ≤ current then current
  else max requested (geometricGrowth current requested)

theorem requested_le_bestGrowth (current requested : Nat) :
    requested ≤ bestGrowth current requested := by
  rw [bestGrowth]
  split
  case isTrue h => exact h
  case isFalse => exact le_max_left _ _

end BestGrowth

/-- A cyclic byte queue. -/
structure RingBuffer where
  storage : List UInt8
  maximumCapacity : Nat
  readPosition : Nat
  length : Nat
  readPosition_lt : readPosition < storage.length
  length_le : length ≤ storage.length
  storage_le : storage.length ≤ maximumCapacity
  deriving DecidableEq

namespace RingBuffer

def new (initialCapacity maximumCapacity : Nat) (h₀ : 0 < initialCapacity)
    (hm : initialCapacity ≤ maximumCapacity) : RingBuffer where
  storage := List.replicate initialCapacity 0
  maximumCapacity := maximumCapacity
  readPosition := 0
  length := 0
  readPosition_lt := by rwa [List.length_replicate]
  length_le := Nat.zero_le _
  storage_le := by rwa [List.length_replicate]

/-- The stored bytes, up to the end of the storage and from its start. -/
def readableSpans (b : RingBuffer) : List UInt8 × List UInt8 :=
  if b.length = 0 then ([], [])
  else
    let firstLength := min b.length (b.storage.length - b.readPosition)
    let secondLength := b.length - firstLength
    ((b.storage.drop b.readPosition).take firstLength, b.storage.take secondLength)

/-- The stored bytes in their order. -/
def contents (b : RingBuffer) : List UInt8 := b.readableSpans.1 ++ b.readableSpans.2

def canWrite (b : RingBuffer) (length : Nat) : Bool := length ≤ b.maximumCapacity - b.length

/-- Storage of another capacity holds the stored bytes at its start. -/
def relocate (b : RingBuffer) (newCapacity : Nat) : List UInt8 :=
  b.contents ++ List.replicate (newCapacity - b.contents.length) 0

/-- The bytes of a storage from a position on are replaced. -/
def overwrite (storage : List UInt8) (position : Nat) (bytes : List UInt8) : List UInt8 :=
  storage.take position ++ bytes ++ storage.drop (position + bytes.length)

theorem contents_eq (b : RingBuffer) : b.contents = (b.storage.rotate b.readPosition).take b.length := by
  have hr := b.readPosition_lt
  have hl := b.length_le
  rw [contents, readableSpans, List.rotate_eq_drop_append_take hr.le]
  split
  case isTrue h => rw [h, List.take_zero, List.append_nil]
  case isFalse h =>
    simp only
    rw [List.take_append, List.length_drop, List.take_take]
    rcases Nat.le_total b.length (b.storage.length - b.readPosition) with hle | hle
    · rw [min_eq_left hle, Nat.sub_self, Nat.sub_eq_zero_of_le hle]
      simp
    · have hspan : (b.storage.drop b.readPosition).take (b.storage.length - b.readPosition) =
          b.storage.drop b.readPosition := List.take_of_length_le (by simp)
      have hall : (b.storage.drop b.readPosition).take b.length = b.storage.drop b.readPosition :=
        List.take_of_length_le (by simp; omega)
      rw [min_eq_right hle, hspan, hall, min_eq_left (by omega)]

@[simp] theorem length_contents (b : RingBuffer) : b.contents.length = b.length := by
  rw [contents_eq, List.length_take, List.length_rotate]
  exact min_eq_left b.length_le

theorem getElem?_contents (b : RingBuffer) (i : Nat) (h : i < b.length) :
    b.contents[i]? = b.storage[(b.readPosition + i) % b.storage.length]? := by
  have hl := b.length_le
  rw [contents_eq, List.getElem?_take_of_lt h, List.getElem?_rotate (by omega), Nat.add_comm]

/-- A byte of overwritten storage. -/
theorem getElem?_overwrite (storage bytes : List UInt8) (position i : Nat)
    (h : position + bytes.length ≤ storage.length) :
    (overwrite storage position bytes)[i]? =
      if i < position then storage[i]?
      else if i < position + bytes.length then bytes[i - position]?
      else storage[i]? := by
  rw [overwrite, List.append_assoc]
  split_ifs with h₁ h₂
  · rw [List.getElem?_append_left (by simp; omega), List.getElem?_take_of_lt h₁]
  · rw [List.getElem?_append_right (by simp; omega), List.getElem?_append_left (by simp; omega)]
    congr 1
    simp
    omega
  · rw [List.getElem?_append_right (by simp; omega), List.getElem?_append_right (by simp; omega),
      List.getElem?_drop]
    congr 1
    simp
    omega

theorem length_overwrite (storage bytes : List UInt8) (position : Nat)
    (h : position + bytes.length ≤ storage.length) :
    (overwrite storage position bytes).length = storage.length := by
  simp [overwrite]
  omega

/-- More space, where it is needed. -/
def reserveAdditional (b : RingBuffer) (length : Nat) : Option RingBuffer :=
  if hw : b.canWrite length = true then
    let required := b.length + length
    if hr : required ≤ b.storage.length then some b
    else
      let newCapacity := min (BestGrowth.bestGrowth b.storage.length required) b.maximumCapacity
      have hcapacity : required ≤ newCapacity := by
        have hbest := BestGrowth.requested_le_bestGrowth b.storage.length required
        have hmaximum := b.storage_le
        have hstored := b.length_le
        rw [canWrite, decide_eq_true_eq] at hw
        exact le_min hbest (by simp only [required]; omega)
      have hlength : (b.relocate newCapacity).length = newCapacity := by
        simp only [relocate, List.length_append, length_contents, List.length_replicate]
        omega
      some { b with
        storage := b.relocate newCapacity
        readPosition := 0
        readPosition_lt := by rw [hlength]; omega
        length_le := by rw [hlength]; omega
        storage_le := by rw [hlength]; exact min_le_right _ _ }
  else none

theorem reserveAdditional_eq (b : RingBuffer) (length : Nat) :
    (b.canWrite length = false → b.reserveAdditional length = none) ∧
    (b.canWrite length = true → ∃ b', b.reserveAdditional length = some b' ∧
      b'.contents = b.contents ∧ b'.length = b.length ∧ b'.maximumCapacity = b.maximumCapacity ∧
      b.length + length ≤ b'.storage.length) := by
  constructor
  · intro h
    rw [reserveAdditional, dif_neg (by simp [h])]
  · intro h
    rw [reserveAdditional, dif_pos h]
    simp only
    split
    case isTrue hr => exact ⟨b, rfl, rfl, rfl, rfl, hr⟩
    case isFalse hr =>
      refine ⟨_, rfl, ?_, rfl, rfl, ?_⟩
      · rw [contents_eq]
        simp only [List.rotate_zero, relocate]
        rw [List.take_left' (length_contents b)]
      · have hbest := BestGrowth.requested_le_bestGrowth b.storage.length (b.length + length)
        have hmaximum := b.storage_le
        rw [canWrite, decide_eq_true_eq] at h
        simp only [relocate, List.length_append, length_contents, List.length_replicate]
        omega

/-- The free bytes after the stored ones are overwritten, first up to the end of the storage. -/
def write (b : RingBuffer) (bytes : List UInt8) (h : b.length + bytes.length ≤ b.storage.length) :
    RingBuffer :=
  let writePosition := (b.readPosition + b.length) % b.storage.length
  let firstLength := min (b.storage.length - b.length) (b.storage.length - writePosition)
  let first := bytes.take firstLength
  let second := bytes.drop firstLength
  have hposition : writePosition < b.storage.length :=
    Nat.mod_lt _ (Nat.zero_lt_of_lt b.readPosition_lt)
  have hfirst : (overwrite b.storage writePosition first).length = b.storage.length :=
    length_overwrite _ _ _ (by simp only [first, List.length_take]; omega)
  have hlength : (overwrite (overwrite b.storage writePosition first) 0 second).length =
      b.storage.length := by
    rw [length_overwrite _ _ _ (by simp only [hfirst, second, List.length_drop]; omega), hfirst]
  { b with
    storage := overwrite (overwrite b.storage writePosition first) 0 second
    length := b.length + bytes.length
    readPosition_lt := by rw [hlength]; exact b.readPosition_lt
    length_le := by rwa [hlength]
    storage_le := by rw [hlength]; exact b.storage_le }

def writeExact (b : RingBuffer) (bytes : List UInt8) : Option RingBuffer :=
  match b.reserveAdditional bytes.length with
  | none => none
  | some reserved =>
    if h : reserved.length + bytes.length ≤ reserved.storage.length then some (reserved.write bytes h)
    else none

/-- Bytes are taken off the front. -/
def consumeRead (b : RingBuffer) (count : Nat) : Option RingBuffer :=
  if count > b.length then none
  else if count = b.length then
    some { b with
      readPosition := 0
      length := 0
      readPosition_lt := Nat.zero_lt_of_lt b.readPosition_lt
      length_le := Nat.zero_le _ }
  else
    some { b with
      readPosition := (b.readPosition + count) % b.storage.length
      length := b.length - count
      readPosition_lt := Nat.mod_lt _ (Nat.zero_lt_of_lt b.readPosition_lt)
      length_le := Nat.le_trans (Nat.sub_le _ _) b.length_le }

/-- At most so many bytes off the front, and what is left. -/
def read (b : RingBuffer) (maximum : Nat) : List UInt8 × Option RingBuffer :=
  let readLength := min maximum b.length
  let first := b.readableSpans.1.take readLength
  (first ++ b.readableSpans.2.take (readLength - first.length), b.consumeRead readLength)

/-- A position that wraps around at most once. -/
theorem mod_of_lt_twice (h : x < 2 * n) : x % n = if x < n then x else x - n := by
  split
  case isTrue hlt => exact Nat.mod_eq_of_lt hlt
  case isFalse hge => rw [Nat.mod_eq_sub_mod (by omega), Nat.mod_eq_of_lt (by omega)]

theorem contents_write (b : RingBuffer) (bytes : List UInt8)
    (h : b.length + bytes.length ≤ b.storage.length) :
    (b.write bytes h).contents = b.contents ++ bytes := by
  have hr := b.readPosition_lt
  have hlength : (b.write bytes h).length = b.length + bytes.length := rfl
  have hposition : (b.write bytes h).readPosition = b.readPosition := rfl
  -- The write position is the read position plus the length, wrapped around.
  have hwrap := mod_of_lt_twice (x := b.readPosition + b.length) (n := b.storage.length) (by omega)
  generalize hw : (b.readPosition + b.length) % b.storage.length = w at hwrap
  generalize hF : min (b.storage.length - b.length) (b.storage.length - w) = firstLength
  have hfirst : w + (bytes.take firstLength).length ≤ b.storage.length := by
    rw [List.length_take]
    split_ifs at hwrap <;> omega
  have hstorage : (b.write bytes h).storage =
      overwrite (overwrite b.storage w (bytes.take firstLength)) 0 (bytes.drop firstLength) := by
    rw [write]
    simp only [hw, hF]
  have hsecond : 0 + (bytes.drop firstLength).length ≤
      (overwrite b.storage w (bytes.take firstLength)).length := by
    rw [length_overwrite _ _ _ hfirst, List.length_drop]
    omega
  refine List.ext_getElem? fun i => ?_
  by_cases hi : i < b.length + bytes.length
  · have hi' := mod_of_lt_twice (x := b.readPosition + i) (n := b.storage.length) (by omega)
    rw [getElem?_contents _ _ (by rwa [hlength]), hposition, hstorage, length_overwrite _ _ _ hsecond,
      length_overwrite _ _ _ hfirst, getElem?_overwrite _ _ _ _ hsecond,
      getElem?_overwrite _ _ _ _ hfirst]
    simp only [List.length_drop, List.length_take, List.getElem?_drop, List.getElem?_take]
    by_cases hl : i < b.length
    · rw [List.getElem?_append_left (by simpa using hl), getElem?_contents _ _ hl]
      split_ifs at hwrap hi' <;> split_ifs <;> first | rfl | omega
    · rw [List.getElem?_append_right (by simpa using hl), length_contents]
      split_ifs at hwrap hi' <;> split_ifs <;> first | omega | (congr 1; omega)
  · rw [List.getElem?_eq_none (by simp [hlength]; omega), List.getElem?_eq_none (by simp; omega)]

theorem contents_writeExact (b : RingBuffer) (bytes : List UInt8) :
    (b.maximumCapacity < b.length + bytes.length → b.writeExact bytes = none) ∧
    (b.length + bytes.length ≤ b.maximumCapacity → ∃ b', b.writeExact bytes = some b' ∧
      b'.contents = b.contents ++ bytes ∧ b'.maximumCapacity = b.maximumCapacity) := by
  have hl := b.length_le
  have hm := b.storage_le
  obtain ⟨hfull, hspace⟩ := b.reserveAdditional_eq bytes.length
  constructor
  · intro h
    rw [writeExact, hfull (by rw [canWrite, decide_eq_false_iff_not]; omega)]
  · intro h
    obtain ⟨b', hb', hcontents, hlength, hmax, hroom⟩ :=
      hspace (by rw [canWrite, decide_eq_true_eq]; omega)
    rw [writeExact, hb']
    refine ⟨b'.write bytes (by omega), dif_pos (by omega), ?_, hmax⟩
    rw [contents_write, hcontents]

theorem contents_consumeRead (b : RingBuffer) (h : count ≤ b.length) :
    ∃ b', b.consumeRead count = some b' ∧ b'.contents = b.contents.drop count ∧
      b'.maximumCapacity = b.maximumCapacity := by
  have hr := b.readPosition_lt
  have hl := b.length_le
  rw [consumeRead, if_neg (by omega)]
  split
  case isTrue he =>
    refine ⟨_, rfl, ?_, rfl⟩
    rw [List.drop_of_length_le (by simp [he])]
    rfl
  case isFalse hne =>
    refine ⟨_, rfl, ?_, rfl⟩
    refine List.ext_getElem? fun i => ?_
    rw [List.getElem?_drop]
    by_cases hi : i < b.length - count
    · rw [getElem?_contents _ _ hi, getElem?_contents _ _ (by omega)]
      simp only [Nat.mod_add_mod, Nat.add_assoc]
    · rw [List.getElem?_eq_none (by simp; omega), List.getElem?_eq_none (by simp; omega)]

theorem read_eq (b : RingBuffer) (maximum : Nat) :
    ∃ b', b.read maximum = (b.contents.take maximum, some b') ∧
      b'.contents = b.contents.drop maximum ∧ b'.maximumCapacity = b.maximumCapacity := by
  obtain ⟨b', hb', hcontents, hmax⟩ := contents_consumeRead b (Nat.min_le_right maximum b.length)
  have htake : b.contents.take maximum = b.contents.take (min maximum b.length) := by
    rw [← length_contents, List.take_eq_take_min]
  have hdrop : b.contents.drop (min maximum b.length) = b.contents.drop maximum := by
    rcases Nat.le_total maximum b.length with hle | hle
    · rw [min_eq_left hle]
    · rw [min_eq_right hle, List.drop_of_length_le (by simp), List.drop_of_length_le (by simp [hle])]
  refine ⟨b', ?_, by rw [hcontents, hdrop], hmax⟩
  rw [read, hb', htake, contents, List.take_append]
  simp only [List.length_take]
  congr 2
  congr 1
  omega

end RingBuffer
end ErbslandCore.Mem
