import ErbslandCore.Mem.RingBuffer

namespace ErbslandCore.Mem
open Library
set_option autoImplicit true

/-- The exceptions of a ring buffer, with the parameter they name. -/
inductive RingBufferError where
  | parameter (message name : String)
  deriving DecidableEq

/-- What a queue operation reports. -/
inductive QueueResponse where
  | done
  | result (success : Bool)
  | count (length : Nat)
  | bytes (bytes : List UInt8)
  deriving DecidableEq

/-- The public operations; a missing length is an infinite one. -/
inductive QueueOperation where
  | write (bytes : List UInt8)
  | writeExact (bytes : List UInt8)
  | read (maximum : Option Nat)
  | reserveAdditional (length : Option Nat)
  | shrinkToInitial
  | clear
  | secureErase
  | setSensitive (sensitive : Bool)
  deriving DecidableEq

namespace RingBuffer

theorem length_readableSpans (b : RingBuffer) :
    b.readableSpans.1.length = min b.length (b.storage.length - b.readPosition) ∧
      b.readableSpans.2.length =
        b.length - min b.length (b.storage.length - b.readPosition) := by
  have hl := b.length_le
  unfold readableSpans
  split
  case isTrue h => simp [h]
  case isFalse =>
    simp only [List.length_take, List.length_drop]
    omega

/-- The first readable bytes are overwritten with zeros. -/
def eraseReadablePrefix (b : RingBuffer) (length : Nat) : RingBuffer :=
  let firstCount := min b.readableSpans.1.length length
  let secondCount := min b.readableSpans.2.length (length - firstCount)
  let storage := overwrite (overwrite b.storage b.readPosition (List.replicate firstCount 0)) 0
    (List.replicate secondCount 0)
  have hspans : firstCount ≤ b.storage.length - b.readPosition ∧
      secondCount ≤ b.storage.length := by
    have hl := b.length_le
    obtain ⟨h₁, h₂⟩ := b.length_readableSpans
    omega
  have hfirst : (overwrite b.storage b.readPosition (List.replicate firstCount 0)).length =
      b.storage.length :=
    length_overwrite _ _ _ (by
      have hr := b.readPosition_lt
      rw [List.length_replicate]
      omega)
  have hlength : storage.length = b.storage.length := by
    rw [length_overwrite _ _ _ (by rw [hfirst, List.length_replicate]; omega), hfirst]
  { b with
    storage := storage
    readPosition_lt := by rw [hlength]; exact b.readPosition_lt
    length_le := by rw [hlength]; exact b.length_le
    storage_le := by rw [hlength]; exact b.storage_le }

/-- All bytes of the storage are erased. -/
def secureErase (b : RingBuffer) : RingBuffer where
  storage := List.replicate b.storage.length 0
  maximumCapacity := b.maximumCapacity
  readPosition := 0
  length := 0
  readPosition_lt := by rw [List.length_replicate]; exact Nat.zero_lt_of_lt b.readPosition_lt
  length_le := Nat.zero_le _
  storage_le := by rw [List.length_replicate]; exact b.storage_le

theorem storage_pos (b : RingBuffer) : 0 < b.storage.length := Nat.zero_lt_of_lt b.readPosition_lt

theorem zero_le_storage (b : RingBuffer) : 0 ≤ b.storage.length := Nat.zero_le _

/-- Empty storage starts over with the first byte. -/
def discard (b : RingBuffer) : RingBuffer :=
  { b with
    readPosition := 0
    length := 0
    readPosition_lt := b.storage_pos
    length_le := b.zero_le_storage }

end RingBuffer

/-- A ring buffer with its initial capacity and the mode that erases discarded storage. -/
structure SensitiveRingBuffer where
  ring : RingBuffer
  initialCapacity : Nat
  sensitive : Bool
  initialCapacity_pos : 0 < initialCapacity
  initialCapacity_le : initialCapacity ≤ ring.maximumCapacity
  deriving DecidableEq

namespace SensitiveRingBuffer

def new (initialCapacity maximumCapacity : Nat) : Except RingBufferError SensitiveRingBuffer :=
  if h : 0 < initialCapacity then
    if hm : initialCapacity ≤ maximumCapacity then
      .ok ⟨.new initialCapacity maximumCapacity h hm, initialCapacity, false, h, hm⟩
    else
      .error (.parameter "Ring buffer maximum capacity is smaller than its initial capacity."
        "maximumCapacity")
  else .error (.parameter "Ring buffer capacity must not be zero." "initialCapacity")

variable (s : SensitiveRingBuffer)

/-- Another state of the ring, of the same maximum capacity. -/
def withRing (ring : RingBuffer) (h : ring.maximumCapacity = s.ring.maximumCapacity) :
    SensitiveRingBuffer :=
  { s with ring := ring, initialCapacity_le := by rw [h]; exact s.initialCapacity_le }

def secureErase : SensitiveRingBuffer := s.withRing s.ring.secureErase rfl

def setSensitive (sensitive : Bool) : SensitiveRingBuffer :=
  let erased := if s.sensitive && !sensitive then s.secureErase else s
  { erased with sensitive := sensitive }

def canWrite (length : Option Nat) : Bool :=
  match length with
  | none => false
  | some length => s.ring.canWrite length

theorem maximumCapacity_reserveAdditional {b b' : RingBuffer}
    (h : b.reserveAdditional length = some b') : b'.maximumCapacity = b.maximumCapacity := by
  obtain ⟨hfull, hspace⟩ := b.reserveAdditional_eq length
  cases hw : b.canWrite length with
  | false =>
    rw [hfull hw] at h
    cases h
  | true =>
    obtain ⟨b'', hb, -, -, hm, -⟩ := hspace hw
    rw [hb] at h
    cases h
    exact hm

def reserveAdditional (length : Option Nat) : Bool × SensitiveRingBuffer :=
  match length with
  | none => (false, s)
  | some length =>
    match h : s.ring.reserveAdditional length with
    | none => (false, s)
    | some ring => (true, s.withRing ring (maximumCapacity_reserveAdditional h))

/-- Bytes are copied into the writable spans and committed. -/
def copyAndCommit (bytes : List UInt8) : Except RingBufferError SensitiveRingBuffer :=
  if h : s.ring.length + bytes.length ≤ s.ring.storage.length then
    .ok (s.withRing (s.ring.write bytes h) rfl)
  else .error (.parameter "Committed byte count exceeds ring buffer space." "length")

def write (bytes : List UInt8) : Except RingBufferError (Nat × SensitiveRingBuffer) :=
  let maximumWrite := min bytes.length (s.ring.maximumCapacity - s.ring.length)
  let (reserved, s) := s.reserveAdditional (some maximumWrite)
  if !reserved then .ok (0, s)
  else do
    let s ← s.copyAndCommit (bytes.take maximumWrite)
    return (maximumWrite, s)

def writeExact (bytes : List UInt8) : Except RingBufferError (Bool × SensitiveRingBuffer) :=
  let (reserved, s) := s.reserveAdditional (some bytes.length)
  if !reserved then .ok (false, s)
  else do
    let (written, s) ← s.write bytes
    return (written == bytes.length, s)

theorem storage_consumeRead {b b' : RingBuffer} (h : b.consumeRead count = some b') :
    b'.storage = b.storage ∧ b'.maximumCapacity = b.maximumCapacity := by
  unfold RingBuffer.consumeRead at h
  split at h
  · cases h
  · split at h <;> cases h <;> exact ⟨rfl, rfl⟩

def consumeRead (length : Nat) : Except RingBufferError SensitiveRingBuffer :=
  if length > s.ring.length then
    .error (.parameter "Consumed byte count exceeds readable ring buffer data." "length")
  else
    let erased := if s.sensitive then s.ring.eraseReadablePrefix length else s.ring
    have herased : erased.maximumCapacity = s.ring.maximumCapacity := by
      unfold erased
      split <;> rfl
    match h : erased.consumeRead length with
    | none => .error (.parameter "Consumed byte count exceeds readable ring buffer data." "length")
    | some ring => .ok (s.withRing ring ((storage_consumeRead h).2.trans herased))

def read (maximum : Option Nat) : Except RingBufferError (List UInt8 × SensitiveRingBuffer) := do
  let readLength :=
    match maximum with
    | none => s.ring.length
    | some maximum => min maximum s.ring.length
  let bytes := (s.ring.read readLength).1
  let s ← s.consumeRead readLength
  return (bytes, s)

def clear : SensitiveRingBuffer :=
  if s.sensitive then s.secureErase else s.withRing s.ring.discard rfl

def shrinkToInitial : SensitiveRingBuffer :=
  if s.ring.length ≠ 0 ∨ s.ring.storage.length = s.initialCapacity then s
  else s.withRing (.new s.initialCapacity s.ring.maximumCapacity s.initialCapacity_pos
    s.initialCapacity_le) rfl

def perform : QueueOperation → Except RingBufferError (QueueResponse × SensitiveRingBuffer)
  | .write bytes => do
    let (length, s) ← s.write bytes
    return (.count length, s)
  | .writeExact bytes => do
    let (success, s) ← s.writeExact bytes
    return (.result success, s)
  | .read maximum => do
    let (bytes, s) ← s.read maximum
    return (.bytes bytes, s)
  | .reserveAdditional length =>
    let (success, s) := s.reserveAdditional length
    .ok (.result success, s)
  | .shrinkToInitial => .ok (.done, s.shrinkToInitial)
  | .clear => .ok (.done, s.clear)
  | .secureErase => .ok (.done, s.secureErase)
  | .setSensitive sensitive => .ok (.done, s.setSensitive sensitive)

def run : SensitiveRingBuffer → List QueueOperation →
    Except RingBufferError (List QueueResponse × SensitiveRingBuffer)
  | s, [] => .ok ([], s)
  | s, operation :: operations => do
    let (response, s) ← s.perform operation
    let (responses, s) ← run s operations
    return (response :: responses, s)

end SensitiveRingBuffer

namespace RingBuffer

/-- The distance of a storage position from the read position, around the end of the storage. -/
def offset (b : RingBuffer) (i : Nat) : Nat :=
  if b.readPosition ≤ i then i - b.readPosition else i + b.storage.length - b.readPosition

theorem offset_lt (b : RingBuffer) (hi : i < b.storage.length) : b.offset i < b.storage.length := by
  have hr := b.readPosition_lt
  unfold offset
  split <;> omega

theorem offset_position (b : RingBuffer) (hj : j < b.storage.length) :
    b.offset ((b.readPosition + j) % b.storage.length) = j := by
  have hr := b.readPosition_lt
  have hwrap := mod_of_lt_twice (x := b.readPosition + j) (n := b.storage.length) (by omega)
  unfold offset
  rw [hwrap]
  split_ifs <;> omega

/-- The storage outside the readable region is zero. -/
def Clean (b : RingBuffer) : Prop :=
  ∀ i, i < b.storage.length → b.length ≤ b.offset i → b.storage[i]? = some 0

theorem Clean.outside {b : RingBuffer} (h : b.Clean) (hi : i < b.storage.length)
    (hout : ∀ j, j < b.length → (b.readPosition + j) % b.storage.length ≠ i) :
    b.storage[i]? = some 0 := by
  have hr := b.readPosition_lt
  refine h i hi ?_
  by_contra hlt
  refine hout (b.offset i) (not_le.mp hlt) ?_
  have hoffset := b.offset_lt hi
  have hwrap := mod_of_lt_twice (x := b.readPosition + b.offset i) (n := b.storage.length) (by omega)
  rw [hwrap]
  unfold offset at hoffset ⊢
  split_ifs <;> omega

theorem clean_replicate (b : RingBuffer) (h : b.storage = List.replicate n 0) : b.Clean := by
  intro i hi _
  rw [h, List.length_replicate] at hi
  rw [h, List.getElem?_replicate_of_lt hi]

theorem storage_eraseReadablePrefix (b : RingBuffer) (count : Nat) (hi : i < b.storage.length) :
    (b.eraseReadablePrefix count).storage.length = b.storage.length ∧
      (b.eraseReadablePrefix count).storage[i]? =
        if b.offset i < min count b.length then some 0 else b.storage[i]? := by
  have hr := b.readPosition_lt
  have hl := b.length_le
  obtain ⟨h₁, h₂⟩ := b.length_readableSpans
  unfold eraseReadablePrefix
  simp only [h₁, h₂]
  generalize hfirst : min (min b.length (b.storage.length - b.readPosition)) count = firstCount
  generalize hsecond : min (b.length - min b.length (b.storage.length - b.readPosition))
    (count - firstCount) = secondCount
  have hin : b.readPosition + (List.replicate firstCount (0 : UInt8)).length ≤ b.storage.length := by
    rw [List.length_replicate]
    omega
  have hlength := length_overwrite _ _ _ hin
  have hin' : 0 + (List.replicate secondCount (0 : UInt8)).length ≤
      (overwrite b.storage b.readPosition (List.replicate firstCount 0)).length := by
    rw [List.length_replicate, hlength]
    omega
  refine ⟨(length_overwrite _ _ _ hin').trans hlength, ?_⟩
  rw [getElem?_overwrite _ _ _ _ hin', getElem?_overwrite _ _ _ _ hin]
  simp only [List.length_replicate, List.getElem?_replicate]
  unfold offset
  split_ifs <;> first | rfl | omega

theorem contents_eraseReadablePrefix (b : RingBuffer) (count : Nat) :
    (b.eraseReadablePrefix count).contents.drop count = b.contents.drop count := by
  have hr := b.readPosition_lt
  have hl := b.length_le
  refine List.ext_getElem? fun i => ?_
  rw [List.getElem?_drop, List.getElem?_drop]
  have hlength : (b.eraseReadablePrefix count).length = b.length := rfl
  by_cases hi : count + i < b.length
  · have hposition : (b.readPosition + (count + i)) % b.storage.length < b.storage.length :=
      Nat.mod_lt _ (by omega)
    obtain ⟨hstorage, hbyte⟩ := b.storage_eraseReadablePrefix count hposition
    rw [b.offset_position (by omega), if_neg (by omega)] at hbyte
    rw [getElem?_contents _ _ (by rwa [hlength]), getElem?_contents _ _ hi, hstorage]
    exact hbyte
  · rw [List.getElem?_eq_none (by simp [hlength]; omega), List.getElem?_eq_none (by simp; omega)]

theorem Clean.write {b : RingBuffer} (hb : b.Clean) (bytes : List UInt8)
    (h : b.length + bytes.length ≤ b.storage.length) : (b.write bytes h).Clean := by
  intro i hi hout
  have hr := b.readPosition_lt
  have hwrap := mod_of_lt_twice (x := b.readPosition + b.length) (n := b.storage.length) (by omega)
  have hlength : (b.write bytes h).length = b.length + bytes.length := rfl
  have hposition : (b.write bytes h).readPosition = b.readPosition := rfl
  generalize hw : (b.readPosition + b.length) % b.storage.length = w at hwrap
  generalize hF : min (b.storage.length - b.length) (b.storage.length - w) = firstLength
  have hfirst : w + (bytes.take firstLength).length ≤ b.storage.length := by
    rw [List.length_take]
    split_ifs at hwrap <;> omega
  have hstorage : (b.write bytes h).storage =
      overwrite (overwrite b.storage w (bytes.take firstLength)) 0 (bytes.drop firstLength) := by
    rw [RingBuffer.write]
    simp only [hw, hF]
  have hsecond : 0 + (bytes.drop firstLength).length ≤
      (overwrite b.storage w (bytes.take firstLength)).length := by
    rw [length_overwrite _ _ _ hfirst, List.length_drop]
    omega
  have hsize : (b.write bytes h).storage.length = b.storage.length := by
    rw [hstorage, length_overwrite _ _ _ hsecond, length_overwrite _ _ _ hfirst]
  rw [offset, hposition, hsize, hlength] at hout
  rw [hsize] at hi
  have hold : b.storage[i]? = some 0 := by
    apply hb i hi
    unfold offset
    omega
  rw [hstorage, getElem?_overwrite _ _ _ _ hsecond, getElem?_overwrite _ _ _ _ hfirst, hold]
  simp only [List.length_drop, List.length_take]
  split_ifs at hwrap hout <;> split_ifs <;> first | rfl | omega

/-- Storage of another size holds the contents and zeros. -/
theorem Clean.reserveAdditional {b b' : RingBuffer} (hb : b.Clean)
    (h : b.reserveAdditional n = some b') : b'.Clean := by
  unfold RingBuffer.reserveAdditional at h
  split at h
  case isFalse => cases h
  case isTrue =>
    dsimp only at h
    split at h
    case isTrue =>
      cases h
      exact hb
    case isFalse =>
      cases h
      intro i hi hout
      rw [offset, if_pos (Nat.zero_le _), Nat.sub_zero] at hout
      have hle : b.length ≤ i := hout
      simp only [relocate, List.length_append, length_contents, List.length_replicate] at hi
      simp only [relocate]
      rw [List.getElem?_append_right (by rwa [length_contents]), length_contents,
        List.getElem?_replicate_of_lt (by omega)]

theorem Clean.consumeRead {b b' : RingBuffer} (hb : b.Clean)
    (h : (b.eraseReadablePrefix count).consumeRead count = some b') : b'.Clean := by
  have hr := b.readPosition_lt
  have hlen : (b.eraseReadablePrefix count).length = b.length := rfl
  have hpos : (b.eraseReadablePrefix count).readPosition = b.readPosition := rfl
  have hsize := (b.storage_eraseReadablePrefix count hr).1
  have byte (i : Nat) (hi : i < b.storage.length)
      (hout : b.length ≤ b.offset i ∨ b.offset i < count) :
      (b.eraseReadablePrefix count).storage[i]? = some 0 := by
    rw [(b.storage_eraseReadablePrefix count hi).2]
    split
    case isTrue => rfl
    case isFalse => exact hb i hi (by omega)
  unfold RingBuffer.consumeRead at h
  split at h
  case isTrue => cases h
  case isFalse hle =>
    rw [hlen] at hle
    split at h
    case isTrue hall =>
      cases h
      intro i hi _
      rw [hlen] at hall
      exact byte i (by simpa only [hsize] using hi) (by omega)
    case isFalse =>
      cases h
      intro i hi hout
      have hi' : i < b.storage.length := by simpa only [hsize] using hi
      have hwrap := mod_of_lt_twice (x := b.readPosition + count) (n := b.storage.length)
        (by have := b.length_le; omega)
      simp only [offset, hlen, hpos, hsize, hwrap] at hout
      apply byte i hi'
      unfold offset
      split_ifs at hout ⊢ <;> omega

theorem contents_of_length_zero {b : RingBuffer} (h : b.length = 0) : b.contents = [] :=
  List.length_eq_zero_iff.mp ((length_contents b).trans h)

end RingBuffer

/-- A bounded queue of bytes; to leave the sensitive mode empties it. -/
structure ByteQueue where
  bytes : List UInt8
  sensitive : Bool
  deriving DecidableEq

namespace ByteQueue

/-- One operation on a queue of at most so many bytes. -/
def step (maximumCapacity : Nat) (q : ByteQueue) : QueueOperation → QueueResponse × ByteQueue
  | .write bytes =>
    let accepted := min bytes.length (maximumCapacity - q.bytes.length)
    (.count accepted, { q with bytes := q.bytes ++ bytes.take accepted })
  | .writeExact bytes =>
    if bytes.length ≤ maximumCapacity - q.bytes.length then
      (.result true, { q with bytes := q.bytes ++ bytes })
    else (.result false, q)
  | .read (some maximum) =>
    (.bytes (q.bytes.take maximum), { q with bytes := q.bytes.drop maximum })
  | .read none => (.bytes q.bytes, { q with bytes := [] })
  | .reserveAdditional (some length) =>
    (.result (decide (length ≤ maximumCapacity - q.bytes.length)), q)
  | .reserveAdditional none => (.result false, q)
  | .shrinkToInitial => (.done, q)
  | .clear => (.done, { q with bytes := [] })
  | .secureErase => (.done, { q with bytes := [] })
  | .setSensitive sensitive =>
    (.done, ⟨if q.sensitive && !sensitive then [] else q.bytes, sensitive⟩)

def run (maximumCapacity : Nat) (q : ByteQueue) : List QueueOperation →
    List QueueResponse × ByteQueue
  | [] => ([], q)
  | operation :: operations =>
    let (response, q) := q.step maximumCapacity operation
    let (responses, q) := run maximumCapacity q operations
    (response :: responses, q)

/-- The bytes that an operation adds to the queue. -/
def accepted (maximumCapacity : Nat) (q : ByteQueue) : QueueOperation → List UInt8
  | .write bytes => bytes.take (min bytes.length (maximumCapacity - q.bytes.length))
  | .writeExact bytes =>
    if bytes.length ≤ maximumCapacity - q.bytes.length then bytes else []
  | _ => []

/-- The bytes that an operation takes off the queue: those it reads or discards. -/
def removed (q : ByteQueue) : QueueOperation → List UInt8
  | .read (some maximum) => q.bytes.take maximum
  | .read none => q.bytes
  | .clear => q.bytes
  | .secureErase => q.bytes
  | .setSensitive sensitive => if q.sensitive && !sensitive then q.bytes else []
  | _ => []

end ByteQueue

namespace SensitiveRingBuffer

/-- The buffer stores the bytes of the queue. -/
structure Refines (s : SensitiveRingBuffer) (q : ByteQueue) : Prop where
  contents : s.ring.contents = q.bytes
  sensitive : s.sensitive = q.sensitive

/-- What an operation keeps of a buffer that erases its storage, and of one never written to. -/
structure Keeps (s s' : SensitiveRingBuffer) : Prop where
  maximumCapacity : s'.ring.maximumCapacity = s.ring.maximumCapacity
  initialCapacity : s'.initialCapacity = s.initialCapacity
  sensitive : s'.sensitive = s.sensitive
  clean : s.sensitive = true → s.ring.Clean → s'.ring.Clean

theorem Keeps.refl (s : SensitiveRingBuffer) : Keeps s s := ⟨rfl, rfl, rfl, fun _ h => h⟩

theorem Keeps.trans {s₁ s₂ s₃ : SensitiveRingBuffer} (h₁ : Keeps s₁ s₂) (h₂ : Keeps s₂ s₃) :
    Keeps s₁ s₃ where
  maximumCapacity := h₂.maximumCapacity.trans h₁.maximumCapacity
  initialCapacity := h₂.initialCapacity.trans h₁.initialCapacity
  sensitive := h₂.sensitive.trans h₁.sensitive
  clean := fun hs hc => h₂.clean (h₁.sensitive.trans hs) (h₁.clean hs hc)

theorem canWrite_eq (b : RingBuffer) (n : Nat) :
    b.canWrite n = decide (n ≤ b.maximumCapacity - b.contents.length) := by
  rw [RingBuffer.canWrite, RingBuffer.length_contents]

theorem reserveAdditional_spec (s : SensitiveRingBuffer) (n : Nat) :
    ∃ s', s.reserveAdditional (some n) =
        (decide (n ≤ s.ring.maximumCapacity - s.ring.contents.length), s') ∧
      s'.ring.contents = s.ring.contents ∧ Keeps s s' ∧
      (n ≤ s.ring.maximumCapacity - s.ring.contents.length →
        s.ring.length + n ≤ s'.ring.storage.length) ∧ (s.ring.Clean → s'.ring.Clean) := by
  obtain ⟨hfull, hspace⟩ := s.ring.reserveAdditional_eq n
  rw [canWrite_eq] at hfull hspace
  unfold reserveAdditional
  dsimp only
  split
  case h_1 hnone =>
    have hno : ¬ n ≤ s.ring.maximumCapacity - s.ring.contents.length := by
      intro hle
      obtain ⟨b', hb, -⟩ := hspace (decide_eq_true hle)
      rw [hb] at hnone
      cases hnone
    rw [decide_eq_false hno]
    exact ⟨s, rfl, rfl, .refl s, fun h => absurd h hno, id⟩
  case h_2 ring hsome =>
    have hyes : n ≤ s.ring.maximumCapacity - s.ring.contents.length := by
      by_contra hno
      rw [hfull (decide_eq_false hno)] at hsome
      cases hsome
    obtain ⟨b', hb, hcontents, -, hmax, hroom⟩ := hspace (decide_eq_true hyes)
    obtain rfl : ring = b' := Option.some.inj (hsome.symm.trans hb)
    rw [decide_eq_true hyes]
    have hclean (h : s.ring.Clean) : ring.Clean := h.reserveAdditional hsome
    exact ⟨_, rfl, hcontents, ⟨hmax, rfl, rfl, fun _ h => hclean h⟩, fun _ => hroom, hclean⟩

theorem write_spec (s : SensitiveRingBuffer) (bytes : List UInt8) :
    ∃ s', s.write bytes =
        .ok (min bytes.length (s.ring.maximumCapacity - s.ring.contents.length), s') ∧
      s'.ring.contents = s.ring.contents ++
        bytes.take (min bytes.length (s.ring.maximumCapacity - s.ring.contents.length)) ∧
      Keeps s s' := by
  rw [write, ← s.ring.length_contents]
  generalize hn : min bytes.length (s.ring.maximumCapacity - s.ring.contents.length) = n
  have hfits : n ≤ s.ring.maximumCapacity - s.ring.contents.length := by omega
  obtain ⟨s₁, hreserve, hcontents, hkeeps, hroom, hclean⟩ := s.reserveAdditional_spec n
  have hroom := hroom hfits
  have hlen := s.ring.length_contents
  have hlen₁ : s₁.ring.length = s.ring.contents.length := by
    rw [← s₁.ring.length_contents, hcontents]
  have htake : (bytes.take n).length = n := by
    rw [List.length_take]
    omega
  have hin : s₁.ring.length + (bytes.take n).length ≤ s₁.ring.storage.length := by omega
  rw [hreserve, decide_eq_true hfits]
  simp only [Bool.not_true, Bool.false_eq_true, if_false]
  rw [copyAndCommit, dif_pos hin]
  refine ⟨_, rfl, ?_, hkeeps.trans ⟨rfl, rfl, rfl, fun _ hc => hc.write _ hin⟩⟩
  rw [← hcontents]
  exact RingBuffer.contents_write _ _ hin

theorem consumeRead_spec (s : SensitiveRingBuffer) (h : n ≤ s.ring.length) :
    ∃ s', s.consumeRead n = .ok s' ∧ s'.ring.contents = s.ring.contents.drop n ∧ Keeps s s' ∧
      (s.sensitive = false → s'.ring.storage = s.ring.storage) := by
  have herased : (if s.sensitive then s.ring.eraseReadablePrefix n else s.ring).length =
      s.ring.length := by
    split <;> rfl
  have hdrop : (if s.sensitive then s.ring.eraseReadablePrefix n else s.ring).contents.drop n =
      s.ring.contents.drop n := by
    split
    · exact s.ring.contents_eraseReadablePrefix n
    · rfl
  have hmax : (if s.sensitive then s.ring.eraseReadablePrefix n else s.ring).maximumCapacity =
      s.ring.maximumCapacity := by
    split <;> rfl
  obtain ⟨b', hb, hcontents, hmax'⟩ :=
    RingBuffer.contents_consumeRead _ (show n ≤ _ from herased.symm ▸ h)
  unfold consumeRead
  rw [if_neg (by omega)]
  dsimp only
  split
  case h_1 hnone =>
    rw [hb] at hnone
    cases hnone
  case h_2 ring hsome =>
    obtain rfl : ring = b' := Option.some.inj (hsome.symm.trans hb)
    refine ⟨_, rfl, hcontents.trans hdrop, ⟨hmax'.trans hmax, rfl, rfl, ?_⟩, ?_⟩
    · intro hs hclean
      rw [hs, if_pos rfl] at hsome
      exact hclean.consumeRead hsome
    · intro hs
      rw [hs] at hsome
      exact (storage_consumeRead hsome).1

theorem secureErase_clean (b : RingBuffer) : b.secureErase.Clean :=
  RingBuffer.clean_replicate _ rfl

theorem secureErase_contents (b : RingBuffer) : b.secureErase.contents = [] :=
  RingBuffer.contents_of_length_zero rfl

/-- An operation answers as the queue does, and leaves the buffer with its bytes. -/
theorem perform_refines {s : SensitiveRingBuffer} {q : ByteQueue} (h : s.Refines q)
    (operation : QueueOperation) :
    ∃ s', s.perform operation = .ok ((q.step s.ring.maximumCapacity operation).1, s') ∧
      s'.Refines (q.step s.ring.maximumCapacity operation).2 ∧
      s'.ring.maximumCapacity = s.ring.maximumCapacity ∧
      ((∀ b, operation ≠ .setSensitive b) → Keeps s s') ∧
      (operation = .setSensitive true → s'.ring = s.ring ∧ s'.sensitive = true) := by
  obtain ⟨hbytes, hsensitive⟩ := h
  have keeps {s' : SensitiveRingBuffer} {op : QueueOperation} (hop : ∀ b, op ≠ .setSensitive b)
      (hk : Keeps s s') : s'.ring.maximumCapacity = s.ring.maximumCapacity ∧
        ((∀ b, op ≠ .setSensitive b) → Keeps s s') ∧
        (op = .setSensitive true → s'.ring = s.ring ∧ s'.sensitive = true) :=
    ⟨hk.maximumCapacity, fun _ => hk, fun he => absurd he (hop true)⟩
  cases operation with
  | write bytes =>
    obtain ⟨s', hwrite, hcontents, hk⟩ := s.write_spec bytes
    rw [hbytes] at hwrite hcontents
    refine ⟨s', ?_, ⟨hcontents, hk.sensitive.trans hsensitive⟩, keeps nofun hk⟩
    rw [perform, hwrite]
    rfl
  | writeExact bytes =>
    obtain ⟨s₁, hreserve, hcontents₁, hk₁, -⟩ := s.reserveAdditional_spec bytes.length
    rw [hbytes] at hreserve hcontents₁
    rw [perform, writeExact, hreserve, ByteQueue.step]
    by_cases hfits : bytes.length ≤ s.ring.maximumCapacity - q.bytes.length
    · obtain ⟨s', hwrite, hcontents, hk⟩ := s₁.write_spec bytes
      rw [hcontents₁, hk₁.maximumCapacity, min_eq_left hfits] at hwrite hcontents
      rw [List.take_length] at hcontents
      rw [decide_eq_true hfits, if_pos hfits]
      refine ⟨s', ?_, ⟨hcontents, (hk₁.trans hk).sensitive.trans hsensitive⟩,
        keeps nofun (hk₁.trans hk)⟩
      simp only [Bool.not_true, Bool.false_eq_true, if_false, hwrite]
      simp [bind, Except.bind, pure, Except.pure]
    · rw [decide_eq_false hfits, if_neg hfits]
      exact ⟨s₁, rfl, ⟨hcontents₁, hk₁.sensitive.trans hsensitive⟩, keeps nofun hk₁⟩
  | read maximum =>
    cases maximum with
    | none =>
      obtain ⟨s', hconsume, hcontents, hk, -⟩ := s.consumeRead_spec (le_refl s.ring.length)
      obtain ⟨_, hread, -⟩ := s.ring.read_eq s.ring.length
      refine ⟨s', ?_, ⟨?_, hk.sensitive.trans hsensitive⟩, keeps nofun hk⟩
      · rw [perform, read]
        simp only [hconsume, hread, ByteQueue.step, ← hbytes]
        rw [List.take_of_length_le (by simp)]
        rfl
      · rw [hcontents, List.drop_of_length_le (by simp)]
        rfl
    | some maximum =>
      obtain ⟨s', hconsume, hcontents, hk, -⟩ :=
        s.consumeRead_spec (Nat.min_le_right maximum s.ring.length)
      obtain ⟨_, hread, -⟩ := s.ring.read_eq (min maximum s.ring.length)
      have hlen := s.ring.length_contents
      refine ⟨s', ?_, ⟨?_, hk.sensitive.trans hsensitive⟩, keeps nofun hk⟩
      · rw [perform, read]
        simp only [hconsume, hread, ByteQueue.step, ← hbytes]
        rw [← hlen, ← List.take_eq_take_min]
        rfl
      · rw [hcontents, hbytes]
        show q.bytes.drop (min maximum s.ring.length) = q.bytes.drop maximum
        rw [hbytes] at hlen
        rcases Nat.le_total maximum s.ring.length with hle | hle
        · rw [min_eq_left hle]
        · rw [min_eq_right hle, List.drop_of_length_le (by omega), List.drop_of_length_le (by omega)]
  | reserveAdditional length =>
    cases length with
    | none => exact ⟨s, rfl, ⟨hbytes, hsensitive⟩, keeps nofun (.refl s)⟩
    | some length =>
      obtain ⟨s', hreserve, hcontents, hk, -⟩ := s.reserveAdditional_spec length
      rw [hbytes] at hreserve hcontents
      refine ⟨s', ?_, ⟨hcontents, hk.sensitive.trans hsensitive⟩, keeps nofun hk⟩
      rw [perform, hreserve]
      rfl
  | shrinkToInitial =>
    have hshrink : s.shrinkToInitial.ring.contents = s.ring.contents ∧ Keeps s s.shrinkToInitial := by
      unfold shrinkToInitial
      split
      case isTrue => exact ⟨rfl, .refl s⟩
      case isFalse hempty =>
        rw [not_or, not_not] at hempty
        refine ⟨?_, rfl, rfl, rfl, fun _ _ => RingBuffer.clean_replicate _ rfl⟩
        rw [RingBuffer.contents_of_length_zero hempty.1]
        exact RingBuffer.contents_of_length_zero rfl
    exact ⟨_, rfl, ⟨hshrink.1.trans hbytes, hshrink.2.sensitive.trans hsensitive⟩,
      keeps nofun hshrink.2⟩
  | clear =>
    have hclear : s.clear.ring.contents = [] ∧ Keeps s s.clear := by
      unfold clear
      split
      case isTrue => exact ⟨secureErase_contents _, rfl, rfl, rfl, fun _ _ => secureErase_clean _⟩
      case isFalse hs =>
        exact ⟨RingBuffer.contents_of_length_zero rfl, rfl, rfl, rfl, fun h => absurd h hs⟩
    exact ⟨_, rfl, ⟨hclear.1, hclear.2.sensitive.trans hsensitive⟩, keeps nofun hclear.2⟩
  | secureErase =>
    exact ⟨_, rfl, ⟨secureErase_contents _, hsensitive⟩,
      keeps nofun ⟨rfl, rfl, rfl, fun _ _ => secureErase_clean _⟩⟩
  | setSensitive sensitive =>
    refine ⟨_, rfl, ⟨?_, rfl⟩, ?_, fun h => absurd rfl (h sensitive), ?_⟩
    · show (s.setSensitive sensitive).ring.contents = _
      rw [setSensitive, ByteQueue.step, ← hsensitive, ← hbytes]
      dsimp only
      split
      · exact secureErase_contents _
      · rfl
    · show (s.setSensitive sensitive).ring.maximumCapacity = _
      rw [setSensitive]
      dsimp only
      split <;> rfl
    · intro he
      cases he
      refine ⟨?_, rfl⟩
      show (s.setSensitive true).ring = s.ring
      rw [setSensitive]
      simp

/-- A buffer that was never written to is empty, and its storage is zero. -/
def Blank (s : SensitiveRingBuffer) : Prop := s.ring.length = 0 ∧ s.ring.Clean

def Writes : QueueOperation → Prop
  | .write _ => True
  | .writeExact _ => True
  | _ => False

theorem Blank.storage {s : SensitiveRingBuffer} (h : s.Blank) (hi : i < s.ring.storage.length) :
    s.ring.storage[i]? = some 0 :=
  h.2 i hi (by rw [h.1]; exact Nat.zero_le _)

theorem Blank.of_storage {s s' : SensitiveRingBuffer} (h : s.Blank)
    (hstorage : s'.ring.storage = s.ring.storage) (hlength : s'.ring.length = 0) : s'.Blank := by
  refine ⟨hlength, fun i hi _ => ?_⟩
  rw [hstorage] at hi ⊢
  exact h.storage hi

/-- Without a write there is nothing to store. -/
theorem Blank.perform {s s' : SensitiveRingBuffer} (h : s.Blank) (hop : ¬ Writes operation)
    (hperform : s.perform operation = .ok (response, s')) : s'.Blank := by
  have hlength := h.1
  have hcontents := RingBuffer.contents_of_length_zero hlength
  cases operation with
  | write bytes => exact absurd trivial hop
  | writeExact bytes => exact absurd trivial hop
  | read maximum =>
    obtain ⟨⟨bytes, s₁⟩, hread, he⟩ := bind_eq_ok hperform
    cases he
    obtain ⟨s₂, hconsume, he⟩ := bind_eq_ok hread
    cases he
    have consumed {n : Nat} (hn : n ≤ s.ring.length) (hconsume : s.consumeRead n = .ok s') :
        s'.Blank := by
      obtain ⟨s₃, hconsume', hcont, hkeeps, hsame⟩ := s.consumeRead_spec hn
      rw [hconsume] at hconsume'
      cases hconsume'
      have hlength' : s'.ring.length = 0 := by
        rw [← RingBuffer.length_contents, hcont, hcontents, List.drop_nil]
        rfl
      cases hs : s.sensitive with
      | true => exact ⟨hlength', hkeeps.clean hs h.2⟩
      | false => exact h.of_storage (hsame hs) hlength'
    cases maximum with
    | none => exact consumed (le_refl _) hconsume
    | some maximum => exact consumed (Nat.min_le_right _ _) hconsume
  | reserveAdditional length =>
    cases length with
    | none =>
      cases hperform
      exact h
    | some length =>
      obtain ⟨s₁, hreserve, hcont, -, -, hclean⟩ := s.reserveAdditional_spec length
      rw [SensitiveRingBuffer.perform, hreserve] at hperform
      cases hperform
      refine ⟨?_, hclean h.2⟩
      rw [← RingBuffer.length_contents, hcont, hcontents]
      rfl
  | shrinkToInitial =>
    cases hperform
    unfold shrinkToInitial
    split
    · exact h
    · exact ⟨rfl, RingBuffer.clean_replicate _ rfl⟩
  | clear =>
    cases hperform
    unfold clear
    split
    · exact ⟨rfl, secureErase_clean _⟩
    · exact h.of_storage rfl rfl
  | secureErase =>
    cases hperform
    exact ⟨rfl, secureErase_clean _⟩
  | setSensitive sensitive =>
    cases hperform
    unfold setSensitive
    dsimp only
    split
    · exact ⟨rfl, secureErase_clean _⟩
    · exact h

theorem Blank.run {s s' : SensitiveRingBuffer} (h : s.Blank)
    (hops : ∀ operation ∈ operations, ¬ Writes operation)
    (hrun : s.run operations = .ok (responses, s')) : s'.Blank := by
  induction operations generalizing s responses with
  | nil =>
    cases hrun
    exact h
  | cons operation operations ih =>
    obtain ⟨⟨response, s₁⟩, hperform, hrest⟩ := bind_eq_ok hrun
    obtain ⟨⟨rest, s₂⟩, hrun', he⟩ := bind_eq_ok hrest
    cases he
    exact ih (h.perform (hops _ (List.mem_cons_self ..)) hperform)
      (fun o ho => hops o (List.mem_cons_of_mem _ ho)) hrun'

end SensitiveRingBuffer
end ErbslandCore.Mem
