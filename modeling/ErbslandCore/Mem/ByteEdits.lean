import ErbslandCore.Mem.ByteOwner

namespace ErbslandCore.Mem
open Library
set_option autoImplicit true

/-- A start index and a length; the largest raw value stands for no index, or no end. -/
structure ByteRange where
  index : Nat
  length : Nat
  index_le : index ≤ cSizeMaximum
  length_le : length ≤ cSizeMaximum

namespace ByteRange

def cRawNoIndex : Nat := cSizeMaximum

def cRawInfinite : Nat := cSizeMaximum

variable (range : ByteRange)

def isValid : Bool := range.index != cRawNoIndex

def isEmpty : Bool := range.length == 0

def isInfinite : Bool := range.length == cRawInfinite

def noRange : ByteRange := ⟨cRawNoIndex, 0, le_refl _, Nat.zero_le _⟩

def emptyAt (index : Nat) (h : index ≤ cSizeMaximum) : ByteRange := ⟨index, 0, h, Nat.zero_le _⟩

/-- The index after the range, if it has one. -/
def endIndex : Option Nat :=
  if !range.isValid || range.isInfinite then none
  else if range.length ≥ cRawNoIndex - range.index then none
  else some (range.index + range.length)

def isWithin (bounds : Nat) : Bool :=
  if !range.isValid then false
  else if range.isInfinite then false
  else
    match range.endIndex with
    | none => false
    | some last => decide (last ≤ bounds)

/-- The part of the range in a sequence of some length; all bounds are finite. -/
def clampedTo (bounds : Nat) (h : bounds ≤ cSizeMaximum) : ByteRange :=
  if !range.isValid then noRange
  else if !decide (range.index < bounds) then emptyAt bounds h
  else
    let availableLength := bounds - range.index
    if range.isInfinite || decide (range.length > availableLength) then
      ⟨range.index, availableLength, range.index_le, (Nat.sub_le _ _).trans h⟩
    else range

theorem clampedTo_eq (range : ByteRange) (bounds : Nat) (h : bounds ≤ cSizeMaximum)
    (hv : range.isValid = true) : (range.clampedTo bounds h).index = min range.index bounds ∧
      (range.clampedTo bounds h).length = min range.length (bounds - range.index) := by
  unfold clampedTo
  simp only [hv, Bool.not_true, Bool.false_eq_true, if_false]
  split
  case isTrue hout =>
    have hle : bounds ≤ range.index := by simpa using hout
    exact ⟨(min_eq_right hle).symm, by rw [Nat.sub_eq_zero_of_le hle, Nat.min_zero]; rfl⟩
  case isFalse hin =>
    have hlt : range.index < bounds := by simpa using hin
    split
    case isTrue hlong =>
      rw [Bool.or_eq_true, isInfinite, beq_iff_eq, cRawInfinite, decide_eq_true_eq] at hlong
      have hle : bounds - range.index ≤ range.length := by omega
      exact ⟨(min_eq_left hlt.le).symm, (min_eq_right hle).symm⟩
    case isFalse hshort =>
      rw [Bool.or_eq_true, not_or, decide_eq_true_eq] at hshort
      exact ⟨(min_eq_left hlt.le).symm, (min_eq_left (not_lt.mp hshort.2)).symm⟩

theorem clampedTo_invalid (range : ByteRange) (bounds : Nat) (h : bounds ≤ cSizeMaximum)
    (hv : range.isValid = false) : range.clampedTo bounds h = noRange := by
  rw [clampedTo, hv]
  rfl

/-- An index that is none lies behind every sequence. -/
theorem le_of_invalid {range : ByteRange} (hv : range.isValid = false)
    (h : bounds ≤ cSizeMaximum) : bounds ≤ range.index := by
  have he : range.index = cSizeMaximum := by simpa [isValid, cRawNoIndex] using hv
  omega

theorem clampedTo_isEmpty (range : ByteRange) (bounds : Nat) (h : bounds ≤ cSizeMaximum)
    (he : (range.clampedTo bounds h).isEmpty = true) :
    bounds ≤ range.index ∨ range.length = 0 := by
  cases hv : range.isValid with
  | false => exact .inl (le_of_invalid hv h)
  | true =>
    have hl := (range.clampedTo_eq bounds h hv).2
    rw [isEmpty, beq_iff_eq] at he
    omega

/-- A range with bytes in it starts within the sequence. -/
theorem clampedTo_nonempty (range : ByteRange) (bounds : Nat) (h : bounds ≤ cSizeMaximum)
    (he : ¬ (range.clampedTo bounds h).isEmpty = true) :
    (range.clampedTo bounds h).index = range.index ∧ range.index < bounds ∧
      (range.clampedTo bounds h).length = min range.length (bounds - range.index) ∧
      0 < (range.clampedTo bounds h).length := by
  cases hv : range.isValid with
  | false =>
    rw [range.clampedTo_invalid bounds h hv] at he
    exact absurd rfl he
  | true =>
    obtain ⟨hi, hl⟩ := range.clampedTo_eq bounds h hv
    rw [isEmpty, beq_iff_eq] at he
    refine ⟨?_, ?_, hl, ?_⟩ <;> omega

end ByteRange

namespace ByteData
variable (data : ByteData T)

/-- Sensitive bytes that are no longer visible are erased, where no container shares them. -/
def eraseHidden (sensitive : Bool) (position count : Nat) : Except ModifyError (ByteData T) :=
  if !T.supportsSharedOwnership && sensitive then data.secureErase position count else .ok data

/-- The tail is moved behind the place of the source. -/
def moveTail (start removedLength oldLength sourceLength : Nat) :
    Except ModifyError (ByteData T) :=
  let tailStart := start + removedLength
  let tailLength := oldLength - tailStart
  if sourceLength ≠ removedLength ∧ tailLength ≠ 0 then
    data.memmove (start + sourceLength) tailStart tailLength
  else .ok data

def copySource (start : Nat) (source : List UInt8) : Except ModifyError (ByteData T) :=
  if source.isEmpty then .ok data else data.store start source

/-- The bytes appended so far are copied behind themselves, as many as there are. -/
def repeatLoop (data : ByteData T) (oldSize appendedLength copied : Nat) :
    Except ModifyError (ByteData T) :=
  if 0 < copied ∧ copied < appendedLength then do
    let count := min copied (appendedLength - copied)
    let data ← data.memcpy (oldSize + copied) oldSize count
    repeatLoop data oldSize appendedLength (copied + count)
  else .ok data
termination_by appendedLength - copied

end ByteData

namespace ByteOwner
variable (o : ByteOwner T) (memory : Nat → UInt8)

theorem length_le (o : ByteOwner T) : o.length ≤ cSizeMaximum := by
  have hs := o.data.size_le
  have hc := o.data.capacity_le
  have hm : T.maximumLength ≤ BestGrowth.maximumLength := min_le_right _ _
  have hd : BestGrowth.maximumLength ≤ cSizeMaximum := by decide
  exact hs.trans (hc.trans (hm.trans hd))

/-- The visible bytes are removed, and those that no other container shares are erased. -/
def clear : Except ModifyError (ByteOwner T) :=
  if o.isNull then .ok o
  else if o.isShared then do
    let data ← ByteData.create T memory 0 o.data.capacity o.isSensitive
    return ofData data
  else do
    let data ← o.mutableData
    let data ← data.eraseHidden o.isSensitive 0 data.capacity
    let data ← data.setSize 0
    return { o with data := data }

def remove (range : ByteRange) : Except ModifyError (ByteOwner T) :=
  let clamped := range.clampedTo o.length o.length_le
  if clamped.isEmpty then .ok o
  else do
    let o ← o.ensureUnique memory
    let data ← o.mutableData
    let oldLength := data.size
    let start := clamped.index
    let count := clamped.length
    let tailStart := start + count
    let tailLength := oldLength - tailStart
    let data ← data.memmove start tailStart tailLength
    let newLength := oldLength - count
    let data ← data.eraseHidden o.isSensitive newLength count
    let data ← data.setSize newLength
    return { o with data := data }

def keep (range : ByteRange) : Except ModifyError (ByteOwner T) :=
  if !range.isValid then o.clear memory
  else
    let clamped := range.clampedTo o.length o.length_le
    if clamped.isEmpty then o.clear memory
    else do
      let o ← o.ensureUnique memory
      let data ← o.mutableData
      let count := clamped.length
      let oldLength := data.size
      let data ← data.memmove 0 clamped.index count
      let data ← data.eraseHidden o.isSensitive count (oldLength - count)
      let data ← data.setSize count
      return { o with data := data }

def replace (range : ByteRange) (source : ByteSource) (sourceIsSensitive : Bool) :
    Except ModifyError (ByteOwner T) :=
  if !range.isValid then .ok o
  else
    let oldLength := o.length
    let clamped := range.clampedTo o.length o.length_le
    let start := clamped.index
    let removedLength := clamped.length
    let sourceBytes := source.bytes o.data
    let o := if sourceIsSensitive && !sourceBytes.isEmpty then o.markAsSensitive else o
    if !sourceBytes.isEmpty && sourceBytes.length == removedLength && source.startsAt start then
      .ok o
    else do
      let sourceBytes ← o.stableSource memory source
      let newLength ← checkedCombinedLength T (oldLength - removedLength) sourceBytes.length
      let o ← o.ensureCapacity memory newLength
      let o := if sourceIsSensitive && !sourceBytes.isEmpty then o.markAsSensitive else o
      let data ← o.mutableData
      let data ← data.moveTail start removedLength oldLength sourceBytes.length
      let data ← data.copySource start sourceBytes
      let data ← data.eraseHidden (o.isSensitive && decide (newLength < oldLength)) newLength
        (oldLength - newLength)
      let data ← data.setSize newLength
      return { o with data := data }

def appendRepeated (sourceRange : ByteRange) (outputLength : Nat) :
    Except ModifyError (ByteOwner T) :=
  let oldLength := o.length
  if outputLength = 0 then .ok o
  else if sourceRange.isEmpty || !sourceRange.isWithin oldLength then
    .error (.outOfRange "Repeated byte source exceeds the available data.")
  else do
    let newLength ← checkedCombinedLength T oldLength outputLength
    let o ← o.ensureCapacity memory newLength
    let data ← o.mutableData
    let copied := min sourceRange.length outputLength
    let data ← data.memcpy oldLength sourceRange.index copied
    let data ← data.repeatLoop oldLength outputLength copied
    let data ← data.setSize newLength
    return { o with data := data }

end ByteOwner

open RingBuffer

theorem take_overwrite_of_le {storage : List UInt8} (bytes : List UInt8) (h : n ≤ position)
    (hp : position ≤ storage.length) : (overwrite storage position bytes).take n = storage.take n := by
  rw [overwrite, List.append_assoc, List.take_append_of_le_length (by simp; omega), List.take_take,
    min_eq_left h]

theorem drop_overwrite {storage : List UInt8} (bytes : List UInt8) (hp : position ≤ storage.length) :
    (overwrite storage position bytes).drop (position + bytes.length) =
      storage.drop (position + bytes.length) := by
  rw [overwrite, List.drop_left' (by simp; omega)]

theorem take_overwrite {storage : List UInt8} (bytes : List UInt8) (hp : position ≤ storage.length) :
    (overwrite storage position bytes).take (position + bytes.length) =
      storage.take position ++ bytes := by
  rw [overwrite, List.take_left' (by simp; omega)]

theorem drop_overwrite_self {storage : List UInt8} (bytes : List UInt8)
    (hp : position ≤ storage.length) :
    (overwrite storage position bytes).drop position =
      bytes ++ storage.drop (position + bytes.length) := by
  rw [overwrite, List.append_assoc, List.drop_left' (by simp; omega)]

/-- Overwritten bytes between what precedes them and a part of what follows. -/
theorem take_overwrite_add {storage : List UInt8} (bytes : List UInt8) (n : Nat)
    (hp : position ≤ storage.length) :
    (overwrite storage position bytes).take (position + bytes.length + n) =
      storage.take position ++ bytes ++ (storage.drop (position + bytes.length)).take n := by
  rw [List.take_add, take_overwrite bytes hp, drop_overwrite bytes hp]

namespace ByteData
variable {T : StorageType}

/-- The allocation stays in place; some of its bytes change. -/
def Rewrites (data data' : ByteData T) (bytes : List UInt8) : Prop :=
  data'.bytes = bytes ∧ data'.size = data.size ∧ data'.sensitive = data.sensitive ∧
    data'.capacity = data.capacity

theorem store_ok (data : ByteData T) {bytes : List UInt8}
    (h : position + bytes.length ≤ data.capacity) :
    ∃ data', data.store position bytes = .ok data' ∧
      data.Rewrites data' (overwrite data.bytes position bytes) :=
  ⟨_, dif_pos h, rfl, rfl, rfl, length_overwrite _ _ _ h⟩

theorem memmove_ok (data : ByteData T) (hs : source + count ≤ data.capacity)
    (hd : destination + count ≤ data.capacity) :
    ∃ data', data.memmove destination source count = .ok data' ∧
      data.Rewrites data' (overwrite data.bytes destination ((data.bytes.drop source).take count)) := by
  rw [capacity] at hs
  have hlength : ((data.bytes.drop source).take count).length = count := by
    rw [List.length_take, List.length_drop]
    exact min_eq_left (by omega)
  rw [memmove, if_pos hs]
  exact data.store_ok (by rwa [hlength])

theorem setSize_ok (data : ByteData T) (h : newSize ≤ data.capacity) :
    ∃ data', data.setSize newSize = .ok data' ∧ data'.visible = data.bytes.take newSize ∧
      data'.capacity = data.capacity :=
  ⟨_, dif_pos h, rfl, rfl⟩

theorem create_ok (T : StorageType) (memory : Nat → UInt8) (sensitive : Bool)
    (hs : used ≤ total) (hc : total ≤ T.maximumLength) :
    ∃ data, create T memory used total sensitive = .ok data ∧ data.size = used ∧
      data.capacity = total ∧ data.sensitive = sensitive := by
  have hc' := hc.trans (min_le_left _ _)
  rw [create, dif_pos ⟨hs, (T.canAllocateWithCapacity_iff _).mpr hc'⟩,
    dif_pos (hc.trans (min_le_right _ _))]
  refine ⟨_, rfl, rfl, ?_, rfl⟩
  rw [ByteData.capacity, List.length_map, List.length_range]

theorem visible_length (data : ByteData T) : data.visible.length = data.size := by
  rw [visible, List.length_take]
  exact min_eq_left data.size_le

/-- New memory that the visible bytes of other data are copied to. -/
theorem copied_visible (data : ByteData T) {copy : ByteData T} (hsize : copy.size = data.size) :
    ∃ copy', copy.store 0 data.visible = .ok copy' ∧ copy'.visible = data.visible ∧
      copy'.size = data.size ∧ copy'.sensitive = copy.sensitive ∧
      copy'.capacity = copy.capacity := by
  have hle := copy.size_le
  have hlength := data.visible_length
  obtain ⟨copy', hstore, hbytes, hs, hsensitive, hc⟩ :=
    copy.store_ok (show 0 + data.visible.length ≤ copy.capacity by rw [capacity]; omega)
  refine ⟨copy', hstore, ?_, hs.trans hsize, hsensitive, hc⟩
  rw [visible, hs, hsize, hbytes, ← hlength, ← Nat.zero_add data.visible.length,
    take_overwrite data.visible (Nat.zero_le _), List.take_zero, List.nil_append]

theorem clone_ok (data : ByteData T) (memory : Nat → UInt8) :
    ∃ copy, data.clone memory = .ok copy ∧ copy.visible = data.visible ∧
      copy.size = data.size ∧ copy.sensitive = data.sensitive ∧
      copy.capacity = data.capacity := by
  obtain ⟨copy, hcreate, hsize, hcapacity, hsensitive⟩ :=
    create_ok T memory data.sensitive data.size_le data.capacity_le
  obtain ⟨copy', hstore, hvisible, hs, hsens, hc⟩ := data.copied_visible hsize
  refine ⟨copy', ?_, hvisible, hs, hsens.trans hsensitive, hc.trans hcapacity⟩
  rw [clone, ByteData.capacity, hcreate]
  exact hstore

/-- What lies behind the visible bytes can be erased without a trace in them. -/
theorem eraseHidden_ok (data : ByteData T) (sensitive : Bool)
    (h : position + count ≤ data.capacity) :
    ∃ data', data.eraseHidden sensitive position count = .ok data' ∧
      data'.bytes.take position = data.bytes.take position ∧ data'.capacity = data.capacity := by
  unfold eraseHidden
  split
  case isFalse => exact ⟨data, rfl, rfl, rfl⟩
  case isTrue =>
    obtain ⟨data', hstore, hbytes, -, -, hc⟩ :=
      data.store_ok (show position + (List.replicate count 0).length ≤ data.capacity by
        rwa [List.length_replicate])
    rw [capacity] at h
    refine ⟨data', hstore, ?_, hc⟩
    rw [hbytes, take_overwrite_of_le _ (le_refl _) (by omega)]

end ByteData

namespace ByteOwner
variable {T : StorageType}

theorem visible_length (o : ByteOwner T) : o.visible.length = o.length := o.data.visible_length

theorem isNull_eq_false {o : ByteOwner T} (h : 0 < o.length) : o.isNull = false := by
  have hs := o.data.size_le
  have hlt : 0 < o.data.capacity := lt_of_lt_of_le h hs
  rw [isNull, Bool.and_eq_false_iff]
  exact .inr (beq_eq_false_iff_ne.mpr hlt.ne')

theorem mutableData_ok {o : ByteOwner T} (h : o.isNull = false) : o.mutableData = .ok o.data := by
  rw [mutableData, h]
  rfl

theorem ensureUnique_ok (o : ByteOwner T) (memory : Nat → UInt8) (h : o.isNull = false) :
    ∃ o', o.ensureUnique memory = .ok o' ∧ o'.visible = o.visible ∧ o'.length = o.length ∧
      o'.isNull = false := by
  unfold ensureUnique
  split
  case isTrue =>
    obtain ⟨copy, hclone, hvisible, hsize, -, hcapacity⟩ := o.data.clone_ok memory
    refine ⟨ofData copy, ?_, hvisible, hsize, ?_⟩
    · rw [hclone]
      rfl
    · rw [isNull] at h ⊢
      rwa [ofData, hcapacity]
  case isFalse => exact ⟨o, rfl, rfl, rfl, h⟩

theorem ensureCapacity_ok (o : ByteOwner T) (memory : Nat → UInt8)
    (h : requested ≤ T.maximumLength) :
    ∃ o', o.ensureCapacity memory requested = .ok o' ∧ o'.visible = o.visible ∧
      o'.length = o.length ∧ requested ≤ o'.data.capacity ∧
      (o'.isNull = true ↔ o.isNull = true ∧ requested = 0) := by
  have hsize : o.length ≤ o.data.capacity := o.data.size_le
  have hcapacity : o.data.capacity ≤ T.maximumLength := o.data.capacity_le
  have hneeded := hsize.trans hcapacity
  have hcan := (T.canAllocateWithCapacity_iff requested).mpr (h.trans (min_le_left _ _))
  have hgrowth := T.requested_le_bestGrowth o.data.capacity (max o.length requested)
  have hlimit := T.bestGrowth_le hcapacity (max_le hneeded h)
  simp only [ensureCapacity, hcan, Bool.not_true, Bool.false_eq_true, if_false]
  split
  case isTrue hin =>
    rw [Bool.and_eq_true, Bool.and_eq_true, Bool.not_eq_true', decide_eq_true_eq] at hin
    refine ⟨o, rfl, rfl, rfl, hin.2, ?_⟩
    rw [hin.1.1]
    simp
  case isFalse hout =>
    obtain ⟨data, hcreate, hs, hc, -⟩ := ByteData.create_ok T memory o.isSensitive
      ((le_max_left o.length requested).trans hgrowth) hlimit
    have hroom := (le_max_right o.length requested).trans hgrowth
    -- New storage of capacity zero is needed only where there was none.
    have hnull : ∀ data' : ByteData T, data'.capacity = data.capacity →
        ((ofData data').isNull = true ↔ o.isNull = true ∧ requested = 0) := by
      intro data' hd
      simp only [isNull, ofData, hd, hc, Bool.and_eq_true, beq_iff_eq]
      constructor
      · rintro ⟨hT, hz⟩
        rw [hz] at hgrowth
        rw [StorageType.bestGrowth, if_pos (by omega)] at hz
        exact ⟨⟨hT, hz⟩, by omega⟩
      · rintro ⟨⟨hT, hz⟩, hr⟩
        refine ⟨hT, ?_⟩
        rw [StorageType.bestGrowth, if_pos (by omega), hz]
    rw [hcreate, ok_bind]
    split
    case isTrue =>
      obtain ⟨copy, hstore, hvisible, hsize', -, hcap⟩ := o.data.copied_visible hs
      refine ⟨ofData copy, ?_, hvisible, hsize', ?_, hnull copy hcap⟩
      · rw [visible, hstore]
        rfl
      · show requested ≤ copy.capacity
        omega
    case isFalse hempty =>
      have hzero : o.length = 0 := by
        by_contra hne
        have hn : o.isNull = false := isNull_eq_false (by omega)
        exact hempty (by simp [hn, hne])
      have hvisible : data.visible = [] :=
        List.length_eq_zero_iff.mp (data.visible_length.trans (hs.trans hzero))
      refine ⟨ofData data, rfl, ?_, hs, ?_, hnull data rfl⟩
      · rw [List.length_eq_zero_iff.mp ((visible_length o).trans hzero)]
        exact hvisible
      · show requested ≤ data.capacity
        omega

/-- The last steps of a modification keep the bytes in front of the new length. -/
theorem finish_ok (o : ByteOwner T) (data : ByteData T) (sensitive : Bool)
    (h : newLength + count ≤ data.capacity) :
    ∃ o', (do let data ← data.eraseHidden sensitive newLength count
              let data ← data.setSize newLength
              return { o with data := data }) = .ok o' ∧
      o'.visible = data.bytes.take newLength := by
  obtain ⟨erased, herase, htake, hc⟩ := data.eraseHidden_ok sensitive h
  obtain ⟨data', hset, hvisible, -⟩ :=
    erased.setSize_ok (show newLength ≤ erased.capacity by omega)
  rw [herase, ok_bind, hset]
  exact ⟨_, rfl, hvisible.trans htake⟩

theorem clear_ok (o : ByteOwner T) (memory : Nat → UInt8) :
    ∃ o', o.clear memory = .ok o' ∧ o'.visible = [] := by
  have hcapacity : o.data.capacity ≤ T.maximumLength := o.data.capacity_le
  unfold clear
  split
  case isTrue hn =>
    have hs : o.data.size ≤ o.data.capacity := o.data.size_le
    rw [isNull, Bool.and_eq_true, beq_iff_eq] at hn
    exact ⟨o, rfl, List.length_eq_zero_iff.mp ((visible_length o).trans (by rw [length]; omega))⟩
  case isFalse hn =>
    split
    case isTrue =>
      obtain ⟨data, hcreate, hs, -⟩ :=
        ByteData.create_ok T memory o.isSensitive (Nat.zero_le _) hcapacity
      rw [hcreate]
      exact ⟨_, rfl, List.length_eq_zero_iff.mp (data.visible_length.trans hs)⟩
    case isFalse =>
      obtain ⟨o', hfinish, hvisible⟩ := o.finish_ok o.data o.isSensitive
        (show 0 + o.data.capacity ≤ o.data.capacity by omega)
      rw [mutableData_ok (by simpa using hn)]
      exact ⟨o', hfinish, hvisible⟩

theorem remove_ok (o : ByteOwner T) (memory : Nat → UInt8) (range : ByteRange) :
    ∃ o', o.remove memory range = .ok o' ∧
      o'.visible = o.visible.take range.index ++ o.visible.drop (range.index + range.length) := by
  have hlength := o.visible_length
  unfold remove
  dsimp only
  split
  case isTrue he =>
    refine ⟨o, rfl, ?_⟩
    rcases range.clampedTo_isEmpty _ _ he with hle | hz
    · rw [List.take_of_length_le (by omega), List.drop_of_length_le (by omega), List.append_nil]
    · rw [hz, Nat.add_zero, List.take_append_drop]
  case isFalse he =>
    obtain ⟨hindex, hlt, hcount, hpos⟩ := range.clampedTo_nonempty _ _ he
    rw [hindex]
    generalize (range.clampedTo o.length o.length_le).length = count at hcount hpos
    obtain ⟨u, hunique, hvisible, hulength, hnull⟩ :=
      o.ensureUnique_ok memory (isNull_eq_false (by omega))
    have hsize : u.data.size ≤ u.data.capacity := u.data.size_le
    have hn : u.data.size = o.length := hulength
    obtain ⟨moved, hmove, hbytes, -, -, hmc⟩ := u.data.memmove_ok
      (show range.index + count + (u.data.size - (range.index + count)) ≤ u.data.capacity by omega)
      (show range.index + (u.data.size - (range.index + count)) ≤ u.data.capacity by omega)
    obtain ⟨o', hfinish, hresult⟩ := u.finish_ok moved u.isSensitive
      (show u.data.size - count + count ≤ moved.capacity by omega)
    rw [hunique, ok_bind, mutableData_ok hnull, ok_bind, hmove]
    refine ⟨o', hfinish, ?_⟩
    have htail : (u.data.bytes.drop (range.index + count)).take
        (u.data.size - (range.index + count)) = o.visible.drop (range.index + count) := by
      rw [← hvisible, visible, ByteData.visible, List.drop_take]
    have hdrop : o.visible.drop (range.index + count) =
        o.visible.drop (range.index + range.length) := by
      rcases le_total range.length (o.length - range.index) with hle | hle
      · rw [hcount, min_eq_left hle]
      · rw [List.drop_of_length_le (by omega), List.drop_of_length_le (by omega)]
    have hnew : u.data.size - count =
        range.index + (o.visible.drop (range.index + count)).length := by
      rw [List.length_drop]
      omega
    rw [hresult, hbytes, htail, hnew, take_overwrite _ (by rw [ByteData.capacity] at hsize; omega),
      hdrop, ← hvisible, visible, ByteData.visible, List.take_take, min_eq_left (by omega)]

theorem keep_ok (o : ByteOwner T) (memory : Nat → UInt8) (range : ByteRange) :
    ∃ o', o.keep memory range = .ok o' ∧
      o'.visible = (o.visible.drop range.index).take range.length := by
  have hlength := o.visible_length
  have cleared (h : o.length ≤ range.index ∨ range.length = 0) :
      ∃ o', o.clear memory = .ok o' ∧
        o'.visible = (o.visible.drop range.index).take range.length := by
    obtain ⟨o', hclear, hempty⟩ := o.clear_ok memory
    refine ⟨o', hclear, ?_⟩
    rcases h with hle | hz
    · rw [hempty, List.drop_of_length_le (by omega), List.take_nil]
    · rw [hempty, hz, List.take_zero]
  unfold keep
  split
  case isTrue hv => exact cleared (.inl (ByteRange.le_of_invalid (by simpa using hv) o.length_le))
  case isFalse =>
    dsimp only
    split
    case isTrue he => exact cleared (range.clampedTo_isEmpty _ _ he)
    case isFalse he =>
      obtain ⟨hindex, hlt, hcount, hpos⟩ := range.clampedTo_nonempty _ _ he
      rw [hindex]
      generalize (range.clampedTo o.length o.length_le).length = count at hcount hpos
      obtain ⟨u, hunique, hvisible, hulength, hnull⟩ :=
        o.ensureUnique_ok memory (isNull_eq_false (by omega))
      have hsize : u.data.size ≤ u.data.capacity := u.data.size_le
      have hn : u.data.size = o.length := hulength
      obtain ⟨moved, hmove, hbytes, -, -, hmc⟩ := u.data.memmove_ok
        (show range.index + count ≤ u.data.capacity by omega)
        (show 0 + count ≤ u.data.capacity by omega)
      obtain ⟨o', hfinish, hresult⟩ := u.finish_ok moved u.isSensitive
        (show count + (u.data.size - count) ≤ moved.capacity by omega)
      rw [hunique, ok_bind, mutableData_ok hnull, ok_bind, hmove]
      refine ⟨o', hfinish, ?_⟩
      have hkept : (u.data.bytes.drop range.index).take count =
          (o.visible.drop range.index).take range.length := by
        rw [← hvisible, visible, ByteData.visible, List.drop_take, List.take_take, hn, hcount]
      have hnew : count = 0 + ((u.data.bytes.drop range.index).take count).length := by
        rw [hkept, List.length_take, List.length_drop]
        omega
      generalize (u.data.bytes.drop range.index).take count = kept at hbytes hkept hnew
      rw [hresult, hbytes, hnew, take_overwrite _ (Nat.zero_le _), List.take_zero,
        List.nil_append, hkept]

/-- The moved tail and the source in front of it make up the new bytes. -/
theorem replaced_ok (data : ByteData T) (source : List UInt8) (hin : start + removed ≤ oldLength)
    (hold : oldLength ≤ data.capacity)
    (hnew : oldLength - removed + source.length ≤ data.capacity) :
    ∃ moved data', data.moveTail start removed oldLength source.length = .ok moved ∧
      moved.copySource start source = .ok data' ∧ data'.capacity = data.capacity ∧
      data'.bytes.take (oldLength - removed + source.length) =
        data.bytes.take start ++ source ++ (data.bytes.take oldLength).drop (start + removed) := by
  have hcapacity : data.capacity = data.bytes.length := rfl
  have htail : (data.bytes.take oldLength).drop (start + removed) =
      (data.bytes.drop (start + removed)).take (oldLength - (start + removed)) := List.drop_take
  have moves : ∃ moved, data.moveTail start removed oldLength source.length = .ok moved ∧
      moved.bytes.take start = data.bytes.take start ∧ moved.capacity = data.capacity ∧
      (moved.bytes.drop (start + source.length)).take (oldLength - (start + removed)) =
        (data.bytes.take oldLength).drop (start + removed) := by
    unfold ByteData.moveTail
    dsimp only
    split
    case isTrue =>
      obtain ⟨moved, hmove, hbytes, -, -, hc⟩ := data.memmove_ok
        (show start + removed + (oldLength - (start + removed)) ≤ data.capacity by omega)
        (show start + source.length + (oldLength - (start + removed)) ≤ data.capacity by omega)
      refine ⟨moved, hmove, ?_, hc, ?_⟩
      · rw [hbytes, take_overwrite_of_le _ (Nat.le_add_right _ _) (by omega)]
      · rw [hbytes, drop_overwrite_self _ (by omega), htail, List.take_left' (by simp; omega)]
    case isFalse hstay =>
      refine ⟨data, rfl, rfl, rfl, ?_⟩
      rw [htail]
      by_cases hsame : source.length = removed
      · rw [hsame]
      · have hz : oldLength - (start + removed) = 0 := by tauto
        rw [hz, List.take_zero, List.take_zero]
  obtain ⟨moved, hmove, hfront, hc, hback⟩ := moves
  have hm : moved.capacity = moved.bytes.length := rfl
  have hlength : oldLength - removed + source.length =
      start + source.length + (oldLength - (start + removed)) := by omega
  rw [hlength]
  unfold ByteData.copySource
  split
  case isTrue hempty =>
    rw [List.isEmpty_iff] at hempty
    refine ⟨moved, moved, hmove, rfl, hc, ?_⟩
    rw [List.take_add, hback, hempty, List.length_nil, Nat.add_zero, hfront, List.append_nil]
  case isFalse =>
    obtain ⟨data', hstore, hbytes, -, -, hc'⟩ :=
      moved.store_ok (show start + source.length ≤ moved.capacity by omega)
    refine ⟨moved, data', hmove, hstore, hc'.trans hc, ?_⟩
    rw [hbytes, take_overwrite_add _ _ (by omega), hfront, hback]

/-- Marking the allocation leaves its bytes alone. -/
theorem marked (o : ByteOwner T) (c : Bool) :
    (if c = true then o.markAsSensitive else o).data.bytes = o.data.bytes ∧
      (if c = true then o.markAsSensitive else o).data.size = o.data.size ∧
      (if c = true then o.markAsSensitive else o).isNull = o.isNull := by
  cases c with
  | false => exact ⟨rfl, rfl, rfl⟩
  | true =>
    rw [if_pos rfl, markAsSensitive]
    split
    · exact ⟨rfl, rfl, rfl⟩
    · exact ⟨rfl, rfl, rfl⟩

theorem stableSource_ok (o : ByteOwner T) (memory : Nat → UInt8) (source : ByteSource) :
    o.stableSource memory source = .ok (source.bytes o.data) := by
  cases source with
  | external bytes => rfl
  | own offset length =>
    unfold stableSource
    dsimp only
    split
    case isTrue => rfl
    case isFalse hne =>
      have hcapacity : o.data.bytes.length ≤ T.maximumLength := o.data.capacity_le
      have hle : ((ByteSource.own offset length).bytes o.data).length ≤ T.maximumLength := by
        rw [ByteSource.bytes, List.length_take, List.length_drop]
        omega
      generalize (ByteSource.own offset length).bytes o.data = bytes at hne hle
      obtain ⟨data, hcreate, hsize, hc, -⟩ :=
        ByteData.create_ok T memory o.isSensitive (le_refl bytes.length) hle
      obtain ⟨copy, hstore, hbytes, hs, -, -⟩ :=
        data.store_ok (show 0 + bytes.length ≤ data.capacity by omega)
      rw [ByteData.createCopy, hcreate, ok_bind, if_neg hne, hstore]
      refine congrArg Except.ok ?_
      rw [ByteData.visible, hs, hsize, hbytes, ← Nat.zero_add bytes.length,
        take_overwrite _ (Nat.zero_le _), List.take_zero, List.nil_append]

theorem ensureCapacity_error (o : ByteOwner T) (memory : Nat → UInt8)
    (h : T.maximumLength < requested) (o' : ByteOwner T) :
    o.ensureCapacity memory requested ≠ .ok o' := by
  have hcapacity : o.data.capacity ≤ T.maximumLength := o.data.capacity_le
  have hgrowth := T.requested_le_bestGrowth o.data.capacity (max o.length requested)
  have hreq := (le_max_right o.length requested).trans hgrowth
  unfold ensureCapacity
  dsimp only
  split
  case isTrue => nofun
  case isFalse hcan =>
    rw [Bool.not_eq_true', Bool.not_eq_false, T.canAllocateWithCapacity_iff] at hcan
    have hmax : T.maximumLength = BestGrowth.maximumLength := by
      rw [StorageType.maximumLength] at h ⊢
      omega
    rw [if_neg (by simp; omega), ByteData.create]
    split
    case isTrue hsize =>
      rw [dif_neg (by omega)]
      nofun
    case isFalse => nofun

/-- The visible bytes with a range replaced; a range without an index changes nothing. -/
def replacedBytes (bytes : List UInt8) (range : ByteRange) (source : List UInt8) : List UInt8 :=
  if range.isValid then
    bytes.take range.index ++ source ++ bytes.drop (range.index + range.length)
  else bytes

/-- The length that a replacement asks for. -/
def replacedLength (o : ByteOwner T) (range : ByteRange) (source : ByteSource) : Nat :=
  o.length - min range.length (o.length - range.index) + (source.bytes o.data).length

/-- The own bytes of the replaced range are the source. -/
theorem replacedBytes_own {o : ByteOwner T} {range : ByteRange} {source : ByteSource}
    (hv : range.isValid = true) (hne : source.bytes o.data ≠ [])
    (hlength : (source.bytes o.data).length = min range.length (o.length - range.index))
    (hstart : source.startsAt (min range.index o.length) = true) :
    replacedBytes o.visible range (source.bytes o.data) = o.visible := by
  have hpos := List.length_pos_iff.mpr hne
  have hvisible := o.visible_length
  cases source with
  | external bytes => cases hstart
  | own offset length =>
    have hoffset : offset = range.index := by
      rw [ByteSource.startsAt, beq_iff_eq] at hstart
      omega
    have hsource : (ByteSource.own offset length).bytes o.data =
        (o.visible.drop range.index).take range.length := by
      have htake : (ByteSource.own offset length).bytes o.data = (o.data.bytes.drop offset).take
          (min range.length (o.length - range.index)) := by
        rw [← hlength, ByteSource.bytes, List.length_take, List.take_eq_take_iff]
        omega
      rw [htake, hoffset, visible, ByteData.visible, List.drop_take, List.take_take]
      rfl
    rw [replacedBytes, if_pos hv, hsource, List.append_assoc, ← List.drop_drop, List.take_append_drop,
      List.take_append_drop]

theorem replace_ok (o : ByteOwner T) (memory : Nat → UInt8) (range : ByteRange)
    (source : ByteSource) (sensitive : Bool) (hv : range.isValid = true)
    (hn : o.isNull = false ∨ source.bytes o.data ≠ [])
    (hlength : o.replacedLength range source ≤ T.maximumLength) :
    ∃ o', o.replace memory range source sensitive = .ok o' ∧
      o'.visible = replacedBytes o.visible range (source.bytes o.data) := by
  have hmaximum : T.maximumLength ≤ T.maximumSize := min_le_left _ _
  have hsize := T.maximumSize_le
  have hvisible := o.visible_length
  obtain ⟨hindex, hcount⟩ := range.clampedTo_eq o.length o.length_le hv
  rw [replacedLength] at hlength
  unfold replace
  simp only [hv, Bool.not_true, Bool.false_eq_true, if_false, hindex, hcount]
  generalize hc : (sensitive && !(source.bytes o.data).isEmpty) = c
  obtain ⟨hbytes, hsize', hnull⟩ := o.marked c
  generalize (if c = true then o.markAsSensitive else o) = o₁ at hbytes hsize' hnull
  have hsource : source.bytes o₁.data = source.bytes o.data := by
    cases source with
    | external bytes => rfl
    | own offset length => rw [ByteSource.bytes, ByteSource.bytes, hbytes]
  have hvisible₁ : o₁.visible = o.visible := by
    rw [visible, visible, ByteData.visible, ByteData.visible, hbytes, hsize']
  split
  case isTrue hsame =>
    simp only [Bool.and_eq_true, Bool.not_eq_true', beq_iff_eq] at hsame
    obtain ⟨⟨hne, hl⟩, hs⟩ := hsame
    refine ⟨o₁, rfl, ?_⟩
    rw [replacedBytes_own hv (by simpa using hne) hl hs, hvisible₁]
  case isFalse =>
    generalize hremoved : min range.length (o.length - range.index) = removed at hlength
    obtain ⟨o₂, hensure, hv₂, hl₂, hroom, hnull₂⟩ := o₁.ensureCapacity_ok memory hlength
    obtain ⟨hbytes₃, hsize₃, hnull₃⟩ := o₂.marked c
    obtain ⟨o₃, ho₃⟩ : ∃ o₃, (if c = true then o₂.markAsSensitive else o₂) = o₃ := ⟨_, rfl⟩
    rw [ho₃] at hbytes₃ hsize₃ hnull₃
    rw [stableSource_ok, hsource, ok_bind, checkedCombinedLength, if_neg (by omega), ok_bind,
      hensure, ok_bind]
    simp only [hc, ho₃]
    have hn₃ : o₃.isNull = false := by
      rw [hnull₃, Bool.eq_false_iff]
      intro hnn
      obtain ⟨h₁, h₂⟩ := hnull₂.mp hnn
      rw [hnull] at h₁
      rcases hn with hn | hn
      · rw [hn] at h₁
        cases h₁
      · have := List.length_pos_iff.mpr hn
        omega
    have hold : o.length = o₃.data.size := by
      rw [hsize₃]
      exact hsize'.symm.trans hl₂.symm
    have hcapacity : o₃.data.capacity = o₂.data.capacity := by
      rw [ByteData.capacity, ByteData.capacity, hbytes₃]
    have hle : o₃.data.size ≤ o₃.data.capacity := o₃.data.size_le
    obtain ⟨moved, data', hmove, hcopy, hc', htake⟩ := replaced_ok o₃.data (source.bytes o.data)
      (show min range.index o.length + removed ≤ o.length by omega) (by omega) (by omega)
    obtain ⟨o', hfinish, hresult⟩ := o₃.finish_ok data'
      (o₃.isSensitive && decide (o.length - removed + (source.bytes o.data).length < o.length))
      (show o.length - removed + (source.bytes o.data).length +
        (o.length - (o.length - removed + (source.bytes o.data).length)) ≤ data'.capacity by omega)
    rw [mutableData_ok hn₃, ok_bind, hmove, ok_bind, hcopy, ok_bind]
    refine ⟨o', hfinish, ?_⟩
    have hall : o₃.data.bytes.take o.length = o.visible := by
      rw [hold, hbytes₃, hsize₃]
      exact hv₂.trans hvisible₁
    have hfront : o₃.data.bytes.take (min range.index o.length) = o.visible.take range.index := by
      rw [← hall, List.take_take]
    have hback : o.visible.drop (min range.index o.length + removed) =
        o.visible.drop (range.index + range.length) := by
      rcases Nat.lt_or_ge (min range.index o.length + removed) o.length with hlt | hge
      · congr 1
        omega
      · rw [List.drop_of_length_le (by omega), List.drop_of_length_le (by omega)]
    rw [hresult, htake, hall, hfront, hback, replacedBytes, if_pos hv]

theorem replace_error (o : ByteOwner T) (memory : Nat → UInt8) (range : ByteRange)
    (source : ByteSource) (sensitive : Bool) (hv : range.isValid = true)
    (h : o.isNull = true ∧ source.bytes o.data = [] ∨
      T.maximumLength < o.replacedLength range source) (o' : ByteOwner T) :
    o.replace memory range source sensitive ≠ .ok o' := by
  have hvisible := o.visible_length
  have hsize : o.data.size ≤ o.data.capacity := o.data.size_le
  have hlimit : o.data.capacity ≤ T.maximumLength := o.data.capacity_le
  obtain ⟨hindex, hcount⟩ := range.clampedTo_eq o.length o.length_le hv
  rw [replacedLength] at h
  unfold replace
  simp only [hv, Bool.not_true, Bool.false_eq_true, if_false, hindex, hcount]
  generalize hc : (sensitive && !(source.bytes o.data).isEmpty) = c
  obtain ⟨hbytes, hsize', hnull⟩ := o.marked c
  generalize (if c = true then o.markAsSensitive else o) = o₁ at hbytes hsize' hnull
  have hsource : source.bytes o₁.data = source.bytes o.data := by
    cases source with
    | external bytes => rfl
    | own offset length => rw [ByteSource.bytes, ByteSource.bytes, hbytes]
  have hlen : o.length = o.data.size := rfl
  split
  case isTrue hsame =>
    simp only [Bool.and_eq_true, Bool.not_eq_true', beq_iff_eq] at hsame
    obtain ⟨⟨hne, hl⟩, -⟩ := hsame
    rcases h with ⟨-, he⟩ | hlong
    · rw [he] at hne
      cases hne
    · omega
  case isFalse =>
    rw [stableSource_ok, hsource, ok_bind, checkedCombinedLength]
    split
    case isTrue => nofun
    case isFalse hfits =>
      rw [ok_bind]
      rcases h with ⟨hn, he⟩ | hlong
      · -- No allocation is made for nothing, and the missing one is written to.
        rw [isNull, Bool.and_eq_true, beq_iff_eq] at hn
        have hzero : o.length - min range.length (o.length - range.index) +
            (source.bytes o.data).length = 0 := by
          rw [he, List.length_nil]
          omega
        rw [hzero]
        obtain ⟨o₂, hensure, -, -, -, hnull₂⟩ := o₁.ensureCapacity_ok memory (Nat.zero_le _)
        have hn₂ : o₂.isNull = true := hnull₂.mpr ⟨by rw [hnull, isNull, hn.1, hn.2]; rfl, rfl⟩
        obtain ⟨-, -, hnull₃⟩ := o₂.marked c
        rw [hensure, ok_bind]
        simp only [hc, mutableData, hnull₃, hn₂, if_true]
        nofun
      · intro hok
        obtain ⟨o₂, hensure, -⟩ := bind_eq_ok hok
        exact o₁.ensureCapacity_error memory hlong o₂ hensure

/-- Replacing is exact unless nothing replaces something in a container without an allocation, or
the length exceeds the limit. -/
theorem replace_exact_iff (o : ByteOwner T) (memory : Nat → UInt8) (range : ByteRange)
    (source : ByteSource) (sensitive : Bool) :
    (∃ o', o.replace memory range source sensitive = .ok o' ∧
      o'.visible = replacedBytes o.visible range (source.bytes o.data)) ↔
    (range.isValid = true → (o.isNull = false ∨ source.bytes o.data ≠ []) ∧
      o.replacedLength range source ≤ T.maximumLength) := by
  constructor
  · rintro ⟨o', hok, -⟩ hv
    have hno := o.replace_error memory range source sensitive hv
    constructor
    · by_contra hn
      rw [not_or, Bool.not_eq_false, not_not] at hn
      exact hno (.inl hn) o' hok
    · by_contra hl
      exact hno (.inr (not_le.mp hl)) o' hok
  · intro h
    cases hv : range.isValid with
    | false => exact ⟨o, by rw [replace, hv]; rfl, by rw [replacedBytes, hv]; rfl⟩
    | true => exact o.replace_ok memory range source sensitive hv (h hv).1 (h hv).2

end ByteOwner

namespace ByteRange

theorem isWithin_iff (range : ByteRange) (hb : bounds < cSizeMaximum) (hn : 0 < range.length) :
    range.isWithin bounds = true ↔ range.index + range.length ≤ bounds := by
  have hi := range.index_le
  have hl := range.length_le
  unfold isWithin endIndex
  simp only [isValid, isInfinite, cRawNoIndex, cRawInfinite]
  grind

end ByteRange

namespace ByteData
variable {T : StorageType}

/-- The copies double what was appended, as the list does. -/
theorem repeatLoop_ok (data : ByteData T) (hpos : 0 < copied) (hle : copied ≤ appendedLength)
    (hc : oldSize + appendedLength ≤ data.capacity) :
    ∃ data', data.repeatLoop oldSize appendedLength copied = .ok data' ∧
      data'.bytes.take oldSize = data.bytes.take oldSize ∧ data'.capacity = data.capacity ∧
      (data'.bytes.drop oldSize).take appendedLength =
        appendRepeatedLoop ((data.bytes.drop oldSize).take copied) appendedLength := by
  have hlength : ((data.bytes.drop oldSize).take copied).length = copied := by
    rw [capacity] at hc
    rw [List.length_take, List.length_drop]
    omega
  induction hm : appendedLength - copied using Nat.strong_induction_on
    generalizing data copied with
  | _ m ih =>
    unfold repeatLoop
    split
    case isFalse hdone =>
      have he : copied = appendedLength := by omega
      refine ⟨data, rfl, rfl, rfl, ?_⟩
      rw [appendRepeatedLoop_full _ (by omega), he]
    case isTrue hmore =>
      generalize hcount : min copied (appendedLength - copied) = count
      obtain ⟨next, hcopy, hbytes, -, -, hcap⟩ := data.memmove_ok
        (show oldSize + count ≤ data.capacity by omega)
        (show oldSize + copied + count ≤ data.capacity by omega)
      have hcapacity : data.capacity = data.bytes.length := rfl
      have hxlength : ((data.bytes.drop oldSize).take count).length = count := by
        rw [List.length_take, List.length_drop]
        omega
      have hfront : next.bytes.take oldSize = data.bytes.take oldSize := by
        rw [hbytes, take_overwrite_of_le _ (Nat.le_add_right _ _) (by omega)]
      have hnext : (next.bytes.drop oldSize).take (copied + count) =
          (data.bytes.drop oldSize).take copied ++
            ((data.bytes.drop oldSize).take copied).take count := by
        have hall := take_overwrite ((data.bytes.drop oldSize).take count)
          (show oldSize + copied ≤ data.bytes.length by omega)
        rw [hxlength, ← hbytes, Nat.add_assoc] at hall
        rw [List.take_take, min_eq_left (by omega), List.take_drop, hall,
          List.drop_append_of_le_length (by simp; omega), List.drop_take, Nat.add_sub_cancel_left]
      obtain ⟨data', hloop, htake, hc', hresult⟩ := ih (appendedLength - (copied + count)) (by omega)
        next (by omega) (by omega) (by omega) (by rw [hnext, List.length_append]; simp; omega) rfl
      refine ⟨data', ?_, htake.trans hfront, hc'.trans hcap, ?_⟩
      · dsimp only
        rw [memcpy, if_pos (by omega), hcopy, ok_bind]
        exact hloop
      · rw [hresult, hnext]
        conv_rhs => rw [appendRepeatedLoop]
        simp only [hlength, hcount]
        rw [if_pos (by omega)]

end ByteData

namespace ByteOwner
variable {T : StorageType}

/-- The storage performs what `Mem.appendRepeated` does on the visible bytes. -/
theorem appendRepeated_refines (o : ByteOwner T) (memory : Nat → UInt8) (range : ByteRange)
    (h : o.length + outputLength ≤ T.maximumLength)
    (hbytes : Mem.appendRepeated o.visible range.index range.length outputLength = .ok bytes) :
    ∃ o', o.appendRepeated memory range outputLength = .ok o' ∧ o'.visible = bytes := by
  have hvisible := o.visible_length
  have hsizes := T.maximumSize_le
  have hmaximum : T.maximumLength ≤ T.maximumSize := min_le_left _ _
  have hfinite : T.maximumLength < cSizeMaximum :=
    lt_of_le_of_lt (min_le_right _ _) (by decide)
  unfold Mem.appendRepeated at hbytes
  unfold appendRepeated
  dsimp only
  split
  case isTrue hz =>
    rw [if_pos hz] at hbytes
    exact ⟨o, rfl, Except.ok.inj hbytes⟩
  case isFalse hz =>
    rw [if_neg hz] at hbytes
    split at hbytes
    case isTrue => cases hbytes
    case isFalse hin =>
      rw [not_or, not_lt, hvisible] at hin
      have hwithin := (range.isWithin_iff (show o.length < cSizeMaximum by omega) (by omega)).mpr hin.2
      have hempty : range.isEmpty = false := beq_eq_false_iff_ne.mpr hin.1
      rw [hwithin, hempty, if_neg (by simp), checkedCombinedLength, if_neg (by omega), ok_bind]
      obtain ⟨u, hensure, huvisible, hulength, hroom, hnull⟩ := o.ensureCapacity_ok memory h
      have hn : u.isNull = false := by
        rw [Bool.eq_false_iff]
        intro hnn
        have := (hnull.mp hnn).2
        omega
      have hold : o.length ≤ u.data.bytes.length := by
        rw [← hulength]
        exact u.data.size_le
      generalize hcopied : min range.length outputLength = copied at hbytes ⊢
      have hcapacity : u.data.capacity = u.data.bytes.length := rfl
      obtain ⟨first, hcopy, hfirst, -, -, hcap⟩ := u.data.memmove_ok
        (show range.index + copied ≤ u.data.capacity by omega)
        (show o.length + copied ≤ u.data.capacity by omega)
      obtain ⟨last, hloop, hfront, hlast, happended⟩ := first.repeatLoop_ok
        (show 0 < copied by omega) (show copied ≤ outputLength by omega)
        (show o.length + outputLength ≤ first.capacity by omega)
      obtain ⟨data, hset, hdata, -⟩ :=
        last.setSize_ok (show o.length + outputLength ≤ last.capacity by omega)
      have hxlength : ((u.data.bytes.drop range.index).take copied).length = copied := by
        rw [List.length_take, List.length_drop]
        omega
      have hall : u.data.bytes.take o.length = o.visible := by
        rw [← hulength, ← huvisible]
        rfl
      have hsource : (u.data.bytes.drop range.index).take copied =
          (o.visible.drop range.index).take copied := by
        rw [← hall, List.drop_take, List.take_take, min_eq_left (by omega)]
      have hstart : (first.bytes.drop o.length).take copied =
          (o.visible.drop range.index).take copied := by
        rw [hfirst, drop_overwrite_self _ hold, List.take_left' hxlength, hsource]
      have hkept : first.bytes.take o.length = o.visible := by
        rw [hfirst, take_overwrite_of_le _ (le_refl _) hold, hall]
      rw [hensure, ok_bind, mutableData_ok hn, ok_bind, ByteData.memcpy, if_pos (by omega), hcopy,
        ok_bind, hloop, ok_bind, hset]
      refine ⟨_, rfl, ?_⟩
      rw [← Except.ok.inj hbytes, ← hstart, ← happended, ← hkept, ← hfront, ← List.take_add]
      exact hdata

/-- Each appended byte repeats the one a distance before it. -/
theorem appendRepeated_distance (bytes : List UInt8) (hd : 0 < distance)
    (hle : distance ≤ bytes.length) (n : Nat) :
    ∃ appended, Mem.appendRepeated bytes (bytes.length - distance) distance n =
        .ok (bytes ++ appended) ∧ appended.length = n ∧
      ∀ i, i < n → (bytes ++ appended)[bytes.length + i]! =
        (bytes ++ appended)[bytes.length + i - distance]! := by
  have hsource : ((bytes.drop (bytes.length - distance)).take distance).length = distance := by
    rw [List.length_take, List.length_drop]
    omega
  have hwhole : (bytes.drop (bytes.length - distance)).take distance =
      bytes.drop (bytes.length - distance) := List.take_of_length_le (by rw [List.length_drop]; omega)
  refine ⟨cycle (bytes.drop (bytes.length - distance)) n, ?_, cycle_length _ _, ?_⟩
  · rw [appendRepeated_eq_cycle bytes hd (by omega), hwhole]
  · intro i hi
    rw [hwhole] at hsource
    rw [getElem!_append_right _ _ (by omega), Nat.add_sub_cancel_left, cycle_getElem! _ hi, hsource]
    rcases Nat.lt_or_ge i distance with hlt | hge
    · rw [getElem!_append_left _ _ (by omega), getElem!_drop, Nat.mod_eq_of_lt hlt]
      congr 1
      omega
    · rw [getElem!_append_right _ _ (by omega), cycle_getElem! _ (by omega), hsource,
        Nat.mod_eq_sub_mod hge]
      congr 2
      omega

theorem appendRepeated_error (o : ByteOwner T) (memory : Nat → UInt8) (range : ByteRange)
    (h : T.maximumLength < o.length + outputLength) (o' : ByteOwner T) :
    o.appendRepeated memory range outputLength ≠ .ok o' := by
  have hsize : o.data.size ≤ o.data.capacity := o.data.size_le
  have hlimit : o.data.capacity ≤ T.maximumLength := o.data.capacity_le
  have hlen : o.length = o.data.size := rfl
  unfold appendRepeated
  dsimp only
  rw [if_neg (by omega)]
  split
  case isTrue => nofun
  case isFalse =>
    unfold checkedCombinedLength
    split
    case isTrue => nofun
    case isFalse =>
      rw [ok_bind]
      intro hok
      obtain ⟨u, hensure, -⟩ := bind_eq_ok hok
      exact o.ensureCapacity_error memory h u hensure

/-- The last bytes of a container. -/
def lastRange (o : ByteOwner T) (distance : Nat) (h : distance ≤ o.length) : ByteRange where
  index := o.length - distance
  length := distance
  index_le := (Nat.sub_le _ _).trans o.length_le
  length_le := h.trans o.length_le

/-- Every modification equals its list operation, under the exact conditions that replacing and
repeating need; removing and keeping need none. -/
theorem modifications_exact_iff (o : ByteOwner T) (memory : Nat → UInt8) (range : ByteRange)
    (source : ByteSource) (sensitive : Bool) :
    (∃ o', o.remove memory range = .ok o' ∧
      o'.visible = o.visible.take range.index ++ o.visible.drop (range.index + range.length)) ∧
    (∃ o', o.keep memory range = .ok o' ∧
      o'.visible = (o.visible.drop range.index).take range.length) ∧
    ((∃ o', o.replace memory range source sensitive = .ok o' ∧
        o'.visible = replacedBytes o.visible range (source.bytes o.data)) ↔
      (range.isValid = true → (o.isNull = false ∨ source.bytes o.data ≠ []) ∧
        o.replacedLength range source ≤ T.maximumLength)) ∧
    ∀ (distance count : Nat) (_ : 0 < distance) (hle : distance ≤ o.length),
      (∃ o' appended, o.appendRepeated memory (o.lastRange distance hle) count = .ok o' ∧
        o'.visible = o.visible ++ appended ∧ appended.length = count ∧
        ∀ i, i < count → o'.visible[o.length + i]! = o'.visible[o.length + i - distance]!) ↔
      o.length + count ≤ T.maximumLength := by
  have hvisible := o.visible_length
  refine ⟨o.remove_ok memory range, o.keep_ok memory range,
    o.replace_exact_iff memory range source sensitive, ?_⟩
  intro distance count hd hle
  constructor
  · rintro ⟨o', -, hok, -⟩
    by_contra hl
    exact o.appendRepeated_error memory _ (not_le.mp hl) o' hok
  · intro hl
    obtain ⟨appended, hlist, hlength, hagree⟩ :=
      appendRepeated_distance o.visible hd (hvisible.symm ▸ hle) count
    rw [hvisible] at hlist hagree
    obtain ⟨o', hok, hbytes⟩ := o.appendRepeated_refines memory (o.lastRange distance hle) hl hlist
    refine ⟨o', appended, hok, hbytes, hlength, ?_⟩
    rw [hbytes]
    exact hagree

/-- A new editor has no allocation. -/
def emptyEditor : ByteOwner (.byteBlockData 16 (by decide)) :=
  ofData ⟨[], 0, false, le_refl _, Nat.zero_le _⟩

/-- Two bytes in an unshared allocation. -/
def twoBytes : ByteOwner (.byteBlockData 16 (by decide)) :=
  ofData ⟨[1, 2], 2, false, le_refl _, by decide⟩

/-- Replacing nothing by nothing in a new editor writes to the missing allocation. -/
theorem replace_in_empty_editor :
    ¬ ∃ o', emptyEditor.replace (fun _ => 0) (ByteRange.emptyAt 0 (Nat.zero_le _)) (.external [])
        false = .ok o' ∧
      o'.visible = replacedBytes emptyEditor.visible (ByteRange.emptyAt 0 (Nat.zero_le _)) [] := by
  rintro ⟨o', hok, -⟩
  have herror : emptyEditor.replace (fun _ => 0) (ByteRange.emptyAt 0 (Nat.zero_le _))
      (.external []) false = .error .nullAccess := by
    rfl
  rw [herror] at hok
  cases hok

/-- Three more bytes repeat the last one. -/
theorem modifications_exact_iff_twoBytes :
    ∃ o' appended, twoBytes.appendRepeated (fun _ => 0)
        (twoBytes.lastRange 1 (by decide)) 3 = .ok o' ∧
      o'.visible = twoBytes.visible ++ appended ∧ appended.length = 3 ∧
      ∀ i, i < 3 → o'.visible[twoBytes.length + i]! = o'.visible[twoBytes.length + i - 1]! :=
  ((modifications_exact_iff twoBytes (fun _ => 0) (ByteRange.emptyAt 0 (Nat.zero_le _))
    (.external []) false).2.2.2 1 3 (by decide) (by decide)).mpr (by decide)

end ByteOwner

end ErbslandCore.Mem
