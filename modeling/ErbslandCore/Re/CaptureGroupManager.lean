import Mathlib.Data.List.Count
import ErbslandCore.Re.Program

namespace ErbslandCore.Re
open Library
set_option autoImplicit true

/-- The value of a reference that names no capture group set. -/
def cNoCaptureGroup : Nat := 65535

/-- The result of a search for a free slot that found none. -/
def cNoSlot : Nat := 65535

def maximumCaptureGroupCount : Nat := 100

structure CaptureRange where
  beginPosition : Nat := 0
  endPosition : Nat := 0
  deriving DecidableEq, Inhabited

structure CaptureGroupSet where
  referenceCount : Nat := 0
  ranges : List CaptureRange
  atomicGroupMask : Nat := 0
  deriving DecidableEq

namespace CaptureGroupSet

def increaseReferenceCount (set : CaptureGroupSet) : Except RegExError CaptureGroupSet :=
  if set.referenceCount < 2 ^ 32 - 1 then
    .ok { set with referenceCount := set.referenceCount + 1 }
  else .error (internalError "CaptureGroupSet::increaseReferenceCount: overflow")

def decreaseReferenceCount (set : CaptureGroupSet) : Except RegExError CaptureGroupSet :=
  if 0 < set.referenceCount then
    .ok { set with referenceCount := set.referenceCount - 1 }
  else .error (internalError "CaptureGroupSet::decreaseReferenceCount: underflow")

def setBegin (captureGroup inputPosition : Nat) (set : CaptureGroupSet) :
    Except RegExError CaptureGroupSet :=
  match set.ranges[captureGroup]? with
  | some range => .ok { set with
      ranges := set.ranges.set captureGroup { range with beginPosition := inputPosition } }
  | none => .error (internalError "CaptureGroupSet::setBegin: captureGroup out of bounds")

def setEnd (captureGroup inputPosition : Nat) (set : CaptureGroupSet) :
    Except RegExError CaptureGroupSet :=
  match set.ranges[captureGroup]? with
  | some range => .ok { set with
      ranges := set.ranges.set captureGroup { range with endPosition := inputPosition } }
  | none => .error (internalError "CaptureGroupSet::setEnd: captureGroup out of bounds")

def setAtomicGroupBit (atomicGroupId : Nat) (set : CaptureGroupSet) :
    Except RegExError CaptureGroupSet :=
  .ok { set with atomicGroupMask := set.atomicGroupMask ||| 2 ^ atomicGroupId }

/-- The start position tells the parallel runs of a program apart. -/
def atomicGroupRunId (set : CaptureGroupSet) : Nat := (set.ranges.headD {}).beginPosition

/-- What a set stores besides its number of references. -/
def content (set : CaptureGroupSet) : List CaptureRange × Nat :=
  (set.ranges, set.atomicGroupMask)

end CaptureGroupSet

/-- The sets of all threads; a thread refers to its set by the number of the slot. -/
structure CaptureGroupManager where
  groupCount : Nat
  hasAtomicGroups : Bool
  captureGroupSets : List CaptureGroupSet := []
  firstFreeSlot : Nat := 0
  deriving DecidableEq

namespace CaptureGroupManager

/-- The set sizes that exist for programs without and with atomic groups. -/
def sizeClasses (hasAtomicGroups : Bool) : List Nat :=
  if hasAtomicGroups then [1, 3, 7, 15, 31, 63] else [1, 2, 3, 5, 9, 17, 33, 65]

def create (captureGroupCount : Nat) (hasAtomicGroups : Bool) : CaptureGroupManager where
  groupCount := ((sizeClasses hasAtomicGroups).find? fun size => captureGroupCount ≤ size).getD
    (if hasAtomicGroups then (maximumCaptureGroupCount + 5) / 4 * 4 - 1
      else maximumCaptureGroupCount + 1)
  hasAtomicGroups := hasAtomicGroups

def resetForNextFind (manager : CaptureGroupManager) : CaptureGroupManager :=
  { manager with captureGroupSets := [], firstFreeSlot := 0 }

/-- A slot number is stored in 16 bits. -/
def findFirstFreeSlot (manager : CaptureGroupManager) : Nat :=
  match (manager.captureGroupSets.drop manager.firstFreeSlot).findIdx?
      fun set => set.referenceCount == 0 with
  | some offset => (manager.firstFreeSlot + offset) % 2 ^ 16
  | none => cNoSlot

def addSet (manager : CaptureGroupManager) (set : CaptureGroupSet) :
    Nat × CaptureGroupManager :=
  let set := { set with referenceCount := 1 }
  let emptySlot := manager.findFirstFreeSlot
  if emptySlot ≠ cNoSlot then
    (emptySlot, { manager with
      captureGroupSets := manager.captureGroupSets.set emptySlot set
      firstFreeSlot := emptySlot + 1 })
  else
    (manager.captureGroupSets.length % 2 ^ 16, { manager with
      captureGroupSets := manager.captureGroupSets ++ [set]
      firstFreeSlot := manager.captureGroupSets.length })

def createGroupSet (manager : CaptureGroupManager) (startPosition : Nat) :
    Except RegExError (Nat × CaptureGroupManager) := do
  let set ← CaptureGroupSet.setBegin 0 startPosition
    { ranges := List.replicate manager.groupCount {} }
  return manager.addSet set

def release (manager : CaptureGroupManager) (reference : Nat) :
    Except RegExError CaptureGroupManager :=
  if reference = cNoCaptureGroup then .ok manager
  else match manager.captureGroupSets[reference]? with
    | none => .error (internalError "release: reference out of bounds")
    | some set =>
      if 0 < set.referenceCount then do
        let set ← set.decreaseReferenceCount
        return { manager with
          captureGroupSets := manager.captureGroupSets.set reference set
          firstFreeSlot := if set.referenceCount = 0 ∧ reference < manager.firstFreeSlot
            then reference else manager.firstFreeSlot }
      else .error (internalError "release: referenceCount already zero (double release)")

def allocate (manager : CaptureGroupManager) (reference : Nat) :
    Except RegExError CaptureGroupManager :=
  if reference = cNoCaptureGroup then .ok manager
  else match manager.captureGroupSets[reference]? with
    | none => .error (internalError "allocate: reference out of bounds")
    | some set => do
      let set ← set.increaseReferenceCount
      return { manager with captureGroupSets := manager.captureGroupSets.set reference set }

/-- Detach a set that several threads share before it is modified. -/
def setForModification (manager : CaptureGroupManager) (reference : Nat) :
    Except RegExError (Nat × CaptureGroupManager) :=
  match manager.captureGroupSets[reference]? with
  | none => .error (internalError "setForModification: reference out of bounds")
  | some set =>
    if 0 < set.referenceCount then
      if set.referenceCount = 1 then .ok (reference, manager)
      else do
        let set ← set.decreaseReferenceCount
        return { manager with
          captureGroupSets := manager.captureGroupSets.set reference set }.addSet set
    else .error (internalError "setForModification: referenceCount is zero")

/-- Modify the set of a thread and return the reference the thread continues with. -/
def modifySet (modify : CaptureGroupSet → Except RegExError CaptureGroupSet)
    (manager : CaptureGroupManager) (reference : Nat) :
    Except RegExError (Nat × CaptureGroupManager) := do
  let (newReference, manager) ← manager.setForModification reference
  match manager.captureGroupSets[newReference]? with
  | none => .error (internalError "setForModification: reference out of bounds")
  | some set =>
    let set ← modify set
    return (newReference, { manager with
      captureGroupSets := manager.captureGroupSets.set newReference set })

def startCapture (manager : CaptureGroupManager) (reference captureGroup inputPosition : Nat) :
    Except RegExError (Nat × CaptureGroupManager) :=
  manager.modifySet (CaptureGroupSet.setBegin captureGroup inputPosition) reference

def stopCapture (manager : CaptureGroupManager) (reference captureGroup inputPosition : Nat) :
    Except RegExError (Nat × CaptureGroupManager) :=
  manager.modifySet (CaptureGroupSet.setEnd captureGroup inputPosition) reference

def markThreadWithAtomicGroupId (manager : CaptureGroupManager) (reference atomicGroupId : Nat) :
    Except RegExError (Nat × CaptureGroupManager) :=
  if manager.hasAtomicGroups then
    manager.modifySet (CaptureGroupSet.setAtomicGroupBit atomicGroupId) reference
  else .error (internalError
    "markThreadWithAtomicGroupId() called on group manager with no atomic groups")

def getAllReferencesForAtomicGroup (manager : CaptureGroupManager)
    (reference atomicGroupId : Nat) : Except RegExError (List Nat) :=
  if manager.hasAtomicGroups then
    match manager.captureGroupSets[reference]? with
    | none => .error (internalError "groupSet: reference out of bounds")
    | some set => .ok <| (List.range manager.captureGroupSets.length).filter fun slot =>
        match manager.captureGroupSets[slot]? with
        | none => false
        | some otherSet => otherSet.referenceCount > 0 ∧
            set.atomicGroupRunId = otherSet.atomicGroupRunId ∧
            otherSet.atomicGroupMask &&& 2 ^ atomicGroupId ≠ 0
  else .error (internalError
    "CaptureGroupSetReferenceList() called on group manager with no atomic groups")

/-- The ranges of the capture groups in a set. -/
def createCaptureGroupList (manager : CaptureGroupManager) (reference groupCount : Nat) :
    Except RegExError (List CaptureRange) :=
  if groupCount ≤ manager.groupCount then
    match manager.captureGroupSets[reference]? with
    | none => .error (internalError "createCaptureGroupList: reference out of bounds")
    | some set =>
      if 0 < set.referenceCount then .ok (set.ranges.take groupCount)
      else .error (internalError "createCaptureGroupList: referenceCount is zero")
  else .error (internalError "createCaptureGroupList: actualGroupCount exceeds manager capacity")

/-- What the slots store besides the numbers of references. -/
def contents (manager : CaptureGroupManager) : List (List CaptureRange × Nat) :=
  manager.captureGroupSets.map CaptureGroupSet.content

/-- Every slot counts the references in a list of holders. -/
structure Counted (manager : CaptureGroupManager) (holders : List Nat) : Prop where
  length_le : manager.captureGroupSets.length ≤ 65535
  count_eq : ∀ slot set, manager.captureGroupSets[slot]? = some set →
    set.referenceCount = holders.count slot
  mem_lt : ∀ reference ∈ holders, reference < manager.captureGroupSets.length
  inUse : ∀ slot < manager.firstFreeSlot, slot ∈ holders

section
variable {m : CaptureGroupManager} {holders holders' : List Nat} {s t : CaptureGroupSet}

theorem Counted.perm (h : Counted m holders) (hp : holders.Perm holders') :
    Counted m holders' where
  length_le := h.length_le
  count_eq slot set hs := (h.count_eq slot set hs).trans (hp.count_eq slot)
  mem_lt r hr := h.mem_lt r (hp.mem_iff.2 hr)
  inUse slot hs := hp.mem_iff.1 (h.inUse slot hs)

theorem counted_reset (m : CaptureGroupManager) : Counted m.resetForNextFind [] where
  length_le := Nat.zero_le _
  count_eq slot set hs := by cases hs
  mem_lt r hr := by cases hr
  inUse slot hs := by cases hs

theorem counted_create (count : Nat) (atomic : Bool) : Counted (create count atomic) [] :=
  counted_reset (create count atomic)

theorem Counted.ne_noCaptureGroup (h : Counted m holders) (hr : r ∈ holders) :
    r ≠ cNoCaptureGroup := by
  have hl := h.length_le
  have hlt := h.mem_lt r hr
  unfold cNoCaptureGroup
  omega

theorem Counted.exists_set (h : Counted m holders) (hr : r ∈ holders) :
    ∃ s, m.captureGroupSets[r]? = some s ∧ s.referenceCount = holders.count r ∧
      0 < s.referenceCount := by
  have hs := List.getElem?_eq_getElem (h.mem_lt r hr)
  have hc := h.count_eq r _ hs
  refine ⟨_, hs, hc, ?_⟩
  rw [hc]
  exact List.count_pos_iff.2 hr

theorem contents_set (hs : m.captureGroupSets[r]? = some s) (hc : t.content = s.content) :
    (m.captureGroupSets.set r t).map CaptureGroupSet.content = m.contents := by
  unfold contents
  rw [List.map_set, hc]
  refine List.ext_getElem? fun slot => ?_
  rw [List.getElem?_set]
  split
  case isTrue heq =>
    subst heq
    split
    case isTrue hlt => rw [List.getElem?_map, hs, Option.map_some]
    case isFalse hlt => rw [List.getElem?_eq_none (by omega)]
  case isFalse => rfl

/-- Storing a count for a slot keeps every count that the holders require. -/
theorem Counted.count_set (h : Counted m holders) (hr : t.referenceCount = holders'.count r)
    (ho : ∀ slot, slot ≠ r → holders'.count slot = holders.count slot) :
    ∀ slot s, (m.captureGroupSets.set r t)[slot]? = some s →
      s.referenceCount = holders'.count slot := by
  intro slot s hslot
  rw [List.getElem?_set] at hslot
  split at hslot
  case isTrue heq =>
    subst heq
    split at hslot
    case isTrue => cases hslot; exact hr
    case isFalse => cases hslot
  case isFalse hne => rw [ho slot (Ne.symm hne), h.count_eq slot s hslot]

theorem release_eq (hne : r ≠ cNoCaptureGroup) (hs : m.captureGroupSets[r]? = some s)
    (hpos : 0 < s.referenceCount) : m.release r = .ok { m with
      captureGroupSets :=
        m.captureGroupSets.set r { s with referenceCount := s.referenceCount - 1 }
      firstFreeSlot := if s.referenceCount - 1 = 0 ∧ r < m.firstFreeSlot
        then r else m.firstFreeSlot } := by
  simp only [release, if_neg hne, hs, if_pos hpos, CaptureGroupSet.decreaseReferenceCount]
  rfl

theorem allocate_eq (hne : r ≠ cNoCaptureGroup) (hs : m.captureGroupSets[r]? = some s)
    (hlt : s.referenceCount < 2 ^ 32 - 1) : m.allocate r = .ok { m with
      captureGroupSets :=
        m.captureGroupSets.set r { s with referenceCount := s.referenceCount + 1 } } := by
  simp only [allocate, if_neg hne, hs, CaptureGroupSet.increaseReferenceCount, if_pos hlt]
  rfl

theorem release_counted (h : Counted m (r :: holders)) :
    ∃ m', m.release r = .ok m' ∧ Counted m' holders ∧ m'.contents = m.contents ∧
      m'.groupCount = m.groupCount ∧ m'.hasAtomicGroups = m.hasAtomicGroups := by
  obtain ⟨s, hs, hc, hpos⟩ := h.exists_set List.mem_cons_self
  have hne := h.ne_noCaptureGroup List.mem_cons_self
  rw [List.count_cons_self] at hc
  refine ⟨_, release_eq hne hs hpos, ?_, contents_set hs rfl, rfl, rfl⟩
  constructor
  case length_le => simpa only [List.length_set] using h.length_le
  case count_eq =>
    refine h.count_set (by simp only [hc]; omega) fun slot hslot => ?_
    rw [List.count_cons_of_ne (Ne.symm hslot)]
  case mem_lt =>
    intro reference hr
    simpa only [List.length_set] using h.mem_lt reference (List.mem_cons_of_mem r hr)
  case inUse =>
    intro slot hslot
    have hfree : slot < m.firstFreeSlot ∧ (slot = r → 0 < holders.count r) := by
      simp only at hslot
      split at hslot
      case isTrue hz => exact ⟨by omega, fun hr => by omega⟩
      case isFalse hz => exact ⟨hslot, fun hr => by subst hr; omega⟩
    rcases List.mem_cons.1 (h.inUse slot hfree.1) with heq | hmem
    · exact heq ▸ List.count_pos_iff.1 (hfree.2 heq)
    · exact hmem

theorem allocate_counted (h : Counted m holders) (hr : r ∈ holders)
    (hl : holders.length < 2 ^ 32 - 1) :
    ∃ m', m.allocate r = .ok m' ∧ Counted m' (r :: holders) ∧ m'.contents = m.contents ∧
      m'.groupCount = m.groupCount ∧ m'.hasAtomicGroups = m.hasAtomicGroups := by
  obtain ⟨s, hs, hc, -⟩ := h.exists_set hr
  have hcount : s.referenceCount < 2 ^ 32 - 1 := by
    rw [hc]
    exact Nat.lt_of_le_of_lt List.count_le_length hl
  refine ⟨_, allocate_eq (h.ne_noCaptureGroup hr) hs hcount, ?_, contents_set hs rfl, rfl, rfl⟩
  constructor
  case length_le => simpa only [List.length_set] using h.length_le
  case count_eq =>
    refine h.count_set (by rw [List.count_cons_self, hc]) fun slot hslot => ?_
    rw [List.count_cons_of_ne (Ne.symm hslot)]
  case mem_lt =>
    intro reference hmem
    rw [List.length_set]
    rcases List.mem_cons.1 hmem with heq | hmem
    · exact heq ▸ h.mem_lt r hr
    · exact h.mem_lt reference hmem
  case inUse => exact fun slot hslot => List.mem_cons_of_mem r (h.inUse slot hslot)

/-- A search of the slots finds one without holders, or all slots are in use. -/
theorem Counted.findFirstFreeSlot (h : Counted m holders) :
    (m.findFirstFreeSlot ∉ holders ∧ m.findFirstFreeSlot < m.captureGroupSets.length ∧
      ∀ slot < m.findFirstFreeSlot, slot ∈ holders) ∨
    (m.findFirstFreeSlot = cNoSlot ∧ ∀ slot < m.captureGroupSets.length, slot ∈ holders) := by
  have hl := h.length_le
  have inUse_of_ne : ∀ slot s, m.captureGroupSets[slot]? = some s →
      (s.referenceCount == 0) = false → slot ∈ holders := by
    intro slot s hs hz
    refine List.count_pos_iff.1 ?_
    rw [← h.count_eq slot s hs]
    simp only [beq_eq_false_iff_ne] at hz
    omega
  unfold CaptureGroupManager.findFirstFreeSlot
  split
  case h_1 offset hf =>
    obtain ⟨hlt, hz, hbefore⟩ := List.findIdx?_eq_some_iff_getElem.1 hf
    rw [List.length_drop] at hlt
    rw [Nat.mod_eq_of_lt (by omega)]
    refine .inl ⟨fun hmem => ?_, by omega, fun slot hslot => ?_⟩
    · obtain ⟨s, hs, -, hpos⟩ := h.exists_set hmem
      rw [List.getElem_drop] at hz
      have heq := (List.getElem?_eq_some_iff.1 hs).2
      rw [heq] at hz
      simp only [beq_iff_eq] at hz
      omega
    · by_cases hs : slot < m.firstFreeSlot
      · exact h.inUse slot hs
      · have hz := hbefore (slot - m.firstFreeSlot) (by omega)
        rw [List.getElem_drop] at hz
        refine inUse_of_ne slot _ ?_ (by simpa only [Bool.not_eq_true] using hz)
        rw [List.getElem?_eq_some_iff]
        refine ⟨by omega, ?_⟩
        congr 1
        omega
  case h_2 hf =>
    refine .inr ⟨rfl, fun slot hslot => ?_⟩
    by_cases hs : slot < m.firstFreeSlot
    · exact h.inUse slot hs
    · have hz := List.findIdx?_eq_none_iff.1 hf (m.captureGroupSets[slot]) (by
        rw [List.mem_drop_iff_getElem]
        exact ⟨slot - m.firstFreeSlot, by omega, by congr 1; omega⟩)
      exact inUse_of_ne slot _ (List.getElem?_eq_getElem hslot) hz

theorem getElem?_contents {slot : Nat} :
    m.contents[slot]? = m.captureGroupSets[slot]?.map CaptureGroupSet.content :=
  List.getElem?_map

theorem addSet_of_free (hne : m.findFirstFreeSlot ≠ cNoSlot) (s : CaptureGroupSet) :
    m.addSet s = (m.findFirstFreeSlot, { m with
      captureGroupSets :=
        m.captureGroupSets.set m.findFirstFreeSlot { s with referenceCount := 1 }
      firstFreeSlot := m.findFirstFreeSlot + 1 }) := if_pos hne

theorem addSet_of_full (hnone : m.findFirstFreeSlot = cNoSlot)
    (hl : m.captureGroupSets.length < 65535) (s : CaptureGroupSet) :
    m.addSet s = (m.captureGroupSets.length, { m with
      captureGroupSets := m.captureGroupSets ++ [{ s with referenceCount := 1 }]
      firstFreeSlot := m.captureGroupSets.length }) := by
  rw [addSet, if_neg fun hc => hc hnone, Nat.mod_eq_of_lt (by omega)]

/-- A new set gets a slot that no holder refers to, and no other slot changes. -/
theorem addSet_counted (h : Counted m holders) (hl : m.captureGroupSets.length < 65535)
    (s : CaptureGroupSet) :
    ∃ r m', m.addSet s = (r, m') ∧ r ∉ holders ∧ Counted m' (r :: holders) ∧
      m'.captureGroupSets[r]? = some { s with referenceCount := 1 } ∧
      (∀ slot < m.captureGroupSets.length, slot ≠ r → m'.contents[slot]? = m.contents[slot]?) ∧
      m'.groupCount = m.groupCount ∧ m'.hasAtomicGroups = m.hasAtomicGroups := by
  rcases h.findFirstFreeSlot with ⟨hfree, hlt, hbefore⟩ | ⟨hnone, hall⟩
  case inl =>
    have hne : m.findFirstFreeSlot ≠ cNoSlot := by
      unfold cNoSlot
      omega
    refine ⟨_, _, addSet_of_free hne s, hfree, ?_, ?_, ?_, rfl, rfl⟩
    · constructor
      case length_le => simpa only [List.length_set] using h.length_le
      case count_eq =>
        refine h.count_set ?_ fun slot hslot => List.count_cons_of_ne (Ne.symm hslot)
        rw [List.count_cons_self, List.count_eq_zero_of_not_mem hfree]
      case mem_lt =>
        intro reference hmem
        rw [List.length_set]
        rcases List.mem_cons.1 hmem with heq | hmem
        · exact heq ▸ hlt
        · exact h.mem_lt reference hmem
      case inUse =>
        intro slot hslot
        rcases Nat.lt_or_eq_of_le (Nat.le_of_lt_succ hslot) with hs | hs
        · exact List.mem_cons_of_mem _ (hbefore slot hs)
        · exact hs ▸ List.mem_cons_self
    · exact List.getElem?_set_self hlt
    · intro slot _ hne
      rw [getElem?_contents, getElem?_contents, List.getElem?_set_ne (Ne.symm hne)]
  case inr =>
    have hnew : m.captureGroupSets.length ∉ holders := fun hmem =>
      Nat.lt_irrefl _ (h.mem_lt _ hmem)
    refine ⟨_, _, addSet_of_full hnone hl s, hnew, ?_, ?_, ?_, rfl, rfl⟩
    · constructor
      case length_le =>
        rw [List.length_append, List.length_singleton]
        exact hl
      case count_eq =>
        intro slot s' hslot
        rw [List.getElem?_append] at hslot
        split at hslot
        case isTrue hlt =>
          rw [List.count_cons_of_ne (by omega)]
          exact h.count_eq slot s' hslot
        case isFalse hge =>
          obtain ⟨hidx, heq⟩ := List.getElem?_eq_some_iff.1 hslot
          rw [List.length_singleton] at hidx
          have hslot' : m.captureGroupSets.length = slot := by omega
          subst hslot'
          rw [List.getElem_singleton] at heq
          rw [← heq, List.count_cons_self, List.count_eq_zero_of_not_mem hnew]
      case mem_lt =>
        intro reference hmem
        rw [List.length_append, List.length_singleton]
        rcases List.mem_cons.1 hmem with heq | hmem
        · omega
        · have hlt := h.mem_lt reference hmem
          omega
      case inUse => exact fun slot hslot => List.mem_cons_of_mem _ (hall slot hslot)
    · rw [List.getElem?_append_right (Nat.le_refl _), Nat.sub_self]
      rfl
    · intro slot hlt _
      rw [getElem?_contents, getElem?_contents, List.getElem?_append_left hlt]

/-- A set that a thread is about to modify has no other holder. -/
theorem setForModification_counted (h : Counted m (r :: holders))
    (hl : m.captureGroupSets.length < 65535) :
    ∃ r' m', m.setForModification r = .ok (r', m') ∧ r' ∉ holders ∧
      Counted m' (r' :: holders) ∧ m'.contents[r']? = m.contents[r]? ∧
      (∀ slot ∈ holders, m'.contents[slot]? = m.contents[slot]?) ∧
      m'.groupCount = m.groupCount ∧ m'.hasAtomicGroups = m.hasAtomicGroups := by
  obtain ⟨s, hs, hc, hpos⟩ := h.exists_set List.mem_cons_self
  rw [List.count_cons_self] at hc
  by_cases hone : s.referenceCount = 1
  case pos =>
    refine ⟨r, m, by simp only [setForModification, hs, if_pos hpos, if_pos hone], ?_, h, rfl,
      fun _ _ => rfl, rfl, rfl⟩
    exact List.count_eq_zero.1 (by omega)
  case neg =>
    have hmem : r ∈ holders := List.count_pos_iff.1 (by omega)
    have hdrop : Counted { m with
        captureGroupSets := m.captureGroupSets.set r
          { s with referenceCount := s.referenceCount - 1 } } holders := by
      constructor
      case length_le => simpa only [List.length_set] using h.length_le
      case count_eq =>
        refine h.count_set (by simp only [hc]; omega) fun slot hslot => ?_
        rw [List.count_cons_of_ne (Ne.symm hslot)]
      case mem_lt =>
        intro reference hr
        simpa only [List.length_set] using h.mem_lt reference (List.mem_cons_of_mem r hr)
      case inUse =>
        intro slot hslot
        rcases List.mem_cons.1 (h.inUse slot hslot) with heq | hmem'
        · exact heq ▸ hmem
        · exact hmem'
    have hcontents := contents_set (t := { s with referenceCount := s.referenceCount - 1 }) hs rfl
    obtain ⟨r', m', ha, hr', hc', hset, hothers, hg, hat⟩ := addSet_counted hdrop
      (by simpa only [List.length_set] using hl) { s with referenceCount := s.referenceCount - 1 }
    refine ⟨r', m', ?_, hr', hc', ?_, ?_, hg, hat⟩
    · simp only [setForModification, hs, if_pos hpos, if_neg hone,
        CaptureGroupSet.decreaseReferenceCount]
      exact congrArg Except.ok ha
    · rw [getElem?_contents, getElem?_contents, hset, hs]
      rfl
    · intro slot hslot
      rw [hothers slot (hdrop.mem_lt slot hslot) fun heq => hr' (heq ▸ hslot)]
      exact congrArg (·[slot]?) hcontents

/-- The operations on a set that do not touch its number of references. -/
def KeepsCount (modify : CaptureGroupSet → Except RegExError CaptureGroupSet) : Prop :=
  ∀ s t, modify s = .ok t → t.referenceCount = s.referenceCount

theorem keepsCount_setBegin : KeepsCount (CaptureGroupSet.setBegin group position) := by
  intro s t h
  unfold CaptureGroupSet.setBegin at h
  split at h
  case h_1 => cases h; rfl
  case h_2 => cases h

theorem keepsCount_setEnd : KeepsCount (CaptureGroupSet.setEnd group position) := by
  intro s t h
  unfold CaptureGroupSet.setEnd at h
  split at h
  case h_1 => cases h; rfl
  case h_2 => cases h

theorem keepsCount_setAtomicGroupBit : KeepsCount (CaptureGroupSet.setAtomicGroupBit group) := by
  intro s t h
  cases h
  rfl

/-- A modification fails only in the modified set and touches no other holder's set. -/
theorem modifySet_counted {modify : CaptureGroupSet → Except RegExError CaptureGroupSet}
    (h : Counted m (r :: holders)) (hl : m.captureGroupSets.length < 65535)
    (hk : KeepsCount modify) :
    ∃ s, s.content ∈ m.contents[r]? ∧
      ((∃ e, modify s = .error e ∧ m.modifySet modify r = .error e) ∨
      ∃ t r' m', modify s = .ok t ∧ m.modifySet modify r = .ok (r', m') ∧ r' ∉ holders ∧
        Counted m' (r' :: holders) ∧ m'.contents[r']? = some t.content ∧
        (∀ slot ∈ holders, m'.contents[slot]? = m.contents[slot]?) ∧
        m'.groupCount = m.groupCount ∧ m'.hasAtomicGroups = m.hasAtomicGroups) := by
  obtain ⟨r', m', hm, hr', hc', hcr, hothers, hg, ha⟩ := setForModification_counted h hl
  obtain ⟨s, hs, hcount, -⟩ := hc'.exists_set List.mem_cons_self
  refine ⟨s, ?_, ?_⟩
  · rw [← hcr, getElem?_contents, hs]
    rfl
  · cases ht : modify s with
    | error e =>
      refine .inl ⟨e, rfl, ?_⟩
      simp only [modifySet, hm, bind, Except.bind, hs, ht]
    | ok t =>
      refine .inr ⟨t, r', { m' with captureGroupSets := m'.captureGroupSets.set r' t }, rfl, ?_,
        hr', ?_, ?_, ?_, hg, ha⟩
      · simp only [modifySet, hm, bind, Except.bind, hs, ht]
        rfl
      · constructor
        case length_le => simpa only [List.length_set] using hc'.length_le
        case count_eq => exact hc'.count_set ((hk s t ht).trans hcount) fun _ _ => rfl
        case mem_lt => simpa only [List.length_set] using hc'.mem_lt
        case inUse => exact hc'.inUse
      · rw [getElem?_contents, List.getElem?_set_self (hc'.mem_lt r' List.mem_cons_self)]
        rfl
      · intro slot hslot
        have hne : r' ≠ slot := fun heq => hr' (heq ▸ hslot)
        rw [← hothers slot hslot, getElem?_contents, getElem?_contents, List.getElem?_set_ne hne]

theorem createGroupSet_counted (h : Counted m holders) (hl : m.captureGroupSets.length < 65535)
    (hg : 0 < m.groupCount) (position : Nat) :
    ∃ r m', m.createGroupSet position = .ok (r, m') ∧ r ∉ holders ∧ Counted m' (r :: holders) ∧
      m'.contents[r]? = some ((List.replicate m.groupCount {}).set 0
        { beginPosition := position }, 0) ∧
      (∀ slot ∈ holders, m'.contents[slot]? = m.contents[slot]?) ∧
      m'.groupCount = m.groupCount ∧ m'.hasAtomicGroups = m.hasAtomicGroups := by
  have hb : CaptureGroupSet.setBegin 0 position { ranges := List.replicate m.groupCount {} } =
      .ok { ranges := (List.replicate m.groupCount {}).set 0 { beginPosition := position } } := by
    simp only [CaptureGroupSet.setBegin, List.getElem?_replicate, if_pos hg]
  obtain ⟨r, m', ha, hr, hc, hset, hothers, hg', hat⟩ := addSet_counted h hl
    { ranges := (List.replicate m.groupCount {}).set 0 { beginPosition := position } }
  refine ⟨r, m', ?_, hr, hc, ?_, fun slot hslot => ?_, hg', hat⟩
  · simp only [createGroupSet, hb, bind, Except.bind, ha]
    rfl
  · rw [getElem?_contents, hset]
    rfl
  · exact hothers slot (h.mem_lt slot hslot) fun heq => hr (heq ▸ hslot)

end

end CaptureGroupManager

end ErbslandCore.Re
