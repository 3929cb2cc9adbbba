import ErbslandCore.Re.CaptureReferences

namespace ErbslandCore.Re
open Library
set_option autoImplicit true

/-- A result with a postcondition, or any error. -/
abbrev Yields (x : Except MatchError α) (post : α → Prop) : Prop := Ensures x post fun _ => True

theorem Yields.intro {x : Except MatchError α} (h : ∀ a, x = .ok a → post a) : Yields x post := by
  cases x with
  | ok a => exact h a rfl
  | error e => trivial

/-- A range starts between two positions and ends behind its start, if it ends at all. -/
structure PlacedRange (low high : Nat) (range : CaptureRange) : Prop where
  low_le : low ≤ range.beginPosition
  le_high : range.beginPosition ≤ high
  order : range.endPosition = 0 ∨ range.beginPosition ≤ range.endPosition
  end_le : range.endPosition ≤ high

/-- The range of the whole match in a set. -/
def PlacedSet (low high : Nat) (set : CaptureGroupSet) : Prop :=
  ∀ range ∈ set.ranges.head?, PlacedRange low high range

theorem PlacedRange.mono (h : PlacedRange low high range) (hle : high ≤ high') :
    PlacedRange low high' range :=
  ⟨h.low_le, h.le_high.trans hle, h.order, h.end_le.trans hle⟩

namespace CaptureGroupManager
variable {low high : Nat} {m m' : CaptureGroupManager} {set : CaptureGroupSet}
  {modify : CaptureGroupSet → Except RegExError CaptureGroupSet}

/-- The ranges of the whole matches in all slots, also in those without references. -/
def SetsPlaced (low high : Nat) (m : CaptureGroupManager) : Prop :=
  ∀ set ∈ m.captureGroupSets, PlacedSet low high set

theorem SetsPlaced.mono (h : SetsPlaced low high m) (hle : high ≤ high') :
    SetsPlaced low high' m := by
  intro set hset range hrange
  exact (h set hset range hrange).mono hle

theorem setsPlaced_set (h : SetsPlaced low high m) (hset : PlacedSet low high set) :
    ∀ set' ∈ m.captureGroupSets.set slot set, PlacedSet low high set' := by
  intro set' hmem
  rcases List.mem_or_eq_of_mem_set hmem with hmem | rfl
  · exact h set' hmem
  · exact hset

theorem addSet_placed (h : SetsPlaced low high m) (hset : PlacedSet low high set)
    (hm : m.addSet set = (reference, m')) : SetsPlaced low high m' := by
  rw [addSet] at hm
  split_ifs at hm
  · cases hm
    exact setsPlaced_set h hset
  · cases hm
    intro set' hmem
    rcases List.mem_append.mp hmem with hmem | hmem
    · exact h set' hmem
    · rw [List.mem_singleton.mp hmem]
      exact hset

theorem getElem?_placed {slot : Nat} (h : SetsPlaced low high m)
    (hslot : m.captureGroupSets[slot]? = some set) : PlacedSet low high set :=
  h set (List.mem_of_getElem? hslot)

theorem release_placed (h : SetsPlaced low high m) (hm : m.release reference = .ok m') :
    SetsPlaced low high m' := by
  rw [release] at hm
  split_ifs at hm with hnone
  · cases hm
    exact h
  · split at hm
    · cases hm
    · rename_i set hslot
      split_ifs at hm with hcount
      rw [CaptureGroupSet.decreaseReferenceCount, if_pos hcount, ok_bind] at hm
      cases hm
      have hplaced := getElem?_placed h hslot
      exact setsPlaced_set h hplaced

theorem allocate_placed (h : SetsPlaced low high m) (hm : m.allocate reference = .ok m') :
    SetsPlaced low high m' := by
  rw [allocate] at hm
  split_ifs at hm with hnone
  · cases hm
    exact h
  · split at hm
    · cases hm
    · rename_i set hslot
      obtain ⟨set', hset', hm⟩ := bind_eq_ok hm
      rw [CaptureGroupSet.increaseReferenceCount] at hset'
      split_ifs at hset' with hcount
      cases hset'
      cases hm
      have hplaced := getElem?_placed h hslot
      exact setsPlaced_set h hplaced

theorem createGroupSet_placed (h : SetsPlaced low high m)
    (hm : m.createGroupSet position = .ok (reference, m')) (hlow : low ≤ position)
    (hhigh : position ≤ high) : SetsPlaced low high m' := by
  obtain ⟨set, hset, hm⟩ := bind_eq_ok hm
  have hplaced : PlacedSet low high set := by
    rw [CaptureGroupSet.setBegin] at hset
    split at hset
    · rename_i range hrange
      cases hset
      obtain ⟨count, hcount⟩ : ∃ count, m.groupCount = count + 1 := by
        cases hcount : m.groupCount with
        | zero =>
          rw [hcount] at hrange
          cases hrange
        | succ count => exact ⟨count, rfl⟩
      rw [hcount] at hrange
      cases hrange
      rw [PlacedSet, hcount, List.replicate_succ, List.set_cons_zero, List.head?_cons]
      rintro range ⟨⟩
      exact ⟨hlow, hhigh, .inl rfl, Nat.zero_le high⟩
    · cases hset
  exact addSet_placed h hplaced (Except.ok.inj hm)

/-- A modification that leaves the range of the whole match in its place. -/
def KeepsPlace (low high : Nat) (modify : CaptureGroupSet → Except RegExError CaptureGroupSet) :
    Prop := ∀ set set', modify set = .ok set' → PlacedSet low high set → PlacedSet low high set'

theorem modifySet_placed (h : SetsPlaced low high m) (hk : KeepsPlace low high modify)
    (hm : m.modifySet modify reference = .ok (reference', m')) : SetsPlaced low high m' := by
  obtain ⟨⟨slot, m₁⟩, hslot, hm⟩ := bind_eq_ok hm
  have h₁ : SetsPlaced low high m₁ := by
    rw [setForModification] at hslot
    split at hslot
    · cases hslot
    · rename_i set hset
      split_ifs at hslot with hcount hone
      · cases hslot
        exact h
      · rw [CaptureGroupSet.decreaseReferenceCount, if_pos hcount, ok_bind] at hslot
        have hplaced := getElem?_placed h hset
        refine addSet_placed ?_ ?_ (Except.ok.inj hslot)
        · exact setsPlaced_set h hplaced
        · exact hplaced
  simp only at hm
  split at hm
  · cases hm
  · rename_i set hset
    obtain ⟨set', hmodify, hm⟩ := bind_eq_ok hm
    cases hm
    exact setsPlaced_set h₁ (hk set set' hmodify (getElem?_placed h₁ hset))

theorem keepsPlace_setBegin : KeepsPlace low high (CaptureGroupSet.setBegin (group + 1) position) := by
  intro set set' hset h
  rw [CaptureGroupSet.setBegin] at hset
  split at hset
  · cases hset
    intro range hrange
    rw [List.head?_eq_getElem?, List.getElem?_set_ne (Nat.succ_ne_zero group),
      ← List.head?_eq_getElem?] at hrange
    exact h range hrange
  · cases hset

theorem keepsPlace_setEnd : KeepsPlace low high (CaptureGroupSet.setEnd (group + 1) position) := by
  intro set set' hset h
  rw [CaptureGroupSet.setEnd] at hset
  split at hset
  · cases hset
    intro range hrange
    rw [List.head?_eq_getElem?, List.getElem?_set_ne (Nat.succ_ne_zero group),
      ← List.head?_eq_getElem?] at hrange
    exact h range hrange
  · cases hset

/-- The whole match ends at the highest position. -/
theorem keepsPlace_setEnd_match : KeepsPlace low high (CaptureGroupSet.setEnd 0 high) := by
  intro set set' hset h
  rw [CaptureGroupSet.setEnd] at hset
  split at hset
  · rename_i range hrange
    cases hset
    have hplaced := h range (List.head?_eq_getElem?.trans hrange)
    intro range' hrange'
    have hlt := (List.getElem?_eq_some_iff.mp hrange).1
    rw [List.head?_eq_getElem?, List.getElem?_set_self hlt] at hrange'
    cases hrange'
    exact ⟨hplaced.low_le, hplaced.le_high, .inr hplaced.le_high, Nat.le_refl high⟩
  · cases hset

theorem keepsPlace_setAtomicGroupBit :
    KeepsPlace low high (CaptureGroupSet.setAtomicGroupBit atomicGroupId) := by
  intro set set' hset h
  cases hset
  exact h

end CaptureGroupManager

/-- The threads that the engine still works on, and those it worked on in the current state. -/
def engineThreads (s : EngineState) : List EngineThread :=
  s.work.threads ++ (s.current.threads ++ s.next.threads)

/-- All ranges of whole matches lie between a position and the position of the next character. -/
structure Placed (low : Nat) (s : EngineState) : Prop where
  sets : ∀ m, s.captureGroupManager = some m → m.SetsPlaced low s.next.position
  threads : s.captureGroupManager = none → ∀ t ∈ engineThreads s,
    low ≤ t.matchStart ∧ t.matchStart ≤ s.next.position
  direct : s.captureGroupManager = none → s.hasDirectMatch = true →
    low ≤ s.bestMatchStart ∧ s.bestMatchStart ≤ s.bestMatchEnd ∧ s.bestMatchEnd ≤ s.next.position

/-- The fields that no operation on threads touches. -/
structure SameCharacters (s s' : EngineState) : Prop where
  input : s'.input = s.input
  character : s'.next.character = s.next.character
  next : s'.next.position = s.next.position
  current : s'.current.position = s.current.position
  flags : s'.flags = s.flags
  watchdog : s'.watchdog = s.watchdog
  threads_le : s'.current.threads.length ≤ s.current.threads.length

theorem SameCharacters.refl (s : EngineState) : SameCharacters s s :=
  ⟨rfl, rfl, rfl, rfl, rfl, rfl, Nat.le_refl _⟩

theorem SameCharacters.trans (h₁ : SameCharacters s s₁) (h₂ : SameCharacters s₁ s₂) :
    SameCharacters s s₂ where
  input := h₂.input.trans h₁.input
  character := h₂.character.trans h₁.character
  next := h₂.next.trans h₁.next
  current := h₂.current.trans h₁.current
  flags := h₂.flags.trans h₁.flags
  watchdog := h₂.watchdog.trans h₁.watchdog
  threads_le := h₂.threads_le.trans h₁.threads_le

/-- The state after an operation on threads. -/
structure Continues (low : Nat) (s s' : EngineState) : Prop where
  same : SameCharacters s s'
  placed : Placed low s'

theorem Continues.trans (h₁ : Continues low s s₁) (h₂ : Continues low s₁ s₂) :
    Continues low s s₂ := ⟨h₁.same.trans h₂.same, h₂.placed⟩

theorem mem_engineThreads : t ∈ engineThreads s ↔
    t ∈ s.work.threads ∨ t ∈ s.current.threads ∨ t ∈ s.next.threads := by
  rw [engineThreads, List.mem_append, List.mem_append]

/-- A state with fewer threads. -/
theorem Placed.of_threads (h : Placed low s) (hmanager : s'.captureGroupManager = s.captureGroupManager)
    (hnext : s'.next.position = s.next.position)
    (hthreads : s.captureGroupManager = none → ∀ t ∈ engineThreads s',
      low ≤ t.matchStart ∧ t.matchStart ≤ s.next.position)
    (hdirect : s'.hasDirectMatch = s.hasDirectMatch) (hstart : s'.bestMatchStart = s.bestMatchStart)
    (hend : s'.bestMatchEnd = s.bestMatchEnd) : Placed low s' where
  sets := by
    rw [hmanager, hnext]
    exact h.sets
  threads := by
    rw [hmanager, hnext]
    exact hthreads
  direct := by
    rw [hmanager, hnext, hdirect, hstart, hend]
    exact h.direct

theorem EngineWork.mem_threads {work : EngineWork} : t ∈ work.threads ↔
    work.hasCurrentWork = true ∧ t = work.currentWork ∨ t ∈ work.workList := by
  rw [EngineWork.threads]
  split_ifs with hw
  · rw [List.mem_cons, and_iff_right hw]
  · exact (or_iff_right fun h => hw h.1).symm

theorem threads_popWork_subset (work : EngineWork) : work.popWork.threads ⊆ work.threads := by
  obtain ⟨currentWork, workList, hasCurrentWork⟩ := work
  cases workList with
  | nil =>
    intro t ht
    cases ht
  | cons thread rest =>
    cases hasCurrentWork with
    | true => exact List.subset_cons_self _ _
    | false => exact List.subset_cons_self _ _

theorem Placed.popWork (h : Placed low s) : Continues low s { s with work := s.work.popWork } where
  same := ⟨rfl, rfl, rfl, rfl, rfl, rfl, Nat.le_refl _⟩
  placed := by
    refine h.of_threads rfl rfl (fun hnone t ht => h.threads hnone t ?_) rfl rfl rfl
    rw [mem_engineThreads] at ht ⊢
    exact ht.imp_left fun ht => threads_popWork_subset s.work ht

namespace EngineState
variable {s : EngineState}

theorem withManager_placed (h : Placed low s)
    {update : CaptureGroupManager → Except RegExError CaptureGroupManager}
    (hupdate : ∀ m m', update m = .ok m' → m.SetsPlaced low s.next.position →
      m'.SetsPlaced low s.next.position) :
    Yields (s.withManager update) fun s' =>
      ∃ manager, manager.isSome = s.captureGroupManager.isSome ∧
        s' = { s with captureGroupManager := manager } ∧ Continues low s s' := by
  apply Yields.intro
  intro s' hs
  rw [withManager] at hs
  split at hs
  · cases hs
    exact ⟨s.captureGroupManager, rfl, rfl, .refl s, h⟩
  · rename_i m hm
    obtain ⟨m', hm', hs⟩ := bind_eq_ok hs
    cases hs
    refine ⟨some m', hm ▸ rfl, rfl, ⟨rfl, rfl, rfl, rfl, rfl, rfl, Nat.le_refl _⟩, ?_,
      by rintro ⟨⟩, by rintro ⟨⟩⟩
    rintro _ ⟨⟩
    exact hupdate m m' (fromRegEx_eq_ok hm') (h.sets m hm)

theorem endWorkWithoutMatch_placed (h : Placed low s) (work : EngineThread) :
    Yields (s.endWorkWithoutMatch work) (Continues low s) := by
  refine (withManager_placed h fun m m' hm hs => CaptureGroupManager.release_placed hs hm).bind ?_
  rintro s' ⟨manager, -, rfl, hs'⟩
  exact .ok (hs'.trans hs'.placed.popWork)

theorem endThreadWithoutMatch_placed (h : Placed low s) (thread : EngineThread) :
    Yields (s.endThreadWithoutMatch thread) (Continues low s) := by
  refine (withManager_placed h fun m m' hm hs => CaptureGroupManager.release_placed hs hm).mono ?_
  rintro s' ⟨manager, -, -, hs'⟩
  exact hs'

theorem cloneThread_placed (h : Placed low s) (thread : EngineThread) :
    Yields (s.cloneThread thread) fun s' =>
      ∃ manager, manager.isSome = s.captureGroupManager.isSome ∧
        s' = { s with captureGroupManager := manager } ∧ Continues low s s' :=
  withManager_placed h fun _ _ hm hs => CaptureGroupManager.allocate_placed hs hm

/-- A recorded match ends at the position of the next character. -/
theorem endThreadWithMatch_placed (h : Placed low s)
    (hthread : s.captureGroupManager = none →
      low ≤ thread.matchStart ∧ thread.matchStart ≤ s.next.position) (threadIndex : Nat) :
    Yields (s.endThreadWithMatch thread threadIndex) fun s' => Continues low s s' := by
  apply Yields.intro
  intro s' hs
  rw [endThreadWithMatch] at hs
  split at hs
  · rename_i hnone
    split_ifs at hs
    · cases hs
      obtain ⟨hlow, hhigh⟩ := hthread hnone
      refine ⟨⟨rfl, rfl, rfl, rfl, rfl, rfl, Nat.le_refl _⟩, h.sets, h.threads, fun _ _ => ?_⟩
      exact ⟨hlow, hhigh, Nat.le_refl _⟩
    · cases hs
      exact ⟨.refl s, h⟩
  · rename_i m hm
    replace hs := fromRegEx_eq_ok hs
    have hplaced := h.sets m hm
    split_ifs at hs
    · obtain ⟨⟨reference, m₁⟩, hm₁, hs⟩ := bind_eq_ok hs
      obtain ⟨m₂, hm₂, hs⟩ := bind_eq_ok hs
      obtain ⟨m₃, hm₃, hs⟩ := bind_eq_ok hs
      obtain ⟨m₄, hm₄, hs⟩ := bind_eq_ok hs
      cases hs
      have h₁ := CaptureGroupManager.modifySet_placed hplaced
        CaptureGroupManager.keepsPlace_setEnd_match hm₁
      have h₂ := CaptureGroupManager.release_placed h₁ hm₂
      have h₃ := CaptureGroupManager.allocate_placed h₂ hm₃
      have h₄ := CaptureGroupManager.release_placed h₃ hm₄
      refine ⟨⟨rfl, rfl, rfl, rfl, rfl, rfl, Nat.le_refl _⟩, ?_, nofun, nofun⟩
      rintro _ ⟨⟩
      exact h₄
    · obtain ⟨m₁, hm₁, hs⟩ := bind_eq_ok hs
      cases hs
      have h₁ := CaptureGroupManager.release_placed hplaced hm₁
      refine ⟨⟨rfl, rfl, rfl, rfl, rfl, rfl, Nat.le_refl _⟩, ?_, nofun, nofun⟩
      rintro _ ⟨⟩
      exact h₁

theorem addNextThread_placed (h : Placed low s)
    (hthread : s.captureGroupManager = none →
      low ≤ thread.matchStart ∧ thread.matchStart ≤ s.next.position) (caseInsensitive : Bool) :
    Yields (s.addNextThread thread caseInsensitive) (Continues low s) := by
  rw [addNextThread]
  refine .ite (fun _ => ?_) fun _ => .ite (fun _ => .error trivial) fun _ => .ok ?_
  · refine (withManager_placed h fun m m' hm hs => CaptureGroupManager.release_placed hs hm).mono ?_
    rintro s' ⟨manager, -, -, hs'⟩
    exact hs'
  · refine ⟨⟨rfl, rfl, rfl, rfl, rfl, rfl, Nat.le_refl _⟩, ?_⟩
    refine h.of_threads rfl rfl (fun hnone t ht => ?_) rfl rfl rfl
    rw [mem_engineThreads] at ht
    rcases ht with ht | ht | ht
    · exact h.threads hnone t (mem_engineThreads.mpr (.inl ht))
    · exact h.threads hnone t (mem_engineThreads.mpr (.inr (.inl ht)))
    · rcases List.mem_append.mp ht with ht | ht
      · exact h.threads hnone t (mem_engineThreads.mpr (.inr (.inr ht)))
      · rw [List.mem_singleton.mp ht]
        exact hthread hnone

theorem releaseThreads_placed {threads : List EngineThread} {m m' : CaptureGroupManager}
    (hm : releaseThreads m threads = .ok m') (h : m.SetsPlaced low high) :
    m'.SetsPlaced low high := by
  rw [releaseThreads] at hm
  induction threads generalizing m with
  | nil =>
    cases hm
    exact h
  | cons thread threads ih =>
    rw [List.foldlM_cons] at hm
    obtain ⟨m₁, hm₁, hm⟩ := bind_eq_ok hm
    exact ih hm (CaptureGroupManager.release_placed h hm₁)

theorem pruneWork_placed (h : Placed low s) (references : List Nat) :
    Yields (s.pruneWork references) (Continues low s) := by
  refine (withManager_placed h fun m m' hm hs => releaseThreads_placed hm hs).bind ?_
  rintro s' ⟨manager, -, rfl, hs'⟩
  refine .ok (hs'.trans ⟨⟨rfl, rfl, rfl, rfl, rfl, rfl, Nat.le_refl _⟩, ?_⟩)
  refine hs'.placed.of_threads rfl rfl (fun hnone t ht => hs'.placed.threads hnone t ?_) rfl rfl rfl
  rw [mem_engineThreads] at ht ⊢
  refine ht.imp_left fun ht => ?_
  rw [EngineWork.mem_threads] at ht ⊢
  exact ht.imp_right List.mem_of_mem_filter

theorem pruneCurrentList_placed (h : Placed low s) (references : List Nat) (threadIndex : Nat) :
    Yields (s.pruneCurrentList references threadIndex) (Continues low s) := by
  refine (withManager_placed h fun m m' hm hs => releaseThreads_placed hm hs).bind ?_
  rintro s' ⟨manager, -, rfl, hs'⟩
  refine .ok (hs'.trans ⟨⟨rfl, rfl, rfl, rfl, rfl, rfl, ?_⟩, ?_⟩)
  · have hle := List.length_filter_le (fun thread : EngineThread =>
      !references.contains thread.captureGroupSet) (s.current.threads.drop (threadIndex + 1))
    have hsum : (s.current.threads.take (threadIndex + 1)).length +
        (s.current.threads.drop (threadIndex + 1)).length = s.current.threads.length := by
      rw [← List.length_append, List.take_append_drop]
    simp only [List.length_append]
    omega
  · refine hs'.placed.of_threads rfl rfl (fun hnone t ht => hs'.placed.threads hnone t ?_) rfl rfl rfl
    rw [mem_engineThreads] at ht ⊢
    refine ht.imp_right fun ht => ht.imp_left fun ht => ?_
    rcases List.mem_append.mp ht with ht | ht
    · exact List.mem_of_mem_take ht
    · exact List.mem_of_mem_drop (List.mem_of_mem_filter ht)

end EngineState

/-- The start of a thread, where threads store it themselves. -/
def PlacedThread (low : Nat) (s : EngineState) (thread : EngineThread) : Prop :=
  s.captureGroupManager = none → low ≤ thread.matchStart ∧ thread.matchStart ≤ s.next.position

theorem Placed.currentWork (h : Placed low s) (hw : s.work.hasCurrentWork = true) :
    PlacedThread low s s.work.currentWork := by
  intro hnone
  refine h.threads hnone _ (mem_engineThreads.mpr (.inl ?_))
  rw [EngineWork.threads_of_current _ hw]
  exact List.mem_cons_self

namespace Engine
variable {s : EngineState} {engine : Engine}

theorem withWork_placed (h : Placed low s) (hthread : PlacedThread low s thread) :
    Continues low s (withWork s thread) where
  same := ⟨rfl, rfl, rfl, rfl, rfl, rfl, Nat.le_refl _⟩
  placed := by
    refine h.of_threads rfl rfl (fun hnone t ht => ?_) rfl rfl rfl
    rw [mem_engineThreads] at ht
    rcases ht with ht | ht
    · rcases EngineWork.mem_threads.mp ht with ⟨-, rfl⟩ | ht
      · exact hthread hnone
      · exact h.threads hnone t (mem_engineThreads.mpr (.inl (EngineWork.mem_threads.mpr (.inr ht))))
    · exact h.threads hnone t (mem_engineThreads.mpr (.inr ht))

theorem modifyCaptures_placed (h : Placed low s)
    {modify : CaptureGroupManager → Nat → Except RegExError (Nat × CaptureGroupManager)}
    (hmodify : ∀ m reference reference' m', modify m reference = .ok (reference', m') →
      m.SetsPlaced low s.next.position → m'.SetsPlaced low s.next.position) :
    Yields (modifyCaptures s thread modify) (Continues low s) := by
  apply Yields.intro
  intro s' hs
  rw [modifyCaptures] at hs
  split at hs
  · cases hs
  · rename_i m hm
    obtain ⟨⟨reference, m'⟩, hm', hs⟩ := bind_eq_ok hs
    cases hs
    refine ⟨⟨rfl, rfl, rfl, rfl, rfl, rfl, Nat.le_refl _⟩, ?_, nofun, nofun⟩
    rintro _ ⟨⟩
    exact hmodify m _ _ _ (fromRegEx_eq_ok hm') (h.sets m hm)

theorem capture_placed (h : Placed low s) (isStart : Bool) (captureGroup : Nat) :
    Yields (modifyCaptures s thread fun manager reference =>
        if isStart then manager.startCapture reference (captureGroup + 1) s.next.position
        else manager.stopCapture reference (captureGroup + 1) s.next.position)
      (Continues low s) := by
  refine modifyCaptures_placed h fun m reference reference' m' hm hplaced => ?_
  cases isStart with
  | true =>
    exact CaptureGroupManager.modifySet_placed hplaced CaptureGroupManager.keepsPlace_setBegin hm
  | false =>
    exact CaptureGroupManager.modifySet_placed hplaced CaptureGroupManager.keepsPlace_setEnd hm

theorem startAtomic_placed (h : Placed low s) (atomicGroupId : Nat) :
    Yields (modifyCaptures s thread fun manager reference =>
      manager.markThreadWithAtomicGroupId reference atomicGroupId) (Continues low s) := by
  refine modifyCaptures_placed h fun m reference reference' m' hm hplaced => ?_
  rw [CaptureGroupManager.markThreadWithAtomicGroupId] at hm
  split_ifs at hm
  exact CaptureGroupManager.modifySet_placed hplaced
    CaptureGroupManager.keepsPlace_setAtomicGroupBit hm

theorem stopAtomic_placed (h : Placed low s) (hthread : PlacedThread low s thread)
    (threadIndex atomicGroupId : Nat) :
    Yields (stopAtomicEffect s thread threadIndex atomicGroupId) (Continues low s) := by
  rw [stopAtomicEffect]
  split
  · exact .error trivial
  · refine Ensures.bind (m := fun _ => True) (Yields.intro fun _ _ => trivial) fun references _ => ?_
    have hwork : PlacedThread low s { thread with programCounter := thread.programCounter + 1 } :=
      hthread
    have h₁ := withWork_placed h hwork
    refine (EngineState.pruneWork_placed h₁.placed references).bind fun s₂ h₂ => ?_
    refine (EngineState.pruneCurrentList_placed h₂.placed references threadIndex).mono fun s₃ h₃ => ?_
    exact h₁.trans (h₂.trans h₃)

theorem handleMatchOperation_placed (h : Placed low s) (hthread : PlacedThread low s thread)
    (threadIndex : Nat) (hasMatch : Bool) :
    Yields (handleMatchOperation s thread threadIndex hasMatch) fun r => Continues low s r.1 := by
  rw [handleMatchOperation]
  refine .ite (fun _ => ?_) fun _ => ?_
  · exact (EngineState.endWorkWithoutMatch_placed h thread).bind fun s' hs' => .ok hs'
  · refine (EngineState.endThreadWithMatch_placed h hthread threadIndex).bind fun s' hs' => .ok ?_
    exact hs'.trans hs'.placed.popWork

theorem requestEnd_placed (h : Continues low s s') :
    Continues low s { s' with endRequested := true } where
  same := ⟨h.same.input, h.same.character, h.same.next, h.same.current, h.same.flags,
    h.same.watchdog, h.same.threads_le⟩
  placed := ⟨h.placed.sets, h.placed.threads, h.placed.direct⟩

/-- Every effect keeps the ranges of the whole matches in their places. -/
theorem applyEffect_placed {effect : FlowEffect} (h : Placed low s)
    (hthread : PlacedThread low s thread) (heffect : SameCaptures thread effect) :
    Yields (engine.applyEffect s thread threadIndex effect) fun r => Continues low s r.1 := by
  have ended := EngineState.endWorkWithoutMatch_placed h thread
  cases effect with
  | advance t =>
    have ht : PlacedThread low s t := by
      intro hnone
      rw [heffect.2]
      exact hthread hnone
    exact .ok (withWork_placed h ht)
  | split t b =>
    have ht : PlacedThread low s t := by
      intro hnone
      rw [heffect.2]
      exact hthread hnone
    have h₁ := withWork_placed h ht
    refine .map ((EngineState.cloneThread_placed h₁.placed t).bind fun s₂ hs₂ => ?_)
    obtain ⟨manager, hmanager, rfl, h₂⟩ := hs₂
    refine Ensures.bind (m := fun _ => True) (Yields.intro fun _ _ => trivial) fun _ _ => .ok ?_
    refine (h₁.trans h₂).trans ⟨⟨rfl, rfl, rfl, rfl, rfl, rfl, Nat.le_refl _⟩, ?_⟩
    refine h₂.placed.of_threads rfl rfl (fun hnone t' ht' => ?_) rfl rfl rfl
    have hbefore : s.captureGroupManager = none := by
      apply Option.not_isSome_iff_eq_none.mp
      intro hsome
      obtain rfl : manager = none := hnone
      exact absurd (hmanager.trans hsome) nofun
    rcases mem_engineThreads.mp ht' with hwork | hother
    · rcases EngineWork.mem_threads.mp hwork with ⟨-, rfl⟩ | hlist
      · exact ht hbefore
      · rcases List.mem_cons.mp hlist with rfl | hlist
        · exact ht hbefore
        · refine h₂.placed.threads hnone t' (mem_engineThreads.mpr (.inl ?_))
          exact EngineWork.mem_threads.mpr (.inr hlist)
    · exact h₂.placed.threads hnone t' (mem_engineThreads.mpr (.inr hother))
  | stop => exact .map ended
  | «match» => exact handleMatchOperation_placed h hthread threadIndex false
  | success =>
    refine (handleMatchOperation_placed h hthread threadIndex false).bind fun r hr => .ok ?_
    obtain ⟨s', hasMatch⟩ := r
    cases hasMatch with
    | true => exact requestEnd_placed hr
    | false => exact hr
  | failure => exact .map (ended.bind fun s' hs' => .ok (requestEnd_placed hs'))
  | capture isStart group => exact .map (capture_placed h isStart group)
  | startAtomic group => exact .map (startAtomic_placed h group)
  | stopAtomic group => exact .map (stopAtomic_placed h hthread threadIndex group)

end Engine

end ErbslandCore.Re
