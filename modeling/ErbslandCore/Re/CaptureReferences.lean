import ErbslandCore.Re.FlowEffect

namespace ErbslandCore.Re
open Library
set_option autoImplicit true

/-- The errors of the checks that guard the numbers of references. -/
def countFailures : List String :=
  ["release: reference out of bounds",
    "release: referenceCount already zero (double release)",
    "allocate: reference out of bounds",
    "setForModification: reference out of bounds",
    "setForModification: referenceCount is zero",
    "groupSet: reference out of bounds",
    "CaptureGroupSet::increaseReferenceCount: overflow",
    "CaptureGroupSet::decreaseReferenceCount: underflow"]

def IsCountFailure (e : MatchError) : Prop :=
  ∃ message ∈ countFailures, e = .regEx (internalError message)

/-- A result with a postcondition, or an error of another kind. -/
abbrev CountSafe (x : Except MatchError α) (post : α → Prop) : Prop :=
  Ensures x post fun e => ¬ IsCountFailure e

theorem not_isCountFailure_of_category (h : e.category ≠ .internal) :
    ¬ IsCountFailure (.regEx e) := by
  rintro ⟨message, -, heq⟩
  injection heq with heq
  exact h (heq ▸ rfl)

theorem not_isCountFailure_of_message (h : message ∉ countFailures) :
    ¬ IsCountFailure (.regEx (internalError message)) := by
  rintro ⟨other, hmem, heq⟩
  injection heq with heq
  injection heq with _ _ hmessage
  exact h (hmessage ▸ hmem)

theorem not_isCountFailure_encoding : ¬ IsCountFailure (.encoding message) := by
  rintro ⟨_, -, heq⟩
  cases heq

/-- The threads of a flow expansion, from the highest priority on. -/
def EngineWork.threads (work : EngineWork) : List EngineThread :=
  if work.hasCurrentWork then work.currentWork :: work.workList else work.workList

theorem EngineWork.threads_of_current (work : EngineWork) (h : work.hasCurrentWork = true) :
    work.threads = work.currentWork :: work.workList := if_pos h

theorem EngineWork.threads_popWork {work : EngineWork} (h : work.hasCurrentWork = true) :
    work.popWork.threads = work.workList := by
  obtain ⟨currentWork, workList, hasCurrentWork⟩ := work
  simp only at h
  subst h
  cases workList <;> rfl

def references (threads : List EngineThread) : List Nat := threads.map (·.captureGroupSet)

/-- The references that threads and the recorded match hold. -/
def holdersOf (threads : List EngineThread) (bestMatch : Nat) : List Nat :=
  references threads ++ if bestMatch = cNoCaptureGroup then [] else [bestMatch]

/-- The manager counts the holders; without a manager there is nothing to count. -/
def Accounts (manager : Option CaptureGroupManager) (holders : List Nat) : Prop :=
  ∀ m ∈ manager, m.Counted holders ∧ 0 < m.groupCount

/-- Slots are left to store a new set. -/
def SlotsAvailable (manager : Option CaptureGroupManager) : Prop :=
  ∀ m ∈ manager, m.captureGroupSets.length < 65535

def contentAt (manager : Option CaptureGroupManager) (slot : Nat) :
    Option (List CaptureRange × Nat) := manager.bind fun m => m.contents[slot]?

/-- The slots of the holders keep what they store. -/
structure Keeps (before after : Option CaptureGroupManager) (holders : List Nat) : Prop where
  isSome : after.isSome = before.isSome
  content : ∀ slot ∈ holders, contentAt after slot = contentAt before slot

theorem Keeps.refl (manager : Option CaptureGroupManager) (holders : List Nat) :
    Keeps manager manager holders := ⟨rfl, fun _ _ => rfl⟩

theorem Keeps.trans (h₁ : Keeps a b holders) (h₂ : Keeps b c holders) : Keeps a c holders :=
  ⟨h₂.isSome.trans h₁.isSome, fun slot hs =>
    (h₂.content slot hs).trans (h₁.content slot hs)⟩

theorem Keeps.subset (h : Keeps a b holders) (hs : holders' ⊆ holders) : Keeps a b holders' :=
  ⟨h.isSome, fun slot hslot => h.content slot (hs hslot)⟩

theorem Accounts.perm (h : Accounts manager holders) (hp : holders.Perm holders') :
    Accounts manager holders' := fun m hm => ⟨(h m hm).1.perm hp, (h m hm).2⟩

theorem accounts_none : Accounts none holders := nofun

theorem accounts_some {m : CaptureGroupManager} (h : m.Counted holders) (hg : 0 < m.groupCount) :
    Accounts (some m) holders := by
  intro m' hm
  cases hm
  exact ⟨h, hg⟩

theorem keeps_some {m m' : CaptureGroupManager}
    (h : ∀ slot ∈ holders, m'.contents[slot]? = m.contents[slot]?) :
    Keeps (some m) (some m') holders := ⟨rfl, h⟩

/-- The capture ranges of a thread. -/
def threadCaptures (manager : Option CaptureGroupManager) (thread : EngineThread) :
    Option (List CaptureRange) :=
  match manager with
  | none => some [{ beginPosition := thread.matchStart }]
  | some _ => (contentAt manager thread.captureGroupSet).map Prod.fst

/-- The capture ranges of the recorded match. -/
def bestCaptures (s : EngineState) : Option (List CaptureRange) :=
  match s.captureGroupManager with
  | none => if s.hasDirectMatch then some [⟨s.bestMatchStart, s.bestMatchEnd⟩] else none
  | some _ =>
    if s.bestMatch = cNoCaptureGroup then none
    else (contentAt s.captureGroupManager s.bestMatch).map Prod.fst

/-- The end of a capture group in a list of ranges. -/
def closeRange (captureGroup position : Nat) (ranges : List CaptureRange) : List CaptureRange :=
  ranges.modify captureGroup fun range => { range with endPosition := position }

def openRange (captureGroup position : Nat) (ranges : List CaptureRange) : List CaptureRange :=
  ranges.modify captureGroup fun range => { range with beginPosition := position }

theorem ranges_setEnd (h : CaptureGroupSet.setEnd group position s = .ok t) :
    t.ranges = closeRange group position s.ranges ∧ group < s.ranges.length := by
  unfold CaptureGroupSet.setEnd at h
  split at h
  case h_1 range hr =>
    cases h
    refine ⟨?_, (List.getElem?_eq_some_iff.1 hr).1⟩
    rw [closeRange, List.modify_eq_set, hr]
    rfl
  case h_2 => cases h

theorem ranges_setBegin (h : CaptureGroupSet.setBegin group position s = .ok t) :
    t.ranges = openRange group position s.ranges ∧ group < s.ranges.length := by
  unfold CaptureGroupSet.setBegin at h
  split at h
  case h_1 range hr =>
    cases h
    refine ⟨?_, (List.getElem?_eq_some_iff.1 hr).1⟩
    rw [openRange, List.modify_eq_set, hr]
    rfl
  case h_2 => cases h

theorem not_isCountFailure_setEnd (h : CaptureGroupSet.setEnd group position s = .error e) :
    ¬ IsCountFailure (.regEx e) := by
  unfold CaptureGroupSet.setEnd at h
  split at h
  case h_1 => cases h
  case h_2 => cases h; exact not_isCountFailure_of_message (by decide)

theorem not_isCountFailure_setBegin (h : CaptureGroupSet.setBegin group position s = .error e) :
    ¬ IsCountFailure (.regEx e) := by
  unfold CaptureGroupSet.setBegin at h
  split at h
  case h_1 => cases h
  case h_2 => cases h; exact not_isCountFailure_of_message (by decide)

namespace EngineState
variable {s : EngineState} {t : EngineThread} {holders holders' : List Nat}

theorem withManager_none (hm : s.captureGroupManager = none)
    (update : CaptureGroupManager → Except RegExError CaptureGroupManager) :
    s.withManager update = .ok { s with captureGroupManager := none } := by
  obtain ⟨flags, input, manager⟩ := s
  cases hm
  rfl

/-- An update that changes only numbers of references. -/
theorem withManager_accounts
    {update : CaptureGroupManager → Except RegExError CaptureGroupManager}
    (h : Accounts s.captureGroupManager holders)
    (hu : ∀ m : CaptureGroupManager, m.Counted holders → ∃ m', update m = .ok m' ∧
      m'.Counted holders' ∧ m'.contents = m.contents ∧ m'.groupCount = m.groupCount) :
    ∃ manager, s.withManager update = .ok { s with captureGroupManager := manager } ∧
      Accounts manager holders' ∧ ∀ slots, Keeps s.captureGroupManager manager slots := by
  cases hm : s.captureGroupManager with
  | none => exact ⟨none, withManager_none hm update, accounts_none, fun _ => .refl _ _⟩
  | some m =>
    obtain ⟨hc, hg⟩ := h m hm
    obtain ⟨m', heq, hc', hcontents, hg'⟩ := hu m hc
    refine ⟨some m', ?_, accounts_some hc' (hg' ▸ hg), fun slots =>
      keeps_some fun slot _ => by rw [hcontents]⟩
    simp only [withManager, hm, heq]
    rfl

theorem withManager_release (h : Accounts s.captureGroupManager (r :: holders)) :
    ∃ manager, s.withManager (·.release r) = .ok { s with captureGroupManager := manager } ∧
      Accounts manager holders ∧ ∀ slots, Keeps s.captureGroupManager manager slots := by
  refine withManager_accounts h fun m hc => ?_
  obtain ⟨m', heq, hc', hcontents, hg, -⟩ := CaptureGroupManager.release_counted hc
  exact ⟨m', heq, hc', hcontents, hg⟩

theorem withManager_allocate (h : Accounts s.captureGroupManager holders) (hr : r ∈ holders)
    (hl : holders.length < 2 ^ 32 - 1) :
    ∃ manager, s.withManager (·.allocate r) = .ok { s with captureGroupManager := manager } ∧
      Accounts manager (r :: holders) ∧ ∀ slots, Keeps s.captureGroupManager manager slots := by
  refine withManager_accounts h fun m hc => ?_
  obtain ⟨m', heq, hc', hcontents, hg, -⟩ := CaptureGroupManager.allocate_counted hc hr hl
  exact ⟨m', heq, hc', hcontents, hg⟩

theorem releaseThreads_counted {m : CaptureGroupManager} (threads : List EngineThread)
    (h : m.Counted (references threads ++ holders)) :
    ∃ m', releaseThreads m threads = .ok m' ∧ m'.Counted holders ∧ m'.contents = m.contents ∧
      m'.groupCount = m.groupCount := by
  induction threads generalizing m with
  | nil => exact ⟨m, rfl, h, rfl, rfl⟩
  | cons thread threads ih =>
    obtain ⟨m₁, hr, hc, hcontents, hg, -⟩ := CaptureGroupManager.release_counted h
    obtain ⟨m₂, hr₂, hc₂, hcontents₂, hg₂⟩ := ih hc
    refine ⟨m₂, ?_, hc₂, hcontents₂.trans hcontents, hg₂.trans hg⟩
    rw [releaseThreads, List.foldlM_cons, hr]
    exact hr₂

theorem withManager_releaseThreads (threads : List EngineThread)
    (h : Accounts s.captureGroupManager (references threads ++ holders)) :
    ∃ manager, s.withManager (releaseThreads · threads) =
        .ok { s with captureGroupManager := manager } ∧
      Accounts manager holders ∧ ∀ slots, Keeps s.captureGroupManager manager slots :=
  withManager_accounts h fun _ hc => releaseThreads_counted threads hc

/-- The sets of a new thread start with the position of the whole match. -/
def initialContent (groupCount position : Nat) : List CaptureRange × Nat :=
  ((List.replicate groupCount {}).set 0 { beginPosition := position }, 0)

theorem createNewThread_accounts (h : Accounts s.captureGroupManager holders)
    (hs : SlotsAvailable s.captureGroupManager) (position : Nat) :
    ∃ reference manager, s.createNewThread position = .ok
        ({ captureGroupSet := reference
           matchStart := if s.captureGroupManager.isSome then 0 else position },
          { s with captureGroupManager := manager }) ∧
      Accounts manager (reference :: holders) ∧ Keeps s.captureGroupManager manager holders ∧
      ∀ m ∈ s.captureGroupManager,
        contentAt manager reference = some (initialContent m.groupCount position) := by
  cases hm : s.captureGroupManager with
  | none =>
    refine ⟨cNoCaptureGroup, none, ?_, accounts_none, .refl _ _, nofun⟩
    obtain ⟨flags, input, manager⟩ := s
    cases hm
    rfl
  | some m =>
    obtain ⟨hc, hg⟩ := h m hm
    obtain ⟨r, m', hcreate, -, hc', hnew, hothers, hg', -⟩ :=
      CaptureGroupManager.createGroupSet_counted hc (hs m hm) hg position
    refine ⟨r, some m', ?_, accounts_some hc' (hg' ▸ hg), keeps_some hothers, ?_⟩
    · simp only [createNewThread, hm, hcreate]
      rfl
    · rintro m₁ ⟨⟩
      exact hnew

/-- The fields that the operations on threads do not touch. -/
structure SameRun (s s' : EngineState) : Prop where
  flags : s'.flags = s.flags
  input : s'.input = s.input
  counterCount : s'.counterCount = s.counterCount
  endRequested : s'.endRequested = s.endRequested
  watchdog : s'.watchdog = s.watchdog

/-- The recorded match after a thread ended with a match. -/
structure AfterMatch (threads : List EngineThread) (t : EngineThread) (threadIndex : Nat)
    (s s' : EngineState) : Prop where
  accounts : Accounts s'.captureGroupManager (holdersOf threads s'.bestMatch)
  keeps : Keeps s.captureGroupManager s'.captureGroupManager (holdersOf threads s.bestMatch)
  hasMatch : s'.hasMatch = true
  bestCaptures : bestCaptures s' = if !s.hasMatch ∨ threadIndex ≤ s.bestMatchThreadIndex
    then (threadCaptures s.captureGroupManager t).map (closeRange 0 s.next.position)
    else bestCaptures s
  bestMatchThreadIndex : s'.bestMatchThreadIndex =
    if !s.hasMatch ∨ threadIndex ≤ s.bestMatchThreadIndex then threadIndex
    else s.bestMatchThreadIndex
  sameRun : SameRun s s'
  work : s'.work = s.work
  current : s'.current = s.current
  next : s'.next = s.next

theorem holdersOf_perm (h : best ≠ cNoCaptureGroup) (threads : List EngineThread) :
    (best :: references threads).Perm (holdersOf threads best) := by
  rw [holdersOf, if_neg h, ← List.singleton_append]
  exact List.perm_append_comm

theorem contents_stopCapture {m m' : CaptureGroupManager} {set' : CaptureGroupSet} {r r' : Nat}
    (hset : set'.content ∈ m.contents[r]?)
    (hmodify : CaptureGroupSet.setEnd group position set' = .ok t')
    (hr : m'.contents[r']? = some t'.content) :
    m'.contents[r']? = m.contents[r]?.map (Prod.map (closeRange group position) id) := by
  rw [hr, Option.mem_def.1 hset, Option.map_some, Prod.map, CaptureGroupSet.content,
    (ranges_setEnd hmodify).1]
  unfold CaptureGroupSet.setEnd at hmodify
  split at hmodify
  case h_1 => cases hmodify; rfl
  case h_2 => cases hmodify

/-- Recording a match moves the reference of the thread to the recorded match. -/
theorem recordMatch_counted {m₁ : CaptureGroupManager}
    (h : m₁.Counted (r' :: holdersOf threads best)) (hb : threads.length < 2 ^ 32 - 2) :
    ∃ m₂ m₃ m₄, m₁.release best = .ok m₂ ∧ m₂.allocate r' = .ok m₃ ∧ m₃.release r' = .ok m₄ ∧
      m₄.Counted (holdersOf threads r') ∧ r' ≠ cNoCaptureGroup ∧ m₄.contents = m₁.contents ∧
      m₄.groupCount = m₁.groupCount := by
  have hne : r' ≠ cNoCaptureGroup := h.ne_noCaptureGroup List.mem_cons_self
  obtain ⟨m₂, hrelease, hc₂, hcontents₂, hg₂⟩ : ∃ m₂, m₁.release best = .ok m₂ ∧
      m₂.Counted (r' :: references threads) ∧ m₂.contents = m₁.contents ∧
      m₂.groupCount = m₁.groupCount := by
    by_cases hbest : best = cNoCaptureGroup
    case pos =>
      refine ⟨m₁, if_pos hbest, ?_, rfl, rfl⟩
      rwa [holdersOf, if_pos hbest, List.append_nil] at h
    case neg =>
      have hp : (r' :: holdersOf threads best).Perm (best :: r' :: references threads) :=
        ((holdersOf_perm hbest threads).symm.cons r').trans (List.Perm.swap best r' _)
      obtain ⟨m₂, hrelease, hc₂, hcontents₂, hg₂, -⟩ :=
        CaptureGroupManager.release_counted (h.perm hp)
      exact ⟨m₂, hrelease, hc₂, hcontents₂, hg₂⟩
  obtain ⟨m₃, hallocate, hc₃, hcontents₃, hg₃, -⟩ := CaptureGroupManager.allocate_counted hc₂
    List.mem_cons_self (by simpa only [List.length_cons, references, List.length_map] using by omega)
  obtain ⟨m₄, hrelease₄, hc₄, hcontents₄, hg₄, -⟩ := CaptureGroupManager.release_counted hc₃
  exact ⟨m₂, m₃, m₄, hrelease, hallocate, hrelease₄, hc₄.perm (holdersOf_perm hne threads), hne,
    hcontents₄.trans (hcontents₃.trans hcontents₂), hg₄.trans (hg₃.trans hg₂)⟩

theorem endThreadWithMatch_accounts
    (h : Accounts s.captureGroupManager (t.captureGroupSet :: holdersOf threads s.bestMatch))
    (hs : SlotsAvailable s.captureGroupManager) (hl : threads.length < 2 ^ 32 - 2)
    (threadIndex : Nat) :
    CountSafe (s.endThreadWithMatch t threadIndex) (AfterMatch threads t threadIndex s) := by
  unfold endThreadWithMatch
  split
  case h_1 hm =>
    refine .ite (fun hc => .ok ?_) fun hc => .ok ?_
    · constructor
      case accounts => exact hm ▸ accounts_none
      case keeps => exact .refl _ _
      case hasMatch => simp only [EngineState.hasMatch, hm]
      case bestCaptures =>
        simp only [Re.bestCaptures, hm, if_pos hc]
        rfl
      case bestMatchThreadIndex => exact (if_pos hc).symm
      case sameRun => exact ⟨rfl, rfl, rfl, rfl, rfl⟩
      all_goals rfl
    · constructor
      case accounts => exact hm ▸ accounts_none
      case keeps => exact .refl _ _
      case hasMatch => simpa only [Bool.not_eq_true', Bool.not_eq_false] using (not_or.1 hc).1
      case bestCaptures => exact (if_neg hc).symm
      case bestMatchThreadIndex => exact (if_neg hc).symm
      case sameRun => exact ⟨rfl, rfl, rfl, rfl, rfl⟩
      all_goals rfl
  case h_2 m hm =>
    obtain ⟨hcounted, hg⟩ := h m hm
    by_cases hc : !s.hasMatch ∨ threadIndex ≤ s.bestMatchThreadIndex
    case neg =>
      obtain ⟨m', hrelease, hc', hcontents, hg', -⟩ :=
        CaptureGroupManager.release_counted hcounted
      have hmatch : s.hasMatch = true := by
        simpa only [Bool.not_eq_true', Bool.not_eq_false] using (not_or.1 hc).1
      rw [if_neg hc, hrelease]
      refine .ok ?_
      constructor
      case accounts => exact accounts_some hc' (hg' ▸ hg)
      case keeps => exact hm ▸ keeps_some fun slot _ => by rw [hcontents]
      case hasMatch =>
        simp only [EngineState.hasMatch, hm] at hmatch
        exact hmatch
      case bestCaptures =>
        rw [if_neg hc]
        simp only [Re.bestCaptures, hm, contentAt, Option.bind_some, hcontents]
      case bestMatchThreadIndex => exact (if_neg hc).symm
      case sameRun => exact ⟨rfl, rfl, rfl, rfl, rfl⟩
      all_goals rfl
    case pos =>
      rw [if_pos hc]
      obtain ⟨set', hset, hresult⟩ := CaptureGroupManager.modifySet_counted hcounted (hs m hm)
        (CaptureGroupManager.keepsCount_setEnd :
          CaptureGroupManager.KeepsCount (CaptureGroupSet.setEnd 0 s.next.position))
      rcases hresult with ⟨e, he, hstop⟩ | ⟨t', r', m₁, ht, hstop, hr', hc₁, hnew, hothers, hg₁, -⟩
      · rw [CaptureGroupManager.stopCapture, hstop]
        exact .error (not_isCountFailure_setEnd he)
      · obtain ⟨m₂, m₃, m₄, hrelease, hallocate, hrelease₄, hc₄, hne, hcontents, hg₄⟩ :=
          recordMatch_counted hc₁ hl
        simp only [CaptureGroupManager.stopCapture, hstop, bind, Except.bind, hrelease, hallocate,
          hrelease₄]
        refine .ok ?_
        constructor
        case accounts => exact accounts_some hc₄ (hg₄ ▸ hg₁ ▸ hg)
        case keeps =>
          refine hm ▸ keeps_some fun slot hslot => ?_
          rw [hcontents, hothers slot hslot]
        case hasMatch => simpa only [EngineState.hasMatch, bne_iff_ne] using hne
        case bestCaptures =>
          simp only [Re.bestCaptures, if_neg hne, if_pos hc, threadCaptures, hm, contentAt,
            Option.bind_some, hcontents, contents_stopCapture hset ht hnew, Option.map_map]
          rfl
        case bestMatchThreadIndex => exact (if_pos hc).symm
        case sameRun => exact ⟨rfl, rfl, rfl, rfl, rfl⟩
        all_goals rfl

end EngineState

namespace Engine
variable {engine : Engine} {s : EngineState} {t : EngineThread} {rest : List Nat}

/-- A thread that continues with a modified set has that set for itself. -/
structure AfterModify (modify : CaptureGroupSet → Except RegExError CaptureGroupSet)
    (rest : List Nat) (s : EngineState) (t : EngineThread) (s' : EngineState) : Prop where
  exists_eq : ∃ reference manager, s' = withWork { s with captureGroupManager := manager }
      { t with programCounter := t.programCounter + 1, captureGroupSet := reference } ∧
    Accounts manager (reference :: rest) ∧ Keeps s.captureGroupManager manager rest ∧
    ∃ before after, before.content ∈ contentAt s.captureGroupManager t.captureGroupSet ∧
      modify before = .ok after ∧ contentAt manager reference = some after.content

theorem modifyCaptures_accounts
    {modify : CaptureGroupSet → Except RegExError CaptureGroupSet}
    {update : CaptureGroupManager → Nat → Except RegExError (Nat × CaptureGroupManager)}
    (h : Accounts s.captureGroupManager (t.captureGroupSet :: rest))
    (hs : SlotsAvailable s.captureGroupManager) (hk : CaptureGroupManager.KeepsCount modify)
    (he : ∀ set e, modify set = .error e → ¬ IsCountFailure (.regEx e))
    (hu : ∀ m r, update m r = m.modifySet modify r ∨
      ∃ e, update m r = .error e ∧ ¬ IsCountFailure (.regEx e)) :
    CountSafe (modifyCaptures s t update) (AfterModify modify rest s t) := by
  unfold modifyCaptures
  split
  case h_1 => exact .error (not_isCountFailure_of_message (by decide))
  case h_2 m hm =>
    obtain ⟨hc, hg⟩ := h m hm
    rcases hu m t.captureGroupSet with heq | ⟨e, heq, hne⟩
    case inr =>
      rw [heq]
      exact .error hne
    case inl =>
      obtain ⟨set, hset, hresult⟩ := CaptureGroupManager.modifySet_counted hc (hs m hm) hk
      rcases hresult with ⟨e, hfail, hmodify⟩ | ⟨set', r', m', hok, hmodify, -, hc', hnew, hothers, hg', -⟩
      · rw [heq, hmodify]
        exact .error (he set e hfail)
      · rw [heq, hmodify]
        refine .ok ⟨r', some m', rfl, accounts_some hc' (hg' ▸ hg), hm ▸ keeps_some hothers,
          set, set', ?_, hok, hnew⟩
        rw [hm]
        exact hset

theorem fromRegEx_countSafe {x : Except RegExError α} (h : ∀ e, x = .error e →
    ¬ IsCountFailure (.regEx e)) : CountSafe (fromRegEx x) fun a => x = .ok a := by
  cases x with
  | ok a => exact .ok rfl
  | error e => exact .error (h e rfl)

/-- Decoding fails only outside of the program. -/
theorem readOperands_countSafe (extract : Nat → α) (program : Program) (pc : Nat) :
    CountSafe (fromRegEx (program.readOperands extract pc)) fun _ => True := by
  unfold Program.readOperands Program.readCode
  split
  case h_1 => exact .ok trivial
  case h_2 => exact .error (not_isCountFailure_of_message (by decide))

theorem readSplit_countSafe {program : Program} :
    CountSafe (fromRegEx (program.readSplit pc)) fun _ => True := by
  have read : ∀ extract pc e, program.readOperands (α := Nat) extract pc = .error e →
      ¬ IsCountFailure (.regEx e) := fun extract pc e h => by
    have hsafe := readOperands_countSafe extract program pc
    rw [h] at hsafe
    exact hsafe
  unfold Program.readSplit
  cases ha : program.readOperands Program.extractLowerWord pc with
  | error e => exact .error (read _ _ _ ha)
  | ok a =>
    cases hb : program.readOperands Program.extractLowerWord (pc + 1) with
    | error e =>
      simp only [bind, Except.bind]
      exact .error (read _ _ _ hb)
    | ok b =>
      simp only [bind, Except.bind]
      exact .ok trivial

theorem not_isCountFailure_engineError : ¬ IsCountFailure (engineError description) :=
  not_isCountFailure_of_category nofun

theorem requireProgramCounterInBounds_countSafe :
    CountSafe (engine.requireProgramCounterInBounds pc) fun _ => True :=
  .ite (fun _ => .error not_isCountFailure_engineError) fun _ => .ok trivial

theorem readCounterChecked_countSafe :
    CountSafe (engine.readCounterChecked t) fun _ => True := by
  refine (readOperands_countSafe _ _ _).bind fun c _ => ?_
  refine Ensures.bind (m := fun _ => True) ?_ fun _ _ => .ok trivial
  exact .ite (fun _ => .error not_isCountFailure_engineError) fun _ => .ok trivial

/-- The thread that an effect continues with has the captures of the thread before it. -/
def SameCaptures (t : EngineThread) : FlowEffect → Prop
  | .advance t' => t'.captureGroupSet = t.captureGroupSet ∧ t'.matchStart = t.matchStart
  | .split t' _ => t'.captureGroupSet = t.captureGroupSet ∧ t'.matchStart = t.matchStart
  | _ => True

theorem sameCaptures_testEffect : SameCaptures t (testEffect t isMatch) := by
  unfold testEffect
  split
  case isTrue => exact ⟨rfl, rfl⟩
  case isFalse => exact trivial

theorem testAnchor_countSafe : CountSafe (engine.testAnchor s anchor) fun _ => True := by
  unfold testAnchor
  simp only
  split
  case h_10 => exact .error (not_isCountFailure_of_message (by decide))
  all_goals exact .ok trivial

theorem flowEffect_countSafe : CountSafe (engine.flowEffect s t) (SameCaptures t) := by
  unfold flowEffect
  split
  case h_1 => exact .ok sameCaptures_testEffect
  case h_2 =>
    exact readSplit_countSafe.bind fun _ _ =>
      requireProgramCounterInBounds_countSafe.bind fun _ _ => .ok ⟨rfl, rfl⟩
  case h_3 =>
    exact (readOperands_countSafe _ _ _).bind fun _ _ =>
      requireProgramCounterInBounds_countSafe.bind fun _ _ => .ok ⟨rfl, rfl⟩
  case h_8 =>
    exact (readOperands_countSafe _ _ _).bind fun _ _ =>
      testAnchor_countSafe.bind fun _ _ => .ok sameCaptures_testEffect
  case h_13 => exact .map (readCounterChecked_countSafe.mono fun _ _ => ⟨rfl, rfl⟩)
  case h_14 => exact .map (readCounterChecked_countSafe.mono fun _ _ => ⟨rfl, rfl⟩)
  case h_15 =>
    refine .map (readCounterChecked_countSafe.mono fun _ _ => ?_)
    split
    case isTrue => exact trivial
    case isFalse => exact ⟨rfl, rfl⟩
  case h_16 =>
    refine readCounterChecked_countSafe.bind fun _ _ => .ite (fun _ => .ok ⟨rfl, rfl⟩) fun _ => ?_
    exact requireProgramCounterInBounds_countSafe.bind fun _ _ => .ok ⟨rfl, rfl⟩
  case h_17 =>
    refine .map (readCounterChecked_countSafe.mono fun _ _ => ?_)
    split
    case isTrue => exact trivial
    case isFalse => exact ⟨rfl, rfl⟩
  case h_18 => exact .map ((readOperands_countSafe _ _ _).mono fun _ _ => sameCaptures_testEffect)
  case h_19 => exact .map ((readOperands_countSafe _ _ _).mono fun _ _ => sameCaptures_testEffect)
  case h_20 => exact .error not_isCountFailure_engineError
  case h_9 => exact .map ((readOperands_countSafe _ _ _).mono fun _ _ => trivial)
  case h_10 => exact .map ((readOperands_countSafe _ _ _).mono fun _ _ => trivial)
  case h_11 => exact .map ((readOperands_countSafe _ _ _).mono fun _ _ => trivial)
  case h_12 => exact .map ((readOperands_countSafe _ _ _).mono fun _ _ => trivial)
  all_goals exact .ok trivial

/-- The ticks that are left at a position before the watchdog ends the run. -/
def ticksLeft (watchdog : Watchdog) (position : Nat) : Nat :=
  (if watchdog.positionAtLastTimeoutCheck = position then 2 ^ 16 else 2 ^ 17) -
    watchdog.tickCount % 2 ^ 16

theorem ticksLeft_le (watchdog : Watchdog) (position : Nat) :
    ticksLeft watchdog position ≤ 2 ^ 17 := by
  unfold ticksLeft
  split <;> omega

theorem ticksLeft_tick (h : Watchdog.tick watchdog position = .ok watchdog') :
    ticksLeft watchdog' position + 1 = ticksLeft watchdog position := by
  unfold Watchdog.tick at h
  simp only at h
  split at h
  case isTrue hmod =>
    split at h
    case isTrue => cases h
    case isFalse hne =>
      cases h
      simp only [ticksLeft, if_neg hne, ↓reduceIte]
      omega
  case isFalse hmod =>
    cases h
    simp only [ticksLeft]
    split <;> omega

theorem tick_countSafe : CountSafe s.tick fun s' =>
    ∃ watchdog, s' = { s with watchdog := watchdog } ∧
      ticksLeft watchdog s.current.position + 1 = ticksLeft s.watchdog s.current.position := by
  unfold EngineState.tick
  cases h : s.watchdog.tick s.current.position with
  | ok watchdog => exact .ok ⟨watchdog, rfl, ticksLeft_tick h⟩
  | error e =>
    refine .error ?_
    unfold Watchdog.tick at h
    simp only at h
    split at h
    case isTrue =>
      split at h
      case isTrue => cases h; exact not_isCountFailure_of_category nofun
      case isFalse => cases h
    case isFalse => cases h

/-- All threads that will be looked at again, with those that wait in the current state. -/
def liveThreads (pending : List EngineThread) (s : EngineState) : List EngineThread :=
  s.work.threads ++ (pending ++ s.next.threads)

/-- The numbers of references are right, and the lists of threads are short. -/
structure Sound (slack : Nat) (pending : List EngineThread) (s : EngineState) : Prop where
  accounts : Accounts s.captureGroupManager (holdersOf (liveThreads pending s) s.bestMatch)
  pending_le : pending.length ≤ maximumActiveThreads
  next_le : s.next.threads.length ≤ maximumActiveThreads
  workList_le : s.work.workList.length + ticksLeft s.watchdog s.current.position + slack ≤ 2 ^ 17
  idle : s.work.hasCurrentWork = false → s.work.workList = []

/-- The holders besides the current work. -/
def otherHolders (pending : List EngineThread) (s : EngineState) : List Nat :=
  holdersOf (s.work.workList ++ (pending ++ s.next.threads)) s.bestMatch

theorem Sound.accounts_work (h : Sound slack pending s) (hw : s.work.hasCurrentWork = true) :
    Accounts s.captureGroupManager
      (s.work.currentWork.captureGroupSet :: otherHolders pending s) := by
  have ha := h.accounts
  rwa [liveThreads, EngineWork.threads_of_current _ hw] at ha

theorem workList_popWork_le (work : EngineWork) :
    work.popWork.workList.length ≤ work.workList.length := by
  unfold EngineWork.popWork
  split
  case h_1 h => exact Nat.le_of_eq rfl
  case h_2 h =>
    rw [h]
    exact Nat.le_succ _

theorem popWork_idle {work : EngineWork} (hw : work.hasCurrentWork = true)
    (h : work.popWork.hasCurrentWork = false) : work.popWork.workList = [] := by
  unfold EngineWork.popWork at h ⊢
  split
  case h_1 hl => exact hl
  case h_2 hl =>
    simp only [hl] at h
    exact absurd (hw.symm.trans h) nofun

variable {pending : List EngineThread} {threadIndex : Nat}

/-- The work list after the current work ended. -/
theorem Sound.popWork (h : Sound slack pending s) (hw : s.work.hasCurrentWork = true)
    {s' : EngineState} (ha : Accounts s'.captureGroupManager
      (holdersOf (s.work.workList ++ (pending ++ s.next.threads)) s'.bestMatch))
    (hwork : s'.work = s.work.popWork) (hcurrent : s'.current = s.current)
    (hnext : s'.next = s.next) (hdog : s'.watchdog = s.watchdog) : Sound slack pending s' where
  accounts := by
    rw [liveThreads, hwork, hnext, EngineWork.threads_popWork hw]
    exact ha
  pending_le := h.pending_le
  next_le := hnext ▸ h.next_le
  workList_le := by
    rw [hwork, hcurrent, hdog]
    have hle := workList_popWork_le s.work
    have hs := h.workList_le
    omega
  idle := by
    rw [hwork]
    exact popWork_idle hw

theorem Sound.of_slack_le (h : Sound n pending s) (hle : m ≤ n) : Sound m pending s :=
  { h with workList_le := Nat.le_trans (Nat.add_le_add_left hle _) h.workList_le }

theorem endWorkWithoutMatch_sound (h : Sound slack pending s)
    (hw : s.work.hasCurrentWork = true) :
    CountSafe (s.endWorkWithoutMatch s.work.currentWork) fun s' => Sound slack pending s' ∧
      Keeps s.captureGroupManager s'.captureGroupManager (otherHolders pending s) ∧
      s'.current = s.current := by
  obtain ⟨manager, heq, ha, hk⟩ := EngineState.withManager_release (h.accounts_work hw)
  unfold EngineState.endWorkWithoutMatch
  rw [heq]
  exact .ok ⟨h.popWork hw ha rfl rfl rfl rfl, hk _, rfl⟩

theorem Sound.withWork (h : Sound slack pending s) (hw : s.work.hasCurrentWork = true)
    {manager : Option CaptureGroupManager}
    (ha : Accounts manager (t.captureGroupSet :: otherHolders pending s)) :
    Sound slack pending (Engine.withWork { s with captureGroupManager := manager } t) where
  accounts := by
    rw [liveThreads, EngineWork.threads_of_current]
    · exact ha
    · exact hw
  pending_le := h.pending_le
  next_le := h.next_le
  workList_le := h.workList_le
  idle := h.idle

theorem Sound.liveThreads_length (h : Sound slack pending s) :
    (s.work.workList ++ (pending ++ s.next.threads)).length < 2 ^ 20 := by
  have h₁ := h.pending_le
  have h₂ := h.next_le
  have h₃ := h.workList_le
  unfold maximumActiveThreads at h₁ h₂
  simp only [List.length_append]
  omega

theorem holdersOf_length_le (threads : List EngineThread) (best : Nat) :
    (holdersOf threads best).length ≤ threads.length + 1 := by
  unfold holdersOf references
  rw [List.length_append, List.length_map]
  split
  · exact Nat.le_succ _
  · exact Nat.le_refl _

theorem split_sound (h : Sound 1 pending s) (hw : s.work.hasCurrentWork = true)
    (ht : t.captureGroupSet = s.work.currentWork.captureGroupSet) (programCounterB : Nat) :
    CountSafe (engine.applyEffect s s.work.currentWork threadIndex (.split t programCounterB))
      fun r => Sound 0 pending r.1 ∧
        Keeps s.captureGroupManager r.1.captureGroupManager (otherHolders pending s) ∧
        r.1.current = s.current := by
  have ha := h.accounts_work hw
  rw [← ht] at ha
  have hlength : (t.captureGroupSet :: otherHolders pending s).length < 2 ^ 32 - 1 := by
    have h₁ := h.liveThreads_length
    have h₂ := holdersOf_length_le (s.work.workList ++ (pending ++ s.next.threads)) s.bestMatch
    rw [List.length_cons]
    unfold otherHolders
    omega
  obtain ⟨manager, heq, ha', hk⟩ := EngineState.withManager_allocate (s := withWork s t) ha
    List.mem_cons_self hlength
  simp only [applyEffect, EngineState.cloneThread, heq]
  refine .map (Ensures.bind (Ensures.ok rfl) fun s' hs' => ?_)
  subst hs'
  refine requireProgramCounterInBounds_countSafe.bind fun _ _ => .ok ?_
  refine ⟨?_, hk _, rfl⟩
  constructor
  case accounts =>
    rw [liveThreads, EngineWork.threads_of_current]
    · exact ha'
    · exact hw
  case pending_le => exact h.pending_le
  case next_le => exact h.next_le
  case workList_le =>
    have hs := h.workList_le
    simp only [EngineWork.addWork, Engine.withWork, List.length_cons]
    omega
  case idle => exact fun hidle => absurd (hw.symm.trans hidle) nofun

theorem match_sound (h : Sound slack pending s) (hw : s.work.hasCurrentWork = true)
    (hs : SlotsAvailable s.captureGroupManager) :
    CountSafe (handleMatchOperation s s.work.currentWork threadIndex false) fun r =>
      Sound slack pending r.1 ∧
      Keeps s.captureGroupManager r.1.captureGroupManager (otherHolders pending s) ∧
      r.1.current = s.current := by
  unfold handleMatchOperation
  refine .ite (fun _ => ?_) fun _ => ?_
  · exact (endWorkWithoutMatch_sound h hw).bind fun s' hs' => .ok hs'
  · refine (EngineState.endThreadWithMatch_accounts (h.accounts_work hw) hs
      (Nat.lt_trans h.liveThreads_length (by decide)) threadIndex).bind fun s' hs' => .ok ⟨?_, hs'.keeps, hs'.current⟩
    exact h.popWork hw hs'.accounts (congrArg EngineWork.popWork hs'.work) hs'.current hs'.next
      hs'.sameRun.watchdog

theorem modifyCaptures_sound {modify : CaptureGroupSet → Except RegExError CaptureGroupSet}
    (h : Sound slack pending s) (hw : s.work.hasCurrentWork = true)
    (hresult : CountSafe (modifyCaptures s s.work.currentWork update)
      (AfterModify modify (otherHolders pending s) s s.work.currentWork)) :
    CountSafe (modifyCaptures s s.work.currentWork update) fun s' => Sound slack pending s' ∧
      Keeps s.captureGroupManager s'.captureGroupManager (otherHolders pending s) ∧
      s'.current = s.current := by
  refine hresult.mono fun s' ⟨reference, manager, heq, ha, hk, _⟩ => ?_
  subst heq
  exact ⟨h.withWork hw ha, hk, rfl⟩

theorem references_filter_perm (isPruned : EngineThread → Bool) (threads : List EngineThread) :
    (references threads).Perm (references (threads.filter isPruned) ++
      references (threads.filter fun thread => !isPruned thread)) := by
  unfold references
  rw [← List.map_append]
  exact ((List.filter_append_perm isPruned threads).map _).symm

theorem drop_take_append {l k : List α} {n : Nat} (h : l.length < n → k = []) :
    (l.take n ++ k).drop n = k := by
  by_cases hn : l.length < n
  case pos =>
    rw [h hn, List.append_nil, List.drop_eq_nil_iff, List.length_take]
    exact Nat.min_le_left _ _
  case neg =>
    have hlen : (l.take n).length = n := by
      rw [List.length_take]
      omega
    exact List.drop_left' hlen

/-- Threads that are filtered out give up their references. -/
theorem holders_filter_perm (isPruned : EngineThread → Bool) (r best : Nat)
    (front threads back : List EngineThread) (hp : pruned.Perm (threads.filter isPruned)) :
    (r :: holdersOf (front ++ (threads ++ back)) best).Perm (references pruned ++
      (r :: holdersOf (front ++ (threads.filter (fun t => !isPruned t) ++ back)) best)) := by
  refine List.perm_iff_count.2 fun slot => ?_
  have h₁ := (references_filter_perm isPruned threads).count_eq slot
  have h₂ := (hp.map fun t : EngineThread => t.captureGroupSet).count_eq slot
  unfold references at h₁
  simp only [holdersOf, references, List.map_append, List.count_append, List.count_cons] at *
  omega

theorem pruneWork_accounts {s : EngineState} {back : List EngineThread}
    (affected : List Nat) (ha : Accounts s.captureGroupManager
      (r :: holdersOf (s.work.workList ++ back) best)) :
    ∃ manager isPruned, s.pruneWork affected = .ok { s with
        captureGroupManager := manager
        work := { s.work with workList := s.work.workList.filter isPruned } } ∧
      Accounts manager (r :: holdersOf (s.work.workList.filter isPruned ++ back) best) ∧
      ∀ slots, Keeps s.captureGroupManager manager slots := by
  have hp := holders_filter_perm (fun t => affected.contains t.captureGroupSet) r best []
    s.work.workList back (List.reverse_perm _)
  obtain ⟨manager, heq, ha', hk⟩ := EngineState.withManager_releaseThreads _ (ha.perm hp)
  refine ⟨manager, _, ?_, ha', hk⟩
  simp only [EngineState.pruneWork, heq]
  rfl

theorem pruneCurrentList_accounts {s : EngineState} {front back : List EngineThread}
    (affected : List Nat) (threadIndex : Nat) (ha : Accounts s.captureGroupManager
      (r :: holdersOf (front ++ (s.current.threads.drop (threadIndex + 1) ++ back)) best)) :
    ∃ manager isPruned, s.pruneCurrentList affected threadIndex = .ok { s with
        captureGroupManager := manager
        current := { s.current with
          threads := s.current.threads.take (threadIndex + 1) ++
            (s.current.threads.drop (threadIndex + 1)).filter isPruned } } ∧
      Accounts manager (r :: holdersOf (front ++
        ((s.current.threads.drop (threadIndex + 1)).filter isPruned ++ back)) best) ∧
      ∀ slots, Keeps s.captureGroupManager manager slots := by
  have hp := holders_filter_perm (fun t => affected.contains t.captureGroupSet) r best front
    (s.current.threads.drop (threadIndex + 1)) back (List.Perm.refl _)
  obtain ⟨manager, heq, ha', hk⟩ := EngineState.withManager_releaseThreads _ (ha.perm hp)
  refine ⟨manager, _, ?_, ha', hk⟩
  simp only [EngineState.pruneCurrentList, heq]
  rfl

theorem prune_accounts {s : EngineState} {back : List EngineThread} (affected : List Nat)
    (threadIndex : Nat) (ha : Accounts s.captureGroupManager (r :: holdersOf
      (s.work.workList ++ (s.current.threads.drop (threadIndex + 1) ++ back)) best)) :
    ∃ manager keepWork keepCurrent,
      (s.pruneWork affected >>= fun s => s.pruneCurrentList affected threadIndex) = .ok { s with
        captureGroupManager := manager
        work := { s.work with workList := s.work.workList.filter keepWork }
        current := { s.current with
          threads := s.current.threads.take (threadIndex + 1) ++
            (s.current.threads.drop (threadIndex + 1)).filter keepCurrent } } ∧
      Accounts manager (r :: holdersOf (s.work.workList.filter keepWork ++
        ((s.current.threads.drop (threadIndex + 1)).filter keepCurrent ++ back)) best) ∧
      ∀ slots, Keeps s.captureGroupManager manager slots := by
  obtain ⟨manager₁, keepWork, heq₁, ha₁, hk₁⟩ := pruneWork_accounts affected ha
  generalize hs₁ : ({ s with
    captureGroupManager := manager₁
    work := { s.work with workList := s.work.workList.filter keepWork } } : EngineState) = s₁
      at heq₁
  have hmanager : s₁.captureGroupManager = manager₁ := by rw [← hs₁]
  have hcurrent : s₁.current = s.current := by rw [← hs₁]
  rw [← hmanager, ← hcurrent] at ha₁
  obtain ⟨manager₂, keepCurrent, heq₂, ha₂, hk₂⟩ := pruneCurrentList_accounts affected
    threadIndex ha₁
  refine ⟨manager₂, keepWork, keepCurrent, ?_, hcurrent ▸ ha₂, fun slots =>
    (hk₁ slots).trans (hmanager ▸ hk₂ slots)⟩
  rw [heq₁, ← hcurrent]
  subst hs₁
  exact heq₂

/-- The state after a pass of the expansion of a thread of the current state. -/
structure AfterExpand (threadIndex : Nat) (s s' : EngineState) : Prop where
  sound : Sound 0 (s'.current.threads.drop (threadIndex + 1)) s'
  keeps : Keeps s.captureGroupManager s'.captureGroupManager
    (otherHolders (s.current.threads.drop (threadIndex + 1)) s)
  pending : s'.current.threads.drop (threadIndex + 1) ⊆ s.current.threads.drop (threadIndex + 1)

/-- Discarding the marked threads releases exactly their references. -/
theorem stopAtomic_sound (h : Sound 0 (s.current.threads.drop (threadIndex + 1)) s)
    (hw : s.work.hasCurrentWork = true) (atomicGroupId : Nat) :
    CountSafe (stopAtomicEffect s s.work.currentWork threadIndex atomicGroupId)
      (AfterExpand threadIndex s) := by
  unfold stopAtomicEffect
  split
  case h_1 => exact .error (not_isCountFailure_of_message (by decide))
  case h_2 m hm =>
    have ha := h.accounts_work hw
    refine Ensures.bind (m := fun _ => True) ?_ fun affected _ => ?_
    · unfold CaptureGroupManager.getAllReferencesForAtomicGroup
      split
      case isFalse => exact .error (not_isCountFailure_of_message (by decide))
      case isTrue =>
        obtain ⟨set, hset, -⟩ := (ha m hm).1.exists_set List.mem_cons_self
        simp only [hset]
        exact .ok trivial
    · obtain ⟨manager, keepWork, keepCurrent, heq, ha', hk⟩ := prune_accounts (s := withWork s
        { s.work.currentWork with programCounter := s.work.currentWork.programCounter + 1 })
        affected threadIndex ha
      have hdrop := drop_take_append (l := s.current.threads) (n := threadIndex + 1)
        (k := (s.current.threads.drop (threadIndex + 1)).filter keepCurrent) fun hlt => by
          rw [List.drop_eq_nil_of_le (Nat.le_of_lt hlt), List.filter_nil]
      refine .of_exists ⟨_, heq, ?_, hk _, ?_⟩
      case refine_2 =>
        simp only [withWork, hdrop]
        exact List.filter_subset_self _
      constructor
      case accounts =>
        rw [liveThreads, EngineWork.threads_of_current]
        · simp only [withWork, hdrop]
          exact ha'
        · exact hw
      case pending_le =>
        simp only [withWork, hdrop]
        exact Nat.le_trans (List.length_filter_le _ _) h.pending_le
      case next_le => exact h.next_le
      case workList_le =>
        have hle := List.length_filter_le keepWork s.work.workList
        have hs := h.workList_le
        simp only [withWork]
        omega
      case idle => exact fun hidle => absurd (hw.symm.trans hidle) nofun

theorem capture_countSafe (h : Sound slack pending s) (hw : s.work.hasCurrentWork = true)
    (hs : SlotsAvailable s.captureGroupManager) (isStart : Bool) (group : Nat) :
    CountSafe (modifyCaptures s s.work.currentWork fun manager reference =>
        if isStart then manager.startCapture reference (group + 1) s.next.position
        else manager.stopCapture reference (group + 1) s.next.position)
      (AfterModify (if isStart then CaptureGroupSet.setBegin (group + 1) s.next.position
        else CaptureGroupSet.setEnd (group + 1) s.next.position)
        (otherHolders pending s) s s.work.currentWork) := by
  cases isStart with
  | true =>
    exact modifyCaptures_accounts (h.accounts_work hw) hs
      CaptureGroupManager.keepsCount_setBegin (fun _ _ => not_isCountFailure_setBegin)
      fun _ _ => .inl rfl
  | false =>
    exact modifyCaptures_accounts (h.accounts_work hw) hs
      CaptureGroupManager.keepsCount_setEnd (fun _ _ => not_isCountFailure_setEnd)
      fun _ _ => .inl rfl

theorem startAtomic_countSafe (h : Sound slack pending s) (hw : s.work.hasCurrentWork = true)
    (hs : SlotsAvailable s.captureGroupManager) (atomicGroupId : Nat) :
    CountSafe (modifyCaptures s s.work.currentWork fun manager reference =>
        manager.markThreadWithAtomicGroupId reference atomicGroupId)
      (AfterModify (CaptureGroupSet.setAtomicGroupBit atomicGroupId) (otherHolders pending s) s
        s.work.currentWork) := by
  refine modifyCaptures_accounts (h.accounts_work hw) hs
    CaptureGroupManager.keepsCount_setAtomicGroupBit (fun _ _ he => by cases he) fun m r => ?_
  unfold CaptureGroupManager.markThreadWithAtomicGroupId
  split
  case isTrue => exact .inl rfl
  case isFalse => exact .inr ⟨_, rfl, not_isCountFailure_of_message (by decide)⟩

theorem AfterExpand.of_current_eq {s s' : EngineState}
    (h : Sound 0 (s.current.threads.drop (threadIndex + 1)) s' ∧
      Keeps s.captureGroupManager s'.captureGroupManager
        (otherHolders (s.current.threads.drop (threadIndex + 1)) s) ∧
      s'.current = s.current) : AfterExpand threadIndex s s' where
  sound := by
    rw [h.2.2]
    exact h.1
  keeps := h.2.1
  pending := by
    rw [h.2.2]
    exact List.Subset.refl _

theorem AfterExpand.requestEnd (h : AfterExpand threadIndex s s') :
    AfterExpand threadIndex s { s' with endRequested := true } :=
  ⟨⟨h.sound.accounts, h.sound.pending_le, h.sound.next_le, h.sound.workList_le, h.sound.idle⟩,
    h.keeps, h.pending⟩

/-- Every effect keeps the numbers of references right. -/
theorem applyEffect_sound {effect : FlowEffect}
    (h : Sound 1 (s.current.threads.drop (threadIndex + 1)) s)
    (hw : s.work.hasCurrentWork = true) (hs : SlotsAvailable s.captureGroupManager)
    (heffect : SameCaptures s.work.currentWork effect) :
    CountSafe (engine.applyEffect s s.work.currentWork threadIndex effect) fun r =>
      AfterExpand threadIndex s r.1 := by
  have h₀ : Sound 0 (s.current.threads.drop (threadIndex + 1)) s := h.of_slack_le (Nat.zero_le _)
  have ended := endWorkWithoutMatch_sound h₀ hw
  cases effect with
  | advance t =>
    have ha := h.accounts_work hw
    rw [← heffect.1] at ha
    exact .ok (.of_current_eq ⟨h₀.withWork hw ha, .refl _ _, rfl⟩)
  | split t b =>
    exact (split_sound h hw heffect.1 b).mono fun r hr => .of_current_eq hr
  | stop => exact .map (ended.mono fun s' hs' => .of_current_eq hs')
  | «match» => exact (match_sound h₀ hw hs).mono fun r hr => .of_current_eq hr
  | success =>
    refine (match_sound h₀ hw hs).bind fun r hr => .ok ?_
    obtain ⟨s', hasMatch⟩ := r
    cases hasMatch with
    | true => exact (AfterExpand.of_current_eq hr).requestEnd
    | false => exact .of_current_eq hr
  | failure =>
    exact .map (ended.bind fun s' hs' => .ok (AfterExpand.of_current_eq hs').requestEnd)
  | capture isStart group =>
    refine .map ((modifyCaptures_sound h₀ hw (capture_countSafe h₀ hw hs isStart group)).mono ?_)
    exact fun s' hs' => .of_current_eq hs'
  | startAtomic group =>
    refine .map ((modifyCaptures_sound h₀ hw (startAtomic_countSafe h₀ hw hs group)).mono ?_)
    exact fun s' hs' => .of_current_eq hs'
  | stopAtomic group => exact .map (stopAtomic_sound h₀ hw group)

theorem addNextThread_sound (h : Sound slack pending s) (hw : s.work.hasCurrentWork = true)
    (isCaseInsensitive : Bool) :
    CountSafe (s.addNextThread s.work.currentWork isCaseInsensitive) fun s' =>
      Sound slack pending { s' with work := s'.work.popWork } ∧
      Keeps s.captureGroupManager s'.captureGroupManager (otherHolders pending s) ∧
      s'.current = s.current := by
  have ha := h.accounts_work hw
  unfold EngineState.addNextThread
  refine .ite (fun _ => ?_) fun _ => .ite (fun _ => ?_) fun hlt => .ok ?_
  · obtain ⟨manager, heq, ha', hk⟩ := EngineState.withManager_release ha
    rw [heq]
    exact .ok ⟨h.popWork hw ha' rfl rfl rfl rfl, hk _, rfl⟩
  · exact .error (not_isCountFailure_of_category nofun)
  · refine ⟨?_, .refl _ _, rfl⟩
    constructor
    case accounts =>
      rw [liveThreads, EngineWork.threads_popWork hw]
      refine ha.perm ?_
      simp only [otherHolders, holdersOf, references, List.map_append, List.map_cons,
        List.map_nil]
      refine List.perm_iff_count.2 fun slot => ?_
      simp only [List.count_append, List.count_cons, List.count_nil]
      omega
    case pending_le => exact h.pending_le
    case next_le =>
      simp only [List.length_append, List.length_singleton]
      omega
    case workList_le =>
      have hle := workList_popWork_le s.work
      have hs := h.workList_le
      simp only
      omega
    case idle => exact popWork_idle hw

theorem expandWork_sound (h : Sound 1 (s.current.threads.drop (threadIndex + 1)) s)
    (hw : s.work.hasCurrentWork = true) (hs : SlotsAvailable s.captureGroupManager)
    (hasMatch : Bool) :
    CountSafe (engine.expandWork threadIndex s hasMatch) fun r =>
      AfterExpand threadIndex s r.1 := by
  have h₀ : Sound 0 (s.current.threads.drop (threadIndex + 1)) s := h.of_slack_le (Nat.zero_le _)
  have ended : CountSafe (keepMatch hasMatch (s.endWorkWithoutMatch s.work.currentWork)) fun r =>
      AfterExpand threadIndex s r.1 :=
    .map ((endWorkWithoutMatch_sound h₀ hw).mono fun s' hs' => .of_current_eq hs')
  unfold expandWork
  refine .ite (fun _ => ended) fun hm => .ite (fun _ => ended) fun _ => .ite (fun _ => ?_)
    fun _ => ?_
  · exact (addNextThread_sound h₀ hw _).bind fun s' hs' => .ok (.of_current_eq hs')
  · rw [Bool.not_eq_true] at hm
    rw [hm, handleFlowOperation_eq]
    exact flowEffect_countSafe.bind fun effect he => applyEffect_sound h hw hs he

/-- The threads of the current state that the engine has not processed yet. -/
def pendingThreads (c : Configuration) : List EngineThread :=
  match c.control with
  | .prepareNext threadIndex _ _ => c.state.current.threads.drop (threadIndex + 1)
  | .currentThreads threadIndex _ => c.state.current.threads.drop threadIndex
  | _ => []

/-- The references of the work, of the waiting threads and of the recorded match. -/
def holders (c : Configuration) : List Nat :=
  holdersOf (liveThreads (pendingThreads c) c.state) c.state.bestMatch

/-- Only the expansion of a thread of the current state leaves other threads to process. -/
def CallerFits (threadIndex : Nat) (s : EngineState) : Caller → Prop
  | .currentThread => True
  | _ => s.current.threads.drop (threadIndex + 1) = []

/-- The state fits to the place of the engine in its loops. -/
def ConfigurationSound (c : Configuration) : Prop :=
  match c.control with
  | .prepareNext threadIndex _ caller =>
    Sound 0 (pendingThreads c) c.state ∧ CallerFits threadIndex c.state caller
  | .failed _ => True
  | _ => Sound 0 (pendingThreads c) c.state ∧ c.state.work.hasCurrentWork = false

/-- The holders whose sets a step may not touch. -/
def protectedHolders (c : Configuration) : List Nat :=
  match c.control with
  | .prepareNext _ _ _ =>
    if c.state.work.hasCurrentWork then otherHolders (pendingThreads c) c.state else holders c
  | _ => holders c

/-- A step from a configuration keeps the numbers of references and the sets of the holders. -/
structure AfterStep (c c' : Configuration) : Prop where
  sound : ConfigurationSound c'
  keeps : Keeps c.state.captureGroupManager c'.state.captureGroupManager (protectedHolders c)

theorem Sound.setWork (h : Sound 0 pending s) (ht : Accounts manager (holdersOf
      (work.threads ++ (pending ++ s.next.threads)) s.bestMatch))
    (hw : work.workList = []) :
    Sound 0 pending { s with captureGroupManager := manager, work := work } where
  accounts := ht
  pending_le := h.pending_le
  next_le := h.next_le
  workList_le := by
    have hle := ticksLeft_le s.watchdog s.current.position
    simp only [hw, List.length_nil]
    omega
  idle := fun _ => hw

theorem stepPrepareNext_sound {c : Configuration}
    (h : ConfigurationSound c) (hc : c.control = .prepareNext threadIndex hasMatch caller)
    (hs : SlotsAvailable c.state.captureGroupManager) :
    CountSafe (engine.stepPrepareNext c.state threadIndex hasMatch caller) (AfterStep c) := by
  obtain ⟨control, s⟩ := c
  simp only at hc hs
  subst hc
  obtain ⟨hsound, hcaller⟩ := h
  simp only [pendingThreads] at hsound hcaller
  unfold stepPrepareNext
  refine .ite (fun hw => ?_) fun hw => .ok ?_
  · refine tick_countSafe.bind fun s₁ ⟨watchdog, hs₁, hticks⟩ => ?_
    have hsound₁ : Sound 1 (s₁.current.threads.drop (threadIndex + 1)) s₁ := by
      subst hs₁
      refine ⟨hsound.accounts, hsound.pending_le, hsound.next_le, ?_, hsound.idle⟩
      have hle := hsound.workList_le
      simp only at hle hticks ⊢
      omega
    have hw₁ : s₁.work.hasCurrentWork = true := by
      subst hs₁
      exact hw
    refine (expandWork_sound hsound₁ hw₁ (by subst hs₁; exact hs) hasMatch).bind
      fun r hr => .ok ⟨?_, ?_⟩
    · refine ⟨hr.sound, ?_⟩
      subst hs₁
      cases caller with
      | currentThread => exact trivial
      | run => exact List.subset_nil.1 (hcaller ▸ hr.pending)
      | newThread => exact List.subset_nil.1 (hcaller ▸ hr.pending)
    · simp only [protectedHolders, pendingThreads]
      rw [if_pos (show s.work.hasCurrentWork = true from hw)]
      subst hs₁
      exact hr.keeps
  · have hidle : s.work.hasCurrentWork = false := Bool.not_eq_true _ ▸ hw
    have hkeeps : ∀ slots, Keeps s.captureGroupManager s.captureGroupManager slots :=
      fun slots => .refl _ _
    unfold afterPrepareNext
    cases caller with
    | currentThread => exact ⟨⟨hsound, hidle⟩, hkeeps _⟩
    | newThread =>
      rw [show s.current.threads.drop (threadIndex + 1) = [] from hcaller] at hsound
      exact ⟨⟨hsound, hidle⟩, hkeeps _⟩
    | run =>
      rw [show s.current.threads.drop (threadIndex + 1) = [] from hcaller] at hsound
      simp only
      split
      · split
        · exact ⟨⟨hsound, hidle⟩, hkeeps _⟩
        · exact ⟨⟨hsound, hidle⟩, hkeeps _⟩
      · exact ⟨⟨hsound, hidle⟩, hkeeps _⟩

end Engine

end ErbslandCore.Re
