import Mathlib.Data.Prod.Lex
import ErbslandCore.Re.MatchPlacement

namespace ErbslandCore.Re
open Library
set_option autoImplicit true

/-- The characters that are left ascend from the position of the next one. -/
structure Ascending (s : EngineState) : Prop where
  bounds : ∀ c ∈ s.input.remaining,
    s.next.position ≤ c.position ∧ c.position ≤ s.input.endPosition
  sorted : s.input.remaining.Pairwise fun a b => a.position ≤ b.position
  next_le : s.next.position ≤ s.input.endPosition

/-- The number of characters from the next one on. -/
def charactersLeft (s : EngineState) : Nat :=
  s.input.remaining.length + if s.isAtEnd then 0 else 1

/-- An input that read on in its text. -/
structure ReadsOn (input input' : Input) : Prop where
  remaining : input'.remaining <:+ input.remaining
  endPosition : input'.endPosition = input.endPosition
  acceptsNull : input'.acceptsNull = input.acceptsNull

theorem ReadsOn.refl (input : Input) : ReadsOn input input := ⟨List.suffix_rfl, rfl, rfl⟩

theorem ReadsOn.trans (h : ReadsOn a b) (h' : ReadsOn b c) : ReadsOn a c :=
  ⟨h'.remaining.trans h.remaining, h'.endPosition.trans h.endPosition,
    h'.acceptsNull.trans h.acceptsNull⟩

theorem ReadsOn.tail (input : Input) : ReadsOn input input.tail :=
  ⟨List.tail_suffix _, rfl, rfl⟩

theorem SameCharacters.readsOn (h : SameCharacters s s') : ReadsOn s.input s'.input := by
  rw [h.input]
  exact .refl _

theorem SameCharacters.charactersLeft (h : SameCharacters s s') :
    charactersLeft s' = charactersLeft s := by
  rw [Re.charactersLeft, Re.charactersLeft, EngineState.isAtEnd, EngineState.isAtEnd, h.input,
    h.character]

theorem SameCharacters.ascending (h : SameCharacters s s') (ha : Ascending s) : Ascending s' where
  bounds := by
    rw [h.input, h.next]
    exact ha.bounds
  sorted := by
    rw [h.input]
    exact ha.sorted
  next_le := by
    rw [h.input, h.next]
    exact ha.next_le

namespace Input
variable {input input' : Input}

/-- The position of the character that is read next. -/
def headPosition (input : Input) : Nat :=
  (input.remaining.head?.map (·.position)).getD input.endPosition

theorem tail_remaining (h : input.remaining.tail = rest) : input.tail.remaining = rest := h

theorem peek_eq (h : input.peek = .ok c) :
    c = input.remaining.head?.getD ⟨endOfData, input.endPosition⟩ := by
  rw [peek] at h
  cases hrest : input.remaining with
  | nil =>
    rw [hrest] at h
    simp only [validate] at h
    split_ifs at h
    exact (Except.ok.inj h).symm
  | cons first rest =>
    rw [hrest] at h
    simp only [validate] at h
    split_ifs at h
    exact (Except.ok.inj h).symm

theorem read_eq (h : input.read = .ok (c, input')) :
    input' = input.tail ∧ c = input.remaining.head?.getD ⟨endOfData, input.endPosition⟩ := by
  rw [read] at h
  split at h
  · rename_i c' hpeek
    cases h
    exact ⟨rfl, peek_eq hpeek⟩
  · cases h

end Input

theorem Ascending.le_headPosition (h : Ascending s) : s.next.position ≤ s.input.headPosition := by
  rw [Input.headPosition]
  cases hrest : s.input.remaining with
  | nil => exact h.next_le
  | cons c rest =>
    refine (h.bounds c ?_).1
    rw [hrest]
    exact List.mem_cons_self

namespace EngineState
variable {s s' : EngineState}

/-- The state after the next character was read. -/
theorem readNext_spec (h : Ascending s) : Yields s.readNext fun s' =>
    ∃ character, s' = { s with
        input := s.input.tail
        next := { s.next with character := character, position := s.input.headPosition } } ∧
      Ascending s' ∧ charactersLeft s' = s.input.remaining.length := by
  apply Yields.intro
  intro s' hs
  obtain ⟨⟨c, input'⟩, hread, hs⟩ := bind_eq_ok hs
  obtain ⟨rfl, hc⟩ := Input.read_eq hread
  cases hs
  have hposition : c.position = s.input.headPosition := by
    rw [hc, Input.headPosition]
    cases s.input.remaining.head? <;> rfl
  rw [← hposition]
  refine ⟨c.character, rfl, ?_⟩
  cases hrest : s.input.remaining with
  | nil =>
    rw [hrest] at hc
    obtain rfl : c = ⟨endOfData, s.input.endPosition⟩ := hc
    have htail : s.input.tail.remaining = [] := Input.tail_remaining (congrArg List.tail hrest)
    refine ⟨⟨?_, ?_, Nat.le_refl _⟩, ?_⟩
    · rw [htail]
      exact nofun
    · rw [htail]
      exact .nil
    · simp [charactersLeft, isAtEnd, Input.tail, hrest]
  | cons first rest =>
    rw [hrest] at hc
    obtain rfl : c = first := hc
    have hmem : c ∈ s.input.remaining := by
      rw [hrest]
      exact List.mem_cons_self
    have hsorted := h.sorted
    rw [hrest, List.pairwise_cons] at hsorted
    have htail : s.input.tail.remaining = rest := Input.tail_remaining (congrArg List.tail hrest)
    refine ⟨⟨?_, ?_, (h.bounds c hmem).2⟩, ?_⟩
    · rw [htail]
      intro c' hmem'
      refine ⟨hsorted.1 c' hmem', (h.bounds c' ?_).2⟩
      rw [hrest]
      exact List.mem_cons_of_mem _ hmem'
    · rw [htail]
      exact hsorted.2
    · have hle := s.input.isText c hmem
      have hne : (c.character == endOfData) = false := by
        rw [beq_eq_false_iff_ne, endOfData]
        omega
      simp [charactersLeft, isAtEnd, Input.tail, hrest, hne]

/-- A folded line break has one character less. -/
theorem foldCRLF_spec (h : Ascending s) : Yields s.foldCRLF fun s' =>
    ∃ character input, s' = { s with
        input := input
        next := { s.next with character := character } } ∧
      Ascending s' ∧ charactersLeft s' ≤ charactersLeft s ∧ ReadsOn s.input s'.input := by
  apply Yields.intro
  intro s' hs
  rw [foldCRLF] at hs
  split_ifs at hs with hfold
  · obtain ⟨c, hpeek, hs⟩ := bind_eq_ok hs
    split_ifs at hs with hfeed
    · obtain ⟨⟨c', input'⟩, hread, hs⟩ := bind_eq_ok hs
      obtain ⟨rfl, -⟩ := Input.read_eq hread
      cases hs
      refine ⟨0x0A, s.input.tail, rfl, ⟨?_, h.sorted.tail, h.next_le⟩, ?_, .tail _⟩
      · intro c hmem
        exact h.bounds c (List.mem_of_mem_tail hmem)
      · simp only [charactersLeft, isAtEnd, Input.tail, List.length_tail, hfold.2, endOfData]
        simp
    · cases hs
      exact ⟨s.next.character, s.input, rfl, h, Nat.le_refl _, .refl _⟩
  · cases hs
    exact ⟨s.next.character, s.input, rfl, h, Nat.le_refl _, .refl _⟩

/-- The next state becomes the current one. -/
theorem advanceToNext_spec (h : Placed low s) (ha : Ascending s) (hend : s.isAtEnd = false)
    (caseFolded : Nat → Nat) : Yields (s.advanceToNext caseFolded) fun s' =>
      Placed low s' ∧ Ascending s' ∧ s.next.position ≤ s'.next.position ∧
        charactersLeft s' < charactersLeft s ∧ ReadsOn s.input s'.input := by
  have hleft : charactersLeft s = s.input.remaining.length + 1 := by
    rw [charactersLeft, hend]
    rfl
  rw [advanceToNext]
  generalize hcurrent : (if s.next.hasCaseInsensitiveOperations then
    { s.next with caseFoldedCharacter := caseFolded s.next.character } else s.next) = current
  have hthreads : current.threads = s.next.threads := by
    rw [← hcurrent]
    split <;> rfl
  have hbefore : Ascending { s with current := current, next := {} } :=
    ⟨fun c hmem => ⟨Nat.zero_le _, (ha.bounds c hmem).2⟩, ha.sorted, Nat.zero_le _⟩
  have hle := ha.le_headPosition
  refine (readNext_spec hbefore).bind fun s₁ h₁ => ?_
  obtain ⟨character, rfl, hascending, hleft₁⟩ := h₁
  refine (foldCRLF_spec hascending).mono fun s₂ h₂ => ?_
  obtain ⟨folded, input, rfl, hascending₂, hleft₂, hreads⟩ := h₂
  refine ⟨⟨?_, ?_, ?_⟩, hascending₂, hle, ?_, (ReadsOn.tail _).trans hreads⟩
  · intro m hm
    exact (h.sets m hm).mono hle
  · intro hnone t ht
    have hmem : t ∈ engineThreads s := by
      rw [mem_engineThreads] at ht ⊢
      rcases ht with ht | ht | ht
      · exact .inl ht
      · exact .inr (.inr (hthreads ▸ ht))
      · cases ht
    obtain ⟨hlow, hhigh⟩ := h.threads hnone t hmem
    exact ⟨hlow, hhigh.trans hle⟩
  · intro hnone hdirect
    obtain ⟨hlow, horder, hhigh⟩ := h.direct hnone hdirect
    exact ⟨hlow, horder, hhigh.trans hle⟩
  · rw [hleft₁] at hleft₂
    rw [hleft]
    exact Nat.lt_succ_of_le hleft₂

/-- A new thread starts at the position of the next character. -/
theorem createNewThread_placed (h : Placed low s) (hlow : low ≤ s.next.position) :
    Yields (s.createNewThread s.next.position) fun r =>
      Continues low s r.2 ∧ PlacedThread low r.2 r.1 := by
  apply Yields.intro
  rintro ⟨thread, s'⟩ hs
  rw [createNewThread] at hs
  split at hs
  · rename_i m hm
    obtain ⟨⟨reference, m'⟩, hm', hs⟩ := bind_eq_ok hs
    cases hs
    refine ⟨⟨⟨rfl, rfl, rfl, rfl, rfl, rfl, Nat.le_refl _⟩, ?_, by rintro ⟨⟩, by rintro ⟨⟩⟩,
      by rintro ⟨⟩⟩
    rintro _ ⟨⟩
    exact CaptureGroupManager.createGroupSet_placed (h.sets m hm) (fromRegEx_eq_ok hm') hlow
      (Nat.le_refl _)
  · cases hs
    exact ⟨⟨.refl s, h⟩, fun _ => ⟨hlow, Nat.le_refl _⟩⟩

end EngineState

/-- A search has read on, or it has not moved. -/
structure Progresses (s s' : EngineState) : Prop where
  next_le : s.next.position ≤ s'.next.position
  moved : charactersLeft s' < charactersLeft s ∨
    charactersLeft s' = charactersLeft s ∧ s'.next.position = s.next.position ∧
      s'.current.position = s.current.position
  reads : ReadsOn s.input s'.input

theorem Progresses.refl (s : EngineState) : Progresses s s :=
  ⟨Nat.le_refl _, .inr ⟨rfl, rfl, rfl⟩, .refl _⟩

theorem Progresses.trans (h : Progresses a b) (h' : Progresses b c) : Progresses a c where
  next_le := h.next_le.trans h'.next_le
  moved := by
    rcases h.moved with hlt | ⟨hleft, hnext, hcurrent⟩
    · refine .inl (lt_of_le_of_lt ?_ hlt)
      rcases h'.moved with hlt' | ⟨hleft', -⟩
      · exact Nat.le_of_lt hlt'
      · exact Nat.le_of_eq hleft'
    · rw [← hleft, ← hnext, ← hcurrent]
      exact h'.moved
  reads := h.reads.trans h'.reads

theorem SameCharacters.progresses (h : SameCharacters s s') : Progresses s s' where
  next_le := Nat.le_of_eq h.next.symm
  moved := .inr ⟨h.charactersLeft, h.next, h.current⟩
  reads := h.readsOn

theorem Continues.refl (h : Placed low s) : Continues low s s := ⟨.refl s, h⟩

namespace Engine
variable {engine : Engine} {s : EngineState} {threadIndex : Nat}

/-- The place of the engine in the work on one character; it decreases. -/
def rank (c : Configuration) : Nat :=
  match c.control with
  | .prepareNext threadIndex _ .currentThread =>
    2 * (c.state.current.threads.length - (threadIndex + 1)) + 4
  | .prepareNext _ _ _ => 2
  | .currentThreads threadIndex _ => 2 * (c.state.current.threads.length - threadIndex) + 3
  | .mainLoop => 1
  | .returned _ => 0
  | .failed _ => 0

def ticks (c : Configuration) : Nat := ticksLeft c.state.watchdog c.state.current.position

/-- The engine reads on, or works on at the same character. -/
def Works (c c' : Configuration) : Prop :=
  charactersLeft c'.state < charactersLeft c.state ∧
      c.state.next.position ≤ c'.state.next.position ∨
    charactersLeft c'.state = charactersLeft c.state ∧
      c'.state.next.position = c.state.next.position ∧
      c'.state.current.position = c.state.current.position ∧
      (rank c' < rank c ∨ rank c' ≤ rank c ∧ ticks c' < ticks c)

/-- What holds of every configuration of a search from a position on. -/
structure Searches (low : Nat) (c : Configuration) : Prop where
  placed : Placed low c.state
  ascending : Ascending c.state
  low_le : low ≤ c.state.next.position
  answer : ∀ hasMatch, c.control = .returned hasMatch → hasMatch = c.state.hasMatch

/-- The configuration after a pass of a loop. -/
structure StepsTo (low : Nat) (c c' : Configuration) : Prop where
  searches : Searches low c'
  works : Works c c'
  reads : ReadsOn c.state.input c'.state.input

theorem StepsTo.of_same {c c' : Configuration} (h : Searches low c)
    (hcontinues : Continues low c.state c'.state) (hrank : rank c' < rank c)
    (hanswer : ∀ hasMatch, c'.control = .returned hasMatch → hasMatch = c'.state.hasMatch) :
    StepsTo low c c' where
  searches := by
    have hsame := hcontinues.same
    refine ⟨hcontinues.placed, hsame.ascending h.ascending, ?_, hanswer⟩
    rw [hsame.next]
    exact h.low_le
  works := by
    have hsame := hcontinues.same
    exact .inr ⟨hsame.charactersLeft, hsame.next, hsame.current, .inl hrank⟩
  reads := hcontinues.same.readsOn

theorem expandWork_placed (engine : Engine) (h : Placed low s) (hw : s.work.hasCurrentWork = true) (hasMatch : Bool) :
    Yields (engine.expandWork threadIndex s hasMatch) fun r => Continues low s r.1 := by
  have hthread := h.currentWork hw
  have ended : Yields (keepMatch hasMatch (s.endWorkWithoutMatch s.work.currentWork))
      fun r => Continues low s r.1 :=
    .map (EngineState.endWorkWithoutMatch_placed h s.work.currentWork)
  rw [expandWork]
  refine .ite (fun _ => ended) fun hm => .ite (fun _ => ended) fun _ => .ite (fun _ => ?_)
    fun _ => ?_
  · refine (EngineState.addNextThread_placed h hthread _).bind fun s' hs' => .ok ?_
    exact hs'.trans hs'.placed.popWork
  · rw [Bool.not_eq_true] at hm
    rw [hm, handleFlowOperation_eq]
    apply Yields.intro
    intro r hr
    obtain ⟨effect, heffect, hr⟩ := bind_eq_ok hr
    have hsame := flowEffect_countSafe.of_eq_ok heffect
    exact (applyEffect_placed h hthread hsame).of_eq_ok hr

/-- The state in which a thread is expanded. -/
theorem prepareNext_placed (h : Placed low s) (hthread : PlacedThread low s thread) :
    Continues low s { s with work := EngineWork.initWorkList thread } where
  same := ⟨rfl, rfl, rfl, rfl, rfl, rfl, Nat.le_refl _⟩
  placed := by
    refine h.of_threads rfl rfl (fun hnone t ht => ?_) rfl rfl rfl
    rcases mem_engineThreads.mp ht with hwork | hother
    · rw [List.mem_singleton.mp hwork]
      exact hthread hnone
    · exact h.threads hnone t (mem_engineThreads.mpr (.inr hother))

theorem stepPrepareNext_stepsTo {c : Configuration} (h : Searches low c)
    (hc : c.control = .prepareNext threadIndex hasMatch caller) :
    Yields (engine.stepPrepareNext c.state threadIndex hasMatch caller) (StepsTo low c) := by
  obtain ⟨control, s⟩ := c
  obtain rfl : control = .prepareNext threadIndex hasMatch caller := hc
  rw [stepPrepareNext]
  refine .ite (fun hw => ?_) fun hw => .ok ?_
  · apply Yields.intro
    intro c' hc'
    obtain ⟨s₁, hs₁, hc'⟩ := bind_eq_ok hc'
    obtain ⟨⟨s₂, hasMatch'⟩, hs₂, hc'⟩ := bind_eq_ok hc'
    cases hc'
    obtain ⟨watchdog, rfl, hticks⟩ := tick_countSafe.of_eq_ok hs₁
    have h₁ : Placed low { s with watchdog := watchdog } :=
      ⟨h.placed.sets, h.placed.threads, h.placed.direct⟩
    have h₂ := (expandWork_placed engine h₁ hw hasMatch).of_eq_ok hs₂
    have hsame := h₂.same
    refine ⟨⟨h₂.placed, hsame.ascending ⟨h.ascending.bounds, h.ascending.sorted,
      h.ascending.next_le⟩, h.low_le.trans_eq hsame.next.symm, nofun⟩, .inr ⟨hsame.charactersLeft,
      hsame.next, hsame.current, .inr ⟨?_, ?_⟩⟩, hsame.readsOn⟩
    · have hle : s₂.current.threads.length ≤ s.current.threads.length := hsame.threads_le
      cases caller with
      | run => exact Nat.le_refl 2
      | newThread => exact Nat.le_refl 2
      | currentThread =>
        simp only [rank]
        omega
    · rw [ticks, ticks, hsame.watchdog, hsame.current]
      exact Nat.lt_of_succ_le hticks.le
  · have hcontinues : Continues low s s := .refl h.placed
    rw [afterPrepareNext.eq_def]
    cases caller with
    | currentThread =>
      refine .of_same h hcontinues ?_ nofun
      simp only [rank]
      omega
    | newThread => exact .of_same h hcontinues Nat.one_lt_two nofun
    | run =>
      simp only
      split_ifs
      · exact .of_same h hcontinues Nat.one_lt_two nofun
      · exact .of_same h hcontinues Nat.two_pos fun hasMatch hreturned => by cases hreturned; rfl
      · exact .of_same h hcontinues Nat.one_lt_two nofun

theorem stepMainLoop_stepsTo {c : Configuration} (h : Searches low c)
    (hc : c.control = .mainLoop) : Yields (engine.stepMainLoop c.state) (StepsTo low c) := by
  obtain ⟨control, s⟩ := c
  obtain rfl : control = .mainLoop := hc
  rw [stepMainLoop]
  refine .ite (fun hguard => ?_) fun _ => .ok ?_
  · have hend : s.isAtEnd = false := by
      have hnot := hguard.2
      rwa [Bool.not_eq_true', ] at hnot
    apply Yields.intro
    intro c' hc'
    obtain ⟨s₁, hs₁, hc'⟩ := bind_eq_ok hc'
    obtain ⟨s₂, hs₂, hc'⟩ := bind_eq_ok hc'
    cases hc'
    obtain ⟨watchdog, rfl, -⟩ := tick_countSafe.of_eq_ok hs₁
    have h₁ : Placed low { s with watchdog := watchdog } :=
      ⟨h.placed.sets, h.placed.threads, h.placed.direct⟩
    have ha₁ : Ascending { s with watchdog := watchdog } :=
      ⟨h.ascending.bounds, h.ascending.sorted, h.ascending.next_le⟩
    obtain ⟨hplaced, hascending, hnext, hleft, hreads⟩ :=
      (EngineState.advanceToNext_spec h₁ ha₁ hend engine.unicode.caseFolded).of_eq_ok hs₂
    exact ⟨⟨hplaced, hascending, h.low_le.trans hnext, nofun⟩, .inl ⟨hleft, hnext⟩, hreads⟩
  · exact .of_same h (.refl h.placed) Nat.one_pos fun hasMatch hreturned => by cases hreturned; rfl

theorem continueIf_matchStart (h : continueIf thread isMatch = some thread') :
    thread'.matchStart = thread.matchStart := by
  rw [continueIf] at h
  split_ifs at h
  cases h
  rfl

theorem handleChar_matchStart
    (h : engine.handleChar s thread caseInsensitive isNegated = .ok (some thread')) :
    thread'.matchStart = thread.matchStart := by
  obtain ⟨character, -, h⟩ := bind_eq_ok h
  exact continueIf_matchStart (Except.ok.inj h)

theorem handleSequence_matchStart
    (h : engine.handleSequence s thread caseInsensitive = .ok (some thread')) :
    thread'.matchStart = thread.matchStart := by
  obtain ⟨⟨offset, length⟩, -, h⟩ := bind_eq_ok h
  simp only at h
  split at h
  · cases h
  · split_ifs at h
    · cases h
      rfl
    · cases h
      rfl
    · cases h

theorem handleCategory_matchStart
    (h : engine.handleCategory s thread isNegated = .ok (some thread')) :
    thread'.matchStart = thread.matchStart := by
  obtain ⟨category, -, h⟩ := bind_eq_ok h
  exact continueIf_matchStart (Except.ok.inj h)

theorem handleClass_matchStart
    (h : engine.handleClass s thread caseInsensitive isNegated = .ok (some thread')) :
    thread'.matchStart = thread.matchStart := by
  obtain ⟨classIndex, -, h⟩ := bind_eq_ok h
  split at h
  · cases h
  · exact continueIf_matchStart (Except.ok.inj h)

/-- A thread that goes on has its start. -/
theorem handleCharOperation_matchStart
    (h : engine.handleCharOperation s thread = .ok (some thread')) :
    thread'.matchStart = thread.matchStart := by
  rw [handleCharOperation] at h
  split at h
  · exact handleChar_matchStart h
  · exact handleChar_matchStart h
  · exact handleChar_matchStart h
  · exact handleChar_matchStart h
  · exact handleSequence_matchStart h
  · exact handleSequence_matchStart h
  · exact handleCategory_matchStart h
  · exact handleCategory_matchStart h
  · exact handleClass_matchStart h
  · exact handleClass_matchStart h
  · exact handleClass_matchStart h
  · exact handleClass_matchStart h
  · exact continueIf_matchStart (Except.ok.inj h)
  · cases h

theorem stepThread_stepsTo {c : Configuration} (h : Searches low c)
    (hc : c.control = .currentThreads threadIndex hasMatch)
    (hthread : c.state.current.threads[threadIndex]? = some thread) :
    Yields (engine.stepThread c.state thread threadIndex hasMatch) (StepsTo low c) := by
  obtain ⟨control, s⟩ := c
  obtain rfl : control = .currentThreads threadIndex hasMatch := hc
  have hlt : threadIndex < s.current.threads.length := (List.getElem?_eq_some_iff.mp hthread).1
  have ended : Yields (s.endThreadWithoutMatch thread) fun s' =>
      StepsTo low ⟨.currentThreads threadIndex hasMatch, s⟩
        ⟨.currentThreads (threadIndex + 1) hasMatch, s'⟩ := by
    refine (EngineState.endThreadWithoutMatch_placed h.placed thread).mono fun s' hs' => ?_
    refine .of_same h hs' ?_ nofun
    have hle : s'.current.threads.length ≤ s.current.threads.length := hs'.same.threads_le
    simp only [rank]
    omega
  rw [stepThread]
  refine .ite (fun _ => ended.bind fun s' hs' => .ok hs') fun _ => ?_
  apply Yields.intro
  intro c' hc'
  obtain ⟨result, hresult, hc'⟩ := bind_eq_ok hc'
  cases result with
  | none => exact (ended.bind fun s' hs' => Ensures.ok hs').of_eq_ok hc'
  | some thread' =>
    cases hc'
    have hplaced : PlacedThread low s thread' := by
      intro hnone
      rw [handleCharOperation_matchStart hresult]
      have hmem := List.mem_of_getElem? hthread
      exact h.placed.threads hnone thread (mem_engineThreads.mpr (.inr (.inl hmem)))
    refine .of_same h (prepareNext_placed h.placed hplaced) ?_ nofun
    simp only [rank, prepareNext]
    omega

theorem stepAfterThreads_stepsTo {c : Configuration} (h : Searches low c)
    (hc : c.control = .currentThreads threadIndex hasMatch) :
    Yields (stepAfterThreads c.state) (StepsTo low c) := by
  obtain ⟨control, s⟩ := c
  obtain rfl : control = .currentThreads threadIndex hasMatch := hc
  have hrank : 3 ≤ rank ⟨.currentThreads threadIndex hasMatch, s⟩ := Nat.le_add_left 3 _
  rw [stepAfterThreads]
  refine .ite (fun _ => ?_) fun _ => .ite (fun _ => .ok ?_) fun _ => .ok ?_
  · refine (EngineState.createNewThread_placed h.placed h.low_le).bind fun r hr => .ok ?_
    obtain ⟨thread, s'⟩ := r
    refine .of_same h (hr.1.trans (prepareNext_placed hr.1.placed hr.2)) ?_ nofun
    exact lt_of_lt_of_le (Nat.lt_succ_self 2) hrank
  · refine .of_same h (.refl h.placed) (lt_of_lt_of_le (Nat.succ_pos 2) hrank) ?_
    intro hasMatch' hreturned
    cases hreturned
    rfl
  · exact .of_same h (.refl h.placed) (lt_of_lt_of_le (Nat.le_succ 2) hrank) nofun

theorem orFailed_stepsTo {c : Configuration} {x : Except MatchError Configuration}
    (h : Searches low c) (hrank : 0 < rank c) (hx : Yields x (StepsTo low c)) :
    StepsTo low c (orFailed c.state x) := by
  cases x with
  | ok c' => exact hx
  | error e => exact .of_same h (.refl h.placed) hrank nofun

/-- What a step does to a search. -/
theorem step_stepsTo {c c' : Configuration} (h : Searches low c) (hstep : engine.step c = some c') :
    StepsTo low c c' := by
  rw [step] at hstep
  split at hstep
  · rename_i hc
    cases hstep
    refine orFailed_stepsTo h ?_ (stepPrepareNext_stepsTo h hc)
    rw [rank, hc]
    rename_i caller
    cases caller <;> exact Nat.succ_pos _
  · rename_i hc
    cases hstep
    refine orFailed_stepsTo h ?_ (stepMainLoop_stepsTo h hc)
    rw [rank, hc]
    exact Nat.one_pos
  · rename_i threadIndex hasMatch hc
    cases hstep
    refine orFailed_stepsTo h ?_ ?_
    · rw [rank, hc]
      exact Nat.succ_pos _
    · rw [stepCurrentThreads]
      split
      · rename_i thread hthread
        exact stepThread_stepsTo h hc hthread
      · exact stepAfterThreads_stepsTo h hc
  · cases hstep
  · cases hstep

/-- The work that is left to a search: characters, loops and ticks. -/
def workLeft (c : Configuration) : Nat ×ₗ Nat ×ₗ Nat :=
  toLex (charactersLeft c.state, toLex (rank c, ticks c))

theorem Works.workLeft_lt {c c' : Configuration} (h : Works c c') : workLeft c' < workLeft c := by
  rw [workLeft, workLeft, Prod.Lex.toLex_lt_toLex]
  rcases h with ⟨hleft, -⟩ | ⟨hleft, -, -, hrank | ⟨hrank, hticks⟩⟩
  · exact .inl hleft
  · exact .inr ⟨hleft, Prod.Lex.toLex_lt_toLex.mpr (.inl hrank)⟩
  · refine .inr ⟨hleft, Prod.Lex.toLex_lt_toLex.mpr ?_⟩
    rcases Nat.lt_or_eq_of_le hrank with hlt | heq
    · exact .inl hlt
    · exact .inr ⟨heq, hticks⟩

theorem StepsTo.progresses {c c' : Configuration} (h : StepsTo low c c') :
    Progresses c.state c'.state := by
  rcases h.works with ⟨hleft, hnext⟩ | ⟨hleft, hnext, hcurrent, -⟩
  · exact ⟨hnext, .inl hleft, h.reads⟩
  · exact ⟨Nat.le_of_eq hnext.symm, .inr ⟨hleft, hnext, hcurrent⟩, h.reads⟩

/-- Every search halts. -/
theorem exists_halted (engine : Engine) {c : Configuration} (h : Searches low c) :
    ∃ c', StateTransition.Reaches engine.step c c' ∧ engine.step c' = none ∧ Searches low c' ∧
      Progresses c.state c'.state := by
  induction hwork : workLeft c using WellFoundedLT.induction generalizing c with
  | _ work ih =>
    cases hstep : engine.step c with
    | none => exact ⟨c, .refl, hstep, h, .refl _⟩
    | some next =>
      have hnext := step_stepsTo h hstep
      have hlt := hnext.works.workLeft_lt
      rw [hwork] at hlt
      obtain ⟨c', hreaches, hhalted, hsearches, hprogress⟩ := ih _ hlt hnext.searches rfl
      exact ⟨c', .head hstep hreaches, hhalted, hsearches, hnext.progresses.trans hprogress⟩

/-- The answer of a search within a number of steps. -/
def searchWithin (engine : Engine) (steps : Nat) (s : EngineState) :
    Option (Except MatchError (Bool × EngineState)) :=
  let c := Machine.advance engine.step steps (findFirst s)
  match c.control with
  | .returned hasMatch => some (.ok (hasMatch, c.state))
  | .failed e => some (.error e)
  | _ => none

/-- A search begins with a thread at the next character. -/
theorem findFirst_searches (h : Placed low s) (ha : Ascending s) (hlow : low ≤ s.next.position) :
    Searches low (findFirst s) ∧ Progresses s (findFirst s).state := by
  rw [findFirst, run]
  have hplaced : Placed low { s with flags := { s.flags with findFirst := true } } :=
    ⟨h.sets, h.threads, h.direct⟩
  have hascending : Ascending { s with flags := { s.flags with findFirst := true } } :=
    ⟨ha.bounds, ha.sorted, ha.next_le⟩
  have hcreated := EngineState.createNewThread_placed hplaced hlow
  revert hcreated
  cases EngineState.createNewThread _ _ with
  | error e =>
    intro _
    exact ⟨⟨hplaced, hascending, hlow, nofun⟩, ⟨Nat.le_refl _, .inr ⟨rfl, rfl, rfl⟩, .refl _⟩⟩
  | ok r =>
    intro hr
    have hcontinues := hr.1.trans (prepareNext_placed hr.1.placed hr.2)
    have hsame := hcontinues.same
    have hprogress := hsame.progresses
    refine ⟨⟨hcontinues.placed, hsame.ascending hascending, ?_, nofun⟩, ?_⟩
    · exact hlow.trans hprogress.next_le
    · exact ⟨hprogress.next_le, hprogress.moved, hprogress.reads⟩

/-- What a search leaves behind, and its answer. -/
structure Searched (low : Nat) (s : EngineState) (hasMatch : Bool) (s' : EngineState) : Prop where
  placed : Placed low s'
  ascending : Ascending s'
  low_le : low ≤ s'.next.position
  progresses : Progresses s s'
  answer : hasMatch = s'.hasMatch

/-- Every search ends, with an answer or an error. -/
theorem searchWithin_ends (engine : Engine) (h : Placed low s) (ha : Ascending s) (hlow : low ≤ s.next.position) :
    ∃ least result, (∀ steps ≥ least, engine.searchWithin steps s = some result) ∧
      Yields result fun r => Searched low s r.1 r.2 := by
  obtain ⟨hstart, hprogress⟩ := findFirst_searches h ha hlow
  obtain ⟨c, hreaches, hhalted, hsearches, hprogress'⟩ := exists_halted engine hstart
  obtain ⟨least, rfl⟩ := Machine.exists_advance hreaches
  have hmore : ∀ steps ≥ least, Machine.advance engine.step steps (findFirst s) =
      Machine.advance engine.step least (findFirst s) :=
    fun steps hle => Machine.advance_of_halted hhalted hle
  have hprogresses := hprogress.trans hprogress'
  generalize Machine.advance engine.step least (findFirst s) = c at *
  obtain ⟨control, s'⟩ := c
  cases control with
  | returned hasMatch =>
    refine ⟨least, .ok (hasMatch, s'), fun steps hle => ?_, ?_⟩
    · rw [searchWithin, hmore steps hle]
    · exact ⟨hsearches.placed, hsearches.ascending, hsearches.low_le, hprogresses,
        hsearches.answer hasMatch rfl⟩
  | failed e =>
    refine ⟨least, .error e, fun steps hle => ?_, trivial⟩
    rw [searchWithin, hmore steps hle]
  | prepareNext threadIndex hasMatch caller => cases hhalted
  | mainLoop => cases hhalted
  | currentThreads threadIndex hasMatch => cases hhalted

/-- More steps than a search takes change nothing. -/
theorem searchWithin_of_le (h : engine.searchWithin steps s = some result) (hle : steps ≤ more) :
    engine.searchWithin more s = some result := by
  have hhalted : engine.step (Machine.advance engine.step steps (findFirst s)) = none := by
    rw [searchWithin] at h
    rw [step]
    split at h
    · rename_i hcontrol
      rw [hcontrol]
    · rename_i hcontrol
      rw [hcontrol]
    · cases h
  rw [← h, searchWithin, searchWithin, Machine.advance_of_halted hhalted hle]

theorem searchWithin_searched (h : Placed low s) (ha : Ascending s) (hlow : low ≤ s.next.position)
    (hresult : engine.searchWithin steps s = some result) :
    Yields result fun r => Searched low s r.1 r.2 := by
  obtain ⟨least, result', hends, hsearched⟩ := searchWithin_ends engine h ha hlow
  have hmore := hends (max steps least) (le_max_right _ _)
  rw [searchWithin_of_le hresult (le_max_left _ _)] at hmore
  cases hmore
  exact hsearched

end Engine

end ErbslandCore.Re
