import ErbslandCore.Re.EngineRuns

namespace ErbslandCore.Re
open Library
set_option autoImplicit true

/-- An error of the engine, not one of its input. -/
def IsRegExError (e : MatchError) : Prop := ∃ error, e = .regEx error

/-- A result, or an error of the engine. -/
abbrev FromEngine (x : Except MatchError α) : Prop := Ensures x (fun _ => True) IsRegExError

theorem fromRegEx_fromEngine (x : Except RegExError α) : FromEngine (fromRegEx x) := by
  cases x with
  | ok a => trivial
  | error e => exact ⟨e, rfl⟩

theorem engineError_fromEngine (description : String) :
    FromEngine (.error (engineError description) : Except MatchError α) := ⟨_, rfl⟩

namespace EngineState
variable {s : EngineState}

theorem withManager_fromEngine (update : CaptureGroupManager → Except RegExError CaptureGroupManager) :
    FromEngine (s.withManager update) := by
  rw [withManager]
  split
  · trivial
  · exact (fromRegEx_fromEngine _).bind fun _ _ => .ok trivial

theorem tick_fromEngine : FromEngine s.tick := by
  refine Ensures.bind (m := fun _ => True) ?_ fun _ _ => .ok trivial
  rw [Watchdog.tick]
  refine .ite (fun _ => .ite (fun _ => ?_) fun _ => trivial) fun _ => trivial
  exact ⟨_, rfl⟩

theorem createNewThread_fromEngine (startPosition : Nat) :
    FromEngine (s.createNewThread startPosition) := by
  rw [createNewThread]
  split
  · exact (fromRegEx_fromEngine _).bind fun _ _ => .ok trivial
  · trivial

theorem addNextThread_fromEngine (thread : EngineThread) (isCaseInsensitive : Bool) :
    FromEngine (s.addNextThread thread isCaseInsensitive) := by
  rw [addNextThread]
  refine .ite (fun _ => withManager_fromEngine _) fun _ => .ite (fun _ => ?_) fun _ => trivial
  exact ⟨_, rfl⟩

theorem endWorkWithoutMatch_fromEngine (work : EngineThread) :
    FromEngine (s.endWorkWithoutMatch work) :=
  (withManager_fromEngine _).bind fun _ _ => .ok trivial

theorem endThreadWithMatch_fromEngine (thread : EngineThread) (threadIndex : Nat) :
    FromEngine (s.endThreadWithMatch thread threadIndex) := by
  rw [endThreadWithMatch]
  split
  · exact .ite (fun _ => trivial) fun _ => trivial
  · exact fromRegEx_fromEngine _

theorem pruneWork_fromEngine (references : List Nat) : FromEngine (s.pruneWork references) :=
  (withManager_fromEngine _).bind fun _ _ => .ok trivial

theorem pruneCurrentList_fromEngine (references : List Nat) (threadIndex : Nat) :
    FromEngine (s.pruneCurrentList references threadIndex) :=
  (withManager_fromEngine _).bind fun _ _ => .ok trivial

end EngineState

namespace Engine
variable {engine : Engine} {s : EngineState} {thread : EngineThread} {threadIndex : Nat}

theorem requireProgramCounterInBounds_fromEngine (programCounter : Nat) :
    FromEngine (engine.requireProgramCounterInBounds programCounter) :=
  .ite (fun _ => engineError_fromEngine _) fun _ => trivial

theorem readCounterChecked_fromEngine : FromEngine (engine.readCounterChecked thread) := by
  refine (fromRegEx_fromEngine _).bind fun _ _ => ?_
  refine Ensures.bind (m := fun _ => True) ?_ fun _ _ => .ok trivial
  exact .ite (fun _ => engineError_fromEngine _) fun _ => trivial

theorem testAnchor_fromEngine (anchor : Nat) : FromEngine (engine.testAnchor s anchor) := by
  rw [testAnchor.eq_def]
  simp only
  split
  case h_10 => exact ⟨_, rfl⟩
  all_goals trivial

theorem flowEffect_fromEngine : FromEngine (engine.flowEffect s thread) := by
  rw [flowEffect.eq_def]
  split
  case h_2 =>
    refine (fromRegEx_fromEngine _).bind fun _ _ => ?_
    exact (requireProgramCounterInBounds_fromEngine _).bind fun _ _ => .ok trivial
  case h_3 =>
    refine (fromRegEx_fromEngine _).bind fun _ _ => ?_
    exact (requireProgramCounterInBounds_fromEngine _).bind fun _ _ => .ok trivial
  case h_8 =>
    refine (fromRegEx_fromEngine _).bind fun anchor _ => ?_
    exact (testAnchor_fromEngine anchor).bind fun _ _ => .ok trivial
  case h_9 => exact .map (fromRegEx_fromEngine _)
  case h_10 => exact .map (fromRegEx_fromEngine _)
  case h_11 => exact .map (fromRegEx_fromEngine _)
  case h_12 => exact .map (fromRegEx_fromEngine _)
  case h_13 => exact .map readCounterChecked_fromEngine
  case h_14 => exact .map readCounterChecked_fromEngine
  case h_15 => exact .map readCounterChecked_fromEngine
  case h_16 =>
    refine readCounterChecked_fromEngine.bind fun _ _ => .ite (fun _ => trivial) fun _ => ?_
    exact (requireProgramCounterInBounds_fromEngine _).bind fun _ _ => .ok trivial
  case h_17 => exact .map readCounterChecked_fromEngine
  case h_18 => exact .map (fromRegEx_fromEngine _)
  case h_19 => exact .map (fromRegEx_fromEngine _)
  case h_20 => exact engineError_fromEngine _
  all_goals trivial

theorem handleMatchOperation_fromEngine (hasMatch : Bool) :
    FromEngine (handleMatchOperation s thread threadIndex hasMatch) := by
  rw [handleMatchOperation]
  refine .ite (fun _ => ?_) fun _ => ?_
  · exact (EngineState.endWorkWithoutMatch_fromEngine _).bind fun _ _ => .ok trivial
  · exact (EngineState.endThreadWithMatch_fromEngine _ _).bind fun _ _ => .ok trivial

theorem modifyCaptures_fromEngine
    (modify : CaptureGroupManager → Nat → Except RegExError (Nat × CaptureGroupManager)) :
    FromEngine (modifyCaptures s thread modify) := by
  rw [modifyCaptures]
  split
  · exact ⟨_, rfl⟩
  · exact (fromRegEx_fromEngine _).bind fun _ _ => .ok trivial

theorem stopAtomicEffect_fromEngine (atomicGroupId : Nat) :
    FromEngine (stopAtomicEffect s thread threadIndex atomicGroupId) := by
  rw [stopAtomicEffect]
  split
  · exact ⟨_, rfl⟩
  · refine (fromRegEx_fromEngine _).bind fun _ _ => ?_
    refine (EngineState.pruneWork_fromEngine _).bind fun _ _ => ?_
    exact EngineState.pruneCurrentList_fromEngine _ _

theorem applyEffect_fromEngine (effect : FlowEffect) :
    FromEngine (engine.applyEffect s thread threadIndex effect) := by
  cases effect with
  | advance t => trivial
  | split t programCounterB =>
    refine .map ((EngineState.withManager_fromEngine _).bind fun _ _ => ?_)
    exact (requireProgramCounterInBounds_fromEngine _).bind fun _ _ => .ok trivial
  | stop => exact .map (EngineState.endWorkWithoutMatch_fromEngine _)
  | «match» => exact handleMatchOperation_fromEngine _
  | success => exact (handleMatchOperation_fromEngine _).bind fun _ _ => .ok trivial
  | failure =>
    exact .map ((EngineState.endWorkWithoutMatch_fromEngine _).bind fun _ _ => .ok trivial)
  | capture isStart captureGroup => exact .map (modifyCaptures_fromEngine _)
  | startAtomic atomicGroupId => exact .map (modifyCaptures_fromEngine _)
  | stopAtomic atomicGroupId => exact .map (stopAtomicEffect_fromEngine _)

theorem expandWork_fromEngine : FromEngine (engine.expandWork threadIndex s hasMatch) := by
  have ended : FromEngine (keepMatch hasMatch (s.endWorkWithoutMatch s.work.currentWork)) :=
    .map (EngineState.endWorkWithoutMatch_fromEngine _)
  rw [expandWork]
  refine .ite (fun _ => ended) fun hm => .ite (fun _ => ended) fun _ => .ite (fun _ => ?_)
    fun _ => ?_
  · exact (EngineState.addNextThread_fromEngine _ _).bind fun _ _ => .ok trivial
  · rw [Bool.not_eq_true] at hm
    rw [hm, handleFlowOperation_eq]
    exact flowEffect_fromEngine.bind fun effect _ => applyEffect_fromEngine effect

theorem handleCharOperation_fromEngine : FromEngine (engine.handleCharOperation s thread) := by
  have handleChar (caseInsensitive isNegated : Bool) :
      FromEngine (engine.handleChar s thread caseInsensitive isNegated) :=
    (fromRegEx_fromEngine _).bind fun _ _ => .ok trivial
  have handleSequence (caseInsensitive : Bool) :
      FromEngine (engine.handleSequence s thread caseInsensitive) := by
    refine (fromRegEx_fromEngine _).bind fun _ _ => ?_
    simp only
    split
    · exact engineError_fromEngine _
    · refine .ite (fun _ => .ite (fun _ => ?_) fun _ => ?_) fun _ => ?_
      all_goals trivial
  have handleCategory (isNegated : Bool) :
      FromEngine (engine.handleCategory s thread isNegated) :=
    (fromRegEx_fromEngine _).bind fun _ _ => .ok trivial
  have handleClass (caseInsensitive isNegated : Bool) :
      FromEngine (engine.handleClass s thread caseInsensitive isNegated) := by
    refine (fromRegEx_fromEngine _).bind fun _ _ => ?_
    split
    · exact ⟨_, rfl⟩
    · trivial
  rw [handleCharOperation.eq_def]
  split
  case h_13 => trivial
  case h_14 => exact engineError_fromEngine _
  case h_5 => exact handleSequence _
  case h_6 => exact handleSequence _
  case h_7 => exact handleCategory _
  case h_8 => exact handleCategory _
  case h_9 => exact handleClass _ _
  case h_10 => exact handleClass _ _
  case h_11 => exact handleClass _ _
  case h_12 => exact handleClass _ _
  all_goals exact handleChar _ _

/-- The configuration after a pass did not fail, or an error of the engine. -/
abbrev StepFromEngine (x : Except MatchError Configuration) : Prop :=
  Ensures x (fun c => ∀ e, c.control ≠ .failed e) IsRegExError

theorem stepPrepareNext_fromEngine :
    StepFromEngine (engine.stepPrepareNext s threadIndex hasMatch caller) := by
  rw [stepPrepareNext]
  refine .ite (fun _ => ?_) fun _ => .ok ?_
  · refine EngineState.tick_fromEngine.bind fun _ _ => ?_
    exact expandWork_fromEngine.bind fun _ _ => .ok (by rintro _ ⟨⟩)
  · rw [afterPrepareNext.eq_def]
    cases caller with
    | currentThread => rintro _ ⟨⟩
    | newThread => rintro _ ⟨⟩
    | run =>
      simp only
      split_ifs
      all_goals rintro _ ⟨⟩

theorem stepCurrentThreads_fromEngine :
    StepFromEngine (engine.stepCurrentThreads s threadIndex hasMatch) := by
  have ended (thread : EngineThread) :
      StepFromEngine (do
        let state ← s.endThreadWithoutMatch thread
        return ⟨.currentThreads (threadIndex + 1) hasMatch, state⟩) :=
    (EngineState.withManager_fromEngine _).bind fun _ _ => .ok (by rintro _ ⟨⟩)
  rw [stepCurrentThreads]
  split
  · rename_i thread _
    refine .ite (fun _ => ended thread) fun _ => ?_
    refine handleCharOperation_fromEngine.bind fun result _ => ?_
    cases result with
    | some thread' => exact .ok (by rintro _ ⟨⟩)
    | none => exact ended thread
  · refine .ite (fun _ => ?_) fun _ => .ite (fun _ => .ok (by rintro _ ⟨⟩)) fun _ =>
      .ok (by rintro _ ⟨⟩)
    exact (EngineState.createNewThread_fromEngine _).bind fun _ _ => .ok (by rintro _ ⟨⟩)

end Engine

/-- The input accepts all characters that are left. -/
def NullsAccepted (input : Input) : Prop :=
  ∀ c ∈ input.remaining, c.character = 0 → input.acceptsNull = true

theorem ReadsOn.nullsAccepted (h : ReadsOn input input') (hn : NullsAccepted input) :
    NullsAccepted input' := by
  intro c hc hzero
  rw [h.acceptsNull]
  exact hn c (h.remaining.subset hc) hzero

namespace Input
variable {input : Input}

theorem peek_ok (h : NullsAccepted input) : ∃ c, input.peek = .ok c := by
  rw [peek]
  cases hrest : input.remaining with
  | nil => exact ⟨_, if_neg fun hzero => absurd hzero.1 (Nat.succ_ne_zero _)⟩
  | cons c rest =>
    refine ⟨c, if_neg fun hzero => ?_⟩
    have haccepted : input.acceptsNull = true := by
      refine h c ?_ hzero.1
      rw [hrest]
      exact List.mem_cons_self
    rw [haccepted] at hzero
    cases hzero.2

theorem read_ok (h : NullsAccepted input) : ∃ c, input.read = .ok (c, input.tail) := by
  obtain ⟨c, hpeek⟩ := peek_ok h
  rw [read, hpeek]
  exact ⟨c, rfl⟩

end Input

namespace EngineState
variable {s : EngineState}

theorem readNext_ok (h : NullsAccepted s.input) :
    ∃ s', s.readNext = .ok s' ∧ s'.input = s.input.tail := by
  obtain ⟨c, hread⟩ := Input.read_ok h
  rw [readNext, hread]
  exact ⟨_, rfl, rfl⟩

theorem foldCRLF_ok (h : NullsAccepted s.input) : ∃ s', s.foldCRLF = .ok s' := by
  obtain ⟨c, hpeek⟩ := Input.peek_ok h
  obtain ⟨c', hread⟩ := Input.read_ok h
  rw [foldCRLF, hpeek, hread]
  split_ifs with hfold
  · rw [ok_bind]
    split_ifs
    · exact ⟨_, rfl⟩
    · exact ⟨_, rfl⟩
  · exact ⟨_, rfl⟩

/-- Reading accepted characters does not fail. -/
theorem advanceToNext_ok (h : NullsAccepted s.input) (caseFolded : Nat → Nat) :
    ∃ s', s.advanceToNext caseFolded = .ok s' := by
  rw [advanceToNext]
  generalize (if s.next.hasCaseInsensitiveOperations then
    { s.next with caseFoldedCharacter := caseFolded s.next.character } else s.next) = current
  obtain ⟨s₁, hs₁, hinput⟩ :=
    readNext_ok (s := { s with current := current, next := {} }) h
  rw [hs₁, ok_bind]
  apply foldCRLF_ok
  rw [hinput]
  exact (ReadsOn.tail _).nullsAccepted h

end EngineState

namespace Engine
variable {engine : Engine} {s : EngineState}

theorem stepMainLoop_fromEngine (h : NullsAccepted s.input) :
    StepFromEngine (engine.stepMainLoop s) := by
  rw [stepMainLoop]
  refine .ite (fun _ => ?_) fun _ => .ok (by rintro _ ⟨⟩)
  cases htick : s.tick with
  | error e => exact EngineState.tick_fromEngine.of_eq_error htick
  | ok s₁ =>
    have hinput : s₁.input = s.input := by
      obtain ⟨watchdog, -, hs₁⟩ := bind_eq_ok htick
      cases hs₁
      rfl
    obtain ⟨s₂, hs₂⟩ := EngineState.advanceToNext_ok (hinput ▸ h) engine.unicode.caseFolded
    rw [ok_bind, hs₂]
    rintro _ ⟨⟩

/-- A search in accepted text fails with errors of the engine only. -/
def FailsInEngine (c : Configuration) : Prop := ∀ e, c.control = .failed e → IsRegExError e

theorem orFailed_failsInEngine {x : Except MatchError Configuration} (h : StepFromEngine x) :
    FailsInEngine (orFailed s x) := by
  cases x with
  | ok c => exact fun e he => absurd he (h e)
  | error error =>
    rintro e ⟨⟩
    exact h

theorem step_failsInEngine {c c' : Configuration} (h : NullsAccepted c.state.input)
    (hstep : engine.step c = some c') : FailsInEngine c' := by
  rw [step] at hstep
  split at hstep
  · cases hstep
    exact orFailed_failsInEngine stepPrepareNext_fromEngine
  · cases hstep
    exact orFailed_failsInEngine (stepMainLoop_fromEngine h)
  · cases hstep
    exact orFailed_failsInEngine stepCurrentThreads_fromEngine
  · cases hstep
  · cases hstep

theorem findFirst_failsInEngine (s : EngineState) : FailsInEngine (findFirst s) :=
  orFailed_failsInEngine ((EngineState.createNewThread_fromEngine _).bind fun _ _ => .ok nofun)

/-- A search in accepted text. -/
structure SearchesAccepted (low : Nat) (c : Configuration) : Prop where
  searches : Searches low c
  accepted : NullsAccepted c.state.input
  failsInEngine : FailsInEngine c

theorem step_searchesAccepted {c c' : Configuration} (h : SearchesAccepted low c)
    (hstep : engine.step c = some c') : SearchesAccepted low c' := by
  have hnext := step_stepsTo h.searches hstep
  exact ⟨hnext.searches, hnext.reads.nullsAccepted h.accepted,
    step_failsInEngine h.accepted hstep⟩

theorem searchWithin_failsInEngine (h : Placed low s) (ha : Ascending s)
    (hlow : low ≤ s.next.position) (hn : NullsAccepted s.input)
    (hresult : engine.searchWithin steps s = some (.error e)) : IsRegExError e := by
  obtain ⟨hstart, hprogress⟩ := findFirst_searches h ha hlow
  have hfirst : SearchesAccepted low (findFirst s) :=
    ⟨hstart, hprogress.reads.nullsAccepted hn, findFirst_failsInEngine s⟩
  have hlast : SearchesAccepted low (Machine.advance engine.step steps (findFirst s)) :=
    Machine.reaches_invariant (fun _ _ hc hstep => step_searchesAccepted hc hstep)
      (Machine.reaches_advance steps (findFirst s)) hfirst
  rw [searchWithin] at hresult
  split at hresult
  · cases hresult
  · rename_i hcontrol
    cases hresult
    exact hlast.failsInEngine e hcontrol
  · cases hresult

end Engine

end ErbslandCore.Re
