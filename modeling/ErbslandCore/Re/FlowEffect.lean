import ErbslandCore.Re.Engine

namespace ErbslandCore.Re
open Library
set_option autoImplicit true

/-- What a flow operation asks for; it depends on the thread and the characters around it. -/
inductive FlowEffect where
  | advance (thread : EngineThread)
  | split (thread : EngineThread) (programCounterB : Nat)
  | stop
  | match
  | success
  | failure
  | capture (isStart : Bool) (captureGroup : Nat)
  | startAtomic (atomicGroupId : Nat)
  | stopAtomic (atomicGroupId : Nat)

namespace Engine
variable (engine : Engine) (state : EngineState) (thread : EngineThread)

/-- Pass a zero-width test or end the thread. -/
def testEffect (isMatch : Bool) : FlowEffect :=
  if isMatch then .advance { thread with programCounter := thread.programCounter + 1 } else .stop

def counterEffect (counterIndex value : Nat) : FlowEffect :=
  .advance { thread with
    programCounter := thread.programCounter + 1
    counter := thread.counter.set counterIndex value }

/-- Decode a counter operation whose index is in range. -/
def readCounterChecked : Except MatchError (Nat × Nat) := do
  let (counterIndex, value) ← fromRegEx (engine.data.program.readCounter thread.programCounter)
  requireCounterIndexInBounds counterIndex
  return (counterIndex, value)

def skipEffect (counterIndex maximumValue : Nat) : Except MatchError FlowEffect :=
  if counterValue thread counterIndex < maximumValue then
    .ok (counterEffect thread counterIndex (counterValue thread counterIndex + 1))
  else do
    engine.requireProgramCounterInBounds (thread.programCounter + 2)
    return .advance { thread with
      programCounter := thread.programCounter + 2
      counter := thread.counter.set counterIndex 0 }

def flowEffect : Except MatchError FlowEffect :=
  match engine.data.program.peekOperation thread.programCounter with
  | .none => .ok (testEffect thread true)
  | .split => do
    let (programCounterA, programCounterB) ←
      fromRegEx (engine.data.program.readSplit thread.programCounter)
    engine.requireProgramCounterInBounds programCounterA
    return .split { thread with programCounter := programCounterA } programCounterB
  | .jump => do
    let programCounter ← fromRegEx (engine.data.program.readJump thread.programCounter)
    engine.requireProgramCounterInBounds programCounter
    return .advance { thread with programCounter := programCounter }
  | .match => .ok .match
  | .notMatch => .ok .stop
  | .success => .ok .success
  | .failure => .ok .failure
  | .anchor => do
    let anchor ← fromRegEx (engine.data.program.readAnchorValue thread.programCounter)
    let isMatch ← engine.testAnchor state anchor
    return testEffect thread isMatch
  | .startCapture => .capture true <$>
      fromRegEx (engine.data.program.readCapture thread.programCounter)
  | .stopCapture => .capture false <$>
      fromRegEx (engine.data.program.readCapture thread.programCounter)
  | .startAtomic => .startAtomic <$>
      fromRegEx (engine.data.program.readAtomic thread.programCounter)
  | .stopAtomic => .stopAtomic <$>
      fromRegEx (engine.data.program.readAtomic thread.programCounter)
  | .counter => (fun c => counterEffect thread c.1 c.2) <$> engine.readCounterChecked thread
  | .addCounter => (fun c => counterEffect thread c.1
      (min (counterValue thread c.1 + c.2) (2 ^ 16 - 1))) <$> engine.readCounterChecked thread
  | .maximum => (fun c =>
      if counterValue thread c.1 ≥ c.2 then .stop
      else counterEffect thread c.1 (counterValue thread c.1 + 1)) <$>
        engine.readCounterChecked thread
  | .skipIfMaximum => do
    let c ← engine.readCounterChecked thread
    engine.skipEffect thread c.1 c.2
  | .minimum => (fun c =>
      if counterValue thread c.1 < c.2 then .stop else counterEffect thread c.1 0) <$>
        engine.readCounterChecked thread
  | .assertCategory => (fun category =>
      testEffect thread (engine.isCurrentInCategory state category)) <$>
        fromRegEx (engine.data.program.readCategoryValue thread.programCounter)
  | .notAssertCategory => (fun category =>
      testEffect thread !(engine.isCurrentInCategory state category)) <$>
        fromRegEx (engine.data.program.readCategoryValue thread.programCounter)
  | _ => .error (engineError "Unexpected flow operation")

def stopAtomicEffect (threadIndex atomicGroupId : Nat) : Except MatchError EngineState :=
  match state.captureGroupManager with
  | none => .error (.regEx (internalError "capture group manager missing"))
  | some manager => do
    let affectedReferences ← fromRegEx
      (manager.getAllReferencesForAtomicGroup thread.captureGroupSet atomicGroupId)
    let state := withWork state { thread with programCounter := thread.programCounter + 1 }
    let state ← state.pruneWork affectedReferences
    state.pruneCurrentList affectedReferences threadIndex

/-- Carry out an effect on the current work. -/
def applyEffect (threadIndex : Nat) : FlowEffect → Except MatchError (EngineState × Bool)
  | .advance thread => .ok (withWork state thread, false)
  | .split threadA programCounterB => keepMatch false do
    let state ← (withWork state threadA).cloneThread threadA
    engine.requireProgramCounterInBounds programCounterB
    return { state with
      work := state.work.addWork { threadA with programCounter := programCounterB } }
  | .stop => keepMatch false (state.endWorkWithoutMatch thread)
  | .match => handleMatchOperation state thread threadIndex false
  | .success => handleSuccessOperation state thread threadIndex false
  | .failure => keepMatch false do
    let state ← state.endWorkWithoutMatch thread
    return { state with endRequested := true }
  | .capture isStart captureGroup => keepMatch false <|
    modifyCaptures state thread fun manager reference =>
      if isStart then manager.startCapture reference (captureGroup + 1) state.next.position
      else manager.stopCapture reference (captureGroup + 1) state.next.position
  | .startAtomic atomicGroupId => keepMatch false <|
    modifyCaptures state thread fun manager reference =>
      manager.markThreadWithAtomicGroupId reference atomicGroupId
  | .stopAtomic atomicGroupId =>
    keepMatch false (stopAtomicEffect state thread threadIndex atomicGroupId)

theorem continueWorkIf_eq (isMatch : Bool) (threadIndex : Nat) :
    keepMatch false (continueWorkIf state thread isMatch) =
      engine.applyEffect state thread threadIndex (testEffect thread isMatch) := by
  cases isMatch <;> rfl

theorem handleSplitOperation_eq (threadIndex : Nat) :
    keepMatch false (engine.handleSplitOperation state thread) =
      (do
        let (programCounterA, programCounterB) ←
          fromRegEx (engine.data.program.readSplit thread.programCounter)
        engine.requireProgramCounterInBounds programCounterA
        return FlowEffect.split { thread with programCounter := programCounterA }
          programCounterB) >>= engine.applyEffect state thread threadIndex := by
  unfold handleSplitOperation
  cases fromRegEx (engine.data.program.readSplit thread.programCounter) with
  | error e => rfl
  | ok p =>
    obtain ⟨a, b⟩ := p
    simp only [bind, Except.bind]
    cases engine.requireProgramCounterInBounds a <;> rfl

theorem handleJumpOperation_eq (threadIndex : Nat) :
    keepMatch false (engine.handleJumpOperation state thread) =
      (do
        let programCounter ← fromRegEx (engine.data.program.readJump thread.programCounter)
        engine.requireProgramCounterInBounds programCounter
        return FlowEffect.advance { thread with programCounter := programCounter }) >>=
          engine.applyEffect state thread threadIndex := by
  unfold handleJumpOperation
  cases fromRegEx (engine.data.program.readJump thread.programCounter) with
  | error e => rfl
  | ok a =>
    simp only [bind, Except.bind]
    cases engine.requireProgramCounterInBounds a <;> rfl

theorem handleAnchorOperation_eq (threadIndex : Nat) :
    keepMatch false (engine.handleAnchorOperation state thread) =
      (do
        let anchor ← fromRegEx (engine.data.program.readAnchorValue thread.programCounter)
        let isMatch ← engine.testAnchor state anchor
        return testEffect thread isMatch) >>= engine.applyEffect state thread threadIndex := by
  unfold handleAnchorOperation
  cases fromRegEx (engine.data.program.readAnchorValue thread.programCounter) with
  | error e => rfl
  | ok a =>
    simp only [bind, Except.bind]
    cases engine.testAnchor state a with
    | error e => rfl
    | ok isMatch => exact engine.continueWorkIf_eq state thread isMatch threadIndex

theorem handleAssertCategoryOperation_eq (isNegated : Bool) (threadIndex : Nat) :
    keepMatch false (engine.handleAssertCategoryOperation state thread isNegated) =
      ((fun category => testEffect thread
        (engine.isCurrentInCategory state category != isNegated)) <$>
          fromRegEx (engine.data.program.readCategoryValue thread.programCounter)) >>=
            engine.applyEffect state thread threadIndex := by
  unfold handleAssertCategoryOperation
  cases fromRegEx (engine.data.program.readCategoryValue thread.programCounter) with
  | error e => rfl
  | ok a => exact engine.continueWorkIf_eq state thread _ threadIndex

/-- A counter operation reads its operands and checks the index before anything else. -/
theorem counterOperation_eq (threadIndex : Nat)
    (handle : Nat × Nat → Except MatchError EngineState)
    (effect : Nat × Nat → Except MatchError FlowEffect)
    (h : ∀ c, keepMatch false (handle c) =
      effect c >>= engine.applyEffect state thread threadIndex) :
    keepMatch false (do
      let (counterIndex, value) ←
        fromRegEx (engine.data.program.readCounter thread.programCounter)
      requireCounterIndexInBounds counterIndex
      handle (counterIndex, value)) =
      (engine.readCounterChecked thread >>= effect) >>=
        engine.applyEffect state thread threadIndex := by
  unfold readCounterChecked
  cases fromRegEx (engine.data.program.readCounter thread.programCounter) with
  | error e => rfl
  | ok p =>
    obtain ⟨index, value⟩ := p
    simp only [bind, Except.bind]
    cases requireCounterIndexInBounds index with
    | error e => rfl
    | ok u => exact h (index, value)

theorem skipEffect_eq (threadIndex counterIndex maximumValue : Nat) :
    keepMatch false (if counterValue thread counterIndex < maximumValue then
        .ok (setCounter state thread counterIndex (counterValue thread counterIndex + 1))
      else do
        engine.requireProgramCounterInBounds (thread.programCounter + 2)
        return withWork state { thread with
          programCounter := thread.programCounter + 2
          counter := thread.counter.set counterIndex 0 }) =
      engine.skipEffect thread counterIndex maximumValue >>=
        engine.applyEffect state thread threadIndex := by
  unfold skipEffect
  split
  case isTrue => rfl
  case isFalse =>
    cases engine.requireProgramCounterInBounds (thread.programCounter + 2) <;> rfl

theorem keepMatch_ite (p : Prop) [Decidable p] (x y : Except MatchError EngineState) :
    keepMatch false (if p then x else y) = if p then keepMatch false x else keepMatch false y :=
  apply_ite _ _ _ _

theorem handleFlowOperation_eq (threadIndex : Nat) :
    engine.handleFlowOperation state thread threadIndex false =
      engine.flowEffect state thread >>= engine.applyEffect state thread threadIndex := by
  unfold handleFlowOperation flowEffect
  generalize engine.data.program.peekOperation thread.programCounter = operation
  cases operation with
  | split => exact engine.handleSplitOperation_eq state thread threadIndex
  | jump => exact engine.handleJumpOperation_eq state thread threadIndex
  | anchor => exact engine.handleAnchorOperation_eq state thread threadIndex
  | startCapture =>
    unfold handleCaptureOperation
    cases fromRegEx (engine.data.program.readCapture thread.programCounter) <;> rfl
  | stopCapture =>
    unfold handleCaptureOperation
    cases fromRegEx (engine.data.program.readCapture thread.programCounter) <;> rfl
  | startAtomic =>
    unfold handleStartAtomic
    cases fromRegEx (engine.data.program.readAtomic thread.programCounter) <;> rfl
  | stopAtomic =>
    unfold handleStopAtomic
    cases fromRegEx (engine.data.program.readAtomic thread.programCounter) <;> rfl
  | counter =>
    exact engine.counterOperation_eq state thread threadIndex
      (fun c => .ok (setCounter state thread c.1 c.2))
      (fun c => .ok (counterEffect thread c.1 c.2)) fun _ => rfl
  | addCounter =>
    exact engine.counterOperation_eq state thread threadIndex
      (fun c => .ok (setCounter state thread c.1
        (min (counterValue thread c.1 + c.2) (2 ^ 16 - 1))))
      (fun c => .ok (counterEffect thread c.1
        (min (counterValue thread c.1 + c.2) (2 ^ 16 - 1)))) fun _ => rfl
  | maximum =>
    refine engine.counterOperation_eq state thread threadIndex
      (fun c => if counterValue thread c.1 ≥ c.2 then state.endWorkWithoutMatch thread
        else .ok (setCounter state thread c.1 (counterValue thread c.1 + 1)))
      (fun c => .ok (if counterValue thread c.1 ≥ c.2 then .stop
        else counterEffect thread c.1 (counterValue thread c.1 + 1))) fun c => ?_
    rw [keepMatch_ite]
    simp only [bind, Except.bind]
    split <;> rfl
  | skipIfMaximum =>
    exact engine.counterOperation_eq state thread threadIndex _ _
      fun c => engine.skipEffect_eq state thread threadIndex c.1 c.2
  | minimum =>
    refine engine.counterOperation_eq state thread threadIndex
      (fun c => if counterValue thread c.1 < c.2 then state.endWorkWithoutMatch thread
        else .ok (setCounter state thread c.1 0))
      (fun c => .ok (if counterValue thread c.1 < c.2 then .stop
        else counterEffect thread c.1 0)) fun c => ?_
    rw [keepMatch_ite]
    simp only [bind, Except.bind]
    split <;> rfl
  | assertCategory =>
    rw [engine.handleAssertCategoryOperation_eq state thread false threadIndex]
    simp only [Bool.bne_false]
  | notAssertCategory =>
    rw [engine.handleAssertCategoryOperation_eq state thread true threadIndex]
    simp only [Bool.bne_true]
  | _ => rfl

end Engine

end ErbslandCore.Re
