import ErbslandCore.Library.Machine
import ErbslandCore.Re.EngineState

namespace ErbslandCore.Re
open Library
set_option autoImplicit true

/-- The tables of character properties that the engine relies on. -/
structure UnicodeData where
  caseFolded : Nat → Nat
  categoryMask : Nat → Nat

/-- The mask of the categories for word characters. -/
def wordUnicode : Nat := 2 ^ 16

def wordAscii : Nat := 2 ^ 16 + 2 ^ 14

/-- A character class of sorted ranges without overlaps. -/
structure CharClass where
  ranges : List (Nat × Nat)
  deriving DecidableEq

/-- A binary search for the first range that does not start before the character. -/
def CharClass.matches (charClass : CharClass) (character : Nat) : Bool :=
  let before := charClass.ranges.takeWhile fun range => range.1 < character
  let exactMatch := match charClass.ranges[before.length]? with
    | some range => range.1 == character
    | none => false
  exactMatch || match before.getLast? with
    | some range => decide (character ≤ range.2)
    | none => false

structure EngineData where
  sequenceData : List Nat := []
  charClassData : List CharClass := []
  program : Program := []
  captureGroupNames : List String := []
  counterCount : Nat := maximumCounterCount
  hasAtomicGroups : Bool := false
  deriving DecidableEq

structure Engine where
  data : EngineData
  unicode : UnicodeData

def engineError (description : String) : MatchError :=
  .regEx ⟨.engine, "Failed to match regular expression", description⟩

namespace Engine

def createState (engine : Engine) (input : Input) (initialFlags : EngineFlags) :
    Except MatchError EngineState :=
  let flags := { initialFlags with
    atomicGroups := initialFlags.atomicGroups || engine.data.hasAtomicGroups }
  EngineState.create input (engine.data.captureGroupNames.length + 1) flags
    engine.data.counterCount

def isCurrentInCategory (engine : Engine) (state : EngineState) (category : Nat) : Bool :=
  engine.unicode.categoryMask state.current.character &&& category == category

def isNextInCategory (engine : Engine) (state : EngineState) (category : Nat) : Bool :=
  engine.unicode.categoryMask state.next.character &&& category == category

/-- The character that an operation tests. -/
def testedCharacter (state : EngineState) (caseInsensitive : Bool) : Nat :=
  if caseInsensitive then state.current.caseFoldedCharacter else state.current.character

section charOperations
variable (engine : Engine) (state : EngineState) (thread : EngineThread)

/-- A thread behind its operation, if the operation matches. -/
def continueIf (isMatch : Bool) : Option EngineThread :=
  if isMatch then some { thread with programCounter := thread.programCounter + 1 } else none

def handleChar (caseInsensitive isNegated : Bool) : Except MatchError (Option EngineThread) := do
  let character ← fromRegEx (engine.data.program.readCharValue thread.programCounter)
  let isMatch := testedCharacter state caseInsensitive == character
  return continueIf thread (isMatch != isNegated)

def handleSequence (caseInsensitive : Bool) : Except MatchError (Option EngineThread) := do
  let (offset, length) ← fromRegEx (engine.data.program.readSequence thread.programCounter)
  match engine.data.sequenceData[(offset + thread.sequenceCounter) % 2 ^ 16]? with
  | none => .error (engineError "Invalid character sequence offset")
  | some character =>
    if testedCharacter state caseInsensitive = character then
      if thread.sequenceCounter + 1 ≥ length then
        return some { thread with
          programCounter := thread.programCounter + 1
          sequenceCounter := 0 }
      else return some { thread with sequenceCounter := thread.sequenceCounter + 1 }
    else return none

def handleCategory (isNegated : Bool) : Except MatchError (Option EngineThread) := do
  let category ← fromRegEx (engine.data.program.readCategoryValue thread.programCounter)
  return continueIf thread (engine.isCurrentInCategory state category != isNegated)

def handleClass (caseInsensitive isNegated : Bool) : Except MatchError (Option EngineThread) := do
  let classIndex ← fromRegEx (engine.data.program.readClass thread.programCounter)
  match engine.data.charClassData[classIndex]? with
  | none => .error (.regEx (internalError "Class index out of bounds"))
  | some charClass =>
    return continueIf thread
      (charClass.matches (testedCharacter state caseInsensitive) != isNegated)

def handleAny : Except MatchError (Option EngineThread) := .ok (continueIf thread true)

/-- Test the current character; no thread is returned if it does not match. -/
def handleCharOperation : Except MatchError (Option EngineThread) :=
  match engine.data.program.peekOperation thread.programCounter with
  | .char => engine.handleChar state thread false false
  | .ciChar => engine.handleChar state thread true false
  | .notChar => engine.handleChar state thread false true
  | .notCiChar => engine.handleChar state thread true true
  | .sequence => engine.handleSequence state thread false
  | .ciSequence => engine.handleSequence state thread true
  | .category => engine.handleCategory state thread false
  | .notCategory => engine.handleCategory state thread true
  | .class => engine.handleClass state thread false false
  | .ciClass => engine.handleClass state thread true false
  | .notClass => engine.handleClass state thread false true
  | .notCiClass => engine.handleClass state thread true true
  | .any => handleAny thread
  | _ => .error (engineError "Unexpected operation. Expected a character operation.")

end charOperations

section flowOperations
variable (engine : Engine) (state : EngineState) (thread : EngineThread)

def requireProgramCounterInBounds (programCounter : Nat) : Except MatchError Unit :=
  if programCounter ≥ engine.data.program.length then
    .error (engineError "Program counter out of bounds")
  else .ok ()

def requireCounterIndexInBounds (counterIndex : Nat) : Except MatchError Unit :=
  if counterIndex ≥ maximumCounterCount then
    .error (engineError "Counter index out of bounds")
  else .ok ()

/-- Continue the flow expansion with a changed thread. -/
def withWork : EngineState := { state with work := { state.work with currentWork := thread } }

/-- Continue with the next operation if a test of the text succeeds. -/
def continueWorkIf (isMatch : Bool) : Except MatchError EngineState :=
  if isMatch then
    .ok (withWork state { thread with programCounter := thread.programCounter + 1 })
  else state.endWorkWithoutMatch thread

def handleAssertCategoryOperation (isNegated : Bool) : Except MatchError EngineState := do
  let category ← fromRegEx (engine.data.program.readCategoryValue thread.programCounter)
  continueWorkIf state thread (engine.isCurrentInCategory state category != isNegated)

def handleSplitOperation : Except MatchError EngineState := do
  let (programCounterA, programCounterB) ←
    fromRegEx (engine.data.program.readSplit thread.programCounter)
  let thread := { thread with programCounter := programCounterA }
  engine.requireProgramCounterInBounds programCounterA
  let state ← (withWork state thread).cloneThread thread
  engine.requireProgramCounterInBounds programCounterB
  return { state with
    work := state.work.addWork { thread with programCounter := programCounterB } }

def handleJumpOperation : Except MatchError EngineState := do
  let programCounter ← fromRegEx (engine.data.program.readJump thread.programCounter)
  engine.requireProgramCounterInBounds programCounter
  return withWork state { thread with programCounter := programCounter }

/-- End the thread with a match; a full match must be at the end of the text. -/
def handleMatchOperation (threadIndex : Nat) (hasMatch : Bool) :
    Except MatchError (EngineState × Bool) :=
  if state.flags.fullMatch ∧ !state.isAtEnd then do
    let state ← state.endWorkWithoutMatch thread
    return (state, hasMatch)
  else do
    let state ← state.endThreadWithMatch thread threadIndex
    return ({ state with work := state.work.popWork }, true)

def handleSuccessOperation (threadIndex : Nat) (hasMatch : Bool) :
    Except MatchError (EngineState × Bool) := do
  let (state, hasMatch) ← handleMatchOperation state thread threadIndex hasMatch
  return (if hasMatch then { state with endRequested := true } else state, hasMatch)

/-- Test a zero-width position between the current and the next character. -/
def testAnchor (anchor : Nat) : Except MatchError Bool :=
  let isBoundary := fun category =>
    engine.isCurrentInCategory state category != engine.isNextInCategory state category
  match anchor with
  | 0 => .ok false
  | 1 => .ok state.isAtStart
  | 2 => .ok state.isAtEnd
  | 3 => .ok (state.current.character == 0x0A || state.isAtStart)
  | 4 => .ok (state.next.character == 0x0A || state.isAtEnd)
  | 5 => .ok (isBoundary wordUnicode)
  | 6 => .ok (isBoundary wordAscii)
  | 7 => .ok (!isBoundary wordUnicode)
  | 8 => .ok (!isBoundary wordAscii)
  | _ => .error (.regEx (internalError "Unknown anchor"))

def handleAnchorOperation : Except MatchError EngineState := do
  let anchor ← fromRegEx (engine.data.program.readAnchorValue thread.programCounter)
  let isMatch ← engine.testAnchor state anchor
  continueWorkIf state thread isMatch

/-- Continue behind the operation with a modified capture group set. -/
def modifyCaptures
    (modify : CaptureGroupManager → Nat → Except RegExError (Nat × CaptureGroupManager)) :
    Except MatchError EngineState :=
  match state.captureGroupManager with
  | none => .error (.regEx (internalError "capture group manager missing"))
  | some manager => do
    let (reference, manager) ← fromRegEx (modify manager thread.captureGroupSet)
    return withWork { state with captureGroupManager := some manager } { thread with
      programCounter := thread.programCounter + 1
      captureGroupSet := reference }

/-- Capture groups are numbered from zero in the program and from one in the manager. -/
def handleCaptureOperation (isStart : Bool) : Except MatchError EngineState := do
  let captureGroup ← fromRegEx (engine.data.program.readCapture thread.programCounter)
  modifyCaptures state thread fun manager reference =>
    if isStart then manager.startCapture reference (captureGroup + 1) state.next.position
    else manager.stopCapture reference (captureGroup + 1) state.next.position

/-- Continue behind a counter operation with a new value of the counter. -/
def setCounter (counterIndex value : Nat) : EngineState :=
  withWork state { thread with
    programCounter := thread.programCounter + 1
    counter := thread.counter.set counterIndex value }

def counterValue (counterIndex : Nat) : Nat := thread.counter.getD counterIndex 0

def handleCounterOperation : Except MatchError EngineState := do
  let (counterIndex, newValue) ← fromRegEx (engine.data.program.readCounter thread.programCounter)
  requireCounterIndexInBounds counterIndex
  return setCounter state thread counterIndex newValue

def handleAddCounterOperation : Except MatchError EngineState := do
  let (counterIndex, value) ← fromRegEx (engine.data.program.readCounter thread.programCounter)
  requireCounterIndexInBounds counterIndex
  return setCounter state thread counterIndex
    (min (counterValue thread counterIndex + value) (2 ^ 16 - 1))

def handleMaximumOperation : Except MatchError EngineState := do
  let (counterIndex, maximumValue) ←
    fromRegEx (engine.data.program.readCounter thread.programCounter)
  requireCounterIndexInBounds counterIndex
  if counterValue thread counterIndex ≥ maximumValue then state.endWorkWithoutMatch thread
  else return setCounter state thread counterIndex (counterValue thread counterIndex + 1)

def handleSkipIfMaximumOperation : Except MatchError EngineState := do
  let (counterIndex, maximumValue) ←
    fromRegEx (engine.data.program.readCounter thread.programCounter)
  requireCounterIndexInBounds counterIndex
  if counterValue thread counterIndex < maximumValue then
    return setCounter state thread counterIndex (counterValue thread counterIndex + 1)
  else do
    engine.requireProgramCounterInBounds (thread.programCounter + 2)
    return withWork state { thread with
      programCounter := thread.programCounter + 2
      counter := thread.counter.set counterIndex 0 }

def handleMinimumOperation : Except MatchError EngineState := do
  let (counterIndex, minimumValue) ←
    fromRegEx (engine.data.program.readCounter thread.programCounter)
  requireCounterIndexInBounds counterIndex
  if counterValue thread counterIndex < minimumValue then state.endWorkWithoutMatch thread
  else return setCounter state thread counterIndex 0

/-- Mark the thread for the lifetime of its capture group set. -/
def handleStartAtomic : Except MatchError EngineState := do
  let atomicGroupId ← fromRegEx (engine.data.program.readAtomic thread.programCounter)
  modifyCaptures state thread fun manager reference =>
    manager.markThreadWithAtomicGroupId reference atomicGroupId

/-- Discard the marked threads of lower priority. -/
def handleStopAtomic (threadIndex : Nat) : Except MatchError EngineState := do
  let atomicGroupId ← fromRegEx (engine.data.program.readAtomic thread.programCounter)
  match state.captureGroupManager with
  | none => .error (.regEx (internalError "capture group manager missing"))
  | some manager => do
    let affectedReferences ← fromRegEx
      (manager.getAllReferencesForAtomicGroup thread.captureGroupSet atomicGroupId)
    let state := withWork state { thread with programCounter := thread.programCounter + 1 }
    let state ← state.pruneWork affectedReferences
    state.pruneCurrentList affectedReferences threadIndex

/-- Carry on with the match flag of the expansion. -/
def keepMatch (hasMatch : Bool) (result : Except MatchError EngineState) :
    Except MatchError (EngineState × Bool) := (·, hasMatch) <$> result

def handleFlowOperation (threadIndex : Nat) (hasMatch : Bool) :
    Except MatchError (EngineState × Bool) :=
  match engine.data.program.peekOperation thread.programCounter with
  | .none => .ok (withWork state { thread with programCounter := thread.programCounter + 1 },
      hasMatch)
  | .split => keepMatch hasMatch (engine.handleSplitOperation state thread)
  | .jump => keepMatch hasMatch (engine.handleJumpOperation state thread)
  | .match => handleMatchOperation state thread threadIndex hasMatch
  | .notMatch => keepMatch hasMatch (state.endWorkWithoutMatch thread)
  | .success => handleSuccessOperation state thread threadIndex hasMatch
  | .failure => keepMatch hasMatch do
      let state ← state.endWorkWithoutMatch thread
      return { state with endRequested := true }
  | .anchor => keepMatch hasMatch (engine.handleAnchorOperation state thread)
  | .startCapture => keepMatch hasMatch (engine.handleCaptureOperation state thread true)
  | .stopCapture => keepMatch hasMatch (engine.handleCaptureOperation state thread false)
  | .startAtomic => keepMatch hasMatch (engine.handleStartAtomic state thread)
  | .stopAtomic => keepMatch hasMatch (engine.handleStopAtomic state thread threadIndex)
  | .counter => keepMatch hasMatch (engine.handleCounterOperation state thread)
  | .addCounter => keepMatch hasMatch (engine.handleAddCounterOperation state thread)
  | .maximum => keepMatch hasMatch (engine.handleMaximumOperation state thread)
  | .skipIfMaximum => keepMatch hasMatch (engine.handleSkipIfMaximumOperation state thread)
  | .minimum => keepMatch hasMatch (engine.handleMinimumOperation state thread)
  | .assertCategory =>
      keepMatch hasMatch (engine.handleAssertCategoryOperation state thread false)
  | .notAssertCategory =>
      keepMatch hasMatch (engine.handleAssertCategoryOperation state thread true)
  | _ => .error (engineError "Unexpected flow operation")

end flowOperations

/-- One pass of the expansion loop, without its tick. -/
def expandWork (engine : Engine) (threadIndex : Nat) (state : EngineState) (hasMatch : Bool) :
    Except MatchError (EngineState × Bool) :=
  let work := state.work.currentWork
  if hasMatch then keepMatch hasMatch (state.endWorkWithoutMatch work)
  else if work.programCounter ≥ engine.data.program.length then
    keepMatch hasMatch (state.endWorkWithoutMatch work)
  else
    let operation := engine.data.program.peekOperation work.programCounter
    if operation ≠ .none ∧ !operation.isFlow then do
      let state ← state.addNextThread work operation.isCaseInsensitive
      return ({ state with work := state.work.popWork }, hasMatch)
    else engine.handleFlowOperation state work threadIndex hasMatch

/-- The loops that call for the expansion of a thread. -/
inductive Caller where
  | run
  | currentThread
  | newThread
  deriving DecidableEq

/-- The place of the engine in its loops. -/
inductive Control where
  | prepareNext (threadIndex : Nat) (hasMatch : Bool) (caller : Caller)
  | mainLoop
  | currentThreads (threadIndex : Nat) (hasMatch : Bool)
  | returned (hasMatch : Bool)
  | failed (error : MatchError)
  deriving DecidableEq

structure Configuration where
  control : Control
  state : EngineState

/-- Begin to expand the flow operations of a thread. -/
def prepareNext (state : EngineState) (thread : EngineThread) (threadIndex : Nat)
    (caller : Caller) : Configuration :=
  ⟨.prepareNext threadIndex false caller, { state with work := EngineWork.initWorkList thread }⟩

/-- Continue the loop that called for an expansion. -/
def afterPrepareNext (state : EngineState) (threadIndex : Nat) (hasMatch : Bool) :
    Caller → Configuration
  | .run =>
    if !state.hasNext then
      if state.flags.findFirst ∧ !state.isAtEnd ∧ !state.hasMatch then ⟨.mainLoop, state⟩
      else ⟨.returned state.hasMatch, state⟩
    else ⟨.mainLoop, state⟩
  | .currentThread => ⟨.currentThreads (threadIndex + 1) hasMatch, state⟩
  | .newThread => ⟨.mainLoop, state⟩

def stepPrepareNext (engine : Engine) (state : EngineState) (threadIndex : Nat)
    (hasMatch : Bool) (caller : Caller) : Except MatchError Configuration :=
  if state.work.hasWork then do
    let state ← state.tick
    let (state, hasMatch) ← engine.expandWork threadIndex state hasMatch
    return ⟨.prepareNext threadIndex hasMatch caller, state⟩
  else .ok (afterPrepareNext state threadIndex hasMatch caller)

def stepMainLoop (engine : Engine) (state : EngineState) : Except MatchError Configuration :=
  if !state.endRequested ∧ !state.isAtEnd then do
    let state ← state.tick
    let state ← state.advanceToNext engine.unicode.caseFolded
    return ⟨.currentThreads 0 false, state⟩
  else .ok ⟨.returned state.hasMatch, state⟩

/-- Process a thread of the current state; after a match the threads behind it end. -/
def stepThread (engine : Engine) (state : EngineState) (thread : EngineThread)
    (threadIndex : Nat) (hasMatch : Bool) : Except MatchError Configuration :=
  if hasMatch then do
    let state ← state.endThreadWithoutMatch thread
    return ⟨.currentThreads (threadIndex + 1) hasMatch, state⟩
  else do
    match ← engine.handleCharOperation state thread with
    | some thread => return prepareNext state thread threadIndex .currentThread
    | none =>
      let state ← state.endThreadWithoutMatch thread
      return ⟨.currentThreads (threadIndex + 1) hasMatch, state⟩

/-- After all threads of the current state, a search starts a thread of the lowest priority. -/
def stepAfterThreads (state : EngineState) : Except MatchError Configuration :=
  if state.flags.findFirst ∧ !state.hasMatch then do
    let (thread, state) ← state.createNewThread state.next.position
    return prepareNext state thread state.current.threads.length .newThread
  else if !state.hasNext then .ok ⟨.returned state.hasMatch, state⟩
  else .ok ⟨.mainLoop, state⟩

def stepCurrentThreads (engine : Engine) (state : EngineState) (threadIndex : Nat)
    (hasMatch : Bool) : Except MatchError Configuration :=
  match state.current.threads[threadIndex]? with
  | some thread => engine.stepThread state thread threadIndex hasMatch
  | none => stepAfterThreads state

/-- An error ends the run in the state in which it is raised. -/
def orFailed (state : EngineState) : Except MatchError Configuration → Configuration
  | .ok configuration => configuration
  | .error e => ⟨.failed e, state⟩

/-- One pass of the loop the engine is in; a result or an error halts it. -/
def step (engine : Engine) (c : Configuration) : Option Configuration :=
  match c.control with
  | .prepareNext threadIndex hasMatch caller =>
    some (orFailed c.state (engine.stepPrepareNext c.state threadIndex hasMatch caller))
  | .mainLoop => some (orFailed c.state (engine.stepMainLoop c.state))
  | .currentThreads threadIndex hasMatch =>
    some (orFailed c.state (engine.stepCurrentThreads c.state threadIndex hasMatch))
  | .returned _ => none
  | .failed _ => none

/-- A run begins with the expansion of a thread at the first operation. -/
def run (state : EngineState) : Configuration :=
  orFailed state do
    let (thread, state) ← state.createNewThread state.next.position
    return prepareNext state thread 0 .run

def «match» (state : EngineState) : Configuration := run state

def fullMatch (state : EngineState) : Configuration :=
  run { state with flags := { state.flags with fullMatch := true } }

def findFirst (state : EngineState) : Configuration :=
  run { state with flags := { state.flags with findFirst := true } }

/-- A run that ends with an answer. -/
def Returns (engine : Engine) (start : Configuration) (hasMatch : Bool) (state : EngineState) :
    Prop := StateTransition.Reaches engine.step start ⟨.returned hasMatch, state⟩

end Engine

end ErbslandCore.Re
