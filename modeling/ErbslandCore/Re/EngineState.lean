import ErbslandCore.Re.CaptureGroupManager

namespace ErbslandCore.Re
open Library
set_option autoImplicit true

/-- The errors that can end a search: its own and those of the input. -/
inductive MatchError where
  | regEx (error : RegExError)
  | encoding (message : String)
  deriving DecidableEq

def fromRegEx : Except RegExError α → Except MatchError α
  | .ok a => .ok a
  | .error e => .error (.regEx e)

theorem fromRegEx_eq_ok {x : Except RegExError α} (h : fromRegEx x = .ok a) : x = .ok a := by
  cases x with
  | error e => cases h
  | ok b => cases h; rfl

/-- The signal for the end of the text. -/
def endOfData : Nat := 0xFFFFFFFF

/-- The signal for a character that is not there. -/
def noCodePoint : Nat := 0xFFFFFFFE

structure CharAndPosition where
  character : Nat
  position : Nat
  deriving DecidableEq

/-- The characters that were not read yet. -/
structure Input where
  remaining : List CharAndPosition
  endPosition : Nat
  acceptsNull : Bool := false
  isText : ∀ c ∈ remaining, c.character ≤ 0x10FFFF

namespace Input

/-- Null characters are refused where the settings do not accept them. -/
def validate (input : Input) (result : CharAndPosition) : Except MatchError CharAndPosition :=
  if result.character = 0 ∧ input.acceptsNull = false then
    .error (.encoding "Null characters are disabled in regular expression input.")
  else .ok result

def peek (input : Input) : Except MatchError CharAndPosition :=
  match input.remaining with
  | [] => input.validate ⟨endOfData, input.endPosition⟩
  | c :: _ => input.validate c

/-- The input after its first character. -/
def tail (input : Input) : Input := { input with
  remaining := input.remaining.tail
  isText := fun c hc => input.isText c (List.mem_of_mem_tail hc) }

def read (input : Input) : Except MatchError (CharAndPosition × Input) :=
  match input.peek with
  | .ok c => .ok (c, input.tail)
  | .error e => .error e

end Input

structure EngineThread where
  programCounter : Nat := 0
  sequenceCounter : Nat := 0
  counter : List Nat := List.replicate maximumCounterCount 0
  captureGroupSet : Nat := 0
  matchStart : Nat := 0
  deriving DecidableEq

/-- Threads in one execution state have equal futures. -/
def EngineThread.hasSameExecutionState (thread other : EngineThread) (counterCount : Nat) :
    Bool :=
  thread.programCounter == other.programCounter &&
    thread.sequenceCounter == other.sequenceCounter &&
    thread.counter.take counterCount == other.counter.take counterCount

/-- The work of one flow expansion; the list starts with the work pushed last. -/
structure EngineWork where
  currentWork : EngineThread := {}
  workList : List EngineThread := []
  hasCurrentWork : Bool := false
  deriving DecidableEq

namespace EngineWork

def hasWork (work : EngineWork) : Bool := work.hasCurrentWork

def initWorkList (start : EngineThread) : EngineWork where
  currentWork := start
  hasCurrentWork := true

def popWork (work : EngineWork) : EngineWork :=
  match work.workList with
  | [] => { work with hasCurrentWork := false }
  | thread :: rest => { work with currentWork := thread, workList := rest }

def addWork (work : EngineWork) (thread : EngineThread) : EngineWork :=
  { work with workList := thread :: work.workList }

end EngineWork

/-- The state that belongs to one character of the text. -/
structure EngineCharacterState where
  position : Nat := 0
  character : Nat := noCodePoint
  caseFoldedCharacter : Nat := noCodePoint
  threads : List EngineThread := []
  hasCaseInsensitiveOperations : Bool := false
  deriving DecidableEq

structure Watchdog where
  tickCount : Nat := 0
  positionAtLastTimeoutCheck : Nat := 0
  deriving DecidableEq

/-- Every 65536 ticks the position must have changed. -/
def Watchdog.tick (watchdog : Watchdog) (currentPosition : Nat) : Except MatchError Watchdog :=
  let tickCount := watchdog.tickCount + 1
  if tickCount % 2 ^ 16 = 0 then
    if watchdog.positionAtLastTimeoutCheck = currentPosition then
      .error (.regEx ⟨.timeout, "Failed to match regular expression",
        "The engine stopped making progress."⟩)
    else .ok ⟨tickCount, currentPosition⟩
  else .ok { watchdog with tickCount := tickCount }

structure EngineFlags where
  fullMatch : Bool := false
  findFirst : Bool := false
  foldCRLF : Bool := false
  atomicGroups : Bool := false
  deriving DecidableEq

structure EngineState where
  flags : EngineFlags
  input : Input
  captureGroupManager : Option CaptureGroupManager
  counterCount : Nat
  bestMatchThreadIndex : Nat := 0
  bestMatch : Nat := cNoCaptureGroup
  bestMatchStart : Nat := 0
  bestMatchEnd : Nat := 0
  hasDirectMatch : Bool := false
  endRequested : Bool := false
  watchdog : Watchdog := {}
  work : EngineWork := {}
  current : EngineCharacterState := { character := endOfData }
  next : EngineCharacterState := {}

namespace EngineState

/-- Read the next character of the text into the next state. -/
def readNext (state : EngineState) : Except MatchError EngineState := do
  let (nextInput, input) ← state.input.read
  return { state with
    input := input
    next := { state.next with
      character := nextInput.character
      position := nextInput.position } }

/-- Read the two characters of a line break as one line feed. -/
def foldCRLF (state : EngineState) : Except MatchError EngineState :=
  if state.flags.foldCRLF ∧ state.next.character = 0x0D then do
    let following ← state.input.peek
    if following.character = 0x0A then do
      let (_, input) ← state.input.read
      return { state with input := input, next := { state.next with character := 0x0A } }
    else return state
  else .ok state

/-- The state in front of the first character. -/
def create (input : Input) (captureGroupCount : Nat) (flags : EngineFlags)
    (counterCount : Nat) : Except MatchError EngineState :=
  if counterCount ≤ maximumCounterCount then do
    let state : EngineState := {
      flags := flags
      input := input
      captureGroupManager :=
        if captureGroupCount > 1 ∨ flags.atomicGroups then
          some (CaptureGroupManager.create captureGroupCount flags.atomicGroups)
        else none
      counterCount := counterCount }
    let state ← state.readNext
    state.foldCRLF
  else .error (.regEx (internalError "Counter count exceeds maximum"))

def resetForNextFind (state : EngineState) : EngineState :=
  { state with
    captureGroupManager := state.captureGroupManager.map CaptureGroupManager.resetForNextFind
    watchdog := { state.watchdog with positionAtLastTimeoutCheck := 0 }
    bestMatchThreadIndex := 0
    bestMatch := cNoCaptureGroup
    hasDirectMatch := false
    endRequested := false
    work := { state.work with workList := [], hasCurrentWork := false }
    current := { state.current with threads := [] }
    next := { state.next with threads := [] } }

def isAtStart (state : EngineState) : Bool :=
  state.current.character == endOfData && state.current.position == 0

def isAtEnd (state : EngineState) : Bool := state.next.character == endOfData

def hasNext (state : EngineState) : Bool := !state.next.threads.isEmpty

def tick (state : EngineState) : Except MatchError EngineState := do
  let watchdog ← state.watchdog.tick state.current.position
  return { state with watchdog := watchdog }

def hasMatch (state : EngineState) : Bool :=
  match state.captureGroupManager with
  | some _ => state.bestMatch != cNoCaptureGroup
  | none => state.hasDirectMatch

/-- Update the manager, where there is one. -/
def withManager (state : EngineState)
    (update : CaptureGroupManager → Except RegExError CaptureGroupManager) :
    Except MatchError EngineState :=
  match state.captureGroupManager with
  | none => .ok state
  | some manager => do
    let manager ← fromRegEx (update manager)
    return { state with captureGroupManager := some manager }

def createNewThread (state : EngineState) (startPosition : Nat) :
    Except MatchError (EngineThread × EngineState) :=
  match state.captureGroupManager with
  | some manager => do
    let (reference, manager) ← fromRegEx (manager.createGroupSet startPosition)
    return ({ captureGroupSet := reference },
      { state with captureGroupManager := some manager })
  | none => .ok ({ captureGroupSet := cNoCaptureGroup, matchStart := startPosition }, state)

/-- Make the next state the current one and read the character after it. -/
def advanceToNext (caseFolded : Nat → Nat) (state : EngineState) :
    Except MatchError EngineState := do
  let current := state.next
  let current := if current.hasCaseInsensitiveOperations then
      { current with caseFoldedCharacter := caseFolded current.character }
    else current
  let state ← { state with current := current, next := {} }.readNext
  state.foldCRLF

/-- Add a thread behind all threads of the next state, unless its execution state is there. -/
def addNextThread (state : EngineState) (thread : EngineThread)
    (isCaseInsensitiveOperation : Bool) : Except MatchError EngineState :=
  if state.next.threads.any fun existing =>
      existing.hasSameExecutionState thread state.counterCount then
    state.withManager (·.release thread.captureGroupSet)
  else if state.next.threads.length ≥ maximumActiveThreads then
    .error (.regEx ⟨.limit, "Failed to match regular expression",
      "The engine exceeded the maximum active thread count."⟩)
  else .ok { state with
    next := { state.next with
      threads := state.next.threads ++ [thread]
      hasCaseInsensitiveOperations :=
        isCaseInsensitiveOperation || state.next.hasCaseInsensitiveOperations } }

def cloneThread (state : EngineState) (thread : EngineThread) :
    Except MatchError EngineState :=
  state.withManager (·.allocate thread.captureGroupSet)

def endThreadWithoutMatch (state : EngineState) (thread : EngineThread) :
    Except MatchError EngineState :=
  state.withManager (·.release thread.captureGroupSet)

def endWorkWithoutMatch (state : EngineState) (work : EngineThread) :
    Except MatchError EngineState := do
  let state ← state.withManager (·.release work.captureGroupSet)
  return { state with work := state.work.popWork }

/-- A match replaces the recorded one if its thread index is not larger. -/
def endThreadWithMatch (state : EngineState) (thread : EngineThread) (threadIndex : Nat) :
    Except MatchError EngineState :=
  match state.captureGroupManager with
  | none =>
    if !state.hasMatch ∨ threadIndex ≤ state.bestMatchThreadIndex then
      .ok { state with
        bestMatchThreadIndex := threadIndex
        bestMatchStart := thread.matchStart
        bestMatchEnd := state.next.position
        hasDirectMatch := true }
    else .ok state
  | some manager => fromRegEx <|
    if !state.hasMatch ∨ threadIndex ≤ state.bestMatchThreadIndex then do
      let (reference, manager) ←
        manager.stopCapture thread.captureGroupSet 0 state.next.position
      let manager ← manager.release state.bestMatch
      let manager ← manager.allocate reference
      let manager ← manager.release reference
      return { state with
        captureGroupManager := some manager
        bestMatchThreadIndex := threadIndex
        bestMatch := reference }
    else do
      let manager ← manager.release thread.captureGroupSet
      return { state with captureGroupManager := some manager }

/-- Release the sets of threads that are removed. -/
def releaseThreads (manager : CaptureGroupManager) (threads : List EngineThread) :
    Except RegExError CaptureGroupManager :=
  threads.foldlM (fun manager thread => manager.release thread.captureGroupSet) manager

/-- Remove the pending work with the given references, the oldest work first. -/
def pruneWork (state : EngineState) (referencesToPrune : List Nat) :
    Except MatchError EngineState := do
  let isPruned := fun thread : EngineThread => referencesToPrune.contains thread.captureGroupSet
  let state ← state.withManager
    (releaseThreads · (state.work.workList.filter isPruned).reverse)
  return { state with
    work := { state.work with
      workList := state.work.workList.filter fun thread => !isPruned thread } }

/-- Remove the threads with the given references behind a thread of the current state. -/
def pruneCurrentList (state : EngineState) (referencesToPrune : List Nat) (threadIndex : Nat) :
    Except MatchError EngineState := do
  let isPruned := fun thread : EngineThread => referencesToPrune.contains thread.captureGroupSet
  let candidates := state.current.threads.drop (threadIndex + 1)
  let state ← state.withManager (releaseThreads · (candidates.filter isPruned))
  return { state with
    current := { state.current with
      threads := state.current.threads.take (threadIndex + 1) ++
        candidates.filter fun thread => !isPruned thread } }

/-- The ranges of the best match; the first one is the whole match. -/
def createCaptureGroups (state : EngineState) (names : List String) :
    Except RegExError (List CaptureRange) :=
  match state.captureGroupManager with
  | none => do
    requireSafety (names = []) "Direct matches cannot contain capture groups"
    return [⟨state.bestMatchStart, state.bestMatchEnd⟩]
  | some manager => manager.createCaptureGroupList state.bestMatch (names.length + 1)

end EngineState

end ErbslandCore.Re
