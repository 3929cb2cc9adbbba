import ErbslandCore.Conf.Value.DocumentBuilder

namespace ErbslandCore.Conf
open Library
set_option autoImplicit true

def maxDocumentNesting : Nat := 5

/-- What the assignment stream of a document delivers. -/
inductive Assignment where
  | endOfDocument
  | sectionMap (namePath : NamePath) (location : Location)
  | sectionList (namePath : NamePath) (location : Location)
  | value (namePath : NamePath) (value : Option NewValue) (location : Location)
  | metaValue (namePath : NamePath) (text : List Char) (location : Location)

/-- A document to read; opening, reading and closing it can fail. -/
structure Source where
  identifier : SourceIdentifier
  assignments : List (Except Error Assignment)
  opened : Except Error Unit := .ok ()
  closed : Except Error Unit := .ok ()
  digest : List Char := []

structure SourceResolverContext where
  includeText : List Char
  sourceIdentifier : SourceIdentifier

structure AccessSources where
  source : SourceIdentifier
  parent : Option SourceIdentifier
  root : SourceIdentifier

inductive AccessCheckResult where
  | granted
  | denied
  deriving DecidableEq

structure SignatureValidatorData where
  sourceIdentifier : SourceIdentifier
  signatureText : List Char
  documentDigest : List Char

inductive SignatureValidatorResult where
  | accept
  | reject
  deriving DecidableEq

/-- The collaborators of a parser. They may keep a state, so their results depend on the step of the
parser as well. -/
structure ParserSettings where
  sourceResolver : Option (Nat → SourceResolverContext →
    Except Error (Option (List (Option Source)))) := none
  accessCheck : Option (Nat → AccessSources → Except Error AccessCheckResult) := none
  signatureValidator : Option (Nat → SignatureValidatorData →
    Except Error SignatureValidatorResult) := none

def Error.withLocation : Error → Location → Error
  | .conf error, location => .conf (error.withLocation location)
  | error, _ => error

structure ParserContext where
  includeLevel : Nat
  source : Source
  parentSourceIdentifier : Option SourceIdentifier := none
  includeLocation : Location := {}
  isInitialized : Bool := false
  hasNextAssignment : Bool := false
  assignments : List (Except Error Assignment)
  signatureText : List Char := []

namespace ParserContext

def create (includeLevel : Nat) (source : Source) : ParserContext :=
  { includeLevel, source, assignments := source.assignments }

def sourceIdentifier (context : ParserContext) : SourceIdentifier := context.source.identifier

def initializeContext (context : ParserContext) : Except Error ParserContext :=
  if context.isInitialized then .error (.logic "ParserContext::initialize() called twice.")
  else do
    context.source.opened
    return { context with hasNextAssignment := true, isInitialized := true }

def nextAssignment (context : ParserContext) : Except Error (Assignment × ParserContext) :=
  if !context.hasNextAssignment then
    .error (.logic
      "ParserContext::nextAssignment() called after the end of the assignment stream.")
  else match context.assignments with
    | [] => .error (.logic "The assignment stream ended without an EndOfDocument assignment.")
    | .error error :: _ => .error error
    | .ok assignment :: assignments =>
      .ok (assignment, { context with
        assignments
        hasNextAssignment := match assignment with
          | .endOfDocument => false
          | _ => true })

end ParserContext

/-- The context on top of the stack stands first. -/
structure Parser where
  contextStack : List ParserContext
  builder : DocumentBuilderStorage := {}
  rootLocation : Location := {}
  steps : Nat := 0

namespace Parser

def start (documentSource : Source) : Parser where
  contextStack := [ParserContext.create 0 documentSource]
  rootLocation := { sourceIdentifier := some documentSource.identifier }

def checkAccess (settings : ParserSettings) (steps : Nat) (context : ParserContext)
    (outer : List ParserContext) : Except Error Unit :=
  match settings.accessCheck with
  | none => .ok ()
  | some check =>
    let location := if context.includeLocation.isUndefined then
      { sourceIdentifier := some context.sourceIdentifier } else context.includeLocation
    let sources : AccessSources :=
      { source := context.sourceIdentifier
        parent := context.parentSourceIdentifier
        root := (outer.getLast?.getD context).sourceIdentifier }
    match check steps sources with
    | .error error => .error (error.withLocation location)
    | .ok .granted => .ok ()
    | .ok .denied => .error (.conf ⟨.access, "Access denied to source.", location, []⟩)

def initializeCurrentContext (settings : ParserSettings) (steps : Nat) (context : ParserContext)
    (outer : List ParserContext) : Except Error ParserContext :=
  if context.isInitialized then .ok context
  else do
    checkAccess settings steps context outer
    context.initializeContext

def loopDetected (location : Location) : Error :=
  .conf ⟨.syntaxError,
    "An included document is in the list of parent documents (loop detected).", location, []⟩

def addSourceContext (includeLevel : Nat) (parentSourceIdentifier : SourceIdentifier)
    (location : Location) (contextStack : List ParserContext) (source : Option Source) :
    Except Error (List ParserContext) :=
  match source with
  | none =>
    .error (.conf ⟨.syntaxError, "The source resolver returned a null source.", location, []⟩)
  | some source =>
    if contextStack.any fun context => context.sourceIdentifier = source.identifier then
      .error (loopDetected location)
    else
      .ok ({ ParserContext.create includeLevel source with
        includeLocation := location
        parentSourceIdentifier := some parentSourceIdentifier } :: contextStack)

/-- The sources of an include. -/
def resolveInclude (settings : ParserSettings) (steps : Nat) (context : ParserContext)
    (includeText : List Char) (location : Location) : Except Error (List (Option Source)) :=
  if maxDocumentNesting ≤ context.includeLevel + 1 then
    .error (.conf ⟨.limitExceeded, "The maximum document nesting level of " ++
      toString maxDocumentNesting ++ " is exceeded.", location, []⟩)
  else match settings.sourceResolver with
    | none =>
      .error (.conf ⟨.unsupported, "The @include meta-command is disabled.", location, []⟩)
    | some resolve =>
      match resolve steps { includeText, sourceIdentifier := context.sourceIdentifier } with
      | .error error => .error (error.withLocation location)
      | .ok none =>
        .error (.conf ⟨.syntaxError, "The @include meta-command could not be resolved.", location,
          []⟩)
      | .ok (some sourceList) => .ok sourceList

/-- The last source of the list is pushed first. -/
def addSourceContexts (context : ParserContext) (outer : List ParserContext) (location : Location)
    (sourceList : List (Option Source)) : Except Error (List ParserContext) :=
  sourceList.reverse.foldlM
    (addSourceContext (context.includeLevel + 1) context.sourceIdentifier location)
    (context :: outer)

def processMetaValue (settings : ParserSettings) (steps : Nat) (context : ParserContext)
    (outer : List ParserContext) (namePath : NamePath) (text : List Char) (location : Location) :
    Except Error (List ParserContext) :=
  if namePath.getLast? = some Name.metaSignature then
    .ok ({ context with signatureText := text } :: outer)
  else if namePath.getLast? = some Name.metaInclude then do
    let sourceList ← resolveInclude settings steps context text location
    addSourceContexts context outer location sourceList
  else .ok (context :: outer)

def processAssignment (settings : ParserSettings) (parser : Parser) (context : ParserContext)
    (outer : List ParserContext) : Assignment → Except Error Parser
  | .endOfDocument => .ok { parser with contextStack := context :: outer }
  | .sectionMap namePath location => do
    let builder ← parser.builder.addSectionMap namePath location
    return { parser with builder, contextStack := context :: outer }
  | .sectionList namePath location => do
    let builder ← parser.builder.addSectionList namePath location
    return { parser with builder, contextStack := context :: outer }
  | .value namePath value location => do
    let builder ← parser.builder.addValue namePath value location
    return { parser with builder, contextStack := context :: outer }
  | .metaValue namePath text location => do
    let contextStack ← processMetaValue settings parser.steps context outer namePath text location
    return { parser with contextStack }

def digestText (context : ParserContext) : List Char :=
  "sha3-256 ".toList ++ context.source.digest

def preLeaveProcessing (settings : ParserSettings) (steps : Nat) (context : ParserContext) :
    Except Error Unit :=
  let location : Location := { sourceIdentifier := some context.sourceIdentifier }
  match settings.signatureValidator with
  | some validate =>
    match validate steps
      { sourceIdentifier := context.sourceIdentifier
        signatureText := context.signatureText
        documentDigest := digestText context } with
    | .error error => .error error
    | .ok .accept => .ok ()
    | .ok .reject => .error (.conf ⟨.signature, "Signature verification failed.", location, []⟩)
  | none =>
    if !context.signatureText.isEmpty then
      .error (.conf ⟨.signature, "Signature cannot be verified.", location, []⟩)
    else .ok ()

/-- One turn of the loop for the context on top of the stack. -/
def processContext (settings : ParserSettings) (parser : Parser) (context : ParserContext)
    (outer : List ParserContext) : Except Error Parser := do
  let context ← initializeCurrentContext settings parser.steps context outer
  if context.hasNextAssignment then do
    let (assignment, context) ← context.nextAssignment
    processAssignment settings { parser with steps := parser.steps + 1 } context outer assignment
  else do
    preLeaveProcessing settings parser.steps context
    context.source.closed
    return { parser with contextStack := outer, steps := parser.steps + 1 }

end Parser

inductive ParseState where
  | running (parser : Parser)
  | finished (document : DocumentBuilderStorage) (location : Location)
  | failed (error : Error)

/-- The loop of the parser; its end hands out the document or the error. -/
def Parser.parse (settings : ParserSettings) : ParseState → Option ParseState
  | .running parser =>
    match parser.contextStack with
    | [] => some (.finished parser.builder parser.rootLocation)
    | context :: outer =>
      match parser.processContext settings context outer with
      | .error error => some (.failed error)
      | .ok parser => some (.running parser)
  | .finished .. => none
  | .failed _ => none

end ErbslandCore.Conf
