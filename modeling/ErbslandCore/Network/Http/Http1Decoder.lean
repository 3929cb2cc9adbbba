import ErbslandCore.Mem.RingBuffer
import ErbslandCore.Network.Http.Http1FramingParser

namespace ErbslandCore.Network
open Mem Text
set_option autoImplicit true

inductive Http1FailureReason where
  | malformedStartLine
  | startLineTooLong
  | unsupportedVersion
  | malformedField
  | headerLimitExceeded
  | trailerLimitExceeded
  | ambiguousFraming
  | unsupportedTransferCoding
  | malformedChunk
  | chunkMetadataTooLong
  | forbiddenTrailer
  | bodyLimitExceeded
  | prematureEndOfStream
  | invalidState
  deriving DecidableEq

inductive Http1Error where
  | protocol (reason : Http1FailureReason) (message : String)
  | parameter (message : String)
  deriving DecidableEq

inductive Http1BodyFraming where
  | none
  | fixedLength
  | chunked
  | closeDelimited
  | opaqueData
  deriving DecidableEq

structure Http1CodecLimits where
  maximumStartLineLength : UInt64 := 8 * 1024
  headerLimits : HttpHeaderLimits := {}
  trailerLimits : HttpHeaderLimits := {}
  maximumChunkMetadataLength : UInt64 := 8 * 1024
  maximumBodyLength : UInt64 := 16 * 1024 * 1024
  maximumInputLength : UInt64 := 1024 * 1024
  maximumOutputLength : UInt64 := 1024 * 1024
  deriving DecidableEq

namespace Http1CodecLimits

def maximumBodyChunkLength : Nat := 16 * 1024

def initialQueueLength : Nat := 8 * 1024

def initialQueueCapacity (maximum : UInt64) : Nat :=
  if maximum = 0 then 1 else min maximum.toNat initialQueueLength

def queueStorageLimit (maximum : UInt64) : Nat := if maximum = 0 then 1 else maximum.toNat

theorem initialQueueCapacity_le (maximum : UInt64) :
    0 < initialQueueCapacity maximum ∧ initialQueueCapacity maximum ≤ queueStorageLimit maximum := by
  rw [initialQueueCapacity, queueStorageLimit]
  split
  case isTrue => exact ⟨by decide, le_refl _⟩
  case isFalse h =>
    have hpos : 0 < maximum.toNat := Nat.pos_of_ne_zero fun hz => h (UInt64.toNat_inj.mp hz)
    exact ⟨lt_min hpos (by decide), min_le_left _ _⟩

/-- The queue for input or output. -/
def newQueue (maximum : UInt64) : RingBuffer :=
  RingBuffer.new (initialQueueCapacity maximum) (queueStorageLimit maximum)
    (initialQueueCapacity_le maximum).1 (initialQueueCapacity_le maximum).2

end Http1CodecLimits

inductive NetworkSendStatus where
  | accepted
  | wouldBlock
  | closed
  deriving DecidableEq

inductive Http1DecodeEvent where
  | requestHead (head : HttpRequestHead) (framing : Http1BodyFraming) (contentLength : Option Nat)
  | responseHead (head : HttpResponseHead) (framing : Http1BodyFraming) (contentLength : Option Nat)
  | body (data : List UInt8)
  | trailers (fields : HttpHeaders)
  | complete
  deriving DecidableEq

/-- The message role decoded by the state machine. -/
inductive Http1Role where
  | request
  | response
  deriving DecidableEq

inductive Http1DecoderState where
  | startLine
  | headers
  | fixedBody
  | chunkLine
  | chunkData
  | chunkDataEnd
  | trailers
  | closeBody
  | completePending
  | complete
  | opaquePending
  | opaqueData
  | failed
  deriving DecidableEq

/-- The control data of a start line. -/
inductive Http1StartLine where
  | request (method : HttpMethod) (target : List UInt8) (version : HttpVersion)
    (isRequestTarget : HttpGrammar.isRequestTarget target = true)
  | response (version : HttpVersion) (status : HttpStatus) (reason : List UInt8)
    (isReasonPhrase : HttpGrammar.isReasonPhrase reason = true)

instance : DecidableEq Http1StartLine
  | .request m t v _, .request m' t' v' _ =>
    decidable_of_iff (m = m' ∧ t = t' ∧ v = v') (by simp)
  | .response v s r _, .response v' s' r' _ =>
    decidable_of_iff (v = v' ∧ s = s' ∧ r = r') (by simp)
  | .request .., .response .. => isFalse (by simp)
  | .response .., .request .. => isFalse (by simp)

/-- What a decoder knows of the current message. -/
structure Http1Message where
  role : Http1Role
  limits : Http1CodecLimits := {}
  state : Http1DecoderState := .startLine
  requestMethod : Option HttpMethod := none
  startLine : Option Http1StartLine := none
  fields : List HttpField := []
  fieldBytes : Nat := 0
  framing : Http1BodyFraming := .none
  transferCoding : Http1TransferCoding := .none
  contentLength : Option Nat := none
  bodyRemaining : Nat := 0
  bodyDecoded : Nat := 0
  deriving DecidableEq

/-- One turn of the decoder: an event, a change of its state, or nothing until there is more input.
The first two come with the number of bytes that were consumed. -/
inductive Http1Turn where
  | emit (event : Http1DecodeEvent) (message : Http1Message) (consumed : Nat)
  | again (message : Http1Message) (consumed : Nat)
  | wait
  deriving DecidableEq

def fail (reason : Http1FailureReason) (message : String) : Except Http1Error α :=
  .error (.protocol reason message)

inductive LineScan where
  | incomplete
  | bareLf
  | bareCr
  | line (lineLength : Nat)
  deriving DecidableEq

/-- The end of the first line, or a line break that is not CR LF. -/
def scanLine : Bool → Nat → List UInt8 → LineScan
  | _, _, [] => .incomplete
  | previousWasCr, index, value :: rest =>
    if value = 0x0A then if previousWasCr then .line (index - 1) else .bareLf
    else if previousWasCr then .bareCr
    else scanLine (value = 0x0D) (index + 1) rest

namespace Http1Message

/-- The next line and the number of its bytes on the wire. -/
def takeLine (m : Http1Message) (input : List UInt8) (limit : UInt64)
    (limitReason : Http1FailureReason) : Except Http1Error (Option (List UInt8 × Nat)) :=
  let syntaxReason :=
    if m.state = .startLine then .malformedStartLine
    else if m.state = .chunkLine ∨ m.state = .chunkDataEnd then .malformedChunk
    else .malformedField
  match scanLine false 0 input with
  | .bareLf => fail syntaxReason "Bare LF is forbidden in HTTP/1.x."
  | .bareCr => fail syntaxReason "Bare CR is forbidden in HTTP/1.x."
  | .line lineLength =>
    if lineLength > limit.toNat then
      fail limitReason "An HTTP protocol line exceeds its configured limit."
    else .ok (some (input.take lineLength, lineLength + 2))
  | .incomplete =>
    -- The sum has 64 bits.
    if input.length > (limit + 1).toNat then
      fail limitReason "An HTTP protocol line exceeds its configured limit."
    else .ok none

def lineTaken : Except Http1Error (Option (List UInt8 × Nat)) → Nat
  | .ok (some (_, consumed)) => consumed
  | _ => 0

def versionOrFail (version : List UInt8) : Except Http1Error HttpVersion :=
  if Text.compare version HttpVersion.http10.toString = .eq then .ok .http10
  else if Text.compare version HttpVersion.http11.toString = .eq then .ok .http11
  else fail .unsupportedVersion "The HTTP version is unsupported."

def parseRequestLine (line : List UInt8) : Except Http1Error Http1StartLine :=
  match U8String.findFirstOf line 0x20 0 with
  | none | some 0 => fail .malformedStartLine "The HTTP request line is malformed."
  | some firstSpace =>
    let tooMany := fail .malformedStartLine "A request line must contain exactly two spaces."
    match U8String.findFirstOf line 0x20 (firstSpace + 1) with
    | none => tooMany
    | some secondSpace =>
      if secondSpace = firstSpace + 1 ∨ secondSpace + 1 ≥ line.length ∨
        U8String.findFirstOf line 0x20 (secondSpace + 1) ≠ none then tooMany
      else
        let target := U8String.slice line (firstSpace + 1) secondSpace
        match HttpMethod.fromString (U8String.slice line 0 firstSpace) with
        | none => fail .malformedStartLine "The HTTP request control data is malformed."
        | some method =>
          if h : HttpGrammar.isRequestTarget target = true then do
            let version ← versionOrFail (U8String.slice line (secondSpace + 1) line.length)
            return .request method target version h
          else fail .malformedStartLine "The HTTP request control data is malformed."

def parseStatusLine (line : List UInt8) : Except Http1Error Http1StartLine :=
  if line.length < 13 ∨ U8String.charAt line 8 ≠ some 0x20 ∨ U8String.charAt line 12 ≠ some 0x20 then
    fail .malformedStartLine "The HTTP status line is malformed."
  else do
    let version ← versionOrFail (U8String.slice line 0 8)
    let reason := U8String.slice line 13 line.length
    match HttpStatus.fromString (U8String.slice line 9 12) with
    | none => fail .malformedStartLine "The HTTP response control data is malformed."
    | some status =>
      if h : HttpGrammar.isReasonPhrase reason = true then return .response version status reason h
      else fail .malformedStartLine "The HTTP response control data is malformed."

/-- A field, and the length of all fields with it. -/
def parseFieldLine (m : Http1Message) (line : List UInt8) (trailer : Bool) :
    Except Http1Error (HttpField × Nat) :=
  let limits := if trailer then m.limits.trailerLimits else m.limits.headerLimits
  let limitReason := if trailer then .trailerLimitExceeded else .headerLimitExceeded
  if line = [] ∨ U8String.startsWith line 0x20 ∨ U8String.startsWith line 0x09 then
    fail .malformedField "Obsolete folded HTTP fields are forbidden."
  else match U8String.findFirstOf line 0x3A 0 with
  | none | some 0 => fail .malformedField "An HTTP field line has an invalid colon delimiter."
  | some (colon + 1) =>
    if U8String.charAt line colon = some 0x20 ∨ U8String.charAt line colon = some 0x09 then
      fail .malformedField "An HTTP field line has an invalid colon delimiter."
    else
      let nameText := U8String.slice line 0 (colon + 1)
      let value := U8String.trimmed isAsciiBlank (U8String.slice line (colon + 2) line.length)
      let canonicalLength := nameText.length + 2 + value.length + 2
      let maximumAggregate := limits.maximumAggregateLength.toNat
      if nameText.length > limits.maximumNameLength.toNat ∨
        value.length > limits.maximumValueLength.toNat then
        fail limitReason "An HTTP field component exceeds its configured limit."
      else if m.fields.length ≥ limits.maximumFieldCount.toNat then
        fail limitReason "An HTTP field section contains too many fields."
      else if m.fieldBytes > maximumAggregate ∨ canonicalLength > maximumAggregate - m.fieldBytes then
        fail limitReason "An HTTP field section exceeds its aggregate limit."
      else if h : HttpGrammar.isToken nameText = true ∧ HttpGrammar.isFieldValue value = true then
        let name : HttpFieldName := ⟨nameText, h.1⟩
        if trailer && name.type.isKnown then
          fail .forbiddenTrailer "A recognized HTTP field is forbidden in trailers."
        else .ok (⟨name, value, h.2⟩, m.fieldBytes + canonicalLength)
      else fail .malformedField "An HTTP field contains invalid wire bytes."

def finishFields (m : Http1Message) (trailer : Bool) : Except Http1Error (HttpHeaders × Http1Message) :=
  let limits := if trailer then m.limits.trailerLimits else m.limits.headerLimits
  match h : limits.validate m.fields with
  | .error message => .error (.parameter message)
  | .ok () => .ok (⟨m.fields, limits, h⟩, { m with fields := [], fieldBytes := 0 })

/-- A chunked or a fixed-length body, or the state for a message without framing fields. -/
def selectFieldFraming (m : Http1Message) (version : HttpVersion) (message : String)
    (otherwise : Http1Message) : Except Http1Error Http1Message :=
  if m.transferCoding ≠ .none then
    if version = .http10 ∨ m.transferCoding ≠ .chunked then fail .unsupportedTransferCoding message
    else .ok { m with framing := .chunked, state := .chunkLine }
  else match m.contentLength with
  | some length => .ok { m with
      framing := .fixedLength
      bodyRemaining := length
      state := if length = 0 then .completePending else .fixedBody }
  | none => .ok otherwise

def selectRequestFraming (m : Http1Message) (version : HttpVersion) :
    Except Http1Error Http1Message :=
  m.selectFieldFraming version "The request transfer coding is unsupported."
    { m with framing := .none, state := .completePending }

def selectResponseFraming (m : Http1Message) (version : HttpVersion) (status : HttpStatus) :
    Except Http1Error Http1Message :=
  let isHead := m.requestMethod.any (·.type = .head)
  let isConnect := m.requestMethod.any (·.type = .connect)
  if status.code = HttpStatus.switchingProtocols ∨ (isConnect ∧ status.isSuccessful) then
    .ok { m with framing := .opaqueData, state := .opaquePending }
  else if m.transferCoding ≠ .none ∧
    (status.isInformational ∨ status.code = HttpStatus.noContent) then
    fail .ambiguousFraming "Transfer-Encoding is forbidden for this response status."
  else if m.contentLength.isSome ∧
    (status.isInformational ∨ status.code = HttpStatus.noContent) then
    fail .ambiguousFraming "Content-Length is forbidden for this response status."
  else if isHead ∨ status.isInformational ∨ status.code = HttpStatus.noContent ∨
    status.code = HttpStatus.notModified then
    .ok { m with framing := .none, state := .completePending }
  else
    m.selectFieldFraming version "The response transfer coding is unsupported."
      { m with framing := .closeDelimited, state := .closeBody }

/-- The framing fields of a header section. -/
def readFraming (m : Http1Message) (fields : List HttpField) : Except Http1Error Http1Message :=
  match Http1FramingParser.ofHeaders fields with
  | .error _ => fail .ambiguousFraming "HTTP message framing is malformed or ambiguous."
  | .ok parser =>
    if parser.contentLength.any (· > m.limits.maximumBodyLength.toNat) then
      fail .bodyLimitExceeded "The declared HTTP body exceeds its configured limit."
    else if parser.contentLength.isSome ∧ parser.transferCoding ≠ .none then
      fail .ambiguousFraming "Content-Length and Transfer-Encoding cannot be combined."
    else .ok { m with
      contentLength := parser.contentLength
      transferCoding := parser.transferCoding }

/-- The head of a message, with the framing of its body. -/
def selectFraming (m : Http1Message) (headers : HttpHeaders) :
    Except Http1Error (Http1DecodeEvent × Http1Message) := do
  let m ← m.readFraming headers.fields
  match m.startLine with
  | some (.request method target version h) =>
    let m ← m.selectRequestFraming version
    return (.requestHead ⟨method, target, version, headers, h⟩ m.framing m.contentLength, m)
  | some (.response version status reason h) =>
    let m ← m.selectResponseFraming version status
    return (.responseHead ⟨version, status, reason, headers, h⟩ m.framing m.contentLength, m)
  | none => .error (.parameter "An HTTP request head requires a valid method.")

def accountBody (m : Http1Message) (length : Nat) : Except Http1Error Http1Message :=
  let maximum := m.limits.maximumBodyLength.toNat
  if length > maximum - min m.bodyDecoded maximum then
    fail .bodyLimitExceeded "Decoded body data exceeds its configured limit."
  else .ok { m with bodyDecoded := m.bodyDecoded + length }

/-- What happens without a complete line. -/
def waitOrFail (endOfInput : Bool) (message : String) : Except Http1Error Http1Turn :=
  if endOfInput then fail .prematureEndOfStream message else .ok .wait

def parseStartLine (m : Http1Message) (line : List UInt8) : Except Http1Error Http1StartLine :=
  match m.role with
  | .request => parseRequestLine line
  | .response => parseStatusLine line

def readStartLine (m : Http1Message) (input : List UInt8) (endOfInput : Bool) :
    Except Http1Error Http1Turn := do
  match ← m.takeLine input m.limits.maximumStartLineLength .startLineTooLong with
  | none => waitOrFail endOfInput "EOF before a complete HTTP start line."
  | some (line, consumed) =>
    if line = [] then fail .malformedStartLine "Leading blank lines are not accepted."
    else
      let startLine ← m.parseStartLine line
      return .again { m with startLine := some startLine, state := .headers } consumed

def readHeaders (m : Http1Message) (input : List UInt8) (endOfInput : Bool) :
    Except Http1Error Http1Turn := do
  match ← m.takeLine input m.limits.headerLimits.maximumAggregateLength .headerLimitExceeded with
  | none => waitOrFail endOfInput "EOF inside an HTTP header section."
  | some (line, consumed) =>
    if line ≠ [] then
      let (field, fieldBytes) ← m.parseFieldLine line false
      return .again { m with fields := m.fields ++ [field], fieldBytes := fieldBytes } consumed
    else
      let (headers, m) ← m.finishFields false
      let (event, m) ← m.selectFraming headers
      return .emit event m consumed

/-- The next piece of a body of known length. -/
def readBodyPiece (m : Http1Message) (input : List UInt8) (endOfInput : Bool) (message : String) :
    Except Http1Error Http1Turn :=
  if input = [] then waitOrFail endOfInput message
  else do
    let length := min (min input.length m.bodyRemaining) Http1CodecLimits.maximumBodyChunkLength
    let m ← m.accountBody length
    return .emit (.body (input.take length)) { m with bodyRemaining := m.bodyRemaining - length } length

def emitCompletion (m : Http1Message) : Http1Turn :=
  .emit .complete { m with state := if m.state = .opaquePending then .opaqueData else .complete } 0

def readFixedBody (m : Http1Message) (input : List UInt8) (endOfInput : Bool) :
    Except Http1Error Http1Turn :=
  if m.bodyRemaining = 0 then .ok (emitCompletion { m with state := .completePending })
  else m.readBodyPiece input endOfInput "EOF inside a fixed-length HTTP body."

def readChunkLine (m : Http1Message) (input : List UInt8) (endOfInput : Bool) :
    Except Http1Error Http1Turn := do
  match ← m.takeLine input m.limits.maximumChunkMetadataLength .chunkMetadataTooLong with
  | none => waitOrFail endOfInput "EOF before a complete chunk-size line."
  | some (line, consumed) =>
    match Http1FramingParser.chunkSize line with
    | .error _ => fail .malformedChunk "The chunk-size metadata is malformed."
    | .ok value =>
      let maximum := m.limits.maximumBodyLength.toNat
      if value > maximum - min m.bodyDecoded maximum then
        fail .bodyLimitExceeded "Chunked data exceeds the configured body limit."
      else if value = 0 then
        return .again { m with bodyRemaining := 0, fields := [], fieldBytes := 0, state := .trailers }
          consumed
      else return .again { m with bodyRemaining := value, state := .chunkData } consumed

def readChunkData (m : Http1Message) (input : List UInt8) (endOfInput : Bool) :
    Except Http1Error Http1Turn :=
  if m.bodyRemaining = 0 then .ok (.again { m with state := .chunkDataEnd } 0)
  else m.readBodyPiece input endOfInput "EOF inside chunk data."

def readChunkDataEnd (m : Http1Message) (input : List UInt8) (endOfInput : Bool) :
    Except Http1Error Http1Turn :=
  match input with
  | first :: second :: _ =>
    if first ≠ 0x0D ∨ second ≠ 0x0A then
      fail .malformedChunk "Chunk data is not followed by CRLF."
    else .ok (.again { m with state := .chunkLine } 2)
  | _ => waitOrFail endOfInput "EOF after chunk data."

def readTrailers (m : Http1Message) (input : List UInt8) (endOfInput : Bool) :
    Except Http1Error Http1Turn := do
  match ← m.takeLine input m.limits.trailerLimits.maximumAggregateLength .trailerLimitExceeded with
  | none => waitOrFail endOfInput "EOF inside an HTTP trailer section."
  | some (line, consumed) =>
    if line ≠ [] then
      let (field, fieldBytes) ← m.parseFieldLine line true
      return .again { m with fields := m.fields ++ [field], fieldBytes := fieldBytes } consumed
    else
      let (trailers, m) ← m.finishFields true
      return .emit (.trailers trailers) { m with state := .completePending } consumed

def readCloseBody (m : Http1Message) (input : List UInt8) (endOfInput : Bool) :
    Except Http1Error Http1Turn :=
  if input ≠ [] then do
    let length := min input.length Http1CodecLimits.maximumBodyChunkLength
    let m ← m.accountBody length
    return .emit (.body (input.take length)) m length
  else if endOfInput then .ok (emitCompletion { m with state := .completePending })
  else .ok .wait

/-- One turn; a change of the state without an event leads to the next turn. -/
def turn (m : Http1Message) (input : List UInt8) (endOfInput : Bool) : Except Http1Error Http1Turn :=
  match m.state with
  | .startLine => m.readStartLine input endOfInput
  | .headers => m.readHeaders input endOfInput
  | .fixedBody => m.readFixedBody input endOfInput
  | .chunkLine => m.readChunkLine input endOfInput
  | .chunkData => m.readChunkData input endOfInput
  | .chunkDataEnd => m.readChunkDataEnd input endOfInput
  | .trailers => m.readTrailers input endOfInput
  | .closeBody => m.readCloseBody input endOfInput
  | .completePending | .opaquePending => .ok m.emitCompletion
  | .complete | .opaqueData => .ok .wait
  | .failed => fail .invalidState "HTTP decoder is in a failed state."

/-- The bytes that a failing turn took from the input: a line that is not well-formed is gone. -/
def takenByFailure (m : Http1Message) (input : List UInt8) : Nat :=
  match m.state with
  | .startLine => lineTaken (m.takeLine input m.limits.maximumStartLineLength .startLineTooLong)
  | .headers =>
    lineTaken (m.takeLine input m.limits.headerLimits.maximumAggregateLength .headerLimitExceeded)
  | .chunkLine =>
    lineTaken (m.takeLine input m.limits.maximumChunkMetadataLength .chunkMetadataTooLong)
  | .trailers =>
    lineTaken (m.takeLine input m.limits.trailerLimits.maximumAggregateLength .trailerLimitExceeded)
  | _ => 0

end Http1Message

/-- A decoder with the input that it did not consume yet. -/
structure Http1Decoder where
  message : Http1Message
  input : RingBuffer
  endOfInput : Bool := false
  deriving DecidableEq

namespace Http1Decoder

def new (role : Http1Role) (limits : Http1CodecLimits) (requestMethod : Option HttpMethod) :
    Http1Decoder where
  message := { role, limits, requestMethod }
  input := Http1CodecLimits.newQueue limits.maximumInputLength

/-- A failure leaves the input after the line that was taken before it. -/
def failed (d : Http1Decoder) : Http1Decoder :=
  { d with
    message := { d.message with state := .failed }
    input := (d.input.consumeRead (d.message.takenByFailure d.input.contents)).getD d.input }

def feed (d : Http1Decoder) (bytes : List UInt8) : NetworkSendStatus × Http1Decoder :=
  let maximum := d.message.limits.maximumInputLength.toNat
  if d.message.state = .failed ∨ d.endOfInput ∨ d.message.state = .opaqueData then (.closed, d)
  else if bytes.length > maximum ∨ d.input.length > maximum - bytes.length then (.wouldBlock, d)
  else match d.input.writeExact bytes with
  | none => (.wouldBlock, d)
  | some input => (.accepted, { d with input := input })

def signalEndOfInput (d : Http1Decoder) : Except Http1Error Http1Decoder :=
  if d.message.state = .failed ∨ d.endOfInput then
    fail .invalidState "HTTP decoder cannot accept EOF in its current state."
  else .ok { d with endOfInput := true }

def nextLoop : Nat → Http1Decoder → Except Http1Error (Option Http1DecodeEvent) × Http1Decoder
  | 0, d => (.ok none, d)
  | fuel + 1, d =>
    let advance (message : Http1Message) (consumed : Nat) : Option Http1Decoder :=
      (d.input.consumeRead consumed).map fun input => { d with message := message, input := input }
    let tooShort : Http1Error :=
      .parameter "Consumed byte count exceeds readable ring buffer data."
    match d.message.turn d.input.contents d.endOfInput with
    | .error error => (.error error, d.failed)
    | .ok .wait => (.ok none, d)
    | .ok (.emit event message consumed) => match advance message consumed with
      | none => (.error tooShort, d.failed)
      | some d => (.ok (some event), d)
    | .ok (.again message consumed) => match advance message consumed with
      | none => (.error tooShort, d.failed)
      | some d => nextLoop fuel d

/-- The next event, if the input suffices for it. -/
def next (d : Http1Decoder) : Except Http1Error (Option Http1DecodeEvent) × Http1Decoder :=
  nextLoop (2 * d.input.length + 2) d

def isComplete (d : Http1Decoder) : Bool :=
  d.message.state = .complete ∨ d.message.state = .opaqueData

end Http1Decoder
end ErbslandCore.Network
