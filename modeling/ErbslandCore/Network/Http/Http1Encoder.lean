import ErbslandCore.Network.Http.Http1Decoder

namespace ErbslandCore.Network
open Mem Text
set_option autoImplicit true

/-- A misuse is reported by an exception; an append that fails after its space was reserved ends the
process. -/
inductive Http1EncoderError where
  | misuse (message : String)
  | terminate
  deriving DecidableEq

structure Http1Encoder where
  limits : Http1CodecLimits
  output : RingBuffer
  framing : Http1BodyFraming := .none
  transferCoding : Http1TransferCoding := .none
  contentLength : Option Nat := none
  bodyWritten : Nat := 0
  bodyRemaining : Nat := 0
  complete : Bool := false
  deriving DecidableEq

namespace Http1Encoder

def misuse (message : String) : Except Http1EncoderError α := .error (.misuse message)

/-- The hexadecimal digits of a number of 64 bits, in lower case. -/
def hexDigits : Nat → Nat → List UInt8
  | 0, _ => []
  | fuel + 1, value =>
    let digit := value % 16
    let last := UInt8.ofNat (if digit < 10 then 0x30 + digit else 0x61 + (digit - 10))
    if value < 16 then [last] else hexDigits fuel (value / 16) ++ [last]

/-- The number of digits of a chunk size. -/
def chunkDigits : Nat → Nat → Nat
  | 0, _ => 1
  | fuel + 1, value => if value < 16 then 1 else chunkDigits fuel (value / 16) + 1

def chunkWireLength (length : Nat) : Nat := length + (chunkDigits 16 length + 4)

def validateFields (headers : HttpHeaders) (limits : HttpHeaderLimits) :
    Except Http1EncoderError Unit :=
  if headers.fields.length > limits.maximumFieldCount.toNat ∨
    serializedLength headers.fields > limits.maximumAggregateLength.toNat then
    misuse "An HTTP field section exceeds configured limits."
  else if headers.fields.any fun field =>
    field.name.text.length > limits.maximumNameLength.toNat ∨
      field.value.length > limits.maximumValueLength.toNat then
    misuse "An HTTP field component exceeds configured limits."
  else .ok ()

/-- The framing fields, which requests and responses share. -/
def selectFieldFraming (e : Http1Encoder) (headers : HttpHeaders) :
    Except Http1EncoderError Http1Encoder :=
  match Http1FramingParser.ofHeaders headers.fields with
  | .error _ => misuse "The HTTP message framing fields are malformed or ambiguous."
  | .ok parser =>
    if parser.contentLength.any (· > e.limits.maximumBodyLength.toNat) then
      misuse "The declared body exceeds the encoder body limit."
    else if parser.contentLength.isSome ∧ parser.transferCoding ≠ .none then
      misuse "Content-Length and Transfer-Encoding cannot be combined."
    else .ok { e with
      contentLength := parser.contentLength
      transferCoding := parser.transferCoding }

/-- A chunked or a fixed-length body, or the framing without these fields. -/
def selectBodyFraming (e : Http1Encoder) (version : HttpVersion) (otherwise : Http1BodyFraming) :
    Except Http1EncoderError Http1Encoder :=
  if e.transferCoding ≠ .none then
    if version = .http10 ∨ e.transferCoding ≠ .chunked then
      misuse "Only HTTP/1.1 chunked transfer coding can be encoded."
    else .ok { e with framing := .chunked }
  else match e.contentLength with
  | some length => .ok { e with framing := .fixedLength, bodyRemaining := length }
  | none => .ok { e with framing := otherwise }

def selectRequestFraming (e : Http1Encoder) (head : HttpRequestHead) :
    Except Http1EncoderError Http1Encoder := do
  let e ← e.selectFieldFraming head.headers
  e.selectBodyFraming head.version .none

def selectResponseFraming (e : Http1Encoder) (head : HttpResponseHead)
    (requestMethod : Option HttpMethod) : Except Http1EncoderError Http1Encoder := do
  let e ← e.selectFieldFraming head.headers
  let isHead := requestMethod.any (·.type = .head)
  let isConnect := requestMethod.any (·.type = .connect)
  if head.status.code = HttpStatus.switchingProtocols ∨ (isConnect ∧ head.status.isSuccessful) then
    return { e with framing := .opaqueData }
  else if e.transferCoding ≠ .none ∧
    (head.status.isInformational ∨ head.status.code = HttpStatus.noContent) then
    misuse "Transfer-Encoding is forbidden for this response status."
  else if e.contentLength.isSome ∧
    (head.status.isInformational ∨ head.status.code = HttpStatus.noContent) then
    misuse "Content-Length is forbidden for this response status."
  else if isHead ∨ head.status.isInformational ∨ head.status.code = HttpStatus.noContent ∨
    head.status.code = HttpStatus.notModified then
    return { e with framing := .none }
  else e.selectBodyFraming head.version .closeDelimited

def canQueue (e : Http1Encoder) (length : Nat) : Bool :=
  let maximum := e.limits.maximumOutputLength.toNat
  length ≤ maximum && e.output.length ≤ maximum - length

/-- The texts are appended in turn, after their space was reserved. -/
def appendAll (output : RingBuffer) (texts : List (List UInt8)) : Except Http1EncoderError RingBuffer :=
  match texts.foldlM RingBuffer.writeExact output with
  | none => .error .terminate
  | some output => .ok output

/-- The texts of a field line. -/
def fieldTexts (field : HttpField) : List (List UInt8) :=
  [field.name.text, U8String.ofLiteral ": ", field.value, U8String.ofLiteral "\r\n"]

def headerTexts (headers : HttpHeaders) : List (List UInt8) := headers.fields.flatMap fieldTexts

/-- Space is reserved for the head, and it is appended. -/
def begin (e : Http1Encoder) (required : Nat) (texts : List (List UInt8)) (message : String) :
    Except Http1EncoderError Http1Encoder :=
  match if e.canQueue required then e.output.reserveAdditional required else none with
  | none => misuse message
  | some output => do return { e with output := ← appendAll output texts }

def requestLineTexts (head : HttpRequestHead) : List (List UInt8) :=
  [head.method.text, U8String.ofLiteral " ", head.target, U8String.ofLiteral " ",
    head.version.toString, U8String.ofLiteral "\r\n"]

def statusLineTexts (head : HttpResponseHead) : List (List UInt8) :=
  [head.version.toString, U8String.ofLiteral " ", head.status.toString, U8String.ofLiteral " ",
    head.reasonPhrase, U8String.ofLiteral "\r\n"]

def beginRequest (e : Http1Encoder) (head : HttpRequestHead) : Except Http1EncoderError Http1Encoder :=
  e.begin
    (head.method.text.length + head.target.length + head.version.toString.length +
      serializedLength head.headers.fields + 6)
    (requestLineTexts head ++ headerTexts head.headers ++ [U8String.ofLiteral "\r\n"])
    "The serialized HTTP request head exceeds the output queue limit."

def beginResponse (e : Http1Encoder) (head : HttpResponseHead) : Except Http1EncoderError Http1Encoder :=
  e.begin
    (head.version.toString.length + head.status.toString.length + head.reasonPhrase.length +
      serializedLength head.headers.fields + 6)
    (statusLineTexts head ++ headerTexts head.headers ++ [U8String.ofLiteral "\r\n"])
    "The serialized HTTP response head exceeds the output queue limit."

def ofRequestHead (head : HttpRequestHead) (limits : Http1CodecLimits) :
    Except Http1EncoderError Http1Encoder :=
  if head.method.text.length + head.target.length + 10 > limits.maximumStartLineLength.toNat then
    misuse "The HTTP request start line exceeds its configured limit."
  else do
    validateFields head.headers limits.headerLimits
    let e : Http1Encoder :=
      { limits := limits, output := Http1CodecLimits.newQueue limits.maximumOutputLength }
    let e ← e.selectRequestFraming head
    e.beginRequest head

def ofResponseHead (head : HttpResponseHead) (requestMethod : Option HttpMethod)
    (limits : Http1CodecLimits) : Except Http1EncoderError Http1Encoder :=
  if head.reasonPhrase.length + 13 > limits.maximumStartLineLength.toNat then
    misuse "The HTTP response start line exceeds its configured limit."
  else do
    validateFields head.headers limits.headerLimits
    let e : Http1Encoder :=
      { limits := limits, output := Http1CodecLimits.newQueue limits.maximumOutputLength }
    let e ← e.selectResponseFraming head requestMethod
    e.beginResponse head

/-- Space for some texts, which are appended then; without the space the call has to be repeated. -/
def queue (e : Http1Encoder) (required : Nat) (texts : List (List UInt8)) :
    Except Http1EncoderError (NetworkSendStatus × Http1Encoder) :=
  match if e.canQueue required then e.output.reserveAdditional required else none with
  | none => .ok (.wouldBlock, e)
  | some output => do return (.accepted, { e with output := ← appendAll output texts })

/-- A fragment of the body on the wire. -/
def bodyTexts (e : Http1Encoder) (bytes : List UInt8) : List (List UInt8) :=
  if e.framing = .chunked then
    [hexDigits 16 bytes.length, U8String.ofLiteral "\r\n", bytes, U8String.ofLiteral "\r\n"]
  else [bytes]

def bodyWireLength (e : Http1Encoder) (bytes : List UInt8) : Nat :=
  if e.framing = .chunked then chunkWireLength bytes.length else bytes.length

def writeBody (e : Http1Encoder) (bytes : List UInt8) :
    Except Http1EncoderError (NetworkSendStatus × Http1Encoder) :=
  let maximum := e.limits.maximumBodyLength.toNat
  if e.complete ∨ e.framing = .none ∨ e.framing = .opaqueData then .ok (.closed, e)
  else if bytes.length > Http1CodecLimits.maximumBodyChunkLength then
    misuse "An HTTP encoder body fragment exceeds 16 KiB."
  else if bytes.length > maximum - min e.bodyWritten maximum then
    misuse "The encoded HTTP body exceeds its configured limit."
  else if e.framing = .fixedLength ∧ bytes.length > e.bodyRemaining then
    misuse "Too many body bytes were supplied for Content-Length."
  else if e.framing = .chunked ∧ bytes = [] then .ok (.accepted, e)
  else do
    let (status, e) ← e.queue (e.bodyWireLength bytes) (e.bodyTexts bytes)
    if status = .accepted then
      return (status, { e with
        bodyWritten := e.bodyWritten + bytes.length
        bodyRemaining :=
          if e.framing = .fixedLength then e.bodyRemaining - bytes.length else e.bodyRemaining })
    else return (status, e)

def trailerWireLength (e : Http1Encoder) (trailers : HttpHeaders) : Except Http1EncoderError Nat := do
  validateFields trailers e.limits.trailerLimits
  if trailers.fields.any (·.name.type.isKnown) then
    misuse "Recognized HTTP fields are forbidden in trailers."
  else return serializedLength trailers.fields

/-- The length of the end of a message. -/
def endWireLength (e : Http1Encoder) (trailers : HttpHeaders) : Except Http1EncoderError Nat :=
  if e.framing = .chunked then do return (← e.trailerWireLength trailers) + 5 else .ok 0

def endTexts (e : Http1Encoder) (trailers : HttpHeaders) : List (List UInt8) :=
  if e.framing = .chunked then
    U8String.ofLiteral "0\r\n" :: headerTexts trailers ++ [U8String.ofLiteral "\r\n"]
  else []

def finish (e : Http1Encoder) (trailers : HttpHeaders) :
    Except Http1EncoderError (NetworkSendStatus × Http1Encoder) :=
  if e.complete then .ok (.closed, e)
  else if e.framing ≠ .chunked ∧ trailers.fields ≠ [] then
    misuse "HTTP trailers require chunked transfer coding."
  else if e.framing = .fixedLength ∧ e.bodyRemaining ≠ 0 then
    misuse "Fewer body bytes than Content-Length were supplied."
  else do
    let required ← e.endWireLength trailers
    let (status, e) ← e.queue required (e.endTexts trailers)
    if status = .accepted then return (status, { e with complete := true }) else return (status, e)

def takeOutput (e : Http1Encoder) (maximumLength : Nat) : List UInt8 × Http1Encoder :=
  let (block, output) := e.output.read maximumLength
  (block, { e with output := output.getD e.output })

end Http1Encoder

/-- A head to encode, a response with the method of its request. -/
inductive Http1Head where
  | request (head : HttpRequestHead)
  | response (head : HttpResponseHead) (requestMethod : Option HttpMethod)
  deriving DecidableEq

namespace Http1Head

def encoder (limits : Http1CodecLimits) : Http1Head → Except Http1EncoderError Http1Encoder
  | request head => Http1Encoder.ofRequestHead head limits
  | response head requestMethod => Http1Encoder.ofResponseHead head requestMethod limits

def role : Http1Head → Http1Role
  | request _ => .request
  | response _ _ => .response

def requestMethod : Http1Head → Option HttpMethod
  | request _ => none
  | response _ requestMethod => requestMethod

def headers : Http1Head → HttpHeaders
  | request head => head.headers
  | response head _ => head.headers

end Http1Head

/-- A call of the encoder. -/
inductive Http1EncoderCall where
  | writeBody (bytes : List UInt8)
  | finish (trailers : HttpHeaders)
  | takeOutput (maximumLength : Nat)
  deriving DecidableEq

/-- An encoder in use: the body and the trailers that it accepted, and the output that was taken. -/
structure Http1Encoding where
  encoder : Http1Encoder
  body : List UInt8 := []
  trailers : List HttpField := []
  taken : List UInt8 := []
  deriving DecidableEq

namespace Http1Encoding

/-- One call. A misuse changes nothing. -/
def step (s : Http1Encoding) : Http1EncoderCall → Http1Encoding
  | .writeBody bytes => match s.encoder.writeBody bytes with
    | .ok (.accepted, e) => { s with encoder := e, body := s.body ++ bytes }
    | .ok (_, e) => { s with encoder := e }
    | .error _ => s
  | .finish trailers => match s.encoder.finish trailers with
    | .ok (.accepted, e) => { s with encoder := e, trailers := trailers.fields }
    | .ok (_, e) => { s with encoder := e }
    | .error _ => s
  | .takeOutput maximumLength =>
    let (block, e) := s.encoder.takeOutput maximumLength
    { s with encoder := e, taken := s.taken ++ block }

def run (calls : List Http1EncoderCall) (s : Http1Encoding) : Http1Encoding := calls.foldl step s

/-- All bytes that were written. -/
def written (s : Http1Encoding) : List UInt8 := s.taken ++ s.encoder.output.contents

end Http1Encoding
end ErbslandCore.Network
