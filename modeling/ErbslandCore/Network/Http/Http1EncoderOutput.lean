import ErbslandCore.Network.Http.Http1EncodedLines
import ErbslandCore.Network.Http.Http1Wire

namespace ErbslandCore.Network
open Library Mem Text
set_option autoImplicit true

namespace Http1Encoder

theorem appendAll_ok {output : RingBuffer} {texts : List (List UInt8)}
    (h : output.length + texts.flatten.length ≤ output.maximumCapacity) :
    ∃ output', appendAll output texts = .ok output' ∧ output'.contents = output.contents ++ texts.flatten ∧
      output'.maximumCapacity = output.maximumCapacity := by
  induction texts generalizing output with
  | nil => exact ⟨output, rfl, by simp, rfl⟩
  | cons text texts ih =>
    rw [List.flatten_cons, List.length_append] at h
    obtain ⟨output₁, hwrite, hcontents, hcapacity⟩ := (output.contents_writeExact text).2 (by omega)
    have hlength : output₁.length = output.length + text.length := by
      rw [← RingBuffer.length_contents, hcontents, List.length_append, RingBuffer.length_contents]
    have hfits : output₁.length + texts.flatten.length ≤ output₁.maximumCapacity := by omega
    obtain ⟨output₂, happend, hcontents₂, hcapacity₂⟩ := ih hfits
    refine ⟨output₂, ?_, ?_, hcapacity₂.trans hcapacity⟩
    · rw [appendAll, List.foldlM_cons, hwrite]
      exact happend
    · rw [hcontents₂, hcontents, List.flatten_cons, List.append_assoc]

/-- Texts whose space was reserved are appended. -/
theorem reserved_append {e : Http1Encoder} {output : RingBuffer} (hlength : texts.flatten.length = required)
    (h : (if e.canQueue required then e.output.reserveAdditional required else none) = some output) :
    ∃ output', appendAll output texts = .ok output' ∧
      output'.contents = e.output.contents ++ texts.flatten := by
  split at h
  case isFalse => cases h
  case isTrue =>
    have hreserve := e.output.reserveAdditional_eq required
    cases hcan : e.output.canWrite required with
    | false =>
      rw [hreserve.1 hcan] at h
      cases h
    | true =>
      obtain ⟨b, hb, hcontents, hblength, hcapacity, -⟩ := hreserve.2 hcan
      rw [hb] at h
      cases h
      rw [RingBuffer.canWrite, decide_eq_true_eq] at hcan
      have hstored := e.output.length_le.trans e.output.storage_le
      have hfits : output.length + texts.flatten.length ≤ output.maximumCapacity := by omega
      obtain ⟨output', happend, hcontents', -⟩ := appendAll_ok hfits
      exact ⟨output', happend, by rw [hcontents', hcontents]⟩

theorem queue_ok {e : Http1Encoder} (hlength : texts.flatten.length = required) :
    e.queue required texts = .ok (.wouldBlock, e) ∨
    ∃ output, e.queue required texts = .ok (.accepted, { e with output := output }) ∧
      output.contents = e.output.contents ++ texts.flatten := by
  rw [queue]
  split
  case h_1 => exact .inl rfl
  case h_2 output houtput =>
    obtain ⟨output', happend, hcontents⟩ := reserved_append hlength houtput
    rw [happend]
    exact .inr ⟨output', rfl, hcontents⟩

theorem begin_ok {e : Http1Encoder} (hlength : texts.flatten.length = required)
    (h : e.begin required texts message = .ok e') :
    ∃ output, e' = { e with output := output } ∧
      output.contents = e.output.contents ++ texts.flatten := by
  rw [begin] at h
  split at h
  case h_1 => cases h
  case h_2 output houtput =>
    obtain ⟨output', happend, hcontents⟩ := reserved_append hlength houtput
    rw [happend] at h
    cases h
    exact ⟨output', rfl, hcontents⟩

theorem validateFields_admits {limits : HttpHeaderLimits} (h : validateFields headers limits = .ok ()) :
    limits.Admits headers.fields := by
  rw [validateFields] at h
  split_ifs at h with hsection hfields
  · cases h
  · cases h
  rw [not_or, not_lt, not_lt] at hsection
  rw [List.any_eq_true, not_exists] at hfields
  refine ⟨hsection.1, fun field hf => ?_, fun field hf => ?_, hsection.2⟩
  · have hfield := hfields field
    simp only [not_and, decide_eq_true_eq, not_or, not_lt] at hfield
    exact (hfield hf).1
  · have hfield := hfields field
    simp only [not_and, decide_eq_true_eq, not_or, not_lt] at hfield
    exact (hfield hf).2

theorem flatten_fieldTexts (field : HttpField) : (fieldTexts field).flatten = fieldLine field ++ crlf := by
  simp [fieldTexts, fieldLine, crlf, U8String.ofLiteral]

theorem flatten_headerTexts (headers : HttpHeaders) :
    (headerTexts headers).flatten = wireLines (headers.fields.map fieldLine) := by
  rw [headerTexts, wireLines, List.flatMap_map]
  induction headers.fields with
  | nil => rfl
  | cons field fields ih =>
    rw [List.flatMap_cons, List.flatten_append, ih, flatten_fieldTexts, List.flatMap_cons]

theorem length_wireLines (fields : List HttpField) :
    (wireLines (fields.map fieldLine)).length = serializedLength fields := by
  rw [wireLines, serializedLength]
  induction fields with
  | nil => rfl
  | cons field fields ih =>
    rw [List.map_cons, List.flatMap_cons, List.length_append, ih, List.map_cons, List.sum_cons,
      HttpField.wireLength, fieldLine, crlf]
    simp
    omega

end Http1Encoder

namespace Http1Message

/-- The state in which a body is read. -/
def bodyState (remaining : Nat) : Http1BodyFraming → Http1DecoderState
  | .none => .completePending
  | .fixedLength => if remaining = 0 then .completePending else .fixedBody
  | .chunked => .chunkLine
  | .closeDelimited => .closeBody
  | .opaqueData => .opaquePending

/-- The message after its head, with the framing that an encoder selected. -/
def framedBy (m : Http1Message) (e : Http1Encoder) : Http1Message :=
  { m with
    contentLength := e.contentLength
    transferCoding := e.transferCoding
    framing := e.framing
    bodyRemaining := if e.framing = .fixedLength then e.bodyRemaining else m.bodyRemaining
    state := bodyState e.bodyRemaining e.framing }

theorem readFraming_encoder {m : Http1Message} {e e' : Http1Encoder}
    (hlimits : m.limits.maximumBodyLength = e.limits.maximumBodyLength)
    (h : e.selectFieldFraming headers = .ok e') :
    m.readFraming headers.fields = .ok { m with
      contentLength := e'.contentLength, transferCoding := e'.transferCoding } ∧
    e' = { e with contentLength := e'.contentLength, transferCoding := e'.transferCoding } := by
  rw [Http1Encoder.selectFieldFraming] at h
  rw [readFraming, hlimits]
  cases hp : Http1FramingParser.ofHeaders headers.fields with
  | error _ =>
    rw [hp] at h
    cases h
  | ok parser =>
    simp only [hp] at h ⊢
    split_ifs at h with hlong hboth
    · cases h
    · cases h
    cases h
    refine ⟨?_, rfl⟩
    rw [if_neg hlong, if_neg hboth]

theorem selectFieldFraming_encoder (m : Http1Message) {e e' : Http1Encoder}
    (hfixed : otherwise ≠ .fixedLength) (h : e.selectBodyFraming version otherwise = .ok e')
    (message : String) :
    selectFieldFraming { m with contentLength := e.contentLength, transferCoding := e.transferCoding }
        version message { m with
          contentLength := e.contentLength
          transferCoding := e.transferCoding
          framing := otherwise
          state := bodyState 0 otherwise } = .ok (m.framedBy e') ∧
      e' = { e with framing := e'.framing, bodyRemaining := e'.bodyRemaining } ∧
      (e'.framing = .fixedLength → e'.contentLength = some e'.bodyRemaining) := by
  rw [Http1Encoder.selectBodyFraming] at h
  rw [selectFieldFraming]
  split at h
  case isTrue hc =>
    rw [if_pos hc]
    split_ifs at h with hv
    · cases h
    cases h
    rw [if_neg hv]
    exact ⟨rfl, rfl, fun hf => (by cases hf)⟩
  case isFalse hc =>
    rw [if_neg hc]
    split at h
    case h_1 n hn =>
      cases h
      refine ⟨?_, rfl, fun _ => hn⟩
      simp only [hn]
      rfl
    case h_2 hn =>
      cases h
      refine ⟨?_, rfl, fun hf => absurd hf hfixed⟩
      simp only [framedBy, if_neg hfixed, hn]
      cases otherwise with
      | none | chunked | closeDelimited | opaqueData => rfl
      | fixedLength => exact absurd rfl hfixed

theorem selectFraming_request {m : Http1Message} {e e' : Http1Encoder} {head : HttpRequestHead}
    (hstart : m.startLine = some (.request head.method head.target head.version head.isRequestTarget))
    (hlimits : m.limits.maximumBodyLength = e.limits.maximumBodyLength)
    (h : e.selectRequestFraming head = .ok e') (headers : HttpHeaders) (hfields : headers.fields = head.headers.fields) :
    m.selectFraming headers = .ok
      (headEvent (.request head.method head.target head.version head.isRequestTarget) headers
        e'.framing e'.contentLength, m.framedBy e') ∧
    e' = { e with
      framing := e'.framing
      transferCoding := e'.transferCoding
      contentLength := e'.contentLength
      bodyRemaining := e'.bodyRemaining } ∧
    (e'.framing = .fixedLength → e'.contentLength = some e'.bodyRemaining) := by
  rw [Http1Encoder.selectRequestFraming] at h
  obtain ⟨e₁, hread, h⟩ := bind_eq_ok h
  obtain ⟨hm, he₁⟩ := readFraming_encoder hlimits hread
  obtain ⟨hselect, he', hlength⟩ := selectFieldFraming_encoder m (by simp) h
    "The request transfer coding is unsupported."
  refine ⟨?_, ?_, hlength⟩
  · rw [selectFraming, hfields, hm, ok_bind]
    simp only [hstart]
    rw [← hstart, selectRequestFraming]
    simp only [bodyState] at hselect
    rw [hselect]
    rfl
  · rw [he', he₁]

theorem selectFraming_response {m : Http1Message} {e e' : Http1Encoder} {head : HttpResponseHead}
    (hstart : m.startLine =
      some (.response head.version head.status head.reasonPhrase head.isReasonPhrase))
    (hlimits : m.limits.maximumBodyLength = e.limits.maximumBodyLength)
    (h : e.selectResponseFraming head m.requestMethod = .ok e')
    (headers : HttpHeaders) (hfields : headers.fields = head.headers.fields) :
    m.selectFraming headers = .ok
      (headEvent (.response head.version head.status head.reasonPhrase head.isReasonPhrase) headers
        e'.framing e'.contentLength, m.framedBy e') ∧
    e' = { e with
      framing := e'.framing
      transferCoding := e'.transferCoding
      contentLength := e'.contentLength
      bodyRemaining := e'.bodyRemaining } ∧
    (e'.framing = .fixedLength → e'.contentLength = some e'.bodyRemaining) := by
  rw [Http1Encoder.selectResponseFraming] at h
  obtain ⟨e₁, hread, h⟩ := bind_eq_ok h
  obtain ⟨hm, he₁⟩ := readFraming_encoder hlimits hread
  have hselect : selectResponseFraming
      { m with contentLength := e₁.contentLength, transferCoding := e₁.transferCoding }
      head.version head.status = .ok (m.framedBy e') ∧
      e' = { e₁ with framing := e'.framing, bodyRemaining := e'.bodyRemaining } ∧
      (e'.framing = .fixedLength → e'.contentLength = some e'.bodyRemaining) := by
    rw [selectResponseFraming]
    simp only at h ⊢
    by_cases hopaque : head.status.code = HttpStatus.switchingProtocols ∨
        (m.requestMethod.any (·.type = .connect) = true ∧ head.status.isSuccessful = true)
    · rw [if_pos hopaque] at h ⊢
      cases h
      exact ⟨rfl, rfl, fun hf => (by cases hf)⟩
    rw [if_neg hopaque] at h ⊢
    by_cases hcoding : e₁.transferCoding ≠ .none ∧
        (head.status.isInformational = true ∨ head.status.code = HttpStatus.noContent)
    · rw [if_pos hcoding] at h
      cases h
    rw [if_neg hcoding] at h ⊢
    by_cases hlength : e₁.contentLength.isSome = true ∧
        (head.status.isInformational = true ∨ head.status.code = HttpStatus.noContent)
    · rw [if_pos hlength] at h
      cases h
    rw [if_neg hlength] at h ⊢
    by_cases hnone : m.requestMethod.any (·.type = .head) = true ∨ head.status.isInformational = true ∨
        head.status.code = HttpStatus.noContent ∨ head.status.code = HttpStatus.notModified
    · rw [if_pos hnone] at h ⊢
      cases h
      exact ⟨rfl, rfl, fun hf => (by cases hf)⟩
    rw [if_neg hnone] at h ⊢
    exact selectFieldFraming_encoder m (by simp) h "The response transfer coding is unsupported."
  obtain ⟨hselect, he', hlength⟩ := hselect
  refine ⟨?_, ?_, hlength⟩
  · rw [selectFraming, hfields, hm, ok_bind]
    simp only [hstart]
    rw [← hstart, hselect]
    rfl
  · rw [he', he₁]

end Http1Message

namespace Http1Head

def startLine : Http1Head → Http1StartLine
  | request head => .request head.method head.target head.version head.isRequestTarget
  | response head _ => .response head.version head.status head.reasonPhrase head.isReasonPhrase

/-- The first line of the message. -/
def line : Http1Head → List UInt8
  | request head => requestLine head
  | response head _ => statusLine head

/-- The head on the wire. -/
def wire (head : Http1Head) : List UInt8 :=
  head.line ++ crlf ++ wireLines (head.headers.fields.map fieldLine) ++ crlf

/-- An encoder that wrote the head of a message. -/
structure Begun (head : Http1Head) (limits : Http1CodecLimits) (e : Http1Encoder) : Prop where
  codecLimits : e.limits = limits
  contents : e.output.contents = head.wire
  lineLength : head.line.length ≤ limits.maximumStartLineLength.toNat
  admits : limits.headerLimits.Admits head.headers.fields
  framed : ∀ (m : Http1Message) (headers : HttpHeaders), m.startLine = some head.startLine →
    m.limits.maximumBodyLength = limits.maximumBodyLength →
    m.requestMethod = head.requestMethod → headers.fields = head.headers.fields →
    m.selectFraming headers = .ok (Http1Message.headEvent head.startLine headers e.framing
      e.contentLength, m.framedBy e)
  bodyWritten : e.bodyWritten = 0
  incomplete : e.complete = false
  remaining : e.framing = .fixedLength → e.contentLength = some e.bodyRemaining

theorem newQueue_contents (maximum : UInt64) : (Http1CodecLimits.newQueue maximum).contents = [] := by
  rw [← List.length_eq_zero_iff, RingBuffer.length_contents]
  rfl

theorem version_length (version : HttpVersion) : version.toString.length = 8 := by
  cases version <;> rfl

/-- An encoder writes its head after it selected the framing. -/
theorem Begun.of_selected {head : Http1Head} {e₀ e₁ e : Http1Encoder}
    (he₀ : e₀ = { limits := limits, output := Http1CodecLimits.newQueue limits.maximumOutputLength })
    (hline : head.line.length ≤ limits.maximumStartLineLength.toNat)
    (hvalid : Http1Encoder.validateFields head.headers limits.headerLimits = .ok ())
    (hframed : ∀ (m : Http1Message) (headers : HttpHeaders), m.startLine = some head.startLine →
      m.limits.maximumBodyLength = limits.maximumBodyLength →
      m.requestMethod = head.requestMethod → headers.fields = head.headers.fields →
      m.selectFraming headers = .ok (Http1Message.headEvent head.startLine headers e₁.framing
        e₁.contentLength, m.framedBy e₁))
    (hshape : e₁ = { e₀ with
      framing := e₁.framing
      transferCoding := e₁.transferCoding
      contentLength := e₁.contentLength
      bodyRemaining := e₁.bodyRemaining })
    (hremaining : e₁.framing = .fixedLength → e₁.contentLength = some e₁.bodyRemaining)
    (hwire : texts.flatten = head.wire) (hlength : texts.flatten.length = required)
    (h : e₁.begin required texts message = .ok e) : Begun head limits e := by
  obtain ⟨output, rfl, hcontents⟩ := Http1Encoder.begin_ok hlength h
  have hempty : e₁.output.contents = [] := by
    rw [hshape, he₀]
    exact newQueue_contents _
  rw [hempty, List.nil_append, hwire] at hcontents
  refine ⟨?_, hcontents, hline, Http1Encoder.validateFields_admits hvalid, hframed, ?_, ?_, hremaining⟩
  · show e₁.limits = limits
    rw [hshape, he₀]
  · show e₁.bodyWritten = 0
    rw [hshape, he₀]
  · show e₁.complete = false
    rw [hshape, he₀]

theorem begun_request (h : Http1Encoder.ofRequestHead head limits = .ok e) :
    Begun (.request head) limits e := by
  rw [Http1Encoder.ofRequestHead] at h
  split_ifs at h with hline
  · cases h
  obtain ⟨_, hvalid, h⟩ := bind_eq_ok h
  obtain ⟨e₁, hselect, h⟩ := bind_eq_ok h
  have hversion := version_length head.version
  obtain ⟨-, hshape, hremaining⟩ := Http1Message.selectFraming_request
    (m := { role := .request, limits := limits, startLine := some _ }) rfl rfl hselect head.headers rfl
  have hwire : (Http1Encoder.requestLineTexts head ++ Http1Encoder.headerTexts head.headers ++
      [U8String.ofLiteral "\r\n"]).flatten = wire (.request head) := by
    rw [List.flatten_append, List.flatten_append, Http1Encoder.flatten_headerTexts]
    simp [wire, line, requestLine, headers, Http1Encoder.requestLineTexts, crlf, U8String.ofLiteral]
  refine Begun.of_selected rfl ?_ hvalid (fun m headers hs hl _ hf =>
    (Http1Message.selectFraming_request hs hl hselect headers hf).1) hshape hremaining hwire ?_ h
  · rw [line, requestLine]
    simp only [List.length_append, List.length_cons]
    omega
  · rw [hwire, wire, List.length_append, List.length_append, List.length_append,
      Http1Encoder.length_wireLines, line, requestLine, headers]
    simp only [List.length_append, List.length_cons, crlf, List.length_nil]
    omega

theorem begun_response {method : Option HttpMethod}
    (h : Http1Encoder.ofResponseHead head method limits = .ok e) :
    Begun (.response head method) limits e := by
  rw [Http1Encoder.ofResponseHead] at h
  split_ifs at h with hline
  · cases h
  obtain ⟨_, hvalid, h⟩ := bind_eq_ok h
  obtain ⟨e₁, hselect, h⟩ := bind_eq_ok h
  have hversion := version_length head.version
  have hstatus : head.status.toString.length = 3 := rfl
  obtain ⟨-, hshape, hremaining⟩ := Http1Message.selectFraming_response
    (m := { role := .response, limits := limits, requestMethod := method, startLine := some _ })
    rfl rfl hselect head.headers rfl
  have hwire : (Http1Encoder.statusLineTexts head ++ Http1Encoder.headerTexts head.headers ++
      [U8String.ofLiteral "\r\n"]).flatten = wire (.response head method) := by
    rw [List.flatten_append, List.flatten_append, Http1Encoder.flatten_headerTexts]
    simp [wire, line, statusLine, headers, Http1Encoder.statusLineTexts, crlf, U8String.ofLiteral]
  refine Begun.of_selected rfl ?_ hvalid (fun m headers hs hl hm hf => ?_) hshape hremaining hwire ?_ h
  swap
  · have hmethod : m.requestMethod = method := hm
    rw [← hmethod] at hselect
    exact (Http1Message.selectFraming_response hs hl hselect headers hf).1
  · rw [line, statusLine]
    simp only [List.length_append, List.length_cons]
    omega
  · rw [hwire, wire, List.length_append, List.length_append, List.length_append,
      Http1Encoder.length_wireLines, line, statusLine, headers]
    simp only [List.length_append, List.length_cons, crlf, List.length_nil]
    omega

theorem encoder_begun {head : Http1Head} (h : head.encoder limits = .ok e) : Begun head limits e := by
  cases head with
  | request head => exact begun_request h
  | response head requestMethod => exact begun_response h

end Http1Head
end ErbslandCore.Network
