import ErbslandCore.Network.Http.Http1Decoder

namespace ErbslandCore.Network
open Library Mem Text
set_option autoImplicit true

/-- A line ends with the first CR LF, which comes before every other CR and LF. -/
theorem scanLine_line (h : scanLine previousWasCr index input = .line lineLength) :
    if previousWasCr then input.head? = some 0x0A ∧ lineLength = index - 1
    else ∃ line rest, input = line ++ 0x0D :: 0x0A :: rest ∧ lineLength = index + line.length ∧
      ∀ b ∈ line, b ≠ 0x0D ∧ b ≠ 0x0A := by
  induction input generalizing previousWasCr index with
  | nil => cases h
  | cons value rest ih =>
    rw [scanLine] at h
    split at h
    case isTrue hlf =>
      split at h
      case isTrue hcr =>
        cases h
        rw [if_pos hcr, hlf]
        exact ⟨rfl, rfl⟩
      case isFalse => cases h
    case isFalse hlf =>
      split at h
      case isTrue => cases h
      case isFalse hcr =>
        rw [if_neg hcr]
        have hrest := ih h
        split at hrest
        case isTrue hvalue =>
          obtain ⟨hhead, rfl⟩ := hrest
          obtain ⟨tail, rfl⟩ := List.head?_eq_some_iff.mp hhead
          rw [of_decide_eq_true hvalue]
          exact ⟨[], tail, rfl, rfl, fun b hb => by cases hb⟩
        case isFalse hvalue =>
          obtain ⟨line, tail, rfl, rfl, hline⟩ := hrest
          refine ⟨value :: line, tail, rfl, by rw [List.length_cons]; omega, ?_⟩
          exact List.forall_mem_cons.mpr ⟨⟨fun hc => hvalue (decide_eq_true hc), hlf⟩, hline⟩

theorem scanLine_of_line (hline : ∀ b ∈ line, b ≠ 0x0D ∧ b ≠ 0x0A) (index : Nat) (rest : List UInt8) :
    scanLine false index (line ++ 0x0D :: 0x0A :: rest) = .line (index + line.length) := by
  induction line generalizing index with
  | nil => rfl
  | cons b line ih =>
    obtain ⟨⟨hcr, hlf⟩, hline⟩ := List.forall_mem_cons.mp hline
    rw [List.cons_append, scanLine, if_neg hlf, if_neg (by decide), decide_eq_false hcr, ih hline,
      List.length_cons]
    congr 1
    omega

/-- What the first part of the input decides is decided for the whole input. -/
theorem scanLine_append (h : scanLine previousWasCr index x ≠ .incomplete) (y : List UInt8) :
    scanLine previousWasCr index (x ++ y) = scanLine previousWasCr index x := by
  induction x generalizing previousWasCr index with
  | nil => exact absurd rfl h
  | cons value x ih =>
    rw [List.cons_append, scanLine, scanLine]
    rw [scanLine] at h
    split_ifs at h ⊢ with h₁ h₂ h₃
    · rfl
    · rfl
    · rfl
    · exact ih h

/-- A line that the first part of the input does not end is longer than this part. -/
theorem scanLine_incomplete (h : scanLine previousWasCr index x = .incomplete)
    (h' : scanLine previousWasCr index (x ++ y) = .line lineLength) :
    index + x.length ≤ lineLength + 1 := by
  induction x generalizing previousWasCr index with
  | nil =>
    have hline := scanLine_line h'
    rw [List.length_nil]
    split at hline
    · omega
    · obtain ⟨line, rest, -, rfl, -⟩ := hline
      omega
  | cons value x ih =>
    rw [List.cons_append, scanLine] at h'
    rw [scanLine] at h
    split_ifs at h h' with h₁ h₂ h₃
    have := ih h h'
    rw [List.length_cons]
    omega

namespace Http1Message

/-- The line that was taken stands at the start of the input. -/
theorem takeLine_some (h : takeLine m input limit limitReason = .ok (some (line, n))) :
    (∃ rest, input = line ++ 0x0D :: 0x0A :: rest) ∧ n = line.length + 2 ∧
      (∀ b ∈ line, b ≠ 0x0D ∧ b ≠ 0x0A) ∧ line.length ≤ limit.toNat := by
  rw [takeLine] at h
  cases hs : scanLine false 0 input with
  | incomplete =>
    simp only [hs] at h
    split at h <;> cases h
  | bareLf => simp only [hs] at h; cases h
  | bareCr => simp only [hs] at h; cases h
  | line lineLength =>
    simp only [hs] at h
    split at h
    case isTrue => cases h
    case isFalse hlimit =>
      obtain ⟨rfl, rfl⟩ : input.take lineLength = line ∧ lineLength + 2 = n := by simpa using h
      obtain ⟨line, rest, rfl, hlength, hline⟩ := scanLine_line hs
      rw [Nat.zero_add] at hlength
      subst hlength
      rw [List.take_left]
      exact ⟨⟨rest, rfl⟩, rfl, fun b hb => hline b hb, not_lt.mp hlimit⟩

theorem takeLine_of_line (m : Http1Message) (hline : ∀ b ∈ line, b ≠ 0x0D ∧ b ≠ 0x0A)
    (hlimit : line.length ≤ limit.toNat) (limitReason : Http1FailureReason) (rest : List UInt8) :
    m.takeLine (line ++ 0x0D :: 0x0A :: rest) limit limitReason =
      .ok (some (line, line.length + 2)) := by
  rw [takeLine, scanLine_of_line hline 0 rest]
  simp only [Nat.zero_add]
  rw [if_neg (not_lt.mpr hlimit), List.take_left]

/-- A limit that is not the largest number of 64 bits. -/
def IsFinite (limit : UInt64) : Prop := limit.toNat + 1 < 2 ^ 64

instance (limit : UInt64) : Decidable (IsFinite limit) :=
  inferInstanceAs (Decidable (limit.toNat + 1 < 2 ^ 64))

theorem toNat_add_one (h : IsFinite limit) : (limit + 1).toNat = limit.toNat + 1 := by
  rw [UInt64.toNat_add]
  exact Nat.mod_eq_of_lt h

/-- The verdict on the first part of the input is the verdict on the whole input; a failure is one if
the limit is finite. -/
theorem takeLine_append (m : Http1Message) (limit : UInt64) (limitReason : Http1FailureReason)
    (x y : List UInt8) :
    m.takeLine x limit limitReason = .ok none ∨
    (∃ e, m.takeLine x limit limitReason = .error e ∧
      (IsFinite limit → ∃ e', m.takeLine (x ++ y) limit limitReason = .error e')) ∨
    ∃ v, m.takeLine x limit limitReason = .ok (some v) ∧
      m.takeLine (x ++ y) limit limitReason = .ok (some v) := by
  by_cases hi : scanLine false 0 x = .incomplete
  · by_cases hlong : x.length > (limit + 1).toNat
    · right
      left
      have hx : ∃ e, m.takeLine x limit limitReason = .error e := by
        simp only [takeLine, hi]
        rw [if_pos hlong]
        exact ⟨_, rfl⟩
      obtain ⟨e, he⟩ := hx
      refine ⟨e, he, fun hlimit => ?_⟩
      cases hs : scanLine false 0 (x ++ y) with
      | incomplete =>
        simp only [takeLine, hs]
        rw [if_pos (by rw [List.length_append]; omega)]
        exact ⟨_, rfl⟩
      | bareLf =>
        simp only [takeLine, hs]
        exact ⟨_, rfl⟩
      | bareCr =>
        simp only [takeLine, hs]
        exact ⟨_, rfl⟩
      | line lineLength =>
        have hle := scanLine_incomplete hi hs
        rw [toNat_add_one hlimit] at hlong
        simp only [takeLine, hs]
        rw [if_pos (by omega)]
        exact ⟨_, rfl⟩
    · left
      simp only [takeLine, hi]
      rw [if_neg hlong]
  · have happend := scanLine_append hi y
    right
    cases hs : scanLine false 0 x with
    | incomplete => exact absurd hs hi
    | bareLf =>
      left
      simp only [takeLine, happend, hs]
      exact ⟨_, rfl, fun _ => ⟨_, rfl⟩⟩
    | bareCr =>
      left
      simp only [takeLine, happend, hs]
      exact ⟨_, rfl, fun _ => ⟨_, rfl⟩⟩
    | line lineLength =>
      simp only [takeLine, happend, hs]
      split
      case isTrue => exact .inl ⟨_, rfl, fun _ => ⟨_, rfl⟩⟩
      case isFalse =>
        obtain ⟨line, rest, rfl, hlength, -⟩ := scanLine_line hs
        rw [hlength, Nat.zero_add, List.append_assoc, List.take_left, List.take_left]
        exact .inr ⟨_, rfl, rfl⟩

/-- What one turn of the decoder can do. -/
inductive Moves (m : Http1Message) (input : List UInt8) (endOfInput : Bool) : Http1Turn → Prop where
  | wait : Moves m input endOfInput .wait
  | startLine (hs : m.state = .startLine)
      (hl : m.takeLine input m.limits.maximumStartLineLength .startLineTooLong =
        .ok (some (line, n)))
      (hp : m.parseStartLine line = .ok first) :
      Moves m input endOfInput (.again { m with startLine := some first, state := .headers } n)
  | field (hs : m.state = .headers)
      (hl : m.takeLine input m.limits.headerLimits.maximumAggregateLength .headerLimitExceeded =
        .ok (some (line, n)))
      (hp : m.parseFieldLine line false = .ok (parsed, bytes)) :
      Moves m input endOfInput
        (.again { m with fields := m.fields ++ [parsed], fieldBytes := bytes } n)
  | head (hs : m.state = .headers)
      (hl : m.takeLine input m.limits.headerLimits.maximumAggregateLength .headerLimitExceeded =
        .ok (some ([], n)))
      (hf : m.finishFields false = .ok (headers, m')) (hh : m'.selectFraming headers = .ok (event, m'')) :
      Moves m input endOfInput (.emit event m'' n)
  | fixedEnd (hs : m.state = .fixedBody) (hr : m.bodyRemaining = 0) :
      Moves m input endOfInput (emitCompletion { m with state := .completePending })
  | piece (hs : m.state = .fixedBody ∨ m.state = .chunkData) (hr : m.bodyRemaining ≠ 0)
      (hi : input ≠ [])
      (hn : n = min (min input.length m.bodyRemaining) Http1CodecLimits.maximumBodyChunkLength)
      (ha : m.accountBody n = .ok m') :
      Moves m input endOfInput
        (.emit (.body (input.take n)) { m' with bodyRemaining := m'.bodyRemaining - n } n)
  | lastChunk (hs : m.state = .chunkLine)
      (hl : m.takeLine input m.limits.maximumChunkMetadataLength .chunkMetadataTooLong =
        .ok (some (line, n)))
      (hc : Http1FramingParser.chunkSize line = .ok 0) :
      Moves m input endOfInput (.again { m with
        bodyRemaining := 0, fields := [], fieldBytes := 0, state := .trailers } n)
  | chunk (hs : m.state = .chunkLine)
      (hl : m.takeLine input m.limits.maximumChunkMetadataLength .chunkMetadataTooLong =
        .ok (some (line, n)))
      (hc : Http1FramingParser.chunkSize line = .ok value) (hv : value ≠ 0)
      (hm : value ≤ m.limits.maximumBodyLength.toNat -
        min m.bodyDecoded m.limits.maximumBodyLength.toNat) :
      Moves m input endOfInput (.again { m with bodyRemaining := value, state := .chunkData } n)
  | chunkEnd (hs : m.state = .chunkData) (hr : m.bodyRemaining = 0) :
      Moves m input endOfInput (.again { m with state := .chunkDataEnd } 0)
  | chunkCrlf (hs : m.state = .chunkDataEnd) (hi : input = 0x0D :: 0x0A :: rest) :
      Moves m input endOfInput (.again { m with state := .chunkLine } 2)
  | trailer (hs : m.state = .trailers)
      (hl : m.takeLine input m.limits.trailerLimits.maximumAggregateLength .trailerLimitExceeded =
        .ok (some (line, n)))
      (hp : m.parseFieldLine line true = .ok (parsed, bytes)) :
      Moves m input endOfInput
        (.again { m with fields := m.fields ++ [parsed], fieldBytes := bytes } n)
  | trailers (hs : m.state = .trailers)
      (hl : m.takeLine input m.limits.trailerLimits.maximumAggregateLength .trailerLimitExceeded =
        .ok (some ([], n)))
      (hf : m.finishFields true = .ok (trailers, m')) :
      Moves m input endOfInput (.emit (.trailers trailers) { m' with state := .completePending } n)
  | closePiece (hs : m.state = .closeBody) (hi : input ≠ [])
      (hn : n = min input.length Http1CodecLimits.maximumBodyChunkLength)
      (ha : m.accountBody n = .ok m') :
      Moves m input endOfInput (.emit (.body (input.take n)) m' n)
  | closeEnd (hs : m.state = .closeBody) (hi : input = []) (he : endOfInput = true) :
      Moves m input endOfInput (emitCompletion { m with state := .completePending })
  | completion (hs : m.state = .completePending ∨ m.state = .opaquePending) :
      Moves m input endOfInput (emitCompletion m)

theorem waitOrFail_ok (h : waitOrFail endOfInput message = .ok t) : t = .wait := by
  rw [waitOrFail] at h
  split at h <;> cases h
  rfl

theorem readStartLine_moves (hs : m.state = .startLine)
    (h : m.readStartLine input endOfInput = .ok t) : Moves m input endOfInput t := by
  rw [readStartLine] at h
  obtain ⟨r, hl, h⟩ := bind_eq_ok h
  cases r with
  | none => exact waitOrFail_ok h ▸ .wait
  | some r =>
    obtain ⟨line, n⟩ := r
    simp only at h
    split at h
    case isTrue => cases h
    case isFalse =>
      obtain ⟨startLine, hp, h⟩ := bind_eq_ok h
      cases h
      exact .startLine hs hl hp

theorem readHeaders_moves (hs : m.state = .headers)
    (h : m.readHeaders input endOfInput = .ok t) : Moves m input endOfInput t := by
  rw [readHeaders] at h
  obtain ⟨r, hl, h⟩ := bind_eq_ok h
  cases r with
  | none => exact waitOrFail_ok h ▸ .wait
  | some r =>
    obtain ⟨line, n⟩ := r
    simp only at h
    split at h
    case isTrue =>
      obtain ⟨⟨field, fieldBytes⟩, hp, h⟩ := bind_eq_ok h
      cases h
      exact .field hs hl hp
    case isFalse hline =>
      obtain ⟨⟨headers, m'⟩, hf, h⟩ := bind_eq_ok h
      obtain ⟨⟨event, m''⟩, hh, h⟩ := bind_eq_ok h
      cases h
      rw [not_not.mp hline] at hl
      exact .head hs hl hf hh

theorem readBodyPiece_moves (hs : m.state = .fixedBody ∨ m.state = .chunkData)
    (hr : m.bodyRemaining ≠ 0) (h : m.readBodyPiece input endOfInput message = .ok t) :
    Moves m input endOfInput t := by
  rw [readBodyPiece] at h
  split at h
  case isTrue => exact waitOrFail_ok h ▸ .wait
  case isFalse hi =>
    obtain ⟨m', ha, h⟩ := bind_eq_ok h
    cases h
    exact .piece hs hr hi rfl ha

theorem readChunkLine_moves (hs : m.state = .chunkLine)
    (h : m.readChunkLine input endOfInput = .ok t) : Moves m input endOfInput t := by
  rw [readChunkLine] at h
  obtain ⟨r, hl, h⟩ := bind_eq_ok h
  cases r with
  | none => exact waitOrFail_ok h ▸ .wait
  | some r =>
    obtain ⟨line, n⟩ := r
    simp only at h
    cases hc : Http1FramingParser.chunkSize line with
    | error e =>
      rw [hc] at h
      cases h
    | ok value =>
      rw [hc] at h
      simp only at h
      split_ifs at h with hm hv
      · cases h
      · cases h
        rw [hv] at hc
        exact .lastChunk hs hl hc
      · cases h
        exact .chunk hs hl hc hv (not_lt.mp hm)

theorem readChunkDataEnd_moves (hs : m.state = .chunkDataEnd)
    (h : m.readChunkDataEnd input endOfInput = .ok t) : Moves m input endOfInput t := by
  rw [readChunkDataEnd.eq_def] at h
  split at h
  case h_1 first second rest =>
    split at h
    case isTrue => cases h
    case isFalse hcrlf =>
      obtain ⟨rfl, rfl⟩ := not_or.mp hcrlf |>.imp not_not.mp not_not.mp
      cases h
      exact .chunkCrlf hs rfl
  case h_2 => exact waitOrFail_ok h ▸ .wait

theorem readTrailers_moves (hs : m.state = .trailers)
    (h : m.readTrailers input endOfInput = .ok t) : Moves m input endOfInput t := by
  rw [readTrailers] at h
  obtain ⟨r, hl, h⟩ := bind_eq_ok h
  cases r with
  | none => exact waitOrFail_ok h ▸ .wait
  | some r =>
    obtain ⟨line, n⟩ := r
    simp only at h
    split at h
    case isTrue =>
      obtain ⟨⟨field, fieldBytes⟩, hp, h⟩ := bind_eq_ok h
      cases h
      exact .trailer hs hl hp
    case isFalse hline =>
      obtain ⟨⟨headers, m'⟩, hf, h⟩ := bind_eq_ok h
      cases h
      rw [not_not.mp hline] at hl
      exact .trailers hs hl hf

theorem readCloseBody_moves (hs : m.state = .closeBody)
    (h : m.readCloseBody input endOfInput = .ok t) : Moves m input endOfInput t := by
  rw [readCloseBody] at h
  split at h
  case isTrue hi =>
    obtain ⟨m', ha, h⟩ := bind_eq_ok h
    cases h
    exact .closePiece hs hi rfl ha
  case isFalse hi =>
    split at h
    case isTrue he =>
      cases h
      exact .closeEnd hs (not_not.mp hi) he
    case isFalse =>
      cases h
      exact .wait

theorem turn_moves (h : m.turn input endOfInput = .ok t) : Moves m input endOfInput t := by
  rw [turn] at h
  cases hs : m.state with
  | startLine =>
    rw [hs] at h
    exact readStartLine_moves hs h
  | headers =>
    rw [hs] at h
    exact readHeaders_moves hs h
  | fixedBody =>
    simp only [hs, readFixedBody] at h
    split at h
    case isTrue hr =>
      cases h
      exact .fixedEnd hs hr
    case isFalse hr => exact readBodyPiece_moves (.inl hs) hr h
  | chunkLine =>
    rw [hs] at h
    exact readChunkLine_moves hs h
  | chunkData =>
    simp only [hs, readChunkData] at h
    split at h
    case isTrue hr =>
      cases h
      exact .chunkEnd hs hr
    case isFalse hr => exact readBodyPiece_moves (.inr hs) hr h
  | chunkDataEnd =>
    rw [hs] at h
    exact readChunkDataEnd_moves hs h
  | trailers =>
    rw [hs] at h
    exact readTrailers_moves hs h
  | closeBody =>
    rw [hs] at h
    exact readCloseBody_moves hs h
  | completePending =>
    rw [hs] at h
    cases h
    exact .completion (.inl hs)
  | opaquePending =>
    rw [hs] at h
    cases h
    exact .completion (.inr hs)
  | complete =>
    rw [hs] at h
    cases h
    exact .wait
  | opaqueData =>
    rw [hs] at h
    cases h
    exact .wait
  | failed =>
    rw [hs] at h
    cases h

variable {m m' otherwise : Http1Message} {entries : List HttpField} {parser : Http1FramingParser}

/-- The framing fields of a head, as they were read. -/
theorem readFraming_ok (h : m.readFraming entries = .ok m') :
    ∃ parser, Http1FramingParser.ofHeaders entries = .ok parser ∧
      (∀ n, parser.contentLength = some n → n ≤ m.limits.maximumBodyLength.toNat) ∧
      (parser.contentLength = none ∨ parser.transferCoding = .none) ∧
      m' = { m with
        contentLength := parser.contentLength, transferCoding := parser.transferCoding } := by
  rw [readFraming] at h
  cases hp : Http1FramingParser.ofHeaders entries with
  | error e =>
    rw [hp] at h
    cases h
  | ok parser =>
    rw [hp] at h
    simp only at h
    split_ifs at h with hlong hboth
    · cases h
    · cases h
    · cases h
      refine ⟨parser, rfl, fun n hn => ?_, ?_, rfl⟩
      · simp only [hn, Option.any_some, decide_eq_true_eq, not_lt] at hlong
        exact hlong
      · cases hc : parser.contentLength with
        | none => exact .inl rfl
        | some n =>
          rw [hc] at hboth
          exact .inr (not_not.mp fun ht => hboth ⟨rfl, ht⟩)

theorem selectFieldFraming_ok (h : m.selectFieldFraming version message otherwise = .ok m') :
    (m.transferCoding = .chunked ∧ version = .http11 ∧
      m' = { m with framing := .chunked, state := .chunkLine }) ∨
    (m.transferCoding = .none ∧ ∃ n, m.contentLength = some n ∧
      m' = { m with
        framing := .fixedLength
        bodyRemaining := n
        state := if n = 0 then .completePending else .fixedBody }) ∨
    (m.transferCoding = .none ∧ m.contentLength = none ∧ m' = otherwise) := by
  rw [selectFieldFraming] at h
  split at h
  case isTrue hc =>
    split at h
    case isTrue => cases h
    case isFalse hn =>
      cases h
      obtain ⟨hv, ht⟩ := not_or.mp hn
      refine .inl ⟨not_not.mp ht, ?_, rfl⟩
      cases version with
      | http10 => exact absurd rfl hv
      | http11 => rfl
  case isFalse hc =>
    right
    split at h
    case h_1 n hn =>
      cases h
      exact .inl ⟨not_not.mp hc, n, hn, rfl⟩
    case h_2 hn =>
      cases h
      exact .inr ⟨not_not.mp hc, hn, rfl⟩

/-- The version of a start line. -/
def lineVersion : Http1StartLine → HttpVersion
  | .request _ _ version _ => version
  | .response version _ _ _ => version

/-- A response without a body of its own, whatever its fields say. -/
def IsBodyless (requestMethod : Option HttpMethod) : Http1StartLine → Prop
  | .request _ _ _ _ => False
  | .response _ status _ _ =>
    status.code = HttpStatus.switchingProtocols ∨ status.code = HttpStatus.notModified ∨
      requestMethod.any (·.type = .head) ∨
      (requestMethod.any (·.type = .connect) ∧ status.isSuccessful)

/-- The head of a message selects the framing of its body, and leaves the rest as it is. -/
structure Framed (m : Http1Message) (entries : List HttpField) (parser : Http1FramingParser)
    (m' : Http1Message) : Prop where
  parsed : Http1FramingParser.ofHeaders entries = .ok parser
  contentLength_le : ∀ n, parser.contentLength = some n → n ≤ m.limits.maximumBodyLength.toNat
  exclusive : parser.contentLength = none ∨ parser.transferCoding = .none
  limits : m'.limits = m.limits
  startLine : m'.startLine = m.startLine
  requestMethod : m'.requestMethod = m.requestMethod
  bodyDecoded : m'.bodyDecoded = m.bodyDecoded
  fields : m'.fields = m.fields
  fieldBytes : m'.fieldBytes = m.fieldBytes
  contentLength : m'.contentLength = parser.contentLength
  transferCoding : m'.transferCoding = parser.transferCoding
  framing :
    (m'.framing = .chunked ∧ m'.state = .chunkLine ∧ parser.transferCoding = .chunked ∧
      m.startLine.map lineVersion = some .http11) ∨
    (m'.framing = .fixedLength ∧ parser.transferCoding = .none ∧
      parser.contentLength = some m'.bodyRemaining ∧
      m'.state = if m'.bodyRemaining = 0 then .completePending else .fixedBody) ∨
    (m'.framing = .closeDelimited ∧ m'.state = .closeBody ∧ parser.transferCoding = .none ∧
      parser.contentLength = none ∧
      ∃ version status reason h, m.startLine = some (.response version status reason h)) ∨
    (m'.framing = .none ∧ m'.state = .completePending ∧
      ((∃ first, m.startLine = some first ∧ IsBodyless m.requestMethod first) ∨
        parser.transferCoding = .none ∧ parser.contentLength = none)) ∨
    (m'.framing = .opaqueData ∧ m'.state = .opaquePending ∧
      ∃ first, m.startLine = some first ∧ IsBodyless m.requestMethod first)

theorem selectRequestFraming_ok {m : Http1Message}
    (hversion : m.startLine.map lineVersion = some version) (hp : Http1FramingParser.ofHeaders entries = .ok parser)
    (hlong : ∀ n, parser.contentLength = some n → n ≤ m.limits.maximumBodyLength.toNat)
    (hone : parser.contentLength = none ∨ parser.transferCoding = .none)
    (h : selectRequestFraming { m with
      contentLength := parser.contentLength, transferCoding := parser.transferCoding } version =
        .ok m') : Framed m entries parser m' := by
  rw [selectRequestFraming] at h
  rcases selectFieldFraming_ok h with ⟨ht, rfl, rfl⟩ | ⟨ht, n, hn, rfl⟩ | ⟨ht, hn, rfl⟩
  · exact ⟨hp, hlong, hone, rfl, rfl, rfl, rfl, rfl, rfl, rfl, rfl,
      .inl ⟨rfl, rfl, ht, hversion⟩⟩
  · exact ⟨hp, hlong, hone, rfl, rfl, rfl, rfl, rfl, rfl, rfl, rfl, .inr (.inl ⟨rfl, ht, hn, rfl⟩)⟩
  · exact ⟨hp, hlong, hone, rfl, rfl, rfl, rfl, rfl, rfl, rfl, rfl,
      .inr (.inr (.inr (.inl ⟨rfl, rfl, .inr ⟨ht, hn⟩⟩)))⟩

theorem selectResponseFraming_ok {m : Http1Message}
    (hresponse : m.startLine = some (.response version status reason hreason)) (hp : Http1FramingParser.ofHeaders entries = .ok parser)
    (hlong : ∀ n, parser.contentLength = some n → n ≤ m.limits.maximumBodyLength.toNat)
    (hone : parser.contentLength = none ∨ parser.transferCoding = .none)
    (h : selectResponseFraming { m with
      contentLength := parser.contentLength, transferCoding := parser.transferCoding } version status =
        .ok m') : Framed m entries parser m' := by
  rw [selectResponseFraming] at h
  simp only at h
  split_ifs at h with h₁ h₂ h₃ h₄
  · cases h
    refine ⟨hp, hlong, hone, rfl, rfl, rfl, rfl, rfl, rfl, rfl, rfl,
      .inr (.inr (.inr (.inr ⟨rfl, rfl, _, hresponse, ?_⟩)))⟩
    exact h₁.imp_right fun h => .inr (.inr h)
  · cases h
  · cases h
  · cases h
    refine ⟨hp, hlong, hone, rfl, rfl, rfl, rfl, rfl, rfl, rfl, rfl,
      .inr (.inr (.inr (.inl ⟨rfl, rfl, ?_⟩)))⟩
    by_cases hforbidden : status.isInformational = true ∨ status.code = HttpStatus.noContent
    · right
      refine ⟨not_not.mp fun ht => h₂ ⟨ht, hforbidden⟩, ?_⟩
      rw [← Option.not_isSome_iff_eq_none]
      exact fun hn => h₃ ⟨hn, hforbidden⟩
    · refine .inl ⟨_, hresponse, ?_⟩
      rcases h₄ with h | h | h | h
      · exact .inr (.inr (.inl h))
      · exact absurd (.inl h) hforbidden
      · exact absurd (.inr h) hforbidden
      · exact .inr (.inl h)
  · rcases selectFieldFraming_ok h with ⟨ht, rfl, rfl⟩ | ⟨ht, n, hn, rfl⟩ | ⟨ht, hn, rfl⟩
    · have hversion : m.startLine.map lineVersion = some .http11 := by
        rw [hresponse]
        rfl
      exact ⟨hp, hlong, hone, rfl, rfl, rfl, rfl, rfl, rfl, rfl, rfl,
        .inl ⟨rfl, rfl, ht, hversion⟩⟩
    · exact ⟨hp, hlong, hone, rfl, rfl, rfl, rfl, rfl, rfl, rfl, rfl, .inr (.inl ⟨rfl, ht, hn, rfl⟩)⟩
    · exact ⟨hp, hlong, hone, rfl, rfl, rfl, rfl, rfl, rfl, rfl, rfl,
        .inr (.inr (.inl ⟨rfl, rfl, ht, hn, version, status, reason, hreason, hresponse⟩))⟩

/-- The head of a message, from its start line and its fields. -/
def headEvent (startLine : Http1StartLine) (headers : HttpHeaders) (framing : Http1BodyFraming)
    (contentLength : Option Nat) : Http1DecodeEvent :=
  match startLine with
  | .request method target version h =>
    .requestHead ⟨method, target, version, headers, h⟩ framing contentLength
  | .response version status reason h =>
    .responseHead ⟨version, status, reason, headers, h⟩ framing contentLength

theorem selectFraming_ok (h : m.selectFraming headers = .ok (event, m')) :
    ∃ startLine parser, m.startLine = some startLine ∧ Framed m headers.fields parser m' ∧
      event = headEvent startLine headers m'.framing m'.contentLength := by
  rw [selectFraming] at h
  obtain ⟨m₁, hm₁, h⟩ := bind_eq_ok h
  obtain ⟨parser, hp, hlong, hone, rfl⟩ := readFraming_ok hm₁
  cases hs : m.startLine with
  | none =>
    simp only [hs] at h
    cases h
  | some startLine =>
    cases startLine with
    | request method target version ht =>
      simp only [hs] at h
      obtain ⟨m₂, hm₂, h⟩ := bind_eq_ok h
      cases h
      rw [← hs] at hm₂
      have hversion : m.startLine.map lineVersion = some version := by
        rw [hs]
        rfl
      exact ⟨_, parser, rfl, selectRequestFraming_ok hversion hp hlong hone hm₂, rfl⟩
    | response version status reason hr =>
      simp only [hs] at h
      obtain ⟨m₂, hm₂, h⟩ := bind_eq_ok h
      cases h
      rw [← hs] at hm₂
      exact ⟨_, parser, rfl, selectResponseFraming_ok hs hp hlong hone hm₂, rfl⟩

theorem accountBody_ok (h : m.accountBody n = .ok m') :
    n ≤ m.limits.maximumBodyLength.toNat - min m.bodyDecoded m.limits.maximumBodyLength.toNat ∧
      m' = { m with bodyDecoded := m.bodyDecoded + n } := by
  rw [accountBody] at h
  split at h
  case isTrue => cases h
  case isFalse hn =>
    cases h
    exact ⟨not_lt.mp hn, rfl⟩

theorem accountBody_of_le (h : n ≤ m.limits.maximumBodyLength.toNat -
    min m.bodyDecoded m.limits.maximumBodyLength.toNat) :
    m.accountBody n = .ok { m with bodyDecoded := m.bodyDecoded + n } := by
  rw [accountBody]
  exact if_neg (not_lt.mpr h)

theorem finishFields_ok (h : m.finishFields trailer = .ok (headers, m')) :
    headers.fields = m.fields ∧ m' = { m with fields := [], fieldBytes := 0 } := by
  rw [finishFields] at h
  split at h
  · cases h
  · cases h
    exact ⟨rfl, rfl⟩

end Http1Message
end ErbslandCore.Network
