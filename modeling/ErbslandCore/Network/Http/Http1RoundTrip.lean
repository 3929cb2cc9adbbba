import ErbslandCore.Network.Http.Http1EncoderRun

namespace ErbslandCore.Network
open Library Library.Incremental Text
set_option autoImplicit true

/-- A line has no line break in it. -/
def IsLine (line : List UInt8) : Prop := ∀ b ∈ line, b ≠ 0x0D ∧ b ≠ 0x0A

theorem IsLine.append (h : IsLine line) (h' : IsLine line') : IsLine (line ++ line') := by
  intro b hb
  rcases List.mem_append.mp hb with hb | hb
  · exact h b hb
  · exact h' b hb

theorem IsLine.cons (hb : b ≠ 0x0D ∧ b ≠ 0x0A) (h : IsLine line) : IsLine (b :: line) :=
  List.forall_mem_cons.mpr ⟨hb, h⟩

theorem isLine_of_range (h : ∀ b ∈ line, 0x20 < b.toNat) : IsLine line := by
  intro b hb
  have hrange := h b hb
  constructor <;> (rintro rfl; exact absurd hrange (by decide))

theorem isLine_token (h : HttpGrammar.isToken text = true) : IsLine text :=
  isLine_of_range fun b hb => (isHttpToken_range ((isToken_bytes h).2 b hb)).1

theorem isLine_fieldCharacters (h : U8String.containsOnly isFieldCharacter text = true) :
    IsLine text := by
  intro b hb
  obtain ⟨-, hlf, hcr⟩ := fieldCharacters_bytes h b hb
  exact ⟨hcr, hlf⟩

theorem isLine_target (h : HttpGrammar.isRequestTarget target = true) : IsLine target := by
  rw [HttpGrammar.isRequestTarget, Bool.and_eq_true, U8String.containsOnly, List.all_eq_true] at h
  have hcontrol : ∀ b : UInt8, b.toNat < 0x20 → b ∉ target := by
    intro b hlow hb
    have hvisible := h.2 b.toNat ((Utf8.mem_characters_ascii target (by omega)).mpr ⟨b, hb, rfl⟩)
    simp only [Bool.and_eq_true, decide_eq_true_eq] at hvisible
    omega
  intro b hb
  exact ⟨fun hz => hcontrol b (by rw [hz]; decide) hb, fun hz => hcontrol b (by rw [hz]; decide) hb⟩

theorem isLine_version (version : HttpVersion) : IsLine version.toString := by
  cases version <;> (rw [IsLine]; decide +kernel)

theorem isLine_status (status : HttpStatus) : IsLine status.toString := by
  obtain ⟨code, hlower, hupper⟩ := status
  have hdigit : ∀ d : Fin 10, UInt8.ofNat (0x30 + d.val) ≠ 0x0D ∧ UInt8.ofNat (0x30 + d.val) ≠ 0x0A := by
    decide
  intro b hb
  obtain ⟨d, hd, rfl⟩ := List.mem_map.mp hb
  have hlt : d < 10 := by
    simp only [List.mem_cons, List.not_mem_nil, or_false] at hd
    omega
  exact hdigit ⟨d, hlt⟩

theorem isLine_field (field : HttpField) : IsLine (fieldLine field) := by
  have hvalue := isLine_fieldCharacters (isFieldValue_ends field.isFieldValue).1
  apply (isLine_token field.name.isToken).append
  exact .cons (by decide) (.cons (by decide) hvalue)

namespace Http1Head

theorem isLine_line (head : Http1Head) : IsLine head.line := by
  cases head with
  | request head =>
    apply (isLine_token head.method.isToken).append
    apply IsLine.cons (by decide)
    apply (isLine_target head.isRequestTarget).append
    exact .cons (by decide) (isLine_version head.version)
  | response head =>
    apply (isLine_version head.version).append
    apply IsLine.cons (by decide)
    apply (isLine_status head.status).append
    exact .cons (by decide) (isLine_fieldCharacters head.isReasonPhrase)

theorem line_ne_nil (head : Http1Head) : head.line ≠ [] := by
  cases head <;> simp [line, requestLine, statusLine]

/-- The first line is parsed as the head that it was made of. -/
theorem parseStartLine (head : Http1Head) {m : Http1Message} (hrole : m.role = head.role) :
    m.parseStartLine head.line = .ok head.startLine := by
  rw [Http1Message.parseStartLine, hrole]
  cases head with
  | request head => exact Http1Message.parseRequestLine_head head
  | response head => exact Http1Message.parseStatusLine_head head

end Http1Head

namespace Http1Message
open Http1DecodeEvent (bytewise)

theorem takeLine_wire (m : Http1Message) (hline : IsLine line) (hlimit : line.length ≤ limit.toNat)
    (limitReason : Http1FailureReason) (rest : List UInt8) :
    m.takeLine (line ++ crlf ++ rest) limit limitReason = .ok (some (line, line.length + 2)) := by
  rw [List.append_assoc]
  exact takeLine_of_line m hline hlimit limitReason rest

theorem drop_wire (line rest : List UInt8) : (line ++ crlf ++ rest).drop (line.length + 2) = rest := by
  have hlength : line.length + 2 = (line ++ crlf).length := by simp [crlf]
  rw [hlength, List.drop_left]

/-- A turn on a line. -/
theorem reaches_line {m : Http1Message} (hb : m.isBody = false)
    (h : m.turn (line ++ crlf ++ rest) ended = .ok t) (ha : After t m' (line.length + 2)) :
    Reaches byteTurn ended m (line ++ crlf ++ rest) (turnEvents t) m' rest := by
  have hmove : byteTurn m (line ++ crlf ++ rest) ended = .move (turnEvents t) m' (line.length + 2) := by
    rw [byteTurn_of_not_body hb, h]
    rcases ha with ⟨event, rfl⟩ | rfl <;> rfl
  have hreach := Reaches.single hmove
  rwa [drop_wire] at hreach

theorem reaches_startLine (head : Http1Head) {m : Http1Message} (hs : m.state = .startLine)
    (hrole : m.role = head.role) (hlength : head.line.length ≤ m.limits.maximumStartLineLength.toNat)
    (rest : List UInt8) (ended : Bool) :
    Reaches byteTurn ended m (head.line ++ crlf ++ rest) []
      { m with startLine := some head.startLine, state := .headers } rest := by
  refine reaches_line (t := .again _ _) (by simp [isBody, hs]) ?_ (.inr rfl)
  rw [turn, hs]
  simp only [readStartLine]
  rw [takeLine_wire m head.isLine_line hlength, ok_bind]
  simp only [if_neg head.line_ne_nil, head.parseStartLine hrole, ok_bind]
  rfl

/-- The lengths of a section up to a field. -/
theorem admits_field {limits : HttpHeaderLimits} {fields : List HttpField} {field : HttpField}
    (h : limits.Admits (before ++ field :: fields)) :
    field.name.text.length ≤ limits.maximumNameLength.toNat ∧
      field.value.length ≤ limits.maximumValueLength.toNat ∧
      before.length < limits.maximumFieldCount.toNat ∧
      serializedLength before + field.wireLength ≤ limits.maximumAggregateLength.toNat := by
  have hmem : field ∈ before ++ field :: fields := List.mem_append_right _ (List.mem_cons_self ..)
  have hcount := h.count
  have haggregate := h.aggregate
  simp only [serializedLength, List.map_append, List.sum_append, List.map_cons, List.sum_cons]
    at haggregate
  rw [List.length_append, List.length_cons] at hcount
  exact ⟨h.names field hmem, h.values field hmem, by omega, by rw [serializedLength]; omega⟩

theorem serializedLength_concat (fields : List HttpField) (field : HttpField) :
    serializedLength (fields ++ [field]) = serializedLength fields + field.wireLength := by
  simp [serializedLength]

theorem length_fieldLine (field : HttpField) : (fieldLine field).length + 2 = field.wireLength := by
  rw [fieldLine, HttpField.wireLength, List.length_append, List.length_cons, List.length_cons]
  omega

theorem fieldLine_ne_nil (field : HttpField) : fieldLine field ≠ [] := by
  simp [fieldLine]

/-- The message while a section of fields is read. -/
def readingFields (m : Http1Message) (trailer : Bool) (fields : List HttpField) : Http1Message :=
  { m with
    state := if trailer then .trailers else .headers
    fields := fields
    fieldBytes := serializedLength fields }

/-- The limits of a section of fields. -/
def fieldLimits (m : Http1Message) (trailer : Bool) : HttpHeaderLimits :=
  if trailer then m.limits.trailerLimits else m.limits.headerLimits

theorem readingFields_turn (m : Http1Message) (trailer : Bool) {field : HttpField} {fields : List HttpField}
    (h : (m.fieldLimits trailer).Admits (before ++ field :: fields))
    (htrailer : trailer = true → field.name.type.isKnown = false) (rest : List UInt8) (ended : Bool) :
    (m.readingFields trailer before).turn (fieldLine field ++ crlf ++ rest) ended =
      .ok (.again (m.readingFields trailer (before ++ [field])) ((fieldLine field).length + 2)) := by
  obtain ⟨hname, hvalue, hcount, haggregate⟩ := admits_field h
  have hlength := length_fieldLine field
  have hparse := parseFieldLine_field (m.readingFields trailer before) field trailer
    (m.fieldLimits trailer) rfl hname hvalue hcount haggregate htrailer
  have hfits : (fieldLine field).length ≤ (m.fieldLimits trailer).maximumAggregateLength.toNat := by
    omega
  cases trailer with
  | false =>
    show (m.readingFields false before).readHeaders _ _ = _
    have htake : (m.readingFields false before).takeLine (fieldLine field ++ crlf ++ rest)
        (m.readingFields false before).limits.headerLimits.maximumAggregateLength .headerLimitExceeded = _ :=
      takeLine_wire _ (isLine_field field) hfits _ rest
    rw [readHeaders, htake, ok_bind]
    simp only [ne_eq, fieldLine_ne_nil, not_false_eq_true, if_true, hparse, ok_bind]
    rw [readingFields, readingFields, serializedLength_concat]
    rfl
  | true =>
    show (m.readingFields true before).readTrailers _ _ = _
    have htake : (m.readingFields true before).takeLine (fieldLine field ++ crlf ++ rest)
        (m.readingFields true before).limits.trailerLimits.maximumAggregateLength .trailerLimitExceeded = _ :=
      takeLine_wire _ (isLine_field field) hfits _ rest
    rw [readTrailers, htake, ok_bind]
    simp only [ne_eq, fieldLine_ne_nil, not_false_eq_true, if_true, hparse, ok_bind]
    rw [readingFields, readingFields, serializedLength_concat]
    rfl

/-- The lines of a section are read as its fields. -/
theorem reaches_fields (m : Http1Message) (trailer : Bool) {fields : List HttpField}
    (h : (m.fieldLimits trailer).Admits (before ++ fields))
    (htrailer : trailer = true → ∀ field ∈ fields, field.name.type.isKnown = false)
    (rest : List UInt8) (ended : Bool) :
    Reaches byteTurn ended (m.readingFields trailer before)
      (wireLines (fields.map fieldLine) ++ rest) [] (m.readingFields trailer (before ++ fields)) rest := by
  induction fields generalizing before with
  | nil =>
    rw [List.append_nil]
    exact .refl
  | cons field fields ih =>
    have hturn := readingFields_turn m trailer h
      (fun ht => htrailer ht field (List.mem_cons_self ..)) (wireLines (fields.map fieldLine) ++ rest) ended
    have hbody : (m.readingFields trailer before).isBody = false := by
      cases trailer <;> rfl
    have hline := reaches_line hbody hturn (.inr rfl)
    rw [List.append_cons before field fields] at h
    have hrest := ih h fun ht field hf => htrailer ht field (List.mem_cons_of_mem _ hf)
    rw [← List.append_cons before field fields] at hrest
    have hreach := hline.trans hrest
    rwa [← List.append_assoc] at hreach

/-- The empty line after a section. -/
theorem takeLine_empty (m : Http1Message) (limit : UInt64) (limitReason : Http1FailureReason)
    (rest : List UInt8) : m.takeLine ([] ++ crlf ++ rest) limit limitReason = .ok (some ([], 2)) :=
  takeLine_wire m (fun b hb => by cases hb) (Nat.zero_le _) limitReason rest

theorem finishFields_admits {m : Http1Message} (trailer : Bool)
    (h : (m.fieldLimits trailer).Admits m.fields) :
    ∃ headers : HttpHeaders, headers.fields = m.fields ∧
      m.finishFields trailer = .ok (headers, { m with fields := [], fieldBytes := 0 }) := by
  have hvalid := (HttpHeaderLimits.validate_ok _ _).mpr h
  refine ⟨⟨m.fields, m.fieldLimits trailer, hvalid⟩, rfl, ?_⟩
  rw [finishFields]
  split
  case h_1 message herror =>
    rw [fieldLimits] at hvalid
    rw [hvalid] at herror
    cases herror
  case h_2 => rfl

/-- The empty line after a header section ends the head. -/
theorem reaches_head {m : Http1Message} {framing : Http1BodyFraming} {contentLength : Option Nat}
    (hs : m.state = .headers)
    (ha : m.limits.headerLimits.Admits m.fields)
    (hframed : ∀ headers : HttpHeaders, headers.fields = m.fields →
      selectFraming { m with fields := [], fieldBytes := 0 } headers =
        .ok (headEvent first headers framing contentLength, m'))
    (rest : List UInt8) (ended : Bool) :
    ∃ headers : HttpHeaders, headers.fields = m.fields ∧
      Reaches byteTurn ended m (crlf ++ rest) [headEvent first headers framing contentLength] m' rest := by
  obtain ⟨headers, hfields, hfinish⟩ := finishFields_admits false ha
  refine ⟨headers, hfields, ?_⟩
  have hturn : m.turn ([] ++ crlf ++ rest) ended =
      .ok (.emit (headEvent first headers framing contentLength) m' 2) := by
    rw [turn, hs]
    simp only [readHeaders]
    rw [takeLine_empty, ok_bind]
    simp only [ne_eq, not_true_eq_false, if_false, hfinish, ok_bind, hframed headers hfields]
    rfl
  exact reaches_line (by simp [isBody, hs]) hturn (.inl ⟨_, rfl⟩)

/-- The empty line after a trailer section ends the message. -/
theorem reaches_trailers {m : Http1Message} (hs : m.state = .trailers)
    (ha : m.limits.trailerLimits.Admits m.fields) (rest : List UInt8) (ended : Bool) :
    ∃ trailers : HttpHeaders, trailers.fields = m.fields ∧
      Reaches byteTurn ended m (crlf ++ rest) [.trailers trailers]
        { m with fields := [], fieldBytes := 0, state := .completePending } rest := by
  obtain ⟨trailers, hfields, hfinish⟩ := finishFields_admits true ha
  refine ⟨trailers, hfields, ?_⟩
  have hturn : m.turn ([] ++ crlf ++ rest) ended = .ok (.emit (.trailers trailers)
      { m with fields := [], fieldBytes := 0, state := .completePending } 2) := by
    rw [turn, hs]
    simp only [readTrailers]
    rw [takeLine_empty, ok_bind]
    simp only [ne_eq, not_true_eq_false, if_false, hfinish, ok_bind]
    rfl
  exact reaches_line (by simp [isBody, hs]) hturn (.inl ⟨_, rfl⟩)

/-- A message that needs no more input is completed. -/
theorem reaches_completion {m : Http1Message} (hs : m.state = .completePending ∨ m.state = .opaquePending)
    (rest : List UInt8) (ended : Bool) :
    ∃ m', Reaches byteTurn ended m rest [.complete] m' rest ∧
      (m'.state = .complete ∨ m'.state = .opaqueData) := by
  have hturn : m.turn rest ended = .ok m.emitCompletion := by
    rw [turn]
    rcases hs with hs | hs <;> simp only [hs]
  have hmove : byteTurn m rest ended = .move [.complete]
      { m with state := if m.state = .opaquePending then .opaqueData else .complete } 0 := by
    rw [byteTurn_of_not_body (by rcases hs with hs | hs <;> simp [isBody, hs]), hturn]
    rfl
  refine ⟨_, Reaches.single hmove, ?_⟩
  rcases hs with hs | hs <;> simp [hs]

theorem length_hexDigits_le (fuel : Nat) (hk : 0 < k) (h : value < 16 ^ k) :
    (Http1Encoder.hexDigits fuel value).length ≤ k := by
  induction fuel generalizing value k with
  | zero => exact Nat.zero_le _
  | succ fuel ih =>
    rw [Http1Encoder.hexDigits_succ]
    split
    case isTrue => exact hk
    case isFalse hge =>
      match k, hk with
      | 1, _ => omega
      | k + 2, _ =>
        have hrest := ih (Nat.succ_pos k) (Http1Encoder.div_lt_pow h)
        rw [List.length_append, List.length_singleton]
        omega

/-- The size line of a chunk fits if there is room for four digits. -/
theorem sizeLine {data : List UInt8} (h : IsFragment data) (hlimit : 4 ≤ limit) :
    IsLine (Http1Encoder.hexDigits 16 data.length) ∧
      (Http1Encoder.hexDigits 16 data.length).length ≤ limit ∧
      Http1FramingParser.chunkSize (Http1Encoder.hexDigits 16 data.length) = .ok data.length := by
  obtain ⟨hne, hle⟩ := h
  rw [Http1CodecLimits.maximumBodyChunkLength] at hle
  refine ⟨isLine_of_range fun b hb => ?_, ?_, ?_⟩
  · have hhex := (Http1Encoder.hexDigits_hex 16 data.length b hb).1
    simp only [isAsciiHexDigit, isAsciiDigit, Bool.or_eq_true, Bool.and_eq_true, decide_eq_true_eq] at hhex
    omega
  · have hfour := length_hexDigits_le 16 (by decide : 0 < 4) (show data.length < 16 ^ 4 by omega)
    omega
  · exact Http1Encoder.chunkSize_hexDigits (List.length_pos_iff.mpr hne) (by omega)

/-- The size line of a chunk is read. -/
theorem reaches_chunkLine {m : Http1Message} (hs : m.state = .chunkLine) (h : IsFragment data)
    (hlimit : 4 ≤ m.limits.maximumChunkMetadataLength.toNat)
    (hroom : m.bodyDecoded + data.length ≤ m.limits.maximumBodyLength.toNat)
    (rest : List UInt8) (ended : Bool) :
    Reaches byteTurn ended m (Http1Encoder.hexDigits 16 data.length ++ crlf ++ rest) []
      { m with bodyRemaining := data.length, state := .chunkData } rest := by
  obtain ⟨hline, hlength, hsize⟩ := sizeLine h hlimit
  have hpos := List.length_pos_iff.mpr h.1
  refine reaches_line (t := .again _ _) (by simp [isBody, hs]) ?_ (.inr rfl)
  rw [turn, hs]
  simp only [readChunkLine]
  rw [takeLine_wire m hline hlength, ok_bind]
  simp only [hsize]
  rw [if_neg (by omega), if_neg (by omega)]
  rfl

/-- The end of the data of a chunk is read. -/
theorem reaches_chunkEnd {m : Http1Message} (hs : m.state = .chunkData) (hr : m.bodyRemaining = 0)
    (rest : List UInt8) (ended : Bool) :
    Reaches byteTurn ended m (crlf ++ rest) [] { m with state := .chunkLine } rest := by
  have hdone : byteTurn m (crlf ++ rest) ended = .move [] { m with state := .chunkDataEnd } 0 := by
    rw [byteTurn, if_pos (by simp [isBody, hs]), turn, hs]
    simp only [readChunkData, if_pos hr]
    rfl
  have hline : byteTurn { m with state := .chunkDataEnd } (crlf ++ rest) ended =
      .move [] { m with state := .chunkLine } 2 := by
    rw [byteTurn_of_not_body rfl, turn]
    simp only [crlf, List.cons_append, List.nil_append, readChunkDataEnd]
    rw [if_neg (by decide)]
    rfl
  exact (Reaches.single hdone).trans (Reaches.single hline)

/-- A chunk is read as its data. -/
theorem reaches_chunk {m : Http1Message} (hs : m.state = .chunkLine) (h : IsFragment data)
    (hlimit : 4 ≤ m.limits.maximumChunkMetadataLength.toNat)
    (hroom : m.bodyDecoded + data.length ≤ m.limits.maximumBodyLength.toNat)
    (rest : List UInt8) (ended : Bool) :
    Reaches byteTurn ended m (chunkOf data ++ rest) (bytewise (.body data))
      { m with bodyRemaining := 0, bodyDecoded := m.bodyDecoded + data.length } rest := by
  have hsize := reaches_chunkLine hs h hlimit hroom (data ++ crlf ++ rest) ended
  have hpiece := reaches_piece ended data.length
    (m := { m with bodyRemaining := data.length, state := .chunkData }) ⟨rfl, .inr (le_refl _), hroom⟩
    (show data.length ≤ (data ++ crlf ++ rest).length by simp)
  rw [List.append_assoc, List.take_left, List.drop_left, ← List.append_assoc, advance,
    if_neg (by simp)] at hpiece
  have hend := reaches_chunkEnd (m := { m with
    bodyDecoded := m.bodyDecoded + data.length
    bodyRemaining := data.length - data.length
    state := .chunkData }) rfl (Nat.sub_self _) rest ended
  have hreach := hsize.trans (hpiece.trans hend)
  rw [List.nil_append, List.append_nil, Nat.sub_self] at hreach
  have hwire : chunkOf data ++ rest =
      Http1Encoder.hexDigits 16 data.length ++ crlf ++ (data ++ crlf ++ rest) := by
    simp [chunkOf]
  rw [hwire]
  rw [← hs] at hreach
  exact hreach

/-- The fragments of a chunked body are read in turn. -/
theorem reaches_chunks {m : Http1Message} {fragments : List (List UInt8)} (hs : m.state = .chunkLine)
    (h : ∀ data ∈ fragments, IsFragment data)
    (hlimit : 4 ≤ m.limits.maximumChunkMetadataLength.toNat)
    (hroom : m.bodyDecoded + fragments.flatten.length ≤ m.limits.maximumBodyLength.toNat)
    (rest : List UInt8) (ended : Bool) :
    ∃ m', Reaches byteTurn ended m (fragments.flatMap chunkOf ++ rest)
        (bytewise (.body fragments.flatten)) m' rest ∧
      m'.state = .chunkLine ∧ m'.limits = m.limits ∧
      m'.bodyDecoded = m.bodyDecoded + fragments.flatten.length := by
  induction fragments generalizing m with
  | nil => exact ⟨m, .refl, hs, rfl, rfl⟩
  | cons data fragments ih =>
    rw [List.flatten_cons, List.length_append] at hroom
    obtain ⟨hdata, hfragments⟩ := List.forall_mem_cons.mp h
    have hchunk := reaches_chunk hs hdata hlimit (by omega) (fragments.flatMap chunkOf ++ rest) ended
    obtain ⟨m', hreach, hs', hlimits, hdecoded⟩ :=
      ih (m := { m with bodyRemaining := 0, bodyDecoded := m.bodyDecoded + data.length }) hs hfragments
        hlimit (by simp only; omega)
    refine ⟨m', ?_, hs', hlimits, ?_⟩
    · rw [List.flatMap_cons, List.flatten_cons, bytewise, List.map_append, List.append_assoc]
      exact hchunk.trans hreach
    · rw [hdecoded, List.flatten_cons, List.length_append, Nat.add_assoc]

/-- The last chunk and the trailers are read. -/
theorem reaches_lastChunk {m : Http1Message} {trailers : List HttpField} (hs : m.state = .chunkLine)
    (hlimit : 4 ≤ m.limits.maximumChunkMetadataLength.toNat) (ha : m.limits.trailerLimits.Admits trailers)
    (hu : ∀ field ∈ trailers, field.name.type.isKnown = false) (rest : List UInt8) (ended : Bool) :
    ∃ (headers : HttpHeaders) (m' : Http1Message), headers.fields = trailers ∧
      Reaches byteTurn ended m (0x30 :: crlf ++ wireLines (trailers.map fieldLine) ++ crlf ++ rest)
        [.trailers headers] m' rest ∧ m'.state = .completePending := by
  have hzero : Reaches byteTurn ended m
      ([0x30] ++ crlf ++ (wireLines (trailers.map fieldLine) ++ (crlf ++ rest))) []
      (readingFields { m with bodyRemaining := 0 } true [])
      (wireLines (trailers.map fieldLine) ++ (crlf ++ rest)) := by
    have hsize : Http1FramingParser.chunkSize [0x30] = .ok 0 := by decide +kernel
    have hline : IsLine [0x30] := isLine_of_range fun b hb => by
      rw [List.mem_singleton.mp hb]
      decide
    refine reaches_line (t := .again _ _) (by simp [isBody, hs]) ?_ (.inr rfl)
    rw [turn, hs]
    simp only [readChunkLine]
    rw [takeLine_wire m hline (by simp only [List.length_singleton]; omega), ok_bind]
    simp only [hsize]
    rw [if_neg (by omega), if_pos trivial]
    rfl
  have hfields := reaches_fields { m with bodyRemaining := 0 } true
    (show m.limits.trailerLimits.Admits ([] ++ trailers) from ha) (fun _ => hu) (crlf ++ rest) ended
  rw [List.nil_append] at hfields
  obtain ⟨headers, hheaders, hend⟩ := reaches_trailers
    (m := readingFields { m with bodyRemaining := 0 } true trailers) rfl ha rest ended
  have hreach := hzero.trans (hfields.trans hend)
  refine ⟨headers, _, hheaders, by simpa using hreach, rfl⟩

theorem reaches_plainBody {m : Http1Message} {framing : Http1BodyFraming} {body : List UInt8}
    (hf : framing = .fixedLength ∨ framing = .closeDelimited)
    (hs : m.state = bodyState m.bodyRemaining framing)
    (hfixed : framing = .fixedLength → m.bodyRemaining = body.length)
    (hroom : m.bodyDecoded + body.length ≤ m.limits.maximumBodyLength.toNat)
    (hrest : framing = .closeDelimited → rest = [] ∧ ended = true) :
    ∃ m', Reaches byteTurn ended m (body ++ rest) (bytewise (.body body) ++ [.complete]) m' rest ∧
      (m'.state = .complete ∨ m'.state = .opaqueData) := by
  have hpiece : ∀ m' : Http1Message, m.advance body.length = m' → m.HasRoom body.length →
      Reaches byteTurn ended m (body ++ rest) (bytewise (.body body)) m' rest := by
    rintro _ rfl hhas
    have hreach := reaches_piece ended body.length hhas
      (show body.length ≤ (body ++ rest).length by simp)
    rwa [List.take_left, List.drop_left] at hreach
  rcases hf with rfl | rfl
  · have hlength := hfixed rfl
    simp only [bodyState] at hs
    split at hs
    case isTrue hz =>
      obtain rfl : body = [] := List.eq_nil_of_length_eq_zero (hlength.symm.trans hz)
      exact reaches_completion (.inl hs) rest ended
    case isFalse hz =>
      have hbody : m.isBody = true := by simp [isBody, hs]
      have hreach := hpiece _ rfl ⟨hbody, .inr (by omega), hroom⟩
      have hzero : (m.advance body.length).bodyRemaining = 0 := by
        rw [advance, if_neg (by simp [hs])]
        simp only
        omega
      have hdone : byteTurn (m.advance body.length) rest ended =
          .move [.complete] { m.advance body.length with state := .complete } 0 := by
        rw [byteTurn, turn, advance_state, hs]
        simp only [readFixedBody, if_pos hzero]
        rfl
      exact ⟨_, hreach.trans (Reaches.single hdone), .inl rfl⟩
  · obtain ⟨rfl, rfl⟩ := hrest rfl
    simp only [bodyState] at hs
    have hbody : m.isBody = true := by simp [isBody, hs]
    have hreach := hpiece _ rfl ⟨hbody, .inl hs, hroom⟩
    have hdone : byteTurn (m.advance body.length) [] true =
        .move [.complete] { m.advance body.length with state := .complete } 0 := by
      rw [byteTurn, turn, advance_state, hs, List.take_nil, ite_self]
      rfl
    exact ⟨_, hreach.trans (Reaches.single hdone), .inl rfl⟩

/-- The trailers that are told of a message. -/
def trailerEvents (framing : Http1BodyFraming) (trailers : HttpHeaders) : List Http1DecodeEvent :=
  if framing = .chunked then [.trailers trailers] else []

/-- What an encoder writes after a head, the decoder reads as the body and the trailers. -/
theorem reaches_encoded {m : Http1Message} {framing : Http1BodyFraming} {trailers : List HttpField}
    (hs : m.state = bodyState m.bodyRemaining framing) (hbody : EncodedBody framing body wire)
    (hend : EncodedEnd m.limits.trailerLimits framing true trailers ending)
    (hlimit : 4 ≤ m.limits.maximumChunkMetadataLength.toNat)
    (hfixed : framing = .fixedLength → m.bodyRemaining = body.length)
    (hroom : m.bodyDecoded + body.length ≤ m.limits.maximumBodyLength.toNat)
    (hrest : framing = .closeDelimited → rest = [] ∧ ended = true) :
    ∃ (headers : HttpHeaders) (m' : Http1Message), headers.fields = trailers ∧
      Reaches byteTurn ended m (wire ++ ending ++ rest)
        (bytewise (.body body) ++ (trailerEvents framing headers ++ [.complete])) m' rest ∧
      (m'.state = .complete ∨ m'.state = .opaqueData) := by
  cases hbody with
  | nothing hn =>
    have hpending : m.state = .completePending ∨ m.state = .opaquePending := by
      rcases hn with rfl | rfl
      · exact .inl hs
      · exact .inr hs
    cases hend with
    | chunked => simp at hn
    | plain hf =>
      obtain ⟨m', hreach, hm'⟩ := reaches_completion hpending rest ended
      refine ⟨⟨[], {}, rfl⟩, m', rfl, ?_, hm'⟩
      rw [trailerEvents, if_neg hf]
      exact hreach
  | plain hp =>
    cases hend with
    | chunked => simp at hp
    | plain hf =>
      obtain ⟨m', hreach, hm'⟩ := reaches_plainBody hp hs hfixed hroom hrest
      refine ⟨⟨[], {}, rfl⟩, m', rfl, ?_, hm'⟩
      rw [trailerEvents, if_neg hf, List.append_nil]
      exact hreach
  | chunked fragments hf =>
    cases hend with
    | plain hp => exact absurd rfl hp
    | chunked ha hu =>
      obtain ⟨m₁, hchunks, hs₁, hlimits, -⟩ := reaches_chunks hs hf hlimit hroom
        (0x30 :: crlf ++ wireLines (trailers.map fieldLine) ++ crlf ++ rest) ended
      rw [← hlimits] at hlimit ha
      obtain ⟨headers, m₂, hheaders, hlast, hs₂⟩ := reaches_lastChunk hs₁ hlimit ha hu rest ended
      obtain ⟨m', hcomplete, hm'⟩ := reaches_completion (.inl hs₂) rest ended
      refine ⟨headers, m', hheaders, ?_, hm'⟩
      rw [trailerEvents, if_pos rfl, List.append_assoc (fragments.flatMap chunkOf)]
      exact hchunks.trans (hlast.trans hcomplete)

end Http1Message
/-- Two limits that treat the head, the trailers and the body of a message alike. -/
structure Http1CodecLimits.SameMessage (limits limits' : Http1CodecLimits) : Prop where
  startLine : limits'.maximumStartLineLength = limits.maximumStartLineLength
  headers : limits'.headerLimits = limits.headerLimits
  trailers : limits'.trailerLimits = limits.trailerLimits
  body : limits'.maximumBodyLength = limits.maximumBodyLength

namespace Http1Head
open Http1Message (byteTurn headEvent)

/-- The head that an encoder wrote is read. -/
theorem Begun.reaches {head : Http1Head} (h : Begun head limits e) (hsame : limits.SameMessage limits')
    (rest : List UInt8) (ended : Bool) :
    ∃ headers : HttpHeaders, headers.fields = head.headers.fields ∧
      Reaches byteTurn ended { role := head.role, limits := limits', requestMethod := head.requestMethod }
        (head.wire ++ rest) [headEvent head.startLine headers e.framing e.contentLength]
        (Http1Message.framedBy { role := head.role
                                 limits := limits'
                                 requestMethod := head.requestMethod
                                 startLine := some head.startLine
                                 state := .headers } e) rest := by
  let m : Http1Message :=
    { role := head.role
      limits := limits'
      requestMethod := head.requestMethod
      startLine := some head.startLine
      state := .headers }
  have hline := Http1Message.reaches_startLine head
    (m := { role := head.role, limits := limits', requestMethod := head.requestMethod }) rfl rfl
    (by rw [hsame.startLine]; exact h.lineLength)
    (wireLines (head.headers.fields.map fieldLine) ++ (crlf ++ rest)) ended
  have hadmits : limits'.headerLimits.Admits ([] ++ head.headers.fields) := by
    rw [hsame.headers]
    exact h.admits
  have hfields := Http1Message.reaches_fields m false hadmits (fun ht => (by cases ht)) (crlf ++ rest) ended
  obtain ⟨headers, hheaders, hhead⟩ := Http1Message.reaches_head
    (m := m.readingFields false ([] ++ head.headers.fields)) rfl hadmits
    (fun headers hf => h.framed m headers rfl hsame.body rfl hf) rest ended
  refine ⟨headers, hheaders, ?_⟩
  have hreach := hline.trans (hfields.trans hhead)
  have hwire : head.wire ++ rest = head.line ++ crlf ++
      (wireLines (head.headers.fields.map fieldLine) ++ (crlf ++ rest)) := by
    simp [wire]
  rw [hwire]
  exact hreach

end Http1Head

namespace Http1Feeding
open Http1DecodeEvent (bytewise mergeBodies)
open Http1Message (byteTurn byteTurn_steady headEvent trailerEvents)

/-- The body that is told of a message, in one piece. -/
def bodyEvents (body : List UInt8) : List Http1DecodeEvent := if body = [] then [] else [.body body]

theorem mergeBodies_message (first : Http1StartLine) (headers trailers : HttpHeaders)
    (framing framing' : Http1BodyFraming) (contentLength : Option Nat) (body : List UInt8) :
    mergeBodies (headEvent first headers framing contentLength ::
        (bytewise (.body body) ++ (trailerEvents framing' trailers ++ [.complete]))) =
      headEvent first headers framing contentLength ::
        (bodyEvents body ++ (trailerEvents framing' trailers ++ [.complete])) := by
  have htail : mergeBodies (bytewise (.body body) ++ (trailerEvents framing' trailers ++ [.complete])) =
      bodyEvents body ++ (trailerEvents framing' trailers ++ [.complete]) := by
    by_cases hb : body = []
    · rw [bodyEvents, if_pos hb, hb, trailerEvents]
      split <;> rfl
    · rw [Http1DecodeEvent.mergeBodies_bytes body _ hb, bodyEvents, if_neg hb, trailerEvents]
      split <;> rfl
  cases first <;> exact congrArg _ htail

/-- A decoder that read a message, and nothing of what is after it. -/
structure Received (head : Http1Head) (framing : Http1BodyFraming) (contentLength : Option Nat)
    (body : List UInt8) (trailers : List HttpField) (rest : List UInt8) (f : Http1Feeding) : Prop where
  complete : f.decoder.isComplete = true
  told : ∃ headers trailers' : HttpHeaders,
    headers.fields = head.headers.fields ∧ trailers'.fields = trailers ∧
    mergeBodies f.events = headEvent head.startLine headers framing contentLength ::
      (bodyEvents body ++ (trailerEvents framing trailers' ++ [.complete]))
  rest_eq : f.rest = rest

/-- Whatever an encoder writes of a message, a decoder reads as this message, however the body was
split and however the decoder is fed. -/
theorem receives_encoding (head : Http1Head) (limits limits' : Http1CodecLimits)
    (hsame : limits.SameMessage limits') (hfinite : limits'.HasFiniteLines)
    (hchunk : 4 ≤ limits'.maximumChunkMetadataLength.toNat) (e : Http1Encoder)
    (he : head.encoder limits = .ok e) (encoderCalls : List Http1EncoderCall)
    (hcomplete : (Http1Encoding.run encoderCalls { encoder := e }).encoder.complete = true)
    (rest : List UInt8) (ended : Bool) (hrest : e.framing = .closeDelimited → rest = [] ∧ ended = true)
    (calls : List Http1Call)
    (hfin : ((start head.role limits' head.requestMethod
      ((Http1Encoding.run encoderCalls { encoder := e }).written ++ rest)).run ended calls).Finished
        ended) :
    let s := Http1Encoding.run encoderCalls { encoder := e }
    Received head s.encoder.framing e.contentLength s.body s.trailers rest
      ((start head.role limits' head.requestMethod (s.written ++ rest)).run ended calls) := by
  intro s
  have hbegun := Http1Head.encoder_begun he
  have hsent : Http1Encoding.Sent head limits e s := (Http1Encoding.begun_sent hbegun).run encoderCalls
  obtain ⟨wire, ending, hwritten, hbody, hend⟩ := hsent.wire
  rw [hcomplete, ← hsame.trailers] at hend
  obtain ⟨headers, hheaders, hhead⟩ := hbegun.reaches hsame (wire ++ ending ++ rest) ended
  have hremaining := hsent.remaining
  have hroom := hsent.length_le
  rw [← hsame.body] at hroom
  obtain ⟨trailers, m, htrailers, htail, hm⟩ := Http1Message.reaches_encoded
    (m := Http1Message.framedBy { role := head.role
                                  limits := limits'
                                  requestMethod := head.requestMethod
                                  startLine := some head.startLine
                                  state := .headers } e)
    (by
      simp only [Http1Message.framedBy, Http1Message.bodyState]
      cases e.framing <;> rfl) hbody hend hchunk
    (fun hf => by
      have hdone := hsent.exhausted hf hcomplete
      have hsum := hremaining hf
      simp only [Http1Message.framedBy, if_pos hf]
      omega)
    (by simpa [Http1Message.framedBy] using hroom) hrest
  have hreach := hhead.trans htail
  have hfirst := start_sound head.role limits' head.requestMethod (s.written ++ rest)
  have hfollows := (start_follows ended head.role limits' head.requestMethod (s.written ++ rest)).run
    hfirst calls
  have hstream : s.written ++ rest = head.wire ++ (wire ++ ending ++ rest) := by
    rw [hwritten]
    simp
  rw [← hstream] at hreach
  obtain ⟨hc, -, hevents, hleft⟩ := hfollows.arrives hfinite hfirst
    (start_told head.role limits' head.requestMethod (s.written ++ rest)) hfin hreach hm
  refine ⟨hc, ⟨headers, trailers, hheaders, htrailers, ?_⟩, hleft⟩
  rw [← Http1DecodeEvent.mergeBodies_bytewise hfollows.pieces, hevents, hsent.framing]
  exact mergeBodies_message _ _ _ _ _ _ _

/-- A request with a chunked body. -/
def chunkedHead : HttpRequestHead where
  method := ⟨U8String.ofLiteral "POST", by decide +kernel⟩
  target := U8String.ofLiteral "/"
  version := .http11
  headers :=
    { fields := [⟨⟨U8String.ofLiteral "Transfer-Encoding", by decide +kernel⟩,
        U8String.ofLiteral "chunked", by decide +kernel⟩]
      isValid := by decide +kernel }
  isRequestTarget := by decide +kernel

/-- Two fragments and a trailer, before the start of another request. -/
theorem receives_encoding_chunked :
    let limits : Http1CodecLimits := { maximumInputLength := 128, maximumOutputLength := 128 }
    let trailers : HttpHeaders :=
      { fields := [⟨⟨U8String.ofLiteral "X", by decide +kernel⟩, U8String.ofLiteral "y", by decide +kernel⟩]
        isValid := by decide +kernel }
    let encoderCalls := [.writeBody (U8String.ofLiteral "ab"), .takeOutput 10,
      .writeBody (U8String.ofLiteral "c"), .finish trailers]
    ∃ e, (Http1Head.request chunkedHead).encoder limits = .ok e ∧
      let s := Http1Encoding.run encoderCalls { encoder := e }
      Received (.request chunkedHead) s.encoder.framing e.contentLength s.body s.trailers
        (U8String.ofLiteral "GET")
        ((start .request limits none (s.written ++ U8String.ofLiteral "GET")).run false
          [.feed 60, .next, .next, .feed 28, .next, .next, .next, .next]) := by
  intro limits trailers encoderCalls
  have hruns : ∀ e ∈ ((Http1Head.request chunkedHead).encoder limits).toOption,
      (Http1Encoding.run encoderCalls { encoder := e }).encoder.complete = true ∧
      e.framing ≠ .closeDelimited ∧
      ((start .request limits none ((Http1Encoding.run encoderCalls { encoder := e }).written ++
        U8String.ofLiteral "GET")).run false
          [.feed 60, .next, .next, .feed 28, .next, .next, .next, .next]).Finished false := by
    decide +kernel
  have hsome : ((Http1Head.request chunkedHead).encoder limits).toOption.isSome = true := by
    decide +kernel
  cases he : (Http1Head.request chunkedHead).encoder limits with
  | error =>
    rw [he] at hsome
    cases hsome
  | ok e =>
    rw [he] at hruns
    obtain ⟨hcomplete, hframing, hfin⟩ := hruns e rfl
    exact ⟨e, rfl, receives_encoding (.request chunkedHead) limits limits ⟨rfl, rfl, rfl, rfl⟩
      ⟨by decide, by decide, by decide, by decide⟩ (by decide) e he encoderCalls hcomplete _ false
      (fun hf => absurd hf hframing) _ hfin⟩

/-- The limit for the size lines of chunks is one of the decoder only. -/
theorem encoding_chunkMetadata_tooLong :
    let limits : Http1CodecLimits :=
      { maximumInputLength := 128, maximumOutputLength := 128, maximumChunkMetadataLength := 0 }
    ∃ e ∈ ((Http1Head.request chunkedHead).encoder limits).toOption,
      let s := Http1Encoding.run [.writeBody (U8String.ofLiteral "ab"), .finish ⟨[], {}, rfl⟩] { encoder := e }
      let f := (start .request limits none s.written).run false [.feed 128, .next, .next]
      s.encoder.complete = true ∧ f.Finished false ∧ f.hasFailed = true ∧ f.decoder.isComplete = false := by
  decide +kernel

end Http1Feeding
end ErbslandCore.Network
