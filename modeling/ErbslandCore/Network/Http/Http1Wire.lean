import ErbslandCore.Network.Http.Http1Feeding
import ErbslandCore.Network.Http.Http1FramingFields
import ErbslandCore.Network.Http.Http1Lines

namespace ErbslandCore.Network
open Library Library.Incremental Text
set_option autoImplicit true

def crlf : List UInt8 := [0x0D, 0x0A]

/-- Lines on the wire. -/
def wireLines (lines : List (List UInt8)) : List UInt8 := lines.flatMap (· ++ crlf)

/-- A chunk with data, and its size line with extensions. -/
structure Http1Chunk where
  line : List UInt8
  data : List UInt8
  size : Http1FramingParser.chunkSize line = .ok data.length
  nonempty : data ≠ []

def Http1Chunk.wire (chunk : Http1Chunk) : List UInt8 := chunk.line ++ crlf ++ chunk.data ++ crlf

/-- A body on the wire, for a framing and the length that was declared. -/
inductive BodyWire : Http1BodyFraming → Option Nat → List UInt8 → List UInt8 → Prop where
  | none : BodyWire .none length [] []
  | opaqueData : BodyWire .opaqueData length [] []
  | fixedLength : BodyWire .fixedLength (some body.length) body body
  | closeDelimited : BodyWire .closeDelimited none body body
  | chunked (chunks : List Http1Chunk) (hlast : Http1FramingParser.chunkSize line = .ok 0)
      (ht : List.Forall₂ HeaderLine lines trailers) :
      BodyWire .chunked none (chunks.flatMap (·.data))
        (chunks.flatMap (·.wire) ++ line ++ crlf ++ wireLines lines ++ crlf)

/-- What the fields of a section say about the body of its message. -/
structure FramingFields (requestMethod : Option HttpMethod) (first : Http1StartLine)
    (fields : List HttpField) (framing : Http1BodyFraming) (contentLength : Option Nat) : Prop where
  lengths : ∀ member ∈ membersOf .contentLength fields,
    ∃ n, Http1FramingParser.IsDecimal member n ∧ contentLength = some n
  declared : contentLength = none ∨ framing = .fixedLength ∨
    Http1Message.IsBodyless requestMethod first
  exclusive : membersOf .contentLength fields = [] ∨ membersOf .transferEncoding fields = []
  codings : membersOf .transferEncoding fields = [] ∨ Http1Message.IsBodyless requestMethod first ∨
    ∃ coding, membersOf .transferEncoding fields = [coding] ∧
      coding.map toAsciiLowercase = Utf8.characters (U8String.ofLiteral "chunked") ∧
      Http1Message.lineVersion first = .http11 ∧ framing = .chunked

namespace Http1Message
open Http1DecodeEvent (bytewise)

theorem sectionCoding_none (h : Http1FramingParser.sectionCoding codings = .none) : codings = [] := by
  match codings with
  | [] => rfl
  | [coding] =>
    rw [Http1FramingParser.sectionCoding, codingOf] at h
    split at h <;> cases h
  | _ :: _ :: _ => cases h

theorem sectionCoding_chunked (h : Http1FramingParser.sectionCoding codings = .chunked) :
    ∃ coding, codings = [coding] ∧
      coding.map toAsciiLowercase = Utf8.characters (U8String.ofLiteral "chunked") := by
  match codings with
  | [] => cases h
  | [coding] =>
    rw [Http1FramingParser.sectionCoding, codingOf] at h
    split at h
    case isTrue hc => exact ⟨coding, rfl, hc⟩
    case isFalse => cases h
  | _ :: _ :: _ => cases h

/-- A message that is framed has framing fields that agree. -/
theorem Framed.fields_ok (h : Framed m entries parser m') (hfirst : m.startLine = some first) :
    FramingFields m.requestMethod first entries m'.framing m'.contentLength := by
  obtain ⟨hlengths, hnone, hcoding⟩ := Http1FramingParser.ofHeaders_ok h.parsed
  have hlength := h.contentLength
  have hbodyless : (∃ first, m.startLine = some first ∧ IsBodyless m.requestMethod first) →
      IsBodyless m.requestMethod first := by
    rintro ⟨first', hfirst', hb⟩
    rw [hfirst] at hfirst'
    cases hfirst'
    exact hb
  refine ⟨?_, ?_, ?_, ?_⟩
  · rw [hlength]
    exact hlengths
  · rw [hlength]
    rcases h.framing with ⟨-, -, ht, -⟩ | ⟨hf, -⟩ | ⟨-, -, -, hn, -⟩ | ⟨-, -, hb | ⟨-, hn⟩⟩ | ⟨-, -, hb⟩
    · exact .inl (h.exclusive.resolve_right (by simp [ht]))
    · exact .inr (.inl hf)
    · exact .inl hn
    · exact .inr (.inr (hbodyless hb))
    · exact .inl hn
    · exact .inr (.inr (hbodyless hb))
  · rcases h.exclusive with hn | ht
    · left
      by_contra hne
      obtain ⟨member, hmem⟩ := List.exists_mem_of_ne_nil _ hne
      obtain ⟨n, -, hsome⟩ := hlengths member hmem
      rw [hn] at hsome
      cases hsome
    · exact .inr (sectionCoding_none (hcoding.symm.trans ht))
  · rcases h.framing with ⟨hf, -, ht, hv⟩ | ⟨-, ht, -⟩ | ⟨-, -, ht, -⟩ | ⟨-, -, hb | ⟨ht, -⟩⟩ | ⟨-, -, hb⟩
    · obtain ⟨coding, hc, hlower⟩ := sectionCoding_chunked (hcoding.symm.trans ht)
      rw [hfirst] at hv
      exact .inr (.inr ⟨coding, hc, hlower, Option.some_inj.mp hv, hf⟩)
    · exact .inl (sectionCoding_none (hcoding.symm.trans ht))
    · exact .inl (sectionCoding_none (hcoding.symm.trans ht))
    · exact .inr (.inl (hbodyless hb))
    · exact .inl (sectionCoding_none (hcoding.symm.trans ht))
    · exact .inr (.inl (hbodyless hb))

/-- How far a body was read from the input after the head of its message, and what was told of it. -/
inductive BodyReading (input : List UInt8) (m : Http1Message) (rest : List UInt8) :
    List Http1DecodeEvent → Prop where
  | fixedBody (hs : m.state = .fixedBody) (hf : m.framing = .fixedLength)
      (hn : m.contentLength = some (body.length + m.bodyRemaining)) (hi : input = body ++ rest) :
      BodyReading input m rest (bytewise (.body body))
  | closeBody (hs : m.state = .closeBody) (hf : m.framing = .closeDelimited)
      (hn : m.contentLength = none) (hi : input = body ++ rest) :
      BodyReading input m rest (bytewise (.body body))
  | chunkLine (hs : m.state = .chunkLine) (hf : m.framing = .chunked) (hn : m.contentLength = none)
      (chunks : List Http1Chunk) (hi : input = chunks.flatMap (·.wire) ++ rest) :
      BodyReading input m rest (bytewise (.body (chunks.flatMap (·.data))))
  | chunkData (hs : m.state = .chunkData ∨ m.state = .chunkDataEnd ∧ m.bodyRemaining = 0)
      (hf : m.framing = .chunked) (hn : m.contentLength = none) (chunks : List Http1Chunk)
      (hsize : Http1FramingParser.chunkSize line = .ok (data.length + m.bodyRemaining))
      (hpos : data.length + m.bodyRemaining ≠ 0)
      (hi : input = chunks.flatMap (·.wire) ++ line ++ crlf ++ data ++ rest) :
      BodyReading input m rest (bytewise (.body (chunks.flatMap (·.data) ++ data)))
  | trailers (hs : m.state = .trailers) (hf : m.framing = .chunked) (hn : m.contentLength = none)
      (chunks : List Http1Chunk) (hlast : Http1FramingParser.chunkSize line = .ok 0)
      (ht : List.Forall₂ HeaderLine lines m.fields)
      (hi : input = chunks.flatMap (·.wire) ++ line ++ crlf ++ wireLines lines ++ rest) :
      BodyReading input m rest (bytewise (.body (chunks.flatMap (·.data))))
  | finished (hs : m.state = .completePending ∨ m.state = .opaquePending ∨ m.state = .complete ∨
        m.state = .opaqueData)
      (hw : BodyWire m.framing m.contentLength body wire) (hi : input = wire ++ rest)
      (htail : ∀ event ∈ tail, ∀ data, event ≠ .body data) :
      BodyReading input m rest (bytewise (.body body) ++ tail)

theorem wireLines_concat (lines : List (List UInt8)) (line : List UInt8) :
    wireLines (lines ++ [line]) = wireLines lines ++ (line ++ crlf) := by
  rw [wireLines, wireLines, List.flatMap_append, List.flatMap_singleton]

/-- The input before a line was taken, from the input after it. -/
theorem takeLine_drop (h : takeLine m input limit limitReason = .ok (some (line, n))) :
    input = line ++ (crlf ++ input.drop n) := by
  obtain ⟨⟨rest, rfl⟩, rfl, -, -⟩ := takeLine_some h
  rw [List.drop_append, List.drop_of_length_le (by omega), Nat.add_sub_cancel_left]
  rfl

theorem bytewise_append_byte (body : List UInt8) (byte : UInt8) :
    bytewise (.body body) ++ [.body [byte]] = bytewise (.body (body ++ [byte])) := by
  rw [bytewise, bytewise, List.map_append, List.map_singleton]

/-- In a body, a turn takes one byte, or it ends the body or the chunk. -/
theorem byteTurn_body {m : Http1Message} (hb : m.isBody)
    (ht : byteTurn m rest endOfInput = .move events m' n) :
    (∃ byte rest', rest = byte :: rest' ∧ events = [.body [byte]] ∧ m' = m.advance 1 ∧ n = 1 ∧
      (m.state = .closeBody ∨ 1 ≤ m.bodyRemaining)) ∨
    (events = [.complete] ∧ m' = { m with state := .complete } ∧ n = 0 ∧
      (m.state = .fixedBody ∧ m.bodyRemaining = 0 ∨ m.state = .closeBody ∧ rest = [])) ∨
    (events = [] ∧ m' = { m with state := .chunkDataEnd } ∧ n = 0 ∧ m.state = .chunkData ∧
      m.bodyRemaining = 0) := by
  obtain ⟨t, hmoves, ha, rfl⟩ := byteTurn_moves ht
  rw [if_pos hb] at hmoves
  cases hmoves with
  | wait => rcases ha with ⟨_, ha⟩ | ha <;> cases ha
  | startLine hst | field hst | head hst | lastChunk hst | chunk hst | chunkCrlf hst | trailer hst
  | trailers hst => simp [isBody, hst] at hb
  | completion hst => rcases hst with hst | hst <;> simp [isBody, hst] at hb
  | fixedEnd hst hr =>
    rcases ha with ⟨_, ha⟩ | ha <;> cases ha
    exact .inr (.inl ⟨rfl, rfl, rfl, .inl ⟨hst, hr⟩⟩)
  | closeEnd hst hi he =>
    rcases ha with ⟨_, ha⟩ | ha <;> cases ha
    refine .inr (.inl ⟨rfl, rfl, rfl, .inr ⟨hst, ?_⟩⟩)
    rw [List.take_eq_nil_iff] at hi
    exact hi.resolve_left (by decide)
  | chunkEnd hst hr =>
    rcases ha with ⟨_, ha⟩ | ha <;> cases ha
    exact .inr (.inr ⟨rfl, rfl, rfl, hst, hr⟩)
  | piece hst hr hi hn hacc =>
    rcases ha with ⟨_, ha⟩ | ha <;> cases ha
    obtain ⟨-, rfl⟩ := accountBody_ok hacc
    cases rest with
    | nil => exact absurd List.take_nil hi
    | cons byte rest =>
      obtain rfl : n = 1 := by
        rw [Http1CodecLimits.maximumBodyChunkLength] at hn
        simp at hn
        omega
      refine .inl ⟨byte, rest, rfl, rfl, ?_, rfl, .inr (by omega)⟩
      rw [advance, if_neg (by rcases hst with hst | hst <;> simp [hst])]
  | closePiece hst hi hn hacc =>
    rcases ha with ⟨_, ha⟩ | ha <;> cases ha
    obtain ⟨-, rfl⟩ := accountBody_ok hacc
    cases rest with
    | nil => exact absurd List.take_nil hi
    | cons byte rest =>
      obtain rfl : n = 1 := by rw [hn]; rfl
      refine .inl ⟨byte, rest, rfl, rfl, ?_, rfl, .inl hst⟩
      rw [advance, if_pos hst]

theorem complete_not_body (event : Http1DecodeEvent) (h : event ∈ [Http1DecodeEvent.complete])
    (data : List UInt8) : event ≠ .body data := by
  rw [List.mem_singleton.mp h]
  simp

/-- A turn reads on in the body. -/
theorem BodyReading.step {m : Http1Message} (h : BodyReading input m rest events)
    (ht : byteTurn m rest endOfInput = .move events' m' n) :
    BodyReading input m' (rest.drop n) (events ++ events') ∧ m'.framing = m.framing ∧
      m'.contentLength = m.contentLength := by
  cases h with
  | @fixedBody body hs hf hn hi =>
    rcases byteTurn_body (by simp [isBody, hs]) ht with ⟨byte, rest', rfl, rfl, rfl, rfl, hr⟩ |
      ⟨rfl, rfl, rfl, hend⟩ | ⟨-, -, -, hst, -⟩
    · have hr : 1 ≤ m.bodyRemaining := hr.resolve_left (by simp [hs])
      rw [bytewise_append_byte, advance, if_neg (by simp [hs])]
      refine ⟨.fixedBody hs hf ?_ ?_, rfl, rfl⟩
      · rw [hn, List.length_append, List.length_singleton]
        congr 1
        show _ = body.length + 1 + (m.bodyRemaining - 1)
        omega
      · rw [hi, List.append_assoc]
        rfl
    · have hr : m.bodyRemaining = 0 := by
        rcases hend with ⟨-, hr⟩ | ⟨hst, -⟩
        · exact hr
        · simp [hs] at hst
      rw [hr, Nat.add_zero] at hn
      refine ⟨.finished (.inr (.inr (.inl rfl))) ?_ hi complete_not_body, rfl, rfl⟩
      show BodyWire m.framing m.contentLength _ _
      rw [hf, hn]
      exact .fixedLength
    · simp [hs] at hst
  | @closeBody body hs hf hn hi =>
    rcases byteTurn_body (by simp [isBody, hs]) ht with ⟨byte, rest', rfl, rfl, rfl, rfl, -⟩ |
      ⟨rfl, rfl, rfl, hend⟩ | ⟨-, -, -, hst, -⟩
    · rw [bytewise_append_byte, advance, if_pos hs]
      refine ⟨.closeBody hs hf hn ?_, rfl, rfl⟩
      rw [hi, List.append_assoc]
      rfl
    · refine ⟨.finished (.inr (.inr (.inl rfl))) ?_ hi complete_not_body, rfl, rfl⟩
      show BodyWire m.framing m.contentLength _ _
      rw [hf, hn]
      exact .closeDelimited
    · simp [hs] at hst
  | chunkLine hs hf hn chunks hi =>
    obtain ⟨t, hmoves, ha, rfl⟩ := byteTurn_moves ht
    rw [if_neg (by simp [isBody, hs])] at hmoves
    cases hmoves with
    | wait => rcases ha with ⟨_, ha⟩ | ha <;> cases ha
    | startLine hst | field hst | head hst | fixedEnd hst | chunkEnd hst | chunkCrlf hst | trailer hst
    | trailers hst | closePiece hst | closeEnd hst => simp [hs] at hst
    | piece hst | completion hst => simp [hs] at hst
    | @lastChunk line _ hst hl hc =>
      rcases ha with ⟨_, ha⟩ | ha <;> cases ha
      rw [turnEvents, List.append_nil]
      have htrailers : List.Forall₂ HeaderLine [] [] := .nil
      refine ⟨.trailers ?_ ?_ ?_ chunks hc htrailers ?_, rfl, rfl⟩
      · rfl
      · exact hf
      · exact hn
      rw [hi, wireLines, List.flatMap_nil, List.append_nil, List.append_assoc, List.append_assoc]
      exact congrArg _ (takeLine_drop hl)
    | @chunk line _ value hst hl hc hv hm =>
      rcases ha with ⟨_, ha⟩ | ha <;> cases ha
      rw [turnEvents, List.append_nil, ← List.append_nil (chunks.flatMap (·.data))]
      have hsize : Http1FramingParser.chunkSize line = .ok (([] : List UInt8).length + value) := by
        rw [List.length_nil, Nat.zero_add]
        exact hc
      have hpos : ([] : List UInt8).length + value ≠ 0 := by
        rw [List.length_nil, Nat.zero_add]
        exact hv
      refine ⟨.chunkData (.inl ?_) ?_ ?_ chunks hsize hpos ?_, rfl, rfl⟩
      · rfl
      · exact hf
      · exact hn
      · rw [hi, List.append_nil, List.append_assoc, List.append_assoc]
        exact congrArg _ (takeLine_drop hl)
  | @chunkData line data hs hf hn chunks hsize hpos hi =>
    rcases hs with hs | ⟨hs, hr⟩
    · rcases byteTurn_body (by simp [isBody, hs]) ht with ⟨byte, rest', rfl, rfl, rfl, rfl, hr⟩ |
        ⟨-, -, -, ⟨hst, -⟩ | ⟨hst, -⟩⟩ | ⟨rfl, rfl, rfl, -, hr⟩
      · have hr : 1 ≤ m.bodyRemaining := hr.resolve_left (by simp [hs])
        have hlength : (data ++ [byte]).length + (m.bodyRemaining - 1) =
            data.length + m.bodyRemaining := by
          rw [List.length_append, List.length_singleton]
          omega
        rw [bytewise_append_byte, advance, if_neg (by simp [hs]), List.append_assoc]
        rw [← hlength] at hsize hpos
        refine ⟨.chunkData (.inl ?_) ?_ ?_ chunks hsize hpos ?_, rfl, rfl⟩
        · exact hs
        · exact hf
        · exact hn
        · rw [hi]
          simp
      · simp [hs] at hst
      · simp [hs] at hst
      · rw [List.append_nil]
        refine ⟨.chunkData (.inr ?_) ?_ ?_ chunks hsize hpos hi, rfl, rfl⟩
        · exact ⟨rfl, hr⟩
        · exact hf
        · exact hn
    · obtain ⟨t, hmoves, ha, rfl⟩ := byteTurn_moves ht
      rw [if_neg (by simp [isBody, hs])] at hmoves
      cases hmoves with
      | wait => rcases ha with ⟨_, ha⟩ | ha <;> cases ha
      | startLine hst | field hst | head hst | fixedEnd hst | lastChunk hst | chunk hst | chunkEnd hst
      | trailer hst | trailers hst | closePiece hst | closeEnd hst => simp [hs] at hst
      | piece hst | completion hst => simp [hs] at hst
      | chunkCrlf hst hrest =>
        rcases ha with ⟨_, ha⟩ | ha <;> cases ha
        rw [hr, Nat.add_zero] at hsize hpos
        have hne : data ≠ [] := fun hnil => hpos (by rw [hnil]; rfl)
        rw [turnEvents, List.append_nil]
        have hinput : input =
            (chunks ++ [(⟨line, data, hsize, hne⟩ : Http1Chunk)]).flatMap (·.wire) ++ rest.drop 2 := by
          rw [hi, hrest, List.flatMap_append, List.flatMap_singleton]
          simp [Http1Chunk.wire, crlf]
        have hchunks := BodyReading.chunkLine (m := { m with state := .chunkLine }) rfl hf hn _ hinput
        rw [List.flatMap_append, List.flatMap_singleton] at hchunks
        exact ⟨hchunks, rfl, rfl⟩
  | @trailers line lines hs hf hn chunks hlast htrailers hi =>
    obtain ⟨t, hmoves, ha, rfl⟩ := byteTurn_moves ht
    rw [if_neg (by simp [isBody, hs])] at hmoves
    cases hmoves with
    | wait => rcases ha with ⟨_, ha⟩ | ha <;> cases ha
    | startLine hst | field hst | head hst | fixedEnd hst | lastChunk hst | chunk hst | chunkEnd hst
    | chunkCrlf hst | closePiece hst | closeEnd hst => simp [hs] at hst
    | piece hst | completion hst => simp [hs] at hst
    | @trailer line' _ _ _ hst hl hp =>
      rcases ha with ⟨_, ha⟩ | ha <;> cases ha
      rw [turnEvents, List.append_nil]
      have htrailers' := List.rel_append htrailers (.cons (parseFieldLine_ok hp).1 .nil)
      refine ⟨.trailers ?_ ?_ ?_ chunks hlast htrailers' ?_, rfl, rfl⟩
      · exact hs
      · exact hf
      · exact hn
      · rw [hi, wireLines_concat, ← List.append_assoc _ (wireLines lines) (line' ++ crlf),
          List.append_assoc _ (line' ++ crlf) (rest.drop n), List.append_assoc line']
        exact congrArg _ (takeLine_drop hl)
    | trailers hst hl hfinish =>
      rcases ha with ⟨_, ha⟩ | ha <;> cases ha
      obtain ⟨-, rfl⟩ := finishFields_ok hfinish
      have hwire : BodyWire m.framing m.contentLength (chunks.flatMap (·.data))
          (chunks.flatMap (·.wire) ++ line ++ crlf ++ wireLines lines ++ crlf) := by
        rw [hf, hn]
        exact .chunked chunks hlast htrailers
      refine ⟨.finished (.inl rfl) hwire ?_ ?_, rfl, rfl⟩
      · rw [hi, List.append_assoc _ crlf (rest.drop n)]
        exact congrArg _ (takeLine_drop hl)
      · intro event he
        rw [turnEvents, List.mem_singleton] at he
        simp [he]
  | @finished body wire tail hs hw hi htail =>
    obtain ⟨t, hmoves, ha, rfl⟩ := byteTurn_moves ht
    have hb : m.isBody = false := by
      rcases hs with hs | hs | hs | hs <;> simp [isBody, hs]
    rw [hb] at hmoves
    cases hmoves with
    | wait => rcases ha with ⟨_, ha⟩ | ha <;> cases ha
    | startLine hst | field hst | head hst | fixedEnd hst | lastChunk hst | chunk hst | chunkEnd hst
    | chunkCrlf hst | trailer hst | trailers hst | closePiece hst | closeEnd hst => simp [hst] at hs
    | piece hst => rcases hst with hst | hst <;> simp [hst] at hs
    | completion hst =>
      rcases ha with ⟨_, ha⟩ | ha <;> cases ha
      rw [List.append_assoc]
      refine ⟨.finished ?_ hw hi fun event he => ?_, rfl, rfl⟩
      · rcases hst with hst | hst <;> simp [hst]
      · rcases List.mem_append.mp he with he | he
        · exact htail event he
        · exact complete_not_body event he

/-- How far a message was read from a stream, and what was told of it. -/
inductive MessageReading (requestMethod : Option HttpMethod) (stream : List UInt8) (m : Http1Message)
    (rest : List UInt8) : List Http1DecodeEvent → Prop where
  | start (hs : m.state = .startLine) (hm : m.requestMethod = requestMethod) (hf : m.fields = [])
      (hi : stream = rest) : MessageReading requestMethod stream m rest []
  | headers (hs : m.state = .headers) (hm : m.requestMethod = requestMethod)
      (hl : List.Forall₂ HeaderLine lines m.fields)
      (hi : stream = line ++ crlf ++ wireLines lines ++ rest) :
      MessageReading requestMethod stream m rest []
  | body (hl : List.Forall₂ HeaderLine lines headers.fields)
      (hf : FramingFields requestMethod first headers.fields m.framing m.contentLength)
      (hi : stream = line ++ crlf ++ wireLines lines ++ crlf ++ input)
      (hb : BodyReading input m rest events) :
      MessageReading requestMethod stream m rest
        (headEvent first headers m.framing m.contentLength :: events)

/-- After the head nothing of the body was read. -/
theorem Framed.bodyReading (h : Framed m entries parser m') (input : List UInt8) :
    BodyReading input m' input [] := by
  have hlength := h.contentLength
  have hfinished : (m'.state = .completePending ∨ m'.state = .opaquePending) →
      BodyWire m'.framing m'.contentLength [] [] → BodyReading input m' input [] := by
    intro hs hw
    have hreading := BodyReading.finished (hs.imp_right .inl) hw (show input = [] ++ input from rfl)
      (fun event (he : event ∈ ([] : List Http1DecodeEvent)) => by cases he)
    exact hreading
  rcases h.framing with ⟨hf, hs, ht, -⟩ | ⟨hf, -, hn, hs⟩ | ⟨hf, hs, -, hn, -⟩ | ⟨hf, hs, -⟩ |
    ⟨hf, hs, -⟩
  · have hnone := h.exclusive.resolve_right (by simp [ht])
    exact .chunkLine hs hf (hlength.trans hnone) [] rfl
  · rw [hn] at hlength
    by_cases hz : m'.bodyRemaining = 0
    · rw [if_pos hz] at hs
      rw [hz] at hlength
      refine hfinished (.inl hs) ?_
      have hwire : BodyWire .fixedLength (some ([] : List UInt8).length) [] [] := .fixedLength
      rw [hf, hlength]
      exact hwire
    · rw [if_neg hz] at hs
      have hn' : m'.contentLength = some (([] : List UInt8).length + m'.bodyRemaining) := by
        rw [hlength, List.length_nil, Nat.zero_add]
      exact .fixedBody hs hf hn' rfl
  · exact .closeBody hs hf (hlength.trans hn) (show input = [] ++ input from rfl)
  · refine hfinished (.inl hs) ?_
    rw [hf]
    exact .none
  · refine hfinished (.inr hs) ?_
    rw [hf]
    exact .opaqueData

theorem BodyReading.state (h : BodyReading input m rest events) :
    m.state ≠ .startLine ∧ m.state ≠ .headers := by
  cases h with
  | fixedBody hs | closeBody hs | chunkLine hs | trailers hs => simp [hs]
  | chunkData hs => rcases hs with hs | ⟨hs, -⟩ <;> simp [hs]
  | finished hs => rcases hs with hs | hs | hs | hs <;> simp [hs]

/-- A turn reads on in the message. -/
theorem MessageReading.step {m : Http1Message} {method : Option HttpMethod}
    (h : MessageReading method stream m rest events)
    (ht : byteTurn m rest endOfInput = .move events' m' n) :
    MessageReading method stream m' (rest.drop n) (events ++ events') := by
  cases h with
  | start hs hm hf hi =>
    obtain ⟨t, hmoves, ha, rfl⟩ := byteTurn_moves ht
    rw [if_neg (by simp [isBody, hs])] at hmoves
    cases hmoves with
    | wait => rcases ha with ⟨_, ha⟩ | ha <;> cases ha
    | field hst | head hst | fixedEnd hst | lastChunk hst | chunk hst | chunkEnd hst | chunkCrlf hst
    | trailer hst | trailers hst | closePiece hst | closeEnd hst => simp [hs] at hst
    | piece hst | completion hst => simp [hs] at hst
    | @startLine line _ _ hst hl hp =>
      rcases ha with ⟨_, ha⟩ | ha <;> cases ha
      have hlines : List.Forall₂ HeaderLine [] m.fields := by
        rw [hf]
        exact .nil
      have hstream : stream = line ++ crlf ++ wireLines [] ++ rest.drop n := by
        rw [wireLines, List.flatMap_nil, List.append_nil, List.append_assoc, hi]
        exact takeLine_drop hl
      exact .headers rfl hm hlines hstream
  | @headers lines line hs hm hfields hi =>
    obtain ⟨t, hmoves, ha, rfl⟩ := byteTurn_moves ht
    rw [if_neg (by simp [isBody, hs])] at hmoves
    cases hmoves with
    | wait => rcases ha with ⟨_, ha⟩ | ha <;> cases ha
    | startLine hst | fixedEnd hst | lastChunk hst | chunk hst | chunkEnd hst | chunkCrlf hst
    | trailer hst | trailers hst | closePiece hst | closeEnd hst => simp [hs] at hst
    | piece hst | completion hst => simp [hs] at hst
    | @field line' _ _ _ hst hl hp =>
      rcases ha with ⟨_, ha⟩ | ha <;> cases ha
      have hlines := List.rel_append hfields (.cons (parseFieldLine_ok hp).1 .nil)
      have hstream : stream = line ++ crlf ++ wireLines (lines ++ [line']) ++ rest.drop n := by
        rw [hi, wireLines_concat, ← List.append_assoc _ (wireLines lines) (line' ++ crlf),
          List.append_assoc _ (line' ++ crlf) (rest.drop n), List.append_assoc line']
        exact congrArg _ (takeLine_drop hl)
      exact .headers hs hm hlines hstream
    | head hst hl hfinish hh =>
      rcases ha with ⟨_, ha⟩ | ha <;> cases ha
      obtain ⟨hentries, rfl⟩ := finishFields_ok hfinish
      obtain ⟨first, parser, hfirst, hframed, rfl⟩ := selectFraming_ok hh
      have hlines : List.Forall₂ HeaderLine lines _ := hentries ▸ hfields
      have hstream : stream = line ++ crlf ++ wireLines lines ++ crlf ++ rest.drop n := by
        rw [hi, List.append_assoc _ crlf (rest.drop n)]
        exact congrArg _ (takeLine_drop hl)
      refine .body hlines ?_ hstream (hframed.bodyReading _)
      rw [← hm]
      exact hframed.fields_ok hfirst
  | body hl hf hi hb =>
    obtain ⟨hb', hframing, hlength⟩ := hb.step ht
    rw [List.cons_append, ← hframing, ← hlength]
    rw [← hframing, ← hlength] at hf
    exact .body hl hf hi hb'

end Http1Message

namespace Http1DecodeEvent

/-- The part of a body that an event brings. -/
def data : Http1DecodeEvent → List UInt8
  | .body data => data
  | _ => []

/-- The body that events bring. -/
def delivered (events : List Http1DecodeEvent) : List UInt8 := events.flatMap data

theorem delivered_append (events events' : List Http1DecodeEvent) :
    delivered (events ++ events') = delivered events ++ delivered events' := by
  rw [delivered, List.flatMap_append]
  rfl

theorem delivered_bytewise_body (body : List UInt8) : delivered (bytewise (.body body)) = body := by
  rw [delivered, bytewise, List.flatMap_map]
  simp [data]

theorem delivered_bytewise (events : List Http1DecodeEvent) :
    delivered (events.flatMap bytewise) = delivered events := by
  induction events with
  | nil => rfl
  | cons event events ih =>
    rw [List.flatMap_cons, delivered_append, ih, ← List.singleton_append, delivered_append]
    congr 1
    cases event with
    | body data => rw [delivered_bytewise_body, delivered, List.flatMap_singleton]; rfl
    | requestHead | responseHead | trailers | complete => rfl

theorem delivered_nothing (h : ∀ event ∈ events, ∀ data, event ≠ .body data) : delivered events = [] := by
  rw [delivered, List.flatMap_eq_nil_iff]
  intro event he
  cases event with
  | body data => exact absurd rfl (h _ he data)
  | requestHead | responseHead | trailers | complete => rfl

end Http1DecodeEvent

namespace Http1Message
open Http1DecodeEvent (bytewise delivered)

/-- The decoder counts the bytes of the body that it delivers. -/
theorem byteTurn_delivered {m : Http1Message}
    (ht : byteTurn m rest endOfInput = .move events m' n) :
    m'.bodyDecoded = m.bodyDecoded + (delivered events).length := by
  by_cases hb : m.isBody
  · rcases byteTurn_body hb ht with ⟨byte, rest', rfl, rfl, rfl, rfl, -⟩ | ⟨rfl, rfl, -⟩ |
      ⟨rfl, rfl, -⟩
    · exact advance_bodyDecoded m 1
    · rfl
    · rfl
  · obtain ⟨t, hmoves, ha, rfl⟩ := byteTurn_moves ht
    cases hmoves with
    | wait => rcases ha with ⟨_, ha⟩ | ha <;> cases ha
    | startLine | field | lastChunk | chunk | chunkCrlf | trailer | completion =>
      rcases ha with ⟨_, ha⟩ | ha <;> cases ha
      rfl
    | fixedEnd hst | chunkEnd hst | closePiece hst | closeEnd hst => simp [isBody, hst] at hb
    | piece hst => rcases hst with hst | hst <;> simp [isBody, hst] at hb
    | trailers hst hl hfinish =>
      rcases ha with ⟨_, ha⟩ | ha <;> cases ha
      obtain ⟨-, rfl⟩ := finishFields_ok hfinish
      rfl
    | head hst hl hfinish hh =>
      rcases ha with ⟨_, ha⟩ | ha <;> cases ha
      obtain ⟨-, rfl⟩ := finishFields_ok hfinish
      obtain ⟨first, parser, -, hframed, rfl⟩ := selectFraming_ok hh
      rw [hframed.bodyDecoded]
      cases first <;> rfl

/-- What a reading from the start of a message tells of the stream. -/
theorem reaches_reading {m : Http1Message} (hs : m.state = .startLine) (hf : m.fields = [])
    (hd : m.bodyDecoded = 0) (h : Reaches byteTurn ended m stream events m' rest) :
    MessageReading m.requestMethod stream m' rest events ∧
      (delivered events).length = m'.bodyDecoded := by
  refine h.accumulates (I := fun acc m' x => MessageReading m.requestMethod stream m' x acc ∧
    (delivered acc).length = m'.bodyDecoded) ?_ [] ⟨.start hs rfl hf rfl, hd.symm⟩
  intro acc s x es s' n ⟨hreading, hlength⟩ ht
  refine ⟨hreading.step ht, ?_⟩
  rw [Http1DecodeEvent.delivered_append, List.length_append, hlength, byteTurn_delivered ht]

end Http1Message

namespace Http1Feeding
open Http1DecodeEvent (bytewise delivered)
open Http1Message (headEvent)

/-- A message that is accepted has a header section that leaves no doubt about its body. -/
structure Accepted (requestMethod : Option HttpMethod) (limits : Http1CodecLimits) (stream : List UInt8)
    (f : Http1Feeding) (first : Http1StartLine) (headers : HttpHeaders) (framing : Http1BodyFraming)
    (contentLength : Option Nat) : Prop where
  told : headEvent first headers framing contentLength ∈ f.events
  stream_eq : ∃ line lines wire,
    stream = line ++ crlf ++ wireLines lines ++ crlf ++ wire ++ f.rest ∧
    List.Forall₂ HeaderLine lines headers.fields ∧
    BodyWire framing contentLength (delivered f.events) wire
  fields : FramingFields requestMethod first headers.fields framing contentLength
  bodyLength_le : (delivered f.events).length ≤ limits.maximumBodyLength.toNat

theorem headEvent_bytewise (first : Http1StartLine) (headers : HttpHeaders) (framing : Http1BodyFraming)
    (contentLength : Option Nat) (h : headEvent first headers framing contentLength ∈ bytewise event) :
    event = headEvent first headers framing contentLength := by
  cases event with
  | body data =>
    obtain ⟨byte, -, hbyte⟩ := List.mem_map.mp h
    cases first <;> cases hbyte
  | requestHead | responseHead | trailers | complete => exact (List.mem_singleton.mp h).symm

theorem Accepted.of_reading (hsound : m.Sound) (hlimits : m.limits = limits)
    (hm : m.state = .complete ∨ m.state = .opaqueData)
    (h : Http1Message.MessageReading method stream m (rest f) (f.events.flatMap bytewise))
    (hlength : (delivered (f.events.flatMap bytewise)).length = m.bodyDecoded) :
    ∃ first headers framing contentLength,
      Accepted method limits stream f first headers framing contentLength := by
  generalize hevents : f.events.flatMap bytewise = events at h hlength
  cases h with
  | start hs | headers hs => simp [hs] at hm
  | @body lines first line input told headers hl hf hi hb =>
    have hmem : headEvent first headers m.framing m.contentLength ∈ f.events := by
      have hhead : headEvent first headers m.framing m.contentLength ∈ f.events.flatMap bytewise := by
        rw [hevents]
        exact List.mem_cons_self ..
      obtain ⟨event, he, hevent⟩ := List.mem_flatMap.mp hhead
      exact headEvent_bytewise first headers _ _ hevent ▸ he
    have hhead : delivered [headEvent first headers m.framing m.contentLength] = [] := by
      cases first <;> rfl
    have hdelivered : delivered f.events = delivered told := by
      rw [← Http1DecodeEvent.delivered_bytewise, hevents, ← List.singleton_append,
        Http1DecodeEvent.delivered_append, hhead, List.nil_append]
    have hdecoded := hsound.decoded_le
    rw [← hevents, Http1DecodeEvent.delivered_bytewise] at hlength
    refine ⟨first, headers, m.framing, m.contentLength, hmem, ?_, hf, by rw [← hlimits]; omega⟩
    cases hb with
    | fixedBody hs | closeBody hs | chunkLine hs | trailers hs => simp [hs] at hm
    | chunkData hs => rcases hs with hs | ⟨hs, -⟩ <;> simp [hs] at hm
    | @finished body wire tail hs hw hi' htail =>
      rw [Http1DecodeEvent.delivered_append, Http1DecodeEvent.delivered_bytewise_body,
        Http1DecodeEvent.delivered_nothing htail, List.append_nil] at hdelivered
      refine ⟨line, lines, wire, ?_, hl, hdelivered ▸ hw⟩
      rw [hi, hi', ← List.append_assoc]

/-- Whatever a decoder accepts as a message, and however it is fed, has one framing of its body. -/
theorem accepted_framing (role : Http1Role) (limits : Http1CodecLimits)
    (requestMethod : Option HttpMethod) (stream : List UInt8) (ended : Bool) (calls : List Http1Call)
    (hc : ((start role limits requestMethod stream).run ended calls).decoder.isComplete = true) :
    ∃ first headers framing contentLength,
      Accepted requestMethod limits stream ((start role limits requestMethod stream).run ended calls)
        first headers framing contentLength := by
  have hfirst := start_sound role limits requestMethod stream
  have hfollows := (start_follows ended role limits requestMethod stream).run hfirst calls
  have hcomplete := hc
  simp only [Http1Decoder.isComplete, decide_eq_true_eq] at hcomplete
  have hr := hfollows.reads (by rcases hcomplete with hs | hs <;> simp [hs])
  obtain ⟨hreading, hlength⟩ := Http1Message.reaches_reading rfl rfl rfl hr
  exact Accepted.of_reading (hr.preserves (fun _ _ _ _ _ => Http1Message.byteTurn_steady.keeps _ _ _ _ _ _) hfirst)
    (Http1Message.reaches_limits hfirst hr) hcomplete hreading hlength

/-- Two equal lengths in a list, and again in another field. -/
theorem accepted_framing_repeated :
    let stream := U8String.ofLiteral
      "POST / HTTP/1.1\r\nContent-Length: 3, 03\r\ncontent-length:3 \r\n\r\nabcGET"
    let f := (start .request { maximumInputLength := 128 } none stream).run false
      [.feed 128, .next, .next, .next]
    f.decoder.isComplete = true ∧ ∃ first headers framing contentLength,
      Accepted none { maximumInputLength := 128 } stream f first headers framing contentLength := by
  intro stream f
  have hc : f.decoder.isComplete = true := by decide +kernel
  exact ⟨hc, accepted_framing .request { maximumInputLength := 128 } none stream false _ hc⟩

/-- The codings of the head of a response. -/
def codingsOf : Http1DecodeEvent → List (List Nat)
  | .responseHead head _ _ => membersOf .transferEncoding head.headers.fields
  | _ => []

/-- The codings of a response without a body are ignored. -/
theorem accepted_unsupported_coding :
    let head : HttpMethod := ⟨U8String.ofLiteral "HEAD", by decide +kernel⟩
    let stream := U8String.ofLiteral "HTTP/1.1 200 OK\r\nTransfer-Encoding: gzip\r\n\r\n"
    let f := (start .response { maximumInputLength := 128 } (some head) stream).run false
      [.feed 128, .next, .next]
    f.decoder.isComplete = true ∧
      f.events.map codingsOf = [[Utf8.characters (U8String.ofLiteral "gzip")], []] := by
  decide +kernel

end Http1Feeding
end ErbslandCore.Network
