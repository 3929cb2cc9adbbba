import ErbslandCore.Network.Http.Http1ByteTurn

namespace ErbslandCore.Network
open Library Library.Incremental Mem Text
set_option autoImplicit true

namespace Http1DecodeEvent

/-- A piece of a body, before events whose first one may go on with it. -/
def consBody (data : List UInt8) : List Http1DecodeEvent → List Http1DecodeEvent
  | .body data' :: events => .body (data ++ data') :: events
  | events => .body data :: events

/-- The events with adjacent pieces of a body in one. -/
def mergeBodies : List Http1DecodeEvent → List Http1DecodeEvent
  | .body data :: events => consBody data (mergeBodies events)
  | event :: events => event :: mergeBodies events
  | [] => []

theorem consBody_consBody (byte : UInt8) (data : List UInt8) (events : List Http1DecodeEvent) :
    consBody [byte] (consBody data events) = consBody (byte :: data) events := by
  match events with
  | [] => rfl
  | .body _ :: _ => rfl
  | .requestHead _ _ _ :: _ | .responseHead _ _ _ :: _ | .trailers _ :: _ | .complete :: _ => rfl

theorem mergeBodies_bytes : ∀ (data : List UInt8) (events : List Http1DecodeEvent), data ≠ [] →
    mergeBodies (bytewise (.body data) ++ events) = consBody data (mergeBodies events)
  | [_], _, _ => rfl
  | byte :: byte' :: data, events, _ => by
    have ih := mergeBodies_bytes (byte' :: data) events (List.cons_ne_nil _ _)
    rw [← consBody_consBody, ← ih]
    rfl

/-- Merging takes no notice of how a body was cut into pieces. -/
theorem mergeBodies_bytewise (h : ∀ event ∈ events, event ≠ .body []) :
    mergeBodies (events.flatMap bytewise) = mergeBodies events := by
  induction events with
  | nil => rfl
  | cons event events ih =>
    have ih := ih fun event he => h event (List.mem_cons_of_mem _ he)
    rw [List.flatMap_cons]
    cases event with
    | body data =>
      have hne : data ≠ [] := fun hd => h _ (List.mem_cons_self ..) (by rw [hd])
      rw [mergeBodies_bytes _ _ hne, ih]
      rfl
    | requestHead | responseHead | trailers | complete =>
      show _ :: mergeBodies (events.flatMap bytewise) = _ :: mergeBodies events
      rw [ih]

end Http1DecodeEvent

/-- A decoder in use: the part of the stream that it was not fed yet, and the events it gave. -/
structure Http1Feeding where
  decoder : Http1Decoder
  unread : List UInt8
  events : List Http1DecodeEvent := []
  waiting : Bool := false
  deriving DecidableEq

/-- A call of the decoder. -/
inductive Http1Call where
  | feed (length : Nat)
  | next
  | endOfInput
  deriving DecidableEq

namespace Http1Feeding
open Http1DecodeEvent (bytewise mergeBodies)

def start (role : Http1Role) (limits : Http1CodecLimits) (requestMethod : Option HttpMethod)
    (stream : List UInt8) : Http1Feeding where
  decoder := .new role limits requestMethod
  unread := stream

/-- One call. The end of the input is told once, when the stream ends and nothing of it is left. -/
def step (ended : Bool) (f : Http1Feeding) : Http1Call → Http1Feeding
  | .feed length => match f.decoder.feed (f.unread.take length) with
    | (.accepted, d) => { f with decoder := d, unread := f.unread.drop length, waiting := false }
    | (_, d) => { f with decoder := d }
  | .next => match f.decoder.next with
    | (.ok (some event), d) => { f with decoder := d, events := f.events ++ [event], waiting := false }
    | (.ok none, d) => { f with decoder := d, waiting := true }
    | (.error _, d) => { f with decoder := d, waiting := false }
  | .endOfInput =>
    if ended ∧ f.unread = [] ∧ f.decoder.endOfInput = false then
      match f.decoder.signalEndOfInput with
      | .ok d => { f with decoder := d, waiting := false }
      | .error _ => f
    else f

def run (ended : Bool) (calls : List Http1Call) (f : Http1Feeding) : Http1Feeding :=
  calls.foldl (step ended) f

def hasFailed (f : Http1Feeding) : Bool := f.decoder.message.state = .failed

/-- The part of the stream that is not consumed. -/
def rest (f : Http1Feeding) : List UInt8 := f.decoder.input.contents ++ f.unread

/-- The message is complete, or it failed, or the whole stream is of no more use. -/
def Finished (ended : Bool) (f : Http1Feeding) : Prop :=
  f.decoder.isComplete ∨ f.hasFailed ∨
    f.unread = [] ∧ f.decoder.endOfInput = ended ∧ f.waiting

instance (ended : Bool) (f : Http1Feeding) : Decidable (f.Finished ended) := by
  unfold Finished
  infer_instance

end Http1Feeding

namespace Http1Message
open Http1DecodeEvent (bytewise)

/-- A bound on the turns without an event. -/
def turnsLeft (m : Http1Message) (input : List UInt8) : Nat :=
  2 * input.length + if m.state = .chunkData then 1 else 0

theorem takeLine_consumed {m : Http1Message}
    (h : m.takeLine input limit limitReason = .ok (some (line, n))) : 2 ≤ n ∧ n ≤ input.length := by
  obtain ⟨⟨rest, rfl⟩, rfl, -, -⟩ := takeLine_some h
  simp

/-- A turn without an event comes closer to one that waits. -/
theorem Moves.again_lt (h : Moves m input endOfInput (.again m' n)) :
    n ≤ input.length ∧ turnsLeft m' (input.drop n) < turnsLeft m input := by
  generalize ht : Http1Turn.again m' n = t at h
  cases h with
  | wait | head | fixedEnd | piece | trailers | closePiece | closeEnd | completion => cases ht
  | startLine hs hl | field hs hl | lastChunk hs hl | chunk hs hl | trailer hs hl =>
    cases ht
    have hn := takeLine_consumed hl
    refine ⟨hn.2, ?_⟩
    simp only [turnsLeft, hs, List.length_drop, reduceCtorEq, if_false, if_true]
    omega
  | chunkEnd hs hr =>
    cases ht
    refine ⟨Nat.zero_le _, ?_⟩
    simp [turnsLeft, hs]
  | chunkCrlf hs hi =>
    cases ht
    refine ⟨by simp [hi], ?_⟩
    simp only [turnsLeft, hs, hi, List.length_drop, List.length_cons, reduceCtorEq, if_false]
    omega

theorem Moves.emit_consumed (h : Moves m input endOfInput (.emit event m' n)) :
    n ≤ input.length ∧ event ≠ .body [] := by
  generalize ht : Http1Turn.emit event m' n = t at h
  cases h with
  | wait | startLine | field | lastChunk | chunk | chunkEnd | chunkCrlf | trailer => cases ht
  | head hs hl hf hh =>
    cases ht
    obtain ⟨first, parser, -, -, rfl⟩ := selectFraming_ok hh
    refine ⟨takeLine_length hl, ?_⟩
    cases first <;> simp [headEvent]
  | fixedEnd | closeEnd | completion =>
    cases ht
    exact ⟨Nat.zero_le _, by simp⟩
  | piece hs hr hi hn ha =>
    cases ht
    have hpos : 0 < input.length := List.length_pos_iff.mpr hi
    rw [Http1CodecLimits.maximumBodyChunkLength] at hn
    refine ⟨by omega, fun he => ?_⟩
    injection he with he
    have hlength := congrArg List.length he
    rw [List.length_take, List.length_nil] at hlength
    omega
  | trailers hs hl hf =>
    cases ht
    exact ⟨takeLine_length hl, by simp⟩
  | closePiece hs hi hn ha =>
    cases ht
    have hpos : 0 < input.length := List.length_pos_iff.mpr hi
    rw [Http1CodecLimits.maximumBodyChunkLength] at hn
    refine ⟨by omega, fun he => ?_⟩
    injection he with he
    have hlength := congrArg List.length he
    rw [List.length_take, List.length_nil] at hlength
    omega

theorem takenByFailure_le (m : Http1Message) (input : List UInt8) :
    m.takenByFailure input ≤ input.length := by
  have hline : ∀ limit limitReason, lineTaken (m.takeLine input limit limitReason) ≤ input.length := by
    intro limit limitReason
    match h : m.takeLine input limit limitReason with
    | .ok (some (_, n)) => exact takeLine_length h
    | .ok none | .error _ => exact Nat.zero_le _
  rw [takenByFailure]
  split
  case h_5 => exact Nat.zero_le _
  all_goals exact hline _ _

/-- How a reading fails, and the input that a decoder then leaves. -/
def Fails (m : Http1Message) (input rest : List UInt8) (ended : Bool) : Prop :=
  (m.state ≠ .closeBody ∧ byteTurn m input ended = .fail ∧
    rest = input.drop (m.takenByFailure input)) ∨
  (m.state = .closeBody ∧ m.limits.maximumBodyLength.toNat < m.bodyDecoded + input.length ∧
    rest = input)

end Http1Message

namespace Http1Decoder
open Http1DecodeEvent (bytewise)
open Http1Message (byteTurn byteTurn_steady)

/-- What a call of `next` can do, in terms of the bytewise reading of the whole stream. -/
inductive NextOutcome (ended : Bool) (d : Http1Decoder) (unread : List UInt8) :
    Except Http1Error (Option Http1DecodeEvent) × Http1Decoder → Prop where
  | event
      (hr : Reaches byteTurn ended d.message (d.input.contents ++ unread) (bytewise event)
        d'.message (d'.input.contents ++ unread))
      (he : d'.endOfInput = d.endOfInput) (hu : d'.message.state ≠ .failed) (hne : event ≠ .body []) :
      NextOutcome ended d unread (.ok (some event), d')
  | nothing
      (hr : Reaches byteTurn ended d.message (d.input.contents ++ unread) []
        d'.message (d'.input.contents ++ unread))
      (he : d'.endOfInput = d.endOfInput) (hu : d'.message.state ≠ .failed)
      (hw : byteTurn d'.message d'.input.contents d'.endOfInput = .wait) :
      NextOutcome ended d unread (.ok none, d')
  | failure
      (hr : Reaches byteTurn ended d.message (d.input.contents ++ unread) [] m x)
      (he : d'.endOfInput = d.endOfInput) (hu : d'.message.state = .failed)
      (hf : m.limits.HasFiniteLines → m.Fails x (d'.input.contents ++ unread) ended) :
      NextOutcome ended d unread (.error e, d')

theorem NextOutcome.after
    (h : Reaches byteTurn ended d.message (d.input.contents ++ unread) []
      d₁.message (d₁.input.contents ++ unread))
    (hd : d₁.endOfInput = d.endOfInput) (hr : NextOutcome ended d₁ unread r) :
    NextOutcome ended d unread r := by
  cases hr with
  | event hr he hu hne => exact .event (h.trans hr) (he.trans hd) hu hne
  | nothing hr he hu hw => exact .nothing (h.trans hr) (he.trans hd) hu hw
  | failure hr he hu hf => exact .failure (h.trans hr) (he.trans hd) hu hf

/-- Consumed input is gone from the whole stream. -/
theorem advance_input {d : Http1Decoder} (unread : List UInt8) (hn : n ≤ d.input.contents.length) :
    ∃ input, d.input.consumeRead n = some input ∧
      input.contents ++ unread = (d.input.contents ++ unread).drop n ∧
      input.contents = d.input.contents.drop n := by
  rw [RingBuffer.length_contents] at hn
  obtain ⟨input, hinput, hcontents, -⟩ := d.input.contents_consumeRead hn
  refine ⟨input, hinput, ?_, hcontents⟩
  rw [hcontents, List.drop_append_of_le_length (by rwa [RingBuffer.length_contents])]

theorem failed_outcome {d : Http1Decoder} (hs : d.message.Sound)
    (heof : d.endOfInput = true → unread = [] ∧ ended = true)
    (hturn : d.message.turn d.input.contents d.endOfInput = .error e) :
    NextOutcome ended d unread (.error e, d.failed) := by
  refine .failure .refl rfl rfl fun hfinite => ?_
  have htaken : d.message.takenByFailure (d.input.contents ++ unread) =
      d.message.takenByFailure d.input.contents := by
    cases he : d.endOfInput with
    | false =>
      rw [he] at hturn
      exact Http1Message.takenByFailure_append hfinite hturn unread
    | true => rw [(heof he).1, List.append_nil]
  obtain ⟨input, hinput, hrest, -⟩ :=
    advance_input unread (Http1Message.takenByFailure_le d.message d.input.contents)
  have hfailed : d.failed.input = input := by
    rw [failed, hinput]
    rfl
  rcases Http1Message.turn_fails hs hturn with ⟨hst, hf⟩ | ⟨hst, hlong⟩
  · refine .inl ⟨hst, Http1Message.byteTurn_decided.fails hfinite hf heof, ?_⟩
    rw [hfailed, hrest, htaken]
  · refine .inr ⟨hst, ?_, ?_⟩
    · rw [List.length_append]
      omega
    · rw [hfailed, hrest]
      simp only [Http1Message.takenByFailure, hst, List.drop_zero]

theorem nextLoop_outcome (fuel : Nat) {d : Http1Decoder} (hs : d.message.Sound)
    (hu : d.message.state ≠ .failed) (heof : d.endOfInput = true → unread = [] ∧ ended = true)
    (hfuel : d.message.turnsLeft d.input.contents < fuel) :
    NextOutcome ended d unread (nextLoop fuel d) := by
  induction fuel generalizing d with
  | zero => exact absurd hfuel (Nat.not_lt_zero _)
  | succ fuel ih =>
    match hturn : d.message.turn d.input.contents d.endOfInput with
    | .error e =>
      simp only [nextLoop, hturn]
      exact failed_outcome hs heof hturn
    | .ok .wait =>
      simp only [nextLoop, hturn]
      exact .nothing .refl rfl hu (Http1Message.turn_waits hturn)
    | .ok (.emit event message consumed) =>
      have hmoves := Http1Message.turn_moves hturn
      obtain ⟨hn, hne⟩ := hmoves.emit_consumed
      obtain ⟨input, hinput, hrest, hcontents⟩ := advance_input unread hn
      simp only [nextLoop, hturn, hinput, Option.map_some]
      refine .event ?_ rfl (hmoves.usable (.inl ⟨event, rfl⟩)) hne
      have hr := byteTurn_steady.append (Http1Message.turn_emits hs hturn) hs heof
      rwa [← hcontents] at hr
    | .ok (.again message consumed) =>
      have hmoves := Http1Message.turn_moves hturn
      obtain ⟨hn, hlt⟩ := hmoves.again_lt
      obtain ⟨input, hinput, hrest, hcontents⟩ := advance_input unread hn
      simp only [nextLoop, hturn, hinput, Option.map_some]
      have hr := byteTurn_steady.append (Http1Message.turn_goes hturn) hs heof
      rw [← hcontents] at hr hlt
      have hs' := (hmoves.sound hs (.inr rfl)).1
      have hd₁ := ih (d := { d with message := message, input := input }) hs' (hmoves.usable (.inr rfl)) heof
        (by simp only; omega)
      refine NextOutcome.after ?_ ?_ hd₁
      · exact hr
      · rfl

theorem next_outcome {d : Http1Decoder} (hs : d.message.Sound) (hu : d.message.state ≠ .failed)
    (heof : d.endOfInput = true → unread = [] ∧ ended = true) : NextOutcome ended d unread d.next := by
  refine nextLoop_outcome _ hs hu heof ?_
  rw [Http1Message.turnsLeft, RingBuffer.length_contents]
  split <;> omega

end Http1Decoder

namespace Http1Message
open Http1DecodeEvent (bytewise)

/-- What the events tell before the body, and of a body that ends with the connection. -/
structure Told (events : List Http1DecodeEvent) (m : Http1Message) : Prop where
  nothing : m.state = .startLine ∨ m.state = .headers → events = []
  closeBody : m.state = .closeBody → ∃ head body,
    events = .responseHead head .closeDelimited none :: bytewise (.body body) ∧
      body.length = m.bodyDecoded

theorem Told.of_other (hs : m.state ≠ .startLine) (hh : m.state ≠ .headers) (hc : m.state ≠ .closeBody) :
    Told events m :=
  ⟨fun h => by rcases h with h | h <;> contradiction, fun h => absurd h hc⟩

theorem Told.head {m : Http1Message} (hm : m.bodyDecoded = 0) (h : m.selectFraming headers = .ok (event, m')) :
    Told [event] m' := by
  obtain ⟨first, parser, hfirst, hframed, rfl⟩ := selectFraming_ok h
  have hlength := hframed.contentLength
  rcases hframed.framing with ⟨-, hst, -⟩ | ⟨-, -, -, hst⟩ | ⟨hf, hst, -, hnone, hresponse⟩ | ⟨-, hst, -⟩ |
    ⟨-, hst, -⟩
  · exact .of_other (by simp [hst]) (by simp [hst]) (by simp [hst])
  · split at hst <;> exact .of_other (by simp [hst]) (by simp [hst]) (by simp [hst])
  · refine ⟨fun h => ?_, fun _ => ?_⟩
    · rw [hst] at h
      rcases h with h | h <;> cases h
    obtain ⟨version, status, reason, hreason, hstart⟩ := hresponse
    rw [hfirst] at hstart
    cases hstart
    refine ⟨⟨version, status, reason, headers, hreason⟩, [], ?_, (hframed.bodyDecoded.trans hm).symm⟩
    rw [hf, hlength, hnone]
    rfl
  · exact .of_other (by simp [hst]) (by simp [hst]) (by simp [hst])
  · exact .of_other (by simp [hst]) (by simp [hst]) (by simp [hst])

theorem Told.step {m : Http1Message} (hs : m.Sound) (h : Told acc m)
    (ht : byteTurn m input endOfInput = .move events m' n) : Told (acc ++ events) m' := by
  obtain ⟨t, hmoves, ha, rfl⟩ := byteTurn_moves ht
  cases hmoves with
  | wait => rcases ha with ⟨_, ha⟩ | ha <;> cases ha
  | startLine hst =>
    rcases ha with ⟨_, ha⟩ | ha <;> cases ha
    exact ⟨fun _ => by rw [h.nothing (.inl hst)]; rfl, fun hc => by cases hc⟩
  | field hst =>
    rcases ha with ⟨_, ha⟩ | ha <;> cases ha
    exact ⟨fun _ => by rw [h.nothing (.inr hst)]; rfl, fun hc => by rw [hst] at hc; cases hc⟩
  | head hst hl hf hh =>
    rcases ha with ⟨_, ha⟩ | ha <;> cases ha
    obtain ⟨-, rfl⟩ := finishFields_ok hf
    rw [h.nothing (.inr hst)]
    exact .head (m := { m with fields := [], fieldBytes := 0 }) (hs.nothing (.inr hst)) hh
  | fixedEnd | trailers | closeEnd | lastChunk | chunk | chunkEnd | chunkCrlf =>
    rcases ha with ⟨_, ha⟩ | ha <;> cases ha
    exact .of_other (by simp) (by simp) (by simp)
  | trailer hst =>
    rcases ha with ⟨_, ha⟩ | ha <;> cases ha
    exact .of_other (by simp [hst]) (by simp [hst]) (by simp [hst])
  | completion hst =>
    rcases ha with ⟨_, ha⟩ | ha <;> cases ha
    rcases hst with hst | hst <;> exact .of_other (by simp [hst]) (by simp [hst]) (by simp [hst])
  | piece hst hr hi hn hacc =>
    rcases ha with ⟨_, ha⟩ | ha <;> cases ha
    obtain ⟨-, rfl⟩ := accountBody_ok hacc
    rcases hst with hst | hst <;> exact .of_other (by simp [hst]) (by simp [hst]) (by simp [hst])
  | closePiece hst hi hn hacc =>
    rcases ha with ⟨_, ha⟩ | ha <;> cases ha
    obtain ⟨-, rfl⟩ := accountBody_ok hacc
    refine ⟨fun h => ?_, fun _ => ?_⟩
    · have h : m.state = .startLine ∨ m.state = .headers := h
      rcases h with h | h <;> (rw [hst] at h; cases h)
    · obtain ⟨head, body, rfl, hbody⟩ := h.closeBody hst
      rw [if_pos (by simp [isBody, hst])] at hn hi ⊢
      cases input with
      | nil => exact absurd List.take_nil hi
      | cons byte rest =>
        obtain rfl : n = 1 := by rw [hn]; rfl
        refine ⟨head, body ++ [byte], ?_, ?_⟩
        · simp [bytewise, turnEvents]
        · rw [List.length_append, hbody]
          rfl

/-- What a reading from the start of a message tells. -/
theorem reaches_told {m : Http1Message} (hs : m.Sound) (ht : Told [] m)
    (h : Reaches byteTurn ended m input events m' input') : m'.Sound ∧ Told events m' :=
  h.accumulates (I := fun acc m _ => m.Sound ∧ Told acc m)
    (fun _ _ _ _ _ _ hs ht => ⟨byteTurn_steady.keeps _ _ _ _ _ _ hs.1 ht, .step hs.1 hs.2 ht⟩) [] ⟨hs, ht⟩

end Http1Message

namespace Http1Feeding
open Http1DecodeEvent (bytewise mergeBodies)
open Http1Message (byteTurn byteTurn_steady)

/-- A decoder in use follows the bytewise reading of the stream. -/
structure Follows (ended : Bool) (first : Http1Message) (stream : List UInt8) (f : Http1Feeding) :
    Prop where
  eof : f.decoder.endOfInput = true → f.unread = [] ∧ ended = true
  pieces : ∀ event ∈ f.events, event ≠ .body []
  reads : f.decoder.message.state ≠ .failed →
    Reaches byteTurn ended first stream (f.events.flatMap bytewise) f.decoder.message f.rest
  waits : f.decoder.message.state ≠ .failed → f.waiting = true →
    byteTurn f.decoder.message f.decoder.input.contents f.decoder.endOfInput = .wait
  fails : f.decoder.message.state = .failed → ∃ m x,
    Reaches byteTurn ended first stream (f.events.flatMap bytewise) m x ∧
      (m.limits.HasFiniteLines → m.Fails x f.rest ended)

theorem feed_accepted (h : Http1Decoder.feed d bytes = (.accepted, d')) :
    d.message.state ≠ .failed ∧ d.endOfInput = false ∧ d'.message = d.message ∧
      d'.endOfInput = false ∧ d'.input.contents = d.input.contents ++ bytes := by
  rw [Http1Decoder.feed] at h
  split_ifs at h with hclosed hlong
  · cases h
  · cases h
  split at h
  case h_1 => cases h
  case h_2 input hinput =>
    cases h
    rw [not_or, not_or] at hclosed
    have hcontents := d.input.contents_writeExact bytes
    refine ⟨hclosed.1, by simpa using hclosed.2.1, rfl, by simpa using hclosed.2.1, ?_⟩
    by_cases hle : d.input.length + bytes.length ≤ d.input.maximumCapacity
    · obtain ⟨input', hinput', hcontents, -⟩ := hcontents.2 hle
      rw [hinput] at hinput'
      cases hinput'
      exact hcontents
    · rw [hcontents.1 (by omega)] at hinput
      cases hinput

theorem feed_rejected (h : Http1Decoder.feed d bytes = (status, d')) (hs : status ≠ .accepted) :
    d' = d := by
  rw [Http1Decoder.feed] at h
  split_ifs at h with hclosed hlong
  · cases h
    rfl
  · cases h
    rfl
  · split at h <;> cases h
    · rfl
    · exact absurd rfl hs

/-- A decoder that failed fails again. -/
theorem next_failed {d : Http1Decoder} (h : d.message.state = .failed) :
    ∃ e d', d.next = (.error e, d') ∧ d'.message.state = .failed ∧ d'.endOfInput = d.endOfInput ∧
      d'.input.contents = d.input.contents := by
  obtain ⟨input, hinput, hcontents, -⟩ := d.input.contents_consumeRead (Nat.zero_le _)
  refine ⟨.protocol .invalidState "HTTP decoder is in a failed state.", d.failed, ?_, rfl, rfl, ?_⟩
  · simp only [Http1Decoder.next, Http1Decoder.nextLoop, Http1Message.turn, h, fail]
  · simp only [Http1Decoder.failed, Http1Message.takenByFailure, h, hinput, Option.getD_some]
    rw [hcontents, List.drop_zero]

/-- Every call follows the reading. -/
theorem Follows.step (hfirst : first.Sound) (h : Follows ended first stream f) (call : Http1Call) :
    Follows ended first stream (f.step ended call) := by
  cases call with
  | feed length =>
    rw [Http1Feeding.step]
    match hfeed : f.decoder.feed (f.unread.take length) with
    | (.accepted, d) =>
      obtain ⟨hu, heof, hmessage, heof', hcontents⟩ := feed_accepted hfeed
      refine ⟨fun he => ?_, h.pieces, fun _ => ?_, fun _ hw => (by cases hw), fun hf => ?_⟩
      · rw [heof'] at he
        cases he
      · have hrest : d.input.contents ++ f.unread.drop length = f.rest := by
          rw [hcontents, List.append_assoc, List.take_append_drop]
          rfl
        have hr := h.reads hu
        rw [← hrest, ← hmessage] at hr
        exact hr
      · rw [← hmessage] at hu
        exact absurd hf hu
    | (.wouldBlock, d) =>
      rw [feed_rejected hfeed (by simp)]
      exact h
    | (.closed, d) =>
      rw [feed_rejected hfeed (by simp)]
      exact h
  | next =>
    rw [Http1Feeding.step]
    by_cases hu : f.decoder.message.state = .failed
    · obtain ⟨e, d', hnext, hfailed, heof, hcontents⟩ := next_failed hu
      rw [hnext]
      obtain ⟨m, x, hr, hf⟩ := h.fails hu
      refine ⟨fun he => h.eof (heof ▸ he), h.pieces, fun hne => absurd hfailed hne,
        fun hne => absurd hfailed hne, fun _ => ⟨m, x, hr, ?_⟩⟩
      have hrest : d'.input.contents ++ f.unread = f.rest := by
        rw [hcontents]
        rfl
      rw [← hrest] at hf
      exact hf
    · have hs := (h.reads hu).preserves (fun _ _ _ _ _ => byteTurn_steady.keeps _ _ _ _ _ _) hfirst
      have hout := Http1Decoder.next_outcome hs hu h.eof
      generalize f.decoder.next = r at hout
      cases hout with
      | @event event d' hr he hu' hne =>
        refine ⟨fun heof => h.eof (he ▸ heof), fun event' hmem => ?_, fun _ => ?_,
          fun _ hw => (by cases hw), fun hf => absurd hf hu'⟩
        · rcases List.mem_append.mp hmem with hmem | hmem
          · exact h.pieces _ hmem
          · rw [List.mem_singleton.mp hmem]
            exact hne
        · rw [List.flatMap_append, List.flatMap_singleton]
          exact (h.reads hu).trans hr
      | @nothing d' hr he hu' hw =>
        refine ⟨fun heof => h.eof (he ▸ heof), h.pieces, fun _ => ?_, fun _ _ => hw,
          fun hf => absurd hf hu'⟩
        have hreads := (h.reads hu).trans hr
        rwa [List.append_nil] at hreads
      | failure hr he hu' hf =>
        refine ⟨fun heof => h.eof (he ▸ heof), h.pieces, fun hne => absurd hu' hne,
          fun hne => absurd hu' hne, fun _ => ⟨_, _, ?_, hf⟩⟩
        have hreads := (h.reads hu).trans hr
        rwa [List.append_nil] at hreads
  | endOfInput =>
    rw [Http1Feeding.step]
    split_ifs with hend
    · rw [Http1Decoder.signalEndOfInput]
      split_ifs with hinvalid
      · exact h
      · rw [not_or] at hinvalid
        exact ⟨fun _ => ⟨hend.2.1, hend.1⟩, h.pieces, fun _ => h.reads hinvalid.1,
          fun _ hw => (by cases hw), fun hf => absurd hf hinvalid.1⟩
    · exact h

/-- Every way to feed a stream follows the reading. -/
theorem Follows.run (hfirst : first.Sound) (h : Follows ended first stream f)
    (calls : List Http1Call) : Follows ended first stream (f.run ended calls) := by
  induction calls generalizing f with
  | nil => exact h
  | cons call calls ih => exact ih (h.step hfirst call)

theorem start_sound (role : Http1Role) (limits : Http1CodecLimits) (requestMethod : Option HttpMethod)
    (stream : List UInt8) : (start role limits requestMethod stream).decoder.message.Sound :=
  ⟨Nat.zero_le _, fun h => (by rcases h with h | h <;> cases h), fun _ => rfl⟩

theorem start_follows (ended : Bool) (role : Http1Role) (limits : Http1CodecLimits)
    (requestMethod : Option HttpMethod) (stream : List UInt8) :
    Follows ended (start role limits requestMethod stream).decoder.message stream
      (start role limits requestMethod stream) := by
  have hcontents : (Http1CodecLimits.newQueue limits.maximumInputLength).contents = [] := by
    rw [← List.length_eq_zero_iff, RingBuffer.length_contents]
    rfl
  refine ⟨fun he => (by cases he), fun _ he => (by cases he), fun _ => ?_, fun _ hw => (by cases hw),
    fun hf => (by cases hf)⟩
  rw [rest, start, Http1Decoder.new, hcontents]
  exact .refl

/-- A finished decoder that did not fail stopped where the reading stops. -/
theorem Follows.stopped (h : Follows ended first stream f) (hfin : f.Finished ended)
    (hu : f.hasFailed = false) :
    Reaches byteTurn ended first stream (f.events.flatMap bytewise) f.decoder.message f.rest ∧
      byteTurn f.decoder.message f.rest ended = .wait := by
  have hu : f.decoder.message.state ≠ .failed := by simpa [hasFailed] using hu
  refine ⟨h.reads hu, ?_⟩
  rcases hfin with hc | hf | ⟨hunread, heof, hw⟩
  · simp only [Http1Decoder.isComplete, decide_eq_true_eq] at hc
    rcases hc with hc | hc <;> simp only [byteTurn, Http1Message.turn, hc] <;> rfl
  · exact absurd (by simpa [hasFailed] using hf) hu
  · have hwait := h.waits hu hw
    rwa [heof, ← List.append_nil f.decoder.input.contents, ← hunread] at hwait

/-- A failed decoder stopped where the reading fails, or in a body that ends with the connection and
is too long. -/
theorem Follows.stopped_failed (hfinite : first.limits.HasFiniteLines) (hfirst : first.Sound) (ht : Http1Message.Told [] first)
    (h : Follows ended first stream f) (hf : f.hasFailed = true) :
    ∃ m x more, Reaches byteTurn ended first stream (f.events.flatMap bytewise ++ more) m x ∧
      byteTurn m x ended = .fail ∧
      (m.state ≠ .closeBody ∧ more = [] ∧ f.rest = x.drop (m.takenByFailure x) ∨
        m.state = .closeBody ∧ ∃ head body piece,
          f.events.flatMap bytewise = .responseHead head .closeDelimited none :: bytewise (.body body) ∧
          more = bytewise (.body piece) ∧ f.rest = piece ++ x ∧
          first.limits.maximumBodyLength.toNat < (body ++ f.rest).length) := by
  obtain ⟨m, x, hr, hfails⟩ := h.fails (by simpa [hasFailed] using hf)
  have hlimits := Http1Message.reaches_limits hfirst hr
  rcases hfails (hlimits ▸ hfinite) with ⟨hst, hfail, hrest⟩ | ⟨hst, hlong, hrest⟩
  · exact ⟨m, x, [], by rwa [List.append_nil], hfail, .inl ⟨hst, rfl, hrest⟩⟩
  · obtain ⟨hs, htold⟩ := Http1Message.reaches_told hfirst ht hr
    obtain ⟨head, body, hevents, hbody⟩ := htold.closeBody hst
    obtain ⟨n, hn, hreach, hfail⟩ := Http1Message.reaches_tooLong hs hst hlong ended
    refine ⟨m.advance n, x.drop n, _, hr.trans hreach, hfail, .inr ⟨?_, head, body, x.take n, hevents,
      rfl, ?_, ?_⟩⟩
    · rw [Http1Message.advance_state, hst]
    · rw [hrest, List.take_append_drop]
    · rw [List.length_append, hbody, hrest, ← hlimits]
      exact hlong

/-- Two decoders that told the same and leave the same of the stream. -/
def SameReading (f f' : Http1Feeding) : Prop :=
  mergeBodies f.events = mergeBodies f'.events ∧ f.rest = f'.rest

/-- Two decoders that were in the same body, which ends with the connection and is too long, each
after some of its bytes. -/
def SameTooLong (limits : Http1CodecLimits) (f f' : Http1Feeding) : Prop :=
  ∃ head body body',
    f.events.flatMap bytewise = .responseHead head .closeDelimited none :: bytewise (.body body) ∧
    f'.events.flatMap bytewise = .responseHead head .closeDelimited none :: bytewise (.body body') ∧
    body ++ f.rest = body' ++ f'.rest ∧
    limits.maximumBodyLength.toNat < (body ++ f.rest).length

theorem sameReading_of_bytewise (h : Follows ended first stream f)
    (h' : Follows ended' first stream' f') (he : f.events.flatMap bytewise = f'.events.flatMap bytewise) :
    mergeBodies f.events = mergeBodies f'.events := by
  rw [← Http1DecodeEvent.mergeBodies_bytewise h.pieces,
    ← Http1DecodeEvent.mergeBodies_bytewise h'.pieces, he]

theorem bytewise_body_inj (h : bytewise (.body body) = bytewise (.body body')) : body = body' := by
  have hinj : Function.Injective fun byte : UInt8 => Http1DecodeEvent.body [byte] := by
    intro a b hab
    simpa using hab
  exact List.map_injective_iff.mpr hinj h

theorem bytewise_body_append (body piece : List UInt8) :
    bytewise (.body (body ++ piece)) = bytewise (.body body) ++ bytewise (.body piece) :=
  List.map_append

/-- Two finished decoders of the same stream. -/
theorem Follows.agree (hfinite : first.limits.HasFiniteLines) (hfirst : first.Sound) (ht : Http1Message.Told [] first)
    (h : Follows ended first stream f) (h' : Follows ended first stream f')
    (hfin : f.Finished ended) (hfin' : f'.Finished ended) :
    f.hasFailed = f'.hasFailed ∧
      (SameReading f f' ∨ f.hasFailed ∧ SameTooLong first.limits f f') := by
  have hwaits : ∀ {m x}, byteTurn m x ended = .wait → ∀ es s n, byteTurn m x ended ≠ .move es s n :=
    fun hw es s n hm => (by rw [hw] at hm; cases hm)
  have hfails : ∀ {m x}, byteTurn m x ended = .fail → ∀ es s n, byteTurn m x ended ≠ .move es s n :=
    fun hw es s n hm => (by rw [hw] at hm; cases hm)
  cases hf : f.hasFailed <;> cases hf' : f'.hasFailed
  · obtain ⟨hr, hw⟩ := h.stopped hfin hf
    obtain ⟨hr', hw'⟩ := h'.stopped hfin' hf'
    obtain ⟨he, -, hrest⟩ := hr.stops_eq hr' (hwaits hw) (hwaits hw')
    exact ⟨rfl, .inl ⟨sameReading_of_bytewise h h' he, hrest⟩⟩
  · obtain ⟨hr, hw⟩ := h.stopped hfin hf
    obtain ⟨m, x, more, hr', hfail, -⟩ := h'.stopped_failed hfinite hfirst ht hf'
    obtain ⟨-, rfl, rfl⟩ := hr.stops_eq hr' (hwaits hw) (hfails hfail)
    rw [hw] at hfail
    cases hfail
  · obtain ⟨m, x, more, hr, hfail, -⟩ := h.stopped_failed hfinite hfirst ht hf
    obtain ⟨hr', hw⟩ := h'.stopped hfin' hf'
    obtain ⟨-, rfl, rfl⟩ := hr.stops_eq hr' (hfails hfail) (hwaits hw)
    rw [hw] at hfail
    cases hfail
  · obtain ⟨m, x, more, hr, hfail, hstop⟩ := h.stopped_failed hfinite hfirst ht hf
    obtain ⟨m', x', more', hr', hfail', hstop'⟩ := h'.stopped_failed hfinite hfirst ht hf'
    obtain ⟨he, rfl, rfl⟩ := hr.stops_eq hr' (hfails hfail) (hfails hfail')
    refine ⟨rfl, ?_⟩
    rcases hstop with ⟨hst, rfl, hrest⟩ | ⟨hst, head, body, piece, hevents, rfl, hrest, hlong⟩
    · rcases hstop' with ⟨-, rfl, hrest'⟩ | ⟨hst', -⟩
      · rw [List.append_nil, List.append_nil] at he
        exact .inl ⟨sameReading_of_bytewise h h' he, hrest.trans hrest'.symm⟩
      · exact absurd hst' hst
    · rcases hstop' with ⟨hst', -⟩ | ⟨-, head', body', piece', hevents', rfl, hrest', -⟩
      · exact absurd hst hst'
      · rw [hevents, hevents', List.cons_append, List.cons_append, ← bytewise_body_append,
          ← bytewise_body_append, List.cons.injEq] at he
        obtain ⟨hhead, hbody⟩ := he
        injection hhead with hhead
        refine .inr ⟨rfl, head, body, body', hevents, by rw [hevents', hhead], ?_, hlong⟩
        rw [hrest, hrest', ← List.append_assoc, bytewise_body_inj hbody, List.append_assoc]

/-- A finished decoder has read what leads to the end of a message. -/
theorem Follows.arrives {told : List Http1DecodeEvent} (hfinite : first.limits.HasFiniteLines) (hfirst : first.Sound)
    (ht : Http1Message.Told [] first) (h : Follows ended first stream f) (hfin : f.Finished ended)
    (hr : Reaches byteTurn ended first stream told m left)
    (hm : m.state = .complete ∨ m.state = .opaqueData) :
    f.decoder.isComplete = true ∧ f.decoder.message = m ∧
      f.events.flatMap bytewise = told ∧ f.rest = left := by
  have hwait : byteTurn m left ended = .wait := by
    rcases hm with hm | hm <;> simp only [byteTurn, Http1Message.turn, hm] <;> rfl
  cases hf : f.hasFailed with
  | false =>
    obtain ⟨hr', hw'⟩ := h.stopped hfin hf
    obtain ⟨he, rfl, hleft⟩ := hr'.stops_eq hr (fun _ _ _ hm => by rw [hw'] at hm; cases hm)
      (fun _ _ _ hm => by rw [hwait] at hm; cases hm)
    exact ⟨by simpa [Http1Decoder.isComplete] using hm, rfl, he, hleft⟩
  | true =>
    obtain ⟨m', x, more, hr', hfail, -⟩ := h.stopped_failed hfinite hfirst ht hf
    obtain ⟨-, rfl, rfl⟩ := hr'.stops_eq hr (fun _ _ _ hm => by rw [hfail] at hm; cases hm)
      (fun _ _ _ hm => by rw [hwait] at hm; cases hm)
    rw [hwait] at hfail
    cases hfail

/-- More of the stream after a complete message makes no difference. -/
theorem Follows.agree_append (hfinite : first.limits.HasFiniteLines) (hfirst : first.Sound) (ht : Http1Message.Told [] first)
    (h : Follows false first stream f) (hc : f.decoder.isComplete)
    (h' : Follows ended first (stream ++ extra) f') (hfin' : f'.Finished ended) :
    mergeBodies f'.events = mergeBodies f.events ∧ f'.rest = f.rest ++ extra := by
  simp only [Http1Decoder.isComplete, decide_eq_true_eq] at hc
  have hu : f.decoder.message.state ≠ .failed := by
    rcases hc with hc | hc <;> simp [hc]
  have hr : Reaches byteTurn ended first (stream ++ extra) _ f.decoder.message (f.rest ++ extra) :=
    byteTurn_steady.append (h.reads hu) hfirst (by simp)
  obtain ⟨-, -, he, hrest⟩ := h'.arrives hfinite hfirst ht hfin' hr hc
  exact ⟨sameReading_of_bytewise h' h he, hrest⟩

theorem start_told (role : Http1Role) (limits : Http1CodecLimits) (requestMethod : Option HttpMethod)
    (stream : List UInt8) :
    Http1Message.Told [] (start role limits requestMethod stream).decoder.message :=
  ⟨fun _ => rfl, fun h => (by cases h)⟩

/-- Two ways to feed a stream to a decoder fail both or neither, tell the same and leave the same of
the stream, except that a body that ends with the connection and is too long may be cut at another
place. A complete message leaves everything that follows it. -/
theorem feeding_irrelevant (role : Http1Role) (limits : Http1CodecLimits) (hlimits : limits.HasFiniteLines)
    (requestMethod : Option HttpMethod) (stream : List UInt8) (ended : Bool)
    (calls calls' : List Http1Call)
    (hfin : ((start role limits requestMethod stream).run ended calls).Finished ended)
    (hfin' : ((start role limits requestMethod stream).run ended calls').Finished ended) :
    let f := (start role limits requestMethod stream).run ended calls
    let f' := (start role limits requestMethod stream).run ended calls'
    f.hasFailed = f'.hasFailed ∧
      (SameReading f f' ∨ f.hasFailed ∧ SameTooLong limits f f') ∧
      (ended = false → f.decoder.isComplete → ∀ extra ended'' calls'',
        let f'' := (start role limits requestMethod (stream ++ extra)).run ended'' calls''
        f''.Finished ended'' → mergeBodies f''.events = mergeBodies f.events ∧ f''.rest = f.rest ++ extra) := by
  have hfirst := start_sound role limits requestMethod stream
  have htold := start_told role limits requestMethod stream
  have h := (start_follows ended role limits requestMethod stream).run hfirst calls
  have h' := (start_follows ended role limits requestMethod stream).run hfirst calls'
  obtain ⟨hfailed, hsame⟩ := h.agree hlimits hfirst htold h' hfin hfin'
  refine ⟨hfailed, hsame, fun hended hc extra ended'' calls'' hfin'' => ?_⟩
  subst hended
  have h'' := (start_follows ended'' role limits requestMethod (stream ++ extra)).run hfirst calls''
  exact h.agree_append hlimits hfirst htold hc h'' hfin''

/-- A chunked request with the start of another one, in two ways. -/
theorem feeding_irrelevant_chunked :
    let limits : Http1CodecLimits := { maximumInputLength := 128 }
    let stream := U8String.ofLiteral
      "POST / HTTP/1.1\r\nTransfer-Encoding: chunked\r\n\r\n2\r\nab\r\n0\r\n\r\nGET"
    let calls := [.feed 100, .next, .next, .next, .next]
    let calls' := [.feed 1, .next, .feed 49, .next, .feed 6, .next, .next, .feed 50, .next, .next, .next]
    let f := (start .request limits none stream).run false calls
    let f' := (start .request limits none stream).run false calls'
    f.hasFailed = f'.hasFailed ∧ (SameReading f f' ∨ f.hasFailed ∧ SameTooLong limits f f') ∧
      f.decoder.isComplete := by
  intro limits stream calls calls' f f'
  have hlimits : limits.HasFiniteLines := ⟨by decide, by decide, by decide, by decide⟩
  have hfin : f.Finished false := by decide +kernel
  have hfin' : f'.Finished false := by decide +kernel
  have h := feeding_irrelevant .request limits hlimits none stream false calls calls' hfin hfin'
  exact ⟨h.1, h.2.1, by decide +kernel⟩

/-- Of a body that is too long, the first piece is delivered only when it is not too long itself. -/
theorem feeding_tooLong_body :
    let limits : Http1CodecLimits := { maximumBodyLength := 2, maximumInputLength := 64 }
    let stream := U8String.ofLiteral "HTTP/1.0 200 \r\n\r\nabc"
    let calls := [.feed 20, .next, .next]
    let calls' := [.feed 18, .next, .next, .feed 20, .next]
    let f := (start .response limits none stream).run true calls
    let f' := (start .response limits none stream).run true calls'
    f.Finished true ∧ f'.Finished true ∧ mergeBodies f.events ≠ mergeBodies f'.events := by
  decide +kernel

end Http1Feeding
end ErbslandCore.Network
