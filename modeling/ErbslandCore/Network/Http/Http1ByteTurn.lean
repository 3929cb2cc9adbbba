import ErbslandCore.Library.Incremental
import ErbslandCore.Network.Http.Http1Turn

namespace ErbslandCore.Network
open Library Library.Incremental Mem Text
set_option autoImplicit true

/-- No line limit stands for an unlimited length. -/
structure Http1CodecLimits.HasFiniteLines (limits : Http1CodecLimits) : Prop where
  startLine : Http1Message.IsFinite limits.maximumStartLineLength
  headers : Http1Message.IsFinite limits.headerLimits.maximumAggregateLength
  trailers : Http1Message.IsFinite limits.trailerLimits.maximumAggregateLength
  chunkMetadata : Http1Message.IsFinite limits.maximumChunkMetadataLength

namespace Http1Message

def isBody (m : Http1Message) : Bool :=
  m.state = .fixedBody ∨ m.state = .chunkData ∨ m.state = .closeBody

/-- A turn of the decoder as the turn of a reader. -/
def asTurn : Except Http1Error Http1Turn → Turn Http1Message Http1DecodeEvent
  | .error _ => .fail
  | .ok .wait => .wait
  | .ok (.emit event m consumed) => .move [event] m consumed
  | .ok (.again m consumed) => .move [] m consumed

/-- One turn, with a body that is read byte by byte. -/
def byteTurn (m : Http1Message) (input : List UInt8) (endOfInput : Bool) :
    Turn Http1Message Http1DecodeEvent :=
  asTurn (m.turn (if m.isBody then input.take 1 else input) endOfInput)

/-- The bounds that the body of a message keeps. -/
structure Sound (m : Http1Message) : Prop where
  decoded_le : m.bodyDecoded ≤ m.limits.maximumBodyLength.toNat
  remaining_le : m.state = .fixedBody ∨ m.state = .chunkData →
    m.bodyDecoded + m.bodyRemaining ≤ m.limits.maximumBodyLength.toNat
  nothing : m.state = .startLine ∨ m.state = .headers → m.bodyDecoded = 0

/-- The message after a turn, and the number of consumed bytes. -/
def After (t : Http1Turn) (m : Http1Message) (n : Nat) : Prop :=
  (∃ event, t = .emit event m n) ∨ t = .again m n

theorem takeLine_length (h : takeLine m input limit limitReason = .ok (some (line, n))) :
    n ≤ input.length := by
  obtain ⟨⟨rest, rfl⟩, rfl, -, -⟩ := takeLine_some h
  simp

/-- A turn keeps the bounds, and consumes no more than there is. -/
theorem Moves.sound (h : Moves m input endOfInput t) (hs : m.Sound) (ha : After t m' n) :
    m'.Sound ∧ m'.limits = m.limits ∧ n ≤ input.length := by
  have hd := hs.decoded_le
  cases h with
  | wait =>
    rcases ha with ⟨_, h⟩ | h <;> cases h
  | startLine hst hl hp =>
    rcases ha with ⟨_, h⟩ | h <;> cases h
    refine ⟨⟨hd, fun h => ?_, fun _ => hs.nothing (.inl hst)⟩, rfl, takeLine_length hl⟩
    rcases h with h | h <;> cases h
  | field hst hl hp =>
    rcases ha with ⟨_, h⟩ | h <;> cases h
    refine ⟨⟨hd, fun h => ?_, fun _ => hs.nothing (.inr hst)⟩, rfl, takeLine_length hl⟩
    rcases h with h | h <;> (rw [hst] at h; cases h)
  | head hst hl hf hh =>
    rcases ha with ⟨_, h⟩ | h <;> cases h
    obtain ⟨-, rfl⟩ := finishFields_ok hf
    obtain ⟨startLine, parser, -, hframed, -⟩ := selectFraming_ok hh
    have hzero : m'.bodyDecoded = 0 := hframed.bodyDecoded.trans (hs.nothing (.inr hst))
    have hlimits : m'.limits = m.limits := hframed.limits
    refine ⟨⟨by omega, fun h => ?_, fun _ => hzero⟩, hlimits, takeLine_length hl⟩
    rw [hzero, hlimits, Nat.zero_add]
    rcases hframed.framing with ⟨-, hst', -⟩ | ⟨-, -, hlength, -⟩ | ⟨-, hst', -⟩ | ⟨-, hst', -⟩ | ⟨-, hst', -⟩
    · rw [hst'] at h
      rcases h with h | h <;> cases h
    · exact hframed.contentLength_le _ hlength
    · rw [hst'] at h
      rcases h with h | h <;> cases h
    · rw [hst'] at h
      rcases h with h | h <;> cases h
    · rw [hst'] at h
      rcases h with h | h <;> cases h
  | fixedEnd hst hr =>
    rcases ha with ⟨_, h⟩ | h <;> cases h
    refine ⟨⟨hd, fun h => ?_, fun h => ?_⟩, rfl, Nat.zero_le _⟩
    · rcases h with h | h <;> cases h
    · rcases h with h | h <;> cases h
  | piece hst hr hi hn hacc =>
    rcases ha with ⟨_, h⟩ | h <;> cases h
    obtain ⟨hle, rfl⟩ := accountBody_ok hacc
    have hbound := hs.remaining_le hst
    refine ⟨⟨?_, fun _ => ?_, fun h => ?_⟩, rfl, by omega⟩
    · show m.bodyDecoded + n ≤ m.limits.maximumBodyLength.toNat
      omega
    · show m.bodyDecoded + n + (m.bodyRemaining - n) ≤ m.limits.maximumBodyLength.toNat
      omega
    · have h : m.state = .startLine ∨ m.state = .headers := h
      rcases hst with hst | hst <;> rcases h with h | h <;> (rw [hst] at h; cases h)
  | lastChunk hst hl hc =>
    rcases ha with ⟨_, h⟩ | h <;> cases h
    refine ⟨⟨hd, fun h => ?_, fun h => ?_⟩, rfl, takeLine_length hl⟩
    · rcases h with h | h <;> cases h
    · rcases h with h | h <;> cases h
  | @chunk _ _ value hst hl hc hv hm =>
    rcases ha with ⟨_, h⟩ | h <;> cases h
    refine ⟨⟨hd, fun _ => ?_, fun h => ?_⟩, rfl, takeLine_length hl⟩
    · show m.bodyDecoded + value ≤ m.limits.maximumBodyLength.toNat
      omega
    · rcases h with h | h <;> cases h
  | chunkEnd hst hr =>
    rcases ha with ⟨_, h⟩ | h <;> cases h
    refine ⟨⟨hd, fun h => ?_, fun h => ?_⟩, rfl, Nat.zero_le _⟩
    · rcases h with h | h <;> cases h
    · rcases h with h | h <;> cases h
  | chunkCrlf hst hi =>
    rcases ha with ⟨_, h⟩ | h <;> cases h
    refine ⟨⟨hd, fun h => ?_, fun h => ?_⟩, rfl, by simp [hi]⟩
    · rcases h with h | h <;> cases h
    · rcases h with h | h <;> cases h
  | trailer hst hl hp =>
    rcases ha with ⟨_, h⟩ | h <;> cases h
    refine ⟨⟨hd, fun h => ?_, fun h => ?_⟩, rfl, takeLine_length hl⟩
    · rcases h with h | h <;> (rw [hst] at h; cases h)
    · rcases h with h | h <;> (rw [hst] at h; cases h)
  | trailers hst hl hf =>
    rcases ha with ⟨_, h⟩ | h <;> cases h
    obtain ⟨-, rfl⟩ := finishFields_ok hf
    refine ⟨⟨hd, fun h => ?_, fun h => ?_⟩, rfl, takeLine_length hl⟩
    · rcases h with h | h <;> cases h
    · rcases h with h | h <;> cases h
  | closePiece hst hi hn hacc =>
    rcases ha with ⟨_, h⟩ | h <;> cases h
    obtain ⟨hle, rfl⟩ := accountBody_ok hacc
    refine ⟨⟨?_, fun h => ?_, fun h => ?_⟩, rfl, by omega⟩
    · show m.bodyDecoded + n ≤ m.limits.maximumBodyLength.toNat
      omega
    · have h : m.state = .fixedBody ∨ m.state = .chunkData := h
      rcases h with h | h <;> (rw [hst] at h; cases h)
    · have h : m.state = .startLine ∨ m.state = .headers := h
      rcases h with h | h <;> (rw [hst] at h; cases h)
  | closeEnd hst hi he =>
    rcases ha with ⟨_, h⟩ | h <;> cases h
    refine ⟨⟨hd, fun h => ?_, fun h => ?_⟩, rfl, Nat.zero_le _⟩
    · rcases h with h | h <;> cases h
    · rcases h with h | h <;> cases h
  | completion hst =>
    rcases ha with ⟨_, h⟩ | h <;> cases h
    refine ⟨⟨hd, fun h => ?_, fun h => ?_⟩, rfl, Nat.zero_le _⟩
    · rcases hst with hst | hst <;> simp [hst] at h
    · rcases hst with hst | hst <;> simp [hst] at h

/-- No turn leads to a failed message; a failure is one of the whole decoder. -/
theorem Moves.usable (h : Moves m input endOfInput t) (ha : After t m' n) :
    m'.state ≠ .failed := by
  cases h with
  | wait => rcases ha with ⟨_, h⟩ | h <;> cases h
  | startLine | fixedEnd | lastChunk | chunk | chunkEnd | chunkCrlf | trailers | closeEnd =>
    rcases ha with ⟨_, h⟩ | h <;> cases h
    simp
  | field hs | trailer hs =>
    rcases ha with ⟨_, h⟩ | h <;> cases h
    simp [hs]
  | head hs hl hf hh =>
    rcases ha with ⟨_, h⟩ | h <;> cases h
    obtain ⟨first, parser, -, hframed, -⟩ := selectFraming_ok hh
    rcases hframed.framing with ⟨-, h, -⟩ | ⟨-, -, -, h⟩ | ⟨-, h, -⟩ | ⟨-, h, -⟩ | ⟨-, h, -⟩ <;> rw [h]
    case inr.inl => split <;> simp
    all_goals simp
  | piece hs _ _ _ hacc =>
    rcases ha with ⟨_, h⟩ | h <;> cases h
    obtain ⟨-, rfl⟩ := accountBody_ok hacc
    rcases hs with hs | hs <;> simp [hs]
  | closePiece hs _ _ hacc =>
    rcases ha with ⟨_, h⟩ | h <;> cases h
    obtain ⟨-, rfl⟩ := accountBody_ok hacc
    simp [hs]
  | completion hs =>
    rcases ha with ⟨_, h⟩ | h <;> cases h
    rcases hs with hs | hs <;> simp [hs]

/-- Two readings that wait, do the same or fail, the second one perhaps only when limits are finite. -/
def Agrees (finite : Prop) (r r' : Except Http1Error Http1Turn) : Prop :=
  r = .ok .wait ∨ (∃ e, r = .error e ∧ (finite → ∃ e', r' = .error e')) ∨ r = r'

theorem readLine_append {m : Http1Message} {finite : Prop} (hlimit : finite → IsFinite limit)
    {f g : Option (List UInt8 × Nat) → Except Http1Error Http1Turn} (hnone : f none = .ok .wait)
    (hsome : ∀ v, f (some v) = g (some v)) (limitReason : Http1FailureReason) (x y : List UInt8) :
    Agrees finite (m.takeLine x limit limitReason >>= f)
      (m.takeLine (x ++ y) limit limitReason >>= g) := by
  rcases takeLine_append m limit limitReason x y with h | ⟨e, h, h'⟩ | ⟨v, h, h'⟩
  · rw [h, ok_bind]
    exact .inl hnone
  · rw [h]
    refine .inr (.inl ⟨e, rfl, fun hfinite => ?_⟩)
    obtain ⟨e', he'⟩ := h' (hlimit hfinite)
    exact ⟨e', by rw [he']; rfl⟩
  · rw [h, h', ok_bind, ok_bind]
    exact .inr (.inr (hsome v))

/-- What the first part of the input decides is decided for the whole input. -/
theorem turn_append (m : Http1Message) (x y : List UInt8) (endOfInput : Bool) :
    Agrees m.limits.HasFiniteLines (m.turn (if m.isBody then x.take 1 else x) false)
      (m.turn (if m.isBody then (x ++ y).take 1 else x ++ y) endOfInput) := by
  cases hs : m.state with
  | startLine =>
    rw [if_neg (by simp [isBody, hs]), if_neg (by simp [isBody, hs])]
    simp only [turn, hs, readStartLine]
    refine readLine_append (fun hf => hf.startLine) ?_ ?_ _ x y
    · rfl
    · exact fun _ => rfl
  | headers =>
    rw [if_neg (by simp [isBody, hs]), if_neg (by simp [isBody, hs])]
    simp only [turn, hs, readHeaders]
    refine readLine_append (fun hf => hf.headers) ?_ ?_ _ x y
    · rfl
    · exact fun _ => rfl
  | chunkLine =>
    rw [if_neg (by simp [isBody, hs]), if_neg (by simp [isBody, hs])]
    simp only [turn, hs, readChunkLine]
    refine readLine_append (fun hf => hf.chunkMetadata) ?_ ?_ _ x y
    · rfl
    · exact fun _ => rfl
  | trailers =>
    rw [if_neg (by simp [isBody, hs]), if_neg (by simp [isBody, hs])]
    simp only [turn, hs, readTrailers]
    refine readLine_append (fun hf => hf.trailers) ?_ ?_ _ x y
    · rfl
    · exact fun _ => rfl
  | fixedBody =>
    simp only [isBody, turn, hs, readFixedBody]
    by_cases hr : m.bodyRemaining = 0
    · exact .inr (.inr (by simp only [if_pos hr]))
    · cases x with
      | nil => exact .inl (by rw [if_neg hr]; rfl)
      | cons b x =>
        refine .inr (.inr ?_)
        simp [hr, readBodyPiece]
  | chunkData =>
    simp only [isBody, turn, hs, readChunkData]
    by_cases hr : m.bodyRemaining = 0
    · exact .inr (.inr (by simp only [if_pos hr]))
    · cases x with
      | nil => exact .inl (by rw [if_neg hr]; rfl)
      | cons b x =>
        refine .inr (.inr ?_)
        simp [hr, readBodyPiece]
  | closeBody =>
    simp only [isBody, turn, hs]
    cases x with
    | nil => exact .inl rfl
    | cons b x =>
      refine .inr (.inr ?_)
      simp [readCloseBody]
  | chunkDataEnd =>
    simp only [isBody, turn, hs]
    rcases x with - | ⟨b, - | ⟨b', x⟩⟩
    · exact .inl rfl
    · exact .inl rfl
    · exact .inr (.inr rfl)
  | completePending | opaquePending | complete | opaqueData | failed =>
    simp only [turn, hs]
    exact .inr (.inr rfl)

theorem lineTaken_append {m : Http1Message} (hlimit : IsFinite limit)
    {f : Option (List UInt8 × Nat) → Except Http1Error Http1Turn} (hnone : f none = .ok .wait)
    (h : m.takeLine x limit limitReason >>= f = .error e) (y : List UInt8) :
    lineTaken (m.takeLine (x ++ y) limit limitReason) =
      lineTaken (m.takeLine x limit limitReason) := by
  rcases takeLine_append m limit limitReason x y with hx | ⟨e, hx, hxy⟩ | ⟨v, hx, hxy⟩
  · rw [hx, ok_bind, hnone] at h
    cases h
  · obtain ⟨e', hxy⟩ := hxy hlimit
    rw [hx, hxy]
    rfl
  · rw [hx, hxy]

/-- More input does not change what a failing turn takes. -/
theorem takenByFailure_append {m : Http1Message} (hf : m.limits.HasFiniteLines)
    (h : m.turn x false = .error e) (y : List UInt8) :
    m.takenByFailure (x ++ y) = m.takenByFailure x := by
  cases hs : m.state with
  | startLine =>
    simp only [turn, hs, readStartLine] at h
    simp only [takenByFailure, hs]
    refine lineTaken_append hf.startLine ?_ h y
    rfl
  | headers =>
    simp only [turn, hs, readHeaders] at h
    simp only [takenByFailure, hs]
    refine lineTaken_append hf.headers ?_ h y
    rfl
  | chunkLine =>
    simp only [turn, hs, readChunkLine] at h
    simp only [takenByFailure, hs]
    refine lineTaken_append hf.chunkMetadata ?_ h y
    rfl
  | trailers =>
    simp only [turn, hs, readTrailers] at h
    simp only [takenByFailure, hs]
    refine lineTaken_append hf.trailers ?_ h y
    rfl
  | fixedBody | chunkData | closeBody | chunkDataEnd | completePending | opaquePending | complete
  | opaqueData | failed =>
    simp only [takenByFailure, hs]

/-- The events of a turn. -/
def turnEvents : Http1Turn → List Http1DecodeEvent
  | .emit event _ _ => [event]
  | .again _ _ | .wait => []

theorem asTurn_move (h : asTurn r = .move events m' n) :
    ∃ t, r = .ok t ∧ After t m' n ∧ events = turnEvents t := by
  match r, h with
  | .ok (.emit event m n), h =>
    cases h
    exact ⟨_, rfl, .inl ⟨event, rfl⟩, rfl⟩
  | .ok (.again m n), h =>
    cases h
    exact ⟨_, rfl, .inr rfl, rfl⟩

/-- A bytewise turn is one of the moves of a decoder. -/
theorem byteTurn_moves (h : byteTurn m input endOfInput = .move events m' n) :
    ∃ t, Moves m (if m.isBody then input.take 1 else input) endOfInput t ∧ After t m' n ∧
      events = turnEvents t := by
  obtain ⟨t, ht, ha, he⟩ := asTurn_move h
  exact ⟨t, turn_moves ht, ha, he⟩

/-- The bytewise reading does with a part of its input what it does with all of it. -/
theorem byteTurn_steady : Steady byteTurn Sound where
  move m x y events m' n endOfInput hs h := by
    rcases turn_append m x y endOfInput with hx | ⟨e, hx, -⟩ | hxy
    · rw [byteTurn, hx] at h
      cases h
    · rw [byteTurn, hx] at h
      cases h
    · rwa [byteTurn, hxy] at h
  consumed m x events m' n endOfInput hs h := by
    obtain ⟨t, ht, ha, -⟩ := byteTurn_moves h
    have hn := (ht.sound hs ha).2.2
    split at hn
    case isTrue => exact hn.trans (List.length_take_le' _ _)
    case isFalse => exact hn
  keeps m x events m' n endOfInput hs h := by
    obtain ⟨t, ht, ha, -⟩ := byteTurn_moves h
    exact (ht.sound hs ha).1

theorem byteTurn_decided : Decided byteTurn fun m => m.limits.HasFiniteLines := by
  intro m x y endOfInput hf h
  rcases turn_append m x y endOfInput with hx | ⟨e, -, hxy⟩ | hxy
  · rw [byteTurn, hx] at h
    cases h
  · obtain ⟨e', hxy⟩ := hxy hf
    rw [byteTurn, hxy]
    rfl
  · rwa [byteTurn, hxy] at h

theorem byteTurn_limits {m : Http1Message} (hs : m.Sound)
    (h : byteTurn m input endOfInput = .move events m' n) : m'.limits = m.limits := by
  obtain ⟨t, ht, ha, -⟩ := byteTurn_moves h
  exact (ht.sound hs ha).2.1

theorem reaches_limits {m : Http1Message} (hs : m.Sound)
    (h : Reaches byteTurn endOfInput m input events m' input') : m'.limits = m.limits :=
  (h.preserves (I := fun m' => m'.Sound ∧ m'.limits = m.limits)
    (fun _ _ _ _ _ hs ht => ⟨byteTurn_steady.keeps _ _ _ _ _ _ hs.1 ht,
      (byteTurn_limits hs.1 ht).trans hs.2⟩) ⟨hs, rfl⟩).2

end Http1Message

namespace Http1DecodeEvent

/-- An event with one byte in each piece of a body. -/
def bytewise : Http1DecodeEvent → List Http1DecodeEvent
  | .body data => data.map fun byte => .body [byte]
  | event => [event]

end Http1DecodeEvent

namespace Http1Message
open Http1DecodeEvent (bytewise)

/-- The message after `n` bytes of its body. -/
def advance (m : Http1Message) (n : Nat) : Http1Message :=
  if m.state = .closeBody then { m with bodyDecoded := m.bodyDecoded + n }
  else { m with bodyDecoded := m.bodyDecoded + n, bodyRemaining := m.bodyRemaining - n }

@[simp] theorem advance_state (m : Http1Message) (n : Nat) : (m.advance n).state = m.state := by
  rw [advance]
  split <;> rfl

@[simp] theorem advance_limits (m : Http1Message) (n : Nat) : (m.advance n).limits = m.limits := by
  rw [advance]
  split <;> rfl

@[simp] theorem advance_bodyDecoded (m : Http1Message) (n : Nat) :
    (m.advance n).bodyDecoded = m.bodyDecoded + n := by
  rw [advance]
  split <;> rfl

theorem advance_zero (m : Http1Message) : m.advance 0 = m := by
  rw [advance]
  split <;> rfl

theorem advance_advance (m : Http1Message) (n k : Nat) :
    (m.advance n).advance k = m.advance (n + k) := by
  by_cases hs : m.state = .closeBody
  · simp only [advance, if_pos hs, Nat.add_assoc]
  · simp only [advance, if_neg hs, Nat.add_assoc, Nat.sub_add_eq]

/-- There is room in the body for `n` bytes. -/
def HasRoom (m : Http1Message) (n : Nat) : Prop :=
  m.isBody ∧ (m.state = .closeBody ∨ n ≤ m.bodyRemaining) ∧
    m.bodyDecoded + n ≤ m.limits.maximumBodyLength.toNat

theorem HasRoom.advance {m : Http1Message} (h : m.HasRoom (n + k)) : (m.advance n).HasRoom k := by
  obtain ⟨hb, hr, hd⟩ := h
  refine ⟨by simpa [isBody] using hb, ?_, ?_⟩
  · rw [advance_state]
    by_cases hs : m.state = .closeBody
    · exact .inl hs
    · rw [Http1Message.advance, if_neg hs]
      exact .inr (by have := hr.resolve_left hs; show k ≤ m.bodyRemaining - n; omega)
  · rw [advance_limits, advance_bodyDecoded]
    omega

theorem byteTurn_byte (h : m.HasRoom 1) (byte : UInt8) (input : List UInt8) (endOfInput : Bool) :
    byteTurn m (byte :: input) endOfInput = .move [.body [byte]] (m.advance 1) 1 := by
  obtain ⟨hb, hr, hd⟩ := h
  have hd : 1 ≤ m.limits.maximumBodyLength.toNat -
      min m.bodyDecoded m.limits.maximumBodyLength.toNat := by omega
  rw [byteTurn, if_pos hb]
  cases hs : m.state with
  | fixedBody =>
    have hpos : 1 ≤ m.bodyRemaining := hr.resolve_left (by simp [hs])
    have hne : m.bodyRemaining ≠ 0 := by omega
    have hmin : min (min 1 m.bodyRemaining) Http1CodecLimits.maximumBodyChunkLength = 1 := by
      rw [Http1CodecLimits.maximumBodyChunkLength]
      omega
    simp [turn, hs, readFixedBody, readBodyPiece, hne, hmin, accountBody_of_le hd, asTurn, advance,
      ok_bind, pure, Except.pure]
  | chunkData =>
    have hpos : 1 ≤ m.bodyRemaining := hr.resolve_left (by simp [hs])
    have hne : m.bodyRemaining ≠ 0 := by omega
    have hmin : min (min 1 m.bodyRemaining) Http1CodecLimits.maximumBodyChunkLength = 1 := by
      rw [Http1CodecLimits.maximumBodyChunkLength]
      omega
    simp [turn, hs, readChunkData, readBodyPiece, hne, hmin, accountBody_of_le hd, asTurn, advance,
      ok_bind, pure, Except.pure]
  | closeBody =>
    have hmin : min 1 Http1CodecLimits.maximumBodyChunkLength = 1 := by decide
    simp [turn, hs, readCloseBody, hmin, accountBody_of_le hd, asTurn, advance, ok_bind, pure,
      Except.pure]
  | startLine | headers | chunkLine | chunkDataEnd | trailers | completePending | complete
  | opaquePending | opaqueData | failed => simp [isBody, hs] at hb

/-- A piece of a body is so many bytes. -/
theorem reaches_piece (endOfInput : Bool) : ∀ n {m : Http1Message} {input : List UInt8},
    m.HasRoom n → n ≤ input.length →
      Reaches byteTurn endOfInput m input (bytewise (.body (input.take n))) (m.advance n) (input.drop n)
  | 0, m, input, _, _ => by
    rw [advance_zero]
    exact .refl
  | n + 1, m, [], _, h => absurd h (by simp)
  | n + 1, m, byte :: input, hroom, h => by
    have hroom : m.HasRoom (1 + n) := by rwa [Nat.add_comm]
    have hone : m.HasRoom 1 := ⟨hroom.1, hroom.2.1.imp_right fun h => by omega, by have := hroom.2.2; omega⟩
    have hrest := reaches_piece endOfInput n hroom.advance (Nat.le_of_succ_le_succ h)
    rw [advance_advance, Nat.add_comm 1 n] at hrest
    exact .step (byteTurn_byte hone byte input endOfInput) hrest

theorem byteTurn_of_not_body (hb : m.isBody = false) :
    byteTurn m input endOfInput = asTurn (m.turn input endOfInput) := by
  rw [byteTurn, hb]
  rfl

/-- A turn with an event is some bytewise turns. -/
theorem turn_emits {m : Http1Message} (hm : m.Sound)
    (h : m.turn input endOfInput = .ok (.emit event m' n)) :
    Reaches byteTurn endOfInput m input (bytewise event) m' (input.drop n) := by
  have hd := hm.decoded_le
  have hmoves := turn_moves h
  generalize ht : Http1Turn.emit event m' n = t at hmoves
  cases hb : m.isBody with
  | false =>
    have hturn : byteTurn m input endOfInput = _ := byteTurn_of_not_body hb
    rw [h] at hturn
    have hevent : bytewise event = [event] := by
      cases hmoves with
      | wait | startLine | field | lastChunk | chunk | chunkEnd | chunkCrlf | trailer => cases ht
      | head hs hl hf hh =>
        cases ht
        obtain ⟨first, parser, -, -, rfl⟩ := selectFraming_ok hh
        cases first <;> rfl
      | piece hs => rcases hs with hs | hs <;> simp [isBody, hs] at hb
      | closePiece hs => simp [isBody, hs] at hb
      | fixedEnd | trailers | closeEnd | completion =>
        cases ht
        rfl
    rw [hevent]
    exact .single hturn
  | true =>
    cases hmoves with
    | wait | startLine | field | lastChunk | chunk | chunkEnd | chunkCrlf | trailer => cases ht
    | head hs | trailers hs => simp [isBody, hs] at hb
    | completion hs => rcases hs with hs | hs <;> simp [isBody, hs] at hb
    | fixedEnd hs hr =>
      cases ht
      refine .single ?_
      simp only [byteTurn, turn, hs, readFixedBody, if_pos hr]
      rfl
    | closeEnd hs hi he =>
      cases ht
      subst hi he
      refine .single ?_
      rw [byteTurn, List.take_nil, ite_self]
      simp only [turn, hs, readCloseBody]
      rfl
    | @piece _ m₁ hs hr hi hn ha =>
      cases ht
      obtain ⟨hle, rfl⟩ := accountBody_ok ha
      have hclose : m.state ≠ .closeBody := by
        rcases hs with hs | hs <;> simp [hs]
      have hroom : m.HasRoom n := ⟨hb, .inr (by omega), by omega⟩
      have hreach := reaches_piece endOfInput n hroom (show n ≤ input.length by omega)
      rwa [advance, if_neg hclose] at hreach
    | closePiece hs hi hn ha =>
      cases ht
      obtain ⟨hle, rfl⟩ := accountBody_ok ha
      have hroom : m.HasRoom n := ⟨hb, .inl hs, by omega⟩
      have hreach := reaches_piece endOfInput n hroom (show n ≤ input.length by omega)
      rwa [advance, if_pos hs] at hreach

/-- A turn without an event is a bytewise turn. -/
theorem turn_goes {m : Http1Message} (h : m.turn input endOfInput = .ok (.again m' n)) :
    Reaches byteTurn endOfInput m input [] m' (input.drop n) := by
  have hmoves := turn_moves h
  generalize ht : Http1Turn.again m' n = t at hmoves
  cases hb : m.isBody with
  | false =>
    have hturn : byteTurn m input endOfInput = _ := byteTurn_of_not_body hb
    rw [h] at hturn
    exact .single hturn
  | true =>
    cases hmoves with
    | wait | head | fixedEnd | piece | trailers | closePiece | closeEnd | completion => cases ht
    | startLine hs | field hs | lastChunk hs | chunk hs | chunkCrlf hs | trailer hs =>
      simp [isBody, hs] at hb
    | chunkEnd hs hr =>
      cases ht
      refine .single ?_
      simp only [byteTurn, turn, hs, readChunkData, if_pos hr]
      rfl

theorem waitOrFail_error (h : waitOrFail endOfInput message = .error e) : endOfInput = true := by
  rw [waitOrFail] at h
  split at h
  case isTrue he => exact he
  case isFalse => cases h

/-- Only a message that is not in the middle of a body, or that has no input, can wait. -/
theorem turn_waits {m : Http1Message} (h : m.turn input endOfInput = .ok .wait) :
    byteTurn m input endOfInput = .wait := by
  cases hb : m.isBody with
  | false =>
    rw [byteTurn_of_not_body hb, h]
    rfl
  | true =>
    have hi : input = [] := by
      by_contra hi
      have hpiece : ∀ message, m.readBodyPiece input endOfInput message ≠ .ok .wait := by
        intro message hp
        rw [readBodyPiece, if_neg hi] at hp
        obtain ⟨m', -, hp⟩ := bind_eq_ok hp
        cases hp
      cases hs : m.state with
      | fixedBody =>
        simp only [turn, hs, readFixedBody] at h
        split at h
        case isTrue => cases h
        case isFalse => exact hpiece _ h
      | chunkData =>
        simp only [turn, hs, readChunkData] at h
        split at h
        case isTrue => cases h
        case isFalse => exact hpiece _ h
      | closeBody =>
        simp only [turn, hs, readCloseBody, if_pos hi] at h
        obtain ⟨m', -, hp⟩ := bind_eq_ok h
        cases hp
      | startLine | headers | chunkLine | chunkDataEnd | trailers | completePending | complete
      | opaquePending | opaqueData | failed => simp [isBody, hs] at hb
    subst hi
    rw [byteTurn, List.take_nil, if_pos hb, h]
    rfl

theorem readBodyPiece_fails {m : Http1Message} (hs : m.Sound) (hst : m.state = .fixedBody ∨ m.state = .chunkData)
    (h : m.readBodyPiece input endOfInput message = .error e) : input = [] := by
  by_contra hi
  have hbound := hs.remaining_le hst
  rw [readBodyPiece, if_neg hi] at h
  simp only at h
  rw [accountBody_of_le (by omega), ok_bind] at h
  cases h

/-- A bytewise turn fails where a turn fails, except that some more bytes of a body may come first
when the end of the connection ends the body. -/
theorem turn_fails {m : Http1Message} (hs : m.Sound) (h : m.turn input endOfInput = .error e) :
    m.state ≠ .closeBody ∧ byteTurn m input endOfInput = .fail ∨
    m.state = .closeBody ∧ m.limits.maximumBodyLength.toNat < m.bodyDecoded + input.length := by
  cases hst : m.state with
  | fixedBody | chunkData =>
    have hi : input = [] := by
      simp only [turn, hst, readFixedBody, readChunkData] at h
      split at h
      case isTrue => cases h
      case isFalse => exact readBodyPiece_fails hs (by simp [hst]) h
    subst hi
    refine .inl ⟨by simp, ?_⟩
    rw [byteTurn, List.take_nil, ite_self, h]
    rfl
  | closeBody =>
    refine .inr ⟨rfl, ?_⟩
    simp only [turn, hst, readCloseBody] at h
    have hd := hs.decoded_le
    split_ifs at h with hi he
    by_contra hle
    rw [accountBody_of_le (by omega), ok_bind] at h
    cases h
  | startLine | headers | chunkLine | chunkDataEnd | trailers | completePending | complete
  | opaquePending | opaqueData | failed =>
    refine .inl ⟨by simp, ?_⟩
    rw [byteTurn_of_not_body (by simp [isBody, hst]), h]
    rfl

/-- A body that is too long fails bytewise after the bytes that fit. -/
theorem reaches_tooLong {m : Http1Message} (hs : m.Sound) (hst : m.state = .closeBody)
    (h : m.limits.maximumBodyLength.toNat < m.bodyDecoded + input.length) (endOfInput : Bool) :
    ∃ n, n < input.length ∧
      Reaches byteTurn endOfInput m input (bytewise (.body (input.take n))) (m.advance n)
        (input.drop n) ∧
      byteTurn (m.advance n) (input.drop n) endOfInput = .fail := by
  have hd := hs.decoded_le
  obtain ⟨n, hn⟩ := Nat.exists_eq_add_of_le hd
  have hb : m.isBody := by simp [isBody, hst]
  refine ⟨n, by omega, reaches_piece endOfInput n ⟨hb, .inl hst, by omega⟩ (by omega), ?_⟩
  have hb' : (m.advance n).isBody := by simp [isBody, hst]
  have hst' : (m.advance n).state = .closeBody := by rw [advance_state, hst]
  match hrest : input.drop n with
  | [] => exact absurd (List.drop_eq_nil_iff.mp hrest) (by omega)
  | byte :: rest =>
    have hfull : ¬ 1 ≤ (m.advance n).limits.maximumBodyLength.toNat -
        min (m.advance n).bodyDecoded (m.advance n).limits.maximumBodyLength.toNat := by
      rw [advance_limits, advance_bodyDecoded]
      omega
    have hmin : min 1 Http1CodecLimits.maximumBodyChunkLength = 1 := by decide
    rw [byteTurn, if_pos hb']
    simp only [turn, hst', readCloseBody, List.take_succ_cons, List.take_zero, List.length_singleton,
      hmin, accountBody, if_pos (not_le.mp hfull)]
    rfl

end Http1Message
end ErbslandCore.Network
