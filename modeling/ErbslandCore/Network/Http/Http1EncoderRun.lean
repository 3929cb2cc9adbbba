import ErbslandCore.Network.Http.Http1EncoderOutput

namespace ErbslandCore.Network
open Library Mem Text
set_option autoImplicit true

/-- A fragment of a body as a chunk on the wire. -/
def chunkOf (data : List UInt8) : List UInt8 :=
  Http1Encoder.hexDigits 16 data.length ++ crlf ++ data ++ crlf

/-- The fragments of a chunked body have data, and their size has at most four digits. -/
def IsFragment (data : List UInt8) : Prop :=
  data ≠ [] ∧ data.length ≤ Http1CodecLimits.maximumBodyChunkLength

/-- A body on the wire, as it is encoded. -/
inductive EncodedBody : Http1BodyFraming → List UInt8 → List UInt8 → Prop where
  | nothing (hf : framing = .none ∨ framing = .opaqueData) : EncodedBody framing [] []
  | plain (hf : framing = .fixedLength ∨ framing = .closeDelimited) : EncodedBody framing body body
  | chunked (fragments : List (List UInt8)) (hf : ∀ data ∈ fragments, IsFragment data) :
      EncodedBody .chunked fragments.flatten (fragments.flatMap chunkOf)

/-- The end of a message on the wire, which only a chunked body needs. -/
inductive EncodedEnd (limits : HttpHeaderLimits) :
    Http1BodyFraming → Bool → List HttpField → List UInt8 → Prop where
  | unfinished : EncodedEnd limits framing false [] []
  | plain (hf : framing ≠ .chunked) : EncodedEnd limits framing true [] []
  | chunked (ha : limits.Admits trailers) (hu : ∀ field ∈ trailers, field.name.type.isKnown = false) :
      EncodedEnd limits .chunked true trailers
        (0x30 :: crlf ++ wireLines (trailers.map fieldLine) ++ crlf)

namespace Http1Encoder

theorem length_chunkOf (h : IsFragment data) : (chunkOf data).length = chunkWireLength data.length := by
  obtain ⟨hne, hle⟩ := h
  have hpos := List.length_pos_iff.mpr hne
  have hpow : data.length < 16 ^ 16 := by
    rw [Http1CodecLimits.maximumBodyChunkLength] at hle
    omega
  rw [chunkOf, List.length_append, List.length_append, List.length_append, length_hexDigits hpow hpos,
    chunkWireLength, crlf, List.length_cons, List.length_singleton]
  omega

theorem bodyTexts_chunked {e : Http1Encoder} (h : e.framing = .chunked) (bytes : List UInt8) :
    (e.bodyTexts bytes).flatten = chunkOf bytes := by
  rw [bodyTexts, if_pos h]
  simp [chunkOf, crlf, U8String.ofLiteral]

theorem bodyTexts_plain {e : Http1Encoder} (h : e.framing ≠ .chunked) (bytes : List UInt8) :
    (e.bodyTexts bytes).flatten = bytes := by
  rw [bodyTexts, if_neg h, List.flatten_singleton]

theorem length_bodyTexts {e : Http1Encoder} (h : e.framing = .chunked → IsFragment bytes) :
    (e.bodyTexts bytes).flatten.length = e.bodyWireLength bytes := by
  rw [bodyWireLength]
  split
  case isTrue hc => rw [bodyTexts_chunked hc, length_chunkOf (h hc)]
  case isFalse hc => rw [bodyTexts_plain hc]

/-- What a fragment does to an encoder that accepts it. -/
structure Wrote (e : Http1Encoder) (bytes : List UInt8) (e' : Http1Encoder) : Prop where
  incomplete : e.complete = false
  hasBody : e.framing ≠ .none ∧ e.framing ≠ .opaqueData
  fragment : e.framing = .chunked → IsFragment bytes
  written_le : bytes.length ≤
    e.limits.maximumBodyLength.toNat - min e.bodyWritten e.limits.maximumBodyLength.toNat
  remaining_le : e.framing = .fixedLength → bytes.length ≤ e.bodyRemaining
  after : ∃ output, output.contents = e.output.contents ++ (e.bodyTexts bytes).flatten ∧ e' = { e with
    output := output
    bodyWritten := e.bodyWritten + bytes.length
    bodyRemaining :=
      if e.framing = .fixedLength then e.bodyRemaining - bytes.length else e.bodyRemaining }

theorem writeBody_ok {e e' : Http1Encoder} (h : e.writeBody bytes = .ok (status, e')) :
    e' = e ∧ (status = .accepted → bytes = []) ∨ status = .accepted ∧ e.Wrote bytes e' := by
  rw [writeBody] at h
  split_ifs at h with hclosed hfragment hmaximum hfixed hempty
  · cases h
    exact .inl ⟨rfl, fun hs => (by cases hs)⟩
  · cases h
  · cases h
  · cases h
  · cases h
    exact .inl ⟨rfl, fun _ => hempty.2⟩
  have hchunk : e.framing = .chunked → IsFragment bytes := by
    intro hc
    exact ⟨fun hnil => hempty ⟨hc, hnil⟩, not_lt.mp hfragment⟩
  simp only [not_or, Bool.not_eq_true] at hclosed
  rcases queue_ok (e := e) (length_bodyTexts hchunk) with hqueue | ⟨output, hqueue, hcontents⟩
  · rw [hqueue] at h
    cases h
    exact .inl ⟨rfl, fun hs => (by cases hs)⟩
  · rw [hqueue] at h
    cases h
    refine .inr ⟨rfl, hclosed.1, hclosed.2, hchunk, not_lt.mp hmaximum, ?_, output, hcontents, rfl⟩
    intro hf
    exact not_lt.mp fun hlong => hfixed ⟨hf, hlong⟩

theorem trailerWireLength_ok {e : Http1Encoder} (h : e.trailerWireLength trailers = .ok length) :
    e.limits.trailerLimits.Admits trailers.fields ∧
      (∀ field ∈ trailers.fields, field.name.type.isKnown = false) ∧
      length = serializedLength trailers.fields := by
  rw [trailerWireLength] at h
  obtain ⟨_, hvalid, h⟩ := bind_eq_ok h
  split at h
  case isTrue => cases h
  case isFalse hknown =>
    cases h
    refine ⟨validateFields_admits hvalid, ?_, rfl⟩
    intro field hf
    by_contra hk
    exact hknown (List.any_eq_true.mpr ⟨field, hf, by simpa using hk⟩)

theorem endTexts_chunked {e : Http1Encoder} (h : e.framing = .chunked) (trailers : HttpHeaders) :
    (e.endTexts trailers).flatten =
      0x30 :: crlf ++ wireLines (trailers.fields.map fieldLine) ++ crlf := by
  rw [endTexts, if_pos h, List.cons_append, List.flatten_cons, List.flatten_append,
    flatten_headerTexts]
  simp [crlf, U8String.ofLiteral]

/-- What the end of a message does to an encoder that accepts it. -/
structure Ended (e : Http1Encoder) (trailers : List HttpField) (e' : Http1Encoder) : Prop where
  incomplete : e.complete = false
  remaining : e.framing = .fixedLength → e.bodyRemaining = 0
  after : ∃ output ending, output.contents = e.output.contents ++ ending ∧
    EncodedEnd e.limits.trailerLimits e.framing true trailers ending ∧
    e' = { e with output := output, complete := true }

theorem finish_ok {e e' : Http1Encoder} (h : e.finish trailers = .ok (status, e')) :
    e' = e ∧ status ≠ .accepted ∨ status = .accepted ∧ e.Ended trailers.fields e' := by
  rw [finish] at h
  split_ifs at h with hcomplete htrailers hremaining
  · cases h
    exact .inl ⟨rfl, by simp⟩
  · cases h
  · cases h
  rw [Bool.not_eq_true] at hcomplete
  have hfixed : e.framing = .fixedLength → e.bodyRemaining = 0 := by
    intro hf
    by_contra hr
    exact hremaining ⟨hf, hr⟩
  obtain ⟨required, hrequired, h⟩ := bind_eq_ok h
  have hend : (e.endTexts trailers).flatten.length = required ∧
      EncodedEnd e.limits.trailerLimits e.framing true trailers.fields (e.endTexts trailers).flatten := by
    rw [endWireLength] at hrequired
    split at hrequired
    case isTrue hc =>
      obtain ⟨length, hlength, hsum⟩ := bind_eq_ok hrequired
      cases hsum
      obtain ⟨hadmits, hunknown, rfl⟩ := trailerWireLength_ok hlength
      rw [endTexts_chunked hc, hc]
      refine ⟨?_, .chunked hadmits hunknown⟩
      rw [List.length_append, List.length_append, length_wireLines, crlf]
      simp only [List.length_cons, List.length_nil]
      omega
    case isFalse hc =>
      cases hrequired
      rw [endTexts, if_neg hc]
      have hnone : trailers.fields = [] := by
        by_contra hne
        exact htrailers ⟨hc, hne⟩
      rw [hnone]
      exact ⟨rfl, .plain hc⟩
  rcases queue_ok (e := e) hend.1 with hqueue | ⟨output, hqueue, hcontents⟩
  · rw [hqueue] at h
    cases h
    exact .inl ⟨rfl, by simp⟩
  · rw [hqueue] at h
    cases h
    exact .inr ⟨rfl, hcomplete, hfixed, output, _, hcontents, hend.2, rfl⟩

end Http1Encoder

theorem EncodedBody.append (h : EncodedBody framing body wire)
    (hbody : framing ≠ .none ∧ framing ≠ .opaqueData) (hf : framing = .chunked → IsFragment bytes) :
    EncodedBody framing (body ++ bytes)
      (wire ++ if framing = .chunked then chunkOf bytes else bytes) := by
  cases h with
  | nothing hn =>
    rcases hn with rfl | rfl
    · exact absurd rfl hbody.1
    · exact absurd rfl hbody.2
  | plain hp =>
    rw [if_neg (by rcases hp with rfl | rfl <;> simp)]
    exact .plain hp
  | chunked fragments hfragments =>
    have happend := EncodedBody.chunked (fragments ++ [bytes]) (by
      intro data hd
      rcases List.mem_append.mp hd with hd | hd
      · exact hfragments data hd
      · rw [List.mem_singleton.mp hd]
        exact hf rfl)
    rwa [List.flatten_append, List.flatten_singleton, List.flatMap_append, List.flatMap_singleton]
      at happend

theorem EncodedEnd.of_unfinished (h : EncodedEnd limits framing false trailers ending) : ending = [] := by
  cases h
  rfl

namespace Http1Encoding

/-- What an encoder wrote of a message since it wrote the head. -/
structure Sent (head : Http1Head) (limits : Http1CodecLimits) (begun : Http1Encoder)
    (s : Http1Encoding) : Prop where
  codecLimits : s.encoder.limits = limits
  framing : s.encoder.framing = begun.framing
  length : s.encoder.bodyWritten = s.body.length
  length_le : s.body.length ≤ limits.maximumBodyLength.toNat
  remaining : begun.framing = .fixedLength →
    s.body.length + s.encoder.bodyRemaining = begun.bodyRemaining
  exhausted : begun.framing = .fixedLength → s.encoder.complete = true → s.encoder.bodyRemaining = 0
  wire : ∃ wire ending, s.written = head.wire ++ wire ++ ending ∧
    EncodedBody begun.framing s.body wire ∧
    EncodedEnd limits.trailerLimits begun.framing s.encoder.complete s.trailers ending

theorem begun_sent {head : Http1Head} (h : head.Begun limits e) : Sent head limits e { encoder := e } := by
  have hbody : ∃ wire, wire = [] ∧ EncodedBody e.framing [] wire := by
    cases hf : e.framing with
    | none => exact ⟨[], rfl, .nothing (.inl rfl)⟩
    | opaqueData => exact ⟨[], rfl, .nothing (.inr rfl)⟩
    | fixedLength => exact ⟨[], rfl, .plain (.inl rfl)⟩
    | closeDelimited => exact ⟨[], rfl, .plain (.inr rfl)⟩
    | chunked => exact ⟨_, rfl, .chunked [] (by simp)⟩
  obtain ⟨_, rfl, hbody⟩ := hbody
  refine ⟨h.codecLimits, rfl, h.bodyWritten, Nat.zero_le _, fun _ => Nat.zero_add _, ?_, ?_⟩
  · intro _ hc
    rw [h.incomplete] at hc
    cases hc
  · refine ⟨[], [], ?_, hbody, ?_⟩
    · rw [written, h.contents, List.nil_append, List.append_nil, List.append_nil]
    · rw [h.incomplete]
      exact .unfinished

/-- A fragment is appended to the body. -/
theorem Sent.writeBody (h : Sent head limits begun s) (hw : s.encoder.Wrote bytes e) :
    Sent head limits begun { s with encoder := e, body := s.body ++ bytes } := by
  obtain ⟨hincomplete, hbody, hfragment, hle, hremaining, output, hcontents, rfl⟩ := hw
  have hlength := h.length_le
  obtain ⟨wire, ending, hwritten, hencoded, hend⟩ := h.wire
  obtain rfl := (hincomplete ▸ hend).of_unfinished
  rw [h.codecLimits, h.length] at hle
  rw [h.framing] at hbody hfragment hremaining
  refine ⟨h.codecLimits, h.framing, ?_, ?_, ?_, ?_, ?_⟩
  · show s.encoder.bodyWritten + bytes.length = (s.body ++ bytes).length
    rw [h.length, List.length_append]
  · show (s.body ++ bytes).length ≤ _
    rw [List.length_append]
    omega
  · intro hf
    have hsum := h.remaining hf
    have hfits := hremaining hf
    show (s.body ++ bytes).length + (if s.encoder.framing = .fixedLength then _ else _) = _
    rw [if_pos (h.framing.trans hf), List.length_append]
    omega
  · intro _ hc
    rw [show s.encoder.complete = true from hc] at hincomplete
    cases hincomplete
  · refine ⟨_, [], ?_, hencoded.append hbody hfragment, hend⟩
    show s.taken ++ output.contents = _
    rw [written, List.append_nil] at hwritten
    rw [hcontents, ← List.append_assoc, hwritten, List.append_nil, ← List.append_assoc]
    congr 1
    split
    case isTrue hc => exact Http1Encoder.bodyTexts_chunked (h.framing.trans hc) bytes
    case isFalse hc => exact Http1Encoder.bodyTexts_plain (fun hf => hc (h.framing.symm.trans hf)) bytes

/-- The end of the message is appended. -/
theorem Sent.finish {trailers : List HttpField} (h : Sent head limits begun s)
    (he : s.encoder.Ended trailers e) :
    Sent head limits begun { s with encoder := e, trailers := trailers } := by
  obtain ⟨hincomplete, hremaining, output, ending', hcontents, hended, rfl⟩ := he
  obtain ⟨wire, ending, hwritten, hencoded, hend⟩ := h.wire
  rw [hincomplete] at hend
  obtain rfl := hend.of_unfinished
  rw [h.codecLimits, h.framing] at hended
  refine ⟨h.codecLimits, h.framing, h.length, h.length_le, h.remaining, ?_, ?_⟩
  · intro hf _
    exact hremaining (h.framing.trans hf)
  · refine ⟨wire, ending', ?_, hencoded, hended⟩
    show s.taken ++ output.contents = _
    rw [written, List.append_nil] at hwritten
    rw [hcontents, ← List.append_assoc, hwritten]

/-- Output that is taken stays a part of what was written. -/
theorem Sent.takeOutput (h : Sent head limits begun s) (maximumLength : Nat) :
    Sent head limits begun (s.step (.takeOutput maximumLength)) := by
  obtain ⟨wire, ending, hwritten, hencoded, hend⟩ := h.wire
  obtain ⟨output, hread, hcontents, -⟩ := s.encoder.output.read_eq maximumLength
  simp only [Http1Encoding.step, Http1Encoder.takeOutput, hread, Option.getD_some]
  refine ⟨h.codecLimits, h.framing, h.length, h.length_le, h.remaining, h.exhausted, wire, ending, ?_,
    hencoded, hend⟩
  rw [← hwritten, written, written, hcontents, List.append_assoc, List.take_append_drop]

theorem Sent.step (h : Sent head limits begun s) (call : Http1EncoderCall) :
    Sent head limits begun (s.step call) := by
  cases call with
  | writeBody bytes =>
    rw [Http1Encoding.step]
    cases hw : s.encoder.writeBody bytes with
    | error => exact h
    | ok result =>
      obtain ⟨status, e⟩ := result
      rcases Http1Encoder.writeBody_ok hw with ⟨rfl, hnil⟩ | ⟨rfl, hwrote⟩
      · cases status with
        | accepted =>
          rw [hnil rfl]
          simp only [List.append_nil]
          exact h
        | wouldBlock | closed => exact h
      · exact h.writeBody hwrote
  | finish trailers =>
    rw [Http1Encoding.step]
    cases hw : s.encoder.finish trailers with
    | error => exact h
    | ok result =>
      obtain ⟨status, e⟩ := result
      rcases Http1Encoder.finish_ok hw with ⟨rfl, hstatus⟩ | ⟨rfl, hended⟩
      · cases status with
        | accepted => exact absurd rfl hstatus
        | wouldBlock | closed => exact h
      · exact h.finish hended
  | takeOutput maximumLength => exact h.takeOutput maximumLength

theorem Sent.run (h : Sent head limits begun s) (calls : List Http1EncoderCall) :
    Sent head limits begun (s.run calls) := by
  induction calls generalizing s with
  | nil => exact h
  | cons call calls ih => exact ih (h.step call)

end Http1Encoding
end ErbslandCore.Network
