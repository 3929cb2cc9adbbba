import ErbslandCore.Cryptology.Symmetric.SymmetricEncryptor

namespace ErbslandCore.Cryptology
open Library BlockStream
set_option autoImplicit true

namespace SymmetricCall

/-- All authenticated data of the calls. -/
def authenticatedData : List SymmetricCall → List UInt8
  | [] => []
  | .addAuthenticatedData data :: calls => data ++ authenticatedData calls
  | .transform _ :: calls => authenticatedData calls

/-- All payload of the calls. -/
def payload : List SymmetricCall → List UInt8
  | [] => []
  | .addAuthenticatedData _ :: calls => payload calls
  | .transform data :: calls => data ++ payload calls

/-- The authenticated data before the first call with payload, which may be empty. -/
def earlyData : List SymmetricCall → List UInt8
  | [] => []
  | .addAuthenticatedData data :: calls => data ++ earlyData calls
  | .transform _ :: _ => []

/-- The authenticated data after the first call with payload. -/
def lateData : List SymmetricCall → List UInt8
  | [] => []
  | .addAuthenticatedData _ :: calls => lateData calls
  | .transform _ :: calls => authenticatedData calls

theorem authenticatedData_eq (calls : List SymmetricCall) :
    authenticatedData calls = earlyData calls ++ lateData calls := by
  induction calls with
  | nil => rfl
  | cons call calls ih =>
    cases call with
    | addAuthenticatedData data => rw [authenticatedData, earlyData, lateData, ih, List.append_assoc]
    | transform data => rfl

/-- What a facade lets through in a state, after the given lengths. -/
def Admissible (type : SymmetricEncryptionType) :
    SymmetricState → Nat → Nat → List SymmetricCall → Prop
  | _, _, _, [] => True
  | state, a, c, .addAuthenticatedData data :: calls =>
    state = .active ∧ a + data.length ≤ type.maximumAuthenticatedDataLength ∧
      Admissible type state (a + data.length) c calls
  | state, a, c, .transform data :: calls =>
    c + data.length ≤ type.maximumPayloadLength ∧
      Admissible type (if data = [] then state else .payload) a (c + data.length) calls

theorem Admissible.no_authenticatedData (h : Admissible type .payload a c calls) :
    authenticatedData calls = [] := by
  induction calls generalizing a c with
  | nil => rfl
  | cons call calls ih =>
    cases call with
    | addAuthenticatedData data => exact absurd h.1 (by decide)
    | transform data =>
      obtain ⟨_, h⟩ := h
      rw [ite_self] at h
      exact ih h

/-- Authenticated data only follows a call with payload where that payload is empty. -/
theorem Admissible.piece_comm (h : Admissible type state a c (.transform data :: calls))
    (hl : piece.length = data.length) :
    piece ++ authenticatedData calls = authenticatedData calls ++ piece := by
  obtain ⟨_, h⟩ := h
  by_cases hd : data = []
  · have he : piece = [] := List.eq_nil_of_length_eq_zero (by rw [hl, hd]; rfl)
    rw [he, List.nil_append, List.append_nil]
  · rw [if_neg hd] at h
    rw [h.no_authenticatedData, List.nil_append, List.append_nil]

theorem Admissible.length_le (h : Admissible type state a c calls)
    (ha : a ≤ type.maximumAuthenticatedDataLength) (hc : c ≤ type.maximumPayloadLength) :
    a + (authenticatedData calls).length ≤ type.maximumAuthenticatedDataLength ∧
      c + (payload calls).length ≤ type.maximumPayloadLength := by
  induction calls generalizing state a c with
  | nil => exact ⟨ha, hc⟩
  | cons call calls ih =>
    cases call with
    | addAuthenticatedData data =>
      obtain ⟨_, hl, h⟩ := h
      obtain ⟨h₁, h₂⟩ := ih h hl hc
      rw [authenticatedData, payload, List.length_append]
      exact ⟨by omega, h₂⟩
    | transform data =>
      obtain ⟨hl, h⟩ := h
      obtain ⟨h₁, h₂⟩ := ih h ha hl
      rw [authenticatedData, payload, List.length_append]
      exact ⟨h₁, by omega⟩

end SymmetricCall

namespace SymmetricDirection
open SymmetricCall

variable {p : AeadPrimitives} {type : SymmetricEncryptionType} {key nonce : List UInt8}
  {d : SymmetricDirection} {i : Intake}

/-- A facade that takes calls, over a cipher state that took in the given bytes. -/
structure Holds (p : AeadPrimitives) (type : SymmetricEncryptionType) (key nonce : List UInt8)
    (i : Intake) (d : SymmetricDirection) : Prop where
  backend : ∃ data, d.data = some data ∧ data.type = type ∧ data.state.Holds p type key nonce i
  running : d.state = .active ∨ d.state = .payload
  active : d.state = .active → type.isAes = false → i.started = false
  authenticated : i.authenticatedLength ≤ type.maximumAuthenticatedDataLength
  payload : i.payloadLength ≤ type.maximumPayloadLength

theorem Holds.usable (h : Holds p type key nonce i d) (role : SymmetricRole) :
    ∃ data, d.requireUsable role = .ok data ∧ d.data = some data ∧ data.type = type ∧
      data.state.Holds p type key nonce i := by
  obtain ⟨data, hd, ht, hs⟩ := h.backend
  refine ⟨data, ?_, hd, ht, hs⟩
  have hn : d.state ≠ .failed := by
    rcases h.running with hr | hr <;> rw [hr] <;> decide
  unfold requireUsable
  rw [hd]
  exact if_neg hn

theorem isAead_eq (type : SymmetricEncryptionType) : type.isAead = true := by
  cases type <;> rfl

theorem holds_create (p : AeadPrimitives) (type : SymmetricEncryptionType) (key nonce : List UInt8) :
    Holds p type key nonce {} ⟨some { type := type, state := .create p type key nonce }, .active⟩ :=
  ⟨⟨_, rfl, rfl, AeadState.holds_create p type key nonce⟩, .inl rfl, fun _ _ => rfl, Nat.zero_le _,
    Nat.zero_le _⟩

/-- What the facade does with a call: it goes on, or it throws. -/
theorem Holds.addAuthenticatedData (h : Holds p type key nonce i d) (role : SymmetricRole)
    (data : List UInt8) :
    (d.state = .active ∧ i.authenticatedLength + data.length ≤ type.maximumAuthenticatedDataLength ∧
      ∃ d', d.addAuthenticatedData p role data = (d', .ok ()) ∧
        Holds p type key nonce (i.authenticate data) d' ∧ d'.state = d.state) ∨
    (¬(d.state = .active ∧
        i.authenticatedLength + data.length ≤ type.maximumAuthenticatedDataLength) ∧
      ∃ error, (d.addAuthenticatedData p role data).2 = .error error) := by
  obtain ⟨backend, hu, hd, ht, hs⟩ := h.usable role
  have haead : ¬backend.type.isAead = false := by
    rw [isAead_eq]
    decide
  unfold SymmetricDirection.addAuthenticatedData
  simp only [hu, haead]
  by_cases ha : d.state = .active
  · rw [if_neg (not_not.mpr ha)]
    by_cases hl : i.authenticatedLength + data.length ≤ type.maximumAuthenticatedDataLength
    · obtain ⟨s', hadd, hh⟩ := hs.addAuthenticatedData (h.active ha) hl
      rw [hadd]
      exact .inl ⟨ha, hl, _, rfl, ⟨⟨_, rfl, ht, hh⟩, h.running, h.active, hl, h.payload⟩, rfl⟩
    · obtain ⟨error, he⟩ := hs.addAuthenticatedData_error h.authenticated hl
      rw [he]
      exact .inr ⟨fun hc => hl hc.2, error, rfl⟩
  · rw [if_pos ha]
    exact .inr ⟨fun hc => ha hc.1, _, rfl⟩

theorem Holds.transform (h : Holds p type key nonce i d) (role : SymmetricRole) (data : List UInt8) :
    (i.payloadLength + data.length ≤ type.maximumPayloadLength ∧
      ∃ d', d.transform p role data =
          (d', .ok (xorStream (Aead.stream p type key nonce) i.payloadLength data)) ∧
        Holds p type key nonce (i.transform type.isAes (if role.encrypting then
          xorStream (Aead.stream p type key nonce) i.payloadLength data else data)) d' ∧
        d'.state = if data = [] then d.state else .payload) ∨
    (¬i.payloadLength + data.length ≤ type.maximumPayloadLength ∧
      ∃ error, (d.transform p role data).2 = .error error) := by
  obtain ⟨backend, hu, hd, ht, hs⟩ := h.usable role
  have hfin : d.state ≠ .finalized := by
    rcases h.running with hr | hr <;> rw [hr] <;> decide
  unfold SymmetricDirection.transform
  simp only [hu, if_neg hfin]
  by_cases hl : i.payloadLength + data.length ≤ type.maximumPayloadLength
  · obtain ⟨s', htr, hh⟩ := hs.transform hl role.encrypting
    rw [htr]
    refine .inl ⟨hl, _, rfl, ⟨⟨_, rfl, ht, hh⟩, ?_, ?_, ?_, ?_⟩, rfl⟩
    · change (if data = [] then d.state else _) = _ ∨ (if data = [] then d.state else _) = _
      split
      · exact h.running
      · exact .inr rfl
    · intro hstate hnaes
      change (if data = [] then d.state else _) = _ at hstate
      by_cases hd : data = []
      · rw [if_pos hd] at hstate
        have he : (if role.encrypting then
            xorStream (Aead.stream p type key nonce) i.payloadLength data else data) = [] :=
          List.eq_nil_of_length_eq_zero (by rw [length_ite_xorStream, hd]; rfl)
        rw [he, Intake.transform, if_pos ⟨hnaes, rfl⟩]
        exact h.active hstate hnaes
      · rw [if_neg hd] at hstate
        exact absurd hstate (by decide)
    · rw [Intake.transform_authenticatedLength]
      exact h.authenticated
    · rw [Intake.transform_payloadLength, length_ite_xorStream]
      exact hl
  · obtain ⟨error, he⟩ := hs.transform_error h.payload hl role.encrypting
    rw [he]
    exact .inr ⟨hl, error, rfl⟩

end SymmetricDirection

namespace Intake
open SymmetricCall

/-- What an authenticator takes in over the calls; the payload is the ciphertext, or becomes it. -/
def calls (isAes : Bool) (stream : Nat → UInt8) (encrypting : Bool) (i : Intake) :
    List SymmetricCall → Intake
  | [] => i
  | .addAuthenticatedData data :: rest => calls isAes stream encrypting (i.authenticate data) rest
  | .transform data :: rest =>
    calls isAes stream encrypting (i.transform isAes
      (if encrypting then xorStream stream i.payloadLength data else data)) rest

end Intake

namespace SymmetricDirection
open SymmetricCall

variable {p : AeadPrimitives} {type : SymmetricEncryptionType} {key nonce : List UInt8}
  {d : SymmetricDirection} {i : Intake}

/-- The calls that are admitted run, the others end in an error. -/
theorem Holds.run (h : Holds p type key nonce i d) (role : SymmetricRole)
    (calls : List SymmetricCall) :
    (Admissible type d.state i.authenticatedLength i.payloadLength calls →
      ∃ d', d.run p role calls =
          .ok (xorStream (Aead.stream p type key nonce) i.payloadLength (SymmetricCall.payload calls), d') ∧
        Holds p type key nonce
          (i.calls type.isAes (Aead.stream p type key nonce) role.encrypting calls) d') ∧
    (¬Admissible type d.state i.authenticatedLength i.payloadLength calls →
      ∃ error, d.run p role calls = .error error) := by
  induction calls generalizing d i with
  | nil => exact ⟨fun _ => ⟨d, rfl, h⟩, fun hn => absurd trivial hn⟩
  | cons c calls ih =>
    cases c with
    | addAuthenticatedData data =>
      rcases h.addAuthenticatedData role data with ⟨ha, hl, d', hcall, hh, hstate⟩ | ⟨hn, error, he⟩
      · obtain ⟨hok, herr⟩ := ih hh
        rw [hstate] at hok herr
        constructor
        · rintro ⟨_, _, hadm⟩
          obtain ⟨d'', hrun, hh'⟩ := hok hadm
          refine ⟨d'', ?_, hh'⟩
          simp only [SymmetricDirection.run, call, hcall, Except.map, hrun]
          rfl
        · intro hnot
          obtain ⟨error, he⟩ := herr fun hadm => hnot ⟨ha, hl, hadm⟩
          refine ⟨error, ?_⟩
          simp only [SymmetricDirection.run, call, hcall, Except.map, he]
      · refine ⟨fun hadm => absurd ⟨hadm.1, hadm.2.1⟩ hn, fun _ => ⟨error, ?_⟩⟩
        simp only [SymmetricDirection.run, call, he, Except.map]
    | transform data =>
      rcases h.transform role data with ⟨hl, d', hcall, hh, hstate⟩ | ⟨hn, error, he⟩
      · obtain ⟨hok, herr⟩ := ih hh
        rw [hstate, Intake.transform_payloadLength, Intake.transform_authenticatedLength,
          length_ite_xorStream] at hok herr
        constructor
        · rintro ⟨_, hadm⟩
          obtain ⟨d'', hrun, hh'⟩ := hok hadm
          refine ⟨d'', ?_, hh'⟩
          simp only [SymmetricDirection.run, call, hcall, hrun, Except.map, SymmetricCall.payload,
            xorStream_append]
        · intro hnot
          obtain ⟨error, he⟩ := herr fun hadm => hnot ⟨hl, hadm⟩
          refine ⟨error, ?_⟩
          simp only [SymmetricDirection.run, call, hcall, Except.map, he]
      · refine ⟨fun hadm => absurd hadm.1 hn, fun _ => ⟨error, ?_⟩⟩
        have hcall : d.transform p role data = ((d.transform p role data).1, .error error) :=
          Prod.ext rfl he
        simp only [SymmetricDirection.run, call]
        rw [hcall]

/-- A new object accepts exactly the calls that are admitted from the start. -/
theorem process_accepts (p : AeadPrimitives) (role : SymmetricRole) :
    (∃ r, process p role type key nonce calls = .ok r) ↔
      key.length = type.keyLength ∧ nonce.length = 12 ∧ Admissible type .active 0 0 calls := by
  unfold process create SymmetricEncryptionType.nonceLength
  simp only [isAead_eq, if_true, Bool.true_eq_false, if_false]
  by_cases hk : key.length = type.keyLength
  · by_cases hn : nonce.length = 12
    · rw [if_neg (not_not.mpr hk), if_neg (not_not.mpr hn), ok_bind]
      obtain ⟨hok, herr⟩ := (holds_create p type key nonce).run role calls
      constructor
      · rintro ⟨r, hr⟩
        refine ⟨hk, hn, ?_⟩
        by_contra hnot
        obtain ⟨error, he⟩ := herr hnot
        rw [he] at hr
        cases hr
      · rintro ⟨_, _, hadm⟩
        obtain ⟨d', hr, _⟩ := hok hadm
        exact ⟨_, hr⟩
    · rw [if_neg (not_not.mpr hk), if_pos hn]
      refine ⟨?_, fun h => absurd h.2.1 hn⟩
      rintro ⟨r, hr⟩
      cases hr
  · rw [if_pos hk]
    refine ⟨?_, fun h => absurd h.1 hk⟩
    rintro ⟨r, hr⟩
    cases hr

/-- The run of admitted calls from a new object. -/
theorem process_ok (p : AeadPrimitives) (role : SymmetricRole) (hk : key.length = type.keyLength)
    (hn : nonce.length = 12) (h : Admissible type .active 0 0 calls) :
    ∃ d, process p role type key nonce calls =
        .ok (xorStream (Aead.stream p type key nonce) 0 (payload calls), d) ∧
      Holds p type key nonce
        (Intake.calls type.isAes (Aead.stream p type key nonce) role.encrypting {} calls) d := by
  obtain ⟨d, hr, hh⟩ := ((holds_create p type key nonce).run role calls).1 h
  refine ⟨d, ?_, hh⟩
  unfold process create SymmetricEncryptionType.nonceLength
  simp only [isAead_eq, if_true, Bool.true_eq_false, if_false]
  rw [if_neg (not_not.mpr hk), if_neg (not_not.mpr hn), ok_bind]
  exact hr

end SymmetricDirection
end ErbslandCore.Cryptology
