import ErbslandCore.Cryptology.Tls.TlsRecordProtection

namespace ErbslandCore.Cryptology
open Library
set_option autoImplicit true

/-- A call for both sides of a connection: a record that is protected on one side and unprotected on
the other, or the next generation of keys on both. -/
inductive TlsRecordCall where
  | protect (type : TlsRecordContentType) (content : List UInt8) (paddingLength : Nat)
  | updateApplicationTrafficKeys
  deriving DecidableEq

/-- Both sides, what one protected and the other unprotected, and the nonces of the records with
their generation. -/
structure TlsRecordChannel where
  encryptor : TlsRecordDirection
  decryptor : TlsRecordDirection
  sent : List TlsRecordPlaintext := []
  received : List (Except TlsRecordFailure TlsRecordPlaintext) := []
  generation : Nat := 0
  nonces : List (Nat × List UInt8) := []

namespace TlsRecordChannel

def step (c : RecordCryptology) (s : TlsRecordChannel) : TlsRecordCall → TlsRecordChannel
  | .protect type content paddingLength =>
    match TlsRecordEncryptor.protect c s.encryptor type content paddingLength with
    | (.error _, e) => { s with encryptor := e }
    | (.ok record, e) =>
      let (result, d) := TlsRecordDecryptor.unprotect c s.decryptor record
      { s with
        encryptor := e
        decryptor := d
        sent := s.sent ++ [⟨type, content⟩]
        received := s.received ++ [result]
        nonces := s.nonces ++ [(s.generation, s.encryptor.elim [] (·.recordNonce))] }
  | .updateApplicationTrafficKeys =>
    { s with
      encryptor := (TlsRecordEncryptor.updateApplicationTrafficKeys c s.encryptor).2
      decryptor := (TlsRecordDecryptor.updateApplicationTrafficKeys c s.decryptor).2
      generation := s.generation + 1 }

def run (c : RecordCryptology) (calls : List TlsRecordCall) (s : TlsRecordChannel) : TlsRecordChannel :=
  calls.foldl (step c) s

end TlsRecordChannel

/-- A call of a decryptor, with any bytes for a record. -/
inductive TlsDecryptorCall where
  | unprotect (record : List UInt8)
  | updateApplicationTrafficKeys
  deriving DecidableEq

/-- A decryptor in use: the records of this generation that it accepted, the nonces under which it read
records, and whether it failed. -/
structure TlsRecordReceiver where
  decryptor : TlsRecordDirection
  accepted : Nat := 0
  failed : Bool := false
  generation : Nat := 0
  nonces : List (Nat × List UInt8) := []

namespace TlsRecordReceiver

def step (c : RecordCryptology) (s : TlsRecordReceiver) : TlsDecryptorCall → TlsRecordReceiver
  | .unprotect record =>
    let nonces := s.nonces ++ (s.decryptor.map fun d => (s.generation, d.recordNonce)).toList
    match TlsRecordDecryptor.unprotect c s.decryptor record with
    | (.ok _, d) => { s with decryptor := d, accepted := s.accepted + 1, nonces := nonces }
    | (.error _, d) => { s with decryptor := d, failed := true, nonces := nonces }
  | .updateApplicationTrafficKeys =>
    { s with
      decryptor := (TlsRecordDecryptor.updateApplicationTrafficKeys c s.decryptor).2
      accepted := 0
      generation := s.generation + 1 }

def run (c : RecordCryptology) (calls : List TlsDecryptorCall) (s : TlsRecordReceiver) :
    TlsRecordReceiver :=
  calls.foldl (step c) s

end TlsRecordReceiver

namespace TlsRecordEncryptor

/-- A record is protected with the keys of the state, or nothing is sent. -/
theorem protect_ok {c : RecordCryptology} {e e' : TlsRecordDirection}
    (h : protect c e type content paddingLength = (.ok record, e')) :
    ∃ s, e = some s ∧ e' = some s.recordSucceeded ∧ s.requireRecordAvailable = .ok () ∧
      IsProtectable type content paddingLength ∧
      protectRecord c s type content paddingLength = .ok record := by
  cases e with
  | none => cases h
  | some s =>
    rw [protect] at h
    split_ifs at h with hempty hlong
    · cases h
    · cases h
    rw [not_or, cMaximumInnerPlaintextLength] at hlong
    have hp : IsProtectable type content paddingLength := by
      refine ⟨fun hnil => ?_, by omega⟩
      by_contra hne
      exact hempty ⟨hnil, hne⟩
    cases hr : protectRecord c s type content paddingLength with
    | error f =>
      rw [hr] at h
      cases h
    | ok record' =>
      rw [hr] at h
      cases h
      refine ⟨s, rfl, rfl, ?_, hp, hr⟩
      rw [protectRecord] at hr
      obtain ⟨_, havailable, -⟩ := bind_eq_ok hr
      exact havailable

/-- A failure leaves the state, or it erases it because the keys are exhausted. -/
theorem protect_error {c : RecordCryptology} {e e' : TlsRecordDirection} {failure : TlsRecordFailure}
    (h : protect c e type content paddingLength = (.error failure, e')) : e' = e ∨ e' = none := by
  cases e with
  | none =>
    cases h
    exact .inl rfl
  | some s =>
    rw [protect] at h
    split_ifs at h with hempty hlong
    · cases h
      exact .inl rfl
    · cases h
      exact .inl rfl
    cases hr : protectRecord c s type content paddingLength with
    | error f =>
      rw [hr] at h
      cases h
      cases failure with
      | record => exact .inr rfl
      | logic | parameter => exact .inl rfl
    | ok record =>
      rw [hr] at h
      cases h

end TlsRecordEncryptor

namespace TlsRecordDirection

/-- The nonces of the current generation belong to the records before the next one. -/
structure Fresh (s : TlsRecordState) (generation : Nat) (nonces : List (Nat × List UInt8)) : Prop where
  sound : s.Sound
  nodup : nonces.Nodup
  earlier : ∀ entry ∈ nonces, entry.1 ≤ generation
  used : ∀ entry ∈ nonces, entry.1 = generation → ∃ s' : TlsRecordState, s'.Sound ∧
    s'.staticIv = s.staticIv ∧ s'.sequenceNumber < s.sequenceNumber ∧ entry.2 = s'.recordNonce

theorem Fresh.not_mem (h : Fresh s generation nonces) : (generation, s.recordNonce) ∉ nonces := by
  intro hmem
  obtain ⟨s', hs', hiv, hlt, hnonce⟩ := h.used _ hmem rfl
  have heq := TlsRecordState.recordNonce_inj h.sound hs' hiv.symm hnonce
  omega

theorem Fresh.append (h : Fresh s generation nonces) : (nonces ++ [(generation, s.recordNonce)]).Nodup := by
  rw [List.nodup_append]
  refine ⟨h.nodup, List.nodup_singleton _, fun entry he entry' he' => ?_⟩
  rintro rfl
  rw [List.mem_singleton.mp he'] at he
  exact h.not_mem he

/-- A record takes the next nonce. -/
theorem Fresh.next (h : Fresh s generation nonces)
    (hlt : s.sequenceNumber < TlsRecordState.cMaximumSequenceNumber) :
    Fresh s.recordSucceeded generation (nonces ++ [(generation, s.recordNonce)]) := by
  obtain ⟨hsound, hsequence⟩ := TlsRecordState.recordSucceeded_sound h.sound hlt
  refine ⟨hsound, h.append, fun entry he => ?_, fun entry he hg => ?_⟩
  · rcases List.mem_append.mp he with he | he
    · exact h.earlier entry he
    · rw [List.mem_singleton.mp he]
  · rcases List.mem_append.mp he with he | he
    · obtain ⟨s', hs', hiv, hlt', hnonce⟩ := h.used entry he hg
      exact ⟨s', hs', hiv, by omega, hnonce⟩
    · rw [List.mem_singleton.mp he]
      exact ⟨s, h.sound, rfl, by omega, rfl⟩

/-- No nonce of the next generation was used. -/
theorem Fresh.update {s' : TlsRecordState} (h : Fresh s generation nonces) (hs' : s'.Sound) :
    Fresh s' (generation + 1) nonces := by
  refine ⟨hs', h.nodup, fun entry he => Nat.le_succ_of_le (h.earlier entry he), fun entry he hg => ?_⟩
  have hle := h.earlier entry he
  omega

theorem update_some {c : RecordCryptology} (hc : c.Correct) (s : TlsRecordState) :
    ∃ s', s'.Sound ∧ s'.sequenceNumber = 0 ∧
      ∀ empty, TlsRecordDirection.updateApplicationTrafficKeys c empty (some s) = (.ok (), some s') := by
  obtain ⟨s', hs', hsound, hzero⟩ := TlsRecordState.updateApplicationTrafficKeys_sound hc s
  refine ⟨s', hsound, hzero, fun empty => ?_⟩
  rw [TlsRecordDirection.updateApplicationTrafficKeys]
  simp only [hs']

end TlsRecordDirection

/-- The records of the current generation. -/
def recordsOf (generation : Nat) (nonces : List (Nat × List UInt8)) : Nat :=
  (nonces.filter (·.1 = generation)).length

theorem recordsOf_concat (generation : Nat) (nonces : List (Nat × List UInt8)) (nonce : List UInt8) :
    recordsOf generation (nonces ++ [(generation, nonce)]) = recordsOf generation nonces + 1 := by
  simp [recordsOf]

theorem recordsOf_next (h : ∀ entry ∈ nonces, entry.1 ≤ generation) :
    recordsOf (generation + 1) nonces = 0 := by
  rw [recordsOf, List.length_eq_zero_iff, List.filter_eq_nil_iff]
  intro entry he
  have hle := h entry he
  simp only [decide_eq_true_eq]
  omega

namespace TlsRecordChannel
open TlsRecordDirection (Fresh)

/-- Both sides have the same state, until the encryptor fails. -/
structure InStep (s : TlsRecordChannel) (t : TlsRecordState) : Prop where
  decryptor : s.decryptor = some t
  encryptor : s.encryptor = none ∨ s.encryptor = some t
  received : s.received = s.sent.map .ok
  count : s.nonces.length = s.sent.length
  fresh : Fresh t s.generation s.nonces
  sequence : t.sequenceNumber = recordsOf s.generation s.nonces

theorem InStep.step {c : RecordCryptology} (hc : c.Correct) {s : TlsRecordChannel} (h : InStep s t)
    (call : TlsRecordCall) : ∃ t', InStep (s.step c call) t' := by
  cases call with
  | protect type content paddingLength =>
    rw [TlsRecordChannel.step]
    match hp : TlsRecordEncryptor.protect c s.encryptor type content paddingLength with
    | (.error failure, e) =>
      refine ⟨t, h.decryptor, ?_, h.received, h.count, h.fresh, h.sequence⟩
      rcases TlsRecordEncryptor.protect_error hp with rfl | rfl
      · exact h.encryptor
      · exact .inl rfl
    | (.ok record, e) =>
      obtain ⟨t', ht', rfl, havailable, hprotectable, hrecord⟩ := TlsRecordEncryptor.protect_ok hp
      obtain rfl : t = t' := by
        rcases h.encryptor with hnone | hsome
        · rw [hnone] at ht'
          cases ht'
        · exact Option.some_inj.mp (hsome.symm.trans ht')
      have hread := TlsRecordDecryptor.unprotectRecord_protectRecord hc hprotectable hrecord
      have hlt := TlsRecordState.requireRecordAvailable_lt h.fresh.sound havailable
      have hunprotect : TlsRecordDecryptor.unprotect c s.decryptor record =
          (.ok ⟨type, content⟩, some t.recordSucceeded) := by
        rw [h.decryptor, TlsRecordDecryptor.unprotect]
        simp only [hread]
      obtain ⟨-, hnext⟩ := TlsRecordState.recordSucceeded_sound h.fresh.sound hlt
      simp only [hunprotect, ht', Option.elim_some]
      refine ⟨t.recordSucceeded, rfl, .inr rfl, ?_, ?_, h.fresh.next hlt, ?_⟩
      · rw [h.received, List.map_append, List.map_singleton]
      · rw [List.length_append, List.length_append, h.count]
        rfl
      · rw [recordsOf_concat, hnext, h.sequence]
  | updateApplicationTrafficKeys =>
    obtain ⟨t', hsound, hzero, hupdate⟩ := TlsRecordDirection.update_some hc t
    rw [TlsRecordChannel.step, TlsRecordDecryptor.updateApplicationTrafficKeys, h.decryptor, hupdate]
    refine ⟨t', rfl, ?_, h.received, h.count, h.fresh.update hsound, ?_⟩
    · rcases h.encryptor with hnone | hsome
      · rw [hnone]
        exact .inl rfl
      · rw [hsome, TlsRecordEncryptor.updateApplicationTrafficKeys, hupdate]
        exact .inr rfl
    · rw [hzero, recordsOf_next h.fresh.earlier]

theorem InStep.run {c : RecordCryptology} (hc : c.Correct) {s : TlsRecordChannel} (h : InStep s t)
    (calls : List TlsRecordCall) : ∃ t', InStep (s.run c calls) t' := by
  induction calls generalizing s t with
  | nil => exact ⟨t, h⟩
  | cons call calls ih =>
    obtain ⟨t', h'⟩ := h.step hc call
    exact ih h'

end TlsRecordChannel

namespace TlsRecordReceiver
open TlsRecordDirection (Fresh)

/-- A failure is final, whatever is received. -/
structure Secure (s : TlsRecordReceiver) : Prop where
  nodup : s.nonces.Nodup
  live : ∀ t, s.decryptor = some t →
    s.failed = false ∧ t.sequenceNumber = s.accepted ∧ Fresh t s.generation s.nonces

theorem Secure.step {c : RecordCryptology} (hc : c.Correct) {s : TlsRecordReceiver} (h : Secure s)
    (call : TlsDecryptorCall) : Secure (s.step c call) := by
  cases hd : s.decryptor with
  | none =>
    cases call with
    | unprotect record =>
      rw [TlsRecordReceiver.step, hd]
      refine ⟨?_, fun t ht => (by cases ht)⟩
      simp only [Option.map_none, Option.toList_none, List.append_nil]
      exact h.nodup
    | updateApplicationTrafficKeys =>
      rw [TlsRecordReceiver.step, hd]
      exact ⟨h.nodup, fun t ht => (by cases ht)⟩
  | some t =>
    obtain ⟨hfailed, hsequence, hfresh⟩ := h.live t hd
    cases call with
    | unprotect record =>
      rw [TlsRecordReceiver.step, hd]
      simp only [Option.map_some, Option.toList_some, TlsRecordDecryptor.unprotect]
      cases hr : TlsRecordDecryptor.unprotectRecord c t record with
      | error failure =>
        obtain ⟨category, message, rfl⟩ := TlsRecordDecryptor.unprotectRecord_error hr
        exact ⟨hfresh.append, fun t' ht' => (by cases ht')⟩
      | ok plaintext =>
        have hlt := TlsRecordState.requireRecordAvailable_lt hfresh.sound
          (TlsRecordDecryptor.unprotectRecord_available hr)
        obtain ⟨-, hnext⟩ := TlsRecordState.recordSucceeded_sound hfresh.sound hlt
        refine ⟨hfresh.append, fun t' ht' => ?_⟩
        obtain rfl := Option.some_inj.mp ht'
        refine ⟨hfailed, ?_, hfresh.next hlt⟩
        show t.recordSucceeded.sequenceNumber = s.accepted + 1
        rw [hnext, hsequence]
    | updateApplicationTrafficKeys =>
      obtain ⟨t', hsound, hzero, hupdate⟩ := TlsRecordDirection.update_some hc t
      rw [TlsRecordReceiver.step, TlsRecordDecryptor.updateApplicationTrafficKeys, hd, hupdate]
      refine ⟨h.nodup, fun t'' ht'' => ?_⟩
      obtain rfl := Option.some_inj.mp ht''
      exact ⟨hfailed, hzero, hfresh.update hsound⟩

theorem Secure.run {c : RecordCryptology} (hc : c.Correct) {s : TlsRecordReceiver} (h : Secure s)
    (calls : List TlsDecryptorCall) : Secure (s.run c calls) := by
  induction calls generalizing s with
  | nil => exact h
  | cons call calls ih => exact ih (h.step hc call)

end TlsRecordReceiver

end ErbslandCore.Cryptology
