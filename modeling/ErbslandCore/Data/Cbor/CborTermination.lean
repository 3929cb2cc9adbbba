import ErbslandCore.Data.Cbor.CborHead

namespace ErbslandCore.Data.Cbor
open Library Mem Text
set_option autoImplicit true

variable {clock : Clock} (o : CborParseOptions)

instance : Input CborCodec := ⟨fun s => s.reader.unread.length⟩

theorem remaining_eq (s : CborCodec) : remaining s = s.reader.unread.length := rfl

/-- A reader that has fuel and takes at least `count` bytes. -/
abbrev Takes (count : Nat) (s : CborCodec) (x : Except DataError (α × CborCodec)) : Prop :=
  Consumes (· ≠ .outOfFuel) count s x

theorem Takes.fail : Takes count s (fail : Except DataError (α × CborCodec)) :=
  Consumes.error nofun

theorem readUIntOrThrow_takes (s : CborCodec) (size : Nat) :
    Takes size s (s.readUIntOrThrow size) := by
  refine Ensures.bind (fromMem_ensures fun a h => h) fun ⟨v, r⟩ h => ?_
  obtain ⟨bytes, hr, hl, -⟩ := ByteReader.readUIntOrThrow_reads h
  show r.unread.length + size ≤ s.reader.unread.length
  rw [hr.unread, List.length_append]
  omega

theorem readBytesOrThrow_takes (s : CborCodec) (length : Nat) :
    Takes length s (s.readBytesOrThrow length) := by
  refine Ensures.bind (fromMem_ensures fun a h => h) fun ⟨bytes, r⟩ h => ?_
  obtain ⟨hr, hl⟩ := ByteReader.readBytesOrThrow_reads h
  show r.unread.length + length ≤ s.reader.unread.length
  rw [hr.unread, List.length_append]
  omega

theorem readInteger_takes (s : CborCodec) (additional : Nat) :
    Takes 0 s (s.readInteger additional) := by
  unfold CborCodec.readInteger
  split_ifs
  · exact (readUIntOrThrow_takes s 1).zero
  · exact (readUIntOrThrow_takes s 2).zero
  · exact (readUIntOrThrow_takes s 4).zero
  · exact (readUIntOrThrow_takes s 8).zero
  · exact Takes.fail

theorem readArgument_takes (s : CborCodec) (additional : Nat) (allowIndefinite : Bool) :
    Takes 0 s (readArgument o s additional allowIndefinite) := by
  unfold readArgument
  split_ifs
  · exact .stay
  · exact .stay
  · refine (readInteger_takes s additional).bind fun value s' _ => ?_
    exact .ite (fun _ => Takes.fail) fun _ => .stay

theorem advance_length {r : ByteReader} (h : r.isAtEnd = false) :
    (r.advance 1).unread.length + 1 ≤ r.unread.length := by
  rw [ByteReader.isAtEnd, List.isEmpty_eq_false_iff] at h
  have := List.length_pos_iff.mpr h
  rw [ByteReader.advance, List.length_drop]
  omega

theorem readParts_ensures (major : Nat) (s : CborCodec) (hf : s.reader.unread.length < fuel) :
    Ensures (readParts o major fuel s)
      (fun s' => s'.reader.unread.length ≤ s.reader.unread.length) (· ≠ .outOfFuel) := by
  induction fuel generalizing s with
  | zero => exact absurd hf (Nat.not_lt_zero _)
  | succ fuel ih =>
    have hfail : Ensures (fail : Except DataError CborCodec)
        (fun s' => s'.reader.unread.length ≤ s.reader.unread.length) (· ≠ .outOfFuel) :=
      fun h : DataError.parse _ = .outOfFuel => by cases h
    rw [readParts]
    refine .ite (fun _ => hfail) fun hend => .ite (fun _ => ?_) fun _ => ?_
    · have := advance_length (Bool.eq_false_iff.mpr hend)
      exact .ok (by show (s.reader.advance 1).unread.length ≤ _; omega)
    refine .bind (readUIntOrThrow_takes s 1) fun ⟨head, s₁⟩ h₁ => .ite (fun _ => hfail) fun _ => ?_
    refine .bind (readArgument_takes o s₁ _ false) fun ⟨length, s₂⟩ h₂ =>
      .ite (fun _ => hfail) fun _ => ?_
    refine .bind (readBytesOrThrow_takes s₂ length) fun ⟨part, s₃⟩ h₃ =>
      .ite (fun _ => hfail) fun _ => ?_
    simp only [remaining_eq] at h₁ h₂ h₃
    refine Ensures.mono (ih { s₃ with writer := s₃.writer ++ part } ?_) fun s' h => ?_
    · show s₃.reader.unread.length < fuel
      omega
    · have : s'.reader.unread.length ≤ s₃.reader.unread.length := h
      omega

theorem readBytes_takes (s : CborCodec) (additional major : Nat) :
    Takes 0 s (readBytes o s additional major) := by
  rw [readBytes]
  refine (readArgument_takes o s additional true).bind fun length s₁ _ =>
    .ite (fun _ => ?_) fun _ => ?_
  · exact .ite (fun _ => Takes.fail) fun _ => (readBytesOrThrow_takes s₁ length).zero
  · exact Ensures.bind (readParts_ensures o major s₁ (Nat.lt_succ_self _)) fun s' h => h

theorem readText_takes (s : CborCodec) (additional : Nat) :
    Takes 0 s (readText o s additional) := by
  rw [readText]
  exact (readBytes_takes o s additional 3).bind fun _ _ _ =>
    .ite (fun _ => Takes.fail) fun _ => .ite (fun _ => Takes.fail) fun _ => .stay

section
variable {read : ValueReader clock} {bound : Nat}

/-- Below a bound on the unread bytes, a value takes at least one of them. -/
def Progress (read : ValueReader clock) (bound : Nat) : Prop :=
  ∀ s depth, s.reader.unread.length < bound → Takes 1 s (read s depth)

theorem readItems_takes (hread : Progress read bound) (depth count i : Nat) (s : CborCodec)
    (hb : s.reader.unread.length < bound) (hf : s.reader.unread.length < fuel) :
    Takes 0 s (readItems read depth count fuel s i) := by
  induction fuel generalizing s i with
  | zero => exact absurd hf (Nat.not_lt_zero _)
  | succ fuel ih =>
    rw [readItems]
    refine .ite (fun _ => .stay) fun _ => .ite (fun _ => ?_) fun _ =>
      .ite (fun _ => Takes.fail) fun _ => ?_
    · exact .ok (by simp [remaining_eq, ByteReader.advance])
    refine ((hread s (depth + 1) hb).bind fun item s₁ h₁ => ?_).zero
    simp only [remaining_eq] at h₁
    exact (ih (i + 1) s₁ (by omega) (by omega)).bind fun _ _ _ => .stay

theorem readArray_takes (hread : Progress read bound) (s : CborCodec) (additional depth : Nat)
    (hb : s.reader.unread.length < bound) : Takes 0 s (readArray o read s additional depth) := by
  rw [readArray]
  refine .ite (fun _ => Takes.fail) fun _ => ?_
  refine (readArgument_takes o s additional true).bind fun count s₁ h₁ =>
    .ite (fun _ => Takes.fail) fun _ => ?_
  simp only [remaining_eq] at h₁
  exact (readItems_takes hread depth count 0 s₁ (by omega) (Nat.lt_succ_self _)).bind
    fun _ _ _ => .stay

theorem readEntries_takes (hread : Progress read bound) (depth count i : Nat) (s : CborCodec)
    (map : StringMap (CborValue clock.Timestamp)) (previous : List UInt8)
    (hb : s.reader.unread.length < bound) (hf : s.reader.unread.length < fuel) :
    Takes 0 s (readEntries o read depth count fuel s i map previous) := by
  induction fuel generalizing s i map previous with
  | zero => exact absurd hf (Nat.not_lt_zero _)
  | succ fuel ih =>
    rw [readEntries]
    refine .ite (fun _ => .stay) fun _ => .ite (fun _ => ?_) fun _ =>
      .ite (fun _ => Takes.fail) fun _ => ?_
    · exact .ok (by simp [remaining_eq, ByteReader.advance])
    refine ((hread s (depth + 1) hb).bind fun keyValue s₁ h₁ => ?_).zero
    simp only [remaining_eq] at h₁
    cases keyValue with
    | text key =>
      refine .ite (fun _ => Takes.fail) fun _ => .ite (fun _ => Takes.fail) fun _ => ?_
      refine ((hread s₁ (depth + 1) (by omega)).bind fun value s₂ h₂ => ?_).zero
      simp only [remaining_eq] at h₂
      exact ih (i + 1) s₂ _ _ (by omega) (by omega)
    | _ => exact Takes.fail

theorem readMap_takes (hread : Progress read bound) (s : CborCodec) (additional depth : Nat)
    (hb : s.reader.unread.length < bound) : Takes 0 s (readMap o read s additional depth) := by
  rw [readMap]
  refine .ite (fun _ => Takes.fail) fun _ => ?_
  refine (readArgument_takes o s additional true).bind fun count s₁ h₁ =>
    .ite (fun _ => Takes.fail) fun _ => ?_
  simp only [remaining_eq] at h₁
  exact (readEntries_takes o hread depth count 0 s₁ [] [] (by omega) (Nat.lt_succ_self _)).bind
    fun _ _ _ => .stay

theorem readTag_takes (hread : Progress read bound) (s : CborCodec) (additional depth : Nat)
    (hb : s.reader.unread.length < bound) : Takes 0 s (readTag o read s additional depth) := by
  rw [readTag]
  refine (readArgument_takes o s additional false).bind fun tag s₁ h₁ => ?_
  simp only [remaining_eq] at h₁
  have hvalue {f : CborValue clock.Timestamp × CborCodec →
      Except DataError (CborValue clock.Timestamp × CborCodec)}
      (hf : ∀ value s₂, Takes 0 s₂ (f (value, s₂))) : Takes 0 s₁ (read s₁ depth >>= f) :=
    ((hread s₁ depth (by omega)).bind fun value s₂ _ => hf value s₂).zero
  refine .ite (fun _ => hvalue fun value s₂ => ?_) fun _ => .ite (fun _ => Takes.fail) fun _ =>
    .ite (fun _ => hvalue fun value s₂ => ?_) fun _ => .ite (fun _ => hvalue fun value s₂ => ?_)
      fun _ => Takes.fail
  · cases value with
    | bytes content =>
      cases content with
      | nil => exact Takes.fail
      | cons first cid => exact .ite (fun _ => Takes.fail) fun _ => .stay
    | _ => exact Takes.fail
  · cases value with
    | text text =>
      simp only
      cases clock.fromIsoString text with
      | none => exact Takes.fail
      | some date => exact .stay
    | _ => exact Takes.fail
  · simp only
    cases posixSeconds value with
    | none => exact Takes.fail
    | some number =>
      refine .ite (fun _ => Takes.fail) fun _ => ?_
      cases clock.fromTicks (clock.epoch + number.1) number.2 with
      | none => exact Takes.fail
      | some date => exact .stay

end

theorem readSimple_takes (s : CborCodec) (additional : Nat) :
    Takes (α := CborValue clock.Timestamp) 0 s (readSimple o s additional) := by
  rw [readSimple]
  refine .ite (fun _ => .stay) fun _ => .ite (fun _ => .stay) fun _ =>
    .ite (fun _ => .stay) fun _ => .ite (fun _ => .ite (fun _ => Takes.fail) fun _ => ?_)
      fun _ => Takes.fail
  have hfloat : Takes 0 s (s.readFloat additional) :=
    (readInteger_takes s additional).bind fun _ _ _ => .stay
  exact hfloat.bind fun _ _ _ => .ite (fun _ => Takes.fail) fun _ => .stay

theorem readMajor_takes {read : ValueReader clock} (hread : Progress read bound) (s : CborCodec)
    (major additional depth : Nat) (hb : s.reader.unread.length < bound) :
    Takes 0 s (readMajor o read s major additional depth) := by
  unfold readMajor
  split
  · exact (readArgument_takes o s additional false).bind fun _ _ _ => .stay
  · exact (readArgument_takes o s additional false).bind fun _ _ _ =>
      .ite (fun _ => Takes.fail) fun _ => .stay
  · exact (readBytes_takes o s additional 2).bind fun _ _ _ => .stay
  · exact (readText_takes o s additional).bind fun _ _ _ => .stay
  · exact readArray_takes o hread s additional depth hb
  · exact readMap_takes o hread s additional depth hb
  · exact readTag_takes o hread s additional depth hb
  · exact readSimple_takes o s additional
  · exact Takes.fail

theorem activation_progress {read : ValueReader clock} (hread : Progress read bound) :
    Progress (activation o read) (bound + 1) := by
  intro s depth hb
  rw [activation]
  refine .ite (fun _ => Takes.fail) fun _ => ?_
  have hhead := readUIntOrThrow_takes { s with valueCount := s.valueCount + 1 } 1
  refine hhead.bind fun head s₁ h₁ => readMajor_takes o hread s₁ _ _ depth ?_
  have : s₁.reader.unread.length + 1 ≤ s.reader.unread.length := h₁
  omega

theorem readValue_progress (fuel : Nat) : Progress (readValue clock o fuel) fuel := by
  induction fuel with
  | zero => exact fun _ _ h => absurd h (Nat.not_lt_zero _)
  | succ fuel ih =>
    rw [readValue_succ]
    exact activation_progress o ih

/-- The fuel of the parser is enough for every input. -/
theorem decode_ne_outOfFuel (block : ByteBlock) : decode clock o block ≠ .error .outOfFuel := by
  have hparse : Ensures (parse clock o block) (fun _ => True) (· ≠ .outOfFuel) := by
    have hfail : Ensures (fail : Except DataError (CborValue clock.Timestamp)) (fun _ => True)
        (· ≠ .outOfFuel) := fun h : DataError.parse _ = .outOfFuel => by cases h
    rw [parse]
    refine .ite (fun _ => hfail) fun _ => ?_
    exact .bind (readValue_progress o _ _ 0 (Nat.lt_succ_self _)) fun _ _ =>
      .ite (fun _ => trivial) fun _ => hfail
  intro h
  unfold decode at h
  split at h
  · cases h
  · cases h
  · exact hparse.of_eq_error h rfl

end ErbslandCore.Data.Cbor
