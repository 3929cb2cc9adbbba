import ErbslandCore.Data.Bson.BsonFrame

namespace ErbslandCore.Data.Bson
open Library Mem Text Time
set_option autoImplicit true

namespace BsonCodec

/-- The parser after some values and some bytes of its input. -/
def after (s : BsonCodec) (count length : Nat) (rest : List UInt8) : BsonCodec where
  reader := ⟨s.reader.position + length, rest⟩
  valueCount := s.valueCount + count

@[simp] theorem after_unread (s : BsonCodec) (count length : Nat) (rest : List UInt8) :
    (s.after count length rest).reader.unread = rest := rfl

@[simp] theorem after_position (s : BsonCodec) (count length : Nat) (rest : List UInt8) :
    (s.after count length rest).reader.position = s.reader.position + length := rfl

@[simp] theorem after_valueCount (s : BsonCodec) (count length : Nat) (rest : List UInt8) :
    (s.after count length rest).valueCount = s.valueCount + count := rfl

@[simp] theorem after_after (s : BsonCodec) (c₁ n₁ c₂ n₂ : Nat) (r₁ r₂ : List UInt8) :
    (s.after c₁ n₁ r₁).after c₂ n₂ r₂ = s.after (c₁ + c₂) (n₁ + n₂) r₂ := by
  simp only [after, Nat.add_assoc]

theorem after_zero {s : BsonCodec} (h : s.reader.unread = rest) : s.after 0 0 rest = s := by
  subst h
  rfl

theorem sliceFrom_after (s : BsonCodec) (h : s.reader.unread = bytes ++ rest) :
    s.reader.sliceFrom (s.after count bytes.length rest).reader = bytes := by
  rw [ByteReader.sliceFrom, after_position, Nat.add_sub_cancel_left, h, List.take_left]

/-- A parser that has moved over some bytes and values. -/
structure Moves (s s' : BsonCodec) (bytes : List UInt8) (count : Nat) : Prop where
  reads : s.reader.Reads s'.reader bytes
  valueCount : s'.valueCount = s.valueCount + count

theorem Moves.refl (s : BsonCodec) : Moves s s [] 0 := ⟨.refl _, rfl⟩

theorem Moves.trans (h₁ : Moves s₁ s₂ xs m) (h₂ : Moves s₂ s₃ ys n) :
    Moves s₁ s₃ (xs ++ ys) (m + n) where
  reads := h₁.reads.trans h₂.reads
  valueCount := by rw [h₂.valueCount, h₁.valueCount, Nat.add_assoc]

theorem Moves.position (h : Moves s s' bytes count) :
    s'.reader.position = s.reader.position + bytes.length := h.reads.position

theorem readUIntOrThrow_complete {s : BsonCodec} (h : s.reader.unread = bytes ++ rest) :
    s.readUIntOrThrow bytes.length = .ok (littleEndian bytes, s.after 0 bytes.length rest) := by
  rw [readUIntOrThrow, ByteReader.readUIntOrThrow_eq .little h]
  rfl

theorem readUIntOrThrow_sound {s s' : BsonCodec} (h : s.readUIntOrThrow n = .ok (v, s')) :
    ∃ bytes, Moves s s' bytes 0 ∧ bytes.length = n ∧ v = littleEndian bytes := by
  obtain ⟨⟨v', r⟩, hr, h⟩ := bind_eq_ok h
  obtain ⟨rfl, rfl⟩ := Prod.mk.inj (Except.ok.inj h)
  obtain ⟨bytes, hreads, hlen, hv⟩ := ByteReader.readUIntOrThrow_reads (fromMem_eq_ok hr)
  exact ⟨bytes, ⟨hreads, rfl⟩, hlen, hv⟩

theorem readBytesOrThrow_complete {s : BsonCodec} (h : s.reader.unread = bytes ++ rest) :
    s.readBytesOrThrow bytes.length = .ok (bytes, s.after 0 bytes.length rest) := by
  rw [readBytesOrThrow, ByteReader.readBytesOrThrow_eq h]
  rfl

theorem readBytesOrThrow_sound {s s' : BsonCodec} (h : s.readBytesOrThrow n = .ok (bytes, s')) :
    Moves s s' bytes 0 ∧ bytes.length = n := by
  obtain ⟨⟨bytes', r⟩, hr, h⟩ := bind_eq_ok h
  obtain ⟨rfl, rfl⟩ := Prod.mk.inj (Except.ok.inj h)
  obtain ⟨hreads, hlen⟩ := ByteReader.readBytesOrThrow_reads (fromMem_eq_ok hr)
  exact ⟨⟨hreads, rfl⟩, hlen⟩

theorem skip_complete {s : BsonCodec} (h : s.reader.unread = bytes ++ rest) :
    s.skip bytes.length = .ok (s.after 0 bytes.length rest) := by
  rw [skip, if_neg (not_not.mpr (ByteReader.canRead_of_append h)), ByteReader.advance_append h]
  rfl

theorem skip_sound {s s' : BsonCodec} (h : s.skip n = .ok s') :
    ∃ bytes, Moves s s' bytes 0 ∧ bytes.length = n := by
  rw [skip] at h
  split at h
  case isTrue => cases h
  case isFalse hc =>
    obtain rfl := Except.ok.inj h
    refine ⟨_, ⟨ByteReader.advance_reads s.reader n, rfl⟩, ?_⟩
    rw [List.length_take]
    exact Nat.min_eq_left (by simpa [ByteReader.canRead] using hc)

/-- A number of a fixed width, and the bytes of it. -/
theorem readNumber_sound {s s' : BsonCodec} (h : s.readUIntOrThrow width = .ok (v, s')) :
    Moves s s' (toLittleEndian width v) 0 ∧ v < 256 ^ width := by
  obtain ⟨bytes, hm, rfl, rfl⟩ := readUIntOrThrow_sound h
  rw [toLittleEndian_littleEndian]
  exact ⟨hm, littleEndian_lt bytes⟩

theorem readNumber_complete {s : BsonCodec} (hv : v < 256 ^ width)
    (h : s.reader.unread = toLittleEndian width v ++ rest) :
    s.readUIntOrThrow width = .ok (v, s.after 0 width rest) := by
  have hread := readUIntOrThrow_complete h
  rwa [toLittleEndian_length, littleEndian_toLittleEndian_of_lt hv] at hread

theorem readUInt8OrThrow_sound {s s' : BsonCodec} (h : s.readUInt8OrThrow = .ok (v, s')) :
    Moves s s' [v] 0 := by
  obtain ⟨⟨n, s₁⟩, h₁, h⟩ := bind_eq_ok h
  obtain ⟨rfl, rfl⟩ := Prod.mk.inj (Except.ok.inj h)
  obtain ⟨hm, hv⟩ := readNumber_sound h₁
  have : toLittleEndian 1 n = [UInt8.ofNat n] := by
    rw [toLittleEndian, toBigEndian, toBigEndian]
    simp
  rwa [this] at hm

theorem readUInt8OrThrow_complete {s : BsonCodec} (h : s.reader.unread = v :: rest) :
    s.readUInt8OrThrow = .ok (v, s.after 0 1 rest) := by
  have hread := readUIntOrThrow_complete (show s.reader.unread = [v] ++ rest from h)
  have hv : littleEndian [v] = v.toNat := by simp [littleEndian, bigEndian]
  rw [hv, List.length_singleton] at hread
  rw [readUInt8OrThrow, hread]
  simp only [bind, Except.bind, UInt8.ofNat_toNat]
  rfl

theorem readInt32OrThrow_sound {s s' : BsonCodec} (h : s.readInt32OrThrow = .ok (v, s')) :
    Moves s s' (toLittleEndian 4 v.toUInt32.toNat) 0 := by
  obtain ⟨⟨n, s₁⟩, h₁, h⟩ := bind_eq_ok h
  obtain ⟨rfl, rfl⟩ := Prod.mk.inj (Except.ok.inj h)
  obtain ⟨hm, hv⟩ := readNumber_sound h₁
  rwa [UInt32.toUInt32_toInt32, UInt32.toNat_ofNat_of_lt' hv]

theorem readInt32OrThrow_complete {s : BsonCodec}
    (h : s.reader.unread = toLittleEndian 4 v.toUInt32.toNat ++ rest) :
    s.readInt32OrThrow = .ok (v, s.after 0 4 rest) := by
  rw [readInt32OrThrow, readNumber_complete v.toUInt32.toNat_lt h]
  simp only [bind, Except.bind, UInt32.ofNat_toNat, Int32.toInt32_toUInt32]
  rfl

theorem readInt64OrThrow_sound {s s' : BsonCodec} (h : s.readInt64OrThrow = .ok (v, s')) :
    Moves s s' (toLittleEndian 8 v.toUInt64.toNat) 0 := by
  obtain ⟨⟨n, s₁⟩, h₁, h⟩ := bind_eq_ok h
  obtain ⟨rfl, rfl⟩ := Prod.mk.inj (Except.ok.inj h)
  obtain ⟨hm, hv⟩ := readNumber_sound h₁
  rwa [UInt64.toUInt64_toInt64, UInt64.toNat_ofNat_of_lt' hv]

theorem readInt64OrThrow_complete {s : BsonCodec}
    (h : s.reader.unread = toLittleEndian 8 v.toUInt64.toNat ++ rest) :
    s.readInt64OrThrow = .ok (v, s.after 0 8 rest) := by
  rw [readInt64OrThrow, readNumber_complete v.toUInt64.toNat_lt h]
  simp only [bind, Except.bind, UInt64.ofNat_toNat, Int64.toInt64_toUInt64]
  rfl

theorem readUInt64OrThrow_sound {s s' : BsonCodec} (h : s.readUInt64OrThrow = .ok (v, s')) :
    Moves s s' (toLittleEndian 8 v.toNat) 0 := by
  obtain ⟨⟨n, s₁⟩, h₁, h⟩ := bind_eq_ok h
  obtain ⟨rfl, rfl⟩ := Prod.mk.inj (Except.ok.inj h)
  obtain ⟨hm, hv⟩ := readNumber_sound h₁
  rwa [UInt64.toNat_ofNat_of_lt' hv]

theorem readUInt64OrThrow_complete {s : BsonCodec}
    (h : s.reader.unread = toLittleEndian 8 v.toNat ++ rest) :
    s.readUInt64OrThrow = .ok (v, s.after 0 8 rest) := by
  rw [readUInt64OrThrow, readNumber_complete v.toNat_lt h]
  simp only [bind, Except.bind, UInt64.ofNat_toNat]
  rfl

theorem toNat_toUInt32 {v : Int32} (h : 0 ≤ v.toInt) :
    v.toUInt32.toNat = v.toInt.toNat ∧ v.toInt.toNat ≤ cInt32Max := by
  have hb : v.toInt = (v.toUInt32.toNat : Int).bmod (2 ^ 32) := by
    rw [Int32.toInt, BitVec.toInt_eq_toNat_bmod]
    rfl
  have hlt := v.toUInt32.toNat_lt
  rw [Int.bmod_def] at hb
  rw [cInt32Max]
  omega

theorem toInt_ofNat (h : n ≤ cInt32Max) :
    (Int32.ofNat n).toInt = n ∧ (Int32.ofNat n).toUInt32.toNat = n := by
  rw [cInt32Max] at h
  have ht : (Int32.ofNat n).toInt = n := Int32.toInt_ofNat_of_lt (by omega)
  refine ⟨ht, ?_⟩
  rw [(toNat_toUInt32 (by omega)).1, ht, Int.toNat_natCast]

/-- A length is read from its bytes, and only from them. -/
theorem readLength_sound {s s' : BsonCodec} (h : s.readInt32OrThrow = .ok (v, s'))
    (hv : 0 ≤ v.toInt) : Moves s s' (int32Bytes v.toInt.toNat) 0 ∧ v.toInt.toNat ≤ cInt32Max := by
  obtain ⟨he, hle⟩ := toNat_toUInt32 hv
  have hm := readInt32OrThrow_sound h
  rw [he] at hm
  exact ⟨hm, hle⟩

theorem readLength_complete {s : BsonCodec} (hn : n ≤ cInt32Max)
    (h : s.reader.unread = int32Bytes n ++ rest) :
    ∃ v, s.readInt32OrThrow = .ok (v, s.after 0 4 rest) ∧ v.toInt = n := by
  obtain ⟨ht, hu⟩ := toInt_ofNat hn
  refine ⟨Int32.ofNat n, readInt32OrThrow_complete ?_, ht⟩
  rw [hu]
  exact h

end BsonCodec
open BsonCodec

theorem int32Bytes_length (n : Nat) : (int32Bytes n).length = 4 := toLittleEndian_length 4 n

theorem scanCString_sound (h : scanCString maximum count data = some text) (hc : count ≤ maximum) :
    0 ∉ text ∧ count + text.length ≤ maximum ∧
      data = cstringBytes text ++ data.drop (text.length + 1) := by
  induction data generalizing count text with
  | nil => cases h
  | cons byte data ih =>
    rw [scanCString] at h
    split at h
    case isTrue hb =>
      obtain rfl := Option.some.inj h
      subst hb
      exact ⟨List.not_mem_nil, hc, rfl⟩
    case isFalse hb =>
    split at h
    case isTrue => cases h
    case isFalse hm =>
      obtain ⟨text, ht, rfl⟩ := Option.map_eq_some_iff.mp h
      obtain ⟨hn, hl, he⟩ := ih ht (by omega)
      refine ⟨?_, by rw [List.length_cons]; omega, congrArg (byte :: ·) he⟩
      rw [List.mem_cons, not_or]
      exact ⟨fun hz => hb hz.symm, hn⟩

theorem scanCString_complete (hn : 0 ∉ text) (hl : count + text.length ≤ maximum)
    (rest : List UInt8) : scanCString maximum count (cstringBytes text ++ rest) = some text := by
  induction text generalizing count with
  | nil => rfl
  | cons byte text ih =>
    rw [List.mem_cons, not_or] at hn
    rw [List.length_cons] at hl
    have hrest := ih hn.2 (show count + 1 + text.length ≤ maximum by omega)
    show scanCString maximum count (byte :: (cstringBytes text ++ rest)) = some (byte :: text)
    rw [scanCString, if_neg fun hz => hn.1 hz.symm, if_neg (by omega), hrest]
    rfl

variable {o : BsonParseOptions}

theorem readCString_sound (h : readCString o s = .ok (text, s')) :
    Moves s s' (cstringBytes text) 0 ∧ IsCString o text := by
  rw [readCString] at h
  split at h
  case h_2 => cases h
  case h_1 found hs =>
  obtain ⟨rfl, rfl⟩ := Prod.mk.inj (Except.ok.inj h)
  obtain ⟨hn, hl, he⟩ := scanCString_sound hs (Nat.zero_le _)
  have hlen : (cstringBytes found).length = found.length + 1 := by
    rw [cstringBytes, List.length_append, List.length_singleton]
  refine ⟨⟨?_, rfl⟩, hn, by omega⟩
  rw [← hlen] at he ⊢
  rw [ByteReader.advance_append he]
  exact ⟨he, rfl⟩

theorem readCString_complete (ht : IsCString o text)
    (h : s.reader.unread = cstringBytes text ++ rest) :
    readCString o s = .ok (text, s.after 0 (cstringBytes text).length rest) := by
  have hlen : text.length + 1 = (cstringBytes text).length := by
    rw [cstringBytes, List.length_append, List.length_singleton]
  rw [readCString, h, scanCString_complete ht.1 (by rw [Nat.zero_add]; exact ht.2)]
  simp only [hlen, ByteReader.advance_append h]
  rfl

theorem readString_sound (h : readString o s = .ok (value, s')) :
    Moves s s' (stringBytes value) 0 ∧ IsString o value := by
  obtain ⟨⟨length, s₁⟩, h₁, h⟩ := bind_eq_ok h
  simp only at h
  split at h
  case isTrue => cases h
  case isFalse hc =>
  rw [not_or, not_or] at hc
  obtain ⟨hm₁, hmax⟩ := readLength_sound h₁ (by omega)
  obtain ⟨⟨bytes, s₂⟩, h₂, h⟩ := bind_eq_ok h
  obtain ⟨hm₂, hl⟩ := readBytesOrThrow_sound h₂
  obtain ⟨⟨terminator, s₃⟩, h₃, h⟩ := bind_eq_ok h
  have hm₃ := readUInt8OrThrow_sound h₃
  simp only at h
  split at h
  case isTrue => cases h
  case isFalse hz =>
  obtain ⟨rfl, rfl⟩ := Prod.mk.inj (Except.ok.inj h)
  obtain rfl := not_not.mp hz
  have hm := (hm₁.trans hm₂).trans hm₃
  rw [show length.toInt.toNat = bytes.length + 1 by omega] at hm
  exact ⟨hm, by omega, by omega⟩

theorem readString_complete (hv : IsString o value)
    (h : s.reader.unread = stringBytes value ++ rest) :
    readString o s = .ok (value, s.after 0 (stringBytes value).length rest) := by
  obtain ⟨hlt, hmax⟩ := hv
  rw [stringBytes, List.append_assoc, List.append_assoc] at h
  obtain ⟨length, h₁, hlen⟩ := readLength_complete (show value.length + 1 ≤ cInt32Max by omega) h
  have hnat : length.toInt.toNat = value.length + 1 := by omega
  have hread : (s.after 0 4 (value ++ ([0] ++ rest))).reader.canRead (value.length + 1) = true := by
    simp [ByteReader.canRead]
  have hunread : (s.after 0 4 (value ++ ([0] ++ rest))).reader.unread = value ++ ([0] ++ rest) := rfl
  have h₂ := readBytesOrThrow_complete hunread
  have h₃ := readUInt8OrThrow_complete (s := (s.after 0 4 (value ++ ([0] ++ rest))).after 0
    value.length ([0] ++ rest)) (v := 0) rfl
  rw [readString, h₁]
  simp only [bind, Except.bind, hnat]
  rw [if_neg, Nat.add_sub_cancel, h₂]
  · simp only [h₃]
    simp only [after_after, stringBytes, List.length_append, int32Bytes_length]
    rfl
  · rintro (hl | hl | hl)
    · omega
    · omega
    · exact hl hread

theorem epochMilliseconds_eq : epochMilliseconds = some 62167219200000 := rfl

theorem readDateTime_sound (h : readDateTime s = .ok (value, s')) :
    ∃ milliseconds : Int64, Moves s s' (toLittleEndian 8 milliseconds.toUInt64.toNat) 0 ∧
      instantOf milliseconds = some value := by
  obtain ⟨⟨milliseconds, s₁⟩, h₁, h⟩ := bind_eq_ok h
  rw [epochMilliseconds_eq] at h
  simp only at h
  split at h
  case isTrue => cases h
  split at h
  case h_1 => cases h
  case h_2 result hr =>
  obtain ⟨rfl, rfl⟩ := Prod.mk.inj (Except.ok.inj h)
  exact ⟨milliseconds, readInt64OrThrow_sound h₁, hr⟩

theorem readDateTime_complete {milliseconds : Int64} (hv : instantOf milliseconds = some value)
    (h : s.reader.unread = toLittleEndian 8 milliseconds.toUInt64.toNat ++ rest) :
    readDateTime s = .ok (value, s.after 0 8 rest) := by
  rw [instantOf, epochMilliseconds_eq, Option.bind_some] at hv
  obtain ⟨hl, hu⟩ := Timestamp.fromMilliseconds_bounds hv
  simp only [cMillisecondsPerDay, cLastDay] at hl hu
  rw [readDateTime, readInt64OrThrow_complete h, epochMilliseconds_eq]
  simp only [bind, Except.bind]
  rw [if_neg (by omega), hv]
  rfl

/-- The bytes of a binary, with the length in it for the old subtype. -/
theorem readBinary_sound (h : readBinary o s = .ok (v, s')) :
    ∃ bytes, Moves s s' bytes 0 ∧ ∀ depth, IsValue o depth 0x05 bytes 0 v := by
  obtain ⟨⟨length, s₁⟩, h₁, h⟩ := bind_eq_ok h
  simp only at h
  split at h
  case isTrue => cases h
  case isFalse hc =>
  rw [not_or] at hc
  obtain ⟨hm₁, hmax⟩ := readLength_sound h₁ (by omega)
  obtain ⟨⟨subtype, s₂⟩, h₂, h⟩ := bind_eq_ok h
  have hm₂ := readUInt8OrThrow_sound h₂
  simp only at h
  split at h
  case isTrue hs =>
    subst hs
    split at h
    case isTrue => cases h
    obtain ⟨⟨actual, s₃⟩, h₃, h⟩ := bind_eq_ok h
    simp only at h
    split at h
    case isTrue => cases h
    case isFalse hactual =>
    obtain ⟨hm₃, -⟩ := readLength_sound h₃ (by omega)
    obtain ⟨⟨bytes, s₄⟩, h₄, h⟩ := bind_eq_ok h
    obtain ⟨hm₄, hl⟩ := readBytesOrThrow_sound h₄
    obtain ⟨rfl, rfl⟩ := Prod.mk.inj (Except.ok.inj h)
    have hm := hm₁.trans (hm₂.trans (hm₃.trans hm₄))
    rw [show length.toInt.toNat = bytes.length + 4 by omega, ← hl] at hm
    exact ⟨_, hm, fun depth => .oldBinary ⟨by omega, by omega⟩⟩
  case isFalse hs =>
    obtain ⟨⟨bytes, s₃⟩, h₃, h⟩ := bind_eq_ok h
    obtain ⟨hm₃, hl⟩ := readBytesOrThrow_sound h₃
    obtain ⟨rfl, rfl⟩ := Prod.mk.inj (Except.ok.inj h)
    have hm := hm₁.trans (hm₂.trans hm₃)
    rw [← hl] at hm
    exact ⟨_, hm, fun depth => .binary hs ⟨by omega, by omega⟩⟩

theorem readBinary_complete (hs : subtype ≠ 2) (hl : IsLength o bytes.length)
    (h : s.reader.unread = int32Bytes bytes.length ++ subtype :: bytes ++ rest) :
    readBinary o s = .ok (.binary bytes subtype, s.after 0 (4 + (1 + bytes.length)) rest) := by
  obtain ⟨hl, hmax⟩ := hl
  rw [List.append_assoc] at h
  obtain ⟨length, h₁, hlen⟩ := readLength_complete hl h
  have h₂ : (s.after 0 4 (subtype :: bytes ++ rest)).readUInt8OrThrow =
      .ok (subtype, s.after 0 5 (bytes ++ rest)) := readUInt8OrThrow_complete rfl
  have h₃ := readBytesOrThrow_complete (s := s.after 0 5 (bytes ++ rest)) rfl
  have hnat : length.toInt.toNat = bytes.length := by omega
  rw [readBinary, h₁, ok_bind]
  simp only [hnat]
  rw [if_neg (by omega), h₂, ok_bind]
  simp only [if_neg hs, h₃, ok_bind, after_after, ← Nat.add_assoc]
  rfl

theorem readBinary_oldComplete (hl : IsLength o (bytes.length + 4))
    (h : s.reader.unread = int32Bytes (bytes.length + 4) ++ 2 :: (int32Bytes bytes.length ++ bytes) ++
      rest) :
    readBinary o s = .ok (.binary bytes 2, s.after 0 (4 + (1 + (4 + bytes.length))) rest) := by
  obtain ⟨hl, hmax⟩ := hl
  rw [List.append_assoc] at h
  obtain ⟨length, h₁, hlen⟩ := readLength_complete hl h
  have h₂ : (s.after 0 4 (2 :: (int32Bytes bytes.length ++ bytes) ++ rest)).readUInt8OrThrow =
      .ok (2, s.after 0 5 (int32Bytes bytes.length ++ (bytes ++ rest))) :=
    readUInt8OrThrow_complete (by rw [after_unread, List.cons_append, List.append_assoc])
  obtain ⟨actual, h₃, hactual⟩ := readLength_complete (show bytes.length ≤ cInt32Max by omega)
    (after_unread s 0 5 (int32Bytes bytes.length ++ (bytes ++ rest)))
  have h₄ := readBytesOrThrow_complete (after_unread s 0 9 (bytes ++ rest))
  have hnat : actual.toInt.toNat = bytes.length := by omega
  rw [readBinary, h₁, ok_bind]
  simp only
  rw [if_neg (by omega), h₂, ok_bind]
  simp only [if_true]
  rw [if_neg (by omega), h₃, ok_bind]
  simp only [after_after]
  rw [if_neg (by omega)]
  simp only [hnat, h₄, ok_bind, after_after, ← Nat.add_assoc]
  rfl

/-- What a reader takes for a container is one. -/
def Sound (o : BsonParseOptions) (read : ContainerReader) : Prop :=
  ∀ s array depth v s', read s array depth = .ok (v, s') →
    ∃ bytes count, Moves s s' bytes count ∧ IsContainer o array depth bytes count v

theorem readOpaque_sound {read : ContainerReader} (hread : Sound o read)
    (h : readOpaque o read s code depth = .ok s') :
    ∃ payload count, Moves s s' payload count ∧
      IsValue o depth code payload count (.opaqueValue code payload) := by
  have fixed {n : Nat} (hf : (code, n) ∈ fixedSizes) (hs : s.skip n = .ok s') :
      ∃ payload count, Moves s s' payload count ∧
        IsValue o depth code payload count (.opaqueValue code payload) := by
    obtain ⟨payload, hm, rfl⟩ := skip_sound hs
    exact ⟨payload, 0, hm, .fixed hf⟩
  rw [readOpaque] at h
  split at h
  case isTrue hc =>
    obtain rfl := Except.ok.inj h
    refine ⟨[], 0, .refl s, .fixed ?_⟩
    rcases hc with rfl | rfl | rfl <;> decide
  split at h
  case isTrue hc =>
    subst hc
    exact fixed (by decide) h
  split at h
  case isTrue hc =>
    subst hc
    obtain ⟨⟨pattern, s₁⟩, h₁, h⟩ := bind_eq_ok h
    obtain ⟨⟨options, s₂⟩, h₂, h⟩ := bind_eq_ok h
    obtain rfl := Except.ok.inj h
    obtain ⟨hm₁, hp⟩ := readCString_sound h₁
    obtain ⟨hm₂, ho⟩ := readCString_sound h₂
    exact ⟨_, 0, hm₁.trans hm₂, .regex hp ho⟩
  split at h
  case isTrue hc =>
    subst hc
    obtain ⟨⟨value, s₁⟩, h₁, h⟩ := bind_eq_ok h
    obtain ⟨hm₁, hv⟩ := readString_sound h₁
    obtain ⟨identifier, hm₂, hi⟩ := skip_sound h
    exact ⟨_, 0, hm₁.trans hm₂, .pointer hv hi⟩
  split at h
  case isTrue hc =>
    obtain ⟨⟨value, s₁⟩, h₁, h⟩ := bind_eq_ok h
    obtain rfl := Except.ok.inj h
    obtain ⟨hm₁, hv⟩ := readString_sound h₁
    exact ⟨_, 0, hm₁, .code hc hv⟩
  split at h
  case isTrue hc =>
    subst hc
    obtain ⟨⟨total, s₁⟩, h₁, h⟩ := bind_eq_ok h
    simp only at h
    split at h
    case isTrue => cases h
    case isFalse hc =>
    obtain ⟨⟨value, s₂⟩, h₂, h⟩ := bind_eq_ok h
    obtain ⟨⟨v, s₃⟩, h₃, h⟩ := bind_eq_ok h
    obtain ⟨hm₁, hmax⟩ := readLength_sound h₁ (by omega)
    obtain ⟨hm₂, hv⟩ := readString_sound h₂
    obtain ⟨bytes, count, hm₃, hb⟩ := hread _ _ _ _ _ h₃
    simp only at h
    split at h
    case isTrue => cases h
    case isFalse ht =>
    obtain rfl := Except.ok.inj h
    have hm := hm₁.trans (hm₂.trans hm₃)
    rw [not_not, hm.position, List.length_append, List.length_append, int32Bytes_length] at ht
    rw [Nat.zero_add, Nat.zero_add] at hm
    exact ⟨_, count, hm, .scope hv hb ⟨hmax, by omega⟩ (by omega)⟩
  split at h
  case isTrue hc =>
    subst hc
    exact fixed (by decide) h
  split at h
  case isTrue hc =>
    subst hc
    exact fixed (by decide) h
  case isFalse => cases h

theorem readValue_sound {read : ContainerReader} (hread : Sound o read)
    (h : readValue o read s code depth = .ok (v, s')) :
    ∃ bytes count, Moves s s' bytes count ∧ IsValue o depth code bytes count v := by
  rw [readValue] at h
  split at h
  case isTrue hc =>
    subst hc
    obtain ⟨⟨bits, s₁⟩, h₁, h⟩ := bind_eq_ok h
    obtain ⟨rfl, rfl⟩ := Prod.mk.inj (Except.ok.inj h)
    exact ⟨_, 0, readUInt64OrThrow_sound h₁, .double bits⟩
  split at h
  case isTrue hc =>
    subst hc
    obtain ⟨⟨value, s₁⟩, h₁, h⟩ := bind_eq_ok h
    obtain ⟨rfl, rfl⟩ := Prod.mk.inj (Except.ok.inj h)
    obtain ⟨hm, hv⟩ := readString_sound h₁
    exact ⟨_, 0, hm, .text hv⟩
  split at h
  case isTrue hc =>
    subst hc
    obtain ⟨bytes, count, hm, hb⟩ := hread _ _ _ _ _ h
    exact ⟨bytes, count, hm, .document hb⟩
  split at h
  case isTrue hc =>
    subst hc
    obtain ⟨bytes, count, hm, hb⟩ := hread _ _ _ _ _ h
    exact ⟨bytes, count, hm, .array hb⟩
  split at h
  case isTrue hc =>
    subst hc
    obtain ⟨bytes, hm, hb⟩ := readBinary_sound h
    exact ⟨bytes, 0, hm, hb depth⟩
  split at h
  case isTrue hc =>
    subst hc
    obtain ⟨⟨value, s₁⟩, h₁, h⟩ := bind_eq_ok h
    have hm := readUInt8OrThrow_sound h₁
    simp only at h
    split at h
    case isTrue => cases h
    case isFalse hv =>
    obtain ⟨rfl, rfl⟩ := Prod.mk.inj (Except.ok.inj h)
    have hbool : value = if decide (value = 1) = true then 1 else 0 := by
      have hle : value.toNat ≤ 1 := not_lt.mp hv
      split
      case isTrue ht => exact of_decide_eq_true ht
      case isFalse ht =>
        rw [decide_eq_true_iff, ← UInt8.toNat_inj] at ht
        rw [← UInt8.toNat_inj]
        simp only [UInt8.toNat_ofNat] at ht ⊢
        omega
    have hb : IsValue o depth _ _ _ _ := .bool (decide (value = 1))
    rw [← hbool] at hb
    exact ⟨[value], 0, hm, hb⟩
  split at h
  case isTrue hc =>
    subst hc
    obtain ⟨⟨value, s₁⟩, h₁, h⟩ := bind_eq_ok h
    obtain ⟨rfl, rfl⟩ := Prod.mk.inj (Except.ok.inj h)
    obtain ⟨milliseconds, hm, hv⟩ := readDateTime_sound h₁
    exact ⟨_, 0, hm, .dateTime milliseconds hv⟩
  split at h
  case isTrue hc =>
    subst hc
    obtain ⟨rfl, rfl⟩ := Prod.mk.inj (Except.ok.inj h)
    exact ⟨[], 0, .refl s, .null⟩
  split at h
  case isTrue hc =>
    subst hc
    obtain ⟨⟨value, s₁⟩, h₁, h⟩ := bind_eq_ok h
    obtain ⟨rfl, rfl⟩ := Prod.mk.inj (Except.ok.inj h)
    exact ⟨_, 0, readInt32OrThrow_sound h₁, .int32 value⟩
  split at h
  case isTrue hc =>
    subst hc
    obtain ⟨⟨value, s₁⟩, h₁, h⟩ := bind_eq_ok h
    obtain ⟨rfl, rfl⟩ := Prod.mk.inj (Except.ok.inj h)
    exact ⟨_, 0, readInt64OrThrow_sound h₁, .int64 value⟩
  case isFalse =>
    obtain ⟨s₁, h₁, h⟩ := bind_eq_ok h
    obtain ⟨rfl, rfl⟩ := Prod.mk.inj (Except.ok.inj h)
    obtain ⟨payload, count, hm, hv⟩ := readOpaque_sound hread h₁
    rw [hm.reads.sliceFrom]
    exact ⟨payload, count, hm, hv⟩

/-- What the elements of a container are added to. -/
def Collects (array : Bool) (document document' : StringMap BsonValue)
    (values values' : List BsonValue) (es : List (List UInt8 × BsonValue)) : Prop :=
  if array then values' = values ++ es.map Prod.snd
  else document' = StringMap.setAll document es ∧ StringMap.Distinct es ∧
    ∀ e ∈ es, document.contains e.1 = false

theorem readElements_sound {read : ContainerReader} (hread : Sound o read)
    (h : readElements o read array depth finish fuel s document values =
      .ok ((document', values'), s')) (hi : array = true → values.length = index) :
    ∃ bytes count es, Moves s s' bytes count ∧ IsElements o array depth index bytes count es ∧
      Collects array document document' values values' es := by
  induction fuel generalizing s document values index with
  | zero => cases h
  | succ fuel ih =>
    rw [readElements] at h
    split at h
    case isTrue =>
      obtain ⟨hd, rfl⟩ := Prod.mk.inj (Except.ok.inj h)
      obtain ⟨rfl, rfl⟩ := Prod.mk.inj hd
      refine ⟨[], 0, [], .refl s, .nil, ?_⟩
      rw [Collects]
      split
      · rw [List.map_nil, List.append_nil]
      · exact ⟨rfl, List.Pairwise.nil, nofun⟩
    split at h
    case isTrue => cases h
    obtain ⟨⟨code, s₁⟩, h₁, h⟩ := bind_eq_ok h
    have hm₁ := readUInt8OrThrow_sound h₁
    simp only at h
    split at h
    case isTrue => cases h
    case isFalse hcode =>
    obtain ⟨⟨key, s₂⟩, h₂, h⟩ := bind_eq_ok h
    obtain ⟨hm₂, hkey⟩ := readCString_sound h₂
    have hm : Moves s s₂ (code :: cstringBytes key) 1 := by
      refine ⟨(hm₁.trans hm₂).reads, ?_⟩
      rw [(hm₁.trans hm₂).valueCount]
    simp only at h
    split at h
    case isTrue ha =>
      split at h
      case isTrue => cases h
      case isFalse hindex =>
      obtain ⟨⟨value, s₃⟩, h₃, h⟩ := bind_eq_ok h
      obtain ⟨bytes, count, hm₃, hv⟩ := readValue_sound hread h₃
      simp only at h
      split at h
      case isTrue => cases h
      have hnext : array = true → (values ++ [value]).length = index + 1 := fun hb => by
        rw [List.length_append, List.length_singleton, hi hb]
      obtain ⟨rest, n, es, hm₄, hes, hc⟩ := ih h hnext
      have hmoves := (hm.trans hm₃).trans hm₄
      rw [List.append_assoc, Nat.add_assoc] at hmoves
      refine ⟨_, _, (key, value) :: es, hmoves, .cons hcode hkey (fun hb => ?_) hv hes, ?_⟩
      · rw [eq_fromInteger (not_not.mp hindex), hi hb]
      · rw [Collects, if_pos ha, List.append_assoc] at hc
        rw [Collects, if_pos ha, hc]
        rfl
    case isFalse ha =>
      split at h
      case isTrue => cases h
      case isFalse hcontains =>
      obtain ⟨⟨value, s₃⟩, h₃, h⟩ := bind_eq_ok h
      obtain ⟨bytes, count, hm₃, hv⟩ := readValue_sound hread h₃
      simp only at h
      split at h
      case isTrue => cases h
      have hnext : array = true → values.length = index + 1 := fun hb => absurd hb ha
      obtain ⟨rest, n, es, hm₄, hes, hc⟩ := ih h hnext
      have hmoves := (hm.trans hm₃).trans hm₄
      rw [List.append_assoc, Nat.add_assoc] at hmoves
      refine ⟨_, _, (key, value) :: es, hmoves, .cons hcode hkey (fun hb => absurd hb ha) hv hes, ?_⟩
      rw [Collects, if_neg ha] at hc ⊢
      obtain ⟨hdoc, hd, hn⟩ := hc
      rw [Bool.not_eq_true] at hcontains
      have hset := fun e he => StringMap.contains_of_set document value hcontains (hn e he)
      exact ⟨hdoc, List.pairwise_cons.mpr ⟨fun e he => (hset e he).1, hd⟩,
        List.forall_mem_cons.mpr ⟨hcontains, fun e he => (hset e he).2⟩⟩

theorem readContainer_sound (fuel : Nat) : Sound o (readContainer o fuel) := by
  induction fuel with
  | zero => exact fun _ _ _ _ _ h => nomatch h
  | succ fuel ih =>
    intro s array depth v s' h
    rw [readContainer, readContainerWith] at h
    split at h
    case isTrue => cases h
    case isFalse hdepth =>
    obtain ⟨⟨length, s₁⟩, h₁, h⟩ := bind_eq_ok h
    simp only at h
    split at h
    case isTrue => cases h
    case isFalse hc =>
    obtain ⟨hm₁, hmax⟩ := readLength_sound h₁ (by omega)
    obtain ⟨⟨⟨document, values⟩, s₂⟩, h₂, h⟩ := bind_eq_ok h
    obtain ⟨body, count, es, hm₂, hes, hcollects⟩ := 
      readElements_sound ih h₂ (fun _ => (rfl : ([] : List BsonValue).length = 0))
    simp only at h
    split at h
    case isTrue => cases h
    case isFalse hfinish =>
    obtain ⟨⟨terminator, s₃⟩, h₃, h⟩ := bind_eq_ok h
    have hm₃ := readUInt8OrThrow_sound h₃
    simp only at h
    split at h
    case isTrue => cases h
    case isFalse hz =>
    obtain ⟨rfl, rfl⟩ := Prod.mk.inj (Except.ok.inj h)
    obtain rfl := not_not.mp hz
    have hm := hm₁.trans (hm₂.trans hm₃)
    rw [not_not, (hm₁.trans hm₂).position, List.length_append, int32Bytes_length] at hfinish
    rw [show length.toInt.toNat = body.length + 5 by omega, Nat.zero_add, Nat.add_zero] at hm
    have hlength : IsLength o (body.length + 5) := ⟨by omega, by omega⟩
    refine ⟨_, count, hm, ?_⟩
    cases array with
    | true =>
      rw [Collects, if_pos rfl, List.nil_append] at hcollects
      rw [if_pos rfl, hcollects]
      exact .ofValues (not_le.mp hdepth) hlength hes
    | false =>
      rw [Collects, if_neg Bool.false_ne_true] at hcollects
      obtain ⟨hdoc, hd, -⟩ := hcollects
      rw [if_neg Bool.false_ne_true, hdoc]
      exact .ofEntries (not_le.mp hdepth) hlength hes hd

end ErbslandCore.Data.Bson
