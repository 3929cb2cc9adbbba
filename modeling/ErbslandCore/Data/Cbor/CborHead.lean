import ErbslandCore.Data.Cbor.CborCodec

namespace ErbslandCore.Data.Cbor
open Library Mem Text
set_option autoImplicit true

/-- The first byte of a head. -/
def initialByte (major additional : Nat) : UInt8 := UInt8.ofNat (major <<< 5 ||| additional)

theorem initialByte_parts (hm : major < 8) (ha : a < 32) :
    (initialByte major a).toNat >>> 5 = major ∧ (initialByte major a).toNat &&& 31 = a := by
  have all : ∀ m < 8, ∀ a < 32,
      (initialByte m a).toNat >>> 5 = m ∧ (initialByte m a).toNat &&& 31 = a := by decide +kernel
  exact all major hm a ha

theorem initialByte_of_parts (b : UInt8) :
    initialByte (b.toNat >>> 5) (b.toNat &&& 31) = b ∧ b.toNat >>> 5 < 8 ∧ b.toNat &&& 31 < 32 := by
  have all : ∀ n < 256, initialByte (n >>> 5) (n &&& 31) = UInt8.ofNat n ∧ n >>> 5 < 8 ∧
      n &&& 31 < 32 := by decide +kernel
  have h := all b.toNat b.toNat_lt
  rwa [UInt8.ofNat_toNat] at h

namespace CborCodec

/-- The parser after some bytes of its input. -/
def moved (s : CborCodec) (count : Nat) (rest : List UInt8) : CborCodec :=
  { s with reader := ⟨s.reader.position + count, rest⟩ }

@[simp] theorem moved_unread (s : CborCodec) (count : Nat) (rest : List UInt8) :
    (s.moved count rest).reader.unread = rest := rfl

@[simp] theorem moved_position (s : CborCodec) (count : Nat) (rest : List UInt8) :
    (s.moved count rest).reader.position = s.reader.position + count := rfl

@[simp] theorem moved_writer (s : CborCodec) (count : Nat) (rest : List UInt8) :
    (s.moved count rest).writer = s.writer := rfl

@[simp] theorem moved_valueCount (s : CborCodec) (count : Nat) (rest : List UInt8) :
    (s.moved count rest).valueCount = s.valueCount := rfl

@[simp] theorem moved_moved (s : CborCodec) (m n : Nat) (rest rest' : List UInt8) :
    (s.moved m rest).moved n rest' = s.moved (m + n) rest' := by
  simp only [moved, Nat.add_assoc]

theorem readUIntOrThrow_complete {s : CborCodec} (h : s.reader.unread = bytes ++ rest) :
    s.readUIntOrThrow bytes.length = .ok (bigEndian bytes, s.moved bytes.length rest) := by
  rw [readUIntOrThrow, ByteReader.readUIntOrThrow_eq .big h]
  rfl

theorem readUIntOrThrow_sound {s s' : CborCodec} (h : s.readUIntOrThrow n = .ok (v, s')) :
    ∃ bytes, s.reader.Reads s'.reader bytes ∧ bytes.length = n ∧ v = bigEndian bytes ∧
      s'.valueCount = s.valueCount := by
  obtain ⟨⟨v', r⟩, hr, h⟩ := bind_eq_ok h
  obtain ⟨rfl, rfl⟩ := Prod.mk.inj (Except.ok.inj h)
  obtain ⟨bytes, hreads, hlen, hv⟩ := ByteReader.readUIntOrThrow_reads (fromMem_eq_ok hr)
  exact ⟨bytes, hreads, hlen, hv, rfl⟩

theorem readBytesOrThrow_complete {s : CborCodec} (h : s.reader.unread = bytes ++ rest) :
    s.readBytesOrThrow bytes.length = .ok (bytes, s.moved bytes.length rest) := by
  rw [readBytesOrThrow, ByteReader.readBytesOrThrow_eq h]
  rfl

theorem readBytesOrThrow_sound {s s' : CborCodec} (h : s.readBytesOrThrow n = .ok (bytes, s')) :
    s.reader.Reads s'.reader bytes ∧ bytes.length = n ∧ s'.valueCount = s.valueCount := by
  obtain ⟨⟨bytes', r⟩, hr, h⟩ := bind_eq_ok h
  obtain ⟨rfl, rfl⟩ := Prod.mk.inj (Except.ok.inj h)
  obtain ⟨hreads, hlen⟩ := ByteReader.readBytesOrThrow_reads (fromMem_eq_ok hr)
  exact ⟨hreads, hlen, rfl⟩

end CborCodec

/-- The width of an argument, the additional information that announces it, and its least value. -/
def argumentForms : List (Nat × Nat × Nat) := [(1, 24, 24), (2, 25, 256), (4, 26, 65536), (8, 27, 4294967296)]

/-- A head is its first byte alone, or followed by the narrowest form of its argument. -/
theorem writeHead_cases (major : Nat) (h : value < 2 ^ 64) :
    value < 24 ∧ writeHead major value = [initialByte major value] ∨
      ∃ width additional least, (width, additional, least) ∈ argumentForms ∧ least ≤ value ∧
        value < 256 ^ width ∧
        writeHead major value = initialByte major additional :: toBigEndian width value := by
  unfold writeHead initialByte
  split_ifs with h₁ h₂ h₃ h₄
  · exact .inl ⟨h₁, rfl⟩
  · exact .inr ⟨1, 24, 24, by simp [argumentForms], by omega, by omega, rfl⟩
  · exact .inr ⟨2, 25, 256, by simp [argumentForms], by omega, by omega, rfl⟩
  · exact .inr ⟨4, 26, 65536, by simp [argumentForms], by omega, by omega, rfl⟩
  · exact .inr ⟨8, 27, 4294967296, by simp [argumentForms], by omega, by omega, rfl⟩

theorem writeHead_of_form (major : Nat) (hf : (width, additional, least) ∈ argumentForms)
    (hl : least ≤ value) (hu : value < 256 ^ width) :
    writeHead major value = initialByte major additional :: toBigEndian width value := by
  simp only [argumentForms, List.mem_cons, Prod.mk.injEq, List.not_mem_nil, or_false] at hf
  unfold writeHead initialByte
  rcases hf with ⟨rfl, rfl, rfl⟩ | ⟨rfl, rfl, rfl⟩ | ⟨rfl, rfl, rfl⟩ | ⟨rfl, rfl, rfl⟩
  · rw [if_neg (by omega), if_pos (by omega)]
  · rw [if_neg (by omega), if_neg (by omega), if_pos (by omega)]
  · rw [if_neg (by omega), if_neg (by omega), if_neg (by omega), if_pos (by omega)]
  · rw [if_neg (by omega), if_neg (by omega), if_neg (by omega), if_neg (by omega)]

section
variable (o : CborParseOptions)

/-- An argument in a wide form, and the check of the strict profile. -/
theorem readArgument_form (hf : (width, additional, least) ∈ argumentForms) (s : CborCodec)
    (allowIndefinite : Bool) :
    readArgument o s additional allowIndefinite = (do
      let (value, s) ← s.readUIntOrThrow width
      if o.dagCbor ∧ value < least then fail else return (value, s)) := by
  simp only [argumentForms, List.mem_cons, Prod.mk.injEq, List.not_mem_nil, or_false] at hf
  rcases hf with ⟨rfl, rfl, rfl⟩ | ⟨rfl, rfl, rfl⟩ | ⟨rfl, rfl, rfl⟩ | ⟨rfl, rfl, rfl⟩ <;>
    simp [readArgument, CborCodec.readInteger, Nat.lt_succ_iff]

variable {o}

/-- The reader restores the argument of a head. -/
theorem readArgument_complete (h : value < 2 ^ 64) : ∃ additional tail, additional < 32 ∧
    (∀ major, writeHead major value = initialByte major additional :: tail) ∧
    ∀ s rest allowIndefinite, s.reader.unread = tail ++ rest →
      readArgument o s additional allowIndefinite = .ok (value, s.moved tail.length rest) := by
  rcases writeHead_cases 0 h with ⟨hv, -⟩ | ⟨width, additional, least, hf, hl, hu, -⟩
  · refine ⟨value, [], by omega, fun major => ?_, fun s rest allow hr => ?_⟩
    · rw [writeHead, if_pos hv]
      rfl
    · rw [readArgument, if_pos hv]
      rw [List.nil_append] at hr
      subst hr
      rfl
  · refine ⟨additional, toBigEndian width value, ?_, fun major => writeHead_of_form major hf hl hu,
      fun s rest allow hr => ?_⟩
    · simp only [argumentForms, List.mem_cons, Prod.mk.injEq, List.not_mem_nil, or_false] at hf
      omega
    · have hread := CborCodec.readUIntOrThrow_complete hr
      rw [toBigEndian_length, bigEndian_toBigEndian_of_lt hu] at hread
      rw [readArgument_form o hf, hread, toBigEndian_length]
      simp only [bind, Except.bind]
      rw [if_neg (by omega)]
      rfl

/-- In the strict profile, the bytes of an argument are those that the writer chooses. -/
theorem readArgument_sound (hdag : o.dagCbor = true)
    (h : readArgument o s additional allowIndefinite = .ok (value, s')) :
    ∃ tail, s.reader.Reads s'.reader tail ∧ value < 2 ^ 64 ∧ s'.valueCount = s.valueCount ∧
      ∀ major, writeHead major value = initialByte major additional :: tail := by
  by_cases hv : additional < 24
  · rw [readArgument, if_pos hv] at h
    obtain ⟨rfl, rfl⟩ := Prod.mk.inj (Except.ok.inj h)
    refine ⟨[], .refl _, by omega, rfl, fun major => ?_⟩
    rw [writeHead, if_pos hv]
    rfl
  by_cases hf : ∃ width least, (width, additional, least) ∈ argumentForms
  · obtain ⟨width, least, hf⟩ := hf
    rw [readArgument_form o hf] at h
    obtain ⟨⟨v, s₁⟩, hr, h⟩ := bind_eq_ok h
    obtain ⟨bytes, hreads, hlen, rfl, hc⟩ := CborCodec.readUIntOrThrow_sound hr
    simp only [hdag, true_and] at h
    split at h
    case isTrue => cases h
    case isFalse hl =>
      obtain ⟨rfl, rfl⟩ := Prod.mk.inj (Except.ok.inj h)
      have hlt := bigEndian_lt bytes
      rw [hlen] at hlt
      refine ⟨bytes, hreads, ?_, hc, fun major => ?_⟩
      · simp only [argumentForms, List.mem_cons, Prod.mk.injEq, List.not_mem_nil, or_false] at hf
        rcases hf with ⟨rfl, _⟩ | ⟨rfl, _⟩ | ⟨rfl, _⟩ | ⟨rfl, _⟩ <;> omega
      · rw [writeHead_of_form major hf (not_lt.mp hl) hlt, ← hlen, toBigEndian_bigEndian]
  · rw [readArgument, if_neg hv, if_neg (by simp [hdag])] at h
    obtain ⟨⟨v, s₁⟩, hr, h⟩ := bind_eq_ok h
    rw [CborCodec.readInteger, if_neg, if_neg, if_neg, if_neg] at hr
    · cases hr
    all_goals
      rintro rfl
      exact hf (by simp [argumentForms])

end

/-- Heads of one major type are ordered like their arguments, whatever follows them. -/
theorem writeHead_lt (hm : major < 8) (h : v < w) (hw : w < 2 ^ 64) (s t : List UInt8) :
    writeHead major v ++ s < writeHead major w ++ t := by
  have first {a b : Nat} (hab : a < b) (hb : b < 32) (s t : List UInt8) :
      initialByte major a :: s < initialByte major b :: t := by
    refine cons_lt_cons (.inl ?_)
    have all : ∀ m < 8, ∀ b < 32, ∀ a < b,
        (initialByte m a).toNat < (initialByte m b).toNat := by decide +kernel
    exact all major hm b hb a hab
  rcases writeHead_cases major (show v < 2 ^ 64 by omega) with
      ⟨hv, ev⟩ | ⟨n, a, l, hf, hl, hu, ev⟩ <;>
    rcases writeHead_cases major hw with ⟨hv', ew⟩ | ⟨n', a', l', hf', hl', hu', ew⟩ <;> rw [ev, ew]
  · exact first h (by omega) _ _
  · simp only [argumentForms, List.mem_cons, Prod.mk.injEq, List.not_mem_nil, or_false] at hf'
    exact first (by omega) (by omega) _ _
  · simp only [argumentForms, List.mem_cons, Prod.mk.injEq, List.not_mem_nil, or_false] at hf
    omega
  · simp only [argumentForms, List.mem_cons, Prod.mk.injEq, List.not_mem_nil, or_false] at hf hf'
    by_cases heq : a = a'
    · obtain ⟨rfl, rfl⟩ : a = a' ∧ n = n' := by omega
      exact cons_lt_cons (.inr ⟨rfl, toBigEndian_lt h hu' s t⟩)
    · refine first ?_ (by omega) _ _
      rcases hf with ⟨rfl, rfl, rfl⟩ | ⟨rfl, rfl, rfl⟩ | ⟨rfl, rfl, rfl⟩ | ⟨rfl, rfl, rfl⟩ <;>
        rcases hf' with ⟨rfl, rfl, rfl⟩ | ⟨rfl, rfl, rfl⟩ | ⟨rfl, rfl, rfl⟩ | ⟨rfl, rfl, rfl⟩ <;>
          omega

theorem writeHead_ne_nil (major value : Nat) : writeHead major value ≠ [] := by
  unfold writeHead
  split_ifs <;> simp

/-- One activation of `readValue`, with the nested ones as a parameter. -/
def activation {clock : Clock} (o : CborParseOptions) (read : ValueReader clock) : ValueReader clock := fun s depth =>
  if s.reader.isAtEnd ∨ s.valueCount ≥ o.maximumValueCount then fail
  else do
    let s := { s with valueCount := s.valueCount + 1 }
    let (head, s) ← s.readUIntOrThrow 1
    readMajor o read s (head >>> 5) (head &&& 31) depth

theorem readValue_succ (clock : Clock) (o : CborParseOptions) (fuel : Nat) :
    readValue clock o (fuel + 1) = activation o (readValue clock o fuel) := rfl

end ErbslandCore.Data.Cbor
