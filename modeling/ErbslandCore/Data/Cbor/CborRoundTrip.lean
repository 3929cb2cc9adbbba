import ErbslandCore.Data.Cbor.CborWriter

namespace ErbslandCore.Data.Cbor
open Library Mem Text
set_option autoImplicit true

namespace CborCodec

/-- The parser after some values and some bytes of its input. -/
def after (s : CborCodec) (count length : Nat) (rest : List UInt8) : CborCodec :=
  { s.moved length rest with valueCount := s.valueCount + count }

@[simp] theorem after_unread (s : CborCodec) (count length : Nat) (rest : List UInt8) :
    (s.after count length rest).reader.unread = rest := rfl

@[simp] theorem after_position (s : CborCodec) (count length : Nat) (rest : List UInt8) :
    (s.after count length rest).reader.position = s.reader.position + length := rfl

@[simp] theorem after_valueCount (s : CborCodec) (count length : Nat) (rest : List UInt8) :
    (s.after count length rest).valueCount = s.valueCount + count := rfl

@[simp] theorem after_after (s : CborCodec) (c₁ n₁ c₂ n₂ : Nat) (r₁ r₂ : List UInt8) :
    (s.after c₁ n₁ r₁).after c₂ n₂ r₂ = s.after (c₁ + c₂) (n₁ + n₂) r₂ := by
  simp only [after, moved, Nat.add_assoc]

@[simp] theorem after_moved (s : CborCodec) (count n₁ n₂ : Nat) (r₁ r₂ : List UInt8) :
    (s.after count n₁ r₁).moved n₂ r₂ = s.after count (n₁ + n₂) r₂ := by
  simp only [after, moved, Nat.add_assoc]

theorem after_zero {s : CborCodec} (h : s.reader.unread = rest) : s.after 0 0 rest = s := by
  subst h
  rfl

theorem isAtEnd_append {s : CborCodec} (h : s.reader.unread = bytes ++ rest) (hb : bytes ≠ []) :
    s.reader.isAtEnd = false := by
  rw [ByteReader.isAtEnd, h, List.isEmpty_eq_false_iff]
  exact List.append_ne_nil_of_left_ne_nil hb _

theorem sliceFrom_after (s : CborCodec) (h : s.reader.unread = bytes ++ rest) :
    s.reader.sliceFrom (s.after count bytes.length rest).reader = bytes := by
  rw [ByteReader.sliceFrom, after_position, Nat.add_sub_cancel_left, h, List.take_left]

end CborCodec

variable {clock : Clock} {o : CborParseOptions} {format : CborFormatOptions}

/-- A reader takes exactly these bytes for a value, and counts its values. -/
def Restores (o : CborParseOptions) (read : ValueReader clock) (depth : Nat)
    (v : CborValue clock.Timestamp) (count : Nat) (bytes : List UInt8) : Prop :=
  ∀ s rest, s.reader.unread = bytes ++ rest → s.valueCount + count ≤ o.maximumValueCount →
    read s depth = .ok (v, s.after count bytes.length rest)

theorem readItems_complete {read : ValueReader clock} {items : List (CborValue clock.Timestamp)}
    (hw : writeItems clock format items = .ok bytes) (hb : bytes.length ≤ bound)
    (h : ∀ v ∈ items, ∀ piece, writeValue clock format v = .ok piece → piece.length ≤ bound →
      Restores o read (depth + 1) (v.stored format) v.valueCount piece)
    (hc : count ≠ cUInt64Max) (hi : i + items.length = count) (hf : items.length < fuel)
    (hr : s.reader.unread = bytes ++ rest)
    (hn : s.valueCount + itemsCount items ≤ o.maximumValueCount) :
    readItems read depth count fuel s i =
      .ok (storedItems format items, s.after (itemsCount items) bytes.length rest) := by
  induction items generalizing bytes i fuel s with
  | nil =>
    rw [writeItems] at hw
    obtain rfl := Except.ok.inj hw
    cases fuel with
    | zero => exact absurd hf (Nat.lt_irrefl 0)
    | succ fuel =>
      rw [readItems, if_pos (by simp_all), storedItems, itemsCount,
        List.length_nil, CborCodec.after_zero (by simpa using hr)]
      rfl
  | cons item items ih =>
    rw [writeItems] at hw
    obtain ⟨piece, hp, hw⟩ := bind_eq_ok hw
    obtain ⟨pieces, hps, hw⟩ := bind_eq_ok hw
    obtain rfl := Except.ok.inj hw
    rw [List.length_append] at hb
    rw [itemsCount] at hn
    rw [List.length_cons] at hi hf
    rw [List.append_assoc] at hr
    cases fuel with
    | zero => exact absurd hf (Nat.not_lt_zero _)
    | succ fuel =>
      have hread := h item (List.mem_cons_self ..) piece hp (by omega) s (pieces ++ rest) hr
        (by omega)
      have hrest : readItems read depth count fuel
          (s.after item.valueCount piece.length (pieces ++ rest)) (i + 1) = _ :=
        ih hps (by omega) (fun v hv => h v (List.mem_cons_of_mem _ hv)) (by omega) (by omega) rfl
          (by rw [CborCodec.after_valueCount]; omega)
      rw [readItems, if_neg (not_not.mpr (.inr (by omega))), if_neg fun hm => hc hm.1,
        if_neg (by simp [CborCodec.isAtEnd_append hr (writeValue_ne_nil format hp)])]
      simp only [hread, hrest, bind, Except.bind]
      rw [CborCodec.after_after, storedItems, itemsCount, List.length_append]
      rfl

theorem writeEntries_key_length {entries : List (List UInt8 × CborValue clock.Timestamp)}
    (hw : writeEntries format (entries.map fun e => (e.1, writeValue clock format e.2)) = .ok bytes)
    (hv : ∀ e ∈ entries, Utf8.isValid e.1 = true) (he : e ∈ entries) :
    e.1.length ≤ bytes.length := by
  induction entries generalizing bytes with
  | nil => exact absurd he List.not_mem_nil
  | cons entry entries ih =>
    obtain ⟨hvalid, hv⟩ := List.forall_mem_cons.mp hv
    obtain ⟨first, hk, hw⟩ := bind_eq_ok hw
    obtain ⟨piece, -, hw⟩ := bind_eq_ok hw
    obtain ⟨pieces, hps, hw⟩ := bind_eq_ok hw
    obtain rfl := Except.ok.inj hw
    rw [List.length_append, List.length_append]
    rcases List.mem_cons.mp he with rfl | he
    · rw [writeText_valid format hvalid] at hk
      obtain rfl := Except.ok.inj hk
      rw [textBytes, List.length_append]
      omega
    · have := ih hps hv he
      omega

theorem writeItems_length {items : List (CborValue clock.Timestamp)}
    (hw : writeItems clock format items = .ok bytes) : items.length ≤ bytes.length := by
  induction items generalizing bytes with
  | nil => exact Nat.zero_le _
  | cons item items ih =>
    rw [writeItems] at hw
    obtain ⟨piece, hp, hw⟩ := bind_eq_ok hw
    obtain ⟨pieces, hps, hw⟩ := bind_eq_ok hw
    obtain rfl := Except.ok.inj hw
    have := List.length_pos_iff.mpr (writeValue_ne_nil format hp)
    have := ih hps
    rw [List.length_append, List.length_cons]
    omega

theorem writeEntries_length {entries : StringMap (Except DataError (List UInt8))}
    (hw : writeEntries format entries = .ok bytes) : entries.length ≤ bytes.length := by
  induction entries generalizing bytes with
  | nil => exact Nat.zero_le _
  | cons entry entries ih =>
    rw [writeEntries] at hw
    obtain ⟨key, hk, hw⟩ := bind_eq_ok hw
    obtain ⟨piece, -, hw⟩ := bind_eq_ok hw
    obtain ⟨pieces, hps, hw⟩ := bind_eq_ok hw
    obtain rfl := Except.ok.inj hw
    have := List.length_pos_iff.mpr (writeText_ne_nil format hk)
    have := ih hps
    rw [List.length_append, List.length_append, List.length_cons]
    omega

theorem readEntries_complete {read : ValueReader clock}
    {entries : List (List UInt8 × CborValue clock.Timestamp)}
    (hw : writeEntries format
      (entries.map fun e => (e.1, writeValue clock format e.2)) = .ok bytes)
    (hb : bytes.length ≤ bound) (hk : ∀ e ∈ entries, Utf8.isValid e.1 = true)
    (hkey : ∀ e ∈ entries, (textBytes e.1).length ≤ bound →
      Restores o read (depth + 1) (.text e.1) 1 (textBytes e.1))
    (h : ∀ e ∈ entries, ∀ piece, writeValue clock format e.2 = .ok piece → piece.length ≤ bound →
      Restores o read (depth + 1) (e.2.stored format) e.2.valueCount piece)
    (hlen : bound < cUInt64Max) (hd : StringMap.Distinct entries)
    (hmap : ∀ e ∈ entries, StringMap.contains map e.1 = false)
    (ho : o.dagCbor = true → entries.Pairwise fun a b => keyLess a.1 b.1 = true)
    (hprevious : ∀ e ∈ entries, o.dagCbor = true → previous = [] ∨ previous < textBytes e.1)
    (hc : count ≠ cUInt64Max) (hi : i + entries.length = count) (hf : entries.length < fuel)
    (hr : s.reader.unread = bytes ++ rest)
    (hn : s.valueCount + entriesCount entries ≤ o.maximumValueCount) :
    readEntries o read depth count fuel s i map previous =
      .ok (StringMap.setAll map (storedEntries format entries),
        s.after (entriesCount entries) bytes.length rest) := by
  induction entries generalizing bytes i fuel s map previous with
  | nil =>
    obtain rfl := Except.ok.inj hw
    cases fuel with
    | zero => exact absurd hf (Nat.lt_irrefl 0)
    | succ fuel =>
      rw [readEntries, if_pos (by simp_all), storedEntries, entriesCount,
        List.length_nil, CborCodec.after_zero (by simpa using hr)]
      rfl
  | cons entry entries ih =>
    have hvalid := hk entry (List.mem_cons_self ..)
    rw [List.map_cons, writeEntries, writeText_valid format hvalid] at hw
    obtain ⟨key, hkw, hw⟩ := bind_eq_ok hw
    obtain rfl := Except.ok.inj hkw
    obtain ⟨piece, hp, hw⟩ := bind_eq_ok hw
    obtain ⟨pieces, hps, hw⟩ := bind_eq_ok hw
    obtain rfl := Except.ok.inj hw
    rw [List.length_append, List.length_append] at hb
    rw [entriesCount] at hn
    rw [List.length_cons] at hi hf
    rw [List.append_assoc, List.append_assoc] at hr
    obtain ⟨hd₁, hd⟩ := List.pairwise_cons.mp hd
    cases fuel with
    | zero => exact absurd hf (Nat.not_lt_zero _)
    | succ fuel =>
      have hreadKey := hkey entry (List.mem_cons_self ..) (by omega) s (piece ++ (pieces ++ rest))
        hr (by omega)
      have hread := h entry (List.mem_cons_self ..) piece hp (by omega)
        (s.after 1 (textBytes entry.1).length (piece ++ (pieces ++ rest))) (pieces ++ rest) rfl
        (by rw [CborCodec.after_valueCount]; omega)
      have hcontains := hmap entry (List.mem_cons_self ..)
      have hlt (e) (he : e ∈ entries) (hdag : o.dagCbor = true) :
          textBytes entry.1 < textBytes e.1 := by
        refine keyLess_textBytes hvalid (hk e (List.mem_cons_of_mem _ he)) ?_
          ((List.pairwise_cons.mp (ho hdag)).1 e he)
        have hle := writeEntries_key_length hps
          (fun e he => hk e (List.mem_cons_of_mem _ he)) he
        rw [cUInt64Max] at hlen
        omega
      have hrest : readEntries o read depth count fuel
          (s.after (1 + entry.2.valueCount) ((textBytes entry.1).length + piece.length)
            (pieces ++ rest)) (i + 1) (StringMap.set entry.1 (entry.2.stored format) map)
          (if o.dagCbor then textBytes entry.1 else previous) = _ := ih hps (by omega)
        (fun e he => hk e (List.mem_cons_of_mem _ he))
        (fun e he => hkey e (List.mem_cons_of_mem _ he))
        (fun e he => h e (List.mem_cons_of_mem _ he)) hd
        (fun e he => StringMap.contains_set hcontains (hmap e (List.mem_cons_of_mem _ he))
          (hd₁ e he))
        (fun hdag => (List.pairwise_cons.mp (ho hdag)).2)
        (fun e he hdag => .inr (by rw [if_pos hdag]; exact hlt e he hdag))
        (by omega) (by omega) rfl (by rw [CborCodec.after_valueCount]; omega)
      rw [readEntries, if_neg (not_not.mpr (.inr (by omega))), if_neg fun hm => hc hm.1,
        if_neg (by simp [CborCodec.isAtEnd_append hr (textBytes_ne_nil _)])]
      simp only [hreadKey, hread, bind, Except.bind, hcontains, Bool.false_eq_true, ↓reduceIte,
        CborCodec.sliceFrom_after s hr, CborCodec.after_after]
      rw [if_neg, hrest]
      · rw [CborCodec.after_after, storedEntries, entriesCount, List.length_append,
          List.length_append]
        rfl
      · rintro ⟨hdag, hne, hnot⟩
        exact (hprevious entry (List.mem_cons_self ..) hdag).elim hne hnot

/-- The first byte of a value selects its reader. -/
theorem activation_initial {read : ValueReader clock} (hm : major < 8) (ha : additional < 32)
    (hr : s.reader.unread = initialByte major additional :: rest)
    (hn : s.valueCount + 1 ≤ o.maximumValueCount) :
    activation o read s depth =
      readMajor o read (s.after 1 1 rest) major additional depth := by
  obtain ⟨h₁, h₂⟩ := initialByte_parts hm ha
  have hcond : ¬ (s.reader.isAtEnd = true ∨ s.valueCount ≥ o.maximumValueCount) := by
    rw [not_or, ByteReader.isAtEnd, hr]
    exact ⟨by simp, by omega⟩
  have hr' : ({ s with valueCount := s.valueCount + 1 } : CborCodec).reader.unread =
      [initialByte major additional] ++ rest := hr
  have hread := CborCodec.readUIntOrThrow_complete hr'
  have hvalue : bigEndian [initialByte major additional] =
      (initialByte major additional).toNat := by simp [bigEndian]
  rw [hvalue, List.length_singleton] at hread
  rw [activation, if_neg hcond]
  simp only [bind, Except.bind, hread, h₁, h₂]
  rfl

theorem readValue_initial (hm : major < 8) (ha : additional < 32)
    (hr : s.reader.unread = initialByte major additional :: rest)
    (hn : s.valueCount + 1 ≤ o.maximumValueCount) :
    readValue clock o (fuel + 1) s depth =
      readMajor o (readValue clock o fuel) (s.after 1 1 rest) major additional depth := by
  rw [readValue_succ]
  exact activation_initial hm ha hr hn

/-- The head of a value leads to its reader, before the argument. -/
theorem readValue_head (clock : Clock) (o : CborParseOptions) {major value : Nat} (hm : major < 8)
    (hv : value < 2 ^ 64) : ∃ additional tail,
    writeHead major value = initialByte major additional :: tail ∧
    (∀ s rest allowIndefinite, s.reader.unread = tail ++ rest →
      readArgument o s additional allowIndefinite = .ok (value, s.moved tail.length rest)) ∧
    ∀ (fuel depth : Nat) s rest, s.reader.unread = writeHead major value ++ rest →
      s.valueCount + 1 ≤ o.maximumValueCount →
      readValue clock o (fuel + 1) s depth =
        readMajor o (readValue clock o fuel) (s.after 1 1 (tail ++ rest)) major additional depth := by
  obtain ⟨additional, tail, ha, hw, hread⟩ := readArgument_complete (o := o) hv
  refine ⟨additional, tail, hw major, hread, fun fuel depth s rest hr hn => ?_⟩
  rw [hw, List.cons_append] at hr
  exact readValue_initial hm ha hr hn

/-- The bytes of a sequence follow its length. -/
theorem readBytes_complete (hread : readArgument o s additional true =
      .ok (bytes.length, s.moved n (bytes ++ rest)))
    (hlen : bytes.length < cUInt64Max) (hmax : bytes.length ≤ o.maximumInputLength) :
    readBytes o s additional major = .ok (bytes, s.moved (n + bytes.length) rest) := by
  have hc : (s.moved n (bytes ++ rest)).reader.canRead bytes.length = true :=
    ByteReader.canRead_of_append rfl
  rw [readBytes, hread]
  simp only [bind, Except.bind]
  rw [if_pos (by omega), if_neg (by simp [hc]; omega),
    CborCodec.readBytesOrThrow_complete (CborCodec.moved_unread s n (bytes ++ rest)),
    CborCodec.moved_moved]

theorem readValue_text (hvalid : Utf8.isValid key = true)
    (hfit : key.length ≤ o.maximumStringLength) (hlen : key.length < cUInt64Max)
    (hmax : key.length ≤ o.maximumInputLength) (fuel depth : Nat) :
    Restores o (readValue clock o (fuel + 1)) depth (.text key) 1 (textBytes key) := by
  intro s rest hr hn
  obtain ⟨a, tail, hw, hread, hvalue⟩ := readValue_head clock o (by decide : 3 < 8)
    (show key.length < 2 ^ 64 by rw [cUInt64Max] at hlen; omega)
  rw [textBytes, List.append_assoc] at hr
  rw [hvalue fuel depth s (key ++ rest) hr hn, readMajor, readText,
    readBytes_complete (hread _ (key ++ rest) true rfl) hlen hmax]
  simp only [bind, Except.bind]
  rw [if_neg (by omega), if_neg (by simp [hvalid]), textBytes, hw, CborCodec.after_moved]
  simp only [List.length_append, List.length_cons, pure, Except.pure]
  rw [Nat.add_comm tail.length 1, Nat.add_assoc]

/-- A negative number is restored from its magnitude. -/
theorem signed_negative (h : ¬ number.toInt ≥ 0) :
    (-(number.toInt + 1)).toNat ≤ cInt64Max ∧
      Int64.ofInt (-1 - ((-(number.toInt + 1)).toNat : Int)) = number := by
  have hmin : Int64.minValue.toInt ≤ number.toInt := Int64.minValue_le_toInt number
  have hval : Int64.minValue.toInt = -2 ^ 63 := by decide
  refine ⟨?_, ?_⟩
  · rw [cInt64Max]
    omega
  · rw [show -1 - ((-(number.toInt + 1)).toNat : Int) = number.toInt by omega, Int64.ofInt_toInt]

theorem signed_nonneg_lt (number : Int64) : number.toInt.toNat < 2 ^ 64 := by
  have h : number.toInt ≤ Int64.maxValue.toInt := Int64.toInt_le number
  have hval : Int64.maxValue.toInt = 2 ^ 63 - 1 := by decide
  omega

/-- A value that is its initial byte. -/
theorem readValue_single {v : CborValue clock.Timestamp} (hm : major < 8) (ha : additional < 32)
    (h : ∀ s, readMajor o (readValue clock o fuel) s major additional depth = .ok (v, s)) :
    Restores o (readValue clock o (fuel + 1)) depth v 1 [initialByte major additional] := by
  intro s rest hr hn
  rw [readValue_initial hm ha hr hn, h]
  rfl

/-- A value that is the argument of its head. -/
theorem readValue_argument {v : CborValue clock.Timestamp} (hm : major < 8) (hv : value < 2 ^ 64)
    (h : ∀ s s' additional, readArgument o s additional = .ok (value, s') →
      readMajor o (readValue clock o fuel) s major additional depth = .ok (v, s')) :
    Restores o (readValue clock o (fuel + 1)) depth v 1 (writeHead major value) := by
  intro s rest hr hn
  obtain ⟨a, tail, hw, hread, hvalue⟩ := readValue_head clock o hm hv
  rw [hvalue fuel depth s rest hr hn, h _ _ _ (hread _ rest false rfl), hw, List.length_cons,
    CborCodec.after_moved, Nat.add_comm 1]

theorem readValue_bytes (hlen : bytes.length < cUInt64Max)
    (hmax : bytes.length ≤ o.maximumInputLength) (fuel depth : Nat) :
    Restores o (readValue clock o (fuel + 1)) depth (.bytes bytes) 1 (writeBytes bytes) := by
  intro s rest hr hn
  obtain ⟨a, tail, hw, hread, hvalue⟩ := readValue_head clock o (by decide : 2 < 8)
    (show bytes.length < 2 ^ 64 by rw [cUInt64Max] at hlen; omega)
  rw [writeBytes, List.append_assoc] at hr
  rw [hvalue fuel depth s (bytes ++ rest) hr hn, readMajor,
    readBytes_complete (hread _ (bytes ++ rest) true rfl) hlen hmax]
  simp only [bind, Except.bind, pure, Except.pure]
  rw [writeBytes, hw, CborCodec.after_moved, List.length_append, List.length_cons,
    Nat.add_comm tail.length 1, Nat.add_assoc]

theorem readValue_float (hfinite : o.dagCbor = true → isFinite bits = true)
    (hzero : o.dagCbor = true → isZero bits = true → bits = 0) (fuel depth : Nat) :
    Restores o (readValue clock o (fuel + 1)) depth (.float bits) 1
      (0xFB :: toBigEndian 8 bits.toNat) := by
  intro s rest hr hn
  rw [List.cons_append] at hr
  have hread := CborCodec.readUIntOrThrow_complete
    (CborCodec.after_unread s 1 1 (toBigEndian 8 bits.toNat ++ rest))
  rw [toBigEndian_length, bigEndian_toBigEndian_of_lt bits.toNat_lt] at hread
  rw [readValue_initial (by decide : 7 < 8) (by decide : 27 < 32) hr hn, readMajor,
    readSimple]
  simp only [Nat.reduceEqDiff, ↓reduceIte, or_true, ne_eq, not_true_eq_false, and_false,
    CborCodec.readFloat, CborCodec.readInteger, hread, bind, Except.bind, pure, Except.pure,
    UInt64.ofNat_toNat]
  rw [if_neg]
  · rw [CborCodec.after_moved, List.length_cons, toBigEndian_length]
  · rintro ⟨hdag, hnot | ⟨hz, hs⟩⟩
    · exact hnot (hfinite hdag)
    · rw [hzero hdag hz] at hs
      exact absurd hs (by decide)

theorem readValue_link (hvalid : validCid cid = true) (hlen : cid.length + 1 < cUInt64Max)
    (hmax : cid.length + 1 ≤ o.maximumInputLength) (fuel depth : Nat) :
    Restores o (readValue clock o (fuel + 2)) depth (.link cid) 2
      (writeHead 6 42 ++ writeHead 2 (cid.length + 1) ++ 0 :: cid) := by
  intro s rest hr hn
  obtain ⟨a, tail, hw, hread, hvalue⟩ := readValue_head clock o (by decide : 6 < 8)
    (by decide : 42 < 2 ^ 64)
  have hlen' : (0 :: cid).length < cUInt64Max := hlen
  have hbytes : Restores o (readValue clock o (fuel + 1)) depth (.bytes (0 :: cid)) 1 _ :=
    readValue_bytes hlen' hmax fuel depth
  rw [List.append_assoc (writeHead 6 42), show writeHead 2 (cid.length + 1) ++ 0 :: cid =
    writeBytes (0 :: cid) from rfl] at hr ⊢
  rw [List.append_assoc] at hr
  rw [hvalue (fuel + 1) depth s _ hr (by omega), readMajor, readTag, hread _ _ false rfl,
    CborCodec.after_moved]
  simp only [bind, Except.bind, ↓reduceIte]
  rw [hbytes _ rest rfl (by rw [CborCodec.after_valueCount]; omega)]
  simp only [hvalid, ne_eq, not_true_eq_false, or_self, ↓reduceIte, pure, Except.pure,
    CborCodec.after_after]
  rw [hw, List.length_append, List.length_cons, Nat.add_comm tail.length 1]

/-- What the writer produces, the reader restores. -/
theorem readValue_complete (hp : o.dagCbor = true → format.dagCbor = true)
    {v : CborValue clock.Timestamp} (hv : WellFormed format v) (hfit : Fits o depth v)
    (hw : writeValue clock format v = .ok bytes) (hf : bytes.length ≤ fuel)
    (hlen : bytes.length < cUInt64Max) (hmax : bytes.length ≤ o.maximumInputLength) :
    Restores o (readValue clock o (fuel + 1)) depth (v.stored format) v.valueCount bytes := by
  induction hv generalizing bytes depth fuel with
  | null =>
    rw [writeValue] at hw
    obtain rfl := Except.ok.inj hw
    exact readValue_single (by decide : 7 < 8) (by decide : 22 < 32) fun _ => rfl
  | @bool value =>
    rw [writeValue] at hw
    obtain rfl := Except.ok.inj hw
    cases value with
    | true =>
      exact readValue_single (by decide : 7 < 8) (by decide : 21 < 32) fun _ => rfl
    | false =>
      exact readValue_single (by decide : 7 < 8) (by decide : 20 < 32) fun _ => rfl
  | @unsigned value =>
    rw [writeValue] at hw
    obtain rfl := Except.ok.inj hw
    refine readValue_argument (by decide) value.toNat_lt fun s s' a h => ?_
    rw [readMajor, h]
    simp only [bind, Except.bind, UInt64.ofNat_toNat]
    rfl
  | @signed number =>
    rw [writeValue] at hw
    split at hw
    case isTrue hn =>
      obtain rfl := Except.ok.inj hw
      refine readValue_argument (by decide) (signed_nonneg_lt number) fun s s' a h => ?_
      rw [readMajor, h, CborValue.stored, if_pos hn]
      rfl
    case isFalse hn =>
      obtain rfl := Except.ok.inj hw
      obtain ⟨hle, he⟩ := signed_negative hn
      refine readValue_argument (by decide) (by rw [cInt64Max] at hle; omega) fun s s' a h => ?_
      rw [readMajor, h, CborValue.stored, if_neg hn]
      simp only [bind, Except.bind]
      rw [if_neg (by omega), he]
      rfl
  | @float bits finite =>
    rw [writeValue, writeFloat, if_neg fun h => h.2 (finite h.1)] at hw
    obtain rfl := Except.ok.inj hw
    rw [CborValue.stored]
    refine readValue_float (fun hdag => ?_) (fun hdag hz => ?_) fuel depth
    · split
      · decide
      · exact finite (hp hdag)
    · split at hz
      case isTrue h => exact if_pos h
      case isFalse h => exact absurd ⟨hp hdag, hz⟩ h
  | text valid =>
    rw [writeValue, writeText_valid format valid] at hw
    obtain rfl := Except.ok.inj hw
    cases hfit with
    | text hl =>
      rw [textBytes, List.length_append] at hlen hmax
      exact readValue_text valid hl (by omega) (by omega) fuel depth
  | bytes =>
    rw [writeValue] at hw
    obtain rfl := Except.ok.inj hw
    rw [writeBytes, List.length_append] at hlen hmax
    exact readValue_bytes (by omega) (by omega) fuel depth
  | @link cid valid =>
    rw [writeValue, if_neg (by simp [valid])] at hw
    obtain rfl := Except.ok.inj hw
    simp only [List.length_append, List.length_cons] at hlen hmax hf
    obtain ⟨fuel, rfl⟩ : ∃ n, fuel = n + 1 := ⟨fuel - 1, by omega⟩
    exact readValue_link valid (by omega) (by omega) fuel depth
  | @array items _ ih =>
    rw [writeValue] at hw
    obtain ⟨pieces, hps, hw⟩ := bind_eq_ok hw
    obtain rfl := Except.ok.inj hw
    rw [List.length_append] at hlen hmax hf
    cases hfit with
    | array nesting items' =>
    have hcount := writeItems_length hps
    have hhead := List.length_pos_iff.mpr (writeHead_ne_nil 4 items.length)
    obtain ⟨fuel, rfl⟩ : ∃ n, fuel = n + 1 := ⟨fuel - 1, by omega⟩
    intro s rest hr hn
    rw [CborValue.valueCount] at hn
    have hcounts := length_le_itemsCount items
    obtain ⟨a, tail, hh, hread, hvalue⟩ := readValue_head clock o (by decide : 4 < 8)
      (show items.length < 2 ^ 64 by rw [cUInt64Max] at hlen; omega)
    rw [List.append_assoc] at hr
    rw [hvalue (fuel + 1) depth s (pieces ++ rest) hr (by omega), readMajor, readArray,
      if_neg (by omega), hread _ (pieces ++ rest) true rfl, CborCodec.after_moved]
    simp only [bind, Except.bind]
    rw [if_neg (by omega), readItems_complete hps (le_refl _)
      (fun v hv piece hp hle => ih v hv (items' v hv) hp (by omega) (by omega) (by omega))
      (by omega) (Nat.zero_add _)
      (by rw [CborCodec.after_unread, List.length_append]; omega) rfl
      (by rw [CborCodec.after_valueCount]; omega)]
    simp only [pure, Except.pure, CborCodec.after_after]
    rw [CborValue.stored, CborValue.valueCount, hh, List.length_append, List.length_cons,
      Nat.add_comm tail.length]
  | @map entries sorted keys _ ih =>
    rw [writeValue_map] at hw
    obtain ⟨pieces, hps, hw⟩ := bind_eq_ok hw
    obtain rfl := Except.ok.inj hw
    rw [List.length_append] at hlen hmax hf
    cases hfit with
    | map nesting keys' entries' =>
    have hperm := writtenOrder_perm format entries
    have hcount := writeEntries_length hps
    rw [List.length_map, hperm.length_eq] at hcount
    have hhead := List.length_pos_iff.mpr (writeHead_ne_nil 5 entries.length)
    obtain ⟨fuel, rfl⟩ : ∃ n, fuel = n + 1 := ⟨fuel - 1, by omega⟩
    intro s rest hr hn
    rw [CborValue.valueCount] at hn
    have hcounts := length_le_entriesCount entries
    have hsum : entriesCount (writtenOrder format entries) = entriesCount entries := by
      rw [entriesCount_eq, entriesCount_eq]
      exact (hperm.map _).sum_eq
    have hstored : StringMap.setAll [] (storedEntries format (writtenOrder format entries)) =
        storedEntries format entries := by
      rw [storedEntries_eq, storedEntries_eq]
      refine StringMap.setAll_perm ?_ (hperm.map _)
      exact List.pairwise_map.mpr (sorted.imp fun h => h)
    obtain ⟨a, tail, hh, hread, hvalue⟩ := readValue_head clock o (by decide : 5 < 8)
      (show entries.length < 2 ^ 64 by rw [cUInt64Max] at hlen; omega)
    rw [List.append_assoc] at hr
    rw [hvalue (fuel + 1) depth s (pieces ++ rest) hr (by omega), readMajor, readMap,
      if_neg (by omega), hread _ (pieces ++ rest) true rfl, CborCodec.after_moved]
    simp only [bind, Except.bind]
    rw [if_neg (by omega), readEntries_complete hps (le_refl _)
      (fun e he => keys e (hperm.mem_iff.mp he))
      (fun e he hle => ?_)
      (fun e he piece hp hle => ih e (hperm.mem_iff.mp he) (entries' e (hperm.mem_iff.mp he)) hp
        (by omega) (by omega) (by omega))
      (by omega) (sorted.distinct.perm hperm.symm) (fun _ _ => rfl) (fun hdag => ?_)
      (fun _ _ _ => .inl rfl) (by omega) (by rw [Nat.zero_add, hperm.length_eq])
      (by rw [CborCodec.after_unread, List.length_append, hperm.length_eq]; omega) rfl
      (by rw [CborCodec.after_valueCount, hsum]; omega)]
    · simp only [pure, Except.pure, CborCodec.after_after]
      rw [CborValue.stored, CborValue.valueCount, hsum, hstored, hh, List.length_append,
        List.length_cons, Nat.add_comm tail.length]
    · rw [textBytes, List.length_append] at hle
      exact readValue_text (keys e (hperm.mem_iff.mp he)) (keys' e (hperm.mem_iff.mp he))
        (by omega) (by omega) fuel _
    · rw [writtenOrder, if_pos (hp hdag)]
      exact sortEntries_strict sorted

/-- Every well-formed value has an encoding, and decoding restores the value from it. The limits
admit the value, and the bytes are read in the profile in which they were written, or in the
ordinary one. -/
theorem decode_encode (clock : Clock) (hprofile : o.dagCbor = true → format.dagCbor = true)
    {v : CborValue clock.Timestamp} (hv : WellFormed format v) (hfit : Fits o 0 v)
    (hn : v.valueCount ≤ o.maximumValueCount) :
    ∃ bytes, encode clock format v = .ok bytes ∧
      ∀ block : ByteBlock, block.bytes = bytes → bytes.length ≤ o.maximumInputLength →
        decode clock o block = .ok (v.stored format) := by
  obtain ⟨bytes, hw⟩ := writeValue_ok format hv
  refine ⟨bytes, hw, ?_⟩
  rintro block rfl hmax
  have hread := readValue_complete hprofile hv hfit hw (le_refl _) block.length_lt hmax
    { reader := { unread := block.bytes } } [] (List.append_nil _).symm (by simpa using hn)
  rw [decode, parse, if_neg (by omega), hread]
  rfl

/-- A time library without any time stamps. -/
def timeless : Clock where
  Timestamp := Empty
  fromIsoString _ := none
  toIsoString _ := none
  epoch := 0
  fromTicks _ _ := none
  splitSeconds _ := none

theorem decode_encode_map : ∃ bytes, encode timeless {} (.map [([0x61], .signed (-1))]) = .ok bytes ∧
    ∀ block : ByteBlock, block.bytes = bytes → bytes.length ≤ 16 * 1024 * 1024 →
      decode timeless {} block = .ok (.map [([0x61], .signed (-1))]) := by
  have hv : WellFormed ({} : CborFormatOptions)
      (.map [([0x61], .signed (-1))] : CborValue timeless.Timestamp) := by
    refine .map (List.pairwise_singleton _ _) ?_ ?_
    · rintro e (_ | ⟨_, ⟨⟩⟩)
      decide
    · rintro e (_ | ⟨_, ⟨⟩⟩)
      exact .signed
  refine decode_encode (o := {}) timeless (fun h => h) hv (.map (by decide) ?_ ?_) (by decide)
  · rintro e (_ | ⟨_, ⟨⟩⟩)
    decide
  · rintro e (_ | ⟨_, ⟨⟩⟩)
    exact .signed

/-- The strict profile writes a negative zero as zero. -/
theorem negative_zero_not_restored :
    ∃ bytes, ∃ h : bytes.length < cRawInfinite,
      encode timeless { dagCbor := true } (.float 0x8000000000000000) = .ok bytes ∧
      decode timeless { dagCbor := true } ⟨bytes, h⟩ = .ok (.float 0) ∧
      (.float 0 : CborValue timeless.Timestamp) ≠ .float 0x8000000000000000 := by
  refine ⟨[0xFB, 0, 0, 0, 0, 0, 0, 0, 0], by decide, rfl, rfl, ?_⟩
  intro h
  exact absurd (CborValue.float.inj h) (by decide)

end ErbslandCore.Data.Cbor
