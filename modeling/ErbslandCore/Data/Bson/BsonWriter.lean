import ErbslandCore.Data.Bson.BsonRoundTrip

namespace ErbslandCore.Data.Bson
open Library Mem Text Time BsonCodec
set_option autoImplicit true

mutual

/-- A value as it is written: the texts are encoded again. -/
def BsonValue.stored : BsonValue → BsonValue
  | .text value => .text (Utf8.toStdString value)
  | .array values => .array (storedValues values)
  | .document entries => .document (storedEntries entries)
  | value => value

def storedValues : List BsonValue → List BsonValue
  | [] => []
  | entry :: values => entry.stored :: storedValues values

def storedEntries : List (List UInt8 × BsonValue) → List (List UInt8 × BsonValue)
  | [] => []
  | (key, entry) :: entries => (Utf8.toStdString key, entry.stored) :: storedEntries entries

end

/-- Values are equal up to equivalent texts. -/
inductive BsonValue.Equal : BsonValue → BsonValue → Prop
  | refl (v : BsonValue) : Equal v v
  | text (h : Text.compare a b = .eq) : Equal (.text a) (.text b)
  | array (h : List.Forall₂ Equal vs ws) : Equal (.array vs) (.array ws)
  | document (hk : List.Forall₂ (fun a b => Text.compare a b = .eq) (es.map Prod.fst) (fs.map Prod.fst))
      (hv : List.Forall₂ Equal (es.map Prod.snd) (fs.map Prod.snd)) :
      Equal (.document es) (.document fs)

/-- The elements of an array, with their keys. -/
def indexed : Nat → List BsonValue → List (List UInt8 × BsonValue)
  | _, [] => []
  | index, entry :: values => (fromInteger index, entry) :: indexed (index + 1) values

section
variable (o : BsonParseOptions)

mutual

/-- A value at a nesting depth within the limits of the parser, with the number of elements in it.
Documents are maps, and payloads without a representation of their own are framed. -/
inductive Admitted : Nat → BsonValue → Nat → Prop
  | null : Admitted depth .null 0
  | bool : Admitted depth (.bool value) 0
  | int32 : Admitted depth (.int32 value) 0
  | int64 : Admitted depth (.int64 value) 0
  | double : Admitted depth (.double bits) 0
  | binary : Admitted depth (.binary bytes subtype) 0
  | dateTime : Admitted depth (.dateTime value) 0
  | text (h : (Utf8.toStdString value).length ≤ o.maximumStringLength) : Admitted depth (.text value) 0
  | array (hn : depth < o.maximumNesting) (h : AdmittedEntries depth (indexed 0 values) count) :
      Admitted depth (.array values) count
  | document (hn : depth < o.maximumNesting) (hs : StringMap.Sorted entries)
      (h : AdmittedEntries depth entries count) : Admitted depth (.document entries) count
  | opaqueValue (h : IsValue o depth code payload count (.opaqueValue code payload)) :
      Admitted depth (.opaqueValue code payload) count

inductive AdmittedEntries : Nat → List (List UInt8 × BsonValue) → Nat → Prop
  | nil : AdmittedEntries depth [] 0
  | cons (hk : (Utf8.toStdString key).length ≤ o.maximumStringLength) (hv : Admitted (depth + 1) v m)
      (h : AdmittedEntries depth entries n) :
      AdmittedEntries depth ((key, v) :: entries) (1 + (m + n))

end
end

theorem storedEntries_eq (entries : List (List UInt8 × BsonValue)) :
    storedEntries entries = entries.map fun e => (Utf8.toStdString e.1, e.2.stored) := by
  induction entries with
  | nil => rfl
  | cons entry entries ih => rw [storedEntries, ih, List.map_cons]

theorem storedValues_eq (values : List BsonValue) :
    storedValues values = values.map BsonValue.stored := by
  induction values with
  | nil => rfl
  | cons entry values ih => rw [storedValues, ih, List.map_cons]

theorem toStdString_fromInteger (value : Nat) :
    Utf8.toStdString (fromInteger value) = fromInteger value :=
  Utf8.toStdString_of_valid (Utf8.characters_ascii fun b hb => by
    have := fromInteger_digits value b hb
    omega).1

theorem storedEntries_indexed (index : Nat) (values : List BsonValue) :
    storedEntries (indexed index values) = indexed index (storedValues values) := by
  induction values generalizing index with
  | nil => rfl
  | cons entry values ih =>
    rw [indexed, storedEntries, storedValues, indexed, ih, toStdString_fromInteger]

theorem indexed_values (index : Nat) (values : List BsonValue) :
    (indexed index values).map Prod.snd = values := by
  induction values generalizing index with
  | nil => rfl
  | cons entry values ih => rw [indexed, List.map_cons, ih]

theorem writeValues_eq (index : Nat) (values : List BsonValue) :
    writeValues index values = writeEntries (indexed index values) := by
  induction values generalizing index with
  | nil => rfl
  | cons entry values ih =>
    funext w
    rw [writeValues, indexed, writeEntries, ih]

theorem compare_toStdString (a b : List UInt8) :
    Text.compare (Utf8.toStdString a) (Utf8.toStdString b) = Text.compare a b := by
  simp only [Text.compare, Utf8.characters_toStdString]

theorem storedEntries_sorted {entries : StringMap BsonValue} (h : StringMap.Sorted entries) :
    StringMap.Sorted (storedEntries entries) := by
  rw [storedEntries_eq]
  refine List.pairwise_map.mpr (h.imp fun {a b} hab => ?_)
  show Text.compare (Utf8.toStdString a.1) (Utf8.toStdString b.1) = .lt
  rw [compare_toStdString]
  exact hab

/-- The stored value is the same up to equivalent texts. -/
theorem stored_equal (v : BsonValue) : v.stored.Equal v := by
  have key (a : List UInt8) : Text.compare (Utf8.toStdString a) a = .eq :=
    (compare_eq_iff _ _).mpr (Utf8.characters_toStdString a)
  induction v using BsonValue.induction with
  | text value => exact .text (key value)
  | array values ih =>
    rw [BsonValue.stored, storedValues_eq]
    refine .array (List.forall₂_map_left_iff.mpr (List.forall₂_same.mpr ih))
  | document entries ih =>
    rw [BsonValue.stored, storedEntries_eq]
    refine .document ?_ ?_
    · rw [List.map_map]
      exact List.forall₂_map_left_iff.mpr (List.forall₂_map_right_iff.mpr
        (List.forall₂_same.mpr fun e _ => key e.1))
    · rw [List.map_map]
      exact List.forall₂_map_left_iff.mpr (List.forall₂_map_right_iff.mpr
        (List.forall₂_same.mpr fun e he => ih e he))
  | null => exact .refl _
  | bool => exact .refl _
  | int32 => exact .refl _
  | int64 => exact .refl _
  | double => exact .refl _
  | binary => exact .refl _
  | dateTime => exact .refl _
  | opaqueValue => exact .refl _

variable {o : BsonParseOptions}

theorem isValue_code_ne_zero (h : IsValue o depth code bytes count v) : code ≠ 0 := by
  cases h with
  | fixed h =>
    rintro rfl
    exact absurd h (by simp [fixedSizes])
  | code hc h =>
    rintro rfl
    exact absurd hc (by decide)
  | _ => decide

/-- The keys of indexed elements are those of an array. -/
theorem isElements_indexed (h : IsElements o false depth index bytes count (indexed index values)) :
    IsElements o true depth index bytes count (indexed index values) := by
  induction values generalizing index bytes count with
  | nil =>
    cases h
    exact .nil
  | cons entry values ih =>
    cases h with
    | cons hc hk hi hv hr => exact .cons hc hk (fun _ => rfl) hv (ih hr)

/-- What the writer appends for a value. -/
def Appends (write : ByteWriter → Except DataError ByteWriter) (post : List UInt8 → Prop) : Prop :=
  ∀ block w, write (.atEnd block) = .ok w → ∃ bytes, w = .atEnd (block ++ bytes) ∧ post bytes

theorem writeUInt8_atEnd (block : List UInt8) (b : UInt8) :
    (ByteWriter.atEnd block).writeUInt8 b = .atEnd (block ++ [b]) :=
  ByteWriter.writeBytes_atEnd block [b]

theorem writeInt32_atEnd (block : List UInt8) (v : Int32) :
    (ByteWriter.atEnd block).writeInt32 v = .atEnd (block ++ toLittleEndian 4 v.toUInt32.toNat) :=
  ByteWriter.writeBytes_atEnd block _

theorem writeInt32_length (block : List UInt8) (hn : n ≤ cInt32Max) :
    (ByteWriter.atEnd block).writeInt32 (Int32.ofNat n) = .atEnd (block ++ int32Bytes n) := by
  rw [writeInt32_atEnd, (toInt_ofNat hn).2]
  rfl

theorem writeCString_appends (key : List UInt8) :
    Appends (writeCString key) fun bytes =>
      bytes = cstringBytes (Utf8.toStdString key) ∧ 0 ∉ Utf8.toStdString key := by
  intro block w h
  rw [writeCString] at h
  split at h
  case isTrue => cases h
  case isFalse hz =>
    obtain rfl := Except.ok.inj h
    refine ⟨_, ?_, rfl, hz⟩
    rw [ByteWriter.writeBytes_atEnd, writeUInt8_atEnd, List.append_assoc]
    rfl

theorem writeString_appends (value : List UInt8) :
    Appends (writeString value) fun bytes =>
      bytes = stringBytes (Utf8.toStdString value) ∧ (Utf8.toStdString value).length < cInt32Max := by
  intro block w h
  rw [writeString] at h
  split at h
  case isTrue => cases h
  case isFalse hl =>
    obtain rfl := Except.ok.inj h
    refine ⟨_, ?_, rfl, not_le.mp hl⟩
    rw [writeInt32_length block (by omega), ByteWriter.writeBytes_atEnd, writeUInt8_atEnd, stringBytes,
      List.append_assoc, List.append_assoc, List.append_assoc]

theorem writeBinary_appends (bytes : List UInt8) (subtype : UInt8) (depth : Nat) :
    Appends (writeBinary bytes subtype) fun piece => piece.length ≤ o.maximumInputLength →
      IsValue o depth 0x05 piece 0 (.binary bytes subtype) := by
  intro block w h
  rw [writeBinary] at h
  simp only at h
  split at h
  case isTrue => cases h
  case isFalse hl =>
  obtain rfl := Except.ok.inj h
  rw [cInt32Max] at hl
  by_cases hs : subtype = 2
  · subst hs
    refine ⟨_, ?_, fun hmax => .oldBinary ⟨by rw [cInt32Max]; omega, ?_⟩⟩
    · rw [if_pos rfl, if_pos rfl, writeInt32_length block (by rw [cInt32Max]; omega),
        writeUInt8_atEnd, writeInt32_length _ (by rw [cInt32Max]; omega),
        ByteWriter.writeBytes_atEnd]
      simp only [List.append_assoc, List.cons_append, List.nil_append]
    · simp only [List.length_append, List.length_cons, int32Bytes_length] at hmax
      omega
  · refine ⟨_, ?_, fun hmax => .binary hs ⟨by rw [cInt32Max]; omega, ?_⟩⟩
    · rw [if_neg hs, if_neg hs, Nat.add_zero, writeInt32_length block (by rw [cInt32Max]; omega),
        writeUInt8_atEnd, ByteWriter.writeBytes_atEnd]
      simp only [List.append_assoc, List.cons_append, List.nil_append]
    · simp only [List.length_append, List.length_cons, int32Bytes_length] at hmax
      omega

theorem writeDateTime_appends (value : Timestamp) (depth : Nat) :
    Appends (writeDateTime value) fun bytes => IsValue o depth 0x09 bytes 0 (.dateTime value) := by
  intro block w h
  rw [writeDateTime] at h
  split at h
  case isTrue => cases h
  case isFalse hc =>
  rw [not_or, not_not, not_not] at hc
  obtain ⟨ticks, hticks, hback, hl, hu⟩ := Timestamp.fromMilliseconds_toMilliseconds hc.1 hc.2
  rw [hticks, epochMilliseconds_eq] at h
  obtain rfl := Except.ok.inj h
  simp only [cMillisecondsPerDay, cLastDay] at hu
  have hint : (Int64.ofInt (ticks - 62167219200000)).toInt = ticks - 62167219200000 :=
    Int64.toInt_ofInt_of_le (by omega) (by omega)
  refine ⟨_, ByteWriter.writeBytes_atEnd block _, .dateTime _ ?_⟩
  rw [instantOf, epochMilliseconds_eq, Option.bind_some, hint,
    show (62167219200000 : Int) + (ticks - 62167219200000) = ticks by omega, hback]

/-- The length that is written afterwards is the one of the container. -/
theorem writeContainer_appends {writeElements : ByteWriter → Except DataError ByteWriter}
    {post : List UInt8 → Prop} (h : Appends writeElements post) :
    Appends (writeContainer writeElements) fun bytes => ∃ body, post body ∧
      bytes = int32Bytes (body.length + 5) ++ (body ++ [0]) ∧ body.length + 5 ≤ cInt32Max := by
  intro block w hw
  obtain ⟨w₁, h₁, hw⟩ := bind_eq_ok hw
  have hzero : ((ByteWriter.atEnd block).writeInt32 0) = .atEnd (block ++ int32Bytes 0) :=
    writeInt32_atEnd block 0
  rw [hzero] at h₁
  obtain ⟨body, rfl, hbody⟩ := h _ _ h₁
  simp only [writeUInt8_atEnd] at hw
  have hlength : (ByteWriter.atEnd (block ++ int32Bytes 0 ++ body ++ [0])).position -
      (ByteWriter.atEnd block).position = body.length + 5 := by
    simp only [ByteWriter.atEnd, List.length_append, int32Bytes_length, List.length_singleton]
    omega
  rw [hlength] at hw
  split at hw
  case isTrue => cases hw
  case isFalse hmax =>
  obtain rfl := Except.ok.inj hw
  refine ⟨_, ?_, body, hbody, rfl, not_lt.mp hmax⟩
  have hstart : (ByteWriter.atEnd (block ++ int32Bytes 0 ++ body ++ [0])).setPosition
        (ByteWriter.atEnd block).position =
      ⟨block ++ int32Bytes 0 ++ (body ++ [0]), block.length⟩ := by
    rw [← List.append_assoc]
    simp only [ByteWriter.setPosition, ByteWriter.atEnd, ByteWriter.mk.injEq, true_and,
      List.length_append]
    omega
  have hbytes : Endianness.little.encode 4 (Int32.ofNat (body.length + 5)).toUInt32.toNat =
      int32Bytes (body.length + 5) := by
    rw [(toInt_ofNat (by omega)).2]
    rfl
  have hover : (⟨block ++ int32Bytes 0 ++ (body ++ [0]), block.length⟩ : ByteWriter).writeInt32
        (Int32.ofNat (body.length + 5)) =
      ⟨block ++ int32Bytes (body.length + 5) ++ (body ++ [0]), block.length + 4⟩ := by
    rw [ByteWriter.writeInt32, hbytes, ByteWriter.writeBytes_overwrite, int32Bytes_length]
    · rw [int32Bytes_length, int32Bytes_length]
    · exact List.ne_nil_of_length_pos (by rw [int32Bytes_length]; decide)
  rw [hstart, hover, ← List.append_assoc block]
  simp only [ByteWriter.setPosition, ByteWriter.atEnd, ByteWriter.mk.injEq, true_and,
    List.length_append, int32Bytes_length]
  omega

theorem writeContainer_framed (array : Bool) (hn : depth < o.maximumNesting)
    (hd : array = false → StringMap.Distinct es)
    (h : Appends writeElements fun body => body.length ≤ o.maximumInputLength →
      IsElements o array depth 0 body count es) :
    Appends (writeContainer writeElements) fun bytes => bytes.length ≤ o.maximumInputLength →
      IsContainer o array depth bytes count
        (if array then .array (es.map Prod.snd) else .document (StringMap.setAll [] es)) := by
  intro block w hw
  obtain ⟨bytes, rfl, body, hbody, rfl, hl⟩ := writeContainer_appends h block w hw
  refine ⟨_, rfl, fun hmax => ?_⟩
  simp only [List.length_append, int32Bytes_length, List.length_singleton] at hmax
  have helements := hbody (by omega)
  cases array with
  | true => exact .ofValues hn ⟨hl, by omega⟩ helements
  | false => exact .ofEntries hn ⟨hl, by omega⟩ helements (hd rfl)

/-- The bytes of a value are framed, if they fit into the input of the parser. -/
def Framed (o : BsonParseOptions) (depth : Nat) (v : BsonValue) (count : Nat) : Prop :=
  Appends (writeValue v) fun bytes => bytes.length ≤ o.maximumInputLength →
    IsValue o depth (typeCode v) bytes count v.stored

def FramedEntries (o : BsonParseOptions) (depth : Nat) (entries : List (List UInt8 × BsonValue))
    (count : Nat) : Prop :=
  Appends (writeEntries entries) fun bytes => bytes.length ≤ o.maximumInputLength →
    ∀ index, IsElements o false depth index bytes count (storedEntries entries)

theorem framedEntries_nil : FramedEntries o depth [] 0 := by
  intro block w h
  obtain rfl := Except.ok.inj h
  exact ⟨[], by rw [List.append_nil], fun _ _ => .nil⟩

theorem framedEntries_cons (hk : (Utf8.toStdString key).length ≤ o.maximumStringLength)
    (hv : Framed o (depth + 1) v m) (he : FramedEntries o depth entries n) :
    FramedEntries o depth ((key, v) :: entries) (1 + (m + n)) := by
  intro block w h
  obtain ⟨w₁, h₁, h⟩ := bind_eq_ok h
  obtain ⟨w₂, h₂, h⟩ := bind_eq_ok h
  rw [writeUInt8_atEnd] at h₁
  obtain ⟨_, rfl, rfl, hz⟩ := writeCString_appends key _ _ h₁
  obtain ⟨bytes, rfl, hbytes⟩ := hv _ _ h₂
  obtain ⟨rest, rfl, hrest⟩ := he _ _ h
  refine ⟨typeCode v :: (cstringBytes (Utf8.toStdString key) ++ (bytes ++ rest)), ?_, fun hl index => ?_⟩
  · simp only [List.append_assoc, List.cons_append, List.nil_append]
  · simp only [List.length_cons, List.length_append] at hl
    have hvalue := hbytes (by omega)
    rw [storedEntries]
    exact .cons (isValue_code_ne_zero hvalue) ⟨hz, hk⟩ (fun h => absurd h (by decide)) hvalue
      (hrest (by omega) (index + 1))

theorem storedEntries_setAll {entries : StringMap BsonValue} (hs : StringMap.Sorted entries) :
    StringMap.setAll [] (storedEntries entries) = storedEntries entries :=
  StringMap.setAll_perm (storedEntries_sorted hs) (.refl _)

/-- The writer frames the values that the parser admits. -/
theorem framed_of_admitted (h : Admitted o depth v count) : Framed o depth v count := by
  induction h using Admitted.rec
    (motive_2 := fun depth entries count _ => FramedEntries o depth entries count) with
  | null =>
    intro block w h
    obtain rfl := Except.ok.inj h
    exact ⟨[], by rw [List.append_nil], fun _ => .null⟩
  | @bool _ value =>
    intro block w h
    obtain rfl := Except.ok.inj h
    exact ⟨_, writeUInt8_atEnd block _, fun _ => .bool value⟩
  | @int32 _ value =>
    intro block w h
    obtain rfl := Except.ok.inj h
    exact ⟨_, writeInt32_atEnd block _, fun _ => .int32 value⟩
  | @int64 _ value =>
    intro block w h
    obtain rfl := Except.ok.inj h
    exact ⟨_, ByteWriter.writeBytes_atEnd block _, fun _ => .int64 value⟩
  | @double _ bits =>
    intro block w h
    obtain rfl := Except.ok.inj h
    exact ⟨_, ByteWriter.writeBytes_atEnd block _, fun _ => .double bits⟩
  | @binary depth bytes subtype => exact writeBinary_appends bytes subtype depth
  | @dateTime depth value =>
    intro block w h
    obtain ⟨bytes, hw, hv⟩ := writeDateTime_appends value depth block w h
    exact ⟨bytes, hw, fun _ => hv⟩
  | @text value _ ht =>
    intro block w h
    obtain ⟨_, hw, rfl, hl⟩ := writeString_appends value block w h
    exact ⟨_, hw, fun _ => .text ⟨hl, ht⟩⟩
  | @array depth values count hn _ ih =>
    intro block w h
    have hbody : Appends (writeEntries (indexed 0 values)) fun body =>
        body.length ≤ o.maximumInputLength →
          IsElements o true depth 0 body count (indexed 0 (storedValues values)) := by
      intro block w h
      obtain ⟨body, hw, hbody⟩ := ih block w h
      refine ⟨body, hw, fun hl => isElements_indexed ?_⟩
      rw [← storedEntries_indexed]
      exact hbody hl 0
    rw [writeValue, writeValues_eq] at h
    obtain ⟨bytes, hw, hb⟩ := writeContainer_framed true hn nofun hbody block w h
    rw [if_pos rfl, indexed_values] at hb
    exact ⟨bytes, hw, fun hl => .array (hb hl)⟩
  | @document depth entries count hn hs _ ih =>
    intro block w h
    have hbody : Appends (writeEntries entries) fun body => body.length ≤ o.maximumInputLength →
        IsElements o false depth 0 body count (storedEntries entries) := by
      intro block w h
      obtain ⟨body, hw, hbody⟩ := ih block w h
      exact ⟨body, hw, fun hl => hbody hl 0⟩
    obtain ⟨bytes, hw, hb⟩ := writeContainer_framed false hn
      (fun _ => (storedEntries_sorted hs).distinct) hbody block w h
    rw [if_neg Bool.false_ne_true, storedEntries_setAll hs] at hb
    exact ⟨bytes, hw, fun hl => .document (hb hl)⟩
  | opaqueValue hv =>
    intro block w h
    obtain rfl := Except.ok.inj h
    exact ⟨_, ByteWriter.writeBytes_atEnd block _, fun _ => hv⟩
  | nil => exact framedEntries_nil
  | cons hk _ _ ihv ihe => exact framedEntries_cons hk ihv ihe

theorem decode_complete (h : IsContainer o false 0 bytes count v)
    (hn : count ≤ o.maximumValueCount) (block : ByteBlock) (hb : block.bytes = bytes)
    (hl : bytes.length ≤ o.maximumInputLength) : decode o block = .ok v := by
  have hread := readContainer_complete h (o.maximumNesting + 1) (by omega)
    { reader := { unread := block.bytes } } [] (by rw [List.append_nil]; exact hb)
    (by rw [Nat.zero_add]; exact hn)
  rw [decode, parse, hb, if_neg (by omega), ← hb, hread]
  rfl

theorem decode_sound (h : decode o block = .ok v) :
    ∃ count, IsContainer o false 0 block.bytes count v := by
  have hparse : parse o block = .ok v := by
    rw [decode] at h
    split at h
    case h_1 => cases h
    case h_2 => cases h
    case h_3 => exact h
  rw [parse] at hparse
  split at hparse
  case isTrue => cases hparse
  obtain ⟨⟨value, s⟩, hread, hparse⟩ := bind_eq_ok hparse
  simp only at hparse
  split at hparse
  case isFalse => cases hparse
  case isTrue hend =>
  obtain rfl := Except.ok.inj hparse
  obtain ⟨bytes, count, hm, hc⟩ := readContainer_sound (o.maximumNesting + 1) _ _ _ _ _ hread
  have hbytes := hm.reads.unread
  rw [List.isEmpty_iff.mp hend, List.append_nil] at hbytes
  have hblock : block.bytes = bytes := hbytes
  exact ⟨count, by rw [hblock]; exact hc⟩

theorem encode_framed (h : Admitted o 0 v count) (he : encode v = .ok bytes)
    (hl : bytes.length ≤ o.maximumInputLength) : IsContainer o false 0 bytes count v.stored := by
  cases v with
  | document entries =>
    obtain ⟨w, hw, he⟩ := bind_eq_ok he
    obtain rfl := Except.ok.inj he
    obtain ⟨bytes, rfl, hb⟩ := framed_of_admitted h [] w hw
    cases hb hl with
    | document hc => exact hc
  | _ => cases he

/-- Documents are restored up to equivalent texts, and every accepted container, with all of the
containers in it, is as long as it declares. -/
theorem decode_encode_framed (o : BsonParseOptions) :
    (∀ v count bytes, Admitted o 0 v count → count ≤ o.maximumValueCount → encode v = .ok bytes →
      ∀ block : ByteBlock, block.bytes = bytes → bytes.length ≤ o.maximumInputLength →
        ∃ v', decode o block = .ok v' ∧ v'.Equal v) ∧
    (∀ block v, decode o block = .ok v → ∃ count, IsContainer o false 0 block.bytes count v) ∧
    ∀ fuel s array depth v s', readContainer o fuel s array depth = .ok (v, s') →
      ∃ bytes count, s.reader.Reads s'.reader bytes ∧ IsContainer o array depth bytes count v := by
  refine ⟨fun v count bytes hv hn he block hb hl => ?_, fun block v h => decode_sound h,
    fun fuel s array depth v s' h => ?_⟩
  · exact ⟨v.stored, decode_complete (encode_framed hv he hl) hn block hb hl, stored_equal v⟩
  · obtain ⟨bytes, count, hm, hc⟩ := readContainer_sound fuel s array depth v s' h
    exact ⟨bytes, count, hm.reads, hc⟩

/-- A document with an array of an old binary and a text with a terminator in it. -/
def nestedDocument : BsonValue := .document [([97], .array [.binary [7] 2, .text [120, 0]])]

def nestedBytes : List UInt8 :=
  [36, 0, 0, 0, 4, 97, 0, 28, 0, 0, 0, 5, 48, 0, 5, 0, 0, 0, 2, 1, 0, 0, 0, 7, 2, 49, 0, 3, 0, 0, 0,
    120, 0, 0, 0, 0]

theorem nestedDocument_admitted : Admitted {} 0 nestedDocument 3 := by
  refine .document (by decide) (List.pairwise_singleton _ _) (.cons (m := 2) (n := 0) (by decide) ?_
    .nil)
  refine .array (by decide) (.cons (m := 0) (n := 1) (by decide) .binary ?_)
  exact .cons (m := 0) (n := 0) (by decide) (.text (by decide)) .nil

theorem decode_encode_framed_nested :
    ∃ v', decode {} ⟨nestedBytes, by decide⟩ = .ok v' ∧ v'.Equal nestedDocument :=
  (decode_encode_framed {}).1 nestedDocument 3 nestedBytes nestedDocument_admitted (by decide) rfl _
    rfl (by decide)

end ErbslandCore.Data.Bson
