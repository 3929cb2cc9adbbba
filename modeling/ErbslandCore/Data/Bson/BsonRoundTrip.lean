import ErbslandCore.Data.Bson.BsonReader

namespace ErbslandCore.Data.Bson
open Library Mem Text Time BsonCodec
set_option autoImplicit true

variable {o : BsonParseOptions}

/-- A reader takes exactly these bytes for a container, and counts its values. -/
def TakesContainer (o : BsonParseOptions) (read : ContainerReader) (array : Bool) (depth : Nat)
    (bytes : List UInt8) (count : Nat) (v : BsonValue) : Prop :=
  ∀ s rest, s.reader.unread = bytes ++ rest → s.valueCount + count ≤ o.maximumValueCount →
    read s array depth = .ok (v, s.after count bytes.length rest)

def TakesValue (o : BsonParseOptions) (read : ContainerReader) (depth : Nat) (code : UInt8)
    (bytes : List UInt8) (count : Nat) (v : BsonValue) : Prop :=
  ∀ s rest, s.reader.unread = bytes ++ rest → s.valueCount + count ≤ o.maximumValueCount →
    readValue o read s code depth = .ok (v, s.after count bytes.length rest)

def TakesElements (o : BsonParseOptions) (read : ContainerReader) (array : Bool) (depth index : Nat)
    (bytes : List UInt8) (count : Nat) (es : List (List UInt8 × BsonValue)) : Prop :=
  ∀ fuel s rest document values, bytes.length < fuel → s.reader.unread = bytes ++ rest →
    s.valueCount + count ≤ o.maximumValueCount → (array = true → values.length = index) →
    (array = false → StringMap.Distinct es ∧ ∀ e ∈ es, StringMap.contains document e.1 = false) →
    ∃ document' values',
      readElements o read array depth (s.reader.position + bytes.length) fuel s document values =
        .ok ((document', values'), s.after count bytes.length rest) ∧
      Collects array document document' values values' es

/-- Types without a representation of their own. -/
def isOpaque (code : UInt8) : Prop :=
  code ∈ [0x06, 0x7F, 0xFF, 0x07, 0x0B, 0x0C, 0x0D, 0x0E, 0x0F, 0x11, 0x13]

theorem readValue_ofOpaque (read : ContainerReader) (s : BsonCodec) (depth : Nat) (hc : isOpaque code) :
    readValue o read s code depth = (do
      let s' ← readOpaque o read s code depth
      return (.opaqueValue code (s.reader.sliceFrom s'.reader), s')) := by
  simp only [isOpaque, List.mem_cons, List.not_mem_nil, or_false] at hc
  rcases hc with rfl | rfl | rfl | rfl | rfl | rfl | rfl | rfl | rfl | rfl | rfl <;> rfl

theorem takesValue_opaque {read : ContainerReader} (hc : isOpaque code)
    (h : ∀ s rest, s.reader.unread = payload ++ rest →
      s.valueCount + count ≤ o.maximumValueCount →
      readOpaque o read s code depth = .ok (s.after count payload.length rest)) :
    TakesValue o read depth code payload count (.opaqueValue code payload) := by
  intro s rest hr hn
  rw [readValue_ofOpaque read s depth hc, h s rest hr hn, ok_bind, sliceFrom_after s hr]
  rfl

theorem takesValue_fixed {read : ContainerReader} (h : (code, payload.length) ∈ fixedSizes) :
    TakesValue o read depth code payload 0 (.opaqueValue code payload) := by
  simp only [fixedSizes, List.mem_cons, Prod.mk.injEq, List.not_mem_nil, or_false] at h
  have stay (s : BsonCodec) (rest) (hl : payload.length = 0) (hr : s.reader.unread = payload ++ rest) :
      s.after 0 payload.length rest = s := by
    rw [hl]
    rw [List.eq_nil_of_length_eq_zero hl] at hr
    exact after_zero hr
  rcases h with ⟨rfl, hl⟩ | ⟨rfl, hl⟩ | ⟨rfl, hl⟩ | ⟨rfl, hl⟩ | ⟨rfl, hl⟩ | ⟨rfl, hl⟩
  · refine takesValue_opaque (by simp [isOpaque]) fun s rest hr hn => ?_
    rw [stay s rest hl hr]
    rfl
  · refine takesValue_opaque (by simp [isOpaque]) fun s rest hr hn => ?_
    rw [stay s rest hl hr]
    rfl
  · refine takesValue_opaque (by simp [isOpaque]) fun s rest hr hn => ?_
    rw [stay s rest hl hr]
    rfl
  · refine takesValue_opaque (by simp [isOpaque]) fun s rest hr hn => ?_
    rw [← skip_complete hr, hl]
    rfl
  · refine takesValue_opaque (by simp [isOpaque]) fun s rest hr hn => ?_
    rw [← skip_complete hr, hl]
    rfl
  · refine takesValue_opaque (by simp [isOpaque]) fun s rest hr hn => ?_
    rw [← skip_complete hr, hl]
    rfl

theorem takesValue_regex {read : ContainerReader} (hp : IsCString o pattern)
    (ho : IsCString o options) :
    TakesValue o read depth 0x0B (cstringBytes pattern ++ cstringBytes options) 0
      (.opaqueValue 0x0B (cstringBytes pattern ++ cstringBytes options)) := by
  refine takesValue_opaque (by simp [isOpaque]) fun s rest hr hn => ?_
  rw [List.append_assoc] at hr
  have h₁ := readCString_complete hp hr
  have h₂ := readCString_complete ho
    (after_unread s 0 (cstringBytes pattern).length (cstringBytes options ++ rest))
  show (readCString o s >>= fun r => readCString o r.2 >>= fun r => pure r.2) = _
  rw [h₁, ok_bind]
  simp only [h₂, ok_bind, after_after, List.length_append]
  rfl

theorem takesValue_pointer {read : ContainerReader} (hv : IsString o value)
    (hi : identifier.length = 12) :
    TakesValue o read depth 0x0C (stringBytes value ++ identifier) 0
      (.opaqueValue 0x0C (stringBytes value ++ identifier)) := by
  refine takesValue_opaque (by simp [isOpaque]) fun s rest hr hn => ?_
  rw [List.append_assoc] at hr
  have h₁ := readString_complete hv hr
  have h₂ := skip_complete (after_unread s 0 (stringBytes value).length (identifier ++ rest))
  rw [hi] at h₂
  show (readString o s >>= fun r => r.2.skip 12) = _
  rw [h₁, ok_bind]
  simp only [h₂, after_after, List.length_append, hi]

theorem takesValue_code {read : ContainerReader} (hc : code = 0x0D ∨ code = 0x0E)
    (hv : IsString o value) :
    TakesValue o read depth code (stringBytes value) 0 (.opaqueValue code (stringBytes value)) := by
  have hopaque : isOpaque code := by rcases hc with rfl | rfl <;> simp [isOpaque]
  refine takesValue_opaque hopaque fun s rest hr hn => ?_
  have h₁ := readString_complete hv hr
  have hread : readOpaque o read s code depth = readString o s >>= fun r => pure r.2 := by
    rcases hc with rfl | rfl <;> rfl
  rw [hread, h₁, ok_bind]
  rfl

theorem takesValue_scope {read : ContainerReader} (hv : IsString o value)
    (hc : TakesContainer o read false depth bytes count v) (hl : IsLength o total)
    (ht : total = (stringBytes value).length + bytes.length + 4) (hb : 5 ≤ bytes.length) :
    TakesValue o read depth 0x0F (int32Bytes total ++ (stringBytes value ++ bytes)) count
      (.opaqueValue 0x0F (int32Bytes total ++ (stringBytes value ++ bytes))) := by
  refine takesValue_opaque (by simp [isOpaque]) fun s rest hr hn => ?_
  rw [List.append_assoc, List.append_assoc] at hr
  obtain ⟨length, h₁, hlength⟩ := readLength_complete hl.1 hr
  have h₂ := readString_complete hv (after_unread s 0 4 (stringBytes value ++ (bytes ++ rest)))
  have h₃ := hc (s.after 0 (4 + (stringBytes value).length) (bytes ++ rest)) rest rfl
    (by rw [after_valueCount]; omega)
  have hmax := hl.2
  have hstring : 5 ≤ (stringBytes value).length := by
    rw [stringBytes, List.length_append, List.length_append, int32Bytes_length,
      List.length_singleton]
    omega
  have hread : readOpaque o read s 0x0F depth = s.readInt32OrThrow >>= fun r =>
      if r.1.toInt < 14 ∨ r.1.toInt.toNat > o.maximumInputLength then fail
      else readString o r.2 >>= fun r₂ => read r₂.2 false depth >>= fun r₃ =>
        if r₃.2.reader.position - s.reader.position ≠ r.1.toInt.toNat then fail
        else pure r₃.2 := rfl
  rw [hread, h₁, ok_bind]
  simp only
  rw [if_neg (by omega), h₂, ok_bind]
  simp only [after_after]
  rw [h₃, ok_bind]
  simp only [after_after, after_position]
  rw [if_neg (by omega)]
  simp only [List.length_append, int32Bytes_length, Nat.zero_add, Nat.add_assoc]
  rfl

theorem takesElements_nil {read : ContainerReader} :
    TakesElements o read array depth index [] 0 [] := by
  intro fuel s rest document values hf hr hn hi hd
  obtain ⟨fuel, rfl⟩ : ∃ n, fuel = n + 1 := ⟨fuel - 1, by omega⟩
  refine ⟨document, values, ?_, ?_⟩
  · rw [List.nil_append] at hr
    rw [readElements, if_pos (by simp), List.length_nil, after_zero hr]
    rfl
  · rw [Collects]
    split
    case isTrue => rw [List.map_nil, List.append_nil]
    case isFalse ha => exact ⟨rfl, List.Pairwise.nil, fun _ h => absurd h List.not_mem_nil⟩

theorem takesElements_cons {read : ContainerReader} (hc : code ≠ 0) (hk : IsCString o key)
    (hi : array = true → key = fromInteger index)
    (hv : TakesValue o read (depth + 1) code bytes m v)
    (hrest : TakesElements o read array depth (index + 1) rest n es) :
    TakesElements o read array depth index (code :: (cstringBytes key ++ (bytes ++ rest)))
      (1 + (m + n)) ((key, v) :: es) := by
  intro fuel s tail document values hf hr hn hindex hd
  obtain ⟨fuel, rfl⟩ : ∃ n, fuel = n + 1 := ⟨fuel - 1, by omega⟩
  simp only [List.length_cons, List.length_append] at hf
  simp only [List.cons_append, List.append_assoc] at hr
  have h₁ : ({ s with valueCount := s.valueCount + 1 } : BsonCodec).readUInt8OrThrow =
      .ok (code, s.after 1 1 (cstringBytes key ++ (bytes ++ (rest ++ tail)))) :=
    readUInt8OrThrow_complete hr
  have h₂ := readCString_complete hk
    (after_unread s 1 1 (cstringBytes key ++ (bytes ++ (rest ++ tail))))
  rw [after_after] at h₂
  have h₃ := hv (s.after (1 + 0) (1 + (cstringBytes key).length) (bytes ++ (rest ++ tail)))
    (rest ++ tail) rfl (by rw [after_valueCount]; omega)
  rw [after_after] at h₃
  let s₃ := s.after (1 + 0 + m) (1 + (cstringBytes key).length + bytes.length) (rest ++ tail)
  have hfinish : s.reader.position +
        (code :: (cstringBytes key ++ (bytes ++ rest))).length =
      s₃.reader.position + rest.length := by
    simp only [s₃, after_position, List.length_cons, List.length_append]
    omega
  have hafter : s₃.after n rest.length tail = s.after (1 + (m + n))
      (code :: (cstringBytes key ++ (bytes ++ rest))).length tail := by
    simp only [s₃, after_after, List.length_cons, List.length_append]
    congr 1 <;> omega
  rw [readElements, hfinish, if_neg, if_neg (by omega)]
  · simp only [h₁, ok_bind, if_neg hc, h₂]
    split
    case isTrue ha =>
      have hkey : ¬ Text.compare key (fromInteger values.length) ≠ .eq := by
        rw [hi ha, hindex ha, not_not, compare_eq_iff]
      obtain ⟨document', values', hread, hcollects⟩ := hrest fuel s₃ tail document (values ++ [v])
        (by omega) rfl (by simp only [s₃, after_valueCount]; omega)
        (fun hb => by rw [List.length_append, List.length_singleton, hindex hb])
        (fun hb => by rw [ha] at hb; cases hb)
      refine ⟨document', values', ?_, ?_⟩
      · rw [if_neg hkey]
        simp only [h₃, ok_bind]
        rw [if_neg (by simp only [s₃, after_position]; omega), ← hafter]
        exact hread
      · rw [Collects, if_pos ha] at hcollects ⊢
        rw [hcollects, List.append_assoc]
        rfl
    case isFalse ha =>
      obtain ⟨hdistinct, hcontains⟩ := hd (by simpa using ha)
      obtain ⟨hkey, hdistinct⟩ := List.pairwise_cons.mp hdistinct
      obtain ⟨hfirst, hcontains⟩ := List.forall_mem_cons.mp hcontains
      obtain ⟨document', values', hread, hcollects⟩ := hrest fuel s₃ tail (StringMap.set key v document)
        values (by omega) rfl (by simp only [s₃, after_valueCount]; omega)
        (fun hb => absurd hb ha)
        (fun _ => ⟨hdistinct, fun e he =>
          StringMap.contains_set hfirst (hcontains e he) (hkey e he)⟩)
      refine ⟨document', values', ?_, ?_⟩
      · rw [if_neg (by simp [hfirst])]
        simp only [h₃, ok_bind]
        rw [if_neg (by simp only [s₃, after_position]; omega), ← hafter]
        exact hread
      · rw [Collects, if_neg ha] at hcollects ⊢
        exact ⟨hcollects.1, List.pairwise_cons.mpr ⟨hkey, hdistinct⟩,
          List.forall_mem_cons.mpr ⟨hfirst, hcontains⟩⟩
  · rw [← hfinish, List.length_cons]
    omega

theorem takesContainer {fuel : Nat} (hn : depth < o.maximumNesting) (hl : IsLength o (body.length + 5))
    (he : TakesElements o (readContainer o fuel) array depth 0 body count es)
    (hd : array = false → StringMap.Distinct es) :
    TakesContainer o (readContainer o (fuel + 1)) array depth
      (int32Bytes (body.length + 5) ++ (body ++ [0])) count
      (if array then .array (es.map Prod.snd) else .document (StringMap.setAll [] es)) := by
  intro s rest hr hcount
  have hlength : s.reader.unread.length = 4 + (body.length + 1) + rest.length := by
    simp only [hr, List.length_append, int32Bytes_length, List.length_singleton]
  rw [List.append_assoc, List.append_assoc] at hr
  obtain ⟨length, h₁, hlen⟩ := readLength_complete hl.1 hr
  have hmax := hl.2
  obtain ⟨document, values, h₂, hcollects⟩ := he ((body ++ ([0] ++ rest)).length + 1)
    (s.after 0 4 (body ++ ([0] ++ rest))) ([0] ++ rest) [] []
    (by rw [List.length_append]; omega) rfl hcount (fun _ => rfl) (fun ha => ⟨hd ha, fun _ _ => rfl⟩)
  have hfinish : s.reader.position + length.toInt.toNat - 1 =
      (s.after 0 4 (body ++ ([0] ++ rest))).reader.position + body.length := by
    rw [after_position]
    omega
  rw [after_after, Nat.zero_add] at h₂
  have h₃ : (s.after count (4 + body.length) ([0] ++ rest)).readUInt8OrThrow =
      .ok (0, (s.after count (4 + body.length) ([0] ++ rest)).after 0 1 rest) :=
    readUInt8OrThrow_complete rfl
  rw [readContainer, readContainerWith, if_neg (not_le.mpr hn), h₁, ok_bind]
  simp only [hfinish]
  rw [if_neg (by omega), after_unread, h₂, ok_bind]
  simp only [after_position, Nat.add_assoc, ne_eq, not_true_eq_false, if_false, h₃, ok_bind,
    after_after]
  have hvalue : (if array then BsonValue.array values else .document document) =
      if array then .array (es.map Prod.snd) else .document (StringMap.setAll [] es) := by
    cases array with
    | true =>
      rw [Collects, if_pos rfl] at hcollects
      rw [if_pos rfl, if_pos rfl, hcollects, List.nil_append]
    | false =>
      rw [Collects, if_neg Bool.false_ne_true] at hcollects
      rw [if_neg Bool.false_ne_true, if_neg Bool.false_ne_true, hcollects.1]
  rw [hvalue, List.length_append, List.length_append, int32Bytes_length, List.length_singleton]
  rfl

theorem five_le_container (h : IsContainer o array depth bytes count v) : 5 ≤ bytes.length := by
  cases h with
  | ofValues hn hl he =>
    rw [List.length_append, List.length_append, int32Bytes_length, List.length_singleton]
    omega
  | ofEntries hn hl he hd =>
    rw [List.length_append, List.length_append, int32Bytes_length, List.length_singleton]
    omega

/-- A property of the readers with fuel for the nesting that is left. -/
def EnoughFuel (o : BsonParseOptions) (depth : Nat) (p : ContainerReader → Prop) : Prop :=
  ∀ fuel, o.maximumNesting - depth < fuel → p (readContainer o fuel)

/-- The reader accepts what the grammar describes. -/
theorem readContainer_complete (h : IsContainer o array depth bytes count v) :
    EnoughFuel o depth fun read => TakesContainer o read array depth bytes count v := by
  induction h using IsContainer.rec
    (motive_1 := fun depth code bytes count v _ => EnoughFuel o depth fun read =>
      TakesValue o read depth code bytes count v)
    (motive_2 := fun array depth index bytes count es _ => EnoughFuel o (depth + 1) fun read =>
      TakesElements o read array depth index bytes count es) with
  | double bits =>
    intro fuel _ s rest hr _
    show (s.readUInt64OrThrow >>= fun r => pure (BsonValue.double r.1, r.2)) = _
    rw [readUInt64OrThrow_complete hr, toLittleEndian_length]
    rfl
  | text hv =>
    intro fuel _ s rest hr _
    show (readString o s >>= fun r => pure (BsonValue.text r.1, r.2)) = _
    rw [readString_complete hv hr]
    rfl
  | document _ ih => exact fun fuel hf s rest hr hn => ih fuel hf s rest hr hn
  | array _ ih => exact fun fuel hf s rest hr hn => ih fuel hf s rest hr hn
  | binary hs hl =>
    intro fuel _ s rest hr _
    show readBinary o s = _
    rw [readBinary_complete hs hl hr, List.length_append, List.length_cons, int32Bytes_length,
      Nat.add_comm 1]
  | oldBinary hl =>
    intro fuel _ s rest hr _
    show readBinary o s = _
    rw [readBinary_oldComplete hl hr, List.length_append, List.length_cons, List.length_append,
      int32Bytes_length, int32Bytes_length, Nat.add_comm 1]
  | bool value =>
    intro fuel _ s rest hr _
    have hread := readUInt8OrThrow_complete hr
    show (s.readUInt8OrThrow >>= fun r =>
      if r.1 > 1 then fail else pure (BsonValue.bool (r.1 = 1), r.2)) = _
    rw [hread, ok_bind]
    cases value with
    | true => rfl
    | false => rfl
  | dateTime milliseconds hv =>
    intro fuel _ s rest hr _
    show (readDateTime s >>= fun r => pure (BsonValue.dateTime r.1, r.2)) = _
    rw [readDateTime_complete hv hr, toLittleEndian_length]
    rfl
  | null =>
    intro fuel _ s rest hr _
    rw [List.nil_append] at hr
    rw [List.length_nil, after_zero hr]
    rfl
  | int32 value =>
    intro fuel _ s rest hr _
    show (s.readInt32OrThrow >>= fun r => pure (BsonValue.int32 r.1, r.2)) = _
    rw [readInt32OrThrow_complete hr, toLittleEndian_length]
    rfl
  | int64 value =>
    intro fuel _ s rest hr _
    show (s.readInt64OrThrow >>= fun r => pure (BsonValue.int64 r.1, r.2)) = _
    rw [readInt64OrThrow_complete hr, toLittleEndian_length]
    rfl
  | fixed hf => exact fun _ _ => takesValue_fixed hf
  | regex hp ho => exact fun _ _ => takesValue_regex hp ho
  | pointer hv hi => exact fun _ _ => takesValue_pointer hv hi
  | code hc hv => exact fun _ _ => takesValue_code hc hv
  | scope hv hc hl ht ih =>
    exact fun fuel hf => takesValue_scope hv (ih fuel hf) hl ht (five_le_container hc)
  | nil => exact fun _ _ => takesElements_nil
  | cons hc hk hi _ _ ihv ihr =>
    exact fun fuel hf => takesElements_cons hc hk hi (ihv fuel hf) (ihr fuel hf)
  | ofValues hn hl _ ih =>
    rintro (_ | fuel) hf
    · exact absurd hf (Nat.not_lt_zero _)
    · exact takesContainer hn hl (ih fuel (by omega)) (fun ha => absurd ha (by decide))
  | ofEntries hn hl _ hd ih =>
    rintro (_ | fuel) hf
    · exact absurd hf (Nat.not_lt_zero _)
    · exact takesContainer hn hl (ih fuel (by omega)) (fun _ : false = false => hd)

end ErbslandCore.Data.Bson
