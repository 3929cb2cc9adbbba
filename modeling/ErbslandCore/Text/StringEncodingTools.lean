import ErbslandCore.Text.U8Encoding

namespace ErbslandCore.Text
open Library Mem
set_option autoImplicit true

inductive StringBomMode where
  | automatic
  | require
  | reject
  deriving DecidableEq

inductive EncodingMode where
  | strict
  | tolerant
  deriving DecidableEq

inductive StringEncoding where
  | utf8
  | utf16
  | utf16LittleEndian
  | utf16BigEndian
  | utf32
  | utf32LittleEndian
  | utf32BigEndian
  deriving DecidableEq

/-- The errors of decoding, with the index of the character or code unit that they are about. -/
inductive EncodingError where
  | encoding (message : String)
  | u8Encoding (error : Utf8.U8EncodingError)
  | u16Encoding (message : String) (unitIndex : Nat)
  | u32Encoding (message : String) (index : Nat)
  deriving DecidableEq

namespace StringEncoding

def isUtf8 (encoding : StringEncoding) : Bool := encoding = utf8

def isUtf16 (encoding : StringEncoding) : Bool :=
  encoding = utf16 ∨ encoding = utf16LittleEndian ∨ encoding = utf16BigEndian

def isUtf32 (encoding : StringEncoding) : Bool :=
  encoding = utf32 ∨ encoding = utf32LittleEndian ∨ encoding = utf32BigEndian

/-- The encoding of the output; the generic ones are written in little-endian order. -/
def effectiveEncoding (encoding : StringEncoding) : StringEncoding :=
  if encoding = utf16 then utf16LittleEndian
  else if encoding = utf32 then utf32LittleEndian
  else encoding

def endianness (encoding : StringEncoding) : Endianness :=
  let effective := encoding.effectiveEncoding
  if effective = utf16BigEndian ∨ effective = utf32BigEndian then .big else .little

def writesBom (encoding : StringEncoding) (mode : StringBomMode) : Bool :=
  if mode = .reject then false else mode = .require ∨ ¬ encoding.isUtf8

def bomBytes (encoding : StringEncoding) (mode : StringBomMode) : List UInt8 :=
  if ¬ encoding.writesBom mode then []
  else match encoding.effectiveEncoding with
    | utf8 => [0xEF, 0xBB, 0xBF]
    | utf16LittleEndian => [0xFF, 0xFE]
    | utf16BigEndian => [0xFE, 0xFF]
    | utf32LittleEndian => [0xFF, 0xFE, 0x00, 0x00]
    | utf32BigEndian => [0x00, 0x00, 0xFE, 0xFF]
    | utf16 => []
    | utf32 => []

end StringEncoding

namespace Utf16

def isHighSurrogate (unit : Nat) : Bool := 0xD800 ≤ unit && unit ≤ 0xDBFF

def isLowSurrogate (unit : Nat) : Bool := 0xDC00 ≤ unit && unit ≤ 0xDFFF

/-- The code units of a character; an invalid one is ignored. -/
def write (codePoint : Nat) : List Nat :=
  if ¬ isValidUnicode codePoint then []
  else if codePoint ≤ 0xFFFF then [codePoint]
  else
    let shifted := codePoint - 0x10000
    [0xD800 + (shifted >>> 10 &&& 0x03FF), 0xDC00 + (shifted &&& 0x03FF)]

/-- A character that cannot be decoded is replaced, unless the mode is strict. -/
def replaceOrThrow (mode : EncodingMode) (error : EncodingError)
    (rest : Except EncodingError (List Nat)) : Except EncodingError (List Nat) :=
  match mode with
  | .strict => .error error
  | .tolerant => (replacement :: ·) <$> rest

def forEachDecodedCharacter (mode : EncodingMode) (e : Endianness) :
    Nat → List UInt8 → Except EncodingError (List Nat)
  | _, [] => .ok []
  | _, [_] => replaceOrThrow mode (.encoding "Truncated UTF-16 data") (.ok [])
  | unitIndex, a :: b :: reader =>
    let unit := e.decode [a, b]
    if isHighSurrogate unit then
      match reader with
      | c :: d :: lowReader =>
        let low := e.decode [c, d]
        if isLowSurrogate low then
          ((0x10000 + ((unit - 0xD800) <<< 10) + (low - 0xDC00)) :: ·) <$>
            forEachDecodedCharacter mode e (unitIndex + 2) lowReader
        else replaceOrThrow mode (.u16Encoding "Invalid UTF-16 high surrogate" unitIndex)
          (forEachDecodedCharacter mode e (unitIndex + 1) (c :: d :: lowReader))
      | reader => replaceOrThrow mode (.u16Encoding "Invalid UTF-16 high surrogate" unitIndex)
          (forEachDecodedCharacter mode e (unitIndex + 1) reader)
    else if isLowSurrogate unit then
      replaceOrThrow mode (.u16Encoding "Invalid UTF-16 low surrogate" unitIndex)
        (forEachDecodedCharacter mode e (unitIndex + 1) reader)
    else if ¬ isValidUnicode unit then
      replaceOrThrow mode (.u16Encoding "Invalid Unicode code point in UTF-16 data" unitIndex)
        (forEachDecodedCharacter mode e (unitIndex + 1) reader)
    else (unit :: ·) <$> forEachDecodedCharacter mode e (unitIndex + 1) reader

end Utf16

namespace Utf32

def write (codePoint : Nat) : List Nat := if ¬ isValidUnicode codePoint then [] else [codePoint]

def forEachValidatedCharacter (mode : EncodingMode) (e : Endianness) :
    Nat → List UInt8 → Except EncodingError (List Nat)
  | _, [] => .ok []
  | cpIndex, a :: b :: c :: d :: reader =>
    let character := e.decode [a, b, c, d]
    if isValidUnicode character then
      (character :: ·) <$> forEachValidatedCharacter mode e (cpIndex + 1) reader
    else Utf16.replaceOrThrow mode (.u32Encoding "Invalid Unicode code point" cpIndex)
      (forEachValidatedCharacter mode e (cpIndex + 1) reader)
  | _, _ :: _ => Utf16.replaceOrThrow mode (.encoding "Truncated UTF-32 data") (.ok [])

end Utf32

namespace StringEncodingTools

/-- The mark and the characters in code units of a width. -/
def encodeUnits (write : Nat → List Nat) (width : Nat) (data : List UInt8) (encoding : StringEncoding)
    (bomMode : StringBomMode) : List UInt8 :=
  let units := (if encoding.writesBom bomMode then [0xFEFF] else []) ++
    (Utf8.characters data).flatMap write
  units.flatMap (encoding.endianness.encode width)

def encodeUtf8 (data : List UInt8) (bomMode : StringBomMode) : List UInt8 :=
  (if StringEncoding.utf8.writesBom bomMode then [0xEF, 0xBB, 0xBF] else []) ++
    (Utf8.characters data).flatMap Utf8.writeChar

def encodeUtf16 := encodeUnits Utf16.write 2

def encodeUtf32 := encodeUnits Utf32.write 4

def encode (data : List UInt8) (encoding : StringEncoding) (bomMode : StringBomMode) : List UInt8 :=
  match encoding with
  | .utf8 => encodeUtf8 data bomMode
  | .utf16 | .utf16LittleEndian | .utf16BigEndian => encodeUtf16 data encoding bomMode
  | .utf32 | .utf32LittleEndian | .utf32BigEndian => encodeUtf32 data encoding bomMode

/-- The byte order and the first byte after the mark. -/
structure DecodeLayout where
  endianness : Endianness := .little
  start : Nat := 0
  deriving DecidableEq

/-- Data starts with the mark of an encoding. -/
def hasBom (data : List UInt8) (encoding : StringEncoding) : Bool :=
  (encoding.bomBytes .require).isPrefixOf data

def resolveBomLayout (data : List UInt8) (encoding : StringEncoding) (bomMode : StringBomMode) :
    Except EncodingError DecodeLayout :=
  let hasUtf32LeBom := hasBom data .utf32LittleEndian
  let hasUtf32BeBom := hasBom data .utf32BigEndian
  let hasUtf8Bom := hasBom data .utf8
  let hasUtf16LeBom := ¬ hasUtf32LeBom ∧ hasBom data .utf16LittleEndian
  let hasUtf16BeBom := hasBom data .utf16BigEndian
  if ¬ (hasUtf32LeBom ∨ hasUtf32BeBom ∨ hasUtf8Bom ∨ hasUtf16LeBom ∨ hasUtf16BeBom) then
    if bomMode = .require then .error (.encoding "Missing byte order mark")
    else .ok { endianness := encoding.endianness, start := 0 }
  else if bomMode = .reject then .error (.encoding "Unexpected byte order mark")
  else if hasUtf8Bom then
    if encoding ≠ .utf8 then .error (.encoding "Unexpected UTF-8 byte order mark")
    else .ok { endianness := .little, start := (StringEncoding.utf8.bomBytes .require).length }
  else if hasUtf16LeBom then
    if ¬ encoding.isUtf16 ∨ encoding = .utf16BigEndian then
      .error (.encoding "Unexpected UTF-16 little endian byte order mark")
    else .ok { endianness := .little, start := (StringEncoding.utf16.bomBytes .require).length }
  else if hasUtf16BeBom then
    if ¬ encoding.isUtf16 ∨ encoding = .utf16LittleEndian then
      .error (.encoding "Unexpected UTF-16 big endian byte order mark")
    else .ok { endianness := .big, start := (StringEncoding.utf16.bomBytes .require).length }
  else if hasUtf32LeBom then
    if ¬ encoding.isUtf32 ∨ encoding = .utf32BigEndian then
      .error (.encoding "Unexpected UTF-32 little endian byte order mark")
    else .ok { endianness := .little, start := (StringEncoding.utf32.bomBytes .require).length }
  else if hasUtf32BeBom then
    if ¬ encoding.isUtf32 ∨ encoding = .utf32LittleEndian then
      .error (.encoding "Unexpected UTF-32 big endian byte order mark")
    else .ok { endianness := .big, start := (StringEncoding.utf32.bomBytes .require).length }
  else .ok { endianness := encoding.endianness, start := 0 }

/-- The characters, in the storage of a string. -/
def decodeFromCharacters (characters : Except EncodingError (List Nat)) :
    Except EncodingError (List UInt8) := (·.flatMap Utf8.writeChar) <$> characters

def decodeUtf8 (data : List UInt8) (layout : DecodeLayout) (mode : EncodingMode) :
    Except EncodingError (List UInt8) :=
  let source := data.drop layout.start
  match mode with
  | .strict =>
    match Utf8.Reader.forEachOrThrow source.length ⟨layout.start, source⟩ with
    | .error e => .error (.u8Encoding e)
    | .ok _ => .ok source
  | .tolerant =>
    if Utf8.isValid source then .ok source
    else .ok ((Utf8.characters source).flatMap Utf8.writeChar)

def decodeUtf16 (data : List UInt8) (layout : DecodeLayout) (mode : EncodingMode) :
    Except EncodingError (List UInt8) :=
  decodeFromCharacters
    (Utf16.forEachDecodedCharacter mode layout.endianness 0 (data.drop layout.start))

def decodeUtf32 (data : List UInt8) (layout : DecodeLayout) (mode : EncodingMode) :
    Except EncodingError (List UInt8) :=
  decodeFromCharacters
    (Utf32.forEachValidatedCharacter mode layout.endianness 0 (data.drop layout.start))

def decode (data : List UInt8) (encoding : StringEncoding) (bomMode : StringBomMode)
    (mode : EncodingMode) : Except EncodingError (List UInt8) := do
  let layout ← resolveBomLayout data encoding bomMode
  match encoding with
  | .utf8 => decodeUtf8 data layout mode
  | .utf16 | .utf16LittleEndian | .utf16BigEndian => decodeUtf16 data layout mode
  | .utf32 | .utf32LittleEndian | .utf32BigEndian => decodeUtf32 data layout mode

end StringEncodingTools

/-- The bytes of code units in a byte order. -/
def unitBytes (e : Endianness) (width : Nat) (units : List Nat) : List UInt8 :=
  units.flatMap (e.encode width)

theorem unitBytes_append (e : Endianness) (width : Nat) (xs ys : List Nat) :
    unitBytes e width (xs ++ ys) = unitBytes e width xs ++ unitBytes e width ys :=
  List.flatMap_append

theorem encode_two (e : Endianness) (unit : Nat) (h : unit < 0x10000) :
    ∃ a b, e.encode 2 unit = [a, b] ∧ e.decode [a, b] = unit := by
  have hlen := e.encode_length 2 unit
  have hdec := e.decode_encode_of_lt (show unit < 256 ^ 2 from h)
  obtain ⟨a, b, hab⟩ := List.length_eq_two.mp hlen
  exact ⟨a, b, hab, by rwa [hab] at hdec⟩

theorem encode_four (e : Endianness) (unit : Nat) (h : unit < 2 ^ 32) :
    ∃ a b c d, e.encode 4 unit = [a, b, c, d] ∧ e.decode [a, b, c, d] = unit := by
  have hlen := e.encode_length 4 unit
  have hdec := e.decode_encode_of_lt (show unit < 256 ^ 4 from h)
  match hb : e.encode 4 unit with
  | [a, b, c, d] => exact ⟨a, b, c, d, rfl, by rwa [hb] at hdec⟩
  | [] | [_] | [_, _] | [_, _, _] | _ :: _ :: _ :: _ :: _ :: _ => simp [hb] at hlen

/-- Decoding restores a character from its code units. -/
theorem Utf16.forEachDecodedCharacter_write (mode : EncodingMode) (e : Endianness) (index : Nat)
    (h : isValidUnicode c = true) (rest : List UInt8) :
    ∃ n, Utf16.forEachDecodedCharacter mode e index (unitBytes e 2 (Utf16.write c) ++ rest) =
      (c :: ·) <$> Utf16.forEachDecodedCharacter mode e n rest := by
  have hv := (Utf8.isValidUnicode_iff c).mp h
  by_cases hc : c ≤ 0xFFFF
  · obtain ⟨a, b, hab, hdec⟩ := encode_two e c (by omega)
    refine ⟨index + 1, ?_⟩
    have hhigh : ¬ Utf16.isHighSurrogate c = true := by
      simp [Utf16.isHighSurrogate]
      omega
    have hlow : ¬ Utf16.isLowSurrogate c = true := by
      simp [Utf16.isLowSurrogate]
      omega
    rw [Utf16.write, if_neg (by simp [h]), if_pos hc]
    simp only [unitBytes, List.flatMap_cons, List.flatMap_nil, hab, List.append_nil,
      List.cons_append, List.nil_append]
    rw [Utf16.forEachDecodedCharacter.eq_def]
    simp only [hdec]
    rw [if_neg hhigh, if_neg hlow, if_neg (by simp [h])]
  · have hten (n : Nat) : n &&& 0x3FF = n % 1024 := Nat.and_two_pow_sub_one_eq_mod n 10
    obtain ⟨a, b, hab, hhigh⟩ := encode_two e (0xD800 + ((c - 0x10000) >>> 10 &&& 0x03FF))
      (by rw [hten]; omega)
    obtain ⟨a', b', hab', hlow⟩ := encode_two e (0xDC00 + (c - 0x10000 &&& 0x03FF))
      (by rw [hten]; omega)
    refine ⟨index + 2, ?_⟩
    rw [Utf16.write, if_neg (by simp [h]), if_neg hc]
    simp only [unitBytes, List.flatMap_cons, List.flatMap_nil, hab, hab', List.append_nil,
      List.cons_append, List.nil_append]
    rw [Utf16.forEachDecodedCharacter]
    simp only [hhigh, hlow, hten, Nat.shiftRight_eq_div_pow, Nat.shiftLeft_eq]
    have hisHigh : Utf16.isHighSurrogate (0xD800 + (c - 0x10000) / 2 ^ 10 % 1024) = true := by
      simp only [Utf16.isHighSurrogate, Bool.and_eq_true, decide_eq_true_eq]
      omega
    have hisLow : Utf16.isLowSurrogate (0xDC00 + (c - 0x10000) % 1024) = true := by
      simp only [Utf16.isLowSurrogate, Bool.and_eq_true, decide_eq_true_eq]
      omega
    rw [if_pos hisHigh, if_pos hisLow]
    have hvalue : 0x10000 + (0xD800 + (c - 0x10000) / 2 ^ 10 % 1024 - 0xD800) * 2 ^ 10 +
        (0xDC00 + (c - 0x10000) % 1024 - 0xDC00) = c := by omega
    rw [hvalue]

theorem Utf16.forEachDecodedCharacter_complete (mode : EncodingMode) (e : Endianness) (index : Nat)
    (h : ∀ c ∈ cs, isValidUnicode c = true) :
    Utf16.forEachDecodedCharacter mode e index (unitBytes e 2 (cs.flatMap Utf16.write)) = .ok cs := by
  induction cs generalizing index with
  | nil => rw [List.flatMap_nil, unitBytes, List.flatMap_nil, Utf16.forEachDecodedCharacter]
  | cons c cs ih =>
    obtain ⟨hc, hcs⟩ := List.forall_mem_cons.mp h
    obtain ⟨n, hn⟩ := Utf16.forEachDecodedCharacter_write mode e index hc
      (unitBytes e 2 (cs.flatMap Utf16.write))
    rw [List.flatMap_cons, unitBytes_append, hn, ih n hcs]
    rfl

theorem Utf32.forEachValidatedCharacter_complete (mode : EncodingMode) (e : Endianness) (index : Nat)
    (h : ∀ c ∈ cs, isValidUnicode c = true) :
    Utf32.forEachValidatedCharacter mode e index (unitBytes e 4 (cs.flatMap Utf32.write)) =
      .ok cs := by
  induction cs generalizing index with
  | nil => rfl
  | cons c cs ih =>
    obtain ⟨hc, hcs⟩ := List.forall_mem_cons.mp h
    have hv := (Utf8.isValidUnicode_iff c).mp hc
    obtain ⟨x₀, x₁, x₂, x₃, hx, hdec⟩ := encode_four e c (by omega)
    rw [List.flatMap_cons, unitBytes_append, Utf32.write, if_neg (by simp [hc])]
    simp only [unitBytes, List.flatMap_cons, List.flatMap_nil, hx, List.append_nil,
      List.cons_append, List.nil_append]
    rw [Utf32.forEachValidatedCharacter]
    simp only [hdec, hc, if_true]
    rw [show (cs.flatMap Utf32.write).flatMap (e.encode 4) =
      unitBytes e 4 (cs.flatMap Utf32.write) from rfl, ih (index + 1) hcs]
    rfl

namespace StringEncodingTools

/-- The text is taken for a mark: without a mark of its own, when its bytes start like one, and after
the mark of UTF-16 in little-endian order, when the mark of UTF-32 goes on with it. -/
def IsMistaken (data : List UInt8) (encoding : StringEncoding) (bomMode : StringBomMode) : Prop :=
  if encoding.writesBom bomMode then
    encoding.effectiveEncoding = .utf16LittleEndian ∧
      [0x00, 0x00] <+: unitBytes .little 2 ((Utf8.characters data).flatMap Utf16.write)
  else ∃ other, hasBom (encode data encoding bomMode) other = true

theorem resolveBomLayout_plain (encoding : StringEncoding) (hm : bomMode ≠ .require)
    (h : ∀ other, hasBom data other = false) :
    resolveBomLayout data encoding bomMode = .ok { endianness := encoding.endianness, start := 0 } := by
  simp only [resolveBomLayout, h]
  rw [if_pos (by simp), if_neg hm]

/-- After the mark of the encoding, the layout is the one of its output. -/
theorem resolveBomLayout_marked (encoding : StringEncoding) (hm : bomMode ≠ .reject)
    (body : List UInt8)
    (h : encoding.effectiveEncoding = .utf16LittleEndian → ¬ [0x00, 0x00] <+: body) :
    resolveBomLayout (encoding.bomBytes .require ++ body) encoding bomMode =
      .ok { endianness := encoding.endianness, start := (encoding.bomBytes .require).length } := by
  have hne (h : ¬ [(0x00 : UInt8), 0x00] <+: body) : [(0x00 : UInt8), 0x00].isPrefixOf body = false := by
    rw [← Bool.not_eq_true, List.isPrefixOf_iff_prefix]
    exact h
  cases encoding with
  | utf8 => simp [resolveBomLayout, hasBom, StringEncoding.bomBytes, StringEncoding.writesBom,
      StringEncoding.effectiveEncoding, StringEncoding.endianness, StringEncoding.isUtf8, hm]
  | utf16 => simp [resolveBomLayout, hasBom, StringEncoding.bomBytes, StringEncoding.writesBom,
      StringEncoding.effectiveEncoding, StringEncoding.endianness, StringEncoding.isUtf16, hm,
      hne (h rfl)]
  | utf16LittleEndian => simp [resolveBomLayout, hasBom, StringEncoding.bomBytes,
      StringEncoding.writesBom, StringEncoding.effectiveEncoding, StringEncoding.endianness,
      StringEncoding.isUtf16, hm, hne (h rfl)]
  | utf16BigEndian => simp [resolveBomLayout, hasBom, StringEncoding.bomBytes,
      StringEncoding.writesBom, StringEncoding.effectiveEncoding, StringEncoding.endianness,
      StringEncoding.isUtf16, hm]
  | utf32 => simp [resolveBomLayout, hasBom, StringEncoding.bomBytes, StringEncoding.writesBom,
      StringEncoding.effectiveEncoding, StringEncoding.endianness, StringEncoding.isUtf32, hm]
  | utf32LittleEndian => simp [resolveBomLayout, hasBom, StringEncoding.bomBytes,
      StringEncoding.writesBom, StringEncoding.effectiveEncoding, StringEncoding.endianness,
      StringEncoding.isUtf32, hm]
  | utf32BigEndian => simp [resolveBomLayout, hasBom, StringEncoding.bomBytes,
      StringEncoding.writesBom, StringEncoding.effectiveEncoding, StringEncoding.endianness,
      StringEncoding.isUtf32, hm]

/-- The encoded text without its mark. -/
def encodeBody (cs : List Nat) (encoding : StringEncoding) : List UInt8 :=
  if encoding.isUtf8 then Library.Utf8.encodeAll cs
  else if encoding.isUtf16 then unitBytes encoding.endianness 2 (cs.flatMap Utf16.write)
  else unitBytes encoding.endianness 4 (cs.flatMap Utf32.write)

theorem encode_eq (encoding : StringEncoding) (bomMode : StringBomMode)
    (h : ∀ c ∈ cs, isValidUnicode c = true) :
    encode (Library.Utf8.encodeAll cs) encoding bomMode =
      encoding.bomBytes bomMode ++ encodeBody cs encoding := by
  have hchars := Utf8.characters_encodeAll h
  have hwrite : cs.flatMap Utf8.writeChar = Library.Utf8.encodeAll cs :=
    List.flatMap_congr fun c hc => Utf8.writeChar_eq (h c hc)
  have hunits (write : Nat → List Nat) (width : Nat) :
      encodeUnits write width (Library.Utf8.encodeAll cs) encoding bomMode =
        unitBytes encoding.endianness width (if encoding.writesBom bomMode then [0xFEFF] else []) ++
          unitBytes encoding.endianness width (cs.flatMap write) := by
    rw [encodeUnits, hchars]
    exact unitBytes_append _ _ _ _
  cases encoding with
  | utf8 =>
    show encodeUtf8 _ _ = _
    rw [encodeUtf8, hchars, hwrite, StringEncoding.bomBytes, encodeBody]
    cases StringEncoding.utf8.writesBom bomMode <;> rfl
  | utf16 =>
    show encodeUnits Utf16.write 2 _ _ _ = _
    rw [hunits, StringEncoding.bomBytes]
    cases StringEncoding.utf16.writesBom bomMode <;> rfl
  | utf16LittleEndian =>
    show encodeUnits Utf16.write 2 _ _ _ = _
    rw [hunits, StringEncoding.bomBytes]
    cases StringEncoding.utf16LittleEndian.writesBom bomMode <;> rfl
  | utf16BigEndian =>
    show encodeUnits Utf16.write 2 _ _ _ = _
    rw [hunits, StringEncoding.bomBytes]
    cases StringEncoding.utf16BigEndian.writesBom bomMode <;> rfl
  | utf32 =>
    show encodeUnits Utf32.write 4 _ _ _ = _
    rw [hunits, StringEncoding.bomBytes]
    cases StringEncoding.utf32.writesBom bomMode <;> rfl
  | utf32LittleEndian =>
    show encodeUnits Utf32.write 4 _ _ _ = _
    rw [hunits, StringEncoding.bomBytes]
    cases StringEncoding.utf32LittleEndian.writesBom bomMode <;> rfl
  | utf32BigEndian =>
    show encodeUnits Utf32.write 4 _ _ _ = _
    rw [hunits, StringEncoding.bomBytes]
    cases StringEncoding.utf32BigEndian.writesBom bomMode <;> rfl

/-- The layout of the encoded text, unless it is mistaken. -/
theorem resolveBomLayout_encode (h : ∀ c ∈ cs, isValidUnicode c = true)
    (hm : ¬ IsMistaken (Library.Utf8.encodeAll cs) encoding bomMode) :
    resolveBomLayout (encode (Library.Utf8.encodeAll cs) encoding bomMode) encoding bomMode =
      .ok { endianness := encoding.endianness, start := (encoding.bomBytes bomMode).length } := by
  rw [IsMistaken] at hm
  by_cases hw : encoding.writesBom bomMode = true
  · have hreject : bomMode ≠ .reject := by
      rintro rfl
      simp [StringEncoding.writesBom] at hw
    have hbytes : encoding.bomBytes bomMode = encoding.bomBytes .require := by
      have hrequire : encoding.writesBom .require = true := by simp [StringEncoding.writesBom]
      simp only [StringEncoding.bomBytes, hw, hrequire]
    rw [if_pos hw, Utf8.characters_encodeAll h] at hm
    rw [encode_eq encoding bomMode h, hbytes]
    refine resolveBomLayout_marked encoding hreject _ fun heff hz => hm ⟨heff, ?_⟩
    have hbody : encodeBody cs encoding = unitBytes .little 2 (cs.flatMap Utf16.write) := by
      cases encoding <;>
        simp_all [StringEncoding.effectiveEncoding, encodeBody, StringEncoding.isUtf8,
          StringEncoding.isUtf16, StringEncoding.endianness]
    rwa [← hbody]
  · rw [if_neg hw] at hm
    have hrequire : bomMode ≠ .require := by
      rintro rfl
      simp [StringEncoding.writesBom] at hw
    rw [resolveBomLayout_plain encoding hrequire fun other => by
      rw [← Bool.not_eq_true]
      exact fun hb => hm ⟨other, hb⟩]
    rw [StringEncoding.bomBytes, if_pos hw]
    rfl

/-- Decoding the encoded text at the start of its body. -/
theorem decodeBody (h : Utf8.IsText cs) (bom : List UInt8) (encoding : StringEncoding)
    (mode : EncodingMode) :
    (match encoding with
      | .utf8 => decodeUtf8 (bom ++ encodeBody cs encoding) ⟨encoding.endianness, bom.length⟩ mode
      | .utf16 | .utf16LittleEndian | .utf16BigEndian =>
        decodeUtf16 (bom ++ encodeBody cs encoding) ⟨encoding.endianness, bom.length⟩ mode
      | .utf32 | .utf32LittleEndian | .utf32BigEndian =>
        decodeUtf32 (bom ++ encodeBody cs encoding) ⟨encoding.endianness, bom.length⟩ mode) =
      .ok (Library.Utf8.encodeAll cs) := by
  have hvalid := (Utf8.isText_iff cs).mp h
  have hwrite : cs.flatMap Utf8.writeChar = Library.Utf8.encodeAll cs :=
    List.flatMap_congr fun c hc => Utf8.writeChar_eq (hvalid c hc)
  have h16 (e : Endianness) : decodeFromCharacters (Utf16.forEachDecodedCharacter mode e 0
      (unitBytes e 2 (cs.flatMap Utf16.write))) = .ok (Library.Utf8.encodeAll cs) := by
    rw [Utf16.forEachDecodedCharacter_complete mode e 0 hvalid, ← hwrite]
    rfl
  have h32 (e : Endianness) : decodeFromCharacters (Utf32.forEachValidatedCharacter mode e 0
      (unitBytes e 4 (cs.flatMap Utf32.write))) = .ok (Library.Utf8.encodeAll cs) := by
    rw [Utf32.forEachValidatedCharacter_complete mode e 0 hvalid, ← hwrite]
    rfl
  cases encoding with
  | utf8 =>
    show decodeUtf8 (bom ++ Library.Utf8.encodeAll cs) ⟨_, bom.length⟩ mode = _
    simp only [decodeUtf8, List.drop_left]
    cases mode with
    | strict =>
      have hread : Utf8.Reader.forEachOrThrow (Library.Utf8.encodeAll cs).length
          ⟨bom.length, Library.Utf8.encodeAll cs⟩ = .ok cs := by
        have hlength : (ByteReader.mk bom.length (Library.Utf8.encodeAll cs)).unread.length ≤
            (Library.Utf8.encodeAll cs).length := le_refl _
        rw [Utf8.reader_forEachOrThrow hlength]
        exact (Utf8.forEachOrThrow_ok_iff _ _ cs).mpr ⟨h, rfl⟩
      rw [hread]
    | tolerant => rw [if_pos ((Utf8.isValid_iff _).mpr ⟨cs, hvalid, rfl⟩)]
  | utf16 | utf16LittleEndian | utf16BigEndian =>
    show decodeUtf16 (bom ++ unitBytes _ 2 _) ⟨_, bom.length⟩ mode = _
    simp only [decodeUtf16, List.drop_left]
    exact h16 _
  | utf32 | utf32LittleEndian | utf32BigEndian =>
    show decodeUtf32 (bom ++ unitBytes _ 4 _) ⟨_, bom.length⟩ mode = _
    simp only [decodeUtf32, List.drop_left]
    exact h32 _

/-- Text in UTF-8 has no mark: no byte of it is above 0xF7, and it has no U+FEFF. -/
theorem hasBom_utf8 (h : ∀ c ∈ cs, isValidUnicode c = true) (other : StringEncoding) :
    hasBom (Library.Utf8.encodeAll cs) other = false := by
  rw [← Bool.not_eq_true, hasBom, List.isPrefixOf_iff_prefix]
  intro hp
  have hbytes : ∀ b ∈ Library.Utf8.encodeAll cs, b.toNat < 0xF8 := by
    intro b hb
    obtain ⟨c, hc, hb⟩ := List.mem_flatMap.mp hb
    have hv := (Utf8.isValidUnicode_iff c).mp (h c hc)
    rcases Library.Utf8.encode_cases hv.1 with
      ⟨_, a, ha, h₁⟩ | ⟨_, _, a, b', ha, h₁, h₂⟩ | ⟨_, _, a, b', d, ha, h₁, h₂, h₃⟩ |
        ⟨_, a, b', d, e, ha, h₁, h₂, h₃, h₄⟩ <;>
      rw [ha] at hb <;>
      simp only [List.mem_cons, List.not_mem_nil, or_false] at hb
    · subst hb
      omega
    · rcases hb with rfl | rfl <;> omega
    · rcases hb with rfl | rfl | rfl <;> omega
    · rcases hb with rfl | rfl | rfl | rfl <;> omega
  have hFE (hmem : (0xFE : UInt8) ∈ other.bomBytes .require) : False :=
    absurd (hbytes 0xFE (hp.subset hmem)) (by decide)
  cases other with
  | utf8 =>
    obtain ⟨rest, hrest⟩ := hp
    cases cs with
    | nil => cases hrest
    | cons c cs =>
      have hc := Utf8.tryDecodeChar_encode (h c (List.mem_cons_self ..)) (Library.Utf8.encodeAll cs)
      rw [← Library.Utf8.encodeAll_cons, ← hrest] at hc
      have hmark : (Utf8.tryDecodeChar (0xEF :: 0xBB :: 0xBF :: rest)).1 = none := rfl
      rw [show StringEncoding.utf8.bomBytes .require ++ rest = 0xEF :: 0xBB :: 0xBF :: rest from rfl] at hc
      rw [hc] at hmark
      cases hmark
  | utf16 => exact hFE (by decide)
  | utf16LittleEndian => exact hFE (by decide)
  | utf16BigEndian => exact hFE (by decide)
  | utf32 => exact hFE (by decide)
  | utf32LittleEndian => exact hFE (by decide)
  | utf32BigEndian => exact hFE (by decide)

/-- Text in UTF-32 in big-endian order starts with a zero, and has no U+FEFF. -/
theorem hasBom_utf32BigEndian {cs : List Nat} (h : ∀ c ∈ cs, isValidUnicode c = true) (other : StringEncoding) :
    hasBom (unitBytes .big 4 (cs.flatMap Utf32.write)) other = false := by
  cases cs with
  | nil => cases other <;> rfl
  | cons c cs =>
    have hc := h c (List.mem_cons_self ..)
    have hv := (Utf8.isValidUnicode_iff c).mp hc
    obtain ⟨x₀, x₁, x₂, x₃, hx, hdec⟩ := encode_four .big c (by omega)
    rw [List.flatMap_cons, unitBytes_append, Utf32.write, if_neg (by simp [hc])]
    simp only [unitBytes, List.flatMap_cons, List.flatMap_nil, hx, List.append_nil,
      List.cons_append, List.nil_append]
    have hfirst : x₀.toNat = 0 := by
      have h₁ := x₁.toNat_lt
      simp only [Endianness.decode, bigEndian, List.length_cons, List.length_nil] at hdec
      omega
    have hx₀ : x₀ = 0 := UInt8.toNat_inj.mp hfirst
    subst hx₀
    rw [← Bool.not_eq_true, hasBom, List.isPrefixOf_iff_prefix]
    intro hp
    have hbytes : [0, x₁, x₂, x₃] = [0x00, 0x00, 0xFE, 0xFF] := by
      cases other <;>
        simp_all [StringEncoding.bomBytes, StringEncoding.writesBom,
          StringEncoding.effectiveEncoding, List.cons_prefix_cons]
    rw [hbytes] at hdec
    exact hv.2.1 (hdec ▸ rfl)

/-- After the mark of UTF-16, the mark of UTF-32 goes on with U+0000. -/
theorem zero_prefix_iff {cs : List Nat} (h : ∀ c ∈ cs, isValidUnicode c = true) :
    [0x00, 0x00] <+: unitBytes .little 2 (cs.flatMap Utf16.write) ↔ cs.head? = some 0 := by
  cases cs with
  | nil => exact ⟨fun hp => absurd (List.prefix_nil.mp hp) nofun, nofun⟩
  | cons c cs =>
    have hc := h c (List.mem_cons_self ..)
    have hv := (Utf8.isValidUnicode_iff c).mp hc
    -- The first code unit is zero for U+0000 only.
    obtain ⟨unit, units, hwrite, hunit, hzero⟩ : ∃ unit units,
        Utf16.write c = unit :: units ∧ unit < 0x10000 ∧ (unit = 0 ↔ c = 0) := by
      rw [Utf16.write, if_neg (by simp [hc])]
      split
      case isTrue hle => exact ⟨c, [], rfl, by omega, Iff.rfl⟩
      case isFalse hgt =>
        have hten (n : Nat) : n &&& 0x3FF = n % 1024 := Nat.and_two_pow_sub_one_eq_mod n 10
        exact ⟨_, _, rfl, by rw [hten]; omega, by omega⟩
    obtain ⟨a, b, hab, hdec⟩ := encode_two .little unit hunit
    rw [List.flatMap_cons, hwrite, List.cons_append, unitBytes, List.flatMap_cons, hab]
    have hvalue : unit = a.toNat + 256 * b.toNat := by
      rw [← hdec]
      simp only [Endianness.decode, littleEndian, List.reverse_cons, List.reverse_nil,
        List.nil_append, List.cons_append, bigEndian, List.length_cons, List.length_nil]
      omega
    rw [List.cons_append, List.cons_append, List.nil_append, List.cons_prefix_cons,
      List.cons_prefix_cons, List.head?_cons, Option.some_inj, ← hzero, hvalue]
    constructor
    · rintro ⟨rfl, rfl, -⟩
      rfl
    · intro hz
      exact ⟨(UInt8.toNat_inj.mp (show a.toNat = 0 by omega)).symm,
        (UInt8.toNat_inj.mp (show b.toNat = 0 by omega)).symm, List.nil_prefix⟩

/-- Decoding restores the text that is not mistaken; with a mark that is all text but U+0000 after
the mark of UTF-16 in little-endian order, and without one all text in UTF-8 and in UTF-32 in
big-endian order. -/
theorem decode_encode_text (h : Utf8.IsText cs) (encoding : StringEncoding)
    (bomMode : StringBomMode) (mode : EncodingMode) :
    let data := Library.Utf8.encodeAll cs
    (¬ IsMistaken data encoding bomMode →
      decode (encode data encoding bomMode) encoding bomMode mode = .ok data) ∧
    (encoding.writesBom bomMode = true → (IsMistaken data encoding bomMode ↔
      encoding.effectiveEncoding = .utf16LittleEndian ∧ cs.head? = some 0)) ∧
    (encoding = .utf8 ∨ encoding = .utf32BigEndian → ¬ IsMistaken data encoding bomMode) := by
  have hvalid := (Utf8.isText_iff cs).mp h
  have hmarked (hw : encoding.writesBom bomMode = true) :
      IsMistaken (Library.Utf8.encodeAll cs) encoding bomMode ↔
        encoding.effectiveEncoding = .utf16LittleEndian ∧ cs.head? = some 0 := by
    rw [IsMistaken, if_pos hw, Utf8.characters_encodeAll hvalid, zero_prefix_iff hvalid]
  refine ⟨fun hm => ?_, hmarked, fun hencoding hm => ?_⟩
  · rw [decode, resolveBomLayout_encode hvalid hm, ok_bind, encode_eq encoding bomMode hvalid]
    exact decodeBody h (encoding.bomBytes bomMode) encoding mode
  · by_cases hw : encoding.writesBom bomMode = true
    · obtain ⟨heff, -⟩ := (hmarked hw).mp hm
      rcases hencoding with rfl | rfl
      · exact absurd heff (by decide)
      · exact absurd heff (by decide)
    · rw [IsMistaken, if_neg hw] at hm
      obtain ⟨other, hother⟩ := hm
      rw [encode_eq encoding bomMode hvalid, StringEncoding.bomBytes, if_pos hw, List.nil_append] at hother
      rcases hencoding with rfl | rfl
      · exact Bool.false_ne_true ((hasBom_utf8 hvalid other).symm.trans hother)
      · exact Bool.false_ne_true ((hasBom_utf32BigEndian hvalid other).symm.trans hother)

/-- Text of two characters survives UTF-16, one of them in a surrogate pair. -/
theorem decode_encode_text_surrogates :
    decode (encode (Library.Utf8.encodeAll [0x61, 0x1F600]) .utf16 .automatic) .utf16 .automatic
      .strict = .ok (Library.Utf8.encodeAll [0x61, 0x1F600]) := by
  have htext : Utf8.IsText [0x61, 0x1F600] := by
    simp [Utf8.IsText, Library.Utf8.IsScalar]
  have h := decode_encode_text htext .utf16 .automatic .strict
  exact h.1 fun hm => absurd ((h.2.1 rfl).mp hm).2 (by decide)

/-- U+0000 after the mark of UTF-16 is taken for the mark of UTF-32, text in UTF-32 that starts with
the bytes of a mark is not read without one, and an inner U+FEFF is not written. -/
theorem text_mistaken_for_mark :
    decode (encode (Library.Utf8.encodeAll [0]) .utf16 .automatic) .utf16 .automatic .tolerant =
      .error (.encoding "Unexpected UTF-32 little endian byte order mark") ∧
    decode (encode (Library.Utf8.encodeAll [0x1FEFF]) .utf32 .reject) .utf32 .reject .tolerant =
      .error (.encoding "Unexpected byte order mark") ∧
    decode (encode (Library.Utf8.encodeAll [0x61, 0xFEFF]) .utf8 .automatic) .utf8 .automatic
      .tolerant ≠ .ok (Library.Utf8.encodeAll [0x61, 0xFEFF]) := by
  refine ⟨by decide +kernel, by decide +kernel, by decide +kernel⟩

end StringEncodingTools
end ErbslandCore.Text
