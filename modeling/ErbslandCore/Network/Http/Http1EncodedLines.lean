import ErbslandCore.Network.Http.Http1Encoder
import ErbslandCore.Network.Http.Http1Lines

namespace ErbslandCore.Network
open Library Text
set_option autoImplicit true

/-- The line of a field, as it is encoded. -/
def fieldLine (field : HttpField) : List UInt8 := field.name.text ++ 0x3A :: 0x20 :: field.value

def requestLine (head : HttpRequestHead) : List UInt8 :=
  head.method.text ++ 0x20 :: (head.target ++ 0x20 :: head.version.toString)

def statusLine (head : HttpResponseHead) : List UInt8 :=
  head.version.toString ++ 0x20 :: (head.status.toString ++ 0x20 :: head.reasonPhrase)

theorem isToken_not_mem (h : HttpGrammar.isToken text = true) (hb : isHttpToken b.toNat = false) :
    b ∉ text := fun hmem => by
  rw [(isToken_bytes h).2 b hmem] at hb
  cases hb

theorem charAt_ascii {b : UInt8} (hb : b.toNat < 0x80) (before after : List UInt8) :
    U8String.charAt (before ++ b :: after) before.length = some b.toNat := by
  rw [U8String.charAt, if_pos (by simp), List.drop_left, Utf8.decodeCharOrReplace_ascii hb]

theorem slice_left (before after : List UInt8) :
    U8String.slice (before ++ after) 0 before.length = before := by
  rw [U8String.slice, List.take_left, List.drop_zero]

theorem slice_right (before after : List UInt8) (start : Nat) (h : start = before.length) :
    U8String.slice (before ++ after) start (before ++ after).length = after := by
  rw [slice_to_end, h, List.drop_left]

/-- A value without blanks at its ends is what remains after trimming. -/
theorem trimmed_fieldValue (h : HttpGrammar.isFieldValue value = true) :
    U8String.trimmed isAsciiBlank (0x20 :: value) = value := by
  obtain ⟨-, hhead, hlast⟩ := isFieldValue_ends h
  rw [U8String.trimmed_eq isAsciiBlank_onlyAscii, List.dropWhile_cons_of_pos (by decide)]
  have hdrop : value.dropWhile (fun b => isAsciiBlank b.toNat) = value := by
    match value, hhead with
    | [], _ => rfl
    | b :: value, hhead => exact List.dropWhile_cons_of_neg (by simp [hhead b rfl])
  rw [hdrop]
  rcases List.eq_nil_or_concat' value with rfl | ⟨value', b, rfl⟩
  · rfl
  · rw [List.rdropWhile_concat_neg _ _ _ (by simp [hlast b (by simp)])]

namespace Http1Message

/-- The line of a field is parsed as this field, if the limits admit it. -/
theorem parseFieldLine_field (m : Http1Message) (field : HttpField) (trailer : Bool)
    (limits : HttpHeaderLimits)
    (hlimits : (if trailer then m.limits.trailerLimits else m.limits.headerLimits) = limits)
    (hname : field.name.text.length ≤ limits.maximumNameLength.toNat)
    (hvalue : field.value.length ≤ limits.maximumValueLength.toNat)
    (hcount : m.fields.length < limits.maximumFieldCount.toNat)
    (haggregate : m.fieldBytes + field.wireLength ≤ limits.maximumAggregateLength.toNat)
    (htrailer : trailer = true → field.name.type.isKnown = false) :
    m.parseFieldLine (fieldLine field) trailer = .ok (field, m.fieldBytes + field.wireLength) := by
  obtain ⟨⟨name, htoken⟩, value, hfield⟩ := field
  obtain ⟨hne, hbytes⟩ := isToken_bytes htoken
  obtain ⟨name', last, rfl⟩ := (List.eq_nil_or_concat' name).resolve_left hne
  have hlast := isHttpToken_range (hbytes last (by simp))
  have hcolon : U8String.findFirstOf (fieldLine ⟨⟨name' ++ [last], htoken⟩, value, hfield⟩) 0x3A 0 =
      some (name'.length + 1) := by
    have hfind := U8String.findFirstOf_append [] (isToken_not_mem htoken (b := 0x3A) (by decide))
      (0x20 :: value)
    rwa [List.nil_append, List.length_nil, Nat.zero_add, List.length_append] at hfind
  have hfold : ¬ (fieldLine ⟨⟨name' ++ [last], htoken⟩, value, hfield⟩ = [] ∨
      U8String.startsWith (fieldLine ⟨⟨name' ++ [last], htoken⟩, value, hfield⟩) 0x20 = true ∨
      U8String.startsWith (fieldLine ⟨⟨name' ++ [last], htoken⟩, value, hfield⟩) 0x09 = true) := by
    rw [U8String.startsWith_eq _ (by decide), U8String.startsWith_eq _ (by decide)]
    obtain ⟨b, rest, hb⟩ := List.exists_cons_of_ne_nil hne
    have hhead : (fieldLine ⟨⟨name' ++ [last], htoken⟩, value, hfield⟩).head? = some b := by
      show (name' ++ [last] ++ 0x3A :: 0x20 :: value).head? = some b
      rw [hb]
      rfl
    have hrange := isHttpToken_range (hbytes b (hb ▸ List.mem_cons_self ..))
    rw [hhead]
    refine not_or.mpr ⟨fun hnil => (by rw [hnil] at hhead; cases hhead), ?_⟩
    simp only [Option.map_some, Option.some_inj]
    omega
  have hchar : U8String.charAt (fieldLine ⟨⟨name' ++ [last], htoken⟩, value, hfield⟩) name'.length =
      some last.toNat := by
    have hline : fieldLine ⟨⟨name' ++ [last], htoken⟩, value, hfield⟩ =
        name' ++ last :: (0x3A :: 0x20 :: value) := by simp [fieldLine]
    rw [hline]
    exact charAt_ascii (by omega) _ _
  have hslice : U8String.slice (fieldLine ⟨⟨name' ++ [last], htoken⟩, value, hfield⟩) 0
      (name'.length + 1) = name' ++ [last] := by
    have hleft := slice_left (name' ++ [last]) (0x3A :: 0x20 :: value)
    rwa [List.length_append] at hleft
  have htrimmed : U8String.trimmed isAsciiBlank (U8String.slice
      (fieldLine ⟨⟨name' ++ [last], htoken⟩, value, hfield⟩) (name'.length + 2)
      (fieldLine ⟨⟨name' ++ [last], htoken⟩, value, hfield⟩).length) = value := by
    have hline : fieldLine ⟨⟨name' ++ [last], htoken⟩, value, hfield⟩ =
        (name' ++ [last, 0x3A]) ++ 0x20 :: value := by simp [fieldLine]
    rw [hline, slice_right _ _ _ (by simp), trimmed_fieldValue hfield]
  have hbefore : ¬ (U8String.charAt (fieldLine ⟨⟨name' ++ [last], htoken⟩, value, hfield⟩) name'.length =
      some 0x20 ∨ U8String.charAt (fieldLine ⟨⟨name' ++ [last], htoken⟩, value, hfield⟩) name'.length =
      some 0x09) := by
    rw [hchar, Option.some_inj, Option.some_inj]
    omega
  simp only [HttpField.wireLength] at haggregate
  simp only [parseFieldLine, if_neg hfold, hcolon, if_neg hbefore, hslice, htrimmed, hlimits]
  rw [if_neg (not_or.mpr ⟨not_lt.mpr hname, not_lt.mpr hvalue⟩), if_neg (not_le.mpr hcount),
    if_neg (by omega), dif_pos ⟨htoken, hfield⟩]
  have hknown : ¬ (trailer && (HttpFieldName.mk (name' ++ [last]) htoken).type.isKnown) = true := by
    cases trailer with
    | false => simp
    | true => simpa using htrailer rfl
  rw [if_neg hknown, HttpField.wireLength]
  simp only [Except.ok.injEq, Prod.mk.injEq, true_and]
  omega

theorem versionOrFail_toString (version : HttpVersion) :
    versionOrFail version.toString = .ok version := by
  cases version <;> decide +kernel

theorem parseRequestLine_head (head : HttpRequestHead) :
    parseRequestLine (requestLine head) =
      .ok (.request head.method head.target head.version head.isRequestTarget) := by
  obtain ⟨⟨method, htoken⟩, target, version, headers, htarget⟩ := head
  have htargetBytes : target ≠ [] ∧ (0x20 : UInt8) ∉ target := by
    rw [HttpGrammar.isRequestTarget, Bool.and_eq_true, decide_eq_true_eq, U8String.containsOnly,
      List.all_eq_true] at htarget
    refine ⟨htarget.1, fun hmem => ?_⟩
    have hspace := htarget.2 0x20 ((Utf8.mem_characters_ascii target (by decide)).mpr ⟨0x20, hmem, rfl⟩)
    simp at hspace
  have hversion : (0x20 : UInt8) ∉ version.toString := by
    cases version <;> decide
  have hlength : version.toString.length = 8 := by cases version <;> rfl
  have hmethod := isToken_bytes htoken
  have hfirst : U8String.findFirstOf (requestLine ⟨⟨method, htoken⟩, target, version, headers, htarget⟩)
      0x20 0 = some method.length := by
    have hfind := U8String.findFirstOf_append [] (isToken_not_mem htoken (b := 0x20) (by decide))
      (target ++ 0x20 :: version.toString)
    rwa [List.nil_append, List.length_nil, Nat.zero_add] at hfind
  have hline : requestLine ⟨⟨method, htoken⟩, target, version, headers, htarget⟩ =
      (method ++ [0x20]) ++ target ++ 0x20 :: version.toString := by simp [requestLine]
  have hline' : requestLine ⟨⟨method, htoken⟩, target, version, headers, htarget⟩ =
      (method ++ [0x20] ++ target ++ [0x20]) ++ version.toString := by simp [requestLine]
  have hsecond : U8String.findFirstOf (requestLine ⟨⟨method, htoken⟩, target, version, headers, htarget⟩)
      0x20 (method.length + 1) = some (method.length + 1 + target.length) := by
    have hfind := U8String.findFirstOf_append (method ++ [0x20]) htargetBytes.2 version.toString
    rwa [← hline, List.length_append, List.length_singleton] at hfind
  have hthird : U8String.findFirstOf (requestLine ⟨⟨method, htoken⟩, target, version, headers, htarget⟩)
      0x20 (method.length + 1 + target.length + 1) = none := by
    have hfind := U8String.findFirstOf_none (method ++ [0x20] ++ target ++ [0x20]) hversion
    rwa [← hline', List.length_append, List.length_append, List.length_append,
      List.length_singleton] at hfind
  have htotal : (requestLine ⟨⟨method, htoken⟩, target, version, headers, htarget⟩).length =
      method.length + 1 + target.length + 1 + 8 := by
    rw [hline', List.length_append, hlength]
    simp
    omega
  have hpos : method.length ≠ 0 := fun h => hmethod.1 (List.eq_nil_of_length_eq_zero h)
  have htargetPos : 0 < target.length := List.length_pos_iff.mpr htargetBytes.1
  have hslice₁ : U8String.slice (requestLine ⟨⟨method, htoken⟩, target, version, headers, htarget⟩)
      0 method.length = method := slice_left method _
  have hslice₂ : U8String.slice (requestLine ⟨⟨method, htoken⟩, target, version, headers, htarget⟩)
      (method.length + 1) (method.length + 1 + target.length) = target := by
    rw [hline, U8String.slice]
    have hlen : method.length + 1 + target.length = (method ++ [0x20] ++ target).length := by
      simp
      omega
    rw [hlen, List.take_left, show method.length + 1 = (method ++ [0x20]).length by simp,
      List.drop_left]
  have hslice₃ : U8String.slice (requestLine ⟨⟨method, htoken⟩, target, version, headers, htarget⟩)
      (method.length + 1 + target.length + 1)
      (requestLine ⟨⟨method, htoken⟩, target, version, headers, htarget⟩).length =
        version.toString := by
    rw [hline', slice_right _ _ _ (by simp only [List.length_append, List.length_singleton])]
  obtain ⟨n, hn⟩ := Nat.exists_eq_succ_of_ne_zero hpos
  have hspaces : ¬ (method.length + 1 + target.length = method.length + 1 ∨
      method.length + 1 + target.length + 1 ≥
        (requestLine ⟨⟨method, htoken⟩, target, version, headers, htarget⟩).length ∨
      U8String.findFirstOf (requestLine ⟨⟨method, htoken⟩, target, version, headers, htarget⟩) 0x20
        (method.length + 1 + target.length + 1) ≠ none) := by
    rw [hthird, htotal]
    refine not_or.mpr ⟨by omega, not_or.mpr ⟨by omega, fun h => h rfl⟩⟩
  rw [parseRequestLine, hfirst]
  simp only [hn, Nat.succ_eq_add_one] at hsecond hspaces hslice₁ hslice₂ hslice₃ ⊢
  simp only [hsecond, if_neg hspaces, hslice₁, hslice₂, hslice₃, HttpMethod.fromString, dif_pos htoken,
    dif_pos htarget, versionOrFail_toString]
  rfl

theorem fromString_toString (status : HttpStatus) :
    HttpStatus.fromString status.toString = some status := by
  obtain ⟨code, hlower, hupper⟩ := status
  have hall : ∀ code : Fin 600, 100 ≤ code.val →
      U8String.toIntegerOrThrow { minimumDigits := 3, maximumDigits := some 3 } (Utf8.characters
        ([code.val / 100, code.val / 10 % 10, code.val % 10].map fun d => UInt8.ofNat (0x30 + d))) =
          .ok code.val := by
    decide +kernel
  have hcode := hall ⟨code, by omega⟩ hlower
  rw [HttpStatus.fromString, HttpStatus.toString]
  simp only [hcode, HttpStatus.fromCode]
  rw [dif_pos ⟨hlower, hupper⟩]

theorem parseStatusLine_head (head : HttpResponseHead) :
    parseStatusLine (statusLine head) =
      .ok (.response head.version head.status head.reasonPhrase head.isReasonPhrase) := by
  obtain ⟨version, status, reason, headers, hreason⟩ := head
  have hversion : version.toString.length = 8 := by cases version <;> rfl
  have hstatus : status.toString.length = 3 := rfl
  have hline : statusLine ⟨version, status, reason, headers, hreason⟩ =
      version.toString ++ 0x20 :: (status.toString ++ 0x20 :: reason) := rfl
  have hline' : statusLine ⟨version, status, reason, headers, hreason⟩ =
      (version.toString ++ 0x20 :: status.toString) ++ 0x20 :: reason := by simp [hline]
  have hline'' : statusLine ⟨version, status, reason, headers, hreason⟩ =
      (version.toString ++ 0x20 :: status.toString ++ [0x20]) ++ reason := by simp [hline]
  have hlength : (version.toString ++ 0x20 :: status.toString).length = 12 := by
    rw [List.length_append, List.length_cons, hversion, hstatus]
  have hspaces : ¬ ((statusLine ⟨version, status, reason, headers, hreason⟩).length < 13 ∨
      U8String.charAt (statusLine ⟨version, status, reason, headers, hreason⟩) 8 ≠ some 0x20 ∨
      U8String.charAt (statusLine ⟨version, status, reason, headers, hreason⟩) 12 ≠ some 0x20) := by
    refine not_or.mpr ⟨?_, not_or.mpr ⟨?_, ?_⟩⟩
    · rw [hline', List.length_append, hlength, List.length_cons]
      omega
    · rw [hline, ← hversion, charAt_ascii (by decide)]
      simp
    · rw [hline', ← hlength, charAt_ascii (by decide)]
      simp
  have hslice₁ : U8String.slice (statusLine ⟨version, status, reason, headers, hreason⟩) 0 8 =
      version.toString := by
    rw [hline, ← hversion, slice_left]
  have hslice₂ : U8String.slice (statusLine ⟨version, status, reason, headers, hreason⟩) 9 12 =
      status.toString := by
    rw [hline', U8String.slice, ← hlength, List.take_left,
      show 9 = (version.toString ++ [0x20]).length by rw [List.length_append, hversion]; rfl,
      show version.toString ++ 0x20 :: status.toString =
        (version.toString ++ [0x20]) ++ status.toString by simp, List.drop_left]
  have hslice₃ : U8String.slice (statusLine ⟨version, status, reason, headers, hreason⟩) 13
      (statusLine ⟨version, status, reason, headers, hreason⟩).length = reason := by
    rw [hline'', slice_right _ _ _ (by rw [List.length_append, hlength]; rfl)]
  rw [parseStatusLine, if_neg hspaces, hslice₁, hslice₂, hslice₃, versionOrFail_toString, ok_bind]
  simp only [fromString_toString, dif_pos hreason]
  rfl

end Http1Message

namespace Http1Encoder

/-- The last digit of a number. -/
def hexDigit (digit : Nat) : UInt8 := UInt8.ofNat (if digit < 10 then 0x30 + digit else 0x61 + (digit - 10))

theorem hexDigit_spec (h : digit < 16) : digitValue 16 (hexDigit digit).toNat = some digit ∧
    isAsciiHexDigit (hexDigit digit).toNat = true ∧ (hexDigit digit).toNat < 0x80 ∧
    (digit ≠ 0 → (hexDigit digit).toNat ≠ 0x30) := by
  have hall : ∀ digit : Fin 16, digitValue 16 (hexDigit digit.val).toNat = some digit.val ∧
      isAsciiHexDigit (hexDigit digit.val).toNat = true ∧ (hexDigit digit.val).toNat < 0x80 ∧
      (digit.val ≠ 0 → (hexDigit digit.val).toNat ≠ 0x30) := by decide +kernel
  exact hall ⟨digit, h⟩

theorem hexDigits_succ (fuel value : Nat) : hexDigits (fuel + 1) value =
    if value < 16 then [hexDigit (value % 16)]
    else hexDigits fuel (value / 16) ++ [hexDigit (value % 16)] := rfl

theorem hexDigits_hex (fuel value : Nat) :
    ∀ b ∈ hexDigits fuel value, isAsciiHexDigit b.toNat = true ∧ b.toNat < 0x80 := by
  induction fuel generalizing value with
  | zero => exact fun b hb => by cases hb
  | succ fuel ih =>
    obtain ⟨-, hhex, hascii, -⟩ := hexDigit_spec (Nat.mod_lt value (by decide : 0 < 16))
    intro b hb
    rw [hexDigits_succ] at hb
    split at hb
    case isTrue =>
      rw [List.mem_singleton.mp hb]
      exact ⟨hhex, hascii⟩
    case isFalse =>
      rcases List.mem_append.mp hb with hb | hb
      · exact ih _ b hb
      · rw [List.mem_singleton.mp hb]
        exact ⟨hhex, hascii⟩

theorem div_lt_pow (h : value < 16 ^ (fuel + 1)) : value / 16 < 16 ^ fuel := by
  rw [Nat.pow_succ] at h
  exact Nat.div_lt_of_lt_mul (by omega)

/-- The digits of a number start with a zero only for the number zero. -/
theorem hexDigits_head (h : value < 16 ^ fuel) (hpos : 0 < value) :
    ∃ b rest, hexDigits fuel value = b :: rest ∧ b.toNat ≠ 0x30 := by
  induction fuel generalizing value with
  | zero => omega
  | succ fuel ih =>
    rw [hexDigits_succ]
    split
    case isTrue hlt =>
      have hspec := hexDigit_spec (Nat.mod_lt value (by decide : 0 < 16))
      exact ⟨_, [], rfl, hspec.2.2.2 (by omega)⟩
    case isFalse hge =>
      obtain ⟨b, rest, hb, hne⟩ := ih (div_lt_pow h) (by omega)
      rw [hb]
      exact ⟨b, _, rfl, hne⟩

/-- The digits of a number are as many as were counted. -/
theorem length_hexDigits (h : value < 16 ^ fuel) (hpos : 0 < value) :
    (hexDigits fuel value).length = chunkDigits fuel value := by
  induction fuel generalizing value with
  | zero => omega
  | succ fuel ih =>
    rw [hexDigits_succ, chunkDigits]
    split
    case isTrue => rfl
    case isFalse hge =>
      rw [List.length_append, ih (div_lt_pow h) (by omega)]
      rfl

/-- The digits of a number are read as this number. -/
theorem scanDigits_hexDigits {options : IntegerParseOptions} (hbase : options.fixedBase = 16)
    (hmax : options.maximumDigits = none) (h : value < 16 ^ fuel) (hbits : value < 2 ^ 64)
    (hpos : 0 < value) :
    ∃ count, count ≠ 0 ∧ StringCharReader.scanDigits options 0 0
      ((hexDigits fuel value).map (·.toNat)) = .ok (value, count, []) := by
  have hlast : ∀ {result digit : Nat} (count : Nat), digit < 16 → result * 16 + digit < 2 ^ 64 →
      StringCharReader.scanDigits options result count [(hexDigit digit).toNat] =
        .ok (result * 16 + digit, count + 1, []) := by
    intro result digit count hdigit hlt
    rw [StringCharReader.scanDigits]
    simp only [hbase, (hexDigit_spec hdigit).1, hmax, Option.any_none]
    rw [if_neg (by decide), if_neg (by omega), if_neg (by omega)]
    rfl
  induction fuel generalizing value with
  | zero => omega
  | succ fuel ih =>
    rw [hexDigits_succ]
    split
    case isTrue hlt =>
      refine ⟨1, by decide, ?_⟩
      rw [Nat.mod_eq_of_lt hlt, List.map_singleton, hlast 0 hlt (by omega), Nat.zero_mul, Nat.zero_add]
    case isFalse hge =>
      have hpos' : 0 < value / 16 := by omega
      obtain ⟨count, hcount, hscan⟩ := ih (div_lt_pow h) (by omega) hpos'
      refine ⟨count + 1, by omega, ?_⟩
      rw [List.map_append, StringCharReader.scanDigits_append hscan, List.map_singleton,
        hlast count (Nat.mod_lt value (by decide)) (by omega), Nat.div_add_mod' value 16]

/-- The size line of a chunk is read as its size. -/
theorem chunkSize_hexDigits (hpos : 0 < value) (h : value < 2 ^ 64) :
    Http1FramingParser.chunkSize (hexDigits 16 value) = .ok value := by
  have hpow : value < 16 ^ 16 := by omega
  obtain ⟨b, rest, hdigits, hzero⟩ := hexDigits_head hpow hpos
  have hhex := hexDigits_hex 16 value
  have hcharacters : Utf8.characters (hexDigits 16 value) = (hexDigits 16 value).map (·.toNat) :=
    (Utf8.characters_ascii fun b hb => (hhex b hb).2).2
  have htake : ((hexDigits 16 value).map (·.toNat)).takeWhile isAsciiHexDigit =
      (hexDigits 16 value).map (·.toNat) := by
    refine List.takeWhile_eq_self_iff.mpr fun c hc => ?_
    obtain ⟨b, hb, rfl⟩ := List.mem_map.mp hc
    exact (hhex b hb).1
  have hdrop : ((hexDigits 16 value).map (·.toNat)).dropWhile isAsciiHexDigit = [] := by
    refine List.dropWhile_eq_nil_iff.mpr fun c hc => ?_
    obtain ⟨b, hb, rfl⟩ := List.mem_map.mp hc
    exact (hhex b hb).1
  have hbase : ({ fixedBase := 16, minimumDigits := 1 } : IntegerParseOptions).fixedBase = 16 := rfl
  obtain ⟨count, hcount, hscan⟩ := scanDigits_hexDigits hbase rfl hpow h hpos
  have hhead : ((hexDigits 16 value).map (·.toNat)).head? = some b.toNat := by rw [hdigits]; rfl
  have hb := (hhex b (hdigits ▸ List.mem_cons_self ..)).1
  have hsign : ((hexDigits 16 value).map (·.toNat)).head? ≠ some 0x2D ∧
      ((hexDigits 16 value).map (·.toNat)).head? ≠ some 0x2B := by
    rw [hhead]
    constructor <;> (intro hc; rw [Option.some_inj.mp hc] at hb; exact absurd hb (by decide))
  have hparse := U8String.toIntegerOrThrow_digits hsign
    (fun hz => absurd (Option.some_inj.mp (hhead ▸ hz)) hzero) hscan hcount (by simp only; omega)
  have hne : (hexDigits 16 value).map (·.toNat) ≠ [] := by rw [hdigits]; simp
  rw [Http1FramingParser.chunkSize]
  simp only [hcharacters, htake, hdrop, if_neg hne, hparse]
  rfl

end Http1Encoder
end ErbslandCore.Network
