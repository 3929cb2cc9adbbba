import ErbslandCore.Data.Cbor.CborRoundTrip

namespace ErbslandCore.Data.Cbor
open Library Mem Text
set_option autoImplicit true

/-- The number of bytes of an argument. -/
def argumentWidth (additional : Nat) : Nat :=
  if additional = 24 then 1 else if additional = 25 then 2 else if additional = 26 then 4
  else if additional = 27 then 8 else 0

/-- No head of a byte string, text, array or map has the argument that stands for an indefinite
length in the parser. The first bytes to skip belong to an argument or to a string. -/
def noMarkers : Nat → List UInt8 → Bool
  | _, [] => true
  | skip + 1, _ :: data => noMarkers skip data
  | 0, head :: data =>
    let major := head.toNat >>> 5
    let additional := head.toNat &&& 31
    let width := argumentWidth additional
    let value := if additional < 24 then additional else bigEndian (data.take width)
    if 2 ≤ major ∧ major ≤ 5 ∧ value = cUInt64Max then false
    else noMarkers (width + if major = 2 ∨ major = 3 then value else 0) data

theorem noMarkers_append (bytes data : List UInt8) (skip : Nat) :
    noMarkers (bytes.length + skip) (bytes ++ data) = noMarkers skip data := by
  induction bytes with
  | nil => rw [List.length_nil, Nat.zero_add, List.nil_append]
  | cons b bytes ih =>
    rw [List.length_cons, show bytes.length + 1 + skip = bytes.length + skip + 1 by omega,
      List.cons_append, noMarkers, ih]

theorem noMarkers_skip (bytes data : List UInt8) :
    noMarkers bytes.length (bytes ++ data) = noMarkers 0 data :=
  noMarkers_append bytes data 0

theorem argumentWidth_of_form (h : (width, additional, least) ∈ argumentForms) :
    argumentWidth additional = width ∧ 24 ≤ additional ∧ additional < 32 := by
  simp only [argumentForms, List.mem_cons, Prod.mk.injEq, List.not_mem_nil, or_false] at h
  rcases h with ⟨rfl, rfl, rfl⟩ | ⟨rfl, rfl, rfl⟩ | ⟨rfl, rfl, rfl⟩ | ⟨rfl, rfl, rfl⟩ <;>
    exact ⟨rfl, by decide, by decide⟩

/-- The payload that follows a head. -/
def payload (major value : Nat) : Nat := if major = 2 ∨ major = 3 then value else 0

theorem argumentWidth_of_lt (h : additional < 24) : argumentWidth additional = 0 := by
  rw [argumentWidth, if_neg (by omega), if_neg (by omega), if_neg (by omega), if_neg (by omega)]

theorem noMarkers_head (hm : major < 8) (hv : value < 2 ^ 64) (data : List UInt8) :
    noMarkers 0 (writeHead major value ++ data) =
      if 2 ≤ major ∧ major ≤ 5 ∧ value = cUInt64Max then false
      else noMarkers (payload major value) data := by
  rcases writeHead_cases major hv with ⟨hlt, hw⟩ | ⟨width, additional, least, hf, hl, hu, hw⟩
  · obtain ⟨h₁, h₂⟩ := initialByte_parts hm (show value < 32 by omega)
    rw [hw, List.cons_append, List.nil_append, noMarkers]
    simp only [h₁, h₂, hlt, if_true, argumentWidth_of_lt hlt, Nat.zero_add]
    rfl
  · obtain ⟨hwidth, ha, ha'⟩ := argumentWidth_of_form hf
    obtain ⟨h₁, h₂⟩ := initialByte_parts hm ha'
    have htake : (toBigEndian width value ++ data).take width = toBigEndian width value :=
      List.take_left' (toBigEndian_length _ _)
    have hskip := noMarkers_append (toBigEndian width value) data (payload major value)
    rw [toBigEndian_length] at hskip
    rw [hw, List.cons_append, noMarkers]
    simp only [h₁, h₂, hwidth, htake, if_neg (show ¬ additional < 24 by omega),
      bigEndian_toBigEndian_of_lt hu]
    rw [← hskip]
    rfl

/-- Bytes without a marker, after which the scan goes on at a head. -/
def Plain (bytes : List UInt8) : Prop := ∀ data, noMarkers 0 (bytes ++ data) = noMarkers 0 data

theorem Plain.nil : Plain [] := fun _ => rfl

theorem Plain.append (h₁ : Plain xs) (h₂ : Plain ys) : Plain (xs ++ ys) := fun data => by
  rw [List.append_assoc, h₁, h₂]

theorem Plain.head (hm : major < 8) (hv : value < 2 ^ 64)
    (h : major < 2 ∨ 5 < major ∨ 4 ≤ major ∧ value ≠ cUInt64Max) :
    Plain (writeHead major value) := fun data => by
  rw [noMarkers_head hm hv, if_neg (by omega), payload, if_neg (by omega)]

theorem Plain.string (hm : major = 2 ∨ major = 3) (hv : bytes.length < cUInt64Max) :
    Plain (writeHead major bytes.length ++ bytes) := fun data => by
  rw [List.append_assoc, noMarkers_head (by omega) (by rw [cUInt64Max] at hv; omega),
    if_neg (by omega), payload, if_pos hm, noMarkers_skip]

theorem Plain.simple (h : value < 24) : Plain [initialByte 7 value] := by
  have : Plain (writeHead 7 value) := .head (by decide) (by omega) (by omega)
  rwa [writeHead, if_pos h] at this

theorem Plain.float (bits : List UInt8) (h : bits.length = 8) : Plain (0xFB :: bits) := fun data => by
  obtain ⟨h₁, h₂⟩ := initialByte_parts (by decide : 7 < 8) (by decide : 27 < 32)
  rw [show (0xFB : UInt8) = initialByte 7 27 from rfl, List.cons_append, noMarkers]
  simp only [h₁, h₂]
  rw [if_neg (by omega), if_neg (by omega)]
  have := noMarkers_skip bits data
  rwa [h] at this

/-- Bytes are scanned up to a marker, or as a whole with the property. -/
def Scanned (bytes : List UInt8) (p : Prop) : Prop :=
  (∀ data, noMarkers 0 (bytes ++ data) = false) ∨ Plain bytes ∧ p

theorem Scanned.append (h₁ : Scanned xs p) (h₂ : p → Scanned ys q) : Scanned (xs ++ ys) q := by
  rcases h₁ with h₁ | ⟨h₁, hp⟩
  · exact .inl fun data => by rw [List.append_assoc, h₁]
  · rcases h₂ hp with h₂ | ⟨h₂, hq⟩
    · exact .inl fun data => by rw [List.append_assoc, h₁, h₂]
    · exact .inr ⟨h₁.append h₂, hq⟩

theorem Plain.scanned (h₁ : Plain xs) (h₂ : Scanned ys q) : Scanned (xs ++ ys) q :=
  Scanned.append (.inr ⟨h₁, trivial⟩) fun _ => h₂

theorem Scanned.imp (h : Scanned xs p) (hp : p → q) : Scanned xs q :=
  h.imp_right fun ⟨h, hx⟩ => ⟨h, hp hx⟩

theorem Scanned.marker (hm : major < 8) (h : 2 ≤ major ∧ major ≤ 5) (bytes : List UInt8) :
    Scanned (writeHead major cUInt64Max ++ bytes) p := by
  refine .inl fun data => ?_
  rw [List.append_assoc, noMarkers_head hm (by decide), if_pos ⟨h.1, h.2, rfl⟩]

variable {clock : Clock} {o : CborParseOptions}

/-- The format of the strict profile. -/
def strict : CborFormatOptions := { dagCbor := true }

/-- What is read is written back, unless there is a marker. -/
def Sound (read : ValueReader clock) : Prop :=
  ∀ s depth v s', read s depth = .ok (v, s') → s.reader.unread.length < cUInt64Max →
    ∃ bytes, s.reader.Reads s'.reader bytes ∧
      Scanned bytes (writeValue clock strict v = .ok bytes)

theorem reads_length_lt {r r' : ByteReader} (h : r.Reads r' bytes)
    (hr : r.unread.length < cUInt64Max) :
    bytes.length < cUInt64Max ∧ r'.unread.length < cUInt64Max := by
  have := congrArg List.length h.unread
  rw [List.length_append] at this
  omega

theorem readParts_reads (hdag : o.dagCbor = true) {fuel : Nat} {s s' : CborCodec}
    (h : readParts o major fuel s = .ok s') : ∃ bytes, s.reader.Reads s'.reader bytes := by
  induction fuel generalizing s with
  | zero => cases h
  | succ fuel ih =>
    rw [readParts] at h
    split at h
    case isTrue => cases h
    split at h
    case isTrue =>
      obtain rfl := Except.ok.inj h
      exact ⟨_, ByteReader.advance_reads s.reader 1⟩
    obtain ⟨⟨head, s₁⟩, h₁, h⟩ := bind_eq_ok h
    obtain ⟨b₁, hr₁, -⟩ := CborCodec.readUIntOrThrow_sound h₁
    simp only at h
    split at h
    case isTrue => cases h
    obtain ⟨⟨length, s₂⟩, h₂, h⟩ := bind_eq_ok h
    obtain ⟨b₂, hr₂, -⟩ := readArgument_sound hdag h₂
    simp only at h
    split at h
    case isTrue => cases h
    obtain ⟨⟨part, s₃⟩, h₃, h⟩ := bind_eq_ok h
    obtain ⟨hr₃, -⟩ := CborCodec.readBytesOrThrow_sound h₃
    simp only at h
    split at h
    case isTrue => cases h
    obtain ⟨b₄, hr₄⟩ := ih h
    exact ⟨_, ((hr₁.trans hr₂).trans hr₃).trans hr₄⟩

theorem readBytes_sound (hdag : o.dagCbor = true) (hm : major = 2 ∨ major = 3)
    (h : readBytes o s additional major = .ok (value, s')) :
    ∃ tail, s.reader.Reads s'.reader tail ∧ Scanned (initialByte major additional :: tail)
      (initialByte major additional :: tail = writeHead major value.length ++ value) := by
  obtain ⟨⟨length, s₁⟩, h₁, h⟩ := bind_eq_ok h
  obtain ⟨tail, hr, hlt, -, hw⟩ := readArgument_sound hdag h₁
  simp only at h
  split at h
  case isTrue hne =>
    split at h
    case isTrue => cases h
    obtain ⟨hr', rfl, -⟩ := CborCodec.readBytesOrThrow_sound h
    refine ⟨tail ++ value, hr.trans hr', ?_⟩
    rw [← List.cons_append, ← hw]
    exact .inr ⟨Plain.string hm (by rw [cUInt64Max] at hne ⊢; omega), rfl⟩
  case isFalse heq =>
    obtain rfl := not_not.mp heq
    obtain ⟨s₂, h₂, h⟩ := bind_eq_ok h
    obtain ⟨-, rfl⟩ := Prod.mk.inj (Except.ok.inj h)
    obtain ⟨bytes, hr'⟩ := readParts_reads hdag h₂
    refine ⟨tail ++ bytes, hr.trans hr', ?_⟩
    rw [← List.cons_append, ← hw]
    exact Scanned.marker (by omega) (by omega) bytes

theorem readText_sound (hdag : o.dagCbor = true)
    (h : readText o s additional = .ok (value, s')) :
    ∃ tail, s.reader.Reads s'.reader tail ∧ Scanned (initialByte 3 additional :: tail)
      (writeText strict value = .ok (initialByte 3 additional :: tail)) := by
  obtain ⟨⟨bytes, s₁⟩, h₁, h⟩ := bind_eq_ok h
  obtain ⟨tail, hr, hs⟩ := readBytes_sound hdag (.inr rfl) h₁
  simp only at h
  split at h
  case isTrue => cases h
  split at h
  case isTrue => cases h
  case isFalse hv =>
    obtain ⟨rfl, rfl⟩ := Prod.mk.inj (Except.ok.inj h)
    rw [hdag] at hv
    refine ⟨tail, hr, hs.imp fun he => ?_⟩
    rw [writeText_valid strict (by simpa using hv), he, textBytes]

theorem readItems_sound {read : ValueReader clock} (hread : Sound read)
    (h : readItems read depth count fuel s i = .ok (items, s'))
    (hlen : s.reader.unread.length < cUInt64Max) (hi : count ≠ cUInt64Max → i ≤ count) :
    ∃ bytes, s.reader.Reads s'.reader bytes ∧ (count ≠ cUInt64Max →
      Scanned bytes (writeItems clock strict items = .ok bytes ∧ i + items.length = count)) := by
  induction fuel generalizing s i items with
  | zero => cases h
  | succ fuel ih =>
    rw [readItems] at h
    split at h
    case isTrue hc =>
      obtain ⟨rfl, rfl⟩ := Prod.mk.inj (Except.ok.inj h)
      refine ⟨[], .refl _, fun hne => .inr ⟨fun _ => rfl, ?_, ?_⟩⟩
      · rw [writeItems]
        rfl
      · have := hi hne
        rw [List.length_nil]
        omega
    case isFalse hc =>
    split at h
    case isTrue hp =>
      obtain ⟨-, rfl⟩ := Prod.mk.inj (Except.ok.inj h)
      exact ⟨_, ByteReader.advance_reads s.reader 1, fun hne => absurd hp.1 hne⟩
    split at h
    case isTrue => cases h
    obtain ⟨⟨item, s₁⟩, h₁, h⟩ := bind_eq_ok h
    obtain ⟨⟨rest, s₂⟩, h₂, h⟩ := bind_eq_ok h
    obtain ⟨rfl, rfl⟩ := Prod.mk.inj (Except.ok.inj h)
    obtain ⟨b₁, hr₁, hs₁⟩ := hread _ _ _ _ h₁ hlen
    obtain ⟨b₂, hr₂, hs₂⟩ := ih h₂ (reads_length_lt hr₁ hlen).2 fun hne => by omega
    refine ⟨b₁ ++ b₂, hr₁.trans hr₂, fun hne => hs₁.append fun hw₁ => (hs₂ hne).imp ?_⟩
    rintro ⟨hw₂, hn⟩
    refine ⟨?_, by rw [List.length_cons]; omega⟩
    rw [writeItems, hw₁, hw₂]
    rfl

theorem writeText_ok (h : writeText strict key = .ok bytes) :
    Utf8.isValid key = true ∧ bytes = textBytes key := by
  have hv : Utf8.isValid key = true := by
    by_contra hv
    rw [writeText, if_pos ⟨rfl, hv⟩] at h
    cases h
  rw [writeText_valid strict hv] at h
  exact ⟨hv, (Except.ok.inj h).symm⟩

/-- Keys are in the order of their bytes, after a previous one. -/
structure Ordered (previous : List UInt8) (es : StringMap α) : Prop where
  valid : ∀ e ∈ es, Utf8.isValid e.1 = true
  length : ∀ e ∈ es, e.1.length < 2 ^ 64
  sorted : es.Pairwise fun a b => textBytes a.1 < textBytes b.1
  after : ∀ e ∈ es, previous = [] ∨ previous < textBytes e.1

theorem Ordered.nil : Ordered previous ([] : StringMap α) :=
  ⟨nofun, nofun, List.Pairwise.nil, nofun⟩

theorem Ordered.cons {es : StringMap α} (hv : Utf8.isValid key = true) (hl : key.length < 2 ^ 64)
    (h : previous = [] ∨ previous < textBytes key) (hes : Ordered (textBytes key) es) :
    Ordered previous ((key, value) :: es) where
  valid := List.forall_mem_cons.mpr ⟨hv, hes.valid⟩
  length := List.forall_mem_cons.mpr ⟨hl, hes.length⟩
  sorted := List.pairwise_cons.mpr
    ⟨fun e he => (hes.after e he).resolve_left (textBytes_ne_nil key), hes.sorted⟩
  after := List.forall_mem_cons.mpr ⟨h, fun e he => h.imp_right fun hlt =>
    List.lt_trans hlt ((hes.after e he).resolve_left (textBytes_ne_nil key))⟩

/-- Ordered entries are in the order of the writer. -/
theorem Ordered.writtenOrder {es : StringMap α} (h : Ordered [] es) :
    writtenOrder strict (StringMap.setAll [] es) = es ∧
      (StringMap.setAll [] es).length = es.length := by
  have hless : es.Pairwise fun a b => keyLess a.1 b.1 = true :=
    h.sorted.imp_of_mem fun ha hb hlt =>
      textBytes_keyLess (h.valid _ ha) (h.valid _ hb) (h.length _ ha) hlt
  have hd : StringMap.Distinct es := h.sorted.imp_of_mem fun {a b} ha hb hlt he => by
    rw [eq_of_compare_eq (h.valid _ hb) (h.valid _ ha) he] at hlt
    exact List.lt_irrefl _ hlt
  obtain ⟨hs, hp⟩ := StringMap.setAll_sorted [] es List.Pairwise.nil hd fun _ _ => rfl
  refine ⟨?_, hp.length_eq⟩
  refine List.Perm.eq_of_pairwise (fun a b _ _ hab hba => ?_) (sortEntries_strict hs) hless
    ((sortEntries_perm _).trans hp)
  have := keyLess_trans hab hba
  rw [keyLess_iff] at this
  exact absurd this (by simp)

theorem readEntries_sound {read : ValueReader clock} (hdag : o.dagCbor = true) (hread : Sound read)
    (h : readEntries o read depth count fuel s i map previous = .ok (map', s'))
    (hlen : s.reader.unread.length < cUInt64Max) (hi : count ≠ cUInt64Max → i ≤ count) :
    ∃ bytes, s.reader.Reads s'.reader bytes ∧ (count ≠ cUInt64Max →
      Scanned bytes (∃ es, map' = StringMap.setAll map es ∧ i + es.length = count ∧
        Ordered previous es ∧ writeEntries strict
          (es.map fun e => (e.1, writeValue clock strict e.2)) = .ok bytes)) := by
  induction fuel generalizing s i map previous with
  | zero => cases h
  | succ fuel ih =>
    rw [readEntries] at h
    split at h
    case isTrue hc =>
      obtain ⟨rfl, rfl⟩ := Prod.mk.inj (Except.ok.inj h)
      refine ⟨[], .refl _, fun hne => .inr ⟨fun _ => rfl, [], rfl, ?_, .nil, rfl⟩⟩
      have := hi hne
      rw [List.length_nil]
      omega
    case isFalse hc =>
    split at h
    case isTrue hp =>
      obtain ⟨-, rfl⟩ := Prod.mk.inj (Except.ok.inj h)
      exact ⟨_, ByteReader.advance_reads s.reader 1, fun hne => absurd hp.1 hne⟩
    split at h
    case isTrue => cases h
    obtain ⟨⟨keyValue, s₁⟩, h₁, h⟩ := bind_eq_ok h
    obtain ⟨b₁, hr₁, hs₁⟩ := hread _ _ _ _ h₁ hlen
    obtain ⟨hb₁, hlen₁⟩ := reads_length_lt hr₁ hlen
    simp only [hdag] at h
    split at h
    case h_2 => cases h
    case h_1 key =>
    split at h
    case isTrue => cases h
    split at h
    case isTrue => cases h
    case isFalse hord =>
    obtain ⟨⟨value, s₂⟩, h₂, h⟩ := bind_eq_ok h
    obtain ⟨b₂, hr₂, hs₂⟩ := hread _ _ _ _ h₂ hlen₁
    obtain ⟨b₃, hr₃, hs₃⟩ := ih h (reads_length_lt hr₂ hlen₁).2 fun hne => by omega
    rw [hr₁.sliceFrom] at hord hs₃
    refine ⟨b₁ ++ b₂ ++ b₃, (hr₁.trans hr₂).trans hr₃, fun hne => ?_⟩
    rw [List.append_assoc]
    refine hs₁.append fun hw₁ => hs₂.append fun hw₂ => (hs₃ hne).imp ?_
    rintro ⟨es, hmap, hn, hes, hw₃⟩
    rw [writeValue] at hw₁
    obtain ⟨hv, rfl⟩ := writeText_ok hw₁
    have hkey : key.length < 2 ^ 64 := by
      rw [textBytes, List.length_append, cUInt64Max] at hb₁
      omega
    have hprevious : previous = [] ∨ previous < textBytes key := by
      by_contra hc
      rw [not_or] at hc
      exact hord ⟨trivial, hc⟩
    refine ⟨(key, value) :: es, hmap, by rw [List.length_cons]; omega,
      .cons hv hkey hprevious hes, ?_⟩
    rw [List.map_cons, writeEntries, hw₁, hw₂, hw₃, ← List.append_assoc]
    rfl

theorem readArray_sound {read : ValueReader clock} (hdag : o.dagCbor = true) (hread : Sound read)
    (h : readArray o read s additional depth = .ok (v, s'))
    (hlen : s.reader.unread.length < cUInt64Max) :
    ∃ tail, s.reader.Reads s'.reader tail ∧ Scanned (initialByte 4 additional :: tail)
      (writeValue clock strict v = .ok (initialByte 4 additional :: tail)) := by
  rw [readArray] at h
  split at h
  case isTrue => cases h
  obtain ⟨⟨count, s₁⟩, h₁, h⟩ := bind_eq_ok h
  obtain ⟨tail, hr, hlt, -, hw⟩ := readArgument_sound hdag h₁
  simp only at h
  split at h
  case isTrue => cases h
  obtain ⟨⟨items, s₂⟩, h₂, h⟩ := bind_eq_ok h
  obtain ⟨rfl, rfl⟩ := Prod.mk.inj (Except.ok.inj h)
  obtain ⟨bytes, hr', hs⟩ := readItems_sound hread h₂ (reads_length_lt hr hlen).2 fun _ =>
    Nat.zero_le _
  refine ⟨tail ++ bytes, hr.trans hr', ?_⟩
  rw [← List.cons_append, ← hw]
  by_cases hmax : count = cUInt64Max
  · rw [hmax]
    exact Scanned.marker (by decide) (by decide) bytes
  · refine (Plain.head (by decide) hlt (by omega)).scanned ((hs hmax).imp ?_)
    rintro ⟨hwi, hn⟩
    rw [Nat.zero_add] at hn
    rw [writeValue, hwi, hn]
    rfl

theorem readMap_sound {read : ValueReader clock} (hdag : o.dagCbor = true) (hread : Sound read)
    (h : readMap o read s additional depth = .ok (v, s'))
    (hlen : s.reader.unread.length < cUInt64Max) :
    ∃ tail, s.reader.Reads s'.reader tail ∧ Scanned (initialByte 5 additional :: tail)
      (writeValue clock strict v = .ok (initialByte 5 additional :: tail)) := by
  rw [readMap] at h
  split at h
  case isTrue => cases h
  obtain ⟨⟨count, s₁⟩, h₁, h⟩ := bind_eq_ok h
  obtain ⟨tail, hr, hlt, -, hw⟩ := readArgument_sound hdag h₁
  simp only at h
  split at h
  case isTrue => cases h
  obtain ⟨⟨map, s₂⟩, h₂, h⟩ := bind_eq_ok h
  obtain ⟨rfl, rfl⟩ := Prod.mk.inj (Except.ok.inj h)
  obtain ⟨bytes, hr', hs⟩ := readEntries_sound hdag hread h₂ (reads_length_lt hr hlen).2 fun _ =>
    Nat.zero_le _
  refine ⟨tail ++ bytes, hr.trans hr', ?_⟩
  rw [← List.cons_append, ← hw]
  by_cases hmax : count = cUInt64Max
  · rw [hmax]
    exact Scanned.marker (by decide) (by decide) bytes
  · refine (Plain.head (by decide) hlt (by omega)).scanned ((hs hmax).imp ?_)
    rintro ⟨es, rfl, hn, hes, hwe⟩
    obtain ⟨horder, hlength⟩ := hes.writtenOrder
    rw [Nat.zero_add] at hn
    rw [writeValue_map, horder, hwe, hlength, hn]
    rfl

theorem readTag_sound {read : ValueReader clock} (hdag : o.dagCbor = true) (hread : Sound read)
    (h : readTag o read s additional depth = .ok (v, s'))
    (hlen : s.reader.unread.length < cUInt64Max) :
    ∃ tail, s.reader.Reads s'.reader tail ∧ Scanned (initialByte 6 additional :: tail)
      (writeValue clock strict v = .ok (initialByte 6 additional :: tail)) := by
  obtain ⟨⟨tag, s₁⟩, h₁, h⟩ := bind_eq_ok h
  obtain ⟨tail, hr, hlt, -, hw⟩ := readArgument_sound hdag h₁
  simp only [hdag] at h
  split at h
  case isFalse => cases h
  case isTrue htag =>
  obtain ⟨⟨value, s₂⟩, h₂, h⟩ := bind_eq_ok h
  obtain ⟨bytes, hr', hs⟩ := hread _ _ _ _ h₂ (reads_length_lt hr hlen).2
  simp only at h
  split at h
  case h_2 => cases h
  case h_1 first cid =>
  split at h
  case isTrue => cases h
  case isFalse hcid =>
  obtain ⟨rfl, rfl⟩ := Prod.mk.inj (Except.ok.inj h)
  obtain ⟨rfl, hvalid⟩ : first = 0 ∧ validCid cid = true := by simpa using hcid
  refine ⟨tail ++ bytes, hr.trans hr', ?_⟩
  rw [← List.cons_append, ← hw]
  refine (Plain.head (by decide) hlt (by omega)).scanned (hs.imp fun hwb => ?_)
  rw [writeValue] at hwb
  rw [← Except.ok.inj hwb, writeValue, if_neg (by simp [hvalid]), htag, writeBytes,
    List.append_assoc]
  rfl

theorem readFloat_sound {s s' : CborCodec} (h : s.readFloat 27 = .ok (value, s')) :
    ∃ bytes, s.reader.Reads s'.reader bytes ∧ bytes.length = 8 ∧
      value = UInt64.ofNat (bigEndian bytes) := by
  obtain ⟨⟨bits, s₁⟩, h₁, h⟩ := bind_eq_ok h
  obtain ⟨bytes, hr, hl, rfl, -⟩ := CborCodec.readUIntOrThrow_sound (n := 8) h₁
  obtain ⟨rfl, rfl⟩ := Prod.mk.inj (Except.ok.inj h)
  exact ⟨bytes, hr, hl, rfl⟩

theorem positive_zero {bits : UInt64} (h : isZero bits = true → ¬ signbit bits = true) :
    (if isZero bits = true then 0 else bits) = bits := by
  split
  case isFalse => rfl
  case isTrue hz =>
    have hs := h hz
    rw [isZero, decide_eq_true_eq, ← UInt64.toNat_inj, UInt64.toNat_and] at hz
    rw [signbit, decide_eq_true_eq, ← UInt64.toNat_inj, UInt64.toNat_shiftRight] at hs
    have hmod : bits.toNat % 2 ^ 63 = 0 := by
      rw [← Nat.and_two_pow_sub_one_eq_mod]
      exact hz
    have hdiv : ¬ bits.toNat / 2 ^ 63 = 1 := by
      rw [← Nat.shiftRight_eq_div_pow]
      exact hs
    have := bits.toNat_lt
    rw [← UInt64.toNat_inj]
    show 0 = bits.toNat
    omega

theorem readSimple_sound (hdag : o.dagCbor = true)
    (h : readSimple o s additional = .ok (v, s')) :
    ∃ tail, s.reader.Reads s'.reader tail ∧ Scanned (initialByte 7 additional :: tail)
      (writeValue clock strict v = .ok (initialByte 7 additional :: tail)) := by
  rw [readSimple] at h
  split at h
  case isTrue ha =>
    obtain ⟨rfl, rfl⟩ := Prod.mk.inj (Except.ok.inj h)
    subst ha
    exact ⟨[], .refl _, .inr ⟨Plain.simple (by decide), by rw [writeValue]; rfl⟩⟩
  split at h
  case isTrue ha =>
    obtain ⟨rfl, rfl⟩ := Prod.mk.inj (Except.ok.inj h)
    subst ha
    exact ⟨[], .refl _, .inr ⟨Plain.simple (by decide), by rw [writeValue]; rfl⟩⟩
  split at h
  case isTrue ha =>
    obtain ⟨rfl, rfl⟩ := Prod.mk.inj (Except.ok.inj h)
    subst ha
    exact ⟨[], .refl _, .inr ⟨Plain.simple (by decide), by rw [writeValue]; rfl⟩⟩
  split at h
  case isFalse => cases h
  split at h
  case isTrue => cases h
  case isFalse ha =>
  obtain rfl : additional = 27 := by simpa [hdag] using ha
  obtain ⟨⟨value, s₁⟩, h₁, h⟩ := bind_eq_ok h
  obtain ⟨bytes, hr, hl, rfl⟩ := readFloat_sound h₁
  simp only [hdag] at h
  split at h
  case isTrue => cases h
  case isFalse hc =>
  obtain ⟨rfl, rfl⟩ := Prod.mk.inj (Except.ok.inj h)
  rw [true_and, not_or, not_not, not_and] at hc
  refine ⟨bytes, hr, .inr ⟨Plain.float bytes hl, ?_⟩⟩
  have hlt := bigEndian_lt bytes
  rw [hl] at hlt
  rw [writeValue, writeFloat, if_neg fun hf => hf.2 hc.1]
  simp only [strict, true_and]
  rw [positive_zero fun hz hs => hc.2 hz hs, UInt64.toNat_ofNat_of_lt' hlt]
  have hback := toBigEndian_bigEndian bytes
  rw [hl] at hback
  rw [hback]
  rfl

/-- In the strict profile, a value is written as it was read. -/
theorem readMajor_sound {read : ValueReader clock} (hdag : o.dagCbor = true) (hread : Sound read)
    (h : readMajor o read s major additional depth = .ok (v, s'))
    (hlen : s.reader.unread.length < cUInt64Max) :
    ∃ tail, s.reader.Reads s'.reader tail ∧ Scanned (initialByte major additional :: tail)
      (writeValue clock strict v = .ok (initialByte major additional :: tail)) := by
  unfold readMajor at h
  split at h
  · obtain ⟨⟨value, s₁⟩, h₁, h⟩ := bind_eq_ok h
    obtain ⟨tail, hr, hlt, -, hw⟩ := readArgument_sound hdag h₁
    obtain ⟨rfl, rfl⟩ := Prod.mk.inj (Except.ok.inj h)
    refine ⟨tail, hr, ?_⟩
    rw [← hw]
    refine .inr ⟨Plain.head (by decide) hlt (by omega), ?_⟩
    rw [writeValue, UInt64.toNat_ofNat_of_lt' hlt]
    rfl
  · obtain ⟨⟨magnitude, s₁⟩, h₁, h⟩ := bind_eq_ok h
    obtain ⟨tail, hr, hlt, -, hw⟩ := readArgument_sound hdag h₁
    simp only at h
    split at h
    case isTrue => cases h
    case isFalse hmax =>
    obtain ⟨rfl, rfl⟩ := Prod.mk.inj (Except.ok.inj h)
    refine ⟨tail, hr, ?_⟩
    rw [← hw]
    refine .inr ⟨Plain.head (by decide) hlt (by omega), ?_⟩
    rw [cInt64Max] at hmax
    have hint : (Int64.ofInt (-1 - magnitude)).toInt = -1 - magnitude :=
      Int64.toInt_ofInt_of_le (by omega) (by omega)
    rw [writeValue, hint, if_neg (by omega), show (-(-1 - (magnitude : Int) + 1)).toNat = magnitude
      by omega]
    rfl
  · obtain ⟨⟨bytes, s₁⟩, h₁, h⟩ := bind_eq_ok h
    obtain ⟨tail, hr, hs⟩ := readBytes_sound hdag (.inl rfl) h₁
    obtain ⟨rfl, rfl⟩ := Prod.mk.inj (Except.ok.inj h)
    refine ⟨tail, hr, hs.imp fun he => ?_⟩
    rw [writeValue, he]
    rfl
  · obtain ⟨⟨text, s₁⟩, h₁, h⟩ := bind_eq_ok h
    obtain ⟨tail, hr, hs⟩ := readText_sound hdag h₁
    obtain ⟨rfl, rfl⟩ := Prod.mk.inj (Except.ok.inj h)
    refine ⟨tail, hr, hs.imp fun he => ?_⟩
    rw [writeValue, he]
  · exact readArray_sound hdag hread h hlen
  · exact readMap_sound hdag hread h hlen
  · exact readTag_sound hdag hread h hlen
  · exact readSimple_sound hdag h
  · cases h

theorem readValue_sound (hdag : o.dagCbor = true) (fuel : Nat) : Sound (readValue clock o fuel) := by
  induction fuel with
  | zero => exact fun _ _ _ _ h => nomatch h
  | succ fuel ih =>
    intro s depth v s' h hlen
    rw [readValue] at h
    split at h
    case isTrue => cases h
    obtain ⟨⟨head, s₁⟩, h₁, h⟩ := bind_eq_ok h
    obtain ⟨bytes, hr, hone, rfl, -⟩ := CborCodec.readUIntOrThrow_sound h₁
    obtain ⟨b, rfl⟩ := List.length_eq_one_iff.mp hone
    obtain ⟨tail, hr', hs⟩ := readMajor_sound hdag ih h (reads_length_lt hr hlen).2
    have hb : bigEndian [b] = b.toNat := by simp [bigEndian]
    rw [hb, (initialByte_of_parts b).1] at hs
    exact ⟨b :: tail, hr.trans hr', hs⟩

theorem writeItems_plain {items : List (CborValue clock.Timestamp)}
    (h : ∀ v ∈ items, ∀ piece, writeValue clock strict v = .ok piece → piece.length < cUInt64Max →
      Plain piece)
    (hw : writeItems clock strict items = .ok bytes) (hl : bytes.length < cUInt64Max) :
    Plain bytes := by
  induction items generalizing bytes with
  | nil =>
    rw [writeItems] at hw
    obtain rfl := Except.ok.inj hw
    exact .nil
  | cons item items ih =>
    rw [writeItems] at hw
    obtain ⟨piece, hp, hw⟩ := bind_eq_ok hw
    obtain ⟨pieces, hps, hw⟩ := bind_eq_ok hw
    obtain rfl := Except.ok.inj hw
    rw [List.length_append] at hl
    exact (h item (List.mem_cons_self ..) piece hp (by omega)).append
      (ih (fun v hv => h v (List.mem_cons_of_mem _ hv)) hps (by omega))

theorem writeEntries_plain {entries : List (List UInt8 × CborValue clock.Timestamp)}
    (h : ∀ e ∈ entries, ∀ piece, writeValue clock strict e.2 = .ok piece →
      piece.length < cUInt64Max → Plain piece)
    (hw : writeEntries strict (entries.map fun e => (e.1, writeValue clock strict e.2)) = .ok bytes)
    (hl : bytes.length < cUInt64Max) : Plain bytes := by
  induction entries generalizing bytes with
  | nil =>
    obtain rfl := Except.ok.inj hw
    exact .nil
  | cons entry entries ih =>
    obtain ⟨key, hk, hw⟩ := bind_eq_ok hw
    obtain ⟨piece, hp, hw⟩ := bind_eq_ok hw
    obtain ⟨pieces, hps, hw⟩ := bind_eq_ok hw
    obtain rfl := Except.ok.inj hw
    obtain ⟨-, rfl⟩ := writeText_ok hk
    rw [List.length_append, List.length_append, textBytes, List.length_append] at hl
    exact ((Plain.string (.inr rfl) (by omega)).append
      (h entry (List.mem_cons_self ..) piece hp (by omega))).append
      (ih (fun e he => h e (List.mem_cons_of_mem _ he)) hps (by omega))

/-- The writer has no marker. -/
theorem writeValue_plain (v : CborValue clock.Timestamp) : ∀ bytes,
    writeValue clock strict v = .ok bytes → bytes.length < cUInt64Max → Plain bytes := by
  intro bytes hw hl
  induction v using CborValue.induction generalizing bytes with
  | null =>
    rw [writeValue] at hw
    obtain rfl := Except.ok.inj hw
    exact Plain.simple (by decide : 22 < 24)
  | bool value =>
    rw [writeValue] at hw
    obtain rfl := Except.ok.inj hw
    cases value with
    | false => exact Plain.simple (by decide : 20 < 24)
    | true => exact Plain.simple (by decide : 21 < 24)
  | signed number =>
    rw [writeValue] at hw
    split at hw
    case isTrue =>
      obtain rfl := Except.ok.inj hw
      exact Plain.head (by decide) (signed_nonneg_lt number) (by omega)
    case isFalse hn =>
      obtain rfl := Except.ok.inj hw
      have := (signed_negative hn).1
      rw [cInt64Max] at this
      exact Plain.head (by decide) (by omega) (by omega)
  | unsigned number =>
    rw [writeValue] at hw
    obtain rfl := Except.ok.inj hw
    exact Plain.head (by decide) number.toNat_lt (by omega)
  | float bits =>
    rw [writeValue, writeFloat] at hw
    split at hw
    case isTrue => cases hw
    case isFalse =>
      obtain rfl := Except.ok.inj hw
      exact Plain.float _ (toBigEndian_length 8 _)
  | text value =>
    rw [writeValue] at hw
    obtain ⟨-, rfl⟩ := writeText_ok hw
    rw [textBytes, List.length_append] at hl
    exact Plain.string (.inr rfl) (by omega)
  | bytes value =>
    rw [writeValue] at hw
    obtain rfl := Except.ok.inj hw
    rw [writeBytes, List.length_append] at hl
    exact Plain.string (.inl rfl) (by omega)
  | array items ih =>
    rw [writeValue] at hw
    obtain ⟨pieces, hp, hw⟩ := bind_eq_ok hw
    obtain rfl := Except.ok.inj hw
    rw [List.length_append] at hl
    have hle := writeItems_length hp
    have hlt : items.length < 2 ^ 64 := by rw [cUInt64Max] at hl; omega
    exact (Plain.head (by decide) hlt (by omega)).append (writeItems_plain ih hp (by omega))
  | map entries ih =>
    rw [writeValue_map] at hw
    obtain ⟨pieces, hp, hw⟩ := bind_eq_ok hw
    obtain rfl := Except.ok.inj hw
    rw [List.length_append] at hl
    have hperm := writtenOrder_perm strict entries
    have hle := writeEntries_length hp
    rw [List.length_map, hperm.length_eq] at hle
    have hlt : entries.length < 2 ^ 64 := by rw [cUInt64Max] at hl; omega
    exact (Plain.head (by decide) hlt (by omega)).append
      (writeEntries_plain (fun e he => ih e (hperm.mem_iff.mp he)) hp (by omega))
  | dateTime date =>
    rw [writeValue, if_pos (show strict.dagCbor = true from rfl)] at hw
    cases hw
  | link cid =>
    rw [writeValue] at hw
    split at hw
    case isTrue => cases hw
    case isFalse =>
      obtain rfl := Except.ok.inj hw
      rw [List.append_assoc, List.length_append, List.length_append] at hl
      rw [List.append_assoc]
      have hs : Plain (writeHead 2 (0 :: cid).length ++ 0 :: cid) :=
        .string (.inl rfl) (by omega)
      have hh : Plain (writeHead 6 42) := .head (by decide) (by decide) (by omega)
      exact hh.append hs

/-- The strict profile is canonical when no length or count is the marker of the parser. -/
theorem encode_decode_iff (hdag : o.dagCbor = true) (h : decode clock o block = .ok v) :
    encode clock strict v = .ok block.bytes ↔ noMarkers 0 block.bytes = true := by
  have hlen : block.bytes.length < cUInt64Max := block.length_lt
  constructor
  · intro he
    have := writeValue_plain v _ he hlen []
    rwa [List.append_nil] at this
  · intro hn
    have hp : parse clock o block = .ok v := by
      unfold decode at h
      split at h
      · cases h
      · cases h
      · exact h
    rw [parse] at hp
    split at hp
    case isTrue => cases hp
    obtain ⟨⟨v', s⟩, hr, hp⟩ := bind_eq_ok hp
    simp only at hp
    split at hp
    case isFalse => cases hp
    case isTrue hend =>
    obtain rfl := Except.ok.inj hp
    obtain ⟨bytes, hreads, hs⟩ := readValue_sound hdag _ _ _ _ _ hr hlen
    obtain rfl : bytes = block.bytes := by
      have := hreads.unread
      rw [List.isEmpty_iff.mp hend, List.append_nil] at this
      exact this.symm
    rcases hs with hs | ⟨-, hw⟩
    · have := hs []
      rw [List.append_nil, hn] at this
      cases this
    · exact hw

theorem encode_decode_iff_map : ∃ h,
    decode timeless { dagCbor := true } ⟨[0xA1, 0x61, 0x61, 0x20], h⟩ =
      .ok (.map [([0x61], .signed (-1))]) ∧
    encode timeless strict (.map [([0x61], .signed (-1))]) = .ok [0xA1, 0x61, 0x61, 0x20] := by
  have h : decode timeless { dagCbor := true } ⟨[0xA1, 0x61, 0x61, 0x20], by decide⟩ =
      .ok (.map [([0x61], .signed (-1))]) := rfl
  exact ⟨by decide, h, (encode_decode_iff rfl h).mpr rfl⟩

/-- A length of all bits set is taken for an indefinite one. -/
theorem marker_not_rejected : ∃ h,
    decode timeless { dagCbor := true }
      ⟨[0x5B, 0xFF, 0xFF, 0xFF, 0xFF, 0xFF, 0xFF, 0xFF, 0xFF, 0x41, 0x00, 0xFF], h⟩ =
        .ok (.bytes [0x00]) ∧
    decode timeless { dagCbor := true } ⟨[0x41, 0x00], by decide⟩ = .ok (.bytes [0x00]) ∧
    encode timeless strict (.bytes [0x00]) = .ok [0x41, 0x00] :=
  ⟨by decide, rfl, rfl, rfl⟩

end ErbslandCore.Data.Cbor
