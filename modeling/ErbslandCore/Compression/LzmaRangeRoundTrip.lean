import ErbslandCore.Compression.LzmaRangeBits

namespace ErbslandCore.Compression.Lzma
open Library RangeCoder LzmaRangeEncoder
set_option autoImplicit true

/-- What the decoder returns for a value that was encoded. -/
def Request.value : Request → Nat → Nat
  | .bit _, value => if value = 0 then 0 else 1
  | .tree _ bitCount, value => value % 2 ^ bitCount
  | .reverseTree _ bitCount, value => value % 2 ^ bitCount
  | .direct bitCount, value => value % 2 ^ bitCount

/-- A request that uses existing models, and no more direct bits than a value has. -/
def Request.Within (count : Nat) : Request → Prop
  | .bit index => index < count
  | .tree span _ => span.offset + span.size ≤ count
  | .reverseTree span _ => span.offset + span.size ≤ count
  | .direct bitCount => bitCount ≤ 32

/-- The invariant of a coder and its models. -/
structure Steady (s : LzmaRangeEncoder × List Nat) : Prop where
  normal : s.1.Normal
  reachable : ∀ p ∈ s.2, ReachableProbability p

/-- A later state of a run of the encoder. -/
structure Continues (s s' : LzmaRangeEncoder × List Nat) : Prop where
  steady : Steady s'
  narrows : s.1.Narrows s'.1
  length_eq : s'.2.length = s.2.length

theorem Continues.refl {s : LzmaRangeEncoder × List Nat} (h : Steady s) : Continues s s :=
  ⟨h, .refl _, rfl⟩

theorem Continues.trans {s t u : LzmaRangeEncoder × List Nat} (h : Continues s t)
    (h' : Continues t u) : Continues s u :=
  ⟨h'.steady, h.narrows.trans h'.narrows, h'.length_eq.trans h.length_eq⟩

theorem Steady.model {s : LzmaRangeEncoder × List Nat} (h : Steady s) (hi : index < s.2.length) :
    ReachableProbability s.2[index]! := by
  rw [getElem!_pos s.2 index hi]
  exact h.reachable _ (List.getElem_mem hi)

theorem encodeAt_continues {s : LzmaRangeEncoder × List Nat} (h : Steady s)
    (hi : index < s.2.length) (bit : Nat) : Continues s (encodeAt index bit s) := by
  obtain ⟨hnormal, hnarrows, hp⟩ := encodeBit_normal h.normal (h.model hi) bit
  refine ⟨⟨hnormal, fun p hmem => ?_⟩, hnarrows, List.length_set ..⟩
  rcases List.mem_or_eq_of_mem_set hmem with hmem | rfl
  · exact h.reachable p hmem
  · exact hp

theorem decodeAt_spec {s : LzmaRangeEncoder × List Nat} {f : LzmaRangeEncoder}
    (h : Follows final rest s.1 d) (hs : Steady s) (hi : index < s.2.length) (hf : Final f final)
    (hn : (encodeAt index bit s).1.Narrows f) :
    ∃ d', decodeAt index (d, s.2) = .ok (if bit = 0 then 0 else 1, d', (encodeAt index bit s).2) ∧
      Follows final rest (encodeAt index bit s).1 d' := by
  obtain ⟨d', hok, hfollows⟩ := decodeBit_spec h hs.normal (hs.model hi) hf hn
  refine ⟨d', ?_, hfollows⟩
  rw [decodeAt, hok]
  rfl

theorem bit_value (value index : Nat) :
    (if (value >>> index) &&& 1 = 0 then 0 else 1) = (value >>> index) &&& 1 := by
  rw [Nat.and_one_is_mod]
  split <;> omega

theorem child_eq (symbol : Nat) (h : bit < 2) : (symbol <<< 1) ||| bit = 2 * symbol + bit := by
  rw [← Nat.shiftLeft_add_eq_or_of_lt h, Nat.shiftLeft_eq]
  omega

theorem bit_lt (value : Nat) : value &&& 1 < 2 := by
  rw [Nat.and_one_is_mod]
  exact Nat.mod_lt _ (by decide)

/-- The models of all nodes that a walk of `left` steps from a node can reach. -/
def Room (size left symbol : Nat) : Prop := (symbol + 1) * 2 ^ left ≤ 2 * size

theorem Room.lt (h : Room size (left + 1) symbol) : symbol < size := by
  have hpow : 2 ^ 1 ≤ 2 ^ (left + 1) := Nat.pow_le_pow_right (by decide) (by omega)
  have hle := (Nat.mul_le_mul_left (symbol + 1) hpow).trans h
  omega

theorem Room.child (h : Room size (left + 1) symbol) (hb : bit < 2) :
    Room size left ((symbol <<< 1) ||| bit) := by
  rw [child_eq symbol hb]
  have hle : 2 * symbol + bit + 1 ≤ 2 * (symbol + 1) := by omega
  calc (2 * symbol + bit + 1) * 2 ^ left ≤ 2 * (symbol + 1) * 2 ^ left :=
        Nat.mul_le_mul_right _ hle
    _ = (symbol + 1) * 2 ^ (left + 1) := by
        rw [pow_succ]
        ring
    _ ≤ 2 * size := h

theorem encodeTreeLoop_continues {s : LzmaRangeEncoder × List Nat} (value : Nat) (h : Steady s)
    (hroom : Room size index symbol) (hlen : offset + size ≤ s.2.length) :
    Continues s (encodeTreeLoop offset value index symbol s) := by
  induction index generalizing symbol s with
  | zero => exact .refl h
  | succ index ih =>
    have hlt := hroom.lt
    have hstep := encodeAt_continues h (show offset + symbol < s.2.length by omega)
      ((value >>> index) &&& 1)
    exact hstep.trans (ih hstep.steady (hroom.child (bit_lt _)) (hstep.length_eq ▸ hlen))

theorem encodeReverseTreeLoop_continues {s : LzmaRangeEncoder × List Nat} (value : Nat)
    (h : Steady s) (hroom : Room size left symbol) (hlen : offset + size ≤ s.2.length) :
    Continues s (encodeReverseTreeLoop offset left symbol value s) := by
  induction left generalizing symbol value s with
  | zero => exact .refl h
  | succ left ih =>
    have hlt := hroom.lt
    have hstep := encodeAt_continues h (show offset + symbol < s.2.length by omega) (value &&& 1)
    exact hstep.trans (ih _ hstep.steady (hroom.child (bit_lt _)) (hstep.length_eq ▸ hlen))

theorem encodeDirect_normal {e : LzmaRangeEncoder} (h : e.Normal) (value bitCount : Nat) :
    (e.encodeDirect value bitCount).Normal ∧ e.Narrows (e.encodeDirect value bitCount) := by
  induction bitCount generalizing e with
  | zero => exact ⟨h, .refl e⟩
  | succ index ih =>
    obtain ⟨hnormal, hnarrows⟩ := encodeDirectBit_normal h ((value >>> index) &&& 1)
    obtain ⟨hnormal', hnarrows'⟩ := ih hnormal
    exact ⟨hnormal', hnarrows.trans hnarrows'⟩

theorem value_split (value index symbol : Nat) :
    ((symbol <<< 1) ||| ((value >>> index) &&& 1)) * 2 ^ index + value % 2 ^ index =
      symbol * 2 ^ (index + 1) + value % 2 ^ (index + 1) := by
  rw [child_eq symbol (bit_lt _), Nat.and_one_is_mod, Nat.shiftRight_eq_div_pow, Nat.mod_pow_succ, pow_succ]
  ring

/-- Decoding a tree walks along the nodes that were encoded. -/
theorem decodeTreeLoop_spec {s : LzmaRangeEncoder × List Nat} {f : LzmaRangeEncoder}
    (h : Follows final rest s.1 d) (hs : Steady s) (hroom : Room size index symbol)
    (hlen : offset + size ≤ s.2.length) (hf : Final f final)
    (hn : (encodeTreeLoop offset value index symbol s).1.Narrows f) :
    ∃ d', decodeTreeLoop offset index symbol (d, s.2) =
        .ok (symbol * 2 ^ index + value % 2 ^ index, d',
          (encodeTreeLoop offset value index symbol s).2) ∧
      Follows final rest (encodeTreeLoop offset value index symbol s).1 d' := by
  induction index generalizing symbol s d with
  | zero =>
    refine ⟨d, ?_, h⟩
    rw [decodeTreeLoop, pow_zero, Nat.mul_one, Nat.mod_one]
    rfl
  | succ index ih =>
    have hlt := hroom.lt
    have hi : offset + symbol < s.2.length := by omega
    have hchild := hroom.child (bit_lt (value >>> index))
    have hstep := encodeAt_continues hs hi ((value >>> index) &&& 1)
    have hlen' := hstep.length_eq ▸ hlen
    have hloop := encodeTreeLoop_continues value hstep.steady hchild hlen'
    obtain ⟨d₁, hok, hfollows⟩ := decodeAt_spec h hs hi hf (hloop.narrows.trans hn)
    obtain ⟨d₂, hok', hfollows'⟩ := ih hfollows hstep.steady hchild hlen' hn
    refine ⟨d₂, ?_, hfollows'⟩
    rw [bit_value] at hok
    rw [value_split] at hok'
    rw [decodeTreeLoop, hok]
    exact hok'

theorem reverse_split (value index left : Nat) (h : result < 2 ^ index) :
    (result ||| ((value &&& 1) <<< index)) + (value >>> 1) % 2 ^ left * 2 ^ (index + 1) =
      result + value % 2 ^ (left + 1) * 2 ^ index := by
  rw [Nat.or_comm, ← Nat.shiftLeft_add_eq_or_of_lt h, Nat.shiftLeft_eq, Nat.and_one_is_mod,
    Nat.shiftRight_eq_div_pow, pow_succ 2 left, Nat.mul_comm (2 ^ left), Nat.mod_mul, pow_one,
    pow_succ]
  ring

theorem reverse_lt (value index : Nat) (h : result < 2 ^ index) :
    result ||| ((value &&& 1) <<< index) < 2 ^ (index + 1) := by
  rw [Nat.or_comm, ← Nat.shiftLeft_add_eq_or_of_lt h, Nat.shiftLeft_eq, pow_succ]
  have hle := Nat.mul_le_mul_right (2 ^ index) (Nat.le_of_lt_succ (bit_lt value))
  omega

theorem decodeReverseTreeLoop_spec {s : LzmaRangeEncoder × List Nat} {f : LzmaRangeEncoder}
    (h : Follows final rest s.1 d) (hs : Steady s) (hroom : Room size left symbol)
    (hlen : offset + size ≤ s.2.length) (hresult : result < 2 ^ index) (hf : Final f final)
    (hn : (encodeReverseTreeLoop offset left symbol value s).1.Narrows f) :
    ∃ d', decodeReverseTreeLoop offset left index symbol result (d, s.2) =
        .ok (result + value % 2 ^ left * 2 ^ index, d',
          (encodeReverseTreeLoop offset left symbol value s).2) ∧
      Follows final rest (encodeReverseTreeLoop offset left symbol value s).1 d' := by
  induction left generalizing symbol value index result s d with
  | zero =>
    refine ⟨d, ?_, h⟩
    rw [decodeReverseTreeLoop, pow_zero, Nat.mod_one, Nat.zero_mul]
    rfl
  | succ left ih =>
    have hlt := hroom.lt
    have hi : offset + symbol < s.2.length := by omega
    have hchild := hroom.child (bit_lt value)
    have hstep := encodeAt_continues hs hi (value &&& 1)
    have hlen' := hstep.length_eq ▸ hlen
    have hloop := encodeReverseTreeLoop_continues (value >>> 1) hstep.steady hchild hlen'
    obtain ⟨d₁, hok, hfollows⟩ := decodeAt_spec h hs hi hf (hloop.narrows.trans hn)
    obtain ⟨d₂, hok', hfollows'⟩ := ih hfollows hstep.steady hchild hlen'
      (reverse_lt value index hresult) hn
    refine ⟨d₂, ?_, hfollows'⟩
    have hbit := bit_value value 0
    rw [Nat.shiftRight_zero] at hbit
    rw [hbit] at hok
    rw [reverse_split value index left hresult] at hok'
    rw [decodeReverseTreeLoop, hok]
    exact hok'

theorem direct_step (h : result < 2 ^ (31 - left)) (hl : left ≤ 31) (hb : bit < 2) :
    (result <<< 1) % 2 ^ 32 ||| bit = (result <<< 1) ||| bit ∧
      (result <<< 1) ||| bit < 2 ^ (32 - left) := by
  have hpow : 2 ^ (32 - left) = 2 ^ (31 - left) * 2 := by
    rw [← pow_succ]
    congr 1
    omega
  have hmax : 2 ^ (31 - left) ≤ 2 ^ 31 := Nat.pow_le_pow_right (by decide) (Nat.sub_le ..)
  constructor
  · rw [Nat.mod_eq_of_lt]
    rw [Nat.shiftLeft_eq]
    omega
  · rw [child_eq result hb, hpow]
    omega

theorem decodeDirect_spec {e f : LzmaRangeEncoder} (h : Follows final rest e d) (he : e.Normal)
    (hl : left ≤ 32) (hresult : result < 2 ^ (32 - left)) (hf : Final f final)
    (hn : (e.encodeDirect value left).Narrows f) :
    ∃ d', LzmaRangeDecoder.decodeDirect result left d =
        .ok (result * 2 ^ left + value % 2 ^ left, d') ∧
      Follows final rest (e.encodeDirect value left) d' := by
  induction left generalizing e d result with
  | zero =>
    refine ⟨d, ?_, h⟩
    rw [LzmaRangeDecoder.decodeDirect, pow_zero, Nat.mul_one, Nat.mod_one, Nat.add_zero]
  | succ left ih =>
    obtain ⟨hnormal, hnarrows⟩ := encodeDirectBit_normal he ((value >>> left) &&& 1)
    have hloop := encodeDirect_normal hnormal value left
    obtain ⟨d₁, hok, hfollows⟩ := decodeDirectBit_spec h he hf (hloop.2.trans hn)
    rw [show 32 - (left + 1) = 31 - left by omega] at hresult
    obtain ⟨hmod, hlt⟩ := direct_step hresult (Nat.le_of_succ_le_succ hl) (bit_lt (value >>> left))
    obtain ⟨d₂, hok', hfollows'⟩ := ih hfollows hnormal (Nat.le_of_succ_le hl) hlt hn
    refine ⟨d₂, ?_, hfollows'⟩
    rw [bit_value] at hok
    rw [value_split, ← hmod] at hok'
    rw [LzmaRangeDecoder.decodeDirect, hok]
    exact hok'

theorem requireTreeSize_ok (h : requireTreeSize span bitCount = .ok ()) :
    Room span.size bitCount 1 := by
  rw [requireTreeSize] at h
  split at h
  case isTrue => cases h
  case isFalse =>
    split at h
    case isTrue => cases h
    case isFalse hsize =>
      rw [Nat.one_shiftLeft] at hsize
      rw [Room]
      omega

theorem encodeTree_ok {s s' : LzmaRangeEncoder × List Nat}
    (h : encodeTree span bitCount value s = .ok s') :
    requireTreeSize span bitCount = .ok () ∧ s' = encodeTreeLoop span.offset value bitCount 1 s := by
  obtain ⟨_, hsize, h⟩ := bind_eq_ok h
  cases h
  exact ⟨hsize, rfl⟩

theorem encodeReverseTree_ok {s s' : LzmaRangeEncoder × List Nat}
    (h : encodeReverseTree span bitCount value s = .ok s') :
    requireTreeSize span bitCount = .ok () ∧
      s' = encodeReverseTreeLoop span.offset bitCount 1 value s := by
  obtain ⟨_, hsize, h⟩ := bind_eq_ok h
  cases h
  exact ⟨hsize, rfl⟩

theorem encode_continues {s s' : LzmaRangeEncoder × List Nat} (hs : Steady s)
    (hw : request.Within s.2.length) (h : encode s (request, value) = .ok s') :
    Continues s s' := by
  cases request with
  | bit index =>
    cases h
    exact encodeAt_continues hs hw value
  | tree span bitCount =>
    obtain ⟨hsize, rfl⟩ := encodeTree_ok h
    exact encodeTreeLoop_continues value hs (requireTreeSize_ok hsize) hw
  | reverseTree span bitCount =>
    obtain ⟨hsize, rfl⟩ := encodeReverseTree_ok h
    exact encodeReverseTreeLoop_continues value hs (requireTreeSize_ok hsize) hw
  | direct bitCount =>
    cases h
    obtain ⟨hnormal, hnarrows⟩ := encodeDirect_normal hs.normal value bitCount
    exact ⟨⟨hnormal, hs.reachable⟩, hnarrows, rfl⟩

/-- What one request has encoded is decoded, when the encoder goes on to the final bytes. -/
theorem decode_spec {s s' : LzmaRangeEncoder × List Nat} {f : LzmaRangeEncoder}
    (hs : Steady s) (hw : request.Within s.2.length) (h : encode s (request, value) = .ok s')
    (hf : Final f final) (hn : s'.1.Narrows f) (hd : Follows final rest s.1 d) :
    ∃ d', decode (d, s.2) request = .ok (request.value value, d', s'.2) ∧
      Follows final rest s'.1 d' := by
  cases request with
  | bit index =>
    cases h
    exact decodeAt_spec hd hs hw hf hn
  | tree span bitCount =>
    obtain ⟨hsize, rfl⟩ := encodeTree_ok h
    obtain ⟨d', hok, hfollows⟩ := decodeTreeLoop_spec hd hs (requireTreeSize_ok hsize) hw hf hn
    refine ⟨d', ?_, hfollows⟩
    rw [decode, decodeTree, hsize, ok_bind, hok, ok_bind]
    change Except.ok (1 * 2 ^ bitCount + value % 2 ^ bitCount - (1 <<< bitCount), _) = _
    rw [Nat.one_shiftLeft, Nat.one_mul, Nat.add_sub_cancel_left]
    rfl
  | reverseTree span bitCount =>
    obtain ⟨hsize, rfl⟩ := encodeReverseTree_ok h
    obtain ⟨d', hok, hfollows⟩ := decodeReverseTreeLoop_spec hd hs
      (requireTreeSize_ok hsize) hw (show 0 < 2 ^ 0 from Nat.one_pos) hf hn
    refine ⟨d', ?_, hfollows⟩
    rw [decode, decodeReverseTree, hsize, ok_bind, hok, pow_zero, Nat.mul_one, Nat.zero_add]
    rfl
  | direct bitCount =>
    cases h
    obtain ⟨d', hok, hfollows⟩ := decodeDirect_spec hd hs.normal hw
      (show 0 < 2 ^ (32 - bitCount) from Nat.two_pow_pos _) hf hn
    refine ⟨d', ?_, hfollows⟩
    rw [decode, hok, ok_bind, Nat.zero_mul, Nat.zero_add]
    rfl

theorem encodeAll_continues {s s' : LzmaRangeEncoder × List Nat} (hs : Steady s)
    (hw : ∀ coding ∈ codings, coding.1.Within s.2.length) (h : encodeAll s codings = .ok s') :
    Continues s s' := by
  induction codings generalizing s with
  | nil =>
    cases h
    exact .refl hs
  | cons coding codings ih =>
    obtain ⟨t, ht, h⟩ := bind_eq_ok h
    have hstep := encode_continues hs (hw coding List.mem_cons_self) ht
    refine hstep.trans (ih hstep.steady (fun c hc => ?_) h)
    rw [hstep.length_eq]
    exact hw c (List.mem_cons_of_mem _ hc)

/-- A run of the decoder over the final bytes of a run of the encoder. -/
theorem decodeAll_spec {s s' : LzmaRangeEncoder × List Nat} (hs : Steady s)
    (hw : ∀ coding ∈ codings, coding.1.Within s.2.length) (h : encodeAll s codings = .ok s')
    (hf : Final f final) (hn : s'.1.Narrows f) (hd : Follows final rest s.1 d) :
    ∃ d', decodeAll (d, s.2) (codings.map Prod.fst) =
        .ok (codings.map fun coding => coding.1.value coding.2, d', s'.2) ∧
      Follows final rest s'.1 d' := by
  induction codings generalizing s d with
  | nil =>
    cases h
    exact ⟨d, rfl, hd⟩
  | cons coding codings ih =>
    obtain ⟨t, ht, h⟩ := bind_eq_ok h
    have hstep := encode_continues hs (hw coding List.mem_cons_self) ht
    have hw' : ∀ c ∈ codings, c.1.Within t.2.length := by
      intro c hc
      rw [hstep.length_eq]
      exact hw c (List.mem_cons_of_mem _ hc)
    have hrest := encodeAll_continues hstep.steady hw' h
    obtain ⟨d₁, hok, hfollows⟩ := decode_spec hs (hw coding List.mem_cons_self) ht hf
      (hrest.narrows.trans hn) hd
    obtain ⟨d₂, hok', hfollows'⟩ := ih hstep.steady hw' h hfollows
    refine ⟨d₂, ?_, hfollows'⟩
    rw [List.map_cons, decodeAll, hok, ok_bind]
    change (decodeAll (d₁, t.2) _).bind _ = _
    rw [hok']
    rfl

theorem readCode_spec {d : LzmaRangeDecoder} (bytes : List UInt8)
    (h : d.source.unread = bytes ++ rest)
    (hcode : d.code * 256 ^ bytes.length + bigEndian bytes < 2 ^ 32) :
    ∃ d', LzmaRangeDecoder.readCode bytes.length d = .ok d' ∧ d'.range = d.range ∧
      d'.code = d.code * 256 ^ bytes.length + bigEndian bytes ∧ d'.source.unread = rest := by
  induction bytes generalizing d with
  | nil =>
    refine ⟨d, rfl, rfl, ?_, h⟩
    rw [List.length_nil, pow_zero, Nat.mul_one]
    rfl
  | cons b bytes ih =>
    have hshift : d.code * 256 ^ (b :: bytes).length + bigEndian (b :: bytes) =
        (d.code * 256 + b.toNat) * 256 ^ bytes.length + bigEndian bytes := by
      rw [List.length_cons, pow_succ, bigEndian]
      ring
    have hsmall : d.code < 2 ^ 24 := by
      have hone : 1 ≤ 256 ^ bytes.length := Nat.one_le_pow _ _ (by decide)
      have hle := Nat.mul_le_mul_left (d.code * 256 + b.toNat) hone
      rw [hshift] at hcode
      omega
    obtain ⟨d₁, hok, hrange, hcode', hunread⟩ := shiftCode_spec h hsmall
    rw [hshift, ← hcode'] at hcode ⊢
    obtain ⟨d₂, hok', hrange', hcode'', hunread'⟩ := ih hunread hcode
    refine ⟨d₂, ?_, hrange'.trans hrange, hcode'', hunread'⟩
    rw [List.length_cons, LzmaRangeDecoder.readCode, hok]
    exact hok'

/-- A new decoder follows a new encoder. -/
theorem create_spec {f : LzmaRangeEncoder} (hf : Final f final)
    (hn : ({} : LzmaRangeEncoder).Narrows f) {reader : CodecReader}
    (hr : reader.unread = final ++ rest) :
    ∃ d, LzmaRangeDecoder.create reader = .ok d ∧ Follows final rest {} d := by
  obtain ⟨shifts, hshifts, _⟩ := id hn
  have hlength := hf.length_eq
  rw [hshifts] at hlength
  change final.length = 1 + shifts + 4 at hlength
  cases final with
  | nil =>
    rw [List.length_nil] at hlength
    omega
  | cons b bytes =>
    rw [List.length_cons] at hlength
    have hsplit : b :: bytes = b :: bytes.take 4 ++ bytes.drop 4 := by
      rw [List.cons_append, List.take_append_drop]
    have htake : (bytes.take 4).length = 4 := by
      rw [List.length_take]
      omega
    have hlen : (b :: bytes.take 4).length = ({} : LzmaRangeEncoder).shifted + 4 := by
      rw [List.length_cons, htake]
      rfl
    obtain ⟨_, hhigh, _⟩ := hf.digits hn hsplit hlen
    -- The first interval has no room for a number with a first byte other than zero.
    change bigEndian (b :: bytes.take 4) < 0 + 0xffffffff at hhigh
    rw [bigEndian, htake] at hhigh
    have hzero : b.toNat = 0 := by omega
    obtain ⟨source, hbyte, hunread⟩ := CodecReader.byte_of_cons hr
    have hunread : source.unread = bytes.take 4 ++ (bytes.drop 4 ++ rest) := by
      rw [← List.append_assoc, List.take_append_drop]
      exact hunread
    obtain ⟨d, hok, hrange, hcode, hunread'⟩ := readCode_spec
      (d := { source := source }) (bytes.take 4) hunread (by
        change 0 * 256 ^ _ + _ < 2 ^ 32
        omega)
    refine ⟨d, ?_, hrange, b :: bytes.take 4, bytes.drop 4, hsplit, hunread', hlen, ?_⟩
    · rw [LzmaRangeDecoder.create, LzmaRangeDecoder.readByte, hbyte]
      change (if b.toNat ≠ 0 then _ else _) = _
      rw [if_neg (fun hne => hne hzero), ← hok, htake]
      rfl
    · have hnumber : ({} : LzmaRangeEncoder).number = 0 := by decide
      have hcode : d.code = 0 * 256 ^ (bytes.take 4).length + bigEndian (bytes.take 4) := hcode
      rw [hcode, hnumber, bigEndian, hzero, Nat.zero_mul, Nat.zero_add, Nat.zero_add]

/-- The invariant of a decoder and its models, whatever bytes it reads. -/
structure DecoderSteady (s : LzmaRangeDecoder × List Nat) : Prop where
  top_le : cTopValue ≤ s.1.range
  range_lt : s.1.range < 2 ^ 32
  reachable : ∀ p ∈ s.2, ReachableProbability p

theorem shiftCode_range {d d' : LzmaRangeDecoder} (h : d.shiftCode = .ok d') :
    d'.range = d.range := by
  obtain ⟨⟨byte, d₁⟩, hread, h⟩ := bind_eq_ok h
  cases h
  rw [LzmaRangeDecoder.readByte] at hread
  split at hread
  case h_1 => cases hread
  case h_2 =>
    cases hread
    rfl

theorem decoder_normalize_range {d d' : LzmaRangeDecoder} (h : d.normalize = .ok d')
    (hmin : 2 ^ 16 ≤ d.range) (hlt : d.range < 2 ^ 32) :
    cTopValue ≤ d'.range ∧ d'.range < 2 ^ 32 := by
  rw [LzmaRangeDecoder.normalize] at h
  split at h
  case isTrue hsmall =>
    have hsmall : d.range < 2 ^ 24 := hsmall
    have hrange := shiftCode_range h
    change d'.range = (d.range <<< 8) % 2 ^ 32 at hrange
    rw [Nat.shiftLeft_eq] at hrange
    rw [show cTopValue = 2 ^ 24 from rfl]
    omega
  case isFalse hlarge =>
    cases h
    exact ⟨Nat.le_of_not_lt hlarge, hlt⟩

theorem decodeBit_steady {d d' : LzmaRangeDecoder} (htop : cTopValue ≤ d.range)
    (hlt : d.range < 2 ^ 32) (hp : ReachableProbability p)
    (h : d.decodeBit p = .ok (bit, d', p')) :
    (cTopValue ≤ d'.range ∧ d'.range < 2 ^ 32) ∧ ReachableProbability p' ∧ bit < 2 := by
  obtain ⟨hmin, hmax⟩ := bound_bounds htop hlt hp
  rw [LzmaRangeDecoder.decodeBit] at h
  change (if d.code < bound d.range p then _ else _) = _ at h
  split at h
  case isTrue =>
    obtain ⟨d₁, hd, h⟩ := bind_eq_ok h
    cases h
    refine ⟨decoder_normalize_range hd hmin ?_, hp.adapted 0, Nat.two_pos⟩
    change bound d.range p < _
    omega
  case isFalse =>
    obtain ⟨d₁, hd, h⟩ := bind_eq_ok h
    cases h
    refine ⟨decoder_normalize_range hd ?_ ?_, hp.adapted 1, Nat.one_lt_two⟩
    · change 2 ^ 16 ≤ (d.range + 2 ^ 32 - bound d.range p) % 2 ^ 32
      omega
    · exact Nat.mod_lt _ (by decide)

theorem decodeAt_steady {s s' : LzmaRangeDecoder × List Nat} (hs : DecoderSteady s)
    (hi : index < s.2.length) (h : decodeAt index s = .ok (bit, s')) :
    DecoderSteady s' ∧ s'.2.length = s.2.length ∧ bit < 2 := by
  have hp : ReachableProbability s.2[index]! := by
    rw [getElem!_pos s.2 index hi]
    exact hs.reachable _ (List.getElem_mem hi)
  obtain ⟨⟨bit', d', p'⟩, hbit, h⟩ := bind_eq_ok h
  cases h
  obtain ⟨⟨htop, hlt⟩, hp', hb⟩ := decodeBit_steady hs.top_le hs.range_lt hp hbit
  refine ⟨⟨htop, hlt, fun p hmem => ?_⟩, List.length_set .., hb⟩
  rcases List.mem_or_eq_of_mem_set hmem with hmem | rfl
  · exact hs.reachable p hmem
  · exact hp'

theorem decodeTreeLoop_steady {s s' : LzmaRangeDecoder × List Nat} (hs : DecoderSteady s)
    (hroom : Room size left symbol) (hlen : offset + size ≤ s.2.length)
    (h : decodeTreeLoop offset left symbol s = .ok (value, s')) :
    DecoderSteady s' ∧ s'.2.length = s.2.length := by
  induction left generalizing symbol s with
  | zero =>
    cases h
    exact ⟨hs, rfl⟩
  | succ left ih =>
    obtain ⟨⟨bit, t⟩, ht, h⟩ := bind_eq_ok h
    have hlt := hroom.lt
    obtain ⟨hsteady, hlength, hb⟩ := decodeAt_steady hs (by omega) ht
    obtain ⟨hsteady', hlength'⟩ := ih hsteady (hroom.child hb) (hlength ▸ hlen) h
    exact ⟨hsteady', hlength'.trans hlength⟩

theorem decodeReverseTreeLoop_steady {s s' : LzmaRangeDecoder × List Nat} (hs : DecoderSteady s)
    (hroom : Room size left symbol) (hlen : offset + size ≤ s.2.length)
    (h : decodeReverseTreeLoop offset left index symbol result s = .ok (value, s')) :
    DecoderSteady s' ∧ s'.2.length = s.2.length := by
  induction left generalizing index symbol result s with
  | zero =>
    cases h
    exact ⟨hs, rfl⟩
  | succ left ih =>
    obtain ⟨⟨bit, t⟩, ht, h⟩ := bind_eq_ok h
    have hlt := hroom.lt
    obtain ⟨hsteady, hlength, hb⟩ := decodeAt_steady hs (by omega) ht
    obtain ⟨hsteady', hlength'⟩ := ih hsteady (hroom.child hb) (hlength ▸ hlen) h
    exact ⟨hsteady', hlength'.trans hlength⟩

theorem decodeDirectBit_steady {d d' : LzmaRangeDecoder} (htop : cTopValue ≤ d.range)
    (hlt : d.range < 2 ^ 32) (h : d.decodeDirectBit = .ok (bit, d')) :
    cTopValue ≤ d'.range ∧ d'.range < 2 ^ 32 := by
  have htop : 2 ^ 24 ≤ d.range := htop
  have hhalf : d.range >>> 1 = d.range / 2 := Nat.shiftRight_eq_div_pow ..
  have hbounds : 2 ^ 16 ≤ d.range / 2 ∧ d.range / 2 < 2 ^ 32 := by omega
  rw [LzmaRangeDecoder.decodeDirectBit, hhalf] at h
  split at h
  case isTrue =>
    obtain ⟨d₁, hd, h⟩ := bind_eq_ok h
    cases h
    exact decoder_normalize_range hd hbounds.1 hbounds.2
  case isFalse =>
    obtain ⟨d₁, hd, h⟩ := bind_eq_ok h
    cases h
    exact decoder_normalize_range hd hbounds.1 hbounds.2

theorem decodeDirect_steady {d d' : LzmaRangeDecoder} (htop : cTopValue ≤ d.range)
    (hlt : d.range < 2 ^ 32)
    (h : LzmaRangeDecoder.decodeDirect result left d = .ok (value, d')) :
    cTopValue ≤ d'.range ∧ d'.range < 2 ^ 32 := by
  induction left generalizing result d with
  | zero =>
    cases h
    exact ⟨htop, hlt⟩
  | succ left ih =>
    obtain ⟨⟨bit, d₁⟩, hd, h⟩ := bind_eq_ok h
    obtain ⟨htop', hlt'⟩ := decodeDirectBit_steady htop hlt hd
    exact ih htop' hlt' h

theorem decode_steady {s s' : LzmaRangeDecoder × List Nat} (hs : DecoderSteady s)
    (hw : request.Within s.2.length) (h : decode s request = .ok (value, s')) :
    DecoderSteady s' ∧ s'.2.length = s.2.length := by
  cases request with
  | bit index =>
    obtain ⟨hsteady, hlength, _⟩ := decodeAt_steady hs hw h
    exact ⟨hsteady, hlength⟩
  | tree span bitCount =>
    obtain ⟨_, hsize, h⟩ := bind_eq_ok h
    obtain ⟨⟨symbol, t⟩, ht, h⟩ := bind_eq_ok h
    cases h
    exact decodeTreeLoop_steady hs (requireTreeSize_ok hsize) hw ht
  | reverseTree span bitCount =>
    obtain ⟨_, hsize, h⟩ := bind_eq_ok h
    exact decodeReverseTreeLoop_steady hs (requireTreeSize_ok hsize) hw h
  | direct bitCount =>
    obtain ⟨⟨result, d⟩, hd, h⟩ := bind_eq_ok h
    cases h
    obtain ⟨htop, hlt⟩ := decodeDirect_steady hs.top_le hs.range_lt hd
    exact ⟨⟨htop, hlt, hs.reachable⟩, rfl⟩

theorem decodeAll_steady {s s' : LzmaRangeDecoder × List Nat} (hs : DecoderSteady s)
    (hw : ∀ request ∈ requests, request.Within s.2.length)
    (h : decodeAll s requests = .ok (values, s')) : DecoderSteady s' := by
  induction requests generalizing s values with
  | nil =>
    cases h
    exact hs
  | cons request requests ih =>
    obtain ⟨⟨value, t⟩, ht, h⟩ := bind_eq_ok h
    obtain ⟨⟨values', u⟩, hu, h⟩ := bind_eq_ok h
    cases h
    obtain ⟨hsteady, hlength⟩ := decode_steady hs (hw request List.mem_cons_self) ht
    refine ih hsteady (fun r hr => ?_) hu
    rw [hlength]
    exact hw r (List.mem_cons_of_mem _ hr)

theorem readCode_range {d d' : LzmaRangeDecoder}
    (h : LzmaRangeDecoder.readCode count d = .ok d') : d'.range = d.range := by
  induction count generalizing d with
  | zero =>
    cases h
    rfl
  | succ count ih =>
    obtain ⟨d₁, hd, h⟩ := bind_eq_ok h
    exact (ih h).trans (shiftCode_range hd)

theorem create_range {d : LzmaRangeDecoder} (h : LzmaRangeDecoder.create reader = .ok d) :
    d.range = cInitialRange := by
  obtain ⟨⟨byte, d₁⟩, hread, h⟩ := bind_eq_ok h
  change (if byte ≠ 0 then _ else _) = _ at h
  split at h
  case isTrue => cases h
  case isFalse =>
    rw [readCode_range h]
    rw [LzmaRangeDecoder.readByte] at hread
    split at hread
    case h_1 => cases hread
    case h_2 =>
      cases hread
      rfl

/-- Models that are in use are away from both ends. -/
theorem reachable_models {models : List Nat} (h : ∀ p ∈ models, ReachableProbability p) :
    ∀ p ∈ models, 0 < p ∧ p < cProbabilityTotal := by
  intro p hp
  obtain ⟨hlow, hhigh⟩ := (h p hp).bounds
  change 0 < p ∧ p < 2048
  omega

/-- A decoder that reads the final bytes of an encoder returns what was encoded, with the same
models. In every state that a run reaches, the ranges are normalized and the models are inside
their bounds, and a carry goes through all the pending bytes. -/
theorem decode_of_encode (models : List Nat) (hm : ∀ p ∈ models, ReachableProbability p)
    (codings : List (Request × Nat)) (hw : ∀ coding ∈ codings, coding.1.Within models.length)
    (h : encodeAll ({}, models) codings = .ok (e, models')) :
    (∀ (reader : CodecReader) (rest : List UInt8),
      reader.unread = e.finalize.output ++ rest → ∃ start d,
        LzmaRangeDecoder.create reader = .ok start ∧
        decodeAll (start, models) (codings.map Prod.fst) =
          .ok (codings.map fun coding => coding.1.value coding.2, d, models') ∧
        d.range = e.range ∧ d.isFinished = true ∧ d.source.unread = rest) ∧
    cTopValue ≤ e.range ∧ (∀ p ∈ models', 0 < p ∧ p < cProbabilityTotal) ∧
    (∀ skipped range, 0 < range → skipped + range ≤ e.range → 2 ^ 32 ≤ e.low + skipped →
      e.cache.toNat + 1 < 256 ∧ (e.part skipped range).shiftLow.output =
        e.output ++ UInt8.ofNat (e.cache.toNat + 1) :: List.replicate (e.cacheSize - 1) 0) ∧
    ∀ (reader : CodecReader) start requests values d models'',
      LzmaRangeDecoder.create reader = .ok start →
      (∀ request ∈ requests, Request.Within models.length request) →
      decodeAll (start, models) requests = .ok (values, d, models'') →
      cTopValue ≤ d.range ∧ ∀ p ∈ models'', 0 < p ∧ p < cProbabilityTotal := by
  have hstart : Steady (({} : LzmaRangeEncoder), models) := ⟨start_normal, hm⟩
  have hrun := encodeAll_continues hstart hw h
  have hnormal := hrun.steady.normal
  have hf := final_of_normal hnormal
  refine ⟨fun reader rest hr => ?_, hnormal.top_le, reachable_models hrun.steady.reachable,
    fun skipped range hpos hle hcarry => ?_,
    fun reader start requests values d models'' hcreate hw' hdecode => ?_⟩
  · obtain ⟨start, hcreate, hfollows⟩ := create_spec hf hrun.narrows hr
    obtain ⟨d, hok, hfollows'⟩ := decodeAll_spec hstart hw h hf (.refl e) hfollows
    refine ⟨start, d, hcreate, hok, hfollows'.range_eq, ?_⟩
    obtain ⟨consumed, left, hsplit, hunread, hlen, hvalue⟩ := hfollows'.digits
    have hnone : left = [] := by
      have hlength := hf.length_eq
      rw [hsplit, List.length_append] at hlength
      exact List.eq_nil_of_length_eq_zero (by omega)
    subst hnone
    rw [List.append_nil] at hsplit
    have hcode : d.code = 0 := by
      have hnumber := hf.number_eq
      rw [hsplit] at hnumber
      omega
    refine ⟨?_, hunread⟩
    rw [LzmaRangeDecoder.isFinished, hcode]
    rfl
  · have hfits := part_fits hnormal hle
    have hlow := hfits.low_le
    change e.low + skipped + range ≤ 2 ^ 33 at hlow
    have hcache := hfits.cache_lt hpos hcarry
    change e.cache.toNat < 255 at hcache
    exact ⟨by omega, shiftLow_carry hcarry (show e.low + skipped < 2 ^ 33 by omega)⟩
  · have hrange := create_range hcreate
    have hs : DecoderSteady (start, models) := by
      refine ⟨?_, ?_, hm⟩
      · change cTopValue ≤ start.range
        rw [hrange]
        decide
      · change start.range < 2 ^ 32
        rw [hrange]
        decide
    have hsteady := decodeAll_steady hs hw' hdecode
    exact ⟨hsteady.top_le, reachable_models hsteady.reachable⟩

/-- One value of every kind, with nine fresh models. -/
theorem decode_of_encode_kinds :
    ∃ e models', encodeAll ({}, List.replicate 9 cInitialProbability)
        [(.bit 0, 1), (.tree ⟨1, 8⟩ 3, 5), (.reverseTree ⟨1, 8⟩ 3, 6), (.direct 4, 9)] =
          .ok (e, models') ∧
      ∀ (reader : CodecReader) (rest : List UInt8),
        reader.unread = e.finalize.output ++ rest → ∃ start d,
          LzmaRangeDecoder.create reader = .ok start ∧
          decodeAll (start, List.replicate 9 cInitialProbability)
            [.bit 0, .tree ⟨1, 8⟩ 3, .reverseTree ⟨1, 8⟩ 3, .direct 4] =
              .ok ([1, 5, 6, 9], d, models') ∧
          d.range = e.range ∧ d.isFinished = true ∧ d.source.unread = rest := by
  have hm : ∀ p ∈ List.replicate 9 cInitialProbability, ReachableProbability p := by
    intro p hp
    rw [List.eq_of_mem_replicate hp]
    exact .initial
  refine ⟨_, _, rfl, (decode_of_encode _ hm
    [(.bit 0, 1), (.tree ⟨1, 8⟩ 3, 5), (.reverseTree ⟨1, 8⟩ 3, 6), (.direct 4, 9)] ?_ rfl).1⟩
  simp [Request.Within]

end ErbslandCore.Compression.Lzma
