import ErbslandCore.Compression.Codec

namespace ErbslandCore.Compression
open Library Mem
set_option autoImplicit true

/-- The size of the output buffer that is published at once. -/
def cOutputBufferLength : Nat := 65536

/-- Overwrite bytes from an index with as many source bytes as fit. -/
def overwrite (target : List UInt8) (index : Nat) (source : List UInt8) : List UInt8 :=
  target.take index ++ source.take (target.length - index) ++ target.drop (index + source.length)

/-- The streaming output sink: the published spans, the pending bytes and the match history. -/
structure CodecOutput where
  written : List (List UInt8) := []
  data : List UInt8 := []
  history : List UInt8
  length : Nat := 0
  maximum : ByteLength
  pending_lt : data.length < cOutputBufferLength := by decide

namespace CodecOutput

def create (history : Nat) (maximum : ByteLength) : CodecOutput :=
  { history := List.replicate history 0, maximum := maximum }

/-- Validate a complete append before accepting any of it. -/
def checkLength (o : CodecOutput) (count : Nat) : Except CodecError Unit := do
  let length ← (ByteLength.finite o.length).addedOrThrow (.finite count)
  if length.le o.maximum then return ()
  else .error (.outOfRange "Codec output exceeds its limit.")

/-- Choose a bounded append length. -/
def available (o : CodecOutput) (count : Nat) : Nat :=
  min count (cOutputBufferLength - o.data.length)

/-- Store the newest bytes in the circular history. -/
def retain (history : List UInt8) (length : Nat) (bytes : List UInt8) : List UInt8 :=
  if history.isEmpty then history
  else
    let historySize := history.length
    let retained := bytes.drop (bytes.length - min bytes.length historySize)
    let index := (length + bytes.length - retained.length) % historySize
    let first := min retained.length (historySize - index)
    overwrite (overwrite history index (retained.take first)) 0 (retained.drop first)

/-- Append a part that fits, retain it and publish a complete output buffer. -/
def appended (o : CodecOutput) (bytes : List UInt8) : CodecOutput :=
  let data := o.data ++ bytes
  if h : data.length < cOutputBufferLength then
    { o with
      data := data
      history := retain o.history o.length bytes
      length := o.length + bytes.length
      pending_lt := h }
  else
    { o with
      written := o.written ++ [data]
      data := []
      history := retain o.history o.length bytes
      length := o.length + bytes.length
      pending_lt := by decide }

/-- Append one literal. -/
def append (o : CodecOutput) (value : UInt8) : Except CodecError CodecOutput := do
  o.checkLength 1
  let history :=
    if o.history.isEmpty then o.history else o.history.set (o.length % o.history.length) value
  let data := o.data ++ [value]
  if h : data.length < cOutputBufferLength then
    return { o with data := data, history := history, length := o.length + 1, pending_lt := h }
  else
    return { o with
      written := o.written ++ [data]
      data := []
      history := history
      length := o.length + 1
      pending_lt := by decide }

theorem available_pos (o : CodecOutput) (h : 0 < count) : 0 < o.available count :=
  Nat.lt_min.mpr ⟨h, Nat.sub_pos_of_lt o.pending_lt⟩

def appendSpanLoop (o : CodecOutput) (data : List UInt8) : CodecOutput :=
  if _h : data = [] then o
  else
    let count := o.available data.length
    appendSpanLoop (o.appended (data.take count)) (data.drop count)
termination_by data.length
decreasing_by
  have hp := List.length_pos_iff.mpr _h
  have ha := o.available_pos hp
  rw [List.length_drop]
  omega

/-- Append a span in bounded batches. -/
def appendSpan (o : CodecOutput) (data : List UInt8) : Except CodecError CodecOutput := do
  o.checkLength data.length
  return o.appendSpanLoop data

theorem overwrite_length (target source : List UInt8) (hi : index ≤ target.length) :
    (overwrite target index source).length = target.length := by
  simp only [overwrite, List.length_append, List.length_take, List.length_drop]
  omega

@[simp] theorem retain_length (history : List UInt8) (length : Nat) (bytes : List UInt8) :
    (retain history length bytes).length = history.length := by
  unfold retain
  split
  case isTrue => rfl
  case isFalse h =>
    have hp : 0 < history.length := List.length_pos_iff.mpr (by simpa using h)
    have hm := Nat.mod_lt (length + bytes.length -
      (bytes.drop (bytes.length - min bytes.length history.length)).length) hp
    rw [overwrite_length _ _ (Nat.zero_le _), overwrite_length _ _ hm.le]

@[simp] theorem appended_history_length (o : CodecOutput) (bytes : List UInt8) :
    (o.appended bytes).history.length = o.history.length := by
  unfold appended
  simp only
  split <;> exact retain_length _ _ _

/-- The next part of a match: from the pending bytes where they reach back far enough. -/
def repeatedPart (o : CodecOutput) (distance count : Nat) : Except CodecError (List UInt8) :=
  let part := o.available count
  let offset := o.data.length
  if distance ≤ offset then do
    let data ← appendRepeatedOrThrow o.data (offset - distance) distance part
    return data.drop offset
  else
    let historyLength := o.history.length
    let index := (o.length - distance) % historyLength
    .ok ((o.history.drop index).take (min part (min distance (historyLength - index))))

theorem appendRepeatedOrThrow_eq {data : List UInt8} (hd : 0 < d) (hl : d ≤ data.length) :
    appendRepeatedOrThrow data (data.length - d) d n =
      .ok (data ++ cycle (data.drop (data.length - d)) n) := by
  have hc : (data.drop (data.length - d)).take d = data.drop (data.length - d) := by
    apply List.take_of_length_le
    rw [List.length_drop]
    omega
  rw [appendRepeatedOrThrow, appendRepeated_eq_cycle _ hd (by omega), hc]
  rfl

/-- Every part makes progress and fits into the pending buffer. -/
theorem repeatedPart_length {o : CodecOutput} (hd : 0 < distance)
    (hh : distance ≤ o.history.length) (hc : 0 < count)
    (h : o.repeatedPart distance count = .ok part) :
    0 < part.length ∧ part.length ≤ o.available count := by
  have ha := o.available_pos hc
  unfold repeatedPart at h
  simp only at h
  split at h
  case isTrue hle =>
    rw [appendRepeatedOrThrow_eq hd hle] at h
    cases h
    simpa using ha
  case isFalse =>
    cases h
    have hm := Nat.mod_lt (o.length - distance) (by omega : 0 < o.history.length)
    simp only [List.length_take, List.length_drop]
    omega

def appendRepeatedLoop (o : CodecOutput) (distance count : Nat) (hd : 0 < distance)
    (hh : distance ≤ o.history.length) : Except CodecError CodecOutput :=
  if _hc : count = 0 then .ok o
  else
    match _hp : o.repeatedPart distance count with
    | .error e => .error e
    | .ok part => appendRepeatedLoop (o.appended part) distance (count - part.length) hd
        (by rwa [appended_history_length])
termination_by count
decreasing_by
  have := repeatedPart_length hd hh (Nat.pos_of_ne_zero _hc) _hp
  omega

/-- Copy an overlapping match from prior output. -/
def appendRepeated (o : CodecOutput) (index count : Nat) : Except CodecError CodecOutput := do
  o.checkLength count
  if count = 0 then return o
  else
    let distance := o.length - index
    if h : o.length ≤ index ∨ o.history.length < distance then
      .error (.logic "Codec history reference is out of range.")
    else appendRepeatedLoop o distance count (by omega) (by omega)

/-- Deliver pending output. -/
def flush (o : CodecOutput) : CodecOutput :=
  if o.data.isEmpty then o
  else { o with written := o.written ++ [o.data], data := [], pending_lt := by decide }

/-- The sink has produced the given bytes and still knows the newest of them. -/
structure Holds (o : CodecOutput) (out : List UInt8) : Prop where
  produced : o.written.flatten ++ o.data = out
  length_eq : o.length = out.length
  retained : ∀ i, i < out.length → out.length ≤ i + o.history.length →
    o.history[i % o.history.length]! = out[i]!

/-- The sink accepts output of the given total length. -/
structure Admits (o : CodecOutput) (length : Nat) : Prop where
  finite : length ≤ cRawMaximum
  within : (ByteLength.finite length).le o.maximum = true

theorem Admits.mono {o : CodecOutput} (h : o.Admits n) (hm : m ≤ n) : o.Admits m := by
  obtain ⟨hf, hw⟩ := h
  refine ⟨Nat.le_trans hm hf, ?_⟩
  cases hmax : o.maximum with
  | infinite => rfl
  | finite max =>
    rw [hmax] at hw
    have hle := of_decide_eq_true hw
    exact decide_eq_true (Nat.le_trans hm hle)

theorem Admits.checkLength {o : CodecOutput} (h : o.Admits (o.length + n)) :
    o.checkLength n = .ok () := by
  rw [CodecOutput.checkLength, ByteLength.addedOrThrow, if_pos h.finite]
  simp only [bind, Except.bind, h.within, ↓reduceIte]
  rfl

theorem overwrite_getElem! (target : List UInt8) (hi : index + source.length ≤ target.length)
    (_hk : k < target.length) :
    (overwrite target index source)[k]! =
      if index ≤ k ∧ k < index + source.length then source[k - index]! else target[k]! := by
  have hs : source.take (target.length - index) = source :=
    List.take_of_length_le (by omega)
  have hl : (target.take index).length = index := by
    rw [List.length_take]
    omega
  rw [overwrite, hs, List.append_assoc]
  by_cases h₁ : index ≤ k
  · rw [getElem!_append_right _ _ (by omega), hl]
    by_cases h₂ : k < index + source.length
    · rw [if_pos ⟨h₁, h₂⟩, getElem!_append_left _ _ (by omega)]
    · rw [if_neg (by omega), getElem!_append_right _ _ (by omega), getElem!_drop]
      congr 1
      omega
  · rw [if_neg (by omega), getElem!_append_left _ _ (by omega), getElem!_take _ (by omega)]

/-- Storing bytes keeps the newest output bytes in their slots of the ring. -/
theorem retain_spec {history out : List UInt8} (bytes : List UInt8)
    (h : ∀ i, i < out.length → out.length ≤ i + history.length →
      history[i % history.length]! = out[i]!)
    (hi : i < (out ++ bytes).length) (hr : (out ++ bytes).length ≤ i + history.length) :
    (retain history out.length bytes)[i % history.length]! = (out ++ bytes)[i]! := by
  rw [List.length_append] at hi hr
  have hpos : 0 < history.length := by omega
  generalize hm : min bytes.length history.length = m
  have hretained : (bytes.drop (bytes.length - m)).length = m := by
    rw [List.length_drop]
    omega
  unfold retain
  rw [if_neg (by simpa using List.length_pos_iff.mp hpos)]
  simp only [hm, hretained]
  generalize hp : out.length + bytes.length - m = p
  have hplt := Nat.mod_lt p hpos
  have hilt := Nat.mod_lt i hpos
  generalize hf : min m (history.length - p % history.length) = first
  have hl₁ : ((bytes.drop (bytes.length - m)).take first).length = first := by
    rw [List.length_take, hretained]
    omega
  have hl₂ : ((bytes.drop (bytes.length - m)).drop first).length = m - first := by
    rw [List.length_drop, hretained]
  have hin : p % history.length + ((bytes.drop (bytes.length - m)).take first).length ≤
      history.length := by
    rw [hl₁]
    omega
  have hlen := overwrite_length history ((bytes.drop (bytes.length - m)).take first) hplt.le
  rw [overwrite_getElem! _ (by rw [hlen, hl₂]; omega) (by rw [hlen]; exact hilt),
    overwrite_getElem! _ hin hilt, hl₁, hl₂]
  by_cases hnew : p ≤ i
  · obtain ⟨t, rfl⟩ := Nat.exists_eq_add_of_le hnew
    have ht : t < m := by omega
    have hout : (out ++ bytes)[p + t]! = (bytes.drop (bytes.length - m))[t]! := by
      rw [getElem!_append_right _ _ (by omega), getElem!_drop]
      congr 1
      omega
    rw [hout]
    by_cases hft : t < first
    · have hmod : (p + t) % history.length = p % history.length + t := by
        rw [Nat.add_mod, Nat.mod_eq_of_lt (by omega : t < history.length),
          Nat.mod_eq_of_lt (by omega)]
      rw [hmod, if_neg (by omega), if_pos (by omega), getElem!_take _ (by omega)]
      congr 1
      omega
    · have hfirst : first = history.length - p % history.length := by omega
      have hmod : (p + t) % history.length = t - first := by
        rw [Nat.add_mod, Nat.mod_eq_of_lt (by omega : t < history.length),
          Nat.mod_eq_sub_mod (by omega), Nat.mod_eq_of_lt (by omega)]
        omega
      rw [hmod, if_pos (by omega), getElem!_drop]
      congr 1
      omega
  · have hmlt : m = bytes.length := by omega
    have hip : p = out.length := by omega
    rw [getElem!_append_left _ _ (by omega), ← h i (by omega) (by omega)]
    by_cases hz : m = 0
    · rw [if_neg (by omega), if_neg (by omega)]
    obtain ⟨t, rfl⟩ := Nat.exists_eq_add_of_le (Nat.le_of_not_ge hnew)
    have hmod : (i + t) % history.length =
        if i % history.length + t < history.length then i % history.length + t
        else i % history.length + t - history.length := by
      rw [Nat.add_mod, Nat.mod_eq_of_lt (by omega : t < history.length)]
      split
      case isTrue h' => exact Nat.mod_eq_of_lt h'
      case isFalse h' => rw [Nat.mod_eq_sub_mod (by omega), Nat.mod_eq_of_lt (by omega)]
    have htm : t + m ≤ history.length := by omega
    have hfm : first ≤ m := by omega
    split at hmod
    · rw [if_neg (by omega), if_neg (by omega)]
    · rw [hmod, if_neg (by omega), if_neg (by omega)]

theorem appended_holds {o : CodecOutput} (h : o.Holds out) (bytes : List UInt8) :
    (o.appended bytes).Holds (out ++ bytes) := by
  have hlen : o.length + bytes.length = (out ++ bytes).length := by
    rw [h.length_eq, List.length_append]
  have hprod : o.written.flatten ++ (o.data ++ bytes) = out ++ bytes := by
    rw [← List.append_assoc, h.produced]
  have hret : ∀ i, i < (out ++ bytes).length →
      (out ++ bytes).length ≤ i + (retain o.history o.length bytes).length →
      (retain o.history o.length bytes)[i % (retain o.history o.length bytes).length]! =
        (out ++ bytes)[i]! := by
    intro i hi hr
    rw [retain_length] at hr ⊢
    rw [h.length_eq]
    exact retain_spec bytes h.retained hi hr
  unfold appended
  simp only
  split
  case isTrue => exact ⟨hprod, hlen, hret⟩
  case isFalse => exact ⟨by simpa using hprod, hlen, hret⟩

/-- The limits and the window of a sink do not change while it produces output. -/
def SameLimits (o o' : CodecOutput) : Prop :=
  o'.maximum = o.maximum ∧ o'.history.length = o.history.length

theorem SameLimits.trans {o₁ o₂ o₃ : CodecOutput} (h : SameLimits o₁ o₂)
    (h' : SameLimits o₂ o₃) : SameLimits o₁ o₃ :=
  ⟨h'.1.trans h.1, h'.2.trans h.2⟩

theorem SameLimits.admits {o o' : CodecOutput} (h : SameLimits o o') (ha : o.Admits n) :
    o'.Admits n :=
  ⟨ha.finite, by rw [h.1]; exact ha.within⟩

theorem appended_sameLimits (o : CodecOutput) (bytes : List UInt8) :
    SameLimits o (o.appended bytes) := by
  refine ⟨?_, o.appended_history_length bytes⟩
  unfold appended
  simp only
  split <;> rfl

theorem retain_singleton (history : List UInt8) (length : Nat) (value : UInt8) :
    retain history length [value] =
      if history.isEmpty then history else history.set (length % history.length) value := by
  unfold retain
  split
  case isTrue => rfl
  case isFalse h =>
    have hp : 0 < history.length := List.length_pos_iff.mpr (by simpa using h)
    have hm := Nat.mod_lt length hp
    have h₁ : min 1 history.length = 1 := Nat.min_eq_left hp
    have h₂ : min 1 (history.length - length % history.length) = 1 := by omega
    have ht : [value].take (history.length - length % history.length) = [value] :=
      List.take_of_length_le (by rw [List.length_singleton]; omega)
    simp only [List.length_singleton, h₁, Nat.sub_self, List.drop_zero, Nat.add_sub_cancel, h₂,
      List.take_succ_cons, List.take_zero, List.drop_succ_cons, overwrite, ht, List.take_nil,
      List.length_nil, List.nil_append, Nat.zero_add]
    rw [List.set_eq_take_append_cons_drop, if_pos hm]
    simp

/-- Appending one byte is appending a part of length one. -/
theorem append_eq {o : CodecOutput} (ha : o.Admits (o.length + 1)) (value : UInt8) :
    o.append value = .ok (o.appended [value]) := by
  rw [append, ha.checkLength]
  simp only [bind, Except.bind, appended, ← retain_singleton, List.length_append,
    List.length_singleton]
  split
  case isTrue => rfl
  case isFalse => rfl

theorem appendSpanLoop_spec (o : CodecOutput) (data : List UInt8) (h : o.Holds out) :
    (o.appendSpanLoop data).Holds (out ++ data) ∧ SameLimits o (o.appendSpanLoop data) := by
  induction hn : data.length using Nat.strong_induction_on generalizing o out data with
  | _ n ih =>
    rw [appendSpanLoop]
    by_cases hd : data = []
    · rw [dif_pos hd, hd, List.append_nil]
      exact ⟨h, rfl, rfl⟩
    · rw [dif_neg hd]
      have hp := List.length_pos_iff.mpr hd
      have ha := o.available_pos hp
      obtain ⟨ih₁, ih₂⟩ := ih _ (by rw [List.length_drop]; omega) _
        (data.drop (o.available data.length))
        (appended_holds h (data.take (o.available data.length))) rfl
      rw [List.append_assoc, List.take_append_drop] at ih₁
      exact ⟨ih₁, (o.appended_sameLimits _).trans ih₂⟩

/-- Appending a span appends its bytes, however they fill the output buffer. -/
theorem Holds.appendSpan {o : CodecOutput} (h : o.Holds out) (data : List UInt8)
    (ha : o.Admits (out.length + data.length)) :
    ∃ o', o.appendSpan data = .ok o' ∧ o'.Holds (out ++ data) ∧ SameLimits o o' := by
  obtain ⟨h₁, h₂⟩ := o.appendSpanLoop_spec data h
  refine ⟨_, ?_, h₁, h₂⟩
  rw [CodecOutput.appendSpan, Admits.checkLength (by rwa [h.length_eq])]
  rfl

theorem Holds.append {o : CodecOutput} (h : o.Holds out) (value : UInt8)
    (ha : o.Admits (out.length + 1)) :
    ∃ o', o.append value = .ok o' ∧ o'.Holds (out ++ [value]) ∧ SameLimits o o' :=
  ⟨_, append_eq (by rwa [h.length_eq]) value, appended_holds h _, o.appended_sameLimits _⟩

/-- A part of a match repeats the newest `distance` bytes of the output. -/
theorem Holds.repeatedPart {o : CodecOutput} (h : o.Holds out) (hd : 0 < distance)
    (ho : distance ≤ out.length) (hh : distance ≤ o.history.length) (count : Nat) :
    ∃ n, o.repeatedPart distance count =
      .ok (cycle (out.drop (out.length - distance)) n) := by
  have hpl := congrArg List.length h.produced
  rw [List.length_append] at hpl
  rw [CodecOutput.repeatedPart]
  simp only
  split
  case isTrue hle =>
    refine ⟨o.available count, ?_⟩
    have hdrop : o.data.drop (o.data.length - distance) = out.drop (out.length - distance) := by
      have ho' : out.length - distance =
          o.written.flatten.length + (o.data.length - distance) := by omega
      rw [ho', ← h.produced, List.drop_length_add_append]
    rw [appendRepeatedOrThrow_eq hd hle, hdrop]
    simp only [bind, Except.bind, pure, Except.pure, List.drop_left]
  case isFalse =>
    have hidx := Nat.mod_lt (o.length - distance) (by omega : 0 < o.history.length)
    have hoi := h.length_eq
    generalize hindex : (o.length - distance) % o.history.length = index at *
    generalize hn : min (o.available count) (min distance (o.history.length - index)) = n
    refine ⟨n, ?_⟩
    have hlast : (out.drop (out.length - distance)).length = distance := by
      rw [List.length_drop]
      omega
    rw [cycle_of_le _ (by omega)]
    congr 1
    apply ext_getElem!
    · simp only [List.length_take, List.length_drop]
      omega
    intro i hi
    rw [List.length_take, List.length_drop] at hi
    have hmod : (out.length - distance + i) % o.history.length = index + i := by
      rw [Nat.add_mod, ← hoi, hindex, Nat.mod_eq_of_lt (by omega : i < o.history.length),
        Nat.mod_eq_of_lt (by omega)]
    rw [getElem!_take _ (by omega), getElem!_take _ (by omega), getElem!_drop, getElem!_drop,
      ← h.retained _ (by omega) (by omega), hmod]

theorem Holds.appendRepeatedLoop {o : CodecOutput} (h : o.Holds out) (hd : 0 < distance)
    (ho : distance ≤ out.length) (hh : distance ≤ o.history.length) (count : Nat) :
    ∃ o', o.appendRepeatedLoop distance count hd hh = .ok o' ∧
      o'.Holds (out ++ cycle (out.drop (out.length - distance)) count) ∧ SameLimits o o' := by
  induction count using Nat.strong_induction_on generalizing o out with
  | _ count ih =>
    rw [CodecOutput.appendRepeatedLoop]
    by_cases hc : count = 0
    · rw [dif_pos hc, hc]
      exact ⟨o, rfl, by simpa using h, rfl, rfl⟩
    · rw [dif_neg hc]
      obtain ⟨n, hp⟩ := h.repeatedPart hd ho hh count
      have hn := repeatedPart_length hd hh (Nat.pos_of_ne_zero hc) hp
      rw [cycle_length] at hn
      have hnc : n ≤ count := Nat.le_trans hn.2 (Nat.min_le_left _ _)
      have ho' : (out ++ cycle (out.drop (out.length - distance)) n).length = out.length + n := by
        simp
      obtain ⟨o', hl, hh', hs⟩ := ih (count - n) (by omega)
        (appended_holds h (cycle (out.drop (out.length - distance)) n)) (by omega)
        (by rwa [appended_history_length])
      refine ⟨o', ?_, ?_, (o.appended_sameLimits _).trans hs⟩
      · split
        case h_1 e he => rw [hp] at he; cases he
        case h_2 part hpart =>
          rw [hp] at hpart
          cases hpart
          simpa only [cycle_length] using hl
      · have hlast : (out ++ cycle (out.drop (out.length - distance)) n).drop
            (out.length + n - distance) = (out.drop (out.length - distance) ++
              cycle (out.drop (out.length - distance)) n).drop n := by
          have hsplit := List.take_append_drop (out.length - distance) out
          have hl : out.length + n - distance =
              (out.take (out.length - distance)).length + n := by
            rw [List.length_take]
            omega
          rw [hl]
          conv_lhs => rw [← hsplit, List.append_assoc]
          rw [hsplit, List.drop_length_add_append]
        rw [ho', hlast, List.append_assoc, cycle_add, Nat.add_sub_cancel' hnc] at hh'
        exact hh'

/-- A copied match appends the endless repetition of the newest `distance` bytes. -/
theorem Holds.appendRepeated {o : CodecOutput} (h : o.Holds out) (hd : 0 < distance)
    (ho : distance ≤ out.length) (hh : distance ≤ o.history.length) (count : Nat)
    (ha : o.Admits (out.length + count)) :
    ∃ o', o.appendRepeated (out.length - distance) count = .ok o' ∧
      o'.Holds (out ++ cycle (out.drop (out.length - distance)) count) ∧ SameLimits o o' := by
  rw [CodecOutput.appendRepeated, Admits.checkLength (by rwa [h.length_eq])]
  simp only [bind, Except.bind]
  have hdist : o.length - (out.length - distance) = distance := by
    rw [h.length_eq]
    omega
  split
  case isTrue hc =>
    rw [hc]
    exact ⟨o, rfl, by simpa using h, rfl, rfl⟩
  case isFalse hc =>
    rw [dif_neg (by rw [hdist, h.length_eq]; omega)]
    simp only [hdist]
    exact h.appendRepeatedLoop hd ho hh count

theorem Holds.flush {o : CodecOutput} (h : o.Holds out) : o.flush.written.flatten = out := by
  unfold CodecOutput.flush
  split
  case isTrue hd => simpa [List.isEmpty_iff.mp hd] using h.produced
  case isFalse => simpa using h.produced

theorem create_holds (history : Nat) (maximum : ByteLength) : (create history maximum).Holds [] :=
  ⟨rfl, rfl, fun i hi => absurd hi (Nat.not_lt_zero i)⟩

end CodecOutput
end ErbslandCore.Compression
