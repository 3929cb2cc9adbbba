import ErbslandCore.Compression.CodecOutput
import ErbslandCore.Library.Machine

namespace ErbslandCore.Compression
open Library Mem Machine
set_option autoImplicit true

/-- The operations of the output sink. -/
inductive OutputRequest where
  | append (value : UInt8)
  | appendRun (value : UInt8) (count : Nat)
  | appendSpan (data : List UInt8)
  | appendRepeated (index : Nat) (count : Nat)
  | flush
  deriving DecidableEq

/-- The state after an operation: the new one, or the old one when it fails. -/
def commit (s : σ) : Except CodecError σ → Except CodecError Unit × σ
  | .ok s' => (.ok (), s')
  | .error e => (.error e, s)

namespace CodecOutput

def appendRunLoop (o : CodecOutput) (value : UInt8) (count : Nat) : CodecOutput :=
  if _h : count = 0 then o
  else
    let part := o.available count
    appendRunLoop (o.appended (List.replicate part value)) value (count - part)
termination_by count
decreasing_by
  have ha := o.available_pos (Nat.pos_of_ne_zero _h)
  omega

/-- Append a repeated byte while enforcing the total output limit before writing. -/
def appendRun (o : CodecOutput) (value : UInt8) (count : Nat) : Except CodecError CodecOutput :=
  if count = 1 then o.append value
  else do
    o.checkLength count
    return o.appendRunLoop value count

/-- Read a retained output byte. -/
def getOrThrow (o : CodecOutput) (index : Nat) : Except CodecError UInt8 :=
  if o.length ≤ index ∨ o.history.length < o.length - index then
    .error (.logic "Codec history reference is out of range.")
  else .ok o.history[index % o.history.length]!

def perform (o : CodecOutput) : OutputRequest → Except CodecError Unit × CodecOutput
  | .append value => commit o (o.append value)
  | .appendRun value count => commit o (o.appendRun value count)
  | .appendSpan data => commit o (o.appendSpan data)
  | .appendRepeated index count => commit o (o.appendRepeated index count)
  | .flush => (.ok (), o.flush)

end CodecOutput

/-- All output as one list, with a limit and the length that references reach back. -/
structure OutputList where
  history : Nat
  maximum : ByteLength
  bytes : List UInt8 := []
  deriving DecidableEq

namespace OutputList

/-- An append of so many bytes keeps to the limits. -/
def check (o : OutputList) (count : Nat) : Except CodecError Unit :=
  if cRawMaximum < o.bytes.length + count then
    .error (.overflow "Length addition would exceed finite length bounds")
  else match o.maximum with
    | .infinite => .ok ()
    | .finite limit =>
      if limit < o.bytes.length + count then
        .error (.outOfRange "Codec output exceeds its limit.")
      else .ok ()

def append (o : OutputList) (data : List UInt8) : Except CodecError OutputList := do
  o.check data.length
  return { o with bytes := o.bytes ++ data }

/-- Copy byte after byte from the distance between the index and the end. -/
def appendRepeated (o : OutputList) (index count : Nat) : Except CodecError OutputList := do
  o.check count
  if count = 0 then return o
  else if o.bytes.length ≤ index ∨ o.history < o.bytes.length - index then
    .error (.logic "Codec history reference is out of range.")
  else return { o with bytes := copyBack (o.bytes.length - index) count o.bytes }

def perform (o : OutputList) : OutputRequest → Except CodecError Unit × OutputList
  | .append value => commit o (o.append [value])
  | .appendRun value count => commit o (o.append (List.replicate count value))
  | .appendSpan data => commit o (o.append data)
  | .appendRepeated index count => commit o (o.appendRepeated index count)
  | .flush => (.ok (), o)

/-- The limits do not change. -/
def SameLimits (o o' : OutputList) : Prop := o'.history = o.history ∧ o'.maximum = o.maximum

theorem commit_sameLimits {o : OutputList} {result : Except CodecError OutputList}
    (h : ∀ o', result = .ok o' → o.SameLimits o') : o.SameLimits (commit o result).2 := by
  cases result with
  | ok o' => exact h o' rfl
  | error e => exact ⟨rfl, rfl⟩

theorem append_sameLimits {o o' : OutputList} (h : o.append data = .ok o') : o.SameLimits o' := by
  obtain ⟨_, _, h⟩ := bind_eq_ok h
  cases h
  exact ⟨rfl, rfl⟩

theorem appendRepeated_sameLimits {o o' : OutputList}
    (h : o.appendRepeated index count = .ok o') : o.SameLimits o' := by
  obtain ⟨_, _, h⟩ := bind_eq_ok h
  split at h
  case isTrue => cases h; exact ⟨rfl, rfl⟩
  case isFalse =>
    split at h
    case isTrue => cases h
    case isFalse => cases h; exact ⟨rfl, rfl⟩

theorem perform_sameLimits (o : OutputList) (request : OutputRequest) :
    o.SameLimits (o.perform request).2 := by
  cases request with
  | append value => exact commit_sameLimits fun _ => append_sameLimits
  | appendRun value count => exact commit_sameLimits fun _ => append_sameLimits
  | appendSpan data => exact commit_sameLimits fun _ => append_sameLimits
  | appendRepeated index count => exact commit_sameLimits fun _ => appendRepeated_sameLimits
  | flush => exact ⟨rfl, rfl⟩

/-- The output is within its limit. -/
def Bounded (o : OutputList) : Prop := (ByteLength.finite o.bytes.length).le o.maximum = true

end OutputList

namespace CodecOutput

/-- The sink has produced the listed output within its limits and still knows the newest of it. -/
structure Refines (o : CodecOutput) (l : OutputList) : Prop where
  holds : o.Holds l.bytes
  maximum_eq : o.maximum = l.maximum
  history_eq : o.history.length = l.history
  bounded : l.Bounded

theorem Refines.checkLength {o : CodecOutput} (h : o.Refines l) (count : Nat) :
    o.checkLength count = l.check count := by
  rw [CodecOutput.checkLength, OutputList.check, h.holds.length_eq, h.maximum_eq]
  by_cases hc : l.bytes.length + count ≤ cRawMaximum
  · rw [ByteLength.addedOrThrow, if_pos hc, if_neg (Nat.not_lt.mpr hc), ok_bind]
    cases l.maximum with
    | infinite => rfl
    | finite limit =>
      by_cases hl : l.bytes.length + count ≤ limit
      · simp only [ByteLength.le, hl, Nat.not_lt.mpr hl, decide_true, ↓reduceIte]
        rfl
      · simp only [ByteLength.le, hl, Nat.lt_of_not_ge hl, decide_false, Bool.false_eq_true,
          ↓reduceIte]
  · rw [ByteLength.addedOrThrow, if_neg hc, if_pos (Nat.lt_of_not_ge hc)]
    rfl

/-- What passes the check is admitted. -/
theorem Refines.admits {o : CodecOutput} (h : o.Refines l) (hc : l.check count = .ok ()) :
    o.Admits (l.bytes.length + count) := by
  rw [OutputList.check] at hc
  split at hc
  case isTrue => cases hc
  case isFalse hn =>
    refine ⟨Nat.le_of_not_gt hn, ?_⟩
    rw [h.maximum_eq]
    split at hc
    case h_1 hm => rw [hm]; rfl
    case h_2 limit hm =>
      split at hc
      case isTrue => cases hc
      case isFalse hl =>
        rw [hm]
        exact decide_eq_true (Nat.le_of_not_gt hl)

theorem Refines.extend {o o' : CodecOutput} {data : List UInt8} (h : o.Refines l)
    (hc : l.check count = .ok ()) (ho : o'.Holds (l.bytes ++ data)) (hs : SameLimits o o') (hl : data.length = count) :
    o'.Refines { l with bytes := l.bytes ++ data } := by
  refine ⟨ho, hs.1.trans h.maximum_eq, hs.2.trans h.history_eq, ?_⟩
  have ha := (h.admits hc).within
  rw [h.maximum_eq, ← hl, ← List.length_append] at ha
  exact ha

theorem Refines.append {o : CodecOutput} (h : o.Refines l) (value : UInt8)
    (hc : l.check 1 = .ok ()) :
    ∃ o', o.append value = .ok o' ∧ o'.Refines { l with bytes := l.bytes ++ [value] } := by
  obtain ⟨o', ho, hh, hs⟩ := h.holds.append value (h.admits hc)
  exact ⟨o', ho, h.extend hc hh hs rfl⟩

theorem append_error {o : CodecOutput} (h : o.checkLength 1 = .error e) (value : UInt8) :
    o.append value = .error e := by
  rw [CodecOutput.append, h]
  rfl

/-- A run appends its byte as often as it says, however it fills the output buffer. -/
theorem appendRunLoop_spec (o : CodecOutput) (value : UInt8) (count : Nat) (h : o.Holds out) :
    (o.appendRunLoop value count).Holds (out ++ List.replicate count value) ∧
      SameLimits o (o.appendRunLoop value count) := by
  induction count using Nat.strong_induction_on generalizing o out with
  | _ count ih =>
    rw [appendRunLoop]
    by_cases hc : count = 0
    · rw [dif_pos hc, hc, List.replicate_zero, List.append_nil]
      exact ⟨h, rfl, rfl⟩
    · rw [dif_neg hc]
      have ha := o.available_pos (Nat.pos_of_ne_zero hc)
      have hle : o.available count ≤ count := Nat.min_le_left _ _
      obtain ⟨ih₁, ih₂⟩ := ih (count - o.available count) (by omega) _
        (appended_holds h (List.replicate (o.available count) value))
      rw [List.append_assoc, List.replicate_append_replicate, Nat.add_sub_cancel' hle] at ih₁
      exact ⟨ih₁, (o.appended_sameLimits _).trans ih₂⟩

theorem Refines.commit_append {o : CodecOutput} (h : o.Refines l)
    {result : Except CodecError CodecOutput} (data : List UInt8)
    (hok : l.check data.length = .ok () →
      ∃ o', result = .ok o' ∧ o'.Refines { l with bytes := l.bytes ++ data })
    (herror : ∀ e, l.check data.length = .error e → result = .error e) :
    (commit o result).1 = (commit l (l.append data)).1 ∧
      (commit o result).2.Refines (commit l (l.append data)).2 := by
  rw [OutputList.append]
  cases hc : l.check data.length with
  | error e =>
    rw [herror e hc]
    exact ⟨rfl, h⟩
  | ok =>
    obtain ⟨o', hr, ho'⟩ := hok hc
    rw [hr]
    exact ⟨rfl, ho'⟩

theorem Refines.appendRun {o : CodecOutput} (h : o.Refines l) (value : UInt8) (count : Nat)
    (hc : l.check count = .ok ()) :
    ∃ o', o.appendRun value count = .ok o' ∧
      o'.Refines { l with bytes := l.bytes ++ List.replicate count value } := by
  rw [CodecOutput.appendRun]
  by_cases hone : count = 1
  · rw [hone] at hc ⊢
    exact h.append value hc
  · obtain ⟨hh, hs⟩ := o.appendRunLoop_spec value count h.holds
    rw [if_neg hone, h.checkLength, hc]
    exact ⟨_, rfl, h.extend hc hh hs List.length_replicate⟩

theorem appendRun_error {o : CodecOutput} (h : o.checkLength count = .error e) (value : UInt8) :
    o.appendRun value count = .error e := by
  rw [appendRun]
  by_cases hone : count = 1
  · rw [if_pos hone]
    rw [hone] at h
    exact append_error h value
  · rw [if_neg hone, h]
    rfl

theorem Refines.commit_appendRepeated {o : CodecOutput} (h : o.Refines l) (index count : Nat) :
    (commit o (o.appendRepeated index count)).1 =
        (commit l (l.appendRepeated index count)).1 ∧
      (commit o (o.appendRepeated index count)).2.Refines
        (commit l (l.appendRepeated index count)).2 := by
  cases hc : l.check count with
  | error e =>
    rw [CodecOutput.appendRepeated, OutputList.appendRepeated, h.checkLength, hc]
    exact ⟨rfl, h⟩
  | ok =>
    by_cases hrange : l.bytes.length ≤ index ∨ l.history < l.bytes.length - index
    · rw [CodecOutput.appendRepeated, OutputList.appendRepeated, h.checkLength, hc, ok_bind,
        ok_bind]
      by_cases hz : count = 0
      · rw [if_pos hz, if_pos hz]
        exact ⟨rfl, h⟩
      · rw [if_neg hz, if_neg hz, if_pos hrange,
          dif_pos (by rwa [h.holds.length_eq, h.history_eq])]
        exact ⟨rfl, h⟩
    · obtain ⟨o', ho, hh, hs⟩ := h.holds.appendRepeated
        (show 0 < l.bytes.length - index by omega) (Nat.sub_le _ _)
        (by rw [h.history_eq]; omega) count (h.admits hc)
      have hrefines := h.extend hc hh hs (cycle_length _ _)
      rw [← copyBack_eq_cycle (Nat.sub_le _ _)] at hrefines
      rw [Nat.sub_sub_self (by omega)] at ho
      rw [ho, OutputList.appendRepeated, hc, ok_bind]
      by_cases hz : count = 0
      · rw [if_pos hz]
        rw [hz] at hrefines
        exact ⟨rfl, hrefines⟩
      · rw [if_neg hz, if_neg hrange]
        exact ⟨rfl, hrefines⟩

theorem Refines.flush {o : CodecOutput} (h : o.Refines l) : o.flush.Refines l := by
  have hproduced := h.holds.flush
  unfold CodecOutput.flush at hproduced ⊢
  split at hproduced
  case isTrue hd =>
    rw [if_pos hd]
    exact h
  case isFalse hd =>
    rw [if_neg hd]
    exact ⟨⟨(List.append_nil _).trans hproduced, h.holds.length_eq, h.holds.retained⟩,
      h.maximum_eq, h.history_eq, h.bounded⟩

/-- Each operation does to the output what it does to the list. -/
theorem perform_refines {o : CodecOutput} (h : o.Refines l) (request : OutputRequest) :
    (o.perform request).1 = (l.perform request).1 ∧
      (o.perform request).2.Refines (l.perform request).2 := by
  cases request with
  | append value =>
    exact h.commit_append [value] (h.append value)
      fun e he => append_error ((h.checkLength 1).trans he) value
  | appendRun value count =>
    apply h.commit_append (List.replicate count value)
    · intro hc
      rw [List.length_replicate] at hc
      exact h.appendRun value count hc
    · intro e he
      rw [List.length_replicate] at he
      exact appendRun_error ((h.checkLength count).trans he) value
  | appendSpan data =>
    apply h.commit_append data
    · intro hc
      obtain ⟨o', ho, hh, hs⟩ := h.holds.appendSpan data (h.admits hc)
      exact ⟨o', ho, h.extend hc hh hs rfl⟩
    · intro e he
      rw [CodecOutput.appendSpan, h.checkLength, he]
      rfl
  | appendRepeated index count => exact h.commit_appendRepeated index count
  | flush => exact ⟨rfl, h.flush⟩

/-- The ring answers for exactly the newest bytes of the list. -/
theorem Refines.getOrThrow {o : CodecOutput} (h : o.Refines l) (index : Nat) :
    o.getOrThrow index =
      if index < l.bytes.length ∧ l.bytes.length ≤ index + l.history then .ok l.bytes[index]!
      else .error (.logic "Codec history reference is out of range.") := by
  rw [CodecOutput.getOrThrow, h.holds.length_eq, h.history_eq]
  split
  case isTrue hout => rw [if_neg (by omega)]
  case isFalse hin =>
    have hretained := h.holds.retained index (by omega) (by rw [h.history_eq]; omega)
    rw [h.history_eq] at hretained
    rw [if_pos (by omega), hretained]

/-- The sink delivers what the list semantics says, in every state of every run. The ring holds
the newest bytes, and the output stays within its limit. -/
theorem run_is_list_semantics (history : Nat) (maximum : ByteLength)
    (requests : List OutputRequest) :
    ∃ o l, after perform (create history maximum) requests = o ∧
      after OutputList.perform { history := history, maximum := maximum } requests = l ∧
      responses perform (create history maximum) requests =
        responses OutputList.perform { history := history, maximum := maximum } requests ∧
      o.written.flatten ++ o.data = l.bytes ∧ o.flush.written.flatten = l.bytes ∧
      o.length = l.bytes.length ∧ o.history.length = history ∧
      (∀ i, i < min l.bytes.length history →
        o.history[(l.bytes.length - 1 - i) % history]! = l.bytes[l.bytes.length - 1 - i]!) ∧
      (∀ index, o.getOrThrow index =
        if index < l.bytes.length ∧ l.bytes.length ≤ index + history then .ok l.bytes[index]!
        else .error (.logic "Codec history reference is out of range.")) ∧
      (ByteLength.finite o.written.flatten.length).le maximum = true ∧
      (ByteLength.finite l.bytes.length).le maximum = true := by
  generalize hl₀ : OutputList.mk history maximum [] = l₀
  have hstart : (create history maximum).Refines l₀ ∧
      OutputList.SameLimits ⟨history, maximum, []⟩ l₀ := by
    subst hl₀
    refine ⟨⟨create_holds history maximum, rfl, List.length_replicate, ?_⟩, rfl, rfl⟩
    cases maximum with
    | infinite => rfl
    | finite limit => exact decide_eq_true (Nat.zero_le limit)
  have hstep (o : CodecOutput) (l : OutputList) (request : OutputRequest)
      (h : o.Refines l ∧ OutputList.SameLimits ⟨history, maximum, []⟩ l) :
      (o.perform request).1 = (l.perform request).1 ∧
        ((o.perform request).2.Refines (l.perform request).2 ∧
          OutputList.SameLimits ⟨history, maximum, []⟩ (l.perform request).2) := by
    obtain ⟨hanswer, hnext⟩ := perform_refines h.1 request
    obtain ⟨hh, hm⟩ := l.perform_sameLimits request
    exact ⟨hanswer, hnext, hh.trans h.2.1, hm.trans h.2.2⟩
  obtain ⟨h, hhistory, hmaximum⟩ := after_simulation hstep hstart requests
  generalize ho : after perform (create history maximum) requests = o at *
  generalize hl : after OutputList.perform l₀ requests = l at *
  have hbounded := h.bounded
  rw [OutputList.Bounded, hmaximum] at hbounded
  have hlength : o.history.length = history := h.history_eq.trans hhistory
  refine ⟨o, l, rfl, rfl, responses_simulation hstep hstart requests, h.holds.produced,
    h.holds.flush, h.holds.length_eq, hlength, fun i hi => ?_, fun index => ?_, ?_, hbounded⟩
  · have hretained := h.holds.retained (l.bytes.length - 1 - i) (by omega)
      (by rw [hlength]; omega)
    rwa [hlength] at hretained
  · have hget := h.getOrThrow index
    rwa [hhistory] at hget
  · cases maximum with
    | infinite => rfl
    | finite limit =>
      have hle := of_decide_eq_true hbounded
      have hp := congrArg List.length h.holds.produced
      rw [List.length_append] at hp
      exact decide_eq_true (by omega)

/-- A run of three bytes, a copy that is longer than its distance, and one that is too much. -/
example : OutputList.bytes (after OutputList.perform { history := 4, maximum := .finite 8 }
    [.appendSpan [1, 2, 3], .appendRepeated 1 5, .appendRepeated 7 1]) =
      [1, 2, 3, 2, 3, 2, 3, 2] := by
  decide

end CodecOutput
end ErbslandCore.Compression
