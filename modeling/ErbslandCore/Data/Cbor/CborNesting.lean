import ErbslandCore.Data.Cbor.CborRoundTrip
import ErbslandCore.Data.Cbor.CborTermination

namespace ErbslandCore.Data.Cbor
open Library Mem Text
set_option autoImplicit true

variable (clock : Clock) (o : CborParseOptions)

/-- A call of `readValue`: the parser and the depth that it receives. -/
abbrev Activation := CborCodec × Nat

/-- The nested activations; the one that is watched ends with a mark that no other ends with. -/
def watched (callee : Activation) : ValueReader clock := fun s depth =>
  if (s, depth) = callee then .error .outOfFuel
  else readValue clock o (s.reader.unread.length + 1) s depth

/-- The first activation calls the second one while it runs. -/
def Activates (caller callee : Activation) : Prop :=
  activation o (watched clock o callee) caller.1 caller.2 = .error .outOfFuel

/-- The activations that are open at some moment while a block is decoded, the innermost first. -/
inductive Activations (block : ByteBlock) : List Activation → Prop where
  | root (h : block.bytes.length ≤ o.maximumInputLength) :
    Activations block [({ reader := { unread := block.bytes } }, 0)]
  | nested (h : Activations block (caller :: callers))
    (hcall : Activates clock o caller callee) : Activations block (callee :: caller :: callers)

/-- The major type of the value that an activation reads. -/
def majorType (a : Activation) : Nat := a.1.reader.peekByte.toNat >>> 5

variable {clock o}

variable (clock o) in
theorem watched_progress (callee : Activation) :
    Progress (watched clock o callee) callee.1.reader.unread.length := by
  intro s depth hs
  have hne : ¬ (s, depth) = callee := by
    rintro rfl
    exact Nat.lt_irrefl _ hs
  rw [watched, if_neg hne]
  exact readValue_progress o _ s depth (Nat.lt_succ_self _)

theorem readItems_depth (read : ValueReader clock) (depth count fuel i : Nat) (s : CborCodec) :
    readItems read depth count fuel s i =
      readItems (fun s _ => read s (depth + 1)) depth count fuel s i := by
  induction fuel generalizing s i with
  | zero => rfl
  | succ fuel ih =>
    rw [readItems, readItems]
    simp only [ih]

theorem readEntries_depth (read : ValueReader clock) (depth count fuel i : Nat) (s : CborCodec)
    (map : StringMap (CborValue clock.Timestamp)) (previous : List UInt8) :
    readEntries o read depth count fuel s i map previous =
      readEntries o (fun s _ => read s (depth + 1)) depth count fuel s i map previous := by
  induction fuel generalizing s i map previous with
  | zero => rfl
  | succ fuel ih =>
    rw [readEntries, readEntries]
    simp only [ih]

variable (clock o) in
theorem watched_depth (bound : Nat) (h : callee.2 ≠ depth) :
    Progress (fun s _ => watched clock o callee s depth) bound := by
  intro s _ _
  have hne : ¬ (s, depth) = callee := by
    rintro rfl
    exact h rfl
  simp only [watched, if_neg hne]
  exact readValue_progress o _ s depth (Nat.lt_succ_self _)

theorem Takes.ne_outOfFuel {x : Except DataError (α × CborCodec)} (h : Takes count s x) :
    x ≠ .error .outOfFuel := fun hx => h.of_eq_error hx rfl

/-- An activation calls with less input than it received. -/
theorem Activates.unread_lt (h : Activates clock o caller callee) :
    callee.1.reader.unread.length < caller.1.reader.unread.length := by
  by_contra hle
  have hprogress := activation_progress o (watched_progress clock o callee)
  have htakes := hprogress caller.1 caller.2 (Nat.lt_succ_of_le (Nat.not_lt.mp hle))
  exact htakes.ne_outOfFuel h

/-- The call happens in the reader of the major type. -/
theorem Activates.readMajor (h : Activates clock o caller callee) : ∃ s additional,
    readMajor o (watched clock o callee) s (majorType caller) additional caller.2 =
      .error .outOfFuel := by
  obtain ⟨s, depth⟩ := caller
  rw [Activates] at h
  by_cases hend : s.reader.isAtEnd = true ∨ s.valueCount ≥ o.maximumValueCount
  · rw [activation, if_pos hend] at h
    cases h
  · rw [not_or, Nat.not_le] at hend
    cases hr : s.reader.unread with
    | nil => exact absurd (by rw [ByteReader.isAtEnd, hr]; rfl) hend.1
    | cons byte rest =>
      obtain ⟨hbyte, hmajor, hadditional⟩ := initialByte_of_parts byte
      have hread : s.reader.unread =
          initialByte (byte.toNat >>> 5) (byte.toNat &&& 31) :: rest := by rw [hbyte, hr]
      have hpeek : majorType (s, depth) = byte.toNat >>> 5 := by
        rw [majorType, ByteReader.peekByte, hr]
        rfl
      rw [hpeek]
      refine ⟨s.after 1 1 rest, byte.toNat &&& 31, ?_⟩
      rw [← h]
      exact (activation_initial hmajor hadditional hread hend.2).symm

theorem readArray_depth (read : ValueReader clock) (s : CborCodec) (additional depth : Nat) :
    readArray o read s additional depth =
      readArray o (fun s _ => read s (depth + 1)) s additional depth := by
  rw [readArray, readArray]
  congr 2
  funext r
  simp only [readItems_depth read]

theorem readArray_call (h : readArray o (watched clock o callee) s additional depth =
    .error .outOfFuel) : depth < o.maximumNesting ∧ callee.2 = depth + 1 := by
  constructor
  · by_contra hnesting
    rw [readArray, if_pos (Nat.not_lt.mp hnesting)] at h
    cases h
  · by_contra hne
    rw [readArray_depth] at h
    have hprogress := watched_depth clock o (s.reader.unread.length + 1) hne
    have htakes := readArray_takes o hprogress s additional depth (Nat.lt_succ_self _)
    exact htakes.ne_outOfFuel h

theorem readMap_depth (read : ValueReader clock) (s : CborCodec) (additional depth : Nat) :
    readMap o read s additional depth =
      readMap o (fun s _ => read s (depth + 1)) s additional depth := by
  rw [readMap, readMap]
  congr 2
  funext r
  simp only [readEntries_depth read]

theorem readMap_call (h : readMap o (watched clock o callee) s additional depth =
    .error .outOfFuel) : depth < o.maximumNesting ∧ callee.2 = depth + 1 := by
  constructor
  · by_contra hnesting
    rw [readMap, if_pos (Nat.not_lt.mp hnesting)] at h
    cases h
  · by_contra hne
    rw [readMap_depth] at h
    have hprogress := watched_depth clock o (s.reader.unread.length + 1) hne
    have htakes := readMap_takes o hprogress s additional depth (Nat.lt_succ_self _)
    exact htakes.ne_outOfFuel h

theorem readTag_call (h : readTag o (watched clock o callee) s additional depth =
    .error .outOfFuel) : callee.2 = depth := by
  by_contra hne
  have hprogress := watched_depth clock o (s.reader.unread.length + 1) hne
  have htakes := readTag_takes o hprogress s additional depth (Nat.lt_succ_self _)
  exact htakes.ne_outOfFuel h

/-- A value of another major type holds no value. -/
theorem readMajor_leaf (read read' : ValueReader clock) (s : CborCodec) (additional depth : Nat)
    (h : major ≠ 4 ∧ major ≠ 5 ∧ major ≠ 6) :
    readMajor o read s major additional depth = readMajor o read' s major additional depth := by
  unfold readMajor
  split
  case h_5 => exact absurd rfl h.1
  case h_6 => exact absurd rfl h.2.1
  case h_7 => exact absurd rfl h.2.2
  all_goals rfl

theorem readMajor_leaf_takes (read : ValueReader clock) (s : CborCodec) (additional depth : Nat)
    (h : major ≠ 4 ∧ major ≠ 5 ∧ major ≠ 6) :
    Takes 0 s (readMajor o read s major additional depth) := by
  rw [readMajor_leaf read (fun _ _ => fail) s additional depth h]
  exact readMajor_takes o (fun _ _ _ => Takes.fail) s major additional depth (Nat.lt_succ_self _)

/-- An activation that reads an array or a map. -/
def IsContainer (a : Activation) : Prop := majorType a = 4 ∨ majorType a = 5

instance : DecidablePred IsContainer := fun _ => inferInstanceAs (Decidable (_ ∨ _))

/-- An activation that reads the value of a tag. -/
def IsTag (a : Activation) : Prop := majorType a = 6

instance : DecidablePred IsTag := fun _ => inferInstanceAs (Decidable (_ = _))

/-- The values that hold other values: arrays and maps go one level deeper, tags do not. -/
theorem Activates.cases (h : Activates clock o caller callee) :
    IsContainer caller ∧ caller.2 < o.maximumNesting ∧ callee.2 = caller.2 + 1 ∨
      IsTag caller ∧ callee.2 = caller.2 := by
  obtain ⟨s, additional, hcall⟩ := h.readMajor
  by_cases hleaf : majorType caller ≠ 4 ∧ majorType caller ≠ 5 ∧ majorType caller ≠ 6
  · exact absurd hcall (readMajor_leaf_takes _ s additional caller.2 hleaf).ne_outOfFuel
  · have hmajor : majorType caller = 4 ∨ majorType caller = 5 ∨ majorType caller = 6 := by omega
    rcases hmajor with harray | hmap | htag
    · rw [harray] at hcall
      exact .inl ⟨.inl harray, readArray_call hcall⟩
    · rw [hmap] at hcall
      exact .inl ⟨.inr hmap, readMap_call hcall⟩
    · rw [htag] at hcall
      exact .inr ⟨htag, readTag_call hcall⟩

theorem not_container_of_tag (h : IsTag a) : ¬ IsContainer a := by
  rw [IsTag] at h
  rintro (h₄ | h₅)
  · exact absurd (h₄.symm.trans h) (by decide)
  · exact absurd (h₅.symm.trans h) (by decide)

/-- The depth of the innermost activation counts the arrays and maps around it. -/
structure Nesting (o : CborParseOptions) (block : ByteBlock) (a : Activation)
    (callers : List Activation) : Prop where
  depth : a.2 = callers.countP IsContainer
  depth_le : a.2 ≤ o.maximumNesting
  count : callers.length = callers.countP IsContainer + callers.countP IsTag
  unread : a.1.reader.unread.length + callers.length ≤ block.bytes.length

theorem Nesting.call (h : Nesting o block caller callers)
    (hcall : Activates clock o caller callee) : Nesting o block callee (caller :: callers) := by
  have hunread := hcall.unread_lt
  have hbefore := h.unread
  have hcount := h.count
  rcases hcall.cases with ⟨hcontainer, hlt, hdepth⟩ | ⟨htag, hdepth⟩
  · have hnot : ¬ IsTag caller := fun htag => not_container_of_tag htag hcontainer
    constructor
    · rw [List.countP_cons_of_pos (by simpa using hcontainer), hdepth, h.depth]
    · rw [hdepth]
      exact hlt
    · rw [List.countP_cons_of_pos (by simpa using hcontainer),
        List.countP_cons_of_neg (by simpa using hnot), List.length_cons]
      omega
    · rw [List.length_cons]
      omega
  · have hnot := not_container_of_tag htag
    constructor
    · rw [List.countP_cons_of_neg (by simpa using hnot), hdepth, h.depth]
    · rw [hdepth]
      exact h.depth_le
    · rw [List.countP_cons_of_neg (by simpa using hnot),
        List.countP_cons_of_pos (by simpa using htag), List.length_cons]
      omega
    · rw [List.length_cons]
      omega

theorem Activations.nesting (h : Activations clock o block stack) :
    ∃ a callers, stack = a :: callers ∧ Nesting o block a callers := by
  induction h with
  | root => exact ⟨_, [], rfl, rfl, Nat.zero_le _, rfl, Nat.le_refl _⟩
  | nested _ hcall ih =>
    obtain ⟨a, callers, heq, hnesting⟩ := ih
    obtain ⟨rfl, rfl⟩ := List.cons.inj heq
    exact ⟨_, _, rfl, hnesting.call hcall⟩

end ErbslandCore.Data.Cbor
