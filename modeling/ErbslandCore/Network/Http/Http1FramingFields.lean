import Mathlib.Data.List.DropRight
import ErbslandCore.Network.Http.Http1FramingParser

namespace ErbslandCore.Network
open Library Text
set_option autoImplicit true

/-- The members of a list field: what stands between the commas, without the blanks around it. -/
def listMembers (text : List Nat) : List (List Nat) :=
  (text.splitOn 0x2C).map fun member => (member.dropWhile isAsciiBlank).rdropWhile isAsciiBlank

/-- The members of all fields of a type. -/
def membersOf (type : HttpFieldType) (fields : List HttpField) : List (List Nat) :=
  (fields.filter (·.name.type = type)).flatMap fun field => listMembers (Utf8.characters field.value)

/-- The coding that a member names. -/
def codingOf (coding : List Nat) : Http1TransferCoding :=
  if coding.map toAsciiLowercase = Utf8.characters (U8String.ofLiteral "chunked") then .chunked
  else .unsupported

theorem listMembers_ne_nil (text : List Nat) : listMembers text ≠ [] := by
  rw [listMembers, ne_eq, List.map_eq_nil_iff]
  exact List.splitOn_ne_nil _ _

theorem membersOf_singleton (type : HttpFieldType) (field : HttpField) :
    membersOf type [field] =
      if field.name.type = type then listMembers (Utf8.characters field.value) else [] := by
  by_cases h : field.name.type = type <;> simp [membersOf, h]

theorem membersOf_cons (type : HttpFieldType) (field : HttpField) (fields : List HttpField) :
    membersOf type (field :: fields) = membersOf type [field] ++ membersOf type fields := by
  rw [← List.singleton_append, membersOf, List.filter_append, List.flatMap_append]
  rfl

namespace Http1FramingParser

/-- Blanks around a member are not a part of it. -/
theorem trim_member (hb : ∀ c ∈ before, isAsciiBlank c = true) (ha : ∀ c ∈ after, isAsciiBlank c = true)
    (hm : ∀ c ∈ member, isAsciiBlank c = false) (hne : member ≠ []) :
    ((before ++ member ++ after).dropWhile isAsciiBlank).rdropWhile isAsciiBlank = member := by
  have hdrop : (before ++ member ++ after).dropWhile isAsciiBlank = member ++ after := by
    rw [List.append_assoc, List.dropWhile_append_of_pos hb]
    match member, hne with
    | c :: member, _ =>
      rw [List.cons_append, List.dropWhile_cons_of_neg (by simp [hm c (List.mem_cons_self ..)])]
  rw [hdrop, List.rdropWhile, List.reverse_append,
    List.dropWhile_append_of_pos fun c hc => ha c (List.mem_reverse.mp hc)]
  match hrev : member.reverse with
  | [] => exact absurd (List.reverse_eq_nil_iff.mp hrev) hne
  | c :: rest =>
    have hc : c ∈ member := List.mem_reverse.mp (hrev ▸ List.mem_cons_self ..)
    rw [List.dropWhile_cons_of_neg (by simp [hm c hc]), ← hrev, List.reverse_reverse]

/-- The list that was parsed is the list of its members. -/
theorem parseList_ok (hmember : ∀ c, isMember c = true → isAsciiBlank c = false ∧ c ≠ 0x2C)
    (h : parseList name isMember visit fuel parser reader = .ok parser') :
    (∀ member ∈ listMembers reader, member ≠ [] ∧ ∀ c ∈ member, isMember c = true) ∧
      (listMembers reader).foldlM visit parser = .ok parser' := by
  induction fuel generalizing parser reader with
  | zero => cases h
  | succ fuel ih =>
    rw [parseList] at h
    split_ifs at h with hcapture
    obtain ⟨parser₁, hvisit, h⟩ := bind_eq_ok h
    have hsplit := List.takeWhile_append_dropWhile (p := isAsciiBlank) (l := reader)
    generalize hbefore : reader.takeWhile isAsciiBlank = before at hsplit
    generalize reader.dropWhile isAsciiBlank = reader₁ at hsplit h hvisit hcapture
    have hsplit₁ := List.takeWhile_append_dropWhile (p := isMember) (l := reader₁)
    generalize hmem : reader₁.takeWhile isMember = member at hsplit₁ h hvisit hcapture
    generalize reader₁.dropWhile isMember = reader₂ at hsplit₁ h
    have hsplit₂ := List.takeWhile_append_dropWhile (p := isAsciiBlank) (l := reader₂)
    generalize hafter : reader₂.takeWhile isAsciiBlank = after at hsplit₂
    generalize reader₂.dropWhile isAsciiBlank = reader₃ at hsplit₂ h
    have hb : ∀ c ∈ before, isAsciiBlank c = true := fun c hc =>
      List.mem_takeWhile_imp (hbefore ▸ hc)
    have ha : ∀ c ∈ after, isAsciiBlank c = true := fun c hc =>
      List.mem_takeWhile_imp (hafter ▸ hc)
    have hm : ∀ c ∈ member, isMember c = true := fun c hc => List.mem_takeWhile_imp (hmem ▸ hc)
    have htrim := trim_member hb ha (fun c hc => (hmember c (hm c hc)).1) hcapture
    have hcomma : 0x2C ∉ before ++ member ++ after := by
      intro hc
      rcases List.mem_append.mp hc with hc | hc
      · rcases List.mem_append.mp hc with hc | hc
        · exact absurd (hb _ hc) (by decide)
        · exact (hmember _ (hm _ hc)).2 rfl
      · exact absurd (ha _ hc) (by decide)
    have hreader : reader = before ++ member ++ after ++ reader₃ := by
      rw [← hsplit, ← hsplit₁, ← hsplit₂]
      simp only [List.append_assoc]
    match reader₃ with
    | [] =>
      cases h
      rw [hreader, List.append_nil, listMembers, List.splitOn_eq_singleton hcomma, List.map_singleton,
        htrim]
      refine ⟨fun m hm' => ?_, ?_⟩
      · rw [List.mem_singleton.mp hm']
        exact ⟨hcapture, hm⟩
      · rw [List.foldlM_cons, hvisit]
        rfl
    | next :: reader₄ =>
      simp only at h
      split_ifs at h with hnext hempty
      obtain rfl : next = 0x2C := not_not.mp hnext
      obtain ⟨hmembers, hfold⟩ := ih h
      rw [hreader, listMembers, List.splitOn_append_cons_self_of_not_mem hcomma, List.map_cons, htrim]
      refine ⟨fun m hm' => ?_, ?_⟩
      · rcases List.mem_cons.mp hm' with rfl | hm'
        · exact ⟨hcapture, hm⟩
        · exact hmembers m hm'
      · rw [List.foldlM_cons, hvisit]
        exact hfold

/-- A member is a decimal number. -/
structure IsDecimal (member : List Nat) (n : Nat) : Prop where
  nonempty : member ≠ []
  digits : ∀ c ∈ member, isAsciiDigit c = true
  value : ofDigits 10 member = some n

/-- What a parser learns from members of the two list fields. -/
structure Learns (lengths codings : List (List Nat)) (parser parser' : Http1FramingParser) : Prop where
  decimals : ∀ member ∈ lengths, ∃ n, IsDecimal member n ∧ parser'.contentLength = some n
  keeps : ∀ n, parser.contentLength = some n → parser'.contentLength = some n
  unchanged : lengths = [] → parser'.contentLength = parser.contentLength
  codingCount : parser'.codingCount = parser.codingCount + codings.length
  transferCoding :
    parser'.transferCoding = ((codings.map codingOf).getLast?).getD parser.transferCoding

theorem Learns.refl (parser : Http1FramingParser) : Learns [] [] parser parser :=
  ⟨fun _ h => (by cases h), fun _ h => h, fun _ => rfl, rfl, rfl⟩

theorem Learns.trans (h : Learns lengths codings parser parser')
    (h' : Learns lengths' codings' parser' parser'') :
    Learns (lengths ++ lengths') (codings ++ codings') parser parser'' where
  decimals member hm := by
    rcases List.mem_append.mp hm with hm | hm
    · obtain ⟨n, hn, hlength⟩ := h.decimals member hm
      exact ⟨n, hn, h'.keeps n hlength⟩
    · exact h'.decimals member hm
  keeps n hn := h'.keeps n (h.keeps n hn)
  unchanged hnil := by
    obtain ⟨hl, hl'⟩ := List.append_eq_nil_iff.mp hnil
    exact (h'.unchanged hl').trans (h.unchanged hl)
  codingCount := by
    rw [h'.codingCount, h.codingCount, List.length_append, Nat.add_assoc]
  transferCoding := by
    rw [h'.transferCoding, h.transferCoding, List.map_append, List.getLast?_append]
    cases (codings'.map codingOf).getLast? <;> rfl

theorem visitLength_learns (hne : member ≠ []) (hdigits : ∀ c ∈ member, isAsciiDigit c = true)
    (h : visitLength parser member = .ok parser') : Learns [member] [] parser parser' := by
  rw [visitLength] at h
  split at h
  case h_1 => cases h
  case h_2 => cases h
  case h_3 value hvalue =>
    split_ifs at h with hany
    cases h
    have hdecimal : IsDecimal member value := ⟨hne, hdigits, (U8String.toIntegerOrThrow_ok hvalue).2⟩
    refine ⟨fun m hm => ⟨value, ?_, rfl⟩, fun n hn => ?_, fun hnil => absurd hnil (List.cons_ne_nil _ _),
      rfl, rfl⟩
    · rw [List.mem_singleton.mp hm]
      exact hdecimal
    · have heq : n = value := by simpa [hn] using hany
      rw [heq]

theorem visitCoding_learns (h : visitCoding parser member = .ok parser') :
    Learns [] [member] parser parser' := by
  cases h
  exact ⟨fun _ h => (by cases h), fun _ h => h, fun _ => rfl, rfl, rfl⟩

theorem foldlM_visitLength {members : List (List Nat)}
    (hm : ∀ member ∈ members, member ≠ [] ∧ ∀ c ∈ member, isAsciiDigit c = true)
    (h : members.foldlM visitLength parser = .ok parser') : Learns members [] parser parser' := by
  induction members generalizing parser with
  | nil =>
    cases h
    exact .refl _
  | cons member members ih =>
    rw [List.foldlM_cons] at h
    obtain ⟨parser₁, hvisit, h⟩ := bind_eq_ok h
    obtain ⟨⟨hne, hdigits⟩, hm⟩ := List.forall_mem_cons.mp hm
    exact (visitLength_learns hne hdigits hvisit).trans (ih hm h)

theorem foldlM_visitCoding {members : List (List Nat)}
    (h : members.foldlM visitCoding parser = .ok parser') :
    Learns [] members parser parser' := by
  induction members generalizing parser with
  | nil =>
    cases h
    exact .refl _
  | cons member members ih =>
    rw [List.foldlM_cons] at h
    obtain ⟨parser₁, hvisit, h⟩ := bind_eq_ok h
    exact (visitCoding_learns hvisit).trans (ih h)

theorem isAsciiDigit_member (c : Nat) (h : isAsciiDigit c = true) : isAsciiBlank c = false ∧ c ≠ 0x2C := by
  simp [isAsciiDigit, isAsciiBlank] at h ⊢
  omega

theorem isHttpToken_member (c : Nat) (h : isHttpToken c = true) : isAsciiBlank c = false ∧ c ≠ 0x2C := by
  simp [isHttpToken, isAsciiAlphanumeric, isAsciiLetter, isAsciiDigit, isAsciiBlank] at h ⊢
  omega

theorem parseField_learns (h : parseField parser field = .ok parser') :
    Learns (membersOf .contentLength [field]) (membersOf .transferEncoding [field]) parser parser' := by
  rw [membersOf_singleton, membersOf_singleton]
  rw [parseField] at h
  split_ifs at h with hlength hcoding
  · rw [if_pos hlength, if_neg (by rw [hlength]; simp)]
    rw [parseContentLength] at h
    split_ifs at h
    obtain ⟨hm, hfold⟩ := parseList_ok isAsciiDigit_member h
    exact foldlM_visitLength hm hfold
  · rw [if_neg hlength, if_pos hcoding]
    rw [parseTransferEncoding] at h
    split_ifs at h
    obtain ⟨-, hfold⟩ := parseList_ok isHttpToken_member h
    exact foldlM_visitCoding hfold
  · cases h
    rw [if_neg hlength, if_neg hcoding]
    exact .refl _

theorem foldlM_parseField (h : fields.foldlM parseField parser = .ok parser') :
    Learns (membersOf .contentLength fields) (membersOf .transferEncoding fields) parser parser' := by
  induction fields generalizing parser with
  | nil =>
    cases h
    exact .refl _
  | cons field fields ih =>
    rw [List.foldlM_cons] at h
    obtain ⟨parser₁, hfield, h⟩ := bind_eq_ok h
    rw [membersOf_cons _ field fields, membersOf_cons _ field fields]
    exact (parseField_learns hfield).trans (ih h)

/-- The coding of a section with some codings. -/
def sectionCoding : List (List Nat) → Http1TransferCoding
  | [] => .none
  | [coding] => codingOf coding
  | _ => .unsupported

/-- What the fields of a section say about its framing. -/
theorem ofHeaders_ok (h : ofHeaders fields = .ok parser) :
    (∀ member ∈ membersOf .contentLength fields,
      ∃ n, IsDecimal member n ∧ parser.contentLength = some n) ∧
    (membersOf .contentLength fields = [] → parser.contentLength = none) ∧
    parser.transferCoding = sectionCoding (membersOf .transferEncoding fields) := by
  rw [ofHeaders] at h
  obtain ⟨parser₁, hfold, h⟩ := bind_eq_ok h
  have hlearns := foldlM_parseField hfold
  have hcount := hlearns.codingCount
  have hcoding := hlearns.transferCoding
  split at h
  case isTrue hmany =>
    cases h
    refine ⟨hlearns.decimals, fun hnil => hlearns.unchanged hnil, ?_⟩
    match hc : membersOf .transferEncoding fields with
    | [] | [_] =>
      rw [hc] at hcount
      simp at hcount
      omega
    | _ :: _ :: _ => rfl
  case isFalse hfew =>
    cases h
    refine ⟨hlearns.decimals, fun hnil => hlearns.unchanged hnil, ?_⟩
    match hc : membersOf .transferEncoding fields with
    | [] =>
      rw [hc] at hcoding
      exact hcoding
    | [_] =>
      rw [hc] at hcoding
      exact hcoding
    | _ :: _ :: _ =>
      rw [hc] at hcount
      simp at hcount
      omega

end Http1FramingParser
end ErbslandCore.Network
