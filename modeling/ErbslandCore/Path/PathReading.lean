import ErbslandCore.Library.Except
import ErbslandCore.Library.Pieces
import ErbslandCore.Path.PathParser

namespace ErbslandCore.Path
open Library Text
set_option autoImplicit true

/-- The reader reads all characters that are left. -/
structure Readable (r : Reader) : Prop where
  valid : ∀ c ∈ r.unread, invalidPathCharacters c = false
  bound : r.position + r.unread.length ≤ maximumPathCharacters

/-- The reader has read valid characters. -/
structure ReadsTo (r r' : Reader) (consumed : List Nat) : Prop where
  unread : r.unread = consumed ++ r'.unread
  position : r'.position = r.position + consumed.length
  valid : ∀ c ∈ consumed, invalidPathCharacters c = false

theorem ReadsTo.refl (r : Reader) : ReadsTo r r [] := ⟨rfl, rfl, nofun⟩

theorem ReadsTo.trans (h : ReadsTo a b first) (h' : ReadsTo b c second) :
    ReadsTo a c (first ++ second) where
  unread := by rw [h.unread, h'.unread, List.append_assoc]
  position := by rw [h'.position, h.position, List.length_append, Nat.add_assoc]
  valid := by
    intro c hc
    rcases List.mem_append.mp hc with hc | hc
    · exact h.valid c hc
    · exact h'.valid c hc

theorem ReadsTo.readable (h : ReadsTo r r' consumed) (hr : Readable r') : Readable r where
  valid := by
    rw [h.unread]
    intro c hc
    rcases List.mem_append.mp hc with hc | hc
    · exact h.valid c hc
    · exact hr.valid c hc
  bound := by
    have hbound := hr.bound
    rw [h.position] at hbound
    rw [h.unread, List.length_append, ← Nat.add_assoc]
    exact hbound

theorem Readable.drop (before : List Nat) (h : Readable ⟨before ++ after, position⟩) :
    Readable ⟨after, position + before.length⟩ where
  valid := fun c hc => h.valid c (List.mem_append_right _ hc)
  bound := by
    have hbound := h.bound
    rw [List.length_append, ← Nat.add_assoc] at hbound
    exact hbound

theorem Readable.tail (h : Readable ⟨c :: unread, position⟩) : Readable ⟨unread, position + 1⟩ :=
  Readable.drop [c] h

theorem not_invalid_iff (c : Nat) : invalidPathCharacters c = false ↔ c ≠ 0 ∧ c ≠ 0xFFFD := by
  rw [invalidPathCharacters, Bool.or_eq_false_iff, decide_eq_false_iff_not,
    decide_eq_false_iff_not]

namespace Reader
variable {r r' : Reader} {unread : List Nat} {position : Nat}

theorem readCharacter_cons (h : Readable ⟨c :: unread, position⟩) :
    readCharacter ⟨c :: unread, position⟩ = .ok (some c, ⟨unread, position + 1⟩) := by
  obtain ⟨hnull, hreplacement⟩ := (not_invalid_iff c).mp (h.valid c List.mem_cons_self)
  have hbound : position + 1 ≤ maximumPathCharacters :=
    (Nat.add_le_add_left (Nat.le_add_left 1 unread.length) position).trans h.bound
  rw [readCharacter]
  simp only
  rw [if_neg (Nat.not_lt.mpr hbound), if_neg hnull, if_neg hreplacement]

/-- What the reader can read. -/
theorem readCharacter_cases (h : r.readCharacter = .ok (character, r')) :
    (character = none ∧ r.unread = [] ∧ r' = r) ∨
      ∃ c, character = some c ∧ ReadsTo r r' [c] ∧ r'.position ≤ maximumPathCharacters := by
  obtain ⟨unread, position⟩ := r
  cases unread with
  | nil =>
    cases h
    exact .inl ⟨rfl, rfl, rfl⟩
  | cons c unread =>
    rw [readCharacter] at h
    simp only at h
    split_ifs at h with hbound hnull hreplacement
    · cases h
    · cases h
    · cases h
    · cases h
      refine .inr ⟨c, rfl, ⟨rfl, rfl, ?_⟩, Nat.le_of_not_gt hbound⟩
      intro c' hc'
      rw [List.mem_singleton.mp hc']
      exact (not_invalid_iff c).mpr ⟨hnull, hreplacement⟩

theorem readCharacter_some (h : r.readCharacter = .ok (some c, r')) :
    ReadsTo r r' [c] ∧ r'.position ≤ maximumPathCharacters := by
  rcases readCharacter_cases h with ⟨hnone, -, -⟩ | ⟨c', hc, hreads⟩
  · cases hnone
  · cases hc
    exact hreads

/-- The characters with slashes only. -/
def normalized (text : List Nat) : List Nat := text.map normalizedSeparator

theorem readNormalizedLiteral_eq (h : Readable r) (literal : List Nat) : ∃ r',
    readNormalizedLiteral literal r = .ok (literal.isPrefixOf (normalized r.unread), r') ∧
      (literal.isPrefixOf (normalized r.unread) = true →
        r' = ⟨r.unread.drop literal.length, r.position + literal.length⟩) := by
  induction literal generalizing r with
  | nil => exact ⟨r, rfl, fun _ => rfl⟩
  | cons expected literal ih =>
    obtain ⟨unread, position⟩ := r
    cases unread with
    | nil => exact ⟨⟨[], position⟩, rfl, fun h => absurd h Bool.false_ne_true⟩
    | cons c unread =>
      rw [readNormalizedLiteral, readCharacter_cons h, ok_bind]
      simp only [Option.map_some, Option.some_inj]
      by_cases hc : normalizedSeparator c = expected
      · obtain ⟨r', hr', hdrop⟩ := ih h.tail
        rw [if_pos hc, hr']
        have hbegin : (expected :: literal).isPrefixOf (normalized (c :: unread)) =
            literal.isPrefixOf (normalized unread) := by
          rw [normalized, List.map_cons, List.isPrefixOf_cons_cons, hc, beq_self_eq_true,
            Bool.true_and, normalized]
        rw [hbegin]
        refine ⟨r', rfl, fun h => ?_⟩
        have hposition : position + 1 + literal.length = position + (literal.length + 1) := by
          rw [Nat.add_assoc, Nat.add_comm 1]
        rw [hdrop h, List.length_cons, ← hposition]
        rfl
      · rw [if_neg hc]
        have hbegin : (expected :: literal).isPrefixOf (normalized (c :: unread)) = false := by
          rw [normalized, List.map_cons, List.isPrefixOf_cons_cons, beq_eq_false_iff_ne.mpr
            (Ne.symm hc), Bool.false_and]
        rw [hbegin]
        exact ⟨_, rfl, fun h => absurd h Bool.false_ne_true⟩

theorem startsWithNormalized_eq (h : Readable r) (literal : List Nat) :
    r.startsWithNormalized literal = .ok (literal.isPrefixOf (normalized r.unread)) := by
  obtain ⟨r', hr', -⟩ := readNormalizedLiteral_eq h literal
  rw [startsWithNormalized, hr']
  rfl

theorem equalsNormalized_eq (h : Readable r) (text : List Nat) :
    r.equalsNormalized text = .ok (decide (normalized r.unread = text)) := by
  obtain ⟨r', hr', hdrop⟩ := readNormalizedLiteral_eq h text
  rw [equalsNormalized, hr', ok_bind]
  have hlength : (normalized r.unread).length = r.unread.length := List.length_map _
  cases hbegin : text.isPrefixOf (normalized r.unread) with
  | false =>
    have hne : normalized r.unread ≠ text := by
      rintro rfl
      rw [List.isPrefixOf_iff_prefix.mpr (List.prefix_refl _)] at hbegin
      cases hbegin
    rw [decide_eq_false hne]
    rfl
  | true =>
    have hle := List.isPrefixOf_iff_prefix.mp hbegin
    rw [hdrop hbegin]
    refine congrArg Except.ok ?_
    rw [Bool.true_and, isAtEnd]
    rw [Bool.eq_iff_iff, decide_eq_true_iff, List.isEmpty_iff, List.drop_eq_nil_iff]
    constructor
    · intro hend
      exact (hle.eq_of_length_le (hlength.trans_le hend)).symm
    · intro heq
      rw [← heq, hlength]

theorem equalsOrStartsWith_eq (h : Readable r) (text literal : List Nat) :
    r.equalsOrStartsWith text literal = .ok (decide (normalized r.unread = text) ||
      literal.isPrefixOf (normalized r.unread)) := by
  rw [equalsOrStartsWith, equalsNormalized_eq h, ok_bind, startsWithNormalized_eq h]
  cases decide (normalized r.unread = text) <;> rfl

/-- One more element is added, unless it is empty or there is no place. -/
theorem appendCapturedElement_cases
    (h : appendCapturedElement root position captured elements = .ok elements') :
    elements' = elements ++ piece captured := by
  rw [appendCapturedElement] at h
  split_ifs at h with hempty hcount
  · cases h
    rw [hempty]
    exact (List.append_nil _).symm
  · cases h
    rw [piece_of_ne_nil hempty]

theorem appendCapturedElement_eq
    (h : PathData.publicItemCount root (elements ++ piece captured) ≤ maximumPathElements) :
    appendCapturedElement root position captured elements = .ok (elements ++ piece captured) := by
  rw [appendCapturedElement]
  split_ifs with hempty hcount
  · rw [hempty]
    exact congrArg Except.ok (List.append_nil _).symm
  · rw [piece_of_ne_nil hempty, PathData.publicItemCount, List.length_append,
      List.length_singleton] at h
    rw [PathData.publicItemCount] at hcount
    omega
  · rw [piece_of_ne_nil hempty]

theorem readCharacter_at (h : readCharacter ⟨c :: unread, position⟩ = .ok result) :
    invalidPathCharacters c = false ∧ position + 1 ≤ maximumPathCharacters := by
  obtain ⟨character, r'⟩ := result
  rcases readCharacter_cases h with ⟨-, hnil, -⟩ | ⟨c', -, hreads, hbound⟩
  · cases hnil
  · obtain ⟨hunread, hposition, hvalid⟩ := hreads
    cases hunread
    rw [hposition] at hbound
    exact ⟨hvalid _ List.mem_cons_self, hbound⟩

theorem readable_cons (hc : invalidPathCharacters c = false)
    (h : Readable ⟨unread, position + 1⟩) : Readable ⟨c :: unread, position⟩ where
  valid := by
    intro c' hc'
    rcases List.mem_cons.mp hc' with rfl | hc'
    · exact hc
    · exact h.valid c' hc'
  bound := by
    have hbound := h.bound
    rw [Nat.add_assoc, Nat.add_comm 1] at hbound
    exact hbound

theorem append_not_separator (hcaptured : ∀ c ∈ captured, isPathSeparator mode c = false)
    (hc : ¬ isPathSeparator mode c = true) :
    ∀ c' ∈ captured ++ [c], isPathSeparator mode c' = false := by
  intro c' hc'
  rcases List.mem_append.mp hc' with hc' | hc'
  · exact hcaptured c' hc'
  · rw [List.mem_singleton.mp hc']
    exact Bool.not_eq_true _ ▸ hc

/-- The elements that were read are the parts of the text. -/
theorem parseElements_ok (hcaptured : ∀ c ∈ captured, isPathSeparator mode c = false)
    (hposition : position ≤ maximumPathCharacters)
    (h : parseElements mode root unread position captured elements = .ok elements') :
    Readable ⟨unread, position⟩ ∧
      elements' = elements ++ pieces (isPathSeparator mode) (captured ++ unread) := by
  induction unread generalizing position captured elements with
  | nil =>
    rw [List.append_nil, pieces_piece hcaptured]
    exact ⟨⟨nofun, hposition⟩, appendCapturedElement_cases h⟩
  | cons c unread ih =>
    rw [parseElements] at h
    split_ifs at h with hc
    · obtain ⟨elements₁, happend, h⟩ := bind_eq_ok h
      obtain ⟨result, hread, h⟩ := bind_eq_ok h
      obtain ⟨hvalid, hnext⟩ := readCharacter_at hread
      obtain ⟨hreadable, helements⟩ := ih (List.forall_mem_nil _) hnext h
      refine ⟨readable_cons hvalid hreadable, ?_⟩
      rw [helements, appendCapturedElement_cases happend, pieces_append_cons hc,
        pieces_piece hcaptured, List.append_assoc, List.nil_append]
    · obtain ⟨result, hread, h⟩ := bind_eq_ok h
      obtain ⟨hvalid, hnext⟩ := readCharacter_at hread
      obtain ⟨hreadable, helements⟩ := ih (append_not_separator hcaptured hc) hnext h
      refine ⟨readable_cons hvalid hreadable, ?_⟩
      rw [helements, List.append_assoc, List.singleton_append]

/-- A readable text whose parts have place is read. -/
theorem parseElements_eq (hcaptured : ∀ c ∈ captured, isPathSeparator mode c = false)
    (hreadable : Readable ⟨unread, position⟩)
    (hcount : PathData.publicItemCount root
      (elements ++ pieces (isPathSeparator mode) (captured ++ unread)) ≤ maximumPathElements) :
    parseElements mode root unread position captured elements =
      .ok (elements ++ pieces (isPathSeparator mode) (captured ++ unread)) := by
  induction unread generalizing position captured elements with
  | nil =>
    rw [List.append_nil, pieces_piece hcaptured] at hcount ⊢
    exact appendCapturedElement_eq hcount
  | cons c unread ih =>
    rw [parseElements]
    split_ifs with hc
    · rw [pieces_append_cons hc, pieces_piece hcaptured, ← List.append_assoc] at hcount ⊢
      have hfirst : PathData.publicItemCount root (elements ++ piece captured) ≤
          maximumPathElements := by
        rw [PathData.publicItemCount, List.length_append] at hcount
        rw [PathData.publicItemCount]
        omega
      rw [appendCapturedElement_eq hfirst, ok_bind, readCharacter_cons hreadable, ok_bind]
      exact ih (List.forall_mem_nil _) hreadable.tail hcount
    · have hcons : captured ++ c :: unread = (captured ++ [c]) ++ unread := by
        rw [List.append_assoc, List.singleton_append]
      rw [hcons] at hcount ⊢
      rw [readCharacter_cons hreadable, ok_bind]
      exact ih (append_not_separator hcaptured hc) hreadable.tail hcount

/-- What a finished path consists of. -/
structure Finished (r : Reader) (mode : SeparatorMode) (format : PathFormat) (root : List Nat)
    (data : PathData) : Prop where
  readable : Readable r
  created : PathData.create format root (pieces (isPathSeparator mode) r.unread) = some data

theorem finish_ok (hposition : r.position ≤ maximumPathCharacters)
    (h : r.finish mode format root = .ok data) : Finished r mode format root data := by
  obtain ⟨elements, helements, h⟩ := bind_eq_ok h
  obtain ⟨hreadable, rfl⟩ := parseElements_ok (List.forall_mem_nil _) hposition helements
  refine ⟨hreadable, ?_⟩
  simp only [List.nil_append] at h
  split at h
  · rename_i hcreate
    cases h
    exact hcreate
  · cases h

theorem publicItemCount_of_create (h : PathData.create format root elements = some data) :
    PathData.publicItemCount root elements ≤ maximumPathElements := by
  rw [PathData.create] at h
  split_ifs at h with hcount
  exact Nat.le_of_not_gt fun hgt => hcount (.inr hgt)

theorem finish_eq (h : Finished r mode format root data) :
    r.finish mode format root = .ok data := by
  have hcount := publicItemCount_of_create h.created
  rw [finish, parseElements_eq (List.forall_mem_nil _) h.readable hcount, ok_bind]
  simp only [List.nil_append, h.created]
  rfl

end Reader

end ErbslandCore.Path
