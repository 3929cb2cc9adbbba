import Mathlib.Algebra.GroupWithZero.Nat
import Mathlib.Data.List.Basic
import Mathlib.Data.List.TakeWhile

namespace ErbslandCore.Library
set_option autoImplicit true

variable {α : Type}

/-- The parts of a text between separators, without the empty ones. -/
def pieces (isSeparator : α → Bool) (text : List α) : List (List α) :=
  (text.splitOnP isSeparator).filter (!·.isEmpty)

/-- The one part of a text without separators, unless it is empty. -/
def piece (text : List α) : List (List α) := if text.isEmpty then [] else [text]

section
variable {isSeparator : α → Bool} {text : List α}

theorem pieces_nil : pieces isSeparator [] = [] := rfl

theorem pieces_piece (h : ∀ c ∈ text, isSeparator c = false) :
    pieces isSeparator text = piece text := by
  rw [pieces, List.splitOnP_eq_singleton h, piece]
  cases text <;> rfl

theorem piece_of_ne_nil (h : text ≠ []) : piece text = [text] := by
  cases text with
  | nil => exact absurd rfl h
  | cons c text => rfl

/-- A separator ends the parts before it. -/
theorem pieces_append_cons (h : isSeparator separator = true) (before after : List α) :
    pieces isSeparator (before ++ separator :: after) =
      pieces isSeparator before ++ pieces isSeparator after := by
  rw [pieces, List.splitOnP_append_cons before after h, List.filter_append]
  rfl

theorem pieces_cons (h : isSeparator separator = true) (text : List α) :
    pieces isSeparator (separator :: text) = pieces isSeparator text :=
  pieces_append_cons h [] text

/-- A part that is not empty and has no separators. -/
structure IsPiece (isSeparator : α → Bool) (part : List α) : Prop where
  ne_nil : part ≠ []
  not_separator : ∀ c ∈ part, isSeparator c = false

/-- The text of parts and separators gives the parts again. -/
theorem pieces_intercalate (h : isSeparator separator = true)
    (hparts : ∀ part ∈ parts, IsPiece isSeparator part) :
    pieces isSeparator ([separator].intercalate parts) = parts := by
  induction parts with
  | nil => rfl
  | cons part parts ih =>
    obtain ⟨hpart, hrest⟩ := List.forall_mem_cons.mp hparts
    have hfirst : pieces isSeparator part = [part] := by
      rw [pieces_piece hpart.not_separator, piece_of_ne_nil hpart.ne_nil]
    cases parts with
    | nil =>
      rw [List.intercalate_singleton]
      exact hfirst
    | cons next parts =>
      rw [List.intercalate_cons_cons, List.append_assoc, List.singleton_append,
        pieces_append_cons h, hfirst, ih hrest]
      rfl

theorem of_mem_piece (hcaptured : ∀ c ∈ captured, isSeparator c = false)
    (h : part ∈ piece captured) : IsPiece isSeparator part ∧ part ⊆ captured := by
  cases captured with
  | nil => cases h
  | cons c captured =>
    rw [piece_of_ne_nil (List.cons_ne_nil c captured), List.mem_singleton] at h
    rw [h]
    exact ⟨⟨List.cons_ne_nil c captured, hcaptured⟩, List.Subset.refl _⟩

/-- The parts behind a captured beginning without separators. -/
theorem of_mem_pieces_append (captured : List α) (hcaptured : ∀ c ∈ captured, isSeparator c = false)
    (h : part ∈ pieces isSeparator (captured ++ text)) :
    IsPiece isSeparator part ∧ part ⊆ captured ++ text := by
  induction text generalizing captured with
  | nil =>
    rw [List.append_nil] at h ⊢
    rw [pieces_piece hcaptured] at h
    exact of_mem_piece hcaptured h
  | cons c text ih =>
    cases hc : isSeparator c with
    | true =>
      rw [pieces_append_cons hc, pieces_piece hcaptured, List.mem_append] at h
      rcases h with h | h
      · obtain ⟨hpiece, hsubset⟩ := of_mem_piece hcaptured h
        exact ⟨hpiece, List.Subset.trans hsubset (List.subset_append_left _ _)⟩
      · obtain ⟨hpiece, hsubset⟩ := ih [] nofun h
        have hcons : text ⊆ c :: text := List.subset_cons_self _ _
        have hwhole : c :: text ⊆ captured ++ c :: text := List.subset_append_right _ _
        exact ⟨hpiece, List.Subset.trans hsubset (List.Subset.trans hcons hwhole)⟩
    | false =>
      have hcons : captured ++ c :: text = (captured ++ [c]) ++ text := by simp
      rw [hcons] at h ⊢
      refine ih _ ?_ h
      intro c' hc'
      rcases List.mem_append.mp hc' with hc' | hc'
      · exact hcaptured c' hc'
      · rw [List.mem_singleton.mp hc']
        exact hc

theorem isPiece_of_mem (h : part ∈ pieces isSeparator text) : IsPiece isSeparator part :=
  (of_mem_pieces_append [] nofun h).1

theorem subset_of_mem_pieces (h : part ∈ pieces isSeparator text) : part ⊆ text :=
  (of_mem_pieces_append [] nofun h).2

/-- The first part of a text that begins with it. -/
theorem pieces_head (h : IsPiece isSeparator part) (hrest : ∀ c ∈ rest.head?, isSeparator c = true) :
    pieces isSeparator (part ++ rest) = part :: pieces isSeparator rest := by
  have hfirst : pieces isSeparator part = [part] := by
    rw [pieces_piece h.not_separator, piece_of_ne_nil h.ne_nil]
  cases rest with
  | nil =>
    rw [List.append_nil]
    exact hfirst
  | cons c rest =>
    have hc : isSeparator c = true := hrest c rfl
    rw [pieces_append_cons hc, hfirst, pieces_cons hc]
    rfl

/-- A text that begins with no separator begins with its first part. -/
theorem pieces_of_head (hne : text ≠ []) (hhead : ∀ c ∈ text.head?, isSeparator c = false) :
    ∃ part rest, text = part ++ rest ∧ IsPiece isSeparator part ∧
      (∀ c ∈ rest.head?, isSeparator c = true) ∧
      pieces isSeparator text = part :: pieces isSeparator rest := by
  obtain ⟨c, after, rfl⟩ := List.exists_cons_of_ne_nil hne
  have hc : isSeparator c = false := hhead c rfl
  have htext := List.takeWhile_append_dropWhile (p := (!isSeparator ·)) (l := after)
  have hpiece : IsPiece isSeparator (c :: after.takeWhile (!isSeparator ·)) := by
    refine ⟨List.cons_ne_nil _ _, List.forall_mem_cons.mpr ⟨hc, ?_⟩⟩
    intro c' hc'
    simpa using List.mem_takeWhile_imp hc'
  have hrest : ∀ c' ∈ (after.dropWhile (!isSeparator ·)).head?, isSeparator c' = true := by
    intro c' hc'
    have hdropped := List.head?_dropWhile_not (!isSeparator ·) after
    rw [Option.mem_def.mp hc'] at hdropped
    simpa using hdropped
  have hcons : c :: after =
      (c :: after.takeWhile (!isSeparator ·)) ++ after.dropWhile (!isSeparator ·) := by
    rw [List.cons_append, htext]
  refine ⟨_, _, hcons, hpiece, hrest, ?_⟩
  rw [hcons]
  exact pieces_head hpiece hrest

/-- Behind the first part stands nothing or a separator. -/
theorem intercalate_cons (separator : α) (part : List α) (parts : List (List α)) :
    ∃ rest, [separator].intercalate (part :: parts) = part ++ rest ∧
      (∀ c ∈ rest.head?, c = separator) ∧ (parts = [] → rest = []) := by
  cases parts with
  | nil => exact ⟨[], by rw [List.intercalate_singleton, List.append_nil], nofun, fun _ => rfl⟩
  | cons next parts =>
    refine ⟨separator :: [separator].intercalate (next :: parts), ?_, ?_, nofun⟩
    · rw [List.intercalate_cons_cons, List.append_assoc, List.singleton_append]
    · rintro c ⟨⟩
      rfl

theorem length_intercalate (separator : α) (parts : List (List α)) :
    ([separator].intercalate parts).length =
      (parts.map List.length).sum + (parts.length - 1) := by
  induction parts with
  | nil => rfl
  | cons part parts ih =>
    cases parts with
    | nil => rw [List.intercalate_singleton]; simp
    | cons next parts =>
      rw [List.intercalate_cons_cons, List.length_append, List.length_append, ih]
      simp only [List.map_cons, List.sum_cons, List.length_cons, List.length_nil]
      omega

theorem mem_intercalate (h : c ∈ [separator].intercalate parts) :
    c = separator ∨ ∃ part ∈ parts, c ∈ part := by
  induction parts with
  | nil => cases h
  | cons part parts ih =>
    cases parts with
    | nil =>
      rw [List.intercalate_singleton] at h
      exact .inr ⟨part, List.mem_singleton_self part, h⟩
    | cons next parts =>
      rw [List.intercalate_cons_cons, List.mem_append, List.mem_append, List.mem_singleton] at h
      rcases h with (h | h) | h
      · exact .inr ⟨part, List.mem_cons_self, h⟩
      · exact .inl h
      · rcases ih h with hc | ⟨part', hmem, hc⟩
        · exact .inl hc
        · exact .inr ⟨part', List.mem_cons_of_mem _ hmem, hc⟩

end

end ErbslandCore.Library
