import ErbslandCore.Library.DotSegments
import ErbslandCore.Network.Url.UrlParser

namespace ErbslandCore.Network.Url
open Library
set_option autoImplicit true

abbrev dot : UInt8 := 0x2E

namespace UrlResolver

/-- The text before the last slash, if there is one. -/
def beforeLastSlash (path : List UInt8) : Option (List UInt8) :=
  if slash ∈ path then some (path.reverse.dropWhile (· ≠ slash)).tail.reverse else none

def removeLastSegment (path : List UInt8) : List UInt8 := (beforeLastSlash path).getD []

/-- One turn of the loop: the rest of the input and the output. -/
def removeDotSegmentsTurn (input output : List UInt8) : List UInt8 × List UInt8 :=
  if [dot, dot, slash] <+: input then (input.drop 3, output)
  else if [dot, slash] <+: input then (input.drop 2, output)
  else if [slash, dot, slash] <+: input then (slash :: input.drop 3, output)
  else if input = [slash, dot] then ([slash], output)
  else if [slash, dot, dot, slash] <+: input then
    (slash :: input.drop 4, removeLastSegment output)
  else if input = [slash, dot, dot] then ([slash], removeLastSegment output)
  else if input = [dot] ∨ input = [dot, dot] then ([], output)
  else
    let searchStart := if [slash] <+: input then 1 else 0
    let front := input.take searchStart ++ (input.drop searchStart).takeWhile (· ≠ slash)
    ((input.drop searchStart).dropWhile (· ≠ slash), output ++ front)

theorem removeDotSegmentsTurn_lt (h : input ≠ []) (output : List UInt8) :
    (removeDotSegmentsTurn input output).1.length < input.length := by
  have hpos := List.length_pos_iff.mpr h
  rw [removeDotSegmentsTurn]
  split_ifs with h₁ h₂ h₃ h₄ h₅ h₆ h₇
  · have hlength := h₁.length_le
    simp at hlength ⊢
    omega
  · have hlength := h₂.length_le
    simp at hlength ⊢
    omega
  · have hlength := h₃.length_le
    simp at hlength ⊢
    omega
  · rw [h₄]
    exact Nat.lt_add_one 1
  · have hlength := h₅.length_le
    simp at hlength ⊢
    omega
  · rw [h₆]
    exact Nat.lt_add_of_pos_right Nat.zero_lt_two
  · exact hpos
  · have hlength := List.length_dropWhile_le (· ≠ slash) (input.drop 1)
    rw [List.length_drop] at hlength
    exact lt_of_le_of_lt hlength (by omega)
  · cases input with
    | nil => exact absurd rfl h
    | cons c input =>
      have hslash : c ≠ slash := by
        intro heq
        simp_all
      have hlength := List.length_dropWhile_le (· ≠ slash) input
      simp only [List.drop_zero, List.dropWhile_cons, hslash, ne_eq, not_false_eq_true,
        decide_true, if_true, List.length_cons]
      exact Nat.lt_succ_of_le hlength

def removeDotSegmentsFrom (input output : List UInt8) : List UInt8 :=
  if _ : input = [] then output
  else
    removeDotSegmentsFrom (removeDotSegmentsTurn input output).1
      (removeDotSegmentsTurn input output).2
termination_by input.length
decreasing_by exact removeDotSegmentsTurn_lt ‹_› output

def removeDotSegments (path : List UInt8) : List UInt8 := removeDotSegmentsFrom path []

/-- The segments with a meaning of their own. -/
def dots : PathAlphabet (List UInt8) where
  here := [dot]
  up := [dot, dot]
  empty := []
  here_ne := by decide
  up_ne := by decide

section segments
variable {segment tail : List UInt8}

theorem beforeLastSlash_append (h : slash ∉ segment) (front : List UInt8) :
    beforeLastSlash (front ++ slash :: segment) = some front := by
  have hmem : slash ∈ front ++ slash :: segment := List.mem_append_right _ List.mem_cons_self
  have hall : ∀ c ∈ segment.reverse, decide (c ≠ slash) = true := by
    intro c hc
    apply decide_eq_true
    rintro rfl
    exact h (List.mem_reverse.mp hc)
  rw [beforeLastSlash, if_pos hmem, List.reverse_append, List.reverse_cons, List.append_assoc,
    List.dropWhile_append_of_pos hall]
  simp

theorem beforeLastSlash_eq_none (h : slash ∉ path) : beforeLastSlash path = none := if_neg h

/-- The output loses its last segment, or all of its text when it has no other one. -/
theorem removeLastSegment_joinSegments (hne : passed ≠ [])
    (h : ∀ segment ∈ passed, slash ∉ segment) :
    removeLastSegment (joinSegments slash passed) = joinSegments slash (dots.pop passed) := by
  obtain ⟨front, last, rfl⟩ : ∃ front last, passed = front ++ [last] :=
    ⟨passed.dropLast, passed.getLast hne, (List.dropLast_append_getLast hne).symm⟩
  have hlast := h last (List.mem_append_right _ List.mem_cons_self)
  cases front with
  | nil =>
    have htext : joinSegments slash ([] ++ [last]) = last := by simp [joinSegments]
    rw [removeLastSegment, htext, beforeLastSlash_eq_none hlast]
    rfl
  | cons first front =>
    have hpop : dots.pop (first :: front ++ [last]) = first :: front := by
      cases front with
      | nil => rfl
      | cons next front =>
        have hcons : next :: front ++ [last] = next :: (front ++ [last]) := rfl
        rw [List.cons_append, hcons, PathAlphabet.pop, ← hcons, List.dropLast_concat]
        exact List.cons_ne_nil _ _
    rw [removeLastSegment, joinSegments_append (List.cons_ne_nil _ _),
      beforeLastSlash_append hlast, hpop]
    exact Option.getD_some

/-- A turn at the start of a segment, whose end is the end of the input or the next slash. -/
theorem removeDotSegmentsTurn_segment (hsegment : slash ∉ segment)
    (htail : tail = [] ∨ ∃ rest, tail = slash :: rest) (output : List UInt8) :
    removeDotSegmentsTurn (slash :: (segment ++ tail)) output =
      if segment = dots.here then (if tail = [] then [slash] else tail, output)
      else if segment = dots.up then
        (if tail = [] then [slash] else tail, removeLastSegment output)
      else (tail, output ++ slash :: segment) := by
  have hfirst : ¬ [dot, dot, slash] <+: slash :: (segment ++ tail) := by
    simp [List.cons_prefix_cons, dot, slash]
  have hsecond : ¬ [dot, slash] <+: slash :: (segment ++ tail) := by
    simp [List.cons_prefix_cons, dot, slash]
  have hword : ∀ word : List UInt8, slash ∉ word →
      (slash :: (word ++ [slash]) <+: slash :: (segment ++ tail) ↔ segment = word ∧ tail ≠ []) ∧
      (slash :: (segment ++ tail) = slash :: word ↔ segment = word ∧ tail = []) := by
    intro word hword
    rw [List.cons_prefix_cons, List.cons.injEq, and_iff_right rfl, and_iff_right rfl]
    exact ⟨word_prefix_iff hword hsegment htail, word_eq_iff hword htail⟩
  obtain ⟨hhere, hhere'⟩ := hword [dot] (by decide)
  obtain ⟨hup, hup'⟩ := hword [dot, dot] (by decide)
  have hlonely : ¬ (slash :: (segment ++ tail) = [dot] ∨ slash :: (segment ++ tail) = [dot, dot]) := by
    simp [dot, slash]
  have hslash : [slash] <+: slash :: (segment ++ tail) := by simp
  simp only [List.cons_append, List.nil_append] at hhere hup
  have hplain : (slash :: (segment ++ tail)).drop 1 = segment ++ tail := rfl
  have hfound : ∀ c ∈ segment, decide (c ≠ slash) = true := by
    intro c hc
    apply decide_eq_true
    rintro rfl
    exact hsegment hc
  rw [removeDotSegmentsTurn, if_neg hfirst, if_neg hsecond]
  simp only [hhere, hhere', hup, hup', if_neg hlonely, if_pos hslash, hplain, dots]
  by_cases h₁ : segment = [dot]
  · subst h₁
    rcases htail with rfl | ⟨rest, rfl⟩ <;> simp
  by_cases h₂ : segment = [dot, dot]
  · subst h₂
    rcases htail with rfl | ⟨rest, rfl⟩ <;> simp
  simp only [h₁, h₂, false_and, if_false, List.dropWhile_append_of_pos hfound,
    List.takeWhile_append_of_pos hfound]
  rcases htail with rfl | ⟨rest, rfl⟩ <;> simp

/-- A turn at the start of the path, where the first segment has no slash before it. -/
theorem removeDotSegmentsTurn_first (hne : segment ≠ []) (hsegment : slash ∉ segment)
    (htail : tail = [] ∨ ∃ rest, tail = slash :: rest) (output : List UInt8) :
    removeDotSegmentsTurn (segment ++ tail) output =
      if dots.IsDot segment then (tail.drop 1, output) else (tail, output ++ segment) := by
  obtain ⟨c, rest, rfl⟩ := List.exists_cons_of_ne_nil hne
  have hslash : c ≠ slash := by
    rintro rfl
    exact hsegment List.mem_cons_self
  have hword : ∀ word : List UInt8, slash ∉ word →
      (word ++ [slash] <+: (c :: rest) ++ tail ↔ c :: rest = word ∧ tail ≠ []) ∧
      ((c :: rest) ++ tail = word ↔ c :: rest = word ∧ tail = []) := by
    intro word hword
    exact ⟨word_prefix_iff hword hsegment htail, word_eq_iff hword htail⟩
  have hrooted : ∀ word : List UInt8, ¬ slash :: word <+: (c :: rest) ++ tail := by
    intro word hprefix
    exact hslash (List.cons_prefix_cons.mp hprefix).1.symm
  have hrooted' : ∀ word : List UInt8, (c :: rest) ++ tail ≠ slash :: word := by
    intro word heq
    exact hslash (List.cons.inj heq).1
  obtain ⟨hhere, hhere'⟩ := hword [dot] (by decide)
  obtain ⟨hup, hup'⟩ := hword [dot, dot] (by decide)
  have hfound : ∀ d ∈ c :: rest, decide (d ≠ slash) = true := by
    intro d hd
    apply decide_eq_true
    rintro rfl
    exact hsegment hd
  simp only [List.cons_append, List.nil_append] at hhere hhere' hup hup' hrooted hrooted'
  simp only [List.cons_append, removeDotSegmentsTurn, hhere, hhere', hup, hup', hrooted,
    hrooted', if_false, PathAlphabet.IsDot, dots]
  by_cases h₁ : c :: rest = [dot]
  · rw [List.cons.injEq] at h₁
    obtain ⟨rfl, rfl⟩ := h₁
    rcases htail with rfl | ⟨rest, rfl⟩ <;> simp
  by_cases h₂ : c :: rest = [dot, dot]
  · rw [List.cons.injEq] at h₂
    obtain ⟨rfl, rfl⟩ := h₂
    rcases htail with rfl | ⟨rest, rfl⟩ <;> simp
  simp only [h₁, h₂, false_and, false_or, if_false, List.drop_zero, List.take_zero,
    List.nil_append, ← List.cons_append, List.dropWhile_append_of_pos hfound,
    List.takeWhile_append_of_pos hfound]
  rcases htail with rfl | ⟨rest, rfl⟩ <;> simp

end segments

section loop

theorem removeDotSegmentsFrom_nil (output : List UInt8) :
    removeDotSegmentsFrom [] output = output := by
  rw [removeDotSegmentsFrom, dif_pos rfl]

theorem removeDotSegmentsFrom_turn (h : input ≠ []) (output : List UInt8) :
    removeDotSegmentsFrom input output =
      removeDotSegmentsFrom (removeDotSegmentsTurn input output).1
        (removeDotSegmentsTurn input output).2 := by
  rw [removeDotSegmentsFrom, dif_neg h]

theorem removeDotSegmentsFrom_slash (output : List UInt8) :
    removeDotSegmentsFrom [slash] output = output ++ [slash] := by
  have hturn := removeDotSegmentsTurn_segment List.not_mem_nil (.inl rfl) output
  rw [List.append_nil, if_neg (by decide), if_neg (by decide)] at hturn
  rw [removeDotSegmentsFrom_turn (List.cons_ne_nil _ _), hturn, removeDotSegmentsFrom_nil]

/-- The text after a segment starts with the slash of the next one. -/
theorem rest_start (rest : List (List UInt8)) :
    rest.flatMap (slash :: ·) = [] ∨ ∃ text, rest.flatMap (slash :: ·) = slash :: text := by
  cases rest with
  | nil => exact .inl rfl
  | cons segment rest => exact .inr ⟨_, rfl⟩

theorem rest_eq_nil_iff (rest : List (List UInt8)) :
    rest.flatMap (slash :: ·) = [] ↔ rest = [] := by
  cases rest with
  | nil => exact iff_of_true rfl rfl
  | cons segment rest => exact iff_of_false (List.cons_ne_nil _ _) (List.cons_ne_nil _ _)

theorem pop_noSlash (h : ∀ segment ∈ passed, slash ∉ segment) :
    ∀ segment ∈ dots.pop passed, slash ∉ segment := by
  intro segment hmem
  rcases PathAlphabet.mem_pop hmem with hmem | rfl
  · exact h segment hmem
  · exact List.not_mem_nil

/-- After its first segment the loop follows the segments of its input. -/
theorem removeDotSegmentsFrom_walk (hne : passed ≠ []) (hpassed : ∀ segment ∈ passed, slash ∉ segment)
    (hrest : ∀ segment ∈ rest, slash ∉ segment) :
    removeDotSegmentsFrom (rest.flatMap (slash :: ·)) (joinSegments slash passed) =
      joinSegments slash (dots.walk passed rest) := by
  induction rest generalizing passed with
  | nil => exact removeDotSegmentsFrom_nil _
  | cons segment rest ih =>
    have hsegment := hrest segment List.mem_cons_self
    have hrest' : ∀ s ∈ rest, slash ∉ s := fun s hs => hrest s (List.mem_cons_of_mem _ hs)
    have hturn := removeDotSegmentsTurn_segment hsegment (rest_start rest) (joinSegments slash passed)
    have hinput : slash :: (segment ++ rest.flatMap (slash :: ·)) ≠ [] := List.cons_ne_nil _ _
    rw [List.flatMap_cons, List.cons_append, removeDotSegmentsFrom_turn hinput, hturn,
      PathAlphabet.walk]
    simp only [rest_eq_nil_iff]
    split_ifs with hhere hlast hup hlast
    · rw [joinSegments_append hne]
      exact removeDotSegmentsFrom_slash _
    · exact ih hne hpassed hrest'
    · rw [joinSegments_append (PathAlphabet.pop_ne_nil _), removeLastSegment_joinSegments hne hpassed]
      exact removeDotSegmentsFrom_slash _
    · rw [removeLastSegment_joinSegments hne hpassed]
      exact ih (PathAlphabet.pop_ne_nil _) (pop_noSlash hpassed) hrest'
    · rw [← joinSegments_append hne]
      apply ih (List.append_ne_nil_of_right_ne_nil _ (List.cons_ne_nil _ _)) _ hrest'
      intro s hs
      rcases List.mem_append.mp hs with hs | hs
      · exact hpassed s hs
      · rw [List.mem_singleton.mp hs]
        exact hsegment

/-- The loop over a whole path leads to its normal path. -/
theorem removeDotSegments_joinSegments (hne : segments ≠ [])
    (h : ∀ segment ∈ segments, slash ∉ segment) :
    removeDotSegments (joinSegments slash segments) =
      joinSegments slash (dots.normalize segments) := by
  induction segments with
  | nil => exact absurd rfl hne
  | cons segment rest ih =>
    have hsegment := h segment List.mem_cons_self
    have hrest : ∀ s ∈ rest, slash ∉ s := fun s hs => h s (List.mem_cons_of_mem _ hs)
    have hself : ∀ s ∈ [segment], slash ∉ s := by
      intro s hs
      rw [List.mem_singleton.mp hs]
      exact hsegment
    have hwalk := removeDotSegmentsFrom_walk (List.cons_ne_nil segment []) hself hrest
    have hout : joinSegments slash [segment] = segment := List.append_nil _
    rw [hout] at hwalk
    by_cases hempty : segment = []
    · subst hempty
      have hdot : ¬ dots.IsDot [] := PathAlphabet.empty_not_isDot
      have htext : joinSegments slash ([] :: rest) = rest.flatMap (slash :: ·) := rfl
      rw [removeDotSegments, htext, hwalk]
      cases rest with
      | nil => rw [PathAlphabet.normalize, if_neg hdot, PathAlphabet.walk]
      | cons next rest =>
        rw [PathAlphabet.normalize, if_neg hdot]
        exact List.cons_ne_nil _ _
    · have hturn := removeDotSegmentsTurn_first hempty hsegment (rest_start rest) []
      rw [removeDotSegments, joinSegments,
        removeDotSegmentsFrom_turn (List.append_ne_nil_of_left_ne_nil hempty _), hturn]
      by_cases hdot : dots.IsDot segment
      · rw [if_pos hdot]
        cases rest with
        | nil =>
          rw [PathAlphabet.normalize, if_pos hdot]
          exact removeDotSegmentsFrom_nil []
        | cons next rest =>
          rw [PathAlphabet.normalize, if_pos hdot, ← ih (List.cons_ne_nil _ _) hrest]
          · rfl
          · exact List.cons_ne_nil _ _
      · rw [if_neg hdot, List.nil_append, hwalk]
        cases rest with
        | nil => rw [PathAlphabet.normalize, if_neg hdot, PathAlphabet.walk]
        | cons next rest =>
          rw [PathAlphabet.normalize, if_neg hdot]
          exact List.cons_ne_nil _ _

end loop

/-- The dot segments of every text are removed as those of its segments. -/
theorem removeDotSegments_eq (path : List UInt8) :
    removeDotSegments path = joinSegments slash (dots.normalize (path.splitOn slash)) := by
  rw [← removeDotSegments_joinSegments (List.splitOn_ne_nil slash path)
    fun _ => not_mem_of_mem_splitOn, joinSegments_splitOn]

theorem splitOn_removeDotSegments (path : List UInt8) :
    (removeDotSegments path).splitOn slash = dots.normalize (path.splitOn slash) := by
  rw [removeDotSegments_eq]
  apply splitOn_joinSegments (PathAlphabet.normalize_ne_nil _)
  intro segment hmem
  rcases PathAlphabet.mem_normalize hmem with hmem | rfl
  · exact not_mem_of_mem_splitOn hmem
  · exact List.not_mem_nil

theorem removeDotSegments_isNormal (path : List UInt8) :
    dots.IsNormal ((removeDotSegments path).splitOn slash) := by
  rw [splitOn_removeDotSegments]
  exact PathAlphabet.normalize_isNormal _

theorem removeDotSegments_idempotent (path : List UInt8) :
    removeDotSegments (removeDotSegments path) = removeDotSegments path := by
  rw [removeDotSegments_eq (removeDotSegments path), splitOn_removeDotSegments,
    PathAlphabet.normalize_idempotent, removeDotSegments_eq]

end UrlResolver
end ErbslandCore.Network.Url
