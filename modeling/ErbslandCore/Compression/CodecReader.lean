import ErbslandCore.Compression.Codec
import ErbslandCore.Mem.BitReader

namespace ErbslandCore.Compression
open Library Mem
set_option autoImplicit true

/-- A byte source over the chunks its callback returns; an empty chunk ends it. -/
structure CodecReader where
  chunks : List (List UInt8)
  data : List UInt8 := []
  position : Nat := 0
  finished : Bool := false
  position_le : position ≤ data.length := by simp
  finished_data : finished = true → data = [] := by simp

namespace CodecReader

/-- Read the next chunk when the current one is used up, and test for the end. -/
def atEnd (r : CodecReader) : Bool × CodecReader :=
  if r.position = r.data.length ∧ r.finished = false then
    let data := r.chunks.headD []
    (data.isEmpty, {
      chunks := r.chunks.tail
      data := data
      finished := data.isEmpty
      finished_data := List.isEmpty_iff.mp })
  else (r.finished, r)

/-- Take the unread part of the current chunk. -/
def take (r : CodecReader) : List UInt8 × CodecReader :=
  match r.atEnd with
  | (true, r) => ([], r)
  | (false, r) => (r.data.drop r.position, { r with
      position := r.data.length
      position_le := Nat.le_refl _ })

/-- Consume a part of the current chunk. -/
def consume (r : CodecReader) (count : Nat) (h : r.position + count ≤ r.data.length) :
    CodecReader :=
  { r with position := r.position + count, position_le := h }

/-- The chunks that come before the end of the source. -/
def pending (r : CodecReader) : List UInt8 :=
  if r.finished then [] else (r.chunks.takeWhile fun c => !c.isEmpty).flatten

/-- The bytes that were not read yet. -/
def unread (r : CodecReader) : List UInt8 := r.data.drop r.position ++ r.pending

theorem atEnd_unread (r : CodecReader) : r.atEnd.2.unread = r.unread := by
  unfold atEnd
  split
  case isTrue h =>
    obtain ⟨hp, hf⟩ := h
    obtain ⟨chunks, data, position, finished, _, _⟩ := r
    simp only at hp hf
    subst hp hf
    simp only [unread, pending, List.drop_length, List.nil_append, List.drop_zero,
      Bool.false_eq_true, ↓reduceIte]
    cases chunks with
    | nil => rfl
    | cons c cs => cases c <;> simp [List.takeWhile]
  case isFalse h => rfl

theorem atEnd_fst (r : CodecReader) : r.atEnd.1 = r.unread.isEmpty := by
  unfold atEnd
  split
  case isTrue h =>
    obtain ⟨hp, hf⟩ := h
    obtain ⟨chunks, data, position, finished, _, _⟩ := r
    simp only at hp hf
    subst hp hf
    simp only [unread, pending, List.drop_length, List.nil_append, Bool.false_eq_true, ↓reduceIte]
    cases chunks with
    | nil => rfl
    | cons c cs => cases c <;> simp [List.takeWhile]
  case isFalse h =>
    have hp := r.position_le
    cases hf : r.finished with
    | true =>
      have hd := r.finished_data hf
      simp [unread, pending, hd, hf]
    | false =>
      have hlt : r.position < r.data.length := by
        rcases Nat.lt_or_eq_of_le hp with h' | h'
        · exact h'
        · exact absurd ⟨h', hf⟩ h
      have hne : r.data.drop r.position ≠ [] := by
        rw [ne_eq, List.drop_eq_nil_iff]
        omega
      simp [unread, hne]

/-- Before the end, the current chunk has an unread byte. -/
theorem atEnd_position (r : CodecReader) (h : r.atEnd.1 = false) :
    r.atEnd.2.position < r.atEnd.2.data.length := by
  unfold atEnd at h ⊢
  split at h
  case isTrue hc =>
    rw [if_pos hc]
    exact List.length_pos_iff.mpr (by simpa using h)
  case isFalse hc =>
    rw [if_neg hc]
    rcases Nat.lt_or_eq_of_le r.position_le with h' | h'
    · exact h'
    · exact absurd ⟨h', h⟩ hc

theorem unread_of_atEnd {r r' : CodecReader} (h : r.atEnd = (true, r')) :
    r.unread = [] ∧ r'.unread = [] := by
  have he := r.atEnd_fst
  have hu := r.atEnd_unread
  rw [h] at he hu
  have hn := List.isEmpty_iff.mp he.symm
  exact ⟨hn, hu.trans hn⟩

theorem unread_of_not_atEnd {r r' : CodecReader} (h : r.atEnd = (false, r')) :
    r.unread ≠ [] ∧ r'.unread = r.unread := by
  have he := r.atEnd_fst
  have hu := r.atEnd_unread
  rw [h] at he hu
  exact ⟨List.isEmpty_eq_false_iff.mp he.symm, hu⟩

theorem take_unread (r : CodecReader) : r.take.1 ++ r.take.2.unread = r.unread := by
  have hu := r.atEnd_unread
  unfold take
  split
  case h_1 r' h =>
    rw [h] at hu
    exact hu
  case h_2 r' h =>
    rw [h] at hu
    rw [← hu]
    simp [unread, pending]

theorem take_ne_nil (r : CodecReader) (h : r.unread ≠ []) : r.take.1 ≠ [] := by
  have hp := r.atEnd_position
  unfold take
  split
  case h_1 r' h' => exact absurd (unread_of_atEnd h').1 h
  case h_2 r' h' =>
    have := hp (by rw [h'])
    rw [h'] at this
    simpa using this

/-- Taking a chunk makes progress. -/
theorem take_progress {r : CodecReader} (h : r.unread ≠ []) :
    r.take.2.unread.length < r.unread.length := by
  have hl := congrArg List.length r.take_unread
  have hp := List.length_pos_iff.mpr (r.take_ne_nil h)
  rw [List.length_append] at hl
  omega

/-- Collect a block from short chunks. -/
def blockLoop (r : CodecReader) (maximum : Nat) (result : List UInt8) :
    List UInt8 × CodecReader :=
  if _hm : result.length < maximum then
    match h : r.atEnd with
    | (true, r') => (result, r')
    | (false, r') =>
      let count := min (maximum - result.length) (r'.data.length - r'.position)
      blockLoop (r'.consume count (by have := r'.position_le; omega)) maximum
        (result ++ (r'.data.drop r'.position).take count)
  else (result, r)
termination_by maximum - result.length
decreasing_by
  have hp := r.atEnd_position (by rw [h])
  rw [h] at hp
  simp only [List.length_append, List.length_take, List.length_drop] at hp ⊢
  omega

/-- Read at most one bounded block. -/
def block (r : CodecReader) (maximum : Nat) : List UInt8 × CodecReader :=
  if maximum = 0 then ([], r)
  else match r.atEnd with
    | (true, r) => ([], r)
    | (false, r) =>
      if h : maximum ≤ r.data.length - r.position then
        ((r.data.drop r.position).take maximum,
          r.consume maximum (by have := r.position_le; omega))
      else blockLoop r maximum []

/-- Require the end of the supplied representation. -/
def requireEnd (r : CodecReader) : Except CodecError CodecReader :=
  match r.atEnd with
  | (true, r) => .ok r
  | (false, _) => throwMalformed "Compressed input has trailing data."

theorem consume_unread (r : CodecReader) (h : r.position + n ≤ r.data.length) :
    (r.consume n h).unread = r.unread.drop n := by
  simp only [consume, unread, pending]
  rw [List.drop_append_of_le_length (by rw [List.length_drop]; omega), List.drop_drop]
  rfl

theorem consume_taken (r : CodecReader) (h : r.position + n ≤ r.data.length) :
    (r.data.drop r.position).take n = r.unread.take n := by
  rw [unread, List.take_append_of_le_length (by rw [List.length_drop]; omega)]

theorem blockLoop_spec (r : CodecReader) (maximum : Nat) (result : List UInt8) :
    (r.blockLoop maximum result).1 = result ++ r.unread.take (maximum - result.length) ∧
      (r.blockLoop maximum result).2.unread = r.unread.drop (maximum - result.length) := by
  fun_induction blockLoop r maximum result with
  | case1 r result hm r' h => simp [unread_of_atEnd h]
  | case2 r result hm r' h count ih =>
    have hp := r'.position_le
    have hu := (unread_of_not_atEnd h).2
    obtain ⟨ih₁, ih₂⟩ := ih
    rw [consume_unread, hu] at ih₁ ih₂
    have hlen : (result ++ (r'.data.drop r'.position).take count).length =
        result.length + count := by
      simp only [List.length_append, List.length_take, List.length_drop]
      omega
    have htake := r'.consume_taken (n := count) (by omega)
    rw [hlen] at ih₁ ih₂
    rw [ih₁, ih₂, htake, hu, List.append_assoc, List.drop_drop,
      show maximum - result.length = count + (maximum - (result.length + count)) by omega,
      List.take_add]
    exact ⟨rfl, rfl⟩
  | case3 r result hm =>
    simp [show maximum - result.length = 0 by omega]

/-- A block is the next `maximum` bytes, however the source was cut into chunks. -/
theorem block_spec (r : CodecReader) (maximum : Nat) :
    (r.block maximum).1 = r.unread.take maximum ∧
      (r.block maximum).2.unread = r.unread.drop maximum := by
  unfold block
  split
  case isTrue hm => simp [hm]
  case isFalse hm =>
    split
    case h_1 r' h => simp [unread_of_atEnd h]
    case h_2 r' h =>
      have hp := r'.position_le
      have hu := (unread_of_not_atEnd h).2
      split
      case isTrue hc =>
        rw [consume_unread, consume_taken r' (by omega), hu]
        exact ⟨rfl, rfl⟩
      case isFalse hc =>
        obtain ⟨h₁, h₂⟩ := r'.blockLoop_spec maximum []
        rw [h₁, h₂, hu]
        exact ⟨rfl, rfl⟩

/-- A source built from nonempty chunks yields their concatenation. -/
theorem unread_mk (chunks : List (List UInt8)) (h : ∀ c ∈ chunks, c ≠ []) :
    ({ chunks := chunks } : CodecReader).unread = chunks.flatten := by
  have ht : (chunks.takeWhile fun c => !c.isEmpty) = chunks := by
    rw [List.takeWhile_eq_self_iff]
    intro c hc
    simpa using h c hc
  simp [unread, pending, ht]

end CodecReader
end ErbslandCore.Compression
