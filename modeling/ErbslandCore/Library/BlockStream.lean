import Mathlib.Data.List.Basic
import Mathlib.Data.Nat.ModEq

namespace ErbslandCore.Library.BlockStream
set_option autoImplicit true

variable {σ α : Type} {process : σ → List α → σ} {k : Nat}

/-- The blocks of `k` symbols of a sequence; the last one may be shorter. -/
def blocks (k : Nat) (x : List α) : List (List α) :=
  if k = 0 ∨ x = [] then [] else x.take k :: blocks k (x.drop k)
termination_by x.length
decreasing_by
  rename_i h
  obtain ⟨hk, hx⟩ := not_or.mp h
  have hp := List.length_pos_iff.mpr hx
  rw [List.length_drop]
  omega

@[simp] theorem blocks_nil : blocks k ([] : List α) = [] := by
  rw [blocks, if_pos (Or.inr rfl)]

theorem blocks_append (hk : 0 < k) {b : List α} (hb : b.length = k) (x : List α) :
    blocks k (b ++ x) = b :: blocks k x := by
  have hne : ¬(k = 0 ∨ b ++ x = []) := by
    rintro (h | h)
    · exact absurd h hk.ne'
    · rw [(List.append_eq_nil_iff.mp h).1] at hb
      exact absurd hb hk.ne
  rw [blocks, if_neg hne, List.take_left' hb, List.drop_left' hb]

/-- A sequence of whole blocks is taken apart block by block. -/
@[elab_as_elim]
theorem induction_blocks {motive : (x : List α) → k ∣ x.length → Prop} (hk : 0 < k)
    (nil : ∀ h, motive [] h)
    (block : ∀ b x, b.length = k → ∀ hx h, motive x hx → motive (b ++ x) h) (x : List α)
    (hx : k ∣ x.length) : motive x hx := by
  induction hn : x.length using Nat.strong_induction_on generalizing x with
  | _ n ih =>
    by_cases he : x = []
    · subst he
      exact nil _
    · have hle : k ≤ x.length := Nat.le_of_dvd (List.length_pos_iff.mpr he) hx
      have hd : k ∣ (x.drop k).length := by
        rw [List.length_drop]
        exact Nat.dvd_sub hx (dvd_refl k)
      have hm := ih _ (by rw [List.length_drop]; omega) _ hd rfl
      have hb := block (x.take k) _ (List.length_take_of_le hle) hd
      simp only [List.take_append_drop] at hb
      exact hb hx hm

theorem length_of_mem_blocks (hk : 0 < k) {x : List α} (hx : k ∣ x.length) :
    ∀ b ∈ blocks k x, b.length = k := by
  induction x, hx using induction_blocks hk with
  | nil _ => simp
  | block b x hb hx _ ih =>
    rw [blocks_append hk hb]
    intro c hc
    rcases List.mem_cons.mp hc with rfl | hc
    · exact hb
    · exact ih c hc

theorem length_blocks (hk : 0 < k) {x : List α} (hx : k ∣ x.length) :
    k * (blocks k x).length = x.length := by
  induction x, hx using induction_blocks hk with
  | nil _ => simp
  | block b x hb hx _ ih =>
    rw [blocks_append hk hb, List.length_cons, List.length_append, Nat.mul_succ, ih, hb, Nat.add_comm]

theorem blocks_concat (hk : 0 < k) {x : List α} (hx : k ∣ x.length) {b : List α}
    (hb : b.length = k) : blocks k (x ++ b) = blocks k x ++ [b] := by
  induction x, hx using induction_blocks hk with
  | nil _ =>
    have h := blocks_append hk hb []
    rw [List.append_nil, blocks_nil] at h
    rw [List.nil_append, blocks_nil, List.nil_append, h]
  | block c x hc hx _ ih => rw [List.append_assoc, blocks_append hk hc, blocks_append hk hc, ih]; rfl

theorem flatten_blocks (hk : 0 < k) {x : List α} (hx : k ∣ x.length) : (blocks k x).flatten = x := by
  induction x, hx using induction_blocks hk with
  | nil _ => simp
  | block b x hb hx _ ih => rw [blocks_append hk hb, List.flatten_cons, ih]

/-- A value that takes in whole blocks, and the symbols of the block that is not whole yet. -/
structure Absorber (σ α : Type) where
  value : σ
  pending : List α

/-- Take in one symbol. -/
def push (process : σ → List α → σ) (k : Nat) (s : Absorber σ α) (a : α) : Absorber σ α :=
  if s.pending.length + 1 = k then ⟨process s.value (s.pending ++ [a]), []⟩
  else ⟨s.value, s.pending ++ [a]⟩

/-- Take in a sequence. -/
def absorb (process : σ → List α → σ) (k : Nat) (s : Absorber σ α) (x : List α) : Absorber σ α :=
  x.foldl (push process k) s

@[simp] theorem absorb_nil (s : Absorber σ α) : absorb process k s [] = s := rfl

/-- How a sequence is cut into pieces does not matter. -/
theorem absorb_append (s : Absorber σ α) (x y : List α) :
    absorb process k s (x ++ y) = absorb process k (absorb process k s x) y :=
  List.foldl_append

theorem absorb_short (s : Absorber σ α) (x : List α) (h : s.pending.length + x.length < k) :
    absorb process k s x = ⟨s.value, s.pending ++ x⟩ := by
  induction x generalizing s with
  | nil => rw [List.append_nil]; rfl
  | cons a x ih =>
    rw [List.length_cons] at h
    have hp : push process k s a = ⟨s.value, s.pending ++ [a]⟩ := if_neg (by omega)
    change absorb process k (push process k s a) x = _
    rw [hp, ih _ (by rw [List.length_append, List.length_singleton]; omega)]
    simp only [List.append_assoc, List.singleton_append]

/-- The symbols that complete the pending block. -/
theorem absorb_fill (s : Absorber σ α) (x : List α) (h : s.pending.length + x.length = k)
    (hx : x ≠ []) : absorb process k s x = ⟨process s.value (s.pending ++ x), []⟩ := by
  obtain ⟨x, a, rfl⟩ := (List.eq_nil_or_concat' x).resolve_left hx
  rw [List.length_append, List.length_singleton] at h
  rw [absorb_append, absorb_short s x (by omega)]
  have hl : (s.pending ++ x).length + 1 = k := by rw [List.length_append]; omega
  change push process k _ a = _
  rw [push, if_pos hl, List.append_assoc]

theorem absorb_blocks (hk : 0 < k) (value : σ) {x : List α} (hx : k ∣ x.length) :
    absorb process k ⟨value, []⟩ x = ⟨(blocks k x).foldl process value, []⟩ := by
  induction x, hx using induction_blocks hk generalizing value with
  | nil _ => simp
  | block b x hb hx _ ih =>
    have hne : b ≠ [] := List.ne_nil_of_length_pos (hb ▸ hk)
    rw [absorb_append, absorb_fill _ _ (by rw [List.length_nil, Nat.zero_add, hb]) hne, ih,
      blocks_append hk hb]
    rfl

theorem length_pending (hk : 0 < k) (s : Absorber σ α) (x : List α) (h : s.pending.length < k) :
    (absorb process k s x).pending.length = (s.pending.length + x.length) % k := by
  induction x generalizing s with
  | nil => rw [absorb_nil, List.length_nil, Nat.add_zero, Nat.mod_eq_of_lt h]
  | cons a x ih =>
    change (absorb process k (push process k s a) x).pending.length = _
    unfold push
    split
    case isTrue hs =>
      rw [ih ⟨_, []⟩ hk, List.length_cons, show s.pending.length + (x.length + 1) = k + x.length by omega,
        Nat.add_mod_left, List.length_nil, Nat.zero_add]
    case isFalse hs =>
      have hl : (s.pending ++ [a]).length < k := by
        rw [List.length_append, List.length_singleton]
        omega
      rw [ih _ hl, List.length_append, List.length_singleton, List.length_cons]
      congr 1
      omega

/-- How many symbols complete the last block of a sequence of that length. -/
def padding (k length : Nat) : Nat := (k - length % k) % k

theorem padding_of_dvd (h : k ∣ length) : padding k length = 0 := by
  rw [padding, Nat.mod_eq_zero_of_dvd h, Nat.sub_zero, Nat.mod_self]

theorem padding_lt (hk : 0 < k) (length : Nat) : padding k length < k := Nat.mod_lt _ hk

theorem padding_of_not_dvd (hk : 0 < k) (h : ¬k ∣ length) : padding k length = k - length % k := by
  have hp : 0 < length % k := Nat.pos_of_ne_zero fun h0 => h (Nat.dvd_of_mod_eq_zero h0)
  exact Nat.mod_eq_of_lt (by omega)

theorem padding_eq_zero (hk : 0 < k) : padding k length = 0 ↔ k ∣ length := by
  refine ⟨fun h => ?_, padding_of_dvd⟩
  by_contra hd
  rw [padding_of_not_dvd hk hd] at h
  have := Nat.mod_lt length hk
  omega

theorem dvd_add_padding (hk : 0 < k) (length : Nat) : k ∣ length + padding k length := by
  by_cases h : k ∣ length
  · rwa [padding_of_dvd h, Nat.add_zero]
  · have hm := Nat.mod_lt length hk
    have hd := Nat.div_add_mod length k
    have he : length + (k - length % k) = k * (length / k + 1) := by rw [Nat.mul_succ]; omega
    rw [padding_of_not_dvd hk h, he]
    exact Nat.dvd_mul_right _ _

theorem padding_add_of_dvd (h : k ∣ m) (n : Nat) : padding k (m + n) = padding k n := by
  obtain ⟨c, rfl⟩ := h
  rw [padding, padding, Nat.mul_add_mod]

/-- The padding is what is missing to the next multiple of the block length, and nothing else. -/
theorem padding_eq_of_dvd (hk : 0 < k) (hd : k ∣ length + m) (hm : m < k) : padding k length = m := by
  have hp := dvd_add_padding hk length
  have hl := padding_lt hk length
  have hmod : (length + m) ≡ (length + padding k length) [MOD k] :=
    (Nat.modEq_zero_iff_dvd.mpr hd).trans (Nat.modEq_zero_iff_dvd.mpr hp).symm
  have hc := Nat.ModEq.add_left_cancel' length hmod
  rw [Nat.ModEq, Nat.mod_eq_of_lt hm, Nat.mod_eq_of_lt hl] at hc
  exact hc.symm

/-- A sequence with its last block completed by a filler. -/
def pad (k : Nat) (fill : α) (x : List α) : List α := x ++ List.replicate (padding k x.length) fill

theorem dvd_length_pad (hk : 0 < k) (fill : α) (x : List α) : k ∣ (pad k fill x).length := by
  rw [pad, List.length_append, List.length_replicate]
  exact dvd_add_padding hk _

theorem pad_of_dvd (fill : α) {x : List α} (h : k ∣ x.length) : pad k fill x = x := by
  rw [pad, padding_of_dvd h, List.replicate_zero, List.append_nil]

theorem pad_nil (fill : α) : pad k fill [] = [] := pad_of_dvd fill (dvd_zero k)

theorem pad_append_of_dvd (fill : α) {x : List α} (h : k ∣ x.length) (y : List α) :
    pad k fill (x ++ y) = x ++ pad k fill y := by
  rw [pad, pad, List.length_append, padding_add_of_dvd h, List.append_assoc]

/-- A sequence without period `k` at its front and end is constant. -/
theorem eq_replicate_of_comm {fill : α} {x : List α} (hk : 0 < k)
    (h : List.replicate k fill ++ x = x ++ List.replicate k fill) : ∀ a ∈ x, a = fill := by
  have hi : ∀ n (hn : n < x.length), x[n] = fill := by
    intro n
    induction n using Nat.strong_induction_on with
    | _ n ih =>
      intro hn
      have hget := congrArg (fun l => l[n]?) h
      simp only [List.getElem?_append, List.length_replicate, if_pos hn] at hget
      by_cases hnk : n < k
      · rw [if_pos hnk, List.getElem?_replicate_of_lt hnk, List.getElem?_eq_getElem hn] at hget
        exact (Option.some.inj hget).symm
      · rw [if_neg hnk, List.getElem?_eq_getElem hn,
          List.getElem?_eq_getElem (show n - k < x.length by omega)] at hget
        rw [← Option.some.inj hget]
        exact ih (n - k) (by omega) (by omega)
  intro a ha
  obtain ⟨n, hn, rfl⟩ := List.getElem_of_mem ha
  exact hi n hn

theorem replicate_comm {fill : α} {x : List α} (h : ∀ a ∈ x, a = fill) (n : Nat) :
    List.replicate n fill ++ x = x ++ List.replicate n fill := by
  rw [List.eq_replicate_of_mem h, List.replicate_append_replicate,
    List.replicate_append_replicate, Nat.add_comm]

end ErbslandCore.Library.BlockStream
