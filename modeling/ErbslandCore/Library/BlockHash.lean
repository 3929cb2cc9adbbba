import Mathlib.Algebra.Polynomial.Roots
import Mathlib.FieldTheory.Finite.GaloisField

namespace ErbslandCore.Library.BlockHash
open Polynomial
set_option autoImplicit true

/-- Add each block to the accumulator and map the result. -/
def chain (add : β → β → β) (f : β → β) (start : β) (blocks : List β) : β :=
  blocks.foldl (fun acc b => f (add acc b)) start

theorem chain_concat (add : β → β → β) (f : β → β) (start : β) (blocks : List β) (b : β) :
    chain add f start (blocks ++ [b]) = f (add (chain add f start blocks) b) := by
  rw [chain, List.foldl_append]
  rfl

section Field
variable {K : Type} [Field K]

/-- The chained hash `y ↦ r * (y + b + e)` as a polynomial in `r`, the last block first. -/
noncomputable def horner (e : K) : List K → K[X]
  | [] => 0
  | b :: blocks => X * (horner e blocks + C (b + e))

theorem eval_horner (e r : K) (blocks : List K) :
    (horner e blocks.reverse).eval r = chain (· + ·) (fun y => r * (y + e)) 0 blocks := by
  induction blocks using List.reverseRecOn with
  | nil => simp [horner, chain]
  | append_singleton blocks b ih =>
    rw [chain_concat, List.reverse_append, List.reverse_singleton, List.singleton_append, horner,
      eval_mul, eval_add, eval_X, eval_C, ih, add_assoc]

theorem natDegree_horner (e : K) (blocks : List K) : (horner e blocks).natDegree ≤ blocks.length := by
  induction blocks with
  | nil => simp [horner]
  | cons b blocks ih =>
    have hadd : (horner e blocks + C (b + e)).natDegree ≤ blocks.length :=
      (natDegree_add_C).trans_le ih
    have hmul := natDegree_mul_le (p := (X : K[X])) (q := horner e blocks + C (b + e))
    have hX := natDegree_X_le (R := K)
    rw [horner, List.length_cons]
    omega

theorem horner_coeff_zero (e : K) (blocks : List K) : (horner e blocks).coeff 0 = 0 := by
  cases blocks with
  | nil => simp [horner]
  | cons b blocks => rw [horner, mul_coeff_zero, coeff_X_zero, zero_mul]

theorem horner_cons_ne_zero (h : b + e ≠ 0) (blocks : List K) : horner e (b :: blocks) ≠ 0 := by
  intro hz
  rw [horner, mul_eq_zero] at hz
  have hc := congrArg (fun p => coeff p 0) (hz.resolve_left X_ne_zero)
  simp only [coeff_add, horner_coeff_zero, coeff_C_zero, zero_add, coeff_zero] at hc
  exact h hc

/-- A polynomial tells its blocks where the offset makes none of them zero. -/
theorem horner_injective {xs ys : List K} (hx : ∀ b ∈ xs, b + e ≠ 0) (hy : ∀ b ∈ ys, b + e ≠ 0)
    (h : horner e xs = horner e ys) : xs = ys := by
  induction xs generalizing ys with
  | nil =>
    cases ys with
    | nil => rfl
    | cons b ys => exact absurd h.symm (horner_cons_ne_zero (hy b List.mem_cons_self) ys)
  | cons a xs ih =>
    cases ys with
    | nil => exact absurd h (horner_cons_ne_zero (hx a List.mem_cons_self) xs)
    | cons b ys =>
      have hq := mul_left_cancel₀ X_ne_zero h
      have hc := congrArg (fun p => coeff p 0) hq
      simp only [coeff_add, horner_coeff_zero, coeff_C_zero, zero_add, add_left_inj] at hc
      subst hc
      rw [ih (fun b hb => hx b (List.mem_cons_of_mem _ hb))
        (fun b hb => hy b (List.mem_cons_of_mem _ hb)) (add_right_cancel hq)]

/-- Over a field with more values than there are blocks, some chained hash tells two different
sequences of blocks apart. -/
theorem exists_chain_ne [Fintype K] {xs ys : List K} (h : xs ≠ ys)
    (hcard : xs.length + ys.length < Fintype.card K) :
    ∃ f : K → K, chain (· + ·) f 0 xs ≠ chain (· + ·) f 0 ys := by
  classical
  obtain ⟨e, he⟩ : ∃ e : K, e ∉ ((xs ++ ys).map (- ·)).toFinset := by
    by_contra hall
    push Not at hall
    have hle := Finset.card_le_card (fun e _ => hall e : Finset.univ ⊆ _)
    have hlen := List.toFinset_card_le ((xs ++ ys).map (- ·))
    rw [List.length_map, List.length_append] at hlen
    rw [Finset.card_univ] at hle
    omega
  have hne : ∀ b ∈ xs ++ ys, b + e ≠ 0 := by
    intro b hb hz
    refine he (List.mem_toFinset.mpr (List.mem_map.mpr ⟨b, hb, ?_⟩))
    exact neg_eq_of_add_eq_zero_right hz
  have hd : horner e xs.reverse - horner e ys.reverse ≠ 0 := by
    intro hz
    refine h (List.reverse_injective (horner_injective (e := e) ?_ ?_ (sub_eq_zero.mp hz)))
    · exact fun b hb => hne b (List.mem_append_left _ (List.mem_reverse.mp hb))
    · exact fun b hb => hne b (List.mem_append_right _ (List.mem_reverse.mp hb))
  have hdeg : (horner e xs.reverse - horner e ys.reverse).natDegree < Fintype.card K := by
    have hmax := natDegree_sub_le (horner e xs.reverse) (horner e ys.reverse)
    have hx := natDegree_horner e xs.reverse
    have hy := natDegree_horner e ys.reverse
    rw [List.length_reverse] at hx hy
    omega
  obtain ⟨r, hr⟩ := exists_eval_ne_zero_of_natDegree_lt_card _ hd
    (by rw [Cardinal.mk_fintype]; exact_mod_cast hdeg)
  refine ⟨fun y => r * (y + e), fun heq => hr ?_⟩
  rw [eval_sub, eval_horner, eval_horner, heq, sub_self]

end Field

/-- The chained hash of the values that stand for the blocks. -/
theorem chain_map {add : β → β → β} {start : β} [AddZeroClass K] (φ : β ≃ K)
    (hadd : ∀ a b, φ (add a b) = φ a + φ b) (hstart : φ start = 0) (f : K → K) (blocks : List β) :
    φ (chain add (fun b => φ.symm (f (φ b))) start blocks) =
      chain (· + ·) f 0 (blocks.map φ) := by
  induction blocks using List.reverseRecOn with
  | nil => exact hstart
  | append_singleton blocks b ih =>
    rw [List.map_append, List.map_singleton, chain_concat, chain_concat, Equiv.apply_symm_apply, hadd,
      ih]

/-- Blocks of `n` bits under a bitwise exclusive or are the values of a field of `2 ^ n` values. -/
theorem exists_field_equiv [Fintype ι] (n : Nat) (hn : n ≠ 0) (hι : Fintype.card ι = n)
    (bits : β ≃ (ι → ZMod 2)) :
    ∃ φ : β ≃ GaloisField 2 n, ∀ (add : β → β → β),
      (∀ a b, bits (add a b) = bits a + bits b) → ∀ a b, φ (add a b) = φ a + φ b := by
  have hfin : Module.finrank (ZMod 2) (GaloisField 2 n) = Fintype.card ι := by
    rw [GaloisField.finrank 2 hn, hι]
  let basis := (Module.finBasisOfFinrankEq (ZMod 2) (GaloisField 2 n) hfin).reindex
    (Fintype.equivFin ι).symm
  refine ⟨bits.trans basis.equivFun.symm.toEquiv, ?_⟩
  intro add hadd a b
  change basis.equivFun.symm (bits (add a b)) = _
  rw [hadd, map_add]
  rfl

/-- Over blocks of `n` bits, some chained hash tells two different sequences of fewer than `2 ^ n`
blocks together apart. -/
theorem exists_chain_ne_of_bits [Fintype ι] {add : β → β → β} {start : β} {xs ys : List β}
    (hι : Fintype.card ι = n) (hn : n ≠ 0) (bits : β ≃ (ι → ZMod 2))
    (hadd : ∀ a b, bits (add a b) = bits a + bits b) (hstart : ∀ a, add start a = a) (h : xs ≠ ys)
    (hcard : xs.length + ys.length < 2 ^ n) :
    ∃ f : β → β, chain add f start xs ≠ chain add f start ys := by
  obtain ⟨φ, hφ⟩ := exists_field_equiv n hn hι bits
  have hφ0 : φ start = 0 := by
    have := hφ add hadd start start
    rw [hstart] at this
    exact left_eq_add.mp this
  have : Fintype (GaloisField 2 n) := Fintype.ofFinite _
  have hc : Fintype.card (GaloisField 2 n) = 2 ^ n := by
    rw [← Nat.card_eq_fintype_card, GaloisField.card 2 n hn]
  obtain ⟨f, hf⟩ := exists_chain_ne (K := GaloisField 2 n)
    (fun heq => h (List.map_injective_iff.mpr φ.injective heq))
    (by rw [List.length_map, List.length_map, hc]; exact hcard)
  refine ⟨fun b => φ.symm (f (φ b)), fun heq => hf ?_⟩
  rw [← chain_map φ (hφ add hadd) hφ0, ← chain_map φ (hφ add hadd) hφ0, heq]

end ErbslandCore.Library.BlockHash
