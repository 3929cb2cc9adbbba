import ErbslandCore.Library.StepFunctions
import ErbslandCore.Time.TimeAmounts
import Mathlib.Data.List.Pairwise

namespace ErbslandCore.Time
open Library Math NativeInteger Amount
set_option autoImplicit true

instance : DecidableEq (IntegerAmount unit ratio) := fun first second =>
  decidable_of_iff (first.value.val = second.value.val) (by
    rw [IntegerAmount.ext_iff, Value.ext_iff])

inductive TimeReference where
  | utc
  | localTime
  deriving DecidableEq

inductive TimeOccurrenceInFold where
  | first
  | second
  deriving DecidableEq

structure OffsetDetails where
  total : Seconds
  dst : Seconds
  abbreviation : UInt8

/-- The data of a zone, as the lookup of the offset at a moment. -/
structure Info where
  details : Seconds → TimeReference → OffsetDetails

/-- Append an element unless there is one with its key. -/
def emplaceNew [DecidableEq κ] (key : α → κ) (result : List α) (x : α) : List α :=
  if result.any (fun y => key y = key x) then result else result ++ [x]

/-- The new element is found afterwards when its key is that of no other one. -/
theorem mem_emplaceNew [DecidableEq κ] {key : α → κ}
    (hkey : ∀ y ∈ result, key y = key x → y = x) :
    z ∈ emplaceNew key result x ↔ z ∈ result ∨ z = x := by
  rw [emplaceNew]
  split_ifs with hany
  · obtain ⟨y, hy, hsame⟩ := List.any_eq_true.mp hany
    have hyx := hkey y hy (of_decide_eq_true hsame)
    constructor
    · exact .inl
    · rintro (hz | rfl)
      · exact hz
      · exact hyx ▸ hy
  · rw [List.mem_append, List.mem_singleton]

/-- A moment of UTC that may be meant by a local time. -/
structure Candidate where
  utc : Seconds
  details : OffsetDetails

namespace Info

def probes : List Seconds :=
  [0, 3600, -3600, 7200, -7200, 10800, -10800, 43200, -43200, 86400, -86400].map
    fun probe => ⟨.staticCast int64 probe⟩

/-- The different offsets around a local time. -/
def candidateOffsets (localSeconds : Seconds) (info : Info) : List Seconds :=
  probes.foldl (fun result probe =>
    emplaceNew id result (info.details (localSeconds.add probe) .utc).total) []

def addCandidate (info : Info) (localSeconds : Seconds) (candidates : List Candidate)
    (offset : Seconds) : List Candidate :=
  let utc := localSeconds.subtract offset
  let detailsAtUtc := info.details utc .utc
  if utc.add detailsAtUtc.total = localSeconds then
    emplaceNew Candidate.utc candidates { utc := utc, details := detailsAtUtc }
  else candidates

def candidates (info : Info) (localSeconds : Seconds) : List Candidate :=
  ((candidateOffsets localSeconds info).foldl (info.addCandidate localSeconds) []).mergeSort
    fun first second => first.utc.value.val ≤ second.utc.value.val

/-- The details for a local time; of several moments, the first or the last one. -/
def detailsForLocal (info : Info) (localSeconds : Seconds) (occurrence : TimeOccurrenceInFold) :
    OffsetDetails :=
  match info.candidates localSeconds with
  | [] => info.details localSeconds .localTime
  | front :: rest =>
    if rest = [] ∨ occurrence = .first then front.details
    else ((front :: rest).getLast (List.cons_ne_nil _ _)).details

section lookup
variable {info : Info} {localSeconds : Seconds}

/-- A moment whose local time by the lookup is the given one, with its details. -/
def IsCandidate (info : Info) (localSeconds : Seconds) (c : Candidate) : Prop :=
  c.details = info.details c.utc .utc ∧ c.utc.add c.details.total = localSeconds

theorem IsCandidate.eq_of_utc (h : info.IsCandidate localSeconds c)
    (h' : info.IsCandidate localSeconds c') (hutc : c.utc = c'.utc) : c = c' := by
  cases c with
  | mk utc details =>
    cases c' with
    | mk utc' details' =>
      cases hutc
      rw [Candidate.mk.injEq]
      exact ⟨rfl, h.1.trans h'.1.symm⟩

theorem mem_candidateOffsets :
    offset ∈ candidateOffsets localSeconds info ↔
      ∃ probe ∈ probes, offset = (info.details (localSeconds.add probe) .utc).total := by
  have hfold : ∀ (l : List Seconds) result,
      offset ∈ l.foldl (fun result probe =>
        emplaceNew id result (info.details (localSeconds.add probe) .utc).total) result ↔
      offset ∈ result ∨ ∃ probe ∈ l, offset = (info.details (localSeconds.add probe) .utc).total := by
    intro l
    induction l with
    | nil => simp
    | cons probe l ih =>
      intro result
      rw [List.foldl_cons, ih, mem_emplaceNew (fun _ _ (h : id _ = id _) => h), List.exists_mem_cons_iff, or_assoc]
  rw [candidateOffsets, hfold]
  simp

/-- The candidates come from the offsets of the probes, and each is a moment of the local time. -/
theorem mem_candidates :
    c ∈ info.candidates localSeconds ↔ info.IsCandidate localSeconds c ∧
      ∃ offset ∈ candidateOffsets localSeconds info, c.utc = localSeconds.subtract offset := by
  have hstep : ∀ offset result, (∀ y ∈ result, info.IsCandidate localSeconds y) → ∀ c,
      c ∈ info.addCandidate localSeconds result offset ↔
      c ∈ result ∨ info.IsCandidate localSeconds c ∧ c.utc = localSeconds.subtract offset := by
    intro offset result hresult c
    simp only [addCandidate]
    split_ifs with hlocal
    · have hnew : info.IsCandidate localSeconds
        { utc := localSeconds.subtract offset
          details := info.details (localSeconds.subtract offset) .utc } := ⟨rfl, hlocal⟩
      rw [mem_emplaceNew (fun y hy => (hresult y hy).eq_of_utc hnew)]
      refine or_congr_right ⟨?_, fun ⟨hc, hutc⟩ => hc.eq_of_utc hnew hutc⟩
      rintro rfl
      exact ⟨hnew, rfl⟩
    · refine ⟨.inl, ?_⟩
      rintro (hc | ⟨⟨hdetails, hsum⟩, hutc⟩)
      · exact hc
      · rw [hdetails, hutc] at hsum
        exact absurd hsum hlocal
  have hfold : ∀ (l : List Seconds) result, (∀ y ∈ result, info.IsCandidate localSeconds y) →
      (c ∈ l.foldl (info.addCandidate localSeconds) result ↔
      c ∈ result ∨ info.IsCandidate localSeconds c ∧
        ∃ offset ∈ l, c.utc = localSeconds.subtract offset) := by
    intro l
    induction l with
    | nil => simp
    | cons offset l ih =>
      intro result hresult
      have hnext : ∀ y ∈ info.addCandidate localSeconds result offset,
          info.IsCandidate localSeconds y := by
        intro y hy
        rcases (hstep offset result hresult y).mp hy with hy | hy
        · exact hresult y hy
        · exact hy.1
      rw [List.foldl_cons, ih _ hnext, hstep offset result hresult, List.exists_mem_cons_iff,
        or_assoc, and_or_left]
  rw [candidates, List.mem_mergeSort, hfold _ _ (by simp)]
  simp

/-- The lookup by UTC follows the offsets of a time zone. -/
structure Follows (info : Info) (offset : Int → Int) : Prop where
  total : ∀ s : Seconds, (info.details s .utc).total.value.val = offset s.value.val
  bounded : ∀ s, -43200 ≤ offset s ∧ offset s ≤ 50400
  steps : IsStepFunction 86400 offset

/-- The days around a local time can be represented. -/
def IsInside (s : Seconds) : Prop :=
  int64.Represents (s.value.val - 86400) ∧ int64.Represents (s.value.val + 86400)

theorem add_probe (hinside : IsInside localSeconds) (hprobe : -86400 ≤ probe ∧ probe ≤ 86400) :
    (localSeconds.add ⟨.staticCast int64 probe⟩).value.val = localSeconds.value.val + probe := by
  obtain ⟨hlow, hhigh⟩ := hinside
  rw [int64_represents] at hlow hhigh
  have hcast : (Value.staticCast int64 probe).val = probe := by
    apply Value.staticCast_val
    rw [int64_represents]
    omega
  have hsum : (localSeconds.value.added (.staticCast int64 probe)).val = _ := Value.added_val _ _ (by
    rw [hcast, int64_represents]
    omega)
  rw [IntegerAmount.add, hsum, hcast]

theorem IsCandidate.iff (h : info.Follows offset) (hinside : IsInside localSeconds) :
    info.IsCandidate localSeconds c ↔ c.details = info.details c.utc .utc ∧
      c.utc.value.val + offset c.utc.value.val = localSeconds.value.val := by
  obtain ⟨hlow, hhigh⟩ := hinside
  rw [int64_represents] at hlow hhigh
  refine and_congr_right fun hdetails => ?_
  rw [hdetails, IntegerAmount.ext_iff, Value.ext_iff, IntegerAmount.add, Value.added_eq,
    Value.clamp_val, h.total, int64_minimum, int64_maximum]
  omega

/-- One of three probes finds the offset of each moment of a local time. -/
theorem probe_finds (h : info.Follows offset) (hinside : IsInside localSeconds)
    (hutc : utc + offset utc = localSeconds.value.val) :
    ∃ probe ∈ probes, (info.details (localSeconds.add probe) .utc).total.value.val = offset utc := by
  have hbound := h.bounded utc
  have hsees : ∀ probe : Int, -86400 ≤ probe ∧ probe ≤ 86400 →
      offset (localSeconds.value.val + probe) = offset utc →
      (⟨.staticCast int64 probe⟩ : Seconds) ∈ probes →
      ∃ probe ∈ probes,
        (info.details (localSeconds.add probe) .utc).total.value.val = offset utc := by
    intro probe hprobe hsame hmem
    refine ⟨_, hmem, ?_⟩
    rw [h.total, add_probe hinside hprobe, hsame]
  rcases lt_or_ge utc localSeconds.value.val with hbefore | hafter
  · rcases h.steps.probe (by decide) (show localSeconds.value.val + -86400 ≤ utc by omega)
      (show utc < localSeconds.value.val + 0 by omega) (by omega) with hsame | hsame
    · exact hsees (-86400) (by decide) hsame (by decide)
    · exact hsees 0 (by decide) hsame (by decide)
  · rcases h.steps.probe (by decide) (show localSeconds.value.val + 0 ≤ utc by omega)
      (show utc < localSeconds.value.val + 86400 by omega) (by omega) with hsame | hsame
    · exact hsees 0 (by decide) hsame (by decide)
    · exact hsees 86400 (by decide) hsame (by decide)

/-- The candidates are all moments of the local time, and no other ones. -/
theorem mem_candidates_iff (h : info.Follows offset) (hinside : IsInside localSeconds) :
    c ∈ info.candidates localSeconds ↔ c.details = info.details c.utc .utc ∧
      c.utc.value.val + offset c.utc.value.val = localSeconds.value.val := by
  rw [mem_candidates, IsCandidate.iff h hinside]
  refine ⟨And.left, fun hc => ⟨hc, ?_⟩⟩
  obtain ⟨probe, hprobe, htotal⟩ := probe_finds h hinside hc.2
  refine ⟨_, mem_candidateOffsets.mpr ⟨probe, hprobe, rfl⟩, ?_⟩
  rw [IntegerAmount.ext_iff, Value.ext_iff, IntegerAmount.subtract, Value.subtracted_eq,
    Value.clamp_of_represents, htotal]
  · omega
  · rw [htotal, ← hc.2, Int.add_sub_cancel]
    exact c.utc.value.represents

theorem candidates_sorted (info : Info) (localSeconds : Seconds) :
    (info.candidates localSeconds).Pairwise
      fun first second => first.utc.value.val ≤ second.utc.value.val := by
  have hsorted : (info.candidates localSeconds).Pairwise fun first second =>
      decide (first.utc.value.val ≤ second.utc.value.val) = true := by
    apply List.pairwise_mergeSort
    · intro a b c hab hbc
      rw [decide_eq_true_iff] at *
      exact hab.trans hbc
    · intro a b
      rw [Bool.or_eq_true, decide_eq_true_iff, decide_eq_true_iff]
      exact le_total _ _
  exact hsorted.imp of_decide_eq_true

theorem detailsForLocal_eq (hne : info.candidates localSeconds ≠ []) :
    info.detailsForLocal localSeconds .first = ((info.candidates localSeconds).head hne).details ∧
      info.detailsForLocal localSeconds .second =
        ((info.candidates localSeconds).getLast hne).details := by
  simp only [detailsForLocal]
  generalize info.candidates localSeconds = l at hne
  match l, hne with
  | [front], _ => exact ⟨rfl, rfl⟩
  | front :: next :: rest, _ => exact ⟨by simp, by simp⟩

/-- A candidate is the moment that it is bounded by on both sides. -/
theorem candidate_details (h : info.Follows offset) (hinside : IsInside localSeconds)
    (hc : c ∈ info.candidates localSeconds) {utc : Seconds} (hle : c.utc.value.val ≤ utc.value.val)
    (hge : utc.value.val ≤ c.utc.value.val) : c.details = info.details utc .utc := by
  have heq : c.utc = utc := IntegerAmount.ext (Value.ext (le_antisymm hle hge))
  rw [((mem_candidates_iff h hinside).mp hc).1, heq]

section occurrences
variable {utc : Seconds} (h : info.Follows offset) (hinside : IsInside localSeconds)
  (hutc : utc.value.val + offset utc.value.val = localSeconds.value.val)
include h hinside hutc

theorem candidate_mem : (⟨utc, info.details utc .utc⟩ : Candidate) ∈ info.candidates localSeconds :=
  (mem_candidates_iff h hinside).mpr ⟨rfl, hutc⟩

/-- The first occurrence of a local time is its earliest moment. -/
theorem detailsForLocal_first
    (hleast : ∀ other, other + offset other = localSeconds.value.val → utc.value.val ≤ other) :
    info.detailsForLocal localSeconds .first = info.details utc .utc := by
  have hmem := candidate_mem h hinside hutc
  have hne := List.ne_nil_of_mem hmem
  have hfront := List.head_mem hne
  rw [(detailsForLocal_eq hne).1]
  apply candidate_details h hinside hfront
  · exact (info.candidates_sorted localSeconds).rel_head_of_rel_head_head hmem (le_refl _)
  · exact hleast _ ((mem_candidates_iff h hinside).mp hfront).2

/-- The other occurrence of a local time is its latest moment. -/
theorem detailsForLocal_second
    (hgreatest : ∀ other, other + offset other = localSeconds.value.val → other ≤ utc.value.val) :
    info.detailsForLocal localSeconds .second = info.details utc .utc := by
  have hmem := candidate_mem h hinside hutc
  have hne := List.ne_nil_of_mem hmem
  have hback := List.getLast_mem hne
  rw [(detailsForLocal_eq hne).2]
  apply candidate_details h hinside hback
  · exact hgreatest _ ((mem_candidates_iff h hinside).mp hback).2
  · exact (info.candidates_sorted localSeconds).rel_getLast_of_rel_getLast_getLast hmem (le_refl _)

end occurrences

/-- The local time of a moment leads back to the moment, when it occurs once; of two moments, the
earlier one is the first occurrence and the later one the other. -/
theorem detailsForLocal_inverts (info : Info) (offset : Int → Int) (h : info.Follows offset)
    (utc localSeconds : Seconds) (hlow : int64.Represents (utc.value.val - 172800))
    (hhigh : int64.Represents (utc.value.val + 172800))
    (hlocal : localSeconds = utc.add (info.details utc .utc).total) :
    ((∀ other, other + offset other = utc.value.val + offset utc.value.val →
        other = utc.value.val) →
      ∀ occurrence, info.detailsForLocal localSeconds occurrence = info.details utc .utc) ∧
    ∀ earlier later : Seconds, earlier.value.val < later.value.val →
      (∀ other, other + offset other = utc.value.val + offset utc.value.val ↔
        other = earlier.value.val ∨ other = later.value.val) →
      info.detailsForLocal localSeconds .first = info.details earlier .utc ∧
        info.detailsForLocal localSeconds .second = info.details later .utc := by
  have hbound := h.bounded utc.value.val
  rw [int64_represents] at hlow hhigh
  have hsum : localSeconds.value.val = utc.value.val + offset utc.value.val := by
    have hadded := Value.added_val utc.value (info.details utc .utc).total.value (by
      rw [h.total, int64_represents]
      omega)
    rw [hlocal, ← h.total]
    exact hadded
  have hinside : IsInside localSeconds := by
    rw [IsInside, int64_represents, int64_represents]
    omega
  rw [← hsum]
  constructor
  · intro honce occurrence
    cases occurrence with
    | first => exact detailsForLocal_first h hinside hsum.symm fun other ho => (honce other ho).ge
    | second => exact detailsForLocal_second h hinside hsum.symm fun other ho => (honce other ho).le
  · intro earlier later hlt htwice
    constructor
    · apply detailsForLocal_first h hinside ((htwice _).mpr (.inl rfl))
      intro other hother
      rcases (htwice other).mp hother with rfl | rfl
      · exact le_refl _
      · exact hlt.le
    · apply detailsForLocal_second h hinside ((htwice _).mpr (.inr rfl))
      intro other hother
      rcases (htwice other).mp hother with rfl | rfl
      · exact hlt.le
      · exact le_refl _

end lookup

def fallBackOffset (s : Int) : Int := if s < 1000000 then 7200 else 3600

/-- A zone whose clocks go back by an hour. -/
def fallBack : Info where
  details s _ :=
    { total := ⟨.staticCast int64 (fallBackOffset s.value.val)⟩
      dst := .zero
      abbreviation := 0 }

theorem fallBack_follows : fallBack.Follows fallBackOffset where
  total s := by
    apply Value.staticCast_val
    rw [int64_represents, fallBackOffset]
    split_ifs <;> omega
  bounded s := by
    rw [fallBackOffset]
    split_ifs <;> omega
  steps := by
    refine ⟨{1000000}, ?_, ?_⟩
    · rintro s rfl t rfl hlt
      omega
    · intro x y hle hnone
      have hsame := hnone 1000000 rfl
      rw [fallBackOffset, fallBackOffset]
      split_ifs <;> omega

theorem detailsForLocal_inverts_fallBack :
    fallBack.detailsForLocal ⟨.staticCast int64 1005200⟩ .first =
        fallBack.details ⟨.staticCast int64 998000⟩ .utc ∧
      fallBack.detailsForLocal ⟨.staticCast int64 1005200⟩ .second =
        fallBack.details ⟨.staticCast int64 1001600⟩ .utc := by
  apply (detailsForLocal_inverts fallBack fallBackOffset fallBack_follows
    ⟨.staticCast int64 998000⟩ ⟨.staticCast int64 1005200⟩ (by decide) (by decide) (by decide)).2
  · decide
  · intro other
    have hearlier : (Value.staticCast int64 998000).val = 998000 := rfl
    have hlater : (Value.staticCast int64 1001600).val = 1001600 := rfl
    rw [hearlier, hlater, fallBackOffset, fallBackOffset]
    split_ifs <;> omega

end Info
end ErbslandCore.Time
