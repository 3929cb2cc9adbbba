import ErbslandCore.Cryptology.X509.CertificationPath

namespace ErbslandCore.Cryptology
open Library
set_option autoImplicit true

namespace X509ServerCertificateValidator

variable {Certificate : Type} [DecidableEq Certificate] {r : X509ValidationRequest Certificate}

section
variable (s : X509ServerCertificateValidator Certificate)
  (category : X509CertificateValidationFailureCategory) (certificate : Option Certificate)
  (diagnostic : String) (issuer : Option Certificate)

omit [DecidableEq Certificate]

@[simp] theorem recordFailure_candidates :
    (s.recordFailure category certificate diagnostic issuer).candidates = s.candidates := by
  unfold recordFailure
  split <;> rfl

@[simp] theorem recordFailure_path :
    (s.recordFailure category certificate diagnostic issuer).path = s.path := by
  unfold recordFailure
  split <;> rfl

@[simp] theorem recordFailure_verifiedEdges :
    (s.recordFailure category certificate diagnostic issuer).verifiedEdges = s.verifiedEdges := by
  unfold recordFailure
  split <;> rfl

@[simp] theorem recordFailure_resourceLimitExhausted :
    (s.recordFailure category certificate diagnostic issuer).resourceLimitExhausted =
      s.resourceLimitExhausted := by
  unfold recordFailure
  split <;> rfl

end

/-- The candidates that stand for a part of the pool: each certificate once, and marked when it
occurred as an anchor. -/
structure Gathered (target : Certificate) (seen : List (Certificate × Bool))
    (cs : List (Candidate Certificate)) : Prop where
  distinct : (cs.map (·.certificate)).Nodup
  known : ∀ c ∈ cs, c.certificate ≠ target ∧ ∃ anchor, (c.certificate, anchor) ∈ seen
  marked : ∀ c ∈ cs, c.isAnchor = true ↔ (c.certificate, true) ∈ seen
  complete : ∀ entry ∈ seen, entry.1 ≠ target → entry.1 ∈ cs.map (·.certificate)

theorem map_addCandidate (target certificate : Certificate) (anchor : Bool)
    (cs : List (Candidate Certificate)) :
    (addCandidate target certificate anchor cs).map (·.certificate) =
      if certificate ∈ cs.map (·.certificate) ∨ certificate = target then cs.map (·.certificate)
      else cs.map (·.certificate) ++ [certificate] := by
  induction cs with
  | nil =>
    unfold addCandidate
    by_cases h : certificate = target <;> simp [h]
  | cons c cs ih =>
    unfold addCandidate
    by_cases h : c.certificate = certificate
    · simp [h]
    · rw [if_neg h, List.map_cons, ih, List.map_cons]
      simp only [List.mem_cons, Ne.symm h, false_or]
      split <;> rfl

theorem mem_addCandidate {target certificate : Certificate} {anchor : Bool}
    {cs : List (Candidate Certificate)} (hdistinct : (cs.map (·.certificate)).Nodup)
    {x : Candidate Certificate} (hx : x ∈ addCandidate target certificate anchor cs) :
    (x ∈ cs ∧ x.certificate ≠ certificate) ∨
      (∃ old ∈ cs, old.certificate = certificate ∧
        x = { old with isAnchor := old.isAnchor || anchor }) ∨
      (certificate ∉ cs.map (·.certificate) ∧ certificate ≠ target ∧ x = ⟨certificate, anchor⟩) := by
  induction cs with
  | nil =>
    unfold addCandidate at hx
    by_cases h : certificate = target
    · simp [h] at hx
    · rw [if_neg h, List.mem_singleton] at hx
      exact .inr (.inr ⟨List.not_mem_nil, h, hx⟩)
  | cons c cs ih =>
    rw [List.map_cons, List.nodup_cons] at hdistinct
    unfold addCandidate at hx
    by_cases h : c.certificate = certificate
    · rw [if_pos h, List.mem_cons] at hx
      rcases hx with rfl | hx
      · exact .inr (.inl ⟨c, List.mem_cons_self .., h, rfl⟩)
      · refine .inl ⟨List.mem_cons_of_mem _ hx, fun heq => hdistinct.1 ?_⟩
        exact List.mem_map.2 ⟨x, hx, heq.trans h.symm⟩
    · rw [if_neg h, List.mem_cons] at hx
      rcases hx with rfl | hx
      · exact .inl ⟨List.mem_cons_self .., h⟩
      · rcases ih hdistinct.2 hx with ⟨hmem, hne⟩ | ⟨old, hold, heq⟩ | ⟨hnew, hne, heq⟩
        · exact .inl ⟨List.mem_cons_of_mem _ hmem, hne⟩
        · exact .inr (.inl ⟨old, List.mem_cons_of_mem _ hold, heq⟩)
        · exact .inr (.inr ⟨by simpa using ⟨Ne.symm h, by simpa using hnew⟩, hne, heq⟩)

theorem Gathered.addCandidate {target : Certificate} (h : Gathered target seen cs)
    (certificate : Certificate) (anchor : Bool) :
    Gathered target (seen ++ [(certificate, anchor)])
      (addCandidate target certificate anchor cs) := by
  constructor
  · rw [map_addCandidate]
    split
    next => exact h.distinct
    next hnew =>
      exact List.nodup_append'.2 ⟨h.distinct, List.nodup_singleton _,
        List.disjoint_singleton.2 fun hmem => hnew (.inl hmem)⟩
  · intro x hx
    rcases mem_addCandidate h.distinct hx with ⟨hmem, _⟩ | ⟨old, hold, _, rfl⟩ | ⟨_, hne, rfl⟩
    · obtain ⟨hne, a, ha⟩ := h.known x hmem
      exact ⟨hne, a, List.mem_append_left _ ha⟩
    · obtain ⟨hne, a, ha⟩ := h.known old hold
      exact ⟨hne, a, List.mem_append_left _ ha⟩
    · exact ⟨hne, anchor, by simp⟩
  · intro x hx
    rcases mem_addCandidate h.distinct hx with ⟨hmem, hne⟩ | ⟨old, hold, heq, rfl⟩ | ⟨hnew, _, rfl⟩
    · rw [h.marked x hmem]
      simp [hne]
    · have := h.marked old hold
      cases anchor <;> simp_all
    · have hunseen : (certificate, true) ∉ seen := fun hmem =>
        hnew (h.complete _ hmem ‹certificate ≠ target›)
      cases anchor <;> simp [hunseen]
  · intro entry hentry hne
    rw [map_addCandidate]
    rcases List.mem_append.1 hentry with hentry | hentry
    · have := h.complete entry hentry hne
      split
      next => exact this
      next => exact List.mem_append_left _ this
    · cases List.mem_singleton.1 hentry
      split
      next hold => exact hold.resolve_right hne
      next => exact List.mem_append_right _ (List.mem_singleton_self _)

/-- The candidates that stand for everything that was sent or configured. -/
structure Collected (r : X509ValidationRequest Certificate) (target : Certificate)
    (cs : List (Candidate Certificate)) : Prop where
  complete : ∀ c, c ∈ r.trustAnchors ∨ c ∈ r.peerCertificates ∨ c ∈ r.intermediates →
    ∃ candidate ∈ cs, candidate.certificate = c
  anchor : ∀ candidate ∈ cs, candidate.certificate ≠ target →
    (candidate.isAnchor = true ↔ candidate.certificate ∈ r.trustAnchors)
  known : ∀ candidate ∈ cs, candidate.certificate ∈ r.trustAnchors ∨
    candidate.certificate ∈ r.peerCertificates ∨ candidate.certificate ∈ r.intermediates

/-- An entry hits the limit, or becomes a candidate. -/
theorem collect_cons (target certificate : Certificate) (anchor : Bool)
    (entries : List (Certificate × Bool)) (count : Nat)
    (s : X509ServerCertificateValidator Certificate) :
    (∃ limited, limited.resourceLimitExhausted = true ∧
      collect target ((certificate, anchor) :: entries) count s = (false, limited)) ∨
    ∃ total, collect target ((certificate, anchor) :: entries) count s = collect target entries total
      { s with candidates := addCandidate target certificate anchor s.candidates } := by
  rw [collect]
  by_cases hlimit : (certificate ≠ target ∧ ∀ c ∈ s.candidates, c.certificate ≠ certificate) ∧
      X509ServerCertificatePolicy.cMaximumCandidateCertificates <
        if certificate ≠ target ∧ ∀ c ∈ s.candidates, c.certificate ≠ certificate then count + 1
        else count
  · exact .inl ⟨_, rfl, if_pos hlimit⟩
  · exact .inr ⟨_, if_neg hlimit⟩

theorem collect_gathered {target : Certificate} {entries seen : List (Certificate × Bool)}
    {count : Nat} {s : X509ServerCertificateValidator Certificate}
    (hs : Gathered target seen s.candidates) (hok : (collect target entries count s).1 = true) :
    ∃ cs, Gathered target (seen ++ entries) cs ∧
      (collect target entries count s).2 = { s with candidates := cs ++ [⟨target, false⟩] } := by
  induction entries generalizing seen count s with
  | nil => exact ⟨s.candidates, by rwa [List.append_nil], rfl⟩
  | cons entry entries ih =>
    obtain ⟨certificate, anchor⟩ := entry
    obtain ⟨limited, _, heq⟩ | ⟨total, heq⟩ := collect_cons target certificate anchor entries count s
    · rw [heq] at hok
      cases hok
    · rw [heq] at hok ⊢
      obtain ⟨cs, hcs, hresult⟩ := ih (hs.addCandidate certificate anchor) hok
      exact ⟨cs, by rwa [List.append_assoc] at hcs, hresult⟩

theorem collect_limit {target : Certificate} {entries : List (Certificate × Bool)} {count : Nat}
    {s : X509ServerCertificateValidator Certificate}
    (hfail : (collect target entries count s).1 = false) :
    (collect target entries count s).2.resourceLimitExhausted = true := by
  induction entries generalizing count s with
  | nil => cases hfail
  | cons entry entries ih =>
    obtain ⟨certificate, anchor⟩ := entry
    obtain ⟨limited, hlimited, heq⟩ | ⟨total, heq⟩ :=
      collect_cons target certificate anchor entries count s
    · rw [heq]
      exact hlimited
    · rw [heq] at hfail ⊢
      exact ih hfail

/-- What is collected stands for the whole pool, and nothing else has changed. -/
theorem collectCandidates_collected {target : Certificate}
    (htarget : r.peerCertificates.head? = some target)
    (hok : (collectCandidates r target {}).1 = true) :
    ∃ cs, Collected r target cs ∧ (collectCandidates r target {}).2 = { candidates := cs } := by
  have hempty : Gathered target [] ({} : X509ServerCertificateValidator Certificate).candidates :=
    ⟨List.nodup_nil, by simp, by simp, by simp⟩
  obtain ⟨cs, hcs, heq⟩ := collect_gathered hempty hok
  rw [List.nil_append] at hcs
  obtain ⟨peers, hpeers⟩ : ∃ peers, r.peerCertificates = target :: peers := by
    cases h : r.peerCertificates with
    | nil => simp [h] at htarget
    | cons c peers => exact ⟨peers, by simp_all⟩
  refine ⟨_, ⟨?_, ?_, ?_⟩, heq⟩
  · intro c hc
    by_cases hne : c = target
    · exact ⟨⟨target, false⟩, by simp, hne.symm⟩
    · have hentry : ∃ a, (c, a) ∈ pool r := by
        simp only [pool, hpeers, List.tail_cons, List.mem_append, List.mem_map, Prod.mk.injEq]
        rw [hpeers, List.mem_cons] at hc
        rcases hc with hc | (hc | hc) | hc
        · exact ⟨true, by simpa using hc⟩
        · exact absurd hc hne
        · exact ⟨false, by simp [hc]⟩
        · exact ⟨false, by simp [hc]⟩
      obtain ⟨a, ha⟩ := hentry
      obtain ⟨candidate, hmem, rfl⟩ := List.mem_map.1 (hcs.complete _ ha hne)
      exact ⟨candidate, List.mem_append_left _ hmem, rfl⟩
  · intro candidate hmem hne
    rcases List.mem_append.1 hmem with hmem | hmem
    · rw [hcs.marked candidate hmem]
      simp only [pool, List.mem_append, List.mem_map, Prod.mk.injEq, Bool.false_eq_true, and_false,
        exists_false, false_or, and_true, exists_eq_right]
    · exact absurd (by rw [List.mem_singleton.1 hmem]) hne
  · intro candidate hmem
    rcases List.mem_append.1 hmem with hmem | hmem
    · obtain ⟨_, a, ha⟩ := hcs.known candidate hmem
      simp only [pool, hpeers, List.tail_cons, List.mem_append, List.mem_map, Prod.mk.injEq] at ha
      rcases ha with (⟨c, hc, rfl, _⟩ | ⟨c, hc, rfl, _⟩) | ⟨c, hc, rfl, _⟩
      · exact .inr (.inl (hpeers ▸ List.mem_cons_of_mem _ hc))
      · exact .inr (.inr hc)
      · exact .inl hc
    · rw [List.mem_singleton.1 hmem, hpeers]
      exact .inr (.inl (List.mem_cons_self ..))

end X509ServerCertificateValidator
end ErbslandCore.Cryptology
