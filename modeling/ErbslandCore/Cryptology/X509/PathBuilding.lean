import ErbslandCore.Cryptology.X509.CandidateCollection

namespace ErbslandCore.Cryptology
open Library X509ServerCertificatePolicy
set_option autoImplicit true

namespace X509ServerCertificateValidator

variable {Certificate : Type} [DecidableEq Certificate] {r : X509ValidationRequest Certificate}

/-- Some verification of a signature ends with an exception of the family that is not caught. -/
def LeavesUncaught (r : X509ValidationRequest Certificate) : Prop :=
  ∃ child issuer, r.access.verifySignature child issuer = .error .logic

omit [DecidableEq Certificate] in
theorem signatureStatus_valid {child issuer : Certificate} :
    signatureStatus r child issuer = .ok .valid ↔
      r.access.signatureUnusedBitCount child = 0 ∧
        r.access.verifySignature child issuer = .ok true := by
  unfold signatureStatus
  split
  next h => simp [h]
  next h =>
    rw [Decidable.not_not] at h
    match r.access.verifySignature child issuer with
    | .ok true => simp [h]
    | .ok false => simp
    | .error .runtime => simp
    | .error .logic => simp

omit [DecidableEq Certificate] in
theorem signatureStatus_error {child issuer : Certificate} {family : ErrorFamily}
    (h : signatureStatus r child issuer = .error family) :
    family = .logic ∧ r.access.verifySignature child issuer = .error .logic := by
  unfold signatureStatus at h
  split at h
  next => cases h
  next =>
    match hverify : r.access.verifySignature child issuer with
    | .ok true => simp [hverify] at h
    | .ok false => simp [hverify] at h
    | .error .runtime => simp [hverify] at h
    | .error .logic =>
      rw [hverify] at h
      cases h
      exact ⟨rfl, rfl⟩

/-- What holds whenever the search goes on: the remembered checks are those that were made, the
candidates are complete and the path starts at the target. -/
structure Ready (r : X509ValidationRequest Certificate) (target : Certificate)
    (s : X509ServerCertificateValidator Certificate) : Prop where
  cached : ∀ e ∈ s.verifiedEdges, signatureStatus r e.child e.issuer = .ok e.status
  candidates : Collected r target s.candidates
  started : target ∈ s.path

omit [DecidableEq Certificate] in
theorem Ready.recordFailure (h : Ready r target s) :
    Ready r target (s.recordFailure category certificate diagnostic issuer) := by
  obtain ⟨cached, candidates, started⟩ := h
  constructor <;> simpa

/-- A check of an edge gives its status, hits the limit, or ends with an exception. -/
theorem verifyEdge_cases (hs : Ready r target s) (child issuer : Certificate) :
    (∃ status s', verifyEdge r s child issuer = .ok (status, s') ∧ Ready r target s' ∧
      s'.path = s.path ∧ s'.candidates = s.candidates ∧
      s'.resourceLimitExhausted = s.resourceLimitExhausted ∧
      signatureStatus r child issuer = .ok status) ∨
    (∃ s', verifyEdge r s child issuer = .ok (.unsupported, s') ∧ Ready r target s' ∧
      s'.path = s.path ∧ s'.candidates = s.candidates ∧ s'.resourceLimitExhausted = true) ∨
    (verifyEdge r s child issuer = .error .logic ∧ LeavesUncaught r) := by
  unfold verifyEdge
  split
  next edge hfind =>
    have hedge := List.find?_some hfind
    rw [decide_eq_true_eq] at hedge
    obtain ⟨rfl, rfl⟩ := hedge
    exact .inl ⟨edge.status, s, rfl, hs, rfl, rfl, rfl, hs.cached edge (List.mem_of_find?_eq_some hfind)⟩
  next =>
    split
    next =>
      have hrecorded : Ready r target (s.recordFailure .signatureLimitExceeded (some child)
          "The 1024-attempt signature-verification limit was exhausted." (some issuer)) :=
        hs.recordFailure
      obtain ⟨cached, candidates, started⟩ := hrecorded
      exact .inr (.inl ⟨_, rfl, ⟨cached, candidates, started⟩, by simp, by simp, rfl⟩)
    next =>
      cases hstatus : signatureStatus r child issuer with
      | error family =>
        obtain ⟨rfl, hverify⟩ := signatureStatus_error hstatus
        exact .inr (.inr ⟨rfl, child, issuer, hverify⟩)
      | ok status =>
        refine .inl ⟨status, _, rfl, ⟨?_, hs.candidates, hs.started⟩, rfl, rfl, rfl, rfl⟩
        intro e he
        rcases List.mem_append.1 he with he | he
        · exact hs.cached e he
        · rw [List.mem_singleton.1 he]
          exact hstatus

omit [DecidableEq Certificate] in
theorem validateSelectedPath_cases (s : X509ServerCertificateValidator Certificate) :
    (r.selectedPathIssue s.path = none ∧ validateSelectedPath r s = (true, s)) ∨
    (r.selectedPathIssue s.path ≠ none ∧ ∃ certificate category diagnostic,
      validateSelectedPath r s =
        (false, s.recordFailure category (some certificate) diagnostic)) := by
  unfold validateSelectedPath
  split
  next h => exact .inl ⟨h, rfl⟩
  next certificate category diagnostic h =>
    exact .inr ⟨by simp [h], certificate, category, diagnostic, rfl⟩

/-- How a search from a state ends, when it tries some nodes first: with the path completed, with
the same path and without a completion that starts with these nodes, or with an exception. -/
def Ends (r : X509ValidationRequest Certificate) (target child : Certificate)
    (s : X509ServerCertificateValidator Certificate) (tried : Certificate → Prop) :
    Search Certificate → Prop
  | .accepted s' => s'.resourceLimitExhausted = false ∧
      ∃ rest, r.pathProblem.Completes s.path child rest ∧ s'.path = s.path ++ rest
  | .rejected s' => Ready r target s' ∧ s'.path = s.path ∧ s'.candidates = s.candidates ∧
      (s'.resourceLimitExhausted = false → ∀ first rest, tried first →
        ¬ r.pathProblem.Completes s.path child (first :: rest))
  | .escaped family => family = .logic ∧ LeavesUncaught r
  | .stuck => False

omit [DecidableEq Certificate] in
theorem Ends.mono {tried more : Certificate → Prop} (h : Ends r target child s' tried result)
    (hpath : s'.path = s.path) (hcandidates : s'.candidates = s.candidates)
    (hmore : ∀ first rest, more first → ¬ tried first →
      ¬ r.pathProblem.Completes s.path child (first :: rest)) :
    Ends r target child s more result := by
  match result with
  | .accepted _ => rwa [Ends, hpath] at h
  | .rejected s'' =>
    rw [Ends, hpath, hcandidates] at h
    obtain ⟨hready, hpath', hcandidates', hnone⟩ := h
    refine ⟨hready, hpath', hcandidates', fun hlive first rest hfirst hcompletes => ?_⟩
    exact hnone hlive first rest
      (by_contra fun htried => hmore first rest hfirst htried hcompletes) hcompletes
  | .escaped _ => exact h
  | .stuck => exact h

omit [DecidableEq Certificate] in
/-- A candidate that completes nothing is one of those that were tried. -/
theorem Ends.skip {candidate : Candidate Certificate} {rest : List (Candidate Certificate)}
    (hfails : ∀ more, ¬ r.pathProblem.Completes s.path child (candidate.certificate :: more))
    (hpath : s'.path = s.path) (hcandidates : s'.candidates = s.candidates)
    (h : Ends r target child s' (fun first => ∃ c ∈ rest, c.certificate = first) result) :
    Ends r target child s (fun first => ∃ c ∈ candidate :: rest, c.certificate = first) result := by
  refine h.mono hpath hcandidates fun first more hfirst hnew => ?_
  obtain ⟨c, hc, rfl⟩ := hfirst
  rcases List.mem_cons.1 hc with rfl | hc
  · exact hfails more
  · exact absurd ⟨c, hc, rfl⟩ hnew

omit [DecidableEq Certificate] in
theorem selectedPathIssue_iff {path : List Certificate} (hpath : target ∈ path) :
    r.selectedPathIssue path = none ↔ r.IsAcceptable path := by
  cases path with
  | nil => cases hpath
  | cons first rest => exact X509ValidationRequest.selectedPathIssue_eq_none

omit [DecidableEq Certificate] in
/-- The state in which the search goes on below an issuer. -/
theorem Ready.extend (h : Ready r target s) (issuer : Certificate) :
    Ready r target { s with path := s.path ++ [issuer] } :=
  ⟨h.cached, h.candidates, List.mem_append_left _ h.started⟩

/-- How the search goes on from a state with an issuer at the end of the path: the path is
completed, or it is the same again without the issuer, which completes nothing. -/
def Follows (r : X509ValidationRequest Certificate) (target child issuer : Certificate)
    (s : X509ServerCertificateValidator Certificate) : Search Certificate → Prop
  | .accepted s' => s'.resourceLimitExhausted = false ∧
      ∃ rest, r.pathProblem.Completes s.path child rest ∧ s'.path = s.path ++ rest
  | .rejected s' => Ready r target { s' with path := s'.path.dropLast } ∧
      s'.path.dropLast = s.path ∧ s'.candidates = s.candidates ∧
      (s'.resourceLimitExhausted = false →
        ∀ more, ¬ r.pathProblem.Completes s.path child (issuer :: more))
  | .escaped family => family = .logic ∧ LeavesUncaught r
  | .stuck => False

omit [DecidableEq Certificate] in
theorem followIssuer_follows {candidate : Candidate Certificate}
    {next : X509ServerCertificateValidator Certificate → Certificate → Search Certificate}
    (hs : Ready r target s) (hlive : s.resourceLimitExhausted = false)
    (hcandidate : candidate ∈ s.candidates) (hnew : candidate.certificate ∉ s.path)
    (hdepth : s.path.length < cMaximumPathDepth)
    (hedge : r.IsIssuedBy child candidate.certificate)
    (hnext : Ends r target candidate.certificate
      { s with path := s.path ++ [candidate.certificate] } (fun _ => True)
      (next { s with path := s.path ++ [candidate.certificate] } candidate.certificate)) :
    Follows r target child candidate.certificate s
      (followIssuer r next candidate { s with path := s.path ++ [candidate.certificate] }) := by
  unfold followIssuer
  have hne : candidate.certificate ≠ target := fun heq => hnew (heq ▸ hs.started)
  have hanchor := hs.candidates.anchor candidate hcandidate hne
  have hstarted : target ∈ s.path ++ [candidate.certificate] := List.mem_append_left _ hs.started
  by_cases hmarked : candidate.isAnchor = true
  · rw [if_pos hmarked]
    obtain ⟨hnone, hcheck⟩ | ⟨hsome, certificate, category, diagnostic, hcheck⟩ :=
      validateSelectedPath_cases (r := r) { s with path := s.path ++ [candidate.certificate] }
    · rw [hcheck]
      refine ⟨hlive, [candidate.certificate], ?_, rfl⟩
      exact .goal hedge hnew hdepth (hanchor.1 hmarked) ((selectedPathIssue_iff hstarted).1 hnone)
    · rw [hcheck]
      refine ⟨⟨?_, ?_, ?_⟩, ?_, ?_, ?_⟩
      · simpa using hs.cached
      · simpa using hs.candidates
      · simpa using hs.started
      · simp
      · simp
      · intro _ more hcompletes
        cases hcompletes with
        | goal _ _ _ _ hgood => exact hsome ((selectedPathIssue_iff hstarted).2 hgood)
        | step _ _ _ hinner => exact hinner.1 (hanchor.1 hmarked)
  · rw [if_neg hmarked]
    have hinner : r.pathProblem.Inner candidate.certificate := by
      have hgoal := mt hanchor.2 hmarked
      exact ⟨hgoal, (hs.candidates.known candidate hcandidate).resolve_left hgoal⟩
    match hresult : next { s with path := s.path ++ [candidate.certificate] }
        candidate.certificate with
    | .accepted s' =>
      rw [hresult] at hnext
      obtain ⟨hlive', rest, hcompletes, hpath⟩ := hnext
      refine ⟨hlive', candidate.certificate :: rest, .step hedge hnew hdepth hinner hcompletes, ?_⟩
      rw [hpath, List.append_assoc, List.singleton_append]
    | .rejected s' =>
      rw [hresult] at hnext
      obtain ⟨hready, hpath, hcandidates, hnone⟩ := hnext
      have hback : s'.path.dropLast = s.path := by rw [hpath, List.dropLast_concat]
      refine ⟨⟨hready.cached, hready.candidates, ?_⟩, hback, hcandidates, ?_⟩
      · rw [hback]
        exact hs.started
      · intro hlive' more hcompletes
        cases hcompletes with
        | goal _ _ _ hgoal => exact hinner.1 hgoal
        | step _ _ _ _ hrest =>
          cases more with
          | nil => exact hrest.ne_nil rfl
          | cons first more => exact hnone hlive' first more trivial hrest
    | .escaped family =>
      rw [hresult] at hnext
      exact hnext
    | .stuck =>
      rw [hresult] at hnext
      exact hnext

omit [DecidableEq Certificate] in
/-- What is done with an edge that was checked, when the search beyond the issuer ends as it should
and so do the other candidates if this one completes nothing. -/
theorem afterEdge_ends {candidate : Candidate Certificate} {status : EdgeStatus}
    {next : X509ServerCertificateValidator Certificate → Certificate → Search Certificate}
    {others : X509ServerCertificateValidator Certificate → Search Certificate}
    {tried : Certificate → Prop} (hs : Ready r target s)
    (hlive : s.resourceLimitExhausted = false) (hcandidate : candidate ∈ s.candidates)
    (hnew : candidate.certificate ∉ s.path) (hdepth : s.path.length < cMaximumPathDepth)
    (hlink : r.hasIssuerLink child candidate.certificate = true)
    (hstatus : signatureStatus r child candidate.certificate = .ok status)
    (hnext : Ends r target candidate.certificate
      { s with path := s.path ++ [candidate.certificate] } (fun _ => True)
      (next { s with path := s.path ++ [candidate.certificate] } candidate.certificate))
    (hothers : ∀ s', Ready r target s' → s'.resourceLimitExhausted = false → s'.path = s.path →
      s'.candidates = s.candidates →
      (∀ more, ¬ r.pathProblem.Completes s.path child (candidate.certificate :: more)) →
      Ends r target child s tried (others s')) :
    Ends r target child s tried (afterEdge r next child candidate others status s) := by
  have hunsigned (hinvalid : status ≠ .valid) (more : List Certificate) :
      ¬ r.pathProblem.Completes s.path child (candidate.certificate :: more) := by
    intro hcompletes
    have hissued : r.IsIssuedBy child candidate.certificate := hcompletes.edge
    rw [signatureStatus_valid.2 hissued.2, Except.ok.injEq] at hstatus
    exact hinvalid hstatus.symm
  cases status with
  | valid =>
    have hfollows := followIssuer_follows hs hlive hcandidate hnew hdepth
      ⟨hlink, signatureStatus_valid.1 hstatus⟩ hnext
    unfold afterEdge
    dsimp only
    match hresult : followIssuer r next candidate
        { s with path := s.path ++ [candidate.certificate] } with
    | .accepted s' =>
      rw [hresult] at hfollows
      exact hfollows
    | .rejected s' =>
      rw [hresult] at hfollows
      obtain ⟨hready, hback, hcandidates, hnone⟩ := hfollows
      dsimp only
      split
      next hexhausted =>
        exact ⟨hready, hback, hcandidates, fun hlive' => by simp [hexhausted] at hlive'⟩
      next hlive' =>
        rw [Bool.not_eq_true] at hlive'
        exact hothers _ hready hlive' hback hcandidates (hnone hlive')
    | .escaped family =>
      rw [hresult] at hfollows
      exact hfollows
    | .stuck =>
      rw [hresult] at hfollows
      exact hfollows
  | invalid =>
    unfold afterEdge
    dsimp only
    rw [if_neg (by simp [hlive])]
    exact hothers _ hs.recordFailure (by simpa) (by simp) (by simp) (hunsigned (by decide))
  | unsupported =>
    unfold afterEdge
    dsimp only
    rw [if_neg (by simp [hlive])]
    exact hothers _ hs.recordFailure (by simpa) (by simp) (by simp) (hunsigned (by decide))

/-- The loop over candidates, when the search beyond each of them ends as it should. -/
theorem tryCandidates_ends {list : List (Candidate Certificate)} {found : Bool}
    {next : X509ServerCertificateValidator Certificate → Certificate → Search Certificate}
    (hs : Ready r target s) (hlive : s.resourceLimitExhausted = false)
    (hlist : ∀ c ∈ list, c ∈ s.candidates)
    (hnext : ∀ s' issuer, Ready r target s' → s'.path.length = s.path.length + 1 →
      s.path.length < cMaximumPathDepth → Ends r target issuer s' (fun _ => True) (next s' issuer)) :
    Ends r target child s (fun first => ∃ c ∈ list, c.certificate = first)
      (tryCandidates r next child list found s) := by
  induction list generalizing found s with
  | nil =>
    unfold tryCandidates
    cases found with
    | true => exact ⟨hs, rfl, rfl, fun _ _ _ ⟨c, hc, _⟩ => absurd hc List.not_mem_nil⟩
    | false =>
      exact ⟨hs.recordFailure, by simp, by simp,
        fun _ _ _ ⟨c, hc, _⟩ => absurd hc List.not_mem_nil⟩
  | cons candidate list ih =>
    have hcandidate := hlist candidate (List.mem_cons_self ..)
    -- The loop goes on with the other candidates when this one completes nothing.
    have hskip {s' found} (hs' : Ready r target s') (hlive' : s'.resourceLimitExhausted = false)
        (hpath : s'.path = s.path) (hcandidates : s'.candidates = s.candidates)
        (hfails : ∀ more, ¬ r.pathProblem.Completes s.path child (candidate.certificate :: more)) :
        Ends r target child s (fun first => ∃ c ∈ candidate :: list, c.certificate = first)
          (tryCandidates r next child list found s') := by
      refine Ends.skip hfails hpath hcandidates (ih hs' hlive' ?_ ?_)
      · exact fun c hc => hcandidates ▸ hlist c (List.mem_cons_of_mem _ hc)
      · rwa [hpath]
    unfold tryCandidates
    dsimp only
    split
    next hlink =>
      refine hskip hs hlive rfl rfl fun more hcompletes => ?_
      have hissued : r.IsIssuedBy child candidate.certificate := hcompletes.edge
      simp [hissued.1] at hlink
    next hlink =>
      split
      next hmem =>
        exact hskip hs.recordFailure (by simpa using hlive) (by simp) (by simp)
          fun more hcompletes => hcompletes.new hmem
      next hnew =>
        split
        next hdepth =>
          exact hskip hs.recordFailure (by simpa using hlive) (by simp) (by simp)
            fun more hcompletes => absurd hcompletes.length_lt (Nat.not_lt.2 hdepth)
        next hdepth =>
          rw [Nat.not_le] at hdepth
          obtain ⟨status, s', hverify, hs', hpath, hcandidates, hlimit, hstatus⟩ |
            ⟨s', hverify, hs', hpath, hcandidates, hlimit⟩ | ⟨hverify, hleaves⟩ :=
              verifyEdge_cases hs child candidate.certificate
          · rw [hverify]
            refine (afterEdge_ends hs' (hlimit.trans hlive) (hcandidates ▸ hcandidate)
              (hpath ▸ hnew) (hpath ▸ hdepth) (by simpa using hlink) hstatus
              (hnext _ _ (hs'.extend _) (by simp [hpath]) hdepth)
              fun s'' hs'' hlive'' hpath'' hcandidates'' hfails => ?_).mono hpath hcandidates
              fun _ _ htried huntried => absurd htried huntried
            exact (hskip hs'' hlive'' (hpath''.trans hpath) (hcandidates''.trans hcandidates)
              (hpath ▸ hfails)).mono hpath.symm hcandidates.symm
              fun _ _ htried huntried => absurd htried huntried
          · rw [hverify]
            dsimp only [afterEdge]
            rw [if_pos hlimit]
            exact ⟨hs', hpath, hcandidates, fun hlive' => by simp [hlimit] at hlive'⟩
          · rw [hverify]
            exact ⟨rfl, hleaves⟩

/-- The search from a node finds a completion, or there is none unless a limit was hit; the levels
that are left suffice. -/
theorem buildPath_ends {levels : Nat} (hs : Ready r target s)
    (hlevels : cMaximumPathDepth < s.path.length + levels)
    (hdepth : s.path.length ≤ cMaximumPathDepth) :
    Ends r target child s (fun _ => True) (buildPath r levels s child) := by
  induction levels generalizing s child with
  | zero => omega
  | succ levels ih =>
    unfold buildPath
    split
    next hexhausted => exact ⟨hs, rfl, rfl, fun hlive => by simp [hexhausted] at hlive⟩
    next hlive =>
      rw [Bool.not_eq_true] at hlive
      have hends : Ends r target child s (fun first => ∃ c ∈ s.candidates, c.certificate = first)
          (tryCandidates r (buildPath r levels) child s.candidates false s) :=
        tryCandidates_ends hs hlive (fun c hc => hc)
          fun s' issuer hs' hlength hlt => ih hs' (by omega) (by omega)
      refine hends.mono rfl rfl fun first rest _ huntried hcompletes => huntried ?_
      exact hs.candidates.complete first (hcompletes.goal_or_inner.imp id And.right)

end X509ServerCertificateValidator
end ErbslandCore.Cryptology
