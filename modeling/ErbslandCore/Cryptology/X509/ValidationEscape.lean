import ErbslandCore.Cryptology.X509.ServerValidation
import ErbslandCore.Cryptology.X509.SignatureDecoding

namespace ErbslandCore.Cryptology
open Library X509ServerCertificatePolicy
set_option autoImplicit true

/-- Every exception, as one of the family that is caught. -/
def catchAll : Except ErrorFamily Bool → Except ErrorFamily Bool
  | .ok isValid => .ok isValid
  | .error _ => .error .runtime

/-- The same request where every exception of a verification is caught. -/
def X509ValidationRequest.caught (r : X509ValidationRequest Certificate) :
    X509ValidationRequest Certificate where
  __ := r
  access := { r.access with
    verifySignature := fun child issuer => catchAll (r.access.verifySignature child issuer) }

namespace X509ServerCertificateValidator

variable {Certificate : Type} [DecidableEq Certificate] {r : X509ValidationRequest Certificate}

/-- The check of an edge ends with an exception that is not caught. -/
def Uncaught (r : X509ValidationRequest Certificate) (child issuer : Certificate) : Prop :=
  signatureStatus r child issuer = .error .logic

def Clean (r : X509ValidationRequest Certificate)
    (s : X509ServerCertificateValidator Certificate) : Prop :=
  ∀ e ∈ s.verifiedEdges, ¬ Uncaught r e.child e.issuer

/-- An edge among those that a search has checked is not caught. -/
def Reaches (r : X509ValidationRequest Certificate) : Search Certificate → Prop
  | .accepted s => ¬ Clean r s
  | .rejected s => ¬ Clean r s
  | .escaped _ => False
  | .stuck => True

/-- A search only adds to the edges that were checked. -/
def Grows (s : X509ServerCertificateValidator Certificate) : Search Certificate → Prop
  | .accepted s' => s.verifiedEdges ⊆ s'.verifiedEdges
  | .rejected s' => s.verifiedEdges ⊆ s'.verifiedEdges
  | .escaped _ => False
  | .stuck => True

/-- A search ends in the same way when every exception is caught, unless it is left by one. -/
def Simulates (r : X509ValidationRequest Certificate) (actual caught : Search Certificate) : Prop :=
  match actual with
  | .accepted s => caught = actual ∧ Clean r s
  | .rejected s => caught = actual ∧ Clean r s
  | .escaped _ => Reaches r caught
  | .stuck => caught = .stuck

omit [DecidableEq Certificate] in
theorem signatureStatus_caught (child issuer : Certificate) :
    signatureStatus r.caught child issuer =
      match signatureStatus r child issuer with
      | .ok status => .ok status
      | .error _ => .ok .unsupported := by
  unfold signatureStatus X509ValidationRequest.caught
  dsimp only
  split
  next => rfl
  next => match r.access.verifySignature child issuer with
    | .ok true => rfl
    | .ok false => rfl
    | .error .runtime => rfl
    | .error .logic => rfl

omit [DecidableEq Certificate] in
theorem Grows.mono {s' : X509ServerCertificateValidator Certificate} {result : Search Certificate}
    (h : Grows s' result) (hs : s.verifiedEdges ⊆ s'.verifiedEdges) : Grows s result := by
  match result with
  | .accepted _ => exact List.Subset.trans hs h
  | .rejected _ => exact List.Subset.trans hs h
  | .escaped _ => exact h
  | .stuck => trivial

omit [DecidableEq Certificate] in
theorem Grows.reaches {result : Search Certificate} (h : Grows s result) (hs : ¬ Clean r s) :
    Reaches r result := by
  match result with
  | .accepted _ => exact fun hclean => hs fun e he => hclean e (h he)
  | .rejected _ => exact fun hclean => hs fun e he => hclean e (h he)
  | .escaped _ => exact h.elim
  | .stuck => trivial

/-- With every exception caught a check always has a status, and remembers it. -/
theorem verifyEdge_caught (s : X509ServerCertificateValidator Certificate)
    (child issuer : Certificate) :
    ∃ status s', verifyEdge r.caught s child issuer = .ok (status, s') ∧
      s.verifiedEdges ⊆ s'.verifiedEdges := by
  unfold verifyEdge
  split
  next => exact ⟨_, _, rfl, List.Subset.refl _⟩
  next =>
    split
    next => exact ⟨_, _, rfl, by simp⟩
    next =>
      rw [signatureStatus_caught]
      cases signatureStatus r child issuer with
      | ok status => exact ⟨status, _, rfl, by simp⟩
      | error family => exact ⟨.unsupported, _, rfl, by simp⟩

/-- A check is the same when exceptions are caught, or it is the one that is not caught. -/
theorem verifyEdge_simulates {s : X509ServerCertificateValidator Certificate} (hs : Clean r s)
    (child issuer : Certificate) :
    (∃ status s', verifyEdge r s child issuer = .ok (status, s') ∧
      verifyEdge r.caught s child issuer = .ok (status, s') ∧ Clean r s') ∨
    (∃ family status s', verifyEdge r s child issuer = .error family ∧
      verifyEdge r.caught s child issuer = .ok (status, s') ∧ ¬ Clean r s') := by
  unfold verifyEdge
  split
  next => exact .inl ⟨_, _, rfl, rfl, hs⟩
  next =>
    split
    next => exact .inl ⟨_, _, rfl, rfl, by simpa [Clean] using hs⟩
    next =>
      rw [signatureStatus_caught]
      cases hstatus : signatureStatus r child issuer with
      | ok status =>
        refine .inl ⟨status, _, rfl, rfl, fun e he => ?_⟩
        rcases List.mem_append.1 he with he | he
        · exact hs e he
        · rw [List.mem_singleton.1 he]
          simp [Uncaught, hstatus]
      | error family =>
        refine .inr ⟨family, .unsupported, _, rfl, rfl, fun hclean => ?_⟩
        refine hclean ⟨child, issuer, .unsupported⟩ (by simp) ?_
        exact hstatus.trans (congrArg _ (signatureStatus_error hstatus).1)

omit [DecidableEq Certificate] in
theorem matchDnsNames_caught (reference : DnsName) (names : List (List Char))
    (diagnostic : Option String) :
    r.caught.matchDnsNames reference names diagnostic =
      r.matchDnsNames reference names diagnostic := by
  induction names generalizing diagnostic with
  | nil => rfl
  | cons text names ih =>
    rw [X509ValidationRequest.matchDnsNames, X509ValidationRequest.matchDnsNames]
    have hparse : r.caught.parseDnsNameOrThrow text true = r.parseDnsNameOrThrow text true := rfl
    rw [hparse]
    split
    next => rw [ih]
    next => rw [ih]

omit [DecidableEq Certificate] in
theorem selectedPathIssue_caught (path : List Certificate) :
    r.caught.selectedPathIssue path = r.selectedPathIssue path := by
  have hidentity (c : Certificate) : r.caught.matchServerIdentity c = r.matchServerIdentity c := by
    unfold X509ValidationRequest.matchServerIdentity
    simp only [matchDnsNames_caught]
    rfl
  cases path with
  | nil => rfl
  | cons target rest =>
    unfold X509ValidationRequest.selectedPathIssue X509ValidationRequest.identityIssue
    dsimp only
    rw [hidentity]
    rfl

omit [DecidableEq Certificate] in
theorem validateSelectedPath_caught (s : X509ServerCertificateValidator Certificate) :
    validateSelectedPath r.caught s = validateSelectedPath r s := by
  unfold validateSelectedPath
  rw [selectedPathIssue_caught]

omit [DecidableEq Certificate] in
theorem validateSelectedPath_verifiedEdges (s : X509ServerCertificateValidator Certificate) :
    (validateSelectedPath r s).2.verifiedEdges = s.verifiedEdges := by
  obtain ⟨_, h⟩ | ⟨_, _, _, _, h⟩ := validateSelectedPath_cases (r := r) s
  · rw [h]
  · rw [h, recordFailure_verifiedEdges]

variable {next nextCaught : X509ServerCertificateValidator Certificate → Certificate →
  Search Certificate}

omit [DecidableEq Certificate] in
theorem followIssuer_grows {candidate : Candidate Certificate}
    (hnext : ∀ s issuer, Grows s (next s issuer))
    (s : X509ServerCertificateValidator Certificate) : Grows s (followIssuer r next candidate s) := by
  unfold followIssuer
  split
  next =>
    have hedges := validateSelectedPath_verifiedEdges (r := r) s
    dsimp only
    split
    next => exact fun e he => hedges ▸ he
    next => exact fun e he => hedges ▸ he
  next => exact hnext _ _

omit [DecidableEq Certificate] in
theorem afterEdge_grows {child : Certificate} {candidate : Candidate Certificate}
    {others : X509ServerCertificateValidator Certificate → Search Certificate}
    (hnext : ∀ s issuer, Grows s (next s issuer)) (hothers : ∀ s, Grows s (others s))
    (status : EdgeStatus) (s : X509ServerCertificateValidator Certificate) :
    Grows s (afterEdge r next child candidate others status s) := by
  unfold afterEdge
  cases status with
  | valid =>
    have hgrows : Grows _ (followIssuer r next candidate _) :=
      followIssuer_grows hnext { s with path := s.path ++ [candidate.certificate] }
    dsimp only
    split
    next s' hresult =>
      rw [hresult] at hgrows
      split
      next => exact hgrows
      next => exact (hothers _).mono hgrows
    next => exact hgrows
  | invalid =>
    dsimp only
    split
    next => exact List.Subset.refl _
    next => exact (hothers _).mono (by simp)
  | unsupported =>
    dsimp only
    split
    next => exact List.Subset.refl _
    next => exact (hothers _).mono (by simp)

theorem tryCandidates_grows {child : Certificate} (hnext : ∀ s issuer, Grows s (next s issuer))
    (list : List (Candidate Certificate)) (found : Bool)
    (s : X509ServerCertificateValidator Certificate) :
    Grows s (tryCandidates r.caught next child list found s) := by
  induction list generalizing found s with
  | nil => cases found <;> simp [tryCandidates, Grows]
  | cons candidate list ih =>
    unfold tryCandidates
    dsimp only
    split
    next => exact ih _ _
    next =>
      split
      next => exact (ih _ _).mono (by simp)
      next =>
        split
        next => exact (ih _ _).mono (by simp)
        next =>
          obtain ⟨status, s', hverify, hs⟩ := verifyEdge_caught (r := r) s child candidate.certificate
          rw [hverify]
          exact (afterEdge_grows hnext (ih true) status s').mono hs

theorem buildPath_grows (levels : Nat) (s : X509ServerCertificateValidator Certificate)
    (child : Certificate) : Grows s (buildPath r.caught levels s child) := by
  induction levels generalizing s child with
  | zero => trivial
  | succ levels ih =>
    unfold buildPath
    split
    next => exact List.Subset.refl _
    next => exact tryCandidates_grows ih _ _ _

omit [DecidableEq Certificate] in
theorem simulates_of_eq {actual caught : Search Certificate} (h : caught = actual)
    (hs : ∀ s, actual = .accepted s ∨ actual = .rejected s → Clean r s)
    (hescaped : ∀ family, actual ≠ .escaped family) : Simulates r actual caught := by
  match actual with
  | .accepted s => exact ⟨h, hs s (.inl rfl)⟩
  | .rejected s => exact ⟨h, hs s (.inr rfl)⟩
  | .escaped family => exact absurd rfl (hescaped family)
  | .stuck => exact h

omit [DecidableEq Certificate] in
theorem followIssuer_simulates {candidate : Candidate Certificate}
    (hnext : ∀ s issuer, Clean r s → Simulates r (next s issuer) (nextCaught s issuer))
    {s : X509ServerCertificateValidator Certificate} (hs : Clean r s) :
    Simulates r (followIssuer r next candidate s)
      (followIssuer r.caught nextCaught candidate s) := by
  unfold followIssuer
  rw [validateSelectedPath_caught]
  split
  next =>
    have hclean : Clean r (validateSelectedPath r s).2 := by
      unfold Clean
      rwa [validateSelectedPath_verifiedEdges]
    dsimp only
    split
    next => exact ⟨rfl, hclean⟩
    next => exact ⟨rfl, hclean⟩
  next => exact hnext _ _ hs

omit [DecidableEq Certificate] in
theorem afterEdge_simulates {child : Certificate} {candidate : Candidate Certificate}
    {others othersCaught : X509ServerCertificateValidator Certificate → Search Certificate}
    (hnext : ∀ s issuer, Clean r s → Simulates r (next s issuer) (nextCaught s issuer))
    (hothers : ∀ s, Clean r s → Simulates r (others s) (othersCaught s))
    (hgrows : ∀ s, Grows s (othersCaught s)) (status : EdgeStatus)
    {s : X509ServerCertificateValidator Certificate} (hs : Clean r s) :
    Simulates r (afterEdge r next child candidate others status s)
      (afterEdge r.caught nextCaught child candidate othersCaught status s) := by
  unfold afterEdge
  cases status with
  | valid =>
    have hfollow : Simulates r (followIssuer r next candidate _)
        (followIssuer r.caught nextCaught candidate _) :=
      followIssuer_simulates hnext (s := { s with path := s.path ++ [candidate.certificate] }) hs
    dsimp only
    match hresult : followIssuer r next candidate
        { s with path := s.path ++ [candidate.certificate] } with
    | .accepted s' =>
      rw [hresult] at hfollow
      rw [hfollow.1]
      exact ⟨rfl, hfollow.2⟩
    | .rejected s' =>
      rw [hresult] at hfollow
      rw [hfollow.1]
      dsimp only
      split
      next => exact ⟨rfl, hfollow.2⟩
      next => exact hothers _ hfollow.2
    | .escaped family =>
      rw [hresult, Simulates] at hfollow
      -- The search that goes on still remembers the edge.
      match hcaught : followIssuer r.caught nextCaught candidate
          { s with path := s.path ++ [candidate.certificate] } with
      | .accepted s' =>
        rw [hcaught] at hfollow
        exact hfollow
      | .rejected s' =>
        rw [hcaught] at hfollow
        dsimp only
        split
        next => exact hfollow
        next => exact (hgrows _).reaches hfollow
      | .escaped family =>
        rw [hcaught] at hfollow
        exact hfollow.elim
      | .stuck => trivial
    | .stuck =>
      rw [hresult, Simulates] at hfollow
      rw [hfollow]
      exact rfl
  | invalid =>
    dsimp only
    split
    next => exact ⟨rfl, hs⟩
    next => exact hothers _ (by simpa [Clean] using hs)
  | unsupported =>
    dsimp only
    split
    next => exact ⟨rfl, hs⟩
    next => exact hothers _ (by simpa [Clean] using hs)

theorem tryCandidates_simulates {child : Certificate}
    (hnext : ∀ s issuer, Clean r s → Simulates r (next s issuer) (nextCaught s issuer))
    (hgrows : ∀ s issuer, Grows s (nextCaught s issuer))
    (list : List (Candidate Certificate)) (found : Bool)
    {s : X509ServerCertificateValidator Certificate} (hs : Clean r s) :
    Simulates r (tryCandidates r next child list found s)
      (tryCandidates r.caught nextCaught child list found s) := by
  induction list generalizing found s with
  | nil => cases found <;> simpa [tryCandidates, Simulates, Clean] using hs
  | cons candidate list ih =>
    unfold tryCandidates
    have hlink : r.caught.hasIssuerLink = r.hasIssuerLink := rfl
    rw [hlink]
    dsimp only
    split
    next => exact ih _ hs
    next =>
      split
      next => exact ih _ (by simpa [Clean] using hs)
      next =>
        split
        next => exact ih _ (by simpa [Clean] using hs)
        next =>
          have hothers : ∀ s, Grows s (tryCandidates r.caught _ child list true s) :=
            tryCandidates_grows hgrows list true
          obtain ⟨status, s', hverify, hcaught, hs'⟩ | ⟨family, status, s', hverify, hcaught, hs'⟩ :=
            verifyEdge_simulates hs child candidate.certificate
          · rw [hverify, hcaught]
            exact afterEdge_simulates hnext (fun _ => ih true) hothers status hs'
          · rw [hverify, hcaught]
            exact (afterEdge_grows hgrows hothers status s').reaches hs'

theorem buildPath_simulates (levels : Nat) {s : X509ServerCertificateValidator Certificate}
    (hs : Clean r s) (child : Certificate) :
    Simulates r (buildPath r levels s child) (buildPath r.caught levels s child) := by
  induction levels generalizing s child with
  | zero => exact rfl
  | succ levels ih =>
    unfold buildPath
    split
    next => exact ⟨rfl, hs⟩
    next => exact tryCandidates_simulates (fun _ _ h => ih h _) (buildPath_grows levels) _ _ hs

/-- The target and the state that the search starts with, unless `validate` ends before. -/
def searchStart (r : X509ValidationRequest Certificate) :
    Option (Certificate × X509ServerCertificateValidator Certificate) :=
  match r.peerCertificates with
  | [] => none
  | target :: _ =>
    if r.trustAnchors = [] ∨ r.validationTime.isValid = false ∨ r.referenceIssue.isSome ∨
        (collectCandidates r target {}).1 = false ∨ target ∈ r.trustAnchors then none
    else some (target, { (collectCandidates r target {}).2 with path := [target] })

/-- The edges that the search checks when every exception of a check is caught. -/
def checkedEdges (r : X509ValidationRequest Certificate) : List (VerifiedEdge Certificate) :=
  match searchStart r with
  | none => []
  | some (target, s) =>
    match buildPath r.caught cSearchLevels s target with
    | .accepted s => s.verifiedEdges
    | .rejected s => s.verifiedEdges
    | .escaped _ => []
    | .stuck => []

theorem validate_cases (r : X509ValidationRequest Certificate) :
    (searchStart r = none ∧ ∃ validation limitHit, validate r = .result validation limitHit) ∨
    ∃ target s, searchStart r = some (target, s) ∧ Ready r target s ∧ s.path = [target] ∧
      s.verifiedEdges = [] ∧ validate r = match buildPath r cSearchLevels s target with
        | .accepted s => .result (.accepted s.path) s.resourceLimitExhausted
        | .rejected s => .result (rejectedResult target s) s.resourceLimitExhausted
        | .escaped family => .escaped family
        | .stuck => .stuck := by
  unfold validate searchStart
  cases hpeers : r.peerCertificates with
  | nil => exact .inl ⟨rfl, _, _, rfl⟩
  | cons target peers =>
    dsimp only
    by_cases hanchors : r.trustAnchors = []
    · exact .inl ⟨by simp [hanchors], _, _, if_pos hanchors⟩
    by_cases hvalid : r.validationTime.isValid = true
    swap
    · exact .inl ⟨by simp [hvalid], _, _, by rw [if_neg hanchors, if_pos (by simpa using hvalid)]⟩
    have hinvalid : ¬ (!r.validationTime.isValid) = true := by simp [hvalid]
    rw [if_neg hanchors, if_neg hinvalid]
    cases hreference : r.referenceIssue with
    | some reason => exact .inl ⟨by simp, _, _, rfl⟩
    | none =>
      dsimp only
      by_cases hcollected : (collectCandidates r target {}).1 = true
      swap
      · exact .inl ⟨by simp [hcollected], _, _, if_pos (by simpa using hcollected)⟩
      have hfull : ¬ (!(collectCandidates r target {}).1) = true := by simp [hcollected]
      rw [if_neg hfull]
      by_cases htrusted : target ∈ r.trustAnchors
      · refine .inl ⟨by simp [htrusted], ?_⟩
        rw [if_pos htrusted]
        split
        next => exact ⟨_, _, rfl⟩
        next => exact ⟨_, _, rfl⟩
      · obtain ⟨cs, hcs, heq⟩ :=
          collectCandidates_collected (by rw [hpeers, List.head?_cons]) hcollected
        refine .inr ⟨target, _, if_neg (by simp [hanchors, hvalid, hcollected, htrusted]), ?_, rfl,
          ?_, ?_⟩
        · rw [heq]
          exact ⟨by simp, hcs, List.mem_singleton_self _⟩
        · rw [heq]
        · exact (if_neg htrusted).trans rfl

omit [DecidableEq Certificate] in
theorem caught_not_leaves : ¬ LeavesUncaught r.caught := by
  rintro ⟨child, issuer, h⟩
  unfold X509ValidationRequest.caught at h
  cases hverify : r.access.verifySignature child issuer <;> simp [hverify, catchAll] at h

/-- An exception leaves `validate` exactly when one is not caught of a check that the search makes. -/
theorem validate_escapes_iff (r : X509ValidationRequest Certificate) :
    (∃ family, validate r = .escaped family) ↔
      ∃ e ∈ checkedEdges r, Uncaught r e.child e.issuer := by
  obtain ⟨hstart, validation, limitHit, hvalidate⟩ |
    ⟨target, s, hstart, hready, hpath, hedges, hvalidate⟩ := validate_cases r
  · rw [hvalidate, checkedEdges, hstart]
    exact iff_of_false (by simp) (by simp)
  · have hlevels : cMaximumPathDepth < s.path.length + cSearchLevels := by
      rw [hpath, List.length_singleton, cSearchLevels]
      omega
    have hdepth : s.path.length ≤ cMaximumPathDepth := by
      rw [hpath, List.length_singleton, cMaximumPathDepth]
      omega
    have hends : Ends r target target s (fun _ => True) (buildPath r cSearchLevels s target) :=
      buildPath_ends hready hlevels hdepth
    have hreadyCaught : Ready r.caught target s := by
      refine ⟨by simp [hedges], ?_, hready.started⟩
      exact ⟨hready.candidates.complete, hready.candidates.anchor, hready.candidates.known⟩
    have hendsCaught : Ends r.caught target target s (fun _ => True)
        (buildPath r.caught cSearchLevels s target) :=
      buildPath_ends hreadyCaught hlevels hdepth
    have hsimulates := buildPath_simulates (r := r) cSearchLevels (s := s)
      (by simp [Clean, hedges]) target
    have hclean {s : X509ServerCertificateValidator Certificate} :
        ¬ Clean r s ↔ ∃ e ∈ s.verifiedEdges, Uncaught r e.child e.issuer := by
      simp [Clean]
    rw [hvalidate, checkedEdges, hstart]
    dsimp only
    cases hactual : buildPath r cSearchLevels s target with
    | accepted s' =>
      rw [hactual] at hsimulates
      rw [hsimulates.1]
      exact iff_of_false (by simp) (hclean.not.1 (not_not.2 hsimulates.2))
    | rejected s' =>
      rw [hactual] at hsimulates
      rw [hsimulates.1]
      exact iff_of_false (by simp) (hclean.not.1 (not_not.2 hsimulates.2))
    | escaped family =>
      rw [hactual, Simulates] at hsimulates
      refine iff_of_true ⟨family, rfl⟩ ?_
      cases hcaught : buildPath r.caught cSearchLevels s target with
      | accepted s' =>
        rw [hcaught] at hsimulates
        exact hclean.1 hsimulates
      | rejected s' =>
        rw [hcaught] at hsimulates
        exact hclean.1 hsimulates
      | escaped family =>
        rw [hcaught] at hendsCaught
        exact absurd hendsCaught.2 caught_not_leaves
      | stuck =>
        rw [hcaught] at hendsCaught
        exact hendsCaught.elim
    | stuck =>
      rw [hactual] at hends
      exact hends.elim

/-- The fields of certificates that a signature is verified with. -/
structure SignedFields (Certificate : Type) where
  publicKey : Certificate → PublicKey
  signatureAlgorithm : Certificate → X509AlgorithmIdentifier
  tbsCertificateDer : Certificate → List UInt8
  signatureData : Certificate → List UInt8

end X509ServerCertificateValidator

/-- The request where signatures are verified as the library does it. -/
def X509ValidationRequest.withSignatures (r : X509ValidationRequest Certificate)
    (arithmetic : SignatureArithmetic)
    (fields : X509ServerCertificateValidator.SignedFields Certificate) :
    X509ValidationRequest Certificate where
  __ := r
  access := { r.access with
    verifySignature := fun child issuer =>
      ((fields.publicKey issuer).verifySignature arithmetic (fields.signatureAlgorithm child)
        (fields.tbsCertificateDer child) (fields.signatureData child)).mapError
        SignatureError.family }

namespace X509ServerCertificateValidator
variable {Certificate : Type} [DecidableEq Certificate]

omit [DecidableEq Certificate] in
theorem uncaught_withSignatures {r : X509ValidationRequest Certificate}
    {arithmetic : SignatureArithmetic} {fields : SignedFields Certificate}
    {child issuer : Certificate} :
    Uncaught (r.withSignatures arithmetic fields) child issuer ↔
      r.access.signatureUnusedBitCount child = 0 ∧
        DecodesBeyondLimits (fields.publicKey issuer) (fields.signatureAlgorithm child)
          (fields.signatureData child) := by
  have hlogic := @verifySignature_logic arithmetic (fields.publicKey issuer)
    (fields.signatureAlgorithm child) (fields.tbsCertificateDer child) (fields.signatureData child)
  rw [← hlogic, RaisesLogic, Uncaught, signatureStatus]
  split
  next h => simp_all [X509ValidationRequest.withSignatures]
  next h =>
    have hzero : r.access.signatureUnusedBitCount child = 0 := not_not.1 h
    simp only [X509ValidationRequest.withSignatures, hzero, true_and]
    cases (fields.publicKey issuer).verifySignature arithmetic (fields.signatureAlgorithm child)
        (fields.tbsCertificateDer child) (fields.signatureData child) with
    | ok valid => cases valid <;> simp [Except.mapError]
    | error e => cases hfamily : e.family <;> simp [Except.mapError, hfamily]

/-- A result is returned exactly when no signature check that the search makes gets to a DER value
beyond the limits of the parser. -/
theorem validate_returns_iff (r : X509ValidationRequest Certificate)
    (arithmetic : SignatureArithmetic) (fields : SignedFields Certificate) :
    (∃ validation limitHit,
      validate (r.withSignatures arithmetic fields) = .result validation limitHit) ↔
      ∀ e ∈ checkedEdges (r.withSignatures arithmetic fields),
        r.access.signatureUnusedBitCount e.child = 0 →
          ¬ DecodesBeyondLimits (fields.publicKey e.issuer) (fields.signatureAlgorithm e.child)
            (fields.signatureData e.child) := by
  have hescapes := validate_escapes_iff (r.withSignatures arithmetic fields)
  have hexact := validate_isExact (r.withSignatures arithmetic fields)
  simp only [uncaught_withSignatures] at hescapes
  have hreturns : (∃ validation limitHit,
      validate (r.withSignatures arithmetic fields) = .result validation limitHit) ↔
      ¬ ∃ family, validate (r.withSignatures arithmetic fields) = .escaped family := by
    match hvalidate : validate (r.withSignatures arithmetic fields) with
    | .result validation limitHit => simp
    | .escaped family => simp
    | .stuck =>
      rw [hvalidate] at hexact
      exact hexact.elim
  rw [hreturns, hescapes]
  simp only [not_exists, not_and]

/-- As many empty sequences, one inside the other. -/
def nestedSequences : Nat → List UInt8
  | 0 => []
  | n + 1 => 0x30 :: UInt8.ofNat (2 * n) :: nestedSequences n

/-- A key on P-256: the base point of the curve. -/
def basePointKey : PublicKey where
  algorithm :=
    { oid := "1.2.840.10045.2.1"
      parameters := .node [0x06, 0x08, 0x2a, 0x86, 0x48, 0xce, 0x3d, 0x03, 0x01, 0x07] 2 6 [] }
  keyData := 0x04 ::
    (toBigEndian 32 0x6b17d1f2e12c4247f8bce6e563a440f277037d812deb33a0f4a13945d898c296 ++
      toBigEndian 32 0x4fe342e2fe1a7f9b8ee7eb4a7c0f9e162bce33576b315ececbb6406837bf51f5)
  unusedBitCount := 0

/-- A peer sends a certificate that names the anchor as its issuer. -/
def namesAnchor : X509ValidationRequest Bool where
  access := {
    issuer := fun _ => [1]
    subject := fun c => if c then [1] else []
    issuerId := fun _ => []
    subjectId := fun _ => []
    signatureUnusedBitCount := fun _ => 0
    verifySignature := fun _ _ => .ok false
    hasProfileIssues := fun _ => false
    validFrom := fun _ => .first
    validTo := fun _ => .last
    extensions := fun _ => []
    basicConstraints := fun _ => none
    keyUsage := fun _ => none
    extendedKeyUsage := fun _ => []
    ipAddresses := fun _ => [[127, 0, 0, 1]]
    dnsNames := fun _ => []
    canonicalName := .ok }
  trustAnchors := [true]
  intermediates := []
  peerCertificates := [false]
  referenceIdentity := .address [127, 0, 0, 1]
  validationTime := .first

/-- The signature of the certificate is nested more deeply than the parser permits. -/
def nestedSignature : SignedFields Bool where
  publicKey := fun _ => basePointKey
  signatureAlgorithm := fun _ => { oid := "1.2.840.10045.4.3.2", parameters := .empty }
  tbsCertificateDer := fun _ => []
  signatureData := fun _ => nestedSequences 33

def rejectingArithmetic : SignatureArithmetic where
  verifyEcdsa := fun _ _ _ _ _ => false
  verifyRsa := fun _ _ _ _ => false
  EdwardsPoint := Unit
  decodePoint := fun _ => none
  decodeScalar := fun _ => none
  isPrimeOrderPoint := fun _ => false
  verifyEd25519 := fun _ _ _ _ => false

/-- An exception leaves `validate` although everything was parsed before. -/
theorem nestedSignature_escapes :
    validate (namesAnchor.withSignatures rejectingArithmetic nestedSignature) =
      .escaped .logic := by
  decide +kernel

end X509ServerCertificateValidator
end ErbslandCore.Cryptology
