import ErbslandCore.Cryptology.X509.PathBuilding

namespace ErbslandCore.Cryptology
open Library X509ServerCertificatePolicy
set_option autoImplicit true

namespace X509ServerCertificateValidator

section
variable {Certificate : Type} {r : X509ValidationRequest Certificate}

/-- The certification paths beyond a target are what completes the path that starts there. -/
theorem completes_iff_certificationPath {target : Certificate} {rest : List Certificate}
    (htarget : r.peerCertificates.head? = some target) (hrest : rest ≠ []) :
    r.pathProblem.Completes [target] target rest ↔ r.IsCertificationPath (target :: rest) := by
  rw [PathProblem.completes_iff (List.nodup_singleton _)]
  constructor
  · rintro ⟨chain, inner, ⟨goal, hlast, hgoal⟩, distinct, bounded, good⟩
    exact ⟨⟨⟨List.cons_ne_nil _ _, htarget.symm⟩,
      ⟨goal, by rwa [List.getLast?_cons_of_ne_nil hrest], hgoal⟩, inner, chain, distinct, bounded⟩,
      good⟩
  · rintro ⟨⟨_, ⟨goal, hlast, hgoal⟩, inner, linked, distinct, bounded⟩, acceptable⟩
    exact ⟨linked, inner, ⟨goal, by rwa [List.getLast?_cons_of_ne_nil hrest] at hlast, hgoal⟩,
      distinct, bounded, acceptable⟩

/-- A target that is an anchor is a path on its own. -/
theorem trustPath_singleton {target : Certificate}
    (htarget : r.peerCertificates.head? = some target) (hanchor : target ∈ r.trustAnchors) :
    r.IsTrustPath [target] where
  target := ⟨List.cons_ne_nil _ _, htarget.symm⟩
  anchor := ⟨target, rfl, hanchor⟩
  inner := by simp
  linked := .singleton _
  distinct := List.nodup_singleton _
  bounded := by simp [cMaximumPathDepth]

theorem certificationPath_starts {path : List Certificate} (h : r.IsCertificationPath path)
    (htarget : r.peerCertificates.head? = some target) : ∃ rest, path = target :: rest := by
  obtain ⟨hne, hhead⟩ := h.target
  cases path with
  | nil => exact absurd rfl hne
  | cons first rest =>
    rw [htarget, List.head?_cons, Option.some_inj] at hhead
    exact ⟨rest, by rw [hhead]⟩

theorem isAcceptable_singleton {target : Certificate} {rest : List Certificate}
    (h : r.IsAcceptable (target :: rest)) : r.IsAcceptable [target] where
  target := h.target
  intermediates below c above hpath hbelow habove := by
    have hlength := congrArg List.length hpath
    have hb := List.length_pos_iff.2 hbelow
    rw [List.length_append, List.length_cons (a := c), List.length_singleton] at hlength
    omega

/-- A reference identity that cannot be used identifies no certificate. -/
theorem referenceIssue_identifies {reason : String} (h : r.referenceIssue = some reason)
    (c : Certificate) : ¬ r.Identifies c := by
  unfold X509ValidationRequest.referenceIssue at h
  unfold X509ValidationRequest.Identifies
  cases hidentity : r.referenceIdentity with
  | address bytes => simp [hidentity] at h
  | name idnaAscii =>
    cases hparse : r.parseDnsNameOrThrow idnaAscii false with
    | error reason => simp [hparse]
    | ok reference => simp [hidentity, hparse] at h

end

variable {Certificate : Type} [DecidableEq Certificate]

/-- An outcome is exact: a path that is accepted is a certification path, and one is rejected only
when there is none, or when a limit was hit. -/
def IsExact (r : X509ValidationRequest Certificate) : Outcome Certificate → Prop
  | .result (.accepted path) _ => r.validationTime.isValid = true ∧ r.IsCertificationPath path
  | .result (.rejected _) limitHit => limitHit = false →
      ¬ (r.validationTime.isValid = true ∧ ∃ path, r.IsCertificationPath path)
  | .escaped family => family = .logic ∧ LeavesUncaught r
  | .stuck => False

omit [DecidableEq Certificate] in
theorem validateTrustedTarget_isExact {r : X509ValidationRequest Certificate} {target : Certificate}
    {s : X509ServerCertificateValidator Certificate} (hs : s.path = [target])
    (htarget : r.peerCertificates.head? = some target) (hanchor : target ∈ r.trustAnchors)
    (hvalid : r.validationTime.isValid = true) :
    IsExact r (if (validateSelectedPath r s).1 then
      .result (.accepted (validateSelectedPath r s).2.path)
        (validateSelectedPath r s).2.resourceLimitExhausted
      else .result (rejectedResult target (validateSelectedPath r s).2)
        (validateSelectedPath r s).2.resourceLimitExhausted) := by
  obtain ⟨hnone, hcheck⟩ | ⟨hsome, certificate, category, diagnostic, hcheck⟩ :=
    validateSelectedPath_cases (r := r) s
  · rw [hcheck]
    rw [hs, X509ValidationRequest.selectedPathIssue_eq_none] at hnone
    exact ⟨hvalid, hs ▸ ⟨trustPath_singleton htarget hanchor, hnone⟩⟩
  · rw [hcheck]
    rintro - ⟨_, path, hpath⟩
    obtain ⟨rest, rfl⟩ := certificationPath_starts hpath htarget
    rw [hs] at hsome
    exact hsome (X509ValidationRequest.selectedPathIssue_eq_none.2
      (isAcceptable_singleton hpath.acceptable))

theorem buildPath_isExact {r : X509ValidationRequest Certificate} {target : Certificate}
    {s : X509ServerCertificateValidator Certificate} (hs : Ready r target s)
    (hpath : s.path = [target]) (htarget : r.peerCertificates.head? = some target)
    (hanchor : target ∉ r.trustAnchors) (hvalid : r.validationTime.isValid = true) :
    IsExact r (match buildPath r cSearchLevels s target with
      | .accepted s => .result (.accepted s.path) s.resourceLimitExhausted
      | .rejected s => .result (rejectedResult target s) s.resourceLimitExhausted
      | .escaped family => .escaped family
      | .stuck => .stuck) := by
  have hends : Ends r target target s (fun _ => True) (buildPath r cSearchLevels s target) := by
    refine buildPath_ends hs ?_ ?_
    · rw [hpath, List.length_singleton, cSearchLevels]
      omega
    · rw [hpath, List.length_singleton, cMaximumPathDepth]
      omega
  match hresult : buildPath r cSearchLevels s target with
  | .accepted s' =>
    rw [hresult, Ends, hpath] at hends
    obtain ⟨_, rest, hcompletes, hpath'⟩ := hends
    refine ⟨hvalid, hpath' ▸ (completes_iff_certificationPath htarget hcompletes.ne_nil).1 hcompletes⟩
  | .rejected s' =>
    rw [hresult, Ends, hpath] at hends
    obtain ⟨_, _, _, hnone⟩ := hends
    rintro hlive ⟨_, path, hcertified⟩
    obtain ⟨rest, rfl⟩ := certificationPath_starts hcertified htarget
    cases rest with
    | nil =>
      obtain ⟨c, hc, htrusted⟩ := hcertified.anchor
      cases (hc : some target = some c)
      exact hanchor htrusted
    | cons first rest =>
      exact hnone hlive first rest trivial
        ((completes_iff_certificationPath htarget (List.cons_ne_nil _ _)).2 hcertified)
  | .escaped family =>
    rw [hresult] at hends
    exact hends
  | .stuck =>
    rw [hresult] at hends
    exact hends

theorem validate_isExact (r : X509ValidationRequest Certificate) : IsExact r (validate r) := by
  unfold validate
  cases hpeers : r.peerCertificates with
  | nil =>
    rintro - ⟨_, path, hpath⟩
    obtain ⟨hne, hhead⟩ := hpath.target
    rw [hpeers, List.head?_nil, List.head?_eq_none_iff] at hhead
    exact hne hhead
  | cons target peers =>
    have htarget : r.peerCertificates.head? = some target := by rw [hpeers, List.head?_cons]
    dsimp only
    split
    next hanchors =>
      rintro - ⟨_, path, hpath⟩
      obtain ⟨c, _, hc⟩ := hpath.anchor
      rw [hanchors] at hc
      exact List.not_mem_nil hc
    next =>
      split
      next hinvalid =>
        rintro - ⟨hvalid, _⟩
        simp [hvalid] at hinvalid
      next hvalid =>
        simp only [Bool.not_eq_true', Bool.not_eq_false] at hvalid
        cases hreference : r.referenceIssue with
        | some reason =>
          rintro - ⟨_, path, hpath⟩
          obtain ⟨rest, rfl⟩ := certificationPath_starts hpath htarget
          exact referenceIssue_identifies hreference target (hpath.acceptable.target target rfl).2.2
        | none =>
          dsimp only
          split
          next hfull =>
            intro hlive
            simp [collectCandidates, collect_limit (by simpa [collectCandidates] using hfull)] at hlive
          next hcollected =>
            simp only [Bool.not_eq_true', Bool.not_eq_false] at hcollected
            obtain ⟨cs, hcs, heq⟩ := collectCandidates_collected htarget hcollected
            rw [heq]
            split
            next hanchor => exact validateTrustedTarget_isExact rfl htarget hanchor hvalid
            next hanchor =>
              refine buildPath_isExact ⟨?_, hcs, List.mem_singleton_self _⟩ rfl htarget hanchor hvalid
              simp

/-- The search ends. Unless a limit was hit it accepts exactly when there is a certification path,
and the path that it reports is one. -/
theorem validate_accepts_iff (r : X509ValidationRequest Certificate) :
    match validate r with
    | .result validation limitHit =>
      (limitHit = false → ((∃ path, validation = .accepted path) ↔
        r.validationTime.isValid = true ∧ ∃ path, r.IsCertificationPath path)) ∧
      ∀ path, validation = .accepted path → r.IsCertificationPath path
    | .escaped family => family = .logic ∧ LeavesUncaught r
    | .stuck => False := by
  have hexact := validate_isExact r
  match hresult : validate r with
  | .result (.accepted path) limitHit =>
    rw [hresult] at hexact
    refine ⟨fun _ => iff_of_true ⟨path, rfl⟩ ⟨hexact.1, path, hexact.2⟩, ?_⟩
    rintro _ ⟨⟩
    exact hexact.2
  | .result (.rejected failure) limitHit =>
    rw [hresult] at hexact
    exact ⟨fun hlive => iff_of_false (by simp) (hexact hlive), by simp⟩
  | .escaped family =>
    rw [hresult] at hexact
    exact hexact
  | .stuck =>
    rw [hresult] at hexact
    exact hexact

/-- A server whose only certificate is also the configured anchor, long after its validity. -/
def expiredAnchor : X509ValidationRequest Unit where
  access := {
    issuer := fun _ => []
    subject := fun _ => []
    issuerId := fun _ => []
    subjectId := fun _ => []
    signatureUnusedBitCount := fun _ => 0
    verifySignature := fun _ _ => .ok true
    hasProfileIssues := fun _ => false
    validFrom := fun _ => .first
    validTo := fun _ => .first
    extensions := fun _ => []
    basicConstraints := fun _ => none
    keyUsage := fun _ => none
    extendedKeyUsage := fun _ => []
    ipAddresses := fun _ => [[127, 0, 0, 1]]
    dnsNames := fun _ => []
    canonicalName := .ok }
  trustAnchors := [()]
  intermediates := []
  peerCertificates := [()]
  referenceIdentity := .address [127, 0, 0, 1]
  validationTime := .last

/-- The validity of the target counts although it is an anchor. -/
theorem expiredAnchor_rejected :
    (∃ failure, validate expiredAnchor = .result (.rejected failure) false) ∧
      expiredAnchor.IsTrustPath [()] ∧
      (∀ c ∈ [()], c ∉ expiredAnchor.trustAnchors → expiredAnchor.IsUsable c) ∧
      expiredAnchor.IsServer () ∧ expiredAnchor.Identifies () := by
  refine ⟨⟨_, rfl⟩, trustPath_singleton rfl (List.mem_singleton_self _), ?_, ⟨?_, ?_, ?_⟩, ?_⟩
  · exact fun c _ huntrusted => absurd (List.mem_singleton_self ()) huntrusted
  · exact fun c hc => absurd hc (Option.not_mem_none c)
  · exact fun u hu => absurd hu (Option.not_mem_none u)
  · exact .inl ⟨rfl, fun e he => absurd he List.not_mem_nil⟩
  · exact List.mem_singleton_self _

end X509ServerCertificateValidator
end ErbslandCore.Cryptology
