import ErbslandCore.Cryptology.X509.X509ServerCertificateValidator
import ErbslandCore.Library.PathSearch

namespace ErbslandCore.Cryptology
open Library
set_option autoImplicit true

namespace X509ValidationRequest

variable {Certificate : Type} (r : X509ValidationRequest Certificate)

/-- Free of profile issues, within its validity and without unknown critical extensions. -/
structure IsUsable (certificate : Certificate) : Prop where
  profile : r.access.hasProfileIssues certificate = false
  started : r.validationTime.isBefore (r.access.validFrom certificate) = false
  notEnded : (r.access.validTo certificate).isBefore r.validationTime = false
  extensions : ∀ e ∈ r.access.extensions certificate, e.isCritical = true → e.oid ∈ criticalOids

/-- The extended key usages are not restricted, or the restriction permits server authentication. -/
def PermitsServer (certificate : Certificate) : Prop :=
  (r.access.extendedKeyUsage certificate = [] ∧
      ∀ e ∈ r.access.extensions certificate, e.oid ≠ "2.5.29.37") ∨
    ∃ oid ∈ r.access.extendedKeyUsage certificate, oid = "1.3.6.1.5.5.7.3.1" ∨ oid = "2.5.29.37.0"

/-- The rules for the certificate of a server. -/
structure IsServer (certificate : Certificate) : Prop where
  noAuthority : ∀ c ∈ r.access.basicConstraints certificate, c.isCertificateAuthority = false
  usage : ∀ u ∈ r.access.keyUsage certificate, u.digitalSignature = true
  purpose : r.PermitsServer certificate

/-- The rules for an authority above as many others that did not issue themselves. -/
structure IsAuthority (subordinates : Nat) (certificate : Certificate) : Prop where
  constraints : ∃ c ∈ r.access.basicConstraints certificate, c.isCertificateAuthority = true ∧
    ∀ n ∈ c.pathLength, subordinates ≤ n
  critical : r.hasCriticalBasicConstraints certificate = true
  usage : ∀ u ∈ r.access.keyUsage certificate, u.keyCertificateSign = true
  purpose : r.PermitsServer certificate

/-- The labels of names are the same up to case, except for the first one below a wildcard. -/
def SameName (reference presented : DnsName) : Prop :=
  reference.labels.length = presented.labels.length ∧
    let known := if presented.hasWildcard then 1 else 0
    (reference.labels.drop known).map (·.map toAsciiLowercase) =
      (presented.labels.drop known).map (·.map toAsciiLowercase)

/-- The certificate names the reference identity. -/
def Identifies (certificate : Certificate) : Prop :=
  match r.referenceIdentity with
  | .address bytes => bytes ∈ r.access.ipAddresses certificate
  | .name idnaAscii => ∃ reference, r.parseDnsNameOrThrow idnaAscii false = .ok reference ∧
      ∃ text ∈ r.access.dnsNames certificate, ∃ presented,
        r.parseDnsNameOrThrow text true = .ok presented ∧ SameName reference presented

/-- What the certificates of a path have to be: the target, also when it is the anchor, and those
between it and the anchor. -/
structure IsAcceptable (path : List Certificate) : Prop where
  target : ∀ c ∈ path.head?, r.IsUsable c ∧ r.IsServer c ∧ r.Identifies c
  intermediates : ∀ below c above, path = below ++ c :: above → below ≠ [] → above ≠ [] →
    r.IsUsable c ∧ r.IsAuthority (below.tail.countP fun c => !r.isSelfIssued c) c

/-- The issuer's name and key identifier fit, and its key verifies the signature. -/
def IsIssuedBy (child issuer : Certificate) : Prop :=
  r.hasIssuerLink child issuer = true ∧ r.access.signatureUnusedBitCount child = 0 ∧
    r.access.verifySignature child issuer = .ok true

/-- The paths of issuers from the target to an anchor. -/
structure IsTrustPath (path : List Certificate) : Prop where
  target : path ≠ [] ∧ path.head? = r.peerCertificates.head?
  anchor : ∃ c ∈ path.getLast?, c ∈ r.trustAnchors
  inner : ∀ c ∈ path.tail.dropLast, c ∉ r.trustAnchors ∧
    (c ∈ r.peerCertificates ∨ c ∈ r.intermediates)
  linked : path.IsChain r.IsIssuedBy
  distinct : path.Nodup
  bounded : path.length ≤ X509ServerCertificatePolicy.cMaximumPathDepth

/-- The paths to an anchor whose certificates are acceptable. -/
structure IsCertificationPath (path : List Certificate) : Prop extends r.IsTrustPath path where
  acceptable : r.IsAcceptable path

/-- The search for certification paths. -/
def pathProblem : PathProblem Certificate where
  Edge := r.IsIssuedBy
  Inner := fun c => c ∉ r.trustAnchors ∧ (c ∈ r.peerCertificates ∨ c ∈ r.intermediates)
  Goal := fun c => c ∈ r.trustAnchors
  bound := X509ServerCertificatePolicy.cMaximumPathDepth
  Good := r.IsAcceptable

variable {r}

/-- A check in front of others finds nothing. -/
theorem check_eq_none {p : Prop} [Decidable p] {issue : Issue} {others : Option Issue} :
    (if p then some issue else others) = none ↔ ¬p ∧ others = none := by
  split <;> simp [*]

theorem criticalExtensionIssue_eq_none {c : Certificate} : r.criticalExtensionIssue c = none ↔
    ∀ e ∈ r.access.extensions c, e.isCritical = true → e.oid ∈ criticalOids := by
  simp [criticalExtensionIssue]

theorem nonAnchorIssue_eq_none {c : Certificate} : r.nonAnchorIssue c = none ↔ r.IsUsable c := by
  rw [nonAnchorIssue, check_eq_none, check_eq_none, check_eq_none, criticalExtensionIssue_eq_none,
    Bool.not_eq_true, Bool.not_eq_true, Bool.not_eq_true]
  exact ⟨fun ⟨profile, started, notEnded, extensions⟩ => ⟨profile, started, notEnded, extensions⟩,
    fun h => ⟨h.profile, h.started, h.notEnded, h.extensions⟩⟩

theorem permitsServerAuthentication_iff {c : Certificate} :
    r.permitsServerAuthentication c = true ↔ r.PermitsServer c := by
  unfold permitsServerAuthentication PermitsServer
  split
  next h => simp [h]
  next h => simp [h]

theorem usageIssue_iff {usage : Option X509KeyUsage} {permits : X509KeyUsage → Bool} :
    ¬ usage.any (!permits ·) = true ↔ ∀ u ∈ usage, permits u = true := by
  cases usage <;> simp

theorem targetIssue_eq_none {c : Certificate} : r.targetIssue c = none ↔ r.IsServer c := by
  have hconstraints : ¬ (r.access.basicConstraints c).any (·.isCertificateAuthority) = true ↔
      ∀ b ∈ r.access.basicConstraints c, b.isCertificateAuthority = false := by
    cases r.access.basicConstraints c <;> simp
  rw [targetIssue, check_eq_none, check_eq_none, check_eq_none, hconstraints, usageIssue_iff,
    Bool.not_eq_true', Bool.not_eq_false, permitsServerAuthentication_iff]
  exact ⟨fun ⟨noAuthority, usage, purpose, _⟩ => ⟨noAuthority, usage, purpose⟩,
    fun h => ⟨h.noAuthority, h.usage, h.purpose, rfl⟩⟩

theorem subordinateCaCount_append {below above : List Certificate} (hbelow : below ≠ []) :
    r.subordinateCaCount (below ++ above) below.length =
      below.tail.countP fun c => !r.isSelfIssued c := by
  cases below with
  | nil => exact absurd rfl hbelow
  | cons target below =>
    rw [subordinateCaCount, List.cons_append, List.drop_one, List.tail_cons, List.length_cons,
      Nat.add_sub_cancel, List.take_left' rfl, List.tail_cons]

theorem intermediateIssue_eq_none {below above : List Certificate} {c : Certificate}
    (hbelow : below ≠ []) :
    r.intermediateIssue (below ++ c :: above) c below.length = none ↔
      r.IsAuthority (below.tail.countP fun c => !r.isSelfIssued c) c := by
  rw [intermediateIssue, subordinateCaCount_append hbelow]
  cases hb : r.access.basicConstraints c with
  | none =>
    refine iff_of_false (by simp) fun h => ?_
    obtain ⟨b, hmem, _⟩ := h.constraints
    simp [hb] at hmem
  | some b =>
    have hlength (n : Nat) : ¬ b.pathLength.any (· < n) = true ↔ ∀ m ∈ b.pathLength, n ≤ m := by
      cases b.pathLength <;> simp
    simp only [check_eq_none, usageIssue_iff, hlength, Bool.not_eq_true', Bool.not_eq_false,
      permitsServerAuthentication_iff]
    constructor
    · rintro ⟨critical, authority, usage, purpose, length, _⟩
      exact ⟨⟨b, hb, authority, length⟩, critical, usage, purpose⟩
    · rintro ⟨⟨_, hmem, authority, length⟩, critical, usage, purpose⟩
      cases (hb.symm.trans hmem : some b = some _)
      exact ⟨critical, authority, usage, purpose, length, trivial⟩

theorem dnsNameMatches_iff {reference presented : DnsName} :
    dnsNameMatches reference presented = true ↔ SameName reference presented := by
  unfold dnsNameMatches SameName
  split
  next h => simp [h]
  next h =>
    rw [Decidable.not_not] at h
    rw [List.all_eq_true]
    refine ⟨fun hall => ⟨h, List.ext_getElem? fun i => ?_⟩, fun ⟨_, heq⟩ index hindex => ?_⟩
    · rw [List.getElem?_map, List.getElem?_map, List.getElem?_drop, List.getElem?_drop]
      by_cases hi : (if presented.hasWildcard then 1 else 0) + i < reference.labels.length
      · have := hall _ (List.mem_range.2 hi)
        cases hw : presented.hasWildcard <;> simp_all
      · rw [List.getElem?_eq_none (by omega), List.getElem?_eq_none (by omega)]
    · have hget := congrArg (·[index - if presented.hasWildcard then 1 else 0]?) heq
      simp only [List.getElem?_map, List.getElem?_drop] at hget
      cases hw : presented.hasWildcard with
      | false => simpa [hw] using hget
      | true =>
        cases index with
        | zero => simp
        | succ index => simpa [hw, Nat.add_comm 1] using hget

theorem matchDnsNames_iff {reference : DnsName} {names : List (List Char)}
    {diagnostic : Option String} :
    (r.matchDnsNames reference names diagnostic).1 = true ↔ ∃ text ∈ names, ∃ presented,
      r.parseDnsNameOrThrow text true = .ok presented ∧ SameName reference presented := by
  induction names generalizing diagnostic with
  | nil => simp [matchDnsNames]
  | cons text names ih =>
    rw [List.exists_mem_cons_iff, matchDnsNames]
    cases hparse : r.parseDnsNameOrThrow text true with
    | error reason => simp [ih]
    | ok name =>
      by_cases hmatch : dnsNameMatches reference name = true
      · simp [hmatch, dnsNameMatches_iff.1 hmatch]
      · have hdiffers := mt dnsNameMatches_iff.2 hmatch
        simp [hmatch, hdiffers, ih]

theorem matchServerIdentity_iff {c : Certificate} :
    (r.matchServerIdentity c).1 = true ↔ r.Identifies c := by
  unfold matchServerIdentity Identifies
  cases r.referenceIdentity with
  | address bytes => simp
  | name idnaAscii =>
    cases hparse : r.parseDnsNameOrThrow idnaAscii false with
    | error reason => simp [hparse]
    | ok reference => simp [hparse, matchDnsNames_iff]

theorem identityIssue_eq_none {c : Certificate} : r.identityIssue c = none ↔ r.Identifies c := by
  rw [← matchServerIdentity_iff, identityIssue]
  match r.matchServerIdentity c with
  | (true, _) => simp
  | (false, some diagnostic) => simp
  | (false, none) => simp

theorem orElse_eq_none {x y : Option α} : (x <|> y) = none ↔ x = none ∧ y = none := by
  cases x <;> simp

/-- The checks of a selected path find nothing on the paths that are acceptable. -/
theorem selectedPathIssue_eq_none {target : Certificate} {rest : List Certificate} :
    r.selectedPathIssue (target :: rest) = none ↔ r.IsAcceptable (target :: rest) := by
  rw [selectedPathIssue, orElse_eq_none, orElse_eq_none, Option.map_eq_none_iff,
    Option.map_eq_none_iff, orElse_eq_none, nonAnchorIssue_eq_none, targetIssue_eq_none,
    identityIssue_eq_none, List.findSome?_eq_none_iff]
  constructor
  · rintro ⟨⟨husable, hserver⟩, hinner, hidentity⟩
    refine ⟨?_, ?_⟩
    · intro c hc
      cases (hc : some target = some c)
      exact ⟨husable, hserver, hidentity⟩
    · intro below c above hpath hbelow habove
      have hlen := congrArg List.length hpath
      have hb := List.length_pos_iff.2 hbelow
      have ha := List.length_pos_iff.2 habove
      rw [List.length_append, List.length_cons (a := c)] at hlen
      have hget : (target :: rest)[below.length - 1 + 1]? = some c := by
        rw [Nat.sub_add_cancel hb, hpath, List.getElem?_append_right (Nat.le_refl _), Nat.sub_self]
        rfl
      have hcheck := hinner (below.length - 1) (List.mem_range.2 (by omega))
      rw [hget, Option.bind_some, Option.map_eq_none_iff, orElse_eq_none, nonAnchorIssue_eq_none,
        Nat.sub_add_cancel hb, hpath, intermediateIssue_eq_none hbelow] at hcheck
      exact hcheck
  · intro h
    obtain ⟨husable, hserver, hidentity⟩ := h.target target rfl
    refine ⟨⟨husable, hserver⟩, fun index hindex => ?_, hidentity⟩
    have hlt := List.mem_range.1 hindex
    have hi : index + 1 < (target :: rest).length := by omega
    have hsplit : target :: rest = (target :: rest).take (index + 1) ++
        (target :: rest)[index + 1] :: (target :: rest).drop (index + 2) := by
      rw [List.getElem_cons_drop, List.take_append_drop]
    have hlength : ((target :: rest).take (index + 1)).length = index + 1 := by
      rw [List.length_take]
      omega
    obtain ⟨husable, hauthority⟩ := h.intermediates _ _ _ hsplit (by simp)
      (List.ne_nil_of_length_pos (by rw [List.length_drop]; omega))
    rw [← intermediateIssue_eq_none (by simp), ← hsplit, hlength] at hauthority
    rw [List.getElem?_eq_getElem hi, Option.bind_some, Option.map_eq_none_iff, orElse_eq_none]
    exact ⟨nonAnchorIssue_eq_none.2 husable, hauthority⟩

end X509ValidationRequest
end ErbslandCore.Cryptology
