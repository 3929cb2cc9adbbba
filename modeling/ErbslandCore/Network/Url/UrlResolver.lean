import ErbslandCore.Network.Url.RelativeReference
import ErbslandCore.Network.Url.UrlDotSegments

namespace ErbslandCore.Network.Url
open Library Text UrlParser
set_option autoImplicit true

namespace UrlResolver

/-- Test the rest of a scheme up to a colon. -/
def hasSchemeTail : List UInt8 → Bool
  | [] => false
  | c :: text =>
    if c = colon then true
    else if c = slash || c = questionMark || c = numberSign then false
    else if !isUrlSchemeCharacter c then false
    else hasSchemeTail text

def hasScheme : List UInt8 → Bool
  | [] => false
  | c :: text => isAsciiLetter c.toNat && hasSchemeTail text

section resolving
variable {Authority : Type} (environment : UrlEnvironment Authority) (base : UrlData Authority)

def hasHierarchicalBase : Bool :=
  if base.scheme = .invalid ∨ base.scheme = .mailto then false
  else base.scheme ≠ .custom || base.hasAuthority

def mergePath (path : List UInt8) : List UInt8 :=
  if base.hasAuthority ∧ base.path = [] then slash :: path
  else
    match beforeLastSlash base.path with
    | none => path
    | some front => front ++ slash :: path

/-- The text of a part that may not be there. -/
def decodeIf (present : Bool) (text : List UInt8) : Except ParseError (List UInt8) :=
  if present then decodeComponent environment text else .ok []

def resolvePath (reference : Reference) (decodedPath : List UInt8) :
    Except ParseError (UrlData Authority) :=
  if decodedPath = [] then
    if reference.hasQuery then do
      let query ← decodeComponent environment reference.query
      return { base with query := query, hasQuery := true }
    else .ok base
  else do
    let query ← decodeIf environment reference.hasQuery reference.query
    return { base with
      path := removeDotSegments
        (if [slash] <+: decodedPath then decodedPath else mergePath base decodedPath)
      query := query
      hasQuery := reference.hasQuery }

def resolveRelative (reference : Reference) : Except ParseError (UrlData Authority) := do
  let decodedPath ← decodeComponent environment reference.path
  let result ← resolvePath environment base reference decodedPath
  let fragment ← decodeIf environment reference.hasFragment reference.fragment
  return { result with fragment := fragment, hasFragment := reference.hasFragment }

def parseAbsolute (maximumLength : Nat) (text : List UInt8) :
    Except ParseError (UrlData Authority) := do
  let result ← parse environment maximumLength text
  return { result with path := removeDotSegments result.path }

def resolve (maximumLength : Nat) (reference : List UInt8) :
    Except ParseError (UrlData Authority) :=
  if reference.length > maximumLength then
    .error ⟨"The URI reference exceeds the configured length limit."⟩
  else if !Utf8.isValid reference then .error ⟨"The URI reference is not valid UTF-8."⟩
  else if !hasHierarchicalBase base then
    .error ⟨"This base URL does not support hierarchical reference resolution."⟩
  else if hasScheme reference then parseAbsolute environment maximumLength reference
  else if [slash, slash] <+: reference then
    parseAbsolute environment maximumLength (base.schemeText ++ colon :: reference)
  else resolveRelative environment base (splitReference reference)

end resolving
end UrlResolver

section specification
variable {Authority : Type}

/-- A path whose segments stay and go up nowhere. -/
def normalPath (path : List UInt8) : List UInt8 :=
  joinSegments slash (UrlResolver.dots.normalize (path.splitOn slash))

/-- A relative path takes the place of the last segment of the base path. -/
def mergedPath (base : UrlComponents Authority) (path : List UInt8) : List UInt8 :=
  if base.authority.isSome ∧ base.path = [] then slash :: path
  else joinSegments slash ((base.path.splitOn slash).dropLast ++ path.splitOn slash)

/-- The transformation of references of RFC 3986, section 5.2.2. -/
def transform (base reference : UrlComponents Authority) : UrlComponents Authority :=
  match reference.authority with
  | some authority =>
    { authority := some authority
      path := normalPath reference.path
      query := reference.query
      fragment := reference.fragment }
  | none =>
    if reference.path = [] then
      { authority := base.authority
        path := base.path
        query := reference.query.or base.query
        fragment := reference.fragment }
    else
      { authority := base.authority
        path := normalPath
          (if [slash] <+: reference.path then reference.path else mergedPath base reference.path)
        query := reference.query
        fragment := reference.fragment }

theorem transform_some (base : UrlComponents Authority) {reference : UrlComponents Authority}
    (h : reference.authority = some authority) :
    transform base reference =
      { authority := some authority
        path := normalPath reference.path
        query := reference.query
        fragment := reference.fragment } := by
  rw [transform, h]

end specification

namespace UrlResolver
section correctness
variable {Authority : Type} {environment : UrlEnvironment Authority} {base : UrlData Authority}

theorem removeDotSegments_eq_normalPath (path : List UInt8) :
    removeDotSegments path = normalPath path := removeDotSegments_eq path

theorem exists_lastSlash (h : slash ∈ path) :
    ∃ front last, path = front ++ slash :: last ∧ slash ∉ last := by
  obtain ⟨last, front, hpath, hlast⟩ := List.eq_append_cons_of_mem (List.mem_reverse.mpr h)
  refine ⟨front.reverse, last.reverse, ?_, fun hmem => hlast (List.mem_reverse.mp hmem)⟩
  rw [← List.reverse_reverse path, hpath]
  simp

/-- The part of the base path up to its last slash are all of its segments but the last. -/
theorem mergePath_eq (path : List UInt8) : mergePath base path = mergedPath base.components path := by
  have hsome : base.components.authority.isSome = base.hasAuthority := by
    rw [UrlData.components]
    cases base.hasAuthority <;> rfl
  rw [mergePath, mergedPath, hsome]
  refine if_congr Iff.rfl rfl ?_
  by_cases hslash : slash ∈ base.path
  · obtain ⟨front, last, hpath, hlast⟩ := exists_lastSlash hslash
    have hsplit : base.components.path.splitOn slash = front.splitOn slash ++ [last] := by
      have htext : base.path = joinSegments slash (front.splitOn slash ++ [last]) := by
        rw [joinSegments_append (List.splitOn_ne_nil _ _), joinSegments_splitOn, hpath]
      rw [UrlData.components, htext]
      apply splitOn_joinSegments (List.append_ne_nil_of_left_ne_nil (List.splitOn_ne_nil _ _) _)
      intro s hmem
      rcases List.mem_append.mp hmem with hmem | hmem
      · exact not_mem_of_mem_splitOn hmem
      · rw [List.mem_singleton.mp hmem]
        exact hlast
    rw [hsplit, List.dropLast_concat, joinSegments_append_segments (List.splitOn_ne_nil _ _)
      (List.splitOn_ne_nil _ _), joinSegments_splitOn, joinSegments_splitOn, hpath,
      beforeLastSlash_append hlast]
  · have hsplit : base.components.path.splitOn slash = [base.path] := by
      have htext : base.path = joinSegments slash [base.path] := (List.append_nil _).symm
      rw [UrlData.components]
      conv_lhs => rw [htext]
      apply splitOn_joinSegments (List.cons_ne_nil _ _)
      intro s hmem
      rw [List.mem_singleton.mp hmem]
      exact hslash
    rw [hsplit, beforeLastSlash_eq_none hslash]
    exact (joinSegments_splitOn path).symm

theorem decodeIf_part {part : Option (List UInt8)}
    (h : decodeIf environment part.isSome (part.getD []) = .ok text) :
    decodePart environment part = .ok (if part.isSome then some text else none) := by
  cases part with
  | none => rfl
  | some encoded =>
    apply decodePart_getD
    exact h

/-- A reference without an authority leads to the place that its decoded parts stand for. -/
theorem resolveRelative_eq_ok {reference : RelativeReference} (hnone : reference.authority = none)
    (h : resolveRelative environment base reference.parts = .ok result) :
    ∃ components, reference.decoded environment base.scheme = .ok components ∧
      result.scheme = base.scheme ∧ result.schemeText = base.schemeText ∧
      result.components = transform base.components components := by
  obtain ⟨path, hpath, h⟩ := bind_eq_ok h
  obtain ⟨resolved, hresolved, h⟩ := bind_eq_ok h
  obtain ⟨fragment, hfragment, h⟩ := bind_eq_ok h
  have hpath' : decodeComponent environment reference.path = .ok path := hpath
  have hdecoded : ∀ query, decodePart environment reference.query = .ok query →
      reference.decoded environment base.scheme =
        .ok { authority := none, path := path, query := query
              fragment := if reference.fragment.isSome then some fragment else none } := by
    intro query hquery
    rw [RelativeReference.decoded, hnone, decodeAuthority, ok_bind, hpath', ok_bind, hquery,
      ok_bind, decodeIf_part hfragment]
    rfl
  cases h
  rw [resolvePath] at hresolved
  by_cases hempty : path = []
  · rw [if_pos hempty] at hresolved
    split_ifs at hresolved with hquery
    · obtain ⟨query, htext, hresolved⟩ := bind_eq_ok hresolved
      have hpart := decodePart_getD htext
      cases hresolved
      refine ⟨_, hdecoded _ hpart, rfl, rfl, ?_⟩
      have hquery' : reference.query.isSome = true := hquery
      rw [transform, if_pos hempty, hquery']
      rfl
    · have hquery' : reference.query = none := Option.not_isSome_iff_eq_none.mp hquery
      have hpart : decodePart environment reference.query = .ok none := by rw [hquery', decodePart]
      cases hresolved
      refine ⟨_, hdecoded _ hpart, rfl, rfl, ?_⟩
      rw [transform, if_pos hempty, Option.none_or]
      rfl
  · rw [if_neg hempty] at hresolved
    obtain ⟨query, htext, hresolved⟩ := bind_eq_ok hresolved
    have hpart := decodeIf_part htext
    cases hresolved
    refine ⟨_, hdecoded _ hpart, rfl, rfl, ?_⟩
    rw [transform, if_neg hempty, ← mergePath_eq]
    simp only [removeDotSegments_eq_normalPath]
    rfl

/-- A reference with an authority leads to the URL of the same scheme with its parts. -/
theorem parseAbsolute_eq_ok (hbase : base.Canonical) (hslash : [slash, slash] <+: reference)
    (h : parseAbsolute environment maximumLength (base.schemeText ++ colon :: reference) =
      .ok result) :
    ∃ (relative : RelativeReference) (components : UrlComponents Authority),
      relative.text = reference ∧ relative.decoded environment base.scheme = .ok components ∧
      result.scheme = base.scheme ∧ result.schemeText = base.schemeText ∧
      result.components = transform base.components components := by
  obtain ⟨data, hparse, hresult⟩ := bind_eq_ok h
  obtain ⟨relative, hscheme, hsplit, hfrom, hdecoded⟩ := parse_eq_ok hparse
  rw [hbase.parseScheme] at hscheme
  obtain ⟨htext, hrest⟩ := Prod.mk.inj (Except.ok.inj hscheme)
  have hsame : data.scheme = base.scheme := by rw [hfrom, hbase.scheme_eq, htext]
  obtain ⟨rest, rfl⟩ := hslash
  have hsome : data.components.authority.isSome = true := by
    rw [decoded_authority hdecoded, ← hsplit, ← hrest]
    rfl
  obtain ⟨authority, hauthority⟩ := Option.isSome_iff_exists.mp hsome
  rw [hsame] at hdecoded
  cases hresult
  refine ⟨relative, data.components, hrest.symm, hdecoded, hsame, htext.symm, ?_⟩
  rw [transform_some base.components hauthority, ← hauthority, removeDotSegments_eq_normalPath]
  rfl

theorem resolve_eq_ok (hbase : base.Canonical) (hscheme : hasScheme reference = false)
    (h : resolve environment base maximumLength reference = .ok result) :
    ∃ (relative : RelativeReference) (components : UrlComponents Authority),
      relative.text = reference ∧ relative.decoded environment base.scheme = .ok components ∧
      result.scheme = base.scheme ∧ result.schemeText = base.schemeText ∧
      result.components = transform base.components components := by
  rw [resolve, hscheme] at h
  simp only [Bool.false_eq_true, if_false] at h
  split_ifs at h with hlength hvalid hbase' hslash
  · exact parseAbsolute_eq_ok hbase hslash h
  · obtain ⟨relative, htext, hsplit, hparts⟩ := exists_relativeReference reference
    rw [splitAuthority_none hslash] at hsplit
    obtain ⟨hnone, hafter⟩ := Prod.mk.inj hsplit
    rw [hafter, hparts] at h
    obtain ⟨components, hresult⟩ := resolveRelative_eq_ok hnone.symm h
    exact ⟨relative, components, htext, hresult⟩

theorem normalPath_isNormal (path : List UInt8) : dots.IsNormal ((normalPath path).splitOn slash) := by
  rw [← removeDotSegments_eq_normalPath]
  exact removeDotSegments_isNormal path

/-- The path has dot segments at most where it is the path of the base. -/
theorem transform_path (base reference : UrlComponents Authority) :
    if reference.authority = none ∧ reference.path = [] then
      (transform base reference).path = base.path
    else dots.IsNormal ((transform base reference).path.splitOn slash) := by
  simp only [transform]
  cases reference.authority with
  | some authority =>
    rw [if_neg fun h => nomatch h.1]
    exact normalPath_isNormal _
  | none =>
    by_cases hempty : reference.path = []
    · rw [if_pos ⟨rfl, hempty⟩, if_pos hempty]
    · rw [if_neg fun h => hempty h.2, if_neg hempty]
      exact normalPath_isNormal _

theorem components_authority (data : UrlData Authority) :
    data.components.authority.isSome = data.hasAuthority := by
  rw [UrlData.components]
  cases data.hasAuthority with
  | true => rfl
  | false => rfl

/-- Every reference leads from a canonical URL to one. -/
theorem resolve_canonical (hbase : base.Canonical)
    (h : resolve environment base maximumLength reference = .ok result) : result.Canonical := by
  cases hscheme : hasScheme reference with
  | true =>
    rw [resolve, hscheme, if_pos rfl] at h
    split_ifs at h
    obtain ⟨data, hparse, hresult⟩ := bind_eq_ok h
    cases hresult
    obtain ⟨hfrom, hletter, hcharacters⟩ := parse_canonical hparse
    exact ⟨hfrom, hletter, hcharacters⟩
  | false =>
    obtain ⟨-, -, -, -, hsame, htext, -⟩ := resolve_eq_ok hbase hscheme h
    obtain ⟨hfrom, hletter, hcharacters⟩ := hbase
    refine ⟨?_, ?_, ?_⟩
    · rw [hsame, htext, hfrom]
    · rw [htext]
      exact hletter
    · rw [htext]
      exact hcharacters

/-- A relative reference keeps the scheme and leads to the parts of section 5.2.2; the path has no
dot segments, unless it is the path of the base. -/
theorem resolve_relativeReference (environment : UrlEnvironment Authority) :
    (∀ base : UrlData Authority, base.Canonical → base.hasAuthority = true →
      ∀ maximumLength reference result, hasScheme reference = false →
      resolve environment base maximumLength reference = .ok result →
      ∃ (relative : RelativeReference) (components : UrlComponents Authority),
        relative.text = reference ∧ relative.decoded environment base.scheme = .ok components ∧
        result.scheme = base.scheme ∧ result.schemeText = base.schemeText ∧
        result.hasAuthority = true ∧
        result.components = transform base.components components ∧
        if components.authority = none ∧ components.path = [] then result.path = base.path
        else dots.IsNormal (result.path.splitOn slash)) ∧
    ∀ path : List UInt8,
      (path ≠ [] → ∀ output, (removeDotSegmentsTurn path output).1.length < path.length) ∧
      dots.IsNormal ((removeDotSegments path).splitOn slash) ∧
      removeDotSegments (removeDotSegments path) = removeDotSegments path := by
  refine ⟨?_, fun path => ⟨fun h => removeDotSegmentsTurn_lt h, removeDotSegments_isNormal path,
    removeDotSegments_idempotent path⟩⟩
  intro base hbase hauthority maximumLength reference result hscheme h
  obtain ⟨relative, components, htext, hdecoded, hsame, hschemeText, hresult⟩ :=
    resolve_eq_ok hbase hscheme h
  have hpath := transform_path base.components components
  rw [← hresult] at hpath
  have hkept : result.hasAuthority = true := by
    rw [← components_authority, hresult, transform]
    cases components.authority with
    | some authority => rfl
    | none =>
      rw [← components_authority] at hauthority
      split_ifs <;> exact hauthority
  exact ⟨relative, components, htext, hdecoded, hsame, hschemeText, hkept, hresult, hpath⟩

/-- Authorities as they are written; texts are their own normalization. -/
def plainEnvironment : UrlEnvironment (List UInt8) where
  normalized := id
  noAuthority := []
  parseAuthority := fun _ text => .ok text

/-- "http://h/a/../b", as it is parsed. -/
def dottedBase : UrlData (List UInt8) where
  scheme := .http
  schemeText := U8String.ofLiteral "http"
  authorityText := U8String.ofLiteral "h"
  authority := U8String.ofLiteral "h"
  path := U8String.ofLiteral "/a/../b"
  hasAuthority := true

theorem dottedBase_canonical : dottedBase.Canonical where
  scheme_eq := by decide
  letter := ⟨0x68, _, rfl, by decide⟩
  characters := by decide +kernel

theorem parse_dottedBase :
    parse plainEnvironment 100 (U8String.ofLiteral "http://h/a/../b") = .ok dottedBase := by
  have hlength : ¬ (U8String.ofLiteral "http://h/a/../b").length > 100 := by decide
  have hvalid : Utf8.isValid (U8String.ofLiteral "http://h/a/../b") = true := by decide +kernel
  have hscheme : parseScheme (U8String.ofLiteral "http://h/a/../b") =
      .ok (U8String.ofLiteral "http", U8String.ofLiteral "//h/a/../b") := by rfl
  have hhttp : schemeFromText (U8String.ofLiteral "http") = .http := by decide
  have hsplit : splitAuthority (U8String.ofLiteral "//h/a/../b") =
      (some (U8String.ofLiteral "h"), U8String.ofLiteral "/a/../b") := by rfl
  have hreference : splitReference (U8String.ofLiteral "/a/../b") =
      { path := U8String.ofLiteral "/a/../b" } := by rfl
  have hpath := decodeComponent_plain plainEnvironment
    (show percentSign ∉ U8String.ofLiteral "/a/../b" by decide)
  have hnone : decodeComponent plainEnvironment [] = .ok [] :=
    decodeComponent_plain plainEnvironment List.not_mem_nil
  rw [parse, if_neg hlength, hvalid, Bool.not_true, if_neg Bool.false_ne_true, hscheme, ok_bind]
  simp only [hsplit, hhttp, hreference, Option.isSome_some, Option.isNone_some, Bool.and_false,
    reduceCtorEq, decide_false, Bool.false_eq_true, if_false]
  rw [parseComponents, hpath, ok_bind, hnone, ok_bind, ok_bind, hhttp]
  rfl

/-- The empty reference keeps the path of the base as it is. -/
theorem resolve_dottedBase :
    resolve plainEnvironment dottedBase 100 [] = .ok dottedBase := by
  have hvalid : Utf8.isValid [] = true := by decide
  have hnone : decodeComponent plainEnvironment [] = .ok [] :=
    decodeComponent_plain plainEnvironment List.not_mem_nil
  rw [resolve, hvalid, if_neg (by decide), if_neg (by decide), if_neg (by decide),
    if_neg (by decide), if_neg (by decide), resolveRelative]
  have hpath : (splitReference []).path = [] := rfl
  rw [hpath, hnone, ok_bind]
  rfl

theorem resolve_dotSegments : ¬ ∀ (base result : UrlData (List UInt8)) (reference : List UInt8),
    parse plainEnvironment 100 (U8String.ofLiteral "http://h/a/../b") = .ok base →
    hasScheme reference = false →
    resolve plainEnvironment base 100 reference = .ok result →
    dots.IsNormal (result.path.splitOn slash) := by
  intro h
  have hnormal := h dottedBase dottedBase [] parse_dottedBase rfl resolve_dottedBase
  exact hnormal [dot, dot] (by decide +kernel) (.inr rfl)

/-- "../c" at "http://h/a/../b" is a reference to the same host. -/
theorem resolve_relativeReference_up :
    ∃ (result : UrlData (List UInt8)) (components : UrlComponents (List UInt8)),
      resolve plainEnvironment dottedBase 100 (U8String.ofLiteral "../c") = .ok result ∧
      result.scheme = .http ∧ result.hasAuthority = true ∧
      result.components = transform dottedBase.components components := by
  have hlength : ¬ (U8String.ofLiteral "../c").length > 100 := by decide
  have hvalid : Utf8.isValid (U8String.ofLiteral "../c") = true := by decide +kernel
  have hreference : splitReference (U8String.ofLiteral "../c") =
      { path := U8String.ofLiteral "../c" } := by rfl
  have hpath := decodeComponent_plain plainEnvironment
    (show percentSign ∉ U8String.ofLiteral "../c" by decide)
  have hresult : resolve plainEnvironment dottedBase 100 (U8String.ofLiteral "../c") =
      .ok { dottedBase with
        path := removeDotSegments (mergePath dottedBase (U8String.ofLiteral "../c")) } := by
    rw [resolve, if_neg hlength, hvalid, if_neg (by decide), if_neg (by decide),
      if_neg (by decide), if_neg (by decide), hreference, resolveRelative, hpath, ok_bind]
    rfl
  obtain ⟨-, components, -, -, hscheme, -, hauthority, hcomponents, -⟩ :=
    (resolve_relativeReference plainEnvironment).1 dottedBase dottedBase_canonical rfl 100
      (U8String.ofLiteral "../c") _ (by decide) hresult
  exact ⟨_, components, hresult, hscheme, hauthority, hcomponents⟩

end correctness
end UrlResolver
end ErbslandCore.Network.Url
