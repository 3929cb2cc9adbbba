import ErbslandCore.Library.Except
import ErbslandCore.Network.Url.UrlParser

namespace ErbslandCore.Network.Url
open Library Text UrlParser
set_option autoImplicit true

/-- A reference without a scheme; each part ends where the next one starts. -/
structure RelativeReference where
  authority : Option (List UInt8)
  path : List UInt8
  query : Option (List UInt8)
  fragment : Option (List UInt8)
  authority_end : ∀ text ∈ authority, ∀ c ∈ text, endsAuthority c = false
  path_end : ∀ c ∈ path, endsPath c = false
  path_start : if authority.isSome then path = [] ∨ [slash] <+: path else ¬ [slash, slash] <+: path
  query_end : ∀ text ∈ query, numberSign ∉ text

/-- The decoded parts of a URL after its scheme; a part that is not there is different from one
without text. -/
structure UrlComponents (Authority : Type) where
  authority : Option (List UInt8 × Authority)
  path : List UInt8
  query : Option (List UInt8)
  fragment : Option (List UInt8)

namespace UrlData
variable {Authority : Type}

def components (data : UrlData Authority) : UrlComponents Authority where
  authority := if data.hasAuthority then some (data.authorityText, data.authority) else none
  path := data.path
  query := if data.hasQuery then some data.query else none
  fragment := if data.hasFragment then some data.fragment else none

/-- The scheme of a URL is written in lower case, and it is the one that its text stands for. -/
structure Canonical (data : UrlData Authority) : Prop where
  scheme_eq : data.scheme = schemeFromText data.schemeText
  letter : ∃ first rest, data.schemeText = first :: rest ∧ isAsciiLetter first.toNat = true
  characters : ∀ c ∈ data.schemeText, isUrlSchemeCharacter c = true ∧ lowercase c = c

end UrlData

section schemes

theorem isUrlSchemeCharacter_of_isAsciiLetter (h : isAsciiLetter c.toNat = true) :
    isUrlSchemeCharacter c = true := by
  simp [isUrlSchemeCharacter, isAsciiAlphanumeric, h]

theorem toNat_lowercase (c : UInt8) : (lowercase c).toNat = toAsciiLowercase c.toNat := by
  have hc := c.toNat_lt
  rw [lowercase, UInt8.toNat_ofNat']
  apply Nat.mod_eq_of_lt
  rw [toAsciiLowercase]
  split_ifs <;> omega

theorem isAsciiLetter_lowercase (h : isAsciiLetter c.toNat = true) :
    isAsciiLetter (lowercase c).toNat = true := by
  rw [toNat_lowercase, toAsciiLowercase]
  split_ifs with hupper
  · simp only [isAsciiLetter, Bool.or_eq_true, Bool.and_eq_true, decide_eq_true_eq]
    omega
  · exact h

theorem lowercase_of_not_isAsciiLetter (h : isAsciiLetter c.toNat = false) : lowercase c = c := by
  apply UInt8.toNat_inj.mp
  rw [toNat_lowercase, toAsciiLowercase, if_neg]
  intro hupper
  simp [isAsciiLetter, hupper] at h

theorem isUrlSchemeCharacter_lowercase (h : isUrlSchemeCharacter c = true) :
    isUrlSchemeCharacter (lowercase c) = true := by
  cases hletter : isAsciiLetter c.toNat with
  | true => exact isUrlSchemeCharacter_of_isAsciiLetter (isAsciiLetter_lowercase hletter)
  | false => rw [lowercase_of_not_isAsciiLetter hletter, h]

theorem lowercase_lowercase (c : UInt8) : lowercase (lowercase c) = lowercase c := by
  apply UInt8.toNat_inj.mp
  rw [toNat_lowercase, toNat_lowercase]
  simp only [toAsciiLowercase]
  split_ifs <;> omega

theorem parseSchemeTail_characters (h : parseSchemeTail text = .ok (scheme, rest)) :
    ∀ c ∈ scheme, isUrlSchemeCharacter c = true ∧ lowercase c = c := by
  induction text generalizing scheme with
  | nil => exact absurd h nofun
  | cons c text ih =>
    rw [parseSchemeTail] at h
    split_ifs at h with hcolon hcharacter
    · cases h
      exact fun _ hmem => absurd hmem List.not_mem_nil
    · obtain ⟨⟨tail, after⟩, htail, hresult⟩ := bind_eq_ok h
      cases hresult
      intro d hmem
      rcases List.mem_cons.mp hmem with rfl | hmem
      · refine ⟨isUrlSchemeCharacter_lowercase ?_, lowercase_lowercase c⟩
        exact Bool.of_not_eq_false fun heq => hcharacter (by rw [heq]; rfl)
      · exact ih htail d hmem

/-- A scheme in lower case is read as it is written. -/
theorem parseSchemeTail_append (h : ∀ c ∈ scheme, isUrlSchemeCharacter c = true ∧ lowercase c = c)
    (text : List UInt8) : parseSchemeTail (scheme ++ colon :: text) = .ok (scheme, text) := by
  induction scheme with
  | nil => rfl
  | cons c scheme ih =>
    obtain ⟨hcharacter, hlowercase⟩ := h c List.mem_cons_self
    have hcolon : c ≠ colon := by
      rintro rfl
      exact absurd hcharacter (by decide)
    rw [List.cons_append, parseSchemeTail, if_neg hcolon, hcharacter, Bool.not_true,
      if_neg Bool.false_ne_true, ih fun d hd => h d (List.mem_cons_of_mem _ hd), ok_bind,
      hlowercase]
    rfl

variable {Authority : Type} {data : UrlData Authority}

theorem parseScheme_canonical (h : parseScheme text = .ok (data.schemeText, rest))
    (hscheme : data.scheme = schemeFromText data.schemeText) : data.Canonical := by
  cases text with
  | nil => exact absurd h nofun
  | cons first text =>
    rw [parseScheme] at h
    split_ifs at h with hletter
    have hletter' : isAsciiLetter first.toNat = true :=
      Bool.of_not_eq_false fun heq => hletter (by rw [heq]; rfl)
    obtain ⟨⟨tail, after⟩, htail, hresult⟩ := bind_eq_ok h
    have hresult' : (lowercase first :: tail, after) = (data.schemeText, rest) :=
      Except.ok.inj hresult
    have htext : data.schemeText = lowercase first :: tail := (Prod.mk.inj hresult').1.symm
    refine ⟨hscheme, ⟨_, _, htext, isAsciiLetter_lowercase hletter'⟩, ?_⟩
    rw [htext]
    intro c hmem
    rcases List.mem_cons.mp hmem with rfl | hmem
    · have hcharacter := isUrlSchemeCharacter_of_isAsciiLetter hletter'
      exact ⟨isUrlSchemeCharacter_lowercase hcharacter, lowercase_lowercase first⟩
    · exact parseSchemeTail_characters htail c hmem

theorem UrlData.Canonical.parseScheme (h : data.Canonical) (text : List UInt8) :
    parseScheme (data.schemeText ++ colon :: text) = .ok (data.schemeText, text) := by
  obtain ⟨first, tail, htext, hletter⟩ := h.letter
  have hcharacters := h.characters
  rw [htext] at hcharacters ⊢
  obtain ⟨-, hlowercase⟩ := hcharacters first List.mem_cons_self
  rw [List.cons_append, UrlParser.parseScheme, hletter, Bool.not_true, if_neg Bool.false_ne_true,
    parseSchemeTail_append fun c hc => hcharacters c (List.mem_cons_of_mem _ hc), ok_bind,
    hlowercase]
  rfl

end schemes

namespace RelativeReference

def text (reference : RelativeReference) : List UInt8 :=
  reference.authority.elim [] ([slash, slash] ++ ·) ++ (reference.path ++
    (reference.query.elim [] (questionMark :: ·) ++ reference.fragment.elim [] (numberSign :: ·)))

def afterAuthority (reference : RelativeReference) : List UInt8 :=
  reference.path ++
    (reference.query.elim [] (questionMark :: ·) ++ reference.fragment.elim [] (numberSign :: ·))

def parts (reference : RelativeReference) : Reference where
  path := reference.path
  query := reference.query.getD []
  fragment := reference.fragment.getD []
  hasQuery := reference.query.isSome
  hasFragment := reference.fragment.isSome

end RelativeReference

section splitting

/-- What is left of a text starts with a character that ends the front. -/
theorem dropWhile_start (p : UInt8 → Bool) (text : List UInt8) :
    text.dropWhile p = [] ∨ ∃ c rest, text.dropWhile p = c :: rest ∧ p c = false := by
  cases hrest : text.dropWhile p with
  | nil => exact .inl rfl
  | cons c rest =>
    have hc := List.head?_dropWhile_not p text
    rw [hrest] at hc
    exact .inr ⟨c, rest, rfl, by simpa using hc⟩

/-- The text of a fragment, after the query. -/
theorem fragment_cases (text : List UInt8) :
    ∃ (query : List UInt8) (fragment : Option (List UInt8)), numberSign ∉ query ∧
      text = query ++ fragment.elim [] (numberSign :: ·) ∧
      text.takeWhile (· ≠ numberSign) = query ∧
      text.dropWhile (· ≠ numberSign) = fragment.elim [] (numberSign :: ·) := by
  have hquery : numberSign ∉ text.takeWhile (· ≠ numberSign) := by
    intro hmem
    have hne := List.mem_takeWhile_imp hmem
    simp at hne
  have hsplit := List.takeWhile_append_dropWhile (p := (· ≠ numberSign)) (l := text)
  rcases dropWhile_start (· ≠ numberSign) text with hrest | ⟨c, rest, hrest, hc⟩
  · refine ⟨_, none, hquery, ?_, rfl, hrest⟩
    rw [hrest] at hsplit
    exact hsplit.symm
  · have heq : c = numberSign := by simpa using hc
    subst heq
    refine ⟨_, some rest, hquery, ?_, rfl, hrest⟩
    rw [hrest] at hsplit
    exact hsplit.symm

theorem splitReference_cases (text : List UInt8) :
    ∃ (path : List UInt8) (query fragment : Option (List UInt8)),
      (∀ c ∈ path, endsPath c = false) ∧
      (∀ text ∈ query, numberSign ∉ text) ∧
      text = path ++ (query.elim [] (questionMark :: ·) ++ fragment.elim [] (numberSign :: ·)) ∧
      splitReference text =
        { path := path, query := query.getD [], fragment := fragment.getD []
          hasQuery := query.isSome, hasFragment := fragment.isSome } := by
  have hpath : ∀ c ∈ text.takeWhile (!endsPath ·), endsPath c = false := by
    intro c hmem
    have hc := List.mem_takeWhile_imp hmem
    simpa using hc
  have hsplit := List.takeWhile_append_dropWhile (p := (!endsPath ·)) (l := text)
  rcases dropWhile_start (!endsPath ·) text with hrest | ⟨c, rest, hrest, hc⟩
  · refine ⟨_, none, none, hpath, nofun, ?_, ?_⟩
    · rw [hrest] at hsplit
      exact hsplit.symm
    · rw [splitReference, hrest]
  · have hends : c = questionMark ∨ c = numberSign := by
      simpa only [endsPath, Bool.not_eq_false', Bool.or_eq_true, decide_eq_true_eq] using hc
    rw [hrest] at hsplit
    rcases hends with rfl | rfl
    · obtain ⟨query, fragment, hquery, htext, htake, hdrop⟩ := fragment_cases rest
      refine ⟨_, some query, fragment, hpath, ?_, ?_, ?_⟩
      · intro text hmem
        cases hmem
        exact hquery
      · rw [htext] at hsplit
        exact hsplit.symm
      · rw [splitReference, hrest]
        cases fragment with
        | none => simp only [htake, hdrop]; rfl
        | some fragment => simp only [htake, hdrop]; rfl
    · refine ⟨_, none, some rest, hpath, nofun, ?_, ?_⟩
      · exact hsplit.symm
      · rw [splitReference, hrest]
        rfl

theorem splitAuthority_some (text : List UInt8) :
    splitAuthority (slash :: slash :: text) =
      (some (text.takeWhile (!endsAuthority ·)), text.dropWhile (!endsAuthority ·)) := rfl

theorem splitAuthority_none (h : ¬ [slash, slash] <+: text) :
    splitAuthority text = (none, text) := by
  rw [splitAuthority]
  rintro rest rfl
  exact h (List.prefix_append _ _)

/-- Every text is the text of a reference, whose parts are those that the text is split into. -/
theorem exists_relativeReference (text : List UInt8) :
    ∃ reference : RelativeReference, reference.text = text ∧
      splitAuthority text = (reference.authority, reference.afterAuthority) ∧
      splitReference reference.afterAuthority = reference.parts := by
  by_cases hslash : [slash, slash] <+: text
  · obtain ⟨rest, rfl⟩ := hslash
    obtain ⟨path, query, fragment, hpath, hquery, htext, hparts⟩ :=
      splitReference_cases (rest.dropWhile (!endsAuthority ·))
    have hauthority : ∀ text ∈ some (rest.takeWhile (!endsAuthority ·)),
        ∀ c ∈ text, endsAuthority c = false := by
      intro text htext c hmem
      cases htext
      have hc := List.mem_takeWhile_imp hmem
      simpa using hc
    have hstart : path = [] ∨ [slash] <+: path := by
      cases path with
      | nil => exact .inl rfl
      | cons c path =>
        right
        rcases dropWhile_start (!endsAuthority ·) rest with hrest | ⟨d, tail, hrest, hd⟩
        · rw [hrest] at htext
          exact absurd htext nofun
        · rw [hrest] at htext
          obtain ⟨rfl, -⟩ := List.cons.inj htext
          have hends := hpath d List.mem_cons_self
          have heq : d = slash := by
            simp only [endsPath, Bool.or_eq_false_iff, decide_eq_false_iff_not] at hends
            simp only [endsAuthority, Bool.not_eq_false', Bool.or_eq_true,
              decide_eq_true_eq] at hd
            tauto
          rw [heq]
          exact List.prefix_append [slash] path
    refine ⟨⟨some _, path, query, fragment, hauthority, hpath, hstart, hquery⟩, ?_, ?_, ?_⟩
    · have hsplit := List.takeWhile_append_dropWhile (p := (!endsAuthority ·)) (l := rest)
      rw [RelativeReference.text, ← htext]
      exact congrArg ([slash, slash] ++ ·) hsplit
    · rw [RelativeReference.afterAuthority, ← htext]
      rfl
    · rw [RelativeReference.afterAuthority, ← htext, hparts]
      rfl
  · obtain ⟨path, query, fragment, hpath, hquery, htext, hparts⟩ := splitReference_cases text
    have hstart : ¬ [slash, slash] <+: path := by
      intro hprefix
      apply hslash
      rw [htext]
      exact hprefix.trans (List.prefix_append _ _)
    refine ⟨⟨none, path, query, fragment, nofun, hpath, hstart, hquery⟩, htext.symm, ?_, ?_⟩
    · rw [RelativeReference.afterAuthority, ← htext]
      exact splitAuthority_none hslash
    · rw [RelativeReference.afterAuthority, ← htext, hparts]
      rfl

end splitting

section decoding
variable {Authority : Type} (environment : UrlEnvironment Authority)

/-- Decode a part if it is there. -/
def decodePart : Option (List UInt8) → Except ParseError (Option (List UInt8))
  | none => .ok none
  | some text => some <$> decodeComponent environment text

def decodeAuthority (scheme : UrlScheme) :
    Option (List UInt8) → Except ParseError (Option (List UInt8 × Authority))
  | none => .ok none
  | some text => (fun authority => some (text, authority)) <$> environment.parseAuthority scheme text

/-- The decoded parts of a reference that belongs to a scheme. -/
def RelativeReference.decoded (scheme : UrlScheme) (reference : RelativeReference) :
    Except ParseError (UrlComponents Authority) := do
  let authority ← decodeAuthority environment scheme reference.authority
  let path ← decodeComponent environment reference.path
  let query ← decodePart environment reference.query
  let fragment ← decodePart environment reference.fragment
  return { authority := authority, path := path, query := query, fragment := fragment }

variable {environment}

theorem decodePart_getD {part : Option (List UInt8)}
    (h : decodeComponent environment (part.getD []) = .ok text) :
    decodePart environment part = .ok (if part.isSome then some text else none) := by
  cases part with
  | none => rfl
  | some encoded =>
    rw [Option.getD_some] at h
    rw [decodePart, h]
    rfl

theorem decodeAuthority_parseAuthorityText
    (h : parseAuthorityText environment scheme path authorityText = .ok authority) :
    decodeAuthority environment scheme authorityText =
      .ok (if authorityText.isSome then some (authorityText.getD [], authority) else none) := by
  cases authorityText with
  | none => rfl
  | some text =>
    rw [parseAuthorityText] at h
    rw [decodeAuthority, h]
    rfl

theorem decoded_authority {reference : RelativeReference}
    (h : reference.decoded environment scheme = .ok components) :
    components.authority.isSome = reference.authority.isSome := by
  obtain ⟨authority, hauthority, h⟩ := bind_eq_ok h
  obtain ⟨path, -, h⟩ := bind_eq_ok h
  obtain ⟨query, -, h⟩ := bind_eq_ok h
  obtain ⟨fragment, -, h⟩ := bind_eq_ok h
  cases h
  cases hreference : reference.authority with
  | none =>
    rw [hreference] at hauthority
    cases hauthority
    rfl
  | some text =>
    rw [hreference, decodeAuthority] at hauthority
    cases hparse : environment.parseAuthority scheme text with
    | error e =>
      rw [hparse] at hauthority
      cases hauthority
    | ok parsed =>
      rw [hparse] at hauthority
      cases hauthority
      rfl

theorem parseComponents_eq_ok {reference : RelativeReference}
    (h : parseComponents environment schemeText reference.authority reference.parts = .ok result) :
    result.schemeText = schemeText ∧ result.scheme = schemeFromText schemeText ∧
      reference.decoded environment result.scheme = .ok result.components := by
  obtain ⟨path, hpath, h⟩ := bind_eq_ok h
  obtain ⟨query, hquery, h⟩ := bind_eq_ok h
  obtain ⟨fragment, hfragment, h⟩ := bind_eq_ok h
  obtain ⟨authority, hauthority, h⟩ := bind_eq_ok h
  cases h
  refine ⟨rfl, rfl, ?_⟩
  rw [RelativeReference.decoded, decodeAuthority_parseAuthorityText hauthority, ok_bind,
    show decodeComponent environment reference.path = .ok path from hpath, ok_bind,
    decodePart_getD hquery, ok_bind, decodePart_getD hfragment]
  rfl

/-- An accepted text is a scheme and a reference, and the URL has the decoded parts of it. -/
theorem parse_eq_ok (h : parse environment maximumLength text = .ok result) :
    ∃ reference : RelativeReference,
      parseScheme text = .ok (result.schemeText, reference.text) ∧
      (splitAuthority reference.text).1 = reference.authority ∧
      result.scheme = schemeFromText result.schemeText ∧
      reference.decoded environment result.scheme = .ok result.components := by
  rw [parse] at h
  split_ifs at h
  obtain ⟨⟨schemeText, rest⟩, hscheme, h⟩ := bind_eq_ok h
  obtain ⟨reference, rfl, hauthority, hparts⟩ := exists_relativeReference rest
  have hfirst := congrArg Prod.fst hauthority
  simp only [hauthority] at h
  split_ifs at h
  rw [hparts] at h
  obtain ⟨rfl, hfrom, hdecoded⟩ := parseComponents_eq_ok h
  exact ⟨reference, hscheme, hfirst, hfrom, hdecoded⟩

theorem parse_canonical (h : parse environment maximumLength text = .ok result) :
    result.Canonical := by
  obtain ⟨reference, hscheme, -, hfrom, -⟩ := parse_eq_ok h
  exact parseScheme_canonical hscheme hfrom

end decoding
end ErbslandCore.Network.Url
