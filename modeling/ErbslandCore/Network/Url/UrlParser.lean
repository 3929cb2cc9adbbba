import ErbslandCore.Text.StringCharReader
import ErbslandCore.Text.StringEncodingTools

namespace ErbslandCore.Network.Url
open Text
set_option autoImplicit true

/-- The message of a failed parser. -/
structure ParseError where
  message : String
  deriving DecidableEq

inductive UrlScheme where
  | invalid
  | http
  | https
  | ftp
  | ftps
  | file
  | mailto
  | custom
  deriving DecidableEq

/-- What the parser uses and does not define: the normalization of texts, and the user info, the
host and the port of an authority. -/
structure UrlEnvironment (Authority : Type) where
  normalized : List UInt8 → List UInt8
  noAuthority : Authority
  parseAuthority : UrlScheme → List UInt8 → Except ParseError Authority

/-- The parts of a URL; texts are stored as UTF-8. -/
structure UrlData (Authority : Type) where
  scheme : UrlScheme := .invalid
  schemeText : List UInt8 := []
  authorityText : List UInt8 := []
  authority : Authority
  path : List UInt8 := []
  query : List UInt8 := []
  fragment : List UInt8 := []
  hasAuthority : Bool := false
  hasQuery : Bool := false
  hasFragment : Bool := false

abbrev slash : UInt8 := 0x2F

abbrev questionMark : UInt8 := 0x3F

abbrev numberSign : UInt8 := 0x23

abbrev colon : UInt8 := 0x3A

abbrev percentSign : UInt8 := 0x25

/-- A character of the ASCII category for schemes. -/
def isUrlSchemeCharacter (c : UInt8) : Bool :=
  isAsciiAlphanumeric c.toNat || c = 0x2B || c = 0x2D || c = 0x2E

def lowercase (c : UInt8) : UInt8 := UInt8.ofNat (toAsciiLowercase c.toNat)

namespace UrlParser

def schemeFromText (text : List UInt8) : UrlScheme :=
  if text = U8String.ofLiteral "http" then .http
  else if text = U8String.ofLiteral "https" then .https
  else if text = U8String.ofLiteral "ftp" then .ftp
  else if text = U8String.ofLiteral "ftps" then .ftps
  else if text = U8String.ofLiteral "file" then .file
  else if text = U8String.ofLiteral "mailto" then .mailto
  else .custom

/-- The bytes of consecutive escapes must be a text of their own. -/
def decodeRun (encoded : List UInt8) : Except ParseError (List UInt8) :=
  if encoded = [] then .ok []
  else
    match StringEncodingTools.decode encoded .utf8 .reject .strict with
    | .ok text => .ok text
    | .error _ => .error ⟨"A percent-encoded URL component is not valid UTF-8."⟩

/-- Decode the escapes of a text, after the bytes of the escapes directly before it. -/
def decodeEscapes (encoded : List UInt8) : List UInt8 → Except ParseError (List UInt8)
  | [] => decodeRun encoded
  | c :: text =>
    if c ≠ percentSign then do
      let front ← decodeRun encoded
      let back ← decodeEscapes [] text
      return front ++ c :: back
    else
      match text with
      | high :: low :: text =>
        match digitValue 16 high.toNat, digitValue 16 low.toNat with
        | some high, some low => decodeEscapes (encoded ++ [UInt8.ofNat (high <<< 4 ||| low)]) text
        | _, _ => .error ⟨"A URL percent escape requires two hexadecimal digits."⟩
      | _ => .error ⟨"A URL percent escape requires two hexadecimal digits."⟩

theorem decodeEscapes_plain (h : percentSign ∉ text) : decodeEscapes [] text = .ok text := by
  induction text with
  | nil => rfl
  | cons c text ih =>
    have hc : c ≠ percentSign := fun heq => h (heq ▸ List.mem_cons_self)
    have hrest := ih fun hmem => h (List.mem_cons_of_mem _ hmem)
    unfold decodeEscapes
    rw [if_pos hc, hrest]
    rfl

section parsing
variable {Authority : Type} (environment : UrlEnvironment Authority)

def decodeComponent (text : List UInt8) : Except ParseError (List UInt8) :=
  environment.normalized <$> decodeEscapes [] text

/-- A text without escapes only has to be normalized. -/
theorem decodeComponent_plain (h : percentSign ∉ text) :
    decodeComponent environment text = .ok (environment.normalized text) := by
  rw [decodeComponent, decodeEscapes_plain h]
  rfl

/-- The rest of a scheme, and the text after its colon. -/
def parseSchemeTail : List UInt8 → Except ParseError (List UInt8 × List UInt8)
  | [] => .error ⟨"The URL scheme contains an invalid character."⟩
  | c :: text =>
    if c = colon then .ok ([], text)
    else if !isUrlSchemeCharacter c then
      .error ⟨"The URL scheme contains an invalid character."⟩
    else do
      let (scheme, text) ← parseSchemeTail text
      return (lowercase c :: scheme, text)

def parseScheme : List UInt8 → Except ParseError (List UInt8 × List UInt8)
  | [] => .error ⟨"A URL scheme must start with an ASCII letter."⟩
  | first :: text =>
    if !isAsciiLetter first.toNat then
      .error ⟨"A URL scheme must start with an ASCII letter."⟩
    else do
      let (scheme, text) ← parseSchemeTail text
      return (lowercase first :: scheme, text)

def endsAuthority (c : UInt8) : Bool := c = slash || c = questionMark || c = numberSign

/-- The authority after two slashes, if there is one, and the text after it. -/
def splitAuthority : List UInt8 → Option (List UInt8) × List UInt8
  | 0x2F :: 0x2F :: text =>
    (some (text.takeWhile (!endsAuthority ·)), text.dropWhile (!endsAuthority ·))
  | text => (none, text)

/-- A path, and what follows a question mark and a number sign. -/
structure Reference where
  path : List UInt8
  query : List UInt8 := []
  fragment : List UInt8 := []
  hasQuery : Bool := false
  hasFragment : Bool := false

def endsPath (c : UInt8) : Bool := c = questionMark || c = numberSign

/-- Split a text at the first question mark before a number sign and at the first number sign. -/
def splitReference (text : List UInt8) : Reference :=
  let path := text.takeWhile (!endsPath ·)
  let (query, text) :=
    match text.dropWhile (!endsPath ·) with
    | 0x3F :: text => (some (text.takeWhile (· ≠ numberSign)), text.dropWhile (· ≠ numberSign))
    | text => (none, text)
  let fragment :=
    match text with
    | 0x23 :: text => some text
    | _ => none
  { path := path
    query := query.getD []
    fragment := fragment.getD []
    hasQuery := query.isSome
    hasFragment := fragment.isSome }

def requiresAuthority (scheme : UrlScheme) : Bool :=
  scheme = .http || scheme = .https || scheme = .ftp || scheme = .ftps

/-- The parts of an authority, or the check of a path that has none. -/
def parseAuthorityText (scheme : UrlScheme) (path : List UInt8) :
    Option (List UInt8) → Except ParseError Authority
  | some text => environment.parseAuthority scheme text
  | none =>
    if scheme = .mailto ∧ slash ∈ path then
      .error ⟨"A mailto URL path must not contain a slash."⟩
    else .ok environment.noAuthority

def parseComponents (schemeText : List UInt8) (authorityText : Option (List UInt8))
    (reference : Reference) : Except ParseError (UrlData Authority) := do
  let path ← decodeComponent environment reference.path
  let query ← decodeComponent environment reference.query
  let fragment ← decodeComponent environment reference.fragment
  let authority ← parseAuthorityText environment (schemeFromText schemeText) path authorityText
  return {
    scheme := schemeFromText schemeText
    schemeText := schemeText
    authorityText := authorityText.getD []
    authority := authority
    path := path
    query := query
    fragment := fragment
    hasAuthority := authorityText.isSome
    hasQuery := reference.hasQuery
    hasFragment := reference.hasFragment }

def parse (maximumLength : Nat) (text : List UInt8) : Except ParseError (UrlData Authority) :=
  if text.length > maximumLength then .error ⟨"The URL exceeds the configured length limit."⟩
  else if !Utf8.isValid text then .error ⟨"The URL is not valid UTF-8."⟩
  else do
    let (schemeText, text) ← parseScheme text
    let (authorityText, text) := splitAuthority text
    if authorityText.isSome && schemeFromText schemeText = .mailto then
      .error ⟨"A mailto URL must not contain a slash."⟩
    else if requiresAuthority (schemeFromText schemeText) && authorityText.isNone then
      .error ⟨"This URL scheme requires a double-slash authority."⟩
    else parseComponents environment schemeText authorityText (splitReference text)

end parsing
end UrlParser
end ErbslandCore.Network.Url
