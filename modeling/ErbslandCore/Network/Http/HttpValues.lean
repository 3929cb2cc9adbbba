import ErbslandCore.Text.StringCharReader

namespace ErbslandCore.Network
open Text
set_option autoImplicit true

/-- An HTTP token character. -/
def isHttpToken (c : Nat) : Bool :=
  isAsciiAlphanumeric c || c = 0x21 || c = 0x23 || c = 0x24 || c = 0x25 || c = 0x26 || c = 0x27 ||
    c = 0x2A || c = 0x2B || c = 0x2D || c = 0x2E || c = 0x5E || c = 0x5F || c = 0x60 || c = 0x7C ||
    c = 0x7E

/-- The characters of field values and reason phrases. -/
def isFieldCharacter (c : Nat) : Bool :=
  c = 0x09 || (0x20 ≤ c && c ≤ 0x7E) || (0x80 ≤ c && c ≤ 0x10FFFF) || c = replacement

namespace HttpGrammar

def isToken (value : List UInt8) : Bool := value ≠ [] && U8String.containsOnly isHttpToken value

def isFieldValue (value : List UInt8) : Bool :=
  if U8String.startsWith value 0x20 || U8String.startsWith value 0x09 ||
    U8String.endsWith value 0x20 || U8String.endsWith value 0x09 then false
  else U8String.containsOnly isFieldCharacter value

def isRequestTarget (value : List UInt8) : Bool :=
  value ≠ [] && U8String.containsOnly (fun c => 0x21 ≤ c && c ≤ 0x7E) value

def isReasonPhrase (value : List UInt8) : Bool := U8String.containsOnly isFieldCharacter value

/-- The comparison of tokens ignores the case of ASCII letters. -/
def equalTokenCI (left right : List UInt8) : Bool :=
  (Utf8.characters left).map toAsciiLowercase = (Utf8.characters right).map toAsciiLowercase

end HttpGrammar

inductive HttpVersion where
  | http10
  | http11
  deriving DecidableEq

def HttpVersion.toString : HttpVersion → List UInt8
  | http10 => U8String.ofLiteral "HTTP/1.0"
  | http11 => U8String.ofLiteral "HTTP/1.1"

inductive HttpMethodType where
  | none
  | connect
  | delete
  | get
  | head
  | options
  | patch
  | post
  | put
  | trace
  deriving DecidableEq

namespace HttpMethodType

def all : List HttpMethodType := [connect, delete, get, head, options, patch, post, put, trace]

def text : HttpMethodType → List UInt8
  | connect => U8String.ofLiteral "CONNECT"
  | delete => U8String.ofLiteral "DELETE"
  | get => U8String.ofLiteral "GET"
  | head => U8String.ofLiteral "HEAD"
  | options => U8String.ofLiteral "OPTIONS"
  | patch => U8String.ofLiteral "PATCH"
  | post => U8String.ofLiteral "POST"
  | put => U8String.ofLiteral "PUT"
  | trace => U8String.ofLiteral "TRACE"
  | none => []

/-- The standard method with a text. -/
def classify (text : List UInt8) : HttpMethodType :=
  (all.find? fun type => Text.compare text type.text = .eq).getD none

end HttpMethodType

/-- A method is a token, in its exact case. -/
structure HttpMethod where
  text : List UInt8
  isToken : HttpGrammar.isToken text = true
  deriving DecidableEq

def HttpMethod.type (method : HttpMethod) : HttpMethodType := HttpMethodType.classify method.text

def HttpMethod.fromString (text : List UInt8) : Option HttpMethod :=
  if h : HttpGrammar.isToken text = true then some ⟨text, h⟩ else none

/-- A status code of three digits. -/
structure HttpStatus where
  code : Nat
  lower : 100 ≤ code
  upper : code ≤ 599
  deriving DecidableEq

namespace HttpStatus

def isInformational (status : HttpStatus) : Bool := 100 ≤ status.code && status.code ≤ 199

def isSuccessful (status : HttpStatus) : Bool := 200 ≤ status.code && status.code ≤ 299

def switchingProtocols : Nat := 101

def noContent : Nat := 204

def notModified : Nat := 304

def fromCode (code : Nat) : Option HttpStatus :=
  if h : 100 ≤ code ∧ code ≤ 599 then some ⟨code, h.1, h.2⟩ else none

def fromString (text : List UInt8) : Option HttpStatus :=
  match U8String.toIntegerOrThrow { minimumDigits := 3, maximumDigits := some 3 }
    (Utf8.characters text) with
  | .error _ => none
  | .ok code => fromCode code

/-- A code has three decimal digits. -/
def toString (status : HttpStatus) : List UInt8 :=
  [status.code / 100, status.code / 10 % 10, status.code % 10].map fun d => UInt8.ofNat (0x30 + d)

end HttpStatus

inductive HttpFieldType where
  | unknown
  | accept
  | acceptCharset
  | acceptEncoding
  | acceptLanguage
  | acceptRanges
  | age
  | allow
  | authenticationInfo
  | authorization
  | cacheControl
  | connection
  | contentEncoding
  | contentLanguage
  | contentLength
  | contentLocation
  | contentRange
  | contentType
  | cookie
  | date
  | eTag
  | expect
  | expires
  | «from»
  | host
  | ifMatch
  | ifModifiedSince
  | ifNoneMatch
  | ifRange
  | ifUnmodifiedSince
  | lastModified
  | location
  | maxForwards
  | pragma
  | proxyAuthenticate
  | proxyAuthenticationInfo
  | proxyAuthorization
  | range
  | referer
  | retryAfter
  | server
  | setCookie
  | te
  | trailer
  | transferEncoding
  | upgrade
  | userAgent
  | vary
  | via
  | warning
  | wwwAuthenticate
  deriving DecidableEq

namespace HttpFieldType

/-- The recognized fields with their names, in their order. -/
def names : List (HttpFieldType × String) :=
  [(accept, "Accept"), (acceptCharset, "Accept-Charset"), (acceptEncoding, "Accept-Encoding"),
    (acceptLanguage, "Accept-Language"), (acceptRanges, "Accept-Ranges"), (age, "Age"),
    (allow, "Allow"), (authenticationInfo, "Authentication-Info"), (authorization, "Authorization"),
    (cacheControl, "Cache-Control"), (connection, "Connection"),
    (contentEncoding, "Content-Encoding"), (contentLanguage, "Content-Language"),
    (contentLength, "Content-Length"), (contentLocation, "Content-Location"),
    (contentRange, "Content-Range"), (contentType, "Content-Type"), (cookie, "Cookie"),
    (date, "Date"), (eTag, "ETag"), (expect, "Expect"), (expires, "Expires"), («from», "From"),
    (host, "Host"), (ifMatch, "If-Match"), (ifModifiedSince, "If-Modified-Since"),
    (ifNoneMatch, "If-None-Match"), (ifRange, "If-Range"),
    (ifUnmodifiedSince, "If-Unmodified-Since"), (lastModified, "Last-Modified"),
    (location, "Location"), (maxForwards, "Max-Forwards"), (pragma, "Pragma"),
    (proxyAuthenticate, "Proxy-Authenticate"),
    (proxyAuthenticationInfo, "Proxy-Authentication-Info"),
    (proxyAuthorization, "Proxy-Authorization"), (range, "Range"), (referer, "Referer"),
    (retryAfter, "Retry-After"), (server, "Server"), (setCookie, "Set-Cookie"), (te, "TE"),
    (trailer, "Trailer"), (transferEncoding, "Transfer-Encoding"), (upgrade, "Upgrade"),
    (userAgent, "User-Agent"), (vary, "Vary"), (via, "Via"), (warning, "Warning"),
    (wwwAuthenticate, "WWW-Authenticate")]

def isKnown (type : HttpFieldType) : Bool := type ≠ unknown

def fromString (name : List UInt8) : HttpFieldType :=
  ((names.find? fun candidate =>
    HttpGrammar.equalTokenCI (U8String.ofLiteral candidate.2) name).map Prod.fst).getD unknown

end HttpFieldType

/-- A field name is a token. -/
structure HttpFieldName where
  text : List UInt8
  isToken : HttpGrammar.isToken text = true
  deriving DecidableEq

def HttpFieldName.type (name : HttpFieldName) : HttpFieldType := HttpFieldType.fromString name.text

structure HttpField where
  name : HttpFieldName
  value : List UInt8
  isFieldValue : HttpGrammar.isFieldValue value = true
  deriving DecidableEq

/-- The lengths are raw values of 64 bits; the largest one stands for no limit. -/
structure HttpHeaderLimits where
  maximumFieldCount : UInt64 := 100
  maximumNameLength : UInt64 := 256
  maximumValueLength : UInt64 := 16 * 1024
  maximumAggregateLength : UInt64 := 64 * 1024
  deriving DecidableEq

/-- The length of a field line, with its delimiters. -/
def HttpField.wireLength (field : HttpField) : Nat :=
  field.name.text.length + field.value.length + 4

def serializedLength (fields : List HttpField) : Nat := (fields.map HttpField.wireLength).sum

namespace HttpHeaderLimits

/-- The fields are checked in turn, with the length of those before. -/
def validateFields (limits : HttpHeaderLimits) : Nat → List HttpField → Except String Unit
  | _, [] => .ok ()
  | aggregate, field :: fields =>
    if field.name.text.length > limits.maximumNameLength.toNat then
      .error "An HTTP field name exceeds the configured length limit."
    else if field.value.length > limits.maximumValueLength.toNat then
      .error "An HTTP field value exceeds the configured length limit."
    else if aggregate + field.wireLength > limits.maximumAggregateLength.toNat then
      .error "The HTTP header exceeds the configured aggregate length limit."
    else validateFields limits (aggregate + field.wireLength) fields

def validate (limits : HttpHeaderLimits) (fields : List HttpField) : Except String Unit :=
  if fields.length > limits.maximumFieldCount.toNat then
    .error "The HTTP header exceeds the configured field-count limit."
  else limits.validateFields 0 fields

/-- The lengths that a section of fields keeps. -/
structure Admits (limits : HttpHeaderLimits) (fields : List HttpField) : Prop where
  count : fields.length ≤ limits.maximumFieldCount.toNat
  names : ∀ field ∈ fields, field.name.text.length ≤ limits.maximumNameLength.toNat
  values : ∀ field ∈ fields, field.value.length ≤ limits.maximumValueLength.toNat
  aggregate : serializedLength fields ≤ limits.maximumAggregateLength.toNat

theorem validateFields_ok (limits : HttpHeaderLimits) (aggregate : Nat) (fields : List HttpField)
    (hcount : aggregate ≤ limits.maximumAggregateLength.toNat) :
    limits.validateFields aggregate fields = .ok () ↔
      (∀ field ∈ fields, field.name.text.length ≤ limits.maximumNameLength.toNat) ∧
      (∀ field ∈ fields, field.value.length ≤ limits.maximumValueLength.toNat) ∧
      aggregate + serializedLength fields ≤ limits.maximumAggregateLength.toNat := by
  induction fields generalizing aggregate with
  | nil => simpa [validateFields, serializedLength] using hcount
  | cons field fields ih =>
    rw [validateFields, serializedLength, List.map_cons, List.sum_cons]
    split_ifs with h₁ h₂ h₃
    · simp [h₁]
    · simp [h₂]
    · refine ⟨fun hc => (by cases hc), fun ⟨_, _, ha⟩ => ?_⟩
      omega
    · rw [ih _ (by omega), List.forall_mem_cons, List.forall_mem_cons, serializedLength, Nat.add_assoc]
      exact ⟨fun ⟨hn, hv, ha⟩ => ⟨⟨by omega, hn⟩, ⟨by omega, hv⟩, ha⟩,
        fun ⟨⟨_, hn⟩, ⟨_, hv⟩, ha⟩ => ⟨hn, hv, ha⟩⟩

theorem validate_ok (limits : HttpHeaderLimits) (fields : List HttpField) :
    limits.validate fields = .ok () ↔ limits.Admits fields := by
  rw [validate]
  split
  case isTrue h =>
    refine ⟨fun hc => (by cases hc), fun ha => ?_⟩
    have := ha.count
    omega
  case isFalse h =>
    rw [validateFields_ok limits 0 fields (Nat.zero_le _), Nat.zero_add]
    exact ⟨fun ⟨hn, hv, ha⟩ => ⟨not_lt.mp h, hn, hv, ha⟩,
      fun ha => ⟨ha.names, ha.values, ha.aggregate⟩⟩

end HttpHeaderLimits

/-- The order and the spelling of the fields are kept. -/
structure HttpHeaders where
  fields : List HttpField := []
  limits : HttpHeaderLimits := {}
  isValid : limits.validate fields = .ok ()
  deriving DecidableEq

structure HttpRequestHead where
  method : HttpMethod
  target : List UInt8
  version : HttpVersion
  headers : HttpHeaders
  isRequestTarget : HttpGrammar.isRequestTarget target = true
  deriving DecidableEq

structure HttpResponseHead where
  version : HttpVersion
  status : HttpStatus
  reasonPhrase : List UInt8
  headers : HttpHeaders
  isReasonPhrase : HttpGrammar.isReasonPhrase reasonPhrase = true
  deriving DecidableEq

end ErbslandCore.Network
