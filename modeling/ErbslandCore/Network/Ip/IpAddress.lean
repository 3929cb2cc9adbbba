import ErbslandCore.Text.IntegerConversion

namespace ErbslandCore.Network.Ip
open Math Text.IntegerConversion
set_option autoImplicit true

inductive IpVersion where
  | v4
  | v6
  deriving DecidableEq

/-- An address in network byte order; an IPv4 address only uses the first four bytes. -/
structure IpAddress where
  version : IpVersion
  bytes : List UInt8
  length_bytes : bytes.length = 16
  unused : version = .v4 → bytes.drop 4 = List.replicate 12 0
  deriving DecidableEq

/-- The check that all texts of hosts and addresses have to pass. -/
def testCommonHostText (text : List UInt8) (parsedObject : String) : Except String Unit :=
  if text = [] then .error ("The " ++ parsedObject ++ " must not be empty.")
  else if 1024 < text.length then
    .error ("The " ++ parsedObject ++ " exceeds the maximum length of 1024 bytes.")
  else .ok ()

namespace IpAddress

def uint8 : NativeInteger := { isSigned := false, size := 1 }

def uint16 : NativeInteger := { isSigned := false, size := 2 }

/-- The text of a number, `String::fromInteger`. -/
def fromInteger (T : NativeInteger) (value : Nat) (format : IntegerFormat) : List Nat :=
  match appendInteger (Value.staticCast T value) format with
  | .ok text => text
  | .error _ => []

/-- The bytes of a text of ASCII characters. -/
def toText (characters : List Nat) : List UInt8 := characters.map UInt8.ofNat

def formatV4From : List UInt8 → List Nat
  | [] => []
  | [byte] => fromInteger uint8 byte.toNat {}
  | byte :: bytes => fromInteger uint8 byte.toNat {} ++ 0x2E :: formatV4From bytes

/-- The dotted form of four bytes from an offset. -/
def formatV4 (bytes : List UInt8) (offset : Nat) : List Nat :=
  formatV4From ((bytes.drop offset).take 4)

def isV4Mapped (bytes : List UInt8) : Bool :=
  (bytes.take 10).all (· == 0) && bytes[10]? == some 0xFF && bytes[11]? == some 0xFF

/-- The words of bytes, the high byte first. -/
def toWords : List UInt8 → List Nat
  | high :: low :: bytes => (high.toNat <<< 8 ||| low.toNat) :: toWords bytes
  | _ => []

/-- The start and the length of a run of words. -/
structure Run where
  start : Nat
  length : Nat
  deriving DecidableEq

/-- The search for the first of the longest runs of zero words, in the words from a position on. -/
def bestRun : Nat → Nat → Run → List Nat → Run
  | 0, _, best, _ => best
  | _ + 1, _, best, [] => best
  | fuel + 1, start, best, word :: words =>
    if word ≠ 0 then bestRun fuel (start + 1) best words
    else
      let zeros := (word :: words).takeWhile (· == 0)
      let best := if zeros.length > best.length ∧ zeros.length ≥ 2 then ⟨start, zeros.length⟩ else best
      bestRun fuel (start + zeros.length) best ((word :: words).drop zeros.length)

/-- The text of the words from an index on, with the best run compressed. -/
def formatWords (words : List Nat) (best : Run) : Nat → Nat → List Nat
  | 0, _ => []
  | fuel + 1, index =>
    if h : index < words.length then
      if index = best.start then
        0x3A :: 0x3A :: formatWords words best fuel (index + best.length)
      else
        (if 0 < index ∧ index ≠ best.start + best.length then [0x3A] else []) ++
          fromInteger uint16 words[index] { base := .hexadecimal } ++
          formatWords words best fuel (index + 1)
    else []

def formatV6 (bytes : List UInt8) : List Nat :=
  if isV4Mapped bytes then
    -- `::ffff:`
    [0x3A, 0x3A, 0x66, 0x66, 0x66, 0x66, 0x3A] ++ formatV4 bytes 12
  else
    let words := toWords bytes
    formatWords words (bestRun words.length 0 ⟨words.length, 0⟩ words) (words.length + 1) 0

def toString (address : IpAddress) : List UInt8 :=
  match address.version with
  | .v4 => toText (formatV4 address.bytes 0)
  | .v6 => toText (formatV6 address.bytes)

def v4Options : IntegerParseOptions :=
  { fixedBase := some .decimal, minimumDigits := 1, maximumDigits := some 3 }

/-- The bytes of a dotted address, with some left after the next one. -/
def parseV4From : Nat → StringCharReader → Option (List Nat)
  | left, reader =>
    let (value, behind) := reader.scanInteger v4Options
    if value.status ≠ .success ∨ 255 < value.value ∨
        1 < value.digitCount ∧ reader.current = some 0x30 then none
    else match left with
      | 0 => if behind.remaining = [] then some [value.value] else none
      | left + 1 =>
        if behind.current = some 0x2E then
          (value.value :: ·) <$> parseV4From left behind.advance
        else none

def parseV4 (reader : StringCharReader) : Option (List Nat) := parseV4From 3 reader

def v6Options : IntegerParseOptions :=
  { fixedBase := some .hexadecimal, minimumDigits := 1, maximumDigits := some 4 }

/-- Two words of the four bytes of a dotted address. -/
def v4Words : List Nat → List Nat
  | [first, second, third, fourth] => [first <<< 8 ||| second, third <<< 8 ||| fourth]
  | _ => []

/-- The loop over the groups: the words, and the place of the compression among them. -/
def parseGroups : Nat → List Nat → Option Nat → StringCharReader → Option (List Nat × Option Nat)
  | 0, _, _, _ => none
  | fuel + 1, words, compressionIndex, reader =>
    if reader.remaining = [] then some (words, compressionIndex)
    else if 8 ≤ words.length then none
    else
      let (word, behind) := reader.scanInteger v6Options
      if word.status ≠ .success then none
      else if behind.current = some 0x2E then
        if 6 < words.length then none
        else (fun bytes => (words ++ v4Words bytes, compressionIndex)) <$> parseV4 reader
      else if behind.remaining = [] then some (words ++ [word.value], compressionIndex)
      else if behind.current = some 0x3A then
        if behind.advance.current = some 0x3A then
          if compressionIndex.isSome then none
          else parseGroups fuel (words ++ [word.value]) (some (words.length + 1))
            behind.advance.advance
        else parseGroups fuel (words ++ [word.value]) compressionIndex behind.advance
      else none

/-- The eight words, with zeros at the place of the compression. -/
def expandWords (words : List Nat) (compressionIndex : Option Nat) : Option (List Nat) :=
  match compressionIndex with
  | none => if words.length = 8 then some words else none
  | some index =>
    if 8 ≤ words.length then none
    else
      let compressedWordCount := 8 - words.length
      some ((List.range 8).map fun destination =>
        if destination < index then words[destination]?.getD 0
        else if index + compressedWordCount ≤ destination then
          words[destination - compressedWordCount]?.getD 0
        else 0)

/-- The groups, after a compression at the start. -/
def readGroups (reader : StringCharReader) : Option (List Nat × Option Nat) :=
  let fuel := reader.remaining.length + 1
  if reader.current = some 0x3A then
    if reader.advance.current = some 0x3A then
      parseGroups fuel [] (some 0) reader.advance.advance
    else none
  else parseGroups fuel [] none reader

def parseV6 (reader : StringCharReader) : Option (List Nat) :=
  (readGroups reader).bind fun groups => expandWords groups.1 groups.2

/-- The bytes of words, the high byte first. -/
def wordBytes (words : List Nat) : List UInt8 :=
  words.flatMap fun word => [UInt8.ofNat (word >>> 8), UInt8.ofNat word]

/-- Storage of sixteen bytes that starts with the given ones. -/
def storage (bytes : List UInt8) : List UInt8 := (bytes ++ List.replicate 16 0).take 16

theorem length_storage (bytes : List UInt8) : (storage bytes).length = 16 := by
  rw [storage, List.length_take, List.length_append, List.length_replicate]
  omega

/-- The address of up to four bytes. -/
def ofV4Bytes (bytes : List UInt8) : IpAddress where
  version := .v4
  bytes := storage (bytes.take 4 ++ List.replicate (4 - bytes.length) 0)
  length_bytes := length_storage _
  unused _ := by
    have hlength : (bytes.take 4 ++ List.replicate (4 - bytes.length) (0 : UInt8)).length = 4 := by
      rw [List.length_append, List.length_take, List.length_replicate]
      omega
    rw [storage, List.drop_take, List.drop_append_of_le_length (by rw [hlength]),
      List.drop_eq_nil_of_le (by rw [hlength]), List.nil_append, List.take_replicate]
    rfl

def ofV6Bytes (bytes : List UInt8) : IpAddress where
  version := .v6
  bytes := storage bytes
  length_bytes := length_storage bytes
  unused h := nomatch h

def fromStringOrThrow (text : List UInt8) : Except String IpAddress := do
  testCommonHostText text "IP-address"
  let reader : StringCharReader := { remaining := Text.Utf8.characters text }
  match parseV4 reader with
  | some bytes => .ok (ofV4Bytes (bytes.map UInt8.ofNat))
  | none => match parseV6 reader with
    | some words => .ok (ofV6Bytes (wordBytes words))
    | none =>
      if text.contains 0x3A then .error "The IPv6 address syntax is invalid."
      else .error "The IPv4 address syntax is invalid."

def fromString (text : List UInt8) : Option IpAddress := (fromStringOrThrow text).toOption

end IpAddress

end ErbslandCore.Network.Ip
