import ErbslandCore.Path.PathData

namespace ErbslandCore.Path
open Text
set_option autoImplicit true

inductive PathParseMode where
  | generic
  | posix
  | windows
  | native
  deriving DecidableEq

inductive SeparatorMode where
  | slashOnly
  | slashAndBackslash
  deriving DecidableEq

structure ParseError where
  reason : String
  position : Nat
  deriving DecidableEq

/-- The characters that were not read yet; malformed data gives replacement characters. -/
structure Reader where
  unread : List Nat
  position : Nat := 0
  deriving DecidableEq

def isPathSeparator (mode : SeparatorMode) (c : Nat) : Bool :=
  c = slash || (mode = .slashAndBackslash && c = backslash)

def normalizedSeparator (c : Nat) : Nat := if c = backslash then slash else c

/-- The mode of the platform where none is given. -/
def nativeMode (isWindows : Bool) : PathParseMode → PathParseMode
  | .native => if isWindows then .windows else .posix
  | mode => mode

namespace Reader

def throwParseError (r : Reader) (reason : String) : Except ParseError α :=
  .error ⟨reason, r.position⟩

def isAtEnd (r : Reader) : Bool := r.unread.isEmpty

/-- Read and check the next character, if there is one. -/
def readCharacter (r : Reader) : Except ParseError (Option Nat × Reader) :=
  match r.unread with
  | [] => .ok (none, r)
  | c :: unread =>
    let next : Reader := ⟨unread, r.position + 1⟩
    if next.position > maximumPathCharacters then
      next.throwParseError "Path exceeds the maximum character count"
    else if c = 0 then next.throwParseError "Path contains a null character"
    else if c = 0xFFFD then next.throwParseError "Path contains invalid encoded text"
    else .ok (some c, next)

/-- Read a literal; both separators count as slashes. -/
def readNormalizedLiteral : List Nat → Reader → Except ParseError (Bool × Reader)
  | [], r => .ok (true, r)
  | expected :: literal, r => do
    let (character, r) ← r.readCharacter
    if character.map normalizedSeparator = some expected then readNormalizedLiteral literal r
    else return (false, r)

def startsWithNormalized (r : Reader) (literal : List Nat) : Except ParseError Bool := do
  let (result, _) ← readNormalizedLiteral literal r
  return result

def equalsNormalized (r : Reader) (text : List Nat) : Except ParseError Bool := do
  let (result, r) ← readNormalizedLiteral text r
  return result && r.isAtEnd

/-- Either of two probes; the second one is made only where the first one fails. -/
def equalsOrStartsWith (r : Reader) (text literal : List Nat) : Except ParseError Bool := do
  let equals ← r.equalsNormalized text
  if equals then return true else r.startsWithNormalized literal

def startsWithWindowsDriveRoot (r : Reader) : Except ParseError Bool := do
  let (drive, r) ← r.readCharacter
  if drive.any isAsciiLetter then do
    let (colon, r) ← r.readCharacter
    if colon = some 0x3A then do
      let (separator, _) ← r.readCharacter
      return separator.any (isPathSeparator .slashAndBackslash)
    else return false
  else return false

/-- A separator at the begin, if there is one. -/
def parseRootSeparator (r : Reader) (mode : SeparatorMode) : Except ParseError (Option Reader) := do
  let (character, r) ← r.readCharacter
  return if character.any (isPathSeparator mode) then some r else none

def parseDriveRoot (r : Reader) : Except ParseError (Option (List Nat × Reader)) := do
  let (drive, r) ← r.readCharacter
  if drive.any isAsciiLetter then do
    let (colon, r) ← r.readCharacter
    if colon = some 0x3A then do
      let (separator, r) ← r.readCharacter
      if separator.any (isPathSeparator .slashAndBackslash) then
        return some (toAsciiLowercase (drive.getD 0) :: driveRootSuffix, r)
      else r.throwParseError "Windows drive roots must use a separator after the colon"
    else return none
  else return none

/-- Read the characters before the next separator. -/
def readRootSegment (mode : SeparatorMode) (lowercase : Bool) :
    List Nat → Nat → Except ParseError (List Nat × Reader)
  | [], position => .ok ([], ⟨[], position⟩)
  | c :: unread, position =>
    if isPathSeparator mode c then .ok ([], ⟨c :: unread, position⟩)
    else do
      let _ ← readCharacter ⟨c :: unread, position⟩
      let (builder, r) ← readRootSegment mode lowercase unread (position + 1)
      return ((if lowercase then toAsciiLowercase c else c) :: builder, r)

def consumeSeparator (r : Reader) (mode : SeparatorMode) : Except ParseError (Bool × Reader) := do
  let (character, r) ← r.readCharacter
  return (character.any (isPathSeparator mode), r)

def parseUncServerAndShare (r : Reader) : Except ParseError (List Nat × Reader) := do
  let (server, r) ← readRootSegment .slashAndBackslash true r.unread r.position
  if server = [] then r.throwParseError "UNC paths require a server name"
  else do
    let (hasSeparator, r) ← r.consumeSeparator .slashAndBackslash
    if !hasSeparator then r.throwParseError "UNC paths require a share name"
    else do
      let (share, r) ← readRootSegment .slashAndBackslash false r.unread r.position
      if share = [] then r.throwParseError "UNC paths require a share name"
      else do
        let (_, r) ← r.consumeSeparator .slashAndBackslash
        return (doubleSlash ++ server ++ [slash] ++ share ++ [slash], r)

def parseUncRoot (r : Reader) : Except ParseError (List Nat × Reader) := do
  let (hasPrefix, r) ← readNormalizedLiteral doubleSlash r
  if !hasPrefix then r.throwParseError "Invalid UNC path prefix"
  else r.parseUncServerAndShare

def parseExtendedWindowsRoot (r : Reader) : Except ParseError (List Nat × Reader) := do
  let (hasPrefix, r) ← readNormalizedLiteral windowsExtendedPathPrefix r
  if !hasPrefix then r.throwParseError "Invalid Windows extended path prefix"
  else do
    let isUnc ← r.startsWithNormalized uncPrefix
    if isUnc then do
      let (hasUncPrefix, r) ← readNormalizedLiteral uncPrefix r
      if !hasUncPrefix then r.throwParseError "Invalid Windows extended UNC path prefix"
      else r.parseUncServerAndShare
    else do
      match ← r.parseDriveRoot with
      | some root => return root
      | none => r.throwParseError "Unsupported Windows extended path"

/-- The root of a Windows path, if there is one. -/
def parseWindowsRoot (r : Reader) : Except ParseError (Option (List Nat × Reader)) := do
  let isDevice ← r.equalsOrStartsWith windowsDevicePathRoot windowsDevicePathPrefix
  if isDevice then r.throwParseError "Windows device paths are not supported"
  else do
    let isNt ← r.equalsOrStartsWith windowsNtPathRoot windowsNtPathPrefix
    if isNt then r.throwParseError "Windows NT paths are not supported"
    else do
      let isExtended ← r.startsWithNormalized windowsExtendedPathPrefix
      if isExtended then some <$> r.parseExtendedWindowsRoot
      else do
        let isUnc ← r.startsWithNormalized doubleSlash
        if isUnc then some <$> r.parseUncRoot else r.parseDriveRoot

/-- Add a captured element, unless it is empty. -/
def appendCapturedElement (root : List Nat) (position : Nat) (captured : List Nat)
    (elements : List (List Nat)) : Except ParseError (List (List Nat)) :=
  if captured = [] then .ok elements
  else if PathData.publicItemCount root elements ≥ maximumPathElements then
    .error ⟨"Path exceeds the maximum element count", position⟩
  else .ok (elements ++ [captured])

/-- Read the elements behind a root. -/
def parseElements (mode : SeparatorMode) (root : List Nat) :
    List Nat → Nat → List Nat → List (List Nat) → Except ParseError (List (List Nat))
  | [], position, captured, elements => appendCapturedElement root position captured elements
  | c :: unread, position, captured, elements =>
    if isPathSeparator mode c then do
      let elements ← appendCapturedElement root position captured elements
      let _ ← readCharacter ⟨c :: unread, position⟩
      parseElements mode root unread (position + 1) [] elements
    else do
      let _ ← readCharacter ⟨c :: unread, position⟩
      parseElements mode root unread (position + 1) (captured ++ [c]) elements

/-- The elements behind a root, and the whole path. -/
def finish (r : Reader) (mode : SeparatorMode) (format : PathFormat) (root : List Nat) :
    Except ParseError PathData := do
  let elements ← parseElements mode root r.unread r.position [] []
  match PathData.create format root elements with
  | some data => return data
  | none => .error ⟨"Path has no elements", r.position + r.unread.length⟩

def parsePosixPath (r : Reader) : Except ParseError PathData := do
  match ← r.parseRootSeparator .slashOnly with
  | some r => r.finish .slashOnly .posix [slash]
  | none => r.finish .slashOnly .posix []

def parseWindowsPath (r : Reader) : Except ParseError PathData := do
  match ← r.parseWindowsRoot with
  | some (root, r) => r.finish .slashAndBackslash .windows root
  | none =>
    match ← r.parseRootSeparator .slashAndBackslash with
    | some r => r.finish .slashAndBackslash .posix [slash]
    | none => r.finish .slashAndBackslash .windows []

def parseGenericPath (r : Reader) : Except ParseError PathData := do
  let isNt ← r.equalsOrStartsWith windowsNtPathRoot windowsNtPathPrefix
  if isNt then r.throwParseError "Windows NT paths are not supported"
  else do
    let isUnc ← r.startsWithNormalized doubleSlash
    let isWindows ← if isUnc then pure true else r.startsWithWindowsDriveRoot
    if isWindows then do
      match ← r.parseWindowsRoot with
      | some (root, r) => r.finish .slashAndBackslash .windows root
      | none => r.throwParseError "Invalid Windows root"
    else do
      match ← r.parseRootSeparator .slashOnly with
      | some r => r.finish .slashOnly .posix [slash]
      | none => r.finish .slashAndBackslash .generic []

end Reader

/-- Parse the characters of a path in a mode, on a platform. -/
def PathParser.parse (isWindows : Bool) (mode : PathParseMode) (path : List Nat) :
    Except ParseError PathData :=
  let r : Reader := { unread := path }
  if r.isAtEnd then r.throwParseError "Path text is empty"
  else match nativeMode isWindows mode with
    | .posix => r.parsePosixPath
    | .windows => r.parseWindowsPath
    | .generic => r.parseGenericPath
    | .native => r.throwParseError "Invalid path parse mode"

end ErbslandCore.Path
