import ErbslandCore.Text.U8String

namespace ErbslandCore.Path
open Text
set_option autoImplicit true

inductive PathFormat where
  | generic
  | posix
  | windows
  deriving DecidableEq

inductive PathWindowsFormat where
  | native
  | extended
  deriving DecidableEq

def maximumPathCharacters : Nat := 8192
def maximumPathElements : Nat := 1000

def slash : Nat := 0x2F
def backslash : Nat := 0x5C

/-- The text `//`. -/
def doubleSlash : List Nat := [0x2F, 0x2F]

/-- The text `:/`. -/
def driveRootSuffix : List Nat := [0x3A, 0x2F]

/-- The text `//.`, alone and before more text. -/
def windowsDevicePathRoot : List Nat := [0x2F, 0x2F, 0x2E]
def windowsDevicePathPrefix : List Nat := [0x2F, 0x2F, 0x2E, 0x2F]

/-- The text `//?/`. -/
def windowsExtendedPathPrefix : List Nat := [0x2F, 0x2F, 0x3F, 0x2F]

/-- The text `UNC/`. -/
def uncPrefix : List Nat := [0x55, 0x4E, 0x43, 0x2F]

/-- The same with the separators of Windows, before a drive and before a server. -/
def windowsExtendedNativePathPrefix : List Nat := [0x5C, 0x5C, 0x3F, 0x5C]
def windowsExtendedNativeUncPathPrefix : List Nat := [0x5C, 0x5C, 0x3F, 0x5C, 0x55, 0x4E, 0x43]

/-- The text `/??`, alone and before more text. -/
def windowsNtPathRoot : List Nat := [0x2F, 0x3F, 0x3F]
def windowsNtPathPrefix : List Nat := [0x2F, 0x3F, 0x3F, 0x2F]

/-- Null and the replacement character are in no path. -/
def invalidPathCharacters (c : Nat) : Bool := c = 0 || c = 0xFFFD

/-- A path: its root, if there is one, and the elements behind it. -/
structure PathData where
  format : PathFormat
  root : List Nat
  elements : List (List Nat)
  characterLength : Nat
  deriving DecidableEq

namespace PathData

/-- The elements, with a separator between them and, where it is needed, before them. -/
def appendElements (separator : Nat) : Bool → List Nat → List (List Nat) → List Nat
  | _, result, [] => result
  | needsSeparator, result, element :: elements =>
    let result := if needsSeparator then result ++ [separator] else result
    appendElements separator true (result ++ element) elements

def isAbsolute (data : PathData) : Bool := !data.root.isEmpty

def toString (data : PathData) : List Nat :=
  let needsSeparator := !data.root.isEmpty && data.root.getLast? ≠ some slash
  appendElements slash needsSeparator data.root data.elements

/-- The root with the separators of Windows. -/
def rootWithWindowsSeparators (root : List Nat) (skipFirstCharacter : Bool) : List Nat :=
  (if skipFirstCharacter then root.tail else root).map fun c =>
    if c = slash then backslash else c

def windowsRoot (root : List Nat) (format : PathWindowsFormat) : List Nat :=
  if root = [] ∨ root = [slash] then []
  else if doubleSlash.isPrefixOf root then
    match format with
    | .extended => windowsExtendedNativeUncPathPrefix ++ rootWithWindowsSeparators root true
    | .native => rootWithWindowsSeparators root false
  else
    let start := match format with
      | .extended => windowsExtendedNativePathPrefix
      | .native => []
    start ++ root.take 2 ++ [backslash]

def toWindows (data : PathData) (format : PathWindowsFormat) : List Nat :=
  if data.format = .posix ∧ data.isAbsolute then []
  else appendElements backslash false (windowsRoot data.root format) data.elements

/-- The number of characters of a path with its separators. -/
def totalLength (root : List Nat) (elements : List (List Nat)) : Nat :=
  root.length + (elements.map List.length).sum + (elements.length - 1)

def publicItemCount (root : List Nat) (elements : List (List Nat)) : Nat :=
  elements.length + if root.isEmpty then 0 else 1

def create (format : PathFormat) (root : List Nat) (elements : List (List Nat)) :
    Option PathData :=
  if publicItemCount root elements = 0 ∨ publicItemCount root elements > maximumPathElements then
    none
  else if root.any invalidPathCharacters then none
  else if elements.any fun element => element.any invalidPathCharacters then none
  else if totalLength root elements > maximumPathCharacters then none
  else some ⟨format, root, elements, totalLength root elements⟩

end PathData

end ErbslandCore.Path
