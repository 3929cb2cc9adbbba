import Mathlib.Data.List.Basic

namespace ErbslandCore.Conf
set_option autoImplicit true

/-- The texts a name can have. -/
abbrev NameText := { text : List Char // text ≠ [] }

inductive NameType where
  | regular
  | text
  | index
  | textIndex
  deriving DecidableEq

/-- A valid name; the empty name of the source, a placeholder, is a missing name. -/
inductive Name where
  | regular (text : NameText)
  | text (text : NameText)
  | index (index : Nat)
  | textIndex (index : Nat)
  deriving DecidableEq

namespace Name

def type : Name → NameType
  | .regular _ => .regular
  | .text _ => .text
  | .index _ => .index
  | .textIndex _ => .textIndex

def isText (name : Name) : Bool := name.type = .text

def isIndex (name : Name) : Bool := name.type = .index

def isTextIndex (name : Name) : Bool := name.type = .textIndex

/-- A regular name that begins with `@`. -/
def isMeta : Name → Bool
  | .regular chars => chars.1.head? = some '@'
  | _ => false

def metaSignature : Name := .regular ⟨"@signature".toList, by decide⟩

def metaInclude : Name := .regular ⟨"@include".toList, by decide⟩

end Name

abbrev NamePath := List Name

namespace NamePath

def containsIndex (namePath : NamePath) : Bool :=
  namePath.any fun name => name.isIndex || name.isTextIndex

theorem not_containsIndex {namePath : NamePath} (h : namePath.containsIndex = false)
    (hname : name ∈ namePath) : name.isIndex = false ∧ name.isTextIndex = false := by
  have := List.any_eq_false.1 h name hname
  simpa using this

end NamePath

structure SourceIdentifier where
  name : List Char
  path : List Char
  deriving DecidableEq

/-- A line and a column of a source. -/
structure CodeLocation where
  line : Nat
  column : Nat
  deriving DecidableEq

structure Location where
  sourceIdentifier : Option SourceIdentifier := none
  codeLocation : Option CodeLocation := none
  deriving DecidableEq

def Location.isUndefined (location : Location) : Bool :=
  location.sourceIdentifier.isNone && location.codeLocation.isNone

inductive ConfErrorCategory where
  | io
  | encoding
  | unexpectedEnd
  | character
  | syntaxError
  | limitExceeded
  | nameConflict
  | indentation
  | unsupported
  | signature
  | access
  | validation
  | internal
  | valueNotFound
  | typeMismatch
  deriving DecidableEq

structure ConfError where
  category : ConfErrorCategory
  message : String
  location : Location := {}
  namePath : NamePath := []
  deriving DecidableEq

def ConfError.withLocation (error : ConfError) (location : Location) : ConfError :=
  { error with location }

/-- The exceptions of the configuration module. -/
inductive Error where
  | conf (error : ConfError)
  | logic (message : String)
  | parameter (message parameterName : String)
  deriving DecidableEq

end ErbslandCore.Conf
