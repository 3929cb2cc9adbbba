import Mathlib.Logic.Function.Basic
import ErbslandCore.Conf.ConfError
import ErbslandCore.Library.Except

namespace ErbslandCore.Conf
open Library
set_option autoImplicit true

inductive ValueType where
  | undefined
  | integer
  | boolean
  | float
  | text
  | date
  | time
  | dateTime
  | bytes
  | timeDelta
  | regEx
  | valueList
  | sectionList
  | intermediateSection
  | sectionWithNames
  | sectionWithTexts
  | document
  deriving DecidableEq

namespace ValueType

def isUndefined (type : ValueType) : Bool := type = .undefined

def isMap (type : ValueType) : Bool :=
  type = .sectionWithTexts || type = .sectionWithNames || type = .intermediateSection ||
    type = .document

/-- Sections and lists of sections. -/
def isSectionOrList (type : ValueType) : Bool := type.isMap || type = .sectionList

end ValueType

/-- The address of a value. -/
abbrev ValueId := Nat

/-- A value with children; no value stands for the document. -/
abbrev Container := Option ValueId

structure ValueMap where
  textIndexesAllowed : Bool := false
  valueList : List ValueId := []
  valueMap : Name → Option ValueId := fun _ => none

namespace ValueMap

def empty (children : ValueMap) : Bool := children.valueList.isEmpty

def size (children : ValueMap) : Nat := children.valueList.length

def hasValue (children : ValueMap) (name : Name) : Bool := (children.valueMap name).isSome

def value (children : ValueMap) : Name → Option ValueId
  | .textIndex index =>
    if !children.textIndexesAllowed || children.size ≤ index then none
    else children.valueList[index]?
  | name => children.valueMap name

def valueAt (children : ValueMap) (index : Nat) : Option ValueId := children.valueList[index]?

/-- Values without a name get their index. -/
def newName (children : ValueMap) (name : Option Name) : Name :=
  name.getD (.index children.size)

def addValue (children : ValueMap) (name : Name) (id : ValueId) : ValueMap :=
  { children with
    valueList := children.valueList ++ [id]
    valueMap := Function.update children.valueMap name (some id) }

end ValueMap

structure Value where
  name : Option Name := none
  type : ValueType
  parent : Option Container := none
  location : Location := {}
  children : ValueMap := {}

namespace Value

def isText (value : Value) : Bool := value.name.any Name.isText

def isMeta (value : Value) : Bool := value.name.any Name.isMeta

/-- The empty name is a regular one. -/
def nameType (value : Value) : NameType := (value.name.map Name.type).getD .regular

def transformed (value : Value) (target : ValueType) : Value :=
  { value with
    type := target
    children := if target = .sectionWithTexts then { value.children with textIndexesAllowed := true }
      else value.children }

def transform (value : Value) (target : ValueType) : Except Error Value :=
  if value.type = .intermediateSection then
    if target ≠ .sectionWithNames ∧ target ≠ .sectionWithTexts then
      .error (.logic "Cannot convert intermediate section into the chosen type.")
    else .ok (value.transformed target)
  else if value.type = .sectionWithNames then
    if target ≠ .sectionWithTexts then
      .error (.logic "Cannot convert section with names into the chosen type.")
    else .ok (value.transformed target)
  else .error (.logic "Cannot convert section into the chosen type.")

end Value

/-- The document under construction; the first `count` addresses hold its values. -/
structure DocumentBuilderStorage where
  document : ValueMap := {}
  values : ValueId → Value := fun _ => { type := .undefined }
  count : Nat := 0
  lastSectionNamePath : NamePath := []
  lastSectionValue : Option ValueId := none

namespace DocumentBuilderStorage

def children (s : DocumentBuilderStorage) : Container → ValueMap
  | none => s.document
  | some id => (s.values id).children

def update (s : DocumentBuilderStorage) (id : ValueId) (value : Value) : DocumentBuilderStorage :=
  { s with values := Function.update s.values id value }

def setChildren (s : DocumentBuilderStorage) (children : ValueMap) :
    Container → DocumentBuilderStorage
  | none => { s with document := children }
  | some id => s.update id { s.values id with children }

def setLocation (s : DocumentBuilderStorage) (id : ValueId) (location : Location) :
    DocumentBuilderStorage :=
  s.update id { s.values id with location }

def transform (s : DocumentBuilderStorage) (id : ValueId) (target : ValueType) :
    Except Error DocumentBuilderStorage := do
  let value ← (s.values id).transform target
  return s.update id value

def getChildValue (s : DocumentBuilderStorage) (container : Container) (name : Name) :
    Option ValueId :=
  (s.children container).value name

def lastValue (s : DocumentBuilderStorage) (id : ValueId) : Option ValueId :=
  let children := (s.values id).children
  if children.empty then none else children.valueAt (children.size - 1)

def updateLastSection (s : DocumentBuilderStorage) (sectionValue : ValueId)
    (sectionNamePath : NamePath) : Except Error DocumentBuilderStorage :=
  if sectionNamePath.isEmpty then
    .error (.parameter "sectionNamePath must not be empty." "sectionNamePath")
  else
    .ok { s with
      lastSectionValue := some sectionValue
      lastSectionNamePath := sectionNamePath }

def applyRootRules (namePath : NamePath) (location : Location) (value : Value) :
    Except Error Unit :=
  if !value.type.isSectionOrList && !value.isMeta then
    .error (.conf ⟨.syntaxError, "Can not add a value to the document root.", location, namePath⟩)
  else if value.isText then
    .error (.conf ⟨.nameConflict, "Can not add a section with a text name to a document.", location,
      namePath⟩)
  else .ok ()

def applyContainerRules (s : DocumentBuilderStorage) (container : ValueId) (namePath : NamePath)
    (location : Location) (value : Value) : Except Error DocumentBuilderStorage :=
  if (s.values container).isText && value.type.isMap then
    .error (.conf ⟨.syntaxError, "A section with a text name must not have sub sections.", location,
      namePath⟩)
  else match (s.values container).type with
    | .intermediateSection =>
      if !value.type.isSectionOrList then
        .error (.conf ⟨.syntaxError, "Can not add a value without an existing section.", location,
          namePath⟩)
      else if value.isText then
        if !(s.values container).children.empty then
          .error (.conf ⟨.nameConflict, "Can not mix sections with text-names and regular names.",
            location, namePath⟩)
        else do
          let s ← s.transform container .sectionWithTexts
          return s.setLocation container location
      else .ok s
    | .sectionWithNames =>
      if value.nameType = .text then
        if (s.values container).children.empty then s.transform container .sectionWithTexts
        else
          .error (.conf ⟨.nameConflict,
            "Values and sections with text-names can not be mixed with regular names.", location,
            namePath⟩)
      else .ok s
    | .sectionWithTexts =>
      if value.nameType = .regular then
        .error (.conf ⟨.nameConflict,
          "Values and sections with text-names can not be mixed with regular names.", location,
          namePath⟩)
      else .ok s
    | .sectionList =>
      if value.type ≠ .sectionWithNames then
        .error (.logic "Can only add SectionWithNames to SectionList.")
      else .ok s
    | _ => .error (.logic "Values can only added to containers.")

def insertChild (s : DocumentBuilderStorage) (container : Container) (location : Location)
    (value : Value) : ValueId × DocumentBuilderStorage :=
  let name := (s.children container).newName value.name
  let value := { value with name := some name, parent := some container, location }
  let added := { s.update s.count value with count := s.count + 1 }
  (s.count, added.setChildren ((s.children container).addValue name s.count) container)

def addChildValue (s : DocumentBuilderStorage) (container : Container) (namePath : NamePath)
    (location : Location) (value : Value) : Except Error (ValueId × DocumentBuilderStorage) :=
  if namePath.isEmpty then .error (.parameter "namePath must not be empty." "namePath")
  else match container with
    | none => do
      applyRootRules namePath location value
      return s.insertChild none location value
    | some id => do
      let s ← s.applyContainerRules id namePath location value
      return s.insertChild (some id) location value

/-- The section a value on a name path stands for: the last one of a section list. -/
def enter (s : DocumentBuilderStorage) (id : ValueId) (namePath : NamePath) (location : Location) :
    Except Error ValueId :=
  if (s.values id).type = .sectionList then
    match s.lastValue id with
    | none => .error (.logic "Empty section list element.")
    | some last => .ok last
  else if !(s.values id).type.isMap then
    .error (.conf ⟨.nameConflict, "One if the intermediate elements in the name path is a value.",
      location, namePath⟩)
  else .ok id

/-- Missing sections on the way are created. -/
def resolveParents (namePath : NamePath) (location : Location) :
    DocumentBuilderStorage → Container → List Name →
      Except Error (Container × DocumentBuilderStorage)
  | s, parent, [] => .ok (parent, s)
  | s, parent, name :: names =>
    match s.getChildValue parent name with
    | none => do
      let (id, s) ← s.addChildValue parent namePath location
        { name := some name, type := .intermediateSection }
      resolveParents namePath location s (some id) names
    | some id => do
      let id ← s.enter id namePath location
      resolveParents namePath location s (some id) names

/-- The parent of the last name, and the value that already has the name. -/
def resolveForSection (s : DocumentBuilderStorage) (namePath : NamePath) (back : Name)
    (location : Location) :
    Except Error ((Container × Option ValueId) × DocumentBuilderStorage) := do
  let (parent, s) ← resolveParents namePath location s none namePath.dropLast
  return ((parent, s.getChildValue parent back), s)

def resolveExisting (s : DocumentBuilderStorage) (namePath : NamePath) (location : Location) :
    Container → List Name → Except Error Container
  | sectionValue, [] => .ok sectionValue
  | sectionValue, name :: names =>
    match s.getChildValue sectionValue name with
    | none => .error (.conf ⟨.syntaxError, "Can not add a value to a non-existing section.",
        location, namePath⟩)
    | some id => do
      let id ← s.enter id namePath location
      resolveExisting s namePath location (some id) names

def resolveForValue (s : DocumentBuilderStorage) (namePath : NamePath) (location : Location) :
    Except Error Container :=
  if namePath.isEmpty then
    .error (.conf ⟨.syntaxError, "Can not add a value with an empty name path.", location, []⟩)
  else if namePath.containsIndex then
    .error (.conf ⟨.syntaxError, "Can not add a value with an index in the name path.", location,
      namePath⟩)
  else if namePath.length = 1 then .ok s.lastSectionValue
  else s.resolveExisting namePath location none namePath.dropLast

end DocumentBuilderStorage
end ErbslandCore.Conf
