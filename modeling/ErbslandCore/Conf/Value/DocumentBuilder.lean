import ErbslandCore.Conf.Value.DocumentBuilderStorage

namespace ErbslandCore.Conf
open Library
set_option autoImplicit true

/-- A value that is handed to the builder; mostly it has no name yet. -/
structure NewValue where
  type : ValueType
  name : Option Name := none

namespace DocumentBuilderStorage

def addSectionMap (s : DocumentBuilderStorage) (namePath : NamePath) (location : Location) :
    Except Error DocumentBuilderStorage :=
  match namePath.getLast? with
  | none =>
    .error (.conf ⟨.syntaxError, "Can not create section with empty name path.", location, []⟩)
  | some back =>
    if namePath.containsIndex then
      .error (.conf ⟨.syntaxError, "Can not create section with an index in the name path.",
        location, namePath⟩)
    else do
      let ((parent, value), s) ← s.resolveForSection namePath back location
      match value with
      | some id =>
        if (s.values id).type ≠ .intermediateSection then
          .error (.conf ⟨.nameConflict, "A section or value with the same name already exists. " ++
            "This is a conflict with the new section.", location, namePath⟩)
        else do
          let s ← s.transform id .sectionWithNames
          (s.setLocation id location).updateLastSection id namePath
      | none => do
        let (id, s) ← s.addChildValue parent namePath location
          { name := some back, type := .sectionWithNames }
        s.updateLastSection id namePath

def addSectionList (s : DocumentBuilderStorage) (namePath : NamePath) (location : Location) :
    Except Error DocumentBuilderStorage :=
  match namePath.getLast? with
  | none =>
    .error (.conf ⟨.syntaxError, "Can not create section list with empty name path.", location, []⟩)
  | some back =>
    if namePath.containsIndex then
      .error (.conf ⟨.syntaxError, "Can not create section list with an index in the name path.",
        location, namePath⟩)
    else if back.isText then
      .error (.conf ⟨.syntaxError, "Can not create section list with a text name.", location,
        namePath⟩)
    else do
      let ((parent, value), s) ← s.resolveForSection namePath back location
      match value with
      | some list =>
        if (s.values list).type ≠ .sectionList then
          .error (.conf ⟨.nameConflict, "A section map or value with the same name already exists. " ++
            "This is a conflict with the new section list.", location, namePath⟩)
        else do
          let (id, s) ← s.addChildValue (some list) namePath location { type := .sectionWithNames }
          s.updateLastSection id namePath
      | none => do
        let (list, s) ← s.addChildValue parent namePath location
          { name := some back, type := .sectionList }
        let (id, s) ← s.addChildValue (some list) namePath location { type := .sectionWithNames }
        s.updateLastSection id namePath

/-- No value stands for a null pointer. -/
def addValue (s : DocumentBuilderStorage) (namePath : NamePath) (value : Option NewValue)
    (location : Location) : Except Error DocumentBuilderStorage :=
  match value with
  | none => .error (.parameter "value must not be null." "value")
  | some value =>
    if value.type.isUndefined then .error (.logic "Can not add an undefined value.")
    else if value.type.isSectionOrList then
      .error (.logic "Use the 'addSection...' methods for adding containers.")
    else do
      let sectionValue ← s.resolveForValue namePath location
      let name := value.name <|> namePath.getLast?
      if sectionValue.any fun id => name.any (s.values id).children.hasValue then
        .error (.conf ⟨.nameConflict, "A value with the same name already exists.", location,
          namePath⟩)
      else do
        let (_, s) ← s.addChildValue sectionValue namePath location { name, type := value.type }
        return s

end DocumentBuilderStorage

/-- The calls that add something to a document. -/
inductive BuilderCall where
  | addSectionMap (namePath : NamePath) (location : Location)
  | addSectionList (namePath : NamePath) (location : Location)
  | addValue (namePath : NamePath) (value : Option NewValue) (location : Location)

namespace DocumentBuilderStorage

def call (s : DocumentBuilderStorage) : BuilderCall → Except Error DocumentBuilderStorage
  | .addSectionMap namePath location => s.addSectionMap namePath location
  | .addSectionList namePath location => s.addSectionList namePath location
  | .addValue namePath value location => s.addValue namePath value location

/-- The document after calls of which none fails. -/
def build (calls : List BuilderCall) : Except Error DocumentBuilderStorage :=
  calls.foldlM call {}

end DocumentBuilderStorage
end ErbslandCore.Conf
