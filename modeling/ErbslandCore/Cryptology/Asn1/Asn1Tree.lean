import ErbslandCore.Cryptology.Asn1.DerParser
import ErbslandCore.Library.MinimalOctets

namespace ErbslandCore.Cryptology
open Library
set_option autoImplicit true

/-- What an encoding says: tags, forms and the contents of primitive values. -/
inductive Asn1Tree where
  | primitive (tagClass : Asn1TagClass) (tagNumber : Nat) (content : List UInt8)
  | constructed (tagClass : Asn1TagClass) (tagNumber : Nat) (children : List Asn1Tree)

def Asn1TagClass.bits : Asn1TagClass → Nat
  | .universal => 0
  | .application => 1
  | .context => 2
  | .privateUse => 3

namespace Asn1Tree

/-- The only accepted bytes of a tag. -/
def identifierBytes (tagClass : Asn1TagClass) (constructed : Bool) (tagNumber : Nat) : List UInt8 :=
  let form := tagClass.bits * 64 + if constructed then 32 else 0
  if tagNumber < 31 then [UInt8.ofNat (form + tagNumber)]
  else UInt8.ofNat (form + 31) :: toBase128 tagNumber

/-- The only accepted bytes of a length. -/
def lengthBytes (length : Nat) : List UInt8 :=
  if length < 128 then [UInt8.ofNat length]
  else UInt8.ofNat (128 + octetCount length) :: minimalOctets length

def header (tagClass : Asn1TagClass) (constructed : Bool) (tagNumber length : Nat) : List UInt8 :=
  identifierBytes tagClass constructed tagNumber ++ lengthBytes length

mutual

/-- The distinguished encoding. -/
def encode : Asn1Tree → List UInt8
  | primitive tagClass tagNumber content =>
    header tagClass false tagNumber content.length ++ content
  | constructed tagClass tagNumber children =>
    header tagClass true tagNumber (encodeAll children).length ++ encodeAll children

def encodeAll : List Asn1Tree → List UInt8
  | [] => []
  | child :: children => encode child ++ encodeAll children

end

mutual

def depth : Asn1Tree → Nat
  | primitive _ _ _ => 1
  | constructed _ _ children => depthAll children + 1

def depthAll : List Asn1Tree → Nat
  | [] => 0
  | child :: children => max (depth child) (depthAll children)

end

mutual

def nodeCount : Asn1Tree → Nat
  | primitive _ _ _ => 1
  | constructed _ _ children => nodeCountAll children + 1

def nodeCountAll : List Asn1Tree → Nat
  | [] => 0
  | child :: children => nodeCount child + nodeCountAll children

end

/-- The order of encodings. -/
def before (left right : Asn1Tree) : Bool := ¬ right.encode < left.encode

mutual

/-- The contents are those of the universal types, and the members of a set are in order. -/
def Canonical : Asn1Tree → Prop
  | primitive tagClass tagNumber content => tagNumber < 2 ^ 32 ∧
      (∀ offset, DerParser.validateUniversalForm tagClass tagNumber false offset = .ok ()) ∧
      ∀ offset, DerParser.validatePrimitive tagClass tagNumber offset content = .ok ()
  | constructed tagClass tagNumber children => tagNumber < 2 ^ 32 ∧
      (∀ offset, DerParser.validateUniversalForm tagClass tagNumber true offset = .ok ()) ∧
      (tagClass = .universal ∧ tagNumber = Asn1UniversalType.set →
        children.Pairwise fun left right => before left right) ∧ CanonicalAll children

def CanonicalAll : List Asn1Tree → Prop
  | [] => True
  | child :: children => Canonical child ∧ CanonicalAll children

end

theorem encodeAll_eq (children : List Asn1Tree) : encodeAll children = children.flatMap encode := by
  induction children with
  | nil => rfl
  | cons child children ih => rw [encodeAll, ih, List.flatMap_cons]

theorem CanonicalAll_iff (children : List Asn1Tree) :
    CanonicalAll children ↔ ∀ child ∈ children, Canonical child := by
  induction children with
  | nil => simp [CanonicalAll]
  | cons child children ih => simp [CanonicalAll, ih]

theorem length_lengthBytes_pos (length : Nat) : 0 < (lengthBytes length).length := by
  unfold lengthBytes
  split
  next => exact Nat.one_pos
  next => exact Nat.succ_pos _

theorem encode_length_pos (tree : Asn1Tree) : 0 < tree.encode.length := by
  cases tree with
  | primitive tagClass tagNumber content =>
    have hlength := length_lengthBytes_pos content.length
    rw [encode, header, List.length_append, List.length_append]
    omega
  | constructed tagClass tagNumber children =>
    have hlength := length_lengthBytes_pos (encodeAll children).length
    rw [encode, header, List.length_append, List.length_append]
    omega

end Asn1Tree

namespace Asn1Node

mutual

/-- The tree that a node stands for. -/
def tree : Asn1Node → Asn1Tree
  | node encodedData headerLength tagNumber children =>
    if isConstructedIdentifier (encodedData.headD 0) then
      .constructed (tagClassOf (encodedData.headD 0)) tagNumber (trees children)
    else .primitive (tagClassOf (encodedData.headD 0)) tagNumber (encodedData.drop headerLength)

def trees : List Asn1Node → List Asn1Tree
  | [] => []
  | child :: children => tree child :: trees children

end

theorem trees_eq (children : List Asn1Node) : trees children = children.map tree := by
  induction children with
  | nil => rfl
  | cons child children ih => rw [trees, ih, List.map_cons]

end Asn1Node
end ErbslandCore.Cryptology
