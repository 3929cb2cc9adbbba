import ErbslandCore.Library.Except
import Mathlib.Algebra.Group.Nat.Defs

namespace ErbslandCore.Re
open Library
set_option autoImplicit true

inductive ErrorCategory where
  | parser
  | format
  | assembler
  | engine
  | timeout
  | limit
  | internal
  deriving DecidableEq

structure RegExError where
  category : ErrorCategory
  title : String
  description : String
  deriving DecidableEq

/-- The failure of a check that is only made for safety. -/
def internalError (message : String) : RegExError :=
  ⟨.internal, "Internal regular-expression failure", message⟩

/-- The check of a condition that holds in a correct program. -/
def requireSafety (condition : Prop) [Decidable condition] (message : String) :
    Except RegExError Unit :=
  if condition then .ok () else .error (internalError message)

theorem requireSafety_eq_ok {condition : Prop} [Decidable condition]
    (h : requireSafety condition message = .ok u) : condition := by
  unfold requireSafety at h
  split at h
  case isTrue hc => exact hc
  case isFalse => cases h

theorem requireSafety_pos {condition : Prop} [Decidable condition] (h : condition) :
    requireSafety condition message = .ok () := if_pos h

def maximumCounterCount : Nat := 15
def maximumActiveThreads : Nat := 10000
def maximumProgramLength : Nat := 65534

/-- An operation of the engine; values without an operation keep their number. -/
inductive Operation where
  | none
  | split
  | jump
  | match
  | notMatch
  | anchor
  | assertCategory
  | notAssertCategory
  | startCapture
  | stopCapture
  | counter
  | addCounter
  | maximum
  | skipIfMaximum
  | minimum
  | success
  | failure
  | startAtomic
  | stopAtomic
  | char
  | ciChar
  | notChar
  | notCiChar
  | sequence
  | ciSequence
  | category
  | notCategory
  | «class»
  | ciClass
  | notClass
  | notCiClass
  | any
  | unknown (raw : Nat)
  deriving DecidableEq

namespace Operation

def raw : Operation → Nat
  | none => 0x00
  | split => 0x81
  | jump => 0xC2
  | «match» => 0x83
  | notMatch => 0xA3
  | anchor => 0x84
  | assertCategory => 0x85
  | notAssertCategory => 0xA5
  | startCapture => 0x86
  | stopCapture => 0xA6
  | counter => 0x87
  | addCounter => 0x97
  | maximum => 0x88
  | skipIfMaximum => 0x98
  | minimum => 0x89
  | success => 0x8A
  | failure => 0xAA
  | startAtomic => 0x8B
  | stopAtomic => 0xAB
  | char => 0x01
  | ciChar => 0x09
  | notChar => 0x21
  | notCiChar => 0x29
  | sequence => 0x02
  | ciSequence => 0x0A
  | category => 0x03
  | notCategory => 0x23
  | «class» => 0x04
  | ciClass => 0x0C
  | notClass => 0x24
  | notCiClass => 0x2C
  | any => 0x05
  | unknown value => value

/-- The operations that have a number of their own. -/
def all : List Operation :=
  [none, split, jump, «match», notMatch, anchor, assertCategory, notAssertCategory,
    startCapture, stopCapture, counter, addCounter, maximum, skipIfMaximum, minimum, success,
    failure, startAtomic, stopAtomic, char, ciChar, notChar, notCiChar, sequence, ciSequence,
    category, notCategory, «class», ciClass, notClass, notCiClass, any]

def ofRaw (value : Nat) : Operation :=
  (all.find? fun op => op.raw == value).getD (unknown value)

/-- Flow operations do not consume characters. -/
def isFlow (op : Operation) : Bool := op.raw &&& 0x80 != 0

def isCaseInsensitive (op : Operation) : Bool := op.raw &&& 0x08 != 0

def fromCode (code : Nat) : Operation := ofRaw (code / 2 ^ 24)

def toCode (op : Operation) : Nat := op.raw * 2 ^ 24

theorem ofRaw_raw (h : op ∈ all) : ofRaw op.raw = op := by
  revert op
  decide

/-- The operand bits of a code word do not disturb its operation. -/
theorem fromCode_toCode_add (h : op ∈ all) (hx : x < 2 ^ 24) :
    fromCode (op.toCode + x) = op := by
  have hd : (op.toCode + x) / 2 ^ 24 = op.raw := by
    unfold toCode
    omega
  rw [fromCode, hd, ofRaw_raw h]

end Operation

/-- The code words of a program; each holds 32 bits. -/
abbrev Program := List Nat

namespace Program

def extractLowerWord (code : Nat) : Nat := code % 2 ^ 16

def extractHigherByte (code : Nat) : Nat := code / 2 ^ 16 % 2 ^ 8

def extractLower24bits (code : Nat) : Nat := code % 2 ^ 24

def peekOperation (program : Program) (programCounter : Nat) : Operation :=
  match program[programCounter]? with
  | some code => Operation.fromCode code
  | none => .failure

def readCode (program : Program) (programCounter : Nat) : Except RegExError Nat :=
  match program[programCounter]? with
  | some code => .ok code
  | none => .error
      (internalError "While reading program code, program counter out of bounds")

/-- Read the code word of an operation and decode its operands. -/
def readOperands (extract : Nat → α) (program : Program) (programCounter : Nat) :
    Except RegExError α := extract <$> program.readCode programCounter

def readSplit (program : Program) (programCounter : Nat) : Except RegExError (Nat × Nat) := do
  let programCounterA ← program.readOperands extractLowerWord programCounter
  let programCounterB ← program.readOperands extractLowerWord (programCounter + 1)
  return (programCounterA, programCounterB)

def readJump : Program → Nat → Except RegExError Nat := readOperands extractLowerWord

def readAnchorValue : Program → Nat → Except RegExError Nat := readOperands (· % 2 ^ 8)

def readCapture : Program → Nat → Except RegExError Nat := readOperands extractLowerWord

def readAtomic : Program → Nat → Except RegExError Nat := readOperands extractLowerWord

/-- The counter index and the value of a counter operation. -/
def readCounter : Program → Nat → Except RegExError (Nat × Nat) :=
  readOperands fun code => (extractHigherByte code, extractLowerWord code)

def readCharValue : Program → Nat → Except RegExError Nat := readOperands extractLower24bits

/-- The offset and the length of a character sequence. -/
def readSequence : Program → Nat → Except RegExError (Nat × Nat) :=
  readOperands fun code => (extractLowerWord code, extractHigherByte code)

def readCategoryValue : Program → Nat → Except RegExError Nat := readOperands extractLower24bits

def readClass : Program → Nat → Except RegExError Nat := readOperands extractLowerWord

theorem readCode_eq {program : Program} (h : program[pc]? = some code) :
    program.readCode pc = .ok code := by
  simp only [readCode, h]

theorem readOperands_eq {program : Program} (h : program[pc]? = some code) :
    program.readOperands extract pc = .ok (extract code) := by
  simp only [readOperands, readCode_eq h]
  rfl

theorem peekOperation_eq {program : Program} (h : program[pc]? = some code) :
    program.peekOperation pc = Operation.fromCode code := by
  simp only [peekOperation, h]

end Program

end ErbslandCore.Re
