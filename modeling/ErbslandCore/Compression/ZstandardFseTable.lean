import ErbslandCore.Compression.Codec
import ErbslandCore.Library.EntropyStates

namespace ErbslandCore.Compression.Zstandard
open Library EntropyStates
set_option autoImplicit true

/-- One state transition in a decoding table. -/
structure ZstandardFseEntry where
  symbol : Nat := 0
  bitCount : Nat := 0
  stateBase : Nat := 0
  deriving DecidableEq, Inhabited

def cEntryCount : Nat := 512

structure ZstandardFseTable where
  entries : List ZstandardFseEntry := List.replicate cEntryCount {}
  size : Nat := 0
  accuracyLog : Nat := 0
  entries_length : entries.length = cEntryCount := by simp

/-- A count of minus one stands for a probability of less than one. -/
def probability (count : Int) : Nat := if count = -1 then 1 else count.toNat

/-- Validate the distribution before any count controls an index or a shift. -/
def checkCounts (tableSize total : Nat) : (counts : List Int) → Except CodecError Nat
  | [] => .ok total
  | count :: counts =>
    if count < -1 then throwMalformed "Invalid Zstandard FSE probability."
    else if tableSize - total < probability count then
      throwMalformed "Zstandard FSE probabilities exceed the table."
    else checkCounts tableSize (total + probability count) counts

/-- The entries while symbols are assigned to them, and the cells that were assigned so far. -/
structure Spreading where
  entries : List ZstandardFseEntry
  cells : List Nat := []
  deriving DecidableEq

def Spreading.assign (s : Spreading) (cell symbol : Nat) : Spreading where
  entries := s.entries.set cell { s.entries[cell]! with symbol := symbol % 2 ^ 8 }
  cells := s.cells ++ [cell]

/-- Give the last cells to the symbols with a probability of less than one. -/
def enterLow (symbol : Nat) (s : Spreading) (lowProbabilityStart : Nat) (next : List Nat) :
    (counts : List Int) → Spreading × Nat × List Nat
  | [] => (s, lowProbabilityStart, next)
  | count :: counts =>
    if count = -1 then
      enterLow (symbol + 1) (s.assign (lowProbabilityStart - 1) symbol) (lowProbabilityStart - 1)
        (next.set symbol 1) counts
    else enterLow (symbol + 1) s lowProbabilityStart (next.set symbol (count.toNat % 2 ^ 16)) counts

section
variable (step mask low : Nat)

/-- Step over the cells that are taken; nothing if the fuel does not suffice. -/
def skip : (fuel position : Nat) → Option Nat
  | 0, _ => none
  | fuel + 1, position =>
    if low ≤ position then skip fuel ((position + step) &&& mask) else some position

def spreadSymbol (fuel symbol : Nat) :
    (count : Nat) → Spreading × Nat → Option (Spreading × Nat)
  | 0, s => some s
  | count + 1, (s, position) => do
    let next ← skip step mask low fuel ((position + step) &&& mask)
    spreadSymbol fuel symbol count (s.assign position symbol, next)

def spreadSymbols (fuel : Nat) (symbol : Nat) (s : Spreading × Nat) :
    (counts : List Int) → Option (Spreading × Nat)
  | [] => some s
  | count :: counts => do
    let s ← spreadSymbol step mask low fuel symbol count.toNat s
    spreadSymbols fuel (symbol + 1) s counts

end

/-- Assign a symbol to every cell. The result holds the last position and the state counters. -/
def assignSymbols (fuel : Nat) (entries : List ZstandardFseEntry) (counts : List Int)
    (accuracyLog : Nat) : Option (Spreading × Nat × List Nat) := do
  let tableSize := 1 <<< accuracyLog
  let low := enterLow 0 { entries := entries } tableSize (List.replicate 256 0) counts
  let step := (tableSize >>> 1) + (tableSize >>> 3) + 3
  let (s, position) ← spreadSymbols step (tableSize - 1) low.2.1 fuel 0 (low.1, 0) counts
  return (s, position, low.2.2)

/-- Number the states of each symbol and give each its range of next states. -/
def enterStates (accuracyLog tableSize : Nat) (next : List Nat)
    (entries : List ZstandardFseEntry) :
    (states : List Nat) → Except CodecError (List ZstandardFseEntry)
  | [] => .ok entries
  | state :: states =>
    let symbol := entries[state]!.symbol
    let nextState := next[symbol]!
    if nextState = 0 then throwMalformed "Invalid Zstandard FSE state."
    else
      let highBit := Nat.log2 nextState
      let bitCount := (accuracyLog + 2 ^ 8 - highBit) % 2 ^ 8
      let stateBase := ((nextState <<< bitCount) + 2 ^ 32 - tableSize) % 2 ^ 16
      enterStates accuracyLog tableSize (next.set symbol ((nextState + 1) % 2 ^ 16))
        (entries.set state { symbol := symbol, bitCount := bitCount, stateBase := stateBase }) states

theorem enterStates_length (h : enterStates accuracyLog tableSize next entries states = .ok result) :
    result.length = entries.length := by
  induction states generalizing next entries with
  | nil =>
    cases h
    rfl
  | cons state states ih =>
    rw [enterStates] at h
    split at h
    case isTrue => cases h
    case isFalse => exact (ih h).trans (List.length_set ..)

theorem Spreading.assign_length (s : Spreading) (cell symbol : Nat) :
    (s.assign cell symbol).entries.length = s.entries.length := List.length_set ..

theorem enterLow_length (symbol : Nat) (s : Spreading) (low : Nat) (next : List Nat)
    (counts : List Int) :
    (enterLow symbol s low next counts).1.entries.length = s.entries.length := by
  induction counts generalizing symbol s low next with
  | nil => rfl
  | cons count counts ih =>
    rw [enterLow]
    split
    case isTrue => rw [ih, Spreading.assign_length]
    case isFalse => exact ih ..

theorem spreadSymbol_length (h : spreadSymbol step mask low fuel symbol count s = some s') :
    s'.1.entries.length = s.1.entries.length := by
  induction count generalizing s with
  | zero =>
    cases h
    rfl
  | succ count ih =>
    obtain ⟨next, _, h⟩ := Option.bind_eq_some_iff.mp h
    exact (ih h).trans (Spreading.assign_length ..)

theorem spreadSymbols_length (h : spreadSymbols step mask low fuel symbol s counts = some s') :
    s'.1.entries.length = s.1.entries.length := by
  induction counts generalizing symbol s with
  | nil =>
    cases h
    rfl
  | cons count counts ih =>
    obtain ⟨s₁, h₁, h⟩ := Option.bind_eq_some_iff.mp h
    exact (ih h).trans (spreadSymbol_length h₁)

theorem assignSymbols_length (h : assignSymbols fuel entries counts accuracyLog = some result) :
    result.1.entries.length = entries.length := by
  obtain ⟨⟨s, position⟩, hs, h⟩ := Option.bind_eq_some_iff.mp h
  cases h
  exact (spreadSymbols_length hs).trans (enterLow_length ..)

namespace ZstandardFseTable

/-- Build a table from normalized counts; nothing if the fuel does not suffice. -/
def build (fuel : Nat) (table : ZstandardFseTable) (counts : List Int) (accuracyLog : Nat) :
    Option (Except CodecError ZstandardFseTable) :=
  if accuracyLog < 5 ∨ 9 < accuracyLog ∨ counts = [] ∨ 256 < counts.length then
    some (throwMalformed "Invalid Zstandard FSE table dimensions.")
  else
    let tableSize := 1 <<< accuracyLog
    match checkCounts tableSize 0 counts with
    | .error e => some (.error e)
    | .ok total =>
      if total ≠ tableSize then
        some (throwMalformed "Zstandard FSE probabilities do not sum.")
      else
        match _h : assignSymbols fuel table.entries counts accuracyLog with
        | none => none
        | some (s, position, next) =>
          if position ≠ 0 then some (throwMalformed "Zstandard FSE probabilities do not sum.")
          else
            match _hs : enterStates accuracyLog tableSize next s.entries (List.range tableSize) with
            | .error e => some (.error e)
            | .ok entries => some (.ok {
                entries := entries
                size := tableSize
                accuracyLog := accuracyLog
                entries_length := (enterStates_length _hs).trans
                  ((assignSymbols_length _h).trans table.entries_length) })

end ZstandardFseTable

end ErbslandCore.Compression.Zstandard
